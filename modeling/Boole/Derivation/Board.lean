import Boole.Derivation.Onward

/-!
# Derivation/Board — the machine of pools, rounds and problems

The part of the state that poses problems: pools of leaves, the rounds of each slot, the problems and
the queue of those to be posed again.  **`BoardStep` lists everything that can happen to it**, and
every step of a run is a sequence of such steps (`Onward.board`), with the leaves it draws.

    waiting ──draw──▸ drawn ──PROBLEM──▸ open ──deadline, winner, void──▸ closed
       ▲                 └───── grace over ─────▸ withheld                  │
       └──────────────── a gap later, the next round or a re-pose ──────────┘
-/

open Std Library Relation

namespace Derivation

open Draft

variable {p : Hash} {s : State} {code : UInt8} {m : M3State} {forks : ForkTable}
  {items : List Input} {inbox : Draft.Inbox}

@[ext] structure Board where
  pools : ExtTreeMap ℕ Pool
  rounds : ExtTreeMap (ℕ × ℕ) Round lexOrd.compare
  slots : List Slot
  problems : ExtTreeMap Hash Problem
  repose : List (List Problem)

def State.board (s : State) : Board := ⟨s.pools, s.rounds, s.slots, s.problems, s.repose⟩

/-- **What can happen to the board at a height**, with the pool and the index of a leaf that is drawn.
Only problems for which `G` holds are queued to be posed again. -/
inductive BoardStep (cr : Crypto) (c : Config) (h : ℕ) (G : Board → Hash → Prop) (B : Board) :
    List (ℕ × ℕ) → Board → Prop
  | ended {slot : ℕ} {params : SlotParams} (hparams : c.slotTable[slot]? = some params)
      {active : Slot} (hslot : B.slots[slot]? = some active) {key : ℕ × ℕ}
      (hkey : active.active = some key) {r : Round} (hr : B.rounds[key]? = some r)
      {status : RoundStatus} (hend : r.status = .drawn ∧ status = .withheld ∨
        r.status = .opened ∧ status = .closed) :
      BoardStep cr c h G B [] { B with
        rounds := B.rounds.insert key { r with status }
        problems := closeProblem B.problems r.problem h
        slots := B.slots.set slot
          { active with active := none, scheduled := checkedAdd 64 h params.announceGap } }
  | dropped {slot : ℕ} {old : Problem} {rest : List Problem}
      (hqueue : B.repose[slot]? = some (old :: rest)) (hepoch : 2 ^ 32 ≤ old.epoch + 1) :
      BoardStep cr c h G B [] { B with repose := B.repose.set slot rest }
  | reposed {slot : ℕ} {waiting : Slot} (hslot : B.slots[slot]? = some waiting)
      (hidle : waiting.active = none) (hround : waiting.round + 1 < 2 ^ 32) {old : Problem}
      {rest : List Problem} (hqueue : B.repose[slot]? = some (old :: rest))
      (hepoch : old.epoch + 1 < 2 ^ 32) {pool : Pool} (hpool : B.pools[old.poolSeq]? = some pool)
      {id : Hash}
      (hid : id = problemId cr c.chainId pool.root old.leafIndex old.instanceSeed (old.epoch + 1)) :
      BoardStep cr c h G B [] { B with
        repose := B.repose.set slot rest
        problems := B.problems.insert id { old with
          id
          epoch := old.epoch + 1
          closed := none
          winner := none
          voided := false
          hV := h }
        rounds := B.rounds.insert (slot, waiting.round + 1)
          ⟨old.poolSeq, old.leafIndex, old.instanceSeed, h - 1, .opened, some id⟩
        slots := B.slots.set slot ⟨waiting.round + 1, none, some (slot, waiting.round + 1)⟩ }
  | waits {slot : ℕ} {waiting : Slot} (hslot : B.slots[slot]? = some waiting)
      (hidle : waiting.active = none) :
      BoardStep cr c h G B []
        { B with slots := B.slots.set slot { waiting with scheduled := some h } }
  | drawn {slot : ℕ} {waiting : Slot} (hslot : B.slots[slot]? = some waiting)
      (hidle : waiting.active = none) (hround : waiting.round + 1 < 2 ^ 32) {seq : ℕ} {pool : Pool}
      (hpool : B.pools[seq]? = some pool) (hmine : pool.slot = slot) {index : ℕ}
      (hindex : index ∈ pool.unused) {seed : Hash} :
      BoardStep cr c h G B [(seq, index)] { B with
        pools := B.pools.insert seq { pool with unused := pool.unused.erase index }
        rounds := B.rounds.insert (slot, waiting.round + 1) ⟨seq, index, seed, h - 1, .drawn, none⟩
        slots := B.slots.set slot ⟨waiting.round + 1, none, some (slot, waiting.round + 1)⟩ }
  | pooled {b : PoolBody} {s : State} (hs : s.pools = B.pools)
      (hleaves : ((unusedLeaves s b.slot).bind (checkedAdd 64 · b.count)).any (· ≤ c.slotLeavesMax))
      (hseq : checkedAdd 32 ((B.pools.toList.getLast?.map (·.1)).getD 0) 1 = some b.seq)
      (hroot : ∀ e ∈ B.pools.toList, e.2.root ≠ b.root) {slot : Slot}
      (hslot : B.slots[b.slot]? = some slot) :
      BoardStep cr c h G B [] { B with
        pools := B.pools.insert b.seq ⟨b.slot, b.root, b.start, b.count, List.range b.count⟩
        slots := B.slots.set b.slot (scheduleSlot slot b.start) }
  | posed {key : ℕ × ℕ} {r : Round} (hr : B.rounds[key]? = some r) (hdrawn : r.status = .drawn)
      {pool : Pool} (hpool : B.pools[r.poolSeq]? = some pool) {id : Hash}
      (hid : id = problemId cr c.chainId pool.root r.leafIndex r.instanceSeed 0) {revealPos : Pos}
      {requiredPkgs : List Hash} :
      BoardStep cr c h G B [] { B with
        rounds := B.rounds.insert key { r with status := .opened, problem := some id }
        problems := B.problems.insert id ⟨revealPos, none, false, key.1, id, requiredPkgs, h, none,
          r.poolSeq, r.leafIndex, r.instanceSeed, 0⟩ }
  | won {p : Hash} {P : Problem} (hP : B.problems[p]? = some P) (hnone : P.winner = none) (ch : Hash) :
      BoardStep cr c h G B []
        { B with problems := B.problems.insert p { P with winner := some ch } }
  | voided {p : Hash} {P : Problem} (hP : B.problems[p]? = some P) :
      BoardStep cr c h G B [] { B with problems := B.problems.insert p { P with voided := true } }
  | shut {p : Hash} {P : Problem} (hP : B.problems[p]? = some P) (hopen : P.closed = none) :
      BoardStep cr c h G B [] { B with problems := B.problems.insert p { P with closed := some h } }
  | settled {p : Hash} {P : Problem} (hP : B.problems[p]? = some P) (hopen : P.closed = none)
      {key : ℕ × ℕ} {r : Round} (hr : B.rounds[key]? = some r) (hproblem : r.problem = some p)
      {slot : Slot} (hslot : B.slots[P.slot]? = some slot) (hactive : slot.active ≠ some key) :
      BoardStep cr c h G B [] { B with
        problems := B.problems.insert p { P with closed := some h }
        rounds := B.rounds.insert key { r with status := .closed } }
  | freed {p : Hash} {P : Problem} (hP : B.problems[p]? = some P) (hopen : P.closed = none)
      {key : ℕ × ℕ} {r : Round} (hr : B.rounds[key]? = some r) (hproblem : r.problem = some p)
      {slot : Slot} (hslot : B.slots[P.slot]? = some slot) (hactive : slot.active = some key)
      {next : ℕ} :
      BoardStep cr c h G B [] { B with
        problems := B.problems.insert p { P with closed := some h }
        rounds := B.rounds.insert key { r with status := .closed }
        slots := B.slots.set P.slot { slot with active := none, scheduled := some next } }
  | requeued {p : Hash} (hG : G B p) {P : Problem} (hP : B.problems[p]? = some P)
      {queue : List Problem} (hqueue : B.repose[P.slot]? = some queue)
      (hnew : ∀ x ∈ queue, x.id ≠ P.id) :
      BoardStep cr c h G B [] { B with repose := B.repose.set P.slot (queue ++ [P]) }

/-- The problems after the round of one of them has ended. -/
theorem getElem?_closeProblem (problems : ExtTreeMap Hash Problem) (p : Option Hash) (h : ℕ)
    (a : Hash) : (closeProblem problems p h)[a]? =
      if p = some a then problems[a]?.map fun P : Problem => { P with closed := some h }
      else problems[a]? := by
  cases p with
  | none => simp [closeProblem]
  | some id =>
    rw [closeProblem, ExtTreeMap.getElem?_modify]
    simp only [LawfulEqCmp.compare_eq_iff_eq, Option.some.injEq]
    split_ifs with heq
    · rw [heq]
    · rfl

/-- What closing a problem keeps of every problem holds afterwards. -/
theorem forall_closeProblem {Q : Hash → Problem → Prop} {problems : ExtTreeMap Hash Problem}
    {p : Option Hash} {h : ℕ} (hm : ∀ a P, problems[a]? = some P → Q a P)
    (hclose : ∀ a P, Q a P → Q a { P with closed := some h }) (a : Hash) (P : Problem)
    (hP : (closeProblem problems p h)[a]? = some P) : Q a P := by
  rw [getElem?_closeProblem] at hP
  split at hP
  · obtain ⟨P₀, hP₀, rfl⟩ := Option.map_eq_some_iff.mp hP
    exact hclose a P₀ (hm a P₀ hP₀)
  · exact hm a P hP

/-- Steps of the board at heights up to `H`, with the leaves they draw. -/
inductive BoardRun (cr : Crypto) (c : Config) (H : ℕ) (G : Board → Hash → Prop) (B₀ : Board) :
    List (ℕ × ℕ) → Board → Prop
  | refl : BoardRun cr c H G B₀ [] B₀
  | tail {ds ds' : List (ℕ × ℕ)} {B B' : Board} (hr : BoardRun cr c H G B₀ ds B) {h : ℕ} (hh : h ≤ H)
      (hs : BoardStep cr c h G B ds' B') : BoardRun cr c H G B₀ (ds ++ ds') B'

section Rule

variable {cr : Crypto} {c : Config} {h H : ℕ} {G : Board → Hash → Prop} {B B₁ B₂ : Board}
  {ds ds' : List (ℕ × ℕ)}

theorem BoardStep.run (hs : BoardStep cr c h G B ds B₁) : BoardRun cr c h G B ds B₁ :=
  .tail .refl le_rfl hs

theorem BoardRun.trans (h₁ : BoardRun cr c H G B ds B₁) (h₂ : BoardRun cr c H G B₁ ds' B₂) :
    BoardRun cr c H G B (ds ++ ds') B₂ := by
  induction h₂ with
  | refl =>
    rw [List.append_nil]
    exact h₁
  | tail _ hh hs ih =>
    rw [← List.append_assoc]
    exact ih.tail hh hs

theorem BoardRun.mono {H' : ℕ} (hr : BoardRun cr c H G B ds B₁) (hH : H ≤ H') :
    BoardRun cr c H' G B ds B₁ := by
  induction hr with
  | refl => exact .refl
  | tail _ hh hs ih => exact ih.tail (hh.trans hH) hs

/-- **The rule for invariants of the board**, which may speak of the leaves drawn so far. -/
theorem BoardRun.invariant (I : List (ℕ × ℕ) → Board → Prop)
    (hstep : ∀ {ds B h ds' B'}, h ≤ H → I ds B → BoardStep cr c h G B ds' B' → I (ds ++ ds') B')
    (hr : BoardRun cr c H G B ds' B₁) (hB : I ds B) : I (ds ++ ds') B₁ := by
  induction hr with
  | refl =>
    rw [List.append_nil]
    exact hB
  | tail _ hh hs ih =>
    rw [← List.append_assoc]
    exact hstep hh ih hs

theorem BoardRun.preserves (I : Board → Prop)
    (hstep : ∀ {B h ds' B'}, h ≤ H → I B → BoardStep cr c h G B ds' B' → I B')
    (hr : BoardRun cr c H G B ds B₁) (hB : I B) : I B₁ := by
  induction hr with
  | refl => exact hB
  | tail _ hh hs ih => exact hstep hh ih hs

end Rule

/-! ## Moves -/

/-- The pool and the index of a leaf that an event announces as drawn.  A re-pose names its problem. -/
def Event.draw? : Event → Option (ℕ × ℕ)
  | .round _ _ event poolSeq index none => if event = 0xc1 then some (poolSeq, index) else none
  | _ => none

section Moves

variable {cr : Crypto} {c : Config} {h : ℕ} {mix : Hash} {G : Board → Hash → Prop} {d d' : Draft}

theorem roundEnd_eq_some {params : SlotParams} {r : Round} {v : RoundStatus}
    (hend : roundEnd params h s r = some (v, code)) :
    (r.status = .drawn ∧ v = .withheld ∨ r.status = .opened ∧ v = .closed) ∧ code ≠ 0xc1 := by
  unfold roundEnd at hend
  split at hend
  · rename_i hdrawn
    rw [Option.ite_none_right_eq_some] at hend
    obtain ⟨rfl, rfl⟩ := Prod.mk.inj (Option.some.inj hend.2)
    exact ⟨.inl ⟨hdrawn, rfl⟩, by decide⟩
  · rename_i hopened
    rw [Option.ite_none_right_eq_some] at hend
    obtain ⟨rfl, rfl⟩ := Prod.mk.inj (Option.some.inj hend.2)
    exact ⟨.inr ⟨hopened, rfl⟩, by decide⟩
  · exact nomatch hend

/-- What happens in a slot, and the leaf that it announces as drawn. -/
theorem Draft.SlotStep.board {slot : ℕ} (hs : SlotStep cr c h mix slot d d') : ∃ evs,
    d'.events = d.events ++ evs ∧ BoardRun cr c h G d.board (evs.filterMap Event.draw?) d'.board := by
  cases hs with
  | same => exact ⟨[], by simp, .refl⟩
  | @ended params hparams active hslot key hkey r hr status code hend =>
    obtain ⟨hstatus, hcode⟩ := roundEnd_eq_some hend
    refine ⟨_, rfl, ?_⟩
    have hnone : [Event.round slot key.2 code r.poolSeq r.leafIndex r.problem].filterMap
        Event.draw? = [] := by
      cases r.problem <;> simp [Event.draw?, hcode]
    rw [hnone]
    exact (BoardStep.ended hparams hslot hkey hr hstatus).run
  | dropped hslot hqueue hepoch => exact ⟨[], by simp, (BoardStep.dropped hqueue hepoch).run⟩
  | reposed hslot hidle _ _ hround hqueue hepoch hpool hid =>
    exact ⟨_, rfl, (BoardStep.reposed hslot hidle hround hqueue hepoch hpool hid).run⟩
  | waits hslot hidle => exact ⟨[], by simp, (BoardStep.waits hslot hidle).run⟩
  | drawn hslot hidle _ _ hround hpool hmine hindex =>
    exact ⟨_, rfl, (BoardStep.drawn hslot hidle hround hpool hmine hindex).run⟩

theorem roundOf_eq_some {key : ℕ × ℕ} {r : Round} (hr : roundOf s p = some (key, r)) :
    s.rounds[key]? = some r ∧ r.problem = some p :=
  ⟨mem_toList_iff.mp (List.mem_of_find?_eq_some hr), by
    simpa using List.find?_some hr⟩

theorem Draft.WindowStep.board {s' : State} (hw : WindowStep c p h s s') :
    BoardRun cr c h G s.board [] s'.board := by
  cases hw with
  | same => exact .refl
  | lone hP hclosed => exact (BoardStep.shut hP hclosed).run
  | idle hP hclosed hround hslot hactive =>
    obtain ⟨hr, hproblem⟩ := roundOf_eq_some hround
    exact (BoardStep.settled hP hclosed hr hproblem hslot hactive).run
  | active hP hclosed hround hslot hactive =>
    obtain ⟨hr, hproblem⟩ := roundOf_eq_some hround
    exact (BoardStep.freed hP hclosed hr hproblem hslot hactive).run

theorem Draft.ItemStep.board {s' : State} {x : Input} {accepted : ℕ}
    (hi : ItemStep cr c h s x accepted s' code) : BoardRun cr c h G s.board [] s'.board := by
  cases hi with
  | refused | commit | opened | part | last | cancelled => exact .refl
  | pool _ _ _ hleaves hseq _ _ hroot hslot =>
    exact (BoardStep.pooled (s := s) rfl hleaves hseq hroot hslot).run
  | problem _ _ hr hindex hdrawn _ hpool _ _ hid =>
    subst hid
    rw [← hindex]
    exact (BoardStep.posed hr hdrawn hpool rfl).run

theorem Draft.ItemDraft.board {x : Input} {accepted : ℕ}
    (hi : ItemDraft cr c h d x accepted d' code) : BoardRun cr c h G d.board [] d'.board := by
  cases hi with
  | plain hs => exact hs.board
  | completed _ _ _ _ hd' => cases hd' <;> exact .refl

theorem Draft.Accepts.board {key : Key} {P : Problem} {r : Runner}
    (ha : Accepts c key h d d') (hw : Wins d key P r m) :
    BoardRun cr c h G d.board [] d'.board := by
  cases ha with
  | mk _ _ _ hP _ _ hwindow =>
    obtain rfl := Option.mem_unique hw.problem hP
    exact (BoardStep.won hP hw.winner key.2).run.trans hwindow.board

theorem Draft.VoidStep.board (hv : VoidStep c p h d d') :
    BoardRun cr c h G d.board [] d'.board := by
  cases hv with
  | again => exact .refl
  | void hP _ hwindow => exact (BoardStep.voided hP).run.trans hwindow.board

/-- A problem is queued, if at all, with what the board knows of it. -/
theorem State.enqueueRepose_board (s : State) (hG : G s.board p) :
    BoardRun cr c h G s.board [] (s.enqueueRepose p).board := by
  unfold State.enqueueRepose
  split
  · exact .refl
  · rename_i P hP
    split
    · exact .refl
    · rename_i queue hqueue
      split_ifs with hnew
      · exact .refl
      · exact (BoardStep.requeued hG hP hqueue fun x hx heq => hnew ⟨x, hx, heq⟩).run

/-- A record changes the board when its problem is voided, or queued to be posed again. -/
theorem Draft.Applies.board {p : M3Config} {slot : ℕ} {job : Job} {v : IndexedVerdict}
    {clock : FuelClock} {l : LiveCandidate} {P : Problem} {new : Status}
    (ha : Applies c p h slot job v clock d m l P new d')
    (hG : new = .stale → G d.board job.key.1) :
    BoardRun cr c h G d.board [] d'.board := by
  cases ha with
  | plain | compensated => exact .refl
  | stale _ hnew => exact State.enqueueRepose_board d.toState (hG hnew)
  | voided _ _ hstep => exact hstep.board

theorem JudgeStep.board {p : M3Config} {cap : ℕ} {x x' : Draft × ℕ}
    (hj : JudgeStep cr c p cap h mix forks x x') :
    BoardRun cr c h (fun _ _ => True) x.1.board [] x'.1.board := by
  cases hj with
  | ties | advance => exact .refl
  | apply hj => exact hj.applies.board fun _ => trivial

theorem Draft.expire_board (c : Config) (d : Draft) (h : ℕ) : (d.expire c h).board = d.board := by
  obtain ⟨cands, evs, -, -, -, heq⟩ := expire_eq c h d
  rw [heq]
  rfl

theorem Draft.purge_board (c : Config) (d : Draft) (h : ℕ) : (d.purge c h).board = d.board := by
  obtain ⟨G, hf, -⟩ := purge_forgets c h d
  rw [hf.frame]
  rfl

theorem Draft.Activates.board (ha : Activates cr h forks d m d') : d'.board = d.board := by
  cases ha <;> rfl

theorem Draft.vest_board {payments : List RewardPayment} (hv : d.vest c h = .ok (d', payments)) :
    d'.board = d.board := by
  obtain ⟨p, m, m', rs, -, -, -, rfl⟩ := vest_eq_ok hv
  rfl

theorem Draft.slotEvents_board (hd : slotEvents cr c d h mix = .ok d') : ∃ evs,
    d'.events = d.events ++ evs ∧ BoardRun cr c h G d.board (evs.filterMap Event.draw?) d'.board := by
  unfold slotEvents at hd
  split at hd
  · obtain rfl := Except.ok.inj hd
    exact ⟨[], by simp, .refl⟩
  · refine foldlM_invariant (fun d₁ : Draft => ∃ evs, d₁.events = d.events ++ evs ∧
      BoardRun cr c h G d.board (evs.filterMap Event.draw?) d₁.board)
      (fun d₁ slot d₂ _ hd₁ h₂ => ?_) ⟨[], by simp, .refl⟩ hd
    obtain ⟨evs, hevs, hrun⟩ := hd₁
    obtain ⟨d₃, hfirst, hsecond⟩ := slotEvent_eq_ok h₂
    obtain ⟨evs₁, hevs₁, hrun₁⟩ := hfirst.board (G := G)
    obtain ⟨evs₂, hevs₂, hrun₂⟩ := hsecond.board (G := G)
    refine ⟨evs ++ evs₁ ++ evs₂, by rw [hevs₂, hevs₁, hevs]; simp, ?_⟩
    rw [List.filterMap_append, List.filterMap_append]
    exact (hrun.trans hrun₁).trans hrun₂

theorem Draft.foldItems_board (hd : d.foldItems cr c h items = .ok inbox) :
    BoardRun cr c h G d.board [] inbox.draft.board := by
  refine foldlM_invariant (fun acc : Inbox => BoardRun cr c h G d.board [] acc.draft.board)
    (fun acc x acc' _ hrun hx => ?_) .refl hd
  obtain ⟨code, hi, -⟩ := foldItem_eq_ok hx
  exact hrun.trans hi.board

theorem Draft.settle_board (hd : d.settle c h = .ok d') : BoardRun cr c h G d.board [] d'.board := by
  refine foldlM_invariant (fun d₁ : Draft => BoardRun cr c h G d.board [] d₁.board)
    (fun d₁ id d₂ _ hrun h₂ => ?_) .refl hd
  rcases settleProblem_eq_ok h₂ with rfl | ⟨ch, P, r, m, hw, ha⟩
  · exact hrun
  · exact hrun.trans (ha.board hw)

end Moves

/-! ## What a run announces -/

/-- Events have been added, and none of them announces a draw. -/
def Undrawn (d d' : Draft) : Prop :=
  ∃ evs, d'.events = d.events ++ evs ∧ evs.filterMap Event.draw? = []

theorem undrawn_of_eq {d d' : Draft} (h : d'.events = d.events) : Undrawn d d' := ⟨[], by simp [h], rfl⟩

theorem Undrawn.trans {d₁ d₂ d₃ : Draft} (h₁ : Undrawn d₁ d₂) (h₂ : Undrawn d₂ d₃) :
    Undrawn d₁ d₃ := by
  obtain ⟨evs, hevs, hnone⟩ := h₁
  obtain ⟨evs', hevs', hnone'⟩ := h₂
  exact ⟨evs ++ evs', by rw [hevs', hevs, List.append_assoc],
    by rw [List.filterMap_append, hnone, hnone']; rfl⟩

/-- Whatever a block returns, it announces no draw. -/
def Undraws (d : Draft) (x : Except FoldError Draft) : Prop := ∀ d', x = .ok d' → Undrawn d d'

section Undraws

variable {d d₁ : Draft} {x y : Except FoldError Draft} {f : Draft → Except FoldError Draft}

theorem undraws_pure (h : Undrawn d d₁) : Undraws d (pure d₁) := by
  rintro _ ⟨⟩
  exact h

theorem undraws_self : Undraws d (pure d) := undraws_pure (undrawn_of_eq rfl)

theorem Undraws.from (hx : Undraws d₁ x) (h : Undrawn d d₁) : Undraws d x :=
  fun d' hd => h.trans (hx d' hd)

theorem Undraws.bind (hx : Undraws d x) (hf : ∀ d₁, Undraws d₁ (f d₁)) : Undraws d (x >>= f) := by
  intro d' hd
  obtain ⟨d₁, hd₁, hd⟩ := bind_eq_ok.mp hd
  exact (hx d₁ hd₁).trans (hf d₁ d' hd)

theorem undraws_bind {α : Type} {x : Except FoldError α} {f : α → Except FoldError Draft}
    (hf : ∀ a, Undraws d (f a)) : Undraws d (x >>= f) := by
  intro d' hd
  obtain ⟨a, -, hd⟩ := bind_eq_ok.mp hd
  exact hf a d' hd

theorem undraws_ite {p : Prop} [Decidable p] (hx : Undraws d x) (hy : Undraws d y) :
    Undraws d (if p then x else y) := by
  split
  · exact hx
  · exact hy

/-- A choice before the rest of a block. -/
theorem undraws_ite_bind {p : Prop} [Decidable p] (hx : Undraws d x) (hy : Undraws d y)
    (hf : ∀ d₁, Undraws d₁ (f d₁)) : Undraws d (if p then x >>= f else y >>= f) :=
  undraws_ite (hx.bind hf) (hy.bind hf)

theorem undraws_foldlM {ι : Type} {g : Draft → ι → Except FoldError Draft}
    (hg : ∀ d i, Undraws d (g d i)) (xs : List ι) (d : Draft) : Undraws d (xs.foldlM g d) := by
  intro d' hd
  exact foldlM_invariant (Undrawn d) (fun d₁ i d₂ _ h₁ h₂ => h₁.trans (hg d₁ i d₂ h₂))
    (undrawn_of_eq rfl) hd

end Undraws

namespace Draft

variable {cr : Crypto} {c : Config} {h : ℕ} {mix : Hash} {d d' : Draft}

theorem emit_undrawn (d : Draft) {e : Event} (he : e.draw? = none) : Undrawn d (d.emit e) :=
  ⟨[e], rfl, by simp [he]⟩

theorem setStatus_undraws (d : Draft) (key : Key) (v : Status) : Undraws d (d.setStatus key v) := by
  intro d' hd
  obtain ⟨l, -, rfl⟩ := setStatus_eq_ok hd
  exact ⟨_, rfl, by split <;> rfl⟩

theorem roundEvent_undrawn (d : Draft) (p : Hash) (event : UInt8) :
    Undrawn d (d.roundEvent p event) := by
  unfold roundEvent
  split
  · exact undrawn_of_eq rfl
  · exact emit_undrawn d rfl

theorem closeWindow_undraws (d : Draft) (p : Hash) : Undraws d (closeWindow c d p h) := by
  intro d' hd
  obtain ⟨s, -, rfl⟩ := closeWindow_eq_ok hd
  exact undrawn_of_eq rfl

theorem voidProblem_undraws (d : Draft) (p : Hash) : Undraws d (voidProblem c d p h) :=
  undraws_bind fun _ => undraws_ite undraws_self
    (((closeWindow_undraws _ p).from ((undrawn_of_eq rfl).trans (roundEvent_undrawn _ p 0xc6))).bind
      fun _ => undraws_foldlM (fun d k => setStatus_undraws d k .void) _ _)

theorem grantTo_undraws (d : Draft) (p : M3Config) (slot : ℕ) (key : Key) (solver : Address)
    (compensation : Bool) : Undraws d (d.grantTo p slot key solver h compensation) := by
  intro d' hd
  obtain ⟨m, evs, m', -, hg, rfl⟩ := grantTo_eq_ok hd
  exact ⟨evs, rfl, by cases hg <;> rfl⟩

theorem revoke_undrawn (d : Draft) (m : M3State) (key : Key) : Undrawn d (d.revoke m key) := by
  refine ⟨revocation m key, by simp only [revoke, revocation, List.append_assoc], ?_⟩
  rw [revocation, List.filterMap_append, List.filterMap_map]
  simp [Event.draw?]

theorem unsettle_undraws (d : Draft) (key : Key) : Undraws d (d.unsettle key) :=
  undraws_bind fun m => undraws_pure (((revoke_undrawn d m key).trans (undrawn_of_eq rfl)).trans
    (roundEvent_undrawn _ key.1 0xc7))

theorem applyRecord_undraws (d : Draft) (p : M3Config) (slot : ℕ) (job : Job) (v : IndexedVerdict)
    (clock : FuelClock) : Undraws d (applyRecord c p d h slot job v clock) :=
  undraws_bind fun _ => undraws_bind fun _ => undraws_bind fun _ => undraws_bind fun new =>
    ((setStatus_undraws _ job.key new).from (emit_undrawn d rfl)).bind fun moved =>
      undraws_ite_bind (undraws_bind fun _ => grantTo_undraws moved p slot job.key _ true)
        undraws_self fun paid => undraws_ite_bind (unsettle_undraws paid job.key) undraws_self
          fun unsettled => undraws_ite_bind (voidProblem_undraws unsettled job.key.1) undraws_self
            fun _ => undraws_bind fun _ => undraws_pure (undrawn_of_eq rfl)

theorem applyDue_undrawn {records applied : List IndexedVerdict}
    (hd : applyDue c d h records forks = .ok (d', applied)) : Undrawn d d' := by
  obtain ⟨p, m, cap, later, mid, acc, m', hdue⟩ := applyDue_eq_ok hd
  rw [hdue.result]
  refine foldlM_invariant (fun acc : Due => Undrawn d acc.draft) (fun acc x acc' _ hacc hx => ?_)
    (undrawn_of_eq rfl) hdue.splits.loop
  obtain ⟨m, job, slot, due, next, hx⟩ := examine_eq_ok hx
  rcases hx.result with ⟨-, -, happly⟩ | ⟨-, -, hdraft⟩
  · exact hacc.trans (applyRecord_undraws _ p slot job _ next _ happly)
  · rw [hdraft]
    exact hacc

theorem Activates.undrawn (ha : Activates cr h forks d m d') :
    Undrawn d d' := by
  cases ha with
  | none => exact undrawn_of_eq rfl
  | kernelFix | quarantine | policy => exact ⟨[_], rfl, rfl⟩

theorem expire_undrawn (c : Config) (d : Draft) (h : ℕ) : Undrawn d (d.expire c h) := by
  obtain ⟨cands, evs, -, -, hevs, heq⟩ := expire_eq c h d
  rw [heq]
  refine ⟨evs, rfl, List.filterMap_eq_nil_iff.mpr fun e he => ?_⟩
  obtain ⟨k, rfl⟩ := hevs e he
  rfl

theorem purgeKey_events (keys : List Key) (d : Draft) : (keys.foldl purgeKey d).events = d.events := by
  induction keys generalizing d with
  | nil => rfl
  | cons k keys ih => rw [List.foldl_cons, ih]; rfl

theorem purge_undrawn (c : Config) (d : Draft) (h : ℕ) : Undrawn d (d.purge c h) := by
  have hloop (Ps : List Problem) (d : Draft) : Undrawn d (Ps.foldl (purgeProblem c h) d) := by
    induction Ps generalizing d with
    | nil => exact undrawn_of_eq rfl
    | cons P Ps ih =>
      refine Undrawn.trans ?_ (ih (d.purgeProblem c h P))
      unfold purgeProblem
      split
      · exact ⟨[_], by rw [emit, purgeKey_events], rfl⟩
      · exact undrawn_of_eq rfl
  exact hloop _ d

theorem complete_undraws (d : Draft) (key : Key) : Undraws d (d.complete key h) :=
  undraws_bind fun _ => undraws_ite (setStatus_undraws d key .void) (undraws_ite
    (setStatus_undraws d key .superseded) (undraws_bind fun _ => undraws_bind fun _ =>
      undraws_bind fun _ => undraws_pure (undrawn_of_eq rfl)))

theorem foldItems_undrawn {inbox : Inbox} (hd : d.foldItems cr c h items = .ok inbox) :
    Undrawn d inbox.draft := by
  refine foldlM_invariant (fun acc : Inbox => Undrawn d acc.draft) (fun acc x acc' _ hacc hx => ?_)
    (undrawn_of_eq rfl) hd
  simp only [foldItem, bind_eq_ok, pure_eq_ok] at hx
  obtain ⟨⟨s, code⟩, -, draft, hdraft, rfl⟩ := hx
  have htold : Undrawn acc.draft (if 2 ≤ x.kind ∧ x.kind ≤ 15 then
      emit { acc.draft with toState := s } (.item x.transactionIndex x.logIndex x.kind code)
      else { acc.draft with toState := s }) := by
    split
    · exact ⟨[_], rfl, rfl⟩
    · exact undrawn_of_eq rfl
  exact (hacc.trans htold).trans (undraws_ite (undraws_bind fun _ => undraws_bind fun key =>
    complete_undraws _ key) undraws_self draft hdraft)

theorem accept_undraws (d : Draft) (key : Key) : Undraws d (accept c d key h) :=
  (setStatus_undraws d key .accepted).bind fun _ =>
    (undraws_foldlM (fun d k => setStatus_undraws d k .superseded) _ _).bind fun _ =>
      undraws_bind fun _ => ((closeWindow_undraws _ key.1).from
        ((undrawn_of_eq rfl).trans (roundEvent_undrawn _ key.1 0xc5))).bind fun _ =>
          undraws_bind fun p => undraws_bind fun P => undraws_bind fun solver =>
            grantTo_undraws _ p P.slot key solver false

theorem settleProblem_undraws (d : Draft) (p : Hash) : Undraws d (settleProblem c h d p) := by
  refine undraws_bind fun _ => undraws_ite undraws_self ?_
  split
  · exact undraws_self
  · exact undraws_ite (undraws_bind fun _ => undraws_ite undraws_self (accept_undraws d _)) undraws_self

theorem vest_undrawn {payments : List RewardPayment} (hv : d.vest c h = .ok (d', payments)) :
    Undrawn d d' := by
  obtain ⟨p, m, m', rs, -, -, -, rfl⟩ := vest_eq_ok hv
  refine ⟨_, rfl, ?_⟩
  rw [List.filterMap_map]
  simp [Event.draw?]

end Draft

/-- The leaves that a step announces as drawn, in order. -/
def Step.draws (st : Step) : List (ℕ × ℕ) := st.events.filterMap Event.draw?

section Steps

variable {cr : Crypto} {c : Config} {G : Board → Hash → Prop} {s : State} {i : StepInput} {st : Step}

/-- The rounds, the items and what comes after them, from a draft without draws. -/
theorem board_of_stages {h : ℕ} {mix : Hash} {judged slotted final : Draft}
    (hjudged : judged.events.filterMap Event.draw? = [])
    (hslots : judged.slotEvents cr c h mix = .ok slotted)
    (hitems : foldItems cr c ((slotted.expire c h).purge c h) h items = .ok inbox)
    (hfinal : Undrawn inbox.draft final)
    (hboard : BoardRun cr c h G inbox.draft.board [] final.board) :
    BoardRun cr c h G judged.board (final.events.filterMap Event.draw?) final.board := by
  obtain ⟨evs, hevs, hrun⟩ := slotEvents_board (G := G) hslots
  obtain ⟨evs₂, hevs₂, hnone₂⟩ := ((((expire_undrawn c slotted h).trans
    (purge_undrawn c _ h)).trans (foldItems_undrawn hitems)).trans hfinal)
  have hdraws : final.events.filterMap Event.draw? = evs.filterMap Event.draw? := by
    rw [hevs₂, hevs, List.filterMap_append, List.filterMap_append, hjudged, hnone₂, List.nil_append,
      List.append_nil]
  have hinbox := foldItems_board (G := G) hitems
  rw [purge_board, expire_board] at hinbox
  rw [hdraws]
  simpa using (hrun.trans hinbox).trans hboard

/-- The board of a step, from the one that the records leave. -/
theorem Folds.board_of_judged {g : Stages} (hf : Folds cr c s i st g)
    (hjudged : BoardRun cr c i.l1.number G s.board [] g.judged.board) :
    BoardRun cr c i.l1.number G s.board st.draws st.state.board := by
  obtain ⟨m, -, hact⟩ := activate_eq_ok hf.activate
  have hties : Undrawn g.activated (g.activated.ties cr i.l1.number i.l1.mix) := undrawn_of_eq rfl
  obtain ⟨evs, hevs, hnone⟩ := (hact.undrawn.trans hties).trans (applyDue_undrawn hf.due)
  have hrun := board_of_stages (G := G) (by rw [hevs]; exact hnone) hf.slots hf.items
    ((undraws_foldlM settleProblem_undraws _ _ _ hf.settle).trans (vest_undrawn hf.vest))
    (by rw [vest_board hf.vest]; exact settle_board hf.settle)
  rw [Step.draws, hf.events, hf.state]
  exact hjudged.trans hrun

theorem Folds.board {g : Stages} (hf : Folds cr c s i st g) :
    BoardRun cr c i.l1.number (fun _ _ => True) s.board st.draws st.state.board := by
  obtain ⟨m, -, hact⟩ := activate_eq_ok hf.activate
  obtain ⟨p, cap, -, -, hjudging⟩ := hf.judging
  exact hf.board_of_judged <| steps_invariant
    (fun x : Draft × ℕ => BoardRun cr c i.l1.number (fun _ _ => True) s.board [] x.1.board)
    (fun _ _ hx hj => hx.trans hj.board) hjudging (hact.board ▸ .refl)

theorem Plain.board {slotted : Draft} (hf : Plain cr c s i st slotted inbox) :
    BoardRun cr c i.l1.number (fun _ _ => True) s.board st.draws st.state.board := by
  rw [Step.draws, hf.events, hf.state]
  exact board_of_stages rfl hf.slots hf.items (undrawn_of_eq rfl) .refl

/-- The leaves that a run announces as drawn, in order. -/
def draws (run : List (StepInput × Step)) : List (ℕ × ℕ) := run.flatMap (·.2.draws)

/-- **A run follows the board**, at heights up to the one reached. -/
theorem Onward.board {s₀ : State} {run : List (StepInput × Step)} (hr : Onward cr c s₀ run s) :
    s₀.height ≤ s.height ∧ BoardRun cr c s.height (fun _ _ => True) s₀.board (draws run) s.board := by
  have hone {s : State} {run : List (StepInput × Step)} {i : StepInput} {st : Step}
      (ih : s₀.height ≤ s.height ∧
        BoardRun cr c s.height (fun _ _ => True) s₀.board (draws run) s.board)
      (hheight : s.height + 1 = i.l1.number) (hstate : st.state.height = i.l1.number)
      (hrun : BoardRun cr c i.l1.number (fun _ _ => True) s.board st.draws st.state.board) :
      s₀.height ≤ st.state.height ∧ BoardRun cr c st.state.height (fun _ _ => True) s₀.board
        (draws (run ++ [(i, st)])) st.state.board := by
    rw [hstate, ← hheight] at *
    rw [draws, List.flatMap_append, List.flatMap_singleton]
    exact ⟨ih.1.trans (Nat.le_succ _),
      (ih.2.mono (Nat.le_succ _)).trans hrun⟩
  induction hr with
  | refl => exact ⟨le_rfl, .refl⟩
  | fold _ hst ih =>
    obtain ⟨g, hf⟩ := State.fold_eq_ok hst
    exact hone ih hf.height (by rw [hf.state]) hf.board
  | step _ hst ih =>
    obtain ⟨slotted, inbox, hf⟩ := State.step_eq_ok hst
    exact hone ih hf.height (by rw [hf.state]) hf.board

end Steps

end Derivation
