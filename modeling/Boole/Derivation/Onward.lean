import Boole.Derivation.Invariants

/-!
# Derivation/Onward — runs of either step function

Without the M3 profile a height is folded by `State.step`: the same rounds, expiries and items, and
neither verdicts nor settlement (`Plain`).  `Onward` is a run from any state by either function, and
`Ran` one from the first state.
-/

open Std Library Relation

namespace Derivation

variable {cr : Crypto} {c : Config} {s : State} {run : List (StepInput × Step)}

/-- **The stages of a step without the M3 profile.** -/
structure Plain (cr : Crypto) (c : Config) (s : State) (i : StepInput) (st : Step) (slotted : Draft)
    (inbox : Draft.Inbox) : Prop where
  profile : c.m3 = none
  valid : c.validate s.l2GasLimit = .ok ()
  config : c = s.config
  height : s.height + 1 = i.l1.number
  inRange : i.l1.number < 2 ^ 64
  slots : (Draft.ties cr { s with events := [] } i.l1.number i.l1.mix).slotEvents cr c i.l1.number
    i.l1.mix = .ok slotted
  items : Draft.foldItems cr c ((slotted.expire c i.l1.number).purge c i.l1.number) i.l1.number
    i.items = .ok inbox
  codes : st.codes = inbox.codes
  events : st.events = inbox.draft.events
  state : st.state = { inbox.draft.toState with
    root := sha cr (State.rootInput cr c s.root i.l1 inbox.draft.events)
    height := i.l1.number }

theorem State.step_eq_ok {i : StepInput} {st : Step} (hst : s.step cr c i.l1 i.items = .ok st) :
    ∃ slotted inbox, Plain cr c s i st slotted inbox := by
  simp only [State.step, State.stepInner, State.validateNext, State.prepare, bind_eq_ok,
    ensure_eq_ok, mapErr_eq_ok, pure_eq_ok, checkedAdd_eq_some] at hst
  obtain ⟨_, hprofile, _, ⟨_, hvalid, _, hconfig, hrange, hheight⟩, _,
    ⟨_, rfl, _, rfl, slotted, hslots, rfl⟩, inbox, hitems, closed, hconclude, rfl⟩ := hst
  rw [State.conclude, if_neg (by rw [hprofile]; exact Bool.false_ne_true)] at hconclude
  obtain rfl := Except.ok.inj hconclude
  exact ⟨slotted, inbox, hprofile, hvalid, hconfig, hheight, hheight ▸ hrange, hslots, hitems, rfl, rfl,
    rfl⟩

/-- The moves of a step without the M3 profile, after the ties. -/
theorem Plain.moves {i : StepInput} {st : Step} {slotted : Draft} {inbox : Draft.Inbox}
    (hf : Plain cr c s i st slotted inbox) :
    ReflTransGen (BlockStep cr c i.l1.number i.l1.mix)
      (Draft.ties cr { s with events := [] } i.l1.number i.l1.mix) inbox.draft :=
  (((Draft.slotEvents_moves hf.slots).tail (.expire _)).tail (.purge _)).trans
    (Draft.foldItem_moves _ hf.items)

/-- **A run from a state by either step function.** -/
inductive Onward (cr : Crypto) (c : Config) (s₀ : State) : List (StepInput × Step) → State → Prop
  | refl : Onward cr c s₀ [] s₀
  | fold {run : List (StepInput × Step)} {s : State} (hr : Onward cr c s₀ run s) {i : StepInput}
      {st : Step} (hst : s.fold cr c i = .ok st) : Onward cr c s₀ (run ++ [(i, st)]) st.state
  | step {run : List (StepInput × Step)} {s : State} (hr : Onward cr c s₀ run s) {i : StepInput}
      {st : Step} (hst : s.step cr c i.l1 i.items = .ok st) :
      Onward cr c s₀ (run ++ [(i, st)]) st.state

/-- A run from the first state by either step function. -/
def Ran (cr : Crypto) (c : Config) (gas : ℕ) (run : List (StepInput × Step)) (s : State) : Prop :=
  ∃ s₀, State.new cr c gas = .ok s₀ ∧ Onward cr c s₀ run s

theorem Onward.trans {s₀ s' : State} {run' : List (StepInput × Step)} (h : Onward cr c s₀ run s)
    (h' : Onward cr c s run' s') :
    Onward cr c s₀ (run ++ run') s' := by
  induction h' with
  | refl =>
    rw [List.append_nil]
    exact h
  | fold _ hst ih =>
    rw [← List.append_assoc]
    exact ih.fold hst
  | step _ hst ih =>
    rw [← List.append_assoc]
    exact ih.step hst

theorem Ran.trans {gas : ℕ} {s' : State} {run' : List (StepInput × Step)} (h : Ran cr c gas run s)
    (h' : Onward cr c s run' s') :
    Ran cr c gas (run ++ run') s' := by
  obtain ⟨s₀, hs₀, h⟩ := h
  exact ⟨s₀, hs₀, h.trans h'⟩

/-- A run with verdicts. -/
theorem Reached.ran {gas : ℕ} {P : State → StepInput → Prop} (hr : Reached cr c gas P run s) :
    Ran cr c gas run s := by
  induction hr with
  | new hs => exact ⟨_, hs, .refl⟩
  | step _ _ hst ih =>
    obtain ⟨s₀, hs₀, hon⟩ := ih
    exact ⟨s₀, hs₀, hon.fold hst⟩

end Derivation
