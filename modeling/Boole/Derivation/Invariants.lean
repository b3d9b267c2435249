import Boole.Derivation.Queue

/-!
# Derivation/Invariants — the rule for invariants of runs

A property of a draft and the cursor that **every move keeps** (`Preserves`) holds in every state of a
run and between the stages of every step.  It may assume another one that has been shown before
(`Preserves.and`).  The number beside the property is the height of the step that is being folded.
-/

open Std Library Relation

namespace Derivation

open State

variable {gas : ℕ} {cr : Crypto} {c : Config} {s : State}

/-- **Every move keeps `I`, where `J` holds as well.** -/
structure Preserves (cr : Crypto) (c : Config) (P : State → StepInput → Prop)
    (J I : ℕ → Draft × ℕ → Prop) : Prop where
  activate : ∀ {s : State} {i : StepInput} {st : Step} {g : Stages}, P s i → Folds cr c s i st g →
    J s.height ({ s with events := [] }, s.cursor) →
    I s.height ({ s with events := [] }, s.cursor) → I i.l1.number (g.activated, s.cursor)
  judge : ∀ {p : M3Config} {cap h : ℕ} {mix : Hash} {forks : ForkTable} {x x' : Draft × ℕ},
    c.m3 = some p → JudgeStep cr c p cap h mix forks x x' → J h x → I h x → I h x'
  block : ∀ {h : ℕ} {mix : Hash} {d d' : Draft} {n : ℕ}, BlockStep cr c h mix d d' →
    J h (d, n) → I h (d, n) → I h (d', n)
  vest : ∀ {h : ℕ} {d d' : Draft} {payments : List RewardPayment} {n : ℕ},
    d.vest c h = .ok (d', payments) → J h (d, n) → I h (d, n) → I h (d', n)
  close : ∀ {h : ℕ} {d : Draft} {n : ℕ} {root : Hash}, J h (d, n) → I h (d, n) →
    I h ({ d with root, height := h, events := [] }, n)

/-- An invariant that needs no other. -/
abbrev Kept (cr : Crypto) (c : Config) (P : State → StepInput → Prop) (I : ℕ → Draft × ℕ → Prop) :
    Prop :=
  Preserves cr c P (fun _ _ => True) I

section Rule

variable {cr : Crypto} {c : Config} {P : State → StepInput → Prop} {J I : ℕ → Draft × ℕ → Prop}

theorem Preserves.and (hJ : Kept cr c P J) (hI : Preserves cr c P J I) :
    Kept cr c P fun h x => J h x ∧ I h x where
  activate hi hf _ h := ⟨hJ.activate hi hf trivial h.1, hI.activate hi hf h.1 h.2⟩
  judge hp hj _ h := ⟨hJ.judge hp hj trivial h.1, hI.judge hp hj h.1 h.2⟩
  block hb _ h := ⟨hJ.block hb trivial h.1, hI.block hb h.1 h.2⟩
  vest hv _ h := ⟨hJ.vest hv trivial h.1, hI.vest hv h.1 h.2⟩
  close _ h := ⟨hJ.close trivial h.1, hI.close h.1 h.2⟩

variable {s : State} {i : StepInput} {st : Step} {g : Stages}

/-- The invariant after the records of a step. -/
theorem Preserves.judged (hI : Kept cr c P I) (hi : P s i) (hf : Folds cr c s i st g)
    (hs : I s.height ({ s with events := [] }, s.cursor)) :
    I i.l1.number (g.judged, g.judged.cursor) := by
  obtain ⟨p, cap, hp, -, hjudging⟩ := hf.judging
  exact steps_invariant (I i.l1.number) (fun _ _ hx hj => hI.judge hp hj trivial hx) hjudging
    (hI.activate hi hf trivial hs)

/-- The invariant in a draft between the records and the vesting. -/
theorem Preserves.blocks (hI : Kept cr c P I) (hi : P s i) (hf : Folds cr c s i st g)
    (hs : I s.height ({ s with events := [] }, s.cursor)) {d : Draft}
    (hd : ReflTransGen (BlockStep cr c i.l1.number i.l1.mix) g.judged d) :
    I i.l1.number (d, g.judged.cursor) :=
  steps_invariant (fun d => I i.l1.number (d, g.judged.cursor))
    (fun _ _ hx hb => hI.block hb trivial hx) hd (hI.judged hi hf hs)

/-- The cursor after a step stands where the records have left it. -/
theorem Folds.cursor_eq (hf : Folds cr c s i st g) : st.state.cursor = g.judged.cursor := by
  obtain ⟨p, cap, -, -, hjudging⟩ := hf.judging
  obtain ⟨m, hm, -⟩ := hf.cursor_activated
  obtain ⟨m₁, hm₁, -⟩ := judgeSteps_queue hjudging hm
  obtain ⟨m₂, hm₂, hgrows⟩ := hf.grows hm₁
  rw [cursor, hm₂, cursor, hm₁]
  exact hgrows.next

theorem Preserves.step (hI : Kept cr c P I) (hi : P s i) (hf : Folds cr c s i st g)
    (hs : I s.height ({ s with events := [] }, s.cursor)) :
    I st.state.height ({ st.state with events := [] }, st.state.cursor) := by
  rw [hf.cursor_eq, hf.state]
  exact hI.close trivial (hI.vest hf.vest trivial (hI.blocks hi hf hs hf.settling))

/-- **An invariant of the first state that every move keeps holds in every state of a run.** -/
theorem Reached.invariant {run : List (StepInput × Step)} (hr : Reached cr c gas P run s)
    (hI : Kept cr c P I)
    (hnew : ∀ s, State.new cr c gas = .ok s → I s.height ({ s with events := [] }, s.cursor)) :
    I s.height ({ s with events := [] }, s.cursor) := by
  induction hr with
  | new hs => exact hnew _ hs
  | step _ hi hst ih =>
    obtain ⟨g, hf⟩ := fold_eq_ok hst
    exact hI.step hi hf ih

end Rule

theorem State.new_valid (hs : new cr c gas = .ok s) : c.Valid := by
  simp only [new, bind_eq_ok, mapErr_eq_ok] at hs
  obtain ⟨_, hvalid, -⟩ := hs
  exact Config.validate_eq_ok hvalid

/-- The first state. -/
theorem State.new_eq_ok (hs : new cr c gas = .ok s) : s = {
      height := 0
      config := c
      l2GasLimit := gas
      root := c.digest cr
      candidates := ∅
      pools := ∅
      rounds := ∅
      slots := c.slotTable.map fun _ => { round := 0, scheduled := none, active := none }
      problems := ∅
      m3 := c.m3.map fun _ => {}
      opened := ∅
      repose := c.slotTable.map fun _ => [] } := by
  simp only [new, bind_eq_ok, pure_eq_ok] at hs
  obtain ⟨_, -, rfl⟩ := hs
  rfl

/-- With the M3 profile the first state has an empty ledger. -/
theorem State.new_m3 {p : M3Config} (hs : new cr c gas = .ok s) (hp : c.m3 = some p) :
    s.m3 = some {} := by
  rw [new_eq_ok hs, hp]
  rfl

/-- Only a run with the M3 profile has an M3 state. -/
theorem Reached.profile {P : State → StepInput → Prop} {run : List (StepInput × Step)} {m : M3State}
    (hr : Reached cr c gas P run s) (hm : s.m3 = some m) : ∃ p, c.m3 = some p := by
  cases hr with
  | new hs =>
    rw [new_eq_ok hs] at hm
    obtain ⟨p, hp, -⟩ := Option.map_eq_some_iff.mp hm
    exact ⟨p, hp⟩
  | step _ _ hst =>
    obtain ⟨g, hf⟩ := fold_eq_ok hst
    exact Option.isSome_iff_exists.mp hf.profile

end Derivation
