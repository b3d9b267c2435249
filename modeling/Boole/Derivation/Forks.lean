import Boole.Library.Levels
import Boole.Derivation.Statuses

/-!
# Derivation/Forks — the history of forks

Every step is given a fork table of its own.  The history in the state is **what the last table holds
up to the height reached** (`Recorded`): a table that changes a row of the past is refused, and the
row of the new height is the only one a step adds.
-/

open Std Library Relation

namespace Derivation

/-- The rows of a table up to a height. -/
def ForkTable.past (self : ForkTable) (h : ℕ) : List ForkRow := upTo ForkRow.height h self.rows

/-! ## Tables -/

/-- **A validated table** starts with the genesis row, and its heights ascend. -/
structure ForkTable.Valid (t : ForkTable) : Prop where
  first : ∃ row rest, t.rows = row :: rest ∧ row.height = 0
  ascends : t.rows.Pairwise (·.height < ·.height)

theorem ForkTable.validate_eq_ok {cr : Crypto} {t : ForkTable} {c : Config} {u : Unit}
    (h : t.validate cr c = .ok u) : t.Valid := by
  simp only [ForkTable.validate, bind_eq_ok, okOr_eq_ok, ensure_eq_ok] at h
  obtain ⟨p, -, row, hrow, _, ⟨-, hzero, -, -⟩, _, -, hchain⟩ := h
  obtain ⟨rest, hrest⟩ := List.head?_eq_some_iff.mp hrow
  refine ⟨⟨row, rest, hrest, hzero⟩, ?_⟩
  exact (hchain.imp fun _ _ h => h.1).pairwise

namespace ForkTable.Valid

variable {t : ForkTable}

theorem takeWhile_eq (ht : t.Valid) (h : ℕ) :
    t.rows.takeWhile (fun r => r.height ≤ h) = t.past h :=
  takeWhile_eq_upTo ht.ascends

theorem past_zero (ht : t.Valid) : t.past 0 = t.rows.head?.toList := by
  obtain ⟨row, rest, hrows, hzero⟩ := ht.first
  have hpos := ht.ascends
  rw [hrows, List.pairwise_cons] at hpos
  rw [ForkTable.past, hrows, upTo_cons_of_le hzero.le,
    upTo_eq_nil fun x hx => Nat.zero_lt_of_lt (hpos.1 x hx)]
  rfl

theorem past_ne_nil (ht : t.Valid) (h : ℕ) : t.past h ≠ [] := by
  obtain ⟨row, rest, hrows, hzero⟩ := ht.first
  rw [ForkTable.past, hrows, upTo_cons_of_le (hzero ▸ Nat.zero_le h)]
  exact List.cons_ne_nil _ _

/-- The first row is no height's but 0's. -/
theorem find?_drop (ht : t.Valid) (h : ℕ) : (t.rows.drop 1).find? (fun row => row.height = h + 1) =
    t.rows.find? fun row => row.height = h + 1 := by
  obtain ⟨row, rest, hrows, hzero⟩ := ht.first
  rw [hrows, List.drop_one, List.tail_cons, List.find?_cons_of_neg (by simp [hzero])]

/-- The row that a height adds. -/
theorem past_succ (ht : t.Valid) (h : ℕ) :
    t.past (h + 1) = t.past h ++ ((t.rows.drop 1).find? fun row => row.height = h + 1).toList := by
  rw [ht.find?_drop]
  exact upTo_succ ht.ascends

end ForkTable.Valid

/-! ## Moves -/

section Moves

variable {cr : Crypto} {c : Config} {p : M3Config} {cap h : ℕ} {mix : Hash} {forks : ForkTable}
  {hist : List ForkRow}

/-- The history of a draft. -/
def Recorded (hist : List ForkRow) (d : Draft) : Prop := ∃ m, d.m3 = some m ∧ m.forkHistory = hist

theorem Draft.Activates.recorded {d d' : Draft} {m : M3State}
    (ha : Draft.Activates cr h forks d m d') : Recorded (m.forkHistory ++
      ((forks.rows.drop 1).find? fun row => row.height = h).toList) d' := by
  cases ha with
  | none hrow => exact ⟨m, rfl, by rw [hrow]; simp⟩
  | kernelFix hrow | policy hrow => exact ⟨_, rfl, by rw [hrow]; rfl⟩
  | quarantine hrow _ hrun =>
    refine ⟨_, rfl, ?_⟩
    rw [hrow, hrun.frame]
    rfl

theorem JudgeStep.recorded {x x' : Draft × ℕ} (hj : JudgeStep cr c p cap h mix forks x x')
    (hx : Recorded hist x.1) : Recorded hist x'.1 := by
  obtain ⟨m, hm, rfl⟩ := hx
  cases hj with
  | ties => exact ⟨m, hm, rfl⟩
  | apply hj =>
    obtain rfl := Option.mem_unique hm hj.m3
    obtain ⟨m', told, evs, heffect, hm', -⟩ := hj.applies.m3 hj.status
    exact ⟨_, hm', by rw [heffect.frame]; rfl⟩
  | advance hm' =>
    obtain rfl := Option.mem_unique hm hm'
    exact ⟨_, rfl, rfl⟩

theorem BlockStep.recorded {d d' : Draft} (hb : BlockStep cr c h mix d d') (hd : Recorded hist d) :
    Recorded hist d' := by
  obtain ⟨m, hm, rfl⟩ := hd
  cases hb with
  | slot hs => exact ⟨m, hs.m3.trans hm, rfl⟩
  | expire =>
    obtain ⟨cands, evs, -, -, -, heq⟩ := Draft.expire_eq c h d
    exact ⟨m, by rw [heq]; exact hm, rfl⟩
  | purge =>
    obtain ⟨G, hf, -⟩ := Draft.purge_forgets c h d
    exact ⟨m, by rw [hf.frame]; exact hm, rfl⟩
  | item hi =>
    cases hi with
    | plain hs => exact ⟨m, hs.m3.trans hm, rfl⟩
    | completed _ _ _ _ hd' =>
      cases hd' with
      | void | superseded => exact ⟨m, hm, rfl⟩
      | queued _ _ _ hm' =>
        obtain rfl := Option.mem_unique hm hm'
        exact ⟨_, rfl, rfl⟩
  | accept _ ha =>
    obtain ⟨m', hm', hframe⟩ := ha.m3 hm
    exact ⟨m', hm', by rw [hframe]⟩

end Moves

/-! ## Runs -/

section Runs

variable {cr : Crypto} {c : Config} {gas : ℕ} {P : State → StepInput → Prop} {s : State}
  {i : StepInput} {st : Step} {g : Stages} {m : M3State}

/-- The first state has no history; later it is never empty. -/
def Unstarted (s : State) (m : M3State) : Prop := s.height = 0 → m.forkHistory = []

/-- **What a step does to the history:** the table must hold it up to the height before, and adds the
row of the new height. -/
theorem Folds.recorded (hf : Folds cr c s i st g) (hm : s.m3 = some m) (hnew : Unstarted s m) :
    (∃ m', st.state.m3 = some m' ∧ m'.forkHistory = i.forks.past i.l1.number) ∧
      (s.height ≠ 0 → i.forks.past s.height = m.forkHistory) := by
  have hvalid := ForkTable.validate_eq_ok hf.table
  have hpast : s.height ≠ 0 → i.forks.past s.height = m.forkHistory := by
    intro hpos
    have hhistory := hf.history
    simp only [ForkTable.validateHistory, bind_eq_ok, okOr_eq_ok] at hhistory
    obtain ⟨_, hm', hhistory⟩ := hhistory
    obtain rfl := Option.mem_unique hm hm'
    rw [if_neg (fun h => hpos h.1), ensure_eq_ok, hvalid.takeWhile_eq] at hhistory
    exact hhistory
  refine ⟨?_, hpast⟩
  -- the history that the activation starts from
  have hstart : (Draft.started i.forks m).forkHistory = i.forks.past s.height := by
    unfold Draft.started
    split_ifs with hnil
    · by_cases hzero : s.height = 0
      · rw [hzero, hvalid.past_zero]
      · exact absurd ((hpast hzero).trans hnil) (hvalid.past_ne_nil _)
    · exact (hpast fun hzero => hnil (hnew hzero)).symm
  obtain ⟨m₁, hm₁, hact⟩ := Draft.activate_eq_ok hf.activate
  obtain rfl := Option.mem_unique hm hm₁
  have hactivated := hact.recorded
  rw [hstart, ← hf.height, ← hvalid.past_succ] at hactivated
  obtain ⟨p, cap, -, -, hjudging⟩ := hf.judging
  have hjudged : Recorded (i.forks.past (s.height + 1)) g.judged :=
    steps_invariant (fun x => Recorded (i.forks.past (s.height + 1)) x.1)
      (fun _ _ hx hj => hj.recorded hx) hjudging hactivated
  obtain ⟨m₂, hm₂, hhist⟩ := steps_invariant (Recorded (i.forks.past (s.height + 1)))
    (fun _ _ hx hb => hb.recorded hx) hf.settling hjudged
  obtain ⟨_, m₃, m', rs, -, hm₃, hvests, hd⟩ := Draft.vest_eq_ok hf.vest
  obtain rfl := Option.mem_unique hm₂ hm₃
  refine ⟨m', by rw [hf.state, hd], ?_⟩
  rw [hvests.frame, ← hf.height]
  exact hhist

/-- The steps of a run and the history of its last state: **the history after a step is what its table
holds up to the height reached**, and every later table, and the history at the end, hold the same up
to that height. -/
structure Immutable (run : List (StepInput × Step)) (s : State) : Prop where
  recorded : ∀ x ∈ run, ∃ m, x.2.state.m3 = some m ∧
    m.forkHistory = x.1.forks.past x.2.state.height
  agree : run.Pairwise fun x y => y.1.forks.past x.2.state.height = x.1.forks.past x.2.state.height
  kept : ∀ m, s.m3 = some m → ∀ x ∈ run,
    upTo ForkRow.height x.2.state.height m.forkHistory = x.1.forks.past x.2.state.height

/-- The heights of a run. -/
theorem Reached.heights {run : List (StepInput × Step)} (hr : Reached cr c gas P run s) :
    ∀ x ∈ run, 0 < x.2.state.height ∧ x.2.state.height ≤ s.height := by
  induction hr with
  | new => nofun
  | step _ _ hst ih =>
    obtain ⟨g, hf⟩ := State.fold_eq_ok hst
    have hheight := hf.height
    intro x hx
    rw [hf.state]
    rcases List.mem_append.mp hx with hx | hx
    · obtain ⟨hpos, hle⟩ := ih x hx
      exact ⟨hpos, hle.trans (by dsimp only; omega)⟩
    · rw [List.mem_singleton.mp hx, hf.state]
      exact ⟨by dsimp only; omega, le_rfl⟩

theorem Reached.unstarted {run : List (StepInput × Step)} (hr : Reached cr c gas P run s) :
    ∀ m, s.m3 = some m → Unstarted s m := by
  cases hr with
  | new hs =>
    intro m hm _
    obtain ⟨p, -, rfl⟩ := Option.map_eq_some_iff.mp (State.new_eq_ok hs ▸ hm)
    rfl
  | step _ _ hst =>
    obtain ⟨g, hf⟩ := State.fold_eq_ok hst
    have hheight := hf.height
    intro m _ hzero
    rw [hf.state] at hzero
    dsimp only at hzero
    omega

/-- **The history of forks is immutable.** -/
theorem Reached.immutable {run : List (StepInput × Step)} (hr : Reached cr c gas P run s) :
    Immutable run s := by
  induction hr with
  | new => exact ⟨nofun, .nil, nofun⟩
  | @step run s hr i hi st hst ih =>
    obtain ⟨g, hf⟩ := State.fold_eq_ok hst
    obtain ⟨m, hm, -⟩ := Draft.activate_eq_ok hf.activate
    obtain ⟨⟨m', hm', hhist⟩, hpast⟩ := hf.recorded hm (hr.unstarted m hm)
    have hheight : st.state.height = i.l1.number := by rw [hf.state]
    rw [← hheight] at hhist
    -- the new table holds the same as every earlier one
    have hagree (x : StepInput × Step) (hx : x ∈ run) :
        i.forks.past x.2.state.height = x.1.forks.past x.2.state.height := by
      obtain ⟨hpos, hle⟩ := hr.heights x hx
      rw [← ih.kept m hm x hx, ← hpast (by omega)]
      exact (upTo_upTo hle _).symm
    refine ⟨fun x hx => ?_, ?_, fun m₁ hm₁ x hx => ?_⟩
    · rcases List.mem_append.mp hx with hx | hx
      · exact ih.recorded x hx
      · rw [List.mem_singleton.mp hx]
        exact ⟨m', hm', hhist⟩
    · rw [List.pairwise_append]
      refine ⟨ih.agree, List.pairwise_singleton _ _, fun x hx y hy => ?_⟩
      rw [List.mem_singleton.mp hy]
      exact hagree x hx
    · obtain rfl := Option.mem_unique hm' hm₁
      rw [hhist]
      rcases List.mem_append.mp hx with hx | hx
      · rw [← hagree x hx]
        exact upTo_upTo ((hr.step hi hst).heights x (List.mem_append_left _ hx)).2 _
      · rw [List.mem_singleton.mp hx]
        exact upTo_upTo le_rfl _

end Runs

namespace Example

/-- A table that announces a change of the policy at height 3, from the second step on. -/
def announced : List StepInput :=
  let later : ForkTable := ⟨[⟨0, 0, 0, .genesis, []⟩, ⟨1, 3, 0, .policy, []⟩]⟩
  [⟨block 1, [], [], genesis⟩, ⟨block 2, [], [], later⟩, ⟨block 3, [], [], later⟩]

end Example

theorem Reached.immutable_announced : ∃ run s,
    Reached toyCrypto exampleConfig exampleGas Free run s ∧ Immutable run s ∧
    s.m3.map (fun m => m.forkHistory.map (·.height)) = some [0, 3] := by
  obtain ⟨run, s, hr, hv⟩ := exists_reached_of_play toyCrypto exampleConfig exampleGas Free
    Example.announced (fun x => x.2.m3.map fun m => m.forkHistory.map (·.height))
    (v := some [0, 3]) (by decide +kernel)
  exact ⟨run, s, hr, hr.immutable, hv⟩

end Derivation
