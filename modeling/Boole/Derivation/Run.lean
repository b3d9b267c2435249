import Boole.Derivation.Due
import Boole.Derivation.ItemEffects

/-!
# Derivation/Run — runs of the fold, cut into small moves

A run starts in `State.new` and folds one L1 block after the other, with any inbox items, any verdict
records and any fork table that the step accepts (`Reached`).  One step is a sequence of stages
(`Folds`), and a stage is a sequence of moves: an activation, **a record that is applied
(`JudgeStep`), a round, an item or a settlement (`BlockStep`)**, the vesting.  An invariant of runs
is proved move by move.

While records are applied the cursor of the queue still stands at the first of them, so a move
carries the number of jobs done so far beside the draft.
-/

open Std Library Relation

namespace Derivation

/-! ## Runs -/

/-- What one step is given. -/
structure StepInput where
  l1 : L1Block
  items : List Input
  verdicts : List IndexedVerdict
  forks : ForkTable

variable (cr : Crypto)

variable (c : Config)

namespace State

/-- `step_with_verdicts` on its arguments as one value. -/
def fold (self : State) (i : StepInput) : Except FoldError Step :=
  self.stepWithVerdicts cr c i.l1 i.items i.verdicts i.forks

/-- How many jobs of the queue have been applied. -/
def cursor (self : State) : ℕ := (self.m3.map (·.nextApplied)).getD 0

end State

/-- **A run from the first state, with its steps.**  Every step meets `P` in the state before it. -/
inductive Reached (cr : Crypto) (c : Config) (gas : ℕ) (P : State → StepInput → Prop) :
    List (StepInput × Step) → State → Prop
  | new {s : State} (hs : State.new cr c gas = .ok s) : Reached cr c gas P [] s
  | step {run : List (StepInput × Step)} {s : State} (hr : Reached cr c gas P run s) {i : StepInput}
      (hi : P s i) {st : Step} (hst : s.fold cr c i = .ok st) :
      Reached cr c gas P (run ++ [(i, st)]) st.state

/-- No condition on the steps of a run. -/
def Free : State → StepInput → Prop := fun _ _ => True

/-- The last step of a run. -/
theorem Reached.last {cr : Crypto} {c : Config} {gas : ℕ} {P : State → StepInput → Prop}
    {run : List (StepInput × Step)} {i : StepInput} {st : Step} {s : State}
    (hr : Reached cr c gas P (run ++ [(i, st)]) s) :
    ∃ s₀, Reached cr c gas P run s₀ ∧ P s₀ i ∧ s₀.fold cr c i = .ok st ∧ s = st.state := by
  generalize hrun : run ++ [(i, st)] = whole at hr
  cases hr with
  | new => simp at hrun
  | step hr hi hst =>
    obtain ⟨rfl, heq⟩ := List.append_inj' hrun rfl
    obtain ⟨rfl, rfl⟩ := Prod.mk.inj (List.cons.inj heq).1
    exact ⟨_, hr, hi, hst, rfl⟩

/-! ## A small chain

One slot and one pool with one leaf; **every run on fixed inputs below is played on this chain**. -/

/-- A hash that keeps the end of its input, and a signature scheme that accepts everything. -/
def toyCrypto : Crypto where
  sha256 x := BitVec.ofNat 256 (ofBytes x)
  keccak _ := 0
  lowS _ := some true
  recover _ _ _ := some []

def exampleProfile : M3Config where
  k := 1
  rate := 100
  costFixed := 1
  fuelSlot := [1]
  verdictSink := 0
  qReward := 1
  rewardGas := 21000
  maturity := 2
  reward := [1]
  mintEnabled := true
  notice := 0
  openLicenses := [1]
  bridge := false
  nativeIsRewardUnit := false
  genesisGateRuleDigest := 0

def exampleConfig : Config where
  chainId := 1
  d := 2
  w := 3
  wSlackMin := 0
  pBlk := 129
  ratioMax := 1
  kMax := 0
  cCommit := 4
  qMax := 4
  vPerDeposit := 1
  verdictGas := 30000
  l1GasLimit := 0
  poolLimit := 123236
  slotTable := [{ lane := 1, solveDeadline := 10, announceGap := 1, revealGrace := 1 }]
  statementRawMax := 1
  slotLeavesMax := 1
  poolLead := 1
  poolMax := 1
  statementMax := 1
  traceEmbargoMax := 0
  schemaId := 0
  baseRoot := 0
  pkgTable := []
  envAllowed := [[]]
  incompatible := []
  termsTable := [(1, 0)]
  poolKey := 0
  m3 := some exampleProfile

def exampleGas : ℕ := 30000000

namespace Example

def zero : String := "0x0000000000000000000000000000000000000000000000000000000000000000"

def block (n : ℕ) : L1Block := ⟨n, zero, zero, 0, zero, "0x0", zero⟩

def pool : Input := ⟨0, 0, 8, 2 :: (beBytes 1 0 ++ beBytes 4 1 ++ beBytes 32 5 ++ beBytes 4 1
  ++ beBytes 8 2 ++ beBytes 32 0 ++ List.replicate 65 0)⟩

def problem : Input := ⟨0, 0, 9, 2 :: (beBytes 1 0 ++ beBytes 4 1 ++ beBytes 4 0 ++ [1, 0]
  ++ beBytes 32 5 ++ [0] ++ beBytes 4 0 ++ [0] ++ beBytes 4 0)⟩

/-- The committed body of the solution `x` to the problem with identity `p`. -/
def solution (p x : ℕ) : Bytes :=
  1 :: (beBytes 32 p ++ beBytes 20 7 ++ beBytes 32 0 ++ [1] ++ beBytes 32 0 ++ beBytes 32 0 ++ [0]
    ++ [1, 1] ++ beBytes 8 1 ++ beBytes 32 0 ++ beBytes 4 1 ++ beBytes 2 1 ++ beBytes 32 9
    ++ beBytes 2 0 ++ beBytes 2 0 ++ beBytes 2 40 ++ [1, 0, 1, 0] ++ beBytes 32 x ++ beBytes 4 0)

def hash (p x : ℕ) : Hash :=
  commitHash toyCrypto 1 (BitVec.ofNat 256 p) 0 (bodyDigest toyCrypto (solution p x))

def commit (tx p x : ℕ) : Input :=
  ⟨tx, 0, 2, 1 :: (beBytes 20 0 ++ beBytes 32 p ++ wordBytes (hash p x))⟩

/-- The OPEN of a solution, and after it its only PART. -/
def reveal (tx p x : ℕ) : List Input :=
  [⟨tx, 0, 3, 1 :: (beBytes 20 0 ++ beBytes 32 0 ++ solution p x)⟩,
    ⟨tx, 1, 4, 1 :: (beBytes 20 0 ++ wordBytes (hash p x) ++ beBytes 2 0 ++ [9])⟩]

def judge (i : UInt64) (kind : RecordKind) (p x : ℕ) (outcome : Outcome) (reason : UInt16)
    (epoch : UInt32) : IndexedVerdict :=
  ⟨i, ⟨kind, hash p x, outcome, reason, epoch, 0, 0⟩⟩

end Example

/-- Play one more step. -/
def plays (P : State → StepInput → Prop) [∀ s i, Decidable (P s i)]
    (x : List (StepInput × Step) × State) (i : StepInput) :
    Except FoldError (List (StepInput × Step) × State) := do
  ensure (P x.2 i) .panicked
  let st ← x.2.fold cr c i
  pure (x.1 ++ [(i, st)], st.state)

/-- Play a list of steps from the first state. -/
def play (gas : ℕ) (P : State → StepInput → Prop) [∀ s i, Decidable (P s i)]
    (inputs : List StepInput) : Except FoldError (List (StepInput × Step) × State) := do
  let s ← State.new cr c gas
  inputs.foldlM (plays cr c P) ([], s)

theorem reached_of_play {cr : Crypto} {c : Config} {gas : ℕ} {P : State → StepInput → Prop}
    [∀ s i, Decidable (P s i)] {inputs : List StepInput} {x : List (StepInput × Step) × State}
    (hx : play cr c gas P inputs = .ok x) : Reached cr c gas P x.1 x.2 := by
  simp only [play, bind_eq_ok] at hx
  obtain ⟨s, hs, hx⟩ := hx
  refine foldlM_invariant (fun y : List (StepInput × Step) × State => Reached cr c gas P y.1 y.2)
    (fun y i y' _ hy hy' => ?_) (.new hs) hx
  simp only [plays, bind_eq_ok, ensure_eq_ok, pure_eq_ok] at hy'
  obtain ⟨_, hi, st, hst, rfl⟩ := hy'
  exact .step hy hi hst

/-- What a played list of steps evaluates to is so in a run. -/
theorem exists_reached_of_play (gas : ℕ) (P : State → StepInput → Prop) [∀ s i, Decidable (P s i)]
    (inputs : List StepInput) {α : Type} (f : List (StepInput × Step) × State → α) {v : α}
    (hv : (play cr c gas P inputs).map f = .ok v) :
    ∃ run s, Reached cr c gas P run s ∧ f (run, s) = v := by
  cases hplay : play cr c gas P inputs with
  | error e =>
    rw [hplay] at hv
    exact nomatch hv
  | ok x =>
    rw [hplay] at hv
    exact ⟨x.1, x.2, reached_of_play hplay, Except.ok.inj hv⟩

/-- What the last of the played steps evaluates to. -/
theorem exists_last_of_play (gas : ℕ) (P : State → StepInput → Prop) [∀ s i, Decidable (P s i)]
    (inputs : List StepInput) (f : StepInput × Step → Bool)
    (hf : (play cr c gas P inputs).map (fun x => x.1.getLast?.any f) = .ok true) :
    ∃ run i st s, Reached cr c gas P (run ++ [(i, st)]) s ∧ f (i, st) = true := by
  obtain ⟨run, s, hr, hlast⟩ := exists_reached_of_play cr c gas P inputs _ hf
  rw [Option.any_eq_true] at hlast
  obtain ⟨⟨i, st⟩, hy, hv⟩ := hlast
  obtain ⟨ys, rfl⟩ := List.getLast?_eq_some_iff.mp hy
  exact ⟨ys, i, st, s, hr, hv⟩

instance (s : State) (i : StepInput) : Decidable (Free s i) := inferInstanceAs (Decidable True)

namespace Example

def genesis : ForkTable := ⟨[⟨0, 0, 0, .genesis, []⟩]⟩

/-- Problem 0 is posed and a solution is committed, revealed, judged and accepted. -/
def winning : List StepInput :=
  [⟨block 1, [pool], [], genesis⟩, ⟨block 2, [], [], genesis⟩, ⟨block 3, [problem], [], genesis⟩,
    ⟨block 4, [commit 0 0 1], [], genesis⟩, ⟨block 5, [], [], genesis⟩,
    ⟨block 6, reveal 0 0 1, [], genesis⟩,
    ⟨block 7, [], [judge 0 .verdict 0 1 .accept 0 0], genesis⟩]

end Example

/-! ## Stages -/

/-- The drafts between the stages of a step. -/
structure Stages where
  activated : Draft
  judged : Draft
  slotted : Draft
  inbox : Draft.Inbox
  settled : Draft
  final : Draft

/-- **The stages of a step that succeeded.** -/
structure Folds (cr : Crypto) (c : Config) (s : State) (i : StepInput) (st : Step) (g : Stages) :
    Prop where
  profile : c.m3.isSome
  valid : c.validate s.l2GasLimit = .ok ()
  config : c = s.config
  height : s.height + 1 = i.l1.number
  inRange : i.l1.number < 2 ^ 64
  table : i.forks.validate cr c = .ok ()
  history : i.forks.validateHistory s = .ok ()
  activate : Draft.activate cr { s with events := [] } i.l1.number i.forks = .ok g.activated
  due : (g.activated.ties cr i.l1.number i.l1.mix).applyDue c i.l1.number i.verdicts i.forks =
    .ok (g.judged, st.verdicts)
  slots : g.judged.slotEvents cr c i.l1.number i.l1.mix = .ok g.slotted
  items : Draft.foldItems cr c ((g.slotted.expire c i.l1.number).purge c i.l1.number) i.l1.number
    i.items = .ok g.inbox
  settle : g.inbox.draft.settle c i.l1.number = .ok g.settled
  vest : g.settled.vest c i.l1.number = .ok (g.final, st.payments)
  codes : st.codes = g.inbox.codes
  events : st.events = g.final.events
  state : st.state = { g.final.toState with
    root := sha cr (State.rootInput cr c s.root i.l1 g.final.events)
    height := i.l1.number }

theorem State.fold_eq_ok {cr : Crypto} {c : Config} {s : State} {i : StepInput} {st : Step}
    (hst : s.fold cr c i = .ok st) : ∃ g, Folds cr c s i st g := by
  simp only [State.fold, State.stepWithVerdicts, State.stepInner, State.validateNext, State.prepare,
    bind_eq_ok, ensure_eq_ok, mapErr_eq_ok, pure_eq_ok, checkedAdd_eq_some] at hst
  obtain ⟨_, hprofile, _, ⟨_, hvalid, _, hconfig, hrange, hheight⟩, _, htable, _, hhistory, _, -, _,
    ⟨activated, hactivate, ⟨judged, applied⟩, hdue, slotted, hslots, rfl⟩, inbox, hitems,
    ⟨final, payments⟩, hconclude, rfl⟩ := hst
  rw [State.conclude, if_pos hprofile, bind_eq_ok] at hconclude
  obtain ⟨settled, hsettle, hvest⟩ := hconclude
  exact ⟨⟨activated, judged, slotted, inbox, settled, final⟩, hprofile, hvalid, hconfig, hheight,
    hheight ▸ hrange, htable, hhistory, hactivate, hdue, hslots, hitems, hsettle, hvest, rfl, rfl, rfl⟩

/-! ## Moves -/

section Moves

variable (cr : Crypto) (c : Config) (p : M3Config) (cap h : ℕ) (mix : Hash) (forks : ForkTable)

/-- **A record is applied to the job at the cursor:** it has been checked, it is due now, and its
target moves. -/
structure Judged (d : Draft) (n : ℕ) (v : IndexedVerdict) (job : Job) (m : M3State)
    (l : LiveCandidate) (P : Problem) (new : Status) (clock : FuelClock) (d' : Draft) : Prop where
  m3 : d.m3 = some m
  checked : Draft.Checked p forks d m n v job P.slot
  push : m.clock.push p cap job.avail v.record.fuel.toNat = .ok (h, clock)
  candidate : d.candidates[job.key]? = some (.live l)
  problem : d.problems[job.key.1]? = some P
  status : Draft.nextStatus v.record.kind l.status v.record.outcome
    (Draft.faulted m job.key l.status) (Draft.compensates m job.key l.status v.record P) = some new
  applies : Draft.Applies c p h P.slot job v clock d m l P new d'

/-- The moves between the activation and the rounds. -/
inductive JudgeStep : Draft × ℕ → Draft × ℕ → Prop
  | ties (d : Draft) (n : ℕ) : JudgeStep (d, n) (d.ties cr h mix, n)
  | apply {d d' : Draft} {n : ℕ} {v : IndexedVerdict} {job : Job} {m : M3State} {l : LiveCandidate}
      {P : Problem} {new : Status} {clock : FuelClock}
      (hj : Judged c p cap h forks d n v job m l P new clock d') : JudgeStep (d, n) (d', n + 1)
  | advance {d : Draft} {m : M3State} (hm : d.m3 = some m) (n : ℕ) :
      JudgeStep (d, n) (d.setM3 { m with nextApplied := n }, n)

/-- The moves from the rounds to the settlement. -/
inductive BlockStep : Draft → Draft → Prop
  | slot {d d' : Draft} {slot : ℕ} (hs : Draft.SlotStep cr c h mix slot d d') : BlockStep d d'
  | expire (d : Draft) : BlockStep d (d.expire c h)
  | purge (d : Draft) : BlockStep d (d.purge c h)
  | item {d d' : Draft} {x : Input} {accepted : ℕ} {code : UInt8}
      (hi : Draft.ItemDraft cr c h d x accepted d' code) : BlockStep d d'
  | accept {d d' : Draft} {key : Key} {P : Problem} {r : Draft.Runner} {m : M3State}
      (hw : Draft.Wins d key P r m) (ha : Draft.Accepts c key h d d') : BlockStep d d'

end Moves

section Sequences

variable (cr : Crypto) {c : Config} {p : M3Config} {cap h : ℕ} (mix : Hash) {forks : ForkTable}

namespace Draft

/-- The records that are due, one move each. -/
theorem examine_moves {now : List IndexedVerdict} {offset : ℕ} {acc mid : Due} {m : M3State}
    (hloop : (now.zipIdx offset).foldlM (examine c p cap h forks) acc = .ok mid)
    (happlied : mid.applied = acc.applied ++ now) (hm : acc.draft.m3 = some m)
    (hclock : acc.clock = m.clock) :
    ReflTransGen (JudgeStep cr c p cap h mix forks) (acc.draft, m.nextApplied + offset)
      (mid.draft, m.nextApplied + (offset + now.length)) ∧
      ∃ m', mid.draft.m3 = some m' ∧ m'.clock = mid.clock := by
  induction now generalizing offset acc m with
  | nil =>
    obtain rfl := Except.ok.inj hloop
    exact ⟨.refl, m, hm, hclock.symm⟩
  | cons v now ih =>
    obtain ⟨acc₁, m₁, job, slot, next, hx, happly, hloop, happlied⟩ := examine_applied hloop happlied
    obtain rfl := Option.mem_unique hm hx.m3
    obtain ⟨m₂, l, P, new, hm₂, hl, hP, hnew, ha⟩ := applyRecord_eq_ok happly
    obtain rfl := Option.mem_unique hm hm₂
    obtain ⟨P', hP', rfl⟩ := hx.checked.problem
    obtain rfl := Option.mem_unique hP hP'
    obtain ⟨m', hm', -, hnext', hclock'⟩ := ha.queue
    have hmove : JudgeStep cr c p cap h mix forks (acc.draft, m.nextApplied + offset)
        (acc₁.draft, m.nextApplied + offset + 1) :=
      .apply ⟨hm, hx.checked, hclock ▸ hx.push, hl, hP, hnew, ha⟩
    have hrest := ih hloop happlied hm' (hx.clock.trans hclock'.symm)
    rw [hnext'] at hrest
    rw [List.length_cons, Nat.add_comm now.length 1, ← Nat.add_assoc offset 1]
    exact ⟨.head hmove hrest.1, hrest.2⟩

theorem applyDue_moves {d d' : Draft} {m : M3State} {records applied : List IndexedVerdict}
    (hd : applyDue c d h records forks = .ok (d', applied)) (hm : d.m3 = some m)
    (hp : c.m3 = some p) (hcap : checkedMul 64 c.qMax c.vPerDeposit = some cap) :
    ReflTransGen (JudgeStep cr c p cap h mix forks) (d, m.nextApplied) (d', d'.cursor) := by
  obtain ⟨p', m₀, cap', later, mid, acc, m', hdue⟩ := applyDue_eq_ok hd
  obtain rfl := Option.mem_unique hp hdue.profile
  obtain rfl := Option.mem_unique hcap hdue.capacity
  obtain rfl := Option.mem_unique hm hdue.m3
  obtain ⟨hmoves, -⟩ := examine_moves cr mix hdue.splits.loop hdue.splits.applied hm rfl
  rw [hdue.result]
  rw [Nat.add_zero, Nat.zero_add] at hmoves
  exact hmoves.tail (.advance hdue.m3_mid _)

variable {cr mix} in
theorem slotEvents_moves {d d' : Draft} (hd : slotEvents cr c d h mix = .ok d') :
    ReflTransGen (BlockStep cr c h mix) d d' := by
  unfold slotEvents at hd
  split at hd
  · obtain rfl := Except.ok.inj hd
    exact .refl
  · refine foldlM_invariant (ReflTransGen (BlockStep cr c h mix) d)
      (fun d₁ slot d₂ _ hmoves h₂ => ?_) .refl hd
    obtain ⟨d₃, hfirst, hsecond⟩ := slotEvent_eq_ok h₂
    exact (hmoves.tail (.slot hfirst)).tail (.slot hsecond)

variable {cr} in
theorem foldItem_moves {acc acc' : Inbox} {items : List Input}
    (ha : items.foldlM (foldItem cr c h) acc = .ok acc') :
    ReflTransGen (BlockStep cr c h mix) acc.draft acc'.draft := by
  refine foldlM_invariant (fun acc₁ : Inbox => ReflTransGen (BlockStep cr c h mix) acc.draft acc₁.draft)
    (fun acc₁ x acc₂ _ hmoves h₂ => ?_) .refl ha
  obtain ⟨code, hi, -⟩ := foldItem_eq_ok h₂
  exact hmoves.tail (.item hi)

theorem settleProblem_moves {d d' : Draft} {ids : List Hash}
    (hd : ids.foldlM (settleProblem c h) d = .ok d') :
    ReflTransGen (BlockStep cr c h mix) d d' := by
  refine foldlM_invariant (ReflTransGen (BlockStep cr c h mix) d) (fun d₁ id d₂ _ hmoves h₂ => ?_)
    .refl hd
  rcases settleProblem_eq_ok h₂ with rfl | ⟨ch, P, r, m, hw, ha⟩
  · exact hmoves
  · exact hmoves.tail (.accept hw ha)

end Draft

end Sequences

/-! ## From moves to runs -/

namespace Folds

variable {cr : Crypto} {c : Config} {s : State} {i : StepInput} {st : Step} {g : Stages}

/-- The activation leaves the cursor where it is. -/
theorem cursor_activated (hf : Folds cr c s i st g) :
    ∃ m, g.activated.m3 = some m ∧ m.nextApplied = s.cursor := by
  obtain ⟨m, hm, ha⟩ := Draft.activate_eq_ok hf.activate
  have hnext : (Draft.started i.forks m).nextApplied = s.cursor := by
    rw [State.cursor, hm]
    unfold Draft.started
    split <;> rfl
  generalize g.activated = d at ha
  cases ha with
  | none | kernelFix | policy => exact ⟨_, rfl, hnext⟩
  | quarantine _ _ hrun =>
    refine ⟨_, rfl, ?_⟩
    rw [hrun.frame]
    exact hnext

/-- The moves from the activation to the rounds. -/
theorem judging (hf : Folds cr c s i st g) : ∃ p cap, c.m3 = some p ∧
    checkedMul 64 c.qMax c.vPerDeposit = some cap ∧
    ReflTransGen (JudgeStep cr c p cap i.l1.number i.l1.mix i.forks) (g.activated, s.cursor)
      (g.judged, g.judged.cursor) := by
  obtain ⟨p, m₀, cap, later, mid, acc, m', hdue⟩ := Draft.applyDue_eq_ok hf.due
  obtain ⟨m, hm, hnext⟩ := hf.cursor_activated
  have hmoves := Draft.applyDue_moves cr i.l1.mix hf.due hm hdue.profile hdue.capacity
  rw [hnext] at hmoves
  exact ⟨p, cap, hdue.profile, hdue.capacity, .head (.ties _ _) hmoves⟩

/-- The stages before the items, as the step computes them. -/
theorem prepare (hf : Folds cr c s i st g) :
    s.prepare cr c i.l1 (some (i.verdicts, i.forks)) =
      .ok ((g.slotted.expire c i.l1.number).purge c i.l1.number, st.verdicts) := by
  simp only [State.prepare, hf.activate, hf.due, hf.slots, ok_bind]
  rfl

/-- The moves from the rounds to the items. -/
theorem preparing (hf : Folds cr c s i st g) :
    ReflTransGen (BlockStep cr c i.l1.number i.l1.mix) g.judged
      ((g.slotted.expire c i.l1.number).purge c i.l1.number) :=
  ((Draft.slotEvents_moves hf.slots).tail (.expire _)).tail (.purge _)

/-- The moves from the rounds to the settlement. -/
theorem receiving (hf : Folds cr c s i st g) :
    ReflTransGen (BlockStep cr c i.l1.number i.l1.mix) g.judged g.inbox.draft :=
  hf.preparing.trans (Draft.foldItem_moves _ hf.items)

/-- The moves from the rounds to the vesting. -/
theorem settling (hf : Folds cr c s i st g) :
    ReflTransGen (BlockStep cr c i.l1.number i.l1.mix) g.judged g.settled :=
  hf.receiving.trans (Draft.settleProblem_moves _ _ hf.settle)

end Folds

end Derivation
