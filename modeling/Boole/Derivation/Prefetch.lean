import Boole.Derivation.Queue

/-!
# Derivation/Prefetch — records supplied ahead of time do not matter

A node may hand a step more or fewer of the records that it will need.  When every queue index has
one record assigned to it, **any two prefixes with which a step succeeds give the same step**
(`fold_assigned_unique`): a prefix that is too short is refused by the pending check, and records
that are not yet due leave no trace.  Along a run the clock never passes the height at which the
first waiting job is due (`Ready`), so no record is ever overdue.
-/

open Std Library Relation

namespace Derivation

open State FuelClock Draft

variable {A : ℕ → VerdictRecord} {start n n' : ℕ} {acc : Due} {cr : Crypto} {c : Config} {s : State}

/-- The first `n` records of an assignment, from a queue index on. -/
def assigned (A : ℕ → VerdictRecord) (start n : ℕ) : List IndexedVerdict :=
  (List.range n).map fun k => ⟨UInt64.ofNat (start + k), A (start + k)⟩

/-- A step is given assigned records, from its cursor on. -/
def Assigned (A : ℕ → VerdictRecord) (s : State) (i : StepInput) : Prop :=
  ∃ n, i.verdicts = assigned A s.cursor n

/-! ## The same records are applied -/

/-- The first part of a list of assigned records, and the record behind it. -/
theorem eq_assigned_of_append {l l' : List IndexedVerdict} (h : assigned A start n = l ++ l') :
    l = assigned A start l.length ∧
      ∀ v ∈ l'.head?, v = ⟨UInt64.ofNat (start + l.length), A (start + l.length)⟩ := by
  have hlen : l.length ≤ n := by
    have := congrArg List.length h
    rw [assigned, List.length_map, List.length_range, List.length_append] at this
    omega
  constructor
  · calc l = (assigned A start n).take l.length := by rw [h, List.take_left]
      _ = assigned A start l.length := by
        rw [assigned, ← List.map_take, List.take_range, Nat.min_eq_left hlen, assigned]
  · intro v hv
    have hget : (assigned A start n)[l.length]? = some v := by
      rw [h, List.getElem?_append_right le_rfl, Nat.sub_self, ← List.head?_eq_getElem?]
      exact hv
    rw [assigned, List.getElem?_map, Option.map_eq_some_iff] at hget
    obtain ⟨k, hk, rfl⟩ := hget
    obtain ⟨_, heq⟩ := List.getElem?_eq_some_iff.mp hk
    rw [List.getElem_range] at heq
    rw [heq]

namespace Draft

variable {c : Config} {d : Draft} {h : ℕ} {forks : ForkTable} {A : ℕ → VerdictRecord} {start : ℕ}

/-- Of two prefixes that are accepted neither leads to more applied records. -/
theorem DueApplied.not_longer {p p' : M3Config} {m m' m₁ m₁' : M3State} {cap cap' : ℕ}
    {now later now' later' : List IndexedVerdict} {mid mid' acc' : Due} {d₁ d₁' : Draft}
    (hd : DueApplied c d h (assigned A start n) forks p m cap now later mid acc m₁ d₁)
    (hd' : DueApplied c d h (assigned A start n') forks p' m' cap' now' later' mid' acc' m₁' d₁') :
    now'.length ≤ now.length := by
  by_contra hlt
  obtain rfl := Option.mem_unique hd.profile hd'.profile
  obtain rfl := Option.mem_unique hd.m3 hd'.m3
  obtain rfl := Option.mem_unique hd.capacity hd'.capacity
  obtain ⟨hnow, hhead⟩ := eq_assigned_of_append hd.records
  -- the second prefix applies one more record `x` right after the records of the first
  obtain ⟨x, rest, hnow', hx⟩ : ∃ x rest, now' = now ++ x :: rest ∧
      x = ⟨UInt64.ofNat (start + now.length), A (start + now.length)⟩ := by
    have hsplit : now' = now'.take now.length ++ now'.drop now.length :=
      (List.take_append_drop _ _).symm
    cases hrest : now'.drop now.length with
    | nil =>
      rw [List.drop_eq_nil_iff] at hrest
      omega
    | cons x rest =>
      rw [hrest] at hsplit
      have hrecords := hd'.records
      rw [hsplit, List.append_assoc] at hrecords
      obtain ⟨htake, hx⟩ := eq_assigned_of_append hrecords
      rw [List.length_take, Nat.min_eq_left (by omega)] at htake hx
      rw [htake, ← hnow] at hsplit
      exact ⟨x, rest, hsplit, hx x rfl⟩
  subst hnow'
  obtain ⟨mid₁, m₂, job, slot, next, hloop, hm₂, hchecked, hpush⟩ := hd'.splits.due
  obtain rfl := Except.ok.inj (hd.splits.loop.symm.trans hloop)
  obtain rfl := Option.mem_unique hd.m3_mid hm₂
  cases later with
  | nil =>
    have hqueued := hchecked.queued
    rw [hd.queue, hd.next, Nat.zero_add] at hqueued
    have := hd.pending rfl job hqueued
    have := (push_eq_ok hpush).delay
    omega
  | cons v later =>
    obtain rfl : v = x := (hhead v rfl).trans hx.symm
    obtain ⟨m₂, job', slot', due, next', hm₂, hchecked', hpush', hlate⟩ := hd.splits.later v rfl
    obtain rfl := Option.mem_unique hd.m3_mid hm₂
    obtain rfl := Option.mem_unique hchecked.queued hchecked'.queued
    obtain ⟨rfl, -⟩ := Prod.mk.inj (Except.ok.inj (hpush.symm.trans hpush'))
    exact lt_irrefl _ hlate

theorem applyDue_assigned_unique {r r' : Draft × List IndexedVerdict}
    (hd : applyDue c d h (assigned A start n) forks = .ok r)
    (hd' : applyDue c d h (assigned A start n') forks = .ok r') : r = r' := by
  obtain ⟨d₁, now⟩ := r
  obtain ⟨d₁', now'⟩ := r'
  obtain ⟨p, m, cap, later, mid, acc, m₁, hdue⟩ := applyDue_eq_ok hd
  obtain ⟨p', m', cap', later', mid', acc', m₁', hdue'⟩ := applyDue_eq_ok hd'
  have hlen := Nat.le_antisymm (hdue'.not_longer hdue) (hdue.not_longer hdue')
  obtain rfl : now = now' := by
    rw [(eq_assigned_of_append hdue.records).1, (eq_assigned_of_append hdue'.records).1, hlen]
  obtain rfl := Option.mem_unique hdue.profile hdue'.profile
  obtain rfl := Option.mem_unique hdue.m3 hdue'.m3
  obtain rfl := Option.mem_unique hdue.capacity hdue'.capacity
  obtain rfl := Except.ok.inj (hdue.splits.loop.symm.trans hdue'.splits.loop)
  obtain rfl := Option.mem_unique hdue.m3_mid hdue'.m3_mid
  rw [hdue.result, hdue'.result]

end Draft

/-- **Two prefixes with which a step succeeds give the same step.** -/
theorem State.fold_assigned_unique {l1 : L1Block} {items : List Input} {forks : ForkTable}
    {st st' : Step} (hst : s.fold cr c ⟨l1, items, assigned A start n, forks⟩ = .ok st)
    (hst' : s.fold cr c ⟨l1, items, assigned A start n', forks⟩ = .ok st') : st = st' := by
  obtain ⟨⟨activated, judged, slotted, inbox, settled, final⟩, hf⟩ := fold_eq_ok hst
  obtain ⟨⟨activated', judged', slotted', inbox', settled', final'⟩, hf'⟩ := fold_eq_ok hst'
  obtain rfl : activated = activated' := Except.ok.inj (hf.activate.symm.trans hf'.activate)
  obtain ⟨hjudged, hverdicts⟩ := Prod.mk.inj (applyDue_assigned_unique hf.due hf'.due)
  obtain rfl : judged = judged' := hjudged
  obtain rfl : slotted = slotted' := Except.ok.inj (hf.slots.symm.trans hf'.slots)
  obtain rfl : inbox = inbox' := Except.ok.inj (hf.items.symm.trans hf'.items)
  obtain rfl : settled = settled' := Except.ok.inj (hf.settle.symm.trans hf'.settle)
  obtain ⟨hfinal, hpayments⟩ := Prod.mk.inj (Except.ok.inj (hf.vest.symm.trans hf'.vest))
  obtain rfl : final = final' := hfinal
  exact Step.ext (hf.state.trans hf'.state.symm) (hf.codes.trans hf'.codes.symm)
    (hf.events.trans hf'.events.symm) hverdicts hpayments

/-! ## No record is overdue -/

/-- The job at the cursor is due after the height of the state. -/
def Ready (A : ℕ → VerdictRecord) (c : Config) (s : State) : Prop :=
  ∀ p cap m job due next, c.m3 = some p → checkedMul 64 c.qMax c.vPerDeposit = some cap →
    s.m3 = some m → m.queue[m.nextApplied]? = some job →
    m.clock.push p cap job.avail (A m.nextApplied).fuel.toNat = .ok (due, next) → s.height < due

theorem Folds.ready {i : StepInput} {st : Step} {g : Stages} (hf : Folds cr c s i st g)
    (hA : Assigned A s i) :
    Ready A c st.state := by
  intro p cap m job due next hp hcap hm hjob hpush
  obtain ⟨n, hn⟩ := hA
  have hdue := hf.due
  rw [hn] at hdue
  obtain ⟨p', m₀, cap', later, mid, acc, m₁, hdue⟩ := applyDue_eq_ok hdue
  obtain rfl := Option.mem_unique hp hdue.profile
  obtain rfl := Option.mem_unique hcap hdue.capacity
  obtain ⟨m₂, hm₂, hcursor⟩ := hf.cursor_activated
  obtain rfl : m₂ = m₀ := Option.mem_unique hm₂ hdue.m3
  obtain ⟨-, m₃, hm₃, hclock⟩ := examine_moves cr i.l1.mix hdue.splits.loop
    hdue.splits.applied hdue.m3 rfl
  obtain rfl := Option.mem_unique hdue.m3_mid hm₃
  obtain ⟨m', hm', hg⟩ := hf.grows (by rw [hdue.result]; rfl)
  obtain rfl := Option.mem_unique hm hm'
  have hdelay := (push_eq_ok hpush).delay
  have hnext : m.nextApplied = m₂.nextApplied + st.verdicts.length := hg.next
  have hclock : m.clock = mid.clock := hg.clock.trans hclock
  have hqueue : m₂.queue <+: m.queue := hdue.queue ▸ hg.queue
  rw [show st.state.height = i.l1.number by rw [hf.state]]
  by_cases hlt : m.nextApplied < m₂.queue.length
  · rw [getElem?_of_isPrefix hqueue hlt, hnext] at hjob
    cases later with
    | nil =>
      have := hdue.pending rfl job hjob
      omega
    | cons v later =>
      obtain ⟨m₃, job', slot, due', next', hm₃, hchecked, hpush', hlate⟩ :=
        hdue.splits.later v rfl
      obtain rfl := Option.mem_unique hdue.m3_mid hm₃
      have hqueued := hchecked.queued
      rw [hdue.queue, hdue.next, Nat.zero_add, hjob] at hqueued
      obtain rfl := Option.some.inj hqueued
      have hv := (eq_assigned_of_append hdue.records).2 v rfl
      rw [← hcursor, ← hnext] at hv
      rw [hv, ← hclock, hpush] at hpush'
      obtain ⟨rfl, -⟩ := Prod.mk.inj (Except.ok.inj hpush')
      exact hlate
  · -- a job that this step has queued
    have havail := (hg.fresh _ job (hdue.queue ▸ Nat.le_of_not_lt hlt) hjob).2
    have := (Config.valid_m3 hf.valid hp).delay
    omega

theorem Reached.ready {gas : ℕ} {run : List (StepInput × Step)}
    (hr : Reached cr c gas (Assigned A) run s) :
    Ready A c s := by
  cases hr with
  | new hs =>
    intro p cap m job due next hp _ hm hjob
    simp only [State.new, bind_eq_ok, pure_eq_ok] at hs
    obtain ⟨_, -, rfl⟩ := hs
    simp only [hp, Option.map_some, Option.some.injEq] at hm
    subst hm
    simp at hjob
  | step _ hi hst =>
    obtain ⟨g, hf⟩ := fold_eq_ok hst
    exact hf.ready hi

/-! ## Where the error comes from -/

/-- Not the error of a record that comes too late. -/
def NotOverdue (e : FoldError) : Prop := e ≠ m3Error "overdue verdict"

namespace Draft

section Errors

variable (cr : Crypto) (c : Config) (p : M3Config) (d : Draft) (h : ℕ)

theorem setStatus_notOverdue (key : Key) (v : Status) : Throws NotOverdue (d.setStatus key v) := by
  unfold setStatus
  split <;> simp [NotOverdue]

theorem closeRound_notOverdue (params : SlotParams) (slot : ℕ) (q : Hash) :
    Throws NotOverdue (d.closeRound params slot q h) := by
  unfold closeRound
  split <;> simp [expect, NotOverdue]

theorem closeWindow_notOverdue (q : Hash) : Throws NotOverdue (closeWindow c d q h) := by
  simp [closeWindow, closeRound_notOverdue, expect, NotOverdue]

theorem grantTo_notOverdue (slot : ℕ) (key : Key) (solver : Address) (comp : Bool) :
    Throws NotOverdue (d.grantTo p slot key solver h comp) := by
  simp [grantTo, m3State, expect, NotOverdue]

theorem voidProblem_notOverdue (q : Hash) : Throws NotOverdue (voidProblem c d q h) := by
  simp [voidProblem, closeWindow_notOverdue, throws_foldlM, setStatus_notOverdue, expect, NotOverdue]

theorem applyRecord_notOverdue (slot : ℕ) (job : Job) (v : IndexedVerdict) (clock : FuelClock) :
    Throws NotOverdue (applyRecord c p d h slot job v clock) := by
  simp [applyRecord, recordResult, unsettle, compensate, voidProblem_notOverdue, grantTo_notOverdue,
    setStatus_notOverdue, m3State, expect, NotOverdue]

theorem recheckSet_notOverdue (forks : ForkTable) (s : State) :
    Throws (fun e => NotOverdue (.m3 e)) (forks.recheckSet s h) := by
  have hentry (m : M3State) (epoch : ℕ) (e : Key × Candidate) :
      Throws (fun e => NotOverdue (.m3 e)) (ForkTable.recheckEntry m epoch e.1 e.2) := by
    simp [ForkTable.recheckEntry, NotOverdue]
  unfold ForkTable.recheckSet
  split
  · simp
  · simp only [throws_bind]
    exact ⟨by simp [NotOverdue], fun m _ => ⟨throws_mapM (hentry m _) _, by simp⟩⟩

theorem quarantineItem_notOverdue (s : State) (epoch : ℕ) (m : M3State) (item : ForkItem) :
    Throws NotOverdue (quarantineItem s epoch m item) := by
  unfold quarantineItem
  split <;> simp [NotOverdue]

theorem activateRow_notOverdue (s : State) (row : ForkRow) (keys : List Key) (m : M3State) :
    Throws NotOverdue (activateRow s h row keys m) := by
  have hpush (m : M3State) (key : Key) : Throws NotOverdue (pushRecheck h row.epoch m key) := by
    simp [pushRecheck, NotOverdue]
  unfold activateRow
  split
  · exact throws_foldlM hpush _ _
  · exact throws_foldlM (quarantineItem_notOverdue s row.epoch) _ _
  · simp
  · simp [NotOverdue]

theorem activate_notOverdue (forks : ForkTable) : Throws NotOverdue (d.activate cr h forks) := by
  simp only [activate, throws_bind, throws_mapErr]
  refine ⟨recheckSet_notOverdue h forks d.toState, fun _ _ => ⟨by simp [m3State, NotOverdue],
    fun _ _ => ⟨by simp [startHistory, expect, NotOverdue], fun _ _ => ?_⟩⟩⟩
  split
  · simp
  · simp [ForkRow.activationRecord, ForkRow.listDigest, activateRow_notOverdue, NotOverdue]

theorem nextRound_notOverdue (slot : ℕ) (mix : Hash) :
    Throws NotOverdue (nextRound cr c d h slot mix) := by
  have hrepose (d : Draft) (number : ℕ) (old : Problem) :
      Throws NotOverdue (reposeProblem cr c d h slot number old) := by
    unfold reposeProblem
    split <;> simp [expect, NotOverdue]
  have hleaf (number : ℕ) (seed : Hash) (seq j : ℕ) :
      Throws NotOverdue (d.drawLeaf h slot number seed seq j) := by
    simp only [drawLeaf, throws_bind, expect]
    refine ⟨by simp [NotOverdue], fun _ _ => ?_⟩
    split <;> simp
  have hdraw (number : ℕ) (waiting : Slot) :
      Throws NotOverdue (d.draw cr c h slot number mix waiting) := by
    unfold draw
    dsimp only
    repeat' split
    all_goals simp [hleaf]
  simp only [nextRound, throws_bind, throws_ite, expect]
  refine ⟨by simp [NotOverdue], fun waiting _ => ⟨by simp, fun _ => ?_⟩⟩
  split
  · simp
  · simp only [throws_bind]
    refine ⟨by simp [NotOverdue], fun queue _ => ?_⟩
    split
    · exact hrepose _ _ _
    · exact hdraw _ _

theorem slotEvents_notOverdue (mix : Hash) : Throws NotOverdue (slotEvents cr c d h mix) := by
  have hevent (d : Draft) (slot : ℕ) : Throws NotOverdue (slotEvent cr c h mix d slot) := by
    simp [slotEvent, nextRound_notOverdue, expect, NotOverdue]
  simp [slotEvents, throws_foldlM hevent]

theorem complete_notOverdue (key : Key) : Throws NotOverdue (d.complete key h) := by
  have hqueue (m : ExtTreeMap Key Candidate lexOrd.compare) (i : ℕ) :
      Throws NotOverdue (queueCandidate m key i) := by
    unfold queueCandidate
    split <;> simp [NotOverdue]
  simp [complete, setStatus_notOverdue, hqueue, m3State, expect, NotOverdue]

theorem foldItems_notOverdue (items : List Input) : Throws NotOverdue (foldItems cr c d h items) := by
  have hitem (s : State) (x : Input) (accepted : ℕ) :
      Throws NotOverdue (item cr c h s x accepted) := by
    unfold item
    split <;> simp [NotOverdue]
  have hturn (acc : Inbox) (x : Input) : Throws NotOverdue (foldItem cr c h acc x) := by
    simp [foldItem, completePart, hitem, complete_notOverdue, expect, NotOverdue]
  exact throws_foldlM hturn _ _

theorem conclude_notOverdue : Throws NotOverdue (conclude c d h) := by
  have haccept (d : Draft) (key : Key) : Throws NotOverdue (accept c d key h) := by
    simp [accept, grant, setStatus_notOverdue, throws_foldlM, closeWindow_notOverdue,
      grantTo_notOverdue, expect, NotOverdue]
  have hsettle (d : Draft) (q : Hash) : Throws NotOverdue (settleProblem c h d q) := by
    simp only [settleProblem, expect]
    split <;> simp [haccept, m3State, NotOverdue]
  have hvest (p : M3Config) (acc : Draft × List RewardPayment) (id : ℕ) :
      Throws NotOverdue (vestReward p acc id) := by
    simp [vestReward, m3State, expect, NotOverdue]
  simp [conclude, settle, vest, throws_foldlM hsettle, throws_foldlM (hvest _), m3State,
    NotOverdue]

variable {c p d h} {cap : ℕ} {forks : ForkTable}

/-- A record that is due at the height or later is not overdue. -/
theorem examine_notOverdue {x : IndexedVerdict × ℕ} (hx : ∀ m job due next, acc.draft.m3 = some m →
      m.queue[m.nextApplied + x.2]? = some job → acc.clock.push p cap job.avail
      x.1.record.fuel.toNat = .ok (due, next) → h ≤ due) :
    Throws NotOverdue (examine c p cap h forks acc x) := by
  have hcheck (m : M3State) : Throws NotOverdue (checkRecord p forks acc.draft m x.2 x.1) := by
    have hgate (job : Job) : Throws NotOverdue (gateEpoch p forks job) := by
      unfold gateEpoch
      split <;> simp [ForkTable.jobEpoch, NotOverdue]
    simp [checkRecord, hgate, VerdictRecord.encode, validateReason, expect, NotOverdue]
  have hpush (avail fuel : ℕ) :
      Throws (fun e => NotOverdue (.m3 e)) (acc.clock.push p cap avail fuel) := by
    simp [push, NotOverdue]
  simp only [examine, throws_bind, throws_mapErr, throws_ensure, throws_ite, m3State, okOr_eq_ok,
    mapErr_eq_ok]
  refine ⟨by simp [NotOverdue], fun m hm => ⟨hcheck m, fun job hjob => ⟨hpush _ _,
    fun pushed hpushed => ⟨fun hlate => ?_, fun _ _ => ⟨fun _ => ⟨?_, by simp⟩, by simp⟩⟩⟩⟩⟩
  · exact absurd (hx m job.1 pushed.1 pushed.2 hm (checkRecord_eq_ok hjob).queued hpushed) hlate
  · exact applyRecord_notOverdue c p acc.draft h job.2 job.1 x.1 pushed.2

/-- Once the clock has reached the height, no record is overdue. -/
theorem examine_foldlM_notOverdue {xs : List (IndexedVerdict × ℕ)} (hacc : h ≤ acc.clock.due) :
    Throws NotOverdue (xs.foldlM (examine c p cap h forks) acc) := by
  induction xs generalizing acc with
  | nil => exact throws_pure acc
  | cons x xs ih =>
    rw [List.foldlM_cons, throws_bind]
    refine ⟨examine_notOverdue fun m job due next _ _ hpush => ?_, fun acc₁ h₁ => ih ?_⟩
    · exact hacc.trans (push_eq_ok hpush).mono
    · obtain ⟨m, job, slot, due, next, hx⟩ := examine_eq_ok h₁
      rw [hx.clock, (push_eq_ok hx.push).due_eq]
      exact hacc.trans (push_eq_ok hx.push).mono

/-- When the first record is not overdue, none is. -/
theorem applyDue_notOverdue (hd : ∀ p cap m job due next, c.m3 = some p → checkedMul 64 c.qMax
      c.vPerDeposit = some cap → d.m3 = some m → m.queue[m.nextApplied]? = some job → m.clock.push p
      cap job.avail (A start).fuel.toNat = .ok (due, next) → h ≤ due) :
    Throws NotOverdue (applyDue c d h (assigned A start n) forks) := by
  have hpending (p : M3Config) (m : M3State) (e : ℕ) : Throws NotOverdue (checkPending p m h e) := by
    unfold checkPending
    split <;> simp [NotOverdue]
  simp only [applyDue, throws_bind, m3State, okOr_eq_ok]
  refine ⟨by simp [NotOverdue], fun p hp => ⟨by simp [NotOverdue], fun m hm =>
    ⟨by simp [NotOverdue], fun cap hcap => ⟨?_, by simp [NotOverdue, hpending]⟩⟩⟩⟩
  cases n with
  | zero => exact throws_pure _
  | succ n =>
    rw [assigned, List.range_succ_eq_map, List.map_cons, List.zipIdx_cons, List.foldlM_cons,
      throws_bind]
    refine ⟨examine_notOverdue fun m' job due next hm' hjob hpush => ?_, fun acc hacc =>
      examine_foldlM_notOverdue ?_⟩
    · obtain rfl := Option.mem_unique hm hm'
      exact hd p cap m job due next hp hcap hm hjob hpush
    · obtain ⟨m', job, slot, due, next, hx⟩ := examine_eq_ok hacc
      obtain rfl := Option.mem_unique hm hx.m3
      rw [hx.clock, (push_eq_ok hx.push).due_eq]
      exact hd p cap m job due next hp hcap hm hx.checked.queued hx.push

end Errors

end Draft

/-- **In a state that is ready no step finds a record overdue.** -/
theorem Ready.notOverdue {l1 : L1Block} {items : List Input} {forks : ForkTable} (hs : Ready A c s)
    (n : ℕ) :
    Throws NotOverdue (s.fold cr c ⟨l1, items, assigned A s.cursor n, forks⟩) := by
  have hdue (d : Draft) (hheight : s.height + 1 = l1.number)
      (hd : activate cr { s with events := [] } l1.number forks = .ok d) : Throws NotOverdue
        ((d.ties cr l1.number l1.mix).applyDue c l1.number (assigned A s.cursor n) forks) := by
    refine applyDue_notOverdue fun p cap m job due next hp hcap hm hjob hpush => ?_
    obtain ⟨m₀, hm₀, ha⟩ := activate_eq_ok hd
    obtain ⟨m', hm', hnext, hclock, hold⟩ := ha.job
    obtain rfl := Option.mem_unique hm hm'
    rw [started_frame] at hnext hclock hold
    have hcursor : s.cursor = m.nextApplied := by rw [cursor, hm₀, hnext]; rfl
    rcases hold _ _ hjob with ⟨old, e, hold, rfl⟩ | ⟨-, havail⟩
    · rw [hclock, hcursor, hnext] at hpush
      rw [hnext] at hold
      have := hs p cap m₀ old due next hp hcap hm₀ hold hpush
      omega
    · have := (push_eq_ok hpush).delay
      omega
  have hvalidate : Throws NotOverdue (s.validateNext c l1) := by
    simp [validateNext, NotOverdue]
  simp only [fold, stepWithVerdicts, stepInner, prepare, throws_bind,
    throws_pure, hvalidate, true_and, implies_true, and_true]
  refine ⟨by simp [NotOverdue], fun _ _ _ hvalid => ⟨by simp [NotOverdue], fun _ _ =>
    ⟨by simp [ForkTable.validateHistory, NotOverdue], fun _ _ _ _ => ⟨⟨?_, fun d hd => ⟨?_, ?_⟩⟩, ?_⟩⟩⟩⟩
  · exact activate_notOverdue _ _ _ _
  · simp only [validateNext, bind_eq_ok, ensure_eq_ok, checkedAdd_eq_some] at hvalid
    obtain ⟨_, -, _, -, -, hheight⟩ := hvalid
    exact hdue d hheight hd
  · exact fun _ _ => slotEvents_notOverdue _ _ _ _ _
  · exact fun _ _ => ⟨foldItems_notOverdue _ _ _ _ _, fun _ _ =>
      conclude_notOverdue _ _ _⟩

/-! ## Runs -/

/-- What a step is given besides the records. -/
def StepInput.history (i : StepInput) : L1Block × List Input × ForkTable := (i.l1, i.items, i.forks)

/-- Two runs over the same blocks are the same run up to the records that were handed over. -/
theorem Reached.assigned_unique {gas : ℕ} {run run' : List (StepInput × Step)} {s' : State}
    (hr : Reached cr c gas (Assigned A) run s) (hr' : Reached cr c gas (Assigned A) run' s')
    (hsame : run.map (·.1.history) = run'.map (·.1.history)) :
    s = s' ∧ run.map (·.2) = run'.map (·.2) := by
  induction hr generalizing run' s' with
  | new hs =>
    cases hr' with
    | new hs' => exact ⟨Except.ok.inj (hs.symm.trans hs'), rfl⟩
    | step => simp at hsame
  | @step run s hr i hi st hst ih =>
    cases hr' with
    | new => simp at hsame
    | @step run' s' hr' i' hi' st' hst' =>
      simp only [List.map_append, List.map_cons] at hsame ⊢
      obtain ⟨hsame, hlast⟩ := List.append_inj' hsame rfl
      obtain ⟨rfl, hsteps⟩ := ih hr' hsame
      obtain ⟨n, hn⟩ := hi
      obtain ⟨n', hn'⟩ := hi'
      obtain ⟨l1, items, verdicts, forks⟩ := i
      obtain ⟨l1', items', verdicts', forks'⟩ := i'
      obtain ⟨rfl, rfl, rfl⟩ := hlast
      subst hn hn'
      obtain rfl := fold_assigned_unique hst hst'
      exact ⟨rfl, by rw [hsteps]⟩

/-- **Prefetching records does not matter.**  When one record is assigned to every queue index, two
prefixes with which a step succeeds give the same step, two runs over the same blocks reach the same
state by the same steps, and no step ever finds a record overdue. -/
theorem Reached.prefetch {cr : Crypto} {c : Config} {gas : ℕ} {A : ℕ → VerdictRecord}
    {run : List (StepInput × Step)} {s : State} (hr : Reached cr c gas (Assigned A) run s) :
    (∀ l1 items forks n n' st st',
      s.fold cr c ⟨l1, items, assigned A s.cursor n, forks⟩ = .ok st →
      s.fold cr c ⟨l1, items, assigned A s.cursor n', forks⟩ = .ok st' → st = st') ∧
    (∀ run' s', Reached cr c gas (Assigned A) run' s' →
      run.map (·.1.history) = run'.map (·.1.history) → s = s' ∧ run.map (·.2) = run'.map (·.2)) ∧
    ∀ l1 items forks n, s.fold cr c ⟨l1, items, assigned A s.cursor n, forks⟩ ≠
      .error (m3Error "overdue verdict") := by
  refine ⟨fun l1 items forks n n' st st' hst hst' => State.fold_assigned_unique hst hst',
    fun run' s' hr' hsame => hr.assigned_unique hr' hsame, fun l1 items forks n herr => ?_⟩
  exact hr.ready.notOverdue n _ herr rfl

instance (A : ℕ → VerdictRecord) (s : State) (i : StepInput) : Decidable (Assigned A s i) :=
  decidable_of_iff (i.verdicts = assigned A s.cursor i.verdicts.length) <| by
    refine ⟨fun h => ⟨_, h⟩, fun ⟨n, hn⟩ => ?_⟩
    have hlen : i.verdicts.length = n := by rw [hn, assigned, List.length_map, List.length_range]
    rw [hlen, hn]

/-- Every verdict accepts the first solution. -/
def exampleRecords (_ : ℕ) : VerdictRecord := ⟨.verdict, Example.hash 0 1, .accept, 0, 0, 0, 0⟩

/-- A solution is posed, committed, revealed and judged; too many records are handed over. -/
def prefetchInputs : List StepInput :=
  let forks : ForkTable := ⟨[⟨0, 0, 0, .genesis, []⟩]⟩
  [⟨Example.block 1, [Example.pool], [], forks⟩, ⟨Example.block 2, [], [], forks⟩,
    ⟨Example.block 3, [Example.problem], [], forks⟩,
    ⟨Example.block 4, [Example.commit 0 0 1], [], forks⟩, ⟨Example.block 5, [], [], forks⟩,
    ⟨Example.block 6, Example.reveal 0 0 1, [], forks⟩,
    ⟨Example.block 7, [], assigned exampleRecords 0 1, forks⟩]

theorem Reached.prefetch_one_verdict : ∃ run s,
    Reached toyCrypto exampleConfig exampleGas (Assigned exampleRecords) run s ∧ s.cursor = 1 ∧
    ∀ l1 items forks n, s.fold toyCrypto exampleConfig
      ⟨l1, items, assigned exampleRecords s.cursor n, forks⟩ ≠ .error (m3Error "overdue verdict") := by
  obtain ⟨run, s, hr, hcursor⟩ := exists_reached_of_play toyCrypto exampleConfig exampleGas
    (Assigned exampleRecords) prefetchInputs (·.2.cursor) (v := 1) (by decide +kernel)
  exact ⟨run, s, hr, hcursor, hr.prefetch.2.2⟩

end Derivation
