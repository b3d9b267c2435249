import Mathlib.Data.List.Sort
import Boole.Derivation.Slots

/-!
# Derivation/Fold — verdicts, settlement and rewards

The M3 stages of a step: a fork row is activated, verdict records that are due are applied to the
candidates they judge, the first candidate that passed wins its problem, and rewards vest.
-/

open Std Library

namespace Derivation

/-- The first error of an M3 stage. -/
abbrev m3Error (message : String) : FoldError := .m3 (.format message)

/-- The order of a pair of a number and a key. -/
def indexedLe (a b : ℕ × Key) : Prop :=
  a.1 < b.1 ∨ a.1 = b.1 ∧ (a.2.1 < b.2.1 ∨ a.2.1 = b.2.1 ∧ a.2.2 ≤ b.2.2)

instance : DecidableRel indexedLe := fun _ _ => inferInstanceAs (Decidable (_ ∨ _))

namespace ForkTable

def validateHistory (self : ForkTable) (s : State) : Except Error Unit := do
  let m ← okOr s.m3 .profileRequired
  if s.height = 0 ∧ m.forkHistory = [] then pure ()
  else ensure (self.rows.takeWhile (fun r => r.height ≤ s.height) = m.forkHistory) .pastForkChanged

/-- The place in the queue of a candidate that a kernel fix of this epoch rechecks. -/
def recheckEntry (m : M3State) (epoch : ℕ) (key : Key) (candidate : Candidate) :
    Except Error (Option (ℕ × Key)) :=
  let status := candidate.status
  if status = .accepted ∨ status = .passed ∨ status = .rejected then do
    let result ← okOr m.results[key]? (.format "recheck candidate has no result")
    if epoch ≤ result.gateEpoch.toNat ∨ status = .rejected ∧ result.reason ≠ kernelFault then
      pure none
    else do
      let index ← okOr ((candidate.live?.bind (·.open?)).bind (·.queueIndex))
        (.format "recheck candidate has no original queue index")
      pure (some (index, key))
  else pure none

/-- The candidates a kernel fix at this height rechecks, in the order of their verdict jobs. -/
def recheckSet (self : ForkTable) (s : State) (height : ℕ) : Except Error (List Key) :=
  match self.rows.find? fun row => row.height = height ∧ row.kind = .kernelFix with
  | none => pure []
  | some row => do
    let m ← okOr s.m3 .profileRequired
    let found ← s.candidates.toList.mapM fun e => recheckEntry m row.epoch e.1 e.2
    pure ((found.reduceOption.insertionSort indexedLe).map (·.2))

end ForkTable

/-- `enqueue_repose`: queue a known problem for a re-pose, once. -/
def State.enqueueRepose (self : State) (p : Hash) : State :=
  match self.problems[p]? with
  | none => self
  | some problem =>
    match self.repose[problem.slot]? with
    | none => self
    | some queue =>
      if ∃ x ∈ queue, x.id = problem.id then self
      else { self with repose := self.repose.set problem.slot (queue ++ [problem]) }

variable (self : Draft)

variable (c : Config)

variable (s : State)

namespace Draft

/-- `status`: move a candidate that is retained to a status. -/
def setStatus (key : Key) (value : Status) : Except FoldError Draft :=
  match self.candidates[key]? with
  | some (.live l) =>
    if l.status = value then .ok self
    else
      let moved := { self with
        candidates := self.candidates.insert key (.live { l with status := value }) }
      .ok (moved.emit (.status key value))
  | _ => .error (m3Error "verdict target is not retained")

def setM3 (m : M3State) : Draft := { self with m3 := some m }

/-! ## Activation -/

/-- Queue a recheck of a candidate. -/
def pushRecheck (h epoch : ℕ) (m : M3State) (key : Key) : Except FoldError M3State := do
  ensure (m.queue.length < 2 ^ 64) (.m3 .overflow)
  let job : Job := {
    queueIndex := m.queue.length
    key
    kind := .recheck
    avail := h
    epochOverride := some epoch }
  pure { m with
    queue := m.queue ++ [job]
    pendingRechecks := m.pendingRechecks.insert key }

/-- Whether a queued job is the verdict that a quarantine item is about. -/
def quarantined (item : ForkItem) (j : Job) : Bool :=
  j.kind = .verdict ∧ j.key.2 = item.commitHash
    ∧ (s.candidates[j.key]?.map (·.status)) = some .checking

/-- Put one item of a quarantine list into effect. -/
def quarantineItem (epoch : ℕ) (m : M3State) (item : ForkItem) : Except FoldError M3State :=
  match (m.queue.zipIdx.drop m.nextApplied).filter fun j => quarantined s item j.1 with
  | [] => .error (m3Error "quarantine target is not queued CHECKING")
  | [(job, i)] => .ok { m with
      queue := m.queue.set i { job with epochOverride := some epoch }
      quarantineVoids :=
        if item.disposition = .void then m.quarantineVoids.insert job.key
        else m.quarantineVoids.erase job.key }
  | _ :: _ :: _ => .error (m3Error "ambiguous quarantine target")

/-- The M3 state after the row's own effects. -/
def activateRow (h : ℕ) (row : ForkRow) (rechecks : List Key) (m : M3State) :
    Except FoldError M3State :=
  match row.kind with
  | .kernelFix => rechecks.foldlM (pushRecheck h row.epoch) m
  | .quarantine => row.list.foldlM (quarantineItem s row.epoch) m
  | .policy => pure m
  | .genesis => .error (m3Error "nonzero genesis activation")

/-- The history when no row is in it yet. -/
def startHistory (forks : ForkTable) (m : M3State) : Except FoldError M3State :=
  if m.forkHistory = [] then do
    let first ← expect forks.rows.head?
    pure { m with forkHistory := [first] }
  else pure m

def activate (cr : Crypto) (self : Draft) (h : ℕ) (forks : ForkTable) : Except FoldError Draft := do
  let rechecks ← mapErr .m3 (forks.recheckSet self.toState h)
  let m ← self.m3State
  let m ← startHistory forks m
  match (forks.rows.drop 1).find? fun row => row.height = h with
  | none => pure (self.setM3 m)
  | some row => do
    let record ← mapErr .m3 (row.activationRecord cr)
    let m ← activateRow self.toState h row rechecks m
    pure ((self.setM3 { m with forkHistory := m.forkHistory ++ [row] }).emit (.fork record))

/-! ## Rounds and windows -/

/-- The round of a problem. -/
def roundOf (p : Hash) : Option ((ℕ × ℕ) × Round) :=
  s.rounds.toList.find? fun e => e.2.problem = some p

/-- `round`: an event of the problem's round. -/
def roundEvent (p : Hash) (event : UInt8) : Draft :=
  match roundOf self.toState p with
  | none => self
  | some (key, r) => self.emit (.round key.1 key.2 event r.poolSeq r.leafIndex (some p))

/-- Close the round of a problem, and free the slot it was active in. -/
def closeRound (params : SlotParams) (slot : ℕ) (p : Hash) (h : ℕ) : Except FoldError Draft :=
  match roundOf self.toState p with
  | none => .ok self
  | some (key, r) => do
    let closed := { self with rounds := self.rounds.insert key { r with status := .closed } }
    let active ← expect closed.slots[slot]?
    if active.active = some key then do
      let scheduled ← okOr (checkedAdd 64 h params.announceGap) (.m3 .overflow)
      pure (closed.setSlot slot { active with active := none, scheduled := some scheduled })
    else pure closed

variable (self : Draft)

def closeWindow (p : Hash) (h : ℕ) : Except FoldError Draft := do
  let problem ← okOr self.problems[p]? (m3Error "missing problem")
  let params ← expect c.slotTable[problem.slot]?
  let deadline ← okOr (checkedAdd 64 problem.hV params.solveDeadline) (.m3 .overflow)
  if problem.closed = none ∧ h ≤ deadline then
    let closed := { self with
      problems := self.problems.insert p { problem with closed := some h } }
    closed.closeRound params problem.slot p h
  else pure self

/-- The candidates of a problem with one of the statuses, in order. -/
def withStatus (p : Hash) (statuses : List Status) : List Key :=
  (s.candidates.toList.filter fun e => e.1.1 = p ∧ e.2.status ∈ statuses).map (·.1)

def voidProblem (p : Hash) (h : ℕ) : Except FoldError Draft := do
  let problem ← expect self.problems[p]?
  if problem.voided then pure self
  else do
    let voided := { self with problems := self.problems.insert p { problem with voided := true } }
    let closed ← closeWindow c (voided.roundEvent p 0xc6) p h
    (withStatus closed.toState p [.checking]).foldlM (fun d key => d.setStatus key .void) closed

/-! ## Rewards -/

variable (p : M3Config)

/-- `grant_to`: lock a reward for a candidate and admit it; a compensation is granted once. -/
def grantTo (slot : ℕ) (key : Key) (solver : Address) (h : ℕ) (compensation : Bool) :
    Except FoldError Draft := do
  let m ← self.m3State
  if compensation ∧ ∃ e ∈ m.rewards.toList, e.2.key = key ∧ e.2.compensation then pure self
  else do
    ensure (m.rewards.size < 2 ^ 64) (.m3 .overflow)
    let amount ← expect p.reward[slot]?
    let vestH ← okOr (checkedAdd 64 h p.maturity) (.m3 .overflow)
    let r : Reward := {
      id := m.rewards.size
      key
      solver
      amount
      vestH
      status := .locked
      compensation }
    let k ← okOr (checkedAdd 64 m.admissions.size 1) (.m3 .overflow)
    let a : Admission := { k, key, retired := false }
    let granted := self.setM3 { m with
      rewards := m.rewards.insert r.id r
      admissions := m.admissions.insert k a }
    pure ((granted.emit (.reward r (if compensation then 4 else 1))).emit (.admission a 1))

/-- The solver that a candidate's OPEN froze. -/
def solverOf (key : Key) : Option Address :=
  ((s.candidates[key]?.bind (·.live?)).bind (·.open?)).map (·.solver)

def grant (key : Key) (h : ℕ) (compensation : Bool) : Except FoldError Draft := do
  let p ← okOr c.m3 (.m3 .profileRequired)
  let problem ← expect self.problems[key.1]?
  let solver ← okOr (solverOf self.toState key) (m3Error "winner has no frozen OPEN")
  self.grantTo p problem.slot key solver h compensation

/-- Whether a reward is cancelled when the candidate turns stale. -/
def cancels (key : Key) (r : Reward) : Bool := r.key = key ∧ r.status = .locked

/-- Whether an admission is retired when the candidate turns stale. -/
def retires (key : Key) (a : Admission) : Bool := a.key = key ∧ a.retired = false

/-- Cancel the locked rewards of a candidate and retire its admissions. -/
def revoke (m : M3State) (key : Key) : Draft :=
  let cancel (r : Reward) : Reward := { r with status := .cancelled }
  let retire (a : Admission) : Admission := { a with retired := true }
  { self with
    m3 := some { m with
      rewards := m.rewards.map fun _ r => if cancels key r then cancel r else r
      admissions := m.admissions.map fun _ a => if retires key a then retire a else a }
    events := self.events
      ++ (m.rewards.toList.filter (cancels key ·.2)).map (fun e => .reward (cancel e.2) 3)
      ++ (m.admissions.toList.filter (retires key ·.2)).map fun e => .admission (retire e.2) 2 }

/-! ## Verdicts -/

/-- The status a record moves its target to.  `fault` says that the target was rejected for a kernel
fault, `compensation` that moreover its problem has a winner. -/
def nextStatus (kind : RecordKind) (old : Status) (outcome : Outcome) (fault compensation : Bool) :
    Option Status :=
  match kind, old, outcome with
  | .verdict, .checking, .accept => some .passed
  | .verdict, .checking, .reject => some .rejected
  | .verdict, .checking, .void => some .void
  | .verdict, .superseded, _ | .verdict, .void, _ => some old
  | .recheck, .accepted, .reject => some .stale
  | .recheck, .accepted, .accept | .recheck, .passed, .accept => some old
  | .recheck, .passed, .reject => some .rejected
  | .recheck, .rejected, .accept =>
    if fault then some (if compensation then .accepted else .passed) else none
  | .recheck, .rejected, .reject => if fault then some .rejected else none
  | _, _, _ => none

/-- What follows when an accepted candidate turns stale. -/
def unsettle (key : Key) : Except FoldError Draft := do
  let m ← self.m3State
  let revoked := self.revoke m key
  let queued := { revoked with toState := revoked.toState.enqueueRepose key.1 }
  pure (queued.roundEvent key.1 0xc7)

/-- Record a result that has been applied. -/
def recordResult (job : Job) (record : VerdictRecord) (clock : FuelClock) :
    Except FoldError Draft := do
  let m ← self.m3State
  pure (self.setM3 { m with
    results := m.results.insert job.key record
    quarantineVoids := m.quarantineVoids.erase job.key
    pendingRechecks :=
      if job.kind = .recheck then m.pendingRechecks.erase job.key else m.pendingRechecks
    clock })

/-- Grant the compensation of a candidate. -/
def compensate (self : Draft) (slot : ℕ) (key : Key) (h : ℕ) : Except FoldError Draft := do
  let solver ← okOr (solverOf self.toState key) (m3Error "compensation OPEN")
  self.grantTo p slot key solver h true

/-- Whether a candidate was rejected for a kernel fault. -/
def faulted (m : M3State) (key : Key) (old : Status) : Bool :=
  old = .rejected ∧ (m.results[key]?.map (·.reason)) = some kernelFault

/-- Apply a record that is due. -/
def applyRecord (self : Draft) (h slot : ℕ) (job : Job) (v : IndexedVerdict) (clock : FuelClock) :
    Except FoldError Draft := do
  let m ← self.m3State
  let candidate ← okOr self.candidates[job.key]? (m3Error "verdict target absent")
  let old := candidate.status
  let problem ← expect self.problems[job.key.1]?
  let fault := faulted m job.key old
  let compensation : Bool := fault ∧ v.record.kind = .recheck ∧ v.record.outcome = .accept
    ∧ problem.winner.isSome
  let new ← okOr (nextStatus v.record.kind old v.record.outcome fault compensation)
    (m3Error "invalid verdict target status")
  let moved ← (self.emit (.verdict v)).setStatus job.key new
  let paid ← if compensation then moved.compensate p slot job.key h else pure moved
  let unsettled ← if new = .stale then paid.unsettle job.key else pure paid
  let voided ← if old = .checking ∧ new = .void
      ∧ v.record.reason ∈ [packageInvalid, fuelCapInvalid, generatorUnavailable] then
    voidProblem c unsettled job.key.1 h else pure unsettled
  voided.recordResult job v.record clock

/-- The loop state of `apply_due`: the draft, the clock after the records examined, and the records
that were applied. -/
structure Due where
  draft : Draft
  clock : FuelClock
  applied : List IndexedVerdict

/-- The epoch whose gate judges a job. -/
def gateEpoch (forks : ForkTable) (job : Job) : Except FoldError ℕ :=
  match job.epochOverride with
  | some epoch => .ok epoch
  | none => mapErr .m3 (forks.jobEpoch job.avail p.k)

/-- The job of the record examined at an offset, and the slot of its problem. -/
def checkRecord (forks : ForkTable) (self : Draft) (m : M3State) (offset : ℕ) (v : IndexedVerdict) :
    Except FoldError (Job × ℕ) := do
  let i ← okOr (checkedAdd 64 m.nextApplied offset) (.m3 .overflow)
  let job ← okOr m.queue[i]? (m3Error "extra verdict")
  ensure (v.queueIndex.toNat = job.queueIndex ∧ v.record.commitHash = job.key.2
    ∧ v.record.kind = job.kind) (m3Error "verdict queue identity")
  let _ ← mapErr .m3 v.record.encode
  ensure (job.key ∈ m.quarantineVoids →
    v.record.outcome = .void ∧ v.record.reason = quarantineVoid)
    (m3Error "quarantine requires VOID(0802)")
  let epoch ← gateEpoch p forks job
  ensure (v.record.gateEpoch.toNat = epoch) (m3Error "verdict gate epoch")
  let problem ← okOr self.problems[job.key.1]? (m3Error "job problem")
  let fuel ← expect p.fuelSlot[problem.slot]?
  ensure (v.record.fuel.toNat ≤ fuel) (m3Error "verdict fuel exceeds slot")
  pure (job, problem.slot)

/-- Examine one record: apply it when it is due, keep it for later otherwise. -/
def examine (cap h : ℕ) (forks : ForkTable) (acc : Due) (x : IndexedVerdict × ℕ) :
    Except FoldError Due := do
  let m ← acc.draft.m3State
  let job ← checkRecord p forks acc.draft m x.2 x.1
  let pushed ← mapErr .m3 (acc.clock.push p cap job.1.avail x.1.record.fuel.toNat)
  ensure (h ≤ pushed.1) (m3Error "overdue verdict")
  if pushed.1 = h then do
    let draft ← acc.draft.applyRecord c p h job.2 job.1 x.1 pushed.2
    pure { draft, clock := pushed.2, applied := acc.applied ++ [x.1] }
  else pure { acc with clock := pushed.2 }

/-- When all records were due, the job behind them must not be due for certain. -/
def checkPending (m : M3State) (h examined : ℕ) : Except FoldError Unit :=
  match m.queue[examined]? with
  | none => pure ()
  | some job => do
    let minimum ← okOr (checkedAdd 64 job.avail p.k) (.m3 .overflow)
    ensure (h < minimum) (.m3 (.pending job.queueIndex h))

def applyDue (h : ℕ) (records : List IndexedVerdict) (forks : ForkTable) :
    Except FoldError (Draft × List IndexedVerdict) := do
  let p ← okOr c.m3 (.m3 .profileRequired)
  let m ← self.m3State
  let cap ← okOr (checkedMul 64 c.qMax c.vPerDeposit) (.m3 .overflow)
  let due ← records.zipIdx.foldlM (examine c p cap h forks)
    { draft := self, clock := m.clock, applied := [] }
  let m ← due.draft.m3State
  let examined ← okOr (checkedAdd 64 m.nextApplied records.length) (.m3 .overflow)
  if due.applied.length < records.length then pure () else checkPending p m h examined
  let next ← okOr (checkedAdd 64 m.nextApplied due.applied.length) (.m3 .overflow)
  pure (due.draft.setM3 { m with nextApplied := next }, due.applied)

/-! ## Completion and settlement -/

/-- The candidates with the number of their job in their OPEN. -/
def queueCandidate (candidates : ExtTreeMap Key Candidate lexOrd.compare) (key : Key) (index : ℕ) :
    Except FoldError (ExtTreeMap Key Candidate lexOrd.compare) :=
  match candidates[key]? with
  | some (.live l) => do
    let o ← okOr l.open? (m3Error "completion without OPEN")
    pure (candidates.insert key
      (.live { l with open? := some { o with queueIndex := some index } }))
  | _ => pure candidates

/-- `complete`: a candidate whose parts are all there is queued for a verdict, unless its problem
is over. -/
def complete (key : Key) (h : ℕ) : Except FoldError Draft := do
  let problem ← expect self.problems[key.1]?
  if problem.voided then self.setStatus key .void
  else if problem.winner.isSome then self.setStatus key .superseded
  else do
    let m ← self.m3State
    ensure (m.queue.length < 2 ^ 64) (.m3 .overflow)
    let candidates ← queueCandidate self.candidates key m.queue.length
    let job : Job := {
      queueIndex := m.queue.length
      key
      kind := .verdict
      avail := h
      epochOverride := none }
    pure { self with candidates, m3 := some { m with queue := m.queue ++ [job] } }

/-- A candidate in the race for a problem. -/
structure Runner where
  hC : ℕ
  t : Hash
  ch : Hash
  status : Status

/-- The order of the race. -/
def Runner.before (a b : Runner) : Bool :=
  a.hC < b.hC || a.hC = b.hC && (a.t < b.t || a.t = b.t && a.ch < b.ch)

/-- The candidates that may still win a problem. -/
def runners (p : Hash) : List Runner :=
  s.candidates.toList.filterMap fun e => do
    let l ← e.2.live?
    if e.1.1 = p ∧ l.status ∈ [Status.committed, .opened, .checking, .passed] then
      some { hC := l.hC, t := l.t.getD 0, ch := e.1.2, status := l.status }
    else none

/-- `min_by_key`. -/
def first : List Runner → Option Runner
  | [] => none
  | r :: rs => some (rs.foldl (fun a b => if b.before a then b else a) r)

/-- Make a candidate the winner of its problem. -/
def accept (key : Key) (h : ℕ) : Except FoldError Draft := do
  let accepted ← self.setStatus key .accepted
  let rest := (withStatus accepted.toState key.1 [.checking, .passed]).filter (· ≠ key)
  let superseded ← rest.foldlM (fun d k => d.setStatus k .superseded) accepted
  let problem ← expect superseded.problems[key.1]?
  let won := { superseded with
    problems := superseded.problems.insert key.1 { problem with winner := some key.2 } }
  let closed ← closeWindow c (won.roundEvent key.1 0xc5) key.1 h
  closed.grant c key h false

/-- Settle one problem, when the first of its candidates has passed. -/
def settleProblem (h : ℕ) (self : Draft) (p : Hash) : Except FoldError Draft := do
  let problem ← expect self.problems[p]?
  if problem.winner.isSome ∨ problem.voided then pure self
  else
    match first (runners self.toState p) with
    | none => pure self
    | some r =>
      if r.status = .passed then do
        let m ← self.m3State
        if (p, r.ch) ∈ m.pendingRechecks then pure self else self.accept c (p, r.ch) h
      else pure self

def settle (h : ℕ) : Except FoldError Draft :=
  (self.problems.toList.map (·.1)).foldlM (settleProblem c h) self

/-- The order in which rewards vest. -/
def vestLe (a b : ℕ × ℕ) : Prop := a.1 < b.1 ∨ a.1 = b.1 ∧ a.2 ≤ b.2

instance : DecidableRel vestLe := fun _ _ => inferInstanceAs (Decidable (_ ∨ _))

/-- Vest one reward. -/
def vestReward (acc : Draft × List RewardPayment) (id : ℕ) :
    Except FoldError (Draft × List RewardPayment) := do
  let m ← acc.1.m3State
  let r ← expect m.rewards[id]?
  let vested := { r with status := .vested }
  let draft := (acc.1.setM3 { m with rewards := m.rewards.insert id vested }).emit
    (.reward vested 2)
  let payment : RewardPayment := { rewardId := id, solver := r.solver, amount := r.amount }
  pure (draft, if p.mintEnabled then acc.2 ++ [payment] else acc.2)

/-- The rewards that may vest at a height, in order. -/
def vestable (m : M3State) (h : ℕ) : List (ℕ × ℕ) :=
  ((m.rewards.toList.filter fun e => e.2.status = .locked ∧ e.2.vestH ≤ h).map
    fun e => (e.2.vestH, e.2.id)).insertionSort vestLe

def vest (h : ℕ) : Except FoldError (Draft × List RewardPayment) := do
  let p ← okOr c.m3 (.m3 .profileRequired)
  let m ← self.m3State
  (((vestable m h).take p.qReward).map (·.2)).foldlM (vestReward p) (self, [])

end Draft

end Derivation
