import Boole.Derivation.Step
import Boole.Library.OrdMap

/-!
# Derivation/Effects — what each part of a step does to the state

Every function of the fold, read backwards: from the draft it returned to the checks it made and
the fields it changed.  **The proofs about runs only use these lemmas** and never look into the
functions again.  Most effects are inductive propositions whose constructors spell the new draft
out; a change of many candidates at once is given by what a lookup finds afterwards (`Restated`).
-/

open Std Library

namespace Derivation

variable {m m' : M3State} {key : Key} {v : Status} {s : State} {p : Hash} {c : Config} {h epoch : ℕ}

/-! ## Candidates -/

/-- The status of a candidate that is known. -/
def State.statusOf (s : State) (k : Key) : Option Status := s.candidates[k]?.map Candidate.status

/-- A candidate in another status; of a tombstone nothing else is left. -/
def Candidate.setStatus (v : Status) : Candidate → Candidate
  | .live l => .live { l with status := v }
  | .tombstone s => .tombstone s

/-- The candidates for which `Q` holds, all of them retained, have moved to a status. -/
structure Restated (Q : Key → Prop) (v : Status)
    (m m' : ExtTreeMap Key Candidate lexOrd.compare) : Prop where
  moved : ∀ k, Q k → ∃ l, m[k]? = some (.live l) ∧ m'[k]? = some (.live { l with status := v })
  kept : ∀ k, ¬Q k → m'[k]? = m[k]?

/-- The events of the M3 ledger: verdicts, rewards, admissions and forks. -/
def Event.ledger : Event → Bool
  | .verdict _ | .reward _ _ | .admission _ _ | .fork _ => true
  | _ => false

namespace Draft

variable {d d' : Draft}

theorem m3State_eq_ok : d.m3State = .ok m ↔ d.m3 = some m := okOr_eq_ok

theorem expect_eq_ok {α : Type} {x : Option α} {a : α} : expect x = .ok a ↔ x = some a := okOr_eq_ok

theorem setStatus_eq_ok (h : d.setStatus key v = .ok d') :
    ∃ l, d.candidates[key]? = some (.live l) ∧ d' = { d with
      candidates := d.candidates.insert key (.live { l with status := v })
      events := d.events ++ if l.status = v then [] else [.status key v] } := by
  unfold setStatus at h
  split at h
  · rename_i l hl
    refine ⟨l, hl, ?_⟩
    split_ifs at h with hv
    · obtain rfl := Except.ok.inj h
      subst hv
      rw [insert_eq_self hl]
      simp
    · rw [if_neg hv]
      exact (Except.ok.inj h).symm
  · exact nomatch h

/-- A loop that moves candidates to one status. -/
theorem setStatus_foldlM {keys : List Key} (h : keys.foldlM (fun d k => d.setStatus k v) d = .ok d') :
    ∃ cands evs, Restated (· ∈ keys) v d.candidates cands ∧ (∀ e ∈ evs, ∃ k, e = .status k v) ∧
      d' = { d with candidates := cands, events := d.events ++ evs } := by
  induction keys generalizing d with
  | nil =>
    obtain rfl := Except.ok.inj h
    exact ⟨d.candidates, [], ⟨by simp, by simp⟩, by simp, by simp⟩
  | cons k keys ih =>
    rw [List.foldlM_cons, bind_eq_ok] at h
    obtain ⟨d₁, h₁, h⟩ := h
    obtain ⟨l, hl, rfl⟩ := setStatus_eq_ok h₁
    obtain ⟨cands, evs, hcands, hevs, rfl⟩ := ih h
    refine ⟨cands, (if l.status = v then [] else [.status k v]) ++ evs, ⟨?_, ?_⟩, ?_, by simp⟩
    · intro a ha
      by_cases hmem : a ∈ keys
      · obtain ⟨l₁, hl₁, hnew⟩ := hcands.moved a hmem
        rw [getElem?_insert] at hl₁
        split_ifs at hl₁ with heq
        · subst heq
          cases hl₁
          exact ⟨l, hl, hnew⟩
        · exact ⟨l₁, hl₁, hnew⟩
      · obtain rfl : a = k := by simpa [hmem] using ha
        refine ⟨l, hl, ?_⟩
        rw [hcands.kept a hmem, getElem?_insert, if_pos rfl]
    · intro a ha
      obtain ⟨hne, hmem⟩ := not_or.mp (mt List.mem_cons.mpr ha)
      rw [hcands.kept a hmem, getElem?_insert, if_neg (Ne.symm hne)]
    · intro e he
      rcases List.mem_append.mp he with he | he
      · split at he
        · simp at he
        · exact ⟨k, by simpa using he⟩
      · exact hevs e he

theorem mem_withStatus {statuses : List Status} {k : Key} :
    k ∈ withStatus s p statuses ↔ k.1 = p ∧ ∃ v ∈ statuses, s.statusOf k = some v := by
  simp only [withStatus, List.mem_map, List.mem_filter, State.statusOf, Option.map_eq_some_iff,
    decide_eq_true_eq]
  constructor
  · rintro ⟨⟨a, b⟩, ⟨hb, rfl, hs⟩, rfl⟩
    exact ⟨rfl, _, hs, b, mem_toList_iff.mp hb, rfl⟩
  · rintro ⟨rfl, v, hv, b, hb, rfl⟩
    exact ⟨(k, b), ⟨mem_toList_iff.mpr hb, rfl, hv⟩, rfl⟩

/-! ## Rounds and windows -/

/-- The window of a problem is closed, or stays as it is when it is too late for that. -/
inductive WindowStep (c : Config) (p : Hash) (h : ℕ) (s : State) : State → Prop
  | same : WindowStep c p h s s
  | lone {P : Problem} (hP : s.problems[p]? = some P) (hclosed : P.closed = none)
      (hround : roundOf s p = none) :
      WindowStep c p h s { s with problems := s.problems.insert p { P with closed := some h } }
  | idle {P : Problem} (hP : s.problems[p]? = some P) (hclosed : P.closed = none)
      {key : ℕ × ℕ} {r : Round} (hround : roundOf s p = some (key, r)) {slot : Slot}
      (hslot : s.slots[P.slot]? = some slot) (hactive : slot.active ≠ some key) :
      WindowStep c p h s { s with
        problems := s.problems.insert p { P with closed := some h }
        rounds := s.rounds.insert key { r with status := .closed } }
  | active {P : Problem} (hP : s.problems[p]? = some P) (hclosed : P.closed = none)
      {key : ℕ × ℕ} {r : Round} (hround : roundOf s p = some (key, r)) {slot : Slot}
      (hslot : s.slots[P.slot]? = some slot) (hactive : slot.active = some key) {next : ℕ} :
      WindowStep c p h s { s with
        problems := s.problems.insert p { P with closed := some h }
        rounds := s.rounds.insert key { r with status := .closed }
        slots := s.slots.set P.slot { slot with active := none, scheduled := some next } }

theorem closeWindow_eq_ok (hd : closeWindow c d p h = .ok d') :
    ∃ s, WindowStep c p h d.toState s ∧ d' = { s with events := d.events } := by
  simp only [closeWindow, bind_eq_ok, okOr_eq_ok] at hd
  obtain ⟨P, hP, params, -, deadline, -, hd⟩ := hd
  split_ifs at hd with hopen
  · unfold closeRound at hd
    split at hd
    · rename_i hround
      obtain rfl := Except.ok.inj hd
      exact ⟨_, .lone hP hopen.1 hround, rfl⟩
    · rename_i key r hround
      simp only [bind_eq_ok, expect_eq_ok] at hd
      obtain ⟨slot, hslot, hd⟩ := hd
      split_ifs at hd with hactive
      · simp only [bind_eq_ok, pure_eq_ok] at hd
        obtain ⟨next, -, rfl⟩ := hd
        exact ⟨_, .active hP hopen.1 hround hslot hactive, rfl⟩
      · obtain rfl := Except.ok.inj hd
        exact ⟨_, .idle hP hopen.1 hround hslot hactive, rfl⟩
  · obtain rfl := Except.ok.inj hd
    exact ⟨_, .same, rfl⟩

theorem roundEvent_eq (p : Hash) (event : UInt8) : ∃ evs, evs.filter Event.ledger = [] ∧
    d.roundEvent p event = { d with events := d.events ++ evs } := by
  unfold roundEvent
  split
  · exact ⟨[], rfl, by simp⟩
  · exact ⟨[_], rfl, rfl⟩

/-- A problem is voided once, with the candidates that wait for a verdict. -/
inductive VoidStep (c : Config) (p : Hash) (h : ℕ) (d : Draft) : Draft → Prop
  | again {P : Problem} (hP : d.problems[p]? = some P) (hvoided : P.voided = true) :
      VoidStep c p h d d
  | void {P : Problem} (hP : d.problems[p]? = some P) (hvoided : P.voided = false) {s : State}
      (hwindow : WindowStep c p h
        { d.toState with problems := d.problems.insert p { P with voided := true } } s)
      {cands : ExtTreeMap Key Candidate lexOrd.compare}
      (hcands : Restated (fun k => k.1 = p ∧ s.statusOf k = some .checking) .void s.candidates cands)
      {evs : List Event} (hevs : evs.filter Event.ledger = []) :
      VoidStep c p h d { s with candidates := cands, events := d.events ++ evs }

theorem filter_ledger_status {evs : List Event} (h : ∀ e ∈ evs, ∃ k, e = .status k v) :
    evs.filter Event.ledger = [] := by
  rw [List.filter_eq_nil_iff]
  intro e he
  obtain ⟨k, rfl⟩ := h e he
  simp [Event.ledger]

theorem voidProblem_eq_ok (hd : voidProblem c d p h = .ok d') :
    VoidStep c p h d d' := by
  simp only [voidProblem, bind_eq_ok, expect_eq_ok] at hd
  obtain ⟨P, hP, hd⟩ := hd
  split_ifs at hd with hvoided
  · obtain rfl := Except.ok.inj hd
    exact .again hP hvoided
  · rw [bind_eq_ok] at hd
    obtain ⟨d₁, h₁, hd⟩ := hd
    obtain ⟨evs, hevs, hround⟩ := roundEvent_eq
      (d := { d with problems := d.problems.insert p { P with voided := true } }) p 0xc6
    rw [hround] at h₁
    obtain ⟨s, hwindow, rfl⟩ := closeWindow_eq_ok h₁
    obtain ⟨cands, evs', hcands, hevs', rfl⟩ := setStatus_foldlM hd
    have hkeys (k : Key) : k ∈ withStatus s p [.checking] ↔
        k.1 = p ∧ s.statusOf k = some .checking := by simp [mem_withStatus]
    simp only [hkeys] at hcands
    rw [List.append_assoc]
    exact .void hP (by simpa using hvoided) hwindow hcands
      (by rw [List.filter_append, hevs, filter_ledger_status hevs']; rfl)

/-! ## Rewards -/

/-- A reward is locked and the candidate admitted; a compensation only when there is none yet. -/
inductive Granted (p : M3Config) (slot : ℕ) (key : Key) (solver : Address) (h : ℕ)
    (compensation : Bool) (m : M3State) : List Event → M3State → Prop
  | again (hcomp : compensation = true)
      (hpaid : ∃ (id : ℕ) (r : Reward), m.rewards[id]? = some r ∧ r.key = key ∧ r.compensation = true) :
      Granted p slot key solver h compensation m [] m
  | fresh (hnew : compensation = true →
        ∀ (id : ℕ) (r : Reward), m.rewards[id]? = some r → r.key = key → r.compensation = false)
      {amount : ℕ} (hamount : p.reward[slot]? = some amount) (hvest : h + p.maturity < 2 ^ 64)
      {r : Reward}
      (hr : r = ⟨m.rewards.size, key, solver, amount, h + p.maturity, .locked, compensation⟩)
      {a : Admission} (ha : a = ⟨m.admissions.size + 1, key, false⟩) :
      Granted p slot key solver h compensation m
        [.reward r (if compensation then 4 else 1), .admission a 1]
        { m with rewards := m.rewards.insert r.id r, admissions := m.admissions.insert a.k a }

theorem grantTo_eq_ok {p : M3Config} {slot : ℕ} {solver : Address} {compensation : Bool}
    (hd : d.grantTo p slot key solver h compensation = .ok d') :
    ∃ m evs m', d.m3 = some m ∧ Granted p slot key solver h compensation m evs m' ∧
      d' = { d with m3 := some m', events := d.events ++ evs } := by
  simp only [grantTo, bind_eq_ok, m3State_eq_ok] at hd
  obtain ⟨m, hm, hd⟩ := hd
  refine ⟨m, ?_⟩
  split at hd
  · rename_i hpaid
    obtain rfl := Except.ok.inj hd
    obtain ⟨hcomp, e, he, hkey, hc⟩ := hpaid
    exact ⟨[], m, hm, .again hcomp ⟨e.1, e.2, mem_toList_iff.mp he, hkey, hc⟩, by simp [← hm]⟩
  · rename_i hpaid
    simp only [bind_eq_ok, okOr_eq_ok, expect_eq_ok, checkedAdd_eq_some, pure_eq_ok] at hd
    obtain ⟨_, -, amount, hamount, _, ⟨hvest, rfl⟩, _, ⟨-, rfl⟩, rfl⟩ := hd
    refine ⟨_, _, hm, .fresh (fun hcomp id r hr hkey => ?_) hamount hvest rfl rfl, ?_⟩
    · by_contra hc
      exact hpaid ⟨hcomp, (id, r), mem_toList_iff.mpr hr, hkey, by simpa using hc⟩
    · simp [emit, setM3]

/-- The M3 state after the rewards of a candidate were cancelled and its admissions retired. -/
def revoked (m : M3State) (key : Key) : M3State :=
  { m with
    rewards := m.rewards.map fun _ r => if cancels key r then { r with status := .cancelled } else r
    admissions := m.admissions.map fun _ a => if retires key a then { a with retired := true } else a }

/-- The events of a revocation. -/
def revocation (m : M3State) (key : Key) : List Event :=
  (m.rewards.toList.filter (cancels key ·.2)).map
      (fun e => .reward { e.2 with status := .cancelled } 3)
    ++ (m.admissions.toList.filter (retires key ·.2)).map
      fun e => .admission { e.2 with retired := true } 2

theorem filter_ledger_revocation (m : M3State) (key : Key) :
    (revocation m key).filter Event.ledger = revocation m key := by
  rw [List.filter_eq_self]
  intro e he
  rcases List.mem_append.mp he with he | he
  all_goals
    obtain ⟨_, -, rfl⟩ := List.mem_map.mp he
    rfl

theorem enqueueRepose_candidates (s : State) (cands : ExtTreeMap Key Candidate lexOrd.compare)
    (p : Hash) : State.enqueueRepose { s with candidates := cands } p =
      { s.enqueueRepose p with candidates := cands } := by
  simp only [State.enqueueRepose]
  repeat' split
  all_goals rfl

theorem enqueueRepose_frame (s : State) (p : Hash) :
    s.enqueueRepose p = { s with repose := (s.enqueueRepose p).repose } := by
  unfold State.enqueueRepose
  repeat' split
  all_goals rfl

theorem unsettle_eq_ok (hd : d.unsettle key = .ok d') (hm : d.m3 = some m) :
    ∃ evs, evs.filter Event.ledger = revocation m key ∧
      d' = { d.toState.enqueueRepose key.1 with
        m3 := some (revoked m key)
        events := d.events ++ evs } := by
  simp only [unsettle, bind_eq_ok, m3State_eq_ok, pure_eq_ok] at hd
  obtain ⟨_, hm', rfl⟩ := hd
  obtain rfl := Option.mem_unique hm hm'
  have hrepose : ({ d.revoke m key with
      toState := (d.revoke m key).toState.enqueueRepose key.1 } : Draft) =
      { d.toState.enqueueRepose key.1 with
        m3 := some (revoked m key)
        events := d.events ++ revocation m key } := by
    simp only [revoke, State.enqueueRepose, List.append_assoc]
    repeat' split
    all_goals rfl
  rw [hrepose]
  obtain ⟨evs, hevs, heq⟩ := roundEvent_eq
    (d := { d.toState.enqueueRepose key.1 with
      m3 := some (revoked m key)
      events := d.events ++ revocation m key }) key.1 0xc7
  refine ⟨revocation m key ++ evs, ?_, ?_⟩
  · rw [List.filter_append, hevs, filter_ledger_revocation, List.append_nil]
  · rw [heq]
    simp only [List.append_assoc]

/-! ## Verdicts -/

/-- The M3 state after a result was recorded. -/
def recorded (m : M3State) (job : Job) (record : VerdictRecord) (clock : FuelClock) : M3State :=
  { m with
    results := m.results.insert job.key record
    quarantineVoids := m.quarantineVoids.erase job.key
    pendingRechecks :=
      if job.kind = .recheck then m.pendingRechecks.erase job.key else m.pendingRechecks
    clock }

theorem recordResult_eq_ok {job : Job} {record : VerdictRecord} {clock : FuelClock}
    (hd : d.recordResult job record clock = .ok d') (hm : d.m3 = some m) :
    d' = { d with m3 := some (recorded m job record clock) } := by
  simp only [recordResult, bind_eq_ok, m3State_eq_ok, pure_eq_ok] at hd
  obtain ⟨_, hm', rfl⟩ := hd
  obtain rfl := Option.mem_unique hm hm'
  rfl

/-- Whether a record compensates its target. -/
def compensates (m : M3State) (key : Key) (old : Status) (record : VerdictRecord)
    (problem : Problem) : Bool :=
  faulted m key old ∧ record.kind = .recheck ∧ record.outcome = .accept ∧ problem.winner.isSome

/-- Whether a record that voids its target voids the problem. -/
def voids (old new : Status) (record : VerdictRecord) : Prop :=
  old = .checking ∧ new = .void ∧
    record.reason ∈ [packageInvalid, fuelCapInvalid, generatorUnavailable]

/-- **What a record that is due does:** its target moves to another status; besides, a compensation
may be paid, an accepted candidate may turn stale, or the problem may be voided. -/
inductive Applies (c : Config) (p : M3Config) (h slot : ℕ) (job : Job) (v : IndexedVerdict)
    (clock : FuelClock) (d : Draft) (m : M3State) (l : LiveCandidate) (P : Problem) (new : Status) :
    Draft → Prop
  | plain (hcomp : compensates m job.key l.status v.record P = false) (hstale : new ≠ .stale)
      (hvoid : ¬voids l.status new v.record) {evs : List Event}
      (hevs : evs.filter Event.ledger = [.verdict v]) :
      Applies c p h slot job v clock d m l P new { d with
        candidates := d.candidates.insert job.key (.live { l with status := new })
        m3 := some (recorded m job v.record clock)
        events := d.events ++ evs }
  | compensated (hcomp : compensates m job.key l.status v.record P = true) (hnew : new = .accepted)
      {o : OpenRecord} (hopen : l.open? = some o) {paid : List Event} {m' : M3State}
      (hgrant : Granted p slot job.key o.solver h true m paid m') {evs : List Event}
      (hevs : evs.filter Event.ledger = .verdict v :: paid) :
      Applies c p h slot job v clock d m l P new { d with
        candidates := d.candidates.insert job.key (.live { l with status := new })
        m3 := some (recorded m' job v.record clock)
        events := d.events ++ evs }
  | stale (hold : l.status = .accepted) (hnew : new = .stale) {evs : List Event}
      (hevs : evs.filter Event.ledger = .verdict v :: revocation m job.key)
      (htold : .status job.key .stale ∈ evs) :
      Applies c p h slot job v clock d m l P new { d.toState.enqueueRepose job.key.1 with
        candidates := d.candidates.insert job.key (.live { l with status := new })
        m3 := some (recorded (revoked m job.key) job v.record clock)
        events := d.events ++ evs }
  | voided (hvoid : voids l.status new v.record) {evs : List Event}
      (hevs : evs.filter Event.ledger = [.verdict v]) {d₁ : Draft}
      (hstep : VoidStep c job.key.1 h { d with
        candidates := d.candidates.insert job.key (.live { l with status := new })
        events := d.events ++ evs } d₁) :
      Applies c p h slot job v clock d m l P new
        { d₁ with m3 := some (recorded m job v.record clock) }

theorem VoidStep.m3 (hstep : VoidStep c p h d d') :
    d'.m3 = d.m3 := by
  cases hstep with
  | again => rfl
  | void _ _ hwindow => cases hwindow <;> rfl

theorem nextStatus_eq_stale {kind : RecordKind} {old : Status} {outcome : Outcome} {f x : Bool}
    (h : nextStatus kind old outcome f x = some .stale) :
    kind = .recheck ∧ old = .accepted ∧ outcome = .reject := by
  cases kind <;> cases old <;> cases outcome <;> cases f <;> cases x <;> simp_all [nextStatus]

/-- A compensation accepts its target. -/
theorem nextStatus_compensated {old new : Status} {record : VerdictRecord} {P : Problem}
    (hcomp : compensates m key old record P = true) (h : nextStatus record.kind old record.outcome
      (faulted m key old) (compensates m key old record P) = some new) : new = .accepted := by
  rw [hcomp] at h
  simp only [compensates, decide_eq_true_eq] at hcomp
  obtain ⟨hfault, hkind, houtcome, -⟩ := hcomp
  have hold : old = .rejected := by
    simp only [faulted, decide_eq_true_eq] at hfault
    exact hfault.1
  rw [hkind, houtcome, hfault, hold] at h
  exact (Option.some.inj h).symm

theorem applyRecord_eq_ok {p : M3Config} {slot : ℕ} {job : Job} {v : IndexedVerdict}
    {clock : FuelClock} (hd : applyRecord c p d h slot job v clock = .ok d') :
    ∃ m l P new, d.m3 = some m ∧ d.candidates[job.key]? = some (.live l) ∧
      d.problems[job.key.1]? = some P ∧
      nextStatus v.record.kind l.status v.record.outcome (faulted m job.key l.status)
        (compensates m job.key l.status v.record P) = some new ∧
      Applies c p h slot job v clock d m l P new d' := by
  simp only [applyRecord, bind_eq_ok, m3State_eq_ok, okOr_eq_ok, expect_eq_ok] at hd
  obtain ⟨m, hm, candidate, hcand, P, hP, new, hnew, moved, hmoved, hd⟩ := hd
  obtain ⟨l, hl, rfl⟩ := setStatus_eq_ok hmoved
  obtain rfl := Option.mem_unique hcand hl
  change nextStatus v.record.kind l.status v.record.outcome (faulted m job.key l.status)
    (compensates m job.key l.status v.record P) = some new at hnew
  refine ⟨m, l, P, new, hm, hl, hP, hnew, ?_⟩
  set told : List Event := .verdict v :: if l.status = new then [] else [.status job.key new]
    with htold
  have hledger : told.filter Event.ledger = [.verdict v] := by
    rw [htold]
    split <;> rfl
  have hevents : (d.emit (.verdict v)).events ++
      (if l.status = new then [] else [.status job.key new]) = d.events ++ told := by simp [emit, told]
  rw [hevents] at hd
  split at hd
  · rename_i hcomp
    obtain rfl := nextStatus_compensated hcomp hnew
    simp only [compensate, solverOf, bind_eq_ok, okOr_eq_ok, pure_eq_ok, reduceCtorEq, if_false,
      false_and, and_false, getElem?_insert, Candidate.live?,
      Option.map_eq_some_iff] at hd
    obtain ⟨paid, ⟨_, ⟨o, hopen, rfl⟩, hgrant⟩, _, rfl, _, rfl, hd⟩ := hd
    obtain ⟨m₁, evs, m', hm₁, hm', rfl⟩ := grantTo_eq_ok hgrant
    obtain rfl : m = m₁ := Option.mem_unique hm hm₁
    obtain rfl := recordResult_eq_ok hd rfl
    rw [List.append_assoc]
    exact .compensated hcomp rfl hopen hm' (by
      cases hm' <;> simp [hledger, Event.ledger])
  · rename_i hcomp
    have hcomp : compensates m job.key l.status v.record P = false := Bool.eq_false_iff.mpr hcomp
    split at hd
    · rename_i hstale
      subst hstale
      simp only [bind_eq_ok, pure_eq_ok, reduceCtorEq, false_and, and_false, if_false] at hd
      obtain ⟨_, rfl, unsettled, hunsettled, _, rfl, hd⟩ := hd
      obtain ⟨evs, hevs, rfl⟩ := unsettle_eq_ok hunsettled hm
      obtain rfl := recordResult_eq_ok hd rfl
      have hold := (nextStatus_eq_stale hnew).2.1
      rw [enqueueRepose_candidates, List.append_assoc]
      refine .stale hold rfl ?_ ?_
      · rw [List.filter_append, hledger, hevs, List.singleton_append]
      · simp [told, hold]
    · rename_i hstale
      simp only [bind_eq_ok, pure_eq_ok] at hd
      split_ifs at hd with hvoid
      · obtain ⟨_, rfl, _, rfl, hd⟩ := hd
        obtain ⟨voided, hstep, hd⟩ := bind_eq_ok.mp hd
        have hstep := voidProblem_eq_ok hstep
        obtain rfl := recordResult_eq_ok hd (hstep.m3.trans hm)
        exact .voided hvoid hledger hstep
      · obtain ⟨_, rfl, _, rfl, hd⟩ := hd
        obtain rfl := recordResult_eq_ok hd hm
        exact .plain hcomp hstale hvoid hledger

/-! ## Completion and settlement -/

/-- A candidate whose parts are all there is queued for a verdict, unless its problem is over. -/
inductive Completes (key : Key) (h : ℕ) (d : Draft) (l : LiveCandidate) : Draft → Prop
  | void {P : Problem} (hP : d.problems[key.1]? = some P) (hvoided : P.voided = true)
      {evs : List Event} (hevs : evs.filter Event.ledger = []) :
      Completes key h d l { d with
        candidates := d.candidates.insert key (.live { l with status := .void })
        events := d.events ++ evs }
  | superseded {P : Problem} (hP : d.problems[key.1]? = some P) (hwinner : P.winner.isSome)
      {evs : List Event} (hevs : evs.filter Event.ledger = []) :
      Completes key h d l { d with
        candidates := d.candidates.insert key (.live { l with status := .superseded })
        events := d.events ++ evs }
  | queued {P : Problem} (hP : d.problems[key.1]? = some P) (hvoided : P.voided = false)
      (hwinner : P.winner = none) {m : M3State} (hm : d.m3 = some m) {o : OpenRecord}
      (hopen : l.open? = some o) :
      Completes key h d l { d with
        candidates := d.candidates.insert key
          (.live { l with open? := some { o with queueIndex := some m.queue.length } })
        m3 := some { m with queue := m.queue ++ [⟨m.queue.length, key, .verdict, h, none⟩] } }

theorem complete_eq_ok {l : LiveCandidate} (hd : d.complete key h = .ok d')
    (hl : d.candidates[key]? = some (.live l)) : Completes key h d l d' := by
  have hmove {v : Status} (hd : d.setStatus key v = .ok d') : ∃ evs,
      evs.filter Event.ledger = [] ∧ d' = { d with
        candidates := d.candidates.insert key (.live { l with status := v })
        events := d.events ++ evs } := by
    obtain ⟨l', hl', rfl⟩ := setStatus_eq_ok hd
    obtain rfl : l = l' := by simpa [hl] using hl'
    exact ⟨_, by split <;> rfl, rfl⟩
  simp only [complete, bind_eq_ok, expect_eq_ok] at hd
  obtain ⟨P, hP, hd⟩ := hd
  split at hd
  · rename_i hvoided
    obtain ⟨evs, hevs, rfl⟩ := hmove hd
    exact .void hP hvoided hevs
  · rename_i hvoided
    split_ifs at hd with hwinner
    · obtain ⟨evs, hevs, rfl⟩ := hmove hd
      exact .superseded hP hwinner hevs
    · simp only [queueCandidate, hl, bind_eq_ok, m3State_eq_ok, okOr_eq_ok, pure_eq_ok] at hd
      obtain ⟨m, hm, _, -, _, ⟨o, hopen, rfl⟩, rfl⟩ := hd
      exact .queued hP (by simpa using hvoided) (by simpa using hwinner) hm hopen

/-- **What winning does:** the candidate is accepted, the others that were judged or wait for a
verdict are superseded, the problem has its winner and is closed, and a reward is locked. -/
inductive Accepts (c : Config) (key : Key) (h : ℕ) (d : Draft) : Draft → Prop
  | mk {p : M3Config} (hp : c.m3 = some p) {l : LiveCandidate}
      (hl : d.candidates[key]? = some (.live l)) {o : OpenRecord} (hopen : l.open? = some o)
      {P : Problem} (hP : d.problems[key.1]? = some P) {m : M3State} (hm : d.m3 = some m)
      {cands : ExtTreeMap Key Candidate lexOrd.compare}
      (hcands : Restated (fun k => k.1 = key.1 ∧ k ≠ key ∧
          (d.statusOf k = some .checking ∨ d.statusOf k = some .passed)) .superseded
        (d.candidates.insert key (.live { l with status := .accepted })) cands) {s : State}
      (hwindow : WindowStep c key.1 h { d.toState with
        candidates := cands
        problems := d.problems.insert key.1 { P with winner := some key.2 } } s)
      {paid : List Event} {m' : M3State} (hgrant : Granted p P.slot key o.solver h false m paid m')
      {evs : List Event} (hevs : evs.filter Event.ledger = paid) :
      Accepts c key h d { s with m3 := some m', events := d.events ++ evs }

/-- Closing a window keeps everything but the problem's closing height, its round and its slot. -/
theorem WindowStep.frame {s' : State} (hw : WindowStep c p h s s') : s' = { s with
      problems := s'.problems
      rounds := s'.rounds
      slots := s'.slots } := by
  cases hw <;> rfl

theorem WindowStep.problem {s' : State} (hw : WindowStep c p h s s') (id : Hash) :
    s'.problems[id]? = s.problems[id]? ∨
      id = p ∧ ∃ P, s.problems[id]? = some P ∧ P.closed = none ∧
        s'.problems[id]? = some { P with closed := some h } := by
  cases hw with
  | same => exact .inl rfl
  | lone hP hclosed | idle hP hclosed | active hP hclosed =>
    simp only [getElem?_insert]
    split_ifs with heq
    · subst heq
      exact .inr ⟨rfl, _, hP, hclosed, rfl⟩
    · exact .inl rfl

theorem accept_eq_ok (hd : accept c d key h = .ok d') :
    Accepts c key h d d' := by
  simp only [accept, grant, bind_eq_ok, expect_eq_ok, okOr_eq_ok] at hd
  obtain ⟨d₁, h₁, d₂, h₂, P, hP, d₃, h₃, p, hp, P₃, hP₃, solver, hsolver, hd⟩ := hd
  obtain ⟨l, hl, rfl⟩ := setStatus_eq_ok h₁
  obtain ⟨cands, evs, hcands, hevs, rfl⟩ := setStatus_foldlM h₂
  obtain ⟨evs', hevs', hround⟩ := roundEvent_eq key.1 0xc5
  rw [hround] at h₃
  obtain ⟨s, hwindow, rfl⟩ := closeWindow_eq_ok h₃
  obtain ⟨m, paid, m', hm, hgrant, rfl⟩ := grantTo_eq_ok hd
  have hkeys (k : Key) : (k ∈ (withStatus { d.toState with
        candidates := d.candidates.insert key (.live { l with status := .accepted }) } key.1
        [.checking, .passed]).filter (· ≠ key)) ↔ k.1 = key.1 ∧ k ≠ key ∧
          (d.statusOf k = some .checking ∨ d.statusOf k = some .passed) := by
    rw [List.mem_filter, mem_withStatus]
    by_cases hk : k = key
    · simp [hk]
    · simp [hk, State.statusOf, getElem?_insert, Ne.symm hk]
  simp only [hkeys] at hcands
  have hslot : P₃.slot = P.slot := by
    rcases hwindow.problem key.1 with heq | ⟨-, P', hP', -, heq⟩
    · rw [heq, getElem?_insert, if_pos rfl] at hP₃
      rw [← Option.some.inj hP₃]
    · rw [getElem?_insert, if_pos rfl] at hP'
      rw [heq] at hP₃
      rw [← Option.some.inj hP₃, ← Option.some.inj hP']
  have hframe := hwindow.frame
  have hwon : s.candidates[key]? = some (.live { l with status := .accepted }) := by
    rw [hframe]
    dsimp only
    rw [hcands.kept key (by simp), getElem?_insert, if_pos rfl]
  simp only [solverOf, hwon, Option.bind_some, Candidate.live?, Option.map_eq_some_iff] at hsolver
  obtain ⟨o, hopen, rfl⟩ := hsolver
  have hm : d.m3 = some m := by
    rw [hframe] at hm
    exact hm
  rw [hslot] at hgrant
  simp only [List.append_assoc]
  refine .mk hp hl hopen hP hm hcands hwindow hgrant ?_
  rw [List.filter_append, List.filter_append, List.filter_append, hevs',
    filter_ledger_status hevs]
  have hpaid : paid.filter Event.ledger = paid := by cases hgrant <;> rfl
  rw [hpaid]
  split <;> rfl

/-- Why a candidate may win: its problem is open, it is first of those that may still win, it has
passed, and no recheck of it is announced. -/
structure Wins (d : Draft) (key : Key) (P : Problem) (r : Runner) (m : M3State) : Prop where
  problem : d.problems[key.1]? = some P
  winner : P.winner = none
  voided : P.voided = false
  runner : first (runners d.toState key.1) = some r
  hash : r.ch = key.2
  passed : r.status = .passed
  m3 : d.m3 = some m
  settled : key ∉ m.pendingRechecks

theorem settleProblem_eq_ok (hd : settleProblem c h d p = .ok d') :
    d' = d ∨ ∃ ch P r m, Wins d (p, ch) P r m ∧ Accepts c (p, ch) h d d' := by
  simp only [settleProblem, bind_eq_ok, expect_eq_ok] at hd
  obtain ⟨P, hP, hd⟩ := hd
  split_ifs at hd with hopen
  · exact .inl (Except.ok.inj hd).symm
  · obtain ⟨hwinner, hvoided⟩ := not_or.mp hopen
    split at hd
    · exact .inl (Except.ok.inj hd).symm
    · rename_i r hr
      split_ifs at hd with hpassed
      · simp only [bind_eq_ok, m3State_eq_ok] at hd
        obtain ⟨m, hm, hd⟩ := hd
        split_ifs at hd with hpending
        · exact .inl (Except.ok.inj hd).symm
        · exact .inr ⟨r.ch, P, r, m, ⟨hP, by simpa using hwinner, by simpa using hvoided, hr, rfl,
            hpassed, hm, hpending⟩, accept_eq_ok hd⟩
      · exact .inl (Except.ok.inj hd).symm

/-! ## Vesting -/

/-- The rewards that vest at a height. -/
def vesting (p : M3Config) (m : M3State) (h : ℕ) : List ℕ :=
  ((vestable m h).take p.qReward).map (·.2)

/-- `r` is the reward with a number, vested. -/
def Matured (m : M3State) (id : ℕ) (r : Reward) : Prop :=
  ∃ r₀, m.rewards[id]? = some r₀ ∧ r = { r₀ with status := .vested }

/-- **What vesting does:** the listed rewards are vested and, when there is a mint, paid. -/
structure Vests (p : M3Config) (ids : List ℕ) (rs : List Reward) (m m' : M3State)
    (payments : List RewardPayment) : Prop where
  frame : m' = { m with rewards := m'.rewards }
  matured : List.Forall₂ (Matured m) ids rs
  rewards : ∀ id, m'.rewards[id]? =
    if id ∈ ids then m.rewards[id]?.map ({ · with status := .vested }) else m.rewards[id]?
  payments : payments = if p.mintEnabled then
    List.zipWith (fun id r => ⟨id, r.solver, r.amount⟩) ids rs else []

theorem vestReward_foldlM {p : M3Config} {ids : List ℕ} {paid paid' : List RewardPayment}
    (hd : ids.foldlM (vestReward p) (d, paid) = .ok (d', paid')) (hm : d.m3 = some m) :
    ∃ m' rs payments,
      Vests p ids rs m m' payments ∧ paid' = paid ++ payments ∧
      d' = { d with m3 := some m', events := d.events ++ rs.map (.reward · 2) } := by
  induction ids generalizing d m paid with
  | nil =>
    obtain ⟨rfl, rfl⟩ := Prod.mk.inj (Except.ok.inj hd)
    exact ⟨m, [], [], ⟨rfl, .nil, by simp, by simp⟩, by simp, by simp [← hm]⟩
  | cons id ids ih =>
    rw [List.foldlM_cons, bind_eq_ok] at hd
    obtain ⟨⟨d₁, paid₁⟩, h₁, hd⟩ := hd
    simp only [vestReward, bind_eq_ok, m3State_eq_ok, expect_eq_ok] at h₁
    obtain ⟨_, hm', r, hr, rfl, rfl⟩ := h₁
    obtain rfl := Option.mem_unique hm hm'
    obtain ⟨m', rs, payments, hv, rfl, rfl⟩ := ih hd rfl
    refine ⟨m', { r with status := .vested } :: rs, if p.mintEnabled then
      ⟨id, r.solver, r.amount⟩ :: payments else payments, ⟨?_, ?_, ?_, ?_⟩, ?_, ?_⟩
    · rw [hv.frame]
    · refine .cons ⟨r, hr, rfl⟩ (hv.matured.imp fun a x hx => ?_)
      obtain ⟨r₀, hr₀, rfl⟩ := hx
      rw [getElem?_insert] at hr₀
      split_ifs at hr₀ with heq
      · subst heq
        cases hr₀
        exact ⟨r, hr, rfl⟩
      · exact ⟨r₀, hr₀, rfl⟩
    · intro a
      rw [hv.rewards a, getElem?_insert]
      by_cases heq : id = a
      · subst heq
        simp [hr]
      · simp [heq, Ne.symm heq]
    · rw [hv.payments]
      split <;> rfl
    · split <;> simp
    · simp [emit, setM3]

theorem vest_eq_ok {payments : List RewardPayment} (hd : vest c d h = .ok (d', payments)) :
    ∃ p m m' rs, c.m3 = some p ∧ d.m3 = some m ∧
      Vests p (vesting p m h) rs m m' payments ∧
      d' = { d with m3 := some m', events := d.events ++ rs.map (.reward · 2) } := by
  simp only [vest, bind_eq_ok, okOr_eq_ok, m3State_eq_ok] at hd
  obtain ⟨p, hp, m, hm, hd⟩ := hd
  obtain ⟨m', rs, paid, hv, hpaid, hd'⟩ := vestReward_foldlM hd hm
  exact ⟨p, m, m', rs, hp, hm, hpaid ▸ hv, hd'⟩

/-! ## Activation -/

/-- The rechecks that a kernel fix queues. -/
def recheckJobs (h epoch start : ℕ) (keys : List Key) : List Job :=
  (keys.zipIdx start).map fun x => ⟨x.2, x.1, .recheck, h, some epoch⟩

theorem pushRecheck_foldlM {keys : List Key} (hm : keys.foldlM (pushRecheck h epoch) m = .ok m') :
    m' = { m with
      queue := m.queue ++ recheckJobs h epoch m.queue.length keys
      pendingRechecks := m'.pendingRechecks } ∧
    ∀ k, k ∈ m'.pendingRechecks ↔ k ∈ keys ∨ k ∈ m.pendingRechecks := by
  induction keys generalizing m with
  | nil =>
    obtain rfl := Except.ok.inj hm
    simp [recheckJobs]
  | cons key keys ih =>
    rw [List.foldlM_cons, bind_eq_ok] at hm
    obtain ⟨m₁, h₁, hm⟩ := hm
    simp only [pushRecheck, bind_eq_ok, pure_eq_ok] at h₁
    obtain ⟨_, -, rfl⟩ := h₁
    obtain ⟨hframe, hpending⟩ := ih hm
    refine ⟨?_, fun k => ?_⟩
    · rw [hframe]
      simp [recheckJobs]
    · rw [hpending, ExtTreeSet.mem_insert, LawfulEqCmp.compare_eq_iff_eq, List.mem_cons]
      tauto

/-- One item of a quarantine list: the verdict it is about is judged by another gate, and may be
voided. -/
structure Quarantines (s : State) (epoch : ℕ) (item : ForkItem) (m m' : M3State) (i : ℕ)
    (job : Job) : Prop where
  waiting : m.nextApplied ≤ i
  queued : m.queue[i]? = some job
  verdict : job.kind = .verdict
  hash : job.key.2 = item.commitHash
  checking : s.statusOf job.key = some .checking
  result : m' = { m with
    queue := m.queue.set i { job with epochOverride := some epoch }
    quarantineVoids := if item.disposition = .void then m.quarantineVoids.insert job.key
      else m.quarantineVoids.erase job.key }

theorem quarantineItem_eq_ok {item : ForkItem} (hm : quarantineItem s epoch m item = .ok m') :
    ∃ i job, Quarantines s epoch item m m' i job := by
  unfold quarantineItem at hm
  generalize hfound : (m.queue.zipIdx.drop m.nextApplied).filter
    (fun j => quarantined s item j.1) = found at hm
  split at hm
  · exact nomatch hm
  · rename_i job i
    obtain rfl := Except.ok.inj hm
    have hmem : (job, i) ∈ (m.queue.zipIdx.drop m.nextApplied).filter
        fun j => quarantined s item j.1 := by rw [hfound]; exact List.mem_cons_self
    obtain ⟨hdrop, hq⟩ := List.mem_filter.mp hmem
    simp only [quarantined, decide_eq_true_eq] at hq
    obtain ⟨j, hj⟩ := List.mem_iff_getElem?.mp hdrop
    rw [List.getElem?_drop, List.getElem?_zipIdx, Option.map_eq_some_iff] at hj
    obtain ⟨job', hjob, heq⟩ := hj
    obtain ⟨rfl, hi⟩ := Prod.mk.inj heq
    obtain rfl : m.nextApplied + j = i := by omega
    exact ⟨_, job', Nat.le_add_right _ _, hjob, hq.1, hq.2.1, hq.2.2, rfl⟩
  · exact nomatch hm

/-- The list of a quarantine row, item by item. -/
inductive QuarantineRun (s : State) (epoch : ℕ) : M3State → List ForkItem → M3State → Prop
  | nil (m : M3State) : QuarantineRun s epoch m [] m
  | cons {m m₁ m' : M3State} {item : ForkItem} {items : List ForkItem} {i : ℕ} {job : Job}
      (hq : Quarantines s epoch item m m₁ i job) (h : QuarantineRun s epoch m₁ items m') :
      QuarantineRun s epoch m (item :: items) m'

theorem quarantineItem_foldlM {items : List ForkItem}
    (hm : items.foldlM (quarantineItem s epoch) m = .ok m') : QuarantineRun s epoch m items m' := by
  induction items generalizing m with
  | nil =>
    obtain rfl := Except.ok.inj hm
    exact .nil m
  | cons item items ih =>
    rw [List.foldlM_cons, bind_eq_ok] at hm
    obtain ⟨m₁, h₁, hm⟩ := hm
    obtain ⟨i, job, hq⟩ := quarantineItem_eq_ok h₁
    exact .cons hq (ih hm)

theorem QuarantineRun.frame {items : List ForkItem} (h : QuarantineRun s epoch m items m') :
    m' = { m with queue := m'.queue, quarantineVoids := m'.quarantineVoids } := by
  induction h with
  | nil => rfl
  | cons hq _ ih => rw [ih, hq.result]

/-- **What a fork row does at its height.** -/
inductive Activates (cr : Crypto) (h : ℕ) (forks : ForkTable) (d : Draft) (m : M3State) :
    Draft → Prop
  | none (hrow : (forks.rows.drop 1).find? (·.height = h) = none) :
      Activates cr h forks d m (d.setM3 m)
  | kernelFix {row : ForkRow} (hrow : (forks.rows.drop 1).find? (·.height = h) = some row)
      (hkind : row.kind = .kernelFix) {keys : List Key}
      (hkeys : forks.recheckSet d.toState h = .ok keys)
      {pending : ExtTreeSet Key lexOrd.compare}
      (hpending : ∀ k, k ∈ pending ↔ k ∈ keys ∨ k ∈ m.pendingRechecks) {record : Bytes}
      (hrecord : row.activationRecord cr = .ok record) :
      Activates cr h forks d m ((d.setM3 { m with
        queue := m.queue ++ recheckJobs h row.epoch m.queue.length keys
        pendingRechecks := pending
        forkHistory := m.forkHistory ++ [row] }).emit (.fork record))
  | quarantine {row : ForkRow} (hrow : (forks.rows.drop 1).find? (·.height = h) = some row)
      (hkind : row.kind = .quarantine) {m' : M3State}
      (hrun : QuarantineRun d.toState row.epoch m row.list m') {record : Bytes}
      (hrecord : row.activationRecord cr = .ok record) :
      Activates cr h forks d m
        ((d.setM3 { m' with forkHistory := m'.forkHistory ++ [row] }).emit (.fork record))
  | policy {row : ForkRow} (hrow : (forks.rows.drop 1).find? (·.height = h) = some row)
      (hkind : row.kind = .policy) {record : Bytes}
      (hrecord : row.activationRecord cr = .ok record) :
      Activates cr h forks d m
        ((d.setM3 { m with forkHistory := m.forkHistory ++ [row] }).emit (.fork record))

/-- The M3 state with its history started. -/
def started (forks : ForkTable) (m : M3State) : M3State :=
  if m.forkHistory = [] then { m with forkHistory := forks.rows.head?.toList } else m

theorem activate_eq_ok {cr : Crypto} {forks : ForkTable} (hd : d.activate cr h forks = .ok d') :
    ∃ m, d.m3 = some m ∧ Activates cr h forks d (started forks m) d' := by
  simp only [activate, bind_eq_ok, mapErr_eq_ok, m3State_eq_ok] at hd
  obtain ⟨keys, hkeys, m, hm, m₁, hm₁, hd⟩ := hd
  have hstart : started forks m = m₁ := by
    unfold startHistory at hm₁
    unfold started
    split at hm₁
    · simp only [bind_eq_ok, expect_eq_ok, pure_eq_ok] at hm₁
      obtain ⟨first, hfirst, rfl⟩ := hm₁
      rename_i hnil
      rw [if_pos hnil, hfirst]
      rfl
    · rename_i hnil
      rw [if_neg hnil]
      exact Except.ok.inj hm₁
  refine ⟨m, hm, ?_⟩
  rw [hstart]
  split at hd
  · rename_i hrow
    obtain rfl := Except.ok.inj hd
    exact .none hrow
  · rename_i row hrow
    simp only [bind_eq_ok, mapErr_eq_ok, pure_eq_ok] at hd
    obtain ⟨record, hrecord, m₂, hm₂, rfl⟩ := hd
    unfold activateRow at hm₂
    split at hm₂
    · rename_i hkind
      obtain ⟨hframe, hpending⟩ := pushRecheck_foldlM hm₂
      rw [hframe]
      exact .kernelFix hrow hkind hkeys hpending hrecord
    · rename_i hkind
      exact .quarantine hrow hkind (quarantineItem_foldlM hm₂) hrecord
    · rename_i hkind
      obtain rfl := Except.ok.inj hm₂
      exact .policy hrow hkind hrecord
    · cases hm₂

end Draft

end Derivation
