import Boole.Derivation.Invariants

/-!
# Derivation/Statuses — the statuses a candidate goes through

Outside verdicts and settlement a status only **drifts** (`Drift`): a candidate is committed, opened,
completed or dropped, and what has been judged stays as it is.  A move from the rounds to the vesting
is either quiet (`Quiet`) or makes a candidate the winner of its problem (`BlockStep.quiet_or_accept`).
-/

open Std Library Relation

namespace Derivation

open State

variable {x : Candidate} {v : Status} {s s' : State} {m : M3State} {k key : Key} {d d' : Draft}
  {h : ℕ} {evs : List Event} {q : Hash} {cr : Crypto} {a b r : Runner} {c : Config}

/-! ## Drift -/

/-- A tombstone is left of a candidate that expired or was cancelled. -/
def Tombs (s : State) : Prop :=
  ∀ (k : Key) (v : Status), s.candidates[k]? = some (.tombstone v) → v = .expired ∨ v = .cancelled

/-- Committed or opened: not yet complete. -/
def Status.young (v : Status) : Prop := v = .committed ∨ v = .opened

/-- **What can happen to a status without a verdict.** -/
inductive Drift : Option Status → Option Status → Prop
  | same (v : Option Status) : Drift v v
  | commit : Drift none (some .committed)
  | opened : Drift (some .committed) (some .opened)
  | complete {v w : Status} (hv : v.young) (hw : w = .checking ∨ w = .void ∨ w = .superseded) :
      Drift (some v) (some w)
  | drop {v w : Status} (hv : v.young) (hw : w = .expired ∨ w = .cancelled) :
      Drift (some v) (some w)
  | forget {v : Status} (hv : v = .expired ∨ v = .cancelled) : Drift (some v) none

/-- A status that only a verdict or a settlement gives or takes. -/
def Status.judged (v : Status) : Prop :=
  v = .passed ∨ v = .accepted ∨ v = .rejected ∨ v = .stale

theorem Drift.judged {x y : Option Status} (h : Drift x y) (hv : v.judged) :
    y = some v ↔ x = some v := by
  cases h with
  | same => exact Iff.rfl
  | commit | opened => rcases hv with rfl | rfl | rfl | rfl <;> simp
  | complete hx hy =>
    rcases hv with rfl | rfl | rfl | rfl <;> rcases hx with rfl | rfl <;>
      rcases hy with rfl | rfl | rfl <;> simp
  | drop hx hy =>
    rcases hv with rfl | rfl | rfl | rfl <;> rcases hx with rfl | rfl <;>
      rcases hy with rfl | rfl <;> simp
  | forget hx =>
    rcases hv with rfl | rfl | rfl | rfl <;> rcases hx with rfl | rfl <;> simp

/-- A candidate that waits for a verdict, or no longer needs one, keeps its status. -/
theorem Drift.waiting {x y : Option Status} (h : Drift x y)
    (hv : v = .checking ∨ v = .superseded ∨ v = .void) (hx : x = some v) : y = some v := by
  cases h with
  | same => exact hx
  | commit | opened => rcases hv with rfl | rfl | rfl <;> simp at hx
  | complete hy _ | drop hy _ =>
    rcases hv with rfl | rfl | rfl <;> rcases hy with rfl | rfl <;> simp at hx
  | forget hy => rcases hv with rfl | rfl | rfl <;> rcases hy with rfl | rfl <;> simp at hx

namespace State

theorem statusOf_insert {m : ExtTreeMap Key Candidate lexOrd.compare}
    (hm : s.candidates = m.insert k x) (a : Key) :
    s.statusOf a = if k = a then some x.status else m[a]?.map Candidate.status := by
  rw [statusOf, hm, getElem?_insert]
  split <;> rfl

theorem statusOf_moved (l : LiveCandidate)
    (hs : s'.candidates = s.candidates.insert k (.live { l with status := v })) (a : Key) :
    s'.statusOf a = if k = a then some v else s.statusOf a :=
  statusOf_insert hs a

theorem statusOf_of_eq (h : s'.candidates = s.candidates) (k : Key) :
    s'.statusOf k = s.statusOf k := by
  rw [statusOf, h, statusOf]

theorem statusOf_of_getElem? (h : s.candidates[k]? = some x) :
    s.statusOf k = some x.status := by
  rw [statusOf, h]
  rfl

end State

theorem drift_insert (hs : s'.candidates = s.candidates.insert k x)
    (hx : Drift (s.statusOf k) (some x.status)) (a : Key) :
    Drift (s.statusOf a) (s'.statusOf a) := by
  rw [statusOf_insert hs a]
  split_ifs with heq
  · exact heq ▸ hx
  · exact .same _

theorem tombs_insert (ht : Tombs s) (hs : s'.candidates = s.candidates.insert k x)
    (hx : ∀ v, x = .tombstone v → v = .expired ∨ v = .cancelled) : Tombs s' := by
  intro a v hv
  rw [hs, getElem?_insert] at hv
  split at hv
  · exact hx v (Option.some.inj hv)
  · exact ht a v hv

theorem tombs_of_eq (ht : Tombs s) (hs : s'.candidates = s.candidates) : Tombs s' := by
  intro a v hv
  rw [hs] at hv
  exact ht a v hv

/-! ## Quiet moves -/

/-- A verdict job for a candidate that has just been completed, if any. -/
def Enqueues (h : ℕ) (d d' : Draft) (m : M3State) (jobs : List Job) : Prop :=
  jobs = [] ∨ ∃ key v, jobs = [⟨m.queue.length, key, .verdict, h, none⟩] ∧
    d.statusOf key = some v ∧ v.young ∧ d'.statusOf key = some .checking

/-- Events have been added, none of them an event of the M3 ledger. -/
def Silent (d d' : Draft) : Prop :=
  ∃ evs, d'.events = d.events ++ evs ∧ evs.filter Event.ledger = []

theorem silent_of_eq (h : d'.events = d.events) : Silent d d' :=
  ⟨[], by rw [h, List.append_nil], rfl⟩

/-- **A move without verdict or settlement:** statuses drift, and the M3 state changes only by a job
for a candidate that has been completed. -/
structure Quiet (h : ℕ) (d d' : Draft) : Prop where
  events : Silent d d'
  status : ∀ k, Drift (d.statusOf k) (d'.statusOf k)
  tombs : Tombs d'.toState
  m3 : ∀ m, d.m3 = some m → ∃ jobs, Enqueues h d d' m jobs ∧
    d'.m3 = some { m with queue := m.queue ++ jobs }

theorem quiet_of_status (hevs : Silent d d') (hm : d'.m3 = d.m3)
    (hstatus : ∀ k, Drift (d.statusOf k) (d'.statusOf k)) (ht : Tombs d'.toState) :
    Quiet h d d' :=
  ⟨hevs, hstatus, ht, fun m hd => ⟨[], .inl rfl, by rw [hm, hd, List.append_nil]⟩⟩

theorem quiet_of_candidates (hevs : Silent d d') (hm : d'.m3 = d.m3)
    (hcands : d'.candidates = d.candidates) (ht : Tombs d.toState) : Quiet h d d' :=
  quiet_of_status hevs hm (fun k => by rw [statusOf_of_eq hcands]; exact .same _)
    (tombs_of_eq ht hcands)

theorem quiet_insert (hevs : Silent d d') (hm : d'.m3 = d.m3)
    (hcands : d'.candidates = d.candidates.insert k x) (ht : Tombs d.toState)
    (hx : Drift (d.statusOf k) (some x.status))
    (hv : ∀ v, x = .tombstone v → v = .expired ∨ v = .cancelled) : Quiet h d d' :=
  quiet_of_status hevs hm (drift_insert hcands hx) (tombs_insert ht hcands hv)

namespace Draft

variable {cr : Crypto} {c : Config} {h : ℕ} {mix : Hash} {d d' : Draft}

theorem SlotStep.quiet {slot : ℕ} (hs : SlotStep cr c h mix slot d d') (ht : Tombs d.toState) :
    Quiet h d d' := by
  cases hs with
  | same | dropped | waits => exact quiet_of_candidates (silent_of_eq rfl) rfl rfl ht
  | ended | reposed | drawn => exact quiet_of_candidates ⟨[_], rfl, rfl⟩ rfl rfl ht

theorem expire_quiet (c : Config) (h : ℕ) (ht : Tombs d.toState) : Quiet h d (d.expire c h) := by
  obtain ⟨cands, evs, hgone, hkept, hevs, heq⟩ := expire_eq c h d
  rw [heq]
  refine quiet_of_status ⟨evs, rfl, filter_ledger_status hevs⟩ rfl (fun k => ?_) fun k v hv => ?_
  · by_cases hk : Overdue c h d.toState k
    · obtain ⟨l, hl, hyoung, -⟩ := id hk
      rw [statusOf_of_getElem? hl, statusOf_of_getElem? (hgone k hk)]
      exact .drop hyoung (.inl rfl)
    · rw [statusOf, statusOf, hkept k hk]
      exact .same _
  · by_cases hk : Overdue c h d.toState k
    · rw [hgone k hk] at hv
      cases hv
      exact .inl rfl
    · rw [hkept k hk] at hv
      exact ht k v hv

theorem purge_quiet (c : Config) (h : ℕ) (ht : Tombs d.toState) : Quiet h d (d.purge c h) := by
  obtain ⟨G, hf, -⟩ := purge_forgets c h d
  have hm : (d.purge c h).m3 = d.m3 := by rw [hf.frame]
  refine quiet_of_status hf.events hm (fun k => ?_) fun k v hv => ?_
  · by_cases hk : G k
    · obtain ⟨hnone, v, hv⟩ := hf.gone k hk
      rw [statusOf_of_getElem? hv, statusOf, hnone]
      exact .forget (ht k v hv)
    · rw [statusOf, statusOf, hf.kept k hk]
      exact .same _
  · by_cases hk : G k
    · rw [(hf.gone k hk).1] at hv
      cases hv
    · rw [hf.kept k hk] at hv
      exact ht k v hv

theorem ItemStep.quiet {x : Input} {accepted : ℕ} {code : UInt8}
    (hi : ItemStep cr c h d.toState x accepted s code) (ht : Tombs d.toState)
    (hevs : evs.filter Event.ledger = []) : Quiet h d { s with events := d.events ++ evs } := by
  cases hi with
  | refused | pool | problem => exact quiet_of_candidates ⟨evs, rfl, hevs⟩ rfl rfl ht
  | @commit b _ _ _ _ _ _ _ _ _ hnew =>
    refine quiet_insert ⟨evs, rfl, hevs⟩ rfl rfl ht ?_ fun _ h => by cases h
    have hnone : d.statusOf (b.p, b.ch) = none := by
      rw [statusOf, ExtTreeMap.getElem?_eq_none hnew]
      rfl
    rw [hnone]
    exact .commit
  | opened _ _ _ hl hstatus =>
    refine quiet_insert ⟨evs, rfl, hevs⟩ rfl rfl ht ?_ fun _ h => by cases h
    rw [statusOf_of_getElem? hl, Candidate.status, hstatus]
    exact .opened
  | part hpart =>
    refine quiet_insert ⟨evs, rfl, hevs⟩ rfl rfl ht ?_ fun _ h => by cases h
    rw [statusOf_of_getElem? hpart.candidate]
    exact .same _
  | last hpart =>
    refine quiet_insert ⟨evs, rfl, hevs⟩ rfl rfl ht ?_ fun _ h => by cases h
    rw [statusOf_of_getElem? hpart.candidate]
    exact .complete hpart.status (.inl rfl)
  | cancelled _ _ _ hv hstatus =>
    refine quiet_insert ⟨evs, rfl, hevs⟩ rfl rfl ht ?_ fun v hv => ?_
    · rw [hv]
      exact .drop hstatus (.inr rfl)
    · cases hv
      exact .inr rfl

theorem ItemDraft.quiet {x : Input} {accepted : ℕ} {code : UInt8}
    (hi : ItemDraft cr c h d x accepted d' code) (ht : Tombs d.toState) : Quiet h d d' := by
  cases hi with
  | plain hs _ hevs => exact hs.quiet ht hevs
  | @completed b key l o path data bitmap hpart _ l' hl' evs hevs _ hd' =>
    have hbefore : d.statusOf key = some l.status := statusOf_of_getElem? hpart.candidate
    have hstatus {w : Status} (hv : w = .checking ∨ w = .void ∨ w = .superseded) :
        Drift (d.statusOf key) (some w) := by
      rw [hbefore]
      exact .complete hpart.status hv
    have htold {evs' : List Event} (hevs' : evs'.filter Event.ledger = []) {s : State} :
        Silent d { s with events := d.events ++ evs ++ evs' } :=
      ⟨evs ++ evs', List.append_assoc _ _ _, by rw [List.filter_append, hevs, hevs']; rfl⟩
    cases hd' with
    | void _ _ hevs' =>
      exact quiet_insert (htold hevs') rfl (insert_insert_self _ _ _ _) ht
        (hstatus (.inr (.inl rfl))) nofun
    | superseded _ _ hevs' =>
      exact quiet_insert (htold hevs') rfl (insert_insert_self _ _ _ _) ht
        (hstatus (.inr (.inr rfl))) nofun
    | queued _ _ _ hm =>
      subst hl'
      have hcands := insert_insert_self d.candidates key
      refine ⟨⟨evs, rfl, hevs⟩, drift_insert (hcands _ _) (hstatus (.inl rfl)), tombs_insert ht (hcands _ _) nofun,
        fun m' hm' => ?_⟩
      obtain rfl := Option.mem_unique hm hm'
      refine ⟨_, .inr ⟨key, l.status, rfl, hbefore, hpart.status, ?_⟩, rfl⟩
      exact (statusOf_insert (hcands _ _) key).trans (if_pos rfl)

end Draft

/-! ## Verdicts and settlement -/

/-- The statuses after some candidates, all retained, have moved to one status. -/
theorem Restated.statusOf {Q : Key → Prop} (s s' : State)
    (h : Restated Q v s.candidates s'.candidates) (k : Key) :
    Q k ∧ s'.statusOf k = some v ∨ ¬Q k ∧ s'.statusOf k = s.statusOf k := by
  by_cases hk : Q k
  · obtain ⟨l, -, hl⟩ := h.moved k hk
    exact .inl ⟨hk, statusOf_of_getElem? hl⟩
  · exact .inr ⟨hk, by rw [State.statusOf, State.statusOf, h.kept k hk]⟩

theorem Restated.tombs {Q : Key → Prop} (s s' : State) (h : Restated Q v s.candidates s'.candidates)
    (ht : Tombs s) : Tombs s' := by
  intro k w hw
  by_cases hk : Q k
  · obtain ⟨l, -, hl⟩ := h.moved k hk
    rw [hl] at hw
    exact nomatch hw
  · rw [h.kept k hk] at hw
    exact ht k w hw

namespace Draft

variable {c : Config} {p : M3Config} {h slot : ℕ} {d d' : Draft}

theorem VoidStep.statusOf (hv : VoidStep c q h d d') (k : Key) :
    d'.statusOf k = d.statusOf k ∨
      d.statusOf k = some .checking ∧ d'.statusOf k = some .void := by
  cases hv with
  | again => exact .inl rfl
  | @void P hP hvoided s hwindow cands hcands evs hevs =>
    have hsame : s.statusOf k = d.statusOf k := statusOf_of_eq (by rw [hwindow.frame]) k
    rcases Restated.statusOf s { s with candidates := cands } hcands k with
      ⟨⟨-, hold⟩, hnew⟩ | ⟨-, hkept⟩
    · exact .inr ⟨hsame ▸ hold, hnew⟩
    · exact .inl (Eq.trans hkept hsame)

theorem VoidStep.tombs (hv : VoidStep c q h d d') (ht : Tombs d.toState) :
    Tombs d'.toState := by
  cases hv with
  | again => exact ht
  | @void P hP hvoided s hwindow cands hcands evs hevs =>
    exact Restated.tombs s { s with candidates := cands } hcands
      (tombs_of_eq ht (by rw [hwindow.frame]))

theorem VoidStep.events (hv : VoidStep c q h d d') : Silent d d' := by
  cases hv with
  | again => exact silent_of_eq rfl
  | void _ _ _ _ hevs => exact ⟨_, rfl, hevs⟩

section Applies

variable {job : Job} {v : IndexedVerdict} {clock : FuelClock} {m : M3State} {l : LiveCandidate}
  {P : Problem} {new : Status}

/-- A record moves its target; besides, candidates that wait for a verdict may be voided. -/
theorem Applies.statusOf (ha : Applies c p h slot job v clock d m l P new d') (k : Key) :
    d'.statusOf k = (if job.key = k then some new else d.statusOf k) ∨
      job.key ≠ k ∧ d.statusOf k = some .checking ∧ d'.statusOf k = some .void := by
  cases ha with
  | plain | compensated | stale => exact .inl (statusOf_moved l rfl k)
  | @voided hvoid evs hevs d₁ hstep =>
    have hd : statusOf { d.toState with
        candidates := d.candidates.insert job.key (.live { l with status := new }) } k =
          if job.key = k then some new else d.statusOf k := statusOf_moved l rfl k
    rcases hstep.statusOf k with hsame | ⟨hold, hnew⟩
    · exact .inl (hsame.trans hd)
    · have hold := hd.symm.trans hold
      split_ifs at hold with hne
      · rw [hvoid.2.1] at hold
        exact nomatch hold
      · exact .inr ⟨hne, hold, hnew⟩

theorem Applies.tombs (ha : Applies c p h slot job v clock d m l P new d') (ht : Tombs d.toState) :
    Tombs d'.toState := by
  cases ha with
  | plain | compensated | stale => exact tombs_insert ht rfl nofun
  | voided _ _ hstep => exact tombs_of_eq (hstep.tombs (tombs_insert ht rfl nofun)) rfl

/-- What a record does to the M3 state besides being recorded, and the events of that. -/
inductive Effect (p : M3Config) (h slot : ℕ) (key : Key) (l : LiveCandidate) (new : Status)
    (m : M3State) : List Event → M3State → Prop
  | none (hnew : new = .accepted → l.status = .accepted) (hstale : new ≠ .stale) :
      Effect p h slot key l new m [] m
  | paid (hold : l.status = .rejected) (hnew : new = .accepted) {o : OpenRecord}
      (hopen : l.open? = some o) {evs : List Event} {m' : M3State}
      (hgrant : Granted p slot key o.solver h true m evs m') : Effect p h slot key l new m evs m'
  | revoked (hold : l.status = .accepted) (hnew : new = .stale) :
      Effect p h slot key l new m (revocation m key) (revoked m key)

theorem compensates_status {record : VerdictRecord} (h : compensates m key l.status record P = true) :
    l.status = .rejected := by
  simp only [compensates, faulted, decide_eq_true_eq] at h
  exact h.1.1

theorem nextStatus_eq_accepted {kind : RecordKind} {old : Status} {outcome : Outcome} {f x : Bool}
    (h : nextStatus kind old outcome f x = some .accepted) : old = .accepted ∨ x = true := by
  cases kind <;> cases old <;> cases outcome <;> cases f <;> cases x <;> simp_all [nextStatus]

theorem Applies.m3 (ha : Applies c p h slot job v clock d m l P new d')
    (hnew : nextStatus v.record.kind l.status v.record.outcome (faulted m job.key l.status)
      (compensates m job.key l.status v.record P) = some new) :
    ∃ m' told evs, Effect p h slot job.key l new m told m' ∧
      d'.m3 = some (recorded m' job v.record clock) ∧ d'.events = d.events ++ evs ∧
      evs.filter Event.ledger = .verdict v :: told := by
  cases ha with
  | plain hcomp hstale _ hevs =>
    refine ⟨m, [], _, .none (fun hacc => ?_) hstale, rfl, rfl, hevs⟩
    subst hacc
    rcases nextStatus_eq_accepted hnew with hold | hx
    · exact hold
    · rw [hcomp] at hx
      exact nomatch hx
  | compensated hcomp hnew hopen hgrant hevs =>
    exact ⟨_, _, _, .paid (compensates_status hcomp) hnew hopen hgrant, rfl, rfl, hevs⟩
  | stale hold hnew hevs => exact ⟨_, _, _, .revoked hold hnew, rfl, rfl, hevs⟩
  | @voided hvoid evs hevs d₁ hstep =>
    obtain ⟨evs', hevs', hledger⟩ := hstep.events
    refine ⟨m, [], evs ++ evs', .none ?_ ?_, rfl, ?_, ?_⟩
    · rw [hvoid.2.1]
      nofun
    · rw [hvoid.2.1]
      nofun
    · exact hevs'.trans (List.append_assoc _ _ _)
    · rw [List.filter_append, hevs, hledger, List.append_nil]

theorem Granted.frame {solver : Address} {compensation : Bool} {m' : M3State}
    (hg : Granted p slot key solver h compensation m evs m') :
    m' = { m with rewards := m'.rewards, admissions := m'.admissions } := by
  cases hg <;> rfl

theorem Effect.frame {l : LiveCandidate} {new : Status} {m' : M3State}
    (he : Effect p h slot key l new m evs m') :
    m' = { m with rewards := m'.rewards, admissions := m'.admissions } := by
  cases he with
  | none => rfl
  | paid _ _ _ hg => exact hg.frame
  | revoked => rfl

end Applies

/-- The winner is accepted; candidates of its problem that wait or have passed are superseded. -/
theorem Accepts.statusOf (ha : Accepts c key h d d') (k : Key) :
    d'.statusOf k = (if key = k then some .accepted else d.statusOf k) ∨
      key ≠ k ∧ k.1 = key.1 ∧ (d.statusOf k = some .checking ∨ d.statusOf k = some .passed) ∧
        d'.statusOf k = some .superseded := by
  cases ha with
  | @mk p hp l hl o hopen P hP m hm cands hcands s hwindow paid m' hgrant evs hevs =>
    have hs : s.statusOf k = statusOf { d.toState with candidates := cands } k :=
      statusOf_of_eq (by rw [hwindow.frame]) k
    have hd : statusOf { d.toState with
        candidates := d.candidates.insert key (.live { l with status := .accepted }) } k =
          if key = k then some .accepted else d.statusOf k := statusOf_moved l rfl k
    rcases Restated.statusOf { d.toState with
        candidates := d.candidates.insert key (.live { l with status := .accepted }) }
        { d.toState with candidates := cands } hcands k with
      ⟨⟨hprob, hne, hold⟩, hnew⟩ | ⟨-, hkept⟩
    · exact .inr ⟨Ne.symm hne, hprob, hold, hs.trans hnew⟩
    · exact .inl (hs.trans (hkept.trans hd))

theorem Accepts.tombs (ha : Accepts c key h d d') (ht : Tombs d.toState) :
    Tombs d'.toState := by
  cases ha with
  | @mk p hp l hl o hopen P hP m hm cands hcands s hwindow paid m' hgrant evs hevs =>
    refine tombs_of_eq (s := { d.toState with candidates := cands }) ?_ (by rw [hwindow.frame])
    exact Restated.tombs { d.toState with
      candidates := d.candidates.insert key (.live { l with status := .accepted }) } _ hcands
      (tombs_insert ht rfl nofun)

/-- Winning changes the two tables of the M3 state only. -/
theorem Accepts.m3 (ha : Accepts c key h d d') (hm : d.m3 = some m) :
    ∃ m', d'.m3 = some m' ∧ m' = { m with rewards := m'.rewards, admissions := m'.admissions } := by
  cases ha with
  | mk _ _ _ _ hm' _ _ hgrant =>
    obtain rfl := Option.mem_unique hm hm'
    exact ⟨_, rfl, hgrant.frame⟩

end Draft

theorem ties_statusOf (cr : Crypto) (d : Draft) (h : ℕ) (mix : Hash) (k : Key) :
    (d.ties cr h mix).statusOf k = d.statusOf k := by
  rw [statusOf, statusOf, Draft.ties, ExtTreeMap.getElem?_map]
  cases d.candidates[k]? with
  | none => rfl
  | some x =>
    cases x with
    | tombstone v => rfl
    | live l =>
      simp only [Option.map_some, tie]
      split <;> rfl

theorem ties_tombs {mix : Hash} (ht : Tombs d.toState) :
    Tombs (d.ties cr h mix).toState := by
  intro k v hv
  rw [Draft.ties, ExtTreeMap.getElem?_map, Option.map_eq_some_iff] at hv
  obtain ⟨x, hx, hv⟩ := hv
  cases x with
  | tombstone w =>
    cases hv
    exact ht k v hx
  | live l =>
    simp only [tie] at hv
    split at hv <;> exact nomatch hv

/-! ## The race -/

namespace Draft

theorem before_iff : a.before b = true ↔ a.hC < b.hC ∨ a.hC = b.hC ∧
    (a.t.toNat < b.t.toNat ∨ a.t.toNat = b.t.toNat ∧ a.ch.toNat < b.ch.toNat) := by
  simp only [Runner.before, Bool.or_eq_true, Bool.and_eq_true, decide_eq_true_eq, BitVec.lt_def,
    BitVec.toNat_inj]

theorem not_before_iff : a.before b = false ↔ b.hC < a.hC ∨ b.hC = a.hC ∧
    (b.t.toNat < a.t.toNat ∨ b.t.toNat = a.t.toNat ∧ b.ch.toNat ≤ a.ch.toNat) := by
  rw [Bool.eq_false_iff, ne_eq, before_iff]
  omega

theorem not_before_trans (hab : a.before b = false) (hbr : b.before r = false) :
    a.before r = false := by
  rw [not_before_iff] at hab hbr ⊢
  omega

theorem not_before_of_before (h : a.before b = true) : b.before a = false := by
  rw [before_iff] at h
  rw [not_before_iff]
  omega

/-- **The first runner is one of them, and none comes before it.** -/
theorem first_eq_some {l : List Runner} (h : first l = some r) :
    r ∈ l ∧ ∀ x ∈ l, x.before r = false := by
  cases l with
  | nil => exact nomatch h
  | cons a l =>
    obtain rfl := Option.some.inj h
    clear h
    induction l generalizing a with
    | nil => exact ⟨List.mem_cons_self, by simp [not_before_iff]⟩
    | cons b l ih =>
      rw [List.foldl_cons]
      by_cases hba : b.before a = true
      · rw [if_pos hba]
        obtain ⟨hmem, hleast⟩ := ih b
        have hb := hleast b List.mem_cons_self
        exact ⟨List.mem_cons_of_mem _ hmem, List.forall_mem_cons.mpr
          ⟨not_before_trans (not_before_of_before hba) hb, hleast⟩⟩
      · rw [if_neg hba]
        obtain ⟨hmem, hleast⟩ := ih a
        obtain ⟨ha, hrest⟩ := List.forall_mem_cons.mp hleast
        refine ⟨?_, List.forall_mem_cons.mpr ⟨ha, List.forall_mem_cons.mpr
          ⟨not_before_trans (Bool.eq_false_iff.mpr hba) ha, hrest⟩⟩⟩
        rcases List.mem_cons.mp hmem with heq | hmem
        · rw [heq]
          exact List.mem_cons_self
        · exact List.mem_cons_of_mem _ (List.mem_cons_of_mem _ hmem)

/-- A candidate in the race is retained. -/
theorem mem_runners :
    r ∈ runners s q ↔ ∃ l : LiveCandidate, s.candidates[(q, r.ch)]? = some (.live l) ∧
      l.status ∈ [Status.committed, .opened, .checking, .passed] ∧
      r = ⟨l.hC, l.t.getD 0, r.ch, l.status⟩ := by
  simp only [runners, List.mem_filterMap, Option.bind_eq_bind, Option.bind_eq_some_iff,
    Option.ite_none_right_eq_some, Option.some.injEq]
  constructor
  · rintro ⟨⟨⟨q', ch⟩, x⟩, hmem, l, hl, ⟨rfl, hstatus⟩, rfl⟩
    obtain rfl := live?_eq_some hl
    exact ⟨l, mem_toList_iff.mp hmem, hstatus, rfl⟩
  · rintro ⟨l, hl, hstatus, heq⟩
    exact ⟨((q, r.ch), .live l), mem_toList_iff.mpr hl, l, rfl,
      ⟨rfl, hstatus⟩, heq.symm⟩

/-- The winner has passed. -/
theorem Wins.statusOf {P : Problem} (hw : Wins d key P r m) : d.statusOf key = some .passed := by
  obtain ⟨l, hl, -, hr⟩ := mem_runners.mp (first_eq_some hw.runner).1
  have hkey : (key.1, r.ch) = key := by rw [hw.hash]
  rw [hkey] at hl
  rw [statusOf_of_getElem? hl, ← hw.passed, hr]
  rfl

end Draft

/-- **A move from the rounds to the vesting is quiet, or a candidate wins its problem.** -/
theorem BlockStep.quiet_or_accept {mix : Hash} (hb : BlockStep cr c h mix d d')
    (ht : Tombs d.toState) : Quiet h d d' ∨
      ∃ key P r m, Draft.Wins d key P r m ∧ Draft.Accepts c key h d d' := by
  cases hb with
  | slot hs => exact .inl (hs.quiet ht)
  | expire => exact .inl (Draft.expire_quiet c h ht)
  | purge => exact .inl (Draft.purge_quiet c h ht)
  | item hi => exact .inl (hi.quiet ht)
  | accept hw ha => exact .inr ⟨_, _, _, _, hw, ha⟩

/-! ## Along a run -/

theorem Draft.Activates.candidates {forks : ForkTable} (ha : Draft.Activates cr h forks d m d') :
    d'.candidates = d.candidates := by
  cases ha <;> rfl

theorem Draft.vest_candidates {payments : List RewardPayment} (hv : d.vest c h = .ok (d', payments)) :
    d'.candidates = d.candidates := by
  obtain ⟨p, m, m', rs, -, -, -, rfl⟩ := Draft.vest_eq_ok hv
  rfl

/-- **In every state of a run only expired and cancelled candidates are tombstones.** -/
theorem tombs_kept (cr : Crypto) (c : Config) (P : State → StepInput → Prop) :
    Kept cr c P fun _ x => Tombs x.1.toState where
  activate _ hf _ ht := by
    obtain ⟨m, -, ha⟩ := Draft.activate_eq_ok hf.activate
    exact tombs_of_eq ht ha.candidates
  judge _ hj _ ht := by
    cases hj with
    | ties => exact ties_tombs ht
    | apply hj => exact hj.applies.tombs ht
    | advance => exact ht
  block hb _ ht := by
    rcases hb.quiet_or_accept ht with hq | ⟨_, _, _, _, -, ha⟩
    · exact hq.tombs
    · exact ha.tombs ht
  vest hv _ ht := tombs_of_eq ht (Draft.vest_candidates hv)
  close _ ht := ht

theorem new_tombs {gas : ℕ} (hs : new cr c gas = .ok s) : Tombs s := by
  rw [new_eq_ok hs]
  nofun

end Derivation
