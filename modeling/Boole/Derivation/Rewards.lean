import Boole.Library.Dense
import Boole.Derivation.Statuses

/-!
# Derivation/Rewards — the ledger of rewards and admissions

The two tables change in four ways only: a candidate that becomes accepted is granted a reward and
an admission, **an accepted candidate that turns stale loses both** (as far as the reward is still
locked), rewards vest at the end of a step, and everything else leaves the tables alone (`Posts`).
That a reward is granted once, that admissions are the accepted candidates and that rewards vest in
the order of their numbers is one invariant of these postings (`Tables`).
-/

open Std Library Relation

namespace Derivation

open Draft

variable {s : State} {d d' : Draft} {m m₁ : M3State} {r : Reward} {h' id : ℕ} {rs : List Reward}
  {payments : List RewardPayment}

/-! ## Postings -/

/-- The events of the two tables. -/
def Event.account : Event → Bool
  | .reward _ _ | .admission _ _ => true
  | _ => false

theorem filter_account_ledger (evs : List Event) :
    evs.filter Event.account = (evs.filter Event.ledger).filter Event.account := by
  rw [List.filter_filter]
  refine List.filter_congr fun e _ => ?_
  cases e <;> rfl

/-- A status that a reward goes with. -/
def Status.rewarded (v : Status) : Prop := v = .accepted ∨ v = .stale

/-- The candidates that have, or had, a reward are the same, one apart. -/
def SameBut (Q : Key → Prop) (s s' : State) : Prop :=
  ∀ k, ¬Q k → ∀ v, Status.rewarded v → (s'.statusOf k = some v ↔ s.statusOf k = some v)

/-- **What a move before the vesting does to the tables, and the events it adds for them.** -/
inductive Posts (p : M3Config) (h : ℕ) (s : State) (m : M3State) (s' : State) (m' : M3State) :
    List Event → Prop
  | none (hrewards : m'.rewards = m.rewards) (hadmissions : m'.admissions = m.admissions)
      (hsame : SameBut (fun _ => False) s s') : Posts p h s m s' m' []
  | grant {slot : ℕ} {key : Key} {solver : Address} {compensation : Bool} {paid : List Event}
      {m₁ : M3State} (hgrant : Draft.Granted p slot key solver h compensation m paid m₁)
      (hrewards : m'.rewards = m₁.rewards) (hadmissions : m'.admissions = m₁.admissions)
      (hold : ∀ v, Status.rewarded v → s.statusOf key ≠ some v)
      (hnew : s'.statusOf key = some .accepted) (hsame : SameBut (· = key) s s') :
      Posts p h s m s' m' paid
  | revoke {key : Key} (hold : s.statusOf key = some .accepted)
      (hnew : s'.statusOf key = some .stale) (hsame : SameBut (· = key) s s')
      (hrewards : m'.rewards = (Draft.revoked m key).rewards)
      (hadmissions : m'.admissions = (Draft.revoked m key).admissions) :
      Posts p h s m s' m' (Draft.revocation m key)

/-- Postings one after the other. -/
inductive PostsRun (p : M3Config) (h : ℕ) (s : State) (m : M3State) :
    List Event → State → M3State → Prop
  | refl : PostsRun p h s m [] s m
  | tail {s₁ s₂ : State} {m₁ m₂ : M3State} {evs evs' : List Event}
      (hrun : PostsRun p h s m evs s₁ m₁) (hpost : Posts p h s₁ m₁ s₂ m₂ evs') :
      PostsRun p h s m (evs ++ evs') s₂ m₂

theorem filter_account_revocation (m : M3State) (key : Key) :
    (revocation m key).filter Event.account = revocation m key := by
  rw [List.filter_eq_self]
  intro e he
  rcases List.mem_append.mp he with he | he
  all_goals
    obtain ⟨_, -, rfl⟩ := List.mem_map.mp he
    rfl

section Moves

variable {cr : Crypto} {c : Config} {p : M3Config} {cap h : ℕ} {mix : Hash} {forks : ForkTable}

/-- What one move adds to the events, and what it does to the tables. -/
structure Posted (p : M3Config) (h : ℕ) (d : Draft) (m : M3State) (d' : Draft) (m' : M3State)
    (evs : List Event) : Prop where
  m3 : d'.m3 = some m'
  tombs : Tombs d'.toState
  events : d'.events = d.events ++ evs
  posts : Posts p h d.toState m d'.toState m' (evs.filter Event.account)

theorem sameBut_of_statusOf {s' : State} {Q : Key → Prop}
    (h : ∀ k, ¬Q k → s'.statusOf k = s.statusOf k) : SameBut Q s s' :=
  fun k hk v _ => by rw [h k hk]

theorem Quiet.posted (hq : Quiet h d d') (hm : d.m3 = some m) :
    ∃ m' evs, Posted p h d m d' m' evs := by
  obtain ⟨evs, hevs, hledger⟩ := hq.events
  obtain ⟨jobs, -, hm'⟩ := hq.m3 m hm
  refine ⟨_, evs, hm', hq.tombs, hevs, ?_⟩
  rw [filter_account_ledger, hledger]
  refine .none rfl rfl fun k _ v hv => (hq.status k).judged ?_
  rcases hv with rfl | rfl
  · exact .inr (.inl rfl)
  · exact .inr (.inr (.inr rfl))

theorem Draft.Accepts.posted {key : Key} {P : Problem} {r : Runner}
    (ha : Accepts c key h d d') (hw : Wins d key P r m) (hp : c.m3 = some p)
    (ht : Tombs d.toState) : ∃ m' evs, Posted p h d m d' m' evs := by
  have hstatus := ha.statusOf
  have htombs := ha.tombs ht
  cases ha with
  | @mk p' hp' l hl o hopen P' hP' m₀ hm₀ cands hcands s hwindow paid m' hgrant evs hevs =>
    obtain rfl := Option.mem_unique hp hp'
    obtain rfl := Option.mem_unique hw.m3 hm₀
    refine ⟨m', evs, rfl, htombs, rfl, ?_⟩
    have hpaid : paid.filter Event.account = paid := by cases hgrant <;> rfl
    rw [filter_account_ledger, hevs, hpaid]
    refine .grant hgrant rfl rfl (fun v hv => ?_) ?_ fun k hk v hv => ?_
    · rw [hw.statusOf]
      rcases hv with rfl | rfl <;> simp
    · rcases hstatus key with heq | ⟨hne, -⟩
      · exact heq.trans (if_pos rfl)
      · exact absurd rfl hne
    · rcases hstatus k with heq | ⟨-, -, hold, hnew⟩
      · rw [heq, if_neg (Ne.symm hk)]
      · rw [hnew]
        rcases hv with rfl | rfl <;> rcases hold with hold | hold <;> simp [hold]

theorem BlockStep.posted (hp : c.m3 = some p) (hb : BlockStep cr c h mix d d')
    (hm : d.m3 = some m) (ht : Tombs d.toState) : ∃ m' evs, Posted p h d m d' m' evs := by
  rcases hb.quiet_or_accept ht with hq | ⟨key, P, r, m₁, hw, ha⟩
  · exact hq.posted hm
  · obtain rfl := Option.mem_unique hm hw.m3
    exact ha.posted hw hp ht

theorem nextStatus_rewarded {kind : RecordKind} {old new : Status} {outcome : Outcome} {f x : Bool}
    (hnext : nextStatus kind old outcome f x = some new)
    (hacc : new = .accepted → old = .accepted) (hstale : new ≠ .stale) {v : Status}
    (hv : v.rewarded) : new = v ↔ old = v := by
  rcases hv with rfl | rfl <;>
  cases kind <;> cases old <;> cases outcome <;> cases f <;> cases x <;>
    simp_all [nextStatus]

theorem Judged.posted {n : ℕ} {v : IndexedVerdict} {job : Job} {l : LiveCandidate} {P : Problem}
    {new : Status} {clock : FuelClock} (hj : Judged c p cap h forks d n v job m l P new clock d')
    (ht : Tombs d.toState) :
    ∃ m' evs, Posted p h d m d' m' evs := by
  obtain ⟨m', told, evs, heffect, hm', hevs, hledger⟩ := hj.applies.m3 hj.status
  have hold : d.statusOf job.key = some l.status := State.statusOf_of_getElem? hj.candidate
  have hnew : d'.statusOf job.key = some new := by
    rcases hj.applies.statusOf job.key with heq | ⟨hne, -⟩
    · exact heq.trans (if_pos rfl)
    · exact absurd rfl hne
  have hsame : SameBut (· = job.key) d.toState d'.toState := by
    intro k hk w hw
    rcases hj.applies.statusOf k with heq | ⟨-, hchecking, hvoid⟩
    · rw [heq, if_neg (Ne.symm hk)]
    · rw [hchecking, hvoid]
      rcases hw with rfl | rfl <;> simp
  have hall (hkey : ∀ w, Status.rewarded w → (new = w ↔ l.status = w)) :
      SameBut (fun _ => False) d.toState d'.toState := by
    intro k _ w hw
    by_cases hk : k = job.key
    · rw [hk, hold, hnew, Option.some.injEq, Option.some.injEq]
      exact hkey w hw
    · exact hsame k hk w hw
  refine ⟨_, evs, hm', hj.applies.tombs ht, hevs, ?_⟩
  rw [filter_account_ledger, hledger]
  cases heffect with
  | none hacc hstale =>
    exact .none rfl rfl (hall fun w hw => nextStatus_rewarded hj.status hacc hstale hw)
  | paid hrejected haccepted _ hgrant =>
    have hpaid : told.filter Event.account = told := by cases hgrant <;> rfl
    rw [List.filter_cons_of_neg (by simp [Event.account]), hpaid]
    refine .grant hgrant rfl rfl (fun w hw => ?_) (haccepted ▸ hnew) hsame
    rw [hold, hrejected]
    rcases hw with rfl | rfl <;> simp
  | revoked haccepted hstale =>
    rw [List.filter_cons_of_neg (by simp [Event.account]), filter_account_revocation]
    exact .revoke (haccepted ▸ hold) (hstale ▸ hnew) hsame rfl rfl

theorem JudgeStep.posted {x x' : Draft × ℕ} (hj : JudgeStep cr c p cap h mix forks x x')
    (hm : x.1.m3 = some m) (ht : Tombs x.1.toState) :
    ∃ m' evs, Posted p h x.1 m x'.1 m' evs := by
  cases hj with
  | ties d n =>
    exact ⟨m, [], hm, ties_tombs ht, (List.append_nil _).symm,
      .none rfl rfl (sameBut_of_statusOf fun k _ => ties_statusOf cr d h mix k)⟩
  | apply hj =>
    obtain rfl := Option.mem_unique hm hj.m3
    exact hj.posted ht
  | advance hm' n =>
    obtain rfl := Option.mem_unique hm hm'
    exact ⟨_, [], rfl, ht, (List.append_nil _).symm,
      .none rfl rfl (sameBut_of_statusOf fun _ _ => rfl)⟩

theorem Draft.Activates.posted (ha : Activates cr h forks d (started forks m) d')
    (ht : Tombs d.toState) :
    ∃ m' evs, Posted p h d m d' m' evs := by
  have hframe := started_frame forks m
  have hsame : SameBut (fun _ => False) d.toState d.toState := sameBut_of_statusOf fun _ _ => rfl
  cases ha with
  | none =>
    exact ⟨_, [], rfl, ht, (List.append_nil _).symm, .none (by rw [hframe]) (by rw [hframe]) hsame⟩
  | kernelFix | policy =>
    exact ⟨_, [.fork _], rfl, ht, rfl, .none (by rw [hframe]) (by rw [hframe]) hsame⟩
  | quarantine _ _ hrun =>
    refine ⟨_, [.fork _], rfl, ht, rfl, .none ?_ ?_ hsame⟩
    all_goals rw [hrun.frame, hframe]

/-- The postings of a step so far. -/
structure Posting (p : M3Config) (h : ℕ) (s : State) (m : M3State) (d : Draft) (m' : M3State) :
    Prop where
  m3 : d.m3 = some m'
  tombs : Tombs d.toState
  run : PostsRun p h s m (d.events.filter Event.account) d.toState m'

theorem Posting.tail {m₂ : M3State} {d₁ d₂ : Draft} {evs : List Event}
    (hrun : Posting p h s m d₁ m₁) (hpost : Posted p h d₁ m₁ d₂ m₂ evs) :
    Posting p h s m d₂ m₂ := by
  refine ⟨hpost.m3, hpost.tombs, ?_⟩
  rw [hpost.events, List.filter_append]
  exact hrun.run.tail hpost.posts

theorem Posting.steps {α : Type} {R : α → α → Prop} {f : α → Draft} {x x' : α}
    (hstep : ∀ {x y m}, R x y → (f x).m3 = some m → Tombs (f x).toState →
      ∃ m' evs, Posted p h (f x) m (f y) m' evs)
    (hx : Posting p h s m (f x) m₁) (hrun : ReflTransGen R x x') :
    ∃ m₂, Posting p h s m (f x') m₂ := by
  induction hrun with
  | refl => exact ⟨m₁, hx⟩
  | tail _ hr ih =>
    obtain ⟨m₂, hx⟩ := ih
    obtain ⟨m₃, evs, hpost⟩ := hstep hr hx.m3 hx.tombs
    exact ⟨m₃, hx.tail hpost⟩

/-- **Up to the vesting a step is a sequence of postings.** -/
theorem Folds.posting {i : StepInput} {st : Step} {g : Stages} (hf : Folds cr c s i st g)
    (hp : c.m3 = some p) (ht : Tombs s) :
    ∃ m m', s.m3 = some m ∧ Posting p i.l1.number s m g.settled m' := by
  obtain ⟨m, hm, ha⟩ := activate_eq_ok hf.activate
  obtain ⟨m₁, evs, hpost⟩ := ha.posted (p := p) ht
  obtain ⟨p', cap, hp', -, hjudging⟩ := hf.judging
  obtain rfl := Option.mem_unique hp hp'
  have hstart : Posting p i.l1.number s m { s with events := [] } m := ⟨hm, ht, .refl⟩
  obtain ⟨m₂, hjudged⟩ := (hstart.tail hpost).steps (f := Prod.fst) JudgeStep.posted hjudging
  obtain ⟨m₃, hsettled⟩ := hjudged.steps (f := id) (BlockStep.posted hp) hf.settling
  exact ⟨m, m₃, hm, hsettled⟩

end Moves

/-! ## The table of rewards -/

/-- **The rewards are in order.**  They are numbered without gaps and go to candidates that are
accepted, or were; a later reward matures later and vests later. -/
structure RewardTable (p : M3Config) (h : ℕ) (s : State) (rewards : ExtTreeMap ℕ Reward) :
    Prop where
  dense : Dense 0 rewards
  id : ∀ (id : ℕ) (r : Reward), rewards[id]? = some r → r.id = id
  amount : ∀ (id : ℕ) (r : Reward), rewards[id]? = some r → r.amount ∈ p.reward
  status : ∀ (id : ℕ) (r : Reward), rewards[id]? = some r →
    ∃ v, Status.rewarded v ∧ s.statusOf r.key = some v
  mature : ∀ (id : ℕ) (r : Reward) (id' : ℕ) (r' : Reward), rewards[id]? = some r →
    rewards[id']? = some r' → id ≤ id' → r.vestH ≤ r'.vestH
  bound : ∀ (id : ℕ) (r : Reward), rewards[id]? = some r → r.vestH ≤ h + p.maturity
  order : ∀ (id : ℕ) (r : Reward) (id' : ℕ) (r' : Reward), rewards[id]? = some r →
    rewards[id']? = some r' → id < id' → r'.status = .vested → r.status ≠ .locked

/-- **A reward leaves the lock at most once**, to be vested or cancelled. -/
def Reward.Turns (r r' : Reward) : Prop :=
  r' = r ∨ r.status = .locked ∧
    (r' = { r with status := .vested } ∨ r' = { r with status := .cancelled })

/-- A reward stays the same in everything but its status. -/
theorem Reward.Turns.eq {r' : Reward} (h : r.Turns r') : r' = { r with status := r'.status } := by
  rcases h with rfl | ⟨-, rfl | rfl⟩ <;> rfl

theorem Reward.Turns.trans {r₁ r₂ r₃ : Reward} (h : r₁.Turns r₂) (h' : r₂.Turns r₃) :
    r₁.Turns r₃ := by
  rcases h with rfl | ⟨hlocked, hr₂⟩
  · exact h'
  · rcases h' with rfl | ⟨hlocked', -⟩
    · exact .inr ⟨hlocked, hr₂⟩
    · rcases hr₂ with rfl | rfl <;> exact nomatch hlocked'

theorem Reward.Turns.not_locked {r' : Reward} (h : r.Turns r') (hr : r.status ≠ .locked) :
    r'.status ≠ .locked := by
  rcases h with rfl | ⟨hlocked, -⟩
  · exact hr
  · exact absurd hlocked hr

/-- What an update of the whole table does to each reward. -/
def Turned (rewards rewards' : ExtTreeMap ℕ Reward) : Prop :=
  ∀ id : ℕ, Option.Rel Reward.Turns rewards[id]? rewards'[id]?

namespace RewardTable

variable {p : M3Config} {h : ℕ} {s s' : State} {rewards rewards' : ExtTreeMap ℕ Reward}

theorem congr (ht : RewardTable p h s rewards)
    (hstatus : ∀ key v, Status.rewarded v → s.statusOf key = some v →
      ∃ w, Status.rewarded w ∧ s'.statusOf key = some w) : RewardTable p h s' rewards := by
  refine ⟨ht.dense, ht.id, ht.amount, fun id r hr => ?_, ht.mature, ht.bound, ht.order⟩
  obtain ⟨v, hv, hs⟩ := ht.status id r hr
  exact hstatus _ v hv hs

theorem mono (ht : RewardTable p h s rewards) (hle : h ≤ h') :
    RewardTable p h' s rewards :=
  ⟨ht.dense, ht.id, ht.amount, ht.status, ht.mature,
    fun id r hr => (ht.bound id r hr).trans (Nat.add_le_add_right hle _), ht.order⟩

/-- A new reward is the last one to mature. -/
theorem append (ht : RewardTable p h s rewards) (hid : r.id = rewards.size)
    (hamount : r.amount ∈ p.reward) (hvest : r.vestH = h + p.maturity)
    (hlocked : r.status = .locked) (hstatus : ∃ v, Status.rewarded v ∧ s.statusOf r.key = some v) :
    RewardTable p h s (rewards.insert r.id r) := by
  have hnext : r.id = 0 + rewards.size := by rw [hid, Nat.zero_add]
  have hreward (id : ℕ) (x : Reward) : (rewards.insert r.id r)[id]? = some x ↔
      rewards[id]? = some x ∨ id = 0 + rewards.size ∧ x = r := by
    rw [hnext, ht.dense.getElem?_append]
  have hall {P : ℕ → Reward → Prop} (hold : ∀ id x, rewards[id]? = some x → P id x)
      (hnew : P (0 + rewards.size) r) (id : ℕ) (x : Reward) :
      rewards[id]? = some x ∨ id = 0 + rewards.size ∧ x = r → P id x := by
    rintro (hx | ⟨rfl, rfl⟩)
    · exact hold id x hx
    · exact hnew
  refine ⟨hnext ▸ ht.dense.append r, ?_, ?_, ?_, ?_, ?_, ?_⟩ <;> simp only [hreward]
  · exact hall ht.id hnext
  · exact hall ht.amount hamount
  · exact hall ht.status hstatus
  · rintro id x id' x' (hx | ⟨rfl, rfl⟩) (hx' | ⟨rfl, rfl⟩) hle
    · exact ht.mature id x id' x' hx hx' hle
    · exact hvest ▸ ht.bound id x hx
    · exact absurd (ht.dense.lt hx') (Nat.not_lt.mpr hle)
    · exact le_rfl
  · exact hall ht.bound hvest.le
  · rintro id x id' x' (hx | ⟨rfl, rfl⟩) (hx' | ⟨rfl, rfl⟩) hlt hvested
    · exact ht.order id x id' x' hx hx' hlt hvested
    · exact absurd (hlocked.symm.trans hvested) nofun
    · exact absurd (ht.dense.lt hx') (Nat.not_lt.mpr hlt.le)
    · exact absurd hlt (lt_irrefl _)

/-- Rewards leave the lock, and none vests before an earlier one. -/
theorem turn (ht : RewardTable p h s rewards) (hturn : Turned rewards rewards')
    (horder : ∀ (id : ℕ) (r : Reward) (id' : ℕ) (r' : Reward), rewards'[id]? = some r →
      rewards[id']? = some r' → id < id' → r'.status = .locked →
      rewards'[id']? = some { r' with status := .vested } → r.status ≠ .locked) :
    RewardTable p h s rewards' := by
  have hback {id : ℕ} {r' : Reward} (hr' : rewards'[id]? = some r') :
      ∃ r, rewards[id]? = some r ∧ r.Turns r' := by
    have hrel := hturn id
    rw [hr'] at hrel
    generalize hr : rewards[id]? = x at hrel
    cases hrel with
    | some hrel => exact ⟨_, rfl, hrel⟩
  -- only the status of a reward changes
  have hkept {P : Reward → Prop} {id : ℕ} (hP : ∀ r, rewards[id]? = some r →
      ∀ st, P { r with status := st }) (r' : Reward) (hr' : rewards'[id]? = some r') : P r' := by
    obtain ⟨r, hr, hturns⟩ := hback hr'
    rw [hturns.eq]
    exact hP r hr _
  refine ⟨ht.dense.of_mem_iff fun k => ?_, fun id => hkept fun r hr _ => ht.id id r hr,
    fun id => hkept fun r hr _ => ht.amount id r hr, fun id => hkept fun r hr _ => ht.status id r hr,
    ?_, fun id => hkept fun r hr _ => ht.bound id r hr, ?_⟩
  · rw [ExtTreeMap.mem_iff_isSome_getElem?, ExtTreeMap.mem_iff_isSome_getElem?]
    have hrel := hturn k
    generalize rewards[k]? = x at hrel
    generalize rewards'[k]? = y at hrel
    cases hrel <;> rfl
  · intro id r' id' x' hr' hx' hle
    obtain ⟨r, hr, hturns⟩ := hback hr'
    obtain ⟨x, hx, hturns'⟩ := hback hx'
    rw [hturns.eq, hturns'.eq]
    exact ht.mature id r id' x hr hx hle
  · intro id r' id' x' hr' hx' hlt hvested
    obtain ⟨r, hr, hturns⟩ := hback hr'
    obtain ⟨x, hx, hturns'⟩ := hback hx'
    rcases hturns' with rfl | ⟨hlocked, rfl | rfl⟩
    · exact hturns.not_locked (ht.order id r id' x' hr hx hlt hvested)
    · exact horder id r' id' x hr' hx hlt hlocked hx'
    · exact nomatch hvested

end RewardTable

theorem turned_refl (rewards : ExtTreeMap ℕ Reward) : Turned rewards rewards := fun id => by
  cases rewards[id]? with
  | none => exact .none
  | some r => exact .some (.inl rfl)

theorem turned_revoked (m : M3State) (key : Key) :
    Turned m.rewards (revoked m key).rewards := fun id => by
  rw [revoked, ExtTreeMap.getElem?_map]
  cases m.rewards[id]? with
  | none => exact .none
  | some r =>
    refine .some ?_
    dsimp only
    split_ifs with hcancels
    · rw [cancels, decide_eq_true_eq] at hcancels
      exact .inr ⟨hcancels.2, .inr rfl⟩
    · exact .inl rfl

/-! ## The table of admissions -/

/-- **The admissions are in order.**  They are numbered without gaps, and those that are not retired
are the accepted candidates. -/
structure AdmissionTable (s : State) (admissions : ExtTreeMap ℕ Admission) : Prop where
  dense : Dense 1 admissions
  k : ∀ (k : ℕ) (a : Admission), admissions[k]? = some a → a.k = k
  accepted : ∀ (k : ℕ) (a : Admission), admissions[k]? = some a → a.retired = false →
    s.statusOf a.key = some .accepted
  distinct : ∀ (k : ℕ) (a : Admission) (k' : ℕ) (a' : Admission), admissions[k]? = some a →
    admissions[k']? = some a' → a.retired = false → a'.retired = false → a.key = a'.key → k = k'
  covered : ∀ key, s.statusOf key = some .accepted →
    ∃ (k : ℕ) (a : Admission), admissions[k]? = some a ∧ a.retired = false ∧ a.key = key

namespace AdmissionTable

variable {s s' : State} {admissions : ExtTreeMap ℕ Admission} {key : Key}

theorem congr (ht : AdmissionTable s admissions)
    (hsame : ∀ key, s'.statusOf key = some .accepted ↔ s.statusOf key = some .accepted) :
    AdmissionTable s' admissions :=
  ⟨ht.dense, ht.k, fun k a ha hlive => (hsame _).mpr (ht.accepted k a ha hlive), ht.distinct,
    fun key hkey => ht.covered key ((hsame key).mp hkey)⟩

/-- A candidate that is accepted for the first time is admitted. -/
theorem append (ht : AdmissionTable s admissions) {a : Admission} (hk : a.k = admissions.size + 1)
    (hlive : a.retired = false) (hold : s.statusOf a.key ≠ some .accepted)
    (hnew : s'.statusOf a.key = some .accepted)
    (hsame : ∀ k, k ≠ a.key → (s'.statusOf k = some .accepted ↔ s.statusOf k = some .accepted)) :
    AdmissionTable s' (admissions.insert a.k a) := by
  have hnext : a.k = 1 + admissions.size := by rw [hk, Nat.add_comm]
  have hadmission (k : ℕ) (x : Admission) : (admissions.insert a.k a)[k]? = some x ↔
      admissions[k]? = some x ∨ k = 1 + admissions.size ∧ x = a := by
    rw [hnext, ht.dense.getElem?_append]
  -- the candidate was not accepted before, so no live admission names it
  have hfresh {k : ℕ} {x : Admission} (hx : admissions[k]? = some x) (hlive : x.retired = false) :
      x.key ≠ a.key := fun heq => hold (heq ▸ ht.accepted k x hx hlive)
  refine ⟨hnext ▸ ht.dense.append a, ?_, ?_, ?_, ?_⟩ <;> simp only [hadmission]
  · rintro k x (hx | ⟨rfl, rfl⟩)
    · exact ht.k k x hx
    · exact hnext
  · rintro k x (hx | ⟨-, rfl⟩) hxlive
    · exact (hsame _ (hfresh hx hxlive)).mpr (ht.accepted k x hx hxlive)
    · exact hnew
  · rintro k x k' x' (hx | ⟨rfl, rfl⟩) (hx' | ⟨rfl, rfl⟩) hxlive hxlive' heq
    · exact ht.distinct k x k' x' hx hx' hxlive hxlive' heq
    · exact absurd heq (hfresh hx hxlive)
    · exact absurd heq.symm (hfresh hx' hxlive')
    · rfl
  · intro key hkey
    by_cases hne : key = a.key
    · exact ⟨_, a, .inr ⟨rfl, rfl⟩, hlive, hne.symm⟩
    · obtain ⟨k, x, hx, hxlive, hxkey⟩ := ht.covered key ((hsame key hne).mp hkey)
      exact ⟨k, x, .inl hx, hxlive, hxkey⟩

/-- The admissions of a candidate that is no longer accepted are retired. -/
theorem retire (ht : AdmissionTable s admissions) (hnew : s'.statusOf key ≠ some .accepted)
    (hsame : ∀ k, k ≠ key → (s'.statusOf k = some .accepted ↔ s.statusOf k = some .accepted)) :
    AdmissionTable s' (admissions.map fun _ a =>
      if retires key a then { a with retired := true } else a) := by
  have hlive {k : ℕ} {x : Admission} (hx : ∃ a, admissions[k]? = some a ∧
        (if retires key a then { a with retired := true } else a) = x)
      (hlive : x.retired = false) : admissions[k]? = some x ∧ x.key ≠ key := by
    obtain ⟨a, ha, rfl⟩ := hx
    split_ifs at hlive with hretires
    rw [if_neg hretires]
    refine ⟨ha, fun hkey => hretires ?_⟩
    rw [retires, decide_eq_true_eq]
    exact ⟨hkey, hlive⟩
  refine ⟨ht.dense.of_mem_iff fun k => ExtTreeMap.mem_map, ?_, ?_, ?_, ?_⟩ <;>
    simp only [ExtTreeMap.getElem?_map, Option.map_eq_some_iff]
  · rintro k x ⟨a, ha, rfl⟩
    split <;> exact ht.k k a ha
  · intro k x hx hxlive
    obtain ⟨ha, hne⟩ := hlive hx hxlive
    exact (hsame _ hne).mpr (ht.accepted k x ha hxlive)
  · intro k x k' x' hx hx' hxlive hxlive' heq
    exact ht.distinct k x k' x' (hlive hx hxlive).1 (hlive hx' hxlive').1 hxlive hxlive' heq
  · intro k hk
    have hne : k ≠ key := fun heq => hnew (heq ▸ hk)
    obtain ⟨n, a, ha, halive, rfl⟩ := ht.covered k ((hsame k hne).mp hk)
    refine ⟨n, a, ⟨a, ha, if_neg ?_⟩, halive, rfl⟩
    rw [retires, decide_eq_true_eq]
    exact fun h => hne h.1

end AdmissionTable

/-! ## What the postings keep -/

/-- Both tables are in order. -/
structure Tables (p : M3Config) (h : ℕ) (s : State) (m : M3State) : Prop where
  rewards : RewardTable p h s m.rewards
  admissions : AdmissionTable s m.admissions

section Postings

variable {p : M3Config} {h : ℕ} {s s' : State} {m m' : M3State} {evs : List Event}

theorem Posts.tables (hpost : Posts p h s m s' m' evs) (ht : Tables p h s m) :
    Tables p h s' m' := by
  have hacc : Status.rewarded .accepted := .inl rfl
  cases hpost with
  | none hrewards hadmissions hsame =>
    refine ⟨hrewards ▸ ht.rewards.congr fun key v hv hs => ?_, hadmissions ▸
      ht.admissions.congr fun key => hsame key not_false _ hacc⟩
    exact ⟨v, hv, (hsame key not_false v hv).mpr hs⟩
  | @grant slot key solver _ _ _ hgrant hrewards hadmissions hold hnew hsame =>
    have hkept (k : Key) (v : Status) (hv : v.rewarded) (hs : s.statusOf k = some v) :
        ∃ w, Status.rewarded w ∧ s'.statusOf k = some w := by
      have hne : k ≠ key := fun heq => hold v hv (heq ▸ hs)
      exact ⟨v, hv, (hsame k hne v hv).mpr hs⟩
    cases hgrant with
    | again _ hpaid =>
      obtain ⟨id, r, hr, rfl, -⟩ := hpaid
      obtain ⟨v, hv, hs⟩ := ht.rewards.status id r hr
      exact absurd hs (hold v hv)
    | @fresh _ amount hamount _ r hr a ha =>
      subst hr ha
      exact ⟨hrewards ▸ (ht.rewards.congr hkept).append rfl (List.mem_of_getElem? hamount) rfl rfl
        ⟨_, hacc, hnew⟩, hadmissions ▸ ht.admissions.append rfl rfl (hold _ hacc) hnew
        fun k hk => hsame k hk _ hacc⟩
  | @revoke key hold hnew hsame hrewards hadmissions =>
    have hkept (k : Key) (v : Status) (hv : v.rewarded) (hs : s.statusOf k = some v) :
        ∃ w, Status.rewarded w ∧ s'.statusOf k = some w := by
      by_cases hne : k = key
      · exact ⟨_, .inr rfl, hne ▸ hnew⟩
      · exact ⟨v, hv, (hsame k hne v hv).mpr hs⟩
    refine ⟨?_, hadmissions ▸ ht.admissions.retire (by rw [hnew]; nofun)
      fun k hk => hsame k hk _ hacc⟩
    have hturn := turned_revoked m key
    rw [← hrewards] at hturn
    refine (ht.rewards.congr hkept).turn hturn fun _ _ id' r' _ hr' _ hlocked hvested => ?_
    -- a revocation vests nothing
    rw [hrewards, revoked, ExtTreeMap.getElem?_map, hr', Option.map_some,
      Option.some.injEq] at hvested
    split at hvested
    · exact nomatch congrArg Reward.status hvested
    · exact nomatch hlocked.symm.trans (congrArg Reward.status hvested)

theorem PostsRun.tables (hrun : PostsRun p h s m evs s' m') (ht : Tables p h s m) :
    Tables p h s' m' := by
  induction hrun with
  | refl => exact ht
  | tail _ hpost ih => exact hpost.tables ih

end Postings

/-! ## Vesting -/

section Vesting

variable {p : M3Config} {h : ℕ} {s : State} {m m' : M3State}

instance : Std.Total Draft.vestLe := ⟨fun a b => by unfold Draft.vestLe; omega⟩

instance : IsTrans (ℕ × ℕ) Draft.vestLe := ⟨fun a b c => by unfold Draft.vestLe; omega⟩

theorem mem_vestable {e : ℕ × ℕ} : e ∈ vestable m h ↔ ∃ (id : ℕ) (r : Reward),
    m.rewards[id]? = some r ∧ r.status = .locked ∧ r.vestH ≤ h ∧ e = (r.vestH, r.id) := by
  rw [vestable, List.mem_insertionSort, List.mem_map]
  constructor
  · rintro ⟨⟨id, r⟩, hmem, rfl⟩
    obtain ⟨hr, hdue⟩ := List.mem_filter.mp hmem
    rw [decide_eq_true_eq] at hdue
    exact ⟨id, r, mem_toList_iff.mp hr, hdue.1, hdue.2, rfl⟩
  · rintro ⟨id, r, hr, hlocked, hdue, rfl⟩
    refine ⟨(id, r), List.mem_filter.mpr
      ⟨mem_toList_iff.mpr hr, ?_⟩, rfl⟩
    rw [decide_eq_true_eq]
    exact ⟨hlocked, hdue⟩

section

variable (ht : RewardTable p h s m.rewards)
include ht

theorem nodup_vestable (h' : ℕ) : ((vestable m h').map (·.2)).Nodup := by
  rw [vestable, ((List.perm_insertionSort _ _).map _).nodup_iff, List.map_map,
    List.map_congr_left (g := Prod.fst)]
  · exact (List.filter_sublist.map Prod.fst).nodup (nodup_fst_toList _)
  · exact fun e he => ht.id e.1 e.2
      (mem_toList_iff.mp (List.mem_filter.mp he).1)

/-- **The rewards that may vest, by maturity, are in the order of their numbers.** -/
theorem sorted_vestable (h' : ℕ) : ((vestable m h').map (·.2)).Pairwise (· < ·) := by
  have hsorted : (vestable m h').Pairwise vestLe := List.pairwise_insertionSort _ _
  have hne := List.pairwise_map.mp (nodup_vestable ht h')
  rw [List.pairwise_map]
  refine (hsorted.and hne).imp_of_mem fun {a b} ha hb hab => ?_
  obtain ⟨id, r, hr, -, -, rfl⟩ := mem_vestable.mp ha
  obtain ⟨id', r', hr', -, -, rfl⟩ := mem_vestable.mp hb
  rw [ht.id id r hr, ht.id id' r' hr'] at hab ⊢
  have hmature := ht.mature id' r' id r hr' hr
  unfold vestLe at hab
  dsimp only at hab ⊢
  omega

theorem sorted_vesting (h' : ℕ) : (vesting p m h').Pairwise (· < ·) := by
  rw [vesting, List.map_take]
  exact (sorted_vestable ht h').sublist (List.take_sublist _ _)

/-- A reward that vests is locked and has matured. -/
theorem vesting_locked (hid : id ∈ vesting p m h') :
    ∃ r, m.rewards[id]? = some r ∧ r.status = .locked ∧ r.vestH ≤ h' := by
  obtain ⟨e, he, rfl⟩ := List.mem_map.mp hid
  obtain ⟨id, r, hr, hlocked, hdue, rfl⟩ := mem_vestable.mp (List.mem_of_mem_take he)
  exact ⟨r, by rw [ht.id id r hr]; exact hr, hlocked, hdue⟩

/-- Of the rewards that may vest, the earlier ones vest. -/
theorem vesting_of_lt {id' : ℕ} (hid' : id' ∈ vesting p m h')
    (hr : m.rewards[id]? = some r) (hlocked : r.status = .locked) (hlt : id < id') :
    id ∈ vesting p m h' := by
  obtain ⟨r', hr', -, hdue'⟩ := vesting_locked ht hid'
  have hmem : id ∈ (vestable m h').map (·.2) := List.mem_map.mpr ⟨(r.vestH, r.id),
    mem_vestable.mpr ⟨id, r, hr, hlocked, (ht.mature id r id' r' hr hr' hlt.le).trans hdue', rfl⟩,
    ht.id id r hr⟩
  have hsorted := sorted_vestable ht h'
  rw [vesting, List.map_take] at hid' ⊢
  rw [← List.take_append_drop p.qReward ((vestable m h').map (·.2))] at hmem hsorted
  rcases List.mem_append.mp hmem with hmem | hmem
  · exact hmem
  · exact absurd ((List.pairwise_append.mp hsorted).2.2 id' hid' id hmem) (Nat.lt_asymm hlt)

theorem turned_vests (hv : Vests p (vesting p m h') rs m m' payments) :
    Turned m.rewards m'.rewards := by
  intro id
  rw [hv.rewards id]
  split_ifs with hid
  · obtain ⟨r, hr, hlocked, -⟩ := vesting_locked ht hid
    rw [hr]
    exact .some (.inr ⟨hlocked, .inl rfl⟩)
  · exact turned_refl m.rewards id

end

theorem Draft.Vests.rewardTable (hv : Vests p (vesting p m h') rs m m' payments)
    (ht : RewardTable p h s m.rewards) : RewardTable p h s m'.rewards := by
  refine ht.turn (turned_vests ht hv) fun id r id' r' hr hr' hlt hlocked' hvested hlocked => ?_
  have hid' : id' ∈ vesting p m h' := by
    by_contra hout
    rw [hv.rewards id', if_neg hout, hr', Option.some.injEq] at hvested
    exact nomatch hlocked'.symm.trans (congrArg Reward.status hvested)
  by_cases hid : id ∈ vesting p m h'
  · obtain ⟨r₀, hr₀, -⟩ := vesting_locked ht hid
    rw [hv.rewards id, if_pos hid, hr₀, Option.map_some, Option.some.injEq] at hr
    exact nomatch hlocked.symm.trans (congrArg Reward.status hr).symm
  · rw [hv.rewards id, if_neg hid] at hr
    exact hid (vesting_of_lt ht hid' hr hlocked hlt)

end Vesting

/-! ## Out of the lock -/

/-- The reward that an event vests. -/
def Event.vested : Event → Option ℕ
  | .reward r code => if code = 2 then some r.id else none
  | _ => none

/-- The reward that an event takes out of the lock. -/
def Event.unlocked : Event → Option ℕ
  | .reward r code => if code = 2 ∨ code = 3 then some r.id else none
  | _ => none

namespace Step

/-- The rewards that a step vests, in order. -/
def vested (st : Step) : List ℕ := st.events.filterMap Event.vested

/-- The rewards that a step takes out of the lock. -/
def unlocked (st : Step) : List ℕ := st.events.filterMap Event.unlocked

/-- The rewards that a step pays out. -/
def paid (st : Step) : List ℕ := st.payments.map (·.rewardId)

end Step

theorem filterMap_account {f : Event → Option ℕ} (hf : ∀ e, e.account = false → f e = none)
    (evs : List Event) : (evs.filter Event.account).filterMap f = evs.filterMap f := by
  rw [List.filterMap_filter]
  refine List.filterMap_congr fun e _ => ?_
  split_ifs with he
  · rfl
  · exact (hf e (by simpa using he)).symm

/-- **What happened to the rewards of a table:** the old ones turned, the new ones mature in time to
come, and those of `ids` left the lock, each of them once. -/
structure Unlocks (p : M3Config) (h : ℕ) (rewards rewards' : ExtTreeMap ℕ Reward) (ids : List ℕ) :
    Prop where
  old : ∀ (id : ℕ) (r : Reward), rewards[id]? = some r → ∃ r', rewards'[id]? = some r' ∧ r.Turns r'
  new : ∀ (id : ℕ) (r' : Reward), rewards[id]? = none → rewards'[id]? = some r' →
    r'.vestH = h + p.maturity
  nodup : ids.Nodup
  before : ∀ id ∈ ids, ∀ r : Reward, rewards[id]? = some r → r.status = .locked
  after : ∀ id ∈ ids, ∃ r' : Reward, rewards'[id]? = some r' ∧ r'.status ≠ .locked

section Unlocks

variable {p : M3Config} {h : ℕ} {s s' : State} {m m' : M3State}
  {rewards rewards₁ rewards₂ : ExtTreeMap ℕ Reward} {ids ids' : List ℕ} {evs : List Event}

theorem unlocks_refl (rewards : ExtTreeMap ℕ Reward) : Unlocks p h rewards rewards [] :=
  ⟨fun _ r hr => ⟨r, hr, .inl rfl⟩, fun _ _ hnone hr => (nomatch hnone.symm.trans hr), .nil,
    nofun, nofun⟩

theorem Unlocks.trans (h₁ : Unlocks p h rewards rewards₁ ids)
    (h₂ : Unlocks p h rewards₁ rewards₂ ids') : Unlocks p h rewards rewards₂ (ids ++ ids') := by
  refine ⟨fun id r hr => ?_, fun id r₂ hnone hr₂ => ?_, ?_, ?_, ?_⟩
  · obtain ⟨r₁, hr₁, hturns₁⟩ := h₁.old id r hr
    obtain ⟨r₂, hr₂, hturns₂⟩ := h₂.old id r₁ hr₁
    exact ⟨r₂, hr₂, hturns₁.trans hturns₂⟩
  · cases hr₁ : rewards₁[id]? with
    | none => exact h₂.new id r₂ hr₁ hr₂
    | some r₁ =>
      obtain ⟨x, hx, hturns⟩ := h₂.old id r₁ hr₁
      obtain rfl := Option.mem_unique hr₂ hx
      rw [hturns.eq]
      exact h₁.new id r₁ hnone hr₁
  · refine List.nodup_append'.mpr ⟨h₁.nodup, h₂.nodup, fun id hid hid' => ?_⟩
    obtain ⟨r₁, hr₁, hout⟩ := h₁.after id hid
    exact hout (h₂.before id hid' r₁ hr₁)
  · intro id hid r hr
    rcases List.mem_append.mp hid with hid | hid
    · exact h₁.before id hid r hr
    · obtain ⟨r₁, hr₁, hturns⟩ := h₁.old id r hr
      by_contra hout
      exact hturns.not_locked hout (h₂.before id hid r₁ hr₁)
  · intro id hid
    rcases List.mem_append.mp hid with hid | hid
    · obtain ⟨r₁, hr₁, hout⟩ := h₁.after id hid
      obtain ⟨r₂, hr₂, hturns⟩ := h₂.old id r₁ hr₁
      exact ⟨r₂, hr₂, hturns.not_locked hout⟩
    · exact h₂.after id hid

theorem Turned.old {rewards' : ExtTreeMap ℕ Reward} (hturn : Turned rewards rewards') (id : ℕ)
    (r : Reward) (hr : rewards[id]? = some r) : ∃ r', rewards'[id]? = some r' ∧ r.Turns r' := by
  have hrel := hturn id
  rw [hr] at hrel
  generalize rewards'[id]? = x at hrel
  cases hrel with
  | some hrel => exact ⟨_, rfl, hrel⟩

theorem Turned.new {rewards' : ExtTreeMap ℕ Reward} (hturn : Turned rewards rewards') (id : ℕ)
    (r' : Reward) (hnone : rewards[id]? = none) (hr' : rewards'[id]? = some r') : False := by
  have hrel := hturn id
  rw [hnone, hr'] at hrel
  exact nomatch hrel

/-- The rewards that a revocation takes out of the lock. -/
theorem unlocked_revocation (ht : RewardTable p h s m.rewards) (key : Key) :
    (revocation m key).filterMap Event.unlocked =
      (m.rewards.toList.filter (cancels key ·.2)).map Prod.fst := by
  rw [revocation, List.filterMap_append, List.filterMap_map, List.filterMap_map]
  have hnone : (Event.unlocked ∘ fun e : ℕ × Admission =>
      Event.admission { e.2 with retired := true } 2) = fun _ => none := rfl
  have hsome : (Event.unlocked ∘ fun e : ℕ × Reward =>
      Event.reward { e.2 with status := .cancelled } 3) = fun e => some e.2.id := by
    funext e
    simp [Event.unlocked]
  rw [hnone, List.filterMap_none, List.append_nil, ← List.filterMap_eq_map]
  refine List.filterMap_congr fun e he => ?_
  exact congrArg some (ht.id e.1 e.2
    (mem_toList_iff.mp (List.mem_filter.mp he).1))

theorem Posts.unlocks (hpost : Posts p h s m s' m' evs) (ht : Tables p h s m) :
    Unlocks p h m.rewards m'.rewards (evs.filterMap Event.unlocked) := by
  cases hpost with
  | none hrewards =>
    rw [hrewards]
    exact unlocks_refl _
  | @grant _ _ _ compensation _ _ hgrant hrewards =>
    cases hgrant with
    | again =>
      rw [hrewards]
      exact unlocks_refl _
    | @fresh _ amount _ _ r hr a ha =>
      have hlist : [Event.reward r (if compensation then 4 else 1), .admission a 1].filterMap
          Event.unlocked = [] := by
        split <;> rfl
      have hnext : r.id = 0 + m.rewards.size := by rw [hr, Nat.zero_add]
      rw [hlist, hrewards]
      rw [hnext]
      refine ⟨fun id x hx => ⟨x, ht.rewards.dense.getElem?_append.mpr (.inl hx), .inl rfl⟩,
        fun id x hnone hx => ?_, .nil, nofun, nofun⟩
      rcases ht.rewards.dense.getElem?_append.mp hx with hx | ⟨-, rfl⟩
      · exact nomatch hnone.symm.trans hx
      · rw [hr]
  | @revoke key hold hnew hsame hrewards =>
    rw [unlocked_revocation ht.rewards, hrewards]
    have hturn := turned_revoked m key
    have hmem {id : ℕ} (hid : id ∈ (m.rewards.toList.filter (cancels key ·.2)).map Prod.fst) :
        ∃ r, m.rewards[id]? = some r ∧ cancels key r = true := by
      obtain ⟨e, he, rfl⟩ := List.mem_map.mp hid
      obtain ⟨he, hcancels⟩ := List.mem_filter.mp he
      exact ⟨e.2, mem_toList_iff.mp he, hcancels⟩
    refine ⟨hturn.old, fun id r' hnone hr' => (hturn.new id r' hnone hr').elim, ?_, ?_, ?_⟩
    · exact (List.filter_sublist.map Prod.fst).nodup (nodup_fst_toList _)
    · intro id hid r hr
      obtain ⟨r', hr', hcancels⟩ := hmem hid
      obtain rfl := Option.mem_unique hr hr'
      rw [cancels, decide_eq_true_eq] at hcancels
      exact hcancels.2
    · intro id hid
      obtain ⟨r, hr, hcancels⟩ := hmem hid
      refine ⟨{ r with status := .cancelled }, ?_, nofun⟩
      rw [revoked, ExtTreeMap.getElem?_map, hr, Option.map_some, if_pos hcancels]

theorem PostsRun.unlocks (hrun : PostsRun p h s m evs s' m') (ht : Tables p h s m) :
    Unlocks p h m.rewards m'.rewards (evs.filterMap Event.unlocked) := by
  induction hrun with
  | refl => exact unlocks_refl _
  | tail hrun hpost ih =>
    rw [List.filterMap_append]
    exact ih.trans (hpost.unlocks (hrun.tables ht))

/-- No posting vests a reward. -/
theorem PostsRun.vested (hrun : PostsRun p h s m evs s' m') : evs.filterMap Event.vested = [] := by
  induction hrun with
  | refl => rfl
  | tail _ hpost ih =>
    rw [List.filterMap_append, ih, List.nil_append]
    cases hpost with
    | none => rfl
    | grant hgrant =>
      cases hgrant with
      | again => rfl
      | fresh => split <;> rfl
    | revoke =>
      rw [revocation, List.filterMap_append, List.filterMap_map, List.filterMap_map]
      exact (List.append_eq_nil_iff.mpr ⟨List.filterMap_eq_nil_iff.mpr fun _ _ => rfl,
        List.filterMap_eq_nil_iff.mpr fun _ _ => rfl⟩)

theorem Draft.Vests.map_id (hv : Vests p (vesting p m h') rs m m' payments)
    (ht : RewardTable p h s m.rewards) : rs.map (·.id) = vesting p m h' := by
  have hmatured := hv.matured
  generalize vesting p m h' = ids at hmatured
  clear hv
  induction hmatured with
  | nil => rfl
  | cons hr _ ih =>
    obtain ⟨r₀, hr₀, rfl⟩ := hr
    rw [List.map_cons, ih]
    exact congrArg (· :: _) (ht.id _ r₀ hr₀)

/-- The payments of rewards that vest. -/
theorem zipWith_matured {ids : List ℕ} (hmatured : List.Forall₂ (Matured m) ids rs) :
    (List.zipWith (fun id r => (⟨id, r.solver, r.amount⟩ : RewardPayment)) ids rs).map
        (·.rewardId) = ids ∧
      ∀ pay ∈ List.zipWith (fun id r => (⟨id, r.solver, r.amount⟩ : RewardPayment)) ids rs,
        pay.rewardId ∈ ids ∧ ∃ r : Reward, m.rewards[pay.rewardId]? = some r ∧
          r.solver = pay.solver ∧ r.amount = pay.amount := by
  induction hmatured with
  | nil => exact ⟨rfl, nofun⟩
  | cons hr _ ih =>
    obtain ⟨r₀, hr₀, rfl⟩ := hr
    obtain ⟨hids, hpays⟩ := ih
    refine ⟨by rw [List.zipWith_cons_cons, List.map_cons, hids], ?_⟩
    refine List.forall_mem_cons.mpr ⟨⟨List.mem_cons_self, r₀, hr₀, rfl, rfl⟩, fun pay hpay => ?_⟩
    exact ⟨List.mem_cons_of_mem _ (hpays pay hpay).1, (hpays pay hpay).2⟩

theorem Draft.Vests.unlocks (hv : Vests p (vesting p m h') rs m m' payments)
    (ht : RewardTable p h s m.rewards) :
    Unlocks p h m.rewards m'.rewards (vesting p m h') := by
  have hturn := turned_vests ht hv
  refine ⟨hturn.old, fun id r' hnone hr' => (hturn.new id r' hnone hr').elim, ?_, ?_, ?_⟩
  · exact (sorted_vesting ht h').imp Nat.ne_of_lt
  · intro id hid r hr
    obtain ⟨r', hr', hlocked, -⟩ := vesting_locked ht hid
    obtain rfl := Option.mem_unique hr hr'
    exact hlocked
  · intro id hid
    obtain ⟨r, hr, -⟩ := vesting_locked ht hid
    exact ⟨{ r with status := .vested }, by rw [hv.rewards id, if_pos hid, hr]; rfl, nofun⟩

/-- What has vested after some postings had vested before them. -/
theorem Posts.vested_before (hpost : Posts p h s m s' m' evs) (hr : m'.rewards[id]? = some r)
    (hvested : r.status = .vested) : m.rewards[id]? = some r := by
  cases hpost with
  | none hrewards => exact hrewards ▸ hr
  | grant hgrant hrewards =>
    rw [hrewards] at hr
    cases hgrant with
    | again => exact hr
    | @fresh _ amount _ _ r' hr' =>
      rw [getElem?_insert] at hr
      split at hr
      · obtain rfl := Option.some.inj hr
        rw [hr'] at hvested
        exact nomatch hvested
      · exact hr
  | revoke _ _ _ hrewards =>
    rw [hrewards, revoked, ExtTreeMap.getElem?_map, Option.map_eq_some_iff] at hr
    obtain ⟨x, hx, rfl⟩ := hr
    split at hvested
    · exact nomatch hvested
    · rename_i hcancels
      rw [if_neg hcancels]
      exact hx

theorem PostsRun.vested_before (hrun : PostsRun p h s m evs s' m') (hr : m'.rewards[id]? = some r)
    (hvested : r.status = .vested) : m.rewards[id]? = some r := by
  induction hrun with
  | refl => exact hr
  | tail _ hpost ih => exact ih (hpost.vested_before hr hvested)

end Unlocks

/-! ## Steps and runs -/

/-- **What a step does to the rewards:** those it takes out of the lock turn once, those it vests are
locked and mature, at most `q_reward` of them, and only these are paid. -/
structure Settles (p : M3Config) (h : ℕ) (m m' : M3State) (st : Step) : Prop where
  unlocks : Unlocks p h m.rewards m'.rewards st.unlocked
  sorted : st.vested.Pairwise (· < ·)
  capped : st.vested.length ≤ p.qReward
  vested : ∀ id ∈ st.vested, ∃ r : Reward, m.rewards[id]? = some r ∧ r.status = .locked ∧
    r.vestH ≤ h ∧ m'.rewards[id]? = some { r with status := .vested }
  only : ∀ (id : ℕ) (r : Reward), m'.rewards[id]? = some r → r.status = .vested →
    m.rewards[id]? = some r ∨ id ∈ st.vested
  paid : st.paid = if p.mintEnabled then st.vested else []
  payments : ∀ pay ∈ st.payments, ∃ r : Reward, m'.rewards[pay.rewardId]? = some r ∧
    r.solver = pay.solver ∧ r.amount = pay.amount

section Runs

variable {cr : Crypto} {c : Config} {p : M3Config} {gas : ℕ} {s : State} {i : StepInput} {st : Step}

theorem Folds.settles {g : Stages} (hf : Folds cr c s i st g) (hp : c.m3 = some p) (ht : Tombs s)
    (hm : s.m3 = some m) (htables : Tables p s.height s m) :
    ∃ m', st.state.m3 = some m' ∧ Tombs st.state ∧ Tables p st.state.height st.state m' ∧
      Settles p i.l1.number m m' st := by
  obtain ⟨m₀, m₁, hm₀, hposting⟩ := hf.posting hp ht
  obtain rfl := Option.mem_unique hm hm₀
  obtain ⟨p', m₂, m', rs, hp', hm₂, hv, hfinal⟩ := vest_eq_ok hf.vest
  obtain rfl := Option.mem_unique hp hp'
  obtain rfl := Option.mem_unique hposting.m3 hm₂
  have hle : s.height ≤ i.l1.number := by have := hf.height; omega
  have htables₀ : Tables p i.l1.number s m := ⟨htables.rewards.mono hle, htables.admissions⟩
  have htables₁ := hposting.run.tables htables₀
  have hevents : st.events = g.settled.events ++ rs.map (.reward · 2) := by rw [hf.events, hfinal]
  have hcands : st.state.candidates = g.settled.candidates := by rw [hf.state, hfinal]
  have hstatus (k : Key) : st.state.statusOf k = g.settled.statusOf k :=
    State.statusOf_of_eq hcands k
  have hlast {f : Event → Option ℕ} (hf : ∀ r : Reward, f (.reward r 2) = some r.id) :
      (rs.map (Event.reward · 2)).filterMap f = vesting p m₁ i.l1.number := by
    rw [← hv.map_id htables₁.rewards, List.filterMap_map, ← List.filterMap_eq_map]
    exact List.filterMap_congr fun r _ => hf r
  have hvested : st.vested = vesting p m₁ i.l1.number := by
    rw [Step.vested, hevents, List.filterMap_append, hlast fun _ => rfl, ← filterMap_account ?_,
      hposting.run.vested, List.nil_append]
    intro e he
    cases e <;> first | rfl | exact nomatch he
  have hunlocked : st.unlocked =
      (g.settled.events.filter Event.account).filterMap Event.unlocked
        ++ vesting p m₁ i.l1.number := by
    rw [Step.unlocked, hevents, List.filterMap_append, hlast fun _ => rfl, filterMap_account]
    intro e he
    cases e <;> first | rfl | exact nomatch he
  have hunlocks := hposting.run.unlocks htables₀
  refine ⟨m', by rw [hf.state, hfinal], tombs_of_eq hposting.tombs hcands, ⟨?_, ?_⟩, ?_⟩
  · have hheight : st.state.height = i.l1.number := by rw [hf.state]
    rw [hheight]
    exact (hv.rewardTable htables₁.rewards).congr fun key v hw hs => ⟨v, hw, (hstatus key).trans hs⟩
  · rw [hv.frame]
    exact htables₁.admissions.congr fun key => by rw [hstatus]
  · refine ⟨?_, ?_, ?_, fun id hid => ?_, fun id r hr hr' => ?_, ?_, ?_⟩
    · rw [hunlocked]
      exact hunlocks.trans (hv.unlocks htables₁.rewards)
    · rw [hvested]
      exact sorted_vesting htables₁.rewards _
    · rw [hvested, vesting, List.length_map]
      exact List.length_take_le _ _
    · rw [hvested] at hid
      obtain ⟨r, hr, hlocked, hdue⟩ := vesting_locked htables₁.rewards hid
      refine ⟨r, ?_, hlocked, hdue, by rw [hv.rewards id, if_pos hid, hr]; rfl⟩
      -- a reward that was granted in this step is not mature yet
      cases hr₀ : m.rewards[id]? with
      | none =>
        have hnew := hunlocks.new id r hr₀ hr
        have hvalid := Config.valid_m3 hf.valid hp
        have := hvalid.delay
        have := hvalid.maturity
        omega
      | some r₀ =>
        obtain ⟨r', hr', hturns⟩ := hunlocks.old id r₀ hr₀
        obtain rfl := Option.mem_unique hr hr'
        rcases hturns with rfl | ⟨-, rfl | rfl⟩
        · rfl
        · exact nomatch hlocked
        · exact nomatch hlocked
    · rw [hvested]
      rw [hv.rewards id] at hr
      split_ifs at hr with hid
      · exact .inr hid
      · exact .inl (hposting.run.vested_before hr hr')
    · rw [Step.paid, hv.payments, hvested]
      split
      · exact (zipWith_matured hv.matured).1
      · rfl
    · rw [hv.payments]
      split
      · intro pay hpay
        obtain ⟨hid, r, hr, hsolver, hamount⟩ := (zipWith_matured hv.matured).2 pay hpay
        exact ⟨{ r with status := .vested }, by rw [hv.rewards, if_pos hid, hr]; rfl, hsolver, hamount⟩
      · nofun

theorem new_tables (hs : State.new cr c gas = .ok s) (hp : c.m3 = some p) :
    ∃ m, s.m3 = some m ∧ Tombs s ∧ Tables p s.height s m := by
  simp only [State.new, bind_eq_ok, pure_eq_ok] at hs
  obtain ⟨_, -, rfl⟩ := hs
  refine ⟨{}, by rw [hp]; rfl, by simp [Tombs], ⟨dense_empty, by simp, by simp, by simp, by simp,
    by simp, by simp⟩, ⟨dense_empty, by simp, by simp, by simp, by simp [State.statusOf]⟩⟩

/-- **The ledger of a run:** what has vested, what has been paid and what has left the lock. -/
structure Ledgered (p : M3Config) (run : List (StepInput × Step)) (s : State) (m : M3State) :
    Prop where
  m3 : s.m3 = some m
  tombs : Tombs s
  tables : Tables p s.height s m
  sorted : (run.flatMap (·.2.vested)).Pairwise (· < ·)
  vested : ∀ id ∈ run.flatMap (·.2.vested), ∃ r : Reward, m.rewards[id]? = some r ∧
    r.status = .vested
  paid : (run.flatMap (·.2.paid)).Sublist (run.flatMap (·.2.vested))
  nodup : (run.flatMap (·.2.unlocked)).Nodup
  unlocked : ∀ id ∈ run.flatMap (·.2.unlocked), ∃ r : Reward, m.rewards[id]? = some r ∧
    r.status ≠ .locked

theorem Reached.ledgered {P : State → StepInput → Prop} {run : List (StepInput × Step)}
    (hr : Reached cr c gas P run s) (hp : c.m3 = some p) : ∃ m, Ledgered p run s m := by
  induction hr with
  | new hs =>
    obtain ⟨m, hm, ht, htables⟩ := new_tables hs hp
    exact ⟨m, hm, ht, htables, .nil, nofun, .slnil, .nil, nofun⟩
  | @step run s _ i _ st hst ih =>
    obtain ⟨m, hl⟩ := ih
    obtain ⟨g, hf⟩ := State.fold_eq_ok hst
    obtain ⟨m', hm', ht', htables', hsettles⟩ := hf.settles hp hl.tombs hl.m3 hl.tables
    have hkept {id : ℕ} {r : Reward} (hr : m.rewards[id]? = some r) (hout : r.status ≠ .locked) :
        m'.rewards[id]? = some r := by
      obtain ⟨r', hr', hturns⟩ := hsettles.unlocks.old id r hr
      rcases hturns with rfl | ⟨hlocked, -⟩
      · exact hr'
      · exact absurd hlocked hout
    refine ⟨m', hm', ht', htables', ?_, ?_, ?_, ?_, ?_⟩
    all_goals
      simp only [List.flatMap_append, List.flatMap_cons, List.flatMap_nil, List.append_nil]
    · refine List.pairwise_append.mpr ⟨hl.sorted, hsettles.sorted, fun id hid id' hid' => ?_⟩
      -- a reward that vests now is not behind one that has vested
      obtain ⟨r, hr, hvested⟩ := hl.vested id hid
      obtain ⟨r', hr', hlocked, -⟩ := hsettles.vested id' hid'
      by_contra hle
      rcases Nat.lt_or_eq_of_le (Nat.not_lt.mp hle) with hlt | rfl
      · exact hl.tables.rewards.order id' r' id r hr' hr hlt hvested hlocked
      · obtain rfl := Option.mem_unique hr hr'
        exact nomatch hvested.symm.trans hlocked
    · intro id hid
      rcases List.mem_append.mp hid with hid | hid
      · obtain ⟨r, hr, hvested⟩ := hl.vested id hid
        exact ⟨r, hkept hr (by rw [hvested]; nofun), hvested⟩
      · obtain ⟨r, -, -, -, hr'⟩ := hsettles.vested id hid
        exact ⟨_, hr', rfl⟩
    · refine hl.paid.append ?_
      rw [hsettles.paid]
      split
      · exact List.Sublist.refl _
      · exact List.nil_sublist _
    · refine List.nodup_append'.mpr ⟨hl.nodup, hsettles.unlocks.nodup, fun id hid hid' => ?_⟩
      obtain ⟨r, hr, hout⟩ := hl.unlocked id hid
      exact hout (hsettles.unlocks.before id hid' r hr)
    · intro id hid
      rcases List.mem_append.mp hid with hid | hid
      · obtain ⟨r, hr, hout⟩ := hl.unlocked id hid
        exact ⟨r, hkept hr hout, hout⟩
      · exact hsettles.unlocks.after id hid

/-- **Rewards and admissions along a run.**  Both are numbered without gaps; the admissions that are
not retired name the accepted candidates, each once; rewards leave the lock at most once, vest in
the order of their numbers and are paid at most once.  In the next step (`Settles`) a reward only
turns from locked to vested or cancelled, at most `q_reward` of them vest, and a reward is paid
only when it was locked and mature and has just been vested. -/
theorem Reached.lifecycle {run : List (StepInput × Step)} (hr : Reached cr c gas Free run s)
    (hp : c.m3 = some p) : ∃ m, s.m3 = some m ∧
      (Dense 0 m.rewards ∧ ∀ (id : ℕ) (r : Reward), m.rewards[id]? = some r → r.id = id) ∧
      (Dense 1 m.admissions ∧ ∀ (k : ℕ) (a : Admission), m.admissions[k]? = some a → a.k = k) ∧
      (∀ (k : ℕ) (a : Admission) (k' : ℕ) (a' : Admission), m.admissions[k]? = some a →
        m.admissions[k']? = some a' → a.retired = false → a'.retired = false → a.key = a'.key →
        k = k') ∧
      (∀ key, (∃ (k : ℕ) (a : Admission), m.admissions[k]? = some a ∧ a.retired = false ∧
        a.key = key) ↔ s.statusOf key = some .accepted) ∧
      (run.flatMap (·.2.vested)).Pairwise (· < ·) ∧ (run.flatMap (·.2.paid)).Nodup ∧
      (run.flatMap (·.2.unlocked)).Nodup ∧
      ∀ i st, s.fold cr c i = .ok st → ∃ m', st.state.m3 = some m' ∧ Settles p i.l1.number m m' st := by
  obtain ⟨m, hl⟩ := hr.ledgered hp
  have ha := hl.tables.admissions
  refine ⟨m, hl.m3, ⟨hl.tables.rewards.dense, hl.tables.rewards.id⟩, ⟨ha.dense, ha.k⟩, ha.distinct,
    fun key => ⟨?_, ha.covered key⟩, hl.sorted, ?_, hl.nodup, fun i st hst => ?_⟩
  · rintro ⟨k, a, hk, hlive, rfl⟩
    exact ha.accepted k a hk hlive
  · exact hl.paid.nodup (hl.sorted.imp Nat.ne_of_lt)
  · obtain ⟨g, hf⟩ := State.fold_eq_ok hst
    obtain ⟨m', hm', -, -, hsettles⟩ := hf.settles hp hl.tombs hl.m3 hl.tables
    exact ⟨m', hm', hsettles⟩

/-- A solution wins and two steps later its reward is paid. -/
theorem Reached.lifecycle_paid : ∃ run s, Reached toyCrypto exampleConfig exampleGas Free run s ∧
    run.flatMap (·.2.paid) = [0] ∧ ∃ m, s.m3 = some m ∧ Dense 0 m.rewards ∧ Dense 1 m.admissions := by
  obtain ⟨run, s, hr, hpaid⟩ := exists_reached_of_play toyCrypto exampleConfig exampleGas Free
    (Example.winning ++ [⟨Example.block 8, [], [], Example.genesis⟩,
      ⟨Example.block 9, [], [], Example.genesis⟩]) (fun x => x.1.flatMap (·.2.paid)) (v := [0])
    (by decide +kernel)
  obtain ⟨m, hm, hrewards, hadmissions, -⟩ := hr.lifecycle (p := exampleProfile) rfl
  exact ⟨run, s, hr, hpaid, m, hm, hrewards.1, hadmissions.1⟩

end Runs

end Derivation
