import Boole.Derivation.Effects

/-!
# Derivation/Due — which records a height applies

The fuel clock gives every job a height at which its record is due.  Due heights never decrease, so
the records a step is given split into **those due now, which are applied in order, and the rest,
which change nothing** (`applyDue_eq_ok`).
-/

open Std Library

namespace Derivation

variable {v : IndexedVerdict} {d : Draft} {m : M3State} {offset : ℕ} {acc acc' : Due}

/-! ## The clock -/

/-- **One tick of the clock:** the due height is at least the end of the job's delay and never below
the one before; a height takes at most `cap` jobs. -/
structure Pushed (old : FuelClock) (p : M3Config) (cap avail due : ℕ) (next : FuelClock) :
    Prop where
  delay : avail + p.k ≤ due
  mono : old.due ≤ due
  due_eq : next.due = due
  cap_ne : cap ≠ 0
  count : (due = old.due ∧ old.count < cap ∧ next.count = old.count + 1) ∨
    (old.due < due ∧ next.count = 1)

theorem FuelClock.push_eq_ok {self next : FuelClock} {p : M3Config} {cap avail fuel due : ℕ}
    (h : self.push p cap avail fuel = .ok (due, next)) : Pushed self p cap avail due next := by
  simp only [FuelClock.push, bind_eq_ok, ensure_eq_ok, okOr_eq_ok, checkedAdd_eq_some] at h
  obtain ⟨_, ⟨hcap, -⟩, _, ⟨-, rfl⟩, f, -, g, -, _, -, h⟩ := h
  set d := max (max (g / p.rate + if g % p.rate ≠ 0 then 1 else 0) (avail + p.k)) self.due with hd
  have hdelay : avail + p.k ≤ d := (le_max_right _ _).trans (le_max_left _ _)
  have hmono : self.due ≤ d := le_max_right _ _
  split at h
  · simp only [bind_eq_ok, okOr_eq_ok, checkedAdd_eq_some] at h
    obtain ⟨_, ⟨-, rfl⟩, rfl, rfl⟩ := h
    exact ⟨by omega, by omega, rfl, hcap, .inr ⟨by omega, rfl⟩⟩
  · split_ifs at h with hsame
    · simp only [bind_eq_ok, okOr_eq_ok, checkedAdd_eq_some, pure_eq_ok, Prod.mk.injEq] at h
      obtain ⟨_, ⟨-, rfl⟩, rfl, rfl⟩ := h
      exact ⟨hdelay, hmono, rfl, hcap, .inl ⟨hsame, by omega, rfl⟩⟩
    · obtain ⟨rfl, rfl⟩ := Prod.mk.inj (Except.ok.inj h)
      exact ⟨hdelay, hmono, rfl, hcap, .inr ⟨by omega, rfl⟩⟩

/-! ## The loop over the records -/

namespace Draft

variable {c : Config} {p : M3Config} {cap h : ℕ} {forks : ForkTable}

/-- Neither the queue nor its cursor changes while records are applied. -/
theorem Applies.queue {slot : ℕ} {job : Job} {clock : FuelClock} {d' : Draft} {l : LiveCandidate}
    {P : Problem} {new : Status} (ha : Applies c p h slot job v clock d m l P new d') :
    ∃ m', d'.m3 = some m' ∧ m'.queue = m.queue ∧ m'.nextApplied = m.nextApplied ∧
      m'.clock = clock := by
  cases ha with
  | plain => exact ⟨_, rfl, rfl, rfl, rfl⟩
  | compensated _ _ _ hgrant => cases hgrant <;> exact ⟨_, rfl, rfl, rfl, rfl⟩
  | stale => exact ⟨_, rfl, rfl, rfl, rfl⟩
  | voided => exact ⟨_, rfl, rfl, rfl, rfl⟩

/-- **What a record has been checked for.** -/
structure Checked (p : M3Config) (forks : ForkTable) (d : Draft) (m : M3State) (i : ℕ)
    (v : IndexedVerdict) (job : Job) (slot : ℕ) : Prop where
  queued : m.queue[i]? = some job
  index : v.queueIndex.toNat = job.queueIndex
  hash : v.record.commitHash = job.key.2
  kind : v.record.kind = job.kind
  reason : ReasonValid v.record.outcome v.record.reason
  quarantine : job.key ∈ m.quarantineVoids →
    v.record.outcome = .void ∧ v.record.reason = quarantineVoid
  epoch : gateEpoch p forks job = .ok v.record.gateEpoch.toNat
  problem : ∃ P, d.problems[job.key.1]? = some P ∧ P.slot = slot

theorem checkRecord_eq_ok {job : Job × ℕ} (hc : checkRecord p forks d m offset v = .ok job) :
    Checked p forks d m (m.nextApplied + offset) v job.1 job.2 := by
  simp only [checkRecord, bind_eq_ok, okOr_eq_ok, checkedAdd_eq_some, ensure_eq_ok, mapErr_eq_ok,
    VerdictRecord.encode, validateReason, pure_eq_ok] at hc
  obtain ⟨_, ⟨-, rfl⟩, job, hjob, _, ⟨hindex, hhash, hkind⟩, _, ⟨_, hreason, -⟩, _, hq, epoch,
    hepoch, _, rfl, P, hP, fuel, -, _, -, rfl⟩ := hc
  exact ⟨hjob, hindex, hhash, hkind, hreason, hq, hepoch, P, hP, rfl⟩

/-- One turn of the loop. -/
structure Examined (c : Config) (p : M3Config) (cap h : ℕ) (forks : ForkTable) (acc : Due)
    (v : IndexedVerdict) (offset : ℕ) (acc' : Due) (m : M3State) (job : Job) (slot due : ℕ)
    (next : FuelClock) : Prop where
  m3 : acc.draft.m3 = some m
  checked : Checked p forks acc.draft m (m.nextApplied + offset) v job slot
  push : acc.clock.push p cap job.avail v.record.fuel.toNat = .ok (due, next)
  clock : acc'.clock = next
  result : (due = h ∧ acc'.applied = acc.applied ++ [v] ∧
      applyRecord c p acc.draft h slot job v next = .ok acc'.draft) ∨
    (h < due ∧ acc'.applied = acc.applied ∧ acc'.draft = acc.draft)

theorem examine_eq_ok (he : examine c p cap h forks acc (v, offset) = .ok acc') :
    ∃ m job slot due next, Examined c p cap h forks acc v offset acc' m job slot due next := by
  simp only [examine, bind_eq_ok, m3State_eq_ok, mapErr_eq_ok, ensure_eq_ok] at he
  obtain ⟨m, hm, job, hjob, ⟨due, next⟩, hpush, _, hle, he⟩ := he
  suffices hresult : acc'.clock = next ∧ _ from
    ⟨m, job.1, job.2, due, next, hm, checkRecord_eq_ok hjob, hpush, hresult.1, hresult.2⟩
  split_ifs at he with hdue
  · simp only [bind_eq_ok, pure_eq_ok] at he
    obtain ⟨draft, hdraft, rfl⟩ := he
    exact ⟨rfl, .inl ⟨hdue, rfl, hdraft⟩⟩
  · obtain rfl := Except.ok.inj he
    exact ⟨rfl, .inr ⟨Nat.lt_of_le_of_ne hle (Ne.symm hdue), rfl, rfl⟩⟩

/-- Once a record is due later, so are all after it. -/
theorem examine_foldlM_later {xs : List (IndexedVerdict × ℕ)} (hlate : h < acc.clock.due)
    (he : xs.foldlM (examine c p cap h forks) acc = .ok acc') :
    acc'.draft = acc.draft ∧ acc'.applied = acc.applied := by
  induction xs generalizing acc with
  | nil =>
    obtain rfl := Except.ok.inj he
    exact ⟨rfl, rfl⟩
  | cons x xs ih =>
    rw [List.foldlM_cons, bind_eq_ok] at he
    obtain ⟨acc₁, h₁, he⟩ := he
    obtain ⟨m, job, slot, due, next, hx⟩ := examine_eq_ok h₁
    have hpush := FuelClock.push_eq_ok hx.push
    have hdue : h < due := hlate.trans_le hpush.mono
    have hlate₁ : h < acc₁.clock.due := by rw [hx.clock, hpush.due_eq]; exact hdue
    obtain ⟨hdraft, happlied⟩ := ih hlate₁ he
    rcases hx.result with ⟨rfl, -, -⟩ | ⟨-, happlied₁, hdraft₁⟩
    · exact absurd hdue (lt_irrefl _)
    · exact ⟨hdraft.trans hdraft₁, happlied.trans happlied₁⟩

/-- Where a loop has applied all its records, the first one was due, and the rest was applied after
it. -/
theorem examine_applied {now : List IndexedVerdict} {mid : Due}
    (hloop : ((v :: now).zipIdx offset).foldlM (examine c p cap h forks) acc = .ok mid)
    (happlied : mid.applied = acc.applied ++ v :: now) : ∃ acc₁ m job slot next,
      Examined c p cap h forks acc v offset acc₁ m job slot h next ∧
      applyRecord c p acc.draft h slot job v next = .ok acc₁.draft ∧
      (now.zipIdx (offset + 1)).foldlM (examine c p cap h forks) acc₁ = .ok mid ∧
      mid.applied = acc₁.applied ++ now := by
  rw [List.zipIdx_cons, List.foldlM_cons, bind_eq_ok] at hloop
  obtain ⟨acc₁, h₁, hloop⟩ := hloop
  obtain ⟨m, job, slot, due, next, hx⟩ := examine_eq_ok h₁
  rcases hx.result with ⟨rfl, happlied₁, happly⟩ | ⟨hdue, happlied₁, -⟩
  · exact ⟨acc₁, m, job, slot, next, hx, happly, hloop,
      by rw [happlied, happlied₁, List.append_assoc, List.singleton_append]⟩
  · -- a record that is due later would leave the rest unapplied
    have hlate : h < acc₁.clock.due := by
      rw [hx.clock, (FuelClock.push_eq_ok hx.push).due_eq]
      exact hdue
    obtain ⟨-, hfinal⟩ := examine_foldlM_later hlate hloop
    have := congrArg List.length (hfinal.symm.trans happlied)
    rw [happlied₁, List.length_append, List.length_cons] at this
    omega

/-- **The records split into those due now and the rest.**  `mid` is the loop after the first. -/
structure Splits (c : Config) (p : M3Config) (cap h : ℕ) (forks : ForkTable) (acc : Due)
    (offset : ℕ) (now later : List IndexedVerdict) (mid acc' : Due) : Prop where
  loop : (now.zipIdx offset).foldlM (examine c p cap h forks) acc = .ok mid
  applied : mid.applied = acc.applied ++ now
  draft_eq : acc'.draft = mid.draft
  applied_eq : acc'.applied = mid.applied
  later : ∀ v ∈ later.head?, ∃ m job slot due next, mid.draft.m3 = some m ∧
    Checked p forks mid.draft m (m.nextApplied + (offset + now.length)) v job slot ∧
    mid.clock.push p cap job.avail v.record.fuel.toNat = .ok (due, next) ∧ h < due

theorem examine_foldlM_splits {xs : List IndexedVerdict}
    (he : (xs.zipIdx offset).foldlM (examine c p cap h forks) acc = .ok acc') :
    ∃ now later mid, xs = now ++ later ∧ Splits c p cap h forks acc offset now later mid acc' := by
  induction xs generalizing offset acc with
  | nil => exact ⟨[], [], acc', rfl, he, by
      obtain rfl := Except.ok.inj he
      simp, rfl, rfl, by simp⟩
  | cons x xs ih =>
    rw [List.zipIdx_cons, List.foldlM_cons, bind_eq_ok] at he
    obtain ⟨acc₁, h₁, he⟩ := he
    obtain ⟨m, job, slot, due, next, hx⟩ := examine_eq_ok h₁
    rcases hx.result with ⟨hdue, happlied, -⟩ | ⟨hdue, happlied, hdraft⟩
    · obtain ⟨now, later, mid, rfl, hs⟩ := ih he
      refine ⟨x :: now, later, mid, rfl, ?_, ?_, hs.draft_eq, hs.applied_eq, ?_⟩
      · rw [List.zipIdx_cons, List.foldlM_cons, h₁]
        exact hs.loop
      · rw [hs.applied, happlied, List.append_assoc, List.singleton_append]
      · intro v hv
        have := hs.later v hv
        rwa [List.length_cons, ← Nat.add_assoc, Nat.add_right_comm]
    · have hlate : h < acc₁.clock.due := by
        rw [hx.clock, (FuelClock.push_eq_ok hx.push).due_eq]
        exact hdue
      obtain ⟨hdraft', happlied'⟩ := examine_foldlM_later hlate he
      refine ⟨[], x :: xs, acc, rfl, rfl, by simp, hdraft'.trans hdraft,
        happlied'.trans happlied, ?_⟩
      rintro v ⟨⟩
      exact ⟨m, job, slot, due, next, hx.m3, hx.checked, hx.push, hdue⟩

/-- A record among those due now is due at this height. -/
theorem Splits.due {mid : Due} {now rest later : List IndexedVerdict} {x : IndexedVerdict}
    (hs : Splits c p cap h forks acc offset (now ++ x :: rest) later mid acc') :
    ∃ mid₁ m job slot next, (now.zipIdx offset).foldlM (examine c p cap h forks) acc = .ok mid₁ ∧
      mid₁.draft.m3 = some m ∧
      Checked p forks mid₁.draft m (m.nextApplied + (offset + now.length)) x job slot ∧
      mid₁.clock.push p cap job.avail x.record.fuel.toNat = .ok (h, next) := by
  have hloop := hs.loop
  rw [List.zipIdx_append, List.foldlM_append, bind_eq_ok] at hloop
  obtain ⟨mid₁, h₁, hloop⟩ := hloop
  rw [List.zipIdx_cons, List.foldlM_cons, bind_eq_ok] at hloop
  obtain ⟨acc₁, hx, hrest⟩ := hloop
  obtain ⟨m, job, slot, due, next, hx⟩ := examine_eq_ok hx
  refine ⟨mid₁, m, job, slot, next, h₁, hx.m3, hx.checked, ?_⟩
  rcases hx.result with ⟨rfl, -, -⟩ | ⟨hdue, happlied, -⟩
  · exact hx.push
  · -- otherwise nothing from `x` on would have been applied
    have hlate : h < acc₁.clock.due := by
      rw [hx.clock, (FuelClock.push_eq_ok hx.push).due_eq]
      exact hdue
    obtain ⟨-, hfinal⟩ := examine_foldlM_later hlate hrest
    obtain ⟨now', later', mid', hsplit, hs'⟩ := examine_foldlM_splits h₁
    have hlen : mid₁.applied.length ≤ acc.applied.length + now.length := by
      rw [hs'.applied_eq, hs'.applied, List.length_append, hsplit, List.length_append]
      omega
    have := congrArg List.length hs.applied
    rw [hfinal, happlied, List.length_append, List.length_append, List.length_cons] at this
    omega

/-- The loop keeps the queue, its cursor and the slots. -/
theorem examine_foldlM_queue {xs : List (IndexedVerdict × ℕ)}
    (he : xs.foldlM (examine c p cap h forks) acc = .ok acc') (hm : acc.draft.m3 = some m) :
    ∃ m', acc'.draft.m3 = some m' ∧ m'.queue = m.queue ∧ m'.nextApplied = m.nextApplied := by
  refine foldlM_invariant (fun acc : Due => ∃ m', acc.draft.m3 = some m' ∧ m'.queue = m.queue ∧
    m'.nextApplied = m.nextApplied) (fun acc x acc₁ _ hacc hx => ?_) ⟨m, hm, rfl, rfl⟩ he
  obtain ⟨m₁, hm₁, hqueue, hnext⟩ := hacc
  obtain ⟨m₂, job, slot, due, next, hx⟩ := examine_eq_ok hx
  rcases hx.result with ⟨-, -, happly⟩ | ⟨-, -, hdraft⟩
  · obtain ⟨m₃, l, P, new, hm₃, -, -, -, ha⟩ := applyRecord_eq_ok happly
    obtain rfl := Option.mem_unique hm₁ hm₃
    obtain ⟨m', hm', hqueue', hnext', -⟩ := ha.queue
    exact ⟨m', hm', hqueue'.trans hqueue, hnext'.trans hnext⟩
  · exact ⟨m₁, hdraft ▸ hm₁, hqueue, hnext⟩

/-- **What `apply_due` does:** it applies the records that are due and advances the cursor past
them.  When no record is left over, the next job is certainly not due. -/
structure DueApplied (c : Config) (d : Draft) (h : ℕ) (records : List IndexedVerdict)
    (forks : ForkTable) (p : M3Config) (m : M3State) (cap : ℕ) (now later : List IndexedVerdict)
    (mid acc : Due) (m' : M3State) (d' : Draft) : Prop where
  profile : c.m3 = some p
  m3 : d.m3 = some m
  capacity : checkedMul 64 c.qMax c.vPerDeposit = some cap
  records : records = now ++ later
  splits : Splits c p cap h forks ⟨d, m.clock, []⟩ 0 now later mid acc
  pending : later = [] → ∀ job, m.queue[m.nextApplied + now.length]? = some job →
    h < job.avail + p.k
  m3_mid : mid.draft.m3 = some m'
  queue : m'.queue = m.queue
  next : m'.nextApplied = m.nextApplied
  result : d' = mid.draft.setM3 { m' with nextApplied := m.nextApplied + now.length }

theorem applyDue_eq_ok {d' : Draft} {records applied : List IndexedVerdict}
    (hd : applyDue c d h records forks = .ok (d', applied)) :
    ∃ p m cap later mid acc m',
      DueApplied c d h records forks p m cap applied later mid acc m' d' := by
  simp only [applyDue, bind_eq_ok, okOr_eq_ok, m3State_eq_ok] at hd
  obtain ⟨p, hp, m, hm, cap, hcap, acc, hloop, m', hm', _, hexamined, hd⟩ := hd
  obtain ⟨now, later, mid, hrecords, hs⟩ := examine_foldlM_splits hloop
  obtain ⟨m₂, hm₂, hqueue, hnext⟩ := examine_foldlM_queue hs.loop hm
  have happlied : acc.applied = now := by rw [hs.applied_eq, hs.applied, List.nil_append]
  rw [hs.draft_eq] at hm'
  obtain rfl := Option.mem_unique hm₂ hm'
  rw [checkedAdd_eq_some] at hexamined
  obtain ⟨-, rfl⟩ := hexamined
  have hpending : later = [] → ∀ job, m.queue[m.nextApplied + now.length]? = some job →
      h < job.avail + p.k := by
    rintro rfl job hjob
    have hlen : ¬acc.applied.length < records.length := by
      rw [happlied, hrecords, List.append_nil]
      exact lt_irrefl _
    rw [if_neg hlen, bind_eq_ok] at hd
    obtain ⟨_, hpending, -⟩ := hd
    rw [hrecords, List.append_nil, hnext] at hpending
    simp only [checkPending, hqueue, hjob, bind_eq_ok, okOr_eq_ok, checkedAdd_eq_some,
      ensure_eq_ok] at hpending
    obtain ⟨_, ⟨-, rfl⟩, hlt⟩ := hpending
    exact hlt
  have hresult : acc.draft.setM3 { m₂ with nextApplied := m.nextApplied + now.length } = d' ∧
      acc.applied = applied := by
    rw [happlied, hnext] at hd
    split at hd
    all_goals
      simp only [bind_eq_ok, okOr_eq_ok, checkedAdd_eq_some, pure_eq_ok, Prod.mk.injEq] at hd
    · obtain ⟨_, ⟨-, rfl⟩, hd', happlied'⟩ := hd
      exact ⟨hd', happlied.trans happlied'⟩
    · obtain ⟨_, -, _, ⟨-, rfl⟩, hd', happlied'⟩ := hd
      exact ⟨hd', happlied.trans happlied'⟩
  obtain ⟨rfl, rfl⟩ := hresult
  rw [happlied]
  exact ⟨p, m, cap, later, mid, acc, m₂, hp, hm, hcap, hrecords, hs, hpending, hm₂, hqueue, hnext,
    by rw [hs.draft_eq]⟩

end Draft

end Derivation
