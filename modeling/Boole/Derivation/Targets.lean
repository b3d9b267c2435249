import Boole.Derivation.Jobs

/-!
# Derivation/Targets — every job in the queue can be judged

A job is queued for the status its candidate has at that time and judged some heights later.  **When
no kernel fix rechecks a candidate that has passed or still waits for a recheck** (`Clear`), the
target of a job only moves between statuses that some record may be applied to (`Fit`), so the queue
never comes to a standstill.  A candidate that has passed may be superseded while it waits for its
recheck, and no record may be applied to it then (`Reached.deadlocked`).
-/

open Std Library Relation

namespace Derivation

/-- No kernel fix of this step rechecks a candidate for which a recheck is still to be applied, nor one
that has passed. -/
def Clear (s : State) (i : StepInput) : Prop :=
  Apart s i ∧ ∀ row ∈ i.forks.rows, row.height = i.l1.number → row.kind = .kernelFix → ∀ m ∈ s.m3,
    ∀ e ∈ s.candidates.toList, e.2.status = .passed → ¬Rechecked s m row.epoch e.1

instance (s : State) (i : StepInput) : Decidable (Clear s i) :=
  inferInstanceAs (Decidable (_ ∧ ∀ row ∈ i.forks.rows, _))


/-! ## Targets -/

/-- A status that a verdict may be applied to. -/
def Status.awaits (v : Status) : Prop := v = .checking ∨ v = .superseded ∨ v = .void

/-- **The target of a job has a status that some record may be applied to.** -/
structure Fit (s : State) (m : M3State) (job : Job) : Prop where
  verdict : job.kind = .verdict → ∃ v, s.statusOf job.key = some v ∧ v.awaits
  recheck : job.kind = .recheck → s.statusOf job.key = some .accepted ∨
    s.statusOf job.key = some .rejected ∧
      ∃ r, m.results[job.key]? = some r ∧ r.reason = kernelFault

/-- The jobs from `n` on: all have fit targets, no candidate has two, and a candidate in quarantine
waits for a verdict. -/
structure Targets (s : State) (m : M3State) (n : ℕ) : Prop where
  fit : ∀ (j : ℕ) (job : Job), n ≤ j → m.queue[j]? = some job → Fit s m job
  distinct : ∀ (j : ℕ) (job : Job) (j' : ℕ) (job' : Job), n ≤ j → n ≤ j' →
    m.queue[j]? = some job → m.queue[j']? = some job' → job.key = job'.key → j = j'
  voids : ∀ key ∈ m.quarantineVoids, ∃ (j : ℕ) (job : Job), n ≤ j ∧ m.queue[j]? = some job ∧
    job.kind = .verdict ∧ job.key = key

section Moves

variable {cr : Crypto} {c : Config} {p : M3Config} {cap h n : ℕ} {mix : Hash} {forks : ForkTable}
  {s s' : State} {m m' : M3State} {job : Job}

/-- A target may be superseded or voided while it waits for a verdict; one that was judged stays. -/
theorem Fit.of_status (hf : Fit s m job)
    (hwait : ∀ v : Status, v.awaits → s.statusOf job.key = some v →
      ∃ w, s'.statusOf job.key = some w ∧ w.awaits)
    (hdone : ∀ v : Status, v = .accepted ∨ v = .rejected → s.statusOf job.key = some v →
      s'.statusOf job.key = some v)
    (hresults : m'.results[job.key]? = m.results[job.key]?) : Fit s' m' job where
  verdict hkind := by
    obtain ⟨v, hv, hawaits⟩ := hf.verdict hkind
    exact hwait v hawaits hv
  recheck hkind := by
    rw [hresults]
    exact (hf.recheck hkind).imp (hdone _ (.inl rfl)) (.imp_left (hdone _ (.inr rfl)))

/-- A target has been judged, or waits for a verdict. -/
theorem Fit.status (hf : Fit s m job) :
    ∃ v, s.statusOf job.key = some v ∧ (v.awaits ∨ v = .accepted ∨ v = .rejected) := by
  cases hkind : job.kind with
  | verdict =>
    obtain ⟨v, hv, hawaits⟩ := hf.verdict hkind
    exact ⟨v, hv, .inl hawaits⟩
  | recheck =>
    rcases hf.recheck hkind with hv | ⟨hv, -⟩
    · exact ⟨_, hv, .inr (.inl rfl)⟩
    · exact ⟨_, hv, .inr (.inr rfl)⟩

theorem Fit.congr (hf : Fit s m job) {x : Job} (hkey : job.key = x.key) (hkind : job.kind = x.kind)
    (hresults : m'.results = m.results) : Fit s m' x := by
  refine ⟨fun hverdict => ?_, fun hrecheck => ?_⟩
  · rw [← hkey]
    exact hf.verdict (hkind.trans hverdict)
  · rw [← hkey, hresults]
    exact hf.recheck (hkind.trans hrecheck)

/-- No job moves. -/
theorem Targets.of_fit (ht : Targets s m n) (hqueue : m'.queue = m.queue)
    (hvoids : m'.quarantineVoids = m.quarantineVoids)
    (hfit : ∀ job, Fit s m job → Fit s' m' job) : Targets s' m' n where
  fit j job hn hjob := hfit job (ht.fit j job hn (hqueue ▸ hjob))
  distinct j job j' job' := by
    rw [hqueue]
    exact ht.distinct j job j' job'
  voids key hkey := by
    rw [hqueue]
    exact ht.voids key (hvoids ▸ hkey)

theorem Targets.of_eq (ht : Targets s m n) (hstatus : ∀ k, s'.statusOf k = s.statusOf k)
    (hqueue : m'.queue = m.queue) (hvoids : m'.quarantineVoids = m.quarantineVoids)
    (hresults : m'.results = m.results) : Targets s' m' n :=
  ht.of_fit hqueue hvoids fun job hf => hf.of_status
    (fun v hawaits hv => ⟨v, (hstatus _).trans hv, hawaits⟩) (fun _ _ hv => (hstatus _).trans hv)
    (by rw [hresults])

/-- The record for the first job is applied. -/
theorem Targets.applied (ht : Targets s m n) (hjob : m.queue[n]? = some job)
    (hqueue : m'.queue = m.queue) (hvoids : m'.quarantineVoids = m.quarantineVoids.erase job.key)
    (hfit : ∀ x, job.key ≠ x.key → Fit s m x → Fit s' m' x) : Targets s' m' (n + 1) where
  fit j x hn hx := by
    rw [hqueue] at hx
    have hn := Nat.le_of_succ_le hn
    refine hfit x (fun heq => ?_) (ht.fit j x hn hx)
    have := ht.distinct n job j x le_rfl hn hjob hx heq
    omega
  distinct j x j' x' hn hn' := by
    rw [hqueue]
    exact ht.distinct j x j' x' (Nat.le_of_succ_le hn) (Nat.le_of_succ_le hn')
  voids key hkey := by
    rw [hvoids, ExtTreeSet.mem_erase] at hkey
    obtain ⟨hne, hkey⟩ := hkey
    obtain ⟨j, x, hn, hx, hkind, rfl⟩ := ht.voids key hkey
    refine ⟨j, x, Nat.lt_of_le_of_ne hn fun heq => hne ?_, hqueue ▸ hx, hkind, rfl⟩
    subst heq
    rw [Option.mem_unique hjob hx]
    exact LawfulEqCmp.compare_eq_iff_eq.mpr rfl

/-- Jobs for candidates that have none are queued. -/
theorem Targets.queued (ht : Targets s m n) {jobs : List Job}
    (hqueue : m'.queue = m.queue ++ jobs) (hvoids : m'.quarantineVoids = m.quarantineVoids)
    (hold : ∀ job, Fit s m job → Fit s' m' job) (hnew : ∀ job ∈ jobs, Fit s' m' job)
    (hnodup : (jobs.map (·.key)).Nodup)
    (hapart : ∀ (j : ℕ) (job : Job), n ≤ j → m.queue[j]? = some job → job.key ∉ jobs.map (·.key)) :
    Targets s' m' n where
  fit j job hn hjob := by
    rw [hqueue] at hjob
    rcases getElem?_append_job hjob with hjob | ⟨-, hjob⟩
    · exact hold job (ht.fit j job hn hjob)
    · exact hnew job (List.mem_of_getElem? hjob)
  distinct j job j' job' hn hn' hjob hjob' heq := by
    rw [hqueue] at hjob hjob'
    rcases getElem?_append_job hjob with hjob | ⟨hle, hjob⟩ <;>
      rcases getElem?_append_job hjob' with hjob' | ⟨hle', hjob'⟩
    · exact ht.distinct j job j' job' hn hn' hjob hjob' heq
    · exact absurd (heq ▸ List.mem_map_of_mem (List.mem_of_getElem? hjob')) (hapart j job hn hjob)
    · exact absurd (heq ▸ List.mem_map_of_mem (List.mem_of_getElem? hjob)) (hapart j' job' hn' hjob')
    · have hkey : (jobs.map (·.key))[j - m.queue.length]? = some job.key := by
        rw [List.getElem?_map, hjob]
        rfl
      have hkey' : (jobs.map (·.key))[j' - m.queue.length]? = some job'.key := by
        rw [List.getElem?_map, hjob']
        rfl
      have hlt := (List.getElem?_eq_some_iff.mp hkey).1
      have hsame := (List.getElem?_inj hlt hnodup).mp (hkey.trans (heq ▸ hkey'.symm))
      omega
  voids key hkey := by
    obtain ⟨j, job, hn, hjob, hkind, hk⟩ := ht.voids key (hvoids ▸ hkey)
    have hlt := (List.getElem?_eq_some_iff.mp hjob).1
    exact ⟨j, job, hn, by rw [hqueue, List.getElem?_append_left hlt, hjob], hkind, hk⟩

/-- What a quarantine adds to the list of voids waits for a verdict. -/
theorem Draft.QuarantineRun.voids {epoch : ℕ} {items : List ForkItem}
    (hq : Draft.QuarantineRun s epoch m items m') {key : Key} (hkey : key ∈ m'.quarantineVoids) :
    key ∈ m.quarantineVoids ∨ ∃ (j : ℕ) (job : Job), m.nextApplied ≤ j ∧
      m.queue[j]? = some job ∧ job.kind = .verdict ∧ job.key = key := by
  induction hq with
  | nil => exact .inl hkey
  | @cons m m₁ m' item items i job hq _ ih =>
    have hone := (Draft.QuarantineRun.cons hq (.nil m₁)).queue
    rcases ih hkey with hkey | ⟨j, new, hn, hnew, hkind, hk⟩
    · rw [hq.result] at hkey
      split at hkey
      · rw [ExtTreeSet.mem_insert, LawfulEqCmp.compare_eq_iff_eq] at hkey
        exact hkey.symm.imp_right fun hk => ⟨i, job, hq.waiting, hq.queued, hq.verdict, hk⟩
      · exact .inl (ExtTreeSet.mem_of_mem_erase hkey)
    · obtain ⟨e, he⟩ := hone j
      rw [he] at hnew
      obtain ⟨old, hold, rfl⟩ := Option.map_eq_some_iff.mp hnew
      refine .inr ⟨j, old, ?_, hold, hkind, hk⟩
      rw [hq.result] at hn
      exact hn

/-- A quarantine keeps the targets. -/
theorem Draft.QuarantineRun.targets {epoch : ℕ} {items : List ForkItem}
    (hq : Draft.QuarantineRun s epoch m items m') (ht : Targets s m m.nextApplied) :
    Targets s m' m.nextApplied := by
  have hjobs {j : ℕ} {x : Job} (hx : m'.queue[j]? = some x) :
      ∃ old, m.queue[j]? = some old ∧ old.key = x.key ∧ old.kind = x.kind := by
    obtain ⟨e, he⟩ := hq.queue j
    rw [he] at hx
    obtain ⟨old, hold, rfl⟩ := Option.map_eq_some_iff.mp hx
    exact ⟨old, hold, rfl, rfl⟩
  have hback {j : ℕ} {old : Job} (hold : m.queue[j]? = some old) :
      ∃ x, m'.queue[j]? = some x ∧ x.key = old.key ∧ x.kind = old.kind := by
    obtain ⟨e, he⟩ := hq.queue j
    rw [hold] at he
    exact ⟨_, he, rfl, rfl⟩
  refine ⟨fun j x hn hx => ?_, fun j x j' x' hn hn' hx hx' heq => ?_, fun key hkey => ?_⟩
  · obtain ⟨old, hold, hkey, hkind⟩ := hjobs hx
    exact (ht.fit j old hn hold).congr hkey hkind (by rw [hq.frame])
  · obtain ⟨old, hold, hkey, -⟩ := hjobs hx
    obtain ⟨old', hold', hkey', -⟩ := hjobs hx'
    exact ht.distinct j old j' old' hn hn' hold hold' (hkey.trans (heq.trans hkey'.symm))
  · obtain ⟨j, old, hn, hold, hkind, hk⟩ := (hq.voids hkey).elim (ht.voids key) id
    obtain ⟨x, hx, hkey', hkind'⟩ := hback hold
    exact ⟨j, x, hn, hx, hkind'.trans hkind, hkey'.trans hk⟩

/-- What a kernel fix rechecks in a step that is clear has been judged. -/
theorem Clear.fit {i : StepInput} (hi : Clear s i) (hm : s.m3 = some m) {keys : List Key}
    (hkeys : i.forks.recheckSet s i.l1.number = .ok keys) (hjob : job.key ∈ keys)
    (hkind : job.kind = .recheck) : Fit s m job := by
  refine ⟨fun hverdict => (nomatch hverdict.symm.trans hkind), fun _ => ?_⟩
  obtain ⟨row, hrow, hheight, hfix, m', hm', hrechecked⟩ := (recheckSet_eq_ok hkeys).2 _ hjob
  obtain rfl := Option.mem_unique hm hm'
  obtain ⟨v, hv, r, hr, hepoch, hcases⟩ := id hrechecked
  rcases hcases with rfl | rfl | ⟨rfl, hfault⟩
  · exact .inl hv
  · obtain ⟨x, hx, hstatus⟩ := Option.map_eq_some_iff.mp hv
    exact absurd hrechecked (hi.2 row hrow hheight hfix m hm (job.key, x)
      (mem_toList_iff.mpr hx) hstatus)
  · exact .inr ⟨hv, r, hr, hfault⟩

theorem map_key_recheckJobs (h epoch start : ℕ) (keys : List Key) :
    (Draft.recheckJobs h epoch start keys).map (·.key) = keys := by
  rw [Draft.recheckJobs, List.map_map]
  exact List.zipIdx_map_fst start keys

theorem kind_of_mem_recheckJobs {epoch start : ℕ} {keys : List Key}
    (hjob : job ∈ Draft.recheckJobs h epoch start keys) : job.kind = .recheck := by
  obtain ⟨x, -, rfl⟩ := List.mem_map.mp hjob
  rfl

/-- **An activation that is clear queues rechecks of candidates that have been judged.** -/
theorem Draft.Activates.targets {i : StepInput} {d' : Draft}
    (ha : Draft.Activates cr i.l1.number i.forks { s with events := [] }
      (Draft.started i.forks m) d') (hi : Clear s i) (hm : s.m3 = some m)
    (ht : Targets s m m.nextApplied) :
    ∃ m', d'.m3 = some m' ∧ Targets d'.toState m' m.nextApplied := by
  have hframe := Draft.started_frame i.forks m
  generalize Draft.started i.forks m = m₁ at ha hframe
  have ht₁ : Targets s m₁ m.nextApplied := by rw [hframe]; exact ht.of_eq (fun _ => rfl) rfl rfl rfl
  have hnext : m₁.nextApplied = m.nextApplied := by rw [hframe]
  cases ha with
  | none => exact ⟨m₁, rfl, ht₁.of_eq (fun _ => rfl) rfl rfl rfl⟩
  | policy => exact ⟨_, rfl, ht₁.of_eq (fun _ => rfl) rfl rfl rfl⟩
  | @kernelFix row _ _ keys hkeys =>
    refine ⟨_, rfl, ht₁.queued rfl rfl (fun job hf => ?_) (fun job hjob => ?_) ?_ fun j job hn hjob => ?_⟩
    · exact hf.of_status (fun v hawaits hv => ⟨v, hv, hawaits⟩) (fun _ _ hv => hv) rfl
    · have hkey : job.key ∈ keys := by
        rw [← map_key_recheckJobs i.l1.number row.epoch m₁.queue.length keys]
        exact List.mem_map_of_mem hjob
      have hf := hi.fit hm hkeys hkey (kind_of_mem_recheckJobs hjob)
      exact hf.of_status (fun v hawaits hv => ⟨v, hv, hawaits⟩) (fun _ _ hv => hv)
        (by rw [hframe])
    · rw [map_key_recheckJobs]
      exact (recheckSet_eq_ok hkeys).1
    · rw [map_key_recheckJobs]
      intro hkey
      have hqueue : m₁.queue = m.queue := by rw [hframe]
      cases hkind : job.kind with
      | recheck => exact hi.1.notMem hm hkeys hn (hqueue ▸ hjob) hkind hkey
      | verdict =>
        -- a candidate that waits for a verdict has not been judged
        obtain ⟨v, hv, hawaits⟩ := (ht₁.fit j job hn hjob).verdict hkind
        obtain ⟨-, -, -, -, m', -, w, hw, r, -, -, hcases⟩ := (recheckSet_eq_ok hkeys).2 _ hkey
        obtain rfl : v = w := Option.mem_unique hv hw
        rcases hawaits with rfl | rfl | rfl <;> simp at hcases
  | quarantine _ _ hrun =>
    rw [← hnext] at ht₁ ⊢
    exact ⟨_, rfl, (hrun.targets ht₁).of_eq (fun _ => rfl) rfl rfl rfl⟩

/-- A record moves its own target; others that wait for a verdict may be voided. -/
theorem JudgeStep.targets {x x' : Draft × ℕ} (hj : JudgeStep cr c p cap h mix forks x x')
    (hx : ∃ m, x.1.m3 = some m ∧ Targets x.1.toState m x.2) :
    ∃ m, x'.1.m3 = some m ∧ Targets x'.1.toState m x'.2 := by
  obtain ⟨m, hm, ht⟩ := hx
  cases hj with
  | ties d => exact ⟨m, hm, ht.of_eq (ties_statusOf cr d h mix) rfl rfl rfl⟩
  | @apply d d' n v job _ l P new clock hj =>
    obtain rfl := Option.mem_unique hm hj.m3
    obtain ⟨m', told, evs, heffect, hm', -⟩ := hj.applies.m3 hj.status
    have hframe := heffect.frame
    refine ⟨_, hm', ht.applied hj.checked.queued ?_ ?_ fun y hne hf => hf.of_status ?_ ?_ ?_⟩
    · rw [hframe]
      rfl
    · rw [hframe]
      rfl
    · intro v hawaits hv
      rcases hj.applies.statusOf y.key with hsame | ⟨-, -, hvoid⟩
      · rw [if_neg hne] at hsame
        exact ⟨v, hsame.trans hv, hawaits⟩
      · exact ⟨.void, hvoid, .inr (.inr rfl)⟩
    · intro v hdone hv
      rcases hj.applies.statusOf y.key with hsame | ⟨-, hchecking, -⟩
      · rw [if_neg hne] at hsame
        exact hsame.trans hv
      · obtain rfl := Option.mem_unique hchecking hv
        simp at hdone
    · rw [hframe, Draft.recorded, getElem?_insert, if_neg hne]
  | advance hm' =>
    obtain rfl := Option.mem_unique hm hm'
    exact ⟨_, rfl, ht.of_eq (fun _ => rfl) rfl rfl rfl⟩

/-- A candidate that is completed gets its first job; the winner had none. -/
theorem BlockStep.targets {d d' : Draft} (hb : BlockStep cr c h mix d d') (htombs : Tombs d.toState)
    (hd : ∃ m, d.m3 = some m ∧ Targets d.toState m n) :
    ∃ m, d'.m3 = some m ∧ Targets d'.toState m n := by
  obtain ⟨m, hm, ht⟩ := hd
  rcases hb.quiet_or_accept htombs with hq | ⟨key, P, r, m₁, hw, hacc⟩
  · obtain ⟨jobs, hjobs, hm'⟩ := hq.m3 m hm
    have hold (job : Job) (hf : Fit d.toState m job) :
        Fit d'.toState { m with queue := m.queue ++ jobs } job :=
      hf.of_status (fun v hawaits hv => ⟨v, (hq.status job.key).waiting hawaits hv, hawaits⟩)
        (fun v hdone hv => ((hq.status job.key).judged (by tauto)).mpr hv) rfl
    refine ⟨_, hm', ht.queued rfl rfl hold ?_ ?_ ?_⟩
    · rcases hjobs with rfl | ⟨key, v, rfl, -, -, hchecking⟩
      · nofun
      · intro job hjob
        obtain rfl := List.mem_singleton.mp hjob
        exact ⟨fun _ => ⟨_, hchecking, .inl rfl⟩, nofun⟩
    · rcases hjobs with rfl | ⟨key, v, rfl, -⟩
      · exact .nil
      · exact List.nodup_singleton _
    · intro j job hn hjob
      rcases hjobs with rfl | ⟨key, v, rfl, hv, hyoung, -⟩
      · nofun
      · intro hkey
        obtain rfl : job.key = key := List.mem_singleton.mp hkey
        obtain ⟨w, hw, hcases⟩ := (ht.fit j job hn hjob).status
        obtain rfl := Option.mem_unique hv hw
        rcases hyoung with rfl | rfl <;> simp [Status.awaits] at hcases
  · obtain ⟨m', hm', hframe⟩ := hacc.m3 hm
    refine ⟨m', hm', ht.of_fit (by rw [hframe]) (by rw [hframe]) fun job hf => ?_⟩
    have hne : key ≠ job.key := by
      rintro rfl
      obtain ⟨v, hv, hcases⟩ := hf.status
      obtain rfl := Option.mem_unique hw.statusOf hv
      simp [Status.awaits] at hcases
    have hstatus := hacc.statusOf job.key
    rw [if_neg hne] at hstatus
    refine hf.of_status (fun v hawaits hv => ?_) (fun v hdone hv => ?_) (by rw [hframe])
    · rcases hstatus with hsame | ⟨-, -, -, hsuper⟩
      · exact ⟨v, hsame.trans hv, hawaits⟩
      · exact ⟨.superseded, hsuper, .inr (.inl rfl)⟩
    · rcases hstatus with hsame | ⟨-, -, hchecking | hpassed, -⟩
      · exact hsame.trans hv
      · obtain rfl := Option.mem_unique hchecking hv
        simp at hdone
      · obtain rfl := Option.mem_unique hpassed hv
        simp at hdone

end Moves

/-! ## No standstill -/

section Runs

variable {cr : Crypto} {c : Config} {gas : ℕ} {s : State} {m : M3State} {job : Job}

theorem targets_preserved (cr : Crypto) (c : Config) :
    Preserves cr c Clear (fun _ x => Tombs x.1.toState)
      fun _ x => ∃ m, x.1.m3 = some m ∧ Targets x.1.toState m x.2 where
  activate {s i st g} hi hf _ hs := by
    obtain ⟨m, hm, ht⟩ := hs
    obtain ⟨m₁, hm₁, hact⟩ := Draft.activate_eq_ok hf.activate
    obtain rfl := Option.mem_unique hm hm₁
    have hcursor : s.cursor = m.nextApplied := by
      rw [State.cursor, show s.m3 = some m from hm]
      rfl
    rw [hcursor] at ht ⊢
    exact hact.targets hi hm ht
  judge _ hj _ hx := hj.targets hx
  block hb ht hd := hb.targets ht hd
  vest hv _ hd := by
    obtain ⟨m, hm, ht⟩ := hd
    obtain ⟨p, m₁, m', rs, -, hm₁, hvests, rfl⟩ := Draft.vest_eq_ok hv
    obtain rfl := Option.mem_unique hm hm₁
    refine ⟨_, rfl, ht.of_eq (fun _ => rfl) ?_ ?_ ?_⟩ <;> rw [hvests.frame]
  close _ hd := by
    obtain ⟨m, hm, ht⟩ := hd
    exact ⟨m, hm, ht.of_eq (fun _ => rfl) rfl rfl rfl⟩

/-- An outcome and a reason that fit the head of the queue. -/
theorem Fit.exists_outcome (hf : Fit s m job)
    (hq : job.key ∈ m.quarantineVoids → job.kind = .verdict) :
    ∃ v outcome reason, s.statusOf job.key = some v ∧ ReasonValid outcome reason ∧
      (job.key ∈ m.quarantineVoids → outcome = .void ∧ reason = quarantineVoid) ∧
      ∀ compensation, (Draft.nextStatus job.kind v outcome (Draft.faulted m job.key v)
        compensation).isSome := by
  cases hkind : job.kind with
  | verdict =>
    obtain ⟨v, hv, hawaits⟩ := hf.verdict hkind
    refine ⟨v, .void, quarantineVoid, hv, by decide, fun _ => ⟨rfl, rfl⟩, fun _ => ?_⟩
    rcases hawaits with rfl | rfl | rfl <;> rfl
  | recheck =>
    have hfree : job.key ∉ m.quarantineVoids := fun hmem => nomatch (hq hmem).symm.trans hkind
    rcases hf.recheck hkind with hv | ⟨hv, r, hr, hfault⟩
    · exact ⟨_, .accept, 0, hv, rfl, fun hmem => absurd hmem hfree, fun _ => rfl⟩
    · refine ⟨_, .accept, 0, hv, rfl, fun hmem => absurd hmem hfree, fun _ => ?_⟩
      have hfaulted : Draft.faulted m job.key .rejected = true := by
        simp [Draft.faulted, hr, hfault]
      rw [hfaulted]
      rfl

/-- **No job in the queue is stuck** as long as no kernel fix rechecks a candidate that has passed or
waits for a recheck: every target has a status that some record may be applied to, and for the head
there is a record. -/
theorem Reached.jobs_fit {run : List (StepInput × Step)} (hr : Reached cr c gas Clear run s)
    (hm : s.m3 = some m) :
    (∀ job ∈ m.queue.drop m.nextApplied, ∃ v, s.statusOf job.key = some v ∧
      (job.kind = .verdict → v = .checking ∨ v = .superseded ∨ v = .void) ∧
      (job.kind = .recheck → v = .accepted ∨ v = .passed ∨ v = .rejected ∧
        ∃ r, m.results[job.key]? = some r ∧ r.reason = kernelFault)) ∧
    ∀ job, m.queue[m.nextApplied]? = some job → ∃ l outcome reason,
      s.candidates[job.key]? = some (.live l) ∧
      (job.key ∈ m.quarantineVoids → outcome = .void ∧ reason = quarantineVoid) ∧
      ∀ record : VerdictRecord, record.kind = job.kind → record.outcome = outcome →
        record.reason = reason → record.encode = .ok record.bytes ∧ ∀ P,
          (Draft.nextStatus record.kind l.status record.outcome (Draft.faulted m job.key l.status)
            (Draft.compensates m job.key l.status record P)).isSome := by
  have hkept := (tombs_kept cr c Clear).and (targets_preserved cr c)
  obtain ⟨p, hp⟩ := hr.profile hm
  obtain ⟨htombs, m', hm', ht⟩ := hr.invariant hkept fun s hs =>
    ⟨new_tombs hs, {}, State.new_m3 hs hp, by simp, by simp, by simp⟩
  obtain rfl := Option.mem_unique hm hm'
  have hcursor : s.cursor = m.nextApplied := by
    rw [State.cursor, hm]
    rfl
  rw [hcursor] at ht
  refine ⟨fun job hjob => ?_, fun job hjob => ?_⟩
  · obtain ⟨j, hj⟩ := List.mem_iff_getElem?.mp hjob
    rw [List.getElem?_drop] at hj
    have hf := ht.fit _ job (Nat.le_add_right _ _) hj
    cases hkind : job.kind with
    | verdict =>
      obtain ⟨v, hv, hawaits⟩ := hf.verdict hkind
      exact ⟨v, hv, fun _ => hawaits, (by simp)⟩
    | recheck =>
      rcases hf.recheck hkind with hv | ⟨hv, hfault⟩
      · exact ⟨_, hv, (by simp), fun _ => .inl rfl⟩
      · exact ⟨_, hv, (by simp), fun _ => .inr (.inr ⟨rfl, hfault⟩)⟩
  · have hf := ht.fit _ job le_rfl hjob
    obtain ⟨v, outcome, reason, hv, hreason, hq, hnext⟩ := hf.exists_outcome fun hmem => by
      obtain ⟨j, x, hn, hx, hkind, hkey⟩ := ht.voids _ hmem
      obtain rfl := ht.distinct _ job j x le_rfl hn hjob hx hkey.symm
      rw [← Option.mem_unique hx hjob]
      exact hkind
    obtain ⟨x, hx, rfl⟩ := Option.map_eq_some_iff.mp hv
    cases x with
    | tombstone w =>
      -- of a target more than its status is left
      obtain ⟨_, hstatus, hcases⟩ := hf.status
      obtain rfl := Option.mem_unique hv hstatus
      rcases htombs job.key w hx with rfl | rfl <;> simp [Candidate.status, Status.awaits] at hcases
    | live l =>
      refine ⟨l, outcome, reason, hx, hq, fun record hkind houtcome hvalid => ⟨?_, fun P => ?_⟩⟩
      · rw [VerdictRecord.encode, validateReason, houtcome, hvalid, ensure_of hreason]
        rfl
      · rw [hkind, houtcome]
        exact hnext _

end Runs

/-- A verdict waits at the head of the queue. -/
theorem Reached.jobs_fit_verdict : ∃ run s m job,
    Reached toyCrypto exampleConfig exampleGas Clear run s ∧ s.m3 = some m ∧
    m.queue[m.nextApplied]? = some job ∧ job.key = (0, Example.hash 0 1) ∧
    ∃ l, s.candidates[job.key]? = some (.live l) := by
  obtain ⟨run, s, hr, hjob⟩ := exists_reached_of_play toyCrypto exampleConfig exampleGas Clear
    (Example.winning.take 6) (fun x => decide (∃ m ∈ x.2.m3, ∃ job ∈ m.queue[m.nextApplied]?,
      job.key = (0, Example.hash 0 1))) (v := true) (by decide +kernel)
  obtain ⟨m, hm, job, hjob, hkey⟩ := decide_eq_true_eq.mp hjob
  obtain ⟨l, outcome, reason, hl, -⟩ := (hr.jobs_fit hm).2 job hjob
  exact ⟨run, s, m, job, hr, hm, hjob, hkey, l, hl⟩

namespace Example

/-- A fix of the kernel at height 8. -/
def oneFix : ForkTable := ⟨[⟨0, 0, 0, .genesis, []⟩, ⟨1, 8, 0, .kernelFix, []⟩]⟩

/-- The second of two solutions has passed when the fix queues its recheck, and the first one wins in
the same step. -/
def overtaken : List StepInput :=
  [⟨block 1, [pool], [], oneFix⟩, ⟨block 2, [], [], oneFix⟩, ⟨block 3, [problem], [], oneFix⟩,
    ⟨block 4, [commit 0 0 1, commit 1 0 2], [], oneFix⟩, ⟨block 5, [], [], oneFix⟩,
    ⟨block 6, reveal 0 0 2, [], oneFix⟩,
    ⟨block 7, reveal 0 0 1, [judge 0 .verdict 0 2 .accept 0 0], oneFix⟩,
    ⟨block 8, [], [judge 1 .verdict 0 1 .accept 0 1], oneFix⟩]

/-- The head of the queue is a recheck of a candidate in the given status. -/
def Heads (v : Status) (s : State) : Prop :=
  ∃ m ∈ s.m3, ∃ job ∈ m.queue[m.nextApplied]?, job.kind = .recheck ∧ s.statusOf job.key = some v

instance (v : Status) (s : State) : Decidable (Heads v s) :=
  inferInstanceAs (Decidable (∃ m ∈ s.m3, _))

end Example

/-- **A standstill:** the head of the queue is a recheck of a superseded candidate, and every record for
it is refused. -/
theorem Reached.deadlocked : ∃ run s m job,
    Reached toyCrypto exampleConfig exampleGas Free run s ∧ s.m3 = some m ∧
    m.queue[m.nextApplied]? = some job ∧ job.kind = .recheck ∧
    s.statusOf job.key = some .superseded ∧ ∀ (record : VerdictRecord) (P : Problem),
      record.kind = job.kind → Draft.nextStatus record.kind .superseded record.outcome
        (Draft.faulted m job.key .superseded)
        (Draft.compensates m job.key .superseded record P) = none := by
  obtain ⟨run, s, hr, hheads⟩ := exists_reached_of_play toyCrypto exampleConfig exampleGas Free
    Example.overtaken (fun x => decide (Example.Heads .superseded x.2)) (v := true)
    (by decide +kernel)
  obtain ⟨m, hm, job, hjob, hkind, hstatus⟩ := decide_eq_true_eq.mp hheads
  refine ⟨run, s, m, job, hr, hm, hjob, hkind, hstatus, fun record P hrecord => ?_⟩
  rw [hrecord, hkind]
  cases record.outcome <;> rfl

end Derivation
