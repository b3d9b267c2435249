import Mathlib.Data.List.ReduceOption
import Boole.Derivation.Statuses

/-!
# Derivation/Jobs — the rechecks that wait in the queue

A kernel fix queues a recheck for every candidate that an older gate has judged.  Before its record is
applied a second fix may queue a second recheck: the set of announced rechecks forgets the second when
the first is applied.  **As long as no fix rechecks a candidate that still waits for a recheck**
(`Apart`), a candidate never wins with a recheck outstanding (`Reached.winner_ahead`).
-/

open Std Library Relation

namespace Derivation

open Draft

variable {m : M3State} {epoch j : ℕ} {keys : List Key} {job : Job} {d d' : Draft}

/-! ## Rechecks -/

/-- Whether a kernel fix of an epoch rechecks a candidate. -/
def Rechecked (s : State) (m : M3State) (epoch : ℕ) (key : Key) : Prop :=
  ∃ v ∈ s.statusOf key, ∃ r ∈ m.results[key]?, r.gateEpoch.toNat < epoch ∧
    (v = .accepted ∨ v = .passed ∨ v = .rejected ∧ r.reason = kernelFault)

instance (s : State) (m : M3State) (epoch : ℕ) (key : Key) : Decidable (Rechecked s m epoch key) :=
  inferInstanceAs (Decidable (∃ v ∈ s.statusOf key, _))

/-- No kernel fix of this step rechecks a candidate for which a recheck is still to be applied. -/
def Apart (s : State) (i : StepInput) : Prop :=
  ∀ row ∈ i.forks.rows, row.height = i.l1.number → row.kind = .kernelFix → ∀ m ∈ s.m3,
    ∀ job ∈ m.queue.drop m.nextApplied, job.kind = .recheck → ¬Rechecked s m row.epoch job.key

instance (s : State) (i : StepInput) : Decidable (Apart s i) :=
  inferInstanceAs (Decidable (∀ row ∈ i.forks.rows, _))

theorem recheckEntry_eq_ok {key : Key} {x : Candidate} {e : ℕ × Key}
    (he : ForkTable.recheckEntry m epoch key x = .ok (some e)) : e.2 = key ∧
      ∃ r ∈ m.results[key]?, r.gateEpoch.toNat < epoch ∧ (x.status = .accepted ∨
        x.status = .passed ∨ x.status = .rejected ∧ r.reason = kernelFault) := by
  unfold ForkTable.recheckEntry at he
  dsimp only at he
  split_ifs at he with hstatus
  · simp only [bind_eq_ok, okOr_eq_ok] at he
    obtain ⟨r, hr, he⟩ := he
    split_ifs at he with hnew
    · cases he
    · simp only [bind_eq_ok, pure_eq_ok] at he
      obtain ⟨index, -, he⟩ := he
      obtain rfl := Option.some.inj he
      obtain ⟨hepoch, hfault⟩ := not_or.mp hnew
      refine ⟨rfl, r, hr, Nat.not_le.mp hepoch, ?_⟩
      rcases hstatus with hv | hv | hv
      · exact .inl hv
      · exact .inr (.inl hv)
      · exact .inr (.inr ⟨hv, not_not.mp fun hne => hfault ⟨hv, hne⟩⟩)
  · cases he

/-- The entries that a loop over the candidates keeps are candidates, in the same order. -/
theorem sublist_of_entries {l : List (Key × Candidate)} {found : List (Option (ℕ × Key))}
    (hfound : l.map (fun e => ForkTable.recheckEntry m epoch e.1 e.2) = found.map .ok) :
    (found.reduceOption.map (·.2)).Sublist (l.map (·.1)) := by
  induction l generalizing found with
  | nil =>
    obtain rfl : found = [] := by simpa using hfound.symm
    exact .slnil
  | cons e l ih =>
    cases found with
    | nil => simp at hfound
    | cons x found =>
      obtain ⟨hx, hrest⟩ := List.cons.inj hfound
      cases x with
      | none =>
        exact (ih hrest).cons _
      | some x =>
        rw [List.reduceOption_cons_of_some, List.map_cons, (recheckEntry_eq_ok hx).1]
        exact (ih hrest).cons_cons _

/-- **The recheck set holds only candidates that a kernel fix of the height rechecks, each once.** -/
theorem recheckSet_eq_ok {forks : ForkTable} {s : State} {h : ℕ}
    (hk : forks.recheckSet s h = .ok keys) : keys.Nodup ∧ ∀ key ∈ keys, ∃ row ∈ forks.rows,
      row.height = h ∧ row.kind = .kernelFix ∧ ∃ m ∈ s.m3, Rechecked s m row.epoch key := by
  unfold ForkTable.recheckSet at hk
  split at hk
  · obtain rfl := Except.ok.inj hk
    exact ⟨.nil, nofun⟩
  · rename_i row hrow
    simp only [bind_eq_ok, okOr_eq_ok, pure_eq_ok, mapM_eq_ok] at hk
    obtain ⟨m, hm, found, hfound, rfl⟩ := hk
    refine ⟨?_, fun key hkey => ⟨row, List.mem_of_find?_eq_some hrow, ?_⟩⟩
    · rw [((List.perm_insertionSort _ _).map _).nodup_iff]
      exact (sublist_of_entries hfound).nodup (nodup_fst_toList _)
    · have hfix := List.find?_some hrow
      rw [decide_eq_true_eq] at hfix
      refine ⟨hfix.1, hfix.2, m, hm, ?_⟩
      obtain ⟨e, he, rfl⟩ := List.mem_map.mp hkey
      rw [List.mem_insertionSort, List.reduceOption_mem_iff] at he
      have hmem : (.ok (some e) : Except Error _) ∈ found.map .ok := List.mem_map_of_mem he
      rw [← hfound] at hmem
      obtain ⟨x, hx, hentry⟩ := List.mem_map.mp hmem
      obtain ⟨hkey, r, hr, hepoch, hstatus⟩ := recheckEntry_eq_ok hentry
      rw [hkey]
      exact ⟨x.2.status, State.statusOf_of_getElem?
        (mem_toList_iff.mp hx), r, hr, hepoch, hstatus⟩

/-! ## Rechecks that are announced -/

/-- **The jobs from `n` on:** every recheck among them is announced, and no candidate has two. -/
structure Announced (m : M3State) (n : ℕ) : Prop where
  pending : ∀ (j : ℕ) (job : Job), n ≤ j → m.queue[j]? = some job → job.kind = .recheck →
    job.key ∈ m.pendingRechecks
  distinct : ∀ (j : ℕ) (job : Job) (j' : ℕ) (job' : Job), n ≤ j → n ≤ j' →
    m.queue[j]? = some job → m.queue[j']? = some job' → job.kind = .recheck →
    job'.kind = .recheck → job.key = job'.key → j = j'

section Moves

variable {cr : Crypto} {c : Config} {p : M3Config} {cap h n : ℕ} {mix : Hash} {forks : ForkTable}
  {m m' : M3State}

/-- The jobs keep their targets and kinds. -/
theorem Announced.of_jobs (ha : Announced m n)
    (hjobs : ∀ (j : ℕ) (job : Job), m'.queue[j]? = some job →
      ∃ old, m.queue[j]? = some old ∧ old.key = job.key ∧ old.kind = job.kind)
    (hpending : m'.pendingRechecks = m.pendingRechecks) : Announced m' n := by
  refine ⟨fun j job hn hjob hkind => ?_, fun j job j' job' hn hn' hjob hjob' hkind hkind' heq => ?_⟩
  · obtain ⟨old, hold, hkey, hk⟩ := hjobs j job hjob
    rw [hpending, ← hkey]
    exact ha.pending j old hn hold (hk.trans hkind)
  · obtain ⟨old, hold, hkey, hk⟩ := hjobs j job hjob
    obtain ⟨old', hold', hkey', hk'⟩ := hjobs j' job' hjob'
    exact ha.distinct j old j' old' hn hn' hold hold' (hk.trans hkind) (hk'.trans hkind')
      (hkey.trans (heq.trans hkey'.symm))

theorem Announced.of_eq (ha : Announced m n) (hqueue : m'.queue = m.queue)
    (hpending : m'.pendingRechecks = m.pendingRechecks) : Announced m' n :=
  ha.of_jobs (fun _ job hjob => ⟨job, hqueue ▸ hjob, rfl, rfl⟩) hpending

/-- A job of a queue to which jobs were appended. -/
theorem getElem?_append_job {q jobs : List Job} (hjob : (q ++ jobs)[j]? = some job) :
    q[j]? = some job ∨ q.length ≤ j ∧ jobs[j - q.length]? = some job := by
  by_cases hlt : j < q.length
  · exact .inl (List.getElem?_append_left hlt ▸ hjob)
  · have hle := Nat.le_of_not_lt hlt
    exact .inr ⟨hle, List.getElem?_append_right hle ▸ hjob⟩

/-- Verdict jobs are queued. -/
theorem Announced.verdicts (ha : Announced m n) {jobs : List Job}
    (hjobs : ∀ job ∈ jobs, job.kind = .verdict) :
    Announced { m with queue := m.queue ++ jobs } n := by
  have hold {j : ℕ} {job : Job} (hjob : (m.queue ++ jobs)[j]? = some job)
      (hkind : job.kind = .recheck) : m.queue[j]? = some job := by
    rcases getElem?_append_job hjob with hjob | ⟨-, hjob⟩
    · exact hjob
    · exact nomatch hkind.symm.trans (hjobs job (List.mem_of_getElem? hjob))
  exact ⟨fun j job hn hjob hkind => ha.pending j job hn (hold hjob hkind) hkind,
    fun j job j' job' hn hn' hjob hjob' hkind hkind' => ha.distinct j job j' job' hn hn'
      (hold hjob hkind) (hold hjob' hkind') hkind hkind'⟩

theorem getElem?_recheckJobs {start : ℕ}
    (hjob : (recheckJobs h epoch start keys)[j]? = some job) :
    ∃ key, keys[j]? = some key ∧ job = ⟨start + j, key, .recheck, h, some epoch⟩ := by
  rw [recheckJobs, List.getElem?_map, List.getElem?_zipIdx, Option.map_map,
    Option.map_eq_some_iff] at hjob
  obtain ⟨key, hkey, rfl⟩ := hjob
  exact ⟨key, hkey, rfl⟩

/-- Rechecks of candidates that wait for none are queued and announced. -/
theorem Announced.rechecks (ha : Announced m n) (hnodup : keys.Nodup) (hapart : ∀ (j : ℕ) (job :
      Job), n ≤ j → m.queue[j]? = some job → job.kind = .recheck → job.key ∉ keys)
    {pending : ExtTreeSet Key lexOrd.compare}
    (hpending : ∀ k, k ∈ pending ↔ k ∈ keys ∨ k ∈ m.pendingRechecks) {history : List ForkRow} :
    Announced { m with
      queue := m.queue ++ recheckJobs h epoch m.queue.length keys
      pendingRechecks := pending
      forkHistory := history } n := by
  have hcases {j : ℕ} {job : Job}
      (hjob : (m.queue ++ recheckJobs h epoch m.queue.length keys)[j]? = some job) :
      m.queue[j]? = some job ∨ m.queue.length ≤ j ∧ keys[j - m.queue.length]? = some job.key := by
    rcases getElem?_append_job hjob with hjob | ⟨hle, hjob⟩
    · exact .inl hjob
    · obtain ⟨key, hkey, rfl⟩ := getElem?_recheckJobs hjob
      exact .inr ⟨hle, hkey⟩
  refine ⟨fun j job hn hjob hkind => (hpending _).mpr ?_,
    fun j job j' job' hn hn' hjob hjob' hkind hkind' heq => ?_⟩
  · rcases hcases hjob with hjob | ⟨-, hkey⟩
    · exact .inr (ha.pending j job hn hjob hkind)
    · exact .inl (List.mem_of_getElem? hkey)
  · rcases hcases hjob with hjob | ⟨hle, hkey⟩ <;> rcases hcases hjob' with hjob' | ⟨hle', hkey'⟩
    · exact ha.distinct j job j' job' hn hn' hjob hjob' hkind hkind' heq
    · exact absurd (heq ▸ List.mem_of_getElem? hkey') (hapart j job hn hjob hkind)
    · exact absurd (heq ▸ List.mem_of_getElem? hkey) (hapart j' job' hn' hjob' hkind')
    · have hlt := (List.getElem?_eq_some_iff.mp hkey).1
      have hsame := (List.getElem?_inj hlt hnodup).mp (hkey.trans (heq ▸ hkey'.symm))
      omega

/-- The record for the first job is applied. -/
theorem Announced.applied (ha : Announced m n) (hjob : m.queue[n]? = some job)
    (hqueue : m'.queue = m.queue) (hpending : m'.pendingRechecks = if job.kind = .recheck then
      m.pendingRechecks.erase job.key else m.pendingRechecks) :
    Announced m' (n + 1) := by
  refine ⟨fun j x hn hx hkind => ?_, fun j x j' x' hn hn' hx hx' => ?_⟩ <;> rw [hqueue] at hx
  · have hx' := ha.pending j x (Nat.le_of_succ_le hn) hx hkind
    rw [hpending]
    split_ifs with hrecheck
    · rw [ExtTreeSet.mem_erase]
      refine ⟨fun heq => ?_, hx'⟩
      have hkey := LawfulEqCmp.compare_eq_iff_eq.mp heq
      have := ha.distinct n job j x le_rfl (Nat.le_of_succ_le hn) hjob hx hrecheck hkind hkey
      omega
    · exact hx'
  · rw [hqueue] at hx'
    exact ha.distinct j x j' x' (Nat.le_of_succ_le hn) (Nat.le_of_succ_le hn') hx hx'

theorem JudgeStep.announced {x x' : Draft × ℕ} (hj : JudgeStep cr c p cap h mix forks x x')
    (hx : ∃ m, x.1.m3 = some m ∧ Announced m x.2) : ∃ m, x'.1.m3 = some m ∧ Announced m x'.2 := by
  obtain ⟨m, hm, ha⟩ := hx
  cases hj with
  | ties => exact ⟨m, hm, ha⟩
  | apply hj =>
    obtain rfl := Option.mem_unique hm hj.m3
    obtain ⟨m', told, evs, heffect, hm', -⟩ := hj.applies.m3 hj.status
    refine ⟨_, hm', ha.applied hj.checked.queued ?_ ?_⟩ <;> rw [heffect.frame] <;> rfl
  | advance hm' =>
    obtain rfl := Option.mem_unique hm hm'
    exact ⟨_, rfl, ha.of_eq rfl rfl⟩

theorem BlockStep.announced (hb : BlockStep cr c h mix d d') (ht : Tombs d.toState)
    (hd : ∃ m, d.m3 = some m ∧ Announced m n) : ∃ m, d'.m3 = some m ∧ Announced m n := by
  obtain ⟨m, hm, ha⟩ := hd
  rcases hb.quiet_or_accept ht with hq | ⟨key, P, r, m₁, hw, hacc⟩
  · obtain ⟨jobs, hjobs, hm'⟩ := hq.m3 m hm
    refine ⟨_, hm', ha.verdicts fun job hjob => ?_⟩
    rcases hjobs with rfl | ⟨key, v, rfl, -⟩
    · exact nomatch hjob
    · rw [List.mem_singleton.mp hjob]
  · obtain ⟨m', hm', hframe⟩ := hacc.m3 hm
    refine ⟨m', hm', ha.of_eq ?_ ?_⟩ <;> rw [hframe]

/-- An activation announces the rechecks that it queues. -/
theorem Draft.Activates.announced (ha : Activates cr h forks d m d') (hm : Announced m n)
    (hapart : ∀ keys, forks.recheckSet d.toState h = .ok keys → ∀ (j : ℕ) (job : Job), n ≤ j →
      m.queue[j]? = some job → job.kind = .recheck → job.key ∉ keys) :
    ∃ m', d'.m3 = some m' ∧ Announced m' n := by
  cases ha with
  | none => exact ⟨m, rfl, hm⟩
  | policy => exact ⟨_, rfl, hm.of_eq rfl rfl⟩
  | kernelFix _ _ hkeys hpending =>
    exact ⟨_, rfl, hm.rechecks (recheckSet_eq_ok hkeys).1 (hapart _ hkeys) hpending⟩
  | quarantine _ _ hrun =>
    refine ⟨_, rfl, hm.of_jobs (fun j job hjob => ?_) (by rw [hrun.frame])⟩
    obtain ⟨e, he⟩ := hrun.queue j
    rw [he] at hjob
    obtain ⟨old, hold, rfl⟩ := Option.map_eq_some_iff.mp hjob
    exact ⟨old, hold, rfl, rfl⟩

end Moves

/-! ## The winner has no recheck outstanding -/

section Runs

variable {cr : Crypto} {c : Config} {gas : ℕ} {s : State} {i : StepInput} {st : Step} {g : Stages}

/-- What a kernel fix rechecks in a step that keeps rechecks apart. -/
theorem Apart.notMem (hi : Apart s i) (hm : s.m3 = some m)
    (hkeys : i.forks.recheckSet s i.l1.number = .ok keys) (hj : m.nextApplied ≤ j)
    (hjob : m.queue[j]? = some job) (hkind : job.kind = .recheck) :
    job.key ∉ keys := by
  intro hkey
  obtain ⟨row, hrow, hheight, hfix, m', hm', hrechecked⟩ := (recheckSet_eq_ok hkeys).2 _ hkey
  obtain rfl := Option.mem_unique hm hm'
  refine hi row hrow hheight hfix m hm job ?_ hkind hrechecked
  rw [List.mem_iff_getElem?]
  exact ⟨j - m.nextApplied, by rw [List.getElem?_drop, Nat.add_sub_cancel' hj, hjob]⟩

theorem announced_preserved (cr : Crypto) (c : Config) :
    Preserves cr c Apart (fun _ x => Tombs x.1.toState)
      fun _ x => ∃ m, x.1.m3 = some m ∧ Announced m x.2 where
  activate {s i st g} hi hf _ hs := by
    obtain ⟨m, hm, ha⟩ := hs
    obtain ⟨m₁, hm₁, hact⟩ := activate_eq_ok hf.activate
    obtain rfl := Option.mem_unique hm hm₁
    have hcursor : s.cursor = m.nextApplied := by
      rw [State.cursor, show s.m3 = some m from hm]
      rfl
    have hframe := started_frame i.forks m
    have hqueue : (started i.forks m).queue = m.queue := by rw [hframe]
    rw [hcursor] at ha ⊢
    refine hact.announced (ha.of_eq hqueue (by rw [hframe])) fun keys hkeys j job hj hjob hkind => ?_
    exact hi.notMem hm hkeys hj (hqueue ▸ hjob) hkind
  judge _ hj _ hx := hj.announced hx
  block hb ht hd := hb.announced ht hd
  vest hv _ hd := by
    obtain ⟨m, hm, ha⟩ := hd
    obtain ⟨p, m₁, m', rs, -, hm₁, hvests, rfl⟩ := vest_eq_ok hv
    obtain rfl := Option.mem_unique hm hm₁
    refine ⟨_, rfl, ha.of_eq ?_ ?_⟩ <;> rw [hvests.frame]
  close _ hd := hd

/-- **One turn of the loop of `settle` in a step that succeeds**, for the problem `q`. -/
structure SettleTurn (cr : Crypto) (c : Config) (s : State) (i : StepInput) (q : Hash)
    (d d' : Draft) : Prop where
  step : ∃ st, s.fold cr c i = .ok st
  before : ∃ opened inbox pre post,
    s.prepare cr c i.l1 (some (i.verdicts, i.forks)) = .ok opened ∧
    opened.1.foldItems cr c i.l1.number i.items = .ok inbox ∧
    inbox.draft.problems.toList.map (·.1) = pre ++ q :: post ∧
    pre.foldlM (Draft.settleProblem c i.l1.number) inbox.draft = .ok d
  turn : Draft.settleProblem c i.l1.number d q = .ok d'

/-- A turn of the loop starts in a draft that moves lead to. -/
theorem SettleTurn.moves {q : Hash} (hturn : SettleTurn cr c s i q d d') :
    ∃ st g, Folds cr c s i st g ∧
      ReflTransGen (BlockStep cr c i.l1.number i.l1.mix) g.judged d := by
  obtain ⟨st, hst⟩ := hturn.step
  obtain ⟨g, hf⟩ := State.fold_eq_ok hst
  obtain ⟨opened, inbox, pre, post, hopened, hinbox, -, hpre⟩ := hturn.before
  obtain rfl := Except.ok.inj (hf.prepare.symm.trans hopened)
  obtain rfl := Except.ok.inj (hf.items.symm.trans hinbox)
  exact ⟨st, g, hf, hf.receiving.trans (settleProblem_moves cr i.l1.mix hpre)⟩

/-- The place of a candidate in the race for its problem. -/
def LiveCandidate.ahead (l : LiveCandidate) (ch : Hash) (l' : LiveCandidate) (ch' : Hash) : Prop :=
  l.hC < l'.hC ∨ l.hC = l'.hC ∧ (l.t.getD 0 < l'.t.getD 0 ∨
    l.t.getD 0 = l'.t.getD 0 ∧ ch ≤ ch')

/-- The winner is ahead of everyone in the race. -/
theorem Draft.Wins.ahead {q ch : Hash} {P : Problem} {r : Runner}
    (hw : Wins d (q, ch) P r m) (ht : Tombs d.toState) :
    ∃ l, d.candidates[(q, ch)]? = some (.live l) ∧ ∀ ch' x, d.candidates[(q, ch')]? = some x →
      x.status ∈ [Status.committed, .opened, .checking, .passed] →
        ∃ l', x = .live l' ∧ l.ahead ch l' ch' := by
  obtain ⟨hmem, hleast⟩ := first_eq_some hw.runner
  obtain ⟨l, hl, -, hr⟩ := mem_runners.mp hmem
  rw [hw.hash] at hl hr
  refine ⟨l, hl, fun ch' x hx hstatus => ?_⟩
  cases x with
  | tombstone v =>
    rcases ht _ v hx with rfl | rfl <;> simp [Candidate.status] at hstatus
  | live l' =>
    refine ⟨l', rfl, ?_⟩
    have hother := hleast ⟨l'.hC, l'.t.getD 0, ch', l'.status⟩
      (mem_runners.mpr ⟨l', hx, hstatus, rfl⟩)
    rw [hr, not_before_iff] at hother
    simpa only [LiveCandidate.ahead, BitVec.lt_def, BitVec.le_def, BitVec.toNat_inj] using hother

theorem Draft.Accepts.winner {key : Key} {h : ℕ} {P' : Problem} (ha : Accepts c key h d d')
    (hP' : d'.problems[key.1]? = some P') :
    P'.winner = some key.2 := by
  cases ha with
  | @mk p hp l hl o hopen P hP m hm cands hcands s hwindow paid m' hgrant evs hevs =>
    rcases hwindow.problem key.1 with heq | ⟨-, P₁, hP₁, -, heq⟩
    · rw [heq, getElem?_insert, if_pos rfl] at hP'
      rw [← Option.some.inj hP']
    · rw [getElem?_insert, if_pos rfl] at hP₁
      rw [heq] at hP'
      rw [← Option.some.inj hP', ← Option.some.inj hP₁]

/-- **Settlement is safe** as long as no kernel fix rechecks a candidate that waits for a recheck:
the winner is ahead of every candidate that may still win, and no recheck of it is in the queue. -/
theorem Reached.winner_ahead {run : List (StepInput × Step)} (hr : Reached cr c gas Apart run s)
    (hi : Apart s i) {q ch : Hash} {d d' : Draft} (hturn : SettleTurn cr c s i q d d')
    (hopen : ∀ P : Problem, d.problems[q]? = some P → P.winner = none) {P' : Problem}
    (hP' : d'.problems[q]? = some P') (hwinner : P'.winner = some ch) :
    (∃ l, d.candidates[(q, ch)]? = some (.live l) ∧ ∀ ch' x, d.candidates[(q, ch')]? = some x →
      x.status ∈ [Status.committed, .opened, .checking, .passed] →
        ∃ l', x = .live l' ∧ l.ahead ch l' ch') ∧
      ∃ m', d'.m3 = some m' ∧ ∀ job ∈ m'.queue.drop m'.nextApplied, job.kind = .recheck →
        job.key ≠ (q, ch) := by
  obtain ⟨st, g, hf, hmoves⟩ := hturn.moves
  obtain ⟨p, hp⟩ := Option.isSome_iff_exists.mp hf.profile
  have hkept := (tombs_kept cr c Apart).and (announced_preserved cr c)
  have hs := hr.invariant hkept fun s hs => ⟨new_tombs hs, {}, by rw [State.new_eq_ok hs, hp]; rfl,
    by simp, by simp⟩
  obtain ⟨ht, m, hm, ha⟩ := hkept.blocks hi hf hs hmoves
  rcases Draft.settleProblem_eq_ok hturn.turn with rfl | ⟨ch', P, r, m₁, hw, hacc⟩
  · exact nomatch (hopen P' hP').symm.trans hwinner
  · obtain rfl : ch' = ch := Option.some.inj ((hacc.winner hP').symm.trans hwinner)
    obtain rfl := Option.mem_unique hm hw.m3
    refine ⟨hw.ahead ht, ?_⟩
    obtain ⟨m₀, hm₀, hcursor⟩ : ∃ m₀, g.judged.m3 = some m₀ ∧ g.judged.cursor = m₀.nextApplied := by
      obtain ⟨m₀, hm₀, -⟩ := (hkept.judged hi hf hs).2
      exact ⟨m₀, hm₀, by rw [State.cursor, hm₀]; rfl⟩
    obtain ⟨m₂, hm₂, hgrows⟩ := blockSteps_grow hmoves hm₀
    obtain rfl := Option.mem_unique hm hm₂
    obtain ⟨m', hm', hframe⟩ := hacc.m3 hm
    refine ⟨m', hm', fun job hjob hkind hkey => hw.settled ?_⟩
    have hqueue : m'.queue = m.queue := by rw [hframe]
    have hnext : m'.nextApplied = g.judged.cursor := by rw [hframe, hcursor, ← hgrows.next]
    obtain ⟨j, hj⟩ := List.mem_iff_getElem?.mp hjob
    rw [List.getElem?_drop, hqueue, hnext] at hj
    rw [← hkey]
    exact ha.pending _ job (Nat.le_add_right _ _) hj hkind

end Runs

namespace Example

/-- Two fixes of the kernel, at heights 8 and 9. -/
def twoFixes : ForkTable :=
  ⟨[⟨0, 0, 0, .genesis, []⟩, ⟨1, 8, 0, .kernelFix, []⟩, ⟨2, 9, 0, .kernelFix, []⟩]⟩

/-- The second of two solutions passes behind the first, which is never revealed, and is rechecked
twice. -/
def doubleRecheck : List StepInput :=
  [⟨block 1, [pool], [], twoFixes⟩, ⟨block 2, [], [], twoFixes⟩, ⟨block 3, [problem], [], twoFixes⟩,
    ⟨block 4, [commit 0 0 1, commit 1 0 2], [], twoFixes⟩, ⟨block 5, [], [], twoFixes⟩,
    ⟨block 6, reveal 0 0 2, [], twoFixes⟩,
    ⟨block 7, [], [judge 0 .verdict 0 2 .accept 0 0], twoFixes⟩, ⟨block 8, [], [], twoFixes⟩]

/-- The first recheck confirms the verdict; the second is still in the queue. -/
def confirmed : StepInput := ⟨block 9, [], [judge 1 .recheck 0 2 .accept 0 1], twoFixes⟩

/-- The first turn of the loop of `settle`, when problem 0 is the only one. -/
def firstTurn (s : State) (i : StepInput) : Except FoldError (Draft × Draft) := do
  let opened ← s.prepare toyCrypto exampleConfig i.l1 (some (i.verdicts, i.forks))
  let inbox ← opened.1.foldItems toyCrypto exampleConfig i.l1.number i.items
  ensure (inbox.draft.problems.toList.map (·.1) = [0]) .panicked
  let d' ← Draft.settleProblem exampleConfig i.l1.number inbox.draft 0
  pure (inbox.draft, d')

/-- Problem 0 is open before a turn and won by the given solution after it. -/
def Settled (ch : Hash) (x : Draft × Draft) : Prop :=
  x.1.problems[(0 : Hash)]?.map (·.winner) = some none ∧
    x.2.problems[(0 : Hash)]?.map (·.winner) = some (some ch)

instance (ch : Hash) (x : Draft × Draft) : Decidable (Settled ch x) :=
  inferInstanceAs (Decidable (_ ∧ _))

/-- A recheck of the given solution is in the queue after a turn. -/
def Rechecking (ch : Hash) (x : Draft × Draft) : Prop :=
  ∃ m ∈ x.2.m3, ∃ job ∈ m.queue.drop m.nextApplied, job.kind = .recheck ∧ job.key = (0, ch)

instance (ch : Hash) (x : Draft × Draft) : Decidable (Rechecking ch x) :=
  inferInstanceAs (Decidable (∃ m ∈ x.2.m3, _))

theorem settleTurn_of_firstTurn {s : State} {i : StepInput} {x : Draft × Draft}
    (hstep : (s.fold toyCrypto exampleConfig i).isOk = true) (hx : firstTurn s i = .ok x) :
    SettleTurn toyCrypto exampleConfig s i 0 x.1 x.2 := by
  simp only [firstTurn, bind_eq_ok, ensure_eq_ok, pure_eq_ok] at hx
  obtain ⟨opened, hopened, inbox, hinbox, _, hids, d', hd', rfl⟩ := hx
  exact ⟨exists_eq_ok_of_isOk hstep, ⟨opened, inbox, [], [], hopened, hinbox, hids, rfl⟩, hd'⟩

/-- Play a list of steps and look at the first turn of one more. -/
theorem exists_turn_of_play (P : State → StepInput → Prop) [∀ s i, Decidable (P s i)]
    (inputs : List StepInput) (i : StepInput) (f : Draft × Draft → Bool)
    (hf : (play toyCrypto exampleConfig exampleGas P inputs).map (fun x =>
      decide (P x.2 i) && (x.2.fold toyCrypto exampleConfig i).isOk &&
        match firstTurn x.2 i with
        | .ok t => f t
        | .error _ => false) = .ok true) :
    ∃ run s d d', Reached toyCrypto exampleConfig exampleGas P run s ∧ P s i ∧
      SettleTurn toyCrypto exampleConfig s i 0 d d' ∧ f (d, d') = true := by
  obtain ⟨run, s, hr, hturn⟩ := exists_reached_of_play toyCrypto exampleConfig exampleGas P inputs _ hf
  simp only [Bool.and_eq_true, decide_eq_true_eq] at hturn
  obtain ⟨⟨hi, hstep⟩, hturn⟩ := hturn
  cases hx : firstTurn s i with
  | error e =>
    rw [hx] at hturn
    exact nomatch hturn
  | ok x =>
    rw [hx] at hturn
    exact ⟨run, s, x.1, x.2, hr, hi, settleTurn_of_firstTurn hstep hx, hturn⟩

end Example

/-- The candidate of the plain chain wins. -/
theorem Reached.winner_ahead_winning : ∃ run s i d d' m',
    Reached toyCrypto exampleConfig exampleGas Apart run s ∧ Apart s i ∧
    SettleTurn toyCrypto exampleConfig s i 0 d d' ∧ Example.Settled (Example.hash 0 1) (d, d') ∧
    d'.m3 = some m' ∧ ∀ job ∈ m'.queue.drop m'.nextApplied, job.kind = .recheck →
      job.key ≠ (0, Example.hash 0 1) := by
  obtain ⟨run, s, d, d', hr, hi, hturn, hset⟩ := Example.exists_turn_of_play Apart
    (Example.winning.take 6) ⟨Example.block 7, [], [Example.judge 0 .verdict 0 1 .accept 0 0],
      Example.genesis⟩ (fun x => Example.Settled (Example.hash 0 1) x) (by decide +kernel)
  have hset := decide_eq_true_eq.mp hset
  obtain ⟨P', hP', hwinner⟩ := Option.map_eq_some_iff.mp hset.2
  have hopen : ∀ P : Problem, d.problems[(0 : Hash)]? = some P → P.winner = none := by
    intro P hP
    have hnone := hset.1
    rw [hP] at hnone
    exact Option.some.inj hnone
  obtain ⟨-, m', hm', hdone⟩ := hr.winner_ahead hi hturn hopen hP' hwinner
  exact ⟨run, s, _, d, d', m', hr, hi, hturn, hset, hm', hdone⟩

/-- **Two fixes in a row: the second recheck of a candidate is overlooked, and it wins.** -/
theorem Reached.winner_overlooked : ∃ run s d d',
    Reached toyCrypto exampleConfig exampleGas Free run s ∧
    SettleTurn toyCrypto exampleConfig s Example.confirmed 0 d d' ∧
    Example.Settled (Example.hash 0 2) (d, d') ∧ Example.Rechecking (Example.hash 0 2) (d, d') := by
  obtain ⟨run, s, d, d', hr, -, hturn, hset⟩ := Example.exists_turn_of_play Free
    Example.doubleRecheck Example.confirmed (fun x => Example.Settled (Example.hash 0 2) x &&
      Example.Rechecking (Example.hash 0 2) x) (by decide +kernel)
  rw [Bool.and_eq_true, decide_eq_true_eq, decide_eq_true_eq] at hset
  exact ⟨run, s, d, d', hr, hturn, hset⟩

end Derivation
