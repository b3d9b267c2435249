import Boole.Derivation.Run

/-!
# Derivation/Queue — the queue of verdict jobs along a run

Jobs are appended and never removed: **a step only adds jobs that become available at its own
height** (`Folds.grows`), an activation may change the gate of a job but neither its place nor its
delay, and the clock moves only when a record is applied.
-/

open Std Library Relation

namespace Derivation

variable {h : ℕ} {m m' : M3State} {cr : Crypto} {s : State} {d d' : Draft}

/-! ## How the M3 state grows -/

/-- Jobs have been appended, numbered by their places and available from `h` on; cursor and clock
stand still. -/
structure Grows (h : ℕ) (m m' : M3State) : Prop where
  next : m'.nextApplied = m.nextApplied
  clock : m'.clock = m.clock
  queue : m.queue <+: m'.queue
  fresh : ∀ (i : ℕ) (job : Job), m.queue.length ≤ i → m'.queue[i]? = some job →
    job.queueIndex = i ∧ job.avail = h

theorem getElem?_of_isPrefix {α : Type} {l l' : List α} (h : l <+: l') {i : ℕ}
    (hi : i < l.length) : l'[i]? = l[i]? := by
  obtain ⟨t, rfl⟩ := h
  rw [List.getElem?_append_left hi]

theorem grows_of_queue (hnext : m'.nextApplied = m.nextApplied) (hclock : m'.clock = m.clock)
    (hqueue : m'.queue = m.queue) : Grows h m m' := by
  refine ⟨hnext, hclock, hqueue ▸ List.prefix_rfl, fun i job hi hjob => ?_⟩
  rw [hqueue, List.getElem?_eq_none hi] at hjob
  exact nomatch hjob

theorem grows_refl (h : ℕ) (m : M3State) : Grows h m m := grows_of_queue rfl rfl rfl

theorem Grows.trans {m₁ m₂ m₃ : M3State} (h₁ : Grows h m₁ m₂) (h₂ : Grows h m₂ m₃) :
    Grows h m₁ m₃ := by
  refine ⟨h₂.next.trans h₁.next, h₂.clock.trans h₁.clock, h₁.queue.trans h₂.queue,
    fun i job hi hjob => ?_⟩
  by_cases hlt : i < m₂.queue.length
  · rw [getElem?_of_isPrefix h₂.queue hlt] at hjob
    exact h₁.fresh i job hi hjob
  · exact h₂.fresh i job (Nat.le_of_not_lt hlt) hjob

namespace Draft

theorem Granted.grows {p : M3Config} {slot : ℕ} {key : Key} {solver : Address} {compensation : Bool}
    {evs : List Event} (hg : Granted p slot key solver h compensation m evs m') (h' : ℕ) :
    Grows h' m m' := by
  cases hg <;> exact grows_of_queue rfl rfl rfl

theorem ItemStep.m3 {c : Config} {s' : State} {x : Input} {accepted : ℕ} {code : UInt8}
    (hi : ItemStep cr c h s x accepted s' code) : s'.m3 = s.m3 := by
  cases hi <;> rfl

theorem SlotStep.m3 {c : Config} {slot : ℕ} {mix : Hash} (hs : SlotStep cr c h mix slot d d') :
    d'.m3 = d.m3 := by
  cases hs <;> rfl

end Draft

section Step

variable {cr : Crypto} {c : Config} {p : M3Config} {cap h : ℕ} {mix : Hash} {forks : ForkTable}

theorem BlockStep.grows (hb : BlockStep cr c h mix d d') (hm : d.m3 = some m) :
    ∃ m', d'.m3 = some m' ∧ Grows h m m' := by
  cases hb with
  | slot hs => exact ⟨m, hs.m3.trans hm, grows_refl h m⟩
  | expire =>
    obtain ⟨cands, evs, -, -, -, heq⟩ := Draft.expire_eq c h d
    exact ⟨m, by rw [heq]; exact hm, grows_refl h m⟩
  | purge =>
    obtain ⟨G, hf, -⟩ := Draft.purge_forgets c h d
    exact ⟨m, by rw [hf.frame]; exact hm, grows_refl h m⟩
  | item hi =>
    cases hi with
    | plain hs => exact ⟨m, hs.m3.trans hm, grows_refl h m⟩
    | completed _ _ _ _ hd' =>
      cases hd' with
      | void | superseded => exact ⟨m, hm, grows_refl h m⟩
      | queued _ _ _ hm' =>
        obtain rfl := Option.mem_unique hm hm'
        refine ⟨_, rfl, rfl, rfl, List.prefix_append _ _, fun i job hi hjob => ?_⟩
        rw [List.getElem?_append_right hi, List.getElem?_singleton,
          Option.ite_none_right_eq_some] at hjob
        obtain ⟨hzero, hjob⟩ := hjob
        obtain rfl := Option.some.inj hjob
        exact ⟨by dsimp only; omega, rfl⟩
  | accept _ ha =>
    cases ha with
    | mk _ _ _ _ hm' _ _ hgrant =>
      obtain rfl := Option.mem_unique hm hm'
      exact ⟨_, rfl, hgrant.grows h⟩

theorem blockSteps_grow (hb : ReflTransGen (BlockStep cr c h mix) d d') (hm : d.m3 = some m) :
    ∃ m', d'.m3 = some m' ∧ Grows h m m' := by
  induction hb with
  | refl => exact ⟨m, hm, grows_refl h m⟩
  | tail _ hb ih =>
    obtain ⟨m₁, hm₁, hg₁⟩ := ih
    obtain ⟨m', hm', hg⟩ := hb.grows hm₁
    exact ⟨m', hm', hg₁.trans hg⟩

end Step

/-! ## One step -/

namespace Folds

variable {cr : Crypto} {c : Config} {s : State} {i : StepInput} {st : Step} {g : Stages}

/-- From the rounds to the end of a step the queue only grows. -/
theorem grows (hf : Folds cr c s i st g) (hm : g.judged.m3 = some m) :
    ∃ m', st.state.m3 = some m' ∧ Grows i.l1.number m m' := by
  obtain ⟨m₁, hm₁, hg⟩ := blockSteps_grow hf.settling hm
  obtain ⟨p, m₂, m', rs, -, hm₂, hv, hd⟩ := Draft.vest_eq_ok hf.vest
  obtain rfl := Option.mem_unique hm₁ hm₂
  refine ⟨m', ?_, hg.trans ?_⟩
  · rw [hf.state, hd]
  · rw [hv.frame]
    exact grows_of_queue rfl rfl rfl

end Folds

/-! ## Activation -/

namespace Draft

/-- A quarantine keeps every job in its place, with its target, kind and delay. -/
theorem QuarantineRun.queue {epoch : ℕ} {items : List ForkItem}
    (hq : QuarantineRun s epoch m items m') (i : ℕ) : ∃ e : Job → Option ℕ,
    m'.queue[i]? = m.queue[i]?.map fun j => { j with epochOverride := e j } := by
  induction hq with
  | nil => exact ⟨(·.epochOverride), by simp⟩
  | @cons m m₁ m' item items a job hq _ ih =>
    obtain ⟨e, he⟩ := ih
    have hset : m₁.queue = m.queue.set a { job with epochOverride := some epoch } := by
      rw [hq.result]
    by_cases ha : a = i
    · subst ha
      have hlt : a < m.queue.length := (List.getElem?_eq_some_iff.mp hq.queued).1
      refine ⟨fun _ => e { job with epochOverride := some epoch }, ?_⟩
      rw [he, hset, List.getElem?_set_self hlt, hq.queued]
      rfl
    · refine ⟨e, ?_⟩
      rw [he, hset, List.getElem?_set_ne ha]

/-- **What an activation does to the queue:** a job keeps its place and its delay, and a new job is
numbered by its place and available from the height of the row on. -/
theorem Activates.job {forks : ForkTable} (ha : Activates cr h forks d m d') :
    ∃ m', d'.m3 = some m' ∧ m'.nextApplied = m.nextApplied ∧
      m'.clock = m.clock ∧ ∀ (i : ℕ) (job : Job), m'.queue[i]? = some job →
        (∃ old e, m.queue[i]? = some old ∧ job = { old with epochOverride := e }) ∨
          m.queue.length ≤ i ∧ job.queueIndex = i ∧ job.avail = h := by
  have hsame (q : M3State) (hq : q.queue = m.queue) (i : ℕ) (job : Job)
      (hjob : q.queue[i]? = some job) :
      (∃ old e, m.queue[i]? = some old ∧ job = { old with epochOverride := e }) ∨
        m.queue.length ≤ i ∧ job.queueIndex = i ∧ job.avail = h := .inl ⟨job, job.epochOverride, hq ▸ hjob, rfl⟩
  cases ha with
  | none => exact ⟨m, rfl, rfl, rfl, hsame _ rfl⟩
  | policy => exact ⟨_, rfl, rfl, rfl, hsame _ rfl⟩
  | kernelFix =>
    refine ⟨_, rfl, rfl, rfl, fun i job hjob => ?_⟩
    by_cases hlt : i < m.queue.length
    · rw [List.getElem?_append_left hlt] at hjob
      exact .inl ⟨job, job.epochOverride, hjob, rfl⟩
    · have hle := Nat.le_of_not_lt hlt
      rw [List.getElem?_append_right hle, recheckJobs, List.getElem?_map, List.getElem?_zipIdx] at hjob
      simp only [Option.map_map, Option.map_eq_some_iff, Function.comp_apply] at hjob
      obtain ⟨key, -, rfl⟩ := hjob
      exact .inr ⟨hle, by dsimp only; omega, rfl⟩
  | @quarantine _ _ _ m' hrun =>
    refine ⟨_, rfl, ?_, ?_, fun i job hjob => ?_⟩
    · rw [hrun.frame]
    · rw [hrun.frame]
    · obtain ⟨e, he⟩ := hrun.queue i
      rw [he] at hjob
      obtain ⟨old, hold, rfl⟩ := Option.map_eq_some_iff.mp hjob
      exact .inl ⟨old, e old, hold, rfl⟩

theorem started_frame (forks : ForkTable) (m : M3State) :
    started forks m = { m with forkHistory := (started forks m).forkHistory } := by
  unfold started
  split <;> rfl

end Draft

/-! ## Numbers -/

/-- Every job is numbered by its place. -/
def Numbered (m : M3State) : Prop :=
  ∀ (i : ℕ) (job : Job), m.queue[i]? = some job → job.queueIndex = i

theorem Grows.numbered (hg : Grows h m m') (hm : Numbered m) :
    Numbered m' := by
  intro i job hjob
  by_cases hlt : i < m.queue.length
  · rw [getElem?_of_isPrefix hg.queue hlt] at hjob
    exact hm i job hjob
  · exact (hg.fresh i job (Nat.le_of_not_lt hlt) hjob).1

section Numbered

variable {cr : Crypto} {c : Config} {p : M3Config} {cap h : ℕ} {mix : Hash} {forks : ForkTable}

/-- While records are applied the queue stands still. -/
theorem JudgeStep.queue {x x' : Draft × ℕ} (hj : JudgeStep cr c p cap h mix forks x x')
    (hm : x.1.m3 = some m) :
    ∃ m', x'.1.m3 = some m' ∧ m'.queue = m.queue := by
  cases hj with
  | ties => exact ⟨m, hm, rfl⟩
  | apply hj =>
    obtain rfl := Option.mem_unique hm hj.m3
    obtain ⟨m', hm', hqueue, -⟩ := hj.applies.queue
    exact ⟨m', hm', hqueue⟩
  | advance hm' =>
    obtain rfl := Option.mem_unique hm hm'
    exact ⟨_, rfl, rfl⟩

theorem judgeSteps_queue {x x' : Draft × ℕ}
    (hj : ReflTransGen (JudgeStep cr c p cap h mix forks) x x') (hm : x.1.m3 = some m) :
    ∃ m', x'.1.m3 = some m' ∧ m'.queue = m.queue := by
  induction hj with
  | refl => exact ⟨m, hm, rfl⟩
  | tail _ hj ih =>
    obtain ⟨m₁, hm₁, hqueue₁⟩ := ih
    obtain ⟨m', hm', hqueue⟩ := hj.queue hm₁
    exact ⟨m', hm', hqueue.trans hqueue₁⟩

theorem Folds.numbered_activated {i : StepInput} {st : Step} {g : Stages} (hf : Folds cr c s i st g)
    (hs : ∀ m, s.m3 = some m → Numbered m) :
    ∃ m, g.activated.m3 = some m ∧ Numbered m := by
  obtain ⟨m, hm, ha⟩ := Draft.activate_eq_ok hf.activate
  obtain ⟨m', hm', -, -, hjobs⟩ := ha.job
  have hqueue : (Draft.started i.forks m).queue = m.queue := by rw [Draft.started_frame]
  refine ⟨m', hm', fun j job hjob => ?_⟩
  rcases hjobs j job hjob with ⟨old, e, hold, rfl⟩ | ⟨-, hindex, -⟩
  · exact hs m hm j old (hqueue ▸ hold)
  · exact hindex

/-- **In every state of a run the jobs are numbered by their places.** -/
theorem Reached.numbered {gas : ℕ} {P : State → StepInput → Prop} {run : List (StepInput × Step)}
    (hr : Reached cr c gas P run s) : ∀ m, s.m3 = some m → Numbered m := by
  induction hr with
  | new hs =>
    intro m hm
    simp only [State.new, bind_eq_ok, pure_eq_ok] at hs
    obtain ⟨_, -, rfl⟩ := hs
    obtain ⟨p, -, rfl⟩ := Option.map_eq_some_iff.mp hm
    intro i job hjob
    simp at hjob
  | step _ _ hst ih =>
    intro m hm
    obtain ⟨g, hf⟩ := State.fold_eq_ok hst
    obtain ⟨m₁, hm₁, hnum⟩ := hf.numbered_activated ih
    obtain ⟨p, cap, -, -, hjudging⟩ := hf.judging
    obtain ⟨m₂, hm₂, hqueue⟩ := judgeSteps_queue hjudging hm₁
    obtain ⟨m₃, hm₃, hgrows⟩ := hf.grows hm₂
    obtain rfl := Option.mem_unique hm hm₃
    refine hgrows.numbered fun j job hjob => hnum j job ?_
    rw [← hqueue]
    exact hjob

end Numbered

end Derivation
