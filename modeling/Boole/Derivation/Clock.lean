import Mathlib.Algebra.Order.Floor.Div
import Boole.Library.Effect
import Boole.Library.FirstFree
import Boole.Derivation.Invariants

/-!
# Derivation/Clock — the schedule that the fuel clock keeps

The clock remembers a total of fuel, one height and one number.  **It nevertheless places every job at
the first height that the job may have and that is not full**, with all jobs before it counted
(`FuelClock.calls_clocked`); a call that fails leaves it as it was.

    job i:   F_i = max(F_{i-1}, avail_i * rate) + cost_fixed + fuel_i
             due_i = first height ≥ due_{i-1}, avail_i + k, ⌈F_i / rate⌉ with room

In the fold the clock runs over the queue: the records of a run are those of the first jobs, in their
order, and each is applied at the height at which the schedule places it (`Reached.answered`).
-/

open Std Library

namespace Derivation

open Job

namespace FuelClock

/-! ## One call -/

/-- `push` on a clock in place, statement by statement. -/
def pushInPlace (p : M3Config) (cap avail fuel : ℕ) : EStateM Error FuelClock ℕ := do
  let self ← get
  ofExcept (ensure (cap ≠ 0 ∧ p.rate ≠ 0) (.format "zero clock capacity"))
  let minimum ← ofExcept (okOr (checkedAdd 64 avail p.k) .overflow)
  let f ← ofExcept (okOr (checkedAdd 128 (max self.fuel (avail * p.rate)) p.costFixed) .overflow)
  let f ← ofExcept (okOr (checkedAdd 128 f fuel) .overflow)
  let quotient := f / p.rate + if f % p.rate ≠ 0 then 1 else 0
  ofExcept (ensure (quotient < 2 ^ 64) .overflow)
  let d := max (max quotient minimum) self.due
  let (due, count) ← ofExcept <|
    if d = self.due ∧ cap ≤ self.count then do
      let due ← okOr (checkedAdd 64 d 1) .overflow
      pure (due, 1)
    else if d = self.due then do
      let count ← okOr (checkedAdd 64 self.count 1) .overflow
      pure (d, count)
    else pure (d, 1)
  set { fuel := f, due, count : FuelClock }
  pure due

/-- Return a value and assign the state, or fail before the assignment. -/
def assign {ε σ α : Type} (x : Except ε (α × σ)) : EStateM ε σ α := fun s =>
  match x with
  | .ok (a, s') => .ok a s'
  | .error e => .error e s

theorem assign_bind {ε σ α β : Type} (x : Except ε β) (f : β → Except ε (α × σ)) :
    assign (x >>= f) = ofExcept x >>= fun b => assign (f b) := by
  cases x <;> rfl

/-- **The assignment is the last thing a call does.** -/
theorem pushInPlace_eq (p : M3Config) (cap avail fuel : ℕ) (self : FuelClock) :
    pushInPlace p cap avail fuel self = assign (self.push p cap avail fuel) self := by
  rw [push]
  simp only [assign_bind]
  rw [pushInPlace, bind_of_ok (rfl : (get : EStateM Error FuelClock FuelClock) self = .ok self self)]
  congr! 10 with _ minimum _ f _
  dsimp only
  generalize max (max (f / p.rate + if f % p.rate ≠ 0 then 1 else 0) minimum) self.due = d
  split
  · cases checkedAdd 64 d 1 <;> rfl
  · split
    · cases checkedAdd 64 self.count 1 <;> rfl
    · rfl

theorem pushInPlace_eq_error {p : M3Config} {cap avail fuel : ℕ} {self next : FuelClock} {e : Error}
    (h : pushInPlace p cap avail fuel self = .error e next) :
    next = self ∧ self.push p cap avail fuel = .error e := by
  rw [pushInPlace_eq] at h
  cases hpush : self.push p cap avail fuel with
  | ok r =>
    rw [hpush] at h
    cases h
  | error e' =>
    rw [hpush] at h
    cases h
    exact ⟨rfl, rfl⟩

/-- The fuel of the clock after a call. -/
def total (p : M3Config) (fuel avail cost : ℕ) : ℕ :=
  max fuel (avail * p.rate) + p.costFixed + cost

theorem quotient_eq_ceilDiv {f r : ℕ} (hr : r ≠ 0) :
    (f / r + if f % r ≠ 0 then 1 else 0) = f ⌈/⌉ r := by
  have hpos := Nat.pos_of_ne_zero hr
  refine eq_of_forall_ge_iff fun n => ?_
  rw [ceilDiv_le_iff_le_mul hpos]
  by_cases hdvd : r ∣ f
  · obtain ⟨q, rfl⟩ := hdvd
    rw [Nat.mul_div_cancel_left q hpos, if_neg (by simp), Nat.add_zero,
      Nat.mul_le_mul_left_iff hpos]
  · have hne : f ≠ r * n := fun h => hdvd (h ▸ Nat.dvd_mul_right r n)
    rw [if_pos fun hmod => hdvd (Nat.dvd_of_mod_eq_zero hmod), Nat.succ_le_iff,
      Nat.div_lt_iff_lt_mul hpos, Nat.mul_comm, Nat.lt_iff_le_and_ne]
    exact and_iff_left hne

/-- Where a call places its job, and how it counts it. -/
theorem place_eq_ok_iff {self next : FuelClock} {cap d f due : ℕ} (hd : d < 2 ^ 64) :
    (if d = self.due ∧ cap ≤ self.count then do
        let due ← okOr (checkedAdd 64 d 1) Error.overflow
        pure (due, ⟨f, due, 1⟩)
      else if d = self.due then do
        let count ← okOr (checkedAdd 64 self.count 1) Error.overflow
        pure (d, ⟨f, d, count⟩)
      else pure (d, ⟨f, d, 1⟩)) = Except.ok (due, next) ↔
    due < 2 ^ 64 ∧ (due = self.due → self.count + 1 < 2 ^ 64) ∧
      due = nextFree cap self.due self.count d ∧
      next = ⟨f, due, if due = self.due then self.count + 1 else 1⟩ := by
  rw [nextFree]
  split
  · rename_i hfull
    obtain ⟨rfl, -⟩ := hfull
    simp only [bind_eq_ok, okOr_eq_ok, checkedAdd_eq_some, pure_eq_ok, Prod.mk.injEq]
    grind
  · split
    · rename_i hsame
      subst hsame
      simp only [bind_eq_ok, okOr_eq_ok, checkedAdd_eq_some, pure_eq_ok, Prod.mk.injEq]
      constructor
      · rintro ⟨_, ⟨hlt, rfl⟩, rfl, rfl⟩
        exact ⟨hd, fun _ => hlt, rfl, by simp⟩
      · rintro ⟨-, hlt, rfl, rfl⟩
        exact ⟨_, ⟨hlt rfl, rfl⟩, rfl, by simp⟩
    · rename_i hlater
      rw [pure_eq_ok, Prod.mk.injEq]
      constructor
      · rintro ⟨rfl, rfl⟩
        exact ⟨hd, fun h => absurd h hlater, rfl, by rw [if_neg hlater]⟩
      · rintro ⟨-, -, rfl, rfl⟩
        exact ⟨rfl, by rw [if_neg hlater]⟩

/-- **What a call computes.** -/
theorem push_eq_ok_iff {self next : FuelClock} {p : M3Config} {cap avail fuel due : ℕ}
    (hself : self.due < 2 ^ 64) : self.push p cap avail fuel = .ok (due, next) ↔
      (cap ≠ 0 ∧ p.rate ≠ 0) ∧ total p self.fuel avail fuel < 2 ^ 128 ∧ due < 2 ^ 64 ∧
      (due = self.due → self.count + 1 < 2 ^ 64) ∧
      due = nextFree cap self.due self.count
        (max (max (total p self.fuel avail fuel ⌈/⌉ p.rate) (avail + p.k)) self.due) ∧
      next = ⟨total p self.fuel avail fuel, due, if due = self.due then self.count + 1 else 1⟩ := by
  simp only [push, bind_eq_ok, ensure_eq_ok, okOr_eq_ok, checkedAdd_eq_some]
  constructor
  · rintro ⟨_, hpos, _, ⟨hmin, rfl⟩, _, ⟨-, rfl⟩, _, ⟨hfuel, rfl⟩, _, hquot, h⟩
    rw [quotient_eq_ceilDiv hpos.2] at h hquot
    rw [place_eq_ok_iff (Nat.max_lt.mpr ⟨Nat.max_lt.mpr ⟨hquot, hmin⟩, hself⟩)] at h
    exact ⟨hpos, hfuel, h⟩
  · rintro ⟨hpos, hfuel, hplace⟩
    have hlow := (le_nextFree cap self.due self.count _).trans_lt (hplace.2.2.1 ▸ hplace.1)
    have hbounds := Nat.max_lt.mp (Nat.max_lt.mp hlow).1
    refine ⟨(), hpos, _, ⟨hbounds.2, rfl⟩, _, ⟨?_, rfl⟩, _, ⟨hfuel, rfl⟩, (), ?_, ?_⟩
    · exact (Nat.le_add_right _ fuel).trans_lt hfuel
    · rw [quotient_eq_ceilDiv hpos.2]
      exact hbounds.1
    · rw [quotient_eq_ceilDiv hpos.2]
      exact (place_eq_ok_iff hlow).mpr hplace

end FuelClock

/-! ## Sequences of calls -/

/-- A job that the clock has placed. -/
structure Placed where
  avail : ℕ
  fuel : ℕ
  due : ℕ
deriving DecidableEq

/-- The fuel that the jobs have taken: `F_i` after the first `i`. -/
def spent (p : M3Config) (jobs : List Placed) : ℕ :=
  jobs.foldl (fun f x => FuelClock.total p f x.avail x.fuel) 0

/-- The due heights, in order. -/
def dues (jobs : List Placed) : List ℕ := jobs.map (·.due)

/-- The lowest height that a job may have behind those that have been placed. -/
def earliest (p : M3Config) (before : List Placed) (avail fuel : ℕ) : ℕ :=
  max (max ((dues before).getLast?.getD 0) (avail + p.k))
    (FuelClock.total p (spent p before) avail fuel ⌈/⌉ p.rate)

namespace FuelClock

/-- One call of a sequence; a call that fails places nothing. -/
def call (p : M3Config) (cap : ℕ) (acc : List Placed × FuelClock) (x : ℕ × ℕ) :
    List Placed × FuelClock :=
  match pushInPlace p cap x.1 x.2 acc.2 with
  | .ok due clock => (acc.1 ++ [⟨x.1, x.2, due⟩], clock)
  | .error _ clock => (acc.1, clock)

/-- A sequence of calls on a new clock, each with an available height and a fuel. -/
def calls (p : M3Config) (cap : ℕ) (xs : List (ℕ × ℕ)) : List Placed × FuelClock :=
  xs.foldl (call p cap) ([], {})

/-- **The clock has kept the schedule.** -/
structure Clocked (p : M3Config) (cap : ℕ) (placed : List Placed) (clock : FuelClock) : Prop where
  tracks : Tracks cap (dues placed) clock.due clock.count
  fuel : spent p placed = clock.fuel
  due_lt : clock.due < 2 ^ 64
  delay : ∀ x ∈ placed, x.avail + p.k ≤ x.due
  first : ∀ before x after, placed = before ++ x :: after →
    FirstFree cap (dues before) (earliest p before x.avail x.fuel) x.due

variable {p : M3Config} {cap : ℕ} {placed : List Placed} {clock : FuelClock} {avail fuel : ℕ}

theorem clocked_nil (p : M3Config) (cap : ℕ) : Clocked p cap [] {} :=
  ⟨tracks_nil cap, rfl, by decide, by simp, by simp⟩

theorem Clocked.earliest_eq (hc : Clocked p cap placed clock) :
    earliest p placed avail fuel =
      max (max (total p clock.fuel avail fuel ⌈/⌉ p.rate) (avail + p.k)) clock.due := by
  rw [earliest, hc.tracks.last_eq, hc.fuel, max_assoc, max_comm, max_comm (avail + p.k)]

theorem Clocked.due_le_earliest (hc : Clocked p cap placed clock) :
    clock.due ≤ earliest p placed avail fuel := by
  rw [hc.earliest_eq]
  exact le_max_right _ _

/-- **A call that returns has placed its job at the first height with room.** -/
theorem Clocked.push (hc : Clocked p cap placed clock) {due : ℕ} {next : FuelClock}
    (h : clock.push p cap avail fuel = .ok (due, next)) :
    Clocked p cap (placed ++ [⟨avail, fuel, due⟩]) next := by
  obtain ⟨⟨hcap, -⟩, -, hlt, -, hdue, rfl⟩ := (push_eq_ok_iff hc.due_lt).mp h
  rw [← hc.earliest_eq] at hdue
  have hfree : FirstFree cap (dues placed) (earliest p placed avail fuel) due :=
    hdue ▸ hc.tracks.firstFree (Nat.pos_of_ne_zero hcap) hc.due_le_earliest
  have hdelay : avail + p.k ≤ due :=
    (le_max_right _ _).trans ((le_max_left _ _).trans hfree.1.1)
  refine ⟨?_, ?_, hlt, fun x hx => ?_, fun before x after heq => ?_⟩
  · rw [dues, List.map_append]
    exact hc.tracks.append hc.due_le_earliest hfree
  · rw [spent, List.foldl_append, ← spent, hc.fuel]
    rfl
  · rcases List.mem_append.mp hx with hx | hx
    · exact hc.delay x hx
    · rw [List.mem_singleton.mp hx]
      exact hdelay
  · rcases List.eq_nil_or_concat after with rfl | ⟨after, y, rfl⟩
    · obtain ⟨rfl, hlast⟩ := List.append_inj' heq rfl
      obtain rfl := List.singleton_inj.mp hlast
      exact hfree
    · rw [List.concat_eq_append, ← List.cons_append, ← List.append_assoc] at heq
      exact hc.first before x after (List.append_inj' heq rfl).1

theorem Clocked.call {acc : List Placed × FuelClock} (hc : Clocked p cap acc.1 acc.2) (x : ℕ × ℕ) :
    Clocked p cap (call p cap acc x).1 (call p cap acc x).2 := by
  rw [FuelClock.call, pushInPlace_eq]
  cases h : acc.2.push p cap x.1 x.2 with
  | error e => exact hc
  | ok r => exact hc.push h

/-- **Every sequence of calls keeps the schedule.** -/
theorem calls_clocked (p : M3Config) (cap : ℕ) (xs : List (ℕ × ℕ)) :
    Clocked p cap (calls p cap xs).1 (calls p cap xs).2 := by
  induction xs using List.reverseRecOn with
  | nil => exact clocked_nil p cap
  | append_singleton xs x ih =>
    rw [calls, List.foldl_append]
    exact ih.call x

/-- **A call fails only where a number of the schedule does not fit its word:** the fuel, or the
height of the job. -/
theorem Clocked.overflow (hc : Clocked p cap placed clock) (hcap : 0 < cap) (hword : cap < 2 ^ 64)
    (hrate : 0 < p.rate) {e : Error} (h : clock.push p cap avail fuel = .error e) :
    e = .overflow ∧ (2 ^ 128 ≤ total p (spent p placed) avail fuel ∨
      ∀ due, FirstFree cap (dues placed) (earliest p placed avail fuel) due → 2 ^ 64 ≤ due) := by
  refine ⟨?_, ?_⟩
  · have hthrows : Throws (· = Error.overflow) (clock.push p cap avail fuel) := by
      rw [FuelClock.push]
      simp [hcap.ne', hrate.ne']
    exact hthrows e h
  · by_contra hroom
    simp only [not_or, Nat.not_le, not_forall] at hroom
    obtain ⟨hfuel, due, hfree, hlt⟩ := hroom
    have hdue : due = nextFree cap clock.due clock.count (earliest p placed avail fuel) :=
      hfree.unique (hc.tracks.firstFree hcap hc.due_le_earliest)
    have hcount : due = clock.due → clock.count + 1 < 2 ^ 64 := by
      rintro rfl
      have := hfree.1.2
      rw [hc.tracks.count_eq] at this
      omega
    rw [hc.fuel] at hfuel
    rw [hc.earliest_eq] at hdue
    have hok := (push_eq_ok_iff hc.due_lt).mpr
      ⟨⟨hcap.ne', hrate.ne'⟩, hfuel, hlt, hcount, hdue, rfl⟩
    rw [h] at hok
    cases hok

end FuelClock

/-! ## The clock of the fold -/

/-- What a record has to name of its job. -/
def IndexedVerdict.identity (v : IndexedVerdict) : ℕ × Hash × RecordKind :=
  (v.queueIndex.toNat, v.record.commitHash, v.record.kind)

def Job.identity (job : Job) : ℕ × Hash × RecordKind := (job.queueIndex, job.key.2, job.kind)

/-- A job without the gate that an activation may give it. -/
def Job.bare (job : Job) : Job := { job with epochOverride := none }

/-- The call that a record makes for its job. -/
def Job.call (job : Job) (v : IndexedVerdict) : ℕ × ℕ := (job.avail, v.record.fuel.toNat)

section Loop

variable {c : Config} {p : M3Config} {cap h : ℕ} {forks : ForkTable}

/-- **The records that are due are those of the next jobs,** and the clock places them all at this
height. -/
theorem Draft.examine_calls {now : List IndexedVerdict} {offset : ℕ} {acc mid : Due} {m : M3State}
    {before : List Placed} {jobs : List Job}
    (hloop : (now.zipIdx offset).foldlM (examine c p cap h forks) acc = .ok mid)
    (happlied : mid.applied = acc.applied ++ now) (hm : acc.draft.m3 = some m)
    (hjobs : (m.queue.drop (m.nextApplied + offset)).take now.length = jobs) :
    now.map IndexedVerdict.identity = jobs.map identity ∧
      ∃ placed, (List.zipWith call jobs now).foldl (FuelClock.call p cap) (before, acc.clock) =
        (before ++ placed, mid.clock) ∧ dues placed = now.map fun _ => h := by
  induction now generalizing offset acc m before jobs with
  | nil =>
    obtain rfl := Except.ok.inj hloop
    subst hjobs
    exact ⟨by simp, [], by simp, rfl⟩
  | cons v now ih =>
    obtain ⟨acc₁, m₁, job, slot, next, hx, happly, hloop, happlied⟩ := examine_applied hloop happlied
    obtain rfl := Option.mem_unique hm hx.m3
    obtain ⟨m₂, l, P, new, hm₂, -, -, -, ha⟩ := applyRecord_eq_ok happly
    obtain rfl := Option.mem_unique hm hm₂
    obtain ⟨m', hm', hqueue', hnext', -⟩ := ha.queue
    obtain ⟨hlt, hjob⟩ := List.getElem?_eq_some_iff.mp hx.checked.queued
    rw [← List.cons_getElem_drop_succ (h := hlt), hjob, List.length_cons, List.take_succ_cons] at hjobs
    subst hjobs
    have hcall : FuelClock.call p cap (before, acc.clock) (job.call v) =
        (before ++ [⟨job.avail, v.record.fuel.toNat, h⟩], acc₁.clock) := by
      rw [FuelClock.call, FuelClock.pushInPlace_eq, call, hx.push, hx.clock]
      rfl
    have hrest := @ih _ _ _ (before ++ [⟨job.avail, v.record.fuel.toNat, h⟩]) _ hloop happlied hm' rfl
    rw [hqueue', hnext', ← Nat.add_assoc] at hrest
    obtain ⟨hids, placed, hcalls, hdues⟩ := hrest
    refine ⟨?_, ⟨job.avail, v.record.fuel.toNat, h⟩ :: placed, ?_, ?_⟩
    · rw [List.map_cons, List.map_cons, hids]
      rw [IndexedVerdict.identity, identity, hx.checked.index, hx.checked.hash, hx.checked.kind]
    · rw [List.zipWith_cons_cons, List.foldl_cons, hcall, hcalls, List.append_assoc,
        List.singleton_append]
    · rw [dues, List.map_cons, ← dues, hdues, List.map_cons]

end Loop

/-! ### Over a run -/

/-- An activation keeps every job in its place, up to its gate. -/
theorem Draft.Activates.queue_bare {cr : Crypto} {h : ℕ} {forks : ForkTable} {d d' : Draft}
    {m : M3State} (ha : Activates cr h forks d m d') : ∃ m', d'.m3 = some m' ∧
      m'.nextApplied = m.nextApplied ∧ m'.clock = m.clock ∧
      m.queue.map bare <+: m'.queue.map bare := by
  cases ha with
  | none => exact ⟨m, rfl, rfl, rfl, List.prefix_rfl⟩
  | policy => exact ⟨_, rfl, rfl, rfl, List.prefix_rfl⟩
  | kernelFix =>
    refine ⟨_, rfl, rfl, rfl, ?_⟩
    rw [List.map_append]
    exact List.prefix_append _ _
  | @quarantine _ _ _ m' hrun =>
    refine ⟨_, rfl, by rw [hrun.frame], by rw [hrun.frame], ?_⟩
    have hsame : m'.queue.map bare = m.queue.map bare := by
      refine List.ext_getElem? fun i => ?_
      obtain ⟨e, he⟩ := hrun.queue i
      rw [List.getElem?_map, List.getElem?_map, he, Option.map_map]
      rfl
    rw [hsame]

/-- The records that a run has applied. -/
def answers (run : List (StepInput × Step)) : List IndexedVerdict := run.flatMap (·.2.verdicts)

/-- The heights at which they were applied. -/
def appliedAt (run : List (StepInput × Step)) : List ℕ :=
  run.flatMap fun x => x.2.verdicts.map fun _ => x.1.l1.number

/-- **The records of a run answer the first jobs of the queue:** in the same order, and each at the
height at which the clock places its job. -/
structure Answered (c : Config) (p : M3Config) (run : List (StepInput × Step)) (m : M3State) :
    Prop where
  fits : m.nextApplied ≤ m.queue.length
  identities : (answers run).map IndexedVerdict.identity =
    (m.queue.take m.nextApplied).map Job.identity
  calls : ∃ placed, FuelClock.calls p (c.qMax * c.vPerDeposit)
      (List.zipWith Job.call (m.queue.take m.nextApplied) (answers run)) = (placed, m.clock) ∧
    dues placed = appliedAt run

theorem Answered.length_eq {c : Config} {p : M3Config} {run : List (StepInput × Step)} {m : M3State}
    (ha : Answered c p run m) : (answers run).length = m.nextApplied := by
  have := congrArg List.length ha.identities
  rwa [List.length_map, List.length_map, List.length_take, Nat.min_eq_left ha.fits] at this

section Bare

variable {l l' : List Job} (h : l.map Job.bare = l'.map Job.bare)
include h

theorem map_identity_congr : l.map identity = l'.map identity := by
  have := congrArg (List.map identity) h
  rwa [List.map_map, List.map_map] at this

theorem zipWith_call_congr (vs : List IndexedVerdict) :
    List.zipWith call l vs = List.zipWith call l' vs := by
  have := congrArg (List.zipWith call · vs) h
  rwa [List.zipWith_map_left, List.zipWith_map_left] at this

end Bare

section Answered

variable {cr : Crypto} {c : Config} {p : M3Config} {run : List (StepInput × Step)}

/-- Only the jobs themselves matter, not their gates. -/
theorem Answered.of_bare {m m' : M3State} (ha : Answered c p run m)
    (hnext : m'.nextApplied = m.nextApplied) (hclock : m'.clock = m.clock)
    (hqueue : m.queue.map bare <+: m'.queue.map bare) : Answered c p run m' := by
  have htake : (m.queue.take m.nextApplied).map bare =
      (m'.queue.take m'.nextApplied).map bare := by
    obtain ⟨rest, hrest⟩ := hqueue
    rw [hnext, List.map_take, List.map_take, ← hrest,
      List.take_append_of_le_length (by rw [List.length_map]; exact ha.fits)]
  refine ⟨?_, ?_, ?_⟩
  · have hlen := hqueue.length_le
    rw [List.length_map, List.length_map] at hlen
    exact hnext ▸ ha.fits.trans hlen
  · rw [ha.identities, map_identity_congr htake]
  · rw [← zipWith_call_congr htake, hclock]
    exact ha.calls

/-- The records of one more step. -/
theorem Answered.append {m m' : M3State} {i : StepInput} {st : Step} {jobs : List Job}
    (ha : Answered c p run m)
    (hjobs : (m.queue.drop m.nextApplied).take st.verdicts.length = jobs)
    (hqueue : m'.queue = m.queue) (hnext : m'.nextApplied = m.nextApplied + st.verdicts.length)
    (hids : st.verdicts.map IndexedVerdict.identity = jobs.map identity)
    (hcalls : ∀ before, ∃ placed, (List.zipWith call jobs st.verdicts).foldl
        (FuelClock.call p (c.qMax * c.vPerDeposit)) (before, m.clock) = (before ++ placed, m'.clock) ∧
      dues placed = st.verdicts.map fun _ => i.l1.number) :
    Answered c p (run ++ [(i, st)]) m' := by
  have hanswers : answers (run ++ [(i, st)]) = answers run ++ st.verdicts := by simp [answers]
  have htake : m'.queue.take m'.nextApplied = m.queue.take m.nextApplied ++ jobs := by
    rw [hqueue, hnext, List.take_add, hjobs]
  have hlength := ha.length_eq
  refine ⟨?_, ?_, ?_⟩
  · have hlen := congrArg List.length hids
    rw [← hjobs] at hlen
    simp only [List.length_map, List.length_take, List.length_drop] at hlen
    have := ha.fits
    rw [hqueue]
    omega
  · rw [hanswers, htake, List.map_append, List.map_append, ha.identities, hids]
  · obtain ⟨before, hbefore, hdues⟩ := ha.calls
    obtain ⟨placed, hplaced, hdues'⟩ := hcalls before
    refine ⟨before ++ placed, ?_, ?_⟩
    · rw [hanswers, htake, List.zipWith_append, FuelClock.calls, List.foldl_append]
      · rw [FuelClock.calls] at hbefore
        rw [hbefore, hplaced]
      · rw [List.length_take, Nat.min_eq_left ha.fits, hlength]
    · rw [dues, List.map_append, ← dues, ← dues, hdues, hdues']
      simp [appliedAt]

theorem Folds.answered {s : State} {i : StepInput} {st : Step} {g : Stages} {m : M3State}
    (hf : Folds cr c s i st g) (hp : c.m3 = some p) (hm : s.m3 = some m) (ha : Answered c p run m) :
    ∃ m', st.state.m3 = some m' ∧ Answered c p (run ++ [(i, st)]) m' := by
  -- the activation keeps the queue up to the gates
  obtain ⟨m₀, hm₀, hactivates⟩ := Draft.activate_eq_ok hf.activate
  obtain rfl := Option.mem_unique hm hm₀
  obtain ⟨m₁, hm₁, hnext₁, hclock₁, hqueue₁⟩ := hactivates.queue_bare
  rw [Draft.started_frame] at hnext₁ hclock₁ hqueue₁
  have ha₁ : Answered c p run m₁ := ha.of_bare hnext₁ hclock₁ hqueue₁
  -- the records that are due
  obtain ⟨p', m₀, cap, later, mid, acc, m₂, hdue⟩ := Draft.applyDue_eq_ok hf.due
  obtain rfl := Option.mem_unique hp hdue.profile
  obtain rfl := Option.mem_unique hm₁ hdue.m3
  obtain ⟨-, rfl⟩ := checkedMul_eq_some.mp hdue.capacity
  obtain ⟨-, m₃, hm₃, hclock₃⟩ := Draft.examine_moves cr i.l1.mix hdue.splits.loop hdue.splits.applied
    hdue.m3 rfl
  obtain rfl := Option.mem_unique hdue.m3_mid hm₃
  have hcalls (before : List Placed) :=
    @Draft.examine_calls c p _ _ _ _ _ _ _ _ before _ hdue.splits.loop hdue.splits.applied hdue.m3 rfl
  have ha₂ : Answered c p (run ++ [(i, st)])
      { m₂ with nextApplied := m₁.nextApplied + st.verdicts.length } := by
    refine ha₁.append rfl hdue.queue rfl (hcalls []).1 fun before => ?_
    rw [hclock₃]
    exact (hcalls before).2
  -- the rest of the step only appends jobs
  have hm₄ : g.judged.m3 = some { m₂ with nextApplied := m₁.nextApplied + st.verdicts.length } := by
    rw [hdue.result]
    rfl
  obtain ⟨m', hm', hgrows⟩ := hf.grows hm₄
  exact ⟨m', hm', ha₂.of_bare hgrows.next hgrows.clock (hgrows.queue.map _)⟩

end Answered

theorem Reached.answered {cr : Crypto} {c : Config} {gas : ℕ} {P : State → StepInput → Prop}
    {run : List (StepInput × Step)} {s : State} {p : M3Config} (hr : Reached cr c gas P run s)
    (hp : c.m3 = some p) : ∃ m, s.m3 = some m ∧ Answered c p run m := by
  induction hr with
  | new hs =>
    refine ⟨{}, State.new_m3 hs hp, le_rfl, rfl, [], rfl, rfl⟩
  | step _ _ hst ih =>
    obtain ⟨m, hm, ha⟩ := ih
    obtain ⟨g, hf⟩ := State.fold_eq_ok hst
    exact hf.answered hp hm ha

/-- **The clock keeps its schedule.**  Whatever is pushed, the due heights never decrease, keep the
delay of their jobs, and are the first ones with room among at most `cap` at a height; a call that
fails leaves the clock as it was and was an overflow; and a run of the fold has applied the first jobs
of the queue in their order, each where this schedule places it. -/
theorem FuelClock.keeps_schedule :
    (∀ (p : M3Config) (cap : ℕ) (xs : List (ℕ × ℕ)) (placed : List Placed) (clock : FuelClock),
      calls p cap xs = (placed, clock) →
      (dues placed).Pairwise (· ≤ ·) ∧ (∀ x ∈ placed, x.avail + p.k ≤ x.due) ∧
      (∀ h, (dues placed).count h ≤ cap) ∧
      (∀ before x after, placed = before ++ x :: after →
        FirstFree cap (dues before) (earliest p before x.avail x.fuel) x.due) ∧
      ∀ avail fuel e clock', pushInPlace p cap avail fuel clock = .error e clock' →
        clock' = clock ∧ (0 < p.rate → 0 < cap → cap < 2 ^ 64 → e = .overflow ∧
          (2 ^ 128 ≤ total p (spent p placed) avail fuel ∨
            ∀ due, FirstFree cap (dues placed) (earliest p placed avail fuel) due → 2 ^ 64 ≤ due))) ∧
    ∀ (cr : Crypto) (c : Config) (gas : ℕ) (run : List (StepInput × Step)) (s : State) (m : M3State)
      (p : M3Config), Reached cr c gas Free run s → s.m3 = some m → c.m3 = some p →
      m.nextApplied ≤ m.queue.length ∧
      (answers run).map IndexedVerdict.identity = (m.queue.take m.nextApplied).map Job.identity ∧
      (answers run).map (·.queueIndex.toNat) = List.range m.nextApplied ∧
      ∃ placed, calls p (c.qMax * c.vPerDeposit)
          (List.zipWith Job.call (m.queue.take m.nextApplied) (answers run)) = (placed, m.clock) ∧
        dues placed = appliedAt run := by
  refine ⟨fun p cap xs placed clock h => ?_, fun cr c gas run s m p hr hm hp => ?_⟩
  · have hc := calls_clocked p cap xs
    rw [h] at hc
    refine ⟨hc.tracks.sorted, hc.delay, hc.tracks.count_le, hc.first,
      fun avail fuel e clock' hfail => ?_⟩
    obtain ⟨rfl, hpush⟩ := pushInPlace_eq_error hfail
    exact ⟨rfl, fun hrate hcap hword => hc.overflow hcap hword hrate hpush⟩
  · obtain ⟨m', hm', ha⟩ := hr.answered hp
    obtain rfl := Option.mem_unique hm hm'
    refine ⟨ha.fits, ha.identities, ?_, ha.calls⟩
    have hindices := congrArg (List.map Prod.fst) ha.identities
    rw [List.map_map, List.map_map] at hindices
    refine hindices.trans (List.ext_getElem (by simp [ha.fits]) fun i hi _ => ?_)
    rw [List.length_map] at hi
    rw [List.getElem_map, List.getElem_range, List.getElem_take]
    refine hr.numbered m hm i _ (List.getElem?_eq_getElem ?_)
    exact hi.trans_le (List.length_take_le' _ _)

/-- Two jobs at a height with room for one, and the run that accepts a solution. -/
theorem FuelClock.keeps_schedule_winning :
    (dues (calls exampleProfile 1 [(0, 5), (0, 5), (7, 0)]).1 = [1, 2, 8] ∧
      FirstFree 1 [1] (earliest exampleProfile [⟨0, 5, 1⟩] 0 5) 2) ∧
    ∃ run s m, Reached toyCrypto exampleConfig exampleGas Free run s ∧ s.m3 = some m ∧
      m.nextApplied = 1 ∧ (answers run).map (·.queueIndex.toNat) = [0] := by
  refine ⟨⟨by decide +kernel, ?_⟩, ?_⟩
  · exact (keeps_schedule.1 exampleProfile 1 [(0, 5), (0, 5), (7, 0)] _ _ rfl).2.2.2.1
      [⟨0, 5, 1⟩] ⟨0, 5, 2⟩ [⟨7, 0, 8⟩] (by decide +kernel)
  · obtain ⟨run, s, hr, hnext⟩ := @exists_reached_of_play toyCrypto exampleConfig exampleGas Free _
      Example.winning _ (fun x => x.2.m3.map (·.nextApplied)) (some 1) (by decide +kernel)
    obtain ⟨m, hm, hnext⟩ := Option.map_eq_some_iff.mp hnext
    have hindices := (keeps_schedule.2 _ _ _ run s m exampleProfile hr hm rfl).2.2.1
    rw [hnext] at hindices
    exact ⟨run, s, m, hr, hm, hnext, hindices⟩

end Derivation
