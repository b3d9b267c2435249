import Boole.Core.RateQuotas

/-!
# Core/Refunds — when a charge can be taken back

A charge is entered twice, as a time in its source's bucket and as one more for its identity.  A
release has to find both.  The bucket is a window, the count is not:

    charge at t ──▸ bucket … t …   dropped by a later charge at a time past t + window
                └─▸ count + 1      stays until it is released or the head changes

**A charge whose time was dropped cannot be released, and its count is stranded**
(`refund_stranded`).  As long as no charge comes late, and none of the same identity is left from an
earlier time at the same head, **every charge that was not released yet can be released, and lowers
the count by one** (`refund_exact`).
-/

open Std Library

namespace Core

open RateLimiter

/-- What a successful check or a commit leaves behind. -/
structure Charge where
  time : ℤ
  ip : String
  pk : String
  c : String
deriving DecidableEq

namespace Charge

def key (self : Charge) : String := rateKey self.pk self.c

/-- The charges that a time in a bucket may stand for. -/
def At (ip : String) (t : ℤ) (self : Charge) : Bool := self.ip = ip ∧ self.time = t

end Charge

/-- What is done to a limiter; here a charge may also be made without a look. -/
inductive ChargeOp
  | observeTicket (pk c : String) (n : Option String)
  | setCurrentC (c : String)
  | check (charge : Charge)
  | commit (charge : Charge)
  | releaseCommitted (charge : Charge)

def ChargeOp.time? : ChargeOp → Option ℤ
  | .check charge | .commit charge => some charge.time
  | _ => none

/-- The charge that an operation makes. -/
def RateLimiter.charged (self : RateLimiter) : ChargeOp → Option Charge
  | .check charge =>
    if (self.peek charge.time charge.ip charge.pk charge.c).isOk then some charge else none
  | .commit charge => some charge
  | _ => none

/-- A limiter, with the charges not released yet: those made at the present head, and those that are
left of the `inherited` ones, which were open when the head was set. -/
structure Till where
  limiter : RateLimiter
  fresh : List Charge
  stale : List Charge
  inherited : List Charge

variable (self : Till)

variable (l : RateLimiter)

namespace Till

def start (m : ℤ) (limit : ℕ) (window : ℤ) : Till := ⟨RateLimiter.new m limit window, [], [], []⟩

def charge (charge : Charge) : Till :=
  { self with
    limiter := self.limiter.commit charge.time charge.ip charge.pk charge.c
    fresh := self.fresh ++ [charge] }

def release (charge : Charge) : Till :=
  { self with
    limiter := (self.limiter.releaseCommitted charge.time charge.ip charge.pk charge.c).1
    fresh := self.fresh.erase charge
    stale := if charge ∈ self.fresh then self.stale else self.stale.erase charge }

def setCurrentC (c : String) : Till :=
  if self.limiter.currentC = some c then self
  else {
    limiter := self.limiter.setCurrentC c
    fresh := []
    stale := self.fresh ++ self.stale
    inherited := self.fresh ++ self.stale }

def step (op : ChargeOp) : Till :=
  match op with
  | .observeTicket pk c n => { self with limiter := (self.limiter.observeTicket pk c n).1 }
  | .setCurrentC c => self.setCurrentC c
  | .check _ | .commit _ => (self.limiter.charged op).elim self self.charge
  | .releaseCommitted charge => self.release charge

/-- A release is of a charge that was made and not released before. -/
def Owns : ChargeOp → Prop
  | .releaseCommitted charge => charge ∈ self.fresh ∨ charge ∈ self.stale
  | _ => True

/-- The head stays. -/
def StaysAt : ChargeOp → Prop
  | .setCurrentC c => self.limiter.currentC = some c
  | _ => True

/-- No charge that may drop a time of this source comes more than the window later. -/
def Keeps (ip : String) (t : ℤ) (self : Till) (op : ChargeOp) : Prop :=
  ∀ charge ∈ self.limiter.charged op, charge.ip = ip ∨ self.limiter.SweepsFor charge.ip →
    charge.time ≤ t + self.limiter.windowMs

/-- A condition on every step of a run. -/
def Along (P : Till → ChargeOp → Prop) : Till → List ChargeOp → Prop
  | _, [] => True
  | self, op :: ops => P self op ∧ Along P (self.step op) ops

variable {self : Till} {ip : String} {t : ℤ}

/-! ## What backs a charge -/

/-- **What the tables know of the open charges:** every one at a time of a source is in its bucket,
and every one of an identity is in its count, unless one of the identity was inherited. -/
structure Backed (ip : String) (t : ℤ) (s : Till) : Prop where
  left : s.stale ⊆ s.inherited
  timed : (s.fresh ++ s.stale).countP (Charge.At ip t) ≤ (s.limiter.bucket ip).count t
  counted : ∀ k, (∀ charge ∈ s.inherited, charge.key ≠ k) →
    (s.fresh.countP (·.key = k) : ℤ) ≤ s.limiter.charges k

theorem backed_start (m : ℤ) (limit : ℕ) (window : ℤ) (ip : String) (t : ℤ) :
    Backed ip t (start m limit window) where
  left := List.Subset.refl _
  timed := by simp [start]
  counted k _ := by simp [start, charges, new]

theorem Backed.observe (h : Backed ip t self) {l : RateLimiter}
    (hl : Untouched self.limiter l) : Backed ip t { self with limiter := l } where
  left := h.left
  timed := by
    have hip : l.ip = self.limiter.ip := congrArg Prod.fst hl.sourceState
    rw [bucket, hip]
    exact h.timed
  counted k hk := by
    rw [hl.charges]
    exact h.counted k hk

theorem Backed.setCurrentC (h : Backed ip t self) (c : String) :
    Backed ip t (self.setCurrentC c) := by
  rw [Till.setCurrentC]
  split_ifs with hc
  · exact h
  · refine ⟨List.Subset.refl _, ?_, fun k _ => ?_⟩
    · rw [RateLimiter.setCurrentC, if_neg hc]
      exact h.timed
    · rw [RateLimiter.setCurrentC, if_neg hc]
      simp [charges, clearIdentityState]

theorem charges_commit (charge : Charge) (k : String) :
    (l.commit charge.time charge.ip charge.pk charge.c).charges k =
      l.charges k + if charge.key = k then 1 else 0 := by
  change ((countUp l.pkCount charge.key)[k]?).getD 0 = (l.pkCount[k]?).getD 0 + _
  rw [countUp, getElem?_insert]
  split_ifs with hk
  · subst hk
    rfl
  · exact (Int.add_zero _).symm

open Charge

/-- **A charge** that comes in time keeps what the others rest on. -/
theorem Backed.charge (h : Backed ip t self) {charge : Charge}
    (hin : charge.ip = ip ∨ self.limiter.SweepsFor charge.ip →
      charge.time ≤ t + self.limiter.windowMs) : Backed ip t (self.charge charge) where
  left := h.left
  timed := by
    have hopen : (self.fresh ++ [charge] ++ self.stale).countP (At ip t) =
        (self.fresh ++ self.stale).countP (At ip t) + [charge].countP (At ip t) := by
      simp only [List.countP_append]
      omega
    have hexpire (hle : charge.time ≤ t + self.limiter.windowMs) (timestamps : List ℤ) :
        (self.limiter.expire charge.time timestamps).count t = timestamps.count t :=
      count_expire (by omega) timestamps
    have htimed := h.timed
    change (self.fresh ++ [charge] ++ self.stale).countP _ ≤ _
    rw [hopen, Till.charge, bucket_commit]
    split_ifs with hip hsweep
    · have hone : [charge].countP (At ip t) = [charge.time].count t := by
        by_cases htime : charge.time = t <;> simp [At, hip, htime]
      rw [List.count_append, hexpire (hin (.inl hip)), hip]
      omega
    · have hnone : [charge].countP (At ip t) = 0 := by simp [At, hip]
      rw [hexpire (hin (.inr hsweep)), hnone]
      exact htimed
    · have hnone : [charge].countP (At ip t) = 0 := by simp [At, hip]
      rw [hnone]
      exact htimed
  counted k hk := by
    have hcounted := h.counted k hk
    rw [Till.charge, charges_commit]
    by_cases hkey : charge.key = k
    · simp [hcounted]
    · simp [hcounted]

/-! ## Releases -/

theorem charges_refund (counts : ExtTreeMap String ℤ) (key a : String) :
    ((refund counts key)[a]?).getD 0 = (counts[a]?).getD 0 -
      if key = a ∧ (0 : ℤ) < (counts[a]?).getD 0 then 1 else 0 := by
  rw [refund]
  by_cases hkey : key = a
  · subst hkey
    cases hget : counts[key]? with
    | none => simp [hget]
    | some used =>
      simp only [Option.getD_some, true_and]
      by_cases hnone : used ≤ 0
      · rw [if_pos hnone, if_neg (Int.not_lt.mpr hnone), hget, Option.getD_some, Int.sub_zero]
      · rw [if_neg hnone, if_pos (Int.not_le.mp hnone)]
        by_cases hone : used - 1 = 0
        · rw [if_pos hone, getElem?_erase, if_pos rfl, Option.getD_none, hone]
        · rw [if_neg hone, getElem?_insert, if_pos rfl, Option.getD_some]
  · rw [if_neg (fun h => hkey h.1), Int.sub_zero]
    cases hget : counts[key]? with
    | none => rfl
    | some used =>
      dsimp only
      split_ifs
      · rfl
      · rw [getElem?_erase, if_neg hkey]
      · rw [getElem?_insert, if_neg hkey]

/-- What a release does to the count of an identity. -/
theorem charges_release (charge : Charge) (k : String) :
    l.charges k - (if charge.key = k ∧ 0 < l.charges k then 1 else 0) ≤
      (l.releaseCommitted charge.time charge.ip charge.pk charge.c).1.charges k := by
  obtain hfailed | ⟨-, hreleased⟩ :=
    l.releaseCommitted_cases charge.time charge.ip charge.pk charge.c
  · rw [hfailed]
    dsimp only
    split_ifs <;> omega
  · rw [hreleased]
    exact (charges_refund l.pkCount charge.key k).ge

/-- What a release does to the times of a source. -/
theorem count_release (charge : Charge) (ip : String) (t : ℤ) :
    (l.bucket ip).count t - [charge].countP (At ip t) ≤
      ((l.releaseCommitted charge.time charge.ip charge.pk charge.c).1.bucket ip).count t := by
  obtain hfailed | ⟨-, hreleased⟩ :=
    l.releaseCommitted_cases charge.time charge.ip charge.pk charge.c
  · rw [hfailed]
    exact Nat.sub_le _ _
  · rw [hreleased, bucket_putBucket]
    split_ifs with hip
    · rw [hip, List.count_erase]
      by_cases htime : charge.time = t <;> simp [At, hip, htime]
    · exact Nat.sub_le _ _

/-- Taking an open charge out of the two lists takes it out of what is open. -/
theorem countP_release {charge : Charge} (hopen : charge ∈ self.fresh ∨ charge ∈ self.stale)
    (p : Charge → Bool) :
    ((self.release charge).fresh ++ (self.release charge).stale).countP p + [charge].countP p =
      (self.fresh ++ self.stale).countP p := by
  have herase {l : List Charge} (hmem : charge ∈ l) :
      (l.erase charge).countP p + [charge].countP p = l.countP p := by
    rw [(List.perm_cons_erase hmem).countP_eq p, List.countP_cons (l := l.erase charge),
      List.countP_singleton]
  simp only [release, List.countP_append]
  split_ifs with hfresh
  · have := herase hfresh
    omega
  · have := herase (hopen.resolve_left hfresh)
    rw [List.erase_of_not_mem hfresh]
    omega

/-- **A release of an open charge.** -/
theorem Backed.release (h : Backed ip t self) {charge : Charge}
    (hopen : charge ∈ self.fresh ∨ charge ∈ self.stale) : Backed ip t (self.release charge) where
  left := by
    simp only [Till.release]
    split_ifs
    · exact h.left
    · exact List.Subset.trans List.erase_subset h.left
  timed := by
    have hcount := countP_release hopen (At ip t)
    have hbucket := count_release self.limiter charge ip t
    have htimed := h.timed
    simp only [Till.release] at hcount ⊢
    omega
  counted k hk := by
    have hcharges := charges_release self.limiter charge k
    have hcounted := h.counted k hk
    simp only [Till.release] at hk ⊢
    by_cases hfresh : charge ∈ self.fresh
    · have hperm := (List.perm_cons_erase hfresh).countP_eq (·.key = k)
      rw [List.countP_cons] at hperm
      rw [hperm] at hcounted
      by_cases hkey : charge.key = k
      · simp only [hkey, decide_true, if_true] at hcounted hcharges
        split_ifs at hcharges
        · omega
        · omega
      · simp only [hkey, if_false, false_and] at hcounted hcharges
        omega
    · -- A charge of an earlier head is not of this identity.
      have hkey : charge.key ≠ k := hk charge (h.left (hopen.resolve_left hfresh))
      rw [if_neg (fun h => hkey h.1)] at hcharges
      rw [List.erase_of_not_mem hfresh]
      omega

/-! ## Runs -/

theorem Backed.step (h : Backed ip t self) {op : ChargeOp} (howns : self.Owns op)
    (hkeeps : self.Keeps ip t op) : Backed ip t (self.step op) := by
  have hcharge (op : ChargeOp) (hkeeps : self.Keeps ip t op) :
      Backed ip t ((self.limiter.charged op).elim self self.charge) := by
    cases hmade : self.limiter.charged op with
    | none => exact h
    | some charge => exact h.charge (hkeeps charge hmade)
  cases op with
  | observeTicket pk c n => exact h.observe (untouched_observeTicket _ pk c n)
  | setCurrentC c => exact h.setCurrentC c
  | check charge => exact hcharge _ hkeeps
  | commit charge => exact hcharge _ hkeeps
  | releaseCommitted charge => exact h.release howns

theorem Backed.run {ops : List ChargeOp} (h : Backed ip t self)
    (hall : Along (fun s op => s.Owns op ∧ s.Keeps ip t op) self ops) :
    Backed ip t (ops.foldl Till.step self) := by
  induction ops generalizing self with
  | nil => exact h
  | cons op ops ih =>
    obtain ⟨⟨howns, hkeeps⟩, hall⟩ := hall
    exact ih (h.step howns hkeeps) hall

theorem Along.imp {P Q : Till → ChargeOp → Prop} (hPQ : ∀ s op, P s op → Q s op)
    {ops : List ChargeOp} (h : Along P self ops) : Along Q self ops := by
  induction ops generalizing self with
  | nil => trivial
  | cons op ops ih => exact ⟨hPQ self op h.1, ih h.2⟩

theorem inherited_step {op : ChargeOp} (h : self.StaysAt op) :
    (self.step op).inherited = self.inherited := by
  cases op with
  | observeTicket pk c n => rfl
  | setCurrentC c =>
    have hc : self.limiter.currentC = some c := h
    rw [step, setCurrentC, if_pos hc]
  | check charge =>
    rw [step]
    cases self.limiter.charged (.check charge) <;> rfl
  | commit charge => rfl
  | releaseCommitted charge => rfl

theorem inherited_run {ops : List ChargeOp} (h : Along StaysAt self ops) :
    (ops.foldl Till.step self).inherited = self.inherited := by
  induction ops generalizing self with
  | nil => rfl
  | cons op ops ih => rw [List.foldl_cons, ih h.2, inherited_step h.1]

theorem windowMs_step (op : ChargeOp) :
    (self.step op).limiter.windowMs = self.limiter.windowMs := by
  cases op with
  | observeTicket pk c n =>
    exact congrArg (fun state => state.2.2.1) (untouched_observeTicket self.limiter pk c n).sourceState
  | setCurrentC c =>
    rw [step, setCurrentC]
    split_ifs
    · rfl
    · exact congrArg (fun state => state.2.2.1) (sourceState_setCurrentC self.limiter c)
  | check charge =>
    rw [step]
    cases self.limiter.charged (.check charge) <;> rfl
  | commit charge => rfl
  | releaseCommitted charge =>
    rw [step, release]
    obtain hfailed | ⟨-, hreleased⟩ :=
      self.limiter.releaseCommitted_cases charge.time charge.ip charge.pk charge.c
    · rw [hfailed]
    · rw [hreleased]

/-- Nothing that came before a time is later than the window after it. -/
theorem keeps_of_times {ops : List ChargeOp} (hwindow : 0 ≤ self.limiter.windowMs)
    (htimes : ∀ time ∈ ops.filterMap ChargeOp.time?, time ≤ t) (howns : Along Owns self ops) :
    Along (fun s op => s.Owns op ∧ s.Keeps ip t op) self ops := by
  induction ops generalizing self with
  | nil => trivial
  | cons op ops ih =>
    refine ⟨⟨howns.1, fun charge hmade _ => ?_⟩, ih (by rwa [windowMs_step]) (fun time hmem =>
      htimes time ?_) howns.2⟩
    · have htime : op.time? = some charge.time := by
        cases op with
        | check charge' =>
          rw [charged] at hmade
          split_ifs at hmade
          · rw [Option.mem_some.mp hmade]
            rfl
          · cases hmade
        | commit charge' =>
          rw [charged, Option.mem_some] at hmade
          rw [hmade]
          rfl
        | observeTicket pk c n => cases hmade
        | setCurrentC c => cases hmade
        | releaseCommitted charge' => cases hmade
      have := htimes charge.time (by simp [htime])
      omega
    · rw [List.filterMap_cons]
      cases op.time? with
      | none => exact hmem
      | some time' => exact List.mem_cons_of_mem _ hmem

/-- **An open charge that is backed is released,** and its identity has one less. -/
theorem Backed.refund {charge : Charge} (h : Backed charge.ip charge.time self)
    (hopen : charge ∈ self.fresh) (hnone : ∀ other ∈ self.inherited, other.key ≠ charge.key) :
    (self.limiter.releaseCommitted charge.time charge.ip charge.pk charge.c).2 = true ∧
      (self.limiter.releaseCommitted charge.time charge.ip charge.pk charge.c).1.charges charge.key =
        self.limiter.charges charge.key - 1 := by
  have htime : charge.time ∈ self.limiter.bucket charge.ip := by
    refine List.count_pos_iff.mp (Nat.lt_of_lt_of_le ?_ h.timed)
    exact List.countP_pos_iff.mpr ⟨charge, List.mem_append_left _ hopen, by simp [At]⟩
  have hcharges : 0 < self.limiter.charges charge.key := by
    have hone : 0 < self.fresh.countP (·.key = charge.key) :=
      List.countP_pos_iff.mpr ⟨charge, hopen, by simp⟩
    have := h.counted charge.key hnone
    omega
  have hany : ((self.limiter.pkCount[rateKey charge.pk charge.c]?).any fun used => 0 < used) = true := by
    rw [charges, key] at hcharges
    cases hget : self.limiter.pkCount[rateKey charge.pk charge.c]? with
    | none => simp [hget] at hcharges
    | some used => simpa [hget] using hcharges
  have hmem : ((self.limiter.ip[charge.ip]?).getD []).contains charge.time = true := by
    simpa [bucket] using htime
  have hreleased : (self.limiter.releaseCommitted charge.time charge.ip charge.pk charge.c).2 =
      true := by
    simp only [releaseCommitted, hmem, hany, not_true_eq_false, if_false, false_and]
  refine ⟨hreleased, ?_⟩
  obtain hfailed | ⟨-, heq⟩ :=
    self.limiter.releaseCommitted_cases charge.time charge.ip charge.pk charge.c
  · rw [hfailed] at hreleased
    cases hreleased
  · rw [heq]
    refine (charges_refund self.limiter.pkCount charge.key charge.key).trans ?_
    rw [if_pos ⟨rfl, hcharges⟩]
    rfl

/-- **A charge is refunded exactly.**  In any run whose charges come in the order of their times and
whose releases are of open charges, a charge made at a head that then stays can be released as long
as it is open, and the count of its identity goes down by one — provided that no charge that drops
times of its source comes more than the window after it, and that none of the same identity was left
from before the head was set. -/
theorem refund_exact (m : ℤ) (limit : ℕ) {window : ℤ} (hwindow : 0 ≤ window)
    {before after : List ChargeOp} {charge : Charge}
    (htimes : ((before ++ .commit charge :: after).filterMap ChargeOp.time?).Pairwise (· ≤ ·))
    (hbefore : Along Owns (start m limit window) before)
    (hafter : Along (fun s op => s.Owns op ∧ s.StaysAt op ∧ s.Keeps charge.ip charge.time op)
      ((before.foldl Till.step (start m limit window)).charge charge) after)
    (hnone : ∀ other ∈ (before.foldl Till.step (start m limit window)).inherited,
      other.key ≠ charge.key) :
    let s := after.foldl Till.step ((before.foldl Till.step (start m limit window)).charge charge)
    charge ∈ s.fresh →
      (s.limiter.releaseCommitted charge.time charge.ip charge.pk charge.c).2 = true ∧
      (s.limiter.releaseCommitted charge.time charge.ip charge.pk charge.c).1.charges charge.key =
        s.limiter.charges charge.key - 1 := by
  intro s hopen
  have hearlier : ∀ time ∈ before.filterMap ChargeOp.time?, time ≤ charge.time := by
    intro time hmem
    rw [List.filterMap_append, List.pairwise_append] at htimes
    exact htimes.2.2 time hmem charge.time (by simp [ChargeOp.time?])
  have hwindows : (before.foldl Till.step (start m limit window)).limiter.windowMs = window := by
    refine List.foldlRecOn before Till.step
      (motive := fun s : Till => s.limiter.windowMs = window) rfl fun s hs op _ => ?_
    rw [windowMs_step, hs]
  have hs₀ : Backed charge.ip charge.time (before.foldl Till.step (start m limit window)) :=
    (backed_start m limit window charge.ip charge.time).run
      (keeps_of_times hwindow hearlier hbefore)
  have hs₁ : Backed charge.ip charge.time
      ((before.foldl Till.step (start m limit window)).charge charge) :=
    hs₀.charge fun _ => by omega
  have hs : Backed charge.ip charge.time s :=
    hs₁.run (hafter.imp fun _ _ hop => ⟨hop.1, hop.2.2⟩)
  refine hs.refund hopen ?_
  rw [show s.inherited = _ from inherited_run (hafter.imp fun _ _ hop => hop.2.1)]
  exact hnone

/-- A charge, and one of another key within the window. -/
theorem refund_exact_in_time :
    let charge : Charge := ⟨0, "a", "p", "c"⟩
    let s := [ChargeOp.commit ⟨10, "a", "q", "c"⟩].foldl Till.step
      (([ChargeOp.setCurrentC "c"].foldl Till.step (start 1 2 10)).charge charge)
    (s.limiter.releaseCommitted charge.time charge.ip charge.pk charge.c).2 = true ∧
      s.limiter.charges charge.key = 1 := by
  refine ⟨(@refund_exact 1 2 10 (by decide) [.setCurrentC "c"] [.commit ⟨10, "a", "q", "c"⟩]
    ⟨0, "a", "p", "c"⟩ (by decide) ⟨trivial, trivial⟩
    ⟨⟨trivial, trivial, fun other hother _ => ?_⟩, trivial⟩ ?_ ?_).1, ?_⟩
  · rw [← Option.mem_some.mp hother]
    decide +kernel
  · decide +kernel
  · decide +kernel
  · decide +kernel

/-- The second submission comes eleven milliseconds after the first, with a window of ten. -/
def lateOps : List ChargeOp :=
  [.setCurrentC "c", .observeTicket "p" "c" none, .check ⟨0, "a", "p", "c"⟩,
    .check ⟨11, "a", "p", "c"⟩]

/-- **A charge whose time was dropped is stranded:** both submissions were charged, the first one is
open, and yet its release fails and leaves the count at two. -/
theorem refund_stranded :
    let s := lateOps.foldl Till.step (start 2 5 10)
    s.fresh = [⟨0, "a", "p", "c"⟩, ⟨11, "a", "p", "c"⟩] ∧ s.inherited = [] ∧
      s.limiter.charges "p|c" = 2 ∧
      (s.limiter.releaseCommitted 0 "a" "p" "c").2 = false ∧
      (s.limiter.releaseCommitted 0 "a" "p" "c").1.charges "p|c" = 2 := by
  decide +kernel

end Till

end Core
