import Boole.Core.RateLimiter
import Boole.Library.OrderedSet
import Mathlib.Algebra.Order.Ring.Int
import Mathlib.Tactic.Linarith

/-!
# Core/RateQuotas — what the rate limiter never lets through

A limiter keeps a bucket of times for each source and counts for each identity, a key at a head.
Buckets are emptied lazily and only from the front; releases take times out of the middle.

    bucket of a source    t₁ ≤ ⋯ ≤ tₖ │ ≤ ⋯ ≤ tₙ        before the bar: older than the window,
                                      now - window      dropped at the next charge or not at all

The bucket is compared with the times of the admissions that were not released: **from the start of
the window on the two agree** (`Windowed.kept`), whatever was dropped before.  Hence the quotas
(`rate_quotas`): per source in every interval as long as the window, and per identity a multiple of
the tickets it was seen with.
-/

open Std Library

namespace Core

open RateLimiter

/-! ## Counting -/

section Counting

variable {α : Type*}

/-- Lists that agree on how often each value of a kind occurs have as many of that kind. -/
theorem countP_eq_of_count [DecidableEq α] {p : α → Bool} {l l' : List α}
    (h : ∀ a, p a = true → l.count a = l'.count a) : l.countP p = l'.countP p := by
  have hperm : (l.filter p).Perm (l'.filter p) := by
    refine List.perm_iff_count.mpr fun a => ?_
    by_cases hp : p a = true
    · rw [List.count_filter hp, List.count_filter hp, h a hp]
    · rw [List.count_eq_zero_of_not_mem (by simp [hp]), List.count_eq_zero_of_not_mem (by simp [hp])]
  rw [List.countP_eq_length_filter, List.countP_eq_length_filter, hperm.length_eq]

/-- Dropping a front without a value does not change how often it occurs. -/
theorem count_dropWhile [DecidableEq α] {q : α → Bool} {a : α} (hq : q a = false) (l : List α) :
    (l.dropWhile q).count a = l.count a := by
  have hfront : a ∉ l.takeWhile q := fun hmem =>
    absurd (List.all_eq_true.mp List.all_takeWhile a hmem) (by simp [hq])
  nth_rewrite 2 [← List.takeWhile_append_dropWhile (p := q) (l := l)]
  rw [List.count_append, List.count_eq_zero_of_not_mem hfront, Nat.zero_add]

theorem count_dropWhile_le [DecidableEq α] (q : α → Bool) (a : α) (l : List α) :
    (l.dropWhile q).count a ≤ l.count a := (List.dropWhile_sublist q).count_le a

end Counting

variable (self : RateLimiter)

namespace RateLimiter

/-! ## Sources -/

/-- The times kept for a source. -/
def bucket (ip : String) : List ℤ := (self.ip[ip]?).getD []

/-- What a charge at a time drops from the front of a bucket. -/
def expire (now : ℤ) (timestamps : List ℤ) : List ℤ :=
  timestamps.dropWhile (· < now - self.windowMs)

/-- A charge of a new source looks through a full table. -/
def SweepsFor (ip : String) : Prop :=
  ip ∉ self.ip ∧ maxActiveRateSourceIps ≤ self.ip.size

instance (self : RateLimiter) (ip : String) : Decidable (self.SweepsFor ip) :=
  inferInstanceAs (Decidable (_ ∧ _))

variable {self : RateLimiter} {now : ℤ} {ip pk c : String}

theorem bucket_of_notMem (h : ip ∉ self.ip) : self.bucket ip = [] := by
  rw [bucket, ExtTreeMap.getElem?_eq_none h]
  rfl

/-- The table that a charge writes to. -/
def swept (now : ℤ) (ip : String) : ExtTreeMap String (List ℤ) :=
  if ¬self.ip.contains ip ∧ maxActiveRateSourceIps ≤ self.ip.size then
    (self.ip.map fun _ timestamps => self.expire now timestamps).filter fun _ timestamps =>
      timestamps ≠ []
  else self.ip

theorem ip_commit : (self.commit now ip pk c).ip =
    (self.swept now ip).insert ip (self.expire now (((self.swept now ip)[ip]?).getD []) ++ [now]) :=
  rfl

theorem swept_of_not (h : ¬self.SweepsFor ip) : self.swept now ip = self.ip := by
  rw [swept, if_neg]
  rwa [ExtTreeMap.contains_iff_mem]

theorem getElem?_swept (h : self.SweepsFor ip) (source : String) : (self.swept now ip)[source]? =
    ((self.ip[source]?).map (self.expire now)).filter fun timestamps => timestamps ≠ [] := by
  have hcond : ¬self.ip.contains ip = true ∧ maxActiveRateSourceIps ≤ self.ip.size := h
  rw [swept, if_pos hcond, ExtTreeMap.getElem?_filter', ExtTreeMap.getElem?_map]

theorem getD_filter_ne_nil (b : Option (List ℤ)) :
    (b.filter fun timestamps => timestamps ≠ []).getD [] = b.getD [] := by
  cases b with
  | none => rfl
  | some timestamps => by_cases h : timestamps = [] <;> simp [Option.filter, h]

/-- **What a charge does to the buckets:** the source's own loses what is expired and gains the time;
the others lose something only in a sweep. -/
theorem bucket_commit (source : String) : (self.commit now ip pk c).bucket source =
    if ip = source then self.expire now (self.bucket ip) ++ [now]
    else if self.SweepsFor ip then self.expire now (self.bucket source)
    else self.bucket source := by
  rw [bucket, ip_commit, getElem?_insert]
  by_cases hsweep : self.SweepsFor ip
  · have hread (s : String) : ((self.swept now ip)[s]?).getD [] = self.expire now (self.bucket s) := by
      rw [getElem?_swept hsweep, getD_filter_ne_nil, bucket]
      cases self.ip[s]? <;> rfl
    split_ifs
    · rw [hread, bucket_of_notMem hsweep.1]
      rfl
    · exact hread source
  · rw [swept_of_not hsweep]
    split_ifs <;> rfl

theorem count_expire {ts : ℤ} (h : now - self.windowMs ≤ ts) (timestamps : List ℤ) :
    (self.expire now timestamps).count ts = timestamps.count ts :=
  count_dropWhile (by simpa using h) timestamps

/-- A source that is still in the table after a sweep was active in the window. -/
theorem size_swept_le (h : self.SweepsFor ip) :
    (self.swept now ip).size ≤ self.activeSources (now - self.windowMs) := by
  rw [activeSources, List.countP_eq_length_filter, ← List.length_map Prod.fst,
    ← ExtTreeMap.length_keys]
  refine List.Nodup.length_le_of_subset ExtTreeMap.nodup_keys fun source hmem => ?_
  rw [ExtTreeMap.mem_keys, mem_iff_exists, getElem?_swept h] at hmem
  obtain ⟨left, hleft⟩ := hmem
  obtain ⟨hleft, hne⟩ := Option.filter_eq_some_iff.mp hleft
  obtain ⟨timestamps, hget, rfl⟩ := Option.map_eq_some_iff.mp hleft
  refine List.mem_map.mpr ⟨(source, timestamps), List.mem_filter.mpr
    ⟨mem_toList_iff.mpr hget, ?_⟩, rfl⟩
  -- The first time that is left is in the window.
  have hne : timestamps.dropWhile (· < now - self.windowMs) ≠ [] := of_decide_eq_true hne
  have hhead := List.head_dropWhile_not (· < now - self.windowMs) hne
  refine List.any_eq_true.mpr ⟨_, (List.dropWhile_sublist _).subset (List.head_mem hne), ?_⟩
  simpa using hhead

/-! ## What a check passes -/

/-- What a successful look says. -/
structure Allowed (l : RateLimiter) (now : ℤ) (ip pk c : String) : Prop where
  source : (l.bucket ip).countP (fun ts => now - l.windowMs ≤ ts) < l.perIpRateLimitPer60s
  sources : ip ∉ l.ip → l.activeSources (now - l.windowMs) < maxActiveRateSourceIps
  identity : (l.pkCount[rateKey pk c]?).getD 0 < (l.pkTickets[rateKey pk c]?).getD 0 * l.m

theorem peek_eq_ok (h : self.peek now ip pk c = .ok ()) : self.Allowed now ip pk c := by
  simp only [peek] at h
  split_ifs at h with hsource hsources hidentity
  rw [not_and, Nat.not_le] at hsources
  exact ⟨Nat.not_le.mp hsource, hsources, Int.not_le.mp hidentity⟩

/-- `check`: look, then charge. -/
def check (now : ℤ) (ip pk c : String) : RateLimiter × Except RateLimitRejectReason Unit :=
  match self.peek now ip pk c with
  | .ok () => (self.commit now ip pk c, .ok ())
  | .error reason => (self, .error reason)

/-! ## Releases -/

/-- A bucket in a table; an empty one is not kept. -/
def putBucket (table : ExtTreeMap String (List ℤ)) (ip : String) (timestamps : List ℤ) :
    ExtTreeMap String (List ℤ) :=
  if timestamps = [] then table.erase ip else table.insert ip timestamps

theorem getD_putBucket (table : ExtTreeMap String (List ℤ)) (ip source : String)
    (timestamps : List ℤ) : ((putBucket table ip timestamps)[source]?).getD [] =
      if ip = source then timestamps else (table[source]?).getD [] := by
  rw [putBucket]
  by_cases hempty : timestamps = []
  · rw [if_pos hempty, getElem?_erase]
    split_ifs
    · exact hempty.symm
    · rfl
  · rw [if_neg hempty, getElem?_insert]
    split_ifs <;> rfl

theorem bucket_putBucket (ip source : String) (timestamps : List ℤ) (pkCount : ExtTreeMap String ℤ) :
    bucket { self with ip := putBucket self.ip ip timestamps, pkCount } source =
      if ip = source then timestamps else self.bucket source :=
  getD_putBucket _ _ _ _

/-- **What a release does:** it either takes one time out of the source's bucket and one charge off
the identity, or changes nothing. -/
theorem releaseCommitted_cases (now : ℤ) (ip pk c : String) :
    self.releaseCommitted now ip pk c = (self, false) ∨
      (now ∈ self.bucket ip ∧ self.releaseCommitted now ip pk c = ({ self with
        ip := putBucket self.ip ip ((self.bucket ip).erase now)
        pkCount := refund self.pkCount (rateKey pk c) }, true)) := by
  rw [releaseCommitted]
  by_cases hmem : ((self.ip[ip]?).getD []).contains now = true
  · rw [if_neg (not_not.mpr hmem)]
    split
    · exact .inl rfl
    · exact .inr ⟨by simpa [bucket] using hmem, rfl⟩
  · rw [if_pos hmem]
    exact .inl rfl

end RateLimiter

/-! ## Runs -/

/-- What is done to a limiter. -/
inductive RateOp
  | observeTicket (pk c : String) (n : Option String)
  | setCurrentC (c : String)
  | check (now : ℤ) (ip pk c : String)
  | releaseCommitted (now : ℤ) (ip pk c : String)

/-- When an operation looks at the clock; a release names the time of the charge it takes back. -/
def RateOp.time? : RateOp → Option ℤ
  | .check now _ _ _ => some now
  | _ => none

/-- The times at which each source was admitted and not released. -/
abbrev Admissions := String → List ℤ

namespace Admissions

variable (self : Admissions)

def charge (ip : String) (now : ℤ) : Admissions := fun source =>
  if ip = source then self source ++ [now] else self source

def discharge (ip : String) (now : ℤ) : Admissions := fun source =>
  if ip = source then (self source).erase now else self source

/-- How many a source has in an interval. -/
def within (ip : String) (first last : ℤ) : ℕ :=
  (self ip).countP fun ts => first ≤ ts ∧ ts ≤ last

end Admissions

/-- A limiter, with its unreleased admissions. -/
structure Metered where
  limiter : RateLimiter
  admitted : Admissions

namespace Metered

def start (m : ℤ) (limit : ℕ) (window : ℤ) : Metered :=
  ⟨RateLimiter.new m limit window, fun _ => []⟩

def step (self : Metered) : RateOp → Metered
  | .observeTicket pk c n => { self with limiter := (self.limiter.observeTicket pk c n).1 }
  | .setCurrentC c => { self with limiter := self.limiter.setCurrentC c }
  | .check now ip pk c =>
    { limiter := (self.limiter.check now ip pk c).1
      admitted := if (self.limiter.check now ip pk c).2.isOk then self.admitted.charge ip now
        else self.admitted }
  | .releaseCommitted now ip pk c =>
    { limiter := (self.limiter.releaseCommitted now ip pk c).1
      admitted := if (self.limiter.releaseCommitted now ip pk c).2 then
          self.admitted.discharge ip now
        else self.admitted }

end Metered

/-! ## The window of a source -/

/-- **The buckets agree with the unreleased admissions from the start of the window on.**  `clock` is
a time no later than the next check. -/
structure Windowed (limit : ℕ) (window clock : ℤ) (l : RateLimiter) (admitted : Admissions) :
    Prop where
  caps : l.perIpRateLimitPer60s = limit ∧ l.windowMs = window
  kept : ∀ ip ts, clock - window ≤ ts → (l.bucket ip).count ts = (admitted ip).count ts
  known : ∀ ip ts, (l.bucket ip).count ts ≤ (admitted ip).count ts
  quota : ∀ ip first, admitted.within ip first (first + window) ≤ limit
  sources : l.ip.size ≤ maxActiveRateSourceIps

section Window

variable {limit : ℕ} {window clock now : ℤ} {l l' : RateLimiter} {admitted : Admissions}
  {ip pk c : String}

theorem windowed_new (m : ℤ) (limit : ℕ) (window clock : ℤ) :
    Windowed limit window clock (new m limit window) fun _ => [] where
  caps := ⟨rfl, rfl⟩
  kept ip ts _ := by simp [bucket, new]
  known ip ts := by simp [bucket, new]
  quota ip first := by simp [Admissions.within]
  sources := by simp [new]

/-- The part of a limiter that has nothing to do with identities. -/
def RateLimiter.sourceState : ExtTreeMap String (List ℤ) × ℕ × ℤ × ℤ :=
  (self.ip, self.perIpRateLimitPer60s, self.windowMs, self.m)

/-- What leaves the sources alone. -/
theorem Windowed.congr (h : Windowed limit window clock l admitted)
    (hl : l'.sourceState = l.sourceState) : Windowed limit window clock l' admitted := by
  simp only [sourceState, Prod.mk.injEq] at hl
  obtain ⟨hip, hlimit, hwindow, -⟩ := hl
  have hbucket (ip : String) : l'.bucket ip = l.bucket ip := by
    rw [bucket, hip, bucket]
  refine ⟨?_, fun ip ts => ?_, fun ip ts => ?_, h.quota, ?_⟩
  · rw [hlimit, hwindow]
    exact h.caps
  · rw [hbucket]
    exact h.kept ip ts
  · rw [hbucket]
    exact h.known ip ts
  · rw [hip]
    exact h.sources

/-- A later clock. -/
theorem Windowed.later (h : Windowed limit window clock l admitted) (hle : clock ≤ now) :
    Windowed limit window now l admitted :=
  { h with kept := fun ip ts hts => h.kept ip ts (by omega) }

theorem RateLimiter.size_commit_le (hallowed : l.Allowed now ip pk c)
    (hsize : l.ip.size ≤ maxActiveRateSourceIps) :
    (l.commit now ip pk c).ip.size ≤ maxActiveRateSourceIps := by
  rw [ip_commit]
  by_cases hsweep : l.SweepsFor ip
  · have hswept : (l.swept now ip).size ≤ _ := size_swept_le hsweep
    have hactive := hallowed.sources hsweep.1
    exact ExtTreeMap.size_insert_le.trans (by omega)
  · rw [swept_of_not hsweep, ExtTreeMap.size_insert]
    split_ifs with hmem
    · exact hsize
    · have : ¬maxActiveRateSourceIps ≤ l.ip.size := fun hfull => hsweep ⟨hmem, hfull⟩
      omega

/-- **An admission:** the source had fewer in the window, so it has no more than the limit with this
one, in every interval this one is in. -/
theorem Windowed.charge (h : Windowed limit window clock l admitted) (hle : clock ≤ now)
    (hallowed : l.Allowed now ip pk c) :
    Windowed limit window now (l.commit now ip pk c) (admitted.charge ip now) := by
  obtain ⟨hlimit, hwindow⟩ := h.caps
  have hkept := (h.later hle).kept
  refine ⟨h.caps, fun source ts hts => ?_, fun source ts => ?_, fun source first => ?_,
    size_commit_le hallowed h.sources⟩
  · have hcount (timestamps : List ℤ) : (l.expire now timestamps).count ts = timestamps.count ts :=
      count_expire (by rw [hwindow]; exact hts) timestamps
    rw [bucket_commit, Admissions.charge]
    split_ifs with hsource
    · subst hsource
      rw [List.count_append, List.count_append, hcount, hkept ip ts hts]
    · rw [hcount, hkept source ts hts]
    · exact hkept source ts hts
  · have hcount (timestamps : List ℤ) : (l.expire now timestamps).count ts ≤ timestamps.count ts :=
      count_dropWhile_le _ ts timestamps
    rw [bucket_commit, Admissions.charge]
    split_ifs with hsource
    · subst hsource
      rw [List.count_append, List.count_append]
      exact Nat.add_le_add_right ((hcount _).trans (h.known ip ts)) _
    · exact (hcount _).trans (h.known source ts)
    · exact h.known source ts
  · have hquota := h.quota source first
    rw [Admissions.within] at hquota ⊢
    rw [Admissions.charge]
    split_ifs with hsource
    · subst hsource
      rw [List.countP_append]
      by_cases hin : first ≤ now ∧ now ≤ first + window
      · -- All of the interval that was admitted before is in the window of this admission.
        have hmono : (admitted ip).countP (fun ts => first ≤ ts ∧ ts ≤ first + window) ≤
            (admitted ip).countP fun ts => now - window ≤ ts :=
          List.countP_mono_left fun ts _ hts => by
            simp only [decide_eq_true_eq] at hts ⊢
            omega
        have hsame : (admitted ip).countP (fun ts => now - window ≤ ts) =
            (l.bucket ip).countP fun ts => now - window ≤ ts :=
          countP_eq_of_count fun ts hts => (hkept ip ts (of_decide_eq_true hts)).symm
        have hfew := hallowed.source
        rw [hwindow] at hfew
        have hone : [now].countP (fun ts => decide (first ≤ ts ∧ ts ≤ first + window)) ≤ 1 :=
          List.countP_le_length
        omega
      · rw [List.countP_singleton, if_neg (by simpa using hin)]
        exact hquota
    · exact hquota

/-- **A release** takes one time out of the bucket and out of the admissions. -/
theorem Windowed.discharge (h : Windowed limit window clock l admitted)
    (hmem : now ∈ l.bucket ip) (pkCount : ExtTreeMap String ℤ) : Windowed limit window clock
      { l with ip := putBucket l.ip ip ((l.bucket ip).erase now), pkCount }
      (admitted.discharge ip now) := by
  refine ⟨h.caps, fun source ts hts => ?_, fun source ts => ?_, fun source first => ?_, ?_⟩
  · rw [bucket_putBucket, Admissions.discharge]
    split_ifs with hsource
    · subst hsource
      rw [List.count_erase, List.count_erase, h.kept ip ts hts]
    · exact h.kept source ts hts
  · rw [bucket_putBucket, Admissions.discharge]
    split_ifs with hsource
    · subst hsource
      rw [List.count_erase, List.count_erase]
      exact Nat.sub_le_sub_right (h.known ip ts) _
    · exact h.known source ts
  · refine Nat.le_trans ?_ (h.quota source first)
    rw [Admissions.within, Admissions.discharge]
    split_ifs
    · exact List.erase_sublist.countP_le
    · exact le_rfl
  · dsimp only [putBucket]
    split_ifs
    · exact ExtTreeMap.size_erase_le.trans h.sources
    · have hactive : ip ∈ l.ip := by
        by_contra hnot
        rw [bucket_of_notMem hnot] at hmem
        cases hmem
      rw [ExtTreeMap.size_insert, if_pos (ExtTreeMap.contains_iff_mem.mpr hactive)]
      exact h.sources

end Window

/-! ## Identities -/

namespace RateLimiter

/-- The tickets an identity was seen with. -/
def tickets (k : String) : ℤ := (self.pkTickets[k]?).getD 0

/-- What an identity was charged. -/
def charges (k : String) : ℤ := (self.pkCount[k]?).getD 0

end RateLimiter

/-- **The tables of the identities:** all speak of tracked ones only, of which there are not too many;
every charge is positive and within the multiple of the tickets. -/
structure Tracked (l : RateLimiter) : Prop where
  queued : Queued l.trackedIdentities l.identityOrder
  few : l.identityOrder.length ≤ maxCurrentHeadRateIdentities
  charged : ∀ k ∈ l.pkCount, k ∈ l.trackedIdentities
  ticketed : ∀ k ∈ l.pkTickets, k ∈ l.trackedIdentities
  exactly : ∀ k ∈ l.exactTicketsPerPkC, k ∈ l.trackedIdentities
  seen : ∀ (k : String) v, l.pkTickets[k]? = some v → 0 ≤ v
  quota : ∀ (k : String) used, l.pkCount[k]? = some used → 0 < used ∧ used ≤ l.tickets k * l.m

section Identity

variable {l l' : RateLimiter} {k : String} {now : ℤ} {ip pk c : String}

theorem mem_countUp {counts : ExtTreeMap String ℤ} {a : String} :
    a ∈ countUp counts k ↔ k = a ∨ a ∈ counts := by
  rw [countUp, ExtTreeMap.mem_insert, LawfulEqCmp.compare_eq_iff_eq]

theorem tracked_clear (l : RateLimiter) : Tracked l.clearIdentityState where
  queued := Queued.empty
  few := Nat.zero_le _
  charged := by simp [clearIdentityState]
  ticketed := by simp [clearIdentityState]
  exactly := by simp [clearIdentityState]
  seen := by simp [clearIdentityState]
  quota := by simp [clearIdentityState]

theorem Tracked.setCurrentC (h : Tracked l) (c : String) : Tracked (l.setCurrentC c) := by
  rw [RateLimiter.setCurrentC]
  split_ifs
  · exact h
  · exact tracked_clear _

theorem Tracked.tickets_nonneg (h : Tracked l) (k : String) : 0 ≤ l.tickets k := by
  rw [tickets]
  cases hget : l.pkTickets[k]? with
  | none => exact le_rfl
  | some v => exact h.seen k v hget

/-- What is left when an identity is forgotten everywhere. -/
theorem Tracked.forget (h : Tracked l) {position : ℕ} (hk : l.identityOrder[position]? = some k) :
    Tracked { l with
      identityOrder := l.identityOrder.eraseIdx position
      trackedIdentities := l.trackedIdentities.erase k
      pkCount := l.pkCount.erase k
      pkTickets := l.pkTickets.erase k
      exactTicketsPerPkC := l.exactTicketsPerPkC.erase k } where
  queued := h.queued.eraseIdx hk
  few := (List.length_eraseIdx_le _ _).trans h.few
  charged a ha := by
    obtain ⟨hne, ha⟩ := ExtTreeMap.mem_erase.mp ha
    exact ExtTreeSet.mem_erase.mpr ⟨hne, h.charged a ha⟩
  ticketed a ha := by
    obtain ⟨hne, ha⟩ := ExtTreeMap.mem_erase.mp ha
    exact ExtTreeSet.mem_erase.mpr ⟨hne, h.ticketed a ha⟩
  exactly a ha := by
    obtain ⟨hne, ha⟩ := ExtTreeMap.mem_erase.mp ha
    exact ExtTreeSet.mem_erase.mpr ⟨hne, h.exactly a ha⟩
  seen a v hv := by
    rw [getElem?_erase] at hv
    split_ifs at hv
    exact h.seen a v hv
  quota a used hused := by
    rw [getElem?_erase] at hused
    split_ifs at hused with hka
    have hquota := h.quota a used hused
    rw [tickets] at hquota ⊢
    rwa [getElem?_erase, if_neg hka]

theorem evictIdentity_eq_some (he : l.evictIdentity = some l') : ∃ position oldest,
    l.identityOrder[position]? = some oldest ∧ (∀ used ∈ l.pkCount[oldest]?, used = 0) ∧
    l' = { l with
      identityOrder := l.identityOrder.eraseIdx position
      trackedIdentities := l.trackedIdentities.erase oldest
      pkCount := l.pkCount.erase oldest
      pkTickets := l.pkTickets.erase oldest
      exactTicketsPerPkC := l.exactTicketsPerPkC.erase oldest } := by
  obtain ⟨position, hposition, he⟩ := Option.bind_eq_some_iff.mp he
  obtain ⟨oldest, holdest, rfl⟩ := Option.map_eq_some_iff.mp he
  obtain ⟨hlt, hfree, -⟩ := List.findIdx?_eq_some_iff_getElem.mp hposition
  obtain ⟨_, heq⟩ := List.getElem?_eq_some_iff.mp holdest
  rw [heq] at hfree
  refine ⟨position, oldest, holdest, fun used hused => ?_, rfl⟩
  rw [Option.mem_def] at hused
  simpa [hused] using hfree

/-- A new identity at the end of the order. -/
def RateLimiter.enroll (identity : String) : RateLimiter :=
  { self with
    trackedIdentities := self.trackedIdentities.insert identity
    identityOrder := self.identityOrder ++ [identity] }

/-- **How an identity comes to be tracked:** it was, there is room, or one without charges makes
way. -/
theorem trackIdentity_eq_some (ht : l.trackIdentity k = some l') :
    (k ∈ l.trackedIdentities ∧ l' = l) ∨
    (k ∉ l.trackedIdentities ∧ l.trackedIdentities.size < maxCurrentHeadRateIdentities ∧
      l' = l.enroll k) ∨
    (k ∉ l.trackedIdentities ∧ ∃ roomy, l.evictIdentity = some roomy ∧ l' = roomy.enroll k) := by
  rw [trackIdentity] at ht
  by_cases hknown : k ∈ l.trackedIdentities
  · rw [if_pos (ExtTreeSet.contains_iff_mem.mpr hknown)] at ht
    exact .inl ⟨hknown, (Option.some.inj ht).symm⟩
  · rw [if_neg (mt ExtTreeSet.contains_iff_mem.mp hknown)] at ht
    obtain ⟨roomy, hroomy, rfl⟩ := Option.map_eq_some_iff.mp ht
    split_ifs at hroomy with hfull
    · exact .inr (.inr ⟨hknown, roomy, hroomy, rfl⟩)
    · obtain rfl := Option.some.inj hroomy
      exact .inr (.inl ⟨hknown, Nat.not_le.mp hfull, rfl⟩)

theorem Tracked.enroll (h : Tracked l) (hk : k ∉ l.trackedIdentities)
    (hroom : l.identityOrder.length < maxCurrentHeadRateIdentities) : Tracked (l.enroll k) where
  queued := h.queued.push hk
  few := by
    rw [RateLimiter.enroll, List.length_append]
    exact hroom
  charged a ha := ExtTreeSet.mem_insert.mpr (.inr (h.charged a ha))
  ticketed a ha := ExtTreeSet.mem_insert.mpr (.inr (h.ticketed a ha))
  exactly a ha := ExtTreeSet.mem_insert.mpr (.inr (h.exactly a ha))
  seen := h.seen
  quota := h.quota

/-- What observing leaves as it is: the sources, and what each identity was charged. -/
structure Untouched (l l' : RateLimiter) : Prop where
  sourceState : l'.sourceState = l.sourceState
  charges : ∀ k, l'.charges k = l.charges k

theorem untouched_trackIdentity (ht : l.trackIdentity k = some l') : Untouched l l' := by
  obtain ⟨-, rfl⟩ | ⟨-, -, rfl⟩ | ⟨-, roomy, he, rfl⟩ := trackIdentity_eq_some ht
  · exact ⟨rfl, fun _ => rfl⟩
  · exact ⟨rfl, fun _ => rfl⟩
  · obtain ⟨position, oldest, -, hfree, rfl⟩ := evictIdentity_eq_some he
    refine ⟨rfl, fun a => ?_⟩
    change ((l.pkCount.erase oldest)[a]?).getD 0 = (l.pkCount[a]?).getD 0
    rw [getElem?_erase]
    split_ifs with ha
    · subst ha
      cases hget : l.pkCount[oldest]? with
      | none => rfl
      | some used => exact (hfree used hget).symm
    · rfl

theorem untouched_observeTicket (l : RateLimiter) (pk c : String) (n : Option String) :
    Untouched l (l.observeTicket pk c n).1 := by
  have hrefl : Untouched l l := ⟨rfl, fun _ => rfl⟩
  rw [observeTicket]
  split_ifs
  · exact hrefl
  · rw [observeAgain]
    split_ifs
    · exact hrefl
    · cases ht : l.trackIdentity (rateKey pk c) with
      | none => exact hrefl
      | some l' => exact ⟨(untouched_trackIdentity ht).sourceState, (untouched_trackIdentity ht).charges⟩
  · cases ht : l.trackIdentity (rateKey pk c) with
    | none => exact hrefl
    | some l' =>
      have h := untouched_trackIdentity ht
      cases n with
      | none => exact ⟨h.sourceState, h.charges⟩
      | some n =>
        simp only [Option.elim_some, rememberTicket]
        split_ifs <;> exact ⟨h.sourceState, h.charges⟩

theorem Tracked.track (h : Tracked l) (ht : l.trackIdentity k = some l') :
    Tracked l' ∧ k ∈ l'.trackedIdentities := by
  obtain ⟨hk, rfl⟩ | ⟨hk, hroom, rfl⟩ | ⟨hk, roomy, he, rfl⟩ := trackIdentity_eq_some ht
  · exact ⟨h, hk⟩
  · rw [h.queued.size] at hroom
    exact ⟨h.enroll hk hroom, ExtTreeSet.mem_insert_self⟩
  · obtain ⟨position, oldest, holdest, -, rfl⟩ := evictIdentity_eq_some he
    obtain ⟨hlt, -⟩ := List.getElem?_eq_some_iff.mp holdest
    have hfew := h.few
    refine ⟨(h.forget holdest).enroll (fun hmem => hk (ExtTreeSet.mem_of_mem_erase hmem)) ?_,
      ExtTreeSet.mem_insert_self⟩
    rw [List.length_eraseIdx_of_lt hlt]
    omega

/-- Another ticket raises what an identity may be charged, if it may be charged at all. -/
theorem quota_of_more_tickets {used v m : ℤ} (hused : 0 < used) (hv : 0 ≤ v) (h : used ≤ v * m) :
    used ≤ (v + 1) * m := by
  nlinarith

theorem tickets_countUp (a : String) :
    (({ l with pkTickets := countUp l.pkTickets k } : RateLimiter).tickets a) =
      if k = a then l.tickets k + 1 else l.tickets a := by
  rw [tickets, countUp, getElem?_insert]
  split_ifs <;> rfl

theorem Tracked.ticket (h : Tracked l) (hk : k ∈ l.trackedIdentities) :
    Tracked { l with pkTickets := countUp l.pkTickets k } where
  queued := h.queued
  few := h.few
  charged := h.charged
  ticketed a ha := by
    rcases mem_countUp.mp ha with rfl | ha
    · exact hk
    · exact h.ticketed a ha
  exactly := h.exactly
  seen := forall_insert h.seen (by
    have := h.tickets_nonneg k
    rw [tickets] at this
    omega)
  quota a used hused := by
    obtain ⟨hpos, hle⟩ := h.quota a used hused
    refine ⟨hpos, ?_⟩
    rw [tickets_countUp]
    split_ifs with hka
    · subst hka
      exact quota_of_more_tickets hpos (h.tickets_nonneg k) hle
    · exact hle

/-- The exact tickets of tracked identities, or none. -/
theorem Tracked.withExact (h : Tracked l) {exactTicketsPerPkC : ExtTreeMap String ℤ}
    (hexact : ∀ a ∈ exactTicketsPerPkC, a ∈ l.trackedIdentities) (seenTickets : ExtTreeSet String) :
    Tracked { l with exactTicketsPerPkC, seenTickets } :=
  ⟨h.queued, h.few, h.charged, h.ticketed, hexact, h.seen, h.quota⟩

theorem Tracked.exactly_countUp (h : Tracked l) (hk : k ∈ l.trackedIdentities) :
    ∀ a ∈ countUp l.exactTicketsPerPkC k, a ∈ l.trackedIdentities := by
  intro a ha
  rcases mem_countUp.mp ha with rfl | ha
  · exact hk
  · exact h.exactly a ha

theorem Tracked.rememberTicket (h : Tracked l) (hk : k ∈ l.trackedIdentities) (ticket : String) :
    Tracked (l.rememberTicket k ticket) ∧ k ∈ (l.rememberTicket k ticket).trackedIdentities := by
  rw [RateLimiter.rememberTicket]
  split_ifs
  · exact ⟨h.withExact (by simp) ∅, hk⟩
  · exact ⟨h.withExact (h.exactly_countUp hk) _, hk⟩

theorem Tracked.observeAgain (h : Tracked l) (k : String) : Tracked (l.observeAgain k) := by
  rw [RateLimiter.observeAgain]
  split_ifs
  · exact h
  · cases ht : l.trackIdentity k with
    | none => exact h
    | some l' =>
      obtain ⟨h', hk⟩ := h.track ht
      exact (h'.withExact (h'.exactly_countUp hk) l'.seenTickets).ticket hk

theorem Tracked.observeTicket (h : Tracked l) (pk c : String) (n : Option String) :
    Tracked (l.observeTicket pk c n).1 := by
  rw [RateLimiter.observeTicket]
  split_ifs
  · exact h
  · exact h.observeAgain _
  · cases ht : l.trackIdentity (rateKey pk c) with
    | none => exact h
    | some l' =>
      obtain ⟨h', hk⟩ := h.track ht
      cases n with
      | none => exact h'.ticket hk
      | some n =>
        obtain ⟨h'', hk'⟩ := h'.rememberTicket hk (ticketKey pk c n)
        exact h''.ticket hk'

/-- **A charge that was looked at first** is of a tracked identity and within its quota. -/
theorem Tracked.commit (h : Tracked l) (hallowed : l.Allowed now ip pk c) :
    Tracked (l.commit now ip pk c) := by
  have hcount : 0 ≤ (l.pkCount[rateKey pk c]?).getD 0 := by
    cases hget : l.pkCount[rateKey pk c]? with
    | none => exact le_rfl
    | some used => exact (h.quota _ used hget).1.le
  have hidentity := hallowed.identity
  have hk : rateKey pk c ∈ l.trackedIdentities := by
    refine h.ticketed _ ?_
    by_contra hnot
    rw [ExtTreeMap.getElem?_eq_none hnot] at hidentity
    simp only [Option.getD_none, Int.zero_mul] at hidentity
    omega
  refine ⟨h.queued, h.few, fun a ha => ?_, h.ticketed, h.exactly, h.seen,
    forall_insert h.quota ⟨?_, ?_⟩⟩
  · rcases mem_countUp.mp ha with rfl | ha
    · exact hk
    · exact h.charged a ha
  · omega
  · change _ ≤ (l.pkTickets[rateKey pk c]?).getD 0 * l.m
    omega

theorem getElem?_refund_eq_some {counts : ExtTreeMap String ℤ} {a : String} {v : ℤ}
    (h : (refund counts k)[a]? = some v) :
    ∃ used, counts[a]? = some used ∧ v ≤ used ∧ (0 < used → 0 < v) := by
  rw [refund] at h
  cases hget : counts[k]? with
  | none =>
    rw [hget] at h
    exact ⟨v, h, le_rfl, id⟩
  | some used =>
    rw [hget] at h
    dsimp only at h
    split_ifs at h with hnot hone
    · exact ⟨v, h, le_rfl, id⟩
    · rw [getElem?_erase] at h
      split_ifs at h
      exact ⟨v, h, le_rfl, id⟩
    · rw [getElem?_insert] at h
      split_ifs at h with hka
      · subst hka
        obtain rfl := Option.some.inj h
        exact ⟨used, hget, by omega, by omega⟩
      · exact ⟨v, h, le_rfl, id⟩

theorem Tracked.refund (h : Tracked l) (k : String) (table : ExtTreeMap String (List ℤ)) :
    Tracked { l with ip := table, pkCount := refund l.pkCount k } := by
  refine ⟨h.queued, h.few, fun a ha => h.charged a ?_, h.ticketed, h.exactly, h.seen,
    fun a v hv => ?_⟩
  · obtain ⟨v, hv⟩ := mem_iff_exists.mp ha
    obtain ⟨used, hused, -⟩ := getElem?_refund_eq_some hv
    exact mem_iff_exists.mpr ⟨used, hused⟩
  · obtain ⟨used, hused, hle, hpos⟩ := getElem?_refund_eq_some hv
    obtain ⟨hused_pos, hquota⟩ := h.quota a used hused
    exact ⟨hpos hused_pos, hle.trans hquota⟩

end Identity

/-! ## Quotas -/

section Run

variable {limit : ℕ} {window clock : ℤ} {s : Metered}

/-- The invariant of a run. -/
structure Metered.Sound (m : ℤ) (limit : ℕ) (window clock : ℤ) (s : Metered) : Prop where
  multiple : s.limiter.m = m
  windowed : Windowed limit window clock s.limiter s.admitted
  tracked : Tracked s.limiter

theorem sourceState_setCurrentC (l : RateLimiter) (c : String) :
    (l.setCurrentC c).sourceState = l.sourceState := by
  rw [setCurrentC]
  split_ifs <;> rfl

/-- What touches identities only. -/
theorem Metered.Sound.congr {m : ℤ} (h : s.Sound m limit window clock) {l : RateLimiter}
    (htracked : Tracked l) (hstate : l.sourceState = s.limiter.sourceState) :
    Metered.Sound m limit window clock { s with limiter := l } := by
  refine ⟨?_, h.windowed.congr hstate, htracked⟩
  simp only [sourceState, Prod.mk.injEq] at hstate
  rw [← h.multiple]
  exact hstate.2.2.2

/-- **One operation,** with a clock that does not run back. -/
theorem Metered.Sound.step {m : ℤ} (h : s.Sound m limit window clock) {op : RateOp}
    (hop : ∀ now ∈ op.time?, clock ≤ now) :
    (s.step op).Sound m limit window (op.time?.getD clock) := by
  cases op with
  | observeTicket pk c n =>
    exact h.congr (h.tracked.observeTicket pk c n) (untouched_observeTicket _ pk c n).sourceState
  | setCurrentC c => exact h.congr (h.tracked.setCurrentC c) (sourceState_setCurrentC _ c)
  | check now ip pk c =>
    have hle : clock ≤ now := hop now rfl
    rw [Metered.step, check]
    cases hpeek : s.limiter.peek now ip pk c with
    | ok _ =>
      have hallowed := peek_eq_ok hpeek
      exact ⟨h.multiple, h.windowed.charge hle hallowed, h.tracked.commit hallowed⟩
    | error reason => exact ⟨h.multiple, h.windowed.later hle, h.tracked⟩
  | releaseCommitted now ip pk c =>
    rw [Metered.step]
    obtain hfailed | ⟨hmem, hreleased⟩ := s.limiter.releaseCommitted_cases now ip pk c
    · rw [hfailed]
      exact h
    · rw [hreleased]
      exact ⟨h.multiple, h.windowed.discharge hmem _, h.tracked.refund _ _⟩

/-- **A run:** the clock at the end is the time of the last check. -/
theorem Metered.Sound.run {m : ℤ} {ops : List RateOp}
    (htimes : (ops.filterMap RateOp.time?).Pairwise (· ≤ ·))
    (hstart : ∀ now ∈ ops.filterMap RateOp.time?, clock ≤ now) (h : s.Sound m limit window clock) :
    ∃ last, (ops.foldl Metered.step s).Sound m limit window last := by
  induction ops generalizing s clock with
  | nil => exact ⟨clock, h⟩
  | cons op ops ih =>
    have hop : ∀ now ∈ op.time?, clock ≤ now := fun now hnow => hstart now (by
      rw [Option.mem_def] at hnow
      simp [hnow])
    have hstep := h.step hop
    cases htime : op.time? with
    | none =>
      rw [List.filterMap_cons_none htime] at htimes hstart
      rw [htime] at hstep
      exact ih htimes hstart hstep
    | some now =>
      rw [List.filterMap_cons_some htime] at htimes
      rw [htime] at hstep
      exact ih (List.pairwise_cons.mp htimes).2 (List.pairwise_cons.mp htimes).1 hstep

/-- A time before all checks. -/
theorem exists_clock {times : List ℤ} (h : times.Pairwise (· ≤ ·)) : ∃ clock, ∀ t ∈ times, clock ≤ t := by
  cases times with
  | nil => exact ⟨0, by simp⟩
  | cons t times => exact ⟨t, List.forall_mem_cons.mpr ⟨le_rfl, (List.pairwise_cons.mp h).1⟩⟩

end Run

/-- **The quotas of a limiter,** in any run whose checks come in the order of their times: a source
has at most its limit of unreleased admissions in any interval as long as the window; there are at
most 4096 buckets and 4096 identities, the latter listed once each; every table speaks of tracked
identities; and no identity is charged more than the multiple of its tickets. -/
theorem rate_quotas (m : ℤ) (limit : ℕ) (window : ℤ) {ops : List RateOp}
    (htimes : (ops.filterMap RateOp.time?).Pairwise (· ≤ ·)) :
    let s := ops.foldl Metered.step (Metered.start m limit window)
    (∀ ip first, s.admitted.within ip first (first + window) ≤ limit) ∧
    s.limiter.ip.size ≤ 4096 ∧
    s.limiter.trackedIdentities.size ≤ 4096 ∧
    (s.limiter.identityOrder.Nodup ∧
      ∀ k, k ∈ s.limiter.trackedIdentities ↔ k ∈ s.limiter.identityOrder) ∧
    (∀ k, k ∈ s.limiter.pkCount ∨ k ∈ s.limiter.pkTickets ∨ k ∈ s.limiter.exactTicketsPerPkC →
      k ∈ s.limiter.trackedIdentities) ∧
    ∀ (k : String) used, s.limiter.pkCount[k]? = some used → used ≤ m * s.limiter.tickets k := by
  obtain ⟨clock, hclock⟩ := exists_clock htimes
  have hstart : (Metered.start m limit window).Sound m limit window clock :=
    ⟨rfl, windowed_new m limit window clock, tracked_clear (.new m limit window)⟩
  obtain ⟨last, h⟩ := hstart.run htimes hclock
  refine ⟨h.windowed.quota, h.windowed.sources, ?_, ⟨h.tracked.queued.nodup, h.tracked.queued.mem_iff⟩,
    ?_, fun k used hused => ?_⟩
  · rw [h.tracked.queued.size]
    exact h.tracked.few
  · rintro k (hk | hk | hk)
    · exact h.tracked.charged k hk
    · exact h.tracked.ticketed k hk
    · exact h.tracked.exactly k hk
  · have hquota := (h.tracked.quota k used hused).2
    rw [h.multiple, Int.mul_comm] at hquota
    exact hquota

/-- Two admissions in a window of ten, one of which is released. -/
def exampleRateOps : List RateOp :=
  [.observeTicket "p" "c" none, .observeTicket "p" "c" (some "1"), .check 0 "a" "p" "c",
    .check 3 "a" "p" "c", .releaseCommitted 0 "a" "p" "c", .check 4 "a" "p" "c"]

theorem rate_quotas_released :
    let s := exampleRateOps.foldl Metered.step (Metered.start 1 2 10)
    s.admitted "a" = [3, 4] ∧ s.admitted.within "a" 0 10 ≤ 2 := by
  have htimes : (exampleRateOps.filterMap RateOp.time?).Pairwise (· ≤ ·) := by decide
  exact ⟨by decide +kernel, (rate_quotas 1 2 10 htimes).1 "a" 0⟩

end Core
