import Boole.Core.SharePool
import Boole.Library.OrderedSet

/-!
# Core/PoolCounts — the five tables of the share pool agree

The share pool keeps the active shares, the order they came in, a count for each key at each head,
and the tombstones with their own order.  Six operations change some of them at a time.

    byKey ═ insertionOrder        perPkPerC counts byKey by pk|c        tombstones ═ rejectOrder
      └────────────────────────── no key is in both ──────────────────────────┘

**After any sequence of operations the tables agree and are within their caps** (`pool_invariant`),
as long as no share has a bar in its key or head: pruning finds the counts of a head by the end of
their composed key.
-/

open Std Library

namespace Core

/-! ## Composed keys -/

/-- No bar in what the count of a share is filed under. -/
structure PoolShare.Plain (share : PoolShare) : Prop where
  pk : '|' ∉ share.pk.toList
  c : '|' ∉ share.c.toList

/-- What the count of a share is filed under. -/
def capKey (share : PoolShare) : String := perPkKey share.pk share.c

theorem toList_perPkKey (pk c : String) :
    (perPkKey pk c).toList = pk.toList ++ '|' :: c.toList := by
  change (pk ++ "|" ++ c).toList = _
  simp

theorem perPkKey_inj {pk pk' c c' : String} (hpk : '|' ∉ pk.toList) (hc : '|' ∉ c.toList) :
    perPkKey pk c = perPkKey pk' c' ↔ pk = pk' ∧ c = c' := by
  rw [← String.toList_inj, toList_perPkKey, toList_perPkKey,
    List.append_cons_inj_of_notMem hpk hc, String.toList_inj, String.toList_inj]
  simp

/-- **The end of a count's key is its head.** -/
theorem endsWith_capKey {share : PoolShare} (h : share.Plain) (c : String) :
    (capKey share).endsWith s!"|{c}" = true ↔ share.c = c := by
  have hsuffix : (s!"|{c}").toList = '|' :: c.toList := by
    change ("|" ++ c).toList = _
    simp
  rw [← String.endsWith_toSlice, String.Slice.endsWith_string_iff, String.copy_toSlice, hsuffix,
    capKey, toList_perPkKey]
  constructor
  · rintro ⟨front, heq⟩
    exact String.toList_inj.mp ((List.append_cons_inj_of_notMem h.pk h.c).mp heq.symm).2.2
  · rintro rfl
    exact List.suffix_append _ _

/-! ## What the tables say -/

/-- The active shares with a key at a head. -/
def SharePool.active (pool : SharePool) (pk c : String) : ℕ :=
  pool.byKey.toList.countP fun entry => entry.2.pk = pk ∧ entry.2.c = c

/-- How many shares a count's key stands for. -/
def filed (shares : List PoolShare) (key : String) : ℕ :=
  shares.countP fun share => capKey share = key

theorem filed_append_singleton (shares : List PoolShare) (share : PoolShare) (key : String) :
    filed (shares ++ [share]) key = filed shares key + if capKey share = key then 1 else 0 := by
  by_cases h : capKey share = key <;> simp [filed]

theorem filed_eraseIdx {shares : List PoolShare} {share : PoolShare} {i : ℕ}
    (hi : shares[i]? = some share) (key : String) :
    filed (shares.eraseIdx i) key = filed shares key - if capKey share = key then 1 else 0 := by
  obtain ⟨hlt, rfl⟩ := List.getElem?_eq_some_iff.mp hi
  have hperm := (List.getElem_cons_eraseIdx_perm hlt).countP_eq fun share => capKey share = key
  rw [filed, filed, ← hperm]
  by_cases h : capKey shares[i] = key <;> simp [h]

namespace SharePool

/-- **The tables describe one list of shares,** under the caps the pool was made with. -/
structure Agrees (perPk global : ℕ) (pool : SharePool) (shares : List PoolShare) : Prop where
  caps : pool.shareCapPerPkBlock = perPk ∧ pool.globalShareCap = global ∧
    pool.semanticRejectTombstoneCap = max 1 (min global maxSemanticRejectTombstones)
  holds : Holds pool shares
  plain : ∀ share ∈ shares, share.Plain
  counted : Tallied pool.perPkPerC (filed shares)
  capped : ∀ key, filed shares key ≤ perPk
  room : shares.length ≤ global
  queued : Queued pool.semanticRejectTombstones pool.semanticRejectOrder
  few : pool.semanticRejectOrder.length ≤ pool.semanticRejectTombstoneCap
  apart : ∀ key ∈ pool.semanticRejectOrder, key ∉ pool.byKey

variable {perPk global : ℕ} {pool pool' : SharePool} {shares : List PoolShare} {share : PoolShare}

theorem agrees_new (perPk global : ℕ) : Agrees perPk global (newWithGlobalCap perPk global) [] where
  caps := ⟨rfl, rfl, rfl⟩
  holds := holds_new perPk global
  plain := by simp
  counted := Tallied.empty
  capped _ := Nat.zero_le _
  room := Nat.zero_le _
  queued := Queued.empty
  few := Nat.zero_le _
  apart := by simp [newWithGlobalCap]

theorem Agrees.used_eq (h : Agrees perPk global pool shares) (share : PoolShare) :
    pool.used share = filed shares (capKey share) := h.counted.getD _

/-- Without the tombstones nothing else changes. -/
theorem Agrees.forgetAll (h : Agrees perPk global pool shares) (c : String) :
    Agrees perPk global { pool with
      currentC := some c, semanticRejectTombstones := ∅, semanticRejectOrder := [] } shares where
  caps := h.caps
  holds := h.holds
  plain := h.plain
  counted := h.counted
  capped := h.capped
  room := h.room
  queued := Queued.empty
  few := Nat.zero_le _
  apart := by simp

theorem Agrees.setCurrentC (h : Agrees perPk global pool shares) (c : String) :
    Agrees perPk global (pool.setCurrentC c) shares := by
  rw [SharePool.setCurrentC]
  split_ifs
  · exact h
  · exact h.forgetAll c

/-- A share that is new, neither active nor a tombstone, and for which there is room. -/
theorem Agrees.insertActive (h : Agrees perPk global pool shares) (hplain : share.Plain)
    (hfresh : shareKey share ∉ pool.byKey) (htomb : shareKey share ∉ pool.semanticRejectTombstones)
    (hused : pool.used share < perPk) (hroom : pool.byKey.size < global) :
    Agrees perPk global (pool.insertActive share) (shares ++ [share]) where
  caps := h.caps
  holds := Listed.push h.holds hfresh
  plain s hs := by
    rcases List.mem_append.mp hs with hs | hs
    · exact h.plain s hs
    · rw [List.mem_singleton.mp hs]
      exact hplain
  counted := by
    have hcount := h.counted.countUp (capKey share)
    simp only [← filed_append_singleton] at hcount
    exact hcount
  capped key := by
    rw [filed_append_singleton]
    split_ifs with hkey
    · rw [← hkey, ← h.used_eq]
      exact hused
    · exact h.capped key
  room := by
    rw [List.length_append, ← Listed.size h.holds]
    exact hroom
  queued := h.queued
  few := h.few
  apart key hkey hmem := by
    rcases ExtTreeMap.mem_insert.mp hmem with heq | hmem
    · rw [← LawfulEqCmp.compare_eq_iff_eq.mp heq] at hkey
      exact htomb ((h.queued.mem_iff _).mpr hkey)
    · exact h.apart key hkey hmem

theorem Agrees.accept (h : Agrees perPk global pool shares) (hplain : share.Plain)
    (hok : pool.accept share = .ok pool') : Agrees perPk global pool' (shares ++ [share]) := by
  simp only [SharePool.accept, bind_eq_ok, ensure_eq_ok, pure_eq_ok, not_or] at hok
  obtain ⟨_, -, _, ⟨hfresh, htomb⟩, _, hused, _, hroom, rfl⟩ := hok
  exact h.insertActive hplain hfresh htomb (h.caps.1 ▸ hused) (h.caps.2.1 ▸ hroom)

theorem Agrees.forgetTombstone (h : Agrees perPk global pool shares) (key : String) :
    Agrees perPk global (pool.forgetTombstone key) shares where
  caps := h.caps
  holds := h.holds
  plain := h.plain
  counted := h.counted
  capped := h.capped
  room := h.room
  queued := h.queued.remove key
  few := (List.length_filter_le _ _).trans h.few
  apart k hk := h.apart k (List.mem_of_mem_filter hk)

theorem Agrees.release (h : Agrees perPk global pool shares) (share : PoolShare) :
    Agrees perPk global (pool.releaseSemanticReservation share).1 shares := by
  rw [releaseSemanticReservation]
  split_ifs
  · exact h.forgetTombstone _
  · exact h

theorem Agrees.restore (h : Agrees perPk global pool shares) (hplain : share.Plain)
    (hok : pool.restoreAfterSemanticCheck share = some pool') :
    Agrees perPk global pool' (shares ++ [share]) := by
  simp only [restoreAfterSemanticCheck] at hok
  split_ifs at hok with hrefused hfull
  cases hok
  rw [not_or, not_or] at hrefused
  rw [not_or, Nat.not_le, Nat.not_le] at hfull
  refine (h.forgetTombstone (shareKey share)).insertActive hplain hrefused.2.2 (fun hmem => ?_)
    (h.caps.1 ▸ hfull.1) (h.caps.2.1 ▸ hfull.2)
  exact (ExtTreeSet.mem_erase.mp hmem).1 ReflCmp.compare_self

/-- One count less, as the code writes it. -/
theorem tallied_uncount {counts : ExtTreeMap String ℕ} {n : String → ℕ} (h : Tallied counts n)
    {key : String} (hkey : n key ≠ 0) :
    Tallied (uncount counts key) fun a => n a - if key = a then 1 else 0 := by
  have hread : counts[key]? = some (n key) := by rw [h key, if_neg hkey]
  rw [uncount, hread]
  exact h.countDown key

theorem Agrees.removeActive (h : Agrees perPk global pool shares)
    (hok : pool.removeActive (shareKey share) = some pool') :
    ∃ shares', Agrees perPk global pool' shares' ∧ shareKey share ∉ pool'.byKey ∧
      shareKey share ∉ pool'.semanticRejectTombstones := by
  obtain ⟨removed, hget, rfl⟩ := Option.map_eq_some_iff.mp hok
  obtain ⟨hmem, hkey⟩ := (h.holds.getElem?_eq _ _).mp hget
  obtain ⟨i, hlt, hi⟩ := List.getElem_of_mem hmem
  have hi : shares[i]? = some removed := by rw [List.getElem?_eq_getElem hlt, hi]
  have hactive : shareKey share ∈ pool.byKey := by
    rw [ExtTreeMap.mem_iff_isSome_getElem?, hget]
    rfl
  refine ⟨shares.eraseIdx i, ?_, ?_, fun htomb => h.apart _ ((h.queued.mem_iff _).mp htomb) hactive⟩
  · have hcount : filed shares (capKey removed) ≠ 0 := by
      rw [filed, Ne, List.countP_eq_zero, not_forall]
      exact ⟨removed, by simpa using hmem⟩
    exact {
      caps := h.caps
      holds := hkey ▸ Listed.eraseIdx h.holds hi
      plain := fun s hs => h.plain s (List.mem_of_mem_eraseIdx hs)
      counted := by
        have := tallied_uncount h.counted hcount
        simp only [← filed_eraseIdx hi] at this
        exact this
      capped := fun key => by
        rw [filed_eraseIdx hi]
        exact (Nat.sub_le _ _).trans (h.capped key)
      room := (List.length_eraseIdx_le _ _).trans h.room
      queued := h.queued
      few := h.few
      apart := fun key hk hmem => h.apart key hk (ExtTreeMap.mem_of_mem_erase hmem) }
  · exact fun hmem => (ExtTreeMap.mem_erase.mp hmem).1 ReflCmp.compare_self

/-- Evicting keeps the two tables of tombstones together, and keeps them short. -/
theorem queued_evictTombstones (cap : ℕ) {order : List String} {tombstones : ExtTreeSet String}
    (h : Queued tombstones order) :
    Queued (evictTombstones cap order tombstones).2 (evictTombstones cap order tombstones).1 ∧
      (evictTombstones cap order tombstones).1.length ≤ cap ∧
      (evictTombstones cap order tombstones).1 ⊆ order := by
  induction order generalizing tombstones with
  | nil => exact ⟨h, Nat.zero_le _, List.Subset.refl _⟩
  | cons oldest order ih =>
    rw [evictTombstones]
    split_ifs with hlong
    · obtain ⟨hqueued, hshort, hsub⟩ := ih h.tail
      exact ⟨hqueued, hshort, List.Subset.trans hsub (List.subset_cons_self _ _)⟩
    · exact ⟨h, Nat.not_lt.mp hlong, List.Subset.refl _⟩

theorem Agrees.insertSemanticTombstone (h : Agrees perPk global pool shares) {key : String}
    (hactive : key ∉ pool.byKey) (htomb : key ∉ pool.semanticRejectTombstones) :
    Agrees perPk global (pool.insertSemanticTombstone key) shares := by
  have hcontains : ¬pool.semanticRejectTombstones.contains key = true := by
    rwa [ExtTreeSet.contains_iff_mem]
  obtain ⟨hqueued, hshort, hsub⟩ :=
    queued_evictTombstones pool.semanticRejectTombstoneCap (h.queued.push htomb)
  rw [SharePool.insertSemanticTombstone, if_neg hcontains]
  exact {
    caps := h.caps
    holds := h.holds
    plain := h.plain
    counted := h.counted
    capped := h.capped
    room := h.room
    queued := hqueued
    few := hshort
    apart := fun k hk => by
      rcases List.mem_append.mp (hsub hk) with hk | hk
      · exact h.apart k hk
      · rw [List.mem_singleton.mp hk]
        exact hactive }

theorem Agrees.reserve (h : Agrees perPk global pool shares)
    (hok : pool.reserveForSemanticCheck share = some pool') :
    ∃ shares', Agrees perPk global pool' shares' := by
  obtain ⟨removed, hremoved, rfl⟩ := Option.map_eq_some_iff.mp hok
  obtain ⟨shares', h', hactive, htomb⟩ := h.removeActive hremoved
  exact ⟨shares', h'.insertSemanticTombstone hactive htomb⟩

/-- The counts that pruning keeps are those of the shares it keeps. -/
theorem filed_filter (hplain : ∀ share ∈ shares, share.Plain) (c key : String) :
    filed (shares.filter fun share => share.c = c) key =
      if key.endsWith s!"|{c}" then filed shares key else 0 := by
  rw [filed, List.countP_filter]
  split_ifs with hend
  · refine List.countP_congr fun share hmem => ?_
    simp only [Bool.and_eq_true, decide_eq_true_eq, and_iff_left_iff_imp]
    rintro rfl
    exact (endsWith_capKey (hplain share hmem) c).mp hend
  · refine List.countP_eq_zero.mpr fun share hmem hcond => ?_
    simp only [Bool.and_eq_true, decide_eq_true_eq] at hcond
    obtain ⟨rfl, hc⟩ := hcond
    exact hend ((endsWith_capKey (hplain share hmem) c).mpr hc)

theorem Agrees.prune (h : Agrees perPk global pool shares) (c : String) :
    Agrees perPk global (pool.pruneToHeight c).1 (shares.filter fun share => share.c = c) where
  caps := h.caps
  holds := h.holds.prune c
  plain s hs := h.plain s (List.mem_of_mem_filter hs)
  counted := by
    have hcount := h.counted.filter fun key => key.endsWith s!"|{c}"
    simp only [← filed_filter h.plain] at hcount
    exact hcount
  capped key := by
    rw [filed_filter h.plain]
    split_ifs
    · exact h.capped key
    · exact Nat.zero_le _
  room := (List.length_filter_le _ _).trans h.room
  queued := Queued.empty
  few := Nat.zero_le _
  apart := by simp [pruneToHeight]

end SharePool

/-! ## Runs -/

/-- The operations of a pool. -/
inductive PoolOp
  | setCurrentC (c : String)
  | accept (share : PoolShare)
  | reserveForSemanticCheck (share : PoolShare)
  | restoreAfterSemanticCheck (share : PoolShare)
  | releaseSemanticReservation (share : PoolShare)
  | pruneToHeight (c : String)

/-- No share that is handed in has a bar in its key or head. -/
def PoolOp.Plain : PoolOp → Prop
  | .accept share | .reserveForSemanticCheck share | .restoreAfterSemanticCheck share
  | .releaseSemanticReservation share => share.Plain
  | _ => True

/-- The pool after an operation, successful or not. -/
def SharePool.apply (self : SharePool) : PoolOp → SharePool
  | .setCurrentC c => self.setCurrentC c
  | .accept share => (self.accept share).toOption.getD self
  | .reserveForSemanticCheck share => (self.reserveForSemanticCheck share).getD self
  | .restoreAfterSemanticCheck share => (self.restoreAfterSemanticCheck share).getD self
  | .releaseSemanticReservation share => (self.releaseSemanticReservation share).1
  | .pruneToHeight c => (self.pruneToHeight c).1

section Run

variable {perPk global : ℕ} {pool : SharePool} {shares : List PoolShare}

theorem SharePool.Agrees.apply (h : pool.Agrees perPk global shares) {op : PoolOp}
    (hplain : op.Plain) : ∃ shares', (pool.apply op).Agrees perPk global shares' := by
  cases op with
  | setCurrentC c => exact ⟨shares, h.setCurrentC c⟩
  | accept share =>
    rw [SharePool.apply]
    cases hok : pool.accept share with
    | ok pool' => exact ⟨_, h.accept hplain hok⟩
    | error reason => exact ⟨shares, h⟩
  | reserveForSemanticCheck share =>
    rw [SharePool.apply]
    cases hok : pool.reserveForSemanticCheck share with
    | some pool' => exact h.reserve hok
    | none => exact ⟨shares, h⟩
  | restoreAfterSemanticCheck share =>
    rw [SharePool.apply]
    cases hok : pool.restoreAfterSemanticCheck share with
    | some pool' => exact ⟨_, h.restore hplain hok⟩
    | none => exact ⟨shares, h⟩
  | releaseSemanticReservation share => exact ⟨shares, h.release share⟩
  | pruneToHeight c => exact ⟨_, h.prune c⟩

theorem SharePool.Agrees.run {ops : List PoolOp} (hplain : ∀ op ∈ ops, op.Plain)
    (h : pool.Agrees perPk global shares) :
    ∃ shares', (ops.foldl SharePool.apply pool).Agrees perPk global shares' := by
  induction ops generalizing pool shares with
  | nil => exact ⟨shares, h⟩
  | cons op ops ih =>
    obtain ⟨hop, hops⟩ := List.forall_mem_cons.mp hplain
    obtain ⟨shares', h'⟩ := h.apply hop
    exact ih hops h'

/-- Counting by a plain key and head is counting by what they compose to. -/
theorem SharePool.Agrees.active_eq (h : pool.Agrees perPk global shares) {pk c : String}
    (hpk : '|' ∉ pk.toList) (hc : '|' ∉ c.toList) :
    pool.active pk c = filed shares (perPkKey pk c) := by
  have hvalues := (Listed.perm_values h.holds).countP_eq fun share => share.pk = pk ∧ share.c = c
  rw [List.countP_map] at hvalues
  refine hvalues.trans (List.countP_congr fun share hmem => ?_)
  rw [decide_eq_true_eq, decide_eq_true_eq, capKey, eq_comm (a := perPkKey _ _),
    perPkKey_inj hpk hc, eq_comm (a := pk), eq_comm (a := c)]

end Run

/-- **The tables of a pool agree after any sequence of operations.**  The order lists the active keys
once each; each count is the number of active shares it stands for, without entry for nothing and
never above the cap; there are at most as many active shares as the pool may hold; and the
tombstones, of which there are not too many, are listed once each and are not active. -/
theorem pool_invariant (perPk global : ℕ) {ops : List PoolOp} (hplain : ∀ op ∈ ops, op.Plain) :
    let pool := ops.foldl SharePool.apply (SharePool.newWithGlobalCap perPk global)
    (pool.insertionOrder.Nodup ∧ ∀ key, key ∈ pool.byKey ↔ key ∈ pool.insertionOrder) ∧
    (∀ pk c, '|' ∉ pk.toList → '|' ∉ c.toList → pool.active pk c ≤ perPk ∧
      pool.perPkPerC[perPkKey pk c]? =
        if pool.active pk c = 0 then none else some (pool.active pk c)) ∧
    (∀ (key : String) n, pool.perPkPerC[key]? = some n → 0 < n ∧ n ≤ perPk ∧
      ∃ (id : String) (share : PoolShare), pool.byKey[id]? = some share ∧
        key = perPkKey share.pk share.c) ∧
    pool.byKey.size ≤ global ∧
    (∀ key ∈ pool.semanticRejectTombstones, key ∉ pool.byKey) ∧
    (pool.semanticRejectOrder.Nodup ∧
      ∀ key, key ∈ pool.semanticRejectTombstones ↔ key ∈ pool.semanticRejectOrder) ∧
    pool.semanticRejectOrder.length ≤ max 1 (min global maxSemanticRejectTombstones) := by
  obtain ⟨shares, h⟩ := (SharePool.agrees_new perPk global).run hplain
  refine ⟨⟨h.holds.nodup, Listed.mem_iff h.holds⟩, fun pk c hpk hc => ?_, fun key n hn => ?_, ?_,
    fun key hkey => h.apart key ((h.queued.mem_iff key).mp hkey),
    ⟨h.queued.nodup, h.queued.mem_iff⟩, h.caps.2.2 ▸ h.few⟩
  · rw [h.active_eq hpk hc]
    exact ⟨h.capped _, h.counted _⟩
  · rw [h.counted key] at hn
    split_ifs at hn with hzero
    obtain rfl := Option.some.inj hn
    refine ⟨Nat.pos_of_ne_zero hzero, h.capped key, ?_⟩
    obtain ⟨share, hmem, hkey⟩ := List.countP_pos_iff.mp (Nat.pos_of_ne_zero hzero)
    exact ⟨shareKey share, share, Listed.getElem?_key h.holds hmem, (of_decide_eq_true hkey).symm⟩
  · rw [Listed.size h.holds]
    exact h.room

/-- Two shares of one key, the first of which is away for its check. -/
def exampleOps : List PoolOp :=
  let first : PoolShare := ⟨"first", "p", "1", "0", "c"⟩
  let second : PoolShare := ⟨"second", "p", "2", "0", "c"⟩
  [.setCurrentC "c", .accept first, .reserveForSemanticCheck first, .accept second]

theorem pool_invariant_reserved :
    let pool := exampleOps.foldl SharePool.apply (SharePool.newWithGlobalCap 1 2)
    pool.semanticRejectOrder = ["p|1|0"] ∧ pool.insertionOrder = ["p|2|0"] ∧
      pool.active "p" "c" ≤ 1 := by
  have hplain : ∀ op ∈ exampleOps, op.Plain := by
    intro op hop
    simp only [exampleOps, List.mem_cons, List.not_mem_nil, or_false] at hop
    rcases hop with rfl | rfl | rfl | rfl
    · trivial
    · exact ⟨by decide, by decide⟩
    · exact ⟨by decide, by decide⟩
    · exact ⟨by decide, by decide⟩
  refine ⟨by decide +kernel, by decide +kernel, ?_⟩
  exact ((pool_invariant 1 2 hplain).2.1 "p" "c" (by decide) (by decide)).1

end Core
