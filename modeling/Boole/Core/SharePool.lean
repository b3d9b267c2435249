import Boole.Library.Fallible
import Boole.Library.KeyedQueue

/-!
# Core/SharePool — admitted shares, at most one for each key

`boole-core`'s `share_pool.rs`.  The pool keeps the shares that may be selected for a block, and
remembers the keys of those that are away for a semantic check or failed one.

    accept ──▸ active ──reserve──▸ tombstone ──restore──▸ active
                                       └──release, new head, too many──▸ forgotten

`SharePool.Holds pool shares` says which shares are active and in which order.  **Each operation
changes that list by one entry, or drops the shares of other heads** (`Holds.accept`,
`Holds.reserve`, `Holds.restore`, `Holds.prune`).
-/

open Std Library

namespace Core

def maxSemanticRejectTombstones : ℕ := 4096

structure PoolShare where
  label : String
  pk : String
  n : String
  j : String
  c : String
deriving DecidableEq

inductive SharePoolRejectReason
  | duplicate
  | staleC
  | pkCapExceeded
  | globalCapExceeded
deriving DecidableEq

structure SharePool where
  currentC : Option String
  shareCapPerPkBlock : ℕ
  globalShareCap : ℕ
  byKey : ExtTreeMap String PoolShare
  insertionOrder : List String
  perPkPerC : ExtTreeMap String ℕ
  semanticRejectTombstones : ExtTreeSet String
  semanticRejectOrder : List String
  semanticRejectTombstoneCap : ℕ

/-- The head does not take part in the key. -/
def shareKey (s : PoolShare) : String := s!"{s.pk}|{s.n}|{s.j}"

def perPkKey (pk c : String) : String := s!"{pk}|{c}"

variable (self : SharePool)

variable (c : String)

namespace SharePool

def newWithGlobalCap (shareCapPerPkBlock globalShareCap : ℕ) : SharePool where
  currentC := none
  shareCapPerPkBlock
  globalShareCap
  byKey := ∅
  insertionOrder := []
  perPkPerC := ∅
  semanticRejectTombstones := ∅
  semanticRejectOrder := []
  semanticRejectTombstoneCap := max 1 (min globalShareCap maxSemanticRejectTombstones)

/-- Moving to another head forgets the tombstones.  Shares of the old head stay. -/
def setCurrentC : SharePool :=
  if self.currentC = some c then self
  else { self with
    currentC := some c, semanticRejectTombstones := ∅, semanticRejectOrder := [] }

/-- How many active shares a key has at a head. -/
def used (share : PoolShare) : ℕ :=
  (self.perPkPerC[perPkKey share.pk share.c]?).getD 0

/-- Add a share, as `accept` and `restore_after_semantic_check` do after their checks. -/
def insertActive (share : PoolShare) : SharePool :=
  { self with
    byKey := self.byKey.insert (shareKey share) share
    insertionOrder := self.insertionOrder ++ [shareKey share]
    perPkPerC := self.perPkPerC.insert (perPkKey share.pk share.c) (self.used share + 1) }

def accept (share : PoolShare) : Except SharePoolRejectReason SharePool := do
  ensure (self.currentC.all fun c => share.c = c) .staleC
  ensure (¬ (self.byKey.contains (shareKey share) ∨
    self.semanticRejectTombstones.contains (shareKey share))) .duplicate
  ensure (self.used share < self.shareCapPerPkBlock) .pkCapExceeded
  ensure (self.byKey.size < self.globalShareCap) .globalCapExceeded
  pure (self.insertActive share)

/-- One share less for a key; a count of nothing is not kept. -/
def uncount (counts : ExtTreeMap String ℕ) (capKey : String) : ExtTreeMap String ℕ :=
  match counts[capKey]? with
  | none => counts
  | some used => if used - 1 = 0 then counts.erase capKey else counts.insert capKey (used - 1)

def removeActive (key : String) : Option SharePool :=
  self.byKey[key]?.map fun share => { self with
    byKey := self.byKey.erase key
    insertionOrder := self.insertionOrder.filter (· ≠ key)
    perPkPerC := uncount self.perPkPerC (perPkKey share.pk share.c) }

/-- Tombstones beyond the cap are forgotten, the oldest first. -/
def evictTombstones (cap : ℕ) : List String → ExtTreeSet String → List String × ExtTreeSet String
  | [], tombstones => ([], tombstones)
  | oldest :: order, tombstones =>
    if cap < (oldest :: order).length then evictTombstones cap order (tombstones.erase oldest)
    else (oldest :: order, tombstones)

def insertSemanticTombstone (key : String) : SharePool :=
  let order := if self.semanticRejectTombstones.contains key then self.semanticRejectOrder
    else self.semanticRejectOrder ++ [key]
  let (order, tombstones) := evictTombstones self.semanticRejectTombstoneCap order
    (self.semanticRejectTombstones.insert key)
  { self with semanticRejectTombstones := tombstones, semanticRejectOrder := order }

/-- `none` is the answer `false`: the share is not active, and nothing changed. -/
def reserveForSemanticCheck (share : PoolShare) : Option SharePool :=
  (self.removeActive (shareKey share)).map fun pool =>
    pool.insertSemanticTombstone (shareKey share)

def forgetTombstone (key : String) : SharePool :=
  { self with
    semanticRejectTombstones := self.semanticRejectTombstones.erase key
    semanticRejectOrder := self.semanticRejectOrder.filter (· ≠ key) }

/-- `none` is the answer `false`: nothing changed, and a tombstone stays. -/
def restoreAfterSemanticCheck (share : PoolShare) : Option SharePool :=
  if ¬ self.semanticRejectTombstones.contains (shareKey share) ∨
      self.currentC.any (fun c => c ≠ share.c) ∨ self.byKey.contains (shareKey share) then none
  else if self.shareCapPerPkBlock ≤ self.used share ∨ self.globalShareCap ≤ self.byKey.size then
    none
  else some ((self.forgetTombstone (shareKey share)).insertActive share)

def releaseSemanticReservation (share : PoolShare) : SharePool × Bool :=
  if self.semanticRejectTombstones.contains (shareKey share) then
    (self.forgetTombstone (shareKey share), true)
  else (self, false)

def size : ℕ := self.byKey.size

def forChain : List PoolShare :=
  (self.insertionOrder.filterMap fun key => self.byKey[key]?).filter fun share => share.c = c

/-- Drop the share with a key if it is for another head. -/
def dropStale (byKey : ExtTreeMap String PoolShare) (key : String) : ExtTreeMap String PoolShare :=
  if (byKey[key]?).any fun share => share.c ≠ c then byKey.erase key else byKey

/-- The pool at a new head, and how many shares were dropped. -/
def pruneToHeight : SharePool × ℕ :=
  let byKey := self.insertionOrder.foldl (dropStale c) self.byKey
  ({ self with
    byKey
    insertionOrder := self.insertionOrder.filter fun key => byKey.contains key
    perPkPerC := self.perPkPerC.filter fun key _ => key.endsWith s!"|{c}"
    currentC := some c
    semanticRejectTombstones := ∅
    semanticRejectOrder := [] }, self.byKey.size - byKey.size)

/-! ## The active shares -/

/-- The active shares of a pool, in the order they came. -/
def Holds (pool : SharePool) (shares : List PoolShare) : Prop :=
  Listed shareKey pool.byKey pool.insertionOrder shares

variable {pool pool' : SharePool} {shares : List PoolShare} {share : PoolShare}

theorem holds_new (perPk global : ℕ) : Holds (newWithGlobalCap perPk global) [] :=
  Listed.empty shareKey

theorem Holds.setCurrentC (h : Holds pool shares) (c : String) :
    Holds (pool.setCurrentC c) shares := by
  rw [SharePool.setCurrentC]
  split_ifs
  · exact h
  · exact h

theorem setCurrentC_frame (pool : SharePool) (c : String) :
    (pool.setCurrentC c).currentC = some c ∧
      (pool.setCurrentC c).globalShareCap = pool.globalShareCap := by
  rw [SharePool.setCurrentC]
  split_ifs with hc
  · exact ⟨hc, rfl⟩
  · exact ⟨rfl, rfl⟩

/-- What an accepted share passed. -/
theorem accept_eq_ok (h : pool.accept share = .ok pool') :
    (∀ c ∈ pool.currentC, share.c = c) ∧ shareKey share ∉ pool.byKey ∧
      pool.byKey.size < pool.globalShareCap ∧ pool' = pool.insertActive share := by
  simp only [accept, bind_eq_ok, ensure_eq_ok, pure_eq_ok, not_or] at h
  obtain ⟨_, hc, _, ⟨hfresh, -⟩, _, -, _, hcap, rfl⟩ := h
  refine ⟨fun c hmem => ?_, ?_, hcap, rfl⟩
  · rw [Option.mem_def] at hmem
    simpa [hmem] using hc
  · rwa [ExtTreeMap.contains_iff_mem] at hfresh

/-- **An accepted share is the last of the active ones, and there was room for it.** -/
theorem Holds.accept (h : Holds pool shares) (hok : pool.accept share = .ok pool') :
    Holds pool' (shares ++ [share]) ∧ shares.length < pool.globalShareCap := by
  obtain ⟨-, hfresh, hcap, rfl⟩ := accept_eq_ok hok
  exact ⟨Listed.push h hfresh, by rwa [Listed.size h] at hcap⟩

/-- **An active share can be reserved, and is then no longer active.** -/
theorem Holds.reserve (h : Holds pool shares) {i : ℕ} (hi : shares[i]? = some share) :
    ∃ pool', pool.reserveForSemanticCheck share = some pool' ∧ Holds pool' (shares.eraseIdx i) ∧
      pool'.currentC = pool.currentC ∧ pool'.globalShareCap = pool.globalShareCap := by
  have hget : pool.byKey[shareKey share]? = some share :=
    Listed.getElem?_key h (List.mem_of_getElem? hi)
  rw [reserveForSemanticCheck, removeActive, hget]
  exact ⟨_, rfl, Listed.eraseIdx h hi, rfl, rfl⟩

/-- **A restored share is the last of the active ones.** -/
theorem Holds.restore (h : Holds pool shares)
    (hok : pool.restoreAfterSemanticCheck share = some pool') :
    Holds pool' (shares ++ [share]) ∧ pool'.currentC = pool.currentC ∧
      pool'.globalShareCap = pool.globalShareCap := by
  simp only [restoreAfterSemanticCheck] at hok
  split_ifs at hok with hrefused hfull
  cases hok
  rw [not_or, not_or] at hrefused
  obtain ⟨-, -, hfresh⟩ := hrefused
  exact ⟨Listed.push h (by rwa [ExtTreeMap.contains_iff_mem] at hfresh), rfl, rfl⟩

theorem Holds.release (h : Holds pool shares) (share : PoolShare) :
    Holds (pool.releaseSemanticReservation share).1 shares := by
  rw [releaseSemanticReservation]
  split_ifs
  · exact h
  · exact h

theorem releaseSemanticReservation_frame (pool : SharePool) (share : PoolShare) :
    (pool.releaseSemanticReservation share).1.currentC = pool.currentC ∧
      (pool.releaseSemanticReservation share).1.globalShareCap = pool.globalShareCap := by
  rw [releaseSemanticReservation]
  split_ifs <;> exact ⟨rfl, rfl⟩

/-- The loop over keys drops those among them that are for another head. -/
theorem getElem?_foldl_dropStale (keys : List String) (byKey : ExtTreeMap String PoolShare)
    (k : String) :
    (keys.foldl (dropStale c) byKey)[k]? =
      if k ∈ keys then (byKey[k]?).filter fun share => share.c = c else byKey[k]? := by
  induction keys generalizing byKey with
  | nil => simp
  | cons key keys ih =>
    have hone : (dropStale c byKey key)[k]? =
        if k = key then (byKey[k]?).filter fun share => share.c = c else byKey[k]? := by
      rw [dropStale]
      by_cases hk : k = key
      · subst hk
        cases hget : byKey[k]? with
        | none => simp [hget]
        | some share => by_cases hc : share.c = c <;> simp [hc, hget, Option.filter]
      · rw [if_neg hk]
        split_ifs with hdrop
        · rw [getElem?_erase, if_neg (Ne.symm hk)]
        · rfl
    rw [List.foldl_cons, ih, hone]
    by_cases hk : k = key <;> by_cases hmem : k ∈ keys <;>
      simp [hk, Option.filter_filter]

/-- **Pruning drops the shares of other heads.** -/
theorem Holds.prune (h : Holds pool shares) (c : String) :
    Holds (pool.pruneToHeight c).1 (shares.filter fun share => share.c = c) := by
  refine Listed.prune h fun k v => ?_
  rw [pruneToHeight, getElem?_foldl_dropStale]
  split_ifs with hk
  · simp
  · -- A key that is not in the list is not in the map.
    have hnone : pool.byKey[k]? = none :=
      ExtTreeMap.getElem?_eq_none fun hmem => hk ((Listed.mem_iff h k).mp hmem)
    simp [hnone]

end SharePool

end Core
