import Boole.Core.Bounties

/-!
# Core/Promotion — what a settlement adds up to, and why a selection always settles

The two halves of `boole-core`'s `bounty_promotion.rs`.  A producer selects shares of its side pool,
family by family; the rows it commits are then settled by the function that every node runs:

    side pool ──select──▸ rows of the block ──settle──▸ one payment a row ──drop 0──▸ credits

**A settlement pays each family the rewards of its rows up to its budget**
(`settle_eq_min_of_ok`), and **the producer's `expect` is never reached**
(`selectPromotedBountySelection_eq_ok`): what a selection takes of a family is within its caps.
-/

open Std Library Library.Json

namespace Core

open SettleState

/-! ## Rows of a family -/

/-- The reward that a row declares. -/
def PromotedBountyShare.rewardValue (share : PromotedBountyShare) : ℕ :=
  (parseUint 128 share.reward).getD 0

/-- The rows of one family, in block order. -/
def rowsOf (family : String) (rows : List PromotedBountyShare) : List PromotedBountyShare :=
  rows.filter (·.familyId = family)

/-- What the rows of a family declare together. -/
def rewardsOf (family : String) (rows : List PromotedBountyShare) : ℕ :=
  ((rowsOf family rows).map PromotedBountyShare.rewardValue).sum

/-- The credit row for a payment; nothing is written for a payment of nothing. -/
def paymentRow (payment : PromotedBountyShare × ℕ) : Option PromotedBountyCredit :=
  if 0 < payment.2 then
    some ⟨payment.1.familyId, payment.1.bountyId, payment.1.prover, toString payment.2⟩
  else none

section Rows

variable {family : String} {rows : List PromotedBountyShare} {share : PromotedBountyShare}

theorem rowsOf_snoc_self (h : share.familyId = family) :
    rowsOf family (rows ++ [share]) = rowsOf family rows ++ [share] := by
  simp [rowsOf, h]

theorem rowsOf_snoc_other (h : share.familyId ≠ family) :
    rowsOf family (rows ++ [share]) = rowsOf family rows := by
  simp [rowsOf, h]

theorem rewardsOf_snoc_self (h : share.familyId = family) :
    rewardsOf family (rows ++ [share]) = rewardsOf family rows + share.rewardValue := by
  simp [rewardsOf, rowsOf_snoc_self h]

theorem rewardsOf_snoc_other (h : share.familyId ≠ family) :
    rewardsOf family (rows ++ [share]) = rewardsOf family rows := by
  rw [rewardsOf, rowsOf_snoc_other h, rewardsOf]

end Rows

/-! ## The loop over the rows -/

variable {registry : FamilyManifestRegistry} {height : ℕ}

/-- What a row has to meet on its own. -/
structure Settleable (registry : FamilyManifestRegistry) (height : ℕ) (share : PromotedBountyShare)
    (manifest : FamilyManifest) : Prop where
  held : registry.get share.familyId = some manifest
  eligible : settlementEligible manifest height
  reward : parseUint 128 share.reward = some share.rewardValue

/-- The state after the rows so far: both maps are functions of the rows, and so are the credits up
to the choice of what each row was paid. -/
structure SettleState.After (registry : FamilyManifestRegistry) (height : ℕ)
    (rows : List PromotedBountyShare) (s : SettleState) : Prop where
  settleable : ∀ row ∈ rows, ∃ manifest, Settleable registry height row manifest
  counted : ∀ family, balanceOf s.rowsPerFamily family = (rowsOf family rows).length
  capped : ∀ family manifest, registry.get family = some manifest →
    (rowsOf family rows).length ≤ manifest.maxRows
  left : ∀ family manifest, registry.get family = some manifest → s.budgetLeft manifest =
    if manifest.paysNothing then manifest.rewardCap else manifest.rewardCap - rewardsOf family rows
  paid : ∃ amounts : List ℕ, List.Forall₂ (fun row amount => amount ≤ row.rewardValue) rows amounts ∧
    s.credits = (rows.zip amounts).filterMap paymentRow

theorem SettleState.after_nil : After registry height [] {} where
  settleable := by simp
  counted family := by simp [rowsOf]
  capped family manifest _ := by simp [rowsOf]
  left family manifest _ := by simp [budgetLeft, rewardsOf, rowsOf]
  paid := ⟨[], .nil, rfl⟩

/-- One more row of a family. -/
def SettleState.count (s : SettleState) (family : String) : SettleState :=
  { s with
    rowsPerFamily := s.rowsPerFamily.insert family (balanceOf s.rowsPerFamily family + 1) }

/-- The state after a row that its family may have. -/
def SettleState.settled (s : SettleState) (manifest : FamilyManifest)
    (share : PromotedBountyShare) : SettleState :=
  if manifest.paysNothing then s.count share.familyId
  else (s.count share.familyId).pay manifest share share.rewardValue

/-- **What one row does.** -/
theorem settleShare_eq_ok {s s' : SettleState} {share : PromotedBountyShare} :
    settleShare registry height s share = .ok s' ↔ ∃ manifest,
      Settleable registry height share manifest ∧
      balanceOf s.rowsPerFamily share.familyId + 1 ≤ manifest.maxRows ∧
      s' = s.settled manifest share := by
  simp only [settleShare, bind_eq_ok, okOr_eq_ok, ensure_eq_ok, pure_eq_ok]
  constructor
  · rintro ⟨manifest, hget, -, helig, -, hcount, reward, hreward, rfl⟩
    have hid : manifest.familyId = share.familyId := registry.keyed _ _ hget
    have hvalue : share.rewardValue = reward := by
      rw [PromotedBountyShare.rewardValue, hreward, Option.getD_some]
    rw [hid] at hcount ⊢
    subst hvalue
    exact ⟨manifest, ⟨hget, helig, hreward⟩, hcount, rfl⟩
  · rintro ⟨manifest, ⟨hget, helig, hreward⟩, hcount, rfl⟩
    have hid : manifest.familyId = share.familyId := registry.keyed _ _ hget
    refine ⟨manifest, hget, (), helig, (), hid ▸ hcount, share.rewardValue, hreward, ?_⟩
    rw [hid]
    rfl

variable (s : SettleState)

/-- Which amount a row is paid in a state. -/
theorem SettleState.credits_pay (manifest : FamilyManifest) (share : PromotedBountyShare)
    (reward : ℕ) : (s.pay manifest share reward).credits =
      s.credits ++ (paymentRow (share, min reward (s.budgetLeft manifest))).toList := by
  simp only [pay, paymentRow]
  split_ifs <;> simp

/-- A further row with its payment. -/
theorem paid_snoc {rows : List PromotedBountyShare} {credits : List PromotedBountyCredit}
    {share : PromotedBountyShare} {amount : ℕ} (hle : amount ≤ share.rewardValue)
    (h : ∃ amounts : List ℕ,
      List.Forall₂ (fun row amount => amount ≤ row.rewardValue) rows amounts ∧
      credits = (rows.zip amounts).filterMap paymentRow) :
    ∃ amounts : List ℕ,
      List.Forall₂ (fun row amount => amount ≤ row.rewardValue) (rows ++ [share]) amounts ∧
      credits ++ (paymentRow (share, amount)).toList =
        ((rows ++ [share]).zip amounts).filterMap paymentRow := by
  obtain ⟨amounts, hall, rfl⟩ := h
  refine ⟨amounts ++ [amount], List.rel_append hall (.cons hle .nil), ?_⟩
  rw [List.zip_append hall.length_eq]
  cases hrow : paymentRow (share, amount) <;> simp [hrow]

theorem SettleState.balanceOf_settled (manifest : FamilyManifest) (share : PromotedBountyShare)
    (family : String) :
    balanceOf (s.settled manifest share).rowsPerFamily family =
      balanceOf s.rowsPerFamily family + if share.familyId = family then 1 else 0 := by
  have hcount : (s.settled manifest share).rowsPerFamily = (s.count share.familyId).rowsPerFamily := by
    rw [settled]
    split_ifs <;> rfl
  rw [hcount, count, balanceOf_insert]
  split_ifs with hf
  · rw [hf]
  · rfl

theorem SettleState.budgetLeft_settled (manifest other : FamilyManifest)
    (share : PromotedBountyShare) : (s.settled manifest share).budgetLeft other =
      if ¬manifest.paysNothing ∧ manifest.familyId = other.familyId then
        s.budgetLeft manifest - min share.rewardValue (s.budgetLeft manifest)
      else s.budgetLeft other := by
  have hcount (m : FamilyManifest) : (s.count share.familyId).budgetLeft m = s.budgetLeft m := rfl
  rw [settled]
  by_cases hmode : manifest.paysNothing
  · rw [if_pos hmode, if_neg (fun h => h.1 hmode), hcount]
  · rw [if_neg hmode, budgetLeft_pay, hcount, hcount]
    simp only [hmode, not_false_eq_true, true_and]

/-- **The step of the loop.** -/
theorem SettleState.After.snoc {rows : List PromotedBountyShare} {s s' : SettleState}
    {share : PromotedBountyShare} (h : s.After registry height rows)
    (hs : settleShare registry height s share = .ok s') :
    s'.After registry height (rows ++ [share]) := by
  obtain ⟨manifest, hrow, hcount, rfl⟩ := settleShare_eq_ok.mp hs
  have hid : manifest.familyId = share.familyId := registry.keyed _ _ hrow.held
  refine ⟨fun row hmem => ?_, fun family => ?_, fun family other hother => ?_,
    fun family other hother => ?_, ?_⟩
  · rcases List.mem_append.mp hmem with hmem | hmem
    · exact h.settleable row hmem
    · rw [List.mem_singleton.mp hmem]
      exact ⟨manifest, hrow⟩
  · rw [balanceOf_settled, h.counted]
    split_ifs with hf
    · rw [rowsOf_snoc_self hf, List.length_append, List.length_singleton]
    · rw [rowsOf_snoc_other hf, Nat.add_zero]
  · by_cases hf : share.familyId = family
    · obtain rfl : manifest = other := Option.some.inj (hrow.held.symm.trans (hf ▸ hother))
      rw [rowsOf_snoc_self hf, List.length_append, ← h.counted, ← hf]
      exact hcount
    · rw [rowsOf_snoc_other hf]
      exact h.capped family other hother
  · have hleft := h.left family other hother
    have hother_id : other.familyId = family := registry.keyed _ _ hother
    rw [budgetLeft_settled, hid, hother_id]
    by_cases hf : share.familyId = family
    · obtain rfl : manifest = other := Option.some.inj (hrow.held.symm.trans (hf ▸ hother))
      rw [rewardsOf_snoc_self hf]
      by_cases hmode : manifest.paysNothing
      · rw [if_neg (fun h => h.1 hmode), hleft, if_pos hmode, if_pos hmode]
      · rw [if_pos ⟨hmode, hf⟩, hleft, if_neg hmode, if_neg hmode]
        omega
    · rw [if_neg (fun h => hf h.2), rewardsOf_snoc_other hf, hleft]
  · rw [settled]
    split_ifs
    · have hnone : paymentRow (share, 0) = none := rfl
      have hsnoc := paid_snoc (Nat.zero_le share.rewardValue) h.paid
      rwa [hnone, Option.toList_none, List.append_nil] at hsnoc
    · rw [credits_pay]
      exact paid_snoc (min_le_left _ _) h.paid

/-- **The loop:** the induction is on the rows, from the last one. -/
theorem after_of_foldlM {rows : List PromotedBountyShare} {s : SettleState}
    (h : rows.foldlM (settleShare registry height) {} = .ok s) :
    s.After registry height rows := by
  induction rows using List.reverseRecOn generalizing s with
  | nil =>
    obtain rfl : ({} : SettleState) = s := by simpa using h
    exact after_nil
  | append_singleton rows share ih =>
    simp only [List.foldlM_append, List.foldlM_cons, List.foldlM_nil, bind_eq_ok, pure_eq_ok] at h
    obtain ⟨t, ht, _, hs, rfl⟩ := h
    exact (ih ht).snoc hs

/-! ## What a settlement adds up to -/

/-- **A settlement pays a family the rewards of its rows, up to its budget.**  A family that pays no
rewards, or that no manifest describes, is paid nothing; and the credits are one payment for each
row, in the order of the rows and never above the row's reward, without those of nothing. -/
theorem settle_eq_min_of_ok {committed : List PromotedBountyShare}
    {credits : List PromotedBountyCredit}
    (h : deriveBountySettlement committed registry height = .ok credits) :
    (∀ family manifest, registry.get family = some manifest →
      (rowsOf family committed).length ≤ manifest.maxRows ∧
      paidTo family credits = if manifest.paysNothing then 0
        else min (rewardsOf family committed) manifest.rewardCap) ∧
    (∀ family, registry.get family = none →
      rowsOf family committed = [] ∧ paidTo family credits = 0) ∧
    ∃ amounts : List ℕ,
      List.Forall₂ (fun row amount => amount ≤ row.rewardValue) committed amounts ∧
      credits = (committed.zip amounts).filterMap paymentRow := by
  simp only [deriveBountySettlement, bind_eq_ok, pure_eq_ok] at h
  obtain ⟨s, hs, rfl⟩ := h
  have hafter := after_of_foldlM hs
  have hsound : s.Sound registry := foldlM_invariant (Sound registry)
    (fun _ _ _ _ hi hf => settleShare_sound hi hf) (sound_initial registry) hs
  refine ⟨fun family manifest hget => ⟨hafter.capped family manifest hget, ?_⟩,
    fun family hget => ⟨?_, ?_⟩, hafter.paid⟩
  · have hbudget := hsound.budget family manifest hget
    have hleft := hafter.left family manifest hget
    split_ifs at hleft ⊢ <;> omega
  · refine List.filter_eq_nil_iff.mpr fun row hmem heq => ?_
    obtain ⟨manifest, hrow⟩ := hafter.settleable row hmem
    have hheld := hrow.held
    rw [of_decide_eq_true heq, hget] at hheld
    cases hheld
  · have hsettled : deriveBountySettlement committed registry height = .ok s.credits := by
      rw [deriveBountySettlement, hs]
      rfl
    simpa [hget] using settle_le_cap hsettled family

/-! ## Rows that settle -/

/-- **Rows of eligible families within their caps settle.** -/
theorem exists_settlement {committed : List PromotedBountyShare}
    (hrows : ∀ row ∈ committed, ∃ manifest, Settleable registry height row manifest)
    (hcaps : ∀ family manifest, registry.get family = some manifest →
      (rowsOf family committed).length ≤ manifest.maxRows) :
    ∃ s, committed.foldlM (settleShare registry height) {} = .ok s := by
  induction committed using List.reverseRecOn with
  | nil => exact ⟨_, rfl⟩
  | append_singleton rows share ih =>
    have hshorter (family : String) :
        (rowsOf family rows).length ≤ (rowsOf family (rows ++ [share])).length := by
      simp [rowsOf]
    obtain ⟨s, hs⟩ := ih (fun row hmem => hrows row (List.mem_append_left _ hmem))
      fun family manifest hget => (hshorter family).trans (hcaps family manifest hget)
    obtain ⟨manifest, hrow⟩ := hrows share (by simp)
    have hcount := hcaps share.familyId manifest hrow.held
    rw [rowsOf_snoc_self rfl, List.length_append, ← (after_of_foldlM hs).counted] at hcount
    refine ⟨s.settled manifest share, ?_⟩
    rw [List.foldlM_append, hs, ok_bind, List.foldlM_cons,
      settleShare_eq_ok.mpr ⟨manifest, hrow, hcount, rfl⟩]
    rfl

/-! ## Selection -/

namespace FamilyManifestRegistry

/-- `iter`: the manifests in the order of their families. -/
def iter (self : FamilyManifestRegistry) : List FamilyManifest := self.byId.toList.map Prod.snd

theorem get_of_mem_iter {self : FamilyManifestRegistry} {manifest : FamilyManifest}
    (h : manifest ∈ self.iter) : self.get manifest.familyId = some manifest := by
  obtain ⟨⟨id, _⟩, hmem, rfl⟩ := List.mem_map.mp h
  have hget := mem_toList_iff.mp hmem
  rw [self.keyed id _ hget]
  exact hget

theorem nodup_iter (self : FamilyManifestRegistry) :
    (self.iter.map FamilyManifest.familyId).Nodup := by
  have hkeys : self.iter.map FamilyManifest.familyId = self.byId.keys := by
    rw [iter, List.map_map, ← ExtTreeMap.map_fst_toList_eq_keys]
    refine List.map_congr_left fun entry hmem => ?_
    exact self.keyed entry.1 entry.2 (mem_toList_iff.mp hmem)
  rw [hkeys]
  exact ExtTreeMap.nodup_keys

end FamilyManifestRegistry

section Selection

-- Whether `verify_family_manifest_signature` says yes for a key and a manifest.
variable (signed : String → FamilyManifest → Bool)

def signatureMatchesAnyOperator (manifest : FamilyManifest) (operatorPks : List String) : Bool :=
  operatorPks.any fun pk => signed pk manifest

/-- The gates of the loop over the families; without caps no row is allowed. -/
def selectable (runtimeHeight : ℕ) (operatorPks : List String) (manifest : FamilyManifest) : Bool :=
  settlementEligible manifest runtimeHeight && manifest.signature.isSome && manifest.maxRows != 0 &&
    signatureMatchesAnyOperator signed manifest operatorPks

variable (sidePool : BountySidePool)

/-- What a family has promoted: its oldest shares, up to its cap. -/
def promotedOf (manifest : FamilyManifest) : List PromotedBountyShare :=
  ((sidePool.sharesForFamily manifest.familyId).take manifest.maxRows).map BountyShare.promote

def selectedRows (registry : FamilyManifestRegistry) (runtimeHeight : ℕ) (operatorPks : List String) :
    List PromotedBountyShare :=
  (registry.iter.filter (selectable signed runtimeHeight operatorPks)).flatMap
    (promotedOf sidePool)

structure PromotedBountySelection where
  shares : List PromotedBountyShare
  credits : List PromotedBountyCredit
deriving DecidableEq

/-- An error stands for the panic of the source's `expect`. -/
def selectPromotedBountySelection (registry : FamilyManifestRegistry) (runtimeHeight : ℕ)
    (operatorPks : List String) : Result PromotedBountySelection := do
  let shares := selectedRows signed sidePool registry runtimeHeight operatorPks
  let credits ← deriveBountySettlement shares registry runtimeHeight
  pure { shares, credits }

variable {signed} {sidePool : BountySidePool} {operatorPks : List String}

theorem familyId_of_mem_promotedOf {manifest : FamilyManifest} {row : PromotedBountyShare}
    (h : row ∈ promotedOf sidePool manifest) : row.familyId = manifest.familyId := by
  obtain ⟨share, hshare, rfl⟩ := List.mem_map.mp h
  exact BountySidePool.familyId_of_mem (List.mem_of_mem_take hshare)

theorem rowsOf_promotedOf_other {manifest : FamilyManifest} {family : String}
    (h : manifest.familyId ≠ family) : rowsOf family (promotedOf sidePool manifest) = [] :=
  List.filter_eq_nil_iff.mpr fun _ hmem heq =>
    h ((familyId_of_mem_promotedOf hmem).symm.trans (of_decide_eq_true heq))

theorem rowsOf_flatMap_of_absent {manifests : List FamilyManifest} {family : String}
    (h : family ∉ manifests.map FamilyManifest.familyId) :
    rowsOf family (manifests.flatMap (promotedOf sidePool)) = [] := by
  refine List.filter_eq_nil_iff.mpr fun row hmem heq => h ?_
  obtain ⟨manifest, hmanifest, hrow⟩ := List.mem_flatMap.mp hmem
  rw [← of_decide_eq_true heq, familyId_of_mem_promotedOf hrow]
  exact List.mem_map_of_mem hmanifest

/-- **A selection takes of each family no more than its cap,** since each is visited once. -/
theorem length_rowsOf_flatMap_le {manifests : List FamilyManifest}
    (hnodup : (manifests.map FamilyManifest.familyId).Nodup)
    (hheld : ∀ manifest ∈ manifests, registry.get manifest.familyId = some manifest)
    {family : String} {manifest : FamilyManifest} (hget : registry.get family = some manifest) :
    (rowsOf family (manifests.flatMap (promotedOf sidePool))).length ≤ manifest.maxRows := by
  induction manifests with
  | nil => simp [rowsOf]
  | cons first rest ih =>
    obtain ⟨habsent, hnodup⟩ := List.nodup_cons.mp hnodup
    rw [List.flatMap_cons, rowsOf, List.filter_append, List.length_append]
    by_cases hf : first.familyId = family
    · subst hf
      obtain rfl : first = manifest :=
        Option.some.inj ((hheld first List.mem_cons_self).symm.trans hget)
      have hrest := @rowsOf_flatMap_of_absent sidePool _ _ habsent
      rw [rowsOf] at hrest
      rw [hrest, List.length_nil]
      refine (List.length_filter_le _ _).trans ?_
      rw [promotedOf, List.length_map, List.length_take]
      exact min_le_left _ _
    · have hfirst := @rowsOf_promotedOf_other sidePool _ _ hf
      rw [rowsOf] at hfirst
      rw [hfirst, List.length_nil, Nat.zero_add]
      exact ih hnodup fun m hm => hheld m (List.mem_cons_of_mem _ hm)

/-- **The producer's `expect` is never reached.** -/
theorem selectPromotedBountySelection_eq_ok (signed : String → FamilyManifest → Bool)
    (sidePool : BountySidePool) (registry : FamilyManifestRegistry) (runtimeHeight : ℕ)
    (operatorPks : List String) : ∃ credits,
      selectPromotedBountySelection signed sidePool registry runtimeHeight operatorPks =
        .ok ⟨selectedRows signed sidePool registry runtimeHeight operatorPks, credits⟩ := by
  have hrows : ∀ row ∈ selectedRows signed sidePool registry runtimeHeight operatorPks,
      ∃ manifest, Settleable registry runtimeHeight row manifest := by
    intro row hmem
    obtain ⟨manifest, hmanifest, hrow⟩ := List.mem_flatMap.mp hmem
    obtain ⟨hmanifest, hselectable⟩ := List.mem_filter.mp hmanifest
    simp only [selectable, Bool.and_eq_true] at hselectable
    have hid := familyId_of_mem_promotedOf hrow
    refine ⟨manifest, ?_, hselectable.1.1.1, ?_⟩
    · rw [hid]
      exact FamilyManifestRegistry.get_of_mem_iter hmanifest
    · obtain ⟨share, -, rfl⟩ := List.mem_map.mp hrow
      rw [PromotedBountyShare.rewardValue, BountyShare.promote, parseUint_toString share.fits,
        Option.getD_some]
  have hcaps : ∀ family manifest, registry.get family = some manifest →
      (rowsOf family (selectedRows signed sidePool registry runtimeHeight operatorPks)).length ≤
        manifest.maxRows := fun family manifest hget =>
    length_rowsOf_flatMap_le
      (registry.nodup_iter.sublist (List.filter_sublist.map FamilyManifest.familyId))
      (fun m hm => FamilyManifestRegistry.get_of_mem_iter (List.mem_of_mem_filter hm)) hget
  obtain ⟨s, hs⟩ := exists_settlement hrows hcaps
  refine ⟨s.credits, ?_⟩
  rw [selectPromotedBountySelection, deriveBountySettlement, hs]
  rfl

/-- **Settlement arithmetic.**  Whenever rows are settled, each family has at most as many as its
caps allow and is paid the sum of their rewards up to its budget, or nothing if it pays no rewards;
each credit is for one row, at most its reward, and the credits follow the rows.  What a producer
selects always settles. -/
theorem bounty_settlement_arithmetic {committed : List PromotedBountyShare}
    {credits : List PromotedBountyCredit}
    (h : deriveBountySettlement committed registry height = .ok credits) :
    ((∀ family manifest, registry.get family = some manifest →
        (rowsOf family committed).length ≤ manifest.maxRows ∧
        paidTo family credits = if manifest.paysNothing then 0
          else min (rewardsOf family committed) manifest.rewardCap) ∧
      (∀ family, registry.get family = none →
        rowsOf family committed = [] ∧ paidTo family credits = 0) ∧
      ∃ amounts : List ℕ,
        List.Forall₂ (fun row amount => amount ≤ row.rewardValue) committed amounts ∧
        credits = (committed.zip amounts).filterMap paymentRow) ∧
    ∀ (signed : String → FamilyManifest → Bool) (sidePool : BountySidePool)
      (registry : FamilyManifestRegistry) (runtimeHeight : ℕ) (operatorPks : List String),
      ∃ selection, selectPromotedBountySelection signed sidePool registry runtimeHeight operatorPks =
        .ok selection :=
  ⟨settle_eq_min_of_ok h, fun signed sidePool registry runtimeHeight operatorPks => by
    obtain ⟨credits, hselection⟩ := selectPromotedBountySelection_eq_ok signed sidePool registry
      runtimeHeight operatorPks
    exact ⟨_, hselection⟩⟩

/-- Two families, one with a budget of five and one that pays nothing. -/
def exampleRegistry : FamilyManifestRegistry :=
  let paying : FamilyManifest := ⟨"lists", "protocol", 0, "official", some ⟨2, "5"⟩, none⟩
  let silent : FamilyManifest := ⟨"trees", "no_protocol_reward", 0, "official", some ⟨1, "9"⟩, none⟩
  (FamilyManifestRegistry.new.register paying).register silent

def exampleRows : List PromotedBountyShare :=
  [⟨"lists", "b1", "h1", "p1", "3"⟩, ⟨"trees", "b2", "h2", "p2", "7"⟩,
    ⟨"lists", "b3", "h3", "p3", "4"⟩]

/-- Of the rewards three and four, a budget of five pays three and two. -/
theorem bounty_settlement_arithmetic_interleaved :
    deriveBountySettlement exampleRows exampleRegistry 0 =
      .ok [⟨"lists", "b1", "p1", "3"⟩, ⟨"lists", "b3", "p3", "2"⟩] ∧
    ∀ manifest, exampleRegistry.get "lists" = some manifest →
      (rowsOf "lists" exampleRows).length ≤ manifest.maxRows := by
  have hsettled : deriveBountySettlement exampleRows exampleRegistry 0 =
      .ok [⟨"lists", "b1", "p1", "3"⟩, ⟨"lists", "b3", "p3", "2"⟩] := by decide +kernel
  exact ⟨hsettled, fun manifest hget =>
    ((bounty_settlement_arithmetic hsettled).1.1 "lists" manifest hget).1⟩

end Selection

end Core
