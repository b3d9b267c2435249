import Boole.Core.Block
import Boole.Library.Accounts

/-!
# Core/Settlement — what a block's promoted bounty shares are paid

`boole-core`'s `accounting.rs`, `family_manifest_registry.rs` and the settlement of
`bounty_promotion.rs`.  A block declares which bounty shares it promoted; what they are paid is
derived from the manifests of their families.

    shares of a block, in order ──▸ min(reward, what is left of the family's budget)

**In one block a family is paid at most its budget** (`settle_le_cap`), every payment is positive
(`settle_pos`).
-/

open Std Library Library.Json

namespace Core

variable {credit : PromotedBountyCredit} {registry : FamilyManifestRegistry} {height : ℕ}
  {committed : List PromotedBountyShare} {credits : List PromotedBountyCredit}

/-! ## Accounts -/

abbrev Balances := ExtTreeMap String ℕ

def checkedCredit (map : Balances) (key : String) (amount : ℕ) : Result Balances := do
  let current := balanceOf map key
  let sum ← okOr (checkedAdd 128 current amount)
    s!"consensus accounting overflow crediting {key}: {current} + {amount} exceeds u128::MAX"
  pure (map.insert key sum)

theorem checkedCredit_eq_ok {m m' : Balances} {key : String} {amount : ℕ} :
    checkedCredit m key amount = .ok m' ↔
      balanceOf m key + amount < 2 ^ 128 ∧ m.insert key (balanceOf m key + amount) = m' := by
  simp only [checkedCredit, bind_eq_ok, okOr_eq_ok, checkedAdd_eq_some, pure_eq_ok]
  grind

/-- A credit adds its amount to one account. -/
theorem checkedCredit_posts {m m' : Balances} {key : String} {amount : ℕ}
    (h : checkedCredit m key amount = .ok m') : Posts [] [(key, amount)] m m' := by
  obtain ⟨-, rfl⟩ := checkedCredit_eq_ok.mp h
  intro k
  rw [balanceOf_insert]
  split_ifs with hk
  · subst hk
    simp
  · simp [hk]

/-! ## Manifests -/

structure FamilyCaps where
  maxSharesPerBlock : ℕ
  maxRewardCreditPerBlock : String
deriving DecidableEq

/-- The fields of a manifest that settlement and promotion read. -/
structure FamilyManifest where
  familyId : String
  rewardMode : String
  activationHeight : ℕ
  status : String
  caps : Option FamilyCaps
  signature : Option String
deriving DecidableEq

/-- A registry files a manifest under its own family. -/
structure FamilyManifestRegistry where
  byId : ExtTreeMap String FamilyManifest
  keyed : ∀ (id : String) (manifest : FamilyManifest), byId[id]? = some manifest →
    manifest.familyId = id

namespace FamilyManifestRegistry

def new : FamilyManifestRegistry where
  byId := ∅
  keyed := by simp

def register (self : FamilyManifestRegistry) (manifest : FamilyManifest) :
    FamilyManifestRegistry where
  byId := self.byId.insert manifest.familyId manifest
  keyed := by
    intro id m h
    rw [getElem?_insert] at h
    split_ifs at h with hid
    · cases h
      exact hid
    · exact self.keyed id m h

def get (self : FamilyManifestRegistry) (familyId : String) : Option FamilyManifest :=
  self.byId[familyId]?

end FamilyManifestRegistry

def settlementEligibleStatuses : List String :=
  ["bounty-only", "experimental", "capped-official", "official"]

def settlementEligible (manifest : FamilyManifest) (height : ℕ) : Bool :=
  manifest.activationHeight ≤ height && settlementEligibleStatuses.contains manifest.status

variable (self : FamilyManifest)

namespace FamilyManifest

/-- No caps, no rows. -/
def maxRows : ℕ := self.caps.elim 0 FamilyCaps.maxSharesPerBlock

/-- What a family may be paid in one block. -/
def rewardCap : ℕ :=
  (self.caps.bind fun caps => parseUint 128 caps.maxRewardCreditPerBlock).getD 0

def paysNothing : Prop := self.rewardMode = "no_protocol_reward"

instance (self : FamilyManifest) : Decidable self.paysNothing := inferInstanceAs (Decidable (_ = _))

end FamilyManifest

/-! ## Settlement -/

structure PromotedBountyCredit where
  familyId : String
  bountyId : String
  prover : String
  amount : String
deriving DecidableEq

/-- The state of the loop over a block's promoted shares. -/
structure SettleState where
  credits : List PromotedBountyCredit := []
  rowsPerFamily : Balances := ∅
  budgetLeftPerFamily : Balances := ∅

/-- What is left of a family's budget; a family not yet seen has all of it. -/
def SettleState.budgetLeft (s : SettleState) (manifest : FamilyManifest) : ℕ :=
  (s.budgetLeftPerFamily[manifest.familyId]?).getD manifest.rewardCap

/-- Pay a share out of its family's budget; nothing is written for a payment of nothing. -/
def SettleState.pay (s : SettleState) (manifest : FamilyManifest) (share : PromotedBountyShare)
    (reward : ℕ) : SettleState :=
  let credit := min reward (s.budgetLeft manifest)
  { s with
    credits := if 0 < credit then
        s.credits ++ [⟨share.familyId, share.bountyId, share.prover, toString credit⟩]
      else s.credits
    budgetLeftPerFamily :=
      s.budgetLeftPerFamily.insert manifest.familyId (s.budgetLeft manifest - credit) }

def settleShare (registry : FamilyManifestRegistry) (height : ℕ) (s : SettleState)
    (share : PromotedBountyShare) : Result SettleState := do
  let manifest ← okOr (registry.get share.familyId)
    s!"bounty settlement: committed promoted share names family {share.familyId} which the family registry does not hold"
  ensure (settlementEligible manifest height)
    s!"bounty settlement: family {share.familyId} is not settlement-eligible at height {height} (activationHeight {manifest.activationHeight}, status {manifest.status})"
  let seen := balanceOf s.rowsPerFamily manifest.familyId + 1
  ensure (seen ≤ manifest.maxRows)
    s!"bounty settlement: family {share.familyId} commits {seen} promoted shares, exceeding caps.max_shares_per_block {manifest.maxRows}"
  let reward ← okOr (parseUint 128 share.reward)
    s!"bounty settlement: promoted share reward must be a decimal u128, got {share.reward}"
  let s := { s with rowsPerFamily := s.rowsPerFamily.insert manifest.familyId seen }
  pure (if manifest.paysNothing then s else s.pay manifest share reward)

def deriveBountySettlement (committed : List PromotedBountyShare)
    (registry : FamilyManifestRegistry) (height : ℕ) : Result (List PromotedBountyCredit) := do
  let s ← committed.foldlM (settleShare registry height) {}
  pure s.credits

/-! ## Budgets -/

/-- The amount of a credit row. -/
def PromotedBountyCredit.value (credit : PromotedBountyCredit) : ℕ :=
  (parseUint 128 credit.amount).getD 0

theorem PromotedBountyCredit.value_eq {n : ℕ} (hn : n < 2 ^ 128) (h : credit.amount = toString n) :
    credit.value = n := by
  rw [PromotedBountyCredit.value, h, parseUint_toString hn, Option.getD_some]

/-- What a list of credit rows pays to one family. -/
def paidTo (family : String) (credits : List PromotedBountyCredit) : ℕ :=
  ((credits.filter fun credit => credit.familyId = family).map PromotedBountyCredit.value).sum

@[simp] theorem paidTo_append (family : String) (l l' : List PromotedBountyCredit) :
    paidTo family (l ++ l') = paidTo family l + paidTo family l' := by
  simp [paidTo]

theorem paidTo_singleton (family : String) (credit : PromotedBountyCredit) :
    paidTo family [credit] = if credit.familyId = family then credit.value else 0 := by
  by_cases h : credit.familyId = family <;> simp [paidTo, h]

/-- What the loop keeps true: rows are positive amounts that read back, and a family's payments and
what is left of its budget add up to its cap. -/
structure SettleState.Sound (registry : FamilyManifestRegistry) (s : SettleState) : Prop where
  rows : ∀ credit ∈ s.credits, ∃ n, 0 < n ∧ n < 2 ^ 128 ∧ credit.amount = toString n
  budget : ∀ family manifest, registry.get family = some manifest →
    paidTo family s.credits + s.budgetLeft manifest = manifest.rewardCap
  registered : ∀ credit ∈ s.credits, registry.get credit.familyId ≠ none

open SettleState

theorem SettleState.sound_initial (registry : FamilyManifestRegistry) :
    Sound registry {} where
  rows := by simp
  budget family manifest _ := by simp [paidTo, budgetLeft]
  registered := by simp

theorem SettleState.budgetLeft_pay (s : SettleState) (manifest other : FamilyManifest)
    (share : PromotedBountyShare) (reward : ℕ) :
    (s.pay manifest share reward).budgetLeft other =
      if manifest.familyId = other.familyId then
        s.budgetLeft manifest - min reward (s.budgetLeft manifest)
      else s.budgetLeft other := by
  simp only [pay, budgetLeft, getElem?_insert]
  split_ifs <;> rfl

theorem SettleState.Sound.pay {s : SettleState} (h : s.Sound registry) {manifest : FamilyManifest}
    {share : PromotedBountyShare} {reward : ℕ} (hget : registry.get share.familyId = some manifest)
    (hreward : reward < 2 ^ 128) :
    (s.pay manifest share reward).Sound registry := by
  have hid : manifest.familyId = share.familyId := registry.keyed _ _ hget
  -- The one row that is added pays the family of the share the credit, if that is not nothing.
  have hpaid (family : String) : paidTo family (s.pay manifest share reward).credits =
      paidTo family s.credits +
        if share.familyId = family then min reward (s.budgetLeft manifest) else 0 := by
    have hlt : min reward (s.budgetLeft manifest) < 2 ^ 128 := (min_le_left _ _).trans_lt hreward
    simp only [SettleState.pay]
    split_ifs with hpos hf hf
    · rw [paidTo_append, paidTo_singleton, if_pos hf, PromotedBountyCredit.value_eq hlt rfl]
    · rw [paidTo_append, paidTo_singleton, if_neg hf]
    · omega
    · rfl
  refine ⟨fun credit hmem => ?_, fun family other hother => ?_, fun credit hmem => ?_⟩
  · simp only [SettleState.pay] at hmem
    split_ifs at hmem with hpos
    · rcases List.mem_append.mp hmem with hmem | hmem
      · exact h.rows credit hmem
      · obtain rfl := List.mem_singleton.mp hmem
        exact ⟨_, hpos, (min_le_left _ _).trans_lt hreward, rfl⟩
    · exact h.rows credit hmem
  · have hbudget := h.budget family other hother
    have hother_id : other.familyId = family := registry.keyed _ _ hother
    rw [hpaid, budgetLeft_pay, hid, hother_id]
    split_ifs with hf
    · subst hf
      obtain rfl : manifest = other := Option.mem_unique hget hother
      omega
    · omega
  · simp only [SettleState.pay] at hmem
    split_ifs at hmem with hpos
    · rcases List.mem_append.mp hmem with hmem | hmem
      · exact h.registered credit hmem
      · obtain rfl := List.mem_singleton.mp hmem
        simp [hget]
    · exact h.registered credit hmem

theorem settleShare_sound {s s' : SettleState} {share : PromotedBountyShare} (h : s.Sound registry)
    (hs : settleShare registry height s share = .ok s') : s'.Sound registry := by
  simp only [settleShare, bind_eq_ok, okOr_eq_ok, pure_eq_ok] at hs
  obtain ⟨manifest, hget, -, -, -, -, reward, hreward, rfl⟩ := hs
  have hrows : Sound registry { s with
      rowsPerFamily := s.rowsPerFamily.insert manifest.familyId
        (balanceOf s.rowsPerFamily manifest.familyId + 1) } := ⟨h.rows, h.budget, h.registered⟩
  split_ifs
  · exact hrows
  · exact hrows.pay hget (parseUint_lt hreward)

theorem deriveBountySettlement_sound
    (h : deriveBountySettlement committed registry height = .ok credits) :
    ∃ s : SettleState, s.credits = credits ∧ s.Sound registry := by
  simp only [deriveBountySettlement, bind_eq_ok, pure_eq_ok] at h
  obtain ⟨s, hs, rfl⟩ := h
  exact ⟨s, rfl, foldlM_invariant (Sound registry)
    (fun _ _ _ _ hi hf => settleShare_sound hi hf) (sound_initial registry) hs⟩

/-- **Every row of a settlement is a positive `u128`, as it prints.** -/
theorem settle_pos (h : deriveBountySettlement committed registry height = .ok credits)
    (hmem : credit ∈ credits) :
    0 < credit.value ∧ parseU128 credit.amount = .ok credit.value := by
  obtain ⟨s, rfl, hs⟩ := deriveBountySettlement_sound h
  obtain ⟨n, hpos, hlt, hn⟩ := hs.rows credit hmem
  rw [PromotedBountyCredit.value_eq hlt hn, parseU128, hn, parseUint_toString hlt]
  exact ⟨hpos, rfl⟩

/-- A row of a settlement names a share of the block. -/
theorem settle_mem (h : deriveBountySettlement committed registry height = .ok credits)
    (hmem : credit ∈ credits) : ∃ share ∈ committed,
      credit.familyId = share.familyId ∧ credit.bountyId = share.bountyId ∧
        credit.prover = share.prover := by
  simp only [deriveBountySettlement, bind_eq_ok, pure_eq_ok] at h
  obtain ⟨s, hs, rfl⟩ := h
  refine foldlM_invariant (fun s => ∀ credit ∈ s.credits, ∃ share ∈ committed,
    credit.familyId = share.familyId ∧ credit.bountyId = share.bountyId ∧
      credit.prover = share.prover) (fun s share s' hshare ih hstep => ?_) (by simp) hs credit hmem
  simp only [settleShare, bind_eq_ok, pure_eq_ok] at hstep
  obtain ⟨manifest, -, -, -, -, -, reward, -, rfl⟩ := hstep
  split_ifs
  · exact ih
  · simp only [pay]
    split_ifs
    · intro credit hcredit
      rcases List.mem_append.mp hcredit with hcredit | hcredit
      · exact ih credit hcredit
      · obtain rfl := List.mem_singleton.mp hcredit
        exact ⟨share, hshare, rfl, rfl, rfl⟩
    · exact ih

/-- **In one block a family is paid at most its cap.** -/
theorem settle_le_cap (h : deriveBountySettlement committed registry height = .ok credits)
    (family : String) :
    paidTo family credits ≤ ((registry.get family).map FamilyManifest.rewardCap).getD 0 := by
  obtain ⟨s, rfl, hs⟩ := deriveBountySettlement_sound h
  cases hget : registry.get family with
  | some manifest =>
    have := hs.budget family manifest hget
    simp
    omega
  | none =>
    -- No row names a family the registry does not hold.
    have hnone : s.credits.filter (fun credit => credit.familyId = family) = [] := by
      refine List.filter_eq_nil_iff.mpr fun credit hmem heq => hs.registered credit hmem ?_
      rw [of_decide_eq_true heq, hget]
    simp [paidTo, hnone]

end Core
