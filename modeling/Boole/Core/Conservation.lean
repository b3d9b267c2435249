import Boole.Core.Replay

/-!
# Core/Conservation — every proof is credited once, and credits add up

Along a chain the balances grow only by what its blocks pay:

    total = Σ over blocks (selected shares + 1) + Σ over blocks (settlement)

`Replays.books` carries the sum, `Replays.proofs` and `Replays.bounties` the keys already credited.
**On a strictly replayed chain no proof is credited in two places, no bounty proof is promoted
twice, and the balances are exactly what the blocks paid** (`replay_credits_once`).
-/

open Std Library Library.Json

namespace Core

open PersistedBlock PersistedCredit

/-! ## Rows -/

/-- The amount of a credit row. -/
def PersistedCredit.value (row : PersistedCredit) : ℕ := (parseUint 128 row.amount).getD 0

/-- A row as an entry of a book. -/
def PersistedCredit.entry (row : PersistedCredit) : String × ℕ := (row.pk, row.value)

/-- A bounty credit as a row for the prover. -/
def PromotedBountyCredit.proverRow (credit : PromotedBountyCredit) : PersistedCredit :=
  ⟨credit.prover, credit.amount⟩

/-- A bounty credit as a row for the family. -/
def PromotedBountyCredit.familyRow (credit : PromotedBountyCredit) : PersistedCredit :=
  ⟨credit.familyId, credit.amount⟩

theorem creditRow_eq_ok {m m' : Balances} {row : PersistedCredit} (h : creditRow m row = .ok m') :
    parseUint 128 row.amount = some row.value ∧ checkedCredit m row.pk row.value = .ok m' := by
  simp only [creditRow, parseU128, bind_eq_ok, okOr_eq_ok] at h
  obtain ⟨amount, hamount, h⟩ := h
  have hvalue : row.value = amount := by rw [value, hamount, Option.getD_some]
  rw [hvalue]
  exact ⟨hamount, h⟩

/-- Rows that were credited are in the books, each with the amount it prints. -/
theorem creditRows_posts {rows : List PersistedCredit} {m m' : Balances}
    (h : rows.foldlM creditRow m = .ok m') :
    (∀ row ∈ rows, parseUint 128 row.amount = some row.value) ∧
      Posts [] (rows.map entry) m m' := by
  induction rows generalizing m with
  | nil =>
    obtain rfl : m = m' := by simpa using h
    exact ⟨by simp, Posts.refl m⟩
  | cons row rows ih =>
    rw [List.foldlM_cons, bind_eq_ok] at h
    obtain ⟨t, hrow, hrest⟩ := h
    obtain ⟨hread, hcredit⟩ := creditRow_eq_ok hrow
    obtain ⟨hreads, hposts⟩ := ih hrest
    exact ⟨List.forall_mem_cons.mpr ⟨hread, hreads⟩, (checkedCredit_posts hcredit).trans hposts⟩

/-- **Paying bounties keeps two books, and each is credited row by row.** -/
theorem creditBounties_iff {credits : List PromotedBountyCredit} {b b' f f' : Balances} :
    credits.foldlM creditBounty (b, f) = .ok (b', f') ↔
      (credits.map PromotedBountyCredit.proverRow).foldlM creditRow b = .ok b' ∧
        (credits.map PromotedBountyCredit.familyRow).foldlM creditRow f = .ok f' := by
  induction credits generalizing b f with
  | nil => simp
  | cons credit credits ih =>
    simp only [List.map_cons, List.foldlM_cons, bind_eq_ok, creditBounty, creditRow, pure_eq_ok]
    constructor
    · rintro ⟨_, ⟨amount, hamount, b₁, hb, f₁, hf, rfl⟩, hrest⟩
      obtain ⟨hbs, hfs⟩ := ih.mp hrest
      exact ⟨⟨b₁, ⟨amount, hamount, hb⟩, hbs⟩, f₁, ⟨amount, hamount, hf⟩, hfs⟩
    · rintro ⟨⟨b₁, ⟨amount, hamount, hb⟩, hbs⟩, f₁, ⟨amount', hamount', hf⟩, hfs⟩
      obtain rfl : amount = amount' := Except.ok.inj (hamount.symm.trans hamount')
      exact ⟨_, ⟨amount, hamount, b₁, hb, f₁, hf, rfl⟩, ih.mpr ⟨hbs, hfs⟩⟩

/-! ## What a block pays -/

theorem tally_posts (pks : List String) (m : Balances) :
    Posts [] (pks.map fun pk => (pk, 1)) m (pks.foldl tally m) := by
  induction pks generalizing m with
  | nil => exact Posts.refl m
  | cons pk pks ih =>
    have hone : Posts [] [(pk, 1)] m (tally m pk) := by
      intro k
      rw [tally, balanceOf_insert]
      split_ifs with hk
      · subst hk
        simp
      · simp [hk]
    exact hone.trans (ih (tally m pk))

/-- **A block's base credits are one unit for each share it pays and one for the proposer.** -/
theorem computeBlockRewardCredits_volume {b : PersistedBlock} {credits : List PersistedCredit}
    (h : computeBlockRewardCredits b = .ok credits)
    (hread : ∀ row ∈ credits, parseUint 128 row.amount = some row.value) :
    volume (credits.map entry) = b.sharePayees.length + 1 := by
  simp only [computeBlockRewardCredits, computeBlockCreditsForRewardPks, bind_eq_ok,
    pure_eq_ok] at h
  obtain ⟨_, _, _, _, _, _, rfl⟩ := h
  generalize htotals : (b.sharePayees ++ [b.payee]).foldl tally ∅ = totals at *
  -- A row prints a number, and what it reads back as is that number.
  have hvalues : (totals.toList.map fun entry => (⟨entry.1, toString entry.2⟩ : PersistedCredit)).map
      (Prod.snd ∘ entry) = totals.toList.map Prod.snd := by
    rw [List.map_map]
    refine List.map_congr_left fun entry hentry => ?_
    have := hread ⟨entry.1, toString entry.2⟩ (List.mem_map_of_mem hentry)
    exact eq_of_parseUint_toString this
  have htotal : total totals = b.sharePayees.length + 1 := by
    have hposts := (tally_posts (b.sharePayees ++ [b.payee]) ∅).total
    rw [htotals] at hposts
    simpa [volume, Function.comp_def] using hposts
  rw [volume, List.map_map, hvalues, ← htotal]
  rfl

theorem PersistedBlock.length_sharePayees {b : PersistedBlock} (h : b.validateShape = .ok ()) :
    b.sharePayees.length = b.selectedShareHashes.length := by
  obtain ⟨hpks, hreward, -⟩ := validateShape_eq_ok h
  rw [sharePayees]
  split_ifs with hempty
  · exact hpks.symm
  · exact hreward.resolve_left hempty

/-- The credits that settle a block's promoted shares. -/
def settlementOf (registry : FamilyManifestRegistry) (block : PersistedBlock) :
    List PromotedBountyCredit :=
  (deriveBountySettlement block.promotedBountyShares registry block.height).toOption.getD []

/-- What a settlement pays in all. -/
def paid (credits : List PromotedBountyCredit) : ℕ := (credits.map PromotedBountyCredit.value).sum

theorem settlementOf_eq {registry : FamilyManifestRegistry} {block : PersistedBlock}
    {credits : List PromotedBountyCredit}
    (h : deriveBountySettlement block.promotedBountyShares registry block.height = .ok credits) :
    settlementOf registry block = credits := by
  rw [settlementOf, h]
  rfl

/-- **One block raises the balances by its shares, its proposer and its settlement.** -/
theorem Replayed.total {rules : ReplayRules} {s s' : ReplayState} {block : PersistedBlock}
    {height : ℕ} {credits : List PersistedCredit} {bountyCredits : List PromotedBountyCredit}
    (h : Replayed rules s s' block height credits bountyCredits) :
    total s'.balances = total s.balances + (block.selectedShareHashes.length + 1) +
      paid (settlementOf rules.registry block) := by
  obtain ⟨mid, hbase, hbooks⟩ := h.books
  obtain ⟨hread, hposts⟩ := creditRows_posts hbase
  have hbounty := (creditRows_posts (creditBounties_iff.mp hbooks).1).2.total
  have hmid := hposts.total
  rw [computeBlockRewardCredits_volume h.credits_eq hread, block.length_sharePayees h.shape,
    volume_nil, add_zero] at hmid
  have hpaid : volume ((bountyCredits.map PromotedBountyCredit.proverRow).map
      entry) = paid (settlementOf rules.registry block) := by
    rw [settlementOf_eq h.settlement, volume, List.map_map, List.map_map]
    rfl
  rw [hpaid, volume_nil, hmid] at hbounty
  exact hbounty

/-! ## Along a chain -/

/-- The proofs a block credits. -/
def PersistedBlock.canonHashes (block : PersistedBlock) : List String :=
  block.selectedShareEvidence.map SelectedShareEvidence.canonHash

/-- The bounty proofs a block promotes. -/
def PersistedBlock.bountyProofs (block : PersistedBlock) : List BountyProof :=
  block.promotedBountyShares.map PromotedBountyShare.identity

namespace Replays

variable {rules : ReplayRules} {blocks : List PersistedBlock} {s : ReplayState}

theorem forall_mem (h : Replays rules blocks s) {b : PersistedBlock} (hb : b ∈ blocks) :
    ∃ t t' height credits bountyCredits, Replayed rules t t' b height credits bountyCredits := by
  induction h with
  | nil => simp at hb
  | snoc prior step ih =>
    rcases List.mem_append.mp hb with hb | hb
    · exact ih hb
    · obtain rfl := List.mem_singleton.mp hb
      exact ⟨_, _, _, _, _, step⟩

/-- The set of credited proofs is the list of the proofs in the blocks, without repetition. -/
theorem proofs (h : Replays rules blocks s) :
    (blocks.flatMap canonHashes).Nodup ∧
      ∀ p, p ∈ s.creditedCanonHashes ↔ p ∈ blocks.flatMap canonHashes := by
  induction h with
  | nil => simp
  | snoc prior step ih =>
    obtain ⟨hnodup, hmem⟩ := ih
    obtain ⟨hnew, hfresh, hmem'⟩ := insertFresh_eq_ok step.proofs
    rw [List.flatMap_append, List.flatMap_singleton]
    refine ⟨hnodup.append hnew fun p hp hq => hfresh p hq ((hmem p).mpr hp), fun p => ?_⟩
    rw [hmem', hmem, List.mem_append]
    rfl

/-- The same for the bounty proofs. -/
theorem bounties (h : Replays rules blocks s) :
    (blocks.flatMap bountyProofs).Nodup ∧
      ∀ p, p ∈ s.creditedBountyProofs ↔ p ∈ blocks.flatMap bountyProofs := by
  induction h with
  | nil => simp
  | snoc prior step ih =>
    obtain ⟨hnodup, hmem⟩ := ih
    obtain ⟨hnew, hfresh, hmem'⟩ := insertFresh_eq_ok step.bounties
    rw [List.flatMap_append, List.flatMap_singleton]
    refine ⟨hnodup.append hnew fun p hp hq => hfresh p hq ((hmem p).mpr hp), fun p => ?_⟩
    rw [hmem', hmem, List.mem_append]
    rfl

/-- **The balances are what the blocks paid.** -/
theorem total (h : Replays rules blocks s) : Library.total s.balances =
    (blocks.map fun b => b.selectedShareHashes.length + 1).sum +
      (blocks.map fun b => paid (settlementOf rules.registry b)).sum := by
  induction h with
  | nil => simp
  | snoc prior step ih =>
    rw [step.total, List.map_append, List.sum_append, List.map_append, List.sum_append]
    simp only [List.map_cons, List.map_nil, List.sum_cons, List.sum_nil]
    omega

end Replays

/-- **Credits are exactly-once and conserved** on every strictly replayed chain. -/
theorem replay_credits_once {rules : ReplayRules} (hstrict : rules.evidencePolicy = .strict)
    {blocks : List PersistedBlock} {r : ReplayResult}
    (h : replayBlocksWithRules rules blocks = .ok r) :
    (blocks.flatMap PersistedBlock.canonHashes).Nodup ∧
    (blocks.flatMap PersistedBlock.bountyProofs).Nodup ∧
    total r.balances = (blocks.map fun b => b.selectedShareHashes.length + 1).sum +
      (blocks.map fun b => paid (settlementOf rules.registry b)).sum ∧
    ∀ b ∈ blocks, b.canonHashes.length = b.selectedShareHashes.length ∧
      deriveBountySettlement b.promotedBountyShares rules.registry b.height
        = .ok (settlementOf rules.registry b) ∧
      ∀ family, paidTo family (settlementOf rules.registry b) ≤
        ((rules.registry.get family).map FamilyManifest.rewardCap).getD 0 := by
  obtain ⟨s, hs, rfl⟩ := replayBlocksWithRules_eq_ok h
  refine ⟨hs.proofs.1, hs.bounties.1, hs.total, fun b hb => ?_⟩
  obtain ⟨t, t', height, credits, bountyCredits, hb⟩ := hs.forall_mem hb
  have hevidence := hb.evidence
  rw [hstrict] at hevidence
  rw [settlementOf_eq hb.settlement]
  exact ⟨by rw [PersistedBlock.canonHashes, List.length_map,
      verifySelectedShareEvidence_strict hevidence], hb.settlement, settle_le_cap hb.settlement⟩

/-- A block with one share pays two units and the five its family may pay. -/
theorem replay_credits_once_sample : ∃ r,
    replayBlocksWithRules Sample.rules [Sample.block] = .ok r ∧ total r.balances = 2 + 5 := by
  obtain ⟨r, hr⟩ := Sample.replays
  have hr := replayBlocksWithGenesis_eq_ok hr
  obtain ⟨-, -, htotal, -⟩ := replay_credits_once rfl hr
  refine ⟨r, hr, htotal.trans ?_⟩
  decide +kernel

end Core
