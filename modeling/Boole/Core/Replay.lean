import Boole.Core.Evidence
import Boole.Core.Settlement
import Boole.Library.FreshSet

/-!
# Core/Replay — a chain's balances, derived from its blocks

`boole-core`'s `replay.rs` and `genesis.rs`.  Replay walks the blocks in order; each is checked
against the head before it, then its credits are added.

    block ──▸ shape, height, link, hash, evidence, selection
        └──▸ one unit for each selected share and one for the proposer
        └──▸ the settlement of its promoted bounty shares

`Replayed` says everything a replayed block passed and did; the results about chains are derived
from it and from what one step does to the state.
-/

open Std Library Library.Json

namespace Core

/-! ## Genesis -/

structure GenesisParams where
  consensusRuleVersion : ℕ
  tBlock : String
  tShare : String
  kMax : ℕ
  retarget : Option DifficultyRetargetPolicy
  seedBindingRequired : Bool
  checkerArtifactHash : Option String
  familyManifestRoot : Option String
deriving DecidableEq

structure GenesisSpec where
  networkId : String
  params : GenesisParams
  genesisC : String
deriving DecidableEq

/-! ## Base-lane credits -/

structure PersistedCredit where
  pk : String
  amount : String
deriving DecidableEq

/-- One unit more for a key. -/
def tally (totals : Balances) (pk : String) : Balances := totals.insert pk (balanceOf totals pk + 1)

def computeBlockCreditsForRewardPks (proposerRewardPk : String) (shareRewardPks : List String) :
    Result (List PersistedCredit) := do
  ensure (shareRewardPks ≠ []) "computeBlockCredits: share owners list must not be empty"
  let _ ← parseHex32 proposerRewardPk
  allHex32 shareRewardPks
  let totals : Balances := (shareRewardPks ++ [proposerRewardPk]).foldl tally ∅
  pure (totals.toList.map fun entry => ⟨entry.1, toString entry.2⟩)

namespace PersistedBlock

/-- The key that is paid for proposing. -/
def payee (self : PersistedBlock) : String :=
  if self.proposerRewardPk = "" then self.proposerPk else self.proposerRewardPk

/-- The keys that are paid for the selected shares. -/
def sharePayees (self : PersistedBlock) : List String :=
  if self.selectedShareRewardPks = [] then self.selectedSharePks else self.selectedShareRewardPks

end PersistedBlock

def computeBlockRewardCredits (block : PersistedBlock) : Result (List PersistedCredit) :=
  computeBlockCreditsForRewardPks block.payee block.sharePayees

/-- Add a credit row to the balances. -/
def creditRow (balances : Balances) (row : PersistedCredit) : Result Balances := do
  let amount ← parseU128 row.amount
  checkedCredit balances row.pk amount

/-- Pay a bounty credit to the prover and count it for the family. -/
def creditBounty (books : Balances × Balances) (credit : PromotedBountyCredit) :
    Result (Balances × Balances) := do
  let amount ← parseU128 credit.amount
  let balances ← checkedCredit books.1 credit.prover amount
  let byFamily ← checkedCredit books.2 credit.familyId amount
  pure (balances, byFamily)

/-! ## Replay -/

structure ReplayResult where
  latestC : String
  height : ℕ
  balances : Balances
  bountyCreditByFamily : Balances

/-- A promoted share as replay remembers it. -/
abbrev BountyProof := String × String × String

def PromotedBountyShare.identity (share : PromotedBountyShare) : BountyProof :=
  (share.familyId, share.bountyId, share.proofHash)

abbrev BountyProofs := ExtTreeSet BountyProof (@lexOrd String (String × String) _ lexOrd).compare

structure ReplayState where
  latestC : String
  balances : Balances := ∅
  bountyCreditByFamily : Balances := ∅
  creditedCanonHashes : ExtTreeSet String := ∅
  creditedBountyProofs : BountyProofs := ∅

/-- What a replay is run under. -/
structure ReplayRules where
  lc : LaneCrypto
  evidencePolicy : EvidencePolicy
  genesisC : String
  genesisParams : Option GenesisParams
  expectedNetworkId : Option String
  registry : FamilyManifestRegistry

/-- The rules a genesis commits to. -/
def checkGenesisParams (block : PersistedBlock) (params : GenesisParams) : Result Unit := do
  ensure (block.selectedShareHashes.length ≤ params.kMax)
    s!"block at height {block.height} selects {block.selectedShareHashes.length} shares, exceeding the genesis k_max {params.kMax}"
  forM block.selectedShareEvidence.zipIdx fun (evidence, idx) =>
    ensure (params.seedBindingRequired → evidence.seedHex ≠ "")
      s!"selected share evidence at index {idx} in height {block.height} has an empty seedHex, but the genesis requires seed binding"

def doubleProof (block : PersistedBlock) (canonHash : String) : String :=
  s!"block {block.height} would credit an already-credited proof: canon_hash {canonHash} was already credited on this chain (consensus proof dedup, ADR-0012)"

def doubleBounty (block : PersistedBlock) (proof : BountyProof) : String :=
  s!"block {block.height} would credit an already-credited bounty proof: familyId={proof.1}, bountyId={proof.2.1}, proofHash={proof.2.2} (consensus bounty dedup)"

def replayBlock (rules : ReplayRules) (s : ReplayState) (entry : PersistedBlock × ℕ) :
    Result ReplayState := do
  let block := entry.1
  block.validateShape
  ensure (block.height = entry.2)
    s!"block height mismatch: got {block.height}, expected {entry.2}"
  ensure (block.prevC = s.latestC)
    s!"prevC mismatch: block prevC={block.prevC} but replay head={s.latestC}"
  let expectedC := (blockHash rules.lc.toCrypto block).toHex
  ensure (block.c = expectedC) s!"block c mismatch: got {block.c}, expected {expectedC}"
  verifySelectedShareEvidence rules.lc block rules.evidencePolicy rules.expectedNetworkId
  rules.genesisParams.elim (pure ()) (checkGenesisParams block)
  verifyCanonicalSelection rules.lc block
  let creditedCanonHashes ← insertFresh (doubleProof block) s.creditedCanonHashes
    (block.selectedShareEvidence.map SelectedShareEvidence.canonHash)
  let credits ← computeBlockRewardCredits block
  let balances ← credits.foldlM creditRow s.balances
  let bountyCredits ← deriveBountySettlement block.promotedBountyShares rules.registry block.height
  let creditedBountyProofs ← insertFresh (doubleBounty block) s.creditedBountyProofs
    (block.promotedBountyShares.map PromotedBountyShare.identity)
  let books ← bountyCredits.foldlM creditBounty (balances, s.bountyCreditByFamily)
  pure { latestC := block.c, balances := books.1, bountyCreditByFamily := books.2,
         creditedCanonHashes, creditedBountyProofs }

/-- The state after all the blocks. -/
def replayFrom (rules : ReplayRules) (blocks : List PersistedBlock) : Result ReplayState :=
  blocks.zipIdx.foldlM (replayBlock rules) { latestC := rules.genesisC }

def replayBlocksWithRules (rules : ReplayRules) (blocks : List PersistedBlock) :
    Result ReplayResult := do
  verifyBlockTsMedianTimePast blocks
  let s ← replayFrom rules blocks
  pure ⟨s.latestC, blocks.length, s.balances, s.bountyCreditByFamily⟩

/-! ## Entry points -/

def zeroAnchor : String := "0000000000000000000000000000000000000000000000000000000000000000"

variable (lc : LaneCrypto)

variable (blocks : List PersistedBlock)

def replayBlocks : Result ReplayResult :=
  replayBlocksWithRules ⟨lc, .strict, zeroAnchor, none, none, .new⟩ blocks

variable (initialTBlock : String)

def replayBlocksWithRetarget (policy : DifficultyRetargetPolicy) : Result ReplayResult := do
  validateRetargetedDifficulty blocks initialTBlock policy
  replayBlocks lc blocks

def replayBlocksAllowLegacyEvidenceLess (registry : FamilyManifestRegistry) : Result ReplayResult :=
  replayBlocksWithRules ⟨lc, .allowLegacyEvidenceLess, zeroAnchor, none, none, registry⟩ blocks

def replayBlocksWithRetargetAllowLegacyEvidenceLess (policy : DifficultyRetargetPolicy)
    (registry : FamilyManifestRegistry) : Result ReplayResult := do
  validateRetargetedDifficulty blocks initialTBlock policy
  replayBlocksAllowLegacyEvidenceLess lc blocks registry

/-- Every block carries a target of the same value as the genesis. -/
def validateStaticDifficulty : Result Unit := do
  let expected ← parseBiguintHex initialTBlock
  forM blocks fun block => do
    let got ← parseBiguintHex block.tBlock
    ensure (got = expected)
      s!"static-difficulty t_block mismatch at height {block.height}: got {block.tBlock}, genesis commits {initialTBlock}"

def validateStaticTShare (genesisTShare : String) : Result Unit := do
  let expected ← parseBiguintHex genesisTShare
  forM blocks fun block => do
    let got ← parseBiguintHex block.tShare
    ensure (got = expected)
      s!"t_share mismatch at height {block.height}: got {block.tShare}, genesis commits {genesisTShare}"

def legacyUnnamedFallbackNetworkId : String := "boole-mvp"

/-- The network name may be left out only for the unnamed fallback. -/
def checkAuthorizationNetwork (spec : GenesisSpec) : Option String → Result Unit
  | some network => ensure (network = spec.networkId)
      s!"authorization network scope {network} does not match genesis network {spec.networkId}"
  | none => ensure (spec.networkId = legacyUnnamedFallbackNetworkId)
      s!"authorization network scope cannot be omitted for genesis network {spec.networkId}"

/-- The rules of a network that replays from its genesis. -/
def GenesisSpec.rules (spec : GenesisSpec) (lc : LaneCrypto) (registry : FamilyManifestRegistry)
    (authorizationNetworkId : Option String) : ReplayRules :=
  ⟨lc, .strict, spec.genesisC, some spec.params, authorizationNetworkId, registry⟩

def validateDifficulty (params : GenesisParams) : Result Unit :=
  match params.retarget with
  | some policy => validateRetargetedDifficulty blocks params.tBlock policy
  | none => validateStaticDifficulty blocks params.tBlock

/-- `replay_blocks_with_genesis_and_registry_for_authorization_network` -/
def replayBlocksWithGenesis (spec : GenesisSpec) (registry : FamilyManifestRegistry)
    (authorizationNetworkId : Option String) : Result ReplayResult := do
  checkAuthorizationNetwork spec authorizationNetworkId
  validateDifficulty blocks spec.params
  validateStaticTShare blocks spec.params.tShare
  replayBlocksWithRules (spec.rules lc registry authorizationNetworkId) blocks

/-! ## What a replayed block passed and did -/

/-- A block went from one state to the next. -/
structure Replayed (rules : ReplayRules) (s s' : ReplayState) (block : PersistedBlock)
    (height : ℕ) (credits : List PersistedCredit) (bountyCredits : List PromotedBountyCredit) :
    Prop where
  shape : block.validateShape = .ok ()
  height_eq : block.height = height
  link : block.prevC = s.latestC
  hash : block.c = (blockHash rules.lc.toCrypto block).toHex
  evidence : verifySelectedShareEvidence rules.lc block rules.evidencePolicy
    rules.expectedNetworkId = .ok ()
  params : ∀ params ∈ rules.genesisParams, checkGenesisParams block params = .ok ()
  selection : verifyCanonicalSelection rules.lc block = .ok ()
  proofs : insertFresh (doubleProof block) s.creditedCanonHashes
    (block.selectedShareEvidence.map SelectedShareEvidence.canonHash) = .ok s'.creditedCanonHashes
  credits_eq : computeBlockRewardCredits block = .ok credits
  settlement : deriveBountySettlement block.promotedBountyShares rules.registry block.height
    = .ok bountyCredits
  bounties : insertFresh (doubleBounty block) s.creditedBountyProofs
    (block.promotedBountyShares.map PromotedBountyShare.identity) = .ok s'.creditedBountyProofs
  head : s'.latestC = block.c
  books : ∃ mid, credits.foldlM creditRow s.balances = .ok mid ∧
    bountyCredits.foldlM creditBounty (mid, s.bountyCreditByFamily) =
      .ok (s'.balances, s'.bountyCreditByFamily)

theorem replayBlock_eq_ok {rules : ReplayRules} {s s' : ReplayState} {block : PersistedBlock}
    {height : ℕ} : replayBlock rules s (block, height) = .ok s' ↔
      ∃ credits bountyCredits, Replayed rules s s' block height credits bountyCredits := by
  have hparams : rules.genesisParams.elim (pure ()) (checkGenesisParams block) = .ok () ↔
      ∀ params ∈ rules.genesisParams, checkGenesisParams block params = .ok () := by
    cases rules.genesisParams <;> simp
  simp only [replayBlock, bind_eq_ok, ensure_eq_ok, pure_eq_ok]
  constructor
  · rintro ⟨_, hshape, _, hheight, _, hlink, _, hhash, _, hev, _, hpar, _, hsel, hashes, hhashes,
      credits, hcredits, mid, hmid, bounty, hbounty, proofs, hproofs, books, hbooks, rfl⟩
    exact ⟨credits, bounty, hshape, hheight, hlink, hhash, hev, hparams.mp hpar, hsel, hhashes,
      hcredits, hbounty, hproofs, rfl, mid, hmid, hbooks⟩
  · rintro ⟨credits, bounty, h⟩
    obtain ⟨mid, hmid, hbooks⟩ := h.books
    refine ⟨(), h.shape, (), h.height_eq, (), h.link, (), h.hash, (), h.evidence, (),
      hparams.mpr h.params, (), h.selection, _, h.proofs, _, h.credits_eq, _, hmid, _, h.settlement,
      _, h.bounties, _, hbooks, ?_⟩
    cases s'
    have := h.head
    simp_all

/-- A replay, one block after the other. -/
inductive Replays (rules : ReplayRules) : List PersistedBlock → ReplayState → Prop
  | nil : Replays rules [] { latestC := rules.genesisC }
  | snoc {blocks : List PersistedBlock} {s s' : ReplayState} {block : PersistedBlock}
      {credits : List PersistedCredit} {bountyCredits : List PromotedBountyCredit}
      (prior : Replays rules blocks s)
      (step : Replayed rules s s' block blocks.length credits bountyCredits) :
      Replays rules (blocks ++ [block]) s'

theorem replayFrom_concat {rules : ReplayRules} {blocks : List PersistedBlock}
    {block : PersistedBlock} : replayFrom rules (blocks ++ [block]) =
      (replayFrom rules blocks >>= fun s => replayBlock rules s (block, blocks.length)) := by
  simp [replayFrom, List.zipIdx_append]

theorem replayFrom_singleton (rules : ReplayRules) (block : PersistedBlock) :
    replayFrom rules [block] = replayBlock rules { latestC := rules.genesisC } (block, 0) := by
  simp [replayFrom]

/-- **The loop is a replay block by block.** -/
theorem replayFrom_eq_ok {rules : ReplayRules} {blocks : List PersistedBlock} {s : ReplayState} :
    replayFrom rules blocks = .ok s ↔ Replays rules blocks s := by
  induction blocks using List.reverseRecOn generalizing s with
  | nil =>
    constructor
    · intro h
      obtain rfl : ({ latestC := rules.genesisC } : ReplayState) = s := by
        simpa [replayFrom] using h
      exact .nil
    · intro h
      generalize hb : ([] : List PersistedBlock) = blocks at h
      cases h with
      | nil => rfl
      | snoc _ _ => simp at hb
  | append_singleton blocks block ih =>
    rw [replayFrom_concat, bind_eq_ok]
    constructor
    · rintro ⟨t, ht, hstep⟩
      obtain ⟨credits, bounty, h⟩ := replayBlock_eq_ok.mp hstep
      exact .snoc (ih.mp ht) h
    · intro h
      generalize hb : blocks ++ [block] = all at h
      cases h with
      | nil => simp at hb
      | snoc prior step =>
        obtain ⟨rfl, hlast⟩ := List.append_inj' hb rfl
        cases hlast
        exact ⟨_, ih.mpr prior, replayBlock_eq_ok.mpr ⟨_, _, step⟩⟩

/-- An accepted chain was replayed. -/
theorem replayBlocksWithRules_eq_ok {rules : ReplayRules} {blocks : List PersistedBlock}
    {r : ReplayResult} (h : replayBlocksWithRules rules blocks = .ok r) :
    ∃ s, Replays rules blocks s ∧ r = ⟨s.latestC, blocks.length, s.balances, s.bountyCreditByFamily⟩ := by
  simp only [replayBlocksWithRules, bind_eq_ok, pure_eq_ok] at h
  obtain ⟨_, _, s, hs, rfl⟩ := h
  exact ⟨s, replayFrom_eq_ok.mp hs, rfl⟩

theorem replayBlocksWithGenesis_eq_ok {lc : LaneCrypto} {blocks : List PersistedBlock}
    {spec : GenesisSpec} {registry : FamilyManifestRegistry} {network : Option String}
    {r : ReplayResult} (h : replayBlocksWithGenesis lc blocks spec registry network = .ok r) :
    replayBlocksWithRules (spec.rules lc registry network) blocks = .ok r := by
  simp only [replayBlocksWithGenesis, bind_eq_ok] at h
  obtain ⟨_, _, _, _, _, _, h⟩ := h
  exact h

/-! ## A chain to run -/

namespace Sample

/-- Hash functions with one value each, and a curve on which every signature is valid. -/
def lane : LaneCrypto where
  blake3 _ := 1
  sha256 _ := 2
  keyError _ := none
  verify _ _ _ := true
  verifyLegacy _ _ _ := true

def miner : String := "00000000000000000000000000000000000000000000000000000000000000aa"

def prover : String := "00000000000000000000000000000000000000000000000000000000000000bb"

def family : FamilyManifest where
  familyId := "lists"
  rewardMode := "capped_bonus"
  activationHeight := 0
  status := "official"
  caps := some ⟨2, "5"⟩
  signature := none

/-- A package with no declarations. -/
def package : String := "504f46500100000000000000000000001000000000100000000000000000"

def evidence : SelectedShareEvidence where
  pk := miner
  n := zeroAnchor
  j := zeroAnchor
  c := zeroAnchor
  canonHash := (2 : Native.Hex32).toHex
  proofPackage := package
  seedHex := ""
  signedWork := none

/-- A block with one share, and a bounty share that is announced for more than its family may pay. -/
def block : PersistedBlock where
  height := 0
  prevC := zeroAnchor
  c := (1 : Native.Hex32).toHex
  proposerPk := miner
  selectedShareHashes := [(1 : Native.Hex32).toHex]
  selectedSharePks := [miner]
  selectedShareRewardPks := []
  proposerRewardPk := ""
  selectedShareEvidence := [evidence]
  minShareScore := toString (2 ^ 256 / 255)
  minShareScoreMultiplierNanos := minShareScoreMultiplierNanos
  kmaxApplied := 1
  difficultyEpoch := 0
  tBlock := "0xff"
  tShare := "0xff"
  difficultyWeight := toString (2 ^ 256 / 255)
  droppedBelowMinScore := 0
  droppedKernelReject := 0
  truncatedByKmax := 0
  ts := 1
  promotedBountyShares := [⟨"lists", "b1", zeroAnchor, prover, "9"⟩]

/-- A network whose only family is the one above. -/
def spec : GenesisSpec where
  networkId := "boole-mvp"
  params := ⟨3, "0xff", "0xff", 4, none, false, none, none⟩
  genesisC := zeroAnchor

def registry : FamilyManifestRegistry := FamilyManifestRegistry.new.register family

def rules : ReplayRules := spec.rules lane registry none

/-- The block is accepted as a chain of its own. -/
theorem replays : ∃ r, replayBlocksWithGenesis lane [block] spec registry none = .ok r :=
  exists_eq_ok_of_isOk (by decide +kernel)

end Sample

end Core
