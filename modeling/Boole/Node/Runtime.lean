import Boole.Core.Builder
import Boole.Node.Ledgers

/-!
# Node/Runtime — the admission runtime of a node

`boole-node`'s `runtime.rs`: the shares that were admitted, the chain they compete for, and the
operations that move either.

    admit ──▸ candidates ──take──▸ verifier ──restore──▸ candidates ──commit──▸ chain
                                      └──release, quarantine──▸ gone      ingest, reorg ──▸ chain

A publication writes several files.  What the disk answers is a parameter (`Disk`), and an answer
that is an error leaves the state marked as failed, as the source does.
-/

open Std Library Library.Json
open Native (Hex32)
open Core

namespace Node

/-! ## Configuration -/

structure RuntimeConfig where
  policy : CalibrationPolicy
  admissionWindowMs : ℤ
  difficultyRetarget : Option DifficultyRetargetPolicy

def consensusRuleVersion : ℕ := 3

/-- The declarations of the networks that are compiled in: whether seeds are bound, the checker, the
root of the families. -/
def networkGenesisPreset (networkId : String) : Option (Bool × Option String × Option String) :=
  if networkId = "boole-dev" then some (false, none, none)
  else if networkId = "boole-testnet-2" then
    some (true, some "f9da3a1c5bcb605a26c8f778e2661e471398864c69393079aed461dd1453d7b4", none)
  else none

/-- The genesis that a configuration declares. -/
def RuntimeConfig.genesisSpec (self : RuntimeConfig) (networkId genesisC : String) : GenesisSpec :=
  let (seedBindingRequired, checkerArtifactHash, familyManifestRoot) :=
    (networkGenesisPreset networkId).getD (false, none, none)
  { networkId
    params := {
      consensusRuleVersion := consensusRuleVersion
      tBlock := hexTarget self.policy.thresholds.tBlock
      tShare := hexTarget self.policy.thresholds.tShare
      kMax := self.policy.kMax
      retarget := self.difficultyRetarget
      seedBindingRequired, checkerArtifactHash, familyManifestRoot }
    genesisC }

def blockTsMaxFutureDriftMs : ℕ := 2 * 60 * 60 * 1000

def checkBlockTsFutureDrift (tsMs nowMs : ℕ) : Result Unit :=
  let maxAllowedMs := min (nowMs + blockTsMaxFutureDriftMs) maxU64
  ensure (tsMs ≤ maxAllowedMs)
    s!"block ts {tsMs} exceeds the future-drift bound: now={nowMs} maxAllowedMs={maxAllowedMs} (driftBoundMs={blockTsMaxFutureDriftMs})"

/-! ## State -/

inductive CanonicalPublishPhase
  | blockReward
  | reorgReward
  | proofDedup
  | bountyProjection
deriving DecidableEq

def CanonicalPublishPhase.code : CanonicalPublishPhase → String
  | .blockReward => "block_reward_publish"
  | .reorgReward => "reorg_reward_publish"
  | .proofDedup => "proof_dedup_publish"
  | .bountyProjection => "bounty_projection_publish"

/-- The ledger is there if and only if a path for it is. -/
structure RuntimeAdmissionState where
  config : RuntimeConfig
  rateLimiter : RateLimiter
  pool : SharePool
  currentC : Option String := none
  candidates : List CandidateShare := []
  blockCache : List PersistedBlock := []
  rewardLedger : Option FileRewardLedger := none
  familyRegistry : FamilyManifestRegistry := .new
  bootGenesis : Option GenesisSpec := none
  authorizationNetworkId : Option String := none
  canonicalStateFailure : Option CanonicalPublishPhase := none

/-- What the disk answers to the writes of a publication. -/
structure Disk where
  blocks : Result Unit
  rewards : Result Unit

/-- A disk that takes every write. -/
def Disk.sound : Disk := ⟨.ok (), .ok ()⟩

/-- The share that a candidate is in the pool. -/
def poolShareForCandidate (candidate : CandidateShare) : PoolShare where
  label := "admission"
  pk := candidate.pk
  n := candidate.n
  j := candidate.j
  c := candidate.c

namespace RuntimeAdmissionState

def new (config : RuntimeConfig) : RuntimeAdmissionState where
  config
  rateLimiter := .fromPolicy config.policy config.admissionWindowMs
  pool := .fromPolicy config.policy

variable (lc : LaneCrypto)

variable (self : RuntimeAdmissionState)

def ensureCanonicalStateHealthy : Result Unit :=
  self.canonicalStateFailure.elim (pure ()) fun phase =>
    throw s!"canonical_state_inconsistent: prior partial publish phase={phase.code}; restart required"

def beginCanonicalPublish (phase : CanonicalPublishPhase) :
    RuntimeAdmissionState := { self with canonicalStateFailure := some phase }

def finishCanonicalPublish : RuntimeAdmissionState :=
  { self with canonicalStateFailure := none }

/-- The replay that boot used. -/
def replayUnderBootContract (blocks : List PersistedBlock) : Result ReplayResult :=
  match self.bootGenesis with
  | some spec =>
    replayBlocksWithGenesis lc blocks spec self.familyRegistry self.authorizationNetworkId
  | none => match self.config.difficultyRetarget with
    | some policy => replayBlocksWithRetargetAllowLegacyEvidenceLess lc blocks
        (hexTarget self.config.policy.thresholds.tBlock) policy self.familyRegistry
    | none => replayBlocksAllowLegacyEvidenceLess lc blocks self.familyRegistry

/-! ## Moving the head -/

def setCurrentC (c : String) : RuntimeAdmissionState :=
  { self with
    currentC := some c
    rateLimiter := self.rateLimiter.setCurrentC c
    pool := self.pool.setCurrentC c }

def currentHead : Result String :=
  okOr self.currentC "current chain head is not set"

variable (block : PersistedBlock)

def checkBlockApplicable : Result Unit := do
  let currentC ← self.currentHead
  ensure (block.prevC = currentC)
    s!"block prevC {block.prevC} does not match runtime head {currentC}"
  block.validateShape

/-- Shares for another head leave the pool and the candidates. -/
def keepOnly (c : String) : RuntimeAdmissionState :=
  { self with
    pool := (self.pool.pruneToHeight c).1
    candidates := self.candidates.filter fun candidate => candidate.c = c }

/-- The state at the block, and how many shares were dropped. -/
def applyBlockUnchecked : RuntimeAdmissionState × ℕ :=
  ((self.setCurrentC block.c).keepOnly block.c,
    ((self.setCurrentC block.c).pool.pruneToHeight block.c).2)

/-! ## Publishing a block -/

/-- The event a block adds to the ledger, where there is one. -/
def rewardEvent : Result (Option PersistedRewardEvent) :=
  self.rewardLedger.elim (pure none) fun _ =>
    some <$> deriveRewardEvent self.familyRegistry block

variable (disk : Disk)

/-- The ledger after an event was written. -/
def appendReward (ledger : Option FileRewardLedger) (event : Option PersistedRewardEvent) :
    Result (Option FileRewardLedger) :=
  match ledger, event with
  | some ledger, some event => do
    disk.rewards
    some <$> ledger.apply event
  | _, _ => pure ledger

/-- Write a checked block to the store and its event to the ledger, and apply it.  If a write fails,
the state stays marked. -/
def publishBlock (self : RuntimeAdmissionState) (block : PersistedBlock)
    (event : Option PersistedRewardEvent) : RuntimeAdmissionState × Result ℕ :=
  let self := self.beginCanonicalPublish .blockReward
  match (do disk.blocks; appendReward disk self.rewardLedger event) with
  | .error err => (self, .error err)
  | .ok ledger =>
    let (applied, dropped) := ({ self with rewardLedger := ledger }).applyBlockUnchecked block
    (({ applied with blockCache := applied.blockCache ++ [block] }).finishCanonicalPublish,
      .ok dropped)

/-- `ingest_external_block`.  The caller has replayed the chain with the block. -/
def ingestExternalBlock (self : RuntimeAdmissionState) (block : PersistedBlock) :
    RuntimeAdmissionState × Result ℕ :=
  match (do
    self.ensureCanonicalStateHealthy
    self.checkBlockApplicable block
    self.rewardEvent block) with
  | .error err => (self, .error err)
  | .ok event => publishBlock disk self block event

/-! ## Producing a block -/

def candidateSharesForCurrentC : List CandidateShare :=
  self.currentC.elim [] fun c => self.candidates.filter fun candidate => candidate.c = c

/-- The proofs the chain has credited. -/
def creditedCanonHashes : ExtTreeSet String :=
  .ofList (self.blockCache.flatMap PersistedBlock.canonHashes)

def blockBuilderConfigForHeight (existingBlocks : List PersistedBlock) :
    Result BlockBuilderConfig :=
  match self.config.difficultyRetarget with
  | none => BlockBuilderConfig.fromPolicy self.config.policy
  | some policy => do
    let evidence ← expectedRetargetDifficultyForHeight existingBlocks
      (hexTarget self.config.policy.thresholds.tBlock) policy
    BlockBuilderConfig.fromPolicyWithTBlock self.config.policy evidence.tBlock evidence.difficultyEpoch

/-- The reward keys of a selection: none if no share names one. -/
def rewardPks (selected : List CandidateShare) : List String :=
  if selected.any fun share => share.rewardPk ≠ "" then selected.map CandidateShare.payee else []

def evidenceFor (share : CandidateShare) : SelectedShareEvidence where
  pk := share.pk
  n := share.n
  j := share.j
  c := share.c
  canonHash := share.canonHash
  proofPackage := share.proofPackage
  seedHex := share.seedHex
  signedWork := share.signedWork

/-- The block of a selection, before its hash is known. -/
def assembleBlock (height ts : ℕ) (prevC : String) (config : BlockBuilderConfig)
    (selection : BuiltBlockSelection) (proposer : CandidateShare) : PersistedBlock where
  height
  prevC
  c := ""
  proposerPk := proposer.pk
  selectedShareHashes := selection.selected.map CandidateShare.shareHash
  selectedSharePks := selection.selected.map CandidateShare.pk
  selectedShareRewardPks := rewardPks selection.selected
  proposerRewardPk := proposer.rewardPk
  selectedShareEvidence := selection.selected.map evidenceFor
  minShareScore := toString config.minShareScore
  minShareScoreMultiplierNanos := config.minShareScoreMultiplierNanos
  kmaxApplied := selection.selected.length
  difficultyEpoch := config.difficultyEpoch
  tBlock := config.tBlock
  tShare := config.tShare
  difficultyWeight := config.difficultyWeight
  droppedBelowMinScore := selection.droppedBelowMinScore
  droppedKernelReject := selection.droppedKernelReject
  truncatedByKmax := selection.truncatedByKmax
  ts
  promotedBountyShares := selection.promotedBountyShares

/-- The selection must have found a proposer. -/
def builtSelection : BuildSelectionResult → Result BuiltBlockSelection
  | .ok selection => pure selection
  | .noProposer _ _ _ => throw "block selection did not produce a single proposer"

def produceBlockForCurrentCWithConfig (height ts : ℕ) (acceptedCanonTags : ExtTreeSet UInt8)
    (config : BlockBuilderConfig) (promotedBountyShares : List PromotedBountyShare) :
    Result PersistedBlock := do
  let prevC ← self.currentHead
  let result ← buildBlockSelectionForNetwork lc prevC self.candidateSharesForCurrentC config
    acceptedCanonTags self.creditedCanonHashes promotedBountyShares self.authorizationNetworkId
  let selection ← builtSelection result
  let proposer ← okOr selection.selected[selection.proposerIndex]? "proposer index out of range"
  let block := assembleBlock height ts prevC config selection proposer
  pure { block with c := (blockHash lc.toCrypto block).toHex }

def produceBlockForCurrentC (height ts : ℕ) (acceptedCanonTags : ExtTreeSet UInt8) :
    Result PersistedBlock := do
  let config ← self.blockBuilderConfigForHeight self.blockCache
  self.produceBlockForCurrentCWithConfig lc height ts acceptedCanonTags config []

/-- A node that has a genesis replays its chain with the block before it writes anything. -/
def checkOwnBlock : Result Unit :=
  self.bootGenesis.elim (pure ()) fun genesis => do
    let _ ← mapErr
      (fun err => s!"self-produced block at height {block.height} fails the strict genesis replay this node itself enforces — refusing to commit it: {err}")
      (replayBlocksWithGenesis lc (self.blockCache ++ [block]) genesis self.familyRegistry
        self.authorizationNetworkId)
    pure ()

/-- What a commit does before it writes. -/
def prepareCommit (height ts : ℕ) (acceptedCanonTags : ExtTreeSet UInt8)
    (promotedBountyShares : List PromotedBountyShare) :
    Result (PersistedBlock × Option PersistedRewardEvent) := do
  self.ensureCanonicalStateHealthy
  let config ← self.blockBuilderConfigForHeight self.blockCache
  let block ← self.produceBlockForCurrentCWithConfig lc height ts acceptedCanonTags config
    promotedBountyShares
  self.checkBlockApplicable block
  self.checkOwnBlock lc block
  let event ← self.rewardEvent block
  pure (block, event)

def commitUsingCache (self : RuntimeAdmissionState) (height ts : ℕ)
    (acceptedCanonTags : ExtTreeSet UInt8) (promotedBountyShares : List PromotedBountyShare) :
    RuntimeAdmissionState × Result (PersistedBlock × ℕ) :=
  match self.prepareCommit lc height ts acceptedCanonTags promotedBountyShares with
  | .error err => (self, .error err)
  | .ok (block, event) =>
    let (self, result) := publishBlock disk self block event
    (self, (block, ·) <$> result)

/-- Commit at the next height. -/
def commitNextBlock (self : RuntimeAdmissionState) (ts : ℕ) (acceptedCanonTags : ExtTreeSet UInt8)
    (promotedBountyShares : List PromotedBountyShare) :
    RuntimeAdmissionState × Result (PersistedBlock × ℕ) :=
  self.commitUsingCache lc disk self.blockCache.length ts acceptedCanonTags promotedBountyShares

/-! ## Changing to another chain -/

inductive ReorgOutcome
  | reorged (newHeadHeight : ℕ)
  | keptCurrent
deriving DecidableEq

/-- The name that authorizations of a competing chain must carry. -/
def reorgNetworkId (genesis : GenesisSpec) : Option String :=
  self.authorizationNetworkId.or (if self.bootGenesis = none then some genesis.networkId else none)

/-- The competing chain wins. -/
def candidateWins (candidate : List PersistedBlock) (candidateHead : PersistedBlock) :
    Result Bool :=
  match self.blockCache.getLast? with
  | none => pure true
  | some currentHead =>
    if headBlockHash lc currentHead = headBlockHash lc candidateHead then pure false
    else do
      let winner ← chooseCanonicalHead lc [self.blockCache, candidate]
      pure (winner = headBlockHash lc candidateHead)

/-- The ledger of a chain, where there is one. -/
def rebuildRewards (candidate : List PersistedBlock) : Result (Option FileRewardLedger) :=
  self.rewardLedger.elim (pure none) fun _ => some <$> candidate.foldlM
    (fun ledger block => do
      let event ← deriveRewardEvent self.familyRegistry block
      ledger.apply event) {}

/-- What a reorganisation decides before it writes: the head, the replayed head, and the ledger.
`none` keeps the current chain. -/
def prepareReorg (nowMs : ℕ) (candidate : List PersistedBlock) (genesis : GenesisSpec) :
    Result (Option (PersistedBlock × String × Option FileRewardLedger)) := do
  self.ensureCanonicalStateHealthy
  let candidateHead ← okOr candidate.getLast? "reorg candidate chain is empty"
  checkBlockTsFutureDrift candidateHead.ts nowMs
  let replay ← replayBlocksWithGenesis lc candidate genesis self.familyRegistry
    (self.reorgNetworkId genesis)
  let wins ← self.candidateWins lc candidate candidateHead
  if wins then do
    let ledger ← self.rebuildRewards candidate
    pure (some (candidateHead, replay.latestC, ledger))
  else pure none

def reorgToHeavierChain (self : RuntimeAdmissionState) (nowMs : ℕ) (candidate : List PersistedBlock)
    (genesis : GenesisSpec) : RuntimeAdmissionState × Result ReorgOutcome :=
  match self.prepareReorg lc nowMs candidate genesis with
  | .error err => (self, .error err)
  | .ok none => (self, .ok .keptCurrent)
  | .ok (some (candidateHead, latestC, ledger)) =>
    let self := self.beginCanonicalPublish .reorgReward
    match (do disk.blocks; ledger.elim (pure ()) fun _ => disk.rewards) with
    | .error err => (self, .error err)
    | .ok () =>
      let self := { self with rewardLedger := ledger.or self.rewardLedger, blockCache := candidate }
      (((self.setCurrentC latestC).keepOnly candidateHead.c).finishCanonicalPublish,
        .ok (.reorged candidateHead.height))

/-! ## Tickets and shares -/

def requiredString (body : Value) (key : String) : Result String :=
  okOr (body.getStr key) s!"{key} must be string"

def observeTicketFromBody (body : Value) : RuntimeAdmissionState × Result Bool :=
  match (do
    let pk ← requiredString body "pk"
    let c ← requiredString body "c"
    pure (pk, c) : Result (String × String)) with
  | .error err => (self, .error err)
  | .ok (pk, c) =>
    let (rateLimiter, observed) := self.rateLimiter.observeTicket pk c (body.getStr "n")
    ({ self with rateLimiter }, .ok observed)

/-- The candidate of an admitted submission. -/
def candidateFor (submission : ParsedSubmission) (digest : Hex32) (canonTag : UInt8)
    (rewardPk : Option String) (signedWork : Option ShareWorkAuthorization) : CandidateShare where
  label := "runtime-admission"
  pk := submission.pkHex
  rewardPk := rewardPk.getD ""
  n := submission.nHex
  j := submission.jHex
  c := submission.cHex
  shareHash := digest.toHex
  score := toString (shareScore digest)
  canonTag
  canonHash := (lc.sha256 submission.packageBytes).toHex
  proofPackage := encodeHex submission.packageBytes
  seedHex := submission.seedHex
  signedWork

/-- The candidates are a list of their own; a full one is not extended. -/
def admitBodyWithSubmitterContext (now : ℤ) (ip : String) (body : Value) (canonTag : UInt8)
    (rewardPk : Option String) (signedWork : Option ShareWorkAuthorization) :
    RuntimeAdmissionState × AdmissionDecision :=
  match (do
    let submission ← parseSubmissionBody body
    let admitted ← admitParsedSubmissionTyped lc.toCrypto self.config.policy self.rateLimiter
      self.pool now ip submission
    pure (submission, admitted) :
      Except AdmissionError (ParsedSubmission × Hex32 × RateLimiter × SharePool)) with
  | .error err => (self, .error err)
  | .ok (submission, digest, rateLimiter, pool) =>
    let self := { self with rateLimiter, pool }
    if self.config.policy.globalShareCap ≤ self.candidates.length then (self, .ok digest)
    else
      let candidate := candidateFor lc submission digest canonTag rewardPk signedWork
      ({ self with candidates := self.candidates ++ [candidate] }, .ok digest)

variable (shareHash : String)

/-- Where the candidate with a hash is. -/
def positionOf : Option ℕ :=
  self.candidates.findIdx? fun candidate => candidate.shareHash = shareHash

def quarantineCandidate : RuntimeAdmissionState × Bool :=
  match (self.positionOf shareHash).bind fun index =>
      (self.candidates[index]?).map (index, ·) with
  | none => (self, false)
  | some (index, candidate) =>
    let reserved := self.pool.reserveForSemanticCheck (poolShareForCandidate candidate)
    ({ self with
      pool := reserved.getD self.pool
      candidates := self.candidates.eraseIdx index }, reserved.isSome)

/-- If the pool does not know the candidate, the candidate is dropped and its charge is given back. -/
def takeCandidateForReverify (admittedAt : ℤ) (peerIp : String) :
    RuntimeAdmissionState × Option CandidateShare :=
  match (self.positionOf shareHash).bind fun index =>
      (self.candidates[index]?).map (index, ·) with
  | none => (self, none)
  | some (index, candidate) =>
    match self.pool.reserveForSemanticCheck (poolShareForCandidate candidate) with
    | none =>
      ({ self with
        candidates := self.candidates.eraseIdx index
        rateLimiter := (self.rateLimiter.releaseCommitted admittedAt peerIp candidate.pk
          candidate.c).1 }, none)
    | some pool =>
      ({ self with pool, candidates := self.candidates.eraseIdx index }, some candidate)

def restoreReverifiedCandidate (candidate : CandidateShare) : RuntimeAdmissionState × Bool :=
  if self.currentC ≠ some candidate.c ∨
      self.candidates.any (fun existing => existing.shareHash = candidate.shareHash) ∨
      self.config.policy.globalShareCap ≤ self.candidates.length then (self, false)
  else match self.pool.restoreAfterSemanticCheck (poolShareForCandidate candidate) with
    | none => (self, false)
    | some pool => ({ self with pool, candidates := self.candidates ++ [candidate] }, true)

def releaseSemanticReservation (candidate : CandidateShare) (admittedAt : ℤ) (peerIp : String) :
    RuntimeAdmissionState × Bool :=
  let (pool, poolReleased) := self.pool.releaseSemanticReservation (poolShareForCandidate candidate)
  let (rateLimiter, rateReleased) :=
    self.rateLimiter.releaseCommitted admittedAt peerIp candidate.pk candidate.c
  ({ self with pool, rateLimiter }, poolReleased || rateReleased)

end RuntimeAdmissionState

end Node
