import Boole.Core.Difficulty
import Boole.Core.Package
import Boole.Library.HexBytes

/-!
# Core/Evidence — what replay checks about the shares of a block

`boole-core`'s `share_authorization.rs`, `replay_evidence.rs` and the comparisons of
`block_builder.rs` that replay shares with it.  Each selected share comes with evidence outside the
block hash; replay derives from it everything the hashed rows declare.

    evidence ──▸ package bytes ──▸ canonHash ──▸ shareHash = selectedShareHashes[i], score ≥ floor
        └──▸ signed work ──▸ reward key = selectedShareRewardPks[i]
-/

open Library Library.Json
open Native (Hex32 Hex64 Crypto decodeHex32 decodeHex64 digestFor signedEnvelopeSchema)

namespace Core

/-- What the base lane takes from its cryptographic libraries.  It verifies signatures by the older
rule, which takes low-order points. -/
structure LaneCrypto extends Crypto where
  verifyLegacy : Hex32 → Hex32 → Hex64 → Bool

/-! ## Signed work -/

def signerWorkV2Schema : String := "boole.signer.work.v2"

def signerWorkRoute : String := "/submit"

def authorizationRequiredNetworkId : String := "boole-testnet-2"

structure VerifiedShareAuthorization where
  signerPk : String
  rewardRecipient : String
  workPk : String
  workN : String
  workJ : String
  workC : String
  workBytesHex : String
  networkId : Option String
deriving DecidableEq

def payloadStr (payload : Value) (field : String) : Result String :=
  okOr (payload.getStr field) s!"signedWork payload.{field} missing or not a string"

def workPayloadStr (workPayload : Value) (field : String) : Result String :=
  okOr (workPayload.getStr field) s!"signedWork payload.workPayload.{field} missing or not a string"

def isObject : Value → Bool
  | .object _ => true
  | _ => false

def canonicalPayloadHashHex (cr : Crypto) (payload : Value) : String :=
  (cr.sha256 (canonicalize payload)).toHex

def verifySignatureWithNetwork (lc : LaneCrypto) (pkHex sigHex : String) (payload : Value)
    (networkId : Option String) : Result Bool := do
  let pk ← decodeHex32 pkHex "pk"
  let signature ← decodeHex64 sigHex "signature"
  match lc.keyError pk with
  | some err => throw ("bad_pk: ed25519 point invalid: " ++ err)
  | none => pure (lc.verifyLegacy pk (digestFor lc.toCrypto payload networkId) signature)

def verifyShareWorkAuthorization (lc : LaneCrypto) (auth : ShareWorkAuthorization) :
    Result VerifiedShareAuthorization := do
  ensure (auth.schema = signedEnvelopeSchema)
    s!"signedWork schema mismatch: got {auth.schema}, expected {signedEnvelopeSchema}"
  let payload := auth.payload
  ensure (isObject payload) "signedWork payload must be an object"
  let payloadSchema ← payloadStr payload "schema"
  ensure (payloadSchema = signerWorkV2Schema)
    s!"signedWork payload schema mismatch: got {payloadSchema}, expected {signerWorkV2Schema}"
  let route ← payloadStr payload "route"
  ensure (route = signerWorkRoute)
    s!"signedWork payload route mismatch: got {route}, expected {signerWorkRoute}"
  let workPayload ← okOr (payload.get "workPayload") "signedWork payload.workPayload missing"
  ensure (isObject workPayload) "signedWork payload.workPayload must be an object"
  let requestHash ← payloadStr payload "requestHash"
  let computed := canonicalPayloadHashHex lc.toCrypto workPayload
  ensure (requestHash = computed)
    s!"signedWork requestHash does not commit the workPayload: got {requestHash}, expected {computed}"
  let rewardRecipient ← payloadStr payload "rewardRecipient"
  let _ ← mapErr (fun err => s!"signedWork rewardRecipient is not well-formed hex32: {err}")
    (parseHex32 rewardRecipient)
  let valid ← mapErr (fun err => s!"signedWork signature verification failed: {err}")
    (verifySignatureWithNetwork lc auth.pk auth.signature payload auth.networkId)
  ensure (valid = true) "signedWork signature invalid"
  let bytes ← workPayloadStr workPayload "bytes"
  let decoded ← okOr (decodeHex bytes) "signedWork workPayload.bytes is not valid hex"
  let workPk ← workPayloadStr workPayload "pk"
  let workN ← workPayloadStr workPayload "n"
  let workJ ← workPayloadStr workPayload "j"
  let workC ← workPayloadStr workPayload "c"
  pure {
    signerPk := auth.pk, rewardRecipient, workPk, workN, workJ, workC
    workBytesHex := encodeHex decoded, networkId := auth.networkId }

/-- One network requires an authorization; on every named network one that is there must name it. -/
def verifyShareWorkAuthorizationForNetwork (lc : LaneCrypto)
    (auth : Option ShareWorkAuthorization) (expectedNetworkId : Option String) :
    Result (Option VerifiedShareAuthorization) := do
  match auth with
  | none =>
    ensure (expectedNetworkId ≠ some authorizationRequiredNetworkId)
      s!"signedWork authorization is required on network {authorizationRequiredNetworkId}"
    pure none
  | some auth =>
    let verified ← verifyShareWorkAuthorization lc auth
    let got := verified.networkId.getD "<legacy-unscoped>"
    let expected := expectedNetworkId.getD ""
    ensure (expectedNetworkId = none ∨ verified.networkId = expectedNetworkId)
      s!"signedWork network mismatch: got {got}, expected {expected}"
    pure (some verified)

/-! ## Canonical order and the proposer -/

structure CanonicalOrderKey where
  pk : String
  n : String
  j : String
deriving DecidableEq

def compareCanonical (a b : CanonicalOrderKey) : Ordering :=
  (compare a.pk b.pk).then ((compare a.n b.n).then (compare a.j b.j))

def SelectedShareEvidence.canonicalOrderKey (self : SelectedShareEvidence) : CanonicalOrderKey :=
  ⟨self.pk, self.n, self.j⟩

def isAsciiHexdigit (c : Char) : Bool :=
  c.isDigit || ('a' ≤ c && c ≤ 'f') || ('A' ≤ c && c ≤ 'F')

/-- Sixty-four lower-case digits, so that comparing texts compares numbers. -/
def normalizeHex256 (value : String) : Result String := do
  let digits := stripMark value.toList
  ensure (digits.length ≤ 64) "hex256 value too long"
  ensure (digits.all isAsciiHexdigit) "hex256 contains non-hex characters"
  pure (String.ofList ((digits.map Char.toLower).leftpad 64 '0'))

/-- The first share below the target, and how many there are. -/
def selectQualifyingProposer (shareHashes : List String) (tBlock : String) :
    Result (Option ℕ × ℕ) := do
  let target ← normalizeHex256 tBlock
  let hashes ← shareHashes.mapM normalizeHex256
  pure (hashes.findIdx? (· < target), hashes.countP (· < target))

/-! ## Evidence -/

inductive EvidencePolicy
  | strict
  | allowLegacyEvidenceLess
deriving DecidableEq

def minShareScoreMultiplierNanos : ℕ := 1000000000

def baseLaneMaxProofBytes : ℕ := 16384

def baseLaneMaxDecls : ℕ := 1024

/-- The package of a share is within the lane's ceilings. -/
def checkPackage (idx : ℕ) (packageBytes : List UInt8) : Result Unit :=
  match validateProofPackageWithLimits packageBytes baseLaneMaxProofBytes baseLaneMaxDecls with
  | .ok _ => pure ()
  | .error (.decode _) =>
    throw s!"selected share evidence proofPackage invalid at index {idx}"
  | .error _ =>
    throw s!"selected share evidence proofPackage exceeds the committed base-lane resource limit at index {idx}"

/-- The key a block pays for its share at an index. -/
def PersistedBlock.committedRewardPk (block : PersistedBlock) (pk : String) (idx : ℕ) : String :=
  if block.selectedShareRewardPks = [] then pk else block.selectedShareRewardPks.getD idx ""

/-- A verified authorization signs this very share and the key it is paid to. -/
def checkAuthorization (block : PersistedBlock) (idx : ℕ) (evidence : SelectedShareEvidence)
    (verified : VerifiedShareAuthorization) : Result Unit := do
  ensure (verified.signerPk = evidence.pk)
    s!"selected share evidence signedWork signer mismatch at index {idx}: envelope pk {verified.signerPk}, evidence pk {evidence.pk}"
  ensure (verified.workPk = evidence.pk)
    s!"selected share evidence signedWork workPayload pk mismatch at index {idx}: signed {verified.workPk}, evidence pk {evidence.pk}"
  ensure (verified.workN = evidence.n ∧ verified.workJ = evidence.j ∧ verified.workC = evidence.c ∧
      verified.workBytesHex = evidence.proofPackage)
    s!"selected share evidence signedWork workPayload does not describe the committed share at index {idx}"
  let rewardPk := block.committedRewardPk evidence.pk idx
  ensure (rewardPk = verified.rewardRecipient)
    s!"selected share reward pk at index {idx} is not authorized by the winning share's signedWork: committed {rewardPk}, signed rewardRecipient {verified.rewardRecipient}"

/-- The checks on one share.  The indices are in range: the lists are as long as the evidence. -/
def verifyEvidence (lc : LaneCrypto) (block : PersistedBlock) (expectedNetworkId : Option String)
    (expectedMinShareScore : ℕ) (evidence : SelectedShareEvidence) (idx : ℕ) : Result Unit := do
  ensure (evidence.c = block.prevC)
    s!"selected share evidence c mismatch at index {idx}: got {evidence.c}, expected {block.prevC}"
  let ownerPk := block.selectedSharePks.getD idx ""
  ensure (evidence.pk = ownerPk)
    s!"selected share evidence pk mismatch at index {idx}: got {evidence.pk}, expected {ownerPk}"
  let packageBytes ← okOr (decodeHex evidence.proofPackage)
    s!"selected share evidence proofPackage hex invalid at index {idx}"
  checkPackage idx packageBytes
  let expectedCanonHash := (lc.sha256 packageBytes).toHex
  ensure (evidence.canonHash = expectedCanonHash)
    s!"selected share evidence canonHash mismatch at index {idx}: got {evidence.canonHash}, expected {expectedCanonHash}"
  let c ← parseHex32 evidence.c
  let pk ← parseHex32 evidence.pk
  let n ← parseHex32 evidence.n
  let j ← parseHex32 evidence.j
  let canonHash ← parseHex32 evidence.canonHash
  let digest := shareHash lc.toCrypto c pk n j canonHash
  let committedHash := block.selectedShareHashes.getD idx ""
  ensure (digest.toHex = committedHash)
    s!"selected share evidence shareHash mismatch at index {idx}: got {digest.toHex}, expected {committedHash}"
  ensure (expectedMinShareScore ≤ shareScore digest)
    s!"selected share at index {idx} scores {shareScore digest}, below the committed minimum share score {expectedMinShareScore}"
  ensure (evidence.seedHex = "" ∨
      (findTargetSeedJIndex lc.toCrypto c pk n evidence.seedHex).isSome)
    s!"selected share evidence seedHex at index {idx} does not derive from target_seed(c, pk, n, j_index) for any j_index < {targetSeedJIndexBound}: got {evidence.seedHex}"
  let verified ← mapErr
    (fun err => s!"selected share evidence signedWork invalid at index {idx}: {err}")
    (verifyShareWorkAuthorizationForNetwork lc evidence.signedWork expectedNetworkId)
  verified.elim (pure ()) (checkAuthorization block idx evidence)

def verifySelectedShareEvidence (lc : LaneCrypto) (block : PersistedBlock)
    (policy : EvidencePolicy) (expectedNetworkId : Option String) : Result Unit :=
  if block.selectedShareEvidence = [] then
    ensure (policy = .allowLegacyEvidenceLess)
      "selected share evidence is required and must not be empty; pass a LegacyEvidenceOptIn via replay_blocks_allow_legacy_evidence_less to replay a pre-evidence legacy chain"
  else do
    ensure (block.selectedShareEvidence.length = block.selectedShareHashes.length)
      s!"selected share evidence count mismatch: got {block.selectedShareEvidence.length}, expected {block.selectedShareHashes.length}"
    ensure (block.minShareScoreMultiplierNanos = minShareScoreMultiplierNanos)
      s!"selected share evidence minShareScoreMultiplierNanos must equal the consensus rule constant {minShareScoreMultiplierNanos}, got {block.minShareScoreMultiplierNanos}"
    let tShare ← parseBiguintHex block.tShare
    let expectedMin ← minShareScore tShare block.minShareScoreMultiplierNanos
    ensure (block.minShareScore = toString expectedMin)
      s!"selected share evidence minShareScore mismatch: got {block.minShareScore}, expected {expectedMin}"
    forM block.selectedShareEvidence.zipIdx fun (evidence, idx) =>
      verifyEvidence lc block expectedNetworkId expectedMin evidence idx

/-- The proposer is the first qualifying share, and is paid what its signed work says. -/
def verifyProposer (lc : LaneCrypto) (block : PersistedBlock) (winnerIndex : ℕ) : Result Unit := do
  let winnerPk := block.selectedSharePks.getD winnerIndex ""
  ensure (block.proposerPk = winnerPk)
    s!"block proposerPk {block.proposerPk} does not equal the replay-derived qualifying winner {winnerPk} (index {winnerIndex})"
  match (block.selectedShareEvidence[winnerIndex]?).bind SelectedShareEvidence.signedWork with
  | none => pure ()
  | some auth =>
    let verified ← mapErr
      (fun err => s!"winning share evidence signedWork invalid at index {winnerIndex}: {err}")
      (verifyShareWorkAuthorization lc auth)
    let proposerRewardPk :=
      if block.proposerRewardPk = "" then block.proposerPk else block.proposerRewardPk
    ensure (proposerRewardPk = verified.rewardRecipient)
      s!"proposer reward pk {proposerRewardPk} is not authorized by the winning share's signedWork: signed rewardRecipient {verified.rewardRecipient}"

def verifyCanonicalSelection (lc : LaneCrypto) (block : PersistedBlock) : Result Unit :=
  if block.selectedShareEvidence = [] then pure ()
  else do
    forM (block.selectedShareEvidence.zip block.selectedShareEvidence.tail).zipIdx
      fun ((a, b), idx) =>
        ensure (compareCanonical a.canonicalOrderKey b.canonicalOrderKey ≠ .gt)
          s!"selected share evidence is out of canonical order between index {idx} (pk={a.pk}) and index {idx + 1} (pk={b.pk}): compare_canonical requires ascending order"
    let (winner, _) ← selectQualifyingProposer block.selectedShareHashes block.tBlock
    let winnerIndex ← okOr winner
      s!"no selected share satisfies T_block; replay found no proposer among {block.selectedShareHashes.length} shares"
    verifyProposer lc block winnerIndex

/-! ## What the evidence of a strictly replayed block establishes -/

/-- Strict replay finds evidence for every selected share. -/
theorem verifySelectedShareEvidence_strict {lc : LaneCrypto} {b : PersistedBlock}
    {network : Option String} (h : verifySelectedShareEvidence lc b .strict network = .ok ()) :
    b.selectedShareEvidence.length = b.selectedShareHashes.length := by
  rw [verifySelectedShareEvidence] at h
  split_ifs at h with hempty
  · simp at h
  · simp only [bind_eq_ok, ensure_eq_ok] at h
    obtain ⟨_, hlen, _⟩ := h
    exact hlen

end Core
