import Boole.Library.Numeral
import Boole.Library.Reader
import Boole.Native.Envelope

/-!
# Core/Block — persisted blocks, their shape and their hash

`boole-core`'s `block.rs` and `hash.rs`.  A block of the base lane lists the shares it selected, with
evidence for each, and the bounty shares it promoted.  Its hash covers only part of it:

    hashed      height, prevC, share hashes and owners, reward keys, promoted shares, ts, tBlock, epoch
    not hashed  evidence, minShareScore and its multiplier, kmax, tShare, weight, counters

**Two blocks with the same hashed bytes agree on the hashed fields** (`Committed.of_input`).
-/

open Library Library.Json
open Native (Hex32 Crypto Hex32Error asBytes)

namespace Core

/-- `anyhow::Result` -/
abbrev Result := Except String

/-! ## Numbers and digests in text -/

def parseHex32 (value : String) : Result Hex32 := mapErr Hex32Error.message (Hex32.fromHex value)

/-- A text without the mark of a hexadecimal number. -/
def stripMark : List Char → List Char
  | '0' :: 'x' :: cs => cs
  | '0' :: 'X' :: cs => cs
  | cs => cs

def parseBiguintHex (value : String) : Result ℕ :=
  okOr (parseBig 16 (stripMark value.toList)) "invalid hex bigint"

/-- `str::parse::<BigUint>` -/
def parseBiguint (value : String) : Result ℕ :=
  okOr (parseBig 10 value.toList)
    (if value = "" then "cannot parse integer from empty string" else "invalid digit found in string")

/-- `str::parse::<u128>` -/
def parseU128 (value : String) : Result ℕ :=
  okOr (parseUint 128 value) "invalid digit found in string"

/-! ## Protocol hashes -/

variable (cr : Crypto)

def hProtocol (domain : String) (parts : List (List UInt8)) : Hex32 :=
  cr.blake3 (asBytes domain ++ parts.flatten)

def targetSeedJIndexBound : ℕ := 256

def ticketHash (c pk n : Hex32) : Hex32 :=
  hProtocol cr "ticket" [wordBytes c, wordBytes pk, wordBytes n]

def targetSeed (c pk n : Hex32) (jIndex : ℕ) : Hex32 :=
  hProtocol cr "target" [wordBytes c, wordBytes pk, wordBytes n, beBytes 4 jIndex]

/-- The index below the bound whose seed is the claimed one. -/
def findTargetSeedJIndex (c pk n : Hex32) (seedHex : String) : Option ℕ :=
  match Hex32.fromHex seedHex with
  | .error _ => none
  | .ok claimed => (List.range targetSeedJIndexBound).find? fun j => targetSeed cr c pk n j = claimed

def shareHash (c pk n j canonHash : Hex32) : Hex32 :=
  hProtocol cr "share" [wordBytes c, wordBytes pk, wordBytes n, wordBytes j, wordBytes canonHash]

def submissionPowHash (c pk nonceS canonHash : Hex32) : Hex32 :=
  hProtocol cr "submit" [wordBytes c, wordBytes pk, wordBytes nonceS, wordBytes canonHash]

def shareScore (shareHash : Hex32) : ℕ := 2 ^ 256 / (shareHash.toNat + 1)

def difficultyWeight (t : ℕ) : Result ℕ := do
  ensure (t ≠ 0) "T must be > 0"
  pure (2 ^ 256 / t)

def minShareScore (tShare multiplierNanos : ℕ) : Result ℕ := do
  let weight ← difficultyWeight tShare
  pure (weight * multiplierNanos / 1000000000)

/-! ## Blocks -/

/-- The envelope in which a submitter signed their work. -/
structure ShareWorkAuthorization where
  schema : String
  payload : Value
  pk : String
  signature : String
  networkId : Option String
deriving DecidableEq

structure SelectedShareEvidence where
  pk : String
  n : String
  j : String
  c : String
  canonHash : String
  proofPackage : String
  seedHex : String
  signedWork : Option ShareWorkAuthorization
deriving DecidableEq

structure PromotedBountyShare where
  familyId : String
  bountyId : String
  proofHash : String
  prover : String
  reward : String
deriving DecidableEq

structure PersistedBlock where
  height : ℕ
  prevC : String
  c : String
  proposerPk : String
  selectedShareHashes : List String
  selectedSharePks : List String
  selectedShareRewardPks : List String
  proposerRewardPk : String
  selectedShareEvidence : List SelectedShareEvidence
  minShareScore : String
  minShareScoreMultiplierNanos : ℕ
  kmaxApplied : ℕ
  difficultyEpoch : ℕ
  tBlock : String
  tShare : String
  difficultyWeight : String
  droppedBelowMinScore : ℕ
  droppedKernelReject : ℕ
  truncatedByKmax : ℕ
  ts : ℕ
  promotedBountyShares : List PromotedBountyShare
deriving DecidableEq

def PromotedBountyShare.validateShape (share : PromotedBountyShare) : Result Unit := do
  let _ ← parseHex32 share.proofHash
  let _ ← parseHex32 share.prover
  ensure (parseUint 128 share.reward ≠ none)
    s!"promotedBountyShares[{share.bountyId}].reward must be u128 decimal, got {share.reward}"

/-- Every text of a list is a digest. -/
def allHex32 (values : List String) : Result Unit :=
  forM values fun value => do
    let _ ← parseHex32 value
    pure ()

variable (self : PersistedBlock)

namespace PersistedBlock

/-- The weight is not trusted: it is what the target gives. -/
def validateWeight : Result Unit := do
  let tBlock ← parseBiguintHex self.tBlock
  let _ ← parseBiguintHex self.tShare
  let expectedWeight ← Core.difficultyWeight tBlock
  ensure (self.difficultyWeight = toString expectedWeight)
    s!"difficultyWeight mismatch: got {self.difficultyWeight}, expected {expectedWeight}"

def validateShape : Result Unit := do
  allHex32 [self.prevC, self.c, self.proposerPk]
  allHex32 self.selectedShareHashes
  allHex32 self.selectedSharePks
  allHex32 self.selectedShareRewardPks
  allHex32 (if self.proposerRewardPk = "" then [] else [self.proposerRewardPk])
  ensure (self.selectedShareHashes.length = self.selectedSharePks.length)
    s!"selectedSharePks length ({self.selectedSharePks.length}) must equal selectedShareHashes length ({self.selectedShareHashes.length})"
  ensure (self.selectedShareRewardPks = [] ∨
      self.selectedShareRewardPks.length = self.selectedShareHashes.length)
    s!"selectedShareRewardPks length ({self.selectedShareRewardPks.length}) must equal selectedShareHashes length ({self.selectedShareHashes.length})"
  ensure (self.kmaxApplied = self.selectedShareHashes.length)
    "kmaxApplied must equal selectedShareHashes length"
  let _ ← parseBiguint self.minShareScore
  self.validateWeight
  forM self.promotedBountyShares PromotedBountyShare.validateShape

end PersistedBlock

/-- A list of texts as JSON. -/
def jsonStrings (values : List String) : Value := .array (values.map .string)

def PromotedBountyShare.toJson (share : PromotedBountyShare) : Value :=
  .object [("familyId", .string share.familyId), ("bountyId", .string share.bountyId),
    ("proofHash", .string share.proofHash), ("prover", .string share.prover),
    ("reward", .string share.reward)]

namespace PersistedBlock

/-- The fields the hash covers. -/
def committed : Value :=
  .object [("height", jsonNat self.height), ("prevC", .string self.prevC),
    ("selectedShareHashes", jsonStrings self.selectedShareHashes),
    ("selectedSharePks", jsonStrings self.selectedSharePks),
    ("selectedShareRewardPks", jsonStrings self.selectedShareRewardPks),
    ("proposerPk", .string self.proposerPk), ("proposerRewardPk", .string self.proposerRewardPk),
    ("promotedBountyShares", .array (self.promotedBountyShares.map PromotedBountyShare.toJson)),
    ("ts", jsonNat self.ts), ("tBlock", .string self.tBlock),
    ("difficultyEpoch", jsonNat self.difficultyEpoch)]

/-- The bytes that are hashed. -/
def hashInput : List UInt8 :=
  asBytes "block.v3" ++ canonicalize self.committed

end PersistedBlock

def blockHash (block : PersistedBlock) : Hex32 := cr.blake3 block.hashInput

/-! ## What a shape guarantees -/

@[simp] theorem allHex32_eq_ok {values : List String} {u : Unit} :
    allHex32 values = .ok u ↔ ∀ value ∈ values, ∃ h, Hex32.fromHex value = .ok h := by
  simp only [allHex32, parseHex32, forM_eq_ok, bind_eq_ok, mapErr_eq_ok, pure_eq_ok, and_true]

/-- The lists of a well-shaped block are of one length, and its weight is the one of its target. -/
theorem PersistedBlock.validateShape_eq_ok {b : PersistedBlock} (h : b.validateShape = .ok ()) :
    b.selectedShareHashes.length = b.selectedSharePks.length ∧
      (b.selectedShareRewardPks = [] ∨
        b.selectedShareRewardPks.length = b.selectedShareHashes.length) ∧
      b.validateWeight = .ok () := by
  simp only [validateShape, bind_eq_ok, ensure_eq_ok] at h
  obtain ⟨_, _, _, _, _, _, _, _, _, _, _, hpks, _, hreward, _, _, _, _, _, hweight, _⟩ := h
  exact ⟨hpks, hreward, hweight⟩

/-! ## What the hashed bytes determine -/

/-- Two blocks agree on every field the hash covers. -/
structure Committed (b b' : PersistedBlock) : Prop where
  height : b.height = b'.height
  prevC : b.prevC = b'.prevC
  selectedShareHashes : b.selectedShareHashes = b'.selectedShareHashes
  selectedSharePks : b.selectedSharePks = b'.selectedSharePks
  selectedShareRewardPks : b.selectedShareRewardPks = b'.selectedShareRewardPks
  proposerPk : b.proposerPk = b'.proposerPk
  proposerRewardPk : b.proposerRewardPk = b'.proposerRewardPk
  promotedBountyShares : b.promotedBountyShares = b'.promotedBountyShares
  ts : b.ts = b'.ts
  tBlock : b.tBlock = b'.tBlock
  difficultyEpoch : b.difficultyEpoch = b'.difficultyEpoch

theorem sortKeys_jsonStrings (values : List String) :
    (jsonStrings values).sortKeys = jsonStrings values := by
  simp [jsonStrings, Value.sortKeys, sortItems_eq_map]

theorem jsonStrings_inj {xs ys : List String} : jsonStrings xs = jsonStrings ys ↔ xs = ys := by
  simp [jsonStrings, List.map_inj_right]

theorem PromotedBountyShare.sortKeys_inj {s t : PromotedBountyShare}
    (h : s.toJson.sortKeys = t.toJson.sortKeys) : s = t := by
  have hsort (s : PromotedBountyShare) : s.toJson.sortKeys
      = .object [("bountyId", .string s.bountyId), ("familyId", .string s.familyId),
        ("proofHash", .string s.proofHash), ("prover", .string s.prover),
        ("reward", .string s.reward)] := rfl
  cases s
  cases t
  simp_all

theorem PersistedBlock.sortKeys_committed (b : PersistedBlock) : b.committed.sortKeys =
    .object [("difficultyEpoch", jsonNat b.difficultyEpoch), ("height", jsonNat b.height),
      ("prevC", .string b.prevC),
      ("promotedBountyShares",
        .array (b.promotedBountyShares.map fun s => s.toJson.sortKeys)),
      ("proposerPk", .string b.proposerPk), ("proposerRewardPk", .string b.proposerRewardPk),
      ("selectedShareHashes", jsonStrings b.selectedShareHashes),
      ("selectedSharePks", jsonStrings b.selectedSharePks),
      ("selectedShareRewardPks", jsonStrings b.selectedShareRewardPks),
      ("tBlock", .string b.tBlock), ("ts", jsonNat b.ts)] := by
  have hrows : (Value.array (b.promotedBountyShares.map PromotedBountyShare.toJson)).sortKeys
      = .array (b.promotedBountyShares.map fun s => s.toJson.sortKeys) := by
    simp [Value.sortKeys, sortItems_eq_map]
  rw [← hrows, ← sortKeys_jsonStrings b.selectedShareHashes,
    ← sortKeys_jsonStrings b.selectedSharePks, ← sortKeys_jsonStrings b.selectedShareRewardPks]
  rfl

theorem Committed.input {b b' : PersistedBlock} (h : Committed b b') : b.hashInput = b'.hashInput := by
  simp only [PersistedBlock.hashInput, PersistedBlock.committed, h.height, h.prevC,
    h.selectedShareHashes, h.selectedSharePks, h.selectedShareRewardPks, h.proposerPk,
    h.proposerRewardPk, h.promotedBountyShares, h.ts, h.tBlock, h.difficultyEpoch]

/-- **The hashed bytes determine the hashed fields.** -/
theorem Committed.of_input {b b' : PersistedBlock} (h : b.hashInput = b'.hashInput) :
    Committed b b' := by
  have heq := canonicalize_eq_iff.mp (List.append_cancel_left h)
  rw [PersistedBlock.sortKeys_committed, PersistedBlock.sortKeys_committed] at heq
  simp only [Value.object.injEq, List.cons.injEq, Prod.mk.injEq, jsonNat_inj, jsonStrings_inj,
    Value.string.injEq, Value.array.injEq, true_and, and_true] at heq
  obtain ⟨epoch, height, prevC, rows, pk, rewardPk, hashes, pks, rewardPks, tBlock, ts⟩ := heq
  have hrows := List.map_injective_iff.mpr
    (fun _ _ h => PromotedBountyShare.sortKeys_inj h) rows
  exact ⟨height, prevC, hashes, pks, rewardPks, pk, rewardPk, hrows, ts, tBlock, epoch⟩

end Core
