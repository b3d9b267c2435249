import Boole.Core.Replay

/-!
# Core/Bounties — announced bounties, and the proofs that wait for a block

`boole-core`'s `bounty_registry.rs`, `bounty_side_pool.rs` and the proposer's half of
`bounty_promotion.rs`.

    open ──accepted proof──▸ solved          an accepted proof waits in its family's bucket
      └──────▸ expired, withdrawn            until a block promotes it

**The terms of a bounty never change, and a solved one takes no further proof** (`Extends`).
-/

open Std Library Library.Json
open Native (Hex32)

namespace Core

variable {r r' : BountyRegistry} {bounty : Bounty}

/-! ## Bounties -/

structure BountyVerifier where
  kind : String
  metadata : List (String × Value)

structure Bounty where
  id : String
  domain : String
  problemHash : String
  verifier : BountyVerifier
  reward : String
  deadline : UInt64
  status : String
  createdAt : UInt64
  updatedAt : UInt64

structure CreateBountyInput where
  id : String
  domain : String
  problemHash : String
  verifierKind : String
  verifierMetadata : List (String × Value)
  reward : ℕ
  deadline : UInt64
  ts : UInt64

structure SubmitProofInput where
  bountyId : String
  proofHash : String
  prover : String
  accepted : Bool
  ts : UInt64

structure SubmitProofResult where
  accepted : Bool
  duplicate : Bool
  bounty : Bounty

/-- `Bounty` as `serde` writes it, with the keys in the order of the map. -/
def Bounty.toJson (bounty : Bounty) : Value :=
  .object [("createdAt", jsonNat bounty.createdAt.toNat), ("deadline", jsonNat bounty.deadline.toNat),
    ("domain", .string bounty.domain), ("id", .string bounty.id),
    ("problemHash", .string bounty.problemHash), ("reward", .string bounty.reward),
    ("status", .string bounty.status), ("updatedAt", jsonNat bounty.updatedAt.toNat),
    ("verifier", .object [("kind", .string bounty.verifier.kind),
      ("metadata", .object bounty.verifier.metadata)])]

def asObject : Value → Option (List (String × Value))
  | .object fields => some fields
  | _ => none

/-- The number in a field. -/
def getU64 (v : Value) (key : String) : Option UInt64 :=
  ((v.get key).bind Value.asU64).map UInt64.ofNat

/-- `Bounty` as `serde` reads it. -/
def Bounty.ofJson (v : Value) : Option Bounty := do
  let verifier ← v.get "verifier"
  pure {
    id := ← v.getStr "id"
    domain := ← v.getStr "domain"
    problemHash := ← v.getStr "problemHash"
    verifier := ⟨← verifier.getStr "kind", ← (verifier.get "metadata").bind asObject⟩
    reward := ← v.getStr "reward"
    deadline := ← getU64 v "deadline"
    status := ← v.getStr "status"
    createdAt := ← getU64 v "createdAt"
    updatedAt := ← getU64 v "updatedAt" }

/-- **A bounty reads back.** -/
theorem Bounty.ofJson_toJson (bounty : Bounty) : Bounty.ofJson bounty.toJson = some bounty := by
  have hread (n : UInt64) : (jsonNat n.toNat).asU64 = some n.toNat :=
    Value.asU64_jsonNat n.toNat_lt
  simp [Bounty.ofJson, Bounty.toJson, getU64, Value.getStr, Value.get, Value.asStr, asObject, hread]

/-- The reward, as far as it is one. -/
def Bounty.rewardAmount (bounty : Bounty) : ℕ := (parseUint 128 bounty.reward).getD 0

/-! ## Checks -/

def isHex32 (value : String) : Bool := (Hex32.fromHex value).isOk

/-- Printable ASCII without blanks. -/
def isValidId (id : String) : Bool :=
  id ≠ "" && id.utf8ByteSize ≤ 128 && id.toList.all fun c => 0x21 ≤ c.toNat && c.toNat ≤ 0x7e

def maxDomainLen : ℕ := 64

/-- Lower-case letters, digits and interior hyphens, in segments between dots. -/
def isValidDomain (domain : String) : Bool :=
  domain ≠ "" && domain.utf8ByteSize ≤ maxDomainLen &&
    (domain.toList.splitOn '.').all fun segment =>
      segment ≠ [] && segment.head? ≠ some '-' && segment.getLast? ≠ some '-' &&
        segment.all fun c => ('a' ≤ c && c ≤ 'z') || c.isDigit || c = '-'

def maxMetadataStringLen : ℕ := 16 * 1024

def validateMetadataEntry (entry : String × Value) : Result Unit := do
  let key := entry.1
  ensure (["statement", "verifierHash", "profile", "template"].contains key)
    s!"bounty verifier.metadata key {key} is not accepted; allowed keys: statement, verifierHash, profile, template"
  let text ← okOr entry.2.asStr s!"bounty verifier.metadata.{key} must be a string"
  ensure (text.utf8ByteSize ≤ maxMetadataStringLen)
    s!"bounty verifier.metadata.{key} exceeds {maxMetadataStringLen} bytes"

def validateVerifierMetadata (metadata : List (String × Value)) : Result Unit :=
  forM metadata validateMetadataEntry

def validateCreateInput (input : CreateBountyInput) : Result Unit := do
  ensure (isValidId input.id) "bounty id must be 1-128 printable ASCII chars without whitespace"
  ensure (isValidDomain input.domain)
    s!"bounty domain must be 1-{maxDomainLen} chars of dot-separated lowercase tokens ([a-z0-9] with interior hyphens); got {input.domain}"
  ensure (isHex32 input.problemHash) "bounty problemHash must be 32-byte lowercase hex"
  ensure (input.verifierKind ≠ "") "bounty verifier.kind must be a non-empty string"
  validateVerifierMetadata input.verifierMetadata
  ensure (input.reward ≠ 0) "bounty reward must be a positive bigint"
  ensure (input.deadline ≠ 0) "bounty deadline must be a positive integer (unix ms)"

/-- The three terminal statuses are not left. -/
def validateStatusTransition (current next : String) : Result Unit := do
  ensure (["open", "solved", "expired", "withdrawn"].contains next) s!"invalid status: {next}"
  ensure (!(["solved", "expired", "withdrawn"].contains current))
    s!"cannot transition from terminal status {current} to {next}"

/-! ## The registry -/

/-- A registry files a bounty under its own name, and remembers the verdict on every proof. -/
structure BountyRegistry where
  bounties : ExtTreeMap String Bounty
  keyed : ∀ (id : String) (bounty : Bounty), bounties[id]? = some bounty → bounty.id = id
  proofs : ExtTreeMap String (ExtTreeMap String Bool)

variable (self : BountyRegistry)

variable (input : SubmitProofInput)

namespace BountyRegistry

def new : BountyRegistry where
  bounties := ∅
  keyed := by simp
  proofs := ∅

def get (id : String) : Option Bounty := self.bounties[id]?

/-- File a bounty, over the one of its name. -/
def put (bounty : Bounty) : BountyRegistry where
  bounties := self.bounties.insert bounty.id bounty
  keyed := forall_insert self.keyed rfl
  proofs := self.proofs

def hasProof (bountyId proofHash : String) : Option Bool :=
  self.proofs[bountyId]?.bind fun seen => seen[proofHash]?

def recordProof (bountyId proofHash : String) (accepted : Bool) : BountyRegistry :=
  { self with
    proofs := self.proofs.insert bountyId
      ((self.proofs[bountyId]?.getD ∅).insert proofHash accepted) }

/-- The bounty of an announcement. -/
def bountyFromInput (input : CreateBountyInput) : Bounty where
  id := input.id
  domain := input.domain
  problemHash := input.problemHash
  verifier := ⟨input.verifierKind, input.verifierMetadata⟩
  reward := toString input.reward
  deadline := input.deadline
  status := "open"
  createdAt := input.ts
  updatedAt := input.ts

def previewCreate (input : CreateBountyInput) : Result Bounty := do
  validateCreateInput input
  ensure (self.get input.id).isNone s!"bounty id already exists: {input.id}"
  pure (bountyFromInput input)

def create (input : CreateBountyInput) : Result (BountyRegistry × Bounty) := do
  let bounty ← self.previewCreate input
  pure (self.put bounty, bounty)

/-- A bounty of the catalog, or of a row of the ledger. -/
def applyCreate (bounty : Bounty) : Result BountyRegistry := do
  ensure (self.get bounty.id).isNone s!"duplicates id {bounty.id}"
  pure (self.put bounty)

def previewUpdateStatus (id status : String) (ts : UInt64) : Result Bounty := do
  let existing ← okOr (self.get id) s!"unknown bounty id: {id}"
  validateStatusTransition existing.status status
  pure { existing with status, updatedAt := ts }

def updateStatus (id status : String) (ts : UInt64) : Result (BountyRegistry × Bounty) := do
  let updated ← self.previewUpdateStatus id status ts
  pure (self.put updated, updated)

/-- The bounty after a proof for it was judged. -/
def judged (bounty : Bounty) (input : SubmitProofInput) : Bounty :=
  if input.accepted then { bounty with status := "solved", updatedAt := input.ts } else bounty

/-- A proof that was judged before keeps its verdict; another is taken while the bounty is open. -/
def previewSubmitProof : Result SubmitProofResult := do
  ensure (isHex32 input.proofHash) "submitProof proofHash must be 32-byte lowercase hex"
  ensure (isHex32 input.prover) "submitProof prover must be 32-byte lowercase hex"
  let bounty ← okOr (self.get input.bountyId) s!"unknown bounty id: {input.bountyId}"
  match self.hasProof input.bountyId input.proofHash with
  | some accepted => pure ⟨accepted, true, bounty⟩
  | none => do
    ensure (bounty.status = "open")
      s!"cannot submit proof to terminal bounty {input.bountyId}: {bounty.status}"
    pure ⟨input.accepted, false, judged bounty input⟩

/-- The registry after a proof was judged for the first time. -/
def settleProof (result : SubmitProofResult) : BountyRegistry :=
  let recorded := self.recordProof input.bountyId input.proofHash input.accepted
  if result.accepted then recorded.put result.bounty else recorded

def submitProof : Result (BountyRegistry × SubmitProofResult) := do
  let result ← self.previewSubmitProof input
  pure (if result.duplicate then self else self.settleProof input result, result)

/-! ### What the operations keep -/

theorem get_put (bounty : Bounty) (id : String) :
    (self.put bounty).get id = if bounty.id = id then some bounty else self.get id :=
  getElem?_insert _ _ _ _

@[simp] theorem get_recordProof (bountyId proofHash id : String) (accepted : Bool) :
    (self.recordProof bountyId proofHash accepted).get id = self.get id := rfl

/-- **Bounties are neither dropped nor renegotiated,** and a solved one stays solved. -/
def Extends (r r' : BountyRegistry) : Prop :=
  ∀ id bounty, r.get id = some bounty → ∃ bounty', r'.get id = some bounty' ∧
    bounty'.domain = bounty.domain ∧ bounty'.reward = bounty.reward ∧
    (bounty.status = "solved" → bounty'.status = "solved")

theorem Extends.refl (r : BountyRegistry) : r.Extends r := fun _ bounty h =>
  ⟨bounty, h, rfl, rfl, id⟩

theorem Extends.trans {r'' : BountyRegistry} (h : r.Extends r') (h' : r'.Extends r'') :
    r.Extends r'' := by
  intro id bounty hget
  obtain ⟨b', hget', hdomain, hreward, hsolved⟩ := h id bounty hget
  obtain ⟨b'', hget'', hdomain', hreward', hsolved'⟩ := h' id b' hget'
  exact ⟨b'', hget'', hdomain'.trans hdomain, hreward'.trans hreward, hsolved' ∘ hsolved⟩

/-- Filing a new bounty. -/
theorem extends_put_new (h : r.get bounty.id = none) :
    r.Extends (r.put bounty) := by
  intro id b hget
  refine ⟨b, ?_, rfl, rfl, fun hs => hs⟩
  rw [get_put, if_neg]
  · exact hget
  · rintro rfl
    simp [h] at hget

/-- Filing a bounty again, with another status. -/
theorem extends_put {old : Bounty} (hold : r.get bounty.id = some old)
    (hdomain : bounty.domain = old.domain) (hreward : bounty.reward = old.reward)
    (hsolved : old.status = "solved" → bounty.status = "solved") : r.Extends (r.put bounty) := by
  intro id b hget
  rw [get_put]
  split_ifs with hid
  · subst hid
    obtain rfl := Option.mem_unique hold hget
    exact ⟨bounty, rfl, hdomain, hreward, hsolved⟩
  · exact ⟨b, hget, rfl, rfl, fun hs => hs⟩

theorem previewCreate_eq_ok {input : CreateBountyInput} :
    r.previewCreate input = .ok bounty ↔ validateCreateInput input = .ok () ∧
      r.get input.id = none ∧ bounty = bountyFromInput input := by
  simp only [previewCreate, bind_eq_ok, ensure_eq_ok, pure_eq_ok, Option.isNone_iff_eq_none]
  tauto

end BountyRegistry

/-! ## The side pool -/

/-- A proof that was accepted, with the reward its bounty announced. -/
structure BountyShare where
  bountyId : String
  proofHash : String
  prover : String
  familyId : String
  ts : ℕ
  reward : ℕ
  fits : reward < 2 ^ 128

namespace BountyShare

/-- What replay remembers a promoted share by. -/
def identity (self : BountyShare) : BountyProof := (self.familyId, self.bountyId, self.proofHash)

/-- The row of a block that promotes the share. -/
def promote (self : BountyShare) : PromotedBountyShare where
  familyId := self.familyId
  bountyId := self.bountyId
  proofHash := self.proofHash
  prover := self.prover
  reward := toString self.reward

end BountyShare

/-- A bucket holds the shares of its family only. -/
structure BountySidePool where
  byFamily : ExtTreeMap String (List BountyShare)
  filed : ∀ (familyId : String) (bucket : List BountyShare), byFamily[familyId]? = some bucket →
    ∀ share ∈ bucket, share.familyId = familyId

variable (self : BountySidePool)

namespace BountySidePool

def new : BountySidePool where
  byFamily := ∅
  filed := by simp

def sharesForFamily (familyId : String) : List BountyShare :=
  self.byFamily[familyId]?.getD []

theorem familyId_of_mem {self : BountySidePool} {familyId : String} {share : BountyShare}
    (h : share ∈ self.sharesForFamily familyId) : share.familyId = familyId := by
  rw [sharesForFamily] at h
  cases hbucket : self.byFamily[familyId]? with
  | none => simp [hbucket] at h
  | some bucket => exact self.filed _ _ hbucket share (by simpa [hbucket] using h)

def insert (share : BountyShare) : BountySidePool where
  byFamily := self.byFamily.insert share.familyId (self.sharesForFamily share.familyId ++ [share])
  filed := forall_insert self.filed <| by
    intro s hs
    rcases List.mem_append.mp hs with hs | hs
    · exact familyId_of_mem hs
    · rw [List.mem_singleton.mp hs]

/-- What a bucket keeps when a share of its family is promoted. -/
def kept (bucket : List BountyShare) (entry : PromotedBountyShare) : List BountyShare :=
  bucket.filter fun share => ¬(share.bountyId = entry.bountyId ∧ share.proofHash = entry.proofHash)

theorem kept_subset (bucket : List BountyShare) (entry : PromotedBountyShare) :
    kept bucket entry ⊆ bucket := List.filter_subset_self _

/-- Replace a bucket by a part of it; an empty one is dropped. -/
def shrink (familyId : String) (bucket : List BountyShare)
    (h : bucket ⊆ self.sharesForFamily familyId) : BountySidePool where
  byFamily := if bucket = [] then self.byFamily.erase familyId
    else self.byFamily.insert familyId bucket
  filed := by
    split_ifs
    · intro id b hb
      rw [getElem?_erase] at hb
      split_ifs at hb
      exact self.filed id b hb
    · exact forall_insert self.filed fun s hs => familyId_of_mem (h hs)

/-- Drop the share that a row promotes, and count. -/
def removeEntry (self : BountySidePool × ℕ) (entry : PromotedBountyShare) : BountySidePool × ℕ :=
  let bucket := self.1.sharesForFamily entry.familyId
  (self.1.shrink entry.familyId (kept bucket entry) (kept_subset bucket entry),
    self.2 + (bucket.length - (kept bucket entry).length))

/-- The pool without the promoted shares, and how many were dropped. -/
def removePromoted (promoted : List PromotedBountyShare) :
    BountySidePool × ℕ := promoted.foldl removeEntry (self, 0)

end BountySidePool

end Core
