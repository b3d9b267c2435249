import Mathlib.Data.List.Sort
import Boole.Library.Bytes
import Boole.Native.Network

/-!
# Native/Chain — blocks, replay and the recent undo window

`boole-core`'s `native_chain.rs`.  A block is accepted on a chain when its header extends the head,
its hash is below the retargeted difficulty, its producer signed it and its transfers settle
(`prepare`); committing it also keeps the inverse of its transition, so that a recent prefix can be
had without a replay (`forkAt`).

The window of inverses is a cache: **equality of chains ignores it** (`NativeChain.Same`).
-/

open Library Library.Json

namespace Native

def blockSchema : String := "boole.native.block.v1"

def blockAuthSchema : String := "boole.native.block.authorization.v1"

def nativeRecentForkBlocks : ℕ := 256

/-! ## Transfers on the wire -/

structure NativeTransfer where
  schema : String
  payload : NativeTransferPayload
  pk : String
  signature : String
  networkId : String
deriving DecidableEq

variable (self : NativeTransfer)

namespace NativeTransfer

def toJson : Value :=
  .object [("schema", .string self.schema), ("payload", self.payload.toJson),
    ("pk", .string self.pk), ("signature", .string self.signature),
    ("network_id", .string self.networkId)]

def envelope : Except String SignedEnvelope := do
  ensure (self.schema = signedEnvelopeSchema) "invalid envelope schema"
  pure {
    schema := signedEnvelopeSchema
    payload := self.payload.toValue
    pk := self.pk
    signature := self.signature
    networkId := some self.networkId }

/-- The rules a transfer has to meet on its own, funded or not. -/
def validatedFields (cr : Crypto) (self : NativeTransfer) :
    Except String NativeTransferFields := do
  ensure (self.toJson.toVec.length ≤ nativeTestnet.maxTransferBytes) "transfer too large"
  let envelope ← self.envelope
  mapErr NativeLedgerError.message
    (validateNativeTransfer cr envelope nativeTestnet.networkId nativeTestnet.minimumFee)

/-- The bytes the id of a transfer is taken of. -/
def idInput : List UInt8 :=
  asBytes "boole.native.transfer.id.v1\x00" ++ canonicalize self.toJson.sortKeys

def id (cr : Crypto) (self : NativeTransfer) : Hex32 := cr.blake3 self.idInput

end NativeTransfer

/-! ## Blocks -/

structure NativeBlockHeader where
  schema : String
  networkId : String
  genesisHash : String
  height : ℕ
  previousHash : String
  producerPk : String
  rewardPk : String
  timestampMs : ℕ
  target : String
  transfersRoot : String
deriving DecidableEq

def NativeBlockHeader.toJson (self : NativeBlockHeader) : Value :=
  .object [("schema", .string self.schema), ("networkId", .string self.networkId),
    ("genesisHash", .string self.genesisHash), ("height", jsonNat self.height),
    ("previousHash", .string self.previousHash), ("producerPk", .string self.producerPk),
    ("rewardPk", .string self.rewardPk), ("timestampMs", jsonNat self.timestampMs),
    ("target", .string self.target), ("transfersRoot", .string self.transfersRoot)]

/-- A block; its nonce is decimal text. -/
structure NativeBlock where
  header : NativeBlockHeader
  nonce : String
  transfers : List NativeTransfer
  producerSignature : String
deriving DecidableEq

/-- The bytes a block hash is taken of: the header, then the nonce. -/
def blockInput (header : NativeBlockHeader) (nonce : ℕ) : List UInt8 :=
  (asBytes "boole.native.block.v1\x00" ++ canonicalize header.toJson.sortKeys) ++ leBytes 8 nonce

def hashNonce (cr : Crypto) (header : NativeBlockHeader) (nonce : ℕ) : Hex32 :=
  cr.blake3 (blockInput header nonce)

def transfersJson (transfers : List NativeTransfer) : Value :=
  .array (transfers.map NativeTransfer.toJson)

/-- The bytes the commitment to the transfers is taken of. -/
def transfersInput (transfers : List NativeTransfer) : List UInt8 :=
  asBytes "boole.native.transfers.v1\x00" ++ canonicalize (transfersJson transfers).sortKeys

def transfersRoot (cr : Crypto) (transfers : List NativeTransfer) : String :=
  Hex32.toHex (cr.blake3 (transfersInput transfers))

/-- Read decimal digits of a `u64` after the ones read so far. -/
def parseDigits (acc : ℕ) : List Char → Except String ℕ
  | [] => .ok acc
  | c :: cs =>
    if c.isDigit then
      if 10 * acc + (c.toNat - '0'.toNat) < 2 ^ 64 then
        parseDigits (10 * acc + (c.toNat - '0'.toNat)) cs
      else .error "number too large to fit in target type"
    else .error "invalid digit found in string"

/-- `str::parse::<u64>`, which takes a leading plus sign. -/
def parseU64 (s : String) : Except String ℕ :=
  match s.toList with
  | [] => .error "cannot parse integer from empty string"
  | ['+'] => .error "invalid digit found in string"
  | '+' :: cs => parseDigits 0 cs
  | cs => parseDigits 0 cs

namespace NativeBlock

def toJson (self : NativeBlock) : Value :=
  .object [("header", self.header.toJson), ("nonce", .string self.nonce),
    ("transfers", transfersJson self.transfers),
    ("producerSignature", .string self.producerSignature)]

variable (cr : Crypto)

def hash (self : NativeBlock) : Except String Hex32 := do
  let nonce ← parseU64 self.nonce
  ensure (toString nonce = self.nonce) "noncanonical block nonce"
  pure (hashNonce cr self.header nonce)

def authorizationPayload (self : NativeBlock) : Except String Value := do
  let hash ← self.hash cr
  pure (Value.object [("schema", .string blockAuthSchema),
    ("blockHash", .string hash.toHex)]).sortKeys

def authorize (self : NativeBlock) (envelope : SignedEnvelope) : Except String NativeBlock := do
  ensure (envelope.schema = signedEnvelopeSchema ∧
    envelope.networkId = some self.header.networkId ∧ envelope.pk = self.header.producerPk)
    "producer authorization does not match the block"
  let payload ← self.authorizationPayload cr
  ensure (envelope.payload = payload) "producer authorization does not match the block"
  let verified ← envelope.verifyStrict cr
  ensure (verified = true) "invalid producer signature"
  pure { self with producerSignature := envelope.signature }

def verifyAuthorization (self : NativeBlock) : Except String Unit := do
  let payload ← self.authorizationPayload cr
  let _ ← self.authorize cr {
    schema := signedEnvelopeSchema
    payload := payload
    pk := self.header.producerPk
    signature := self.producerSignature
    networkId := some self.header.networkId }

end NativeBlock

structure NativeBlockTemplate where
  header : NativeBlockHeader
  transfers : List NativeTransfer
deriving DecidableEq

/-! ## The chain -/

structure VerifiedBlockUndo where
  postHash : Hex32
  previousWork : ℕ
  ledger : NativeLedgerUndo
deriving DecidableEq

/-- A chain; the window of inverses has the oldest one first. -/
structure NativeChain where
  network : NativeNetwork
  blocks : List NativeBlock
  ledger : NativeLedger
  cumulativeWork : ℕ
  recentUndo : List VerifiedBlockUndo
deriving DecidableEq

/-- A verified successor, ready for publication. -/
structure PreparedNativeBlock where
  block : NativeBlock
  ledger : NativeLedger
  cumulativeWork : ℕ
  undo : NativeLedgerUndo
deriving DecidableEq

/-- `Hex32::from_hex(..)?`. -/
def parseHex32 (value : String) : Except String Hex32 :=
  mapErr Hex32Error.message (Hex32.fromHex value)

variable (self : NativeChain)

namespace NativeChain

/-- `PartialEq`: the undo window is not part of a chain's identity. -/
structure Same (c c' : NativeChain) : Prop where
  network : c.network = c'.network
  blocks : c.blocks = c'.blocks
  ledger : c.ledger = c'.ledger
  cumulativeWork : c.cumulativeWork = c'.cumulativeWork

def new : Except String NativeChain := do
  let ledger ← mapErr NativeLedgerError.message nativeTestnet.ledger
  pure { network := nativeTestnet, blocks := [], ledger, cumulativeWork := 0, recentUndo := [] }

/-- The source's `expect` is never hit: the blocks of a chain have been hashed before. -/
def headHash (cr : Crypto) (self : NativeChain) : Hex32 :=
  match self.blocks.getLast? with
  | some block => (block.hash cr).toOption.getD 0
  | none => self.network.genesisHash cr

def outranks (cr : Crypto) (self other : NativeChain) : Bool :=
  other.cumulativeWork < self.cumulativeWork ∨
    (self.cumulativeWork = other.cumulativeWork ∧ self.headHash cr < other.headHash cr)

def nextTarget : Except String String :=
  match self.blocks.getLast? with
  | none => pure self.network.initialTarget
  | some last => do
    let policy := self.network.retarget
    let completed := self.ledger.height
    if completed < policy.retargetEveryBlocks ∨ ¬policy.retargetEveryBlocks ∣ completed then
      pure last.header.target
    else do
      let first ← okOr self.blocks[self.blocks.length - policy.retargetEveryBlocks]?
        "index out of bounds"
      let current ← parseHex32 last.header.target
      let actual := max (last.header.timestampMs - first.header.timestampMs) 1
      let expected ← okOr
        (checkedMul 64 policy.targetBlockMs (policy.retargetEveryBlocks - 1))
        "retarget duration overflow"
      let target ← retargetTBlock current.toNat actual expected policy
      let limit ← parseHex32 self.network.initialTarget
      pure (String.ofList (Library.toHex 64 (min target limit.toNat)))

/-- One more than the median of the last timestamps. -/
def minimumTimestampMs : Except String ℕ := do
  let start := self.blocks.length - self.network.medianTimePastWindow
  let timestamps :=
    ((self.blocks.drop start).map fun b => b.header.timestampMs).insertionSort (· ≤ ·)
  let median := timestamps.getD (timestamps.length / 2) 0
  okOr (checkedAdd 64 median 1) "timestamp overflow"

/-- One transfer of a block, as the ledger takes it. -/
def transferEnvelope (transfer : NativeTransfer) : Except String SignedEnvelope := do
  ensure (transfer.toJson.toVec.length ≤ self.network.maxTransferBytes) "transfer too large"
  transfer.envelope

def transferEnvelopes (transfers : List NativeTransfer) : Except String (List SignedEnvelope) := do
  ensure (transfers.length ≤ self.network.maxTransfersPerBlock) "too many transfers"
  transfers.mapM self.transferEnvelope

def template (cr : Crypto) (self : NativeChain) (producerPk rewardPk : String)
    (timestampMs : ℕ) (transfers : List NativeTransfer) : Except String NativeBlockTemplate := do
  let minimum ← self.minimumTimestampMs
  ensure (minimum ≤ timestampMs) "timestamp does not exceed median-time-past"
  let _ ← parseHex32 producerPk
  let _ ← parseHex32 rewardPk
  let height ← okOr (checkedAdd 64 self.ledger.height 1) "height overflow"
  let envelopes ← self.transferEnvelopes transfers
  let _ ← mapErr NativeLedgerError.message
    (self.ledger.applyBlock cr height rewardPk envelopes)
  let target ← self.nextTarget
  pure {
    header := {
      schema := blockSchema
      networkId := self.network.networkId
      genesisHash := (self.network.genesisHash cr).toHex
      height := height
      previousHash := (self.headHash cr).toHex
      producerPk := producerPk
      rewardPk := rewardPk
      timestampMs := timestampMs
      target := target
      transfersRoot := transfersRoot cr transfers }
    transfers := transfers }

/-- Validate a block on this chain. -/
def prepare (cr : Crypto) (self : NativeChain) (block : NativeBlock) :
    Except String PreparedNativeBlock := do
  ensure (block.toJson.toVec.length ≤ self.network.maxBlockBytes) "block too large"
  let header := block.header
  ensure (header.schema = blockSchema ∧ header.networkId = self.network.networkId ∧
    header.genesisHash = (self.network.genesisHash cr).toHex)
    "foreign native genesis or block schema"
  let height ← okOr (checkedAdd 64 self.ledger.height 1) "height overflow"
  ensure (header.height = height ∧ header.previousHash = (self.headHash cr).toHex)
    "native block does not extend this head"
  let _ ← parseHex32 header.producerPk
  let _ ← parseHex32 header.rewardPk
  let minimum ← self.minimumTimestampMs
  ensure (minimum ≤ header.timestampMs) "timestamp does not exceed median-time-past"
  let expectedTarget ← self.nextTarget
  ensure (header.target = expectedTarget) "unexpected native block target"
  let target ← parseHex32 header.target
  let hash ← block.hash cr
  ensure (hash < target) "insufficient native block work"
  ensure (header.transfersRoot = transfersRoot cr block.transfers) "transfer commitment mismatch"
  block.verifyAuthorization cr
  let envelopes ← self.transferEnvelopes block.transfers
  let work ← difficultyWeight target.toNat
  let (ledger, undo) ← mapErr NativeLedgerError.message
    (self.ledger.prepareBlock cr header.height header.rewardPk envelopes)
  pure { block, ledger, cumulativeWork := self.cumulativeWork + work, undo }

/-- Publish a prepared block; the window forgets its oldest inverse when it is full. -/
def commit (cr : Crypto) (self : NativeChain) (prepared : PreparedNativeBlock) :
    Except String NativeChain := do
  ensure (prepared.block.header.previousHash = (self.headHash cr).toHex)
    "prepared native block is stale"
  let postHash ← prepared.block.hash cr
  let recentUndo := self.recentUndo ++
    [{ postHash, previousWork := self.cumulativeWork, ledger := prepared.undo }]
  pure { self with
    recentUndo :=
      if nativeRecentForkBlocks < recentUndo.length then recentUndo.tail else recentUndo
    ledger := prepared.ledger
    cumulativeWork := prepared.cumulativeWork
    blocks := self.blocks ++ [prepared.block] }

def append (cr : Crypto) (self : NativeChain) (block : NativeBlock) : Except String NativeChain := do
  let prepared ← self.prepare cr block
  self.commit cr prepared

def replay (cr : Crypto) (blocks : List NativeBlock) : Except String NativeChain := do
  let chain ← new
  blocks.foldlM (append cr) chain

/-- A difference of `u64`: the source's debug build stops where this one is cut off. -/
def earliestRecentForkHeight : ℕ := self.ledger.height - self.recentUndo.length

/-- Take back the last block. -/
def undoHead (cr : Crypto) (self : NativeChain) : Except String NativeChain := do
  let undo ← okOr self.recentUndo.getLast? "bounded undo depth"
  ensure (undo.postHash = self.headHash cr) "native undo head mismatch"
  let ledger ← mapErr NativeLedgerError.message (self.ledger.undoBlock undo.ledger)
  pure { self with
    recentUndo := self.recentUndo.dropLast
    ledger := ledger
    cumulativeWork := undo.previousWork
    blocks := self.blocks.dropLast }

def undoHeads (cr : Crypto) : ℕ → NativeChain → Except String NativeChain
  | 0, self => pure self
  | depth + 1, self => do undoHeads cr depth (← self.undoHead cr)

def forkAt (cr : Crypto) (self : NativeChain) (height : ℕ) : Except String NativeChain := do
  let depth ← okOr (checkedSub self.blocks.length height) "native fork height exceeds head"
  ensure (depth ≤ self.recentUndo.length) "native fork requires full replay"
  undoHeads cr depth self

end NativeChain

end Native
