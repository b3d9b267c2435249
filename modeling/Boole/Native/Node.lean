import Boole.Library.LineLog
import Boole.Native.Chain

/-!
# Native/Node — the durable node

`boole-node`'s `native_node.rs`.  A node keeps a verified chain, the index of the transfers it
confirms, and a queue of pending transfers with the reservations they make (`PendingState`); on
disk it keeps a log of blocks and a log of pending transfers.  **The block log is authoritative:**
`open` derives everything else from it and from whatever of the queue still applies.

An operation returns its answer, the node after it and the writes it made, in order.  The directory
of the node is an initialised one that nobody else writes to: its locks, its manifest and the stamps
that detect foreign edits are left out, and so are errors of the file system other than a crash.
-/

open Std Library Library.Json

namespace Native

def maxNativePendingTransfers : ℕ := 512

/-- A byte limit of the node, not of the consensus rules; so are the next two. -/
def maxNativeHistoryBytes : ℕ := 256 * 1024 * 1024

def maxNativePoolBytes : ℕ := 5 * 1024 * 1024

def maxNativeHistoryBlocks : ℕ := 100000

/-- The queue of a reorganisation has room for the old queue and a bounded number of orphans. -/
def maxNativeRecoveryTransfers : ℕ := 2 * maxNativePendingTransfers

def blockTsMaxFutureDriftMs : ℕ := 2 * 60 * 60 * 1000

def checkBlockTsFutureDrift (tsMs nowMs : ℕ) : Except String Unit :=
  let maxAllowed := saturatingAdd 64 nowMs blockTsMaxFutureDriftMs
  ensure (tsMs ≤ maxAllowed)
    ("block ts " ++ toString tsMs ++ " exceeds the future-drift bound: now=" ++ toString nowMs ++
      " maxAllowedMs=" ++ toString maxAllowed ++
      " (driftBoundMs=" ++ toString blockTsMaxFutureDriftMs ++ ")")

/-! ## The disk -/

/-- The two journals; the pool's file appears with its first line. -/
structure Disk where
  blockLog : List UInt8
  pool : Option (List UInt8)
deriving DecidableEq

/-- A durable write: a line appended and synced, or a file replaced by rename. -/
inductive Write
  | appendBlock (line : List Char)
  | appendPool (line : List Char)
  | replaceBlocks (lines : List (List Char))
  | replacePool (lines : List (List Char))
deriving DecidableEq

def Disk.write (self : Disk) : Write → Disk
  | .appendBlock line => { self with blockLog := self.blockLog ++ utf8 (line ++ ['\n']) }
  | .appendPool line => { self with pool := some (self.pool.getD [] ++ utf8 (line ++ ['\n'])) }
  | .replaceBlocks lines => { self with blockLog := utf8 (terminate lines) }
  | .replacePool lines => { self with pool := some (utf8 (terminate lines)) }

/-- `serde_json::from_str` at the types of the journals; `serde_json` is not part of the
repository. -/
structure Codec where
  parseBlock : List Char → Except String NativeBlock
  parseTransfer : List Char → Except String NativeTransfer

/-- Reading back what was written gives the value that was written. -/
structure Codec.Lawful (codec : Codec) : Prop where
  parseBlock_print : ∀ b : NativeBlock, codec.parseBlock b.toJson.print = .ok b
  parseTransfer_print : ∀ t : NativeTransfer, codec.parseTransfer t.toJson.print = .ok t

variable (bytes : List UInt8)

def checkFileBudget (limit : ℕ) : Except String Unit :=
  ensure (bytes.length ≤ limit) "native state file exceeds byte limit"

/-- The text of a log without its torn tail. -/
def readNativeLog (maximum : ℕ) : Except String (List Char) := do
  ensure (bytes.length ≤ maximum) "native log is oversized or changed before read"
  okOr (fromUtf8 (stablePrefix bytes)) "invalid utf-8 sequence"

/-! ## The queue -/

/-- The durable queue at one head: its transfers, their ids, and what they reserve. -/
structure PendingState where
  transfers : List NativeTransfer
  ids : ExtTreeSet Hex32
  view : NativePendingView

/-- The queue with one more transfer and what it reserves. -/
def PendingState.add (cr : Crypto) (self : PendingState) (transfer : NativeTransfer)
    (view : NativePendingView) : PendingState :=
  { transfers := self.transfers ++ [transfer]
    ids := self.ids.insert (transfer.id cr)
    view := view }

/-- Add the transfers of a block to the index. -/
def indexBlock (cr : Crypto) (confirmed : ExtTreeMap Hex32 ℕ) (block : NativeBlock) :
    ExtTreeMap Hex32 ℕ :=
  block.transfers.foldl (fun index t => index.insert (t.id cr) block.header.height) confirmed

def confirmedIndex (cr : Crypto) (chain : NativeChain) : ExtTreeMap Hex32 ℕ :=
  chain.blocks.foldl (indexBlock cr) ∅

def commonPrefixLen (left right : List NativeBlock) : ℕ :=
  ((left.zip right).takeWhile fun p => p.1 = p.2).length

/-- Keep a transfer whose reservation succeeds. -/
def PendingState.offer (cr : Crypto) (self : PendingState) (transfer : NativeTransfer) :
    Except String PendingState := do
  let envelope ← transfer.envelope
  match self.view.push cr envelope with
  | .ok view => pure (self.add cr transfer view)
  | .error _ => pure self

/-- One turn of the loop of `retainPending`. -/
def PendingState.retain (cr : Crypto) (confirmed : ExtTreeMap Hex32 ℕ) (self : PendingState)
    (transfer : NativeTransfer) : Except String PendingState :=
  if transfer.id cr ∈ confirmed ∨ transfer.id cr ∈ self.ids
      ∨ self.transfers.length = maxNativePendingTransfers then pure self
  else self.offer cr transfer

def retainPending (cr : Crypto) (chain : NativeChain) (confirmed : ExtTreeMap Hex32 ℕ)
    (candidates : List NativeTransfer) : Except String PendingState := do
  let view ← mapErr NativeLedgerError.message chain.ledger.pendingView
  candidates.foldlM (PendingState.retain cr confirmed) { transfers := [], ids := ∅, view }

/-! ## The node -/

structure NativeNode where
  chain : NativeChain
  pending : PendingState
  confirmed : ExtTreeMap Hex32 ℕ
  disk : Disk
  poisoned : Bool

/-- An operation that fails may leave the node poisoned, so that it has to be restarted. -/
structure Failure where
  message : String
  poisons : Bool := false
deriving DecidableEq

/-- What an operation did. -/
structure Outcome where
  accepted : Bool
  node : NativeNode
  writes : List Write

/-- A failure before anything is published. -/
def harmless {α : Type} (x : Except String α) : Except Failure α :=
  mapErr (fun m => { message := m }) x

/-- The checks of `append_bounded`; a failed one poisons the node. -/
def appendBounded (line : List Char) (limit : ℕ) : Except Failure Unit :=
  mapErr (fun m => { message := m, poisons := true }) do
    checkFileBudget bytes limit
    ensure (bytes.length + (utf8 line).length < limit) "native state file exceeds byte limit"

def checkCandidateBlock (nowMs : ℕ) (bytes : ℕ) (block : NativeBlock) : Except String ℕ := do
  let bytes ← okOr (checkedAdd 64 bytes (block.toJson.toVec.length + 1))
    "native history size overflow"
  ensure (bytes ≤ maxNativeHistoryBytes) "native history byte limit"
  checkBlockTsFutureDrift block.header.timestampMs nowMs
  pure bytes

def checkCandidateBudget (blocks : List NativeBlock) (nowMs : ℕ) : Except String Unit := do
  ensure (blocks.length ≤ maxNativeHistoryBlocks) "native history block limit"
  let _ ← blocks.foldlM (checkCandidateBlock nowMs) 0

/-- The transfers of orphaned blocks that are neither confirmed nor collected already. -/
def collectOrphans (cr : Crypto) (confirmed : ExtTreeMap Hex32 ℕ) (limit : ℕ) :
    List NativeTransfer → ExtTreeSet Hex32 → List NativeTransfer → List NativeTransfer
  | [], _, recovery => recovery
  | t :: ts, seen, recovery =>
    if recovery.length = limit then recovery
    else if t.id cr ∉ confirmed ∧ t.id cr ∉ seen then
      collectOrphans cr confirmed limit ts (seen.insert (t.id cr)) (recovery ++ [t])
    else collectOrphans cr confirmed limit ts seen recovery

variable (self : NativeNode)

namespace NativeNode

def ensureReady : Except Failure Unit :=
  ensure (self.poisoned = false)
    { message := "native state ownership or durability lost; restart and recover" }

/-- The node after an operation. -/
def after : Except Failure Outcome → NativeNode
  | .ok outcome => outcome.node
  | .error failure => { self with poisoned := self.poisoned || failure.poisons }

/-- A completed operation: its writes are on the disk. -/
def publish (writes : List Write) : Outcome :=
  { accepted := true, node := { self with disk := writes.foldl Disk.write self.disk }, writes }

/-- An operation that changes nothing. -/
def decline : Outcome := { accepted := false, node := self, writes := [] }

/-! ### Transfers -/

/-- Admit a transfer that is not known yet. -/
def admitTransfer (cr : Crypto) (self : NativeNode) (transfer : NativeTransfer) :
    Except Failure Outcome := do
  ensure (self.pending.transfers.length < maxNativePendingTransfers)
    { message := "native mempool is full" }
  let envelope ← harmless transfer.envelope
  let view ← harmless (mapErr NativeLedgerError.message (self.pending.view.push cr envelope))
  let line := transfer.toJson.print
  appendBounded (self.disk.pool.getD []) line maxNativePoolBytes
  pure ({ self with pending := self.pending.add cr transfer view }.publish [.appendPool line])

def submitTransfer (cr : Crypto) (self : NativeNode) (transfer : NativeTransfer) :
    Except Failure Outcome := do
  self.ensureReady
  let _ ← harmless (transfer.validatedFields cr)
  if transfer.id cr ∈ self.confirmed ∨ transfer.id cr ∈ self.pending.ids then pure self.decline
  else self.admitTransfer cr transfer

def template (cr : Crypto) (self : NativeNode) (nowMs : ℕ) (producerPk rewardPk : String)
    (timestampMs : ℕ) : Except Failure NativeBlockTemplate := do
  self.ensureReady
  harmless (checkBlockTsFutureDrift timestampMs nowMs)
  harmless (self.chain.template cr producerPk rewardPk timestampMs self.pending.transfers)

/-! ### Blocks -/

/-- The rows the pool is rewritten with. -/
def poolRows (transfers : List NativeTransfer) : List (List Char) :=
  transfers.map fun t => t.toJson.print

def blockRows (blocks : List NativeBlock) : List (List Char) := blocks.map fun b => b.toJson.print

/-- The pool is rewritten only when the queue changed. -/
def poolWrites (before after : List NativeTransfer) : List Write :=
  if after ≠ before then [.replacePool (poolRows after)] else []

/-- Append a new block; what fails after the append poisons the node. -/
def appendBlock (cr : Crypto) (self : NativeNode) (block : NativeBlock) :
    Except Failure Outcome := do
  ensure (self.chain.blocks.length < maxNativeHistoryBlocks)
    { message := "native history block limit" }
  let prepared ← harmless (self.chain.prepare cr block)
  let line := prepared.block.toJson.print
  appendBounded self.disk.blockLog line maxNativeHistoryBytes
  let chain ← mapErr (fun m => { message := m, poisons := true })
    (self.chain.commit cr prepared)
  let confirmed := indexBlock cr self.confirmed prepared.block
  let retained ← mapErr (fun m => { message := m, poisons := true })
    (retainPending cr chain confirmed self.pending.transfers)
  pure ({ self with chain := chain, confirmed := confirmed, pending := retained }.publish
    (.appendBlock line :: poolWrites self.pending.transfers retained.transfers))

/-- Whether a block is the one this chain has at its height. -/
def knows (block : NativeBlock) : Prop :=
  0 < block.header.height ∧ self.chain.blocks[block.header.height - 1]? = some block

instance (self : NativeNode) (block : NativeBlock) : Decidable (self.knows block) :=
  inferInstanceAs (Decidable (_ ∧ _))

def submitBlock (cr : Crypto) (self : NativeNode) (nowMs : ℕ) (block : NativeBlock) :
    Except Failure Outcome := do
  self.ensureReady
  harmless (checkBlockTsFutureDrift block.header.timestampMs nowMs)
  if self.knows block then pure self.decline else self.appendBlock cr block

/-! ### Reorganisation -/

/-- Replace the chain by one that outranks it.  The first write keeps the old queue and the
orphaned transfers, so that either chain finds its queue again. -/
def publishCandidate (cr : Crypto) (self : NativeNode) (candidate : NativeChain) :
    Except Failure Outcome :=
  if candidate.outranks cr self.chain = false then pure self.decline
  else do
    let common := commonPrefixLen self.chain.blocks candidate.blocks
    let confirmed := (candidate.blocks.drop common).foldl (indexBlock cr)
      (self.confirmed.filter fun _ height => height ≤ common)
    let orphanLimit := maxNativeRecoveryTransfers - self.pending.transfers.length
    let orphans := collectOrphans cr confirmed orphanLimit
      ((self.chain.blocks.drop common).flatMap (·.transfers)) self.pending.ids []
    let recovery := orphans ++ self.pending.transfers
    let retained ← harmless (retainPending cr candidate confirmed recovery)
    pure ({ self with chain := candidate, confirmed := confirmed, pending := retained }.publish
      (poolWrites self.pending.transfers recovery ++
        [Write.replaceBlocks (blockRows candidate.blocks),
          Write.replacePool (poolRows retained.transfers)]))

/-- The candidate chain: grown from our own verified prefix where the undo window reaches it. -/
def candidateChain (cr : Crypto) (self : NativeNode) (blocks : List NativeBlock) :
    Except String NativeChain :=
  let common := commonPrefixLen self.chain.blocks blocks
  if self.chain.earliestRecentForkHeight ≤ common then do
    let candidate ← self.chain.forkAt cr common
    (blocks.drop common).foldlM (NativeChain.append cr) candidate
  else NativeChain.replay cr blocks

def adoptChain (cr : Crypto) (self : NativeNode) (nowMs : ℕ) (blocks : List NativeBlock) :
    Except Failure Outcome := do
  self.ensureReady
  harmless (checkCandidateBudget blocks nowMs)
  let candidate ← harmless (self.candidateChain cr blocks)
  self.publishCandidate cr candidate

def adoptRecentSuffix (cr : Crypto) (self : NativeNode) (nowMs commonHeight : ℕ)
    (suffix : List NativeBlock) : Except Failure Outcome := do
  self.ensureReady
  ensure (suffix ≠ [] ∧ suffix.length ≤ nativeRecentForkBlocks)
    { message := "native recent suffix block limit" }
  ensure ((checkedAdd 64 commonHeight suffix.length).any (· ≤ maxNativeHistoryBlocks))
    { message := "native history block limit" }
  harmless (checkCandidateBudget suffix nowMs)
  let candidate ← harmless (self.chain.forkAt cr commonHeight)
  let candidate ← harmless (suffix.foldlM (NativeChain.append cr) candidate)
  harmless (checkCandidateBudget candidate.blocks nowMs)
  self.publishCandidate cr candidate

/-! ### Boot -/

/-- Replay the lines of the block log after the first `index` of them. -/
def replayLines (cr : Crypto) (codec : Codec) (nowMs : ℕ) :
    ℕ → NativeChain → List (List Char) → Except String NativeChain
  | _, chain, [] => pure chain
  | index, chain, line :: rest => do
    ensure (index < maxNativeHistoryBlocks) "native history block limit"
    ensure ((utf8 line).length ≤ nativeTestnet.maxBlockBytes) "native block line too large"
    let block ← mapErr (fun e => "native block log line " ++ toString (index + 1) ++ ": " ++ e)
      (codec.parseBlock line)
    checkBlockTsFutureDrift block.header.timestampMs nowMs
    let chain ← chain.append cr block
    replayLines cr codec nowMs (index + 1) chain rest

/-- Read one line of the pool; a transfer that is invalid on its own is corruption. -/
def readPoolLine (cr : Crypto) (codec : Codec) (pending : List NativeTransfer)
    (line : List Char) : Except String (List NativeTransfer) := do
  ensure ((utf8 line).length ≤ nativeTestnet.maxTransferBytes) "native transfer line too large"
  ensure (pending.length < maxNativeRecoveryTransfers) "native mempool too large"
  let transfer ← codec.parseTransfer line
  let _ ← transfer.validatedFields cr
  pure (pending ++ [transfer])

/-- The pool's transfers, and the pool without its torn tail. -/
def readPool (cr : Crypto) (codec : Codec) :
    Option (List UInt8) → Except String (List NativeTransfer × Option (List UInt8))
  | none => pure ([], none)
  | some bytes => do
    let raw ← readNativeLog bytes maxNativePoolBytes
    let pending ← (lines raw).foldlM (readPoolLine cr codec) []
    pure (pending, some (stablePrefix bytes))

/-- Open a node on its journals and repair them: torn tails are cut off, and the pool is rewritten
when part of it no longer applies.  (`open` is a keyword.) -/
def openInner (cr : Crypto) (codec : Codec) (nowMs : ℕ) (disk : Disk) :
    Except String NativeNode := do
  checkFileBudget disk.blockLog maxNativeHistoryBytes
  checkFileBudget (disk.pool.getD []) maxNativePoolBytes
  let genesis ← NativeChain.new
  let raw ← readNativeLog disk.blockLog maxNativeHistoryBytes
  let chain ← replayLines cr codec nowMs 0 genesis (lines raw)
  let confirmed := confirmedIndex cr chain
  let (pending, pool) ← readPool cr codec disk.pool
  let retained ← retainPending cr chain confirmed pending
  let repaired : Disk := { blockLog := stablePrefix disk.blockLog, pool := pool }
  pure {
    chain := chain
    pending := retained
    confirmed := confirmed
    disk := (poolWrites pending retained.transfers).foldl Disk.write repaired
    poisoned := false }

end NativeNode

/-- The calls that change a node. -/
inductive NodeCall
  | submitTransfer (transfer : NativeTransfer)
  | submitBlock (block : NativeBlock)
  | adoptChain (blocks : List NativeBlock)
  | adoptRecentSuffix (commonHeight : ℕ) (suffix : List NativeBlock)

def NativeNode.call (cr : Crypto) (self : NativeNode) (nowMs : ℕ) :
    NodeCall → Except Failure Outcome
  | .submitTransfer transfer => self.submitTransfer cr transfer
  | .submitBlock block => self.submitBlock cr nowMs block
  | .adoptChain blocks => self.adoptChain cr nowMs blocks
  | .adoptRecentSuffix commonHeight suffix => self.adoptRecentSuffix cr nowMs commonHeight suffix

end Native
