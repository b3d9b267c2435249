import Boole.Library.Effect
import Boole.Native.Node

/-!
# Native/Peers — one synchronisation round

The outbound side of `boole-node`'s `native_peers.rs`.  A round compares heads with a peer, searches
the height up to which both chains have the same hashes, downloads what is missing and offers it to
the node.  **Nothing a peer says is believed:** every answer, every failure of the connection, and
whatever the other threads do to the node while this one does not hold its lock is an arbitrary
input of the round (`Env`).

Changes that were made to the node before a round fails stay, so a round is a program with a state.
The diagnostic stage of a round and the byte counts of the connection, which the peer can make fail
at any request, are left out.
-/

open Library

namespace Native

def maxNativePeerRoundBlocks : ℕ := 256

def nativePeerProtocolVersion : ℕ := 1

def maxRequests : ℕ := 64

def blockPage : ℕ := 16

def transferPage : ℕ := 128

/-! ## Messages -/

structure Head where
  height : ℕ
  hash : Hex32
deriving DecidableEq

def NativeChain.head (cr : Crypto) (chain : NativeChain) : Head where
  height := chain.ledger.height
  hash := chain.headHash cr

/-- A verified candidate that lost the fork choice before. -/
structure DeclinedFork where
  localHead : Head
  remote : Head
deriving DecidableEq

inductive Message
  | hello (protocolVersion : ℕ) (networkId : String) (genesisHash : Hex32) (head : Head)
  | getHash (snapshot : Head) (height : ℕ)
  | hash (snapshot : Head) (height : ℕ) (hash : Hex32)
  | getBlocks (snapshot : Head) (start limit : ℕ)
  | blocks (snapshot : Head) (start : ℕ) (blocks : List NativeBlock)
  | getPending (snapshot : Head) (offset limit : ℕ)
  | pending (snapshot : Head) (offset total : ℕ) (transfers : List NativeTransfer)
  | done

def hello (cr : Crypto) (node : NativeNode) : Message :=
  .hello nativePeerProtocolVersion nativeTestnet.networkId (nativeTestnet.genesisHash cr)
    (node.chain.head cr)

def remoteHead (cr : Crypto) : Message → Except String Head
  | .hello protocolVersion networkId genesisHash head => do
    ensure (protocolVersion = nativePeerProtocolVersion) "native peer version mismatch"
    ensure (networkId = nativeTestnet.networkId ∧ genesisHash = nativeTestnet.genesisHash cr)
      "native peer network mismatch"
    ensure (head.height ≤ maxNativeHistoryBlocks) "native peer history limit"
    ensure (head.height ≠ 0 ∨ head.hash = genesisHash) "native peer genesis mismatch"
    pure head
  | _ => .error "native hello required"

def chainHash (cr : Crypto) (chain : NativeChain) (height : ℕ) : Except String Hex32 :=
  if height = 0 then pure (nativeTestnet.genesisHash cr)
  else do
    let block ← okOr chain.blocks[height - 1]? "native hash height unavailable"
    block.hash cr

/-! ## Rounds -/

/-- What a round does not control, by how often it asked: the answers of the peer, the clock, what
other threads did to the node before this one got its lock, and whether it got it. -/
structure Env where
  answer : ℕ → Message → Except String Message
  clock : ℕ → ℕ
  others : ℕ → NativeNode → NativeNode
  lock : ℕ → Except String Unit

structure Round where
  node : NativeNode
  requests : ℕ
  locks : ℕ
  declined : Option DeclinedFork

abbrev Sync (α : Type) : Type := EStateM String Round α

def Sync.ensure (p : Prop) [Decidable p] (message : String) : Sync Unit :=
  if p then pure () else throw message

def Sync.lift {α : Type} : Except String α → Sync α
  | .ok a => pure a
  | .error message => throw message

namespace Round

variable (cr : Crypto) (env : Env)

/-- Get hold of the node. -/
def lockNode : Sync NativeNode := do
  let round ← get
  modify fun round =>
    { round with node := env.others round.locks round.node, locks := round.locks + 1 }
  Sync.lift (env.lock round.locks)
  pure (← get).node

def request (message : Message) : Sync Message := do
  modify fun round => { round with requests := round.requests + 1 }
  let round ← get
  Sync.ensure (round.requests ≤ maxRequests) "native peer request limit"
  Sync.lift (env.answer round.requests message)

/-- Call the node that this thread has locked; what the call did stays when it failed. -/
def callNode (c : NodeCall) : Sync Bool := fun round =>
  let result := round.node.call cr (env.clock round.locks) c
  let round := { round with node := round.node.after result }
  match result with
  | .ok outcome => .ok outcome.accepted round
  | .error failure => .error failure.message round

def ensureSnapshot (node : NativeNode) (head : Head) : Sync Unit :=
  Sync.ensure (node.chain.head cr = head) "native local snapshot changed"

def ensureReady (node : NativeNode) : Sync Unit :=
  Sync.lift (mapErr Failure.message node.ensureReady)

def getHash (snapshot : Head) (height : ℕ) : Sync Hex32 := do
  match ← request env (.getHash snapshot height) with
  | .hash returned actual hash =>
    Sync.ensure (returned = snapshot ∧ actual = height) "native hash response mismatch"
    pure hash
  | _ => throw "native hash response mismatch"

/-- The binary search for the last common height.  Every turn of this loop, and of the two below,
makes a request, so that `fuel` runs out where the source has made too many. -/
def findCommon (original remote : Head) : ℕ → ℕ → ℕ → Sync ℕ
  | 0, _, _ => throw "native peer request limit"
  | fuel + 1, low, high =>
    if low < high then do
      let height := low + (high - low + 1) / 2
      let remoteHash ← getHash env remote height
      let node ← lockNode env
      ensureSnapshot cr node original
      let localHash ← Sync.lift (chainHash cr node.chain height)
      if localHash = remoteHash then findCommon original remote fuel height high
      else findCommon original remote fuel low (height - 1)
    else pure low

/-- Where a download stands: the next height, the head of the node, and the blocks kept for a
fork. -/
structure Download where
  next : ℕ
  current : Head
  fork : List NativeBlock

/-- One downloaded block: it extends the chain at once, or it is kept for the fork. -/
def takeBlock (extension : Bool) (download : Download) (block : NativeBlock) : Sync Download := do
  Sync.ensure (block.header.height = download.next) "native block height mismatch"
  if extension then
    let node ← lockNode env
    ensureSnapshot cr node download.current
    let _ ← callNode cr env (.submitBlock block)
    let round ← get
    pure { download with next := download.next + 1, current := round.node.chain.head cr }
  else pure { download with next := download.next + 1, fork := download.fork ++ [block] }

def getBlocks (remote : Head) (next limit : ℕ) : Sync (List NativeBlock) := do
  match ← request env (.getBlocks remote next limit) with
  | .blocks snapshot start blocks =>
    Sync.ensure (snapshot = remote ∧ start = next ∧ blocks ≠ [] ∧ blocks.length ≤ limit)
      "native block response range mismatch"
    pure blocks
  | _ => throw "native blocks response required"

def downloadBlocks (remote : Head) (extension : Bool) (target : ℕ) :
    ℕ → Download → Sync Download
  | 0, _ => throw "native peer request limit"
  | fuel + 1, download =>
    if download.next ≤ target then do
      let limit := min blockPage (target - download.next + 1)
      let blocks ← getBlocks env remote download.next limit
      let download ← blocks.foldlM (takeBlock cr env extension) download
      downloadBlocks remote extension target fuel download
    else pure download

/-- Offer the downloaded fork to the node. -/
def offerFork (original remote : Head) (common : ℕ) (download : Download) : Sync Head := do
  let last ← Sync.lift (okOr download.fork.getLast? "fork nonempty")
  let hash ← Sync.lift (last.hash cr)
  Sync.ensure (hash = remote.hash) "native advertised head mismatch"
  let node ← lockNode env
  ensureSnapshot cr node original
  let adopted ← callNode cr env (.adoptRecentSuffix common download.fork)
  if adopted = false then
    modify fun round => { round with declined := some { localHead := original, remote } }
  let round ← get
  pure (round.node.chain.head cr)

/-- The head of the node after the download: a fork is offered to it first. -/
def settleFork (original remote : Head) (extension : Bool) (common : ℕ) (download : Download) :
    Sync Head :=
  if extension = false ∧ download.fork ≠ [] then offerFork cr env original remote common download
  else pure download.current

/-- One pending transfer of the peer; a conflict with our own queue is no failure. -/
def takeTransfer (snapshot : Head) (transfer : NativeTransfer) : Sync Unit := do
  let _ ← Sync.lift (transfer.validatedFields cr)
  let node ← lockNode env
  ensureSnapshot cr node snapshot
  try
    let _ ← callNode cr env (.submitTransfer transfer)
  catch _ =>
    let round ← get
    ensureReady round.node

def getPending (snapshot : Head) (offset : ℕ) : Sync (ℕ × List NativeTransfer) := do
  match ← request env (.getPending snapshot offset transferPage) with
  | .pending returned actual total transfers =>
    Sync.ensure (returned = snapshot ∧ actual = offset ∧ total ≤ maxNativePendingTransfers ∧
      offset ≤ total) "native pending response mismatch"
    Sync.ensure (transfers.length = min transferPage (total - offset))
      "native pending response count mismatch"
    pure (total, transfers)
  | _ => throw "native pending response required"

def synchronizePending (snapshot : Head) : ℕ → ℕ → Option ℕ → Sync Unit
  | 0, _, _ => throw "native peer request limit"
  | fuel + 1, offset, expectedTotal => do
    let (total, transfers) ← getPending env snapshot offset
    Sync.ensure (expectedTotal.getD total = total) "native pending snapshot changed"
    transfers.forM (takeTransfer cr env snapshot)
    if offset + transfers.length = total then pure ()
    else synchronizePending snapshot fuel (offset + transfers.length) (some total)

inductive Result
  | localChainPreferred
  | snapshotMatch
  | boundedReorgRequiresRecovery
  | catchingUp
deriving DecidableEq

/-- The last message of a round; nothing is read after it. -/
def finish (result : Result) : Sync Result := do
  let round ← get
  let _ ← Sync.lift (env.answer (round.requests + 1) .done)
  pure result

/-- The blocks above the common height. -/
def synchronizeBlocks (original remote : Head) (common : ℕ) : Sync Result := do
  let extension : Bool := common = original.height
  let target := min remote.height (common + maxNativePeerRoundBlocks)
  let download ← downloadBlocks cr env remote extension target (maxRequests + 1)
    { next := common + 1, current := original, fork := [] }
  let current ← settleFork cr env original remote extension common download
  Sync.ensure (extension = true ∧ target = remote.height → current = remote)
    "native advertised head mismatch"
  if current = remote then
    synchronizePending cr env remote (maxRequests + 1) 0 none
  finish env (if current = remote then .snapshotMatch
    else if extension then .catchingUp else .localChainPreferred)

/-- The chains differ: find where, and download from there. -/
def synchronizeChain (original remote : Head) (earliestRecentFork : ℕ) : Sync Result := do
  let common ← findCommon cr env original remote (maxRequests + 1) 0
    (min original.height remote.height)
  if common ≠ original.height ∧ (maxNativePeerRoundBlocks < remote.height - common ∨
      common < earliestRecentFork) then
    finish env .boundedReorgRequiresRecovery
  else synchronizeBlocks cr env original remote common

def synchronize : Sync Result := do
  let node ← lockNode env
  ensureReady node
  let original := node.chain.head cr
  let earliestRecentFork := node.chain.earliestRecentForkHeight
  let answer ← request env (hello cr node)
  let remote ← Sync.lift (remoteHead cr answer)
  let round ← get
  if round.declined = some { localHead := original, remote } then
    let node ← lockNode env
    ensureReady node
    ensureSnapshot cr node original
    finish env .localChainPreferred
  else
    modify fun round => { round with declined := none }
    if remote = original then
      synchronizePending cr env remote (maxRequests + 1) 0 none
      finish env .snapshotMatch
    else synchronizeChain cr env original remote earliestRecentFork

end Round

end Native
