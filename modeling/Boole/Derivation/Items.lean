import Boole.Derivation.State

/-!
# Derivation/Items — what one inbox item does to the state

An item is decoded, checked and recorded; a refused item leaves the state as it was and returns a
code.  `Refused` is that code, or a lookup that stops the program.
-/

open Std Library

namespace Derivation

inductive Refused
  | code (c : UInt8)
  | panicked
deriving DecidableEq

/-- Decode a body after its version byte. -/
def decodeBody {α : Type} (version : UInt8) (x : Reader α) : Bytes → Option α
  | [] => none
  | v :: b => if v = version then x.all b else none

/-- The next `n` hashes, when so many are left. -/
def hashes (n : ℕ) : Reader (List Hash) := do
  let b ← Reader.rest
  Reader.require (n ≤ b.length / 32)
  Reader.words 256 n

/-! ## COMMIT -/

structure CommitBody where
  poster : Address
  p : Hash
  ch : Hash

def commitBody : Reader CommitBody := do
  let poster ← Reader.word 160
  let p ← Reader.word 256
  let ch ← Reader.word 256
  pure ⟨poster, p, ch⟩

def commit (c : Config) (h : ℕ) (s : State) (x : Input) (accepted : ℕ) :
    Except Refused (State × UInt8) := do
  let b ← okOr (decodeBody 1 commitBody x.body) (.code 1)
  let problem ← okOr s.problems[b.p]? (.code 4)
  ensure (problem.hV < h) (.code 9)
  ensure (problem.closed = none) (.code 5)
  let params ← okOr c.slotTable[problem.slot]? .panicked
  ensure (h ≤ plus problem.hV params.solveDeadline) (.code 5)
  ensure ((b.p, b.ch) ∉ s.candidates) (.code 10)
  ensure (accepted < c.cCommit) (.code 11)
  let l : LiveCandidate := {
    hC := h
    transactionIndex := x.transactionIndex
    logIndex := x.logIndex
    t := none
    poster := b.poster
    status := .committed
    open? := none }
  pure ({ s with candidates := s.candidates.insert (b.p, b.ch) (.live l) }, 0x80)

/-! ## OPEN -/

structure Meta where
  model : Bytes
  license : ℕ
  permission : ℕ
  trace : Hash
  embargo : ℕ

def metaBody : Reader Meta := do
  let version ← Reader.nat 1
  Reader.require (version = 1)
  let modelLen ← Reader.nat 1
  let model ← Reader.take modelLen
  let license ← Reader.nat 1
  let permission ← Reader.nat 1
  let trace ← Reader.word 256
  let embargo ← Reader.nat 4
  pure ⟨model, license, permission, trace, embargo⟩

structure OpenBody where
  poster : Address
  cancel : Hash
  /-- The committed part of the body. -/
  b : Bytes
  problem : Hash
  solver : Address
  salt : Hash
  mode : ℕ
  schema : Hash
  base : Hash
  pkgs : List Hash
  codec : ℕ
  format : ℕ
  raw : ℕ
  exportDigest : Hash
  z : ℕ
  n : ℕ
  root : Hash
  deps : ℕ
  ext : ℕ
  /-- The metadata, undecoded. -/
  metaBytes : Bytes

def openBody : Reader OpenBody := do
  let poster ← Reader.word 160
  let cancel ← Reader.word 256
  let b ← Reader.rest
  let version ← Reader.nat 1
  Reader.require (version = 1)
  let problem ← Reader.word 256
  let solver ← Reader.word 160
  let salt ← Reader.word 256
  let mode ← Reader.nat 1
  let schema ← Reader.word 256
  let base ← Reader.word 256
  let k ← Reader.nat 1
  let pkgs ← hashes k
  let codec ← Reader.nat 1
  let format ← Reader.nat 1
  let raw ← Reader.nat 8
  let exportDigest ← Reader.word 256
  let z ← Reader.nat 4
  let n ← Reader.nat 2
  let root ← Reader.word 256
  let deps ← Reader.nat 2
  let ext ← Reader.nat 2
  let metaLen ← Reader.nat 2
  let _ ← Reader.take (deps * 64)
  let _ ← Reader.take ext
  let metaBytes ← Reader.take metaLen
  pure ⟨poster, cancel, b, problem, solver, salt, mode, schema, base, pkgs, codec, format, raw,
    exportDigest, z, n, root, deps, ext, metaBytes⟩

structure ParsedOpen where
  exportFormat : ℕ
  problem : Hash
  cancel : Hash
  packages : List Hash
  record : OpenRecord

variable (cr : Crypto)

def parseOpen (c : Config) (body : Bytes) : Except Refused ParsedOpen := do
  let o ← okOr (decodeBody 1 openBody body) (.code 1)
  let m ← okOr (metaBody.all o.metaBytes) (.code 1)
  ensure (o.mode = 1 ∧ o.schema = c.schemaId ∧ o.base = c.baseRoot ∧ c.validPkgs o.pkgs
    ∧ o.pkgs ∈ c.envAllowed ∧ o.codec = 1 ∧ (o.format = 1 ∨ o.format = 2) ∧ o.deps = 0
    ∧ o.ext = 0) (.code 2)
  ensure (m.model.length ≤ 64 ∧ (∀ x ∈ m.model, 0x20 ≤ x ∧ x ≤ 0x7e) ∧ m.license ≠ 0
    ∧ (∃ t ∈ c.termsTable, t.1 = m.license) ∧ m.permission ≤ 1
    ∧ (m.trace = 0 → m.permission = 0 ∧ m.embargo = 0) ∧ m.embargo ≤ c.traceEmbargoMax) (.code 2)
  ensure (o.z ≠ 0 ∧ (o.z + (partSize - 1)) / partSize = o.n) (.code 2)
  ensure (o.n ≤ maxParts ∧ o.raw ≠ 0 ∧ o.raw ≤ rawCap
    ∧ (checkedMul 64 o.z c.ratioMax).any (o.raw ≤ ·)) (.code 3)
  let record : OpenRecord := {
    openPos := (0, 0, 0)
    donePos := none
    exportDigest := o.exportDigest
    queueIndex := none
    poster := o.poster
    hO := 0
    solver := o.solver
    salt := o.salt
    n := o.n
    zLen := o.z
    rawLen := o.raw
    dataRoot := o.root
    bodyDigest := bodyDigest cr o.b
    envId := envId cr o.schema o.base o.pkgs
    mode := o.mode
    bitmap := [0, 0]
    hR := none }
  pure {
    exportFormat := o.format
    problem := o.problem
    cancel := o.cancel
    packages := o.pkgs
    record }

/-- The code an OPEN gets from the status of its candidate. -/
def openRefusal : Status → Option UInt8
  | .expired | .cancelled => some 9
  | .committed => none
  | _ => some 10

def openItem (c : Config) (h : ℕ) (s : State) (x : Input) : Except Refused (State × UInt8) := do
  let o ← parseOpen cr c x.body
  let key : Key := (o.problem, commitHash cr c.chainId o.problem o.cancel o.record.bodyDigest)
  let record ← okOr s.candidates[key]? (.code 6)
  ensure (openRefusal record.status = none) (.code ((openRefusal record.status).getD 0))
  let l ← okOr record.live? (.code 9)
  let problem ← okOr s.problems[o.problem]? (.code 4)
  ensure (problem.requiredPkgs ⊆ o.packages) (.code 2)
  let params ← okOr c.slotTable[problem.slot]? .panicked
  ensure (o.exportFormat = params.lane) (.code 2)
  ensure (plus l.hC c.d ≤ h ∧ h ≤ plus l.hC c.w) (.code 9)
  let record := { o.record with hO := h, openPos := (h, x.transactionIndex, x.logIndex) }
  let l := { l with open? := some record, status := .opened }
  pure ({ s with
    candidates := s.candidates.insert key (.live l),
    opened := s.opened.insert key.2 key }, 0x81)

/-! ## PART -/

structure PartBody where
  poster : Address
  ch : Hash
  index : ℕ
  /-- The path and the data. -/
  tail : Bytes

def partBody : Reader PartBody := do
  let poster ← Reader.word 160
  let ch ← Reader.word 256
  let index ← Reader.nat 2
  let tail ← Reader.remaining
  pure ⟨poster, ch, index, tail⟩

/-- The code a PART gets from the status of its candidate. -/
def partRefusal : Status → Option UInt8
  | .expired | .cancelled => some 9
  | .committed | .opened => none
  | _ => some 10

/-- The length the data of a part must have. -/
def expectedLen (o : OpenRecord) (index : ℕ) : Option ℕ :=
  if index + 1 = o.n then checkedSub o.zLen ((o.n - 1) * partSize) else some partSize

def countOnes (bitmap : List (BitVec 64)) : ℕ :=
  (bitmap.map fun x => (List.range 64).countP x.getLsbD).sum

/-- `l` with the part at `index` recorded, and the code for it. -/
def recordPart (h : ℕ) (x : Input) (l : LiveCandidate) (o : OpenRecord)
    (bitmap : List (BitVec 64)) : LiveCandidate × UInt8 :=
  if countOnes bitmap = o.n then
    ({ l with
      status := .checking
      open? := some { o with
        bitmap
        hR := some h
        donePos := some (h, x.transactionIndex, x.logIndex) } }, 0x83)
  else ({ l with open? := some { o with bitmap } }, 0x82)

def partItem (h : ℕ) (s : State) (x : Input) : Except Refused (State × UInt8) := do
  let b ← okOr (decodeBody 1 partBody x.body) (.code 1)
  let key ← okOr s.opened[b.ch]? (.code 7)
  let record ← okOr s.candidates[key]? (.code 7)
  ensure (partRefusal record.status = none) (.code ((partRefusal record.status).getD 0))
  let l ← okOr record.live? (.code 9)
  let o ← okOr l.open? (.code 7)
  ensure (b.index < o.n) (.code 8)
  -- the path, and the data after it
  let proof ← okOr ((hashes (depth o.n)).run b.tail) (.code 8)
  ensure (expectedLen o b.index = some proof.2.length
    ∧ verify cr (partLeaf cr o.solver o.salt b.index proof.2) b.index proof.1 o.dataRoot) (.code 8)
  let word ← okOr o.bitmap[b.index / 64]? .panicked
  ensure (word.getLsbD (b.index % 64) = false) (.code 10)
  let bitmap := o.bitmap.set (b.index / 64) (word ||| BitVec.twoPow 64 (b.index % 64))
  let recorded := recordPart h x l o bitmap
  pure ({ s with candidates := s.candidates.insert key (.live recorded.1) }, recorded.2)

/-! ## CANCEL -/

structure CancelBody where
  p : Hash
  ch : Hash
  bd : Hash
  secret : Hash

def cancelBody : Reader CancelBody := do
  let p ← Reader.word 256
  let ch ← Reader.word 256
  let bd ← Reader.word 256
  let secret ← Reader.word 256
  pure ⟨p, ch, bd, secret⟩

/-- The code a CANCEL gets from the status of its candidate. -/
def cancelRefusal : Status → Option UInt8
  | .cancelled => some 10
  | .committed | .opened => none
  | _ => some 9

def cancel (c : Config) (s : State) (x : Input) : Except Refused (State × UInt8) := do
  let b ← okOr (decodeBody 1 cancelBody x.body) (.code 1)
  ensure (commitHash cr c.chainId b.p (cancelHash cr b.secret) b.bd = b.ch) (.code 12)
  let record ← okOr s.candidates[(b.p, b.ch)]? (.code 6)
  ensure (cancelRefusal record.status = none) (.code ((cancelRefusal record.status).getD 0))
  pure ({ s with candidates := s.candidates.insert (b.p, b.ch) (.tombstone .cancelled) }, 0x84)

/-! ## POOL -/

structure PoolBody where
  slot : ℕ
  seq : ℕ
  root : Hash
  count : ℕ
  start : ℕ
  battery : Hash
  sig : Bytes

def poolBody : Reader PoolBody := do
  let slot ← Reader.nat 1
  let seq ← Reader.nat 4
  let root ← Reader.word 256
  let count ← Reader.nat 4
  let start ← Reader.nat 8
  let battery ← Reader.word 256
  let sig ← Reader.take 65
  pure ⟨slot, seq, root, count, start, battery, sig⟩

/-- Whether the address of `key` signed the digest. -/
def signedBy (digest : Hash) (sig : Bytes) (key : Address) : Bool :=
  match cr.lowS (sig.take 64) with
  | some true =>
    sig.getD 64 0 ≤ 1 &&
      (cr.recover digest (sig.take 64) (sig.getD 64 0)).any fun point =>
        (cr.keccak point).setWidth 160 = key
  | _ => false

/-- The unused leaves of a slot's pools. -/
def unusedLeaves (s : State) (slot : ℕ) : Option ℕ :=
  (s.pools.toList.filter fun e => e.2.slot = slot).foldlM
    (fun n e => checkedAdd 64 n e.2.unused.length) 0

/-- The slot after a pool that may start its schedule. -/
def scheduleSlot (slot : Slot) (start : ℕ) : Slot :=
  if slot.active = none ∧ slot.scheduled = none then { slot with scheduled := some start } else slot

def pool (c : Config) (h : ℕ) (s : State) (body : Bytes) : Except Refused (State × UInt8) := do
  let b ← okOr (decodeBody 2 poolBody body) (.code 1)
  let digest := sha cr [ascii "BOOLE-M2/POOL/v2", beBytes 8 c.chainId, body.take 82]
  ensure (signedBy cr digest b.sig c.poolKey) (.code 13)
  let last := (s.pools.toList.getLast?.map (·.1)).getD 0
  ensure (b.slot < c.slotTable.length
    ∧ ((unusedLeaves s b.slot).bind (checkedAdd 64 · b.count)).any (· ≤ c.slotLeavesMax)
    ∧ checkedAdd 32 last 1 = some b.seq ∧ b.count ≠ 0 ∧ b.count ≤ c.poolMax
    ∧ (checkedAdd 64 h c.poolLead).any (· ≤ b.start)) (.code 13)
  ensure (∀ e ∈ s.pools.toList, e.2.root ≠ b.root) (.code 10)
  let slot ← okOr s.slots[b.slot]? .panicked
  let p : Pool := {
    slot := b.slot
    root := b.root
    start := b.start
    count := b.count
    unused := List.range b.count }
  pure ({ s with
    pools := s.pools.insert b.seq p,
    slots := s.slots.set b.slot (scheduleSlot slot b.start) }, 0x85)

/-! ## PROBLEM -/

structure ProblemBody where
  slot : ℕ
  round : ℕ
  index : ℕ
  kind : ℕ
  req : List Hash
  salt : Hash
  codec : ℕ
  rawLen : ℕ
  path : List Hash
  package : Bytes

def problemBody : Reader ProblemBody := do
  let slot ← Reader.nat 1
  let round ← Reader.nat 4
  let index ← Reader.nat 4
  let kind ← Reader.nat 1
  let k ← Reader.nat 1
  let req ← hashes k
  let salt ← Reader.word 256
  let codec ← Reader.nat 1
  let rawLen ← Reader.nat 4
  let d ← Reader.nat 1
  let path ← hashes d
  let n ← Reader.nat 4
  let package ← Reader.take n
  pure ⟨slot, round, index, kind, req, salt, codec, rawLen, path, package⟩

/-- The code a PROBLEM gets from the status of its round. -/
def problemRefusal : RoundStatus → Option UInt8
  | .opened | .closed => some 10
  | .withheld => some 9
  | .drawn => none

def problem (c : Config) (h : ℕ) (s : State) (x : Input) : Except Refused (State × UInt8) := do
  let b ← okOr (decodeBody 2 problemBody x.body) (.code 1)
  let draw ← okOr s.rounds[(b.slot, b.round)]? (.code 14)
  ensure (draw.leafIndex = b.index) (.code 14)
  ensure (problemRefusal draw.status = none) (.code ((problemRefusal draw.status).getD 0))
  ensure (b.package.length ≤ c.statementMax ∧ (b.kind = 1 ∨ b.kind = 2)
    ∧ (b.codec = 0 ∨ b.codec = 1) ∧ (b.codec = 0 → b.rawLen = b.package.length)
    ∧ (b.codec = 1 → b.package ≠ [] ∧ b.rawLen ≠ 0 ∧ b.rawLen ≤ c.statementRawMax)
    ∧ ascending b.req ∧ b.req ⊆ c.pkgTable) (.code 2)
  let pool ← okOr s.pools[draw.poolSeq]? .panicked
  ensure (b.path.length = depth pool.count
    ∧ verify cr (poolLeaf cr c.chainId b.kind b.req b.codec b.rawLen b.package b.salt) b.index
      b.path pool.root) (.code 14)
  let id := problemId cr c.chainId pool.root b.index draw.instanceSeed 0
  let p : Problem := {
    revealPos := (h, x.transactionIndex, x.logIndex)
    winner := none
    voided := false
    slot := b.slot
    id
    requiredPkgs := b.req
    hV := h
    closed := none
    poolSeq := draw.poolSeq
    leafIndex := b.index
    instanceSeed := draw.instanceSeed
    epoch := 0 }
  pure ({ s with
    rounds := s.rounds.insert (b.slot, b.round) { draw with status := .opened, problem := some id },
    problems := s.problems.insert id p }, 0x86)

/-! ## The dispatch -/

/-- What an item does, by its kind. -/
def handle (c : Config) (h : ℕ) (s : State) (x : Input) (accepted : ℕ) :
    Except Refused (State × UInt8) :=
  if x.kind = 2 then commit c h s x accepted
  else if x.kind = 3 then openItem cr c h s x
  else if x.kind = 4 then partItem cr h s x
  else if x.kind = 7 then cancel cr c s x
  else if x.kind = 8 then pool cr c h s x.body
  else if x.kind = 9 then problem cr c h s x
  else .error (.code 0x3f)

/-- The state and the code after an item; a refused one changes nothing. -/
def item (c : Config) (h : ℕ) (s : State) (x : Input) (accepted : ℕ) :
    Except FoldError (State × UInt8) :=
  match handle cr c h s x accepted with
  | .ok r => .ok r
  | .error (.code code) => .ok (s, code)
  | .error .panicked => .error .panicked

end Derivation
