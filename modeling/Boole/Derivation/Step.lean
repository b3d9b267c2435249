import Boole.Derivation.Items
import Boole.Derivation.Fold

/-!
# Derivation/Step — one height of the fold

`stepWithVerdicts` folds one L1 block: it checks the configuration, the height and the fork table,
runs the stages on a draft, and commits the previous root, the block and the events in a new root.
-/

open Std Library

namespace Derivation

/-! ## L1 blocks -/

structure L1Block where
  number : ℕ
  hash : String
  parentHash : String
  timestamp : ℕ
  mixHash : String
  baseFeePerGas : String
  parentBeaconBlockRoot : String
deriving DecidableEq

/-- The value of a hexadecimal digit of either case. -/
def hexDigit? (c : Char) : Option ℕ :=
  if '0'.toNat ≤ c.toNat ∧ c.toNat ≤ '9'.toNat then some (c.toNat - 48)
  else if 'a'.toNat ≤ c.toNat ∧ c.toNat ≤ 'f'.toNat then some (c.toNat - 87)
  else if 'A'.toNat ≤ c.toNat ∧ c.toNat ≤ 'F'.toNat then some (c.toNat - 55)
  else none

/-- `hex::decode`. -/
def hexDecode : List Char → Option Bytes
  | [] => some []
  | [_] => none
  | a :: b :: s => do
    let hi ← hexDigit? a
    let lo ← hexDigit? b
    let rest ← hexDecode s
    pure (UInt8.ofNat (16 * hi + lo) :: rest)

/-- `strip_prefix("0x")`. -/
def strip0x (s : String) : Option (List Char) :=
  match s.toList with
  | '0' :: 'x' :: r => some r
  | _ => none

namespace L1Block

/-- The randomness of a block, zero when the field does not hold 32 bytes. -/
def mix (self : L1Block) : Hash :=
  ((hexDecode ((strip0x self.mixHash).getD [])).bind (Reader.word 256).all).getD 0

/-- The hash of a block as the root commits it. -/
def hashBytes (self : L1Block) : Bytes :=
  (hexDecode ((strip0x self.hash).getD [])).getD []

end L1Block

/-! ## Ties, expiry and purge -/

variable (cr : Crypto)

/-- Give the tie-break to a candidate that was committed at the height before. -/
def tie (h : ℕ) (mix : Hash) (key : Key) : Candidate → Candidate
  | .live l =>
    if checkedAdd 64 l.hC 1 = some h ∧ l.t = none then
      .live { l with t := some (sha cr [ascii "BOOLE-M2/TIE/v1", wordBytes key.2, wordBytes mix]) }
    else .live l
  | .tombstone s => .tombstone s

structure Expiry where
  deadline : ℕ
  hC : ℕ
  t : Hash
  key : Key

/-- The order in which expiries are reported: by problem, then by age. -/
def expiryLe (a b : Expiry) : Prop :=
  a.key.1 < b.key.1 ∨ a.key.1 = b.key.1 ∧ (a.deadline < b.deadline ∨ a.deadline = b.deadline
    ∧ (a.hC < b.hC ∨ a.hC = b.hC ∧ (a.t < b.t ∨ a.t = b.t ∧ a.key.2 ≤ b.key.2)))

instance : DecidableRel expiryLe := fun _ _ => inferInstanceAs (Decidable (_ ∨ _))

variable (c : Config)

variable (self : Draft)

namespace Draft

variable (h : ℕ)

def ties (mix : Hash) : Draft :=
  { self with candidates := self.candidates.map (tie cr h mix) }

/-- The candidates whose time to reveal is over. -/
def overdue (s : State) (h : ℕ) : List Expiry :=
  (s.candidates.toList.filterMap fun e => do
    let l ← e.2.live?
    if (l.status = .committed ∨ l.status = .opened) ∧ plus l.hC c.w < h then
      some { deadline := plus l.hC c.w, hC := l.hC, t := l.t.getD 0, key := e.1 }
    else none).insertionSort expiryLe

def expireCandidate (x : Expiry) : Draft :=
  { self with candidates := self.candidates.insert x.key (.tombstone .expired) }.emit
    (.status x.key .expired)

def expire : Draft :=
  (overdue c self.toState h).foldl expireCandidate self

/-- The candidates of a problem of which only the status is left. -/
def tombstones (s : State) (p : Hash) : List Key :=
  (s.candidates.toList.filter fun e => e.1.1 = p ∧ e.2.live? = none).map (·.1)

def purgeKey (k : Key) : Draft :=
  { self with
    candidates := self.candidates.erase k
    opened := if self.opened[k.2]? = some k then self.opened.erase k.2 else self.opened }

/-- Forget the tombstones of a problem some time after it was closed. -/
def purgeProblem (self : Draft) (p : Problem) : Draft :=
  if (p.closed.bind fun v => (checkedAdd 64 v c.w).bind (checkedAdd 64 · 1)) = some h then
    let keys := tombstones self.toState p.id
    (keys.foldl purgeKey self).emit (.purge p.id (min keys.length (2 ^ 32 - 1)))
  else self

def purge : Draft :=
  (self.problems.toList.map (·.2)).foldl (purgeProblem c h) self

/-! ## Items -/

/-- The loop state over the items: the draft, the commits accepted at this height, the codes. -/
structure Inbox where
  draft : Draft
  accepted : ℕ
  codes : List UInt8

/-- Queue the candidate whose last part an item brought. -/
def completePart (x : Input) (code : UInt8) : Except FoldError Draft :=
  if code = 0x83 ∧ c.m3.isSome then do
    let ch ← expect ((Reader.word 256).run (x.body.drop 21))
    let key ← expect self.opened[ch.1]?
    self.complete key h
  else .ok self

def foldItem (c : Config) (h : ℕ) (acc : Inbox) (x : Input) : Except FoldError Inbox := do
  let r ← item cr c h acc.draft.toState x acc.accepted
  let next : Draft := { acc.draft with toState := r.1 }
  let told := if 2 ≤ x.kind ∧ x.kind ≤ 15 then
    next.emit (.item x.transactionIndex x.logIndex x.kind r.2) else next
  let draft ← completePart c told h x r.2
  pure {
    draft
    accepted := if r.2 = 0x80 then acc.accepted + 1 else acc.accepted
    codes := acc.codes ++ [r.2] }

/-- The order of the items of a block. -/
def itemLe (a b : Input) : Prop :=
  a.transactionIndex < b.transactionIndex
    ∨ a.transactionIndex = b.transactionIndex ∧ a.logIndex ≤ b.logIndex

instance : DecidableRel itemLe := fun _ _ => inferInstanceAs (Decidable (_ ∨ _))

def foldItems (c : Config) (self : Draft) (h : ℕ) (items : List Input) : Except FoldError Inbox :=
  (items.insertionSort itemLe).foldlM (foldItem cr c h) { draft := self, accepted := 0, codes := [] }

end Draft

/-! ## The step -/

@[ext] structure Step where
  state : State
  codes : List UInt8
  events : List Event
  verdicts : List IndexedVerdict
  payments : List RewardPayment

namespace State

def new (c : Config) (l2GasLimit : ℕ) : Except FoldError State := do
  mapErr .startup (c.validate l2GasLimit)
  pure {
    height := 0
    config := c
    l2GasLimit
    root := c.digest cr
    candidates := ∅
    pools := ∅
    rounds := ∅
    slots := c.slotTable.map fun _ => { round := 0, scheduled := none, active := none }
    problems := ∅
    m3 := c.m3.map fun _ => {}
    opened := ∅
    repose := c.slotTable.map fun _ => [] }

def validateNext (self : State) (c : Config) (l1 : L1Block) : Except FoldError Unit := do
  mapErr .startup (c.validate self.l2GasLimit)
  ensure (c = self.config) .configurationChanged
  ensure (checkedAdd 64 self.height 1 = some l1.number)
    (.height (checkedAdd 64 self.height 1) l1.number)

/-- The stages before the items: ties, due verdicts, rounds, expiry and purge. -/
def prepare (self : State) (c : Config) (l1 : L1Block)
    (m3Input : Option (List IndexedVerdict × ForkTable)) :
    Except FoldError (Draft × List IndexedVerdict) := do
  let h := l1.number
  let start : Draft := { self with events := [] }
  let activated ← match m3Input with
    | some (_, forks) => start.activate cr h forks
    | none => pure start
  let tied := activated.ties cr h l1.mix
  let due ← match m3Input with
    | some (records, forks) => tied.applyDue c h records forks
    | none => pure (tied, [])
  let slotted ← due.1.slotEvents cr c h l1.mix
  pure ((slotted.expire c h).purge c h, due.2)

/-- The stages after the items: settlement and vesting. -/
def conclude (h : ℕ) : Except FoldError (Draft × List RewardPayment) :=
  if c.m3.isSome then do
    let settled ← self.settle c h
    settled.vest c h
  else .ok (self, [])

/-- What a root is the digest of. -/
def rootInput (c : Config) (root : Hash) (l1 : L1Block) (events : List Event) : List Bytes :=
  [ascii (if c.m3.isSome then "BOOLE-M2/ROOT/v3" else "BOOLE-M2/ROOT/v2"), wordBytes root,
    beBytes 8 l1.number, l1.hashBytes, wordBytes (sha cr [events.flatMap Event.bytes])]

def stepInner (self : State) (c : Config) (l1 : L1Block) (items : List Input)
    (m3Input : Option (List IndexedVerdict × ForkTable)) : Except FoldError Step := do
  self.validateNext c l1
  let opened ← self.prepare cr c l1 m3Input
  let inbox ← opened.1.foldItems cr c l1.number items
  let closed ← conclude c inbox.draft l1.number
  let draft := closed.1
  pure {
    state := { draft.toState with
      root := sha cr (rootInput cr c self.root l1 draft.events)
      height := l1.number }
    codes := inbox.codes
    events := draft.events
    verdicts := opened.2
    payments := closed.2 }

def step (self : State) (c : Config) (l1 : L1Block) (items : List Input) :
    Except FoldError Step := do
  ensure (c.m3 = none) (m3Error "M3 requires explicit verdicts and fork table")
  self.stepInner cr c l1 items none

def stepWithVerdicts (self : State) (c : Config) (l1 : L1Block) (items : List Input)
    (verdicts : List IndexedVerdict) (forks : ForkTable) : Except FoldError Step := do
  ensure (c.m3.isSome) (.m3 .profileRequired)
  self.validateNext c l1
  mapErr .startup (forks.validate cr c)
  mapErr .m3 (forks.validateHistory self)
  self.stepInner cr c l1 items (some (verdicts, forks))

end State

end Derivation
