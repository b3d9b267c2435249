import Std.Data.ExtTreeSet
import Boole.Derivation.Wire

/-!
# Derivation/State — the consensus state, and the events a step commits

The state follows the source's records.  A step works on a copy, the draft, which also collects the
events; the root commits the bytes of the events, each a tag and fields of fixed width.
-/

open Std Library

namespace Derivation

inductive FoldError
  | m3 (e : Error)
  | height (expected : Option ℕ) (actual : ℕ)
  | startup (code : ℕ)
  | configurationChanged
  /-- An indexing or an `expect` that stops the program. -/
  | panicked
deriving DecidableEq

/-- `plus`: a deadline that overflows is never reached. -/
def plus (a b : ℕ) : ℕ := (checkedAdd 64 a b).getD (2 ^ 64 - 1)

/-! ## The M2 state -/

structure Input where
  transactionIndex : ℕ
  logIndex : ℕ
  kind : UInt8
  body : Bytes
deriving DecidableEq

inductive Status
  | committed
  | opened
  | checking
  | expired
  | cancelled
  | passed
  | accepted
  | rejected
  | void
  | stale
  | superseded
deriving DecidableEq

def Status.code : Status → UInt8
  | .committed => 1
  | .opened => 2
  | .checking => 3
  | .expired => 4
  | .cancelled => 5
  | .passed => 6
  | .accepted => 7
  | .rejected => 8
  | .void => 9
  | .stale => 10
  | .superseded => 11

structure OpenRecord where
  openPos : Pos
  donePos : Option Pos
  exportDigest : Hash
  queueIndex : Option ℕ
  poster : Address
  hO : ℕ
  solver : Address
  salt : Hash
  n : ℕ
  zLen : ℕ
  rawLen : ℕ
  dataRoot : Hash
  bodyDigest : Hash
  envId : Hash
  mode : ℕ
  bitmap : List (BitVec 64)
  hR : Option ℕ
deriving DecidableEq

structure LiveCandidate where
  hC : ℕ
  transactionIndex : ℕ
  logIndex : ℕ
  t : Option Hash
  poster : Address
  status : Status
  open? : Option OpenRecord
deriving DecidableEq

inductive Candidate
  | live (l : LiveCandidate)
  | tombstone (s : Status)
deriving DecidableEq

namespace Candidate

def status : Candidate → Status
  | .live l => l.status
  | .tombstone s => s

def live? : Candidate → Option LiveCandidate
  | .live l => some l
  | .tombstone _ => none

end Candidate

structure Pool where
  slot : ℕ
  root : Hash
  start : ℕ
  count : ℕ
  /-- In ascending order. -/
  unused : List ℕ
deriving DecidableEq

inductive RoundStatus
  | drawn
  | opened
  | closed
  | withheld
deriving DecidableEq

structure Round where
  poolSeq : ℕ
  leafIndex : ℕ
  instanceSeed : Hash
  hD : ℕ
  status : RoundStatus
  problem : Option Hash
deriving DecidableEq

structure Slot where
  round : ℕ
  scheduled : Option ℕ
  active : Option (ℕ × ℕ)
deriving DecidableEq

structure Problem where
  revealPos : Pos
  winner : Option Hash
  voided : Bool
  slot : ℕ
  id : Hash
  requiredPkgs : List Hash
  hV : ℕ
  closed : Option ℕ
  poolSeq : ℕ
  leafIndex : ℕ
  instanceSeed : Hash
  epoch : ℕ
deriving DecidableEq

/-! ## The M3 state -/

structure Job where
  queueIndex : ℕ
  key : Key
  kind : RecordKind
  avail : ℕ
  epochOverride : Option ℕ
deriving DecidableEq

inductive RewardStatus
  | locked
  | vested
  | cancelled
deriving DecidableEq

structure Reward where
  id : ℕ
  key : Key
  solver : Address
  amount : ℕ
  vestH : ℕ
  status : RewardStatus
  compensation : Bool
deriving DecidableEq

structure Admission where
  k : ℕ
  key : Key
  retired : Bool
deriving DecidableEq

structure RewardPayment where
  rewardId : ℕ
  solver : Address
  amount : ℕ
deriving DecidableEq

/-- The virtual reference worker. -/
structure FuelClock where
  fuel : ℕ := 0
  due : ℕ := 0
  count : ℕ := 0
deriving DecidableEq

/-- Advance the clock by a job; the height the job is due at. -/
def FuelClock.push (self : FuelClock) (p : M3Config) (cap avail fuel : ℕ) :
    Except Error (ℕ × FuelClock) := do
  ensure (cap ≠ 0 ∧ p.rate ≠ 0) (.format "zero clock capacity")
  let minimum ← okOr (checkedAdd 64 avail p.k) .overflow
  let f ← okOr (checkedAdd 128 (max self.fuel (avail * p.rate)) p.costFixed) .overflow
  let f ← okOr (checkedAdd 128 f fuel) .overflow
  let quotient := f / p.rate + if f % p.rate ≠ 0 then 1 else 0
  ensure (quotient < 2 ^ 64) .overflow
  let d := max (max quotient minimum) self.due
  if d = self.due ∧ cap ≤ self.count then do
    let due ← okOr (checkedAdd 64 d 1) .overflow
    pure (due, { fuel := f, due, count := 1 })
  else if d = self.due then do
    let count ← okOr (checkedAdd 64 self.count 1) .overflow
    pure (d, { fuel := f, due := d, count })
  else
    pure (d, { fuel := f, due := d, count := 1 })

structure M3State where
  queue : List Job := []
  nextApplied : ℕ := 0
  clock : FuelClock := {}
  results : ExtTreeMap Key VerdictRecord lexOrd.compare := ∅
  rewards : ExtTreeMap ℕ Reward := ∅
  admissions : ExtTreeMap ℕ Admission := ∅
  pendingRechecks : ExtTreeSet Key lexOrd.compare := ∅
  forkHistory : List ForkRow := []
  quarantineVoids : ExtTreeSet Key lexOrd.compare := ∅

/-- The consensus state. -/
structure State where
  height : ℕ
  config : Config
  l2GasLimit : ℕ
  root : Hash
  candidates : ExtTreeMap Key Candidate lexOrd.compare
  pools : ExtTreeMap ℕ Pool
  rounds : ExtTreeMap (ℕ × ℕ) Round lexOrd.compare
  slots : List Slot
  problems : ExtTreeMap Hash Problem
  m3 : Option M3State
  opened : ExtTreeMap Hash Key
  repose : List (List Problem)

/-! ## Events -/

inductive Event
  | item (transactionIndex logIndex : ℕ) (kind code : UInt8)
  | status (key : Key) (value : Status)
  | round (slot number : ℕ) (event : UInt8) (poolSeq index : ℕ) (p : Option Hash)
  | purge (id : Hash) (count : ℕ)
  | verdict (v : IndexedVerdict)
  | reward (r : Reward) (event : UInt8)
  | admission (a : Admission) (event : UInt8)
  /-- The bytes of the activation record. -/
  | fork (record : Bytes)

/-- The bytes an event adds to the stream. -/
def Event.bytes : Event → Bytes
  | .item tx log kind code => 1 :: (beBytes 8 tx ++ beBytes 8 log ++ [kind, code])
  | .status key value => 2 :: (wordBytes key.1 ++ wordBytes key.2 ++ [value.code])
  | .round slot number event poolSeq index p =>
    3 :: (beBytes 1 slot ++ beBytes 4 number ++ event :: (beBytes 4 poolSeq ++ beBytes 4 index
      ++ wordBytes (p.getD 0)))
  | .purge id count => 4 :: (wordBytes id ++ beBytes 4 count)
  | .verdict v => 5 :: (beBytes 8 v.queueIndex.toNat ++ v.record.bytes)
  | .reward r event =>
    6 :: (beBytes 8 r.id ++ wordBytes r.key.1 ++ wordBytes r.key.2 ++ wordBytes r.solver
      ++ beBytes 16 r.amount ++ beBytes 8 r.vestH ++ [event])
  | .admission a event => 7 :: (beBytes 8 a.k ++ wordBytes a.key.1 ++ wordBytes a.key.2 ++ [event])
  | .fork record => 8 :: record

/-- The copy a step works on, and the events so far. -/
structure Draft extends State where
  events : List Event

namespace Draft

def emit (self : Draft) (e : Event) : Draft := { self with events := self.events ++ [e] }

/-- Look a key up that the source indexes with. -/
def expect {α : Type} (x : Option α) : Except FoldError α := okOr x .panicked

/-- `self.m3` where the profile is required. -/
def m3State (self : Draft) : Except FoldError M3State := okOr self.m3 (.m3 .profileRequired)

end Draft

end Derivation
