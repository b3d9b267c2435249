import Boole.Derivation.Config

/-!
# Derivation/Wire — verdict records and the fork table

The free inputs of the M3 fold: verdict records, eighty bytes each, and a table of fork rows, of
which the fold commits the epoch, the gate rules, the kind and a digest of the list.
-/

open Library

namespace Derivation

/-- An M3 error. -/
inductive Error
  | pastForkChanged
  | pending (queueIndex height : ℕ)
  | profileRequired
  | overflow
  | format (message : String)
deriving DecidableEq

/-! ## Verdict records -/

inductive RecordKind
  | verdict
  | recheck
deriving DecidableEq

def RecordKind.code : RecordKind → UInt8
  | .verdict => 1
  | .recheck => 2

inductive Outcome
  | accept
  | reject
  | void
deriving DecidableEq

def Outcome.code : Outcome → UInt8
  | .accept => 1
  | .reject => 2
  | .void => 3

def kernelFault : UInt16 := 0x0306

def packageInvalid : UInt16 := 0x0801

def quarantineVoid : UInt16 := 0x0802

def fuelCapInvalid : UInt16 := 0x0803

def generatorUnavailable : UInt16 := 0x0804

/-- The reasons that may go with an outcome. -/
def ReasonValid : Outcome → UInt16 → Prop
  | .accept, reason => reason = 0
  | .reject, reason => 1 ≤ reason.toNat / 256 ∧ reason.toNat / 256 ≤ 3
  | .void, reason =>
    reason ∈ [packageInvalid, quarantineVoid, fuelCapInvalid, generatorUnavailable]

instance : ∀ (outcome : Outcome) (reason : UInt16), Decidable (ReasonValid outcome reason)
  | .accept, _ => inferInstanceAs (Decidable (_ = _))
  | .reject, _ => inferInstanceAs (Decidable (_ ∧ _))
  | .void, _ => inferInstanceAs (Decidable (_ ∈ _))

def validateReason (outcome : Outcome) (reason : UInt16) : Except Error Unit :=
  ensure (ReasonValid outcome reason) (.format "outcome/reason")

structure VerdictRecord where
  kind : RecordKind
  commitHash : Hash
  outcome : Outcome
  reason : UInt16
  gateEpoch : UInt32
  fuel : UInt64
  vstmtDigest : Hash
deriving DecidableEq

namespace VerdictRecord

/-- The eighty bytes of a record. -/
def bytes (self : VerdictRecord) : Bytes :=
  self.kind.code :: wordBytes self.commitHash ++ self.outcome.code ::
    (beBytes 2 self.reason.toNat ++ beBytes 4 self.gateEpoch.toNat ++ beBytes 8 self.fuel.toNat
      ++ wordBytes self.vstmtDigest)

def encode (self : VerdictRecord) : Except Error Bytes := do
  validateReason self.outcome self.reason
  pure self.bytes

end VerdictRecord

structure IndexedVerdict where
  queueIndex : UInt64
  record : VerdictRecord
deriving DecidableEq

/-! ## Forks -/

inductive ForkKind
  | genesis
  | kernelFix
  | quarantine
  | policy
deriving DecidableEq

def ForkKind.code : ForkKind → UInt8
  | .genesis => 0
  | .kernelFix => 1
  | .quarantine => 2
  | .policy => 3

inductive Disposition
  | recheck
  | void
deriving DecidableEq

def Disposition.code : Disposition → UInt8
  | .recheck => 1
  | .void => 2

structure ForkItem where
  commitHash : Hash
  disposition : Disposition
deriving DecidableEq

structure ForkRow where
  epoch : ℕ
  height : ℕ
  gateRuleDigest : Hash
  kind : ForkKind
  list : List ForkItem
deriving DecidableEq

structure ForkTable where
  rows : List ForkRow
deriving DecidableEq

namespace ForkRow

/-- What the digest of a list is taken of. -/
def listInput (self : ForkRow) : List Bytes :=
  [ascii "BOOLE-M3/FORK-LIST/v1", beBytes 4 self.list.length,
    self.list.flatMap fun item => wordBytes item.commitHash ++ [item.disposition.code]]

def listDigest (cr : Crypto) (self : ForkRow) : Except Error Hash := do
  ensure ((self.kind = .quarantine ↔ self.list ≠ []) ∧ ascending (self.list.map (·.commitHash)))
    (.format "noncanonical fork list")
  ensure (self.list.length < 2 ^ 32) .overflow
  pure (sha cr self.listInput)

/-- The sixty-nine bytes an activation commits. -/
def activationRecord (cr : Crypto) (self : ForkRow) : Except Error Bytes := do
  let digest ← self.listDigest cr
  pure (beBytes 4 self.epoch ++ wordBytes self.gateRuleDigest ++ self.kind.code ::
    wordBytes digest)

end ForkRow

namespace ForkTable

def validate (cr : Crypto) (self : ForkTable) (c : Config) : Except ℕ Unit := do
  let p ← okOr c.m3 14
  let first ← okOr self.rows.head? 14
  ensure (first.epoch = 0 ∧ first.height = 0 ∧ first.kind = .genesis
    ∧ first.gateRuleDigest = p.genesisGateRuleDigest) 14
  ensure (∀ x ∈ self.rows.zipIdx, x.2 < 2 ^ 32 ∧ x.2 = x.1.epoch
    ∧ (x.1.listDigest cr).isOk) 14
  ensure (self.rows.IsChain fun above row => above.height < row.height ∧ row.kind ≠ .genesis) 14

def epochAt (self : ForkTable) (height : ℕ) : Option ForkRow :=
  self.rows.reverse.find? fun row => row.height ≤ height

def jobEpoch (self : ForkTable) (avail k : ℕ) : Except Error ℕ := do
  let height ← okOr (checkedAdd 64 avail k) .overflow
  let row ← okOr (self.epochAt height) (.format "missing epoch")
  pure row.epoch

end ForkTable

end Derivation
