import Boole.Library.Accounts
import Boole.Native.Envelope

/-!
# Native/Ledger — the native coin's accounting kernel

`boole-core`'s `native_ledger.rs`.  A block unlocks the rewards that mature at its height, runs its
transfers in order, and credits the scheduled issuance, which stays locked for a fixed number of
blocks.  The mutations of the source are state passing; **an operation that fails returns no
ledger**, as the source works on a clone and drops it.

Amounts are `u128` and heights `u64`: every addition of the source is a checked one, and so it is
here.
-/

open Std Library Library.Json

namespace Native

/-! ## Errors -/

inductive NativeLedgerError
  | invalidSchedule
  | invalidNetwork
  | invalidPublicKey
  | unexpectedHeight (expected actual : ℕ)
  | overflow
  | invalidTransfer
  | invalidSignature
  | wrongNetwork
  | senderMismatch
  | zeroAmount
  | feeBelowMinimum
  | expired
  | unexpectedNonce (expected actual : ℕ)
  | insufficientBalance
  | inconsistentAccounting
deriving DecidableEq

def NativeLedgerError.message : NativeLedgerError → String
  | .invalidSchedule => "native ledger: invalid emission schedule"
  | .invalidNetwork => "native ledger: invalid network id"
  | .invalidPublicKey => "native ledger: invalid public key"
  | .unexpectedHeight expected actual =>
    "native ledger: expected height " ++ toString expected ++ ", got " ++ toString actual
  | .overflow => "native ledger: arithmetic overflow"
  | .invalidTransfer => "native ledger: malformed transfer"
  | .invalidSignature => "native ledger: transfer signature is invalid"
  | .wrongNetwork => "native ledger: transfer is not bound to this network"
  | .senderMismatch => "native ledger: transfer signer is not the sender"
  | .zeroAmount => "native ledger: amount must be nonzero"
  | .feeBelowMinimum => "native ledger: fee is below the network minimum"
  | .expired => "native ledger: transfer expired"
  | .unexpectedNonce expected actual =>
    "native ledger: expected nonce " ++ toString expected ++ ", got " ++ toString actual
  | .insufficientBalance => "native ledger: insufficient balance for amount plus fee"
  | .inconsistentAccounting => "native ledger: inconsistent canonical accounting"

/-! ## Transfers -/

def nativeTransferSchema : String := "boole.transfer.v1"

/-- The signed payload of a transfer; integers are decimal text.  `sender` and
`recipient` are the source's `from` and `to`. -/
structure NativeTransferPayload where
  schema : String
  sender : String
  recipient : String
  amount : String
  fee : String
  nonce : String
  validBefore : String
deriving DecidableEq

variable (p : NativeTransferPayload)

/-- The payload as it is serialized, in the order of its fields. -/
def NativeTransferPayload.toJson : Value :=
  .object [("schema", .string p.schema), ("from", .string p.sender), ("to", .string p.recipient),
    ("amount", .string p.amount), ("fee", .string p.fee), ("nonce", .string p.nonce),
    ("validBefore", .string p.validBefore)]

/-- `serde_json::to_value`: the map of a JSON object keeps its keys in order. -/
def NativeTransferPayload.toValue : Value := p.toJson.sortKeys

/-- The text of a field of an object. -/
def fieldText (fields : List (String × Value)) (key : String) : Option String :=
  match fields.lookup key with
  | some (.string s) => some s
  | _ => none

/-- `serde_json::from_value`: every field once and no other field, or the seven values in order. -/
def NativeTransferPayload.fromValue : Value → Option NativeTransferPayload
  | .object fields =>
    if (fields.map Prod.fst).Nodup ∧ ∀ key ∈ fields.map Prod.fst,
        key ∈ ["schema", "from", "to", "amount", "fee", "nonce", "validBefore"] then do
      return {
        schema := ← fieldText fields "schema"
        sender := ← fieldText fields "from"
        recipient := ← fieldText fields "to"
        amount := ← fieldText fields "amount"
        fee := ← fieldText fields "fee"
        nonce := ← fieldText fields "nonce"
        validBefore := ← fieldText fields "validBefore" }
    else none
  | .array [.string schema, .string sender, .string recipient, .string amount, .string fee,
      .string nonce, .string validBefore] =>
    some { schema, sender, recipient, amount, fee, nonce, validBefore }
  | _ => none

@[simp] theorem NativeTransferPayload.fromValue_toValue :
    NativeTransferPayload.fromValue p.toValue = some p := rfl

/-- The parsed fields of a transfer. -/
structure NativeTransferFields where
  sender : String
  recipient : String
  amount : ℕ
  fee : ℕ
  nonce : ℕ
  validBefore : ℕ
deriving DecidableEq

/-- Canonical decimal text of an integer of `w` bits. -/
def decimal (w : ℕ) (value : String) : Except NativeLedgerError ℕ := do
  ensure (value ≠ "" ∧ ¬(1 < value.utf8ByteSize ∧ value.toList.head? = some '0')
    ∧ value.toList.all Char.isDigit) .invalidTransfer
  let n := Nat.ofDigitChars 10 value.toList 0
  ensure (n < 2 ^ w) .invalidTransfer
  pure n

/-- `Hex32::from_hex(pk).map_err(..)`: a public key is 64 lower-case hexadecimal characters. -/
def checkPublicKey (pk : String) : Except NativeLedgerError Hex32 :=
  mapErr (fun _ => .invalidPublicKey) (Hex32.fromHex pk)

variable (cr : Crypto)

def validateNativeTransfer (envelope : SignedEnvelope) (networkId : String) (minimumFee : ℕ) :
    Except NativeLedgerError NativeTransferFields := do
  ensure (envelope.schema = signedEnvelopeSchema) .invalidTransfer
  ensure (envelope.networkId = some networkId) .wrongNetwork
  let payload ← okOr (NativeTransferPayload.fromValue envelope.payload) .invalidTransfer
  ensure (payload.schema = nativeTransferSchema) .invalidTransfer
  ensure (payload.sender = envelope.pk) .senderMismatch
  let _ ← checkPublicKey payload.sender
  let _ ← checkPublicKey payload.recipient
  let verified ← mapErr (fun _ => .invalidSignature) (envelope.verifyStrict cr)
  ensure (verified = true) .invalidSignature
  let amount ← decimal 128 payload.amount
  let fee ← decimal 128 payload.fee
  let nonce ← decimal 64 payload.nonce
  let validBefore ← decimal 64 payload.validBefore
  ensure (amount ≠ 0) .zeroAmount
  ensure (minimumFee ≤ fee) .feeBelowMinimum
  pure { sender := payload.sender, recipient := payload.recipient, amount, fee, nonce, validBefore }

/-! ## The emission schedule -/

/-- A schedule that was validated when it was built. -/
structure EmissionSchedule where
  totalSupply : ℕ
  initialReward : ℕ
  halvingEpoch : ℕ
  supply_ne : totalSupply ≠ 0
  supply_lt : totalSupply < 2 ^ 128
  reward_ne : initialReward ≠ 0
  reward_lt : initialReward < 2 ^ 128
  epoch_ne : halvingEpoch ≠ 0
deriving DecidableEq

def EmissionSchedule.new (totalSupply initialReward : BitVec 128) (halvingEpoch : UInt64) :
    Except NativeLedgerError EmissionSchedule :=
  if h : totalSupply.toNat = 0 ∨ initialReward.toNat = 0 ∨ halvingEpoch.toNat = 0 then
    .error .invalidSchedule
  else
    .ok {
      totalSupply := totalSupply.toNat
      initialReward := initialReward.toNat
      halvingEpoch := halvingEpoch.toNat
      supply_ne := fun h' => h (.inl h')
      supply_lt := totalSupply.isLt
      reward_ne := fun h' => h (.inr (.inl h'))
      reward_lt := initialReward.isLt
      epoch_ne := fun h' => h (.inr (.inr h')) }

/-- What the block at `height` issues, when `issued` has been issued before it. -/
def EmissionSchedule.emission (self : EmissionSchedule) (height issued : ℕ) :
    Except NativeLedgerError ℕ := do
  let epoch := height / self.halvingEpoch
  let reward := if epoch < 128 then self.initialReward >>> epoch else 0
  let remaining ← okOr (checkedSub self.totalSupply issued) .overflow
  pure (min reward remaining)

/-! ## The ledger -/

structure NativeLedger where
  networkId : String
  schedule : EmissionSchedule
  height : ℕ
  issued : ℕ
  balances : ExtTreeMap String ℕ
  nextNonces : ExtTreeMap String ℕ
  minimumFee : ℕ
  rewardMaturity : ℕ
  lockedBalances : ExtTreeMap String ℕ
  pendingRewards : ExtTreeMap ℕ (String × ℕ)
deriving DecidableEq

variable (self : NativeLedger)

namespace NativeLedger

/-- Genesis has height zero, no issuance and no balances. -/
def newWithRules (networkId : String) (schedule : EmissionSchedule) (minimumFee : ℕ)
    (rewardMaturity : ℕ) : Except NativeLedgerError NativeLedger := do
  ensure (networkId ≠ "" ∧ networkId.utf8ByteSize ≤ 128 ∧ networkId.toList.all fun c =>
    c.isAlphanum || c == '-' || c == '_' || c == '.') .invalidNetwork
  pure {
    networkId, schedule, minimumFee, rewardMaturity
    height := 0
    issued := 0
    balances := ∅
    nextNonces := ∅
    lockedBalances := ∅
    pendingRewards := ∅ }

def new (networkId : String) (schedule : EmissionSchedule) :
    Except NativeLedgerError NativeLedger :=
  newWithRules networkId schedule 0 0

variable (pk : String)

def balance : ℕ := balanceOf self.balances pk

def lockedBalance : ℕ := balanceOf self.lockedBalances pk

/-- A subtraction of `u128`: the source's debug build stops where this one is cut off. -/
def spendableBalance : ℕ :=
  self.balance pk - self.lockedBalance pk

def nextNonce : ℕ := balanceOf self.nextNonces pk

/-! ### Rewards that mature -/

/-- One matured reward leaves the queue and the locked balance of its key. -/
def unlockReward (unlockHeight : ℕ) (pk : String) (amount : ℕ) :
    Except NativeLedgerError NativeLedger := do
  let remaining ← okOr (checkedSub (self.lockedBalance pk) amount) .overflow
  pure { self with
    pendingRewards := self.pendingRewards.erase unlockHeight
    lockedBalances := setOrClose self.lockedBalances pk remaining }

/-- The source's `while` loop; every turn removes an entry of the queue, so `fuel` counts them. -/
def unlockLoop (height : ℕ) : ℕ → NativeLedger → Except NativeLedgerError NativeLedger
  | 0, self => pure self
  | fuel + 1, self =>
    match firstKeyValue self.pendingRewards with
    | some (unlockHeight, pk, amount) =>
      if unlockHeight ≤ height then do
        unlockLoop height fuel (← self.unlockReward unlockHeight pk amount)
      else pure self
    | none => pure self

def unlockRewards (height : ℕ) : Except NativeLedgerError NativeLedger :=
  unlockLoop height self.pendingRewards.size self

/-! ### Transfers -/

structure PreparedTransfer where
  balances : ExtTreeMap String ℕ
  sender : String
  nextNonce : ℕ
deriving DecidableEq

/-- Credit an account in the staged balances, on top of what is staged for it already. -/
def stageCredit (balances : ExtTreeMap String ℕ) (pk : String) (amount : ℕ) :
    Except NativeLedgerError (ExtTreeMap String ℕ) :=
  if amount ≠ 0 then do
    let balance ← okOr (checkedAdd 128 ((balances[pk]?).getD (self.balance pk)) amount) .overflow
    pure (balances.insert pk balance)
  else pure balances

/-- The fee goes to the producer of the block, when there is one. -/
def stageFee (balances : ExtTreeMap String ℕ) (rewardPk : Option String) (fee : ℕ) :
    Except NativeLedgerError (ExtTreeMap String ℕ) :=
  match rewardPk with
  | some rewardPk => self.stageCredit balances rewardPk fee
  | none => pure balances

def prepareTransfer (self : NativeLedger) (height : ℕ) (rewardPk : Option String)
    (envelope : SignedEnvelope) : Except NativeLedgerError PreparedTransfer := do
  let payload ← validateNativeTransfer cr envelope self.networkId self.minimumFee
  ensure (height ≤ payload.validBefore) .expired
  let expected := self.nextNonce payload.sender
  ensure (payload.nonce = expected) (.unexpectedNonce expected payload.nonce)
  let debit ← okOr (checkedAdd 128 payload.amount payload.fee) .overflow
  ensure (debit ≤ self.spendableBalance payload.sender) .insufficientBalance
  let remaining ← okOr (checkedSub (self.balance payload.sender) debit) .insufficientBalance
  let nextNonce ← okOr (checkedAdd 64 payload.nonce 1) .overflow
  let balances := (∅ : ExtTreeMap String ℕ).insert payload.sender remaining
  let balances ← self.stageCredit balances payload.recipient payload.amount
  let balances ← self.stageFee balances rewardPk payload.fee
  pure { balances, sender := payload.sender, nextNonce }

def commitTransfer (prepared : PreparedTransfer) : NativeLedger :=
  { self with
    balances := overlay self.balances prepared.balances
    nextNonces := self.nextNonces.insert prepared.sender prepared.nextNonce }

def credit (amount : ℕ) : Except NativeLedgerError NativeLedger :=
  if amount ≠ 0 then do
    let balance ← okOr (checkedAdd 128 (self.balance pk) amount) .overflow
    pure { self with balances := self.balances.insert pk balance }
  else pure self

/-! ### Undo records -/

end NativeLedger

/-- The inverse of one verified transition: what every entry it changed was before. -/
structure NativeLedgerUndo where
  height : ℕ
  issued : ℕ
  balances : ExtTreeMap String (Option ℕ)
  nextNonces : ExtTreeMap String (Option ℕ)
  lockedBalances : ExtTreeMap String (Option ℕ)
  pendingRewards : ExtTreeMap ℕ (Option (String × ℕ))
deriving DecidableEq

namespace NativeLedgerUndo

def new (ledger : NativeLedger) : NativeLedgerUndo :=
  { height := ledger.height, issued := ledger.issued, balances := ∅, nextNonces := ∅,
    lockedBalances := ∅, pendingRewards := ∅ }

variable (self : NativeLedgerUndo)

/-- Remember a balance, unless an earlier step of the block did. -/
def balance (ledger : NativeLedger) (pk : String) : NativeLedgerUndo :=
  { self with balances := self.balances.insertIfNew pk ledger.balances[pk]? }

def lockedBalance (ledger : NativeLedger) (pk : String) : NativeLedgerUndo :=
  { self with lockedBalances := self.lockedBalances.insertIfNew pk ledger.lockedBalances[pk]? }

def nextNonce (ledger : NativeLedger) (pk : String) : NativeLedgerUndo :=
  { self with nextNonces := self.nextNonces.insertIfNew pk ledger.nextNonces[pk]? }

def pendingReward (ledger : NativeLedger) (unlockHeight : ℕ) : NativeLedgerUndo :=
  { self with
    pendingRewards :=
      self.pendingRewards.insertIfNew unlockHeight ledger.pendingRewards[unlockHeight]? }

/-- Remember one reward that matures, and the lock it is part of. -/
def maturedReward (ledger : NativeLedger) (self : NativeLedgerUndo) (e : ℕ × String × ℕ) :
    NativeLedgerUndo :=
  let self := self.lockedBalance ledger e.2.1
  { self with pendingRewards := self.pendingRewards.insert e.1 (some e.2) }

/-- Remember the rewards that mature at `height`. -/
def matured (ledger : NativeLedger) (height : ℕ) : NativeLedgerUndo :=
  (ledger.pendingRewards.toList.filter fun e => e.1 ≤ height).foldl (maturedReward ledger) self

end NativeLedgerUndo

namespace NativeLedger

/-! ### Blocks -/

/-- One turn of the loop over a block's transfers. -/
def applyTransfer (height : ℕ) (rewardPk : String) (state : NativeLedger × NativeLedgerUndo)
    (transfer : SignedEnvelope) : Except NativeLedgerError (NativeLedger × NativeLedgerUndo) := do
  let (self, undo) := state
  let prepared ← self.prepareTransfer cr height (some rewardPk) transfer
  let undo := prepared.balances.keys.foldl (fun undo pk => undo.balance self pk) undo
  let undo := undo.nextNonce self prepared.sender
  pure (self.commitTransfer prepared, undo)

/-- Lock the block's issuance until it matures. -/
def lockEmission (height : ℕ) (rewardPk : String) (emission : ℕ) (undo : NativeLedgerUndo) :
    Except NativeLedgerError (NativeLedger × NativeLedgerUndo) :=
  if emission ≠ 0 ∧ self.rewardMaturity ≠ 0 then do
    let unlockHeight ← okOr (checkedAdd 64 height self.rewardMaturity) .overflow
    let locked ← okOr (checkedAdd 128 (self.lockedBalance rewardPk) emission) .overflow
    let undo := (undo.lockedBalance self rewardPk).pendingReward self unlockHeight
    pure ({ self with
      lockedBalances := self.lockedBalances.insert rewardPk locked
      pendingRewards := self.pendingRewards.insert unlockHeight (rewardPk, emission) }, undo)
  else pure (self, undo)

/-- Credit the block's issuance, lock it and count it. -/
def applyEmission (height : ℕ) (rewardPk : String) (undo : NativeLedgerUndo) :
    Except NativeLedgerError (NativeLedger × NativeLedgerUndo) := do
  let emission ← self.schedule.emission height self.issued
  let undo := if emission ≠ 0 then undo.balance self rewardPk else undo
  let self ← self.credit rewardPk emission
  let (self, undo) ← self.lockEmission height rewardPk emission undo
  let issued ← okOr (checkedAdd 128 self.issued emission) .overflow
  pure ({ self with issued := issued, height := height }, undo)

variable (self : NativeLedger)

def applyBlockInner (height : ℕ) (rewardPk : String) (transfers : List SignedEnvelope)
    (undo : NativeLedgerUndo) : Except NativeLedgerError (NativeLedger × NativeLedgerUndo) := do
  let expected ← okOr (checkedAdd 64 self.height 1) .overflow
  ensure (height = expected) (.unexpectedHeight expected height)
  let _ ← checkPublicKey rewardPk
  let undo := undo.matured self height
  let self ← self.unlockRewards height
  let (self, undo) ← transfers.foldlM (applyTransfer cr height rewardPk) (self, undo)
  self.applyEmission height rewardPk undo

def prepareBlock (height : ℕ) (rewardPk : String) (transfers : List SignedEnvelope) :
    Except NativeLedgerError (NativeLedger × NativeLedgerUndo) :=
  self.applyBlockInner cr height rewardPk transfers (NativeLedgerUndo.new self)

def applyBlock (height : ℕ) (rewardPk : String) (transfers : List SignedEnvelope) :
    Except NativeLedgerError NativeLedger := do
  let (staged, _) ← self.prepareBlock cr height rewardPk transfers
  pure staged

def undoBlock (undo : NativeLedgerUndo) : Except NativeLedgerError NativeLedger := do
  let expected ← okOr (checkedAdd 64 undo.height 1) .overflow
  ensure (self.height = expected) (.unexpectedHeight expected self.height)
  pure { self with
    balances := restore self.balances undo.balances
    nextNonces := restore self.nextNonces undo.nextNonces
    lockedBalances := restore self.lockedBalances undo.lockedBalances
    pendingRewards := restore self.pendingRewards undo.pendingRewards
    height := undo.height
    issued := undo.issued }

end NativeLedger

/-! ## The pending view -/

/-- Reservations for the next block: the ledger with that block's rewards unlocked. -/
structure NativePendingView where
  ledger : NativeLedger
  height : ℕ
deriving DecidableEq

def NativeLedger.pendingView : Except NativeLedgerError NativePendingView := do
  let height ← okOr (checkedAdd 64 self.height 1) .overflow
  let ledger ← self.unlockRewards height
  pure { ledger, height }

/-- `prepare` and `commit`: fees are reserved, not credited to an unknown producer. -/
def NativePendingView.push (self : NativePendingView) (envelope : SignedEnvelope) :
    Except NativeLedgerError NativePendingView := do
  let prepared ← self.ledger.prepareTransfer cr self.height none envelope
  pure { self with ledger := self.ledger.commitTransfer prepared }

/-! ## The audit -/

structure NativeLedgerAudit where
  issued : ℕ
  supplyCap : ℕ
  totalBalance : ℕ
  totalLocked : ℕ
  totalSpendable : ℕ
  balanceEntries : ℕ
  nonceEntries : ℕ
  pendingRewardEntries : ℕ
deriving DecidableEq

namespace NativeLedger

/-- Add one pending reward to the locks it accounts for. -/
def expectLock (locks : ExtTreeMap String ℕ) (e : ℕ × String × ℕ) :
    Except NativeLedgerError (ExtTreeMap String ℕ) := do
  let (unlockHeight, pk, amount) := e
  ensure (¬(unlockHeight ≤ self.height ∨ amount = 0 ∨
    ¬(checkedSub unlockHeight self.rewardMaturity).any fun created =>
      0 < created ∧ created ≤ self.height)) .inconsistentAccounting
  let expected ← okOr (checkedAdd 128 (balanceOf locks pk) amount) .overflow
  pure (locks.insert pk expected)

/-- Add one locked balance to their total. -/
def addLock (sum : ℕ) (e : String × ℕ) : Except NativeLedgerError ℕ := do
  ensure (¬(e.2 = 0 ∨ self.balance e.1 < e.2)) .inconsistentAccounting
  okOr (checkedAdd 128 sum e.2) .overflow

def audit : Except NativeLedgerError NativeLedgerAudit := do
  let totalBalance ← self.balances.toList.foldlM
    (fun sum e => okOr (checkedAdd 128 sum e.2) .overflow) 0
  ensure (totalBalance = self.issued ∧ self.issued ≤ self.schedule.totalSupply)
    .inconsistentAccounting
  let expectedLocks ← self.pendingRewards.toList.foldlM self.expectLock ∅
  ensure (self.lockedBalances.toList = expectedLocks.toList) .inconsistentAccounting
  let totalLocked ← self.lockedBalances.toList.foldlM self.addLock 0
  let totalSpendable ← okOr (checkedSub totalBalance totalLocked) .inconsistentAccounting
  pure {
    issued := self.issued
    supplyCap := self.schedule.totalSupply
    totalBalance, totalLocked, totalSpendable
    balanceEntries := self.balances.size
    nonceEntries := self.nextNonces.size
    pendingRewardEntries := self.pendingRewards.size }

end NativeLedger

end Native
