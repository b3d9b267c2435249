import Boole.Library.Rlp
import Boole.Library.Hex
import Boole.Derivation.Step

/-!
# Derivation/Deposits — the system transactions of a block

Every L2 block starts with deposits that no user signs: the L1 information, the root of the fold, the
verdicts that were applied and the rewards that vested.  A deposit is the byte `7e` and an RLP list
of eight fields; its source hash ties it to the L1 block.
-/

open Library

namespace Derivation

/-- An error of the derivation. -/
inductive InputError
  | m2 (e : FoldError)
  | height
  | field (name : String)
  | log
  | duplicateLog
  | extraData
  | timestampOverflow
  | systemGasBudget
  | l1Link
deriving DecidableEq

/-! ## Hexadecimal texts -/

def hexBytes (s : String) (field : String) : Except InputError Bytes :=
  okOr ((strip0x s).bind hexDecode) (.field field)

/-- The bytes as hexadecimal digits. -/
def hexDigits (b : Bytes) : List Char := b.flatMap fun x => toHex 2 x.toNat

def hexString (b : Bytes) : String := String.ofList ('0' :: 'x' :: hexDigits b)

def fixedBytes (s : String) (len : ℕ) (field : String) : Except InputError Bytes := do
  let b ← hexBytes s field
  ensure (b.length = len) (.field field)
  pure b

/-! ## Deposits -/

def depositor : String := "0xdeaddeaddeaddeaddeaddeaddeaddeaddead0001"

def l1BlockAddress : String := "0x4200000000000000000000000000000000000015"

def m2RootSink : String := "0x42000000000000000000000000000000000000b2"

/-- A deposit as a text, from its encoded fields. -/
def depositText (fields : List Bytes) : String := hexString (0x7e :: Rlp.list fields)

variable (cr : Crypto)

/-- The source hash of the deposit with an index. -/
def sourceHash (domain : String) (origin : Bytes) (index : ℕ) : Hash :=
  sha cr [ascii domain, origin, beBytes 32 index]

def deposit (domain : String) (l1 : L1Block) (index : ℕ) (target : Address) (amount gas : ℕ)
    (data : Bytes) : Except Error String := do
  let origin ← mapErr (fun _ => .format "origin") (hexBytes l1.hash "origin")
  ensure (origin.length = 32) (.format "origin")
  let sender ← mapErr (fun _ => .format "depositor") (hexBytes depositor "depositor")
  pure (depositText [Rlp.bytes (wordBytes (sourceHash cr domain origin index)), Rlp.bytes sender,
    Rlp.bytes (wordBytes target), Rlp.bytes (Rlp.minimal 16 amount), Rlp.bytes (Rlp.minimal 16 amount),
    Rlp.uint gas, Rlp.uint 0, Rlp.bytes data])

/-- A list cut into pieces of `n` elements; the last may be shorter. -/
def chunks {α : Type} (n : ℕ) (l : List α) : List (List α) :=
  (List.range ((l.length + n - 1) / n)).map fun j => (l.drop (j * n)).take n

/-- The deposit with number `j` of `count`. -/
def verdictDeposit (c : Config) (p : M3Config) (l1 : L1Block) (count : ℕ)
    (batch : List IndexedVerdict × ℕ) : Except Error String := do
  let encoded ← batch.1.mapM fun item => item.record.encode
  let first := (batch.1.head?.map (·.queueIndex.toNat)).getD 0
  deposit cr "BOOLE-S1/VERDICT" l1 batch.2 p.verdictSink 0 c.verdictGas
    (ascii "m3vd" ++ beBytes 8 l1.number ++ [UInt8.ofNat batch.2, UInt8.ofNat count]
      ++ beBytes 8 first ++ beBytes 2 batch.1.length ++ encoded.flatten)

def verdictDeposits (c : Config) (l1 : L1Block) (records : List IndexedVerdict) :
    Except Error (List String) := do
  let p ← okOr c.m3 .profileRequired
  match records with
  | [] => pure []
  | first :: _ => do
    let per := c.vPerDeposit
    ensure (per ≠ 0 ∧ per ≤ 2 ^ 16 - 1) (.format "records per deposit")
    let count := (records.length + per - 1) / per
    ensure (count ≤ c.qMax ∧ count ≤ 2 ^ 8 - 1) (.format "deposit count")
    ensure (∀ x ∈ records.zipIdx, checkedAdd 64 first.queueIndex.toNat x.2 =
      some x.1.queueIndex.toNat) (.format "noncontiguous indices")
    (chunks per records).zipIdx.mapM (verdictDeposit cr c p l1 count)

def rewardDeposit (c : Config) (l1 : L1Block) (payment : RewardPayment) : Except Error String := do
  let p ← okOr c.m3 .profileRequired
  ensure (p.mintEnabled ∧ payment.amount ≠ 0) (.format "reward mint disabled or zero")
  deposit cr "BOOLE-S1/REWARD" l1 payment.rewardId payment.solver payment.amount p.rewardGas []

/-! ## The encoding of the fields -/

/-- **Trees of byte strings and what is decoded are the same:** a tree that is not too deep is read
back, and what was read is encoded to the bytes it was read from, each item where it says it is. -/
theorem rlp_round_trip :
    (∀ t : Rlp.Tree, t.height ≤ 9 → t.encode.length < 2 ^ 64 →
      ∃ x, Rlp.decode t.encode = .ok x ∧ x.tree = t) ∧
    ∀ raw x, Rlp.decode raw = .ok x → x.tree.encode = raw ∧ ∀ y ∈ x.parts, Rlp.Spans raw y := by
  refine ⟨fun t hheight hfits => ?_, fun raw x h => ?_⟩
  · exact ⟨t.item 0, Rlp.decode_eq_ok.mpr ⟨t, hheight, hfits, rfl, rfl⟩, t.tree_item 0⟩
  · obtain ⟨t, -, -, rfl, rfl⟩ := Rlp.decode_eq_ok.mp h
    refine ⟨congrArg Rlp.Tree.encode (t.tree_item 0), ?_⟩
    simpa using t.spans [] []

/-- A list with a string and an empty list in it. -/
theorem rlp_round_trip_nested :
    ∃ x, Rlp.decode [0xc3, 0x81, 0xff, 0xc0] = .ok x ∧ x.tree = .list [.string [0xff], .list []] :=
  rlp_round_trip.1 (.list [.string [0xff], .list []]) (by decide) (by decide)

/-! ## The deposits of every block -/

/-- The data of the L1 information. -/
def l1InfoData (l1 : L1Block) (fee origin : Bytes) : Bytes :=
  [0x3d, 0xb6, 0xbe, 0x2b] ++ List.replicate 16 0 ++ beBytes 8 l1.timestamp ++ beBytes 8 l1.number
    ++ fee ++ List.replicate 32 0 ++ origin ++ List.replicate 46 0

def l1Info (l1 : L1Block) : Except InputError String := do
  let origin ← fixedBytes l1.hash 32 "L1 hash"
  let fee ← okOr (strip0x l1.baseFeePerGas) (.field "base fee")
  ensure (fee ≠ [] ∧ fee.length ≤ 64) (.field "base fee")
  let padded := String.ofList ('0' :: 'x' :: (List.replicate (64 - fee.length) '0' ++ fee))
  let fee ← fixedBytes padded 32 "base fee"
  let sender ← fixedBytes depositor 20 "depositor"
  let target ← fixedBytes l1BlockAddress 20 "L1Block"
  pure (depositText [Rlp.bytes (wordBytes (sourceHash cr "BOOLE-S1/L1INFO" origin 0)),
    Rlp.bytes sender, Rlp.bytes target, Rlp.uint 0, Rlp.uint 0, Rlp.uint l1InfoGas, Rlp.uint 0,
    Rlp.bytes (l1InfoData l1 fee origin)])

/-- The fields of a deposit, none of them a list. -/
def depositFields (raw : Bytes) : Option (List Bytes) := do
  match raw with
  | 0x7e :: body => do
    let fields ← (← (Rlp.decode body).toOption).children
    if fields.length = 8 ∧ fields.all (·.children.isNone) then some (fields.map (·.payload))
    else none
  | _ => none

/-- The hash of the L1 block that a deposit of L1 information is about. -/
def l1Origin (deposit : String) (number : ℕ) : Except InputError String := do
  let raw ← hexBytes deposit "parent L1-info"
  let f ← okOr (depositFields raw) .l1Link
  let sender ← fixedBytes depositor 20 "depositor"
  let target ← fixedBytes l1BlockAddress 20 "L1Block"
  let data := f.getD 7 []
  let origin := (data.drop 100).take 32
  ensure (data.length = 178 ∧ data.take 4 = [0x3d, 0xb6, 0xbe, 0x2b]
    ∧ (data.drop 4).take 16 = List.replicate 16 0 ∧ (data.drop 28).take 8 = beBytes 8 number
    ∧ (data.drop 68).take 32 = List.replicate 32 0 ∧ data.drop 132 = List.replicate 46 0
    ∧ f.getD 0 [] = wordBytes (sourceHash cr "BOOLE-S1/L1INFO" origin 0) ∧ f.getD 1 [] = sender
    ∧ f.getD 2 [] = target ∧ f.getD 3 [] = [] ∧ f.getD 4 [] = [] ∧ f.getD 5 [] = [0x0f, 0x42, 0x40]
    ∧ f.getD 6 [] = []) .l1Link
  pure (hexString origin)

def m2RootDeposit (l1 : L1Block) (root : Hash) : Except InputError String := do
  let origin ← fixedBytes l1.hash 32 "M2ROOT origin"
  let sender ← fixedBytes depositor 20 "depositor"
  let target ← fixedBytes m2RootSink 20 "M2ROOT sink"
  pure (depositText [Rlp.bytes (wordBytes (sourceHash cr "BOOLE-S1/M2ROOT" origin 0)),
    Rlp.bytes sender, Rlp.bytes target, Rlp.uint 0, Rlp.uint 0, Rlp.uint m2RootGas, Rlp.uint 0,
    Rlp.bytes (ascii "m2ro" ++ beBytes 8 l1.number ++ wordBytes root)])

end Derivation
