import Boole.Library.Fallible
import Boole.Library.Json
import Boole.Library.Reader

/-!
# Derivation/Config — hashes, and the configuration that a run pins

Every identity of the fold is a SHA-256 digest of a domain tag and some fields.  The hash function
and the signature scheme stay parameters (`Crypto`); what is hashed is spelled out byte by byte.
A configuration is untrusted until `Config.validate` accepts it for a gas limit.
-/

open Library Json

namespace Derivation

abbrev Bytes := List UInt8

abbrev Hash := BitVec 256

abbrev Address := BitVec 160

/-- A problem and a commitment to it. -/
abbrev Key := Hash × Hash

/-- A height, a transaction index and a log index. -/
abbrev Pos := ℕ × ℕ × ℕ

/-- The cryptography the fold calls. -/
structure Crypto where
  sha256 : Bytes → Hash
  keccak : Bytes → Hash
  /-- Whether 64 bytes are a signature, and if so whether `normalize_s` leaves it alone. -/
  lowS : Bytes → Option Bool
  /-- `recover_from_prehash`: the coordinates of the public key. -/
  recover : Hash → Bytes → UInt8 → Option Bytes

theorem wordBytes_inj {a b : Hash} (h : wordBytes a = wordBytes b) : a = b :=
  wordBytes_injective (n := 32) rfl h

/-- The bytes of an ASCII literal. -/
def ascii (s : String) : Bytes := s.toUTF8.data.toList

def sha (cr : Crypto) (parts : List Bytes) : Hash := cr.sha256 parts.flatten

/-- No two of the inputs have the same hash. -/
def Injects (cr : Crypto) (inputs : List Bytes) : Prop :=
  ∀ x ∈ inputs, ∀ y ∈ inputs, cr.sha256 x = cr.sha256 y → x = y

instance (cr : Crypto) (inputs : List Bytes) : Decidable (Injects cr inputs) :=
  inferInstanceAs (Decidable (∀ _ ∈ _, ∀ _ ∈ _, _ → _))

def bodyDigest (cr : Crypto) (b : Bytes) : Hash := sha cr [ascii "BOOLE-M2/BODY/v1", b]

def cancelHash (cr : Crypto) (s : Hash) : Hash := sha cr [ascii "BOOLE-M2/CANCEL/v1", wordBytes s]

def commitHash (cr : Crypto) (chain : ℕ) (p c b : Hash) : Hash :=
  sha cr [ascii "BOOLE-M2/COMMIT/v2", beBytes 8 chain, wordBytes p, wordBytes c, wordBytes b]

def envId (cr : Crypto) (schema base : Hash) (p : List Hash) : Hash :=
  sha cr [ascii "BOOLE-M2/ENV/v1", wordBytes schema, wordBytes base, beBytes 1 p.length,
    p.flatMap wordBytes]

def partLeaf (cr : Crypto) (solver : Address) (salt : Hash) (index : ℕ) (data : Bytes) : Hash :=
  sha cr [[0], ascii "BOOLE-M2/PART/v1", wordBytes solver, wordBytes salt, beBytes 2 index,
    wordBytes (sha cr [data])]

def poolLeaf (cr : Crypto) (chain : ℕ) (kind : ℕ) (req : List Hash) (codec rawLen : ℕ)
    (package : Bytes) (salt : Hash) : Hash :=
  sha cr [[0], ascii "BOOLE-M2/POOL-LEAF/v2", beBytes 8 chain, beBytes 1 kind,
    beBytes 1 req.length, req.flatMap wordBytes, beBytes 1 codec, beBytes 4 rawLen,
    wordBytes (sha cr [package]), wordBytes salt]

/-- What a problem identity is the digest of. -/
def problemInput (chain : ℕ) (root : Hash) (index : ℕ) (seed : Hash) (epoch : ℕ) : List Bytes :=
  [ascii "BOOLE-M2/PROBLEM/v2", beBytes 8 chain, wordBytes root, beBytes 4 index, wordBytes seed,
    beBytes 4 epoch]

def problemId (cr : Crypto) (chain : ℕ) (root : Hash) (index : ℕ) (seed : Hash) (epoch : ℕ) :
    Hash :=
  sha cr (problemInput chain root index seed epoch)

/-! ## Merkle membership -/

def node (cr : Crypto) (a b : Hash) : Hash := sha cr [[1], wordBytes a, wordBytes b]

def depth (n : ℕ) : ℕ := if n ≤ 1 then 0 else Nat.log2 (n - 1) + 1

/-- The root that a path leads to. -/
def climb (cr : Crypto) (leaf : Hash) (index : ℕ) : List Hash → Hash
  | [] => leaf
  | p :: path =>
    climb cr (if index % 2 = 0 then node cr leaf p else node cr p leaf) (index / 2) path

def verify (cr : Crypto) (leaf : Hash) (index : ℕ) (path : List Hash) (root : Hash) : Bool :=
  climb cr leaf index path = root

/-! ## The configuration -/

structure SlotParams where
  lane : ℕ
  solveDeadline : ℕ
  announceGap : ℕ
  revealGrace : ℕ
deriving DecidableEq

structure M3Config where
  k : ℕ
  rate : ℕ
  costFixed : ℕ
  fuelSlot : List ℕ
  verdictSink : Address
  qReward : ℕ
  rewardGas : ℕ
  maturity : ℕ
  reward : List ℕ
  mintEnabled : Bool
  notice : ℕ
  openLicenses : List ℕ
  bridge : Bool
  nativeIsRewardUnit : Bool
  genesisGateRuleDigest : Hash
deriving DecidableEq

structure Config where
  chainId : ℕ
  d : ℕ
  w : ℕ
  wSlackMin : ℕ
  pBlk : ℕ
  ratioMax : ℕ
  kMax : ℕ
  cCommit : ℕ
  qMax : ℕ
  vPerDeposit : ℕ
  verdictGas : ℕ
  l1GasLimit : ℕ
  poolLimit : ℕ
  slotTable : List SlotParams
  statementRawMax : ℕ
  slotLeavesMax : ℕ
  poolLead : ℕ
  poolMax : ℕ
  statementMax : ℕ
  traceEmbargoMax : ℕ
  schemaId : Hash
  baseRoot : Hash
  pkgTable : List Hash
  envAllowed : List (List Hash)
  incompatible : List (Hash × Hash)
  termsTable : List (ℕ × Hash)
  poolKey : Address
  m3 : Option M3Config
deriving DecidableEq

def partSize : ℕ := 122880

def maxParts : ℕ := 128

def rawCap : ℕ := 134217728

def l1InfoGas : ℕ := 1000000

def m2RootGas : ℕ := 1000000

/-- The gas that is kept for user transactions. -/
def userGasReserve : ℕ := 16777216

/-- Each element is below the next one. -/
def ascending (l : List Hash) : Prop := l.IsChain (· < ·)

instance (l : List Hash) : Decidable (ascending l) := inferInstanceAs (Decidable (l.IsChain _))

namespace M3Config

def validate (self : M3Config) (c : Config) (gasLimit : ℕ) : Except ℕ Unit := do
  let floor := do
    let n ← checkedMul 64 c.vPerDeposit 80
    let n ← checkedAdd 64 n 24
    let n ← checkedMul 64 n 40
    checkedAdd 64 n 21000
  ensure (floor.any (· ≤ c.verdictGas) ∧ 21000 ≤ self.rewardGas) 9
  let maximum := do
    let n ← checkedMul 64 c.qMax c.verdictGas
    let w ← checkedMul 64 self.qReward self.rewardGas
    let n ← checkedAdd 64 n w
    let n ← checkedAdd 64 n l1InfoGas
    let n ← checkedAdd 64 n m2RootGas
    checkedAdd 64 n userGasReserve
  ensure (maximum.any (· ≤ gasLimit)) 10
  ensure (self.k ≠ 0 ∧ self.rate ≠ 0 ∧ self.costFixed ≠ 0
    ∧ self.fuelSlot.length = c.slotTable.length ∧ 0 ∉ self.fuelSlot
    ∧ (self.fuelSlot.max?.bind (checkedAdd 64 · self.costFixed)).any (· ≤ 2 ^ 63)) 11
  ensure ((checkedMul 64 self.k 2).any (· ≤ self.maturity)
    ∧ (checkedAdd 64 self.notice self.k).any (· ≤ self.maturity)) 12
  ensure (self.reward.length = c.slotTable.length ∧ (self.mintEnabled → 0 ∉ self.reward)) 13
  ensure (∀ t ∈ c.termsTable, t.1 ∈ self.openLicenses) 15
  ensure (self.mintEnabled → self.bridge → self.nativeIsRewardUnit) 17

def toJson (self : M3Config) : Value :=
  .object [("k", jsonNat self.k), ("rate", jsonNat self.rate),
    ("cost_fixed", jsonNat self.costFixed), ("fuel_slot", .array (self.fuelSlot.map jsonNat)),
    ("verdict_sink", jsonBytes (wordBytes self.verdictSink)), ("q_reward", jsonNat self.qReward),
    ("reward_gas", jsonNat self.rewardGas), ("maturity", jsonNat self.maturity),
    ("reward", .array (self.reward.map jsonNat)), ("mint_enabled", .bool self.mintEnabled),
    ("notice", jsonNat self.notice), ("open_licenses", .array (self.openLicenses.map jsonNat)),
    ("bridge", .bool self.bridge), ("native_is_reward_unit", .bool self.nativeIsRewardUnit),
    ("genesis_gate_rule_digest", jsonBytes (wordBytes self.genesisGateRuleDigest))]

end M3Config

def SlotParams.toJson (self : SlotParams) : Value :=
  .object [("lane", jsonNat self.lane), ("solve_deadline", jsonNat self.solveDeadline),
    ("announce_gap", jsonNat self.announceGap), ("reveal_grace", jsonNat self.revealGrace)]

variable (self : Config)

namespace Config

def validPkgs (p : List Hash) : Prop :=
  p.length ≤ self.kMax ∧ ascending p ∧ p ⊆ self.pkgTable

instance (self : Config) (p : List Hash) : Decidable (self.validPkgs p) :=
  inferInstanceAs (Decidable (_ ∧ _ ∧ _))

def validate (l2GasLimit : ℕ) : Except ℕ Unit := do
  ensure (2 ≤ self.d) 1
  let window := do
    let p ← checkedSub self.pBlk 1
    let n ← checkedAdd 64 129 p
    let x ← checkedAdd 64 self.d (n / self.pBlk)
    checkedAdd 64 x self.wSlackMin
  ensure (window.any (· ≤ self.w)) 2
  ensure ((checkedMul 64 self.qMax self.vPerDeposit).any (self.cCommit ≤ ·)) 3
  let gas := do
    let n ← checkedMul 64 self.qMax self.verdictGas
    let n ← checkedAdd 64 n l1InfoGas
    let n ← checkedAdd 64 n m2RootGas
    checkedAdd 64 n userGasReserve
  ensure (self.m3 = none → gas.any (· ≤ l2GasLimit)) 4
  let problemSize := do
    let n ← checkedMul 64 self.pkgTable.length 32
    let n ← checkedAdd 64 n (1 + 54 + 32 * depth self.poolMax)
    let n ← checkedAdd 64 n self.statementMax
    let n ← checkedAdd 64 n 31
    checkedAdd 64 (n / 32 * 32) 68
  ensure (123236 ≤ self.poolLimit ∧ problemSize.any (· ≤ self.poolLimit)) 5
  ensure (1 ≤ self.slotTable.length ∧ self.slotTable.length ≤ 3
    ∧ (∀ s ∈ self.slotTable, s.lane = 1 ∨ s.lane = 2) ∧ self.kMax ≤ 4 ∧ ascending self.pkgTable
    ∧ ∀ p ∈ self.envAllowed, self.validPkgs p ∧ ∀ x ∈ self.incompatible, ¬(x.1 ∈ p ∧ x.2 ∈ p)) 6
  ensure (self.poolLead ≠ 0
    ∧ ∀ s ∈ self.slotTable, ∀ n ∈ [s.solveDeadline, s.announceGap, s.revealGrace],
      1 ≤ n ∧ n ≤ 2 ^ 32) 7
  ensure (self.statementMax ≠ 0 ∧ self.statementMax ≤ self.statementRawMax
    ∧ self.statementRawMax ≤ 2 ^ 27 ∧ self.poolMax ≤ self.slotLeavesMax
    ∧ self.slotLeavesMax ≤ 2 ^ 20) 8
  match self.m3 with
  | some m3 => m3.validate self l2GasLimit
  | none => pure ()

def toJson : Value :=
  .object ([("chain_id", jsonNat self.chainId), ("d", jsonNat self.d), ("w", jsonNat self.w),
    ("w_slack_min", jsonNat self.wSlackMin), ("p_blk", jsonNat self.pBlk),
    ("ratio_max", jsonNat self.ratioMax), ("k_max", jsonNat self.kMax),
    ("c_commit", jsonNat self.cCommit), ("q_max", jsonNat self.qMax),
    ("v_per_deposit", jsonNat self.vPerDeposit), ("verdict_gas", jsonNat self.verdictGas),
    ("l1_gas_limit", jsonNat self.l1GasLimit), ("pool_limit", jsonNat self.poolLimit),
    ("slot_table", .array (self.slotTable.map SlotParams.toJson)),
    ("statement_raw_max", jsonNat self.statementRawMax),
    ("slot_leaves_max", jsonNat self.slotLeavesMax), ("pool_lead", jsonNat self.poolLead),
    ("pool_max", jsonNat self.poolMax), ("statement_max", jsonNat self.statementMax),
    ("trace_embargo_max", jsonNat self.traceEmbargoMax),
    ("schema_id", jsonBytes (wordBytes self.schemaId)),
    ("base_root", jsonBytes (wordBytes self.baseRoot)),
    ("pkg_table", .array (self.pkgTable.map (jsonBytes <| wordBytes ·))),
    ("env_allowed",
      .array (self.envAllowed.map fun p => .array (p.map (jsonBytes <| wordBytes ·)))),
    ("incompatible", .array (self.incompatible.map fun x =>
      .array [jsonBytes (wordBytes x.1), jsonBytes (wordBytes x.2)])),
    ("terms_table", .object (self.termsTable.map fun t =>
      (toString t.1, jsonBytes (wordBytes t.2)))),
    ("pool_key", jsonBytes (wordBytes self.poolKey))]
    ++ (self.m3.map fun m3 => ("m3", m3.toJson)).toList)

/-- What the digest of a configuration is taken of. -/
def digestInput : List Bytes :=
  [ascii (if self.m3.isSome then "BOOLE-M2/CONFIG/v2" else "BOOLE-M2/CONFIG/v1"),
    self.toJson.toVec]

def digest (cr : Crypto) (self : Config) : Hash := sha cr self.digestInput

end Config

/-! ## What validation has checked -/

/-- The bounds that a validated M3 profile keeps. -/
structure M3Config.Valid (p : M3Config) (c : Config) (gasLimit : ℕ) : Prop where
  verdictGas : (c.vPerDeposit * 80 + 24) * 40 + 21000 ≤ c.verdictGas
  rewardGas : 21000 ≤ p.rewardGas
  total : c.qMax * c.verdictGas + p.qReward * p.rewardGas + l1InfoGas + m2RootGas
    + userGasReserve ≤ gasLimit
  delay : p.k ≠ 0
  rate : p.rate ≠ 0
  cost : p.costFixed ≠ 0
  maturity : p.k * 2 ≤ p.maturity
  reward : p.reward.length = c.slotTable.length
  mint : p.mintEnabled → 0 ∉ p.reward

theorem M3Config.validate_eq_ok {self : M3Config} {c : Config} {gasLimit : ℕ} {u : Unit}
    (h : self.validate c gasLimit = .ok u) : self.Valid c gasLimit := by
  simp only [M3Config.validate, bind_eq_ok, ensure_eq_ok, Option.any_eq_true, Option.bind_eq_bind,
    Option.bind_eq_some_iff, checkedMul_eq_some, checkedAdd_eq_some, decide_eq_true_eq] at h
  obtain ⟨_, ⟨⟨_, ⟨_, ⟨-, rfl⟩, _, ⟨-, rfl⟩, _, ⟨-, rfl⟩, -, rfl⟩, hfloor⟩, hreward⟩, _,
    ⟨_, ⟨_, ⟨-, rfl⟩, _, ⟨-, rfl⟩, _, ⟨-, rfl⟩, _, ⟨-, rfl⟩, _, ⟨-, rfl⟩, -, rfl⟩, htotal⟩, _,
    ⟨hk, hrate, hcost, -, -, -⟩, _, ⟨⟨_, ⟨-, rfl⟩, hmaturity⟩, -⟩, _, ⟨hlen, hmint⟩, -⟩ := h
  exact ⟨hfloor, hreward, htotal, hk, hrate, hcost, hmaturity, hlen, hmint⟩

/-- **What a validated config promises** about windows, slots and pools. -/
structure Config.Valid (c : Config) : Prop where
  delay : 2 ≤ c.d
  window : c.d ≤ c.w
  params : ∀ p ∈ c.slotTable, ∀ n ∈ [p.solveDeadline, p.announceGap, p.revealGrace],
    1 ≤ n ∧ n ≤ 2 ^ 32
  leaves : c.slotLeavesMax ≤ 2 ^ 20

theorem Config.validate_eq_ok {c : Config} {gasLimit : ℕ} {u : Unit}
    (h : c.validate gasLimit = .ok u) : c.Valid := by
  simp only [Config.validate, bind_eq_ok, ensure_eq_ok, Option.any_eq_true, Option.bind_eq_bind,
    Option.bind_eq_some_iff, checkedAdd_eq_some, decide_eq_true_eq] at h
  obtain ⟨_, hd, _, ⟨_, ⟨_, -, _, ⟨-, rfl⟩, _, ⟨-, rfl⟩, -, rfl⟩, hw⟩, _, -, _, -, _, -, _, -, _,
    ⟨-, hparams⟩, _, ⟨-, -, -, -, hleaves⟩, -⟩ := h
  exact ⟨hd, (Nat.le_add_right _ _).trans ((Nat.le_add_right _ _).trans hw), hparams, hleaves⟩

theorem Config.valid_m3 {c : Config} {gasLimit : ℕ} {u : Unit} {p : M3Config}
    (h : c.validate gasLimit = .ok u) (hp : c.m3 = some p) : p.Valid c gasLimit := by
  simp only [Config.validate, hp, bind_eq_ok] at h
  obtain ⟨_, -, _, -, _, -, _, -, _, -, _, -, _, -, _, -, hm3⟩ := h
  exact M3Config.validate_eq_ok hm3

end Derivation
