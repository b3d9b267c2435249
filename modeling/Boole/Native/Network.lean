import Boole.Native.Ledger

/-!
# Native/Network — the pinned policy of the native test network

`boole-core`'s `native_network.rs`, and the retargeting of `difficulty.rs` that the chain uses.
The policy is compiled in: **there is one network** (`nativeTestnet`), and its genesis hash commits
to every field of it.
-/

open Library Library.Json

namespace Native

/-! ## Difficulty -/

structure DifficultyRetargetPolicy where
  targetBlockMs : ℕ
  retargetEveryBlocks : ℕ
  maxAdjustmentFactor : ℕ
deriving DecidableEq

def DifficultyRetargetPolicy.validate (self : DifficultyRetargetPolicy) : Except String Unit := do
  ensure (self.targetBlockMs ≠ 0) "targetBlockMs must be > 0"
  ensure (2 ≤ self.retargetEveryBlocks) "retargetEveryBlocks must be >= 2"
  ensure (1 ≤ self.maxAdjustmentFactor) "maxAdjustmentFactor must be >= 1"

/-- The work a target stands for. -/
def difficultyWeight (t : ℕ) : Except String ℕ :=
  if t = 0 then .error "T must be > 0" else .ok (2 ^ 256 / t)

def retargetTBlock (currentTBlock actualSpanMs expectedSpanMs : ℕ)
    (policy : DifficultyRetargetPolicy) : Except String ℕ := do
  policy.validate
  ensure (currentTBlock ≠ 0) "current T_block must be > 0"
  ensure (expectedSpanMs ≠ 0) "expected span must be > 0"
  let factor := policy.maxAdjustmentFactor
  let minActual := max (expectedSpanMs / factor) 1
  let maxActual := min (expectedSpanMs * factor) (2 ^ 64 - 1)
  let clampedActual := max minActual (min actualSpanMs maxActual)
  let next := currentTBlock * clampedActual / expectedSpanMs
  let next := if next = 0 then 1 else next
  pure (min next (2 ^ 256 - 1))

def medianTimePastWindow : ℕ := 11

/-! ## The network -/

structure NativeNetwork where
  schema : String
  ruleVersion : ℕ
  networkId : String
  symbol : String
  decimals : ℕ
  totalSupply : BitVec 128
  initialReward : BitVec 128
  halvingEpoch : UInt64
  minimumFee : ℕ
  rewardMaturity : ℕ
  initialTarget : String
  retarget : DifficultyRetargetPolicy
  medianTimePastWindow : ℕ
  maxTransfersPerBlock : ℕ
  maxTransferBytes : ℕ
  maxBlockBytes : ℕ
  usefulWorkRewards : Bool
  rewardAllocation : String
  feeAllocation : String
  genesisIssuance : ℕ
deriving DecidableEq

def nativeTestnetNetworkId : String := "boole-native-testnet-1"

def nativeCoinUnit : ℕ := 100000000

def nativeTestnet : NativeNetwork where
  schema := "boole.native.genesis.v1"
  ruleVersion := 1
  networkId := nativeTestnetNetworkId
  symbol := "tBOOLE"
  decimals := 8
  totalSupply := BitVec.ofNat 128 (1000000000 * nativeCoinUnit)
  initialReward := BitVec.ofNat 128 (50000 * nativeCoinUnit)
  halvingEpoch := 10000
  minimumFee := 1000
  rewardMaturity := 10
  initialTarget := String.ofList (List.replicate 4 '0' ++ List.replicate 60 'f')
  retarget := { targetBlockMs := 60000, retargetEveryBlocks := 2, maxAdjustmentFactor := 4 }
  medianTimePastWindow := medianTimePastWindow
  maxTransfersPerBlock := 512
  maxTransferBytes := 4096
  maxBlockBytes := 524288
  usefulWorkRewards := false
  rewardAllocation := "producer-only"
  feeAllocation := "producer-no-burn"
  genesisIssuance := 0

/-- `serialize_amount`: amounts are decimal text. -/
def jsonAmount (n : ℕ) : Value := .string (toString n)

def DifficultyRetargetPolicy.toJson (self : DifficultyRetargetPolicy) : Value :=
  .object [("targetBlockMs", jsonNat self.targetBlockMs),
    ("retargetEveryBlocks", jsonNat self.retargetEveryBlocks),
    ("maxAdjustmentFactor", jsonNat self.maxAdjustmentFactor)]

variable (self : NativeNetwork)

namespace NativeNetwork

def toJson : Value :=
  .object [("schema", .string self.schema), ("ruleVersion", jsonNat self.ruleVersion),
    ("networkId", .string self.networkId), ("symbol", .string self.symbol),
    ("decimals", jsonNat self.decimals), ("totalSupply", jsonAmount self.totalSupply.toNat),
    ("initialReward", jsonAmount self.initialReward.toNat),
    ("halvingEpoch", jsonNat self.halvingEpoch.toNat), ("minimumFee", jsonAmount self.minimumFee),
    ("rewardMaturity", jsonNat self.rewardMaturity),
    ("initialTarget", .string self.initialTarget), ("retarget", self.retarget.toJson),
    ("medianTimePastWindow", jsonNat self.medianTimePastWindow),
    ("maxTransfersPerBlock", jsonNat self.maxTransfersPerBlock),
    ("maxTransferBytes", jsonNat self.maxTransferBytes),
    ("maxBlockBytes", jsonNat self.maxBlockBytes),
    ("usefulWorkRewards", .bool self.usefulWorkRewards),
    ("rewardAllocation", .string self.rewardAllocation),
    ("feeAllocation", .string self.feeAllocation),
    ("genesisIssuance", jsonAmount self.genesisIssuance)]

/-- The bytes the genesis hash is taken of. -/
def genesisInput : List UInt8 :=
  asBytes "boole.native.genesis.v1\x00" ++ canonicalize self.toJson.sortKeys

def genesisHash (cr : Crypto) (self : NativeNetwork) : Hex32 := cr.blake3 self.genesisInput

def ledger : Except NativeLedgerError NativeLedger := do
  let schedule ← EmissionSchedule.new self.totalSupply self.initialReward self.halvingEpoch
  NativeLedger.newWithRules self.networkId schedule self.minimumFee self.rewardMaturity

end NativeNetwork

end Native
