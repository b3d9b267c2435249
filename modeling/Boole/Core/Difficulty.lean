import Mathlib.Data.List.Sort
import Boole.Core.Block

/-!
# Core/Difficulty — targets by epoch, timestamps above the median

`boole-core`'s `difficulty.rs`.  With a retarget policy the target of a height is a function of the
blocks below it; timestamps must exceed the median of the last eleven.
-/

open Library Library.Json

namespace Core

structure DifficultyRetargetPolicy where
  targetBlockMs : ℕ
  retargetEveryBlocks : ℕ
  maxAdjustmentFactor : ℕ
deriving DecidableEq

def DifficultyRetargetPolicy.validate (self : DifficultyRetargetPolicy) : Result Unit := do
  ensure (self.targetBlockMs ≠ 0) "targetBlockMs must be > 0"
  ensure (2 ≤ self.retargetEveryBlocks) "retargetEveryBlocks must be >= 2"
  ensure (1 ≤ self.maxAdjustmentFactor) "maxAdjustmentFactor must be >= 1"

/-- The largest `u64`. -/
def maxU64 : ℕ := 2 ^ 64 - 1

def retargetTBlock (currentTBlock actualSpanMs expectedSpanMs : ℕ)
    (policy : DifficultyRetargetPolicy) : Result ℕ := do
  policy.validate
  ensure (currentTBlock ≠ 0) "current T_block must be > 0"
  ensure (expectedSpanMs ≠ 0) "expected span must be > 0"
  let factor := policy.maxAdjustmentFactor
  let minActual := max (expectedSpanMs / factor) 1
  let maxActual := min (expectedSpanMs * factor) maxU64
  let clampedActual := max minActual (min actualSpanMs maxActual)
  let next := max (currentTBlock * clampedActual / expectedSpanMs) 1
  pure (min next (2 ^ 256 - 1))

/-! ## How far one step goes

The span is clamped between `expected / factor` and `expected * factor`, and only then scales the
target.  The quotient is truncated, so **a target can shrink by more than the factor**, though never
by twice as much. -/

section Step

variable {policy : DifficultyRetargetPolicy}

theorem DifficultyRetargetPolicy.factor_pos (hp : policy.validate = .ok ()) :
    0 < policy.maxAdjustmentFactor := by
  simp only [validate, bind_eq_ok, ensure_eq_ok] at hp
  obtain ⟨-, -, -, -, hfactor⟩ := hp
  exact hfactor

/-- What a retarget computes, with the clamped span. -/
theorem retargetTBlock_eq (hp : policy.validate = .ok ()) {t e : ℕ} (ht : 1 ≤ t) (he : 1 ≤ e)
    (a : ℕ) : ∃ span, max (e / policy.maxAdjustmentFactor) 1 ≤ span ∧
      span ≤ e * policy.maxAdjustmentFactor ∧
      retargetTBlock t a e policy = .ok (min (max (t * span / e) 1) (2 ^ 256 - 1)) := by
  have hfactor := DifficultyRetargetPolicy.factor_pos hp
  have hexpected : e ≤ e * policy.maxAdjustmentFactor := Nat.le_mul_of_pos_right e hfactor
  have hquotient : e / policy.maxAdjustmentFactor ≤ e := Nat.div_le_self _ _
  refine ⟨max (max (e / policy.maxAdjustmentFactor) 1)
    (min a (min (e * policy.maxAdjustmentFactor) maxU64)), le_max_left _ _, ?_, ?_⟩
  · omega
  · rw [retargetTBlock, hp, ensure_of (by omega), ensure_of (by omega)]
    rfl

/-- Scaling by `m / e` divides by at most `g` when `m` is at least a `g`-th of `e`. -/
theorem div_le_mul_div {t e g m : ℕ} (he : 1 ≤ e) (hspan : e ≤ g * m) : t / g ≤ t * m / e := by
  rw [Nat.le_div_iff_mul_le he]
  calc t / g * e ≤ t / g * (g * m) := Nat.mul_le_mul_left _ hspan
    _ = t / g * g * m := (Nat.mul_assoc _ _ _).symm
    _ ≤ t * m := Nat.mul_le_mul_right _ (Nat.div_mul_le_self _ _)

/-- A truncated quotient keeps more than half of what it stands for. -/
theorem le_two_mul_span {f : ℕ} (e : ℕ) (hf : 0 < f) : e ≤ 2 * f * max (e / f) 1 := by
  have hdiv : f * (e / f) + e % f = e := Nat.div_add_mod e f
  have hmod : e % f < f := Nat.mod_lt e hf
  have hone : f * 1 ≤ f * max (e / f) 1 := Nat.mul_le_mul_left f (le_max_right _ _)
  have hquot : f * (e / f) ≤ f * max (e / f) 1 := Nat.mul_le_mul_left f (le_max_left _ _)
  rw [Nat.mul_assoc]
  omega

/-- A quotient that is exact, or below one, keeps all of it. -/
theorem le_mul_span {e f : ℕ} (hexact : f ∣ e ∨ e < f) : e ≤ f * max (e / f) 1 := by
  rcases hexact with hdvd | hlt
  · calc e = f * (e / f) := (Nat.mul_div_cancel' hdvd).symm
      _ ≤ f * max (e / f) 1 := Nat.mul_le_mul_left f (le_max_left _ _)
  · calc e ≤ f * 1 := by omega
      _ ≤ f * max (e / f) 1 := Nat.mul_le_mul_left f (le_max_right _ _)

/-- **One retarget multiplies the target by at most the factor, and divides it by less than twice
the factor.**  It divides by no more than the factor when the expected span is a multiple of it, or
shorter. -/
theorem retargetTBlock_bounds (hp : policy.validate = .ok ()) {t e : ℕ} (ht : 1 ≤ t) (he : 1 ≤ e)
    (a : ℕ) : ∃ next, retargetTBlock t a e policy = .ok next ∧
      next ≤ min (t * policy.maxAdjustmentFactor) (2 ^ 256 - 1) ∧
      min (max (t * max (e / policy.maxAdjustmentFactor) 1 / e) 1) (2 ^ 256 - 1) ≤ next ∧
      min (max (t / (2 * policy.maxAdjustmentFactor)) 1) (2 ^ 256 - 1) ≤ next ∧
      (policy.maxAdjustmentFactor ∣ e ∨ e < policy.maxAdjustmentFactor →
        min (max (t / policy.maxAdjustmentFactor) 1) (2 ^ 256 - 1) ≤ next) := by
  obtain ⟨span, hlow, hhigh, hnext⟩ := retargetTBlock_eq hp ht he a
  have hfactor := DifficultyRetargetPolicy.factor_pos hp
  have hup : t * span / e ≤ t * policy.maxAdjustmentFactor :=
    calc t * span / e ≤ t * (e * policy.maxAdjustmentFactor) / e :=
          Nat.div_le_div_right (Nat.mul_le_mul_left t hhigh)
      _ = t * policy.maxAdjustmentFactor := by
          rw [Nat.mul_left_comm, Nat.mul_div_cancel_left _ he]
  have hone : 1 ≤ t * policy.maxAdjustmentFactor := Nat.mul_pos ht hfactor
  have hdown : t * max (e / policy.maxAdjustmentFactor) 1 / e ≤ t * span / e :=
    Nat.div_le_div_right (Nat.mul_le_mul_left t hlow)
  refine ⟨_, hnext, min_le_min_right _ (max_le hup hone),
    min_le_min_right _ (max_le_max_right 1 hdown),
    min_le_min_right _ (max_le_max_right 1 ((div_le_mul_div he (le_two_mul_span e hfactor)).trans
      hdown)),
    fun hexact => min_le_min_right _ (max_le_max_right 1
      ((div_le_mul_div he (le_mul_span hexact)).trans hdown))⟩

/-- A minute's span is a multiple of the factor four. -/
theorem retargetTBlock_bounds_minute :
    ∃ next, retargetTBlock 1000 1 60000 ⟨60000, 2, 4⟩ = .ok next ∧
      (4 ∣ 60000 ∨ 60000 < 4 → min (max (1000 / 4) 1) (2 ^ 256 - 1) ≤ next) := by
  have hvalid : (⟨60000, 2, 4⟩ : DifficultyRetargetPolicy).validate = .ok () := rfl
  obtain ⟨next, hnext, -, -, -, hexact⟩ :=
    retargetTBlock_bounds hvalid (t := 1000) (e := 60000) (by decide) (by decide) 1
  exact ⟨next, hnext, hexact⟩

/-- An expected span of 5 ms with factor 3 is clamped to 1 ms, a fifth. -/
theorem retargetTBlock_below_quotient :
    (⟨5, 2, 3⟩ : DifficultyRetargetPolicy).validate = .ok () ∧
      retargetTBlock 100 0 5 ⟨5, 2, 3⟩ = .ok 20 ∧ 20 < max 1 (100 / 3) := by
  decide

end Step

/-! ## Difficulty of a height -/

/-- `format!("0x{:064x}", n)` -/
def hexTarget (n : ℕ) : String := String.ofList ('0' :: 'x' :: (Nat.toDigits 16 n).leftpad 64 '0')

structure DifficultyEvidence where
  mode : String
  retarget : String
  difficultyEpoch : ℕ
  tBlock : String
  tShare : String
  difficultyWeight : String
deriving DecidableEq

def difficultyEvidence (tBlock : String) (difficultyEpoch : ℕ) (retargetEnabled : Bool) :
    Result DifficultyEvidence := do
  let target ← parseBiguintHex tBlock
  let weight ← difficultyWeight target
  pure {
    mode := if retargetEnabled then "epoch-retarget-v0" else "static-calibrated"
    retarget := if retargetEnabled then "enabled" else "not-enabled"
    difficultyEpoch, tBlock := hexTarget target, tShare := ""
    difficultyWeight := toString weight }

def expectedRetargetDifficultyForHeight (existingBlocks : List PersistedBlock)
    (initialTBlock : String) (policy : DifficultyRetargetPolicy) : Result DifficultyEvidence := do
  policy.validate
  let height := existingBlocks.length
  if height = 0 then difficultyEvidence initialTBlock 0 false
  else if height < policy.retargetEveryBlocks ∨ ¬ policy.retargetEveryBlocks ∣ height then do
    let previous ← okOr existingBlocks.getLast? "missing previous block for difficulty"
    difficultyEvidence previous.tBlock previous.difficultyEpoch true
  else do
    let window := existingBlocks.drop (existingBlocks.length - policy.retargetEveryBlocks)
    let first ← okOr window.head? "empty retarget window"
    let last ← okOr window.getLast? "empty retarget window"
    let current ← parseBiguintHex last.tBlock
    let actualSpanMs := max (last.ts - first.ts) 1
    let expectedSpanMs :=
      max (min (policy.targetBlockMs * (policy.retargetEveryBlocks - 1)) maxU64) 1
    let next ← retargetTBlock current actualSpanMs expectedSpanMs policy
    difficultyEvidence (hexTarget next) (height / policy.retargetEveryBlocks) true

/-- A block carries the difficulty that the blocks below it call for. -/
def validateRetargetedBlock (initialTBlock : String) (policy : DifficultyRetargetPolicy)
    (previous : List PersistedBlock) (block : PersistedBlock) : Result Unit := do
  let expected ← expectedRetargetDifficultyForHeight previous initialTBlock policy
  ensure (block.difficultyEpoch = expected.difficultyEpoch)
    s!"difficultyEpoch mismatch at height {block.height}: got {block.difficultyEpoch}, expected {expected.difficultyEpoch}"
  ensure (block.tBlock = expected.tBlock)
    s!"tBlock mismatch at height {block.height}: got {block.tBlock}, expected {expected.tBlock}"
  ensure (block.difficultyWeight = expected.difficultyWeight)
    s!"difficultyWeight mismatch at height {block.height}: got {block.difficultyWeight}, expected {expected.difficultyWeight}"

def validateRetargetedDifficulty (blocks : List PersistedBlock) (initialTBlock : String)
    (policy : DifficultyRetargetPolicy) : Result Unit :=
  forM blocks.zipIdx fun (block, index) =>
    validateRetargetedBlock initialTBlock policy (blocks.take index) block

/-! ## Median time past -/

def medianTimePastWindow : ℕ := 11

/-- The median timestamp of the last blocks. -/
def medianTimePast (previous : List PersistedBlock) : ℕ :=
  let window := ((previous.drop (previous.length - medianTimePastWindow)).map
    PersistedBlock.ts).insertionSort (· ≤ ·)
  window.getD (window.length / 2) 0

/-- The first block has no predecessors and is exempt. -/
def verifyBlockTsMedianTimePast (blocks : List PersistedBlock) : Result Unit :=
  forM blocks.zipIdx fun (block, index) =>
    ensure (index = 0 ∨ medianTimePast (blocks.take index) < block.ts)
      s!"block ts {block.ts} at index {index} does not exceed median-time-past {medianTimePast (blocks.take index)} of the previous {min index medianTimePastWindow} block(s)"

end Core
