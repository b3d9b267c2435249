import Boole.Library.Instances
import Mathlib.Data.List.Induction
import Mathlib.Tactic.IntervalCases
import Mathlib.Tactic.Ring

/-!
# Library/Hex — lower-case hexadecimal numerals of a fixed length

`toHex n x` writes the last `n` hexadecimal digits of `x`, most significant first, and `fromHex?`
reads a text of such digits.  **The two are inverse to each other** (`fromHex?_toHex`,
`toHex_fromHex?`), so a fixed-length numeral and the number below `16 ^ n` are the same thing.
-/

namespace Library

/-- The value of a lower-case hexadecimal digit. -/
def hexVal? (c : Char) : Option ℕ :=
  if '0'.toNat ≤ c.toNat ∧ c.toNat ≤ '9'.toNat then some (c.toNat - 48)
  else if 'a'.toNat ≤ c.toNat ∧ c.toNat ≤ 'f'.toNat then some (c.toNat - 87)
  else none

/-- The last `n` hexadecimal digits of a number. -/
def toHex : ℕ → ℕ → List Char
  | 0, _ => []
  | n + 1, x => toHex n (x / 16) ++ [Nat.digitChar (x % 16)]

/-- Read hexadecimal digits after the ones read so far. -/
def readHex (acc : ℕ) : List Char → Option ℕ
  | [] => some acc
  | c :: s => (hexVal? c).bind fun d => readHex (16 * acc + d) s

/-- The number a text of hexadecimal digits stands for. -/
def fromHex? (s : List Char) : Option ℕ := readHex 0 s

/-! ## Digits -/

theorem hexVal?_digitChar {d : ℕ} (hd : d < 16) : hexVal? (Nat.digitChar d) = some d := by
  interval_cases d <;> decide

theorem hexVal?_eq_some {c : Char} {d : ℕ} (h : hexVal? c = some d) :
    d < 16 ∧ c = Nat.digitChar d := by
  have hc : c = Char.ofNat c.toNat := by simp
  unfold hexVal? at h
  split_ifs at h with h₁ h₂
  · obtain ⟨hl, hu⟩ := h₁
    simp only [Char.reduceToNat] at hl hu
    generalize c.toNat = k at *
    subst hc
    interval_cases k <;> cases h <;> decide
  · obtain ⟨hl, hu⟩ := h₂
    simp only [Char.reduceToNat] at hl hu
    generalize c.toNat = k at *
    subst hc
    interval_cases k <;> cases h <;> decide

/-! ## Numerals -/

@[simp] theorem length_toHex (n x : ℕ) : (toHex n x).length = n := by
  induction n generalizing x with
  | zero => rfl
  | succ n ih => simp [toHex, ih]

theorem readHex_append (acc : ℕ) (s t : List Char) :
    readHex acc (s ++ t) = (readHex acc s).bind fun a => readHex a t := by
  induction s generalizing acc with
  | nil => rfl
  | cons c s ih =>
    simp only [List.cons_append, readHex]
    cases hexVal? c with
    | none => rfl
    | some d => exact ih _

theorem readHex_toHex (n acc : ℕ) {x : ℕ} (hx : x < 16 ^ n) :
    readHex acc (toHex n x) = some (16 ^ n * acc + x) := by
  induction n generalizing x with
  | zero =>
    obtain rfl : x = 0 := by simpa using hx
    simp [toHex, readHex]
  | succ n ih =>
    have hlt : x / 16 < 16 ^ n := by
      rw [Nat.div_lt_iff_lt_mul (by decide)]
      rwa [pow_succ] at hx
    rw [toHex, readHex_append, ih hlt]
    simp only [Option.bind_some, readHex, hexVal?_digitChar (Nat.mod_lt x (by decide))]
    conv_rhs => rw [← Nat.div_add_mod x 16]
    ring

/-- **A numeral reads back as its number.** -/
theorem fromHex?_toHex (n : ℕ) {x : ℕ} (hx : x < 16 ^ n) : fromHex? (toHex n x) = some x := by
  rw [fromHex?, readHex_toHex n 0 hx]
  simp

theorem readHex_eq_some {acc x : ℕ} {s : List Char} (h : readHex acc s = some x) :
    ∃ y < 16 ^ s.length, x = 16 ^ s.length * acc + y ∧ s = toHex s.length y := by
  induction s using List.reverseRecOn generalizing x with
  | nil =>
    cases h
    exact ⟨0, by simp, by simp, rfl⟩
  | append_singleton s c ih =>
    rw [readHex_append] at h
    obtain ⟨a, ha, hc⟩ := Option.bind_eq_some_iff.mp h
    obtain ⟨d, hd, hx⟩ := Option.bind_eq_some_iff.mp hc
    cases hx
    obtain ⟨hd16, rfl⟩ := hexVal?_eq_some hd
    obtain ⟨y, hy, rfl, hs⟩ := ih ha
    refine ⟨16 * y + d, ?_, ?_, ?_⟩
    · rw [List.length_append, List.length_singleton]
      omega
    · rw [List.length_append, List.length_singleton]
      ring
    · rw [List.length_append, List.length_singleton, toHex,
        show (16 * y + d) / 16 = y by omega, show (16 * y + d) % 16 = d by omega, ← hs]

/-- **A text of digits is the numeral of what it reads as.** -/
theorem toHex_fromHex? {s : List Char} {x : ℕ} (h : fromHex? s = some x) :
    toHex s.length x = s := by
  obtain ⟨y, -, rfl, hs⟩ := readHex_eq_some h
  rw [hs]
  simp

end Library
