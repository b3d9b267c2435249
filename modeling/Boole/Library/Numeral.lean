import Boole.Library.Instances
import Mathlib.Tactic.IntervalCases

/-!
# Library/Numeral — reading numbers from text

Two readers of unsigned numerals.  `parseUint w` reads a machine integer of `w` bits: decimal
digits, with a plus sign allowed before them.  `parseBig radix` reads an unbounded one in any radix
up to 36: either case of letters, and underscores between digits are skipped.

**What is printed reads back** (`parseUint_toString`, `parseBig_toDigits`).
-/

namespace Library

variable {bound acc n w b : ℕ} {cs : List Char}

/-- Decimal digits after the ones read so far, as long as the number stays below a bound. -/
def readDigits (bound acc : ℕ) : List Char → Option ℕ
  | [] => some acc
  | c :: cs =>
    if c.isDigit ∧ 10 * acc + (c.toNat - '0'.toNat) < bound then
      readDigits bound (10 * acc + (c.toNat - '0'.toNat)) cs
    else none

/-- A text without the plus sign before it. -/
def unsigned : List Char → List Char
  | '+' :: cs => cs
  | cs => cs

/-- An unsigned machine integer of `w` bits. -/
def parseUint (w : ℕ) (s : String) : Option ℕ :=
  if unsigned s.toList = [] then none else readDigits (2 ^ w) 0 (unsigned s.toList)

/-- The value of a digit or letter in a radix. -/
def digitVal? (radix : ℕ) (c : Char) : Option ℕ :=
  let d := if c.isDigit then c.toNat - '0'.toNat
    else if c.isLower then c.toNat - 'a'.toNat + 10
    else if c.isUpper then c.toNat - 'A'.toNat + 10
    else radix
  if d < radix then some d else none

/-- Digits in a radix after the ones read so far; underscores are skipped. -/
def readBig (radix acc : ℕ) : List Char → Option ℕ
  | [] => some acc
  | c :: cs =>
    if c = '_' then readBig radix acc cs
    else (digitVal? radix c).bind fun d => readBig radix (radix * acc + d) cs

/-- A number of any size.  A second plus sign stays and is then no digit. -/
def parseBig (radix : ℕ) (s : List Char) : Option ℕ :=
  let digits := if s.take 2 = ['+', '+'] then s else unsigned s
  if digits = [] ∨ digits.head? = some '_' then none else readBig radix 0 digits

/-! ## Machine integers -/

theorem readDigits_lt (hacc : acc < bound) (h : readDigits bound acc cs = some n) : n < bound := by
  induction cs generalizing acc with
  | nil =>
    cases h
    exact hacc
  | cons c cs ih =>
    rw [readDigits] at h
    split_ifs at h with hc
    exact ih hc.2 h

theorem parseUint_lt {s : String} (h : parseUint w s = some n) : n < 2 ^ w := by
  rw [parseUint] at h
  split_ifs at h
  exact readDigits_lt (Nat.two_pow_pos w) h

theorem readDigits_eq (hdigits : ∀ c ∈ cs, c.isDigit) (hlt : Nat.ofDigitChars 10 cs acc < bound) :
    readDigits bound acc cs = some (Nat.ofDigitChars 10 cs acc) := by
  induction cs generalizing acc with
  | nil => rfl
  | cons c cs ih =>
    obtain ⟨hc, hcs⟩ := List.forall_mem_cons.mp hdigits
    rw [Nat.ofDigitChars_cons] at hlt ⊢
    have hle : 10 * acc + (c.toNat - '0'.toNat) ≤
        Nat.ofDigitChars 10 cs (10 * acc + (c.toNat - '0'.toNat)) := by
      rw [Nat.ofDigitChars_eq_ofDigitChars_zero]
      exact Nat.le_trans (Nat.le_mul_of_pos_left _ (Nat.pow_pos (by decide))) (Nat.le_add_right _ _)
    rw [readDigits, if_pos ⟨hc, by omega⟩, ih hcs hlt]

theorem readDigits_eq_some (h : readDigits bound acc cs = some n) :
    n = Nat.ofDigitChars 10 cs acc := by
  induction cs generalizing acc with
  | nil =>
    cases h
    rfl
  | cons c cs ih =>
    rw [readDigits] at h
    split_ifs at h
    exact ih h

theorem unsigned_toDigits (n : ℕ) : unsigned (Nat.toDigits 10 n) = Nat.toDigits 10 n := by
  unfold unsigned
  split
  · rename_i cs heq
    have hplus : '+' ∈ Nat.toDigits 10 n := heq ▸ List.mem_cons_self
    exact absurd (Nat.isDigit_of_mem_toDigits (by decide) (by decide) hplus) (by decide)
  · rfl

/-- **A printed number reads back.** -/
theorem parseUint_toString (hn : n < 2 ^ w) : parseUint w (toString n) = some n := by
  have hlist : (toString n).toList = Nat.toDigits 10 n := Nat.toList_repr
  have hdigits : ∀ c ∈ Nat.toDigits 10 n, c.isDigit :=
    fun c hc => Nat.isDigit_of_mem_toDigits (by decide) (by decide) hc
  rw [parseUint, hlist, unsigned_toDigits, if_neg Nat.toDigits_ne_nil,
    readDigits_eq hdigits (by rwa [Nat.ofDigitChars_ten_toDigits]), Nat.ofDigitChars_ten_toDigits]

/-- A printed number reads back as nothing else. -/
theorem eq_of_parseUint_toString {m : ℕ} (h : parseUint w (toString n) = some m) : m = n := by
  have hlist : (toString n).toList = Nat.toDigits 10 n := Nat.toList_repr
  rw [parseUint, hlist, unsigned_toDigits, if_neg Nat.toDigits_ne_nil] at h
  rw [readDigits_eq_some h, Nat.ofDigitChars_ten_toDigits]

/-! ## Numbers of any size -/

theorem digitVal?_digitChar {d : ℕ} (hb : b ≤ 16) (hd : d < b) :
    digitVal? b (Nat.digitChar d) = some d := by
  have hlt : d < 16 := Nat.lt_of_lt_of_le hd hb
  interval_cases d <;> exact if_pos hd

theorem digitChar_plain {d : ℕ} (hd : d < 16) :
    Nat.digitChar d ≠ '+' ∧ Nat.digitChar d ≠ '_' := by
  interval_cases d <;> decide

theorem readBig_append (b acc : ℕ) (s t : List Char) :
    readBig b acc (s ++ t) = (readBig b acc s).bind fun a => readBig b a t := by
  induction s generalizing acc with
  | nil => rfl
  | cons c s ih =>
    simp only [List.cons_append, readBig]
    split_ifs
    · exact ih acc
    · cases digitVal? b c with
      | none => rfl
      | some d => exact ih _

theorem readBig_toDigits (hb : 1 < b) (hb' : b ≤ 16) (n : ℕ) :
    readBig b 0 (Nat.toDigits b n) = some n := by
  induction n using Nat.strongRecOn with
  | ind n ih =>
    -- The last digit is read after the rest of the number.
    have hlast (acc d : ℕ) (hd : d < b) : readBig b acc [Nat.digitChar d] = some (b * acc + d) := by
      rw [readBig, if_neg (digitChar_plain (Nat.lt_of_lt_of_le hd hb')).2,
        digitVal?_digitChar hb' hd]
      rfl
    by_cases hn : n < b
    · rw [Nat.toDigits_of_lt_base hn, hlast 0 n hn, Nat.mul_zero, Nat.zero_add]
    · have hle : b ≤ n := Nat.le_of_not_lt hn
      rw [Nat.toDigits_of_base_le hb hle, readBig_append,
        ih (n / b) (Nat.div_lt_self (by omega) hb), Option.bind_some,
        hlast _ _ (Nat.mod_lt n (by omega)), Nat.div_add_mod]

theorem toDigits_plain (hb : 1 < b) (hb' : b ≤ 16) :
    ∀ c ∈ Nat.toDigits b n, c ≠ '+' ∧ c ≠ '_' := by
  induction n using Nat.strongRecOn with
  | ind n ih =>
    intro c hc
    by_cases hn : n < b
    · rw [Nat.toDigits_of_lt_base hn, List.mem_singleton] at hc
      exact hc ▸ digitChar_plain (by omega)
    · have hle : b ≤ n := Nat.le_of_not_lt hn
      rw [Nat.toDigits_of_base_le hb hle, List.mem_append, List.mem_singleton] at hc
      rcases hc with hc | hc
      · exact ih (n / b) (Nat.div_lt_self (by omega) hb) c hc
      · exact hc ▸ digitChar_plain (Nat.lt_of_lt_of_le (Nat.mod_lt n (by omega)) hb')

/-- Text without signs and underscores is read digit by digit. -/
theorem parseBig_plain {s : List Char} (hne : s ≠ []) (hs : ∀ c ∈ s, c ≠ '+' ∧ c ≠ '_') :
    parseBig b s = readBig b 0 s := by
  obtain ⟨c, t, rfl⟩ := List.exists_cons_of_ne_nil hne
  obtain ⟨hplus, hunder⟩ := hs c List.mem_cons_self
  have hunsigned : unsigned (c :: t) = c :: t := by
    unfold unsigned
    split
    · rename_i cs heq
      exact absurd (List.cons.inj heq).1 hplus
    · rfl
  simp [parseBig, hunsigned, hunder]

/-- **The digits of a number read back**, after any number of zeros. -/
theorem parseBig_toDigits (hb : 1 < b) (hb' : b ≤ 16) (n k : ℕ) :
    parseBig b (List.replicate k '0' ++ Nat.toDigits b n) = some n := by
  have hzeros : readBig b 0 (List.replicate k '0') = some 0 := by
    induction k with
    | zero => rfl
    | succ k ih =>
      rw [List.replicate_succ, readBig, show '0' = Nat.digitChar 0 from rfl,
        digitVal?_digitChar hb' (by omega)]
      exact ih
  have hne : List.replicate k '0' ++ Nat.toDigits b n ≠ [] := by simp
  rw [parseBig_plain hne, readBig_append, hzeros, Option.bind_some, readBig_toDigits hb hb']
  intro c hc
  rcases List.mem_append.mp hc with hc | hc
  · rw [List.eq_of_mem_replicate hc]
    decide
  · exact toDigits_plain hb hb' c hc

end Library
