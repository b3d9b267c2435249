import Boole.Library.Hex
import Boole.Library.Json
import Mathlib.Algebra.Group.Action.Defs
import Mathlib.Algebra.Order.BigOperators.Group.List
import Mathlib.Data.Nat.Digits.Defs

/-!
# Library/JsonSize — how long a compact JSON text can get

Bounds on the bytes of a value, from bounds on its parts.  Text that a serializer copies as it is
(`Plain`) costs its length and two quotes; an object costs its keys, its values and four bytes a
field, an array one byte an item.  **Numerals of bounded numbers are plain and short**
(`plain_toDigits`, `plain_canonical`, `plain_fromHex?`).
-/

namespace Library.Json

open Value

/-! ## Plain text -/

/-- A character that stands for itself in a quoted string, in one byte. -/
def PlainChar (c : Char) : Prop := escapeChar c = [c] ∧ c.utf8Size = 1

instance : DecidablePred PlainChar := fun _ => instDecidableAnd

/-- A text of at most `n` plain characters. -/
def Plain (n : ℕ) (s : List Char) : Prop := s.length ≤ n ∧ ∀ c ∈ s, PlainChar c

instance (n : ℕ) : DecidablePred (Plain n) := fun _ => instDecidableAnd

theorem plainChar_digitChar {d : ℕ} (hd : d < 16) : PlainChar (Nat.digitChar d) := by
  interval_cases d <;> decide

theorem plainChar_of_isDigit {c : Char} (hc : c.isDigit) : PlainChar c := by
  rw [Char.isDigit_iff_toNat] at hc
  obtain ⟨h0, h9⟩ := hc
  have heq : c = Char.ofNat c.toNat := by simp
  rw [heq]
  generalize c.toNat = k at h0 h9
  simp only [Char.reduceToNat] at h0 h9
  interval_cases k <;> decide

theorem length_utf8_cons {c : Char} (hc : c.utf8Size = 1) (s : List Char) :
    (utf8 (c :: s)).length = (utf8 s).length + 1 := by
  simp [utf8, hc, Nat.add_comm]

theorem length_utf8_of_plain {s : List Char} (hs : ∀ c ∈ s, PlainChar c) :
    (utf8 s).length = s.length := by
  induction s with
  | nil => rfl
  | cons c s ih =>
    obtain ⟨hc, hs⟩ := List.forall_mem_cons.mp hs
    rw [length_utf8_cons hc.2, ih hs, List.length_cons]

theorem escape_of_plain {s : List Char} (hs : ∀ c ∈ s, PlainChar c) : escape s = s := by
  induction s with
  | nil => rfl
  | cons c s ih =>
    obtain ⟨hc, hs⟩ := List.forall_mem_cons.mp hs
    have := ih hs
    rw [escape] at this
    rw [escape, List.flatMap_cons, this, hc.1, List.singleton_append]

theorem Plain.length_quote {n : ℕ} {s : String} (hs : Plain n s.toList) :
    (utf8 (quote s)).length ≤ n + 2 := by
  rw [quote, escape_of_plain hs.2, length_utf8_cons (by decide), utf8_append, List.length_append,
    length_utf8_of_plain hs.2]
  exact Nat.add_le_add_right (Nat.add_le_add_right hs.1 1) 1

/-! ## Numerals -/

/-- A text of fixed length that reads as a hexadecimal number is plain. -/
theorem plain_fromHex? {s : String} {n x : ℕ} (hsize : s.utf8ByteSize = n)
    (h : fromHex? s.toList = some x) : Plain n s.toList := by
  have hchars : ∀ m y, ∀ c ∈ toHex m y, PlainChar c := by
    intro m
    induction m with
    | zero => simp [toHex]
    | succ m ih =>
      intro y c hc
      rw [toHex, List.mem_append, List.mem_singleton] at hc
      rcases hc with hc | rfl
      · exact ih _ c hc
      · exact plainChar_digitChar (Nat.mod_lt y (by decide))
  have hplain : ∀ c ∈ s.toList, PlainChar c := by
    rw [← toHex_fromHex? h]
    exact hchars _ _
  refine ⟨?_, hplain⟩
  rw [← length_utf8_of_plain hplain, ← utf8ByteSize_ofList, String.ofList_toList, hsize]

/-- A decimal text without a leading zero is as short as its number is small. -/
theorem plain_canonical {s : List Char} {e : ℕ} (he : 0 < e) (hdigits : s.all Char.isDigit)
    (hhead : 1 < s.length → s.head? ≠ some '0') (hlt : Nat.ofDigitChars 10 s 0 < 10 ^ e) :
    Plain e s := by
  refine ⟨?_, fun c hc => plainChar_of_isDigit (List.all_eq_true.mp hdigits c hc)⟩
  match s with
  | [] => simp
  | [c] => exact he
  | c :: d :: s =>
    have hdigit : c.isDigit := by simp_all
    have hne : c ≠ '0' := fun h => hhead (by simp) (by simp [h])
    have hpos : 1 ≤ c.toNat - '0'.toNat := by
      have h0 := (Char.isDigit_iff_toNat.mp hdigit).1
      have : c.toNat ≠ '0'.toNat := fun h => hne (Char.toNat_inj.mp h)
      omega
    rw [Nat.ofDigitChars_cons, Nat.ofDigitChars_eq_ofDigitChars_zero] at hlt
    have hle : 10 ^ (d :: s).length < 10 ^ e :=
      lt_of_le_of_lt (le_trans (Nat.le_mul_of_pos_right _ (by omega)) (Nat.le_add_right _ _)) hlt
    exact (Nat.pow_lt_pow_iff_right (by decide)).mp hle

theorem plain_toDigits {n e : ℕ} (he : 0 < e) (hn : n < 10 ^ e) : Plain e (Nat.toDigits 10 n) :=
  ⟨Nat.toDigits_length 10 n e he hn,
    fun _ hc => plainChar_of_isDigit (Nat.isDigit_of_mem_toDigits (by decide) (by decide) hc)⟩

/-! ## Values -/

theorem length_toVec_string {n : ℕ} {s : String} (hs : Plain n s.toList) :
    (string s).toVec.length ≤ n + 2 := by
  exact hs.length_quote

theorem length_toVec_jsonNat {n e : ℕ} (he : 0 < e) (hn : n < 10 ^ e) :
    (jsonNat n).toVec.length ≤ e := by
  obtain ⟨hlen, hplain⟩ := plain_toDigits he hn
  rw [toVec, jsonNat, print, Number.ofNat, length_utf8_of_plain hplain]
  exact hlen

theorem length_printItems (vs : List Value) :
    (utf8 (printItems vs)).length = 1 + (vs.map fun v => v.toVec.length + 1).sum := by
  induction vs with
  | nil => decide
  | cons v vs ih =>
    rw [printItems, length_utf8_cons (by decide), utf8_append, List.length_append, List.map_cons,
      List.sum_cons, toVec]
    omega

/-- An array costs one byte an item beside the items. -/
theorem length_toVec_array_le_sum (vs : List Value) :
    (array vs).toVec.length ≤ 2 + (vs.map fun v => v.toVec.length + 1).sum := by
  have htail := length_printItems vs
  cases vs with
  | nil => decide
  | cons v vs =>
    -- the opening bracket stands where the rest of an array has a comma
    rw [printItems, length_utf8_cons (by decide)] at htail
    rw [toVec, print, length_utf8_cons (by decide)]
    omega

/-- An array of bounded items. -/
theorem length_toVec_array {n : ℕ} {vs : List Value} (h : ∀ v ∈ vs, v.toVec.length ≤ n) :
    (array vs).toVec.length ≤ 2 + vs.length * (n + 1) := by
  have hsum : (vs.map fun v => v.toVec.length + 1).sum ≤ vs.length * (n + 1) := by
    have := List.sum_le_card_nsmul (vs.map fun v => v.toVec.length + 1) (n + 1) (by simpa using h)
    rwa [List.length_map, smul_eq_mul] at this
  exact (length_toVec_array_le_sum vs).trans (Nat.add_le_add_left hsum 2)

/-- Fields of bounded keys and values; each adds four more bytes. -/
inductive FieldsFit : List (String × Value) → ℕ → Prop
  | nil : FieldsFit [] 0
  | cons {k : String} {v : Value} {fs : List (String × Value)} {a b n : ℕ}
      (hk : Plain a k.toList) (hv : v.toVec.length ≤ b) (h : FieldsFit fs n) :
      FieldsFit ((k, v) :: fs) (a + b + 4 + n)

theorem length_printFields {fs : List (String × Value)} {n : ℕ} (h : FieldsFit fs n) :
    (utf8 (printFields fs)).length ≤ 1 + n := by
  induction h with
  | nil => decide
  | @cons k v fs a b n hk hv _ ih =>
    have hk := hk.length_quote
    rw [toVec] at hv
    simp only [printFields, length_utf8_cons (by decide : ','.utf8Size = 1), utf8_append,
      List.length_append, length_utf8_cons (by decide : ':'.utf8Size = 1)]
    omega

/-- An object of bounded fields. -/
theorem length_toVec_object {fs : List (String × Value)} {n : ℕ} (h : FieldsFit fs n) :
    (object fs).toVec.length ≤ 2 + n := by
  have htail := length_printFields h
  match fs with
  | [] => exact (by decide : (object []).toVec.length ≤ 2).trans (Nat.le_add_right _ _)
  | (k, v) :: fs =>
    rw [printFields, length_utf8_cons (by decide)] at htail
    rw [toVec, print, length_utf8_cons (by decide)]
    omega

end Library.Json
