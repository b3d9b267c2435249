import Boole.Library.Instances
import Mathlib.Data.List.Basic
import Mathlib.Tactic.IntervalCases

/-!
# Library/Json — compact JSON text is unambiguous

A JSON value and the compact text a serializer writes for it: no white space, the short escapes,
`\u00xx` for the other control characters.  **The text determines the value** (`print_injective`),
even when more text follows, as long as what follows does not extend a number token
(`print_append_inj`).  The same holds for the UTF-8 bytes (`toVec_injective`).

A number is its own token: a printer that maps numbers to tokens one to one adds nothing else.
-/

namespace Library.Json

/-! ## Values -/

/-- The characters of a number token. -/
def numberChars : List Char := "0123456789+-.eE".toList

/-- A number, as the token it is written as. -/
structure Number where
  token : List Char
  ne_nil : token ≠ []
  chars : ∀ c ∈ token, c ∈ numberChars
deriving DecidableEq

/-- A JSON value; the fields of an object keep the order they were inserted in. -/
inductive Value
  | null
  | bool (b : Bool)
  | number (n : Number)
  | string (s : String)
  | array (items : List Value)
  | object (fields : List (String × Value))
deriving Inhabited

theorem toDigits_chars (n : ℕ) : ∀ c ∈ Nat.toDigits 10 n, c ∈ numberChars := by
  intro c hc
  have hd : c.isDigit := Nat.isDigit_of_mem_toDigits (by decide) (by decide) hc
  rw [Char.isDigit_iff_toNat] at hd
  obtain ⟨h0, h9⟩ := hd
  have : c = Char.ofNat c.toNat := by simp
  rw [this]
  generalize c.toNat = k at h0 h9
  simp only [Char.reduceToNat] at h0 h9
  interval_cases k <;> decide

/-- An unsigned integer as a JSON number. -/
def Number.ofNat (n : ℕ) : Number where
  token := Nat.toDigits 10 n
  ne_nil := by simp [Nat.toDigits_ne_nil]
  chars := toDigits_chars n

theorem Number.ofNat_injective : Function.Injective Number.ofNat := by
  intro m n h
  have := congrArg (fun k : Number => Nat.ofDigitChars 10 k.token 0) h
  simpa only [Number.ofNat, Nat.ofDigitChars_ten_toDigits] using this

/-- An unsigned integer as JSON. -/
def jsonNat (n : ℕ) : Value := .number (Number.ofNat n)

theorem jsonNat_inj {m n : ℕ} : jsonNat m = jsonNat n ↔ m = n := by
  simp [jsonNat, Number.ofNat_injective.eq_iff]

/-- A byte array as JSON: an array of its bytes. -/
def jsonBytes (b : List UInt8) : Value := .array (b.map fun x => jsonNat x.toNat)

/-! ## Strings -/

variable (c : Char)

/-- The text one character contributes to a quoted string. -/
def escapeChar : List Char :=
  if c = '"' then ['\\', '"']
  else if c = '\\' then ['\\', '\\']
  else if c = Char.ofNat 8 then ['\\', 'b']
  else if c = '\t' then ['\\', 't']
  else if c = '\n' then ['\\', 'n']
  else if c = Char.ofNat 12 then ['\\', 'f']
  else if c = '\r' then ['\\', 'r']
  else if c.toNat < 32 then
    ['\\', 'u', '0', '0', Nat.digitChar (c.toNat / 16), Nat.digitChar (c.toNat % 16)]
  else [c]

/-- The text of a string between its quotes. -/
def escape (s : List Char) : List Char := s.flatMap escapeChar

/-- A quoted string. -/
def quote (s : String) : List Char := '"' :: (escape s.toList ++ ['"'])

/-- An escaped character starts with a backslash, any other one stands for itself. -/
theorem escapeChar_cases :
    (escapeChar c = [c] ∧ c ≠ '"' ∧ c ≠ '\\') ∨ ∃ t, escapeChar c = '\\' :: t := by
  unfold escapeChar
  split_ifs <;> simp_all

/-- The character an escaped text starts with. -/
def unescape : List Char → Option (Char × List Char)
  | '\\' :: '"' :: r => some ('"', r)
  | '\\' :: '\\' :: r => some ('\\', r)
  | '\\' :: 'b' :: r => some (Char.ofNat 8, r)
  | '\\' :: 't' :: r => some ('\t', r)
  | '\\' :: 'n' :: r => some ('\n', r)
  | '\\' :: 'f' :: r => some (Char.ofNat 12, r)
  | '\\' :: 'r' :: r => some ('\r', r)
  | '\\' :: 'u' :: '0' :: '0' :: a :: b :: r =>
    some (Char.ofNat (16 * "0123456789abcdef".toList.idxOf a
      + "0123456789abcdef".toList.idxOf b), r)
  | c :: r => some (c, r)
  | [] => none

theorem unescape_escapeChar (r : List Char) : unescape (escapeChar c ++ r) = some (c, r) := by
  by_cases hctl : c.toNat < 32
  · have hc : c = Char.ofNat c.toNat := by simp
    generalize c.toNat = n at hc hctl
    subst hc
    interval_cases n <;> rfl
  · by_cases hq : c = '"'
    · subst hq; rfl
    by_cases hb : c = '\\'
    · subst hb; rfl
    have hne : ∀ n, n < 32 → c ≠ Char.ofNat n := by
      rintro n hn rfl
      interval_cases n <;> exact hctl (by decide)
    have h8 := hne 8 (by decide)
    have h9 : c ≠ '\t' := hne 9 (by decide)
    have h10 : c ≠ '\n' := hne 10 (by decide)
    have h12 := hne 12 (by decide)
    have h13 : c ≠ '\r' := hne 13 (by decide)
    have : escapeChar c = [c] := by simp [escapeChar, hq, hb, h8, h9, h10, h12, h13, hctl]
    unfold unescape
    split <;> simp_all

/-- **The escapes are a prefix code.** -/
theorem escapeChar_append_inj {c d : Char} {r r' : List Char}
    (h : escapeChar c ++ r = escapeChar d ++ r') : c = d ∧ r = r' := by
  have := congrArg unescape h
  rw [unescape_escapeChar, unescape_escapeChar] at this
  simpa using this

theorem escapeChar_ne_quote (r r' : List Char) : escapeChar c ++ r ≠ '"' :: r' := by
  rcases escapeChar_cases c with ⟨h, hq, -⟩ | ⟨t, h⟩ <;> rw [h] <;> simp_all

/-- **A quoted string ends at its own quote.** -/
theorem escape_append_inj : ∀ {s t : List Char} {r r' : List Char},
    escape s ++ '"' :: r = escape t ++ '"' :: r' → s = t ∧ r = r'
  | [], [], _, _, h => by simpa [escape] using h
  | [], d :: t, r, r', h => by
      rw [escape, escape, List.flatMap_nil, List.nil_append, List.flatMap_cons,
        List.append_assoc] at h
      exact absurd h.symm (escapeChar_ne_quote d _ _)
  | c :: s, [], r, r', h => by
      rw [escape, escape, List.flatMap_nil, List.nil_append, List.flatMap_cons,
        List.append_assoc] at h
      exact absurd h (escapeChar_ne_quote c _ _)
  | c :: s, d :: t, r, r', h => by
      rw [escape, escape, List.flatMap_cons, List.flatMap_cons, List.append_assoc,
        List.append_assoc] at h
      obtain ⟨rfl, h'⟩ := escapeChar_append_inj h
      obtain ⟨rfl, rfl⟩ := escape_append_inj h'
      exact ⟨rfl, rfl⟩

theorem quote_append_inj {s t : String} {r r' : List Char} (h : quote s ++ r = quote t ++ r') :
    s = t ∧ r = r' := by
  simp only [quote, List.cons_append, List.append_assoc, List.cons.injEq, true_and] at h
  obtain ⟨hs, rfl⟩ := escape_append_inj h
  exact ⟨String.toList_inj.mp hs, rfl⟩

/-! ## The printer -/

mutual

/-- The compact text of a value. -/
def Value.print : Value → List Char
  | .null => ['n', 'u', 'l', 'l']
  | .bool true => ['t', 'r', 'u', 'e']
  | .bool false => ['f', 'a', 'l', 's', 'e']
  | .number n => n.token
  | .string s => quote s
  | .array [] => ['[', ']']
  | .array (v :: vs) => '[' :: (v.print ++ printItems vs)
  | .object [] => ['{', '}']
  | .object ((k, v) :: fs) => '{' :: (quote k ++ ':' :: (v.print ++ printFields fs))

/-- The rest of an array, from the separator on. -/
def printItems : List Value → List Char
  | [] => [']']
  | v :: vs => ',' :: (v.print ++ printItems vs)

/-- The rest of an object, from the separator on. -/
def printFields : List (String × Value) → List Char
  | [] => ['}']
  | (k, v) :: fs => ',' :: (quote k ++ ':' :: (v.print ++ printFields fs))

end

/-- What follows a value does not extend a number token. -/
def Stops (r : List Char) : Prop := ∀ c ∈ r.head?, c ∉ numberChars

theorem stops_nil : Stops [] := by simp [Stops]

theorem stops_printItems (vs : List Value) (r : List Char) : Stops (printItems vs ++ r) := by
  cases vs <;> simp [printItems, Stops] <;> decide

theorem stops_printFields (fs : List (String × Value)) (r : List Char) :
    Stops (printFields fs ++ r) := by
  match fs with
  | [] => simp [printFields, Stops]; decide
  | (k, v) :: fs => simp [printFields, Stops]; decide

/-- Two number tokens, each followed by something that does not extend it, are the same token. -/
theorem token_append_inj : ∀ {s t r r' : List Char}, (∀ c ∈ s, c ∈ numberChars) →
    (∀ c ∈ t, c ∈ numberChars) → Stops r → Stops r' → s ++ r = t ++ r' → s = t ∧ r = r'
  | [], [], _, _, _, _, _, _, h => ⟨rfl, h⟩
  | [], d :: t, r, r', _, ht, hr, _, h => by
      subst h
      exact absurd (ht d List.mem_cons_self) (hr d (by simp))
  | c :: s, [], r, r', hs, _, _, hr', h => by
      subst h
      exact absurd (hs c List.mem_cons_self) (hr' c (by simp))
  | c :: s, d :: t, r, r', hs, ht, hr, hr', h => by
      simp only [List.cons_append, List.cons.injEq] at h
      obtain ⟨rfl, h⟩ := h
      obtain ⟨rfl, rfl⟩ := token_append_inj (fun a ha => hs a (List.mem_cons_of_mem _ ha))
        (fun a ha => ht a (List.mem_cons_of_mem _ ha)) hr hr' h
      exact ⟨rfl, rfl⟩

theorem number_head (n : Number) : ∃ c t, n.token = c :: t ∧ c ∈ numberChars := by
  cases h : n.token with
  | nil => exact absurd h n.ne_nil
  | cons c t => exact ⟨c, t, rfl, n.chars c (h ▸ List.mem_cons_self)⟩

theorem number_append_ne (n : Number) {c : Char} (hc : c ∉ numberChars) (r r' : List Char) :
    n.token ++ r ≠ c :: r' := by
  obtain ⟨d, t, h, hd⟩ := number_head n
  rw [h]
  rintro ⟨rfl, -⟩
  exact hc hd

/-- The first character of the text of a value that is not a number. -/
def Value.head : Value → Option Char
  | .null => some 'n'
  | .bool true => some 't'
  | .bool false => some 'f'
  | .number _ => none
  | .string _ => some '"'
  | .array _ => some '['
  | .object _ => some '{'

open Value

theorem Value.print_head {v : Value} {c : Char} (h : v.head = some c) (r : List Char) :
    ∃ t, v.print ++ r = c :: t ∧ c ∉ numberChars := by
  unfold head at h
  split at h <;> cases h
  · exact ⟨_, by simp [print]; rfl, by decide⟩
  · exact ⟨_, by simp [print]; rfl, by decide⟩
  · exact ⟨_, by simp [print]; rfl, by decide⟩
  · exact ⟨_, by simp [print]; rfl, by decide⟩
  · rename_i vs
    cases vs <;> exact ⟨_, by simp [print]; rfl, by decide⟩
  · rename_i fs
    rcases fs with _ | ⟨⟨k, v⟩, fs⟩ <;> exact ⟨_, by simp [print]; rfl, by decide⟩

theorem Value.head_eq_none {v : Value} (h : v.head = none) : ∃ n, v = .number n := by
  unfold head at h
  split at h <;> cases h
  exact ⟨_, rfl⟩

/-- **Texts that agree are of values of one kind.** -/
theorem Value.head_eq {v w : Value} {r r' : List Char} (h : v.print ++ r = w.print ++ r') :
    v.head = w.head := by
  cases hv : v.head with
  | some c =>
    obtain ⟨t, ht, hc⟩ := print_head hv r
    cases hw : w.head with
    | some d =>
      obtain ⟨t', ht', -⟩ := print_head hw r'
      simp_all
    | none =>
      obtain ⟨n, rfl⟩ := head_eq_none hw
      exact absurd (h.symm.trans ht) (number_append_ne n hc _ _)
  | none =>
    obtain ⟨n, rfl⟩ := head_eq_none hv
    cases hw : w.head with
    | some d =>
      obtain ⟨t', ht', hd⟩ := print_head hw r'
      exact absurd (h.trans ht') (number_append_ne n hd _ _)
    | none => rfl

/-- A closing bracket is no value's first character. -/
theorem Value.print_ne_close (v : Value) (r r' : List Char) :
    v.print ++ r ≠ ']' :: r' := by
  cases hv : v.head with
  | some c =>
    obtain ⟨t, ht, -⟩ := print_head hv r
    rw [ht]
    rintro ⟨rfl, -⟩
    unfold head at hv
    split at hv <;> simp at hv
  | none =>
    obtain ⟨n, rfl⟩ := head_eq_none hv
    exact number_append_ne n (by decide) _ _

mutual

/-- **The compact text of a value determines it, whatever follows it.** -/
theorem Value.print_append_inj : ∀ {v w : Value} {r r' : List Char}, Stops r → Stops r' →
    v.print ++ r = w.print ++ r' → v = w ∧ r = r'
  | .null, w, r, r', _, _, h => by
      have hk := head_eq h
      rcases w with _ | _ | _ | _ | _ | _ <;> simp_all [head, print]
      rename_i b
      cases b <;> simp at hk
  | .bool b, w, r, r', _, _, h => by
      have hk := head_eq h
      rcases w with _ | c | _ | _ | _ | _ <;> cases b <;> simp_all [head, print] <;>
        cases c <;> simp_all [print]
  | .number n, w, r, r', hr, hr', h => by
      obtain ⟨m, rfl⟩ := head_eq_none (head_eq h).symm
      simp only [print] at h
      obtain ⟨ht, rfl⟩ := token_append_inj n.chars m.chars hr hr' h
      cases n; cases m; cases ht
      exact ⟨rfl, rfl⟩
  | .string s, w, r, r', _, _, h => by
      have hk := head_eq h
      rcases w with _ | c | _ | t | _ | _ <;> simp_all [head]
      · cases c <;> simp at hk
      · simp only [print] at h
        exact quote_append_inj h
  | .array vs, w, r, r', _, _, h => by
      have hk := head_eq h
      rcases w with _ | c | _ | _ | ws | _ <;> simp_all [head]
      · cases c <;> simp at hk
      · match vs, ws with
        | [], [] => simpa [print] using h
        | [], w :: ws =>
          simp only [print, List.cons_append, List.append_assoc, List.cons.injEq,
            true_and, List.nil_append] at h
          exact absurd h.symm (print_ne_close w _ _)
        | v :: vs, [] =>
          simp only [print, List.cons_append, List.append_assoc, List.cons.injEq,
            true_and, List.nil_append] at h
          exact absurd h (print_ne_close v _ _)
        | v :: vs, w :: ws =>
          simp only [print, List.cons_append, List.append_assoc, List.cons.injEq,
            true_and] at h
          obtain ⟨rfl, hr⟩ :=
            Value.print_append_inj (stops_printItems _ _) (stops_printItems _ _) h
          obtain ⟨rfl, rfl⟩ := printItems_append_inj hr
          exact ⟨rfl, rfl⟩
  | .object fs, w, r, r', _, _, h => by
      have hk := head_eq h
      rcases w with _ | c | _ | _ | _ | gs <;> simp_all [head]
      · cases c <;> simp at hk
      · match fs, gs with
        | [], [] => simpa [print] using h
        | [], (k, w) :: gs => simp [print, quote] at h
        | (k, v) :: fs, [] => simp [print, quote] at h
        | (k, v) :: fs, (l, w) :: gs =>
          simp only [print, List.cons_append, List.append_assoc, List.cons.injEq,
            true_and] at h
          obtain ⟨rfl, hv⟩ := quote_append_inj h
          simp only [List.cons.injEq, true_and] at hv
          obtain ⟨rfl, hr⟩ :=
            Value.print_append_inj (stops_printFields _ _) (stops_printFields _ _) hv
          obtain ⟨rfl, rfl⟩ := printFields_append_inj hr
          exact ⟨rfl, rfl⟩

theorem printItems_append_inj : ∀ {vs ws : List Value} {r r' : List Char},
    printItems vs ++ r = printItems ws ++ r' → vs = ws ∧ r = r'
  | [], [], _, _, h => by simpa [printItems] using h
  | [], w :: ws, _, _, h => by simp [printItems] at h
  | v :: vs, [], _, _, h => by simp [printItems] at h
  | v :: vs, w :: ws, r, r', h => by
      simp only [printItems, List.cons_append, List.append_assoc, List.cons.injEq, true_and] at h
      obtain ⟨rfl, hr⟩ := Value.print_append_inj (stops_printItems _ _) (stops_printItems _ _) h
      obtain ⟨rfl, rfl⟩ := printItems_append_inj hr
      exact ⟨rfl, rfl⟩

theorem printFields_append_inj : ∀ {fs gs : List (String × Value)} {r r' : List Char},
    printFields fs ++ r = printFields gs ++ r' → fs = gs ∧ r = r'
  | [], [], _, _, h => by simpa [printFields] using h
  | [], (k, w) :: gs, _, _, h => by simp [printFields] at h
  | (k, v) :: fs, [], _, _, h => by simp [printFields] at h
  | (k, v) :: fs, (l, w) :: gs, r, r', h => by
      simp only [printFields, List.cons_append, List.append_assoc, List.cons.injEq, true_and] at h
      obtain ⟨rfl, hv⟩ := quote_append_inj h
      simp only [List.cons.injEq, true_and] at hv
      obtain ⟨rfl, hr⟩ := Value.print_append_inj (stops_printFields _ _) (stops_printFields _ _) hv
      obtain ⟨rfl, rfl⟩ := printFields_append_inj hr
      exact ⟨rfl, rfl⟩

end

/-- **The compact text determines the value.** -/
theorem Value.print_injective : Function.Injective print := by
  intro v w h
  exact (print_append_inj stops_nil stops_nil (by simpa using h)).1

instance : DecidableEq Value := fun _ _ => decidable_of_iff _ Value.print_injective.eq_iff

theorem Value.print_ne_nil : ∀ v : Value, v.print ≠ []
  | .null | .bool true | .bool false | .string _ | .array [] | .array (_ :: _) | .object [] => by
    simp [print, quote]
  | .object ((_, _) :: _) => by simp [print]
  | .number n => by simpa only [print] using n.ne_nil

/-- Read back the value whose text this is, if there is one. -/
noncomputable def unprint {α : Type} (print : α → List Char) (line : List Char) :
    Except String α :=
  open Classical in if h : ∃ a, print a = line then .ok h.choose else .error "not a value"

theorem unprint_print {α : Type} {print : α → List Char} (h : Function.Injective print) (a : α) :
    unprint print (print a) = .ok a := by
  have hex : ∃ a', print a' = print a := ⟨a, rfl⟩
  rw [unprint, dif_pos hex]
  exact congrArg Except.ok (h hex.choose_spec)

/-- The values a parser can hold that keeps the fields of an object in a map: the keys are in order,
and the numbers are machine integers. -/
inductive Value.Canonical : Value → Prop
  | null : Canonical .null
  | bool (b : Bool) : Canonical (.bool b)
  | nat {n : ℕ} (h : n < 2 ^ 64) : Canonical (jsonNat n)
  | string (s : String) : Canonical (.string s)
  | array {items : List Value} (h : ∀ v ∈ items, v.Canonical) : Canonical (.array items)
  | object {fields : List (String × Value)} (keys : (fields.map Prod.fst).Pairwise (· < ·))
      (h : ∀ v ∈ fields.map Prod.snd, v.Canonical) : Canonical (.object fields)

/-! ## Compact text is one line -/

/-- A text is checked character by character: deciding the statement over all characters is out of
reach. -/
theorem no_control_of_all {cs : List Char} (h : cs.all (fun d => 32 ≤ d.toNat) = true) :
    ∀ d ∈ cs, 32 ≤ d.toNat :=
  fun d hd => of_decide_eq_true (List.all_eq_true.mp h d hd)

theorem escapeChar_no_control : ∀ d ∈ escapeChar c, 32 ≤ d.toNat := by
  by_cases hctl : c.toNat < 32
  · have hc : c = Char.ofNat c.toNat := by simp
    generalize c.toNat = n at hc hctl
    subst hc
    interval_cases n <;> exact no_control_of_all (by decide)
  · intro d hd
    unfold escapeChar at hd
    split_ifs at hd <;> simp only [List.mem_cons, List.not_mem_nil, or_false] at hd
    all_goals first
      | (rcases hd with rfl | rfl <;> decide)
      | (subst hd; omega)

theorem quote_no_control (s : String) : ∀ d ∈ quote s, 32 ≤ d.toNat := by
  intro d hd
  simp only [quote, escape, List.mem_cons, List.mem_append, List.mem_flatMap, List.not_mem_nil,
    or_false] at hd
  rcases hd with rfl | ⟨c, -, hd⟩ | rfl
  · decide
  · exact escapeChar_no_control c d hd
  · decide

theorem numberChars_no_control : ∀ d ∈ numberChars, 32 ≤ d.toNat := no_control_of_all (by decide)

mutual

/-- **Compact text has no control characters,** so it is one line. -/
theorem Value.print_no_control : ∀ (v : Value), ∀ d ∈ v.print, 32 ≤ d.toNat
  | .null => by simp only [print]; exact no_control_of_all (by decide)
  | .bool true => by simp only [print]; exact no_control_of_all (by decide)
  | .bool false => by simp only [print]; exact no_control_of_all (by decide)
  | .number n => fun d hd => numberChars_no_control d (n.chars d (by simpa [print] using hd))
  | .string s => by simpa only [print] using quote_no_control s
  | .array [] => by simp only [print]; exact no_control_of_all (by decide)
  | .array (v :: vs) => fun d hd => by
      simp only [print, List.mem_cons, List.mem_append] at hd
      rcases hd with rfl | hd | hd
      · decide
      · exact Value.print_no_control v d hd
      · exact printItems_no_control vs d hd
  | .object [] => by simp only [print]; exact no_control_of_all (by decide)
  | .object ((k, v) :: fs) => fun d hd => by
      simp only [print, List.mem_cons, List.mem_append] at hd
      rcases hd with rfl | hd | rfl | hd | hd
      · decide
      · exact quote_no_control k d hd
      · decide
      · exact Value.print_no_control v d hd
      · exact printFields_no_control fs d hd

theorem printItems_no_control : ∀ (vs : List Value), ∀ d ∈ printItems vs, 32 ≤ d.toNat
  | [] => by simp only [printItems]; exact no_control_of_all (by decide)
  | v :: vs => fun d hd => by
      simp only [printItems, List.mem_cons, List.mem_append] at hd
      rcases hd with rfl | hd | hd
      · decide
      · exact Value.print_no_control v d hd
      · exact printItems_no_control vs d hd

theorem printFields_no_control :
    ∀ (fs : List (String × Value)), ∀ d ∈ printFields fs, 32 ≤ d.toNat
  | [] => by simp only [printFields]; exact no_control_of_all (by decide)
  | (k, v) :: fs => fun d hd => by
      simp only [printFields, List.mem_cons, List.mem_append] at hd
      rcases hd with rfl | hd | rfl | hd | hd
      · decide
      · exact quote_no_control k d hd
      · decide
      · exact Value.print_no_control v d hd
      · exact printFields_no_control fs d hd

end

/-! ## Bytes -/

/-- The UTF-8 bytes of a text. -/
def utf8 (s : List Char) : List UInt8 := s.flatMap String.utf8EncodeChar

theorem utf8_injective : Function.Injective utf8 := by
  intro s t h
  have hb : s.utf8Encode = t.utf8Encode := congrArg List.toByteArray h
  have := congrArg ByteArray.utf8Decode? hb
  rw [List.utf8Decode?_utf8Encode, List.utf8Decode?_utf8Encode, Option.some.injEq] at this
  simpa using congrArg Array.toList this

theorem utf8ByteSize_ofList (s : List Char) :
    (String.ofList s).utf8ByteSize = (utf8 s).length := by
  change (String.ofList s).toByteArray.size = _
  simp [utf8, List.utf8Encode]

@[simp] theorem utf8_append (s t : List Char) : utf8 (s ++ t) = utf8 s ++ utf8 t := by
  simp [utf8]

/-- The text of UTF-8 bytes. -/
def fromUtf8 (bytes : List UInt8) : Option (List Char) :=
  (bytes.toByteArray.utf8Decode?).map Array.toList

theorem fromUtf8_eq_some {bytes : List UInt8} {s : List Char} :
    fromUtf8 bytes = some s ↔ bytes = utf8 s := by
  rw [fromUtf8, Option.map_eq_some_iff]
  constructor
  · rintro ⟨a, ha, rfl⟩
    have hget : bytes.toByteArray.utf8Decode?.get (by rw [ha]; rfl) = a := by simp [ha]
    have := ByteArray.utf8Encode_get_utf8Decode? (b := bytes.toByteArray) (h := by rw [ha]; rfl)
    rw [hget] at this
    simpa [List.utf8Encode, utf8] using this.symm
  · rintro rfl
    exact ⟨s.toArray, List.utf8Decode?_utf8Encode, rfl⟩

/-- The bytes a serializer writes for a value. -/
def Value.toVec (v : Value) : List UInt8 := utf8 v.print

theorem Value.toVec_injective : Function.Injective toVec :=
  utf8_injective.comp print_injective

/-! ## Sorted keys -/

/-- Insert a field into an object whose keys are in order; a field that is there already stays. -/
def insertField (k : String) (v : Value) : List (String × Value) → List (String × Value)
  | [] => [(k, v)]
  | (l, w) :: fs =>
    match compare k l with
    | .lt => (k, v) :: (l, w) :: fs
    | .eq => (l, w) :: fs
    | .gt => (l, w) :: insertField k v fs

mutual

/-- A value with the keys of every object in order. -/
def Value.sortKeys : Value → Value
  | .array vs => .array (sortItems vs)
  | .object fs => .object (sortFields fs)
  | .null => .null
  | .bool b => .bool b
  | .number n => .number n
  | .string s => .string s

def sortItems : List Value → List Value
  | [] => []
  | v :: vs => v.sortKeys :: sortItems vs

/-- Of two fields with one key the later one is kept. -/
def sortFields : List (String × Value) → List (String × Value)
  | [] => []
  | (k, v) :: fs => insertField k v.sortKeys (sortFields fs)

end

theorem sortItems_eq_map : ∀ vs : List Value, sortItems vs = vs.map sortKeys
  | [] => rfl
  | v :: vs => by rw [sortItems, sortItems_eq_map vs, List.map_cons]

/-- The canonical bytes of a value: compact, keys in order. -/
def canonicalize (v : Value) : List UInt8 := v.sortKeys.toVec

theorem canonicalize_eq_iff {v w : Value} : canonicalize v = canonicalize w ↔
    v.sortKeys = w.sortKeys := by
  rw [canonicalize, canonicalize, toVec_injective.eq_iff]

/-! ## Looking into a value -/

/-- The field of an object. -/
def Value.get (v : Value) (key : String) : Option Value :=
  match v with
  | .object fields => (fields.find? fun f => f.1 = key).map Prod.snd
  | _ => none

def Value.asStr : Value → Option String
  | .string s => some s
  | _ => none

def Value.asArray : Value → Option (List Value)
  | .array vs => some vs
  | _ => none

/-- A number that is written as a natural number of 64 bits. -/
def Value.asU64 : Value → Option ℕ
  | .number n =>
    if n.token.all Char.isDigit ∧ Nat.ofDigitChars 10 n.token 0 < 2 ^ 64 then
      some (Nat.ofDigitChars 10 n.token 0)
    else none
  | _ => none

/-- A machine integer reads back. -/
theorem Value.asU64_jsonNat {n : ℕ} (h : n < 2 ^ 64) : (jsonNat n).asU64 = some n := by
  have hdigits : (Nat.toDigits 10 n).all Char.isDigit = true := List.all_eq_true.mpr fun c hc =>
    Nat.isDigit_of_mem_toDigits (by decide) (by decide) hc
  simp only [jsonNat, Number.ofNat, asU64, Nat.ofDigitChars_ten_toDigits]
  rw [if_pos ⟨hdigits, h⟩]

/-- The text in a field of an object. -/
def Value.getStr (v : Value) (key : String) : Option String := (v.get key).bind Value.asStr

end Library.Json
