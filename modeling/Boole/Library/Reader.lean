import Mathlib.Data.List.Induction
import Mathlib.Data.Nat.Init
import Boole.Library.Bytes

/-!
# Library/Reader — fixed-width fields read one after another

A reader takes a prefix of the input and hands on the rest.  **A reader that returned names the
bytes it took** (`take_eq_some`, `nat_eq_some`, `word_eq_some`, `words_eq_some`), with an arbitrary
continuation, so that a layout written as a `do` block reads as a concatenation of fields.
-/

namespace Library

/-- The number whose base-256 digits are the bytes, most significant first. -/
def ofBytes (l : List UInt8) : ℕ := l.foldl (fun n b => 256 * n + b.toNat) 0

/-- The bytes of a word, most significant first. -/
def wordBytes {w : ℕ} (x : BitVec w) : List UInt8 := beBytes (w / 8) x.toNat

@[simp] theorem length_wordBytes {w : ℕ} (x : BitVec w) : (wordBytes x).length = w / 8 :=
  length_beBytes _ _

/-! ## Numbers and their bytes -/

theorem ofBytes_append (l : List UInt8) (b : UInt8) :
    ofBytes (l ++ [b]) = 256 * ofBytes l + b.toNat := by
  simp [ofBytes]

theorem beBytes_succ (n x : ℕ) :
    beBytes (n + 1) x = beBytes n (x / 256) ++ [UInt8.ofNat (x % 256)] := by
  simp [beBytes, leBytes]

theorem ofBytes_beBytes {n x : ℕ} (hx : x < 256 ^ n) : ofBytes (beBytes n x) = x := by
  induction n generalizing x with
  | zero =>
    obtain rfl : x = 0 := by simpa using hx
    rfl
  | succ n ih =>
    have hdiv : x / 256 < 256 ^ n := by
      rw [Nat.div_lt_iff_lt_mul (by decide)]
      rwa [Nat.pow_succ] at hx
    rw [beBytes_succ, ofBytes_append, ih hdiv, UInt8.toNat_ofNat']
    omega

theorem ofBytes_lt (l : List UInt8) : ofBytes l < 256 ^ l.length := by
  induction l using List.reverseRecOn with
  | nil => decide
  | append_singleton l b ih =>
    have hb := b.toNat_lt
    rw [ofBytes_append, List.length_append, List.length_singleton]
    omega

/-- The last bytes are the number modulo a power. -/
theorem ofBytes_append_mod (l l' : List UInt8) :
    ofBytes (l ++ l') % 256 ^ l'.length = ofBytes l' := by
  have hsum : ofBytes (l ++ l') = ofBytes l * 256 ^ l'.length + ofBytes l' := by
    induction l' using List.reverseRecOn with
    | nil => simp [ofBytes]
    | append_singleton l' b ih =>
      rw [← List.append_assoc, ofBytes_append, ofBytes_append, ih, List.length_append,
        List.length_singleton, Nat.pow_succ, ← Nat.mul_assoc, Nat.mul_comm _ 256, Nat.mul_add,
        Nat.add_assoc]
  rw [hsum, Nat.mul_add_mod_self_right, Nat.mod_eq_of_lt (ofBytes_lt l')]

theorem beBytes_ofBytes (l : List UInt8) : beBytes l.length (ofBytes l) = l := by
  induction l using List.reverseRecOn with
  | nil => rfl
  | append_singleton l b ih =>
    have hb := b.toNat_lt
    rw [ofBytes_append, List.length_append, List.length_singleton, beBytes_succ,
      show (256 * ofBytes l + b.toNat) / 256 = ofBytes l by omega,
      show (256 * ofBytes l + b.toNat) % 256 = b.toNat by omega, ih, UInt8.ofNat_toNat]

theorem pow_div_eight {n w : ℕ} (hw : w = 8 * n) : 256 ^ (w / 8) = 2 ^ w := by
  rw [show (256 : ℕ) = 2 ^ 8 by rfl, ← Nat.pow_mul, hw, Nat.mul_div_cancel_left n (by decide)]

theorem wordBytes_injective {n w : ℕ} (hw : w = 8 * n) :
    Function.Injective (wordBytes : BitVec w → List UInt8) := by
  intro x y h
  refine BitVec.eq_of_toNat_eq (beBytes_inj ?_ ?_ h)
  · rw [pow_div_eight hw]
    exact x.isLt
  · rw [pow_div_eight hw]
    exact y.isLt

/-! ## Readers -/

/-- A reader returns a value and the bytes it left. -/
abbrev Reader (α : Type) := StateT (List UInt8) Option α

namespace Reader

variable {α β : Type} {b r : List UInt8}

/-- The next `n` bytes. -/
def take (n : ℕ) : Reader (List UInt8) :=
  fun b => if n ≤ b.length then some (b.take n, b.drop n) else none

/-- The number in the next `n` bytes. -/
def nat (n : ℕ) : Reader ℕ := do
  let l ← take n
  pure (ofBytes l)

/-- The word in the next bytes. -/
def word (w : ℕ) : Reader (BitVec w) := do
  let x ← nat (w / 8)
  pure (BitVec.ofNat w x)

/-- The next `k` words. -/
def words (w : ℕ) : ℕ → Reader (List (BitVec w))
  | 0 => pure []
  | k + 1 => do
    let x ← word w
    let xs ← words w k
    pure (x :: xs)

/-- Go on only under a condition. -/
def require (p : Prop) [Decidable p] : Reader Unit := fun b => if p then some ((), b) else none

/-- The bytes that are left. -/
def rest : Reader (List UInt8) := fun b => some (b, b)

/-- All bytes that are left, taken. -/
def remaining : Reader (List UInt8) := fun b => some (b, [])

/-- Read the whole input. -/
def all (x : Reader α) (b : List UInt8) : Option α :=
  match x.run b with
  | some (a, []) => some a
  | _ => none

theorem bind_eq_some {x : Reader α} {f : α → Reader β} {y : β} :
    (x >>= f).run b = some (y, r) ↔ ∃ a s, x.run b = some (a, s) ∧ (f a).run s = some (y, r) := by
  simp [Option.bind_eq_some_iff]

theorem pure_eq_some {a y : α} :
    (pure a : Reader α).run b = some (y, r) ↔ a = y ∧ b = r := by
  simp

theorem rest_eq_some {l : List UInt8} : rest.run b = some (l, r) ↔ b = l ∧ b = r := by
  simp [rest, StateT.run]

theorem all_eq_some {x : Reader α} {a : α} : x.all b = some a ↔ x.run b = some (a, []) := by
  unfold all
  split
  · simp_all
  · rename_i hne
    constructor
    · rintro ⟨⟩
    · intro h
      exact absurd h (hne a)

theorem take_eq_some {n : ℕ} {l : List UInt8} :
    (take n).run b = some (l, r) ↔ l.length = n ∧ b = l ++ r := by
  simp only [take, StateT.run]
  constructor
  · intro h
    split_ifs at h with hn
    cases h
    exact ⟨by simp [hn], (List.take_append_drop n b).symm⟩
  · rintro ⟨rfl, rfl⟩
    simp

theorem nat_eq_some {n x : ℕ} :
    (nat n).run b = some (x, r) ↔ x < 256 ^ n ∧ b = beBytes n x ++ r := by
  simp only [nat, bind_eq_some, take_eq_some, pure_eq_some]
  constructor
  · rintro ⟨l, s, ⟨rfl, rfl⟩, rfl, rfl⟩
    exact ⟨ofBytes_lt l, by rw [beBytes_ofBytes]⟩
  · rintro ⟨hx, rfl⟩
    exact ⟨_, r, ⟨length_beBytes n x, rfl⟩, ofBytes_beBytes hx, rfl⟩

theorem word_eq_some {n w : ℕ} (hw : w = 8 * n) {x : BitVec w} :
    (word w).run b = some (x, r) ↔ b = wordBytes x ++ r := by
  simp only [word, bind_eq_some, nat_eq_some, pure_eq_some, pow_div_eight hw, wordBytes]
  constructor
  · rintro ⟨y, s, ⟨hy, rfl⟩, rfl, rfl⟩
    rw [BitVec.toNat_ofNat, Nat.mod_eq_of_lt hy]
  · rintro rfl
    exact ⟨x.toNat, r, ⟨x.isLt, rfl⟩, by simp, rfl⟩

theorem words_eq_some {n w k : ℕ} (hw : w = 8 * n) {xs : List (BitVec w)} :
    (words w k).run b = some (xs, r) ↔ xs.length = k ∧ b = xs.flatMap wordBytes ++ r := by
  induction k generalizing b r xs with
  | zero =>
    rw [words, pure_eq_some]
    constructor
    · rintro ⟨rfl, rfl⟩
      exact ⟨rfl, rfl⟩
    · rintro ⟨hlen, rfl⟩
      obtain rfl := List.length_eq_zero_iff.mp hlen
      exact ⟨rfl, rfl⟩
  | succ k ih =>
    simp only [words, bind_eq_some, word_eq_some hw, ih, pure_eq_some]
    constructor
    · rintro ⟨x, _, rfl, xs', _, ⟨rfl, rfl⟩, rfl, rfl⟩
      exact ⟨rfl, by rw [List.flatMap_cons, List.append_assoc]⟩
    · rintro ⟨hlen, rfl⟩
      cases xs with
      | nil => simp at hlen
      | cons x xs =>
        refine ⟨x, _, ?_, xs, r, ⟨Nat.succ.inj hlen, rfl⟩, rfl, rfl⟩
        rw [List.flatMap_cons, List.append_assoc]

/-! ## Two readers on one input -/

/-- What two readers return from the same bytes is related, and they leave the same bytes. -/
def Alike {α' : Type} (R : α → α' → Prop) (x : Reader α) (y : Reader α') : Prop :=
  ∀ b a r a' r', x.run b = some (a, r) → y.run b = some (a', r') → R a a' ∧ r = r'

theorem of_alike {α' : Type} {R : α → α' → Prop} {x : Reader α} {y : Reader α'} {r' : List UInt8} {a : α}
    {a' : α'} (hx : x.run b = some (a, r)) (hy : y.run b = some (a', r')) (h : Alike R x y) : R a a' :=
  (h b a r a' r' hx hy).1

theorem alike_pure {α' : Type} {R : α → α' → Prop} {a : α} {a' : α'} (h : R a a') :
    Alike R (pure a) (pure a') := by
  intro b y r y' r' hy hy'
  obtain ⟨rfl, rfl⟩ := pure_eq_some.mp hy
  obtain ⟨rfl, rfl⟩ := pure_eq_some.mp hy'
  exact ⟨h, rfl⟩

/-- **Readers that start with the same field differ only in what they do afterwards.** -/
theorem alike_bind {β' : Type} {R : β → β' → Prop} {x : Reader α} {f : α → Reader β}
    {g : α → Reader β'} (h : ∀ a, Alike R (f a) (g a)) : Alike R (x >>= f) (x >>= g) := by
  intro b y r y' r' hy hy'
  obtain ⟨a, s, ha, hy⟩ := bind_eq_some.mp hy
  obtain ⟨a', s', ha', hy'⟩ := bind_eq_some.mp hy'
  obtain ⟨rfl, rfl⟩ := Prod.mk.inj (Option.mem_unique ha ha')
  exact h a s y r y' r' hy hy'

end Reader

end Library
