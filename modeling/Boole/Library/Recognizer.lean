import Mathlib.Data.Nat.Init
import Boole.Library.Bytes

/-!
# Library/Recognizer — walks that accept the encodings of a type and nothing else

A walk goes over a prefix of its input and hands on what is left.  It **recognizes** an encoding
when the prefixes it goes over are exactly the encodings of the values that satisfy a condition:

    w s = ok s'   ⟺   ∃ x, P x ∧ s = encode x ++ s'

Recognizers compose as their encodings do: one after another (`Recognizes.seq`), a given number of
times (`Recognizes.iterate`), after a count (`Recognizes.counted`).  Which value was walked over is
a question about the encoding alone: it is determined when the encoding is **prefix free**.

A walk may be written over another state, a position in place of what is left; `InStep` relates the
two computations, state by state.
-/

namespace Library

/-! ## Prefix-free encodings -/

section PrefixFree

variable {α γ : Type*} {f : α → List γ}

/-- An encoding that can be cut off the front of a stream in one way only. -/
def PrefixFree (f : α → List γ) : Prop :=
  ∀ ⦃x y : α⦄ ⦃r r' : List γ⦄, f x ++ r = f y ++ r' → x = y ∧ r = r'

/-- Injective encodings of one length. -/
theorem prefixFree_of_length {n : ℕ} (hf : Function.Injective f) (hlen : ∀ x, (f x).length = n) :
    PrefixFree f := by
  intro x y r r' h
  obtain ⟨hxy, hr⟩ := List.append_inj h ((hlen x).trans (hlen y).symm)
  exact ⟨hf hxy, hr⟩

/-- Lists of one length, element by element. -/
theorem PrefixFree.flatMap_inj (hf : PrefixFree f) {l l' : List α} {r r' : List γ}
    (hlen : l.length = l'.length) (h : l.flatMap f ++ r = l'.flatMap f ++ r') : l = l' ∧ r = r' := by
  induction l generalizing l' with
  | nil =>
    obtain rfl := List.length_eq_zero_iff.mp hlen.symm
    exact ⟨rfl, h⟩
  | cons x l ih =>
    cases l' with
    | nil => exact nomatch hlen
    | cons y l' =>
      simp only [List.flatMap_cons, List.append_assoc] at h
      obtain ⟨rfl, hrest⟩ := hf h
      obtain ⟨rfl, hr⟩ := ih (Nat.succ.inj hlen) hrest
      exact ⟨rfl, hr⟩

end PrefixFree

/-! ## Lists behind a count -/

/-- A list whose length can be written in `w` bytes. -/
def Counted (w : ℕ) (α : Type*) := {l : List α // l.length < 256 ^ w}

namespace Counted

variable {w : ℕ} {α : Type*} {f : α → List UInt8}

/-- The length, least significant byte first, and then the elements. -/
def encode (f : α → List UInt8) (c : Counted w α) : List UInt8 :=
  leBytes w c.1.length ++ c.1.flatMap f

theorem prefixFree (hf : PrefixFree f) : PrefixFree (encode f : Counted w α → List UInt8) := by
  rintro ⟨l, hl⟩ ⟨l', hl'⟩ r r' h
  simp only [encode, List.append_assoc] at h
  obtain ⟨hcount, hrest⟩ := List.append_inj h (by simp)
  obtain ⟨rfl, hr⟩ := hf.flatMap_inj (leBytes_inj hl hl' hcount) hrest
  exact ⟨rfl, hr⟩

end Counted

/-! ## Recognizers -/

section Recognizes

variable {ε : Type} {γ : Type} {α β : Type*}

/-- A walk that may fail, and otherwise leaves a part of its input. -/
abbrev Walker (ε γ : Type) := StateT (List γ) (Except ε)

theorem Walker.bind_eq_ok {τ τ' : Type} {w : Walker ε γ τ} {k : τ → Walker ε γ τ'} {s : List γ}
    {r : τ' × List γ} :
    (w >>= k) s = .ok r ↔ ∃ a t, w s = .ok (a, t) ∧ k a t = .ok r := by
  change (w s >>= fun p => k p.1 p.2) = .ok r ↔ ∃ a t, w s = .ok (a, t) ∧ k a t = .ok r
  cases w s with
  | error e =>
    constructor
    · rintro ⟨⟩
    · rintro ⟨a, t, ⟨⟩, -⟩
  | ok p =>
    constructor
    · intro hk
      exact ⟨p.1, p.2, rfl, hk⟩
    · rintro ⟨a, t, hp, hk⟩
      obtain rfl := Except.ok.inj hp
      exact hk

theorem Walker.pure_eq_ok {τ : Type} {a : τ} {s : List γ} {r : τ × List γ} :
    (pure a : Walker ε γ τ) s = .ok r ↔ (a, s) = r := by
  change Except.ok (a, s) = .ok r ↔ _
  simp

theorem Walker.throw_ne_ok {τ : Type} {e : ε} {s : List γ} {r : τ × List γ} :
    (throw e : Walker ε γ τ) s = .ok r ↔ False := by
  change Except.error e = .ok r ↔ _
  simp

/-- **The walk goes over the encodings of the values that satisfy `P`, and over nothing else.** -/
def Recognizes (w : Walker ε γ Unit) (P : α → Prop) (f : α → List γ) : Prop :=
  ∀ s s', w s = .ok ((), s') ↔ ∃ x, P x ∧ s = f x ++ s'

variable {w w' : Walker ε γ Unit} {P : α → Prop} {Q : β → Prop} {f : α → List γ} {g : β → List γ}

theorem Recognizes.seq (h : Recognizes w P f) (h' : Recognizes w' Q g) :
    Recognizes (do w; w') (fun x : α × β => P x.1 ∧ Q x.2) (fun x => f x.1 ++ g x.2) := by
  intro s s'
  simp only [Walker.bind_eq_ok, h s, h' _ s']
  constructor
  · rintro ⟨-, t, ⟨x, hx, rfl⟩, y, hy, rfl⟩
    exact ⟨(x, y), ⟨hx, hy⟩, (List.append_assoc ..).symm⟩
  · rintro ⟨⟨x, y⟩, ⟨hx, hy⟩, rfl⟩
    exact ⟨(), g y ++ s', ⟨x, hx, List.append_assoc ..⟩, y, hy, rfl⟩

/-- The same walk a given number of times. -/
theorem Recognizes.iterate {rep : ℕ → Walker ε γ Unit} (h : Recognizes w P f)
    (hzero : rep 0 = pure ()) (hsucc : ∀ k, rep (k + 1) = (do w; rep k)) (k : ℕ) :
    Recognizes (rep k) (fun l : List α => l.length = k ∧ ∀ x ∈ l, P x) (List.flatMap f) := by
  induction k with
  | zero =>
    intro s s'
    rw [hzero]
    constructor
    · rintro ⟨⟩
      exact ⟨[], ⟨rfl, fun _ h => nomatch h⟩, rfl⟩
    · rintro ⟨l, ⟨hl, -⟩, rfl⟩
      obtain rfl := List.length_eq_zero_iff.mp hl
      rfl
  | succ k ih =>
    intro s s'
    rw [hsucc, h.seq ih]
    constructor
    · rintro ⟨⟨x, l⟩, ⟨hx, rfl, hl⟩, rfl⟩
      exact ⟨x :: l, ⟨rfl, List.forall_mem_cons.mpr ⟨hx, hl⟩⟩, rfl⟩
    · rintro ⟨l, ⟨hlen, hl⟩, rfl⟩
      cases l with
      | nil => exact nomatch hlen
      | cons x l =>
        obtain ⟨hx, hl⟩ := List.forall_mem_cons.mp hl
        exact ⟨(x, l), ⟨hx, Nat.succ.inj hlen, hl⟩, rfl⟩

/-- A count, and then that many elements. -/
theorem Recognizes.counted {n : ℕ} {u : Walker ε UInt8 ℕ} {rep : ℕ → Walker ε UInt8 Unit}
    {f : α → List UInt8}
    (hu : ∀ s k s', u s = .ok (k, s') ↔ k < 256 ^ n ∧ s = leBytes n k ++ s')
    (h : ∀ k, Recognizes (rep k) (fun l : List α => l.length = k ∧ ∀ x ∈ l, P x) (List.flatMap f)) :
    Recognizes (u >>= rep) (fun c : Counted n α => ∀ x ∈ c.1, P x) (Counted.encode f) := by
  intro s s'
  simp only [Walker.bind_eq_ok, hu, h _ _ s']
  constructor
  · rintro ⟨k, t, ⟨hk, rfl⟩, l, ⟨rfl, hl⟩, rfl⟩
    exact ⟨⟨l, hk⟩, hl, (List.append_assoc ..).symm⟩
  · rintro ⟨⟨l, hk⟩, hl, rfl⟩
    exact ⟨l.length, _, ⟨hk, List.append_assoc ..⟩, l, ⟨rfl, hl⟩, rfl⟩

end Recognizes

/-! ## Two computations in step -/

section InStep

variable {σ τ ε ε' α β : Type} {R : σ → τ → Prop} {φ : ε → ε'}

theorem bind_apply_ok {x : StateT σ (Except ε) α} {f : α → StateT σ (Except ε) β} {s s' : σ} {a : α}
    (h : x s = .ok (a, s')) : (x >>= f) s = f a s' := by
  change (x s >>= fun p => f p.1 p.2) = f a s'
  rw [h]
  rfl

theorem bind_apply_error {x : StateT σ (Except ε) α} {f : α → StateT σ (Except ε) β} {s : σ} {e : ε}
    (h : x s = .error e) : (x >>= f) s = .error e := by
  change (x s >>= fun p => f p.1 p.2) = .error e
  rw [h]
  rfl

/-- From related states both return the same value in related states, or both fail, the second with
the error of the first. -/
def InStep (R : σ → τ → Prop) (φ : ε → ε') (x : StateT σ (Except ε) α) (y : StateT τ (Except ε') α) :
    Prop :=
  ∀ s t, R s t →
    (∃ a s' t', x s = .ok (a, s') ∧ y t = .ok (a, t') ∧ R s' t') ∨
      ∃ e, x s = .error e ∧ y t = .error (φ e)

theorem inStep_pure (a : α) : InStep R φ (pure a) (pure a) :=
  fun s t h => .inl ⟨a, s, t, rfl, rfl, h⟩

theorem inStep_throw (e : ε) :
    InStep R φ (throw e : StateT σ (Except ε) α) (throw (φ e)) :=
  fun _ _ _ => .inr ⟨e, rfl, rfl⟩

theorem InStep.bind {x : StateT σ (Except ε) α} {y : StateT τ (Except ε') α}
    {f : α → StateT σ (Except ε) β} {g : α → StateT τ (Except ε') β} (h : InStep R φ x y)
    (hk : ∀ a, InStep R φ (f a) (g a)) : InStep R φ (x >>= f) (y >>= g) := by
  intro s t hst
  obtain ⟨a, s', t', hx, hy, hst'⟩ | ⟨e, hx, hy⟩ := h s t hst
  · rw [bind_apply_ok hx, bind_apply_ok hy]
    exact hk a s' t' hst'
  · exact .inr ⟨e, bind_apply_error hx, bind_apply_error hy⟩

theorem InStep.ite {p : Prop} [Decidable p] {x x' : StateT σ (Except ε) α} {y y' : StateT τ (Except ε') α}
    (h : InStep R φ x y) (h' : InStep R φ x' y') :
    InStep R φ (if p then x else x') (if p then y else y') := by
  split_ifs
  · exact h
  · exact h'

end InStep

end Library
