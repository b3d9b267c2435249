import Boole.Library.Instances
import Mathlib.Data.List.Basic
import Mathlib.Order.Nat

/-!
# Library/Levels — lists that ascend in a level

The entries of a schedule have levels, strictly ascending.  **What a schedule holds up to a level is a
prefix of it**, and going up one level adds at most one entry (`upTo_succ`).
-/

namespace Library

variable {α : Type*} (f : α → ℕ)

/-- The entries up to a level. -/
def upTo (n : ℕ) (l : List α) : List α := l.filter fun x => f x ≤ n

variable {f}

theorem upTo_cons_of_le {n : ℕ} {x : α} {l : List α} (h : f x ≤ n) :
    upTo f n (x :: l) = x :: upTo f n l :=
  List.filter_cons_of_pos (by simpa using h)

theorem upTo_cons_of_lt {n : ℕ} {x : α} {l : List α} (h : n < f x) :
    upTo f n (x :: l) = upTo f n l :=
  List.filter_cons_of_neg (by simpa using h)

/-- Nothing is left when the first level is too high. -/
theorem upTo_eq_nil {n : ℕ} {l : List α} (h : ∀ x ∈ l, n < f x) : upTo f n l = [] := by
  rw [upTo, List.filter_eq_nil_iff]
  intro x hx
  simpa using h x hx

theorem upTo_upTo {m n : ℕ} (h : m ≤ n) (l : List α) : upTo f m (upTo f n l) = upTo f m l := by
  rw [upTo, upTo, List.filter_filter]
  refine List.filter_congr fun x _ => ?_
  rw [← Bool.decide_and, decide_eq_decide]
  exact ⟨And.left, fun hx => ⟨hx, hx.trans h⟩⟩

/-- In an ascending list the entries up to a level come first. -/
theorem takeWhile_eq_upTo {n : ℕ} {l : List α} (hl : l.Pairwise (f · < f ·)) :
    l.takeWhile (fun x => f x ≤ n) = upTo f n l := by
  induction l with
  | nil => rfl
  | cons x l ih =>
    obtain ⟨hx, hl⟩ := List.pairwise_cons.mp hl
    rcases Nat.lt_or_ge n (f x) with hlt | hle
    · rw [upTo_cons_of_lt hlt, upTo_eq_nil fun y hy => hlt.trans (hx y hy),
        List.takeWhile_cons_of_neg (by simpa using hlt)]
    · rw [upTo_cons_of_le hle, List.takeWhile_cons_of_pos (by simpa using hle), ih hl]

/-- **Going up one level adds the entry of that level, if there is one.** -/
theorem upTo_succ {n : ℕ} {l : List α} (hl : l.Pairwise (f · < f ·)) :
    upTo f (n + 1) l = upTo f n l ++ (l.find? fun x => f x = n + 1).toList := by
  induction l with
  | nil => rfl
  | cons x l ih =>
    obtain ⟨hx, hl⟩ := List.pairwise_cons.mp hl
    rcases Nat.lt_trichotomy (f x) (n + 1) with hlt | heq | hgt
    · rw [upTo_cons_of_le hlt.le, upTo_cons_of_le (Nat.le_of_lt_succ hlt), ih hl,
        List.find?_cons_of_neg (by simpa using hlt.ne), List.cons_append]
    · have hlate (y : α) (hy : y ∈ l) : n + 1 < f y := heq ▸ hx y hy
      rw [upTo_cons_of_le heq.le, upTo_cons_of_lt (heq ▸ Nat.lt_succ_self n), upTo_eq_nil hlate,
        upTo_eq_nil fun y hy => Nat.lt_of_succ_lt (hlate y hy),
        List.find?_cons_of_pos (by simpa using heq)]
      rfl
    · have hlate (y : α) (hy : y ∈ l) : n + 1 < f y := hgt.trans (hx y hy)
      have hnone : l.find? (fun x => f x = n + 1) = none := by
        rw [List.find?_eq_none]
        intro y hy
        simpa using (hlate y hy).ne'
      rw [upTo_cons_of_lt hgt, upTo_cons_of_lt (Nat.lt_of_succ_lt hgt), upTo_eq_nil hlate,
        upTo_eq_nil fun y hy => Nat.lt_of_succ_lt (hlate y hy),
        List.find?_cons_of_neg (by simpa using hgt.ne'), hnone]
      rfl

/-- Where at most one element meets `p`, it is the only one to look at. -/
theorem find?_and {α : Type*} {l : List α} {p q : α → Bool} (h : l.Pairwise fun a b => p a = true → p b = false) :
    l.find? (fun a => p a && q a) = (l.find? p).filter q := by
  induction l with
  | nil => rfl
  | cons a l ih =>
    obtain ⟨ha, hl⟩ := List.pairwise_cons.mp h
    rw [List.find?_cons, List.find?_cons, ih hl]
    cases hp : p a with
    | false => rfl
    | true =>
      have hnone : l.find? p = none := List.find?_eq_none.mpr fun b hb => by simp [ha b hb hp]
      rw [hnone, Option.filter_some]
      cases q a <;> rfl

end Library
