import Boole.Library.Fallible
import Boole.Library.OrdMap

/-!
# Library/FreshSet — entering keys that must be new

A loop that enters keys into a set and stops at one that is already there.  **If it ran through, the
keys were distinct and none was there before** (`insertFresh_eq_ok`).
-/

open Std

namespace Library

variable {α ε : Type*} {cmp : α → α → Ordering} [TransCmp cmp]

/-- Enter the keys one by one; one that is there already is an error. -/
def insertFresh (err : α → ε) (s : ExtTreeSet α cmp) (xs : List α) : Except ε (ExtTreeSet α cmp) :=
  xs.foldlM (fun s x => if s.contains x then .error (err x) else .ok (s.insert x)) s

theorem insertFresh_cons {err : α → ε} {s s' : ExtTreeSet α cmp} {x : α} {xs : List α} :
    insertFresh err s (x :: xs) = .ok s' ↔ x ∉ s ∧ insertFresh err (s.insert x) xs = .ok s' := by
  by_cases hx : x ∈ s <;> simp [insertFresh, hx]

variable [LawfulEqCmp cmp]

theorem insertFresh_eq_ok {err : α → ε} {s s' : ExtTreeSet α cmp} {xs : List α}
    (h : insertFresh err s xs = .ok s') :
    xs.Nodup ∧ (∀ x ∈ xs, x ∉ s) ∧ ∀ a, a ∈ s' ↔ a ∈ s ∨ a ∈ xs := by
  induction xs generalizing s with
  | nil =>
    obtain rfl : s = s' := by simpa [insertFresh] using h
    simp
  | cons x xs ih =>
    obtain ⟨hx, h⟩ := insertFresh_cons.mp h
    obtain ⟨hnodup, hnew, hmem⟩ := ih h
    have hins (a : α) : a ∈ s.insert x ↔ x = a ∨ a ∈ s := by
      rw [ExtTreeSet.mem_insert, LawfulEqCmp.compare_eq_iff_eq]
    refine ⟨List.nodup_cons.mpr ⟨fun hmem' => hnew x hmem' ((hins x).mpr (.inl rfl)), hnodup⟩,
      List.forall_mem_cons.mpr ⟨hx, fun y hy hs => hnew y hy ((hins y).mpr (.inr hs))⟩, fun a => ?_⟩
    rw [hmem, hins, List.mem_cons]
    tauto

end Library
