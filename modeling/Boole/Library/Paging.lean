import Boole.Library.Instances

/-!
# Library/Paging — a list in pages of bounded cost

A server fills a page with items as long as they stay below a limit (`pack`); a client goes on behind
the last item it got.  **A page is a prefix of what is left, stays below the limit, and is not empty
if the first item fits**, so that what is left gets shorter with every page (`drop_eq_append_drop`).
-/

namespace Library

variable {α : Type*} {cost : α → ℕ} {limit used : ℕ} {x : α} {xs page : List α}

/-- The first items, as long as their cost stays below the limit; `used` is spent already. -/
def pack (cost : α → ℕ) (limit : ℕ) : ℕ → List α → List α
  | _, [] => []
  | used, x :: xs => if limit ≤ used + cost x then [] else x :: pack cost limit (used + cost x) xs

theorem pack_prefix (cost : α → ℕ) (limit used : ℕ) (xs : List α) :
    pack cost limit used xs <+: xs := by
  induction xs generalizing used with
  | nil => exact List.nil_prefix
  | cons x xs ih =>
    rw [pack]
    split
    · exact List.nil_prefix
    · exact List.cons_prefix_cons.mpr ⟨rfl, ih _⟩

theorem pack_ne_nil (h : used + cost x < limit) : pack cost limit used (x :: xs) ≠ [] := by
  rw [pack, if_neg (Nat.not_le_of_lt h)]
  exact List.cons_ne_nil _ _

theorem pack_cost_lt (h : used < limit) :
    used + ((pack cost limit used xs).map cost).sum < limit := by
  induction xs generalizing used with
  | nil => exact h
  | cons x xs ih =>
    rw [pack]
    split_ifs with hfits
    · exact h
    · rw [List.map_cons, List.sum_cons, ← Nat.add_assoc]
      exact ih (Nat.lt_of_not_le hfits)

/-- What is left after a page. -/
theorem drop_eq_append_drop {i : ℕ} (h : page <+: xs.drop i) :
    xs.drop i = page ++ xs.drop (i + page.length) := by
  obtain ⟨rest, hrest⟩ := h
  rw [← List.drop_drop, ← hrest, List.drop_left]

end Library
