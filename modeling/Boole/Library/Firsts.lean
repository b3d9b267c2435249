import Boole.Library.Instances
import Mathlib.Data.List.Induction
import Mathlib.Data.List.Nodup
import Mathlib.Data.List.Perm.Basic

/-!
# Library/Firsts — the first value of each index

A list is read from the left, and **of the values with one index the first is kept**.  The indices
that are kept are distinct, so they are all there as soon as there are enough of them
(`perm_range_of_firsts`).
-/

namespace Library

variable {α ι β : Type*} [DecidableEq ι] {f : α → Option (ι × β)} {xs : List α}

/-- Keep the value of an element unless its index has been seen. -/
def keepFirst (f : α → Option (ι × β)) (acc : List (ι × β)) (x : α) : List (ι × β) :=
  match f x with
  | some v => if v.1 ∈ acc.map Prod.fst then acc else acc ++ [v]
  | none => acc

/-- The first value of each index, in the order they were found. -/
def firsts (f : α → Option (ι × β)) (xs : List α) : List (ι × β) := xs.foldl (keepFirst f) []

theorem firsts_concat (f : α → Option (ι × β)) (xs : List α) (x : α) :
    firsts f (xs ++ [x]) = keepFirst f (firsts f xs) x := by
  rw [firsts, List.foldl_append]
  rfl

theorem keepFirst_of_none {acc : List (ι × β)} {x : α} (h : f x = none) : keepFirst f acc x = acc := by
  rw [keepFirst, h]

theorem keepFirst_of_mem {acc : List (ι × β)} {x : α} {v : ι × β} (h : f x = some v)
    (hv : v.1 ∈ acc.map Prod.fst) : keepFirst f acc x = acc := by
  rw [keepFirst, h]
  exact if_pos hv

theorem keepFirst_of_notMem {acc : List (ι × β)} {x : α} {v : ι × β} (h : f x = some v)
    (hv : v.1 ∉ acc.map Prod.fst) : keepFirst f acc x = acc ++ [v] := by
  rw [keepFirst, h]
  exact if_neg hv

theorem mem_firsts {v : ι × β} (h : v ∈ firsts f xs) : ∃ x ∈ xs, f x = some v := by
  induction xs using List.reverseRecOn with
  | nil => exact nomatch h
  | append_singleton xs x ih =>
    have hold (h : v ∈ firsts f xs) : ∃ y ∈ xs ++ [x], f y = some v := by
      obtain ⟨y, hy, hv⟩ := ih h
      exact ⟨y, List.mem_append_left _ hy, hv⟩
    rw [firsts_concat, keepFirst] at h
    split at h
    · rename_i w hw
      split at h
      · exact hold h
      · rcases List.mem_append.mp h with h | h
        · exact hold h
        · obtain rfl := List.mem_singleton.mp h
          exact ⟨x, by simp, hw⟩
    · exact hold h

theorem nodup_firsts (f : α → Option (ι × β)) (xs : List α) : ((firsts f xs).map Prod.fst).Nodup := by
  induction xs using List.reverseRecOn with
  | nil => exact List.nodup_nil
  | append_singleton xs x ih =>
    rw [firsts_concat, keepFirst]
    split
    · split_ifs with hnew
      · exact ih
      · rw [List.map_append]
        exact List.nodup_append'.mpr ⟨ih, by simp, by simpa using hnew⟩
    · exact ih

/-- **Enough distinct indices below a bound are all of them.** -/
theorem perm_range_of_firsts {f : α → Option (ℕ × β)} {n : ℕ} (hlt : ∀ x ∈ xs, ∀ v, f x = some v → v.1 < n)
    (hlen : (firsts f xs).length = n) : ((firsts f xs).map Prod.fst).Perm (List.range n) := by
  have hsub : (firsts f xs).map Prod.fst ⊆ List.range n := by
    intro i hi
    obtain ⟨v, hv, rfl⟩ := List.mem_map.mp hi
    obtain ⟨x, hx, hfx⟩ := mem_firsts hv
    exact List.mem_range.mpr (hlt x hx v hfx)
  refine (List.subperm_of_subset (nodup_firsts f xs) hsub).perm_of_length_le (Nat.le_of_eq ?_)
  rw [List.length_range, List.length_map, hlen]

end Library
