import Boole.Library.OrdMap

/-!
# Library/Dense — tables whose entries are numbered without gaps

A table that only grows by appending under the next free number: its keys are an interval that
starts at `start` (`Dense`), and an entry of the grown table is **an old entry or the appended one**
(`Dense.getElem?_append`).
-/

open Std

namespace Library

variable {β : Type*} {start : ℕ} {m : ExtTreeMap ℕ β}

/-- The keys are the numbers from `start` on, without a gap. -/
def Dense (start : ℕ) (m : ExtTreeMap ℕ β) : Prop :=
  ∀ k, k ∈ m ↔ start ≤ k ∧ k < start + m.size

theorem dense_empty : Dense start (∅ : ExtTreeMap ℕ β) := by
  intro k
  simp only [ExtTreeMap.not_mem_empty, ExtTreeMap.size_empty, false_iff]
  omega

theorem Dense.lt (h : Dense start m) {k : ℕ} {v : β} (hv : m[k]? = some v) :
    k < start + m.size :=
  ((h k).mp (mem_iff_exists.mpr ⟨_, hv⟩)).2

theorem Dense.next_notMem (h : Dense start m) : start + m.size ∉ m := fun hmem =>
  absurd ((h _).mp hmem).2 (Nat.lt_irrefl _)

theorem Dense.getElem?_append (h : Dense start m) {k : ℕ} {v w : β} :
    (m.insert (start + m.size) v)[k]? = some w ↔
      m[k]? = some w ∨ k = start + m.size ∧ w = v := by
  rw [getElem?_insert]
  split_ifs with heq
  · subst heq
    rw [ExtTreeMap.getElem?_eq_none h.next_notMem]
    simp [eq_comm]
  · simp [Ne.symm heq]

theorem Dense.append (h : Dense start m) (v : β) : Dense start (m.insert (start + m.size) v) := by
  intro k
  have hnext : ¬m.contains (start + m.size) = true := mt ExtTreeMap.mem_iff_contains.mpr h.next_notMem
  rw [ExtTreeMap.mem_insert, ExtTreeMap.size_insert, if_neg hnext, h k,
    LawfulEqCmp.compare_eq_iff_eq]
  omega

/-- The last key of a table numbered from 1 is its size. -/
theorem Dense.last (h : Dense 1 m) : (m.toList.getLast?.map (·.1)).getD 0 = m.size := by
  cases hlast : m.toList.getLast? with
  | none =>
    have hnil := List.getLast?_eq_none_iff.mp hlast
    rw [← ExtTreeMap.length_toList, hnil]
    rfl
  | some e =>
    have hmem : e.1 ∈ m := ExtTreeMap.mem_iff_isSome_getElem?.mpr (by
      rw [mem_toList_iff.mp (List.mem_of_getLast? hlast)]
      rfl)
    obtain ⟨hpos, hle⟩ := (h e.1).mp hmem
    -- no key is above the last one
    obtain ⟨init, hinit⟩ := List.getLast?_eq_some_iff.mp hlast
    have hord := ExtTreeMap.ordered_keys_toList (t := m)
    rw [hinit, List.pairwise_append] at hord
    obtain ⟨v, hv⟩ := mem_iff_exists.mp ((h m.size).mpr ⟨by omega, by omega⟩)
    have hsize : (m.size, v) ∈ m.toList := mem_toList_iff.mpr hv
    rw [hinit, List.mem_append, List.mem_singleton] at hsize
    have hge : m.size ≤ e.1 := by
      rcases hsize with hmem | heq
      · exact (Nat.compare_eq_lt.mp (hord.2.2 _ hmem e (List.mem_singleton_self e))).le
      · rw [← heq]
    exact Nat.le_antisymm (by simp only [Option.map_some, Option.getD_some]; omega) hge

/-- A table with the same keys. -/
theorem Dense.of_mem_iff {γ : Type*} {m' : ExtTreeMap ℕ γ} (h : Dense start m)
    (hk : ∀ k, k ∈ m' ↔ k ∈ m) : Dense start m' := by
  intro k
  rw [hk, size_eq_of_mem_iff hk]
  exact h k

end Library
