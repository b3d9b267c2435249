import Boole.Library.KeyedQueue

/-!
# Library/OrderedSet — a set with the order of its members, a map of counts

Two kinds of book-keeping that bounded tables need.

* `Queued s order` — the list `order` has the members of `s`, each once, so that a program can
  forget the oldest of them.  A member is added at the end (`Queued.push`), the oldest is dropped
  (`Queued.tail`), or one is taken out of the middle (`Queued.eraseIdx`, `Queued.remove`).
* `Tallied m n` — the map `m` counts `n`, and **a count of nothing has no entry**.
-/

open Std

namespace Library

variable {α : Type*} {cmp : α → α → Ordering} [TransCmp cmp]

/-! ## Sets with an order -/

/-- The members of a set, each once. -/
structure Queued (s : ExtTreeSet α cmp) (order : List α) : Prop where
  nodup : order.Nodup
  mem_iff : ∀ k, k ∈ s ↔ k ∈ order

namespace Queued

variable {s : ExtTreeSet α cmp} {order : List α} {k : α}

theorem empty : Queued (∅ : ExtTreeSet α cmp) [] where
  nodup := List.nodup_nil
  mem_iff := by simp

variable [LawfulEqCmp cmp]

theorem size (h : Queued s order) : s.size = order.length := by
  have hperm : s.toList.Perm order := by
    refine (List.perm_ext_iff_of_nodup ?_ h.nodup).mpr fun k => ?_
    · refine (ExtTreeSet.distinct_toList (t := s)).imp fun hab heq => hab ?_
      exact LawfulEqCmp.compare_eq_iff_eq.mpr heq
    · rw [ExtTreeSet.mem_toList, h.mem_iff]
  rw [← hperm.length_eq, ExtTreeSet.length_toList]

theorem push (h : Queued s order) (hk : k ∉ s) : Queued (s.insert k) (order ++ [k]) where
  nodup := by
    rw [← List.concat_eq_append, List.nodup_concat]
    exact ⟨fun hmem => hk ((h.mem_iff k).mpr hmem), h.nodup⟩
  mem_iff a := by
    rw [ExtTreeSet.mem_insert, LawfulEqCmp.compare_eq_iff_eq, h.mem_iff, List.mem_append,
      List.mem_singleton]
    tauto

/-- The oldest member makes way. -/
theorem tail (h : Queued s (k :: order)) : Queued (s.erase k) order where
  nodup := (List.nodup_cons.mp h.nodup).2
  mem_iff a := by
    rw [ExtTreeSet.mem_erase, Ne, LawfulEqCmp.compare_eq_iff_eq, h.mem_iff, List.mem_cons]
    constructor
    · rintro ⟨hne, rfl | ha⟩
      · exact absurd rfl hne
      · exact ha
    · intro ha
      refine ⟨?_, .inr ha⟩
      rintro rfl
      exact (List.nodup_cons.mp h.nodup).1 ha

variable [DecidableEq α]

theorem remove (h : Queued s order) (k : α) : Queued (s.erase k) (order.filter (· ≠ k)) where
  nodup := h.nodup.filter _
  mem_iff a := by
    rw [ExtTreeSet.mem_erase, Ne, LawfulEqCmp.compare_eq_iff_eq, h.mem_iff, List.mem_filter,
      decide_eq_true_eq, and_comm, eq_comm]

theorem eraseIdx (h : Queued s order) {i : ℕ} (hi : order[i]? = some k) :
    Queued (s.erase k) (order.eraseIdx i) := by
  have hnodup : (order.map id).Nodup := by rw [List.map_id]; exact h.nodup
  rw [eraseIdx_eq_filter hnodup hi]
  exact h.remove k

end Queued

/-! ## Counts -/

section Tally

variable {m : ExtTreeMap α ℕ cmp} {n : α → ℕ} {k : α}

/-- The map counts; what is not there is not in it. -/
def Tallied (m : ExtTreeMap α ℕ cmp) (n : α → ℕ) : Prop :=
  ∀ k, m[k]? = if n k = 0 then none else some (n k)

theorem Tallied.empty : Tallied (∅ : ExtTreeMap α ℕ cmp) fun _ => 0 := fun k => by simp

theorem Tallied.getD (h : Tallied m n) (k : α) : (m[k]?).getD 0 = n k := by
  rw [h k]
  split_ifs with hk
  · exact hk.symm
  · rfl

variable [LawfulEqCmp cmp] [DecidableEq α]

/-- One more of a kind. -/
theorem Tallied.countUp (h : Tallied m n) (k : α) :
    Tallied (m.insert k ((m[k]?).getD 0 + 1)) fun a => n a + if k = a then 1 else 0 := by
  intro a
  rw [getElem?_insert, h.getD]
  by_cases hka : k = a
  · simp [hka]
  · simp [hka, h a]

/-- One less of a kind. -/
theorem Tallied.countDown (h : Tallied m n) (k : α) :
    Tallied (if n k - 1 = 0 then m.erase k else m.insert k (n k - 1))
      fun a => n a - if k = a then 1 else 0 := by
  intro a
  by_cases hka : k = a
  · subst hka
    by_cases hone : n k - 1 = 0
    · simp [hone]
    · simp [hone]
  · have hread : (if n k - 1 = 0 then m.erase k else m.insert k (n k - 1))[a]? = m[a]? := by
      split_ifs
      · rw [getElem?_erase, if_neg hka]
      · rw [getElem?_insert, if_neg hka]
    simp [hread, hka, h a]

omit [DecidableEq α] in
/-- Only the kinds that pass a test. -/
theorem Tallied.filter (h : Tallied m n) (p : α → Bool) :
    Tallied (m.filter fun k _ => p k) fun a => if p a then n a else 0 := by
  intro a
  rw [ExtTreeMap.getElem?_filter', h a]
  by_cases hp : p a <;> by_cases ha : n a = 0 <;> simp [hp, ha, Option.filter]

end Tally

end Library
