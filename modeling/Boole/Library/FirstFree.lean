import Boole.Library.Instances
import Mathlib.Order.Bounds.Basic

/-!
# Library/FirstFree — first places with room

Items are placed one after the other at natural numbers, each at the first place from a lower bound
on where fewer than `cap` items are (`FirstFree`).  As long as no bound lies below the last place,
**the last place and the number of items there are all that has to be remembered**
(`Tracks.firstFree`, `Tracks.append`).
-/

namespace Library

variable {cap low last count x : ℕ} {placed : List ℕ}

/-- The first place from `low` on where fewer than `cap` items are. -/
def FirstFree (cap : ℕ) (placed : List ℕ) (low x : ℕ) : Prop :=
  IsLeast {h | low ≤ h ∧ placed.count h < cap} x

/-- What is remembered of the items that have been placed. -/
structure Tracks (cap : ℕ) (placed : List ℕ) (last count : ℕ) : Prop where
  sorted : placed.Pairwise (· ≤ ·)
  le_last : ∀ x ∈ placed, x ≤ last
  last_eq : placed.getLast?.getD 0 = last
  count_eq : placed.count last = count
  count_le : ∀ h, placed.count h ≤ cap

/-- The place of the next item, from what is remembered. -/
def nextFree (cap last count low : ℕ) : ℕ := if low = last ∧ cap ≤ count then low + 1 else low

theorem le_nextFree (cap last count low : ℕ) : low ≤ nextFree cap last count low := by
  unfold nextFree
  split <;> omega

theorem tracks_nil (cap : ℕ) : Tracks cap [] 0 0 := ⟨.nil, by simp, rfl, rfl, by simp⟩

theorem Tracks.count_eq_zero (ht : Tracks cap placed last count) (hx : last < x) :
    placed.count x = 0 :=
  List.count_eq_zero.mpr fun hmem => absurd (ht.le_last x hmem) (Nat.not_le.mpr hx)

theorem Tracks.firstFree (ht : Tracks cap placed last count) (hcap : 0 < cap) (hlow : last ≤ low) :
    FirstFree cap placed low (nextFree cap last count low) := by
  unfold nextFree
  split
  · rename_i hfull
    obtain ⟨rfl, hfull⟩ := hfull
    refine ⟨⟨Nat.le_succ low, ?_⟩, fun h hh => ?_⟩
    · rwa [ht.count_eq_zero (Nat.lt_succ_self low)]
    · refine Nat.lt_of_le_of_ne hh.1 ?_
      rintro rfl
      exact absurd (ht.count_eq ▸ hh.2) (Nat.not_lt.mpr hfull)
  · rename_i hroom
    refine ⟨⟨le_rfl, ?_⟩, fun h hh => hh.1⟩
    rcases hlow.lt_or_eq with hlt | rfl
    · rwa [ht.count_eq_zero hlt]
    · rw [ht.count_eq]
      exact Nat.not_le.mp fun hfull => hroom ⟨rfl, hfull⟩

theorem Tracks.append (ht : Tracks cap placed last count) (hlow : last ≤ low)
    (hx : FirstFree cap placed low x) :
    Tracks cap (placed ++ [x]) x (if x = last then count + 1 else 1) := by
  have hle : last ≤ x := hlow.trans hx.1.1
  have hcount (h : ℕ) : (placed ++ [x]).count h = placed.count h + if x = h then 1 else 0 := by
    rw [List.count_append, List.count_singleton]
    simp only [beq_iff_eq]
  refine ⟨?_, fun y hy => ?_, by simp, ?_, fun h => ?_⟩
  · refine List.pairwise_append.mpr ⟨ht.sorted, List.pairwise_singleton _ _, fun a ha b hb => ?_⟩
    rw [List.mem_singleton.mp hb]
    exact (ht.le_last a ha).trans hle
  · rcases List.mem_append.mp hy with hy | hy
    · exact (ht.le_last y hy).trans hle
    · exact (List.mem_singleton.mp hy).le
  · rw [hcount, if_pos rfl]
    split_ifs with heq
    · rw [heq, ht.count_eq]
    · rw [ht.count_eq_zero (Nat.lt_of_le_of_ne hle (Ne.symm heq))]
  · rw [hcount]
    split_ifs with heq
    · exact heq ▸ hx.1.2
    · exact ht.count_le h

end Library
