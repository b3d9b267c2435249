import Boole.Library.Instances
import Mathlib.Data.Nat.Log
import Mathlib.Order.Bounds.Basic

/-!
# Library/Bisection — the last place where a property holds

A search over `low … high` asks at the upper midpoint and goes on in one half.  `Bisects` is a run of
it, with the places it asked at.  **If the property is inherited downwards, the run ends at the last
place where it holds** (`Bisects.isGreatest`), and **it asks at most as often as an interval of that
length can be halved** (`Bisects.length_le`).
-/

namespace Library

/-- Where a search over an interval asks first. -/
def midpoint (low high : ℕ) : ℕ := low + (high - low + 1) / 2

/-- A run of the search: the places it asks at, in order, and where it ends. -/
inductive Bisects (p : ℕ → Prop) : ℕ → ℕ → List ℕ → ℕ → Prop
  | done {low high : ℕ} (h : high ≤ low) : Bisects p low high [] low
  | up {low high r : ℕ} {asked : List ℕ} (h : low < high) (hp : p (midpoint low high))
      (hrest : Bisects p (midpoint low high) high asked r) :
      Bisects p low high (midpoint low high :: asked) r
  | down {low high r : ℕ} {asked : List ℕ} (h : low < high) (hp : ¬ p (midpoint low high))
      (hrest : Bisects p low (midpoint low high - 1) asked r) :
      Bisects p low high (midpoint low high :: asked) r

variable {p : ℕ → Prop} {low high r : ℕ} {asked : List ℕ}

theorem lt_midpoint (h : low < high) : low < midpoint low high := by
  rw [midpoint]
  omega

theorem midpoint_le (h : low < high) : midpoint low high ≤ high := by
  rw [midpoint]
  omega

/-- The search ends. -/
theorem exists_bisects (p : ℕ → Prop) (low high : ℕ) : ∃ asked r, Bisects p low high asked r := by
  induction hn : high - low using Nat.strong_induction_on generalizing low high with
  | h n ih =>
    by_cases h : low < high
    · have hlt := lt_midpoint h
      have hle := midpoint_le h
      by_cases hp : p (midpoint low high)
      · obtain ⟨asked, r, hrest⟩ := ih (high - midpoint low high) (by omega) _ _ rfl
        exact ⟨_, r, .up h hp hrest⟩
      · obtain ⟨asked, r, hrest⟩ := ih (midpoint low high - 1 - low) (by omega) _ _ rfl
        exact ⟨_, r, .down h hp hrest⟩
    · exact ⟨[], low, .done (Nat.le_of_not_lt h)⟩

/-- It asks inside the interval. -/
theorem Bisects.mem (h : Bisects p low high asked r) : ∀ i ∈ asked, low < i ∧ i ≤ high := by
  induction h with
  | done => simp
  | up h hp _ ih =>
    have hlt := lt_midpoint h
    refine List.forall_mem_cons.mpr ⟨⟨hlt, midpoint_le h⟩, fun i hi => ?_⟩
    obtain ⟨hlow, hhigh⟩ := ih i hi
    exact ⟨hlt.trans hlow, hhigh⟩
  | down h hp _ ih =>
    have hle := midpoint_le h
    refine List.forall_mem_cons.mpr ⟨⟨lt_midpoint h, hle⟩, fun i hi => ?_⟩
    obtain ⟨hlow, hhigh⟩ := ih i hi
    exact ⟨hlow, by omega⟩

/-- **Each question halves the interval.** -/
theorem Bisects.length_le (h : Bisects p low high asked r) :
    asked.length ≤ Nat.clog 2 (high - low + 1) := by
  have hhalf {low high width : ℕ} (h : low < high) (hwidth : width ≤ (high - low) / 2) :
      Nat.clog 2 (width + 1) + 1 ≤ Nat.clog 2 (high - low + 1) := by
    rw [Nat.clog_of_two_le (n := high - low + 1) (by decide) (by omega)]
    exact Nat.succ_le_succ (Nat.clog_mono_right 2 (by omega))
  induction h with
  | done => simp
  | @up low high r asked h hp _ ih =>
    have hwidth : high - midpoint low high ≤ (high - low) / 2 := by
      rw [midpoint]
      omega
    exact (Nat.succ_le_succ ih).trans (hhalf h hwidth)
  | @down low high r asked h hp _ ih =>
    have hwidth : midpoint low high - 1 - low ≤ (high - low) / 2 := by
      rw [midpoint]
      omega
    exact (Nat.succ_le_succ ih).trans (hhalf h hwidth)

/-- **The search ends at the last place where the property holds.** -/
theorem Bisects.isGreatest (h : Bisects p low high asked r) (hle : low ≤ high) (hlow : p low)
    (hdown : ∀ i j, i ≤ j → j ≤ high → p j → p i) : IsGreatest {i | i ≤ high ∧ p i} r := by
  induction h with
  | @done low high h =>
    obtain rfl := Nat.le_antisymm hle h
    exact ⟨⟨le_rfl, hlow⟩, fun i hi => hi.1⟩
  | up h hp _ ih => exact ih (midpoint_le h) hp hdown
  | @down low high r asked h hp _ ih =>
    have hmid := midpoint_le h
    have hlt := lt_midpoint h
    obtain ⟨⟨hr, hpr⟩, hbest⟩ := ih (by omega) hlow fun i j hij hj => hdown i j hij (by omega)
    refine ⟨⟨by omega, hpr⟩, fun i ⟨hi, hpi⟩ => hbest ⟨?_, hpi⟩⟩
    -- above the midpoint the property would be inherited by it
    by_contra hgt
    exact hp (hdown _ i (by omega) hi hpi)

end Library
