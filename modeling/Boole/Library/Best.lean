import Mathlib.Order.Bounds.Basic
import Mathlib.Order.MinMax
import Boole.Library.Fallible

/-!
# Library/Best — keeping the best of what is offered

A state is offered one thing after another and keeps the better of what it has and what it is
offered.  **In the end it holds the greatest rank that it had or was offered** (`greatest_foldlM`),
and a greatest element is determined by the set: the order of the offers and their repetitions do
not matter.
-/

namespace Library

variable {σ ι κ : Type*} [LinearOrder κ] (rank : σ → κ) (key : ι → κ)

/-- The best of the start and the offers, for steps that all succeed. -/
theorem greatest_foldlM {ε : Type*} {f : σ → ι → Except ε σ} (I : σ → Prop) {xs : List ι}
    (hstep : ∀ s, ∀ x ∈ xs, I s → ∃ s', f s x = .ok s' ∧ I s' ∧ rank s' = max (rank s) (key x))
    {s : σ} (hs : I s) :
    ∃ s', xs.foldlM f s = .ok s' ∧ I s' ∧
      IsGreatest (insert (rank s) {k | ∃ x ∈ xs, key x = k}) (rank s') := by
  induction xs generalizing s with
  | nil => exact ⟨s, rfl, hs, by simp⟩
  | cons x xs ih =>
    obtain ⟨t, ht, hI, hmax⟩ := hstep s x List.mem_cons_self hs
    obtain ⟨s', hfold, hI', hbest⟩ := ih (fun s x hx => hstep s x (List.mem_cons_of_mem _ hx)) hI
    refine ⟨s', by rw [List.foldlM_cons, ht, ok_bind, hfold], hI', ?_⟩
    rw [hmax] at hbest
    have hge : max (rank s) (key x) ≤ rank s' := hbest.2 (Set.mem_insert _ _)
    constructor
    · rcases hbest.1 with h | ⟨y, hy, h⟩
      · rcases max_choice (rank s) (key x) with hchoice | hchoice
        · exact .inl (h.trans hchoice)
        · exact .inr ⟨x, List.mem_cons_self, (h.trans hchoice).symm⟩
      · exact .inr ⟨y, List.mem_cons_of_mem _ hy, h⟩
    · rintro k (rfl | ⟨y, hy, rfl⟩)
      · exact (le_max_left _ _).trans hge
      · rcases List.mem_cons.mp hy with rfl | hy
        · exact (le_max_right _ _).trans hge
        · exact hbest.2 (.inr ⟨y, hy, rfl⟩)

/-- The same for steps that cannot fail. -/
theorem greatest_foldl {f : σ → ι → σ} (I : σ → Prop) {xs : List ι}
    (hstep : ∀ s, ∀ x ∈ xs, I s → I (f s x) ∧ rank (f s x) = max (rank s) (key x))
    {s : σ} (hs : I s) :
    I (xs.foldl f s) ∧ IsGreatest (insert (rank s) {k | ∃ x ∈ xs, key x = k}) (rank (xs.foldl f s)) := by
  have hstep' : ∀ s, ∀ x ∈ xs, I s → ∃ s', (pure (f s x) : Except Empty σ) = .ok s' ∧ I s' ∧
      rank s' = max (rank s) (key x) :=
    fun s x hx hs => ⟨f s x, rfl, hstep s x hx hs⟩
  obtain ⟨s', hfold, hI, hbest⟩ := greatest_foldlM rank key I hstep' hs
  rw [List.foldlM_pure] at hfold
  obtain rfl := Except.ok.inj hfold
  exact ⟨hI, hbest⟩

end Library
