import Boole.Library.Instances
import Mathlib.Order.RelClasses

/-!
# Library/Effect — what a program that may fail does to its state

A program with a state keeps the changes it made before it failed.  `Moves R m` says that **however
`m` ends, it has moved its state along `R`**; for a preorder `R` this is compositional, so a program
moves its state along `R` as soon as each of its basic steps does.
-/

namespace Library

universe u

variable {ε σ α β : Type u}

/-- The state a program ends in, whether it returned or failed. -/
def finalState : EStateM.Result ε σ α → σ
  | .ok _ s => s
  | .error _ s => s

/-- However the program ends, it has moved its state along `R`. -/
def Moves (R : σ → σ → Prop) (m : EStateM ε σ α) : Prop := ∀ s, R s (finalState (m s))

/-- A program whose first part returned goes on from there. -/
theorem bind_of_ok {m : EStateM ε σ α} {f : α → EStateM ε σ β} {a : α} {s s' : σ}
    (h : m s = .ok a s') : (m >>= f) s = f a s' := by
  change EStateM.bind m f s = f a s'
  rw [EStateM.bind, h]

variable {R : σ → σ → Prop} [Std.Refl R] [IsTrans σ R]

omit [IsTrans σ R] in
theorem moves_pure (a : α) : Moves R (pure a : EStateM ε σ α) := fun s => refl s

omit [IsTrans σ R] in
theorem moves_throw (e : ε) : Moves R (throw e : EStateM ε σ α) := fun s => refl s

omit [IsTrans σ R] in
theorem moves_get : Moves R (get : EStateM ε σ σ) := fun s => refl s

omit [Std.Refl R] [IsTrans σ R] in
theorem moves_modify {f : σ → σ} (h : ∀ s, R s (f s)) :
    Moves R (modify f : EStateM ε σ PUnit) := h

omit [Std.Refl R] in
/-- **Programs in sequence.** -/
theorem Moves.bind {m : EStateM ε σ α} {f : α → EStateM ε σ β} (hm : Moves R m)
    (hf : ∀ a, Moves R (f a)) : Moves R (m >>= f) := by
  intro s
  have h := hm s
  change R s (finalState (EStateM.bind m f s))
  unfold EStateM.bind
  split
  · rename_i a s' heq
    rw [heq] at h
    exact IsTrans.trans _ _ _ h (hf a s')
  · rename_i e s' heq
    rw [heq] at h
    exact h

/-- A loop over a list. -/
theorem moves_foldlM {γ : Type u} {f : α → γ → EStateM ε σ α} (h : ∀ a x, Moves R (f a x))
    (xs : List γ) (a : α) : Moves R (xs.foldlM f a) := by
  induction xs generalizing a with
  | nil => exact moves_pure a
  | cons x xs ih => exact (h a x).bind ih

theorem moves_forM {γ : Type u} {f : γ → EStateM ε σ PUnit} (h : ∀ x, Moves R (f x))
    (xs : List γ) : Moves R (xs.forM f) := by
  induction xs with
  | nil => exact moves_pure _
  | cons x xs ih => exact (h x).bind fun _ => ih

omit [Std.Refl R] in
/-- A handler that keeps the state of the failure. -/
theorem Moves.tryCatch {m : EStateM ε σ α} {f : ε → EStateM ε σ α} (hm : Moves R m)
    (hf : ∀ e, Moves R (f e)) : Moves R (tryCatch m f) := by
  intro s
  have h := hm s
  change R s (finalState (EStateM.tryCatch m f s))
  unfold EStateM.tryCatch
  split
  · rename_i e s' heq
    rw [heq] at h
    exact IsTrans.trans _ _ _ h (hf e s')
  · exact h

end Library
