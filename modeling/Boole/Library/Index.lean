import Boole.Library.OrdMap

/-!
# Library/Index — an index of a list

An index keeps, next to a list, the members with each key in their order (`Indexes`).  **Appending
a member to the list and to its entry keeps the index exact** (`Indexes.append`), and so does
appending a member without a key to the list alone.
-/

open Std

namespace Library

variable {κ β : Type*} [DecidableEq κ] {cmp : κ → κ → Ordering} [TransCmp cmp]

/-- The members with a key, in order. -/
def withKey (key : β → Option κ) (xs : List β) (k : κ) : List β := xs.filter fun x => key x = some k

/-- Append a value to the entry of a key. -/
def pushOrCreate (m : ExtTreeMap κ (List β) cmp) (k : κ) (x : β) :
    ExtTreeMap κ (List β) cmp :=
  m.insert k (m[k]?.getD [] ++ [x])

/-- Every key has an entry exactly when a member has it, and the entry is the members with it. -/
def Indexes (key : β → Option κ) (xs : List β) (m : ExtTreeMap κ (List β) cmp) : Prop :=
  ∀ k, m[k]? = some (withKey key xs k) ∧ withKey key xs k ≠ [] ∨ m[k]? = none ∧ withKey key xs k = []

variable {key : β → Option κ} {xs : List β} {m : ExtTreeMap κ (List β) cmp} {k : κ} {x : β}

theorem indexes_nil (key : β → Option κ) :
    Indexes key [] (∅ : ExtTreeMap κ (List β) cmp) := fun _ => .inr ⟨by simp, rfl⟩

/-- The entry of a key, empty where there is none. -/
theorem Indexes.getD (h : Indexes key xs m) (k : κ) : m[k]?.getD [] = withKey key xs k := by
  rcases h k with ⟨hm, -⟩ | ⟨hm, hnil⟩
  · rw [hm, Option.getD_some]
  · rw [hm, hnil, Option.getD_none]

theorem withKey_append (hx : key x = some k) (l : κ) :
    withKey key (xs ++ [x]) l = if k = l then withKey key xs l ++ [x] else withKey key xs l := by
  rw [withKey, List.filter_append, ← withKey]
  split_ifs with heq
  · simp [hx, heq]
  · simp [hx, heq]

theorem Indexes.append [LawfulEqCmp cmp] (h : Indexes key xs m)
    (hx : key x = some k) : Indexes key (xs ++ [x]) (pushOrCreate m k x) := by
  intro l
  rw [pushOrCreate, getElem?_insert, withKey_append hx, h.getD]
  split_ifs with heq
  · subst heq
    exact .inl ⟨rfl, by simp⟩
  · exact h l

theorem Indexes.skip (h : Indexes key xs m) (hx : key x = none) : Indexes key (xs ++ [x]) m := by
  intro l
  have hsame : withKey key (xs ++ [x]) l = withKey key xs l := by
    rw [withKey, List.filter_append, ← withKey]
    simp [hx]
  rw [hsame]
  exact h l

end Library
