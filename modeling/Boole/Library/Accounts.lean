import Mathlib.Algebra.BigOperators.Group.Finset.Piecewise
import Mathlib.Algebra.Order.BigOperators.Group.Finset
import Boole.Library.OrdMap

/-!
# Library/Accounts — double-entry book-keeping over an ordered map

An account book is an ordered map from names to amounts; a name that is absent holds nothing.
A posting is a list of names and amounts, and `Posts debits credits m m'` says that `m'` is `m`
with the debits taken and the credits given, account by account.  **What holds account by account
holds for the book** (`Posts.total`), whatever names coincide, so a program that moves money only
has to be followed one account at a time.
-/

open Std

namespace Library

variable {α : Type*} {cmp : α → α → Ordering} [TransCmp cmp]

/-- What an account holds. -/
def balanceOf (m : ExtTreeMap α ℕ cmp) (k : α) : ℕ := (m[k]?).getD 0

/-- What all accounts hold together. -/
def total (m : ExtTreeMap α ℕ cmp) : ℕ := sumBy (fun _ v => v) m

@[simp] theorem balanceOf_empty (k : α) : balanceOf (∅ : ExtTreeMap α ℕ cmp) k = 0 := by
  simp [balanceOf]

@[simp] theorem total_empty : total (∅ : ExtTreeMap α ℕ cmp) = 0 := by simp [total]

/-! ## Postings -/

/-- What a posting moves altogether. -/
def volume (l : List (α × ℕ)) : ℕ := (l.map Prod.snd).sum

@[simp] theorem volume_nil : volume ([] : List (α × ℕ)) = 0 := rfl

@[simp] theorem volume_cons (e : α × ℕ) (l : List (α × ℕ)) : volume (e :: l) = e.2 + volume l :=
  rfl

@[simp] theorem volume_append (l l' : List (α × ℕ)) :
    volume (l ++ l') = volume l + volume l' := by
  simp [volume]

section Postings

variable [DecidableEq α]

/-- What a posting says about one account. -/
def posted (l : List (α × ℕ)) (k : α) : ℕ := (l.map fun e => if e.1 = k then e.2 else 0).sum

@[simp] theorem posted_nil (k : α) : posted [] k = 0 := rfl

@[simp] theorem posted_cons (e : α × ℕ) (l : List (α × ℕ)) (k : α) :
    posted (e :: l) k = (if e.1 = k then e.2 else 0) + posted l k := rfl

@[simp] theorem posted_append (l l' : List (α × ℕ)) (k : α) :
    posted (l ++ l') k = posted l k + posted l' k := by
  simp [posted]

/-- A posting moves what it says about the accounts it names. -/
theorem volume_eq_sum (l : List (α × ℕ)) {s : Finset α} (hs : ∀ e ∈ l, e.1 ∈ s) :
    volume l = ∑ k ∈ s, posted l k := by
  induction l with
  | nil => simp
  | cons e l ih =>
    have hl := ih fun e he => hs e (List.mem_cons_of_mem _ he)
    have he : ∑ k ∈ s, (if e.1 = k then e.2 else 0) = e.2 := by
      rw [Finset.sum_ite_eq, if_pos (hs e List.mem_cons_self)]
    simp only [volume_cons, posted_cons, Finset.sum_add_distrib, he, hl]

/-- `m'` is `m` with the debits taken and the credits given. -/
def Posts (debits credits : List (α × ℕ)) (m m' : ExtTreeMap α ℕ cmp) : Prop :=
  ∀ k, balanceOf m' k + posted debits k = balanceOf m k + posted credits k

theorem Posts.refl (m : ExtTreeMap α ℕ cmp) : Posts [] [] m m := fun _ => rfl

theorem Posts.trans {d c d' c' : List (α × ℕ)} {m₁ m₂ m₃ : ExtTreeMap α ℕ cmp}
    (h : Posts d c m₁ m₂) (h' : Posts d' c' m₂ m₃) : Posts (d ++ d') (c ++ c') m₁ m₃ := by
  intro k
  have h₁ := h k
  have h₂ := h' k
  simp only [posted_append]
  omega

variable [LawfulEqCmp cmp]

theorem balanceOf_insert (m : ExtTreeMap α ℕ cmp) (a k : α) (v : ℕ) :
    balanceOf (m.insert a v) k = if a = k then v else balanceOf m k := by
  rw [balanceOf, getElem?_insert]
  split <;> rfl

/-- Set an account, closing it when nothing is left in it. -/
def setOrClose (m : ExtTreeMap α ℕ cmp) (a : α) (v : ℕ) : ExtTreeMap α ℕ cmp :=
  if v = 0 then m.erase a else m.insert a v

theorem getElem?_setOrClose (m : ExtTreeMap α ℕ cmp) (a k : α) (v : ℕ) :
    (setOrClose m a v)[k]? = if a = k then (if v = 0 then none else some v) else m[k]? := by
  unfold setOrClose
  split
  · rw [getElem?_erase]
  · rw [getElem?_insert]

theorem balanceOf_setOrClose (m : ExtTreeMap α ℕ cmp) (a k : α) (v : ℕ) :
    balanceOf (setOrClose m a v) k = if a = k then v else balanceOf m k := by
  rw [balanceOf, getElem?_setOrClose]
  split
  · split <;> simp_all
  · rfl

theorem balanceOf_overlay (m s : ExtTreeMap α ℕ cmp) (k : α) :
    balanceOf (overlay m s) k = (s[k]?).getD (balanceOf m k) := by
  rw [balanceOf, getElem?_overlay]
  cases s[k]? <;> rfl

theorem total_eq_sum (m : ExtTreeMap α ℕ cmp) {s : Finset α} (hs : m.keys.toFinset ⊆ s) :
    total m = ∑ k ∈ s, balanceOf m k := by
  rw [total, sumBy_eq_sum_of_subset _ m hs]
  refine Finset.sum_congr rfl fun k _ => ?_
  cases h : m[k]? <;> simp [balanceOf, h]

/-- An account holds no more than the book. -/
theorem balanceOf_le_total (m : ExtTreeMap α ℕ cmp) (k : α) : balanceOf m k ≤ total m := by
  cases h : m[k]? with
  | none => simp [balanceOf, h]
  | some v =>
    rw [balanceOf, h]
    exact le_sumBy (fun _ v => v) h

/-- A book in which every account holds less holds less. -/
theorem total_mono {m m' : ExtTreeMap α ℕ cmp} (h : ∀ k, balanceOf m k ≤ balanceOf m' k) :
    total m ≤ total m' := by
  rw [total_eq_sum m (s := m.keys.toFinset ∪ m'.keys.toFinset) Finset.subset_union_left,
    total_eq_sum m' Finset.subset_union_right]
  exact Finset.sum_le_sum fun k _ => h k

/-- **What is posted account by account moves the total by the volumes.** -/
theorem Posts.total {d c : List (α × ℕ)} {m m' : ExtTreeMap α ℕ cmp} (h : Posts d c m m') :
    total m' + volume d = total m + volume c := by
  let s : Finset α :=
    m.keys.toFinset ∪ m'.keys.toFinset ∪ (d.map Prod.fst).toFinset ∪ (c.map Prod.fst).toFinset
  have hm : m.keys.toFinset ⊆ s := by
    intro k hk
    simp only [s, Finset.mem_union]
    exact .inl (.inl (.inl hk))
  have hm' : m'.keys.toFinset ⊆ s := by
    intro k hk
    simp only [s, Finset.mem_union]
    exact .inl (.inl (.inr hk))
  have hd : ∀ e ∈ d, e.1 ∈ s := by
    intro e he
    simp only [s, Finset.mem_union, List.mem_toFinset]
    exact .inl (.inr (List.mem_map_of_mem he))
  have hc : ∀ e ∈ c, e.1 ∈ s := by
    intro e he
    simp only [s, Finset.mem_union, List.mem_toFinset]
    exact .inr (List.mem_map_of_mem he)
  rw [total_eq_sum m' hm', total_eq_sum m hm, volume_eq_sum d hd, volume_eq_sum c hc,
    ← Finset.sum_add_distrib, ← Finset.sum_add_distrib]
  exact Finset.sum_congr rfl fun k _ => h k

end Postings

end Library
