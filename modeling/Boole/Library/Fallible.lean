import Boole.Library.Instances
import Mathlib.Logic.Relation

/-!
# Library/Fallible — checked machine arithmetic and early-return blocks

A fixed-width word is a natural number and an operation that may leave the width returns `none`;
a block that may return early is a chain of binds in `Except`.  Both are read backwards by the
`_eq_some` and `_eq_ok` lemmas: a result that was produced names every check it passed.
-/

namespace Library

/-! ## Checked arithmetic -/

/-- `checked_add` on `w`-bit unsigned words. -/
def checkedAdd (w a b : ℕ) : Option ℕ := if a + b < 2 ^ w then some (a + b) else none

/-- `checked_sub`; subtraction leaves the width only downwards, so the width plays no part. -/
def checkedSub (a b : ℕ) : Option ℕ := if b ≤ a then some (a - b) else none

/-- `checked_mul` on `w`-bit unsigned words. -/
def checkedMul (w a b : ℕ) : Option ℕ := if a * b < 2 ^ w then some (a * b) else none

/-- `saturating_add` on `w`-bit unsigned words. -/
def saturatingAdd (w a b : ℕ) : ℕ := min (a + b) (2 ^ w - 1)

@[simp] theorem checkedAdd_eq_some {w a b c : ℕ} :
    checkedAdd w a b = some c ↔ a + b < 2 ^ w ∧ a + b = c := by
  simp [checkedAdd]

@[simp] theorem checkedAdd_eq_none {w a b : ℕ} : checkedAdd w a b = none ↔ 2 ^ w ≤ a + b := by
  simp [checkedAdd]

@[simp] theorem checkedSub_eq_some {a b c : ℕ} :
    checkedSub a b = some c ↔ b ≤ a ∧ a - b = c := by
  simp [checkedSub]

@[simp] theorem checkedMul_eq_some {w a b c : ℕ} :
    checkedMul w a b = some c ↔ a * b < 2 ^ w ∧ a * b = c := by
  simp [checkedMul]

/-! ## Early return -/

section Block

universe u

variable {ε ε' : Type*} {α β : Type u}

/-- `ensure!`: go on when the condition holds, return the error otherwise. -/
def ensure (p : Prop) [Decidable p] (e : ε) : Except ε Unit := if p then .ok () else .error e

/-- `ok_or`: an absent value is the error. -/
def okOr (x : Option α) (e : ε) : Except ε α :=
  match x with
  | some a => .ok a
  | none => .error e

/-- `map_err`. -/
def mapErr (f : ε → ε') : Except ε α → Except ε' α
  | .ok a => .ok a
  | .error e => .error (f e)

@[simp] theorem ensure_eq_ok {p : Prop} [Decidable p] {e : ε} {u : Unit} :
    ensure p e = .ok u ↔ p := by
  unfold ensure
  split <;> simp_all

theorem ensure_of {p : Prop} [Decidable p] (h : p) (e : ε) : ensure p e = .ok () := by
  rw [ensure, if_pos h]

theorem toOption_eq_some {x : Except ε α} {a : α} : x.toOption = some a ↔ x = .ok a := by
  cases x <;> simp [Except.toOption]

/-- A block that was evaluated to a success has a result. -/
theorem exists_eq_ok_of_isOk {x : Except ε α} (h : x.isOk = true) : ∃ a, x = .ok a := by
  cases x with
  | error e => simp [Except.toBool] at h
  | ok a => exact ⟨a, rfl⟩

@[simp] theorem okOr_some (a : α) (e : ε) : okOr (some a) e = .ok a := rfl

@[simp] theorem okOr_eq_ok {x : Option α} {e : ε} {a : α} : okOr x e = .ok a ↔ x = some a := by
  cases x <;> simp [okOr]

@[simp] theorem mapErr_eq_ok {f : ε → ε'} {x : Except ε α} {a : α} :
    mapErr f x = .ok a ↔ x = .ok a := by
  cases x <;> simp [mapErr]

/-- **A block that returned ran its first statement and then the rest.** -/
@[simp] theorem bind_eq_ok {x : Except ε α} {f : α → Except ε β} {b : β} :
    x >>= f = .ok b ↔ ∃ a, x = .ok a ∧ f a = .ok b := by
  cases x with
  | error e => exact ⟨fun h => (nomatch h), fun ⟨_, h, _⟩ => (nomatch h)⟩
  | ok a => exact ⟨fun h => ⟨a, rfl, h⟩, fun ⟨_, h, h'⟩ => by cases h; exact h'⟩

@[simp] theorem pure_eq_ok {a b : α} : (pure a : Except ε α) = .ok b ↔ a = b :=
  ⟨fun h => Except.ok.inj h, fun h => congrArg Except.ok h⟩

@[simp] theorem throw_eq_ok {e : ε} {b : α} : (throw e : Except ε α) = .ok b ↔ False :=
  ⟨fun h => (nomatch h), fun h => h.elim⟩

@[simp] theorem ok_bind (a : α) (f : α → Except ε β) : (Except.ok a >>= f) = f a := rfl

@[simp] theorem error_bind (e : ε) (f : α → Except ε β) : (Except.error e >>= f) = .error e := rfl

end Block

/-! ## Which errors a block may return -/

section Throws

variable {ε ε' : Type*} {α β : Type u} {P : ε → Prop}

/-- Every error that `x` returns satisfies `P`. -/
def Throws (P : ε → Prop) (x : Except ε α) : Prop := ∀ e, x = .error e → P e

@[simp] theorem throws_ok (a : α) : Throws P (.ok a) := fun _ h => (nomatch h)

@[simp] theorem throws_pure (a : α) : Throws P (pure a : Except ε α) := fun _ h => (nomatch h)

@[simp] theorem throws_error {e : ε} : Throws P (.error e : Except ε α) ↔ P e :=
  ⟨fun h => h e rfl, fun h _ he => Except.error.inj he ▸ h⟩

@[simp] theorem throws_true (x : Except ε α) : Throws (fun _ => True) x := fun _ _ => trivial

@[simp] theorem throws_ensure {p : Prop} [Decidable p] {e : ε} :
    Throws P (ensure p e) ↔ (¬p → P e) := by
  unfold ensure
  split <;> simp_all

@[simp] theorem throws_okOr {x : Option α} {e : ε} : Throws P (okOr x e) ↔ (x = none → P e) := by
  cases x <;> simp [okOr]

@[simp] theorem throws_mapErr {Q : ε' → Prop} {f : ε → ε'} {x : Except ε α} :
    Throws Q (mapErr f x) ↔ Throws (fun e => Q (f e)) x := by
  cases x <;> simp [mapErr]

/-- **A block returns an error of its first statement or one of the rest.** -/
@[simp] theorem throws_bind {x : Except ε α} {f : α → Except ε β} :
    Throws P (x >>= f) ↔ Throws P x ∧ ∀ a, x = .ok a → Throws P (f a) := by
  cases x <;> simp

@[simp] theorem throws_map {x : Except ε α} {f : α → β} : Throws P (f <$> x) ↔ Throws P x := by
  cases x <;> simp

@[simp] theorem throws_ite {p : Prop} [Decidable p] {x y : Except ε α} :
    Throws P (if p then x else y) ↔ (p → Throws P x) ∧ (¬p → Throws P y) := by
  split <;> simp_all

end Throws

/-! ## Two runs of one program -/

section Agrees

variable {ε ε' : Type*} {α β γ δ : Type u}

/-- Two results that both failed in the same way, or both returned related values. -/
def Agrees (R : α → β → Prop) : Except ε α → Except ε β → Prop
  | .ok a, .ok b => R a b
  | .error e, .error e' => e = e'
  | _, _ => False

theorem Agrees.bind {R : α → β → Prop} {Q : γ → δ → Prop} {x : Except ε α} {y : Except ε β}
    {f : α → Except ε γ} {g : β → Except ε δ} (h : Agrees R x y)
    (hf : ∀ a b, R a b → Agrees Q (f a) (g b)) : Agrees Q (x >>= f) (y >>= g) := by
  cases x with
  | error e =>
    cases y with
    | error e' => exact h
    | ok b => exact h.elim
  | ok a =>
    cases y with
    | error e' => exact h.elim
    | ok b => exact hf a b h

theorem Agrees.mapErr {R : α → β → Prop} {x : Except ε α} {y : Except ε β} (f : ε → ε')
    (h : Agrees R x y) : Agrees R (mapErr f x) (mapErr f y) := by
  cases x with
  | error e =>
    cases y with
    | error e' => exact congrArg f h
    | ok b => exact h.elim
  | ok a =>
    cases y with
    | error e' => exact h.elim
    | ok b => exact h

theorem agrees_self {R : α → α → Prop} (hR : ∀ a, R a a) (x : Except ε α) : Agrees R x x := by
  cases x with
  | error e => exact rfl
  | ok a => exact hR a

theorem agrees_rfl (x : Except ε α) : Agrees Eq x x := agrees_self (fun _ => rfl) x

/-- A value related to one that was returned is returned. -/
theorem Agrees.exists_ok {R : α → β → Prop} {x : Except ε α} {y : Except ε β} {b : β}
    (h : Agrees R x y) (hy : y = .ok b) : ∃ a, x = .ok a ∧ R a b := by
  subst hy
  cases x with
  | error e => exact h.elim
  | ok a => exact ⟨a, rfl, h⟩

end Agrees

/-! ## Loops with early return -/

section Loop

variable {ε σ ι : Type*}

/-- **The loop rule.**  What one iteration preserves holds when the loop returns. -/
theorem foldlM_invariant {f : σ → ι → Except ε σ} (I : σ → Prop) {xs : List ι}
    (hstep : ∀ s x s', x ∈ xs → I s → f s x = .ok s' → I s') {s s' : σ} (h0 : I s)
    (h : xs.foldlM f s = .ok s') : I s' := by
  induction xs generalizing s with
  | nil =>
    obtain rfl : s = s' := by simpa using h
    exact h0
  | cons x xs ih =>
    rw [List.foldlM_cons, bind_eq_ok] at h
    obtain ⟨t, ht, hrest⟩ := h
    exact ih (fun s x s' hx => hstep s x s' (List.mem_cons_of_mem _ hx))
      (hstep s x t List.mem_cons_self h0 ht) hrest

theorem throws_foldlM {P : ε → Prop} {f : σ → ι → Except ε σ} (hf : ∀ s x, Throws P (f s x))
    (xs : List ι) (s : σ) : Throws P (xs.foldlM f s) := by
  induction xs generalizing s with
  | nil => exact throws_pure s
  | cons x xs ih => exact throws_bind.mpr ⟨hf s x, fun t _ => ih t⟩

/-- A fold whose steps leave the state as it is. -/
theorem foldlM_unmoved {f : σ → ι → Except ε σ} {s : σ} {xs : List ι}
    (h : ∀ x ∈ xs, f s x = .ok s) : xs.foldlM f s = .ok s := by
  induction xs with
  | nil => rfl
  | cons x xs ih =>
    obtain ⟨hx, hxs⟩ := List.forall_mem_cons.mp h
    rw [List.foldlM_cons, hx]
    exact ih hxs

/-- A loop of checks passed when each check did. -/
@[simp] theorem forM_eq_ok {f : ι → Except ε PUnit} {xs : List ι} {u : PUnit} :
    forM xs f = .ok u ↔ ∀ x ∈ xs, f x = .ok ⟨⟩ := by
  induction xs with
  | nil => simp
  | cons x xs ih =>
    rw [List.forM_cons, bind_eq_ok, List.forall_mem_cons]
    constructor
    · rintro ⟨_, hx, hxs⟩
      exact ⟨hx, ih.mp hxs⟩
    · rintro ⟨hx, hxs⟩
      exact ⟨_, hx, ih.mpr hxs⟩

/-- A loop that collects results returned what each turn returned. -/
theorem mapM_eq_ok {α β : Type u} {f : α → Except ε β} {xs : List α} {ys : List β} :
    xs.mapM f = .ok ys ↔ xs.map f = ys.map .ok := by
  induction xs generalizing ys with
  | nil =>
    rw [List.mapM_nil, pure_eq_ok]
    simp
  | cons x xs ih =>
    simp only [List.mapM_cons, bind_eq_ok, pure_eq_ok, ih, List.map_cons]
    constructor
    · rintro ⟨y, hy, ys', hys, rfl⟩
      rw [hy, hys, List.map_cons]
    · intro h
      cases ys with
      | nil => simp at h
      | cons y ys => exact ⟨y, (List.cons.inj h).1, ys, (List.cons.inj h).2, rfl⟩

/-- A loop whose turns all return returns. -/
theorem exists_mapM_eq_ok {α β : Type u} {f : α → Except ε β} {xs : List α}
    (hf : ∀ x ∈ xs, ∃ y, f x = .ok y) : ∃ ys, xs.mapM f = .ok ys := by
  induction xs with
  | nil => exact ⟨[], rfl⟩
  | cons x xs ih =>
    obtain ⟨y, hy⟩ := hf x List.mem_cons_self
    obtain ⟨ys, hys⟩ := ih fun z hz => hf z (List.mem_cons_of_mem _ hz)
    exact ⟨y :: ys, by rw [List.mapM_cons, hy, hys]; rfl⟩

theorem throws_mapM {α β : Type u} {P : ε → Prop} {f : α → Except ε β} (hf : ∀ x, Throws P (f x))
    (xs : List α) : Throws P (xs.mapM f) := by
  induction xs with
  | nil => exact throws_pure []
  | cons x xs ih =>
    rw [List.mapM_cons]
    exact throws_bind.mpr ⟨hf x, fun y _ => throws_bind.mpr ⟨ih, fun ys _ => throws_pure _⟩⟩

end Loop

/-- **The rule for sequences of steps.**  What one step preserves holds at the end. -/
theorem steps_invariant {σ : Type*} {r : σ → σ → Prop} (I : σ → Prop)
    (hstep : ∀ a b, I a → r a b → I b) {a b : σ} (h : Relation.ReflTransGen r a b) (ha : I a) :
    I b := by
  induction h with
  | refl => exact ha
  | tail _ hr ih => exact hstep _ _ ih hr

/-- Loops whose turns agree wherever both succeed. -/
theorem foldlM_agree {σ β : Type*} {f g : σ → β → Except ε σ} (h : ∀ acc x a b, f acc x = .ok a → g acc x = .ok b → a = b)
    {xs : List β} {acc a b : σ} (hf : xs.foldlM f acc = .ok a) (hg : xs.foldlM g acc = .ok b) : a = b := by
  induction xs generalizing acc with
  | nil => exact Except.ok.inj (hf.symm.trans hg)
  | cons x xs ih =>
    rw [List.foldlM_cons, bind_eq_ok] at hf hg
    obtain ⟨a₁, ha, hf⟩ := hf
    obtain ⟨b₁, hb, hg⟩ := hg
    obtain rfl := h acc x a₁ b₁ ha hb
    exact ih hf hg

end Library
