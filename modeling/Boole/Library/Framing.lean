import Boole.Library.Instances
import Mathlib.Data.List.Basic

/-!
# Library/Framing — streams of tagged records

A record is a tag and a payload, and the tag fixes the length of the payload.  So a stream needs no
separators: **the concatenation of records determines the records** (`flatten_inj`).
-/

namespace Library

variable {α β : Type*}

/-- A tag and a payload of the length that the tag fixes. -/
def Framed (size : α → ℕ) (x : List α) : Prop := ∃ tag payload, x = tag :: payload ∧ payload.length = size tag

theorem framed_of_length {n : ℕ} {x : List α} (h : x.length = n + 1) : Framed (fun _ => n) x := by
  cases x with
  | nil => exact nomatch h
  | cons a x => exact ⟨a, x, rfl, Nat.succ.inj h⟩

/-- **A stream of records can be read in one way.** -/
theorem flatten_inj {size : α → ℕ} {l l' : List (List α)} (h : ∀ x ∈ l, Framed size x)
    (h' : ∀ x ∈ l', Framed size x) (heq : l.flatten = l'.flatten) : l = l' := by
  induction l generalizing l' with
  | nil =>
    cases l' with
    | nil => rfl
    | cons y l' =>
      obtain ⟨tag, payload, rfl, -⟩ := h' y List.mem_cons_self
      exact nomatch heq
  | cons x l ih =>
    obtain ⟨tag, payload, rfl, hlen⟩ := h x List.mem_cons_self
    cases l' with
    | nil => exact nomatch heq
    | cons y l' =>
      obtain ⟨tag', payload', rfl, hlen'⟩ := h' y List.mem_cons_self
      simp only [List.flatten_cons, List.cons_append, List.cons.injEq] at heq
      obtain ⟨rfl, heq⟩ := heq
      obtain ⟨rfl, hrest⟩ := List.append_inj heq (hlen.trans hlen'.symm)
      rw [ih (fun z hz => h z (List.mem_cons_of_mem _ hz)) (fun z hz => h' z (List.mem_cons_of_mem _ hz)) hrest]

/-- Values of one width are determined by their concatenation. -/
theorem flatMap_inj {n : ℕ} {f : β → List α} (hf : Function.Injective f) (hlen : ∀ b, (f b).length = n + 1)
    {l l' : List β} (heq : l.flatMap f = l'.flatMap f) : l = l' := by
  have hframed (m : List β) : ∀ x ∈ m.map f, Framed (fun _ => n) x := by
    intro x hx
    obtain ⟨b, -, rfl⟩ := List.mem_map.mp hx
    exact framed_of_length (hlen b)
  exact hf.list_map (flatten_inj (hframed l) (hframed l') heq)

end Library
