import Boole.Library.Instances
import Mathlib.Algebra.BigOperators.Group.Finset.Basic
import Mathlib.Algebra.BigOperators.Group.List.Lemmas
import Mathlib.Algebra.Order.BigOperators.Group.List
import Mathlib.Algebra.Order.Group.Nat
import Std.Data.ExtTreeSet

/-!
# Library/OrdMap — sums over ordered maps, and undoing writes to them

Two things programs do with an ordered map that the standard library has no name for:

* **totals** — `sumBy f m` adds `f` over the entries.  A write moves the total by the new entry
  minus the replaced one (`sumBy_insert`, `sumBy_erase`), stated without subtraction;
* **undo records** — a map from keys to the value they had before (`none`: the key was absent).
  `restore` plays such a record back; `Records old m m'` says it remembers enough, and then
  `restore_of_records` says the playback returns the old map.
-/

open Std

namespace Library

variable {α β : Type*} {cmp : α → α → Ordering} [TransCmp cmp]

theorem mem_iff_exists {m : ExtTreeMap α β cmp} {a : α} : a ∈ m ↔ ∃ v, m[a]? = some v := by
  rw [ExtTreeMap.mem_iff_isSome_getElem?, Option.isSome_iff_exists]

theorem mem_toList_iff [LawfulEqCmp cmp] {m : ExtTreeMap α β cmp} {e : α × β} :
    e ∈ m.toList ↔ m[e.1]? = some e.2 :=
  ExtTreeMap.mem_toList_iff_getElem?_eq_some

/-! ## Reading after a write -/

/-- A map after writing a list of entries, the later ones over the earlier ones. -/
def insertAll (m : ExtTreeMap α β cmp) (l : List (α × β)) : ExtTreeMap α β cmp :=
  l.foldl (fun m e => m.insert e.1 e.2) m

theorem insertAll_append (m : ExtTreeMap α β cmp) (l l' : List (α × β)) :
    insertAll m (l ++ l') = insertAll (insertAll m l) l' :=
  List.foldl_append

section Read

variable [LawfulEqCmp cmp] [DecidableEq α]

variable (m : ExtTreeMap α β cmp)

theorem getElem?_insert (k a : α) (v : β) :
    (m.insert k v)[a]? = if k = a then some v else m[a]? := by
  rw [ExtTreeMap.getElem?_insert]
  simp

theorem getElem?_erase (k a : α) : (m.erase k)[a]? = if k = a then none else m[a]? := by
  rw [ExtTreeMap.getElem?_erase]
  simp

omit [DecidableEq α] in
theorem size_eq_of_mem_iff {γ : Type*} {m : ExtTreeMap α β cmp} {m' : ExtTreeMap α γ cmp}
    (h : ∀ k, k ∈ m ↔ k ∈ m') : m.size = m'.size := by
  have hmap : m.map (fun _ _ => ()) = m'.map fun _ _ => () := by
    refine ExtTreeMap.ext_getElem? fun k => ?_
    rw [ExtTreeMap.getElem?_map, ExtTreeMap.getElem?_map]
    have hk := h k
    rw [ExtTreeMap.mem_iff_isSome_getElem?, ExtTreeMap.mem_iff_isSome_getElem?] at hk
    cases hm : m[k]? <;> cases hm' : m'[k]? <;> simp_all
  rw [← ExtTreeMap.size_map (f := fun _ _ => ()), hmap, ExtTreeMap.size_map]

theorem insert_insert_self (k : α) (v w : β) : (m.insert k v).insert k w = m.insert k w := by
  refine ExtTreeMap.ext_getElem? fun a => ?_
  simp only [getElem?_insert]
  split <;> rfl

theorem insert_eq_self {m : ExtTreeMap α β cmp} {k : α} {v : β} (h : m[k]? = some v) :
    m.insert k v = m := by
  refine ExtTreeMap.ext_getElem? fun a => ?_
  rw [getElem?_insert]
  split_ifs with heq
  · rw [← heq, h]
  · rfl

/-- What holds of every entry, and of the one written, holds after the write. -/
theorem forall_insert {Q : α → β → Prop} {m : ExtTreeMap α β cmp} {k : α} {v : β}
    (hm : ∀ a b, m[a]? = some b → Q a b) (hv : Q k v) (a : α) (b : β)
    (hb : (m.insert k v)[a]? = some b) : Q a b := by
  rw [getElem?_insert] at hb
  split_ifs at hb with heq
  · rw [← heq, ← Option.some.inj hb]
    exact hv
  · exact hm a b hb

/-- A label of the entries survives a write that keeps it. -/
theorem map_insert_eq_some {γ : Type*} {f : β → γ} {m : ExtTreeMap α β cmp} {k : α} {v : β}
    (hk : ∀ b, m[k]? = some b → f v = f b) {a : α} {x : γ} (hx : m[a]?.map f = some x) :
    (m.insert k v)[a]?.map f = some x := by
  rw [getElem?_insert]
  split_ifs with heq
  · subst heq
    obtain ⟨b, hb, rfl⟩ := Option.map_eq_some_iff.mp hx
    exact congrArg some (hk b hb)
  · exact hx

theorem getElem?_insertIfNew (k a : α) (v : β) :
    (m.insertIfNew k v)[a]? = if k = a ∧ m[k]? = none then some v else m[a]? := by
  rw [ExtTreeMap.getElem?_insertIfNew]
  simp

theorem getElem?_insertAll_of_notMem {l : List (α × β)} {k : α} (h : k ∉ l.map Prod.fst) :
    (insertAll m l)[k]? = m[k]? := by
  induction l generalizing m with
  | nil => rfl
  | cons e l ih =>
    rw [List.map_cons, List.mem_cons, not_or] at h
    rw [insertAll, List.foldl_cons, ← insertAll, ih _ h.2, getElem?_insert, if_neg (Ne.symm h.1)]

theorem getElem?_insertAll_of_mem {l : List (α × β)} (hnodup : (l.map Prod.fst).Nodup) {k : α}
    {v : β} (h : (k, v) ∈ l) : (insertAll m l)[k]? = some v := by
  induction l generalizing m with
  | nil => simp at h
  | cons e l ih =>
    rw [List.map_cons, List.nodup_cons] at hnodup
    rw [insertAll, List.foldl_cons, ← insertAll]
    rcases List.mem_cons.mp h with rfl | h
    · rw [getElem?_insertAll_of_notMem _ hnodup.1, getElem?_insert, if_pos rfl]
    · exact ih _ hnodup.2 h

theorem mem_insertAll_empty {l : List (α × β)} (hnodup : (l.map Prod.fst).Nodup) {k : α} :
    k ∈ insertAll (∅ : ExtTreeMap α β cmp) l ↔ k ∈ l.map Prod.fst := by
  rw [← ExtTreeMap.isSome_getElem?_iff_mem]
  by_cases hk : k ∈ l.map Prod.fst
  · obtain ⟨⟨k, v⟩, hmem, rfl⟩ := List.mem_map.mp hk
    simp only [getElem?_insertAll_of_mem ∅ hnodup hmem, hk, Option.isSome_some]
  · simp [getElem?_insertAll_of_notMem ∅ hk, hk]

/-- **Filtering by value takes back the writes of a list's tail,** when it keeps the head's values
and drops the tail's. -/
theorem filter_insertAll_append {p : β → Bool} {l l' : List (α × β)}
    (hnodup : ((l ++ l').map Prod.fst).Nodup) (hl : ∀ e ∈ l, p e.2 = true)
    (hl' : ∀ e ∈ l', p e.2 = false) :
    (insertAll (∅ : ExtTreeMap α β cmp) (l ++ l')).filter (fun _ v => p v) = insertAll ∅ l := by
  refine ExtTreeMap.ext_getElem? fun k => ?_
  rw [ExtTreeMap.getElem?_filter']
  rw [List.map_append] at hnodup
  by_cases hk : k ∈ l.map Prod.fst
  · obtain ⟨⟨k, v⟩, hmem, rfl⟩ := List.mem_map.mp hk
    have hnodup' := hnodup
    rw [← List.map_append] at hnodup'
    rw [getElem?_insertAll_of_mem ∅ hnodup' (List.mem_append_left _ hmem),
      getElem?_insertAll_of_mem ∅ (List.nodup_append.mp hnodup).1 hmem]
    simp [hl _ hmem]
  · rw [insertAll_append, getElem?_insertAll_of_notMem _ hk]
    by_cases hk' : k ∈ l'.map Prod.fst
    · obtain ⟨⟨k, v⟩, hmem, rfl⟩ := List.mem_map.mp hk'
      rw [getElem?_insertAll_of_mem _ (List.nodup_append.mp hnodup).2.1 hmem]
      simp [Option.filter, hl' _ hmem]
    · rw [getElem?_insertAll_of_notMem _ hk', getElem?_insertAll_of_notMem _ hk]
      simp

end Read

/-! ## The first entry -/

/-- The entry with the least key. -/
def firstKeyValue (m : ExtTreeMap α β cmp) : Option (α × β) := m.toList.head?

theorem firstKeyValue_eq_none {m : ExtTreeMap α β cmp} : firstKeyValue m = none ↔ m = ∅ := by
  rw [firstKeyValue, List.head?_eq_none_iff, ExtTreeMap.toList_eq_nil_iff]

theorem getElem?_of_firstKeyValue [LawfulEqCmp cmp] {m : ExtTreeMap α β cmp} {k : α} {v : β}
    (h : firstKeyValue m = some (k, v)) : m[k]? = some v :=
  mem_toList_iff.mp (List.mem_of_head? h)

/-- **No key comes before the first one.** -/
theorem firstKeyValue_isLE [LawfulEqCmp cmp] {m : ExtTreeMap α β cmp} {k : α} {v : β}
    (h : firstKeyValue m = some (k, v)) {a : α} {w : β} (ha : m[a]? = some w) :
    (cmp k a).isLE := by
  have hmem : (a, w) ∈ m.toList := mem_toList_iff.mpr ha
  have hord := ExtTreeMap.ordered_keys_toList (t := m)
  obtain ⟨l, hl⟩ : ∃ l, m.toList = (k, v) :: l := by
    rw [firstKeyValue] at h
    cases hm : m.toList with
    | nil => simp [hm] at h
    | cons e l =>
      simp only [hm, List.head?_cons, Option.some.injEq] at h
      exact ⟨l, by rw [h]⟩
  rw [hl, List.pairwise_cons] at hord
  rw [hl, List.mem_cons] at hmem
  rcases hmem with heq | hmem
  · obtain rfl : a = k := congrArg Prod.fst heq
    have hself : cmp a a = .eq := ReflCmp.compare_self
    rw [hself]
    rfl
  · simp [hord.1 (a, w) hmem]

theorem nodup_fst_toList (m : ExtTreeMap α β cmp) : (m.toList.map Prod.fst).Nodup := by
  rw [ExtTreeMap.map_fst_toList_eq_keys]
  exact ExtTreeMap.nodup_keys

/-! ## Totals -/

variable (f : α → β → ℕ)

/-- The total of `f` over the entries of a map. -/
def sumBy (m : ExtTreeMap α β cmp) : ℕ :=
  (m.toList.map fun e => f e.1 e.2).sum

@[simp] theorem sumBy_empty : sumBy f (∅ : ExtTreeMap α β cmp) = 0 := by
  simp [sumBy, ExtTreeMap.toList_eq_nil_iff.mpr rfl]

/-- Dropping entries does not raise a total. -/
theorem sumBy_filter_le (p : α → β → Bool) (m : ExtTreeMap α β cmp) :
    sumBy f (m.filter p) ≤ sumBy f m := by
  rw [sumBy, ExtTreeMap.toList_filter]
  exact (List.filter_sublist.map _).sum_le_sum (fun _ _ => Nat.zero_le _)

section Sum

variable [LawfulEqCmp cmp] [DecidableEq α] (m : ExtTreeMap α β cmp)

/-- The total, over the keys as a finite set. -/
theorem sumBy_eq_sum : sumBy f m = ∑ k ∈ m.keys.toFinset, (m[k]?).elim 0 (f k) := by
  have hnd : m.keys.Nodup := ExtTreeMap.nodup_keys
  have hval : ∀ e ∈ m.toList, f e.1 e.2 = (m[e.1]?).elim 0 (f e.1) := by
    intro e he
    have : m[e.1]? = some e.2 := mem_toList_iff.mp he
    simp [this]
  rw [List.sum_toFinset _ hnd, ← ExtTreeMap.map_fst_toList_eq_keys, List.map_map, sumBy,
    List.map_congr_left hval]
  rfl

omit [DecidableEq α] in
theorem mem_keys_iff (k : α) : k ∈ m.keys ↔ m[k]? ≠ none := by
  rw [ExtTreeMap.mem_keys, ← ExtTreeMap.isSome_getElem?_iff_mem, Option.isSome_iff_ne_none]

/-- The total, over any finite set that covers the keys. -/
theorem sumBy_eq_sum_of_subset {s : Finset α} (hs : m.keys.toFinset ⊆ s) :
    sumBy f m = ∑ k ∈ s, (m[k]?).elim 0 (f k) := by
  rw [sumBy_eq_sum]
  refine Finset.sum_subset hs fun k _ hk => ?_
  have : m[k]? = none := by
    by_contra h
    exact hk (List.mem_toFinset.mpr ((mem_keys_iff m k).mpr h))
  simp [this]

/-- **Two maps that agree off one key differ in total by that key's entries.** -/
theorem sumBy_update (m m' : ExtTreeMap α β cmp) (k : α) (h : ∀ a, a ≠ k → m'[a]? = m[a]?) :
    sumBy f m' + (m[k]?).elim 0 (f k) = sumBy f m + (m'[k]?).elim 0 (f k) := by
  let s : Finset α := insert k (m.keys.toFinset ∪ m'.keys.toFinset)
  have hm : m.keys.toFinset ⊆ s := fun a ha =>
    Finset.mem_insert_of_mem (Finset.mem_union_left _ ha)
  have hm' : m'.keys.toFinset ⊆ s := fun a ha =>
    Finset.mem_insert_of_mem (Finset.mem_union_right _ ha)
  have hk : k ∈ s := Finset.mem_insert_self _ _
  have hrest : ∑ a ∈ s.erase k, (m'[a]?).elim 0 (f a) = ∑ a ∈ s.erase k, (m[a]?).elim 0 (f a) :=
    Finset.sum_congr rfl fun a ha => by rw [h a (Finset.ne_of_mem_erase ha)]
  rw [sumBy_eq_sum_of_subset f m hm, sumBy_eq_sum_of_subset f m' hm', ← Finset.add_sum_erase s _ hk,
    ← Finset.add_sum_erase s _ hk]
  omega

/-- **Writing an entry moves the total by the new entry minus the replaced one.** -/
theorem sumBy_insert (k : α) (v : β) :
    sumBy f (m.insert k v) + (m[k]?).elim 0 (f k) = sumBy f m + f k v := by
  have h := sumBy_update f m (m.insert k v) k fun a ha => by
    rw [getElem?_insert, if_neg (Ne.symm ha)]
  simpa using h

/-- …and removing one takes it out. -/
theorem sumBy_erase (k : α) : sumBy f (m.erase k) + (m[k]?).elim 0 (f k) = sumBy f m := by
  have h := sumBy_update f m (m.erase k) k fun a ha => by
    rw [getElem?_erase, if_neg (Ne.symm ha)]
  simpa using h

/-- One entry is at most the total. -/
theorem le_sumBy {m : ExtTreeMap α β cmp} {k : α} {v : β} (h : m[k]? = some v) :
    f k v ≤ sumBy f m := by
  have := sumBy_erase f m k
  rw [h] at this
  simp only [Option.elim_some] at this
  omega

end Sum

/-! ## Writing many entries -/

/-- Write every entry of `s` into `m`, in key order. -/
def overlay (m s : ExtTreeMap α β cmp) : ExtTreeMap α β cmp :=
  s.toList.foldl (fun m e => m.insert e.1 e.2) m

section Overlay

variable [LawfulEqCmp cmp] [DecidableEq α]

theorem getElem?_foldl_insert (l : List (α × β)) (m : ExtTreeMap α β cmp) (a : α)
    (hnd : (l.map Prod.fst).Nodup) :
    (l.foldl (fun m e => m.insert e.1 e.2) m)[a]?
      = ((l.find? fun e => e.1 = a).map Prod.snd).or m[a]? := by
  induction l generalizing m with
  | nil => simp
  | cons e l ih =>
    rw [List.map_cons, List.nodup_cons] at hnd
    rw [List.foldl_cons, ih _ hnd.2, getElem?_insert]
    by_cases h : e.1 = a
    · have hnone : l.find? (fun e => e.1 = a) = none := by
        rw [List.find?_eq_none]
        intro x hx hxa
        simp only [decide_eq_true_eq] at hxa
        exact hnd.1 (List.mem_map.mpr ⟨x, hx, hxa.trans h.symm⟩)
      simp [h, hnone]
    · simp [h]

theorem find?_toList (s : ExtTreeMap α β cmp) (a : α) :
    ((s.toList.find? fun e => e.1 = a).map Prod.snd) = s[a]? := by
  cases h : s.toList.find? fun e => e.1 = a with
  | none =>
    rw [List.find?_eq_none] at h
    cases hs : s[a]? with
    | none => rfl
    | some v =>
      have := h (a, v) (mem_toList_iff.mpr hs)
      simp at this
  | some e =>
    have hmem := mem_toList_iff.mp (List.mem_of_find?_eq_some h)
    have hkey : e.1 = a := by simpa using List.find?_some h
    rw [← hkey, hmem]
    rfl

/-- **A written map reads the new entries first.** -/
theorem getElem?_overlay (m s : ExtTreeMap α β cmp) (a : α) :
    (overlay m s)[a]? = (s[a]?).or m[a]? := by
  rw [overlay, getElem?_foldl_insert _ _ _ (nodup_fst_toList s), find?_toList]

end Overlay

/-! ## Undo records -/

/-- Play an undo record back: put every remembered value in place, remove what was absent. -/
def restore (m : ExtTreeMap α β cmp) (old : ExtTreeMap α (Option β) cmp) : ExtTreeMap α β cmp :=
  old.toList.foldl (fun m e => match e.2 with
    | some v => m.insert e.1 v
    | none => m.erase e.1) m

/-- `old` remembers enough to go from `m'` back to `m`: where it has an entry it is `m`'s value,
and elsewhere the two maps agree. -/
structure Records (old : ExtTreeMap α (Option β) cmp) (m m' : ExtTreeMap α β cmp) : Prop where
  known : ∀ (k : α) (v : Option β), old[k]? = some v → m[k]? = v
  same : ∀ k : α, old[k]? = none → m'[k]? = m[k]?

section Undo

variable [LawfulEqCmp cmp] [DecidableEq α]

theorem getElem?_foldl_restore (l : List (α × Option β)) (m : ExtTreeMap α β cmp) (a : α)
    (hnd : (l.map Prod.fst).Nodup) :
    (l.foldl (fun m e => match e.2 with
      | some v => m.insert e.1 v
      | none => m.erase e.1) m)[a]?
      = match (l.find? fun e => e.1 = a).map Prod.snd with
        | some v => v
        | none => m[a]? := by
  induction l generalizing m with
  | nil => simp
  | cons e l ih =>
    rw [List.map_cons, List.nodup_cons] at hnd
    obtain ⟨k, v⟩ := e
    rw [List.foldl_cons, ih _ hnd.2]
    by_cases h : k = a
    · have hnone : l.find? (fun e => e.1 = a) = none := by
        rw [List.find?_eq_none]
        intro x hx hxa
        simp only [decide_eq_true_eq] at hxa
        exact hnd.1 (List.mem_map.mpr ⟨x, hx, hxa.trans h.symm⟩)
      cases v with
      | none => simp [h, hnone]
      | some v => simp [h, hnone]
    · cases v with
      | none => simp [h, getElem?_erase]
      | some v => simp [h, getElem?_insert]

theorem getElem?_restore (m : ExtTreeMap α β cmp) (old : ExtTreeMap α (Option β) cmp) (a : α) :
    (restore m old)[a]? = match old[a]? with
      | some v => v
      | none => m[a]? := by
  rw [restore, getElem?_foldl_restore _ _ _ (nodup_fst_toList old), find?_toList]

/-- **A record that remembers enough restores the old map.** -/
theorem restore_of_records {old : ExtTreeMap α (Option β) cmp} {m m' : ExtTreeMap α β cmp}
    (h : Records old m m') : restore m' old = m := by
  refine ExtTreeMap.ext_getElem? fun k => ?_
  rw [getElem?_restore]
  cases hk : old[k]? with
  | some v => exact (h.known k v hk).symm
  | none => exact h.same k hk

omit [LawfulEqCmp cmp] [DecidableEq α] in
theorem records_empty (m : ExtTreeMap α β cmp) :
    Records (∅ : ExtTreeMap α (Option β) cmp) m m where
  known k v hk := by simp at hk
  same _ _ := rfl

/-- **Remember first:** the current value of a key that is not remembered yet is its old value. -/
theorem Records.remember {old : ExtTreeMap α (Option β) cmp} {m m' : ExtTreeMap α β cmp}
    (h : Records old m m') (k : α) : Records (old.insertIfNew k m'[k]?) m m' where
  known a v ha := by
    rw [getElem?_insertIfNew] at ha
    by_cases hk : k = a ∧ old[k]? = none
    · obtain ⟨rfl, hnone⟩ := hk
      rw [if_pos ⟨rfl, hnone⟩, Option.some_inj] at ha
      rw [← ha, h.same k hnone]
    · exact h.known a v (by rwa [if_neg hk] at ha)
  same a ha := by
    rw [getElem?_insertIfNew] at ha
    split at ha
    · simp at ha
    · exact h.same a ha

theorem Records.remember_old {old : ExtTreeMap α (Option β) cmp} {m m' : ExtTreeMap α β cmp}
    (h : Records old m m') {k : α} {v : Option β} (hv : m[k]? = v) :
    Records (old.insert k v) m m' where
  known a w ha := by
    rw [getElem?_insert] at ha
    split at ha
    · subst k
      exact hv.trans (Option.some.inj ha)
    · exact h.known a w ha
  same a ha := by
    rw [getElem?_insert] at ha
    split at ha
    · simp at ha
    · exact h.same a ha

omit [LawfulEqCmp cmp] [DecidableEq α] in
/-- **…then write:** what is remembered may change. -/
theorem Records.write {old : ExtTreeMap α (Option β) cmp} {m m' m'' : ExtTreeMap α β cmp}
    (h : Records old m m') (hoff : ∀ a : α, old[a]? = none → m''[a]? = m'[a]?) :
    Records old m m'' where
  known := h.known
  same a ha := (hoff a ha).trans (h.same a ha)

/-- Remember a key and write it. -/
theorem Records.touch {old : ExtTreeMap α (Option β) cmp} {m m' : ExtTreeMap α β cmp}
    (h : Records old m m') (k : α) (v : β) :
    Records (old.insertIfNew k m'[k]?) m (m'.insert k v) := by
  refine (h.remember k).write fun a ha => ?_
  rw [getElem?_insertIfNew] at ha
  rw [getElem?_insert]
  split
  · subst a
    split at ha
    · simp at ha
    · rename_i hne
      exact absurd ⟨rfl, ha⟩ hne
  · rfl

end Undo

end Library
