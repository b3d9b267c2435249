import Boole.Library.Json
import Mathlib.Data.List.Sort

/-!
# Library/JsonOrder — values up to the order of their keys

An object is a map, written down in some order.  Two values are the same up to that order when
their objects have the same keys and the same values at them, all the way down (`Value.Same`).
**Sorting the keys picks one value of each class** (`Value.sortKeys_eq_iff`), so two values have the
same canonical bytes exactly when they are the same up to the order of their keys.
-/

namespace Library.Json

open Value

/-- No object has a key twice, as in a map. -/
inductive Value.Keyed : Value → Prop
  | null : Keyed .null
  | bool (b : Bool) : Keyed (.bool b)
  | number (n : Number) : Keyed (.number n)
  | string (s : String) : Keyed (.string s)
  | array {items : List Value} (h : ∀ v ∈ items, v.Keyed) : Keyed (.array items)
  | object {fields : List (String × Value)} (keys : (fields.map Prod.fst).Nodup)
      (h : ∀ f ∈ fields, f.2.Keyed) : Keyed (.object fields)

/-- Equal up to the order of the keys. -/
inductive Value.Same : Value → Value → Prop
  | null : Same .null .null
  | bool (b : Bool) : Same (.bool b) (.bool b)
  | number (n : Number) : Same (.number n) (.number n)
  | string (s : String) : Same (.string s) (.string s)
  | array {vs ws : List Value} (length : vs.length = ws.length)
      (items : ∀ (i : ℕ) (v w : Value), vs[i]? = some v → ws[i]? = some w → Same v w) :
      Same (.array vs) (.array ws)
  | object {fs gs : List (String × Value)} (keys : ∀ k, k ∈ fs.map Prod.fst ↔ k ∈ gs.map Prod.fst)
      (fields : ∀ (k : String) (v w : Value), (k, v) ∈ fs → (k, w) ∈ gs → Same v w) :
      Same (.object fs) (.object gs)

/-! ## Sorted fields -/

/-- The keys are in order. -/
def SortedFields (fs : List (String × Value)) : Prop :=
  fs.Pairwise fun f g => compare f.1 g.1 = .lt

variable {k l : String} {v w : Value} {fs gs : List (String × Value)}

theorem mem_keys_insertField :
    l ∈ (insertField k v fs).map Prod.fst ↔ l = k ∨ l ∈ fs.map Prod.fst := by
  induction fs with
  | nil => simp [insertField]
  | cons f fs ih =>
    rw [insertField]
    split
    · simp
    · rename_i heq
      simp [Std.LawfulEqOrd.eq_of_compare heq]
    · simp only [List.map_cons, List.mem_cons]
      tauto

theorem mem_insertField (hk : k ∉ fs.map Prod.fst) {f : String × Value} :
    f ∈ insertField k v fs ↔ f = (k, v) ∨ f ∈ fs := by
  induction fs with
  | nil => simp [insertField]
  | cons g fs ih =>
    rw [List.map_cons, List.mem_cons, not_or] at hk
    rw [insertField]
    split
    · simp
    · rename_i heq
      exact absurd (Std.LawfulEqOrd.eq_of_compare heq) hk.1
    · simp only [List.mem_cons]
      tauto

theorem SortedFields.insertField (hs : SortedFields fs) : SortedFields (insertField k v fs) := by
  induction fs with
  | nil => simp [Json.insertField, SortedFields]
  | cons g fs ih =>
    obtain ⟨hg, hs⟩ := List.pairwise_cons.mp hs
    rw [Json.insertField]
    split
    · rename_i hlt
      refine List.pairwise_cons.mpr ⟨fun f hf => ?_, List.pairwise_cons.mpr ⟨hg, hs⟩⟩
      rcases List.mem_cons.mp hf with rfl | hf
      · exact hlt
      · exact Std.TransCmp.lt_trans hlt (hg f hf)
    · exact List.pairwise_cons.mpr ⟨hg, hs⟩
    · rename_i hgt
      refine List.pairwise_cons.mpr ⟨fun f hf => ?_, ih hs⟩
      have hkey := mem_keys_insertField.mp (List.mem_map_of_mem hf)
      rcases hkey with heq | hmem
      · rw [heq]
        exact Std.OrientedCmp.gt_iff_lt.mp hgt
      · obtain ⟨f', hf', heq⟩ := List.mem_map.mp hmem
        rw [← heq]
        exact hg f' hf'

theorem SortedFields.nodup (hs : SortedFields fs) : (fs.map Prod.fst).Nodup := by
  refine List.pairwise_map.mpr (hs.imp fun {f g} h => ?_)
  intro heq
  rw [heq, Std.ReflOrd.compare_self] at h
  cases h

theorem sortedFields_sortFields (fs : List (String × Value)) : SortedFields (sortFields fs) := by
  induction fs with
  | nil => exact .nil
  | cons f fs ih => exact ih.insertField

theorem mem_keys_sortFields : l ∈ (sortFields fs).map Prod.fst ↔ l ∈ fs.map Prod.fst := by
  induction fs with
  | nil => rfl
  | cons f fs ih => rw [sortFields, mem_keys_insertField, ih, List.map_cons, List.mem_cons]

theorem mem_sortFields (hfs : (fs.map Prod.fst).Nodup) {f : String × Value} :
    f ∈ sortFields fs ↔ ∃ g ∈ fs, f = (g.1, g.2.sortKeys) := by
  induction fs with
  | nil => simp [sortFields]
  | cons g fs ih =>
    obtain ⟨hg, hfs⟩ := List.nodup_cons.mp hfs
    rw [sortFields, mem_insertField (mt mem_keys_sortFields.mp hg), ih hfs]
    simp only [List.mem_cons, exists_eq_or_imp]

/-- Sorted fields are determined by what they hold. -/
theorem SortedFields.eq_of_mem_iff (hf : SortedFields fs) (hg : SortedFields gs)
    (h : ∀ f, f ∈ fs ↔ f ∈ gs) : fs = gs := by
  have hperm : fs.Perm gs :=
    (List.perm_ext_iff_of_nodup hf.nodup.of_map hg.nodup.of_map).mpr h
  refine hperm.eq_of_pairwise (fun f g _ _ hlt hgt => ?_) hf hg
  rw [Std.OrientedCmp.gt_iff_lt.mpr hgt] at hlt
  cases hlt

/-! ## The sorted value of a class -/

theorem Value.Same.sortKeys_eq (h : v.Same w) (hv : v.Keyed) (hw : w.Keyed) :
    v.sortKeys = w.sortKeys := by
  induction h with
  | null | bool | number | string => rfl
  | @array vs ws length _ ih =>
    cases hv with | array hv =>
    cases hw with | array hw =>
    rw [sortKeys, sortKeys, sortItems_eq_map, sortItems_eq_map]
    refine congrArg Value.array (List.ext_getElem (by simpa using length) fun i hi hi' => ?_)
    rw [List.length_map] at hi hi'
    rw [List.getElem_map, List.getElem_map]
    exact ih i _ _ (List.getElem?_eq_getElem hi) (List.getElem?_eq_getElem hi')
      (hv _ (List.getElem_mem hi)) (hw _ (List.getElem_mem hi'))
  | @object fs gs keys _ ih =>
    cases hv with | object hfs hv =>
    cases hw with | object hgs hw =>
    refine congrArg Value.object ((sortedFields_sortFields fs).eq_of_mem_iff
      (sortedFields_sortFields gs) fun f => ?_)
    rw [mem_sortFields hfs, mem_sortFields hgs]
    constructor
    · rintro ⟨⟨k, v⟩, hf, rfl⟩
      obtain ⟨⟨_, w⟩, hg, rfl⟩ := List.mem_map.mp ((keys k).mp (List.mem_map_of_mem hf))
      exact ⟨_, hg, by rw [ih _ v w hf hg (hv _ hf) (hw _ hg)]⟩
    · rintro ⟨⟨k, w⟩, hg, rfl⟩
      obtain ⟨⟨_, v⟩, hf, rfl⟩ := List.mem_map.mp ((keys k).mpr (List.mem_map_of_mem hg))
      exact ⟨_, hf, by rw [ih _ v w hf hg (hv _ hf) (hw _ hg)]⟩

theorem Value.Keyed.same (hv : v.Keyed) (hw : w.Keyed) (h : v.sortKeys = w.sortKeys) :
    v.Same w := by
  induction hv generalizing w with
  | null => cases hw <;> simp only [sortKeys, reduceCtorEq] at h; exact .null
  | bool b =>
    cases hw <;> simp only [sortKeys, reduceCtorEq] at h
    exact h ▸ .bool b
  | number n =>
    cases hw <;> simp only [sortKeys, reduceCtorEq] at h
    exact h ▸ .number n
  | string s =>
    cases hw <;> simp only [sortKeys, reduceCtorEq] at h
    exact h ▸ .string s
  | @array vs _ ih =>
    cases hw <;> simp only [sortKeys, reduceCtorEq, array.injEq, sortItems_eq_map] at h
    rename_i ws hws
    refine .array (by simpa using congrArg List.length h) fun i v w hi hi' => ?_
    refine ih v (List.mem_of_getElem? hi) (hws w (List.mem_of_getElem? hi')) ?_
    have := congrArg (·[i]?) h
    simpa [hi, hi'] using this
  | @object fs hfs _ ih =>
    cases hw <;> simp only [sortKeys, reduceCtorEq, object.injEq] at h
    rename_i gs hgs hws
    refine .object (fun k => ?_) fun k v w hf hg => ?_
    · rw [← mem_keys_sortFields, h, mem_keys_sortFields]
    · refine ih (k, v) hf (hws (k, w) hg) ?_
      have hmem : (k, v.sortKeys) ∈ sortFields gs := h ▸ (mem_sortFields hfs).mpr ⟨_, hf, rfl⟩
      obtain ⟨⟨l, w'⟩, hg', heq⟩ := (mem_sortFields hgs).mp hmem
      obtain ⟨rfl, heq⟩ := Prod.mk.inj heq
      have hw := List.inj_on_of_nodup_map hgs hg' hg rfl
      rw [heq, (Prod.mk.inj hw).2]

/-- **Sorting the keys forgets their order and nothing else.** -/
theorem Value.sortKeys_eq_iff (hv : v.Keyed) (hw : w.Keyed) : v.sortKeys = w.sortKeys ↔ v.Same w :=
  ⟨hv.same hw, fun h => h.sortKeys_eq hv hw⟩

theorem Value.Keyed.sortKeys (hv : v.Keyed) : v.sortKeys.Keyed := by
  induction hv with
  | null => exact .null
  | bool b => exact .bool b
  | number n => exact .number n
  | string s => exact .string s
  | array _ ih =>
    rw [Value.sortKeys, sortItems_eq_map]
    exact .array (List.forall_mem_map.mpr ih)
  | object hfs _ ih =>
    refine .object (sortedFields_sortFields _).nodup fun f hf => ?_
    obtain ⟨g, hg, rfl⟩ := (mem_sortFields hfs).mp hf
    exact ih g hg

theorem Value.Keyed.same_sortKeys (hv : v.Keyed) : v.sortKeys.Same v := by
  induction hv with
  | null => exact .null
  | bool b => exact .bool b
  | number n => exact .number n
  | string s => exact .string s
  | array _ ih =>
    rw [Value.sortKeys, sortItems_eq_map]
    refine .array (List.length_map _) fun i v w hi hi' => ?_
    rw [List.getElem?_map, hi', Option.map_some, Option.some.injEq] at hi
    exact hi ▸ ih w (List.mem_of_getElem? hi')
  | object hfs _ ih =>
    refine .object (fun k => mem_keys_sortFields) fun k v w hf hg => ?_
    obtain ⟨⟨l, w'⟩, hg', heq⟩ := (mem_sortFields hfs).mp hf
    obtain ⟨rfl, rfl⟩ := Prod.mk.inj heq
    have hw := List.inj_on_of_nodup_map hfs hg' hg rfl
    rw [← (Prod.mk.inj hw).2]
    exact ih _ hg'

end Library.Json
