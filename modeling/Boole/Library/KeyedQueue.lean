import Boole.Library.OrdMap
import Mathlib.Data.List.Nodup
import Mathlib.Data.List.Perm.Subperm

/-!
# Library/KeyedQueue — a map together with the order its keys came in

Programs keep a map for lookups and a list of its keys for the order of arrival.  `Listed key m order
vals` says that the two describe one list of values:

    vals   v₁ v₂ … vₙ      order  key v₁ … key vₙ      m  key vᵢ ↦ vᵢ

The rules follow the three ways such a pair is changed: a value is appended (`Listed.push`), one is
taken out (`Listed.eraseIdx`), all that fail a test are dropped (`Listed.prune`).  **The map has as
many entries as the list has values** (`Listed.size`).
-/

open Std

namespace Library

variable {α β : Type*}

/-- Where keys differ, taking out the value at an index is dropping its key. -/
theorem eraseIdx_eq_filter [DecidableEq α] {key : β → α} {vals : List β} {v : β} {i : ℕ}
    (hnodup : (vals.map key).Nodup) (hi : vals[i]? = some v) :
    vals.eraseIdx i = vals.filter fun w => key w ≠ key v := by
  induction vals generalizing i with
  | nil => simp at hi
  | cons w ws ih =>
    rw [List.map_cons, List.nodup_cons] at hnodup
    obtain ⟨hw, hws⟩ := hnodup
    cases i with
    | zero =>
      obtain rfl : w = v := by simpa using hi
      rw [List.filter_cons_of_neg (by simp)]
      have hrest : ∀ x ∈ ws, key x ≠ key w := fun x hx hkey => hw (hkey ▸ List.mem_map_of_mem hx)
      exact (List.filter_eq_self.mpr (by simpa using hrest)).symm
    | succ i =>
      have hne : key w ≠ key v := fun hkey =>
        hw (hkey ▸ List.mem_map_of_mem (List.mem_of_getElem? hi))
      rw [List.filter_cons_of_pos (by simpa using hne), List.eraseIdx_cons_succ, ih hws hi]

variable {cmp : α → α → Ordering} [TransCmp cmp]

/-- A map and the order of its keys, as one list of values. -/
structure Listed (key : β → α) (m : ExtTreeMap α β cmp) (order : List α) (vals : List β) :
    Prop where
  order_eq : order = vals.map key
  nodup : order.Nodup
  getElem?_eq : ∀ k v, m[k]? = some v ↔ v ∈ vals ∧ key v = k

namespace Listed

variable {key : β → α} {m m' : ExtTreeMap α β cmp} {order : List α} {vals : List β} {v : β}

theorem empty (key : β → α) : Listed key (∅ : ExtTreeMap α β cmp) [] [] where
  order_eq := rfl
  nodup := List.nodup_nil
  getElem?_eq := by simp

theorem getElem?_key (h : Listed key m order vals) (hv : v ∈ vals) : m[key v]? = some v :=
  (h.getElem?_eq _ _).mpr ⟨hv, rfl⟩

theorem mem_iff (h : Listed key m order vals) (k : α) : k ∈ m ↔ k ∈ order := by
  rw [mem_iff_exists, h.order_eq, List.mem_map]
  simp only [h.getElem?_eq]

/-- Dropping what fails a test, by a map that keeps exactly the rest. -/
theorem prune {p : β → Bool} (h : Listed key m order vals)
    (hm' : ∀ (k : α) v, m'[k]? = some v ↔ m[k]? = some v ∧ p v = true) :
    Listed key m' (order.filter fun k => m'.contains k) (vals.filter p) := by
  have hkeep (v : β) (hv : v ∈ vals) : m'.contains (key v) = p v := by
    rw [Bool.eq_iff_iff, ExtTreeMap.contains_iff_mem, ExtTreeMap.mem_iff_isSome_getElem?,
      Option.isSome_iff_exists]
    constructor
    · rintro ⟨w, hw⟩
      obtain ⟨hw, hp⟩ := (hm' _ _).mp hw
      rwa [Option.some.inj ((h.getElem?_key hv).symm.trans hw)]
    · exact fun hp => ⟨v, (hm' _ _).mpr ⟨h.getElem?_key hv, hp⟩⟩
  refine ⟨?_, h.nodup.filter _, fun k w => ?_⟩
  · rw [h.order_eq, List.filter_map]
    exact congrArg _ (List.filter_congr fun v hv => hkeep v hv)
  · rw [hm', h.getElem?_eq, List.mem_filter]
    tauto

variable [LawfulEqCmp cmp]

/-- **The map has an entry for each value of the list.** -/
theorem size (h : Listed key m order vals) : m.size = vals.length := by
  have hperm : m.keys.Perm order :=
    (List.perm_ext_iff_of_nodup ExtTreeMap.nodup_keys h.nodup).mpr fun k => by
      rw [ExtTreeMap.mem_keys, h.mem_iff]
  rw [← ExtTreeMap.length_keys, hperm.length_eq, h.order_eq, List.length_map]

/-- The values of the map are those of the list. -/
theorem perm_values (h : Listed key m order vals) : (m.toList.map Prod.snd).Perm vals := by
  have hvals : vals.Nodup := List.Nodup.of_map key (h.order_eq ▸ h.nodup)
  refine (List.perm_ext_iff_of_nodup ?_ hvals).mpr fun v => ?_
  · -- Two entries with one value have the key of that value.
    refine List.Nodup.map_on (fun e he f hf hef => ?_) (.of_map Prod.fst (nodup_fst_toList m))
    have hekey := ((h.getElem?_eq _ _).mp (mem_toList_iff.mp he)).2
    have hfkey := ((h.getElem?_eq _ _).mp (mem_toList_iff.mp hf)).2
    exact Prod.ext (hekey.symm.trans ((congrArg key hef).trans hfkey)) hef
  · rw [List.mem_map]
    constructor
    · rintro ⟨e, he, rfl⟩
      exact ((h.getElem?_eq _ _).mp (mem_toList_iff.mp he)).1
    · intro hv
      exact ⟨(key v, v), mem_toList_iff.mpr (h.getElem?_key hv), rfl⟩

variable [DecidableEq α]

theorem push (h : Listed key m order vals) (hfresh : key v ∉ m) :
    Listed key (m.insert (key v) v) (order ++ [key v]) (vals ++ [v]) where
  order_eq := by rw [h.order_eq, List.map_append, List.map_singleton]
  nodup := List.nodup_append.mpr ⟨h.nodup, List.nodup_singleton _, fun k hk l hl hkl =>
    hfresh ((h.mem_iff _).mpr (List.mem_singleton.mp hl ▸ hkl ▸ hk))⟩
  getElem?_eq k w := by
    rw [getElem?_insert, List.mem_append, List.mem_singleton]
    split_ifs with hk
    · subst hk
      constructor
      · rintro ⟨⟩
        exact ⟨.inr rfl, rfl⟩
      · rintro ⟨hw | rfl, hkey⟩
        · exact absurd ((h.mem_iff _).mpr (h.order_eq ▸ hkey ▸ List.mem_map_of_mem hw)) hfresh
        · rfl
    · rw [h.getElem?_eq]
      refine and_congr_left fun hkey => ⟨.inl, fun hw => hw.resolve_right ?_⟩
      rintro rfl
      exact hk hkey

theorem eraseIdx (h : Listed key m order vals) {i : ℕ} (hi : vals[i]? = some v) :
    Listed key (m.erase (key v)) (order.filter (· ≠ key v)) (vals.eraseIdx i) := by
  have herase := eraseIdx_eq_filter (h.order_eq ▸ h.nodup) hi
  refine ⟨?_, h.nodup.filter _, fun k w => ?_⟩
  · rw [herase, h.order_eq, List.filter_map]
    rfl
  · rw [getElem?_erase, herase, List.mem_filter, decide_eq_true_eq]
    split_ifs with hk
    · subst hk
      simp
    · rw [h.getElem?_eq]
      constructor
      · rintro ⟨hw, rfl⟩
        exact ⟨⟨hw, fun hkey => hk hkey.symm⟩, rfl⟩
      · rintro ⟨⟨hw, -⟩, hkey⟩
        exact ⟨hw, hkey⟩

end Listed

end Library
