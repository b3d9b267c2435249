import Boole.Library.JsonOrder
import Boole.Native.Envelope

/-!
# Native/SigningDigest — what a signed digest stands for

The bytes that are hashed for signing carry no lengths: a tag, the name of the network, a line feed
and the canonical JSON of the payload, or that JSON alone.  The name may hold anything, line feeds
and JSON included.  **They determine the network and the payload all the same**
(`digestInput_inj`): JSON text has no line feed, so the last one is the separator, and a text without
one has no network.

    none          {"a":1}
    some "x\ny"   boole.signed.v1.network::x⏎y⏎{"a":1}
-/

open Library Library.Json

namespace Native

/-- Two texts agree before and after their last `a`. -/
theorem append_cons_inj_of_notMem_right {α : Type} {a : α} {x y r r' : List α} (hr : a ∉ r)
    (hr' : a ∉ r') (h : x ++ a :: r = y ++ a :: r') : x = y ∧ r = r' := by
  have hlonger {t s s' : List α} (hs : a ∉ s) (ht : a :: s = t ++ a :: s') : t = [] := by
    cases t with
    | nil => rfl
    | cons b t =>
      obtain ⟨-, rfl⟩ := List.cons.inj ht
      exact absurd (List.mem_append_right t List.mem_cons_self) hs
  rcases List.append_eq_append_iff.mp h with ⟨t, rfl, ht⟩ | ⟨t, rfl, ht⟩
  · obtain rfl := hlonger hr ht
    exact ⟨(List.append_nil x).symm, (List.cons.inj ht).2⟩
  · obtain rfl := hlonger hr' ht
    exact ⟨List.append_nil y, (List.cons.inj ht).2.symm⟩

/-- The text that is hashed for signing. -/
def digestText (tag : String) (payload : Value) : Option String → List Char
  | none => payload.sortKeys.print
  | some network => tag.toList ++ (network.toList ++ '\n' :: payload.sortKeys.print)

theorem digestInput_eq (payload : Value) (network : Option String) :
    digestInput payload network =
      utf8 (digestText "boole.signed.v1.network::" payload network) := by
  cases network with
  | none => rfl
  | some n =>
    rw [digestInput]
    rw [digestText, utf8_append, utf8_append]
    rfl

theorem newline_notMem_print (v : Value) : '\n' ∉ v.print :=
  fun h => absurd (v.print_no_control '\n' h) (by decide)

/-- **The hashed bytes determine the network and the payload up to the order of its keys.** -/
theorem digestInput_inj {p₁ p₂ : Value} {n₁ n₂ : Option String}
    (h : digestInput p₁ n₁ = digestInput p₂ n₂) : n₁ = n₂ ∧ p₁.sortKeys = p₂.sortKeys := by
  rw [digestInput_eq, digestInput_eq] at h
  generalize "boole.signed.v1.network::" = tag at h
  have h := utf8_injective h
  have hmixed (p p' : Value) (n : String) : digestText tag p none ≠ digestText tag p' (some n) := by
    intro heq
    have hmem : '\n' ∈ digestText tag p' (some n) := by simp [digestText]
    exact newline_notMem_print _ (heq ▸ hmem)
  cases n₁ with
  | none =>
    cases n₂ with
    | none => exact ⟨rfl, Value.print_injective h⟩
    | some n => exact absurd h (hmixed _ _ _)
  | some m =>
    cases n₂ with
    | none => exact absurd h.symm (hmixed _ _ _)
    | some n =>
      obtain ⟨hname, hprint⟩ := append_cons_inj_of_notMem_right (newline_notMem_print _)
        (newline_notMem_print _) (List.append_cancel_left h)
      exact ⟨congrArg some (String.toList_inj.mp hname), Value.print_injective hprint⟩

/-- The parser reads a value back, up to the order of its keys. -/
def ReadsBack (parse : List UInt8 → Option Value) (v : Value) : Prop :=
  ∃ w, parse v.toVec = some w ∧ w.Keyed ∧ w.Same v

/-- **Digests do not collide across payloads or networks.**  `sha256` has no collision between the two
inputs; objects have no key twice.  Canonical bytes do not depend on the order of keys, and are the same
again for what a parser reads from them. -/
theorem digests_separate (cr : Crypto) :
    (∀ (p₁ p₂ : Value) (n₁ n₂ : Option String), p₁.Keyed → p₂.Keyed →
      Set.InjOn cr.sha256 {digestInput p₁ n₁, digestInput p₂ n₂} →
      (digestFor cr p₁ n₁ = digestFor cr p₂ n₂ ↔ n₁ = n₂ ∧ p₁.Same p₂)) ∧
    (∀ v w : Value, v.Keyed → w.Keyed → v.Same w → canonicalize v = canonicalize w) ∧
    ∀ (parse : List UInt8 → Option Value) (v : Value), v.Keyed → ReadsBack parse v.sortKeys →
      (parse (canonicalize v)).map canonicalize = some (canonicalize v) := by
  refine ⟨fun p₁ p₂ n₁ n₂ h₁ h₂ hinj => ⟨fun h => ?_, ?_⟩, fun v w hv hw h => ?_,
    fun parse v hv hparse => ?_⟩
  · have hinput := hinj (Set.mem_insert _ _) (Set.mem_insert_of_mem _ rfl) h
    obtain ⟨hn, hp⟩ := digestInput_inj hinput
    exact ⟨hn, (Value.sortKeys_eq_iff h₁ h₂).mp hp⟩
  · rintro ⟨rfl, h⟩
    have hcanonical := canonicalize_eq_iff.mpr ((Value.sortKeys_eq_iff h₁ h₂).mpr h)
    cases n₁ <;> simp only [digestFor, digestInput, hcanonical]
  · exact canonicalize_eq_iff.mpr (h.sortKeys_eq hv hw)
  · obtain ⟨w, hw, hkeyed, hsame⟩ := hparse
    rw [canonicalize, hw]
    refine congrArg some (canonicalize_eq_iff.mpr ?_)
    rw [hsame.sortKeys_eq hkeyed hv.sortKeys, hv.same_sortKeys.sortKeys_eq hv.sortKeys hv]

/-- Two payloads that differ in the order of their keys, on a network whose name holds a line feed and
an object. -/
theorem digests_separate_reordered :
    Value.Same (.object [("a", .null), ("b", .bool true)]) (.object [("b", .bool true), ("a", .null)]) ∧
    digestFor Crypto.permissive (.object [("a", .null), ("b", .bool true)]) (some "x\n\x7b\x7d") =
      digestFor Crypto.permissive (.object [("b", .bool true), ("a", .null)]) (some "x\n\x7b\x7d") := by
  have hkeyed (v w : Value) (hv : v.Keyed) (hw : w.Keyed) (k l : String) (hkl : k ≠ l) :
      Value.Keyed (.object [(k, v), (l, w)]) :=
    .object (by simpa using hkl) (by simp [hv, hw])
  have h₁ := hkeyed _ _ .null (.bool true) "a" "b" (by decide)
  have h₂ := hkeyed _ _ (.bool true) .null "b" "a" (by decide)
  have hsort : (Value.object [("a", .null), ("b", .bool true)]).sortKeys =
      (Value.object [("b", .bool true), ("a", .null)]).sortKeys := by decide
  have hsame := (Value.sortKeys_eq_iff h₁ h₂).mp hsort
  refine ⟨hsame, ((digests_separate Crypto.permissive).1 _ _ _ _ h₁ h₂ ?_).mpr ⟨rfl, hsame⟩⟩
  rw [digestInput, digestInput, canonicalize_eq_iff.mpr hsort, Set.pair_eq_singleton]
  exact Set.injOn_singleton _ _

end Native
