import Boole.Library.Firsts
import Boole.Derivation.ItemEffects

/-!
# Derivation/Parts — what a PART proves about the transport

A PART belongs to an OPEN when its path leads from its data to the frozen root (`partOf`).  The parts
that came are counted in a bitmap, and **a path binds the data at its index**: with no collision among
the nodes two paths of one length from one index to one root start at the same leaf (`climb_inj`).
-/

open Std Library

namespace Derivation

variable {cr : Crypto} {i : ℕ} {bitmap : List (BitVec 64)}

/-! ## Valid parts -/

/-- The index and the data of a PART that belongs to the OPEN `o` with hash `ch`. -/
def partOf (cr : Crypto) (o : OpenRecord) (ch : Hash) (x : Input) : Option (ℕ × Bytes) := do
  guard (x.kind = 4)
  let b ← decodeBody 1 partBody x.body
  guard (b.ch = ch ∧ b.index < o.n)
  let proof ← (hashes (depth o.n)).run b.tail
  guard (expectedLen o b.index = some proof.2.length
    ∧ verify cr (partLeaf cr o.solver o.salt b.index proof.2) b.index proof.1 o.dataRoot)
  pure (b.index, proof.2)

/-- What a valid part consists of. -/
structure Carries (cr : Crypto) (o : OpenRecord) (x : Input) (b : PartBody) (path : List Hash)
    (data : Bytes) : Prop where
  kind : x.kind = 4
  body : decodeBody 1 partBody x.body = some b
  index : b.index < o.n
  tail : (hashes (depth o.n)).run b.tail = some (path, data)
  length : expectedLen o b.index = some data.length
  verified : verify cr (partLeaf cr o.solver o.salt b.index data) b.index path o.dataRoot = true

theorem partOf_eq_some {o : OpenRecord} {ch : Hash} {x : Input} {data : Bytes} :
    partOf cr o ch x = some (i, data) ↔
      ∃ b path, Carries cr o x b path data ∧ b.ch = ch ∧ b.index = i := by
  simp only [partOf, Option.bind_eq_bind, Option.bind_eq_some_iff, Option.guard_eq_some', Option.pure_def,
    Option.some.injEq, Prod.mk.injEq, Prod.exists]
  constructor
  · rintro ⟨_, hkind, b, hbody, _, ⟨rfl, hlt⟩, path, _, htail, _, ⟨hlen, hverify⟩, rfl, rfl⟩
    exact ⟨b, path, ⟨hkind, hbody, hlt, htail, hlen, hverify⟩, rfl, rfl⟩
  · rintro ⟨b, path, ⟨hkind, hbody, hlt, htail, hlen, hverify⟩, rfl, rfl⟩
    exact ⟨(), hkind, b, hbody, (), ⟨rfl, hlt⟩, path, data, htail, (), ⟨hlen, hverify⟩, rfl, rfl⟩

theorem Draft.PartAccepted.carries {s : State} {x : Input} {b : PartBody} {key : Key}
    {l : LiveCandidate} {o : OpenRecord} {path : List Hash} {data : Bytes}
    (hp : Draft.PartAccepted cr s x b key l o path data bitmap) : Carries cr o x b path data :=
  ⟨hp.kind, hp.body, hp.index, hp.tail, hp.length, hp.verified⟩

/-! ## The bitmap -/

/-- Whether the part at an index has come. -/
def hasBit (bitmap : List (BitVec 64)) (i : ℕ) : Bool := bitmap[i / 64]?.any (·.getLsbD (i % 64))

theorem hasBit_cons (w : BitVec 64) (ws : List (BitVec 64)) (i : ℕ) :
    hasBit (w :: ws) (64 + i) = hasBit ws i := by
  rw [hasBit, Nat.add_div_left i (by decide), Nat.add_mod_left]
  rfl

theorem hasBit_lt (h : hasBit bitmap i = true) :
    i < 64 * bitmap.length := by
  rw [hasBit, Option.any_eq_true] at h
  obtain ⟨w, hw, -⟩ := h
  have := (List.getElem?_eq_some_iff.mp hw).1
  omega

theorem hasBit_set {w : BitVec 64} (hw : bitmap[i / 64]? = some w) (j : ℕ) :
    hasBit (bitmap.set (i / 64) (w ||| BitVec.twoPow 64 (i % 64))) j = true ↔
      hasBit bitmap j = true ∨ j = i := by
  have hlt := (List.getElem?_eq_some_iff.mp hw).1
  by_cases hword : i / 64 = j / 64
  · rw [hasBit, hasBit, ← hword, List.getElem?_set_self hlt, hw, Option.any_some, BitVec.getLsbD_or,
      BitVec.getLsbD_twoPow, Bool.or_eq_true, Bool.and_eq_true, decide_eq_true_eq,
      decide_eq_true_eq]
    refine or_congr Iff.rfl ?_
    omega
  · rw [hasBit, List.getElem?_set_ne hword]
    constructor
    · exact .inl
    · rintro (h | rfl)
      · exact h
      · exact absurd rfl hword

/-- The number of parts that have come. -/
theorem countOnes_eq (bitmap : List (BitVec 64)) :
    countOnes bitmap = (List.range (64 * bitmap.length)).countP (hasBit bitmap) := by
  induction bitmap with
  | nil => rfl
  | cons w ws ih =>
    have hfirst : (List.range 64).countP (hasBit (w :: ws)) = (List.range 64).countP w.getLsbD := by
      refine List.countP_congr fun i hi => ?_
      rw [List.mem_range] at hi
      rw [hasBit, Nat.div_eq_of_lt hi, Nat.mod_eq_of_lt hi]
      rfl
    have hrest : countOnes (w :: ws) = (List.range 64).countP w.getLsbD + countOnes ws := rfl
    rw [hrest, ih, List.length_cons, Nat.mul_add, Nat.mul_one, Nat.add_comm (64 * ws.length),
      List.range_add, List.countP_append, List.countP_map, hfirst]
    simp only [Function.comp_def, hasBit_cons]

/-- A bitmap of distinct indices counts them. -/
theorem countOnes_of_nodup {is : List ℕ} (hnodup : is.Nodup)
    (hbits : ∀ j, hasBit bitmap j = true ↔ j ∈ is) : countOnes bitmap = is.length := by
  rw [countOnes_eq, List.countP_eq_length_filter]
  refine List.Perm.length_eq ((List.perm_ext_iff_of_nodup (List.nodup_range.filter _) hnodup).mpr fun j => ?_)
  rw [List.mem_filter, List.mem_range, ← hbits]
  exact ⟨fun h => h.2, fun h => ⟨hasBit_lt h, h⟩⟩

/-! ## Paths -/

/-- What is hashed on the way along a path. -/
def climbed (cr : Crypto) (leaf : Hash) (index : ℕ) : List Hash → List Bytes
  | [] => []
  | p :: path =>
    let pair := if index % 2 = 0 then (leaf, p) else (p, leaf)
    [[1], wordBytes pair.1, wordBytes pair.2].flatten :: climbed cr (node cr pair.1 pair.2) (index / 2) path

/-- **A path binds the leaf it starts from.** -/
theorem climb_inj {S : Set Bytes} (hS : Set.InjOn cr.sha256 S) {path path' : List Hash}
    (hlen : path.length = path'.length) {a a' : Hash} (hpath : ∀ x ∈ climbed cr a i path, x ∈ S)
    (hpath' : ∀ x ∈ climbed cr a' i path', x ∈ S) (h : climb cr a i path = climb cr a' i path') :
    a = a' := by
  induction path generalizing path' a a' i with
  | nil =>
    obtain rfl := List.length_eq_zero_iff.mp hlen.symm
    exact h
  | cons p path ih =>
    obtain _ | ⟨p', path'⟩ := path'
    · simp at hlen
    · simp only [climbed, List.mem_cons, forall_eq_or_imp] at hpath hpath'
      simp only [climb] at h
      have hnode {x y x' y' : Hash} (hx : [[1], wordBytes x, wordBytes y].flatten ∈ S)
          (hx' : [[1], wordBytes x', wordBytes y'].flatten ∈ S) (heq : node cr x y = node cr x' y') :
          x = x' ∧ y = y' := by
        have hflat := hS hx hx' heq
        simp only [List.flatten_cons, List.singleton_append, List.cons.injEq, true_and] at hflat
        obtain ⟨hl, hr⟩ := List.append_inj hflat (by simp)
        exact ⟨wordBytes_inj hl, wordBytes_inj hr⟩
      split_ifs at h with heven
      · simp only [heven] at hpath hpath'
        exact (hnode hpath.1 hpath'.1 (ih (Nat.succ.inj hlen) hpath.2 hpath'.2 h)).1
      · simp only [heven] at hpath hpath'
        exact (hnode hpath.1 hpath'.1 (ih (Nat.succ.inj hlen) hpath.2 hpath'.2 h)).2

end Derivation
