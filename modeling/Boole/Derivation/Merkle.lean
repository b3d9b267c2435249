import Boole.Derivation.Config
import Mathlib.Data.Nat.Bitwise
import Mathlib.Data.Nat.Log

/-!
# Derivation/Merkle — the tree over a list of leaves, and paths in it

The row of leaves is filled up to a power of two and folded pair by pair.  **The path of a leaf leads
to the root, and a path to the root starts at the leaf** (`merkle_membership`): one step of a path is
one step of the fold.

    row[i], row[i ^ 1] ──node──▸ (pairUp row)[i / 2]
-/

open Library

namespace Derivation

variable (cr : Crypto)

/-- `chunks_exact(2)`, each pair hashed. -/
def pairUp (row : List Hash) : List Hash :=
  (List.range (row.length / 2)).map fun k => node cr (row.getD (2 * k) 0) (row.getD (2 * k + 1) 0)

/-- The leaves, filled up with zeros to a power of two. -/
def padded (leaves : List Hash) : List Hash :=
  leaves ++ List.replicate (2 ^ Nat.clog 2 leaves.length - leaves.length) 0

/-- Fold the row until one hash is left.  The row gets shorter, so that its length bounds the turns. -/
def foldRow : ℕ → List Hash → List Hash
  | 0, row => row
  | fuel + 1, row => if 1 < row.length then foldRow fuel (pairUp cr row) else row

def merkleRoot (leaves : List Hash) : Hash :=
  if leaves = [] then 0 else (foldRow cr (padded leaves).length (padded leaves)).headD 0

/-- The siblings on the way up. -/
def siblings : ℕ → List Hash → ℕ → List Hash
  | 0, _, _ => []
  | fuel + 1, row, index =>
    if 1 < row.length then
      row.getD (index ^^^ 1) 0 :: siblings fuel (pairUp cr row) (index / 2)
    else []

def merklePath (leaves : List Hash) (index : ℕ) : List Hash :=
  if leaves.length ≤ index then []
  else siblings cr (padded leaves).length (padded leaves) index

/-! ## What is hashed -/

def nodeInput (a b : Hash) : Bytes := 1 :: (wordBytes a ++ wordBytes b)

/-- The inputs of one fold. -/
def rowInputs (row : List Hash) : List Bytes :=
  (List.range (row.length / 2)).map fun k => nodeInput (row.getD (2 * k) 0) (row.getD (2 * k + 1) 0)

/-- The inputs of the folds of a row. -/
def foldInputs : ℕ → List Hash → List Bytes
  | 0, _ => []
  | fuel + 1, row =>
    if 1 < row.length then rowInputs row ++ foldInputs fuel (pairUp cr row) else []

def merkleInputs (leaves : List Hash) : List Bytes :=
  foldInputs cr (padded leaves).length (padded leaves)

/-- An entry and its sibling, in the order of the row. -/
def paired {β : Type} (f : Hash → Hash → β) (i : ℕ) (a b : Hash) : β :=
  if i % 2 = 0 then f a b else f b a

/-- The inputs on the way up a path. -/
def climbInputs (leaf : Hash) (index : ℕ) : List Hash → List Bytes
  | [] => []
  | p :: path => paired nodeInput index leaf p ::
    climbInputs (paired (node cr) index leaf p) (index / 2) path

variable {cr} {row path : List Hash} {d fuel i : ℕ} {leaf : Hash}

theorem paired_node (i : ℕ) (a b : Hash) :
    paired (node cr) i a b = cr.sha256 (paired nodeInput i a b) := by
  unfold paired
  split <;> simp [node, sha, nodeInput]

theorem paired_inj {a b a' b' : Hash} (h : paired nodeInput i a b = paired nodeInput i a' b') :
    a = a' := by
  have hinj {a b a' b' : Hash} (h : nodeInput a b = nodeInput a' b') : a = a' ∧ b = b' := by
    obtain ⟨ha, hb⟩ := List.append_inj (List.cons.inj h).2 (by simp)
    exact ⟨wordBytes_inj ha, wordBytes_inj hb⟩
  unfold paired at h
  split at h
  · exact (hinj h).1
  · exact (hinj h).2

/-! ## One fold -/

theorem length_pairUp (hlen : row.length = 2 ^ (d + 1)) : (pairUp cr row).length = 2 ^ d := by
  rw [pairUp, List.length_map, List.length_range, hlen, Nat.pow_succ,
    Nat.mul_div_cancel _ (by decide)]

/-- **One step up:** an entry and its sibling are hashed to the entry above them. -/
theorem getD_pairUp (cr : Crypto) (hlen : row.length = 2 ^ (d + 1)) (hi : i < 2 ^ (d + 1)) :
    (pairUp cr row).getD (i / 2) 0 = paired (node cr) i (row.getD i 0) (row.getD (i ^^^ 1) 0) ∧
      paired nodeInput i (row.getD i 0) (row.getD (i ^^^ 1) 0) ∈ rowInputs row := by
  have hk : i / 2 < row.length / 2 := by omega
  have hup : (pairUp cr row).getD (i / 2) 0 =
      node cr (row.getD (2 * (i / 2)) 0) (row.getD (2 * (i / 2) + 1) 0) := by
    simp [pairUp, List.getD_eq_getElem?_getD, hk]
  have hmem : nodeInput (row.getD (2 * (i / 2)) 0) (row.getD (2 * (i / 2) + 1) 0) ∈ rowInputs row :=
    List.mem_map.mpr ⟨i / 2, List.mem_range.mpr hk, rfl⟩
  unfold paired
  rcases Nat.even_or_odd i with heven | hodd
  · rw [Nat.two_mul_div_two_of_even heven] at hup hmem
    simp only [if_pos (Nat.even_iff.mp heven), Nat.xor_one_of_even heven]
    exact ⟨hup, hmem⟩
  · have hone := Nat.odd_iff.mp hodd
    have hi' : 2 * (i / 2) = i - 1 := by omega
    rw [Nat.two_mul_div_two_add_one_of_odd hodd, hi'] at hup hmem
    simp only [hone, Nat.xor_one_of_odd hodd]
    exact ⟨hup, hmem⟩

/-! ## The way up -/

/-- **The siblings of an entry lead to what the row is folded to.** -/
theorem climb_siblings (cr : Crypto) (hlen : row.length = 2 ^ d) (hfuel : d ≤ fuel)
    (hi : i < 2 ^ d) :
    (siblings cr fuel row i).length = d ∧
      climb cr (row.getD i 0) i (siblings cr fuel row i) = (foldRow cr fuel row).headD 0 := by
  induction d generalizing fuel row i with
  | zero =>
    obtain ⟨a, rfl⟩ := List.length_eq_one_iff.mp hlen
    obtain rfl : i = 0 := by omega
    cases fuel <;> exact ⟨rfl, rfl⟩
  | succ d ih =>
    cases fuel with
    | zero => cases hfuel
    | succ fuel =>
      have hlong : 1 < row.length := hlen ▸ Nat.one_lt_two_pow (Nat.succ_ne_zero d)
      obtain ⟨hlength, hclimb⟩ :=
        ih (length_pairUp hlen) (Nat.le_of_succ_le_succ hfuel) (by omega : i / 2 < 2 ^ d)
      rw [siblings, foldRow, if_pos hlong, if_pos hlong, List.length_cons, hlength, ← hclimb,
        (getD_pairUp cr hlen hi).1]
      exact ⟨rfl, rfl⟩

/-- **A path to what the row is folded to starts at the entry.** -/
theorem eq_of_climb (hlen : row.length = 2 ^ d) (hfuel : d ≤ fuel) (hi : i < 2 ^ d)
    (hpath : path.length = d) (hclimb : climb cr leaf i path = (foldRow cr fuel row).headD 0)
    (hinj : Injects cr (foldInputs cr fuel row ++ climbInputs cr leaf i path)) :
    leaf = row.getD i 0 := by
  induction d generalizing fuel row i leaf path with
  | zero =>
    obtain ⟨a, rfl⟩ := List.length_eq_one_iff.mp hlen
    obtain rfl : i = 0 := by omega
    obtain rfl := List.eq_nil_of_length_eq_zero hpath
    cases fuel <;> exact hclimb
  | succ d ih =>
    cases fuel with
    | zero => cases hfuel
    | succ fuel =>
      cases path with
      | nil => cases hpath
      | cons p path =>
        have hlong : 1 < row.length := hlen ▸ Nat.one_lt_two_pow (Nat.succ_ne_zero d)
        rw [foldRow, if_pos hlong] at hclimb
        rw [foldInputs, if_pos hlong, climbInputs] at hinj
        have habove : paired (node cr) i leaf p = (pairUp cr row).getD (i / 2) 0 := by
          refine ih (length_pairUp hlen) (Nat.le_of_succ_le_succ hfuel) (by omega)
            (Nat.succ.inj hpath) hclimb fun x hx y hy => hinj x ?_ y ?_
          · rcases List.mem_append.mp hx with hx | hx <;> simp [hx]
          · rcases List.mem_append.mp hy with hy | hy <;> simp [hy]
        obtain ⟨hup, hmem⟩ := getD_pairUp cr hlen hi
        rw [hup, paired_node, paired_node] at habove
        exact paired_inj (hinj _ (by simp) _
          (List.mem_append_left _ (List.mem_append_left _ hmem)) habove)

/-! ## Membership -/

theorem depth_eq_clog (n : ℕ) : depth n = Nat.clog 2 n := by
  unfold depth
  split
  · rw [Nat.clog_of_right_le_one ‹_›]
  · refine eq_of_forall_ge_iff fun k => ?_
    rw [Nat.clog_le_iff_le_pow (by decide), Nat.succ_le_iff, Nat.log2_lt (by omega)]
    omega

theorem length_padded (leaves : List Hash) : (padded leaves).length = 2 ^ depth leaves.length := by
  have := Nat.le_pow_clog (b := 2) (by decide) leaves.length
  rw [padded, List.length_append, List.length_replicate, depth_eq_clog]
  omega

/-- **The path of a leaf leads to the root, and with a hash that tells its inputs apart a path to the
root starts at the leaf.** -/
theorem merkle_membership (cr : Crypto) (leaves : List Hash) (i : ℕ) (hi : i < leaves.length) :
    (merklePath cr leaves i).length = depth leaves.length ∧
    verify cr (leaves.getD i 0) i (merklePath cr leaves i) (merkleRoot cr leaves) = true ∧
    ∀ leaf path, path.length = depth leaves.length →
      Injects cr (merkleInputs cr leaves ++ climbInputs cr leaf i path) →
      verify cr leaf i path (merkleRoot cr leaves) = true → leaf = leaves.getD i 0 := by
  have hlen := length_padded leaves
  have hi' : i < 2 ^ depth leaves.length := by
    rw [← hlen, padded, List.length_append]
    omega
  have hfuel : depth leaves.length ≤ (padded leaves).length := hlen ▸ Nat.lt_two_pow_self.le
  have hleaf : (padded leaves).getD i 0 = leaves.getD i 0 := List.getD_append _ _ _ _ hi
  have hne : leaves ≠ [] := List.ne_nil_of_length_pos (Nat.zero_lt_of_lt hi)
  obtain ⟨hlength, hclimb⟩ := climb_siblings cr hlen hfuel hi'
  rw [hleaf] at hclimb
  simp only [verify, decide_eq_true_eq, merkleRoot, if_neg hne, merklePath, if_neg (Nat.not_le.mpr hi)]
  refine ⟨hlength, hclimb, fun leaf path hpath hinj hverify => ?_⟩
  rw [← hleaf]
  exact eq_of_climb hlen hfuel hi' hpath hverify hinj

/-- The first of two leaves, with the other one as its path. -/
theorem merkle_membership_pair : (5 : Hash) = ([5, 7] : List Hash).getD 0 0 :=
  (merkle_membership ⟨fun _ => 0, fun _ => 0, fun _ => none, fun _ _ _ => none⟩ [5, 7] 0
    (by decide)).2.2 5 [7] (by decide) (by decide +kernel) (by decide +kernel)

end Derivation
