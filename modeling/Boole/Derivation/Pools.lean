import Boole.Library.Dense
import Boole.Derivation.Board

/-!
# Derivation/Pools — the stock of leaves

Pools are numbered from 1 without gaps and have distinct roots.  **The unused leaves of a pool and
those a run announces as drawn from it are its leaves, each once** (`Ran.leaves_once`); the drawn ones
are the leaves of its rounds, where a re-pose shares the leaf of the round before it.
-/

open Std Library

namespace Derivation

open State

variable {slots : List Slot} {r : Round} {key : ℕ × ℕ} {n : ℕ} {s : State}

/-! ## Numbers of rounds -/

/-- **The rounds of a slot are numbered from 1 to the slot's own counter.** -/
def Numbering (B : Board) : Prop :=
  ∀ slot n, (slot, n) ∈ B.rounds ↔
    ∃ top, B.slots[slot]?.map (·.round) = some top ∧ 1 ≤ n ∧ n ≤ top

section Numbering

variable {B B' : Board} {slot n : ℕ}

theorem Numbering.of_same (hn : Numbering B) (hrounds : ∀ key, key ∈ B'.rounds ↔ key ∈ B.rounds)
    (hslots : ∀ k : ℕ, B'.slots[k]?.map (·.round) = B.slots[k]?.map (·.round)) : Numbering B' := by
  intro k n
  rw [hrounds, hslots]
  exact hn k n

/-- The next round of a slot is new. -/
theorem Numbering.fresh (hn : Numbering B) {waiting : Slot} (hslot : B.slots[slot]? = some waiting) :
    (slot, waiting.round + 1) ∉ B.rounds := by
  rw [hn, hslot]
  rintro ⟨top, htop, -, hle⟩
  obtain rfl : waiting.round = top := Option.some.inj htop
  omega

theorem mem_insert_of_getElem? {α β : Type} {cmp : α → α → Ordering} [TransCmp cmp]
    [LawfulEqCmp cmp] {m : ExtTreeMap α β cmp} {k : α} {v w : β} (hk : m[k]? = some v) (a : α) :
    a ∈ m.insert k w ↔ a ∈ m := by
  rw [ExtTreeMap.mem_insert, LawfulEqCmp.compare_eq_iff_eq]
  refine ⟨fun h => h.elim (fun heq => heq ▸ ?_) id, .inr⟩
  rw [ExtTreeMap.mem_iff_isSome_getElem?, hk]
  rfl

/-- A slot is changed, but not its counter. -/
theorem map_round_set {old new : Slot} (hslot : slots[slot]? = some old)
    (hround : new.round = old.round) (k : ℕ) :
    (slots.set slot new)[k]?.map (·.round) = slots[k]?.map (·.round) := by
  rw [List.getElem?_set]
  split
  · rename_i heq
    subst heq
    rw [hslot, if_pos (List.getElem?_eq_some_iff.mp hslot).1]
    exact congrArg some hround
  · rfl

/-- A slot starts its next round. -/
theorem Numbering.started (hn : Numbering B) {waiting new : Slot}
    (hslot : B.slots[slot]? = some waiting) (hround : new.round = waiting.round + 1)
    (hrounds : B'.rounds = B.rounds.insert (slot, waiting.round + 1) r)
    (hslots : B'.slots = B.slots.set slot new) : Numbering B' := by
  intro k n
  have hlt := (List.getElem?_eq_some_iff.mp hslot).1
  rw [hrounds, hslots, ExtTreeMap.mem_insert, LawfulEqCmp.compare_eq_iff_eq, hn, List.getElem?_set]
  by_cases hk : slot = k
  · subst hk
    rw [if_pos rfl, if_pos hlt, hslot]
    simp only [Prod.mk.injEq, true_and, Option.map_some, Option.some.injEq, exists_eq_left']
    omega
  · simp [hk]

theorem scheduleSlot_round (slot : Slot) (start : ℕ) :
    (scheduleSlot slot start).round = slot.round := by
  unfold scheduleSlot
  split <;> rfl

theorem BoardStep.numbering {cr : Crypto} {c : Config} {h : ℕ} {G : Board → Hash → Prop}
    {ds : List (ℕ × ℕ)} (hs : BoardStep cr c h G B ds B') (hn : Numbering B) : Numbering B' := by
  cases hs with
  | ended _ hslot _ hr => exact hn.of_same (mem_insert_of_getElem? hr) (map_round_set hslot rfl)
  | dropped | won | voided | shut | requeued => exact hn.of_same (fun _ => Iff.rfl) fun _ => rfl
  | reposed hslot | drawn hslot => exact hn.started hslot rfl rfl rfl
  | waits hslot => exact hn.of_same (fun _ => Iff.rfl) (map_round_set hslot rfl)
  | pooled _ _ _ _ hslot =>
    exact hn.of_same (fun _ => Iff.rfl) (map_round_set hslot (scheduleSlot_round _ _))
  | posed hr | settled _ _ hr =>
    exact hn.of_same (mem_insert_of_getElem? hr) fun _ => rfl
  | freed _ _ hr _ hslot => exact hn.of_same (mem_insert_of_getElem? hr) (map_round_set hslot rfl)

end Numbering

/-! ## Leaves -/

/-- The pool and the index of the leaf of a round. -/
def Round.leaf (r : Round) : ℕ × ℕ := (r.poolSeq, r.leafIndex)

/-- The pool and the index of the leaf of a problem. -/
def Problem.leaf (P : Problem) : ℕ × ℕ := (P.poolSeq, P.leafIndex)

/-- The unused leaves of a slot. -/
def Board.unused (B : Board) (slot : ℕ) : ℕ :=
  sumBy (fun _ P => if P.slot = slot then P.unused.length else 0) B.pools

/-- The indices of the leaves drawn from a pool. -/
def drawnFrom (seq : ℕ) (ds : List (ℕ × ℕ)) : List ℕ := (ds.filter (·.1 = seq)).map (·.2)

/-- **The stock of a board** after the draws `ds`. -/
structure Stocked (c : Config) (ds : List (ℕ × ℕ)) (B : Board) : Prop where
  numbers : Dense 1 B.pools
  roots : ∀ (i j : ℕ) (P Q : Pool), B.pools[i]? = some P → B.pools[j]? = some Q → P.root = Q.root →
    i = j
  leaves : ∀ (seq : ℕ) (P : Pool), B.pools[seq]? = some P →
    (P.unused ++ drawnFrom seq ds).Perm (List.range P.count)
  known : ∀ x ∈ ds, x.1 ∈ B.pools
  rounds : ∀ x, x ∈ ds ↔ ∃ (key : ℕ × ℕ) (r : Round), B.rounds[key]? = some r ∧ r.leaf = x
  problems : ∀ (id : Hash) (P : Problem), B.problems[id]? = some P → P.leaf ∈ ds
  queue : ∀ q ∈ B.repose, ∀ P ∈ q, P.leaf ∈ ds
  counts : ∀ (seq : ℕ) (P : Pool), B.pools[seq]? = some P → P.count ≤ c.slotLeavesMax
  bound : ∀ slot, B.unused slot ≤ c.slotLeavesMax

section Stock

variable {c : Config} {ds : List (ℕ × ℕ)} {B B' : Board}

/-- The pools stand still, and every round keeps its leaf. -/
theorem Stocked.of_same (hs : Stocked c ds B) (hpools : B'.pools = B.pools)
    (hrounds : ∀ key : ℕ × ℕ, B'.rounds[key]?.map Round.leaf = B.rounds[key]?.map Round.leaf)
    (hproblems : ∀ (id : Hash) (P : Problem), B'.problems[id]? = some P → P.leaf ∈ ds)
    (hqueue : ∀ q ∈ B'.repose, ∀ P ∈ q, P.leaf ∈ ds) : Stocked c ds B' where
  numbers := hpools ▸ hs.numbers
  roots := hpools ▸ hs.roots
  leaves := hpools ▸ hs.leaves
  known := hpools ▸ hs.known
  rounds x := by
    rw [hs.rounds x]
    refine exists_congr fun key => ?_
    have hkey := hrounds key
    constructor
    · rintro ⟨r, hr, rfl⟩
      rw [hr] at hkey
      exact Option.map_eq_some_iff.mp hkey
    · rintro ⟨r, hr, rfl⟩
      rw [hr] at hkey
      exact Option.map_eq_some_iff.mp hkey.symm
  problems := hproblems
  queue := hqueue
  counts := hpools ▸ hs.counts
  bound slot := by
    rw [Board.unused, hpools]
    exact hs.bound slot

theorem map_leaf_insert {rounds : ExtTreeMap (ℕ × ℕ) Round lexOrd.compare} {r' : Round}
    (hr : rounds[key]? = some r) (hleaf : r'.leaf = r.leaf) (k : ℕ × ℕ) :
    (rounds.insert key r')[k]?.map Round.leaf = rounds[k]?.map Round.leaf := by
  rw [getElem?_insert]
  split_ifs with heq
  · subst heq
    rw [hr]
    exact congrArg some hleaf
  · rfl

theorem Stocked.queue_set (hs : Stocked c ds B) {i : ℕ} {new : List Problem}
    (hnew : ∀ P ∈ new, P.leaf ∈ ds) : ∀ q ∈ B.repose.set i new, ∀ P ∈ q, P.leaf ∈ ds := by
  intro q hq P hP
  rcases List.mem_or_eq_of_mem_set hq with hq | rfl
  · exact hs.queue q hq P hP
  · exact hnew P hP

theorem Stocked.queue_at (hs : Stocked c ds B) {i : ℕ} {q : List Problem}
    (hq : B.repose[i]? = some q) : ∀ P ∈ q, P.leaf ∈ ds :=
  hs.queue q (List.mem_of_getElem? hq)

/-- A round with a leaf that has been drawn before is added. -/
theorem Stocked.rounds_again (hs : Stocked c ds B) (hkey : key ∉ B.rounds) (hr : r.leaf ∈ ds)
    (x : ℕ × ℕ) : x ∈ ds ↔ ∃ (k : ℕ × ℕ) (r' : Round),
      (B.rounds.insert key r)[k]? = some r' ∧ r'.leaf = x := by
  rw [hs.rounds x]
  constructor
  · rintro ⟨k, r', hr', rfl⟩
    refine ⟨k, r', ?_, rfl⟩
    rw [getElem?_insert, if_neg, hr']
    rintro rfl
    exact hkey (mem_iff_exists.mpr ⟨_, hr'⟩)
  · rintro ⟨k, r', hr', rfl⟩
    rw [getElem?_insert] at hr'
    split at hr'
    · rw [← Option.some.inj hr']
      exact (hs.rounds _).mp hr
    · exact ⟨k, r', hr', rfl⟩

theorem foldlM_checkedAdd {α : Type} (f : α → ℕ) {l : List α} {a : ℕ}
    (h : l.foldlM (fun n e => checkedAdd 64 n (f e)) a = some n) : n = a + (l.map f).sum := by
  induction l generalizing a with
  | nil => simpa using h.symm
  | cons x l ih =>
    rw [List.foldlM_cons, Option.bind_eq_bind, Option.bind_eq_some_iff] at h
    obtain ⟨b, hb, h⟩ := h
    obtain ⟨-, rfl⟩ := checkedAdd_eq_some.mp hb
    rw [ih h, List.map_cons, List.sum_cons, Nat.add_assoc]

theorem sum_map_filter {α : Type} (p : α → Prop) [DecidablePred p] (f : α → ℕ) (l : List α) :
    ((l.filter p).map f).sum = (l.map fun x => if p x then f x else 0).sum := by
  induction l with
  | nil => rfl
  | cons x l ih =>
    by_cases hx : p x <;> simp [hx, ih]

/-- What a pool is checked against is the number of unused leaves. -/
theorem unusedLeaves_eq_some {slot : ℕ} (h : unusedLeaves s slot = some n) :
    n = s.board.unused slot := by
  rw [foldlM_checkedAdd _ h, Nat.zero_add, sum_map_filter (fun e : ℕ × Pool => e.2.slot = slot)]
  rfl

theorem unused_add_le {slot m : ℕ}
    (hleaves : ((unusedLeaves s slot).bind (checkedAdd 64 · n)).any (· ≤ m)) :
    s.board.unused slot + n ≤ m := by
  rw [Option.any_eq_true] at hleaves
  obtain ⟨total, htotal, hle⟩ := hleaves
  obtain ⟨k, hk, htotal⟩ := Option.bind_eq_some_iff.mp htotal
  obtain ⟨-, rfl⟩ := checkedAdd_eq_some.mp htotal
  rw [← unusedLeaves_eq_some hk]
  exact of_decide_eq_true hle

theorem drawnFrom_append (seq : ℕ) (ds ds' : List (ℕ × ℕ)) :
    drawnFrom seq (ds ++ ds') = drawnFrom seq ds ++ drawnFrom seq ds' := by
  rw [drawnFrom, List.filter_append, List.map_append]
  rfl

/-- A pool is added. -/
theorem Stocked.pooled (hs : Stocked c ds B) {P : Pool} (hstate : s.pools = B.pools)
    (hleaves : ((unusedLeaves s P.slot).bind (checkedAdd 64 · P.count)).any (· ≤ c.slotLeavesMax))
    {seq : ℕ} (hseq : checkedAdd 32 ((B.pools.toList.getLast?.map (·.1)).getD 0) 1 = some seq)
    (hroot : ∀ e ∈ B.pools.toList, e.2.root ≠ P.root) (hunused : P.unused = List.range P.count) :
    Stocked c ds { B with pools := B.pools.insert seq P, slots } := by
  obtain ⟨-, rfl⟩ := checkedAdd_eq_some.mp hseq
  rw [hs.numbers.last, Nat.add_comm]
  have hother {i : ℕ} {Q : Pool} (hQ : B.pools[i]? = some Q) : Q.root ≠ P.root :=
    hroot (i, Q) (mem_toList_iff.mpr hQ)
  have hroom : B.unused P.slot + P.count ≤ c.slotLeavesMax := by
    have hboard : s.board.unused P.slot = B.unused P.slot := by
      rw [Board.unused, Board.unused, ← hstate]
      rfl
    rw [← hboard]
    exact unused_add_le hleaves
  refine ⟨hs.numbers.append P, fun i j Q R hQ hR heq => ?_, fun i Q hQ => ?_, fun x hx => ?_, hs.rounds,
    hs.problems, hs.queue, forall_insert hs.counts (by omega), fun slot => ?_⟩
  · rcases hs.numbers.getElem?_append.mp hQ with hQ' | ⟨hi, hQ'⟩ <;>
      rcases hs.numbers.getElem?_append.mp hR with hR' | ⟨hj, hR'⟩
    · exact hs.roots i j Q R hQ' hR' heq
    · exact absurd (heq.trans (congrArg Pool.root hR')) (hother hQ')
    · exact absurd (heq.symm.trans (congrArg Pool.root hQ')) (hother hR')
    · rw [hi, hj]
  · rcases hs.numbers.getElem?_append.mp hQ with hQ | ⟨rfl, rfl⟩
    · exact hs.leaves i Q hQ
    · -- nothing has been drawn from a pool that was not there
      have hnone : drawnFrom (1 + B.pools.size) ds = [] := by
        rw [drawnFrom, List.map_eq_nil_iff, List.filter_eq_nil_iff]
        intro x hx heq
        exact hs.numbers.next_notMem (of_decide_eq_true heq ▸ hs.known x hx)
      rw [hnone, hunused, List.append_nil]
  · exact ExtTreeMap.mem_insert.mpr (.inr (hs.known x hx))
  · have hsum := sumBy_insert (fun (_ : ℕ) (P : Pool) => if P.slot = slot then P.unused.length else 0)
      B.pools (1 + B.pools.size) P
    rw [ExtTreeMap.getElem?_eq_none hs.numbers.next_notMem, Option.elim_none, Nat.add_zero] at hsum
    rw [Board.unused, hsum]
    split_ifs with hslot
    · rw [hunused, List.length_range]
      rw [← hslot]
      exact hroom
    · exact hs.bound slot

/-- A leaf is drawn. -/
theorem Stocked.drawn (hs : Stocked c ds B) {seq : ℕ} {pool : Pool}
    (hpool : B.pools[seq]? = some pool) {index : ℕ} (hindex : index ∈ pool.unused)
    (hkey : key ∉ B.rounds) (hr : r.leaf = (seq, index)) :
    Stocked c (ds ++ [(seq, index)]) { B with
      pools := B.pools.insert seq { pool with unused := pool.unused.erase index }
      rounds := B.rounds.insert key r
      slots } := by
  refine ⟨hs.numbers.of_mem_iff (mem_insert_of_getElem? hpool), fun i j P Q hP hQ heq => ?_,
    fun i P hP => ?_, fun x hx => ?_, fun x => ?_, fun id P hP => ?_, fun q hq P hP => ?_,
    forall_insert hs.counts (hs.counts seq pool hpool), fun slot => ?_⟩
  · -- every pool keeps its root
    have hold {i : ℕ} {P : Pool}
        (hP : (B.pools.insert seq { pool with unused := pool.unused.erase index })[i]? = some P) :
        ∃ P₀, B.pools[i]? = some P₀ ∧ P₀.root = P.root := by
      rw [getElem?_insert] at hP
      split_ifs at hP with heq
      · rw [← heq, ← Option.some.inj hP]
        exact ⟨pool, hpool, rfl⟩
      · exact ⟨P, hP, rfl⟩
    obtain ⟨P₀, hP₀, hroot⟩ := hold hP
    obtain ⟨Q₀, hQ₀, hroot'⟩ := hold hQ
    exact hs.roots i j P₀ Q₀ hP₀ hQ₀ (hroot.trans (heq.trans hroot'.symm))
  · rw [getElem?_insert] at hP
    rw [drawnFrom_append]
    split_ifs at hP with heq
    · subst heq
      obtain rfl := Option.some.inj hP
      have hone : drawnFrom seq [(seq, index)] = [index] := by simp [drawnFrom]
      rw [hone]
      calc pool.unused.erase index ++ (drawnFrom seq ds ++ [index])
        _ |>.Perm ((index :: pool.unused.erase index) ++ drawnFrom seq ds) := by
          rw [← List.append_assoc]
          exact (List.perm_append_singleton _ _).trans (by rfl)
        _ |>.Perm (pool.unused ++ drawnFrom seq ds) :=
          (List.perm_cons_erase hindex).symm.append_right _
        _ |>.Perm (List.range pool.count) := hs.leaves seq pool hpool
    · have hnone : drawnFrom i [(seq, index)] = [] := by simp [drawnFrom, heq]
      rw [hnone, List.append_nil]
      exact hs.leaves i P hP
  · refine (mem_insert_of_getElem? hpool x.1).mpr ?_
    rcases List.mem_append.mp hx with hx | hx
    · exact hs.known x hx
    · rw [List.mem_singleton.mp hx]
      exact mem_iff_exists.mpr ⟨_, hpool⟩
  · rw [List.mem_append, List.mem_singleton, hs.rounds x]
    constructor
    · rintro (⟨k, r', hr', rfl⟩ | rfl)
      · refine ⟨k, r', ?_, rfl⟩
        rw [getElem?_insert, if_neg, hr']
        rintro rfl
        exact hkey (mem_iff_exists.mpr ⟨_, hr'⟩)
      · exact ⟨key, r, by rw [getElem?_insert, if_pos rfl], hr⟩
    · rintro ⟨k, r', hr', rfl⟩
      rw [getElem?_insert] at hr'
      split at hr'
      · rw [← Option.some.inj hr']
        exact .inr hr
      · exact .inl ⟨k, r', hr', rfl⟩
  · exact List.mem_append_left _ (hs.problems id P hP)
  · exact List.mem_append_left _ (hs.queue q hq P hP)
  · have hsum := sumBy_insert (fun (_ : ℕ) (P : Pool) => if P.slot = slot then P.unused.length else 0)
      B.pools seq { pool with unused := pool.unused.erase index }
    rw [hpool] at hsum
    have hle : (pool.unused.erase index).length ≤ pool.unused.length := List.length_erase_le
    have hbound := hs.bound slot
    rw [Board.unused] at hbound ⊢
    simp only [Option.elim_some] at hsum ⊢
    split at hsum <;> omega

theorem BoardStep.stocked {cr : Crypto} {h : ℕ} {G : Board → Hash → Prop} {ds' : List (ℕ × ℕ)}
    (hb : BoardStep cr c h G B ds' B') (hn : Numbering B) (hs : Stocked c ds B) :
    Stocked c (ds ++ ds') B' := by
  cases hb
  case drawn hslot _ _ _ _ hpool _ _ hindex _ => exact hs.drawn hpool hindex (hn.fresh hslot) rfl
  all_goals rw [List.append_nil]
  case ended hr _ _ =>
    exact hs.of_same rfl (map_leaf_insert hr rfl) (forall_closeProblem hs.problems fun _ _ hP => hP) hs.queue
  case dropped hqueue _ =>
    refine hs.of_same rfl (fun _ => rfl) hs.problems (hs.queue_set fun P hP => ?_)
    exact hs.queue_at hqueue P (List.mem_cons_of_mem _ hP)
  case reposed hslot _ _ old rest hqueue _ _ _ _ _ =>
    have hold : old.leaf ∈ ds := hs.queue_at hqueue old List.mem_cons_self
    exact { hs with
      rounds := hs.rounds_again (hn.fresh hslot) hold
      problems := forall_insert hs.problems hold
      queue := hs.queue_set fun P hP => hs.queue_at hqueue P (List.mem_cons_of_mem _ hP)
      bound := hs.bound }
  case waits => exact hs.of_same rfl (fun _ => rfl) hs.problems hs.queue
  case pooled b s hstate hleaves hseq hroot _ _ =>
    exact hs.pooled (P := ⟨b.slot, b.root, b.start, b.count, List.range b.count⟩) hstate hleaves hseq
      hroot rfl
  case posed r hr _ _ _ _ _ _ _ =>
    have hleaf : r.leaf ∈ ds := (hs.rounds _).mpr ⟨_, r, hr, rfl⟩
    exact hs.of_same rfl (map_leaf_insert hr rfl) (forall_insert hs.problems hleaf) hs.queue
  case won hP _ _ =>
    have hleaf := hs.problems _ _ hP
    exact hs.of_same rfl (fun _ => rfl) (forall_insert hs.problems hleaf) hs.queue
  case voided hP =>
    have hleaf := hs.problems _ _ hP
    exact hs.of_same rfl (fun _ => rfl) (forall_insert hs.problems hleaf) hs.queue
  case shut hP _ =>
    have hleaf := hs.problems _ _ hP
    exact hs.of_same rfl (fun _ => rfl) (forall_insert hs.problems hleaf) hs.queue
  case settled hP _ _ _ hr _ _ _ _ =>
    have hleaf := hs.problems _ _ hP
    exact hs.of_same rfl (map_leaf_insert hr rfl) (forall_insert hs.problems hleaf) hs.queue
  case freed hP _ _ _ hr _ _ _ _ _ =>
    have hleaf := hs.problems _ _ hP
    exact hs.of_same rfl (map_leaf_insert hr rfl) (forall_insert hs.problems hleaf) hs.queue
  case requeued P hP queue hqueue _ =>
    refine hs.of_same rfl (fun _ => rfl) hs.problems (hs.queue_set fun Q hQ => ?_)
    rcases List.mem_append.mp hQ with hQ | hQ
    · exact hs.queue_at hqueue Q hQ
    · rw [List.mem_singleton.mp hQ]
      exact hs.problems _ P hP

end Stock

/-! ## Runs -/

section Runs

variable {cr : Crypto} {c : Config} {gas : ℕ} {s : State} {run : List (StepInput × Step)}

theorem new_numbering (hs : new cr c gas = .ok s) : Numbering s.board := by
  rw [new_eq_ok hs]
  intro slot n
  simp only [board, ExtTreeMap.not_mem_empty, false_iff, List.getElem?_map, Option.map_map]
  rintro ⟨top, htop, hpos, hle⟩
  obtain ⟨params, -, rfl⟩ := Option.map_eq_some_iff.mp htop
  exact absurd hle (by simp only [Function.comp_apply]; omega)

theorem new_stocked (hs : new cr c gas = .ok s) : Stocked c [] s.board := by
  rw [new_eq_ok hs]
  refine ⟨dense_empty, by simp [board], by simp [board], by simp, by simp [board],
    by simp [board], ?_, by simp [board], by simp [board, Board.unused]⟩
  intro q hq P hP
  obtain ⟨_, -, rfl⟩ := List.mem_map.mp hq
  cases hP

/-- **Pool draws never repeat:** pools are numbered 1 to n and have distinct roots, the unused leaves of
a pool and those a run announces as drawn from it are its leaves, each exactly once, the drawn ones are
those of its rounds, and no slot has more unused leaves than its bound. -/
theorem Ran.leaves_once (hr : Ran cr c gas run s) :
    (∀ seq, seq ∈ s.pools ↔ 1 ≤ seq ∧ seq ≤ s.pools.size) ∧
    (∀ (i j : ℕ) (P Q : Pool), s.pools[i]? = some P → s.pools[j]? = some Q → P.root = Q.root →
      i = j) ∧
    (∀ (seq : ℕ) (P : Pool), s.pools[seq]? = some P →
      (P.unused ++ drawnFrom seq (draws run)).Perm (List.range P.count) ∧
      ∀ index, index ∈ drawnFrom seq (draws run) ↔
        ∃ (key : ℕ × ℕ) (r : Round), s.rounds[key]? = some r ∧ r.poolSeq = seq ∧ r.leafIndex = index) ∧
    ∀ slot, s.board.unused slot ≤ c.slotLeavesMax := by
  obtain ⟨s₀, hs₀, hon⟩ := hr
  obtain ⟨-, hs⟩ := hon.board.2.invariant (fun ds B => Numbering B ∧ Stocked c ds B)
    (fun _ hI hb => ⟨hb.numbering hI.1, hb.stocked hI.1 hI.2⟩) ⟨new_numbering hs₀, new_stocked hs₀⟩
  rw [List.nil_append] at hs
  refine ⟨fun seq => ?_, hs.roots, fun seq P hP => ⟨hs.leaves seq P hP, fun index => ?_⟩, hs.bound⟩
  · have hseq : seq ∈ s.pools ↔ 1 ≤ seq ∧ seq < 1 + s.pools.size := hs.numbers seq
    rw [hseq]
    omega
  · have hmem : index ∈ drawnFrom seq (draws run) ↔ (seq, index) ∈ draws run := by
      simp [drawnFrom]
    rw [hmem, hs.rounds]
    simp only [Round.leaf, Prod.mk.injEq]
    rfl

/-- A leaf of the first pool has been drawn. -/
theorem Ran.leaves_once_winning : ∃ run s P, Ran toyCrypto exampleConfig exampleGas run s ∧
    draws run ≠ [] ∧ s.pools[1]? = some P ∧
    (P.unused ++ drawnFrom 1 (draws run)).Perm (List.range P.count) := by
  obtain ⟨run, s, hr, hv⟩ := exists_reached_of_play toyCrypto exampleConfig exampleGas Free
    Example.winning (fun x => (decide (draws x.1 ≠ []), x.2.pools[1]?.isSome)) (v := (true, true))
    (by decide +kernel)
  obtain ⟨hdraws, hpool⟩ := Prod.mk.inj hv
  obtain ⟨P, hP⟩ := Option.isSome_iff_exists.mp hpool
  have hran := hr.ran
  exact ⟨run, s, P, hran, of_decide_eq_true hdraws, hP, (hran.leaves_once.2.2.1 1 P hP).1⟩

end Runs

end Derivation
