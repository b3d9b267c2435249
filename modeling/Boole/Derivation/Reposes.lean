import Boole.Derivation.Lineage
import Boole.Derivation.Rewards

/-!
# Derivation/Reposes — identities that are issued once

A problem whose winner turns stale is posed again under the next epoch.  **As long as this happens at
most once for a problem, no identity is issued twice** (`BoardStep.fresh`): an entry is never replaced
by a fresh one, so a problem keeps its winner.  Nothing but the records supplied with a step decides
whether it does: a problem that was posed again can still have an accepted candidate, paid as
compensation, and a second kernel fix may turn that one stale too.
-/

open Std Library Relation

namespace Derivation

open Draft

variable {P P' : Problem} {p id : Hash} {key : ℕ × ℕ} {r : Round} {slot : ℕ}

/-! ## Problems that persist -/

/-- A problem keeps what it was posed with, and its winner. -/
structure Problem.Persists (P P' : Problem) : Prop where
  fixed : P' = { P with winner := P'.winner, voided := P'.voided, closed := P'.closed }
  winner : P.winner ≠ none → P'.winner = P.winner
  closed : P.closed ≠ none → P'.closed ≠ none

theorem Problem.persists_refl (P : Problem) : P.Persists P := ⟨rfl, fun _ => rfl, fun h => h⟩

theorem Problem.Persists.trans {P'' : Problem} (h₁ : P.Persists P') (h₂ : P'.Persists P'') :
    P.Persists P'' where
  fixed := by rw [h₂.fixed, h₁.fixed]
  winner hw := (h₂.winner (h₁.winner hw ▸ hw)).trans (h₁.winner hw)
  closed hc := h₂.closed (h₁.closed hc)

/-- **Every problem persists.** -/
def Persists (problems problems' : ExtTreeMap Hash Problem) : Prop :=
  ∀ (p : Hash) (P : Problem), problems[p]? = some P → ∃ P', problems'[p]? = some P' ∧ P.Persists P'

section Persists

variable {problems problems' problems'' : ExtTreeMap Hash Problem} {p : Hash} {P P' : Problem}

theorem persists_refl (problems : ExtTreeMap Hash Problem) : Persists problems problems :=
  fun _ P hP => ⟨P, hP, P.persists_refl⟩

theorem Persists.trans (h₁ : Persists problems problems') (h₂ : Persists problems' problems'') :
    Persists problems problems'' := by
  intro p P hP
  obtain ⟨P₁, hP₁, hpers⟩ := h₁ p P hP
  obtain ⟨P₂, hP₂, hpers'⟩ := h₂ p P₁ hP₁
  exact ⟨P₂, hP₂, hpers.trans hpers'⟩

theorem persists_insert (hP : problems[p]? = some P) (hpers : P.Persists P') :
    Persists problems (problems.insert p P') := by
  intro a Q hQ
  rw [getElem?_insert]
  split_ifs with heq
  · subst heq
    obtain rfl := Option.mem_unique hP hQ
    exact ⟨P', rfl, hpers⟩
  · exact ⟨Q, hQ, Q.persists_refl⟩

theorem persists_insert_new (hp : p ∉ problems) : Persists problems (problems.insert p P) := by
  intro a Q hQ
  rw [getElem?_insert, if_neg]
  · exact ⟨Q, hQ, Q.persists_refl⟩
  · rintro rfl
    rw [ExtTreeMap.getElem?_eq_none hp] at hQ
    exact nomatch hQ

theorem persists_closeProblem (id : Option Hash) (h : ℕ) :
    Persists problems (closeProblem problems id h) := by
  intro a Q hQ
  rw [getElem?_closeProblem]
  split
  · exact ⟨{ Q with closed := some h }, by rw [hQ]; rfl, rfl, fun _ => rfl, nofun⟩
  · exact ⟨Q, hQ, Q.persists_refl⟩

end Persists

/-! ## Fresh identities -/

/-- The problem has not been posed again. -/
def Unposed (cr : Crypto) (c : Config) (B : Board) (p : Hash) : Prop :=
  ∀ P ∈ B.problems[p]?, P.epoch + 1 < 2 ^ 32 → ∀ id ∈ B.idOf cr c P.origin (P.epoch + 1),
    id ∉ B.problems

/-- **The identities to come are new:** those of the queued problems, each once, and those of the
rounds whose problem has not been revealed. -/
structure Fresh (cr : Crypto) (c : Config) (B : Board) : Prop where
  ids : ∀ (slot : ℕ) (q : List Problem), B.repose[slot]? = some q → (q.map (·.id)).Nodup
  ahead : ∀ (slot : ℕ) (q : List Problem), B.repose[slot]? = some q → ∀ P ∈ q,
    P.epoch + 1 < 2 ^ 32 → ∀ id, B.idOf cr c P.origin (P.epoch + 1) = some id → id ∉ B.problems
  unseen : ∀ (key : ℕ × ℕ) (r : Round), B.rounds[key]? = some r → r.status = .drawn →
    (∀ (p : Hash) (P : Problem), B.problems[p]? = some P → P.leaf ≠ r.leaf) ∧
    (∀ q ∈ B.repose, ∀ P ∈ q, P.leaf ≠ r.leaf) ∧
    ∀ (key' : ℕ × ℕ) (r' : Round), B.rounds[key']? = some r' → r'.leaf = r.leaf → key' = key

section Fresh

variable {cr : Crypto} {c : Config} {h : ℕ} {ds ds' : List (ℕ × ℕ)} {B B' : Board}

theorem Traced.idOf_eq (ht : Traced cr c B P) (hk : Keeps B B') (epoch : ℕ) :
    B'.idOf cr c P.origin epoch = B.idOf cr c P.origin epoch := by
  obtain ⟨pool, hpool, -⟩ := Option.map_eq_some_iff.mp ht.id
  rw [idOf_eq_some hpool]
  exact hk.idOf (idOf_eq_some hpool epoch)

/-- Nothing new is posed, queued or drawn. -/
theorem Fresh.of_less (hf : Fresh cr c B) (hl : Lineage cr c B) (hk : Keeps B B')
    (hproblems : ∀ (p : Hash) (P' : Problem), B'.problems[p]? = some P' →
      ∃ P, B.problems[p]? = some P ∧ P.leaf = P'.leaf)
    (hqueue : ∀ (slot : ℕ) (q' : List Problem), B'.repose[slot]? = some q' →
      ∃ q, B.repose[slot]? = some q ∧ q'.Sublist q)
    (hrounds : ∀ (key : ℕ × ℕ) (r' : Round), B'.rounds[key]? = some r' →
      ∃ r, B.rounds[key]? = some r ∧ r.leaf = r'.leaf ∧ (r'.status = .drawn → r.status = .drawn)) :
    Fresh cr c B' where
  ids slot q' hq' := by
    obtain ⟨q, hq, hsub⟩ := hqueue slot q' hq'
    exact (hf.ids slot q hq).sublist (hsub.map _)
  ahead slot q' hq' P hP hepoch id hid hmem := by
    obtain ⟨q, hq, hsub⟩ := hqueue slot q' hq'
    have hP := hsub.subset hP
    rw [((hl.queue slot q hq P hP).2).idOf_eq hk] at hid
    obtain ⟨P', hP'⟩ := mem_iff_exists.mp hmem
    obtain ⟨P₀, hP₀, -⟩ := hproblems id P' hP'
    exact hf.ahead slot q hq P hP hepoch id hid
      (mem_iff_exists.mpr ⟨_, hP₀⟩)
  unseen key r' hr' hdrawn := by
    obtain ⟨r, hr, hleaf, hstatus⟩ := hrounds key r' hr'
    obtain ⟨hproblem, hqueued, halone⟩ := hf.unseen key r hr (hstatus hdrawn)
    rw [← hleaf]
    refine ⟨fun p P' hP' => ?_, fun q' hq' P hP => ?_, fun key' r₁' hr₁' heq => ?_⟩
    · obtain ⟨P, hP, hleaf'⟩ := hproblems p P' hP'
      rw [← hleaf']
      exact hproblem p P hP
    · obtain ⟨slot, hq'⟩ := List.mem_iff_getElem?.mp hq'
      obtain ⟨q, hq, hsub⟩ := hqueue slot q' hq'
      exact hqueued q (List.mem_of_getElem? hq) P (hsub.subset hP)
    · obtain ⟨r₁, hr₁, hleaf', -⟩ := hrounds key' r₁' hr₁'
      exact halone key' r₁ hr₁ (hleaf'.trans heq)

/-- Problems are written again with the leaf they had. -/
theorem leaf_of_rewrite {problems : ExtTreeMap Hash Problem} (hP : problems[p]? = some P)
    (hleaf : P.leaf = P'.leaf) (a : Hash) (Q : Problem) (hQ : (problems.insert p P')[a]? = some Q) :
    ∃ Q₀ : Problem, problems[a]? = some Q₀ ∧ Q₀.leaf = Q.leaf := by
  rw [getElem?_insert] at hQ
  split at hQ
  · exact ⟨P, ‹p = a› ▸ hP, Option.some.inj hQ ▸ hleaf⟩
  · exact ⟨Q, hQ, rfl⟩

/-- A round is written again with the leaf it had. -/
theorem leaf_of_rounds {rounds : ExtTreeMap (ℕ × ℕ) Round lexOrd.compare} {r' : Round}
    (hr : rounds[key]? = some r) (hleaf : r.leaf = r'.leaf)
    (hstatus : r'.status = .drawn → r.status = .drawn) (k : ℕ × ℕ) (x : Round)
    (hx : (rounds.insert key r')[k]? = some x) :
    ∃ x₀ : Round, rounds[k]? = some x₀ ∧ x₀.leaf = x.leaf ∧
      (x.status = .drawn → x₀.status = .drawn) := by
  rw [getElem?_insert] at hx
  split at hx
  · obtain rfl := Option.some.inj hx
    exact ⟨r, ‹key = k› ▸ hr, hleaf, hstatus⟩
  · exact ⟨x, hx, rfl, id⟩

theorem queue_of_set {repose : List (List Problem)} {i : ℕ} {q new : List Problem}
    (hq : repose[i]? = some q) (hsub : new.Sublist q) (slot : ℕ) (q' : List Problem)
    (hq' : (repose.set i new)[slot]? = some q') : ∃ q, repose[slot]? = some q ∧ q'.Sublist q := by
  rw [List.getElem?_set] at hq'
  split at hq'
  · rename_i heq
    rw [Option.ite_none_right_eq_some] at hq'
    exact ⟨q, heq ▸ hq, Option.some.inj hq'.2 ▸ hsub⟩
  · exact ⟨q', hq', .refl _⟩

variable (hg : Grounded cr c ds B) (hinj : Set.InjOn cr.sha256 (B.hashed c)) (hf : Fresh cr c B)

include hg hinj in
/-- Two queued problems with the same successor are the same. -/
theorem queued_eq {slot' : ℕ} {q q' : List Problem} (hq : B.repose[slot]? = some q)
    (hq' : B.repose[slot']? = some q') (hP : P ∈ q) (hP' : P' ∈ q') (hepoch : P.epoch + 1 < 2 ^ 32)
    (hepoch' : P'.epoch + 1 < 2 ^ 32) (hid : B.idOf cr c P.origin (P.epoch + 1) = some id)
    (hid' : B.idOf cr c P'.origin (P'.epoch + 1) = some id) : slot = slot' ∧ P.id = P'.id := by
  obtain ⟨hslot, ht⟩ := hg.lineage.queue slot q hq P hP
  obtain ⟨hslot', ht'⟩ := hg.lineage.queue slot' q' hq' P' hP'
  obtain ⟨horigin, hepochs⟩ := origin_of_idOf hinj hg.stock hg.valid.leaves ht.origin ht'.origin hepoch
    hepoch' hid hid'
  have hseq : P.poolSeq = P'.poolSeq := congrArg Prod.fst horigin
  have hpool := ht.slot
  rw [hseq, ht'.slot] at hpool
  have hsame := ht.id
  rw [horigin, Nat.succ.inj hepochs, ht'.id] at hsame
  exact ⟨by rw [← hslot, ← hslot', Option.some.inj hpool], (Option.some.inj hsame).symm⟩

include hg hinj hf in
/-- A queued problem is posed again, under an identity that is new. -/
theorem Fresh.reposed {n : ℕ} {old : Problem} {rest : List Problem}
    (hqueue : B.repose[slot]? = some (old :: rest)) (hepoch : old.epoch + 1 < 2 ^ 32)
    (hid : B.idOf cr c old.origin (old.epoch + 1) = some id) (hP : P.leaf = old.leaf)
    (hr : r.leaf = old.leaf) (hopened : r.status = .opened) {slots : List Slot} :
    Fresh cr c { B with
      repose := B.repose.set slot rest
      problems := B.problems.insert id P
      rounds := B.rounds.insert (slot, n) r
      slots } := by
  have hsub := queue_of_set hqueue (List.sublist_cons_self old rest)
  have hunqueued {key : ℕ × ℕ} {r₁ : Round} (hr₁ : B.rounds[key]? = some r₁)
      (hdrawn : r₁.status = .drawn) : old.leaf ≠ r₁.leaf :=
    (hf.unseen key r₁ hr₁ hdrawn).2.1 _ (List.mem_of_getElem? hqueue) old List.mem_cons_self
  refine ⟨fun j q hq => ?_, fun j q hq Q hQ hlt id' hid' hmem => ?_, fun key r₁ hr₁ hdrawn => ?_⟩
  · obtain ⟨q₀, hq₀, hsub⟩ := hsub j q hq
    exact (hf.ids j q₀ hq₀).sublist (hsub.map _)
  · -- only the problem itself has this successor
    obtain ⟨q₀, hq₀, hsub⟩ := hsub j q hq
    rcases ExtTreeMap.mem_insert.mp hmem with heq | hmem
    · obtain rfl := LawfulEqCmp.compare_eq_iff_eq.mp heq
      obtain ⟨rfl, hsame⟩ := queued_eq hg hinj hqueue hq₀ List.mem_cons_self (hsub.subset hQ) hepoch hlt
        hid hid'
      have hnodup := hf.ids slot _ hqueue
      rw [List.map_cons, List.nodup_cons] at hnodup
      rw [List.getElem?_set_self (List.getElem?_eq_some_iff.mp hqueue).1] at hq
      obtain rfl := Option.some.inj hq
      exact hnodup.1 (hsame ▸ List.mem_map_of_mem hQ)
    · exact hf.ahead j q₀ hq₀ Q (hsub.subset hQ) hlt id' hid' hmem
  · have hr₁ : B.rounds[key]? = some r₁ := by
      rw [getElem?_insert] at hr₁
      split at hr₁
      · obtain rfl := Option.some.inj hr₁
        exact nomatch hopened.symm.trans hdrawn
      · exact hr₁
    obtain ⟨hproblem, hqueued, halone⟩ := hf.unseen key r₁ hr₁ hdrawn
    refine ⟨forall_insert hproblem (hP ▸ hunqueued hr₁ hdrawn), fun q hq Q hQ => ?_,
      forall_insert halone fun heq => absurd (hr.symm.trans heq) (hunqueued hr₁ hdrawn)⟩
    obtain ⟨j, hq⟩ := List.mem_iff_getElem?.mp hq
    obtain ⟨q₀, hq₀, hsub⟩ := hsub j q hq
    exact hqueued q₀ (List.mem_of_getElem? hq₀) Q (hsub.subset hQ)

include hg hf in
/-- A leaf is drawn for the first time. -/
theorem Fresh.drawn {seq index : ℕ} {pool : Pool} (hpool : B.pools[seq]? = some pool)
    (hindex : index ∈ pool.unused) (hr : r.leaf = (seq, index)) (hpools : Keeps B B')
    (hproblems : B'.problems = B.problems) (hqueue : B'.repose = B.repose)
    (hrounds : B'.rounds = B.rounds.insert key r) : Fresh cr c B' := by
  have hnew : (seq, index) ∉ ds := by
    intro hmem
    have hnodup := (hg.stock.leaves seq pool hpool).nodup_iff.mpr List.nodup_range
    refine List.disjoint_of_nodup_append hnodup hindex (List.mem_map.mpr ⟨(seq, index), ?_, rfl⟩)
    exact List.mem_filter.mpr ⟨hmem, decide_eq_true rfl⟩
  have hseen {k : ℕ × ℕ} {x : Round} (hx : B.rounds[k]? = some x) : x.leaf ≠ r.leaf := by
    rw [hr]
    rintro heq
    exact hnew (heq ▸ (hg.stock.rounds _).mpr ⟨k, x, hx, rfl⟩)
  refine ⟨hqueue ▸ hf.ids, ?_, ?_⟩
  · rw [hproblems, hqueue]
    intro slot q hq P hP hlt id hid
    rw [((hg.lineage.queue slot q hq P hP).2).idOf_eq hpools] at hid
    exact hf.ahead slot q hq P hP hlt id hid
  · rw [hproblems, hqueue, hrounds]
    refine forall_insert (fun k x hx hdrawn => ?_) fun _ => ⟨fun p P hP heq => ?_, fun q hq P hP heq => ?_, ?_⟩
    · obtain ⟨hproblem, hqueued, halone⟩ := hf.unseen k x hx hdrawn
      exact ⟨hproblem, hqueued, forall_insert halone fun heq => absurd heq.symm (hseen hx)⟩
    · exact hnew (hr ▸ heq ▸ hg.stock.problems p P hP)
    · exact hnew (hr ▸ heq ▸ hg.stock.queue q hq P hP)
    · exact forall_insert (fun k x hx heq => absurd heq (hseen hx)) fun _ => rfl

include hg hinj hf in
/-- The identity of a problem that has not been revealed is new. -/
theorem Fresh.posed_notMem (hr : B.rounds[key]? = some r) (hdrawn : r.status = .drawn)
    (hid : B.idOf cr c r.origin 0 = some id) :
    id ∉ B.problems := by
  intro hmem
  obtain ⟨Q, hQ⟩ := mem_iff_exists.mp hmem
  obtain ⟨rfl, ht⟩ := hg.lineage.problems id Q hQ
  obtain ⟨heq, -⟩ := origin_of_idOf hinj hg.stock hg.valid.leaves ht.origin ⟨key, by rw [hr]; rfl⟩
    ht.epoch (Nat.two_pow_pos 32) ht.id hid
  exact (hf.unseen key r hr hdrawn).1 _ Q hQ (congrArg (fun o : Origin => (o.1, o.2.1)) heq)

include hg hinj hf in
/-- The problem of a round is revealed. -/
theorem Fresh.posed (hr : B.rounds[key]? = some r) (hid : B.idOf cr c r.origin 0 = some id)
    (hP : P.leaf = r.leaf) {r' : Round} (hr' : r'.leaf = r.leaf) (hopened : r'.status = .opened) :
    Fresh cr c { B with
      rounds := B.rounds.insert key r'
      problems := B.problems.insert id P } := by
  have horigin : r.origin ∈ B.origins := ⟨key, by rw [hr]; rfl⟩
  refine ⟨hf.ids, fun slot q hq Q hQ hlt id' hid' hmem => ?_, fun k x hx hx' => ?_⟩
  · have ht := (hg.lineage.queue slot q hq Q hQ).2
    rcases ExtTreeMap.mem_insert.mp hmem with heq | hmem
    · obtain rfl := LawfulEqCmp.compare_eq_iff_eq.mp heq
      obtain ⟨-, hepochs⟩ := origin_of_idOf hinj hg.stock hg.valid.leaves horigin ht.origin
        (Nat.two_pow_pos 32) hlt hid hid'
      exact nomatch hepochs
    · exact hf.ahead slot q hq Q hQ hlt id' hid' hmem
  · obtain ⟨hne, hx⟩ : key ≠ k ∧ B.rounds[k]? = some x := by
      rw [getElem?_insert] at hx
      split at hx
      · obtain rfl := Option.some.inj hx
        exact nomatch hopened.symm.trans hx'
      · exact ⟨‹_›, hx⟩
    obtain ⟨hproblem, hqueued, halone⟩ := hf.unseen k x hx hx'
    refine ⟨forall_insert hproblem ?_, hqueued, forall_insert halone fun heq => ?_⟩
    · rw [hP]
      exact fun heq => hne (halone key r hr heq)
    · exact halone key r hr (hr'.symm.trans heq)

include hf in
/-- A problem that has not been posed again is queued. -/
theorem Fresh.requeued (hP : B.problems[p]? = some P) (hunposed : Unposed cr c B p)
    {queue : List Problem} (hqueue : B.repose[P.slot]? = some queue)
    (hnew : ∀ x ∈ queue, x.id ≠ P.id) :
    Fresh cr c { B with repose := B.repose.set P.slot (queue ++ [P]) } := by
  refine ⟨fun slot q hq => ?_, ?_, fun key r hr hdrawn => ?_⟩
  · rw [List.getElem?_set] at hq
    split at hq
    · rw [Option.ite_none_right_eq_some] at hq
      rw [← Option.some.inj hq.2, List.map_append, List.nodup_append']
      refine ⟨hf.ids _ _ hqueue, by simp, ?_⟩
      simpa [List.disjoint_singleton] using hnew
    · exact hf.ids slot q hq
  · refine forall_queue_set hf.ahead fun Q hQ => ?_
    rcases List.mem_append.mp hQ with hQ | hQ
    · exact hf.ahead _ _ hqueue Q hQ
    · rw [List.mem_singleton.mp hQ]
      exact hunposed P hP
  · obtain ⟨hproblem, hqueued, halone⟩ := hf.unseen key r hr hdrawn
    refine ⟨hproblem, fun q hq Q hQ => ?_, halone⟩
    rcases List.mem_or_eq_of_mem_set hq with hq | rfl
    · exact hqueued q hq Q hQ
    · rcases List.mem_append.mp hQ with hQ | hQ
      · exact hqueued queue (List.mem_of_getElem? hqueue) Q hQ
      · rw [List.mem_singleton.mp hQ]
        exact hproblem p P hP

include hg hinj hf in
/-- **A step issues new identities only.** -/
theorem BoardStep.fresh (hb : BoardStep cr c h (Unposed cr c) B ds' B') :
    Fresh cr c B' ∧ Persists B.problems B'.problems := by
  have hk := hb.keeps hg.numbers hg.stock
  have hproblems : ∀ (p : Hash) (P' : Problem), B.problems[p]? = some P' →
      ∃ P, B.problems[p]? = some P ∧ P.leaf = P'.leaf := fun _ P hP => ⟨P, hP, rfl⟩
  have hqueues : ∀ (slot : ℕ) (q' : List Problem), B.repose[slot]? = some q' →
      ∃ q, B.repose[slot]? = some q ∧ q'.Sublist q := fun _ q hq => ⟨q, hq, .refl _⟩
  have hrounds : ∀ (key : ℕ × ℕ) (r' : Round), B.rounds[key]? = some r' → ∃ r : Round,
      B.rounds[key]? = some r ∧ r.leaf = r'.leaf ∧ (r'.status = .drawn → r.status = .drawn) :=
    fun _ r hr => ⟨r, hr, rfl, id⟩
  have hsame := persists_refl B.problems
  cases hb with
  | ended _ _ _ hr hend =>
    refine ⟨hf.of_less hg.lineage hk (forall_closeProblem hproblems fun _ _ h => h) hqueues
      (leaf_of_rounds hr rfl ?_), persists_closeProblem _ _⟩
    rcases hend with ⟨-, rfl⟩ | ⟨-, rfl⟩ <;> exact nofun
  | dropped hqueue =>
    exact ⟨hf.of_less hg.lineage hk hproblems (queue_of_set hqueue (List.sublist_cons_self _ _)) hrounds,
      hsame⟩
  | @reposed slot waiting hslot _ _ old rest hqueue hepoch pool hpool id hid =>
    have hid' : B.idOf cr c old.origin (old.epoch + 1) = some id := by
      rw [hid]
      exact idOf_eq_some hpool _
    refine ⟨hf.reposed hg hinj hqueue hepoch hid' ?_ ?_ rfl,
      persists_insert_new (hf.ahead slot _ hqueue old List.mem_cons_self hepoch id hid')⟩ <;>
      rfl
  | waits | pooled => exact ⟨hf.of_less hg.lineage hk hproblems hqueues hrounds, hsame⟩
  | drawn _ _ _ hpool _ hindex => exact ⟨hf.drawn hg hpool hindex rfl hk rfl rfl rfl, hsame⟩
  | @posed key r hr hdrawn pool hpool id hid =>
    have hid' : B.idOf cr c r.origin 0 = some id := by
      rw [hid]
      exact idOf_eq_some hpool _
    exact ⟨hf.posed hg hinj hr hid' rfl rfl rfl,
      persists_insert_new (hf.posed_notMem hg hinj hr hdrawn hid')⟩
  | won hP hnone =>
    exact ⟨hf.of_less hg.lineage hk (leaf_of_rewrite hP rfl) hqueues hrounds,
      persists_insert hP ⟨rfl, fun hw => absurd hnone hw, fun h => h⟩⟩
  | voided hP =>
    exact ⟨hf.of_less hg.lineage hk (leaf_of_rewrite hP rfl) hqueues hrounds,
      persists_insert hP ⟨rfl, fun _ => rfl, fun h => h⟩⟩
  | shut hP =>
    exact ⟨hf.of_less hg.lineage hk (leaf_of_rewrite hP rfl) hqueues hrounds,
      persists_insert hP ⟨rfl, fun _ => rfl, nofun⟩⟩
  | settled hP _ hr | freed hP _ hr =>
    exact ⟨hf.of_less hg.lineage hk (leaf_of_rewrite hP rfl) hqueues (leaf_of_rounds hr rfl nofun),
      persists_insert hP ⟨rfl, fun _ => rfl, nofun⟩⟩
  | requeued hG hP hqueue hnew => exact ⟨hf.requeued hP hG hqueue hnew, hsame⟩

end Fresh

theorem BoardRun.fresh {cr : Crypto} {c : Config} {H : ℕ} {ds ds' : List (ℕ × ℕ)} {B B' : Board}
    (hr : BoardRun cr c H (Unposed cr c) B ds' B') (hg : Grounded cr c ds B) (hf : Fresh cr c B)
    (hinj : Set.InjOn cr.sha256 (B'.hashed c)) :
    Fresh cr c B' ∧ Persists B.problems B'.problems := by
  refine hr.apart (fun B₁ => Fresh cr c B₁ ∧ Persists B.problems B₁.problems)
    (fun _ hg hinj hI hb => ?_) hg ⟨hf, persists_refl _⟩ hinj
  obtain ⟨hfresh, hpers⟩ := hb.fresh hg (hinj.mono (hb.keeps hg.numbers hg.stock).hashed) hI.1
  exact ⟨hfresh, hI.2.trans hpers⟩

/-! ## The records of a step -/

/-- **No record of the step turns a candidate stale whose problem has been posed again.** -/
def Unreposed (cr : Crypto) (c : Config) (s : State) (i : StepInput) : Prop :=
  ∀ v ∈ i.verdicts, v.record.kind = .recheck → v.record.outcome = .reject →
    ∀ e ∈ s.candidates.toList, e.1.2 = v.record.commitHash → Unposed cr c s.board e.1.1

-- a bounded quantifier over hashes would run through all of them
instance (cr : Crypto) (c : Config) (B : Board) (p : Hash) : Decidable (Unposed cr c B p) :=
  decidable_of_iff (∀ P ∈ B.problems[p]?, P.epoch + 1 < 2 ^ 32 →
    (B.idOf cr c P.origin (P.epoch + 1)).all (· ∉ B.problems)) (by simp [Unposed, Option.all_eq_true])

instance (cr : Crypto) (c : Config) (s : State) (i : StepInput) : Decidable (Unreposed cr c s i) :=
  inferInstanceAs (Decidable (∀ v ∈ i.verdicts, _))

/-- The problems and the candidates are those of an earlier state. -/
structure Frozen (s s' : State) : Prop where
  pools : s'.pools = s.pools
  problems : ∀ (p : Hash) (P' : Problem), s'.problems[p]? = some P' →
    ∃ P, s.problems[p]? = some P ∧ P.origin = P'.origin ∧ P.epoch = P'.epoch
  candidates : ∀ k, s'.statusOf k ≠ none → s.statusOf k ≠ none

section Frozen

variable {cr : Crypto} {c : Config} {h : ℕ} {s s' s'' : State} {d d' : Draft}

theorem Frozen.trans (h₁ : Frozen s s') (h₂ : Frozen s' s'') : Frozen s s'' where
  pools := h₂.pools.trans h₁.pools
  problems p P'' hP'' := by
    obtain ⟨P', hP', horigin', hepoch'⟩ := h₂.problems p P'' hP''
    obtain ⟨P, hP, horigin, hepoch⟩ := h₁.problems p P' hP'
    exact ⟨P, hP, horigin.trans horigin', hepoch.trans hepoch'⟩
  candidates k hk := h₁.candidates k (h₂.candidates k hk)

theorem Frozen.unposed (hf : Frozen s s') (hu : Unposed cr c s.board p) :
    Unposed cr c s'.board p := by
  intro P' hP' hlt id hid hmem
  obtain ⟨P, hP, horigin, hepoch⟩ := hf.problems p P' hP'
  have hsame : s'.board.idOf cr c = s.board.idOf cr c := by
    unfold Board.idOf
    rw [show s'.board.pools = s.board.pools from hf.pools]
  rw [hsame, ← horigin, ← hepoch] at hid
  obtain ⟨Q', hQ'⟩ := mem_iff_exists.mp hmem
  obtain ⟨Q, hQ, -⟩ := hf.problems id Q' hQ'
  exact hu P hP (hepoch ▸ hlt) id hid
    (mem_iff_exists.mpr ⟨Q, hQ⟩)

theorem Draft.WindowStep.frozen (hw : WindowStep c p h s s') : Frozen s s' := by
  have hframe := hw.frame
  refine ⟨by rw [hframe], fun id P' hP' => ?_, fun k hk => ?_⟩
  · rcases hw.problem id with heq | ⟨-, P, hP, -, heq⟩
    · exact ⟨P', heq ▸ hP', rfl, rfl⟩
    · obtain rfl := Option.mem_unique heq hP'
      exact ⟨P, hP, rfl, rfl⟩
  · rwa [hframe] at hk

theorem Draft.Applies.frozen {p : M3Config} {job : Job} {v : IndexedVerdict} {clock : FuelClock}
    {m : M3State} {l : LiveCandidate} {new : Status}
    (ha : Applies c p h slot job v clock d m l P new d')
    (hl : d.candidates[job.key]? = some (.live l)) : Frozen d.toState d'.toState := by
  have hcands (k : Key) (hk : d'.statusOf k ≠ none) : d.statusOf k ≠ none := by
    rcases ha.statusOf k with heq | ⟨-, hold, -⟩
    · rw [heq] at hk
      split_ifs at hk with heq
      · rw [← heq, State.statusOf_of_getElem? hl]
        exact nofun
      · exact hk
    · rw [hold]
      exact nofun
  cases ha with
  | plain | compensated => exact ⟨rfl, fun _ P hP => ⟨P, hP, rfl, rfl⟩, hcands⟩
  | stale =>
    have hframe := enqueueRepose_frame d.toState job.key.1
    refine ⟨?_, fun id P' hP' => ⟨P', ?_, rfl, rfl⟩, hcands⟩
    · show (d.toState.enqueueRepose job.key.1).pools = d.pools
      rw [hframe]
    · rwa [show (d.toState.enqueueRepose job.key.1).problems = d.problems by rw [hframe]] at hP'
  | voided _ _ hstep =>
    cases hstep with
    | again => exact ⟨rfl, fun _ P hP => ⟨P, hP, rfl, rfl⟩, hcands⟩
    | @void P₀ hP _ s₁ hwindow =>
      have hf := hwindow.frozen
      refine ⟨hf.pools, fun id P' hP' => ?_, hcands⟩
      obtain ⟨P₁, hP₁, horigin, hepoch⟩ := hf.problems id P' hP'
      rw [getElem?_insert] at hP₁
      split_ifs at hP₁ with heq
      · obtain rfl := Option.some.inj hP₁
        exact ⟨P₀, heq ▸ hP, horigin, hepoch⟩
      · exact ⟨P₁, hP₁, horigin, hepoch⟩

end Frozen

section Records

variable {cr : Crypto} {c : Config} {s : State} {i : StepInput} {st : Step} {g : Stages}

/-- The records leave a board on which nothing has been queued a second time. -/
theorem Folds.judged_unposed (hf : Folds cr c s i st g) (hi : Unreposed cr c s i) :
    BoardRun cr c i.l1.number (Unposed cr c) s.board [] g.judged.board := by
  obtain ⟨m, -, hact⟩ := activate_eq_ok hf.activate
  obtain ⟨p, m₀, cap, later, mid, acc, m', hdue⟩ := applyDue_eq_ok hf.due
  have hstart : Frozen s (g.activated.ties cr i.l1.number i.l1.mix).toState := by
    have hboard := hact.board
    refine ⟨congrArg Board.pools hboard, fun p P hP => ⟨P, ?_, rfl, rfl⟩, fun k hk => ?_⟩
    · exact (congrArg (fun B : Board => B.problems[p]?) hboard).symm.trans hP
    · rwa [ties_statusOf, State.statusOf_of_eq hact.candidates] at hk
  suffices hrun : Frozen s mid.draft.toState ∧
      BoardRun cr c i.l1.number (Unposed cr c) s.board [] mid.draft.board by
    rw [hdue.result]
    exact hrun.2
  refine foldlM_invariant (fun acc : Due => Frozen s acc.draft.toState ∧
    BoardRun cr c i.l1.number (Unposed cr c) s.board [] acc.draft.board)
    (fun acc x acc' hmem hacc hx => ?_) ⟨hstart, hact.board ▸ .refl⟩ hdue.splits.loop
  obtain ⟨hfrozen, hrun⟩ := hacc
  obtain ⟨m, job, slot, due, next, hx⟩ := examine_eq_ok hx
  rcases hx.result with ⟨-, -, happly⟩ | ⟨-, -, hdraft⟩
  · obtain ⟨m, l, P, new, hm, hl, hP, hnew, ha⟩ := applyRecord_eq_ok happly
    refine ⟨hfrozen.trans (ha.frozen hl), hrun.trans (ha.board fun hstale => ?_)⟩
    -- an accepted candidate turns stale, so the condition on the records applies
    subst hstale
    obtain ⟨hkind, -, houtcome⟩ := nextStatus_eq_stale hnew
    have hrecord : x.1 ∈ i.verdicts := by
      rw [hdue.records]
      exact List.mem_append_left _ (List.fst_mem_of_mem_zipIdx hmem)
    have hcand := hfrozen.candidates job.key (by rw [State.statusOf_of_getElem? hl]; exact nofun)
    obtain ⟨v, hv⟩ := Option.ne_none_iff_exists'.mp hcand
    obtain ⟨e, he, -⟩ := Option.map_eq_some_iff.mp hv
    exact hfrozen.unposed (hi x.1 hrecord hkind houtcome (job.key, e)
      (mem_toList_iff.mpr he) hx.checked.hash.symm)
  · rw [hdraft]
    exact ⟨hfrozen, hrun⟩

end Records

/-! ## Winners -/

/-- The problem whose winner an event grants a reward. -/
def Event.won? : Event → Option Hash
  | .reward r event => if event = 1 then some r.key.1 else none
  | _ => none

/-- The problems whose winners a step grants a reward, in order. -/
def Step.winners (st : Step) : List Hash := st.events.filterMap Event.won?

/-- The problems whose winners a run grants a reward, in order. -/
def winners (run : List (StepInput × Step)) : List Hash := run.flatMap (·.2.winners)

/-- **Every problem is won once**, and those won have a winner. -/
structure Paid (ws : List Hash) (problems : ExtTreeMap Hash Problem) : Prop where
  nodup : ws.Nodup
  winner : ∀ p ∈ ws, ∃ P, problems[p]? = some P ∧ P.winner ≠ none

section Winners

variable {cr : Crypto} {c : Config} {p : M3Config} {cap h : ℕ} {mix : Hash} {forks : ForkTable}
  {d d' : Draft} {ws : List Hash} {problems problems' : ExtTreeMap Hash Problem}

theorem filterMap_won_ledger (evs : List Event) :
    evs.filterMap Event.won? = (evs.filter Event.ledger).filterMap Event.won? := by
  rw [List.filterMap_filter]
  refine List.filterMap_congr fun e _ => ?_
  cases e <;> rfl

theorem Paid.persists (hp : Paid ws problems) (hpers : Persists problems problems') :
    Paid ws problems' := by
  refine ⟨hp.nodup, fun p hmem => ?_⟩
  obtain ⟨P, hP, hw⟩ := hp.winner p hmem
  obtain ⟨P', hP', hkeeps⟩ := hpers p P hP
  exact ⟨P', hP', hkeeps.winner hw ▸ hw⟩

/-- A record grants no winner's reward. -/
theorem JudgeStep.winners {x x' : Draft × ℕ} (hj : JudgeStep cr c p cap h mix forks x x') :
    x'.1.events.filterMap Event.won? = x.1.events.filterMap Event.won? := by
  cases hj with
  | ties | advance => rfl
  | apply hj =>
    obtain ⟨m', told, evs, heffect, -, hevs, hledger⟩ := hj.applies.m3 hj.status
    rw [hevs, List.filterMap_append, filterMap_won_ledger evs, hledger]
    suffices htold : told.filterMap Event.won? = [] by
      rw [List.filterMap_cons_none (by rfl), htold, List.append_nil]
    cases heffect with
    | none => rfl
    | paid _ _ _ hgrant => cases hgrant <;> rfl
    | revoked =>
      rw [revocation, List.filterMap_append]
      simp [Event.won?]

/-- The settlement grants the reward of a problem without a winner, and gives it one. -/
theorem BlockStep.winners (hb : BlockStep cr c h mix d d') (ht : Tombs d.toState) :
    d'.events.filterMap Event.won? = d.events.filterMap Event.won? ∨
    ∃ p P, d'.events.filterMap Event.won? = d.events.filterMap Event.won? ++ [p] ∧
      d.problems[p]? = some P ∧ P.winner = none ∧ ∃ P', d'.problems[p]? = some P' ∧ P'.winner ≠ none := by
  rcases hb.quiet_or_accept ht with hq | ⟨key, P, r, m, hw, ha⟩
  · obtain ⟨evs, hevs, hledger⟩ := hq.events
    rw [hevs, List.filterMap_append, filterMap_won_ledger evs, hledger]
    exact .inl (List.append_nil _)
  · cases ha with
    | @mk _ _ _ _ _ _ Q hQ _ _ _ _ s' hwindow paid _ hgrant evs hevs =>
      have hpaid : evs.filterMap Event.won? = [key.1] := by
        rw [filterMap_won_ledger, hevs]
        cases hgrant with
        | again hcomp => exact nomatch hcomp
        | fresh _ _ _ hr ha =>
          rw [hr]
          rfl
      refine .inr ⟨key.1, P, ?_, hw.problem, hw.winner, ?_⟩
      · rw [List.filterMap_append, hpaid]
      · rcases hwindow.problem key.1 with heq | ⟨-, Q', hQ', -, heq⟩
        · refine ⟨{ Q with winner := some key.2 }, heq.trans ?_, Option.some_ne_none _⟩
          rw [getElem?_insert, if_pos rfl]
        · rw [getElem?_insert, if_pos rfl] at hQ'
          refine ⟨_, heq, ?_⟩
          rw [← Option.some.inj hQ']
          exact Option.some_ne_none _

theorem BlockStep.board {G : Board → Hash → Prop} (hb : BlockStep cr c h mix d d') :
    ∃ ds, BoardRun cr c h G d.board ds d'.board := by
  cases hb with
  | slot hs =>
    obtain ⟨evs, -, hrun⟩ := hs.board (G := G)
    exact ⟨_, hrun⟩
  | expire => exact ⟨[], expire_board c d h ▸ .refl⟩
  | purge => exact ⟨[], purge_board c d h ▸ .refl⟩
  | item hi => exact ⟨[], hi.board⟩
  | accept hw ha => exact ⟨[], ha.board hw⟩

end Winners

/-! ## Runs -/

/-- What a draft after the records of a step keeps of the state before it. -/
structure Issued (cr : Crypto) (c : Config) (s : State) (ws : List Hash) (d : Draft) : Prop where
  tombs : Tombs d.toState
  grounded : ∃ ds, Grounded cr c ds d.board
  fresh : Set.InjOn cr.sha256 (d.board.hashed c) → Fresh cr c d.board ∧
    Persists s.problems d.problems ∧ Paid (ws ++ d.events.filterMap Event.won?) d.problems

section Runs

variable {cr : Crypto} {c : Config} {gas h : ℕ} {mix : Hash} {s : State} {i : StepInput} {st : Step}
  {g : Stages} {d d' : Draft} {ws : List Hash} {run : List (StepInput × Step)}

theorem Issued.block (hI : Issued cr c s ws d) (hb : BlockStep cr c h mix d d') :
    Issued cr c s ws d' := by
  obtain ⟨ds, hg⟩ := hI.grounded
  obtain ⟨ds', hrun⟩ := hb.board (G := Unposed cr c)
  refine ⟨(tombs_kept cr c Free).block (n := 0) hb trivial hI.tombs, ⟨_, hrun.grounded hg⟩, fun hinj => ?_⟩
  obtain ⟨hfresh, hpers, hpaid⟩ := hI.fresh (hinj.mono (hrun.keeps hg).hashed)
  obtain ⟨hfresh', hpers'⟩ := hrun.fresh hg hfresh hinj
  refine ⟨hfresh', hpers.trans hpers', ?_⟩
  have hkept := hpaid.persists hpers'
  rcases hb.winners hI.tombs with heq | ⟨p, P, heq, hP, hnone, P', hP', hw⟩
  · rw [heq]
    exact hkept
  · rw [heq, ← List.append_assoc]
    refine ⟨List.nodup_append'.mpr ⟨hpaid.nodup, List.nodup_singleton p, ?_⟩, fun q hq => ?_⟩
    · rw [List.disjoint_singleton]
      intro hmem
      obtain ⟨Q, hQ, hne⟩ := hpaid.winner p hmem
      obtain rfl := Option.mem_unique hP hQ
      exact hne hnone
    · rcases List.mem_append.mp hq with hq | hq
      · exact hkept.winner q hq
      · rw [List.mem_singleton.mp hq]
        exact ⟨P', hP', hw⟩

/-- The first draft after the records. -/
theorem Folds.issued (hf : Folds cr c s i st g) (hi : Unreposed cr c s i) (ht : Tombs s)
    {ds : List (ℕ × ℕ)} (hg : Grounded cr c ds s.board)
    (hs : Set.InjOn cr.sha256 (s.board.hashed c) → Fresh cr c s.board ∧ Paid ws s.problems) :
    Issued cr c s ws g.judged := by
  have hrun := hf.judged_unposed hi
  have htombs := (tombs_kept cr c (Unreposed cr c)).judged hi hf ht
  refine ⟨htombs, ⟨_, hrun.grounded hg⟩, fun hinj => ?_⟩
  obtain ⟨hfresh, hpaid⟩ := hs (hinj.mono (hrun.keeps hg).hashed)
  obtain ⟨hfresh', hpers⟩ := hrun.fresh hg hfresh hinj
  refine ⟨hfresh', hpers, ?_⟩
  have hnone : g.judged.events.filterMap Event.won? = [] := by
    obtain ⟨p, cap, -, -, hjudging⟩ := hf.judging
    obtain ⟨m, -, hact⟩ := activate_eq_ok hf.activate
    refine steps_invariant (fun x : Draft × ℕ => x.1.events.filterMap Event.won? = [])
      (fun _ _ hx hj => hj.winners.trans hx) hjudging ?_
    generalize g.activated = d at hact
    cases hact <;> rfl
  rw [hnone, List.append_nil]
  exact hpaid.persists hpers

/-- **What a run issues** under the condition on the records. -/
structure IssuedRun (cr : Crypto) (c : Config) (run : List (StepInput × Step)) (s : State) : Prop where
  tombs : Tombs s
  grounded : ∃ ds, Grounded cr c ds s.board
  fresh : Set.InjOn cr.sha256 (s.board.hashed c) → Fresh cr c s.board ∧
    (∀ x ∈ run, Persists x.2.state.problems s.problems) ∧
    run.Pairwise (fun x y => Persists x.2.state.problems y.2.state.problems) ∧
    Paid (winners run) s.problems

theorem IssuedRun.step (hI : IssuedRun cr c run s) (hi : Unreposed cr c s i)
    (hf : Folds cr c s i st g) : IssuedRun cr c (run ++ [(i, st)]) st.state := by
  obtain ⟨ds, hg⟩ := hI.grounded
  have hsettled : Issued cr c s (winners run) g.settled :=
    steps_invariant (Issued cr c s (winners run)) (fun _ _ hx hb => hx.block hb) hf.settling
      (hf.issued hi hI.tombs hg fun hinj => ⟨(hI.fresh hinj).1, (hI.fresh hinj).2.2.2⟩)
  have hboard : st.state.board = g.settled.board := by
    rw [hf.state, ← vest_board hf.vest]
    rfl
  have hwinners : st.winners = g.settled.events.filterMap Event.won? := by
    obtain ⟨p, m, m', rs, -, -, -, heq⟩ := vest_eq_ok hf.vest
    rw [Step.winners, hf.events, heq, List.filterMap_append, List.filterMap_map]
    simp [Event.won?]
  have hproblems : st.state.problems = g.settled.problems := congrArg Board.problems hboard
  have htombs : Tombs st.state := (tombs_kept cr c (Unreposed cr c)).step hi hf hI.tombs
  refine ⟨htombs, hboard ▸ hsettled.grounded, fun hinj => ?_⟩
  rw [hboard] at hinj
  obtain ⟨hfresh, hpers, hpaid⟩ := hsettled.fresh hinj
  obtain ⟨ds', hg'⟩ := hsettled.grounded
  obtain ⟨-, hbefore, hpairs, -⟩ := hI.fresh (hinj.mono (hboard ▸ (hf.board.keeps hg).hashed))
  rw [hboard, hproblems]
  have hlater : ∀ x ∈ run, Persists x.2.state.problems g.settled.problems :=
    fun x hx => (hbefore x hx).trans hpers
  refine ⟨hfresh, fun x hx => ?_, List.pairwise_append.mpr ⟨hpairs, List.pairwise_singleton _ _, ?_⟩, ?_⟩
  · rcases List.mem_append.mp hx with hx | hx
    · exact hlater x hx
    · rw [List.mem_singleton.mp hx, hproblems]
      exact persists_refl _
  · intro x hx y hy
    rw [List.mem_singleton.mp hy, hproblems]
    exact hlater x hx
  · rw [winners, List.flatMap_append, List.flatMap_singleton, hwinners]
    exact hpaid

theorem new_issued (hs : State.new cr c gas = .ok s) : IssuedRun cr c [] s := by
  refine ⟨new_tombs hs, ⟨[], new_grounded hs⟩, fun _ => ?_⟩
  rw [State.new_eq_ok hs]
  refine ⟨⟨fun slot q hq => ?_, fun slot q hq P hP => ?_, by simp [State.board]⟩, by simp, .nil,
    List.nodup_nil, by simp [winners]⟩
  · obtain ⟨_, -, rfl⟩ := List.mem_map.mp (List.mem_of_getElem? hq)
    exact List.nodup_nil
  · obtain ⟨_, -, rfl⟩ := List.mem_map.mp (List.mem_of_getElem? hq)
    cases hP

/-- **No identity is issued twice** as long as no record turns a candidate stale whose problem has been
posed again: problems keep their entries and their winners, and every problem is won once. -/
theorem Reached.issued_once (hr : Reached cr c gas (Unreposed cr c) run s)
    (hinj : Set.InjOn cr.sha256 (s.board.hashed c)) :
    run.Pairwise (fun x y => Persists x.2.state.problems y.2.state.problems) ∧
    (winners run).Nodup := by
  have hI : IssuedRun cr c run s := by
    clear hinj
    induction hr with
    | new hs => exact new_issued hs
    | step _ hi hst ih =>
      obtain ⟨g, hf⟩ := State.fold_eq_ok hst
      exact ih.step hi hf
  obtain ⟨-, -, hpairs, hpaid⟩ := hI.fresh hinj
  exact ⟨hpairs, hpaid.nodup⟩

end Runs

namespace Example

/-- Two fixes of the kernel. -/
def laterFixes : ForkTable :=
  ⟨[⟨0, 0, 0, .genesis, []⟩, ⟨1, 8, 0, .kernelFix, []⟩, ⟨2, 13, 0, .kernelFix, []⟩]⟩

/-- The winner of problem 0 turns stale under the first fix and its rival is compensated; problem 0 is
posed again as problem 1, which is won; then the rival turns stale under the second fix. -/
def restaled : List StepInput :=
  [⟨block 1, [pool], [], laterFixes⟩, ⟨block 2, [], [], laterFixes⟩, ⟨block 3, [problem], [], laterFixes⟩,
    ⟨block 4, [commit 0 0 1, commit 1 0 2], [], laterFixes⟩, ⟨block 5, [], [], laterFixes⟩,
    ⟨block 6, reveal 0 0 1 ++ reveal 1 0 2, [], laterFixes⟩,
    ⟨block 7, [], [judge 0 .verdict 0 1 .accept 0 0, judge 1 .verdict 0 2 .reject kernelFault 0],
      laterFixes⟩,
    ⟨block 8, [], [], laterFixes⟩,
    ⟨block 9, [], [judge 2 .recheck 0 1 .reject 0x0101 1, judge 3 .recheck 0 2 .accept 0 1],
      laterFixes⟩,
    ⟨block 10, [commit 0 1 3], [], laterFixes⟩, ⟨block 11, [], [], laterFixes⟩,
    ⟨block 12, reveal 0 1 3, [], laterFixes⟩,
    ⟨block 13, [], [judge 4 .verdict 1 3 .accept 0 2], laterFixes⟩,
    ⟨block 14, [], [judge 5 .recheck 0 2 .reject 0x0101 2], laterFixes⟩]

end Example

/-- Problem 0 is posed again as problem 1 when its winner has turned stale, and both are won. -/
theorem Reached.issued_once_reposed : ∃ run s,
    Reached toyCrypto exampleConfig exampleGas (Unreposed toyCrypto exampleConfig) run s ∧
    Set.InjOn toyCrypto.sha256 (s.board.hashed exampleConfig) ∧ winners run = [0, 1] ∧
    run.Pairwise fun x y => Persists x.2.state.problems y.2.state.problems := by
  obtain ⟨run, s, hr, hv⟩ := exists_reached_of_play toyCrypto exampleConfig exampleGas
    (Unreposed toyCrypto exampleConfig) (Example.restaled.take 13)
    (fun x => (x.2.rounds.toList.map (·.2.origin), winners x.1))
    (v := ([(1, 0, 0), (1, 0, 0)], [0, 1])) (by decide +kernel)
  obtain ⟨horigins, hwinners⟩ := Prod.mk.inj hv
  have hinj := toy_injOn (c := exampleConfig) (s := s) (o := (1, 0, 0)) (by rw [horigins]; simp)
  exact ⟨run, s, hr, hinj, hwinners, (hr.issued_once hinj).1⟩

/-- **Without the condition an identity is issued again:** problem 1 has a winner before the last step
and none after it. -/
theorem Reached.reissued : ∃ run i st s,
    Reached toyCrypto exampleConfig exampleGas Free (run ++ [(i, st)]) s ∧
    Set.InjOn toyCrypto.sha256 (s.board.hashed exampleConfig) ∧
    (∃ x ∈ run, (x.2.state.problems[1#256]?.bind (·.winner)) ≠ none) ∧
    s.problems[1#256]?.map (·.winner) = some none := by
  obtain ⟨run, s, hr, hv⟩ := exists_reached_of_play toyCrypto exampleConfig exampleGas Free
    (Example.restaled ++ [⟨Example.block 15, [], [], Example.laterFixes⟩])
    (fun x => (x.2.rounds.toList.map (·.2.origin), x.2.problems[1#256]?.map (·.winner),
      x.1.dropLast.any fun y => decide ((y.2.state.problems[1#256]?.bind (·.winner)) ≠ none)))
    (v := ([(1, 0, 0), (1, 0, 0), (1, 0, 0)], some none, true)) (by decide +kernel)
  obtain ⟨horigins, hlast, hwon⟩ := Prod.mk.inj hv |>.imp_right Prod.mk.inj
  have hinj := toy_injOn (c := exampleConfig) (s := s) (o := (1, 0, 0)) (by rw [horigins]; simp)
  obtain ⟨x, hx, hwinner⟩ := List.any_eq_true.mp hwon
  rcases List.eq_nil_or_concat run with rfl | ⟨run', ⟨i, st⟩, rfl⟩
  · exact nomatch hx
  · rw [List.concat_eq_append, List.dropLast_concat] at hx
    exact ⟨run', i, st, s, by rwa [List.concat_eq_append] at hr, hinj, ⟨x, hx, of_decide_eq_true hwinner⟩,
      hlast⟩

end Derivation
