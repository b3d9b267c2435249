import Boole.Derivation.Pools

/-!
# Derivation/Lineage — where problems come from

A round and a problem come from a leaf and a seed, their **origin**; a re-pose passes the origin of the
problem on to its round.  The identity of a problem is a digest of its origin and its epoch
(`Board.idOf`), and a board on which digests do not collide tells origins and epochs apart by it
(`origin_of_idOf`).
-/

open Std Library

namespace Derivation

variable {seq h : ℕ} {P : Pool} {key : ℕ × ℕ} {r : Round} {ds : List (ℕ × ℕ)} {o : Origin}

/-- The pool, the index of the leaf and the seed. -/
abbrev Origin := ℕ × ℕ × Hash

def Round.origin (r : Round) : Origin := (r.poolSeq, r.leafIndex, r.instanceSeed)

def Problem.origin (P : Problem) : Origin := (P.poolSeq, P.leafIndex, P.instanceSeed)

/-- The slot and the root of a pool, which never change. -/
def Pool.label (P : Pool) : ℕ × Hash := (P.slot, P.root)

/-- The identity of a problem from an origin under an epoch. -/
def Board.idOf (cr : Crypto) (c : Config) (B : Board) (o : Origin) (epoch : ℕ) : Option Hash :=
  B.pools[o.1]?.map fun P => problemId cr c.chainId P.root o.2.1 o.2.2 epoch

/-- The origins of the rounds. -/
def Board.origins (B : Board) : Set Origin :=
  {o | ∃ key : ℕ × ℕ, B.rounds[key]?.map Round.origin = some o}

/-! ## What a board keeps -/

/-- Pools keep their label and rounds their origin. -/
structure Keeps (B B' : Board) : Prop where
  pools : ∀ (seq : ℕ) x, B.pools[seq]?.map Pool.label = some x → B'.pools[seq]?.map Pool.label = some x
  rounds : ∀ (key : ℕ × ℕ) o, B.rounds[key]?.map Round.origin = some o →
    B'.rounds[key]?.map Round.origin = some o

section Keeps

variable {cr : Crypto} {c : Config} {B B' : Board} {o : Origin} {epoch : ℕ}

theorem Keeps.trans {B'' : Board} (h₁ : Keeps B B') (h₂ : Keeps B' B'') : Keeps B B'' :=
  ⟨fun seq x hx => h₂.pools seq x (h₁.pools seq x hx),
    fun key o ho => h₂.rounds key o (h₁.rounds key o ho)⟩

theorem Keeps.origins (hk : Keeps B B') : B.origins ⊆ B'.origins := by
  rintro o ⟨key, hkey⟩
  exact ⟨key, hk.rounds key o hkey⟩

theorem Keeps.slot (hk : Keeps B B') {slot : ℕ} (h : B.pools[seq]?.map (·.slot) = some slot) :
    B'.pools[seq]?.map (·.slot) = some slot := by
  obtain ⟨P, hP, rfl⟩ := Option.map_eq_some_iff.mp h
  obtain ⟨P', hP', hlabel⟩ := Option.map_eq_some_iff.mp (hk.pools seq P.label (by rw [hP]; rfl))
  rw [hP']
  exact congrArg (fun x : ℕ × Hash => some x.1) hlabel

theorem Keeps.root (hk : Keeps B B') (hP : B.pools[seq]? = some P) :
    ∃ P', B'.pools[seq]? = some P' ∧ P'.root = P.root := by
  obtain ⟨P', hP', hlabel⟩ := Option.map_eq_some_iff.mp (hk.pools seq P.label (by rw [hP]; rfl))
  exact ⟨P', hP', congrArg Prod.snd hlabel⟩

theorem Keeps.idOf (hk : Keeps B B') {id : Hash} (h : B.idOf cr c o epoch = some id) :
    B'.idOf cr c o epoch = some id := by
  obtain ⟨P, hP, rfl⟩ := Option.map_eq_some_iff.mp h
  obtain ⟨P', hP', hroot⟩ := hk.root hP
  rw [Board.idOf, hP', Option.map_some, hroot]

theorem keeps_of_rounds {rounds : ExtTreeMap (ℕ × ℕ) Round lexOrd.compare} {slots : List Slot}
    {problems : ExtTreeMap Hash Problem} {repose : List (List Problem)}
    (hrounds : ∀ (key : ℕ × ℕ) o, B.rounds[key]?.map Round.origin = some o →
      rounds[key]?.map Round.origin = some o) :
    Keeps B ⟨B.pools, rounds, slots, problems, repose⟩ :=
  ⟨fun _ _ h => h, hrounds⟩

/-- A round is written again, with the same origin. -/
theorem origin_insert {r' : Round} (hr : B.rounds[key]? = some r) (ho : r'.origin = r.origin)
    (k : ℕ × ℕ) (o : Origin) (h : B.rounds[k]?.map Round.origin = some o) :
    (B.rounds.insert key r')[k]?.map Round.origin = some o := by
  refine map_insert_eq_some (fun b hb => ?_) h
  rw [ho, Option.mem_unique hr hb]

/-- A new round is written. -/
theorem origin_insert_new (hkey : key ∉ B.rounds) (k : ℕ × ℕ) (o : Origin)
    (h : B.rounds[k]?.map Round.origin = some o) :
    (B.rounds.insert key r)[k]?.map Round.origin = some o := by
  refine map_insert_eq_some (fun b hb => ?_) h
  rw [ExtTreeMap.getElem?_eq_none hkey] at hb
  exact nomatch hb

theorem BoardStep.keeps {G : Board → Hash → Prop} {ds' : List (ℕ × ℕ)}
    (hb : BoardStep cr c h G B ds' B') (hn : Numbering B) (hs : Stocked c ds B) : Keeps B B' := by
  cases hb with
  | dropped | waits | won | voided | shut | requeued => exact keeps_of_rounds fun _ _ h => h
  | ended _ _ _ hr | posed hr | settled _ _ hr | freed _ _ hr =>
    exact keeps_of_rounds (origin_insert hr rfl)
  | reposed hslot => exact keeps_of_rounds (origin_insert_new (hn.fresh hslot))
  | drawn hslot _ _ hpool =>
    refine ⟨fun seq x hx => map_insert_eq_some (fun P hP => ?_) hx,
      origin_insert_new (hn.fresh hslot)⟩
    rw [← Option.mem_unique hpool hP]
    rfl
  | pooled _ _ hseq =>
    refine ⟨fun seq x hx => map_insert_eq_some (fun P hP => ?_) hx, fun _ _ h => h⟩
    -- the number of a new pool is the next one
    obtain ⟨-, hnext⟩ := checkedAdd_eq_some.mp hseq
    rw [← hnext, hs.numbers.last, Nat.add_comm,
      ExtTreeMap.getElem?_eq_none hs.numbers.next_notMem] at hP
    exact nomatch hP

end Keeps

/-! ## Lineage -/

/-- A problem comes from a round of its slot. -/
structure Traced (cr : Crypto) (c : Config) (B : Board) (P : Problem) : Prop where
  epoch : P.epoch < 2 ^ 32
  id : B.idOf cr c P.origin P.epoch = some P.id
  slot : B.pools[P.poolSeq]?.map (·.slot) = some P.slot
  origin : P.origin ∈ B.origins

/-- A round draws from a pool of its slot, and its problem has its origin. -/
structure RoundTraced (cr : Crypto) (c : Config) (B : Board) (key : ℕ × ℕ) (r : Round) : Prop where
  slot : B.pools[r.poolSeq]?.map (·.slot) = some key.1
  problem : ∀ p, r.problem = some p → ∃ epoch < 2 ^ 32, B.idOf cr c r.origin epoch = some p

/-- **Every round, problem and queued problem has its origin.** -/
structure Lineage (cr : Crypto) (c : Config) (B : Board) : Prop where
  rounds : ∀ (key : ℕ × ℕ) (r : Round), B.rounds[key]? = some r → RoundTraced cr c B key r
  problems : ∀ (p : Hash) (P : Problem), B.problems[p]? = some P → P.id = p ∧ Traced cr c B P
  queue : ∀ (slot : ℕ) (q : List Problem), B.repose[slot]? = some q →
    ∀ P ∈ q, P.slot = slot ∧ Traced cr c B P

section Lineage

variable {cr : Crypto} {c : Config} {B B' : Board}

theorem Traced.mono {P : Problem} (ht : Traced cr c B P) (hk : Keeps B B') : Traced cr c B' P :=
  ⟨ht.epoch, hk.idOf ht.id, hk.slot ht.slot, hk.origins ht.origin⟩

theorem RoundTraced.mono (ht : RoundTraced cr c B key r) (hk : Keeps B B') :
    RoundTraced cr c B' key r where
  slot := hk.slot ht.slot
  problem p hp := by
    obtain ⟨epoch, hlt, hid⟩ := ht.problem p hp
    exact ⟨epoch, hlt, hk.idOf hid⟩

theorem Lineage.mono (hl : Lineage cr c B) (hk : Keeps B B') :
    (∀ (key : ℕ × ℕ) (r : Round), B.rounds[key]? = some r → RoundTraced cr c B' key r) ∧
    (∀ (p : Hash) (P : Problem), B.problems[p]? = some P → P.id = p ∧ Traced cr c B' P) ∧
    ∀ (slot : ℕ) (q : List Problem), B.repose[slot]? = some q →
      ∀ P ∈ q, P.slot = slot ∧ Traced cr c B' P :=
  ⟨fun key r hr => (hl.rounds key r hr).mono hk,
    fun p P hP => ⟨(hl.problems p P hP).1, (hl.problems p P hP).2.mono hk⟩,
    fun slot q hq P hP => ⟨(hl.queue slot q hq P hP).1, (hl.queue slot q hq P hP).2.mono hk⟩⟩

theorem forall_queue_set {R : ℕ → Problem → Prop} {repose : List (List Problem)} {i : ℕ}
    {new : List Problem} (hm : ∀ (slot : ℕ) (q : List Problem), repose[slot]? = some q → ∀ P ∈ q, R slot P)
    (hnew : ∀ P ∈ new, R i P) (slot : ℕ) (q : List Problem) (hq : (repose.set i new)[slot]? = some q) :
    ∀ P ∈ q, R slot P := by
  rw [List.getElem?_set] at hq
  split at hq
  · rename_i heq
    rw [Option.ite_none_right_eq_some] at hq
    rw [← heq, ← Option.some.inj hq.2]
    exact hnew
  · exact hm slot q hq

theorem slot_map (hP : B.pools[seq]? = some P) :
    B.pools[seq]?.map (·.slot) = some P.slot := by
  rw [hP]
  rfl

theorem idOf_eq_some (hP : B.pools[o.1]? = some P) (epoch : ℕ) :
    B.idOf cr c o epoch = some (problemId cr c.chainId P.root o.2.1 o.2.2 epoch) := by
  rw [Board.idOf, hP]
  rfl

theorem BoardStep.lineage {G : Board → Hash → Prop} {ds' : List (ℕ × ℕ)}
    (hb : BoardStep cr c h G B ds' B') (hn : Numbering B) (hs : Stocked c ds B)
    (hl : Lineage cr c B) : Lineage cr c B' := by
  have hk := hb.keeps hn hs
  obtain ⟨hrounds, hproblems, hqueue⟩ := hl.mono hk
  cases hb with
  | ended _ _ _ hr =>
    refine ⟨forall_insert hrounds ?_, forall_closeProblem hproblems fun _ _ hP => ?_, hqueue⟩
    · exact ⟨(hrounds _ _ hr).slot, (hrounds _ _ hr).problem⟩
    · exact ⟨hP.1, hP.2.epoch, hP.2.id, hP.2.slot, hP.2.origin⟩
  | dropped hold =>
    exact ⟨hrounds, hproblems, forall_queue_set hqueue fun P hP =>
      hqueue _ _ hold P (List.mem_cons_of_mem _ hP)⟩
  | @reposed slot waiting hslot _ _ old rest hold hepoch pool hpool id hid =>
    obtain ⟨hmine, ht⟩ := hqueue _ _ hold old List.mem_cons_self
    have hid' : B.idOf cr c old.origin (old.epoch + 1) = some id := by
      rw [hid]
      exact idOf_eq_some hpool _
    refine ⟨forall_insert hrounds ⟨?_, ?_⟩, forall_insert hproblems ⟨rfl, hepoch, hk.idOf hid', ht.slot,
      ht.origin⟩, forall_queue_set hqueue fun P hP => hqueue _ _ hold P (List.mem_cons_of_mem _ hP)⟩
    · rw [ht.slot, hmine]
    · rintro p hp
      rw [← Option.some.inj hp]
      exact ⟨old.epoch + 1, hepoch, hk.idOf hid'⟩
  | waits | pooled => exact ⟨hrounds, hproblems, hqueue⟩
  | drawn hslot _ _ hpool hmine =>
    refine ⟨forall_insert hrounds ⟨?_, ?_⟩, hproblems, hqueue⟩
    · exact hk.slot ((slot_map hpool).trans (congrArg some hmine))
    · exact fun p hp => nomatch hp
  | @posed key r hr _ pool hpool id hid =>
    have ht := hrounds _ _ hr
    have hid' : B.idOf cr c r.origin 0 = some id := by
      rw [hid]
      exact idOf_eq_some hpool _
    refine ⟨forall_insert hrounds ⟨ht.slot, fun p hp => ⟨0, Nat.two_pow_pos 32, ?_⟩⟩,
      forall_insert hproblems ⟨rfl, Nat.two_pow_pos 32, hk.idOf hid', ht.slot, ?_⟩, hqueue⟩
    · rw [← Option.some.inj hp]
      exact hk.idOf hid'
    · exact hk.origins ⟨key, by rw [hr]; rfl⟩
  | won hP | voided hP | shut hP =>
    obtain ⟨hid, ht⟩ := hproblems _ _ hP
    exact ⟨hrounds, forall_insert hproblems ⟨hid, ht.epoch, ht.id, ht.slot, ht.origin⟩, hqueue⟩
  | settled hP _ hr | freed hP _ hr =>
    obtain ⟨hid, ht⟩ := hproblems _ _ hP
    refine ⟨forall_insert hrounds ?_, forall_insert hproblems ⟨hid, ht.epoch, ht.id, ht.slot, ht.origin⟩,
      hqueue⟩
    exact ⟨(hrounds _ _ hr).slot, (hrounds _ _ hr).problem⟩
  | requeued _ hP hold =>
    refine ⟨hrounds, hproblems, forall_queue_set hqueue fun Q hQ => ?_⟩
    rcases List.mem_append.mp hQ with hQ | hQ
    · exact hqueue _ _ hold Q hQ
    · rw [List.mem_singleton.mp hQ]
      exact ⟨rfl, (hproblems _ _ hP).2⟩

end Lineage

/-! ## Digests that do not collide -/

/-- What the identities of problems from the origins of a board are digests of. -/
def Board.hashed (c : Config) (B : Board) : Set Bytes :=
  {x | ∃ o ∈ B.origins, ∃ epoch < 2 ^ 32, ∃ P : Pool, B.pools[o.1]? = some P ∧
    x = (problemInput c.chainId P.root o.2.1 o.2.2 epoch).flatten}

section Digests

variable {cr : Crypto} {c : Config} {B B' : Board}

theorem Keeps.hashed (hk : Keeps B B') : B.hashed c ⊆ B'.hashed c := by
  rintro x ⟨o, ho, epoch, hepoch, P, hP, rfl⟩
  obtain ⟨P', hP', hroot⟩ := hk.root hP
  exact ⟨o, hk.origins ho, epoch, hepoch, P', hP', by rw [hroot]⟩

theorem problemInput_inj {chain : ℕ} {root root' seed seed' : Hash} {index index' epoch epoch' : ℕ}
    (hindex : index < 2 ^ 32) (hindex' : index' < 2 ^ 32) (hepoch : epoch < 2 ^ 32)
    (hepoch' : epoch' < 2 ^ 32) (h : (problemInput chain root index seed epoch).flatten =
      (problemInput chain root' index' seed' epoch').flatten) :
    root = root' ∧ index = index' ∧ seed = seed' ∧ epoch = epoch' := by
  simp only [problemInput, List.flatten_cons, List.flatten_nil, List.append_nil] at h
  obtain ⟨hroot, h⟩ := List.append_inj (List.append_cancel_left (List.append_cancel_left h)) (by simp)
  obtain ⟨hleaf, h⟩ := List.append_inj h (by simp)
  obtain ⟨hseed, hlast⟩ := List.append_inj h (by simp)
  exact ⟨wordBytes_inj hroot, beBytes_inj hindex hindex' hleaf,
    wordBytes_inj hseed, beBytes_inj hepoch hepoch' hlast⟩

theorem Stocked.index_lt (hs : Stocked c ds B) (hmax : c.slotLeavesMax ≤ 2 ^ 20)
    (ho : o ∈ B.origins) : o.2.1 < 2 ^ 32 := by
  obtain ⟨key, hkey⟩ := ho
  obtain ⟨r, hr, rfl⟩ := Option.map_eq_some_iff.mp hkey
  have hleaf : r.leaf ∈ ds := (hs.rounds _).mpr ⟨key, r, hr, rfl⟩
  obtain ⟨P, hP⟩ := mem_iff_exists.mp (hs.known _ hleaf)
  have hdrawn : r.leafIndex ∈ drawnFrom r.poolSeq ds := by
    rw [drawnFrom, List.mem_map]
    exact ⟨r.leaf, List.mem_filter.mpr ⟨hleaf, decide_eq_true rfl⟩, rfl⟩
  have hlt := List.mem_range.mp ((hs.leaves _ P hP).subset (List.mem_append_right _ hdrawn))
  have hcount := hs.counts _ P hP
  exact hlt.trans_le (hcount.trans (hmax.trans (by norm_num)))

/-- **An identity tells its origin and its epoch.** -/
theorem origin_of_idOf (hinj : Set.InjOn cr.sha256 (B.hashed c)) (hs : Stocked c ds B)
    (hmax : c.slotLeavesMax ≤ 2 ^ 20) {o' : Origin} {epoch epoch' : ℕ} (ho : o ∈ B.origins)
    (ho' : o' ∈ B.origins) (hepoch : epoch < 2 ^ 32) (hepoch' : epoch' < 2 ^ 32) {p : Hash}
    (hp : B.idOf cr c o epoch = some p) (hp' : B.idOf cr c o' epoch' = some p) :
    o = o' ∧ epoch = epoch' := by
  obtain ⟨P, hP, hid⟩ := Option.map_eq_some_iff.mp hp
  obtain ⟨P', hP', hid'⟩ := Option.map_eq_some_iff.mp hp'
  have hinput := hinj ⟨o, ho, epoch, hepoch, P, hP, rfl⟩ ⟨o', ho', epoch', hepoch', P', hP', rfl⟩
    (hid.trans hid'.symm)
  obtain ⟨hroot, hindex, hseed, hepochs⟩ := problemInput_inj (hs.index_lt hmax ho) (hs.index_lt hmax ho')
    hepoch hepoch' hinput
  have hseq := hs.roots o.1 o'.1 P P' hP hP' hroot
  exact ⟨Prod.ext hseq (Prod.ext hindex hseed), hepochs⟩

end Digests

/-! ## Runs -/

/-- **What holds of the board of every run**, whatever the digests are. -/
structure Grounded (cr : Crypto) (c : Config) (ds : List (ℕ × ℕ)) (B : Board) : Prop where
  valid : c.Valid
  numbers : Numbering B
  stock : Stocked c ds B
  lineage : Lineage cr c B

section Runs

variable {cr : Crypto} {c : Config} {gas H : ℕ} {G : Board → Hash → Prop} {ds ds' : List (ℕ × ℕ)}
  {B B' : Board} {s : State} {run : List (StepInput × Step)}

theorem BoardStep.grounded (hb : BoardStep cr c h G B ds' B') (hg : Grounded cr c ds B) :
    Grounded cr c (ds ++ ds') B' :=
  ⟨hg.valid, hb.numbering hg.numbers, hb.stocked hg.numbers hg.stock,
    hb.lineage hg.numbers hg.stock hg.lineage⟩

theorem BoardRun.keeps (hr : BoardRun cr c H G B ds' B') (hg : Grounded cr c ds B) : Keeps B B' :=
  (hr.invariant (fun ds B₁ => Grounded cr c ds B₁ ∧ Keeps B B₁)
    (fun _ hI hb => ⟨hb.grounded hI.1, hI.2.trans (hb.keeps hI.1.numbers hI.1.stock)⟩)
    ⟨hg, fun _ _ h => h, fun _ _ h => h⟩).2

theorem BoardRun.grounded (hr : BoardRun cr c H G B ds' B') (hg : Grounded cr c ds B) :
    Grounded cr c (ds ++ ds') B' :=
  hr.invariant (Grounded cr c) (fun _ hg hb => hb.grounded hg) hg

/-- **The rule for invariants of a board without collisions.**  Digests that do not collide on the last
board have not done so on an earlier one. -/
theorem BoardRun.apart (I : Board → Prop)
    (hstep : ∀ {ds B h ds' B'}, h ≤ H → Grounded cr c ds B → Set.InjOn cr.sha256 (B'.hashed c) →
      I B → BoardStep cr c h G B ds' B' → I B')
    (hr : BoardRun cr c H G B ds' B') (hg : Grounded cr c ds B) (hB : I B)
    (hinj : Set.InjOn cr.sha256 (B'.hashed c)) : I B' := by
  have hrun := hr.invariant
    (fun ds B => Grounded cr c ds B ∧ (Set.InjOn cr.sha256 (B.hashed c) → I B))
    (fun hh hI hb => ⟨hb.grounded hI.1, fun hinj => ?_⟩) ⟨hg, fun _ => hB⟩
  · exact hrun.2 hinj
  · have hk := hb.keeps hI.1.numbers hI.1.stock
    exact hstep hh hI.1 hinj (hI.2 (hinj.mono hk.hashed)) hb

theorem new_grounded (hs : State.new cr c gas = .ok s) : Grounded cr c [] s.board := by
  refine ⟨State.new_valid hs, new_numbering hs, new_stocked hs, ?_⟩
  rw [State.new_eq_ok hs]
  refine ⟨by simp [State.board], by simp [State.board], fun slot q hq P hP => ?_⟩
  obtain ⟨_, -, rfl⟩ := List.mem_map.mp (List.mem_of_getElem? hq)
  cases hP

theorem Ran.grounded (hr : Ran cr c gas run s) : Grounded cr c (draws run) s.board := by
  obtain ⟨s₀, hs₀, hon⟩ := hr
  exact hon.board.2.grounded (new_grounded hs₀)

end Runs

/-- The toy digest keeps the epoch, so it does not collide while there is one origin. -/
theorem toy_injOn {c : Config} {s : State} (ho : ∀ x ∈ s.rounds.toList.map (·.2.origin), x = o) :
    Set.InjOn toyCrypto.sha256 (s.board.hashed c) := by
  have hone {o' : Origin} (ho' : o' ∈ s.board.origins) : o' = o := by
    obtain ⟨key, hkey⟩ := ho'
    obtain ⟨r, hr, rfl⟩ := Option.map_eq_some_iff.mp hkey
    exact ho _ (List.mem_map.mpr ⟨(key, r), mem_toList_iff.mpr hr, rfl⟩)
  rintro x ⟨o₁, ho₁, epoch, hepoch, P, hP, rfl⟩ y ⟨o₂, ho₂, epoch', hepoch', P', hP', rfl⟩ heq
  obtain rfl := hone ho₁
  obtain rfl := hone ho₂
  obtain rfl := Option.mem_unique hP hP'
  have hlast (epoch : ℕ) (hepoch : epoch < 2 ^ 32) : (toyCrypto.sha256
      (problemInput c.chainId P.root o₂.2.1 o₂.2.2 epoch).flatten).toNat % 2 ^ 32 = epoch := by
    have hmod := ofBytes_append_mod
      ((problemInput c.chainId P.root o₂.2.1 o₂.2.2 epoch).dropLast.flatten) (beBytes 4 epoch)
    rw [ofBytes_beBytes hepoch] at hmod
    refine Eq.trans ?_ hmod
    rw [toyCrypto, BitVec.toNat_ofNat]
    simp [problemInput]
  rw [← hlast epoch hepoch, heq, hlast epoch' hepoch']

end Derivation
