import Boole.Derivation.Effects

/-!
# Derivation/ItemEffects — what rounds, expiry and inbox items do to the state

The M2 half of a step, read backwards as in `Derivation/Effects`: the rounds of a slot
(`SlotStep`), the candidates that expire or are forgotten (`expire_candidates`, `purge_candidates`),
and one inbox item of each kind (`ItemStep`).
-/

open Std Library

namespace Derivation

variable {cr : Crypto} {c : Config} {h slot : ℕ} {mix : Hash} {k : Key} {v : Status}

namespace Draft

variable {d d' : Draft}

/-! ## Rounds -/

/-- **What can happen in a slot.** -/
inductive SlotStep (cr : Crypto) (c : Config) (h : ℕ) (mix : Hash) (slot : ℕ) (d : Draft) :
    Draft → Prop
  | same : SlotStep cr c h mix slot d d
  | ended {params : SlotParams} (hparams : c.slotTable[slot]? = some params) {active : Slot}
      (hslot : d.slots[slot]? = some active) {key : ℕ × ℕ} (hkey : active.active = some key)
      {r : Round} (hr : d.rounds[key]? = some r) {status : RoundStatus} {code : UInt8}
      (hend : roundEnd params h d.toState r = some (status, code)) :
      SlotStep cr c h mix slot d { d with
        rounds := d.rounds.insert key { r with status }
        problems := closeProblem d.problems r.problem h
        slots := d.slots.set slot
          { active with active := none, scheduled := checkedAdd 64 h params.announceGap }
        events := d.events ++ [.round slot key.2 code r.poolSeq r.leafIndex r.problem] }
  | dropped {waiting : Slot} (hslot : d.slots[slot]? = some waiting) {old : Problem}
      {rest : List Problem} (hqueue : d.repose[slot]? = some (old :: rest))
      (hepoch : 2 ^ 32 ≤ old.epoch + 1) :
      SlotStep cr c h mix slot d { d with repose := d.repose.set slot rest }
  | reposed {waiting : Slot} (hslot : d.slots[slot]? = some waiting)
      (hidle : waiting.active = none) {at? : ℕ} (hsched : waiting.scheduled = some at?)
      (hdue : at? < h) (hround : waiting.round + 1 < 2 ^ 32) {old : Problem} {rest : List Problem}
      (hqueue : d.repose[slot]? = some (old :: rest)) (hepoch : old.epoch + 1 < 2 ^ 32) {pool : Pool}
      (hpool : d.pools[old.poolSeq]? = some pool) {id : Hash}
      (hid : id = problemId cr c.chainId pool.root old.leafIndex old.instanceSeed (old.epoch + 1)) :
      SlotStep cr c h mix slot d { d with
        repose := d.repose.set slot rest
        problems := d.problems.insert id { old with
          id
          epoch := old.epoch + 1
          closed := none
          winner := none
          voided := false
          hV := h }
        rounds := d.rounds.insert (slot, waiting.round + 1)
          ⟨old.poolSeq, old.leafIndex, old.instanceSeed, h - 1, .opened, some id⟩
        slots := d.slots.set slot ⟨waiting.round + 1, none, some (slot, waiting.round + 1)⟩
        events := d.events ++
          [.round slot (waiting.round + 1) 0xc1 old.poolSeq old.leafIndex (some id)] }
  | waits {waiting : Slot} (hslot : d.slots[slot]? = some waiting) (hidle : waiting.active = none) :
      SlotStep cr c h mix slot d
        { d with slots := d.slots.set slot { waiting with scheduled := some h } }
  | drawn {waiting : Slot} (hslot : d.slots[slot]? = some waiting)
      (hidle : waiting.active = none) {at? : ℕ} (hsched : waiting.scheduled = some at?)
      (hdue : at? < h) (hround : waiting.round + 1 < 2 ^ 32) {seq : ℕ} {pool : Pool}
      (hpool : d.pools[seq]? = some pool) (hmine : pool.slot = slot) {index : ℕ}
      (hindex : index ∈ pool.unused) {seed : Hash}
      (hseed : seed = drawSeed cr c slot (waiting.round + 1) mix) :
      SlotStep cr c h mix slot d { d with
        pools := d.pools.insert seq { pool with unused := pool.unused.erase index }
        rounds := d.rounds.insert (slot, waiting.round + 1) ⟨seq, index, seed, h - 1, .drawn, none⟩
        slots := d.slots.set slot ⟨waiting.round + 1, none, some (slot, waiting.round + 1)⟩
        events := d.events ++ [.round slot (waiting.round + 1) 0xc1 seq index none] }

theorem endRound_step {params : SlotParams} (hparams : c.slotTable[slot]? = some params)
    {active : Slot} (hslot : d.slots[slot]? = some active) :
    SlotStep cr c h mix slot d (d.endRound params h slot active) := by
  unfold endRound
  split
  · exact .same
  · rename_i key hkey
    split
    · exact .same
    · rename_i r hr
      split
      · exact .same
      · rename_i status code hend
        exact .ended hparams hslot hkey hr hend

theorem pick_mem {l : List (ℕ × ℕ)} {j seq i : ℕ} (h : pick l j = some (seq, i)) :
    ∃ len, (seq, len) ∈ l ∧ i < len := by
  induction l generalizing j with
  | nil => exact nomatch h
  | cons e l ih =>
    obtain ⟨a, len⟩ := e
    rw [pick] at h
    split at h
    · obtain ⟨len', hmem, hlt⟩ := ih h
      exact ⟨len', List.mem_cons_of_mem _ hmem, hlt⟩
    · obtain ⟨rfl, rfl⟩ := Prod.mk.inj (Option.some.inj h)
      exact ⟨len, List.mem_cons_self, by omega⟩

theorem slot_of_pick {hd j seq i : ℕ} (h : pick (d.eligible slot hd) j = some (seq, i))
    {pool : Pool} (hpool : d.pools[seq]? = some pool) : pool.slot = slot := by
  obtain ⟨len, hmem, -⟩ := pick_mem h
  simp only [eligible, List.mem_map, List.mem_filter, decide_eq_true_eq] at hmem
  obtain ⟨⟨a, q⟩, ⟨hq, hslot, -⟩, heq⟩ := hmem
  obtain ⟨rfl, -⟩ := Prod.mk.inj heq
  rw [ExtTreeMap.mem_toList_iff_getElem?_eq_some, hpool] at hq
  rw [Option.some.inj hq, hslot]

theorem nextRound_eq_ok (hd : nextRound cr c d h slot mix = .ok d') :
    SlotStep cr c h mix slot d d' := by
  simp only [nextRound, bind_eq_ok, expect_eq_ok] at hd
  obtain ⟨waiting, hslot, hd⟩ := hd
  split_ifs at hd with hwait
  · obtain rfl := Except.ok.inj hd
    exact .same
  · obtain ⟨hactive, hscheduled⟩ := not_or.mp hwait
    have hidle : waiting.active = none := by simpa using hactive
    obtain ⟨at?, hsched, hdue⟩ : ∃ at?, waiting.scheduled = some at? ∧ at? < h := by
      cases hs : waiting.scheduled with
      | none => simp [hs] at hscheduled
      | some a => exact ⟨a, rfl, by simpa [hs] using hscheduled⟩
    split at hd
    · obtain rfl := Except.ok.inj hd
      exact .same
    · rename_i number hnumber
      obtain ⟨hround, rfl⟩ := checkedAdd_eq_some.mp hnumber
      rw [bind_eq_ok] at hd
      obtain ⟨queue, hqueue, hd⟩ := hd
      rw [expect_eq_ok] at hqueue
      split at hd
      · unfold reposeProblem at hd
        split at hd
        · rename_i hepoch
          obtain rfl := Except.ok.inj hd
          exact .dropped hslot hqueue (checkedAdd_eq_none.mp hepoch)
        · rename_i epoch hepoch
          obtain ⟨hlt, rfl⟩ := checkedAdd_eq_some.mp hepoch
          simp only [bind_eq_ok, expect_eq_ok, pure_eq_ok] at hd
          obtain ⟨pool, hpool, rfl⟩ := hd
          exact .reposed hslot hidle hsched hdue hround hqueue hlt hpool rfl
      · unfold draw at hd
        dsimp only at hd
        split at hd
        · obtain rfl := Except.ok.inj hd
          exact .waits hslot hidle
        · split at hd
          · obtain rfl := Except.ok.inj hd
            exact .waits hslot hidle
          · split at hd
            · obtain rfl := Except.ok.inj hd
              exact .same
            · rename_i seq j hpick
              simp only [drawLeaf, bind_eq_ok, expect_eq_ok] at hd
              obtain ⟨pool, hpool, hd⟩ := hd
              split at hd
              · obtain rfl := Except.ok.inj hd
                exact .same
              · rename_i index hindex
                obtain rfl := Except.ok.inj hd
                exact .drawn hslot hidle hsched hdue hround hpool (slot_of_pick hpick hpool)
                  (List.mem_of_getElem? hindex) rfl

/-- A slot at one height: its round may end, and then the next one may start. -/
theorem slotEvent_eq_ok (hd : slotEvent cr c h mix d slot = .ok d') :
    ∃ d₁, SlotStep cr c h mix slot d d₁ ∧ SlotStep cr c h mix slot d₁ d' := by
  simp only [slotEvent, bind_eq_ok, expect_eq_ok] at hd
  obtain ⟨params, hparams, active, hslot, hd⟩ := hd
  exact ⟨_, endRound_step hparams hslot, nextRound_eq_ok hd⟩

/-! ## Expiry and purge -/

/-- A candidate whose time to reveal is over. -/
def Overdue (c : Config) (h : ℕ) (s : State) (k : Key) : Prop :=
  ∃ l, s.candidates[k]? = some (.live l) ∧ (l.status = .committed ∨ l.status = .opened) ∧
    plus l.hC c.w < h

theorem mem_overdue {s : State} :
    (∃ x ∈ overdue c s h, x.key = k) ↔ Overdue c h s k := by
  simp only [overdue, (List.perm_insertionSort expiryLe _).mem_iff, List.mem_filterMap]
  constructor
  · rintro ⟨x, ⟨⟨a, b⟩, hmem, hx⟩, rfl⟩
    simp only [Option.bind_eq_bind, Option.bind_eq_some_iff] at hx
    obtain ⟨l, hl, hx⟩ := hx
    rw [Option.ite_none_right_eq_some] at hx
    obtain ⟨⟨hstatus, hlate⟩, hx⟩ := hx
    obtain rfl := Option.some.inj hx
    rw [ExtTreeMap.mem_toList_iff_getElem?_eq_some] at hmem
    cases b with
    | tombstone => exact nomatch hl
    | live l' =>
      obtain rfl : l' = l := Option.some.inj hl
      exact ⟨l', hmem, hstatus, hlate⟩
  · rintro ⟨l, hl, hstatus, hlate⟩
    refine ⟨⟨plus l.hC c.w, l.hC, l.t.getD 0, k⟩,
      ⟨(k, .live l), mem_toList_iff.mpr hl, ?_⟩, rfl⟩
    exact if_pos ⟨hstatus, hlate⟩

theorem expireCandidate_foldl (xs : List Expiry) (d : Draft) : ∃ cands,
    (∀ k, ((∃ x ∈ xs, x.key = k) → cands[k]? = some (.tombstone .expired)) ∧
      ((¬∃ x ∈ xs, x.key = k) → cands[k]? = d.candidates[k]?)) ∧
    xs.foldl expireCandidate d = { d with
      candidates := cands
      events := d.events ++ xs.map fun x => .status x.key .expired } := by
  induction xs generalizing d with
  | nil => exact ⟨d.candidates, by simp, by simp⟩
  | cons x xs ih =>
    obtain ⟨cands, hcands, heq⟩ := ih (expireCandidate d x)
    refine ⟨cands, fun k => ⟨?_, ?_⟩, ?_⟩
    · intro hk
      by_cases hrest : ∃ y ∈ xs, y.key = k
      · exact (hcands k).1 hrest
      · rw [(hcands k).2 hrest]
        obtain ⟨y, hy, rfl⟩ := hk
        rcases List.mem_cons.mp hy with rfl | hy
        · simp [expireCandidate, emit]
        · exact absurd ⟨y, hy, rfl⟩ hrest
    · intro hk
      have hrest : ¬∃ y ∈ xs, y.key = k := by
        rintro ⟨y, hy, hkey⟩
        exact hk ⟨y, List.mem_cons_of_mem _ hy, hkey⟩
      have hne : x.key ≠ k := fun h => hk ⟨x, List.mem_cons_self, h⟩
      rw [(hcands k).2 hrest]
      simp only [expireCandidate, emit, getElem?_insert, if_neg hne]
    · rw [List.foldl_cons, heq]
      simp [expireCandidate, emit]

/-- **Of a candidate that is overdue only a tombstone is left.** -/
theorem expire_eq (c : Config) (h : ℕ) (d : Draft) : ∃ cands evs,
    (∀ k, Overdue c h d.toState k → cands[k]? = some (.tombstone .expired)) ∧
    (∀ k, ¬Overdue c h d.toState k → cands[k]? = d.candidates[k]?) ∧
    (∀ e ∈ evs, ∃ k, e = .status k .expired) ∧
    d.expire c h = { d with candidates := cands, events := d.events ++ evs } := by
  obtain ⟨cands, hcands, heq⟩ := expireCandidate_foldl (overdue c d.toState h) d
  refine ⟨cands, _, fun k hk => (hcands k).1 (mem_overdue.mpr hk),
    fun k hk => (hcands k).2 (mt mem_overdue.mp hk), ?_, heq⟩
  intro e he
  obtain ⟨x, -, rfl⟩ := List.mem_map.mp he
  exact ⟨x.key, rfl⟩

/-- Whether the tombstones of a problem are forgotten at a height. -/
def Purges (c : Config) (h : ℕ) (P : Problem) : Prop :=
  (P.closed.bind fun v => (checkedAdd 64 v c.w).bind (checkedAdd 64 · 1)) = some h

/-- Some tombstones have been forgotten; nothing else has changed. -/
structure Forgets (G : Key → Prop) (d d' : Draft) : Prop where
  frame : d' = { d with candidates := d'.candidates, opened := d'.opened, events := d'.events }
  gone : ∀ k, G k → d'.candidates[k]? = none ∧ ∃ v, d.candidates[k]? = some (.tombstone v)
  kept : ∀ k, ¬G k → d'.candidates[k]? = d.candidates[k]?
  opened : ∀ ch, d'.opened[ch]? = d.opened[ch]? ∨
    d'.opened[ch]? = none ∧ ∃ k, d.opened[ch]? = some k ∧ k.2 = ch ∧ G k
  events : ∃ evs, d'.events = d.events ++ evs ∧ evs.filter Event.ledger = []

theorem Forgets.trans {G G' : Key → Prop} {d₁ d₂ d₃ : Draft} (h : Forgets G d₁ d₂)
    (h' : Forgets G' d₂ d₃) : Forgets (fun k => G k ∨ G' k) d₁ d₃ := by
  have hdisjoint (k : Key) (hk : G' k) : ¬G k := by
    intro hG
    obtain ⟨-, v, hv⟩ := h'.gone k hk
    rw [(h.gone k hG).1] at hv
    exact nomatch hv
  refine ⟨?_, ?_, ?_, ?_, ?_⟩
  · rw [h'.frame, h.frame]
  · rintro k (hk | hk)
    · refine ⟨?_, (h.gone k hk).2⟩
      by_cases hk' : G' k
      · exact (h'.gone k hk').1
      · rw [h'.kept k hk', (h.gone k hk).1]
    · obtain ⟨hnone, hv⟩ := h'.gone k hk
      rw [h.kept k (hdisjoint k hk)] at hv
      exact ⟨hnone, hv⟩
  · intro k hk
    obtain ⟨hk, hk'⟩ := not_or.mp hk
    rw [h'.kept k hk', h.kept k hk]
  · intro ch
    rcases h.opened ch with heq | ⟨hnone, k, hk, hch, hG⟩
    · rcases h'.opened ch with heq' | ⟨hnone', k, hk, hch, hG⟩
      · exact .inl (heq'.trans heq)
      · exact .inr ⟨hnone', k, heq ▸ hk, hch, .inr hG⟩
    · rcases h'.opened ch with heq' | ⟨hnone', -⟩
      · exact .inr ⟨heq'.trans hnone, k, hk, hch, .inl hG⟩
      · exact .inr ⟨hnone', k, hk, hch, .inl hG⟩
  · obtain ⟨evs, hevs, hledger⟩ := h.events
    obtain ⟨evs', hevs', hledger'⟩ := h'.events
    exact ⟨evs ++ evs', by rw [hevs', hevs, List.append_assoc],
      by rw [List.filter_append, hledger, hledger', List.append_nil]⟩

theorem Forgets.congr {G G' : Key → Prop} (h : Forgets G d d') (hG : ∀ k, G k ↔ G' k) :
    Forgets G' d d' := by
  obtain rfl : G = G' := funext fun k => propext (hG k)
  exact h

theorem forgets_refl (d : Draft) : Forgets (fun _ => False) d d :=
  ⟨rfl, by simp, by simp, fun _ => .inl rfl, [], by simp, rfl⟩

theorem purgeKey_forgets (hk : d.candidates[k]? = some (.tombstone v)) :
    Forgets (· = k) d (d.purgeKey k) := by
  refine ⟨rfl, ?_, ?_, ?_, [], by simp [purgeKey], rfl⟩
  · rintro a rfl
    exact ⟨by simp [purgeKey], v, hk⟩
  · intro a ha
    simp only [purgeKey, getElem?_erase, if_neg (Ne.symm ha)]
  · intro ch
    simp only [purgeKey]
    split_ifs with hopened
    · rw [getElem?_erase]
      split_ifs with heq
      · subst heq
        exact .inr ⟨rfl, k, hopened, rfl, rfl⟩
      · exact .inl rfl
    · exact .inl rfl

theorem purgeKey_foldl {keys : List Key} (hnodup : keys.Nodup)
    (hkeys : ∀ k ∈ keys, ∃ v, d.candidates[k]? = some (.tombstone v)) :
    Forgets (· ∈ keys) d (keys.foldl purgeKey d) := by
  induction keys generalizing d with
  | nil => exact (forgets_refl d).congr (by simp)
  | cons k keys ih =>
    obtain ⟨hk, hnodup⟩ := List.nodup_cons.mp hnodup
    obtain ⟨v, hv⟩ := hkeys k List.mem_cons_self
    have hfirst := purgeKey_forgets hv
    have hrest := ih hnodup (d := d.purgeKey k) fun a ha => by
      rw [hfirst.kept a (fun h => hk (h ▸ ha))]
      exact hkeys a (List.mem_cons_of_mem _ ha)
    exact (hfirst.trans hrest).congr (by simp)

theorem mem_tombstones {s : State} {p : Hash} :
    k ∈ tombstones s p ↔ k.1 = p ∧ ∃ v, s.candidates[k]? = some (.tombstone v) := by
  simp only [tombstones, List.mem_map, List.mem_filter, decide_eq_true_eq]
  constructor
  · rintro ⟨⟨a, b⟩, ⟨hb, rfl, hlive⟩, rfl⟩
    rw [ExtTreeMap.mem_toList_iff_getElem?_eq_some] at hb
    cases b with
    | live l => exact nomatch hlive
    | tombstone v => exact ⟨rfl, v, hb⟩
  · rintro ⟨rfl, v, hv⟩
    exact ⟨(k, .tombstone v), ⟨mem_toList_iff.mpr hv, rfl, rfl⟩, rfl⟩

theorem nodup_tombstones (s : State) (p : Hash) : (tombstones s p).Nodup :=
  (List.filter_sublist.map Prod.fst).nodup (nodup_fst_toList _)

theorem purgeProblem_forgets (c : Config) (h : ℕ) (d : Draft) (P : Problem) : ∃ G,
    Forgets G d (d.purgeProblem c h P) ∧ ∀ k, G k → P.id = k.1 ∧ Purges c h P := by
  unfold purgeProblem
  split_ifs with hpurges
  · refine ⟨(· ∈ tombstones d.toState P.id), ?_, fun k hk =>
      ⟨(mem_tombstones.mp hk).1.symm, hpurges⟩⟩
    have hf := purgeKey_foldl (nodup_tombstones d.toState P.id)
      fun k hk => (mem_tombstones.mp hk).2
    obtain ⟨evs, hevs, hledger⟩ := hf.events
    refine ⟨?_, hf.gone, hf.kept, hf.opened,
      evs ++ [.purge P.id (min (tombstones d.toState P.id).length (2 ^ 32 - 1))], ?_, ?_⟩
    · dsimp only
      conv_lhs => rw [hf.frame]
      rfl
    · simp only [emit, hevs, List.append_assoc]
    · rw [List.filter_append, hledger]
      rfl
  · exact ⟨fun _ => False, forgets_refl d, by simp⟩

/-- **Purging forgets tombstones of problems that were closed long enough ago.** -/
theorem purge_forgets (c : Config) (h : ℕ) (d : Draft) : ∃ G, Forgets G d (d.purge c h) ∧
    ∀ k, G k → ∃ (id : Hash) (P : Problem), d.problems[id]? = some P ∧ P.id = k.1 ∧
      Purges c h P := by
  have hloop (Ps : List Problem) (d : Draft) : ∃ G, Forgets G d (Ps.foldl (purgeProblem c h) d) ∧
      ∀ k, G k → ∃ P ∈ Ps, P.id = k.1 ∧ Purges c h P := by
    induction Ps generalizing d with
    | nil => exact ⟨fun _ => False, forgets_refl d, by simp⟩
    | cons P Ps ih =>
      obtain ⟨G, hG, hP⟩ := purgeProblem_forgets c h d P
      obtain ⟨G', hG', hPs⟩ := ih (d.purgeProblem c h P)
      refine ⟨_, hG.trans hG', ?_⟩
      rintro k (hk | hk)
      · exact ⟨P, List.mem_cons_self, hP k hk⟩
      · obtain ⟨Q, hQ, hk⟩ := hPs k hk
        exact ⟨Q, List.mem_cons_of_mem _ hQ, hk⟩
  obtain ⟨G, hG, hP⟩ := hloop (d.problems.toList.map (·.2)) d
  refine ⟨G, hG, fun k hk => ?_⟩
  obtain ⟨P, hmem, hk⟩ := hP k hk
  obtain ⟨⟨id, P⟩, hentry, rfl⟩ := List.mem_map.mp hmem
  exact ⟨id, P, mem_toList_iff.mp hentry, hk⟩

/-! ## Items -/

/-- A PART that is accepted: it belongs to an OPEN, its place is still free, and its path leads to
the root that was frozen. -/
structure PartAccepted (cr : Crypto) (s : State) (x : Input) (b : PartBody) (key : Key)
    (l : LiveCandidate) (o : OpenRecord) (path : List Hash) (data : Bytes)
    (bitmap : List (BitVec 64)) : Prop where
  kind : x.kind = 4
  body : decodeBody 1 partBody x.body = some b
  opened : s.opened[b.ch]? = some key
  candidate : s.candidates[key]? = some (.live l)
  status : l.status = .committed ∨ l.status = .opened
  record : l.open? = some o
  index : b.index < o.n
  tail : (hashes (depth o.n)).run b.tail = some (path, data)
  length : expectedLen o b.index = some data.length
  verified : verify cr (partLeaf cr o.solver o.salt b.index data) b.index path o.dataRoot = true
  fresh : ∃ word, o.bitmap[b.index / 64]? = some word ∧ word.getLsbD (b.index % 64) = false ∧
    bitmap = o.bitmap.set (b.index / 64) (word ||| BitVec.twoPow 64 (b.index % 64))

/-- **What an item does to the state, and the code for it.** -/
inductive ItemStep (cr : Crypto) (c : Config) (h : ℕ) (s : State) (x : Input) (accepted : ℕ) :
    State → UInt8 → Prop
  | refused {code : UInt8} (hcode : code.toNat < 0x80) : ItemStep cr c h s x accepted s code
  | commit {b : CommitBody} (hkind : x.kind = 2) (hbody : decodeBody 1 commitBody x.body = some b)
      {P : Problem} (hP : s.problems[b.p]? = some P) (hlate : P.hV < h) (hopen : P.closed = none)
      {params : SlotParams} (hparams : c.slotTable[P.slot]? = some params)
      (hwindow : h ≤ plus P.hV params.solveDeadline) (hnew : (b.p, b.ch) ∉ s.candidates)
      (hcap : accepted < c.cCommit) :
      ItemStep cr c h s x accepted { s with
        candidates := s.candidates.insert (b.p, b.ch)
          (.live ⟨h, x.transactionIndex, x.logIndex, none, b.poster, .committed, none⟩) } 0x80
  | opened {o : ParsedOpen} (hkind : x.kind = 3) (hparse : parseOpen cr c x.body = .ok o) {key : Key}
      (hkey : key = (o.problem, commitHash cr c.chainId o.problem o.cancel o.record.bodyDigest))
      {l : LiveCandidate} (hl : s.candidates[key]? = some (.live l)) (hstatus : l.status = .committed)
      {P : Problem} (hP : s.problems[o.problem]? = some P) (hpkgs : P.requiredPkgs ⊆ o.packages)
      {params : SlotParams} (hparams : c.slotTable[P.slot]? = some params)
      (hlane : o.exportFormat = params.lane) (hfrom : plus l.hC c.d ≤ h)
      (huntil : h ≤ plus l.hC c.w) :
      ItemStep cr c h s x accepted { s with
        candidates := s.candidates.insert key (.live { l with
          open? := some { o.record with hO := h, openPos := (h, x.transactionIndex, x.logIndex) }
          status := .opened })
        opened := s.opened.insert key.2 key } 0x81
  | part {b : PartBody} {key : Key} {l : LiveCandidate} {o : OpenRecord} {path : List Hash}
      {data : Bytes} {bitmap : List (BitVec 64)}
      (hpart : PartAccepted cr s x b key l o path data bitmap) (hmore : countOnes bitmap ≠ o.n) :
      ItemStep cr c h s x accepted { s with
        candidates := s.candidates.insert key (.live { l with open? := some { o with bitmap } }) } 0x82
  | last {b : PartBody} {key : Key} {l : LiveCandidate} {o : OpenRecord} {path : List Hash}
      {data : Bytes} {bitmap : List (BitVec 64)}
      (hpart : PartAccepted cr s x b key l o path data bitmap) (hall : countOnes bitmap = o.n) :
      ItemStep cr c h s x accepted { s with
        candidates := s.candidates.insert key (.live { l with
          status := .checking
          open? := some { o with
            bitmap
            hR := some h
            donePos := some (h, x.transactionIndex, x.logIndex) } }) } 0x83
  | cancelled {b : CancelBody} (hkind : x.kind = 7)
      (hbody : decodeBody 1 cancelBody x.body = some b)
      (hhash : commitHash cr c.chainId b.p (cancelHash cr b.secret) b.bd = b.ch) {v : Status}
      (hv : s.statusOf (b.p, b.ch) = some v) (hstatus : v = .committed ∨ v = .opened) :
      ItemStep cr c h s x accepted { s with
        candidates := s.candidates.insert (b.p, b.ch) (.tombstone .cancelled) } 0x84
  | pool {b : PoolBody} (hkind : x.kind = 8) (hbody : decodeBody 2 poolBody x.body = some b)
      (hslot : b.slot < c.slotTable.length)
      (hleaves : ((unusedLeaves s b.slot).bind (checkedAdd 64 · b.count)).any (· ≤ c.slotLeavesMax))
      (hseq : checkedAdd 32 ((s.pools.toList.getLast?.map (·.1)).getD 0) 1 = some b.seq)
      (hcount : b.count ≠ 0) (hmax : b.count ≤ c.poolMax)
      (hroot : ∀ e ∈ s.pools.toList, e.2.root ≠ b.root) {slot : Slot}
      (hslot' : s.slots[b.slot]? = some slot) :
      ItemStep cr c h s x accepted { s with
        pools := s.pools.insert b.seq ⟨b.slot, b.root, b.start, b.count, List.range b.count⟩
        slots := s.slots.set b.slot (scheduleSlot slot b.start) } 0x85
  | problem {b : ProblemBody} (hkind : x.kind = 9) (hbody : decodeBody 2 problemBody x.body = some b)
      {r : Round} (hr : s.rounds[(b.slot, b.round)]? = some r) (hindex : r.leafIndex = b.index)
      (hdrawn : r.status = .drawn) (hreq : b.req ⊆ c.pkgTable) {pool : Pool}
      (hpool : s.pools[r.poolSeq]? = some pool) (hdepth : b.path.length = depth pool.count)
      (hverify : verify cr (poolLeaf cr c.chainId b.kind b.req b.codec b.rawLen b.package b.salt)
        b.index b.path pool.root = true) {id : Hash}
      (hid : id = problemId cr c.chainId pool.root b.index r.instanceSeed 0) :
      ItemStep cr c h s x accepted { s with
        rounds := s.rounds.insert (b.slot, b.round) { r with status := .opened, problem := some id }
        problems := s.problems.insert id ⟨(h, x.transactionIndex, x.logIndex), none, false, b.slot, id,
          b.req, h, none, r.poolSeq, b.index, r.instanceSeed, 0⟩ } 0x86

/-- A refusal that stops the program, or has a code below the codes of what is accepted. -/
def low : Refused → Bool
  | .code c => c.toNat < 0x80
  | .panicked => true

theorem openRefusal_low (v : Status) : low (.code ((openRefusal v).getD 0)) = true := by
  cases v <;> rfl

theorem partRefusal_low (v : Status) : low (.code ((partRefusal v).getD 0)) = true := by
  cases v <;> rfl

theorem cancelRefusal_low (v : Status) : low (.code ((cancelRefusal v).getD 0)) = true := by
  cases v <;> rfl

theorem problemRefusal_low (v : RoundStatus) :
    low (.code ((problemRefusal v).getD 0)) = true := by
  cases v <;> rfl

theorem handle_low (cr : Crypto) (c : Config) (h : ℕ) (s : State) (x : Input) (accepted : ℕ) :
    Throws (low · = true) (handle cr c h s x accepted) := by
  have hcode (v : UInt8) : low (.code v) = decide (v.toNat < 0x80) := rfl
  have hstop : low .panicked = true := rfl
  simp only [handle, commit, openItem, partItem, cancel, pool, problem, parseOpen, throws_ite,
    throws_bind, throws_okOr, throws_ensure, throws_pure, throws_error, openRefusal_low,
    partRefusal_low, cancelRefusal_low, problemRefusal_low, hstop]
  simp only [hcode, UInt8.reduceToNat, Nat.reduceLT, decide_true, implies_true, and_self]

section Item

variable {cr : Crypto} {c : Config} {h : ℕ} {s s' : State} {x : Input} {accepted : ℕ} {code : UInt8}

theorem openRefusal_eq_none (hv : openRefusal v = none) : v = .committed := by
  cases v <;> first | rfl | exact nomatch hv

theorem partRefusal_eq_none (hv : partRefusal v = none) :
    v = .committed ∨ v = .opened := by
  cases v <;> first | exact .inl rfl | exact .inr rfl | exact nomatch hv

theorem cancelRefusal_eq_none (hv : cancelRefusal v = none) :
    v = .committed ∨ v = .opened := by
  cases v <;> first | exact .inl rfl | exact .inr rfl | exact nomatch hv

theorem problemRefusal_eq_none {v : RoundStatus} (hv : problemRefusal v = none) : v = .drawn := by
  cases v <;> first | rfl | exact nomatch hv

theorem live?_eq_some {k : Candidate} {l : LiveCandidate} (hl : k.live? = some l) : k = .live l := by
  cases k with
  | live l' => rw [Option.some.inj hl]
  | tombstone v => exact nomatch hl

theorem commit_step (hkind : x.kind = 2) (hs : commit c h s x accepted = .ok (s', code)) :
    ItemStep cr c h s x accepted s' code := by
  simp only [commit, bind_eq_ok, okOr_eq_ok, ensure_eq_ok] at hs
  obtain ⟨b, hbody, P, hP, _, hlate, _, hopen, params, hparams, _, hwindow, _, hnew, _, hcap, rfl,
    rfl⟩ := hs
  exact .commit hkind hbody hP hlate hopen hparams hwindow hnew hcap

theorem openItem_step (hkind : x.kind = 3) (hs : openItem cr c h s x = .ok (s', code)) :
    ItemStep cr c h s x accepted s' code := by
  simp only [openItem, bind_eq_ok, okOr_eq_ok, ensure_eq_ok] at hs
  obtain ⟨o, hparse, k, hk, _, hstatus, l, hl, P, hP, _, hpkgs, params, hparams, _, hlane, _,
    ⟨hfrom, huntil⟩, rfl, rfl⟩ := hs
  obtain rfl := live?_eq_some hl
  exact .opened hkind hparse rfl hk (openRefusal_eq_none hstatus) hP hpkgs hparams hlane hfrom huntil

theorem partItem_step (hkind : x.kind = 4) (hs : partItem cr h s x = .ok (s', code)) :
    ItemStep cr c h s x accepted s' code := by
  simp only [partItem, bind_eq_ok, okOr_eq_ok, ensure_eq_ok] at hs
  obtain ⟨b, hbody, key, hkey, k, hk, _, hstatus, l, hl, o, ho, _, hindex, ⟨path, data⟩, htail, _,
    ⟨hlen, hverify⟩, word, hword, _, hbit, rfl, rfl⟩ := hs
  obtain rfl := live?_eq_some hl
  have hpart : PartAccepted cr s x b key l o path data
      (o.bitmap.set (b.index / 64) (word ||| BitVec.twoPow 64 (b.index % 64))) :=
    ⟨hkind, hbody, hkey, hk, partRefusal_eq_none hstatus, ho, hindex, htail, hlen, hverify, word,
      hword, hbit, rfl⟩
  unfold recordPart
  split_ifs with hall
  · exact .last hpart hall
  · exact .part hpart hall

theorem cancel_step (hkind : x.kind = 7) (hs : cancel cr c s x = .ok (s', code)) :
    ItemStep cr c h s x accepted s' code := by
  simp only [cancel, bind_eq_ok, okOr_eq_ok, ensure_eq_ok] at hs
  obtain ⟨b, hbody, _, hhash, k, hk, _, hstatus, rfl, rfl⟩ := hs
  exact .cancelled hkind hbody hhash (by rw [State.statusOf, hk]; rfl)
    (cancelRefusal_eq_none hstatus)

theorem pool_step (hkind : x.kind = 8) (hs : pool cr c h s x.body = .ok (s', code)) :
    ItemStep cr c h s x accepted s' code := by
  simp only [pool, bind_eq_ok, okOr_eq_ok, ensure_eq_ok] at hs
  obtain ⟨b, hbody, _, -, _, ⟨hslot, hleaves, hseq, hcount, hmax, -⟩, _, hroot, slot, hslot', rfl,
    rfl⟩ := hs
  exact .pool hkind hbody hslot hleaves hseq hcount hmax hroot hslot'

theorem problem_step (hkind : x.kind = 9) (hs : problem cr c h s x = .ok (s', code)) :
    ItemStep cr c h s x accepted s' code := by
  simp only [problem, bind_eq_ok, okOr_eq_ok, ensure_eq_ok] at hs
  obtain ⟨b, hbody, r, hr, _, hindex, _, hstatus, _, ⟨-, -, -, -, -, -, hreq⟩, pool, hpool, _,
    ⟨hdepth, hverify⟩, rfl, rfl⟩ := hs
  exact .problem hkind hbody hr hindex (problemRefusal_eq_none hstatus) hreq hpool hdepth hverify rfl

theorem item_eq_ok (hs : item cr c h s x accepted = .ok (s', code)) :
    ItemStep cr c h s x accepted s' code := by
  unfold item at hs
  split at hs
  · rename_i r hr
    obtain rfl := Except.ok.inj hs
    unfold handle at hr
    split_ifs at hr with h₂ h₃ h₄ h₇ h₈ h₉
    · exact commit_step h₂ hr
    · exact openItem_step h₃ hr
    · exact partItem_step h₄ hr
    · exact cancel_step h₇ hr
    · exact pool_step h₈ hr
    · exact problem_step h₉ hr
  · rename_i low hlow
    obtain ⟨rfl, rfl⟩ := Prod.mk.inj (Except.ok.inj hs)
    exact .refused (by simpa [Draft.low] using handle_low cr c h s x accepted _ hlow)
  · exact nomatch hs

/-- The hash that the completion reads is the one of the PART. -/
theorem word_of_part {b : PartBody} (hbody : decodeBody 1 partBody x.body = some b) :
    ∃ r, (Reader.word 256).run (x.body.drop 21) = some (b.ch, r) := by
  unfold decodeBody at hbody
  split at hbody
  · exact nomatch hbody
  · rename_i v rest hx
    split at hbody
    · simp only [Reader.all_eq_some, partBody, Reader.bind_eq_some,
        Reader.word_eq_some (n := 20) rfl, Reader.word_eq_some (n := 32) rfl] at hbody
      obtain ⟨poster, _, rfl, ch, r, rfl, index, _, -, tail, _, -, rfl, -⟩ := hbody
      refine ⟨r, (Reader.word_eq_some (n := 32) rfl).mpr ?_⟩
      have hlen : (wordBytes poster).length = 20 := length_beBytes _ _
      rw [hx]
      exact List.drop_left' hlen
    · exact nomatch hbody

/-- **What an item does to the draft.**  With the M3 profile the candidate whose last part it
brought is queued for a verdict. -/
inductive ItemDraft (cr : Crypto) (c : Config) (h : ℕ) (d : Draft) (x : Input) (accepted : ℕ) :
    Draft → UInt8 → Prop
  | plain {s : State} {code : UInt8} (hs : ItemStep cr c h d.toState x accepted s code)
      (hcode : code = 0x83 → c.m3 = none) {evs : List Event}
      (hevs : evs.filter Event.ledger = []) :
      ItemDraft cr c h d x accepted { s with events := d.events ++ evs } code
  | completed {b : PartBody} {key : Key} {l : LiveCandidate} {o : OpenRecord} {path : List Hash}
      {data : Bytes} {bitmap : List (BitVec 64)}
      (hpart : PartAccepted cr d.toState x b key l o path data bitmap)
      (hall : countOnes bitmap = o.n) {l' : LiveCandidate}
      (hl' : l' = { l with
        status := .checking
        open? := some { o with
          bitmap
          hR := some h
          donePos := some (h, x.transactionIndex, x.logIndex) } })
      {evs : List Event} (hevs : evs.filter Event.ledger = []) {d' : Draft}
      (hd' : Completes key h { d with
        candidates := d.candidates.insert key (.live l')
        events := d.events ++ evs } l' d') :
      ItemDraft cr c h d x accepted d' 0x83

theorem foldItem_eq_ok {acc acc' : Inbox} (ha : foldItem cr c h acc x = .ok acc') :
    ∃ code, ItemDraft cr c h acc.draft x acc.accepted acc'.draft code ∧
      acc'.codes = acc.codes ++ [code] ∧
      acc'.accepted = if code = 0x80 then acc.accepted + 1 else acc.accepted := by
  simp only [foldItem, bind_eq_ok, pure_eq_ok] at ha
  obtain ⟨⟨s, code⟩, hitem, draft, hdraft, rfl⟩ := ha
  refine ⟨code, ?_, rfl, rfl⟩
  have hstep := item_eq_ok hitem
  obtain ⟨evs, hevs, htold⟩ : ∃ evs : List Event, evs.filter Event.ledger = [] ∧
      (if 2 ≤ x.kind ∧ x.kind ≤ 15 then
        emit { acc.draft with toState := s } (.item x.transactionIndex x.logIndex x.kind code)
        else { acc.draft with toState := s }) = { s with events := acc.draft.events ++ evs } := by
    split
    · exact ⟨[_], rfl, rfl⟩
    · exact ⟨[], rfl, by simp⟩
  rw [htold] at hdraft
  unfold completePart at hdraft
  split_ifs at hdraft with hdone
  · obtain ⟨rfl, hm3⟩ := hdone
    cases hstep with
    | refused hcode => simp at hcode
    | last hpart hall =>
      simp only [bind_eq_ok, expect_eq_ok] at hdraft
      obtain ⟨⟨ch, r⟩, hch, key, hkey, hd⟩ := hdraft
      obtain ⟨r', hch'⟩ := word_of_part hpart.body
      obtain ⟨rfl, rfl⟩ := Prod.mk.inj (Option.mem_unique hch' hch)
      obtain rfl := Option.mem_unique hpart.opened hkey
      exact .completed hpart hall rfl hevs (complete_eq_ok hd (by rw [getElem?_insert, if_pos rfl]))
  · obtain rfl := Except.ok.inj hdraft
    refine .plain hstep (fun hcode => ?_) hevs
    simpa [hcode] using hdone

end Item

end Draft

end Derivation
