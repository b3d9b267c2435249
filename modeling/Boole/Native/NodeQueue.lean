import Boole.Native.Node
import Boole.Native.Template

/-!
# Native/NodeQueue — the queue of pending transfers and the index of confirmed ones

What a node derives from its chain and its pool.  **Filtering is idempotent**
(`retainPending_self`): a queue in order (`PendingState.Queued`) passes its own filter unchanged,
and so it does behind transfers that are confirmed (`retainPending_append`).  The index of a
reorganised chain can be had from the old one (`NativeChain.Sound.reindex`), because no id occurs
twice on a chain.
-/

open Std Library Library.Json

namespace Native

open PendingState NativeTransfer

/-! ## Reservations -/

variable (cr : Crypto)

def pushTransfer (view : NativePendingView) (transfer : NativeTransfer) :
    Except String NativePendingView := do
  let envelope ← transfer.envelope
  mapErr NativeLedgerError.message (view.push cr envelope)

/-- The pending view after reserving for transfers in order. -/
def reserve (ledger : NativeLedger) (transfers : List NativeTransfer) :
    Except String NativePendingView := do
  let view ← mapErr NativeLedgerError.message ledger.pendingView
  transfers.foldlM (pushTransfer cr) view

theorem reserve_snoc {cr : Crypto} {ledger : NativeLedger} {ts : List NativeTransfer}
    {t : NativeTransfer} {v v' : NativePendingView} (h : reserve cr ledger ts = .ok v)
    (ht : pushTransfer cr v t = .ok v') : reserve cr ledger (ts ++ [t]) = .ok v' := by
  obtain ⟨v₀, h₀, hfold⟩ := bind_eq_ok.mp h
  rw [reserve, h₀, ok_bind, List.foldlM_append, hfold, ok_bind, List.foldlM_cons, ht]
  rfl

theorem foldlM_pushTransfer {cr : Crypto} {ts : List NativeTransfer} {v v' : NativePendingView}
    (h : ts.foldlM (pushTransfer cr) v = .ok v') : ∃ es : List SignedEnvelope,
      ts.map envelope = es.map .ok ∧
        es.foldlM (NativePendingView.push cr) v = .ok v' := by
  induction ts generalizing v with
  | nil =>
    obtain rfl : v = v' := by simpa using h
    exact ⟨[], rfl, rfl⟩
  | cons t ts ih =>
    obtain ⟨v₁, h₁, hrest⟩ := bind_eq_ok.mp h
    simp only [pushTransfer, bind_eq_ok, mapErr_eq_ok] at h₁
    obtain ⟨e, he, hpush⟩ := h₁
    obtain ⟨es, hes, hfold⟩ := ih hrest
    refine ⟨e :: es, by rw [List.map_cons, he, hes, List.map_cons], ?_⟩
    rw [List.foldlM_cons, hpush, ok_bind, hfold]

/-! ## The queue -/

namespace PendingState

/-- **A queue in order:** its ids are the ids of its transfers, which are distinct, few enough and
unconfirmed, and its view is what they reserve. -/
structure Queued (cr : Crypto) (ledger : NativeLedger) (confirmed : ExtTreeMap Hex32 ℕ)
    (p : PendingState) : Prop where
  ids : ∀ id, id ∈ p.ids ↔ id ∈ p.transfers.map (NativeTransfer.id cr)
  nodup : (p.transfers.map (NativeTransfer.id cr)).Nodup
  count : p.transfers.length ≤ maxNativePendingTransfers
  fresh : ∀ t ∈ p.transfers, t.id cr ∉ confirmed
  view : reserve cr ledger p.transfers = .ok p.view

variable {cr : Crypto} {ledger : NativeLedger} {confirmed : ExtTreeMap Hex32 ℕ}
  {p p' : PendingState} {t : NativeTransfer} {v : NativePendingView}

theorem mem_ids_add (id : Hex32) : id ∈ (p.add cr t v).ids ↔ t.id cr = id ∨ id ∈ p.ids := by
  rw [add, ExtTreeSet.mem_insert, LawfulEqCmp.compare_eq_iff_eq]

theorem Queued.add (h : p.Queued cr ledger confirmed) (hconf : t.id cr ∉ confirmed)
    (hids : t.id cr ∉ p.ids) (hcount : p.transfers.length < maxNativePendingTransfers)
    (hpush : pushTransfer cr p.view t = .ok v) : (p.add cr t v).Queued cr ledger confirmed := by
  refine ⟨fun id => ?_, ?_, ?_, fun t' ht' => ?_, reserve_snoc h.view hpush⟩
  · rw [mem_ids_add, h.ids id]
    simp [PendingState.add, or_comm, eq_comm]
  · rw [PendingState.add, List.map_append, List.nodup_append_comm]
    exact List.nodup_cons.mpr ⟨fun hmem => hids ((h.ids _).mpr hmem), h.nodup⟩
  · rw [PendingState.add, List.length_append]
    exact hcount
  · rw [PendingState.add, List.mem_append, List.mem_singleton] at ht'
    rcases ht' with ht' | rfl
    · exact h.fresh t' ht'
    · exact hconf

/-- What one turn of the filter does. -/
theorem retain_eq_ok (h : p.retain cr confirmed t = .ok p') : p' = p ∨
    t.id cr ∉ confirmed ∧ t.id cr ∉ p.ids ∧ p.transfers.length ≠ maxNativePendingTransfers ∧
      ∃ v, pushTransfer cr p.view t = .ok v ∧ p' = p.add cr t v := by
  unfold retain at h
  split_ifs at h with hskip
  · exact .inl (Except.ok.inj h).symm
  · rw [not_or, not_or] at hskip
    simp only [offer, bind_eq_ok] at h
    obtain ⟨e, he, h⟩ := h
    split at h
    · rename_i v hv
      refine .inr ⟨hskip.1, hskip.2.1, hskip.2.2, v, ?_, (Except.ok.inj h).symm⟩
      rw [pushTransfer, he, ok_bind, hv]
      rfl
    · exact .inl (Except.ok.inj h).symm

theorem Queued.retain (h : p.Queued cr ledger confirmed) (hr : p.retain cr confirmed t = .ok p') :
    p'.Queued cr ledger confirmed := by
  rcases retain_eq_ok hr with rfl | ⟨hconf, hids, hne, v, hpush, rfl⟩
  · exact h
  · exact h.add hconf hids (Nat.lt_of_le_of_ne h.count hne) hpush

theorem queued_empty (hv : mapErr NativeLedgerError.message ledger.pendingView = .ok v) :
    Queued cr ledger confirmed { transfers := [], ids := ∅, view := v } := by
  refine ⟨fun id => by simp, List.nodup_nil, Nat.zero_le _, fun t ht => by simp at ht, ?_⟩
  rw [reserve, hv]
  rfl

/-- A transfer that is new, unconfirmed and affordable is kept. -/
theorem retain_of_push (hconf : t.id cr ∉ confirmed) (hids : t.id cr ∉ p.ids)
    (hcount : p.transfers.length ≠ maxNativePendingTransfers)
    (hpush : pushTransfer cr p.view t = .ok v) :
    p.retain cr confirmed t = .ok (p.add cr t v) := by
  simp only [pushTransfer, bind_eq_ok, mapErr_eq_ok] at hpush
  obtain ⟨e, he, hv⟩ := hpush
  have hkeep : ¬(t.id cr ∈ confirmed ∨ t.id cr ∈ p.ids ∨
      p.transfers.length = maxNativePendingTransfers) := by
    rintro (h | h | h)
    exacts [hconf h, hids h, hcount h]
  rw [retain, if_neg hkeep, offer, he, ok_bind, hv]
  rfl

/-- Transfers that can all be reserved are all kept, in order. -/
theorem foldlM_retain {ts : List NativeTransfer} {q : PendingState} {v : NativePendingView}
    (hconf : ∀ t ∈ ts, t.id cr ∉ confirmed) (hids : ∀ t ∈ ts, t.id cr ∉ q.ids)
    (hnodup : (ts.map (id cr)).Nodup)
    (hcount : q.transfers.length + ts.length ≤ maxNativePendingTransfers)
    (hpush : ts.foldlM (pushTransfer cr) q.view = .ok v) :
    ∃ p, ts.foldlM (retain cr confirmed) q = .ok p ∧
      p.transfers = q.transfers ++ ts ∧ p.view = v ∧
      ∀ id, id ∈ p.ids ↔ id ∈ q.ids ∨ id ∈ ts.map (NativeTransfer.id cr) := by
  induction ts generalizing q with
  | nil =>
    obtain rfl : q.view = v := by simpa using hpush
    exact ⟨q, rfl, by simp, rfl, by simp⟩
  | cons t ts ih =>
    obtain ⟨v₁, h₁, hrest⟩ := bind_eq_ok.mp hpush
    rw [List.map_cons, List.nodup_cons] at hnodup
    rw [List.length_cons] at hcount
    have hone := retain_of_push (hconf t List.mem_cons_self) (hids t List.mem_cons_self)
      (by omega) h₁
    have hids' : ∀ t' ∈ ts, t'.id cr ∉ (q.add cr t v₁).ids := by
      intro t' ht' hmem
      rcases (mem_ids_add _).mp hmem with heq | hmem
      · exact hnodup.1 (heq ▸ List.mem_map_of_mem ht')
      · exact hids t' (List.mem_cons_of_mem _ ht') hmem
    have hcount' : (q.add cr t v₁).transfers.length + ts.length ≤ maxNativePendingTransfers := by
      rw [add, List.length_append, List.length_singleton]
      omega
    obtain ⟨p, hp, htransfers, hview, hpids⟩ := ih (q := q.add cr t v₁)
      (fun t' ht' => hconf t' (List.mem_cons_of_mem _ ht')) hids' hnodup.2 hcount' hrest
    refine ⟨p, by rw [List.foldlM_cons, hone, ok_bind, hp], ?_, hview, fun id => ?_⟩
    · rw [htransfers, add, List.append_assoc, List.singleton_append]
    · rw [hpids, mem_ids_add, List.map_cons, List.mem_cons]
      tauto

/-- Confirmed transfers are dropped. -/
theorem foldlM_retain_confirmed {ts : List NativeTransfer} {q : PendingState}
    (hconf : ∀ t ∈ ts, t.id cr ∈ confirmed) :
    ts.foldlM (retain cr confirmed) q = .ok q := by
  induction ts with
  | nil => rfl
  | cons t ts ih =>
    rw [List.foldlM_cons, retain, if_pos (.inl (hconf t List.mem_cons_self))]
    exact ih fun t' ht' => hconf t' (List.mem_cons_of_mem _ ht')

theorem ext_of_ids {p q : PendingState} (htransfers : p.transfers = q.transfers)
    (hids : ∀ id, id ∈ p.ids ↔ id ∈ q.ids) (hview : p.view = q.view) : p = q := by
  have : p.ids = q.ids := ExtTreeSet.ext_mem hids
  cases p
  cases q
  simp_all

end PendingState

section Retain

variable {cr : Crypto} {chain : NativeChain} {confirmed : ExtTreeMap Hex32 ℕ}
  {candidates : List NativeTransfer} {p : PendingState}

open PendingState

/-- **What is retained is a queue in order.** -/
theorem queued_retainPending (h : retainPending cr chain confirmed candidates = .ok p) :
    p.Queued cr chain.ledger confirmed := by
  obtain ⟨v, hv, hfold⟩ := bind_eq_ok.mp h
  exact foldlM_invariant (Queued cr chain.ledger confirmed)
    (fun _ _ _ _ hq hr => hq.retain hr) (queued_empty hv) hfold

/-- Only candidates are retained. -/
theorem subset_of_retainPending (h : retainPending cr chain confirmed candidates = .ok p) :
    p.transfers ⊆ candidates := by
  obtain ⟨v, -, hfold⟩ := bind_eq_ok.mp h
  refine foldlM_invariant (fun q : PendingState => q.transfers ⊆ candidates)
    (fun q t q' ht hq hr => ?_) (List.nil_subset _) hfold
  rcases retain_eq_ok hr with rfl | ⟨-, -, -, v, -, rfl⟩
  · exact hq
  · exact List.append_subset.mpr ⟨hq, by simpa using ht⟩

/-- **Filtering a queue in order changes nothing.** -/
theorem retainPending_self (hp : p.Queued cr chain.ledger confirmed) :
    retainPending cr chain confirmed p.transfers = .ok p := by
  obtain ⟨v, hv, hpush⟩ := bind_eq_ok.mp hp.view
  obtain ⟨q, hq, htransfers, hview, hids⟩ := @foldlM_retain cr confirmed p.transfers
    { transfers := [], ids := ∅, view := v } p.view hp.fresh (fun t _ => by simp) hp.nodup
    (by simpa using hp.count) hpush
  rw [retainPending, hv, ok_bind, hq]
  refine congrArg Except.ok (ext_of_ids (by simpa using htransfers) (fun id => ?_) hview)
  rw [hids, hp.ids]
  simp

theorem retainPending_append {orphans : List NativeTransfer}
    (h : ∀ t ∈ orphans, t.id cr ∈ confirmed) :
    retainPending cr chain confirmed (orphans ++ candidates)
      = retainPending cr chain confirmed candidates := by
  simp only [retainPending, List.foldlM_append, foldlM_retain_confirmed h, ok_bind]

/-- The filter fails only on a transfer with a foreign schema. -/
theorem retainPending_ok {v : NativePendingView} (hv : chain.ledger.pendingView = .ok v)
    (h : ∀ t ∈ candidates, ∃ e, t.envelope = .ok e) :
    ∃ p, retainPending cr chain confirmed candidates = .ok p := by
  rw [retainPending, hv, mapErr, ok_bind]
  generalize { transfers := [], ids := ∅, view := v : PendingState } = q
  induction candidates generalizing q with
  | nil => exact ⟨q, rfl⟩
  | cons t ts ih =>
    obtain ⟨q', hq'⟩ : ∃ q', q.retain cr confirmed t = .ok q' := by
      unfold retain
      split
      · exact ⟨_, rfl⟩
      · obtain ⟨e, he⟩ := h t List.mem_cons_self
        rw [offer, he, ok_bind]
        split <;> exact ⟨_, rfl⟩
    rw [List.foldlM_cons, hq']
    exact ih (fun t' ht' => h t' (List.mem_cons_of_mem _ ht')) q'

end Retain

/-! ## The index of confirmed transfers -/

/-- What a block adds to the index. -/
def indexEntries (blocks : List NativeBlock) : List (Hex32 × ℕ) :=
  blocks.flatMap fun b => b.transfers.map fun t => (t.id cr, b.header.height)

theorem foldl_indexBlock (blocks : List NativeBlock) (index : ExtTreeMap Hex32 ℕ) :
    blocks.foldl (indexBlock cr) index
      = insertAll index (indexEntries cr blocks) := by
  induction blocks generalizing index with
  | nil => rfl
  | cons b bs ih =>
    rw [List.foldl_cons, ih, indexEntries, indexEntries, List.flatMap_cons, insertAll_append]
    simp only [insertAll, indexBlock, List.foldl_map]

theorem map_fst_indexEntries (blocks : List NativeBlock) :
    (indexEntries cr blocks).map Prod.fst
      = (NativeChain.transfers blocks).map (id cr) := by
  simp [indexEntries, NativeChain.transfers, List.map_flatMap, Function.comp_def]

theorem commonPrefixLen_spec (left right : List NativeBlock) :
    left.take (commonPrefixLen left right) = right.take (commonPrefixLen left right) ∧
      commonPrefixLen left right ≤ left.length ∧ commonPrefixLen left right ≤ right.length := by
  induction left generalizing right with
  | nil => simp [commonPrefixLen]
  | cons a left ih =>
    cases right with
    | nil => simp [commonPrefixLen]
    | cons b right =>
      have := ih right
      rw [commonPrefixLen, List.zip_cons_cons, List.takeWhile_cons]
      split_ifs with hab
      · obtain rfl : a = b := by simpa using hab
        simpa [commonPrefixLen] using this
      · simp

theorem NativeTransfer.idInput_injective : Function.Injective idInput := by
  intro t t' h
  exact sortKeys_inj (canonicalize_eq_iff.mp (List.append_cancel_left h))

/-- The inputs of the ids of the transfers on a chain lie in `S`. -/
def IdsIn (S : Set (List UInt8)) (blocks : List NativeBlock) : Prop :=
  ∀ t ∈ NativeChain.transfers blocks, t.idInput ∈ S

namespace NativeChain

variable {cr : Crypto} {S : Set (List UInt8)} {c : NativeChain}

/-- **No id occurs twice on a chain:** no payload does, and ids are collision-free. -/
theorem Sound.nodup_ids (hc : Sound cr c) (hinj : Set.InjOn cr.blake3 S)
    (hS : IdsIn S c.blocks) : ((transfers c.blocks).map (id cr)).Nodup := by
  obtain ⟨f, hf, hsame, -⟩ := hc
  have hpayloads := hf.nodup_payloads
  rw [← hsame.blocks] at hpayloads
  refine List.Nodup.map_on (fun t ht t' ht' heq => ?_) (List.Nodup.of_map _ hpayloads)
  exact idInput_injective (hinj (hS t ht) (hS t' ht') heq)

/-- **Dropping the heights above a prefix leaves the index of the prefix.** -/
theorem Sound.filter_confirmedIndex (hc : Sound cr c) (hinj : Set.InjOn cr.blake3 S)
    (hS : IdsIn S c.blocks) (n : ℕ) :
    (confirmedIndex cr c).filter (fun _ height => height ≤ n)
      = (c.blocks.take n).foldl (indexBlock cr) ∅ := by
  have hnodup := hc.nodup_ids hinj hS
  obtain ⟨f, hf, hsame, -⟩ := hc
  have hheight {i : ℕ} {b : NativeBlock} (hb : c.blocks[i]? = some b) :
      b.header.height = i + 1 := hf.heights (hsame.blocks ▸ hb)
  have hsplit : indexEntries cr c.blocks
      = indexEntries cr (c.blocks.take n) ++ indexEntries cr (c.blocks.drop n) := by
    rw [indexEntries, indexEntries, indexEntries, ← List.flatMap_append, List.take_append_drop]
  rw [confirmedIndex, foldl_indexBlock, foldl_indexBlock, hsplit]
  refine filter_insertAll_append (p := fun height => decide (height ≤ n)) ?_ (fun e he => ?_)
    fun e he => ?_
  · rw [← hsplit, map_fst_indexEntries]
    exact hnodup
  · simp only [indexEntries, List.mem_flatMap, List.mem_map] at he
    obtain ⟨b, hb, t, -, rfl⟩ := he
    obtain ⟨i, hi, hib⟩ := List.mem_take_iff_getElem.mp hb
    have := hheight (List.getElem?_eq_some_iff.mpr ⟨_, hib⟩)
    simp only [decide_eq_true_eq]
    omega
  · simp only [indexEntries, List.mem_flatMap, List.mem_map] at he
    obtain ⟨b, hb, t, -, rfl⟩ := he
    obtain ⟨i, hi, hib⟩ := List.mem_drop_iff_getElem.mp hb
    have := hheight (List.getElem?_eq_some_iff.mpr ⟨_, hib⟩)
    simp only [decide_eq_false_iff_not]
    omega

/-- The index a reorganisation builds is the index of the new chain. -/
theorem Sound.reindex (hc : Sound cr c) (hinj : Set.InjOn cr.blake3 S) (hS : IdsIn S c.blocks)
    (candidate : NativeChain) :
    (candidate.blocks.drop (commonPrefixLen c.blocks candidate.blocks)).foldl (indexBlock cr)
      ((confirmedIndex cr c).filter
        fun _ height => height ≤ commonPrefixLen c.blocks candidate.blocks)
      = confirmedIndex cr candidate := by
  rw [hc.filter_confirmedIndex hinj hS, (commonPrefixLen_spec c.blocks candidate.blocks).1,
    ← List.foldl_append, List.take_append_drop]
  rfl

theorem Sound.mem_confirmedIndex (hc : Sound cr c) (hinj : Set.InjOn cr.blake3 S)
    (hS : IdsIn S c.blocks) {id : Hex32} :
    id ∈ confirmedIndex cr c ↔ id ∈ (transfers c.blocks).map (NativeTransfer.id cr) := by
  rw [confirmedIndex, foldl_indexBlock, mem_insertAll_empty, map_fst_indexEntries]
  rw [map_fst_indexEntries]
  exact hc.nodup_ids hinj hS

end NativeChain

end Native
