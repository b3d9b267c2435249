import Boole.Native.NodeQueue

/-!
# Native/NodeInvariant — the derived state of a node

Beside its chain a node keeps an index of confirmed transfers, which a reorganisation updates in
place, and a queue of pending ones with the reservations they make, which is extended in place or
filtered.  **Both are at all times what a restart would derive from the chain and the queue**
(`reached_invariant`), so a template for the queue always exists.
-/

open Std Library Library.Json

namespace Native

open NativeChain

variable {limit : ℕ} {t : NativeTransfer} {b : NativeBlock} {blocks : List NativeBlock}
  {c : NativeChain} {ts : List NativeTransfer} {node : NativeNode}

/-! ## What the operations do -/

theorem harmless_eq_ok {α : Type} {x : Except String α} {a : α} :
    harmless x = .ok a ↔ x = .ok a := mapErr_eq_ok

namespace NativeNode

variable {cr : Crypto} {codec : Codec} {nowMs : ℕ} {self : NativeNode} {o : Outcome}

/-- **An admitted transfer** is new, valid on its own and affordable, and its line fits. -/
structure Admits (cr : Crypto) (node : NativeNode) (t : NativeTransfer) (view : NativePendingView)
    (o : Outcome) : Prop where
  ready : node.poisoned = false
  valid : ∃ fields, t.validatedFields cr = .ok fields
  unconfirmed : t.id cr ∉ node.confirmed
  new : t.id cr ∉ node.pending.ids
  room : node.pending.transfers.length < maxNativePendingTransfers
  push : pushTransfer cr node.pending.view t = .ok view
  fits : (node.disk.pool.getD []).length + (utf8 t.toJson.print).length < maxNativePoolBytes
  outcome : o = { node with pending := node.pending.add cr t view }.publish
    [.appendPool t.toJson.print]

theorem appendBounded_eq_ok {bytes : List UInt8} {line : List Char} {u : Unit} :
    appendBounded bytes line limit = .ok u ↔ bytes.length + (utf8 line).length < limit := by
  simp only [appendBounded, checkFileBudget, mapErr_eq_ok, bind_eq_ok, ensure_eq_ok]
  grind

theorem submitTransfer_eq_ok (h : self.submitTransfer cr t = .ok o) :
    o = self.decline ∨ ∃ view, Admits cr self t view o := by
  simp only [submitTransfer, ensureReady, bind_eq_ok, ensure_eq_ok, harmless_eq_ok] at h
  obtain ⟨_, hready, fields, hfields, h⟩ := h
  split_ifs at h with hnew
  · exact .inl (Except.ok.inj h).symm
  · rw [not_or] at hnew
    simp only [admitTransfer, bind_eq_ok, ensure_eq_ok, harmless_eq_ok, mapErr_eq_ok,
      appendBounded_eq_ok, pure_eq_ok] at h
    obtain ⟨_, hroom, e, he, view, hview, _, hfits, rfl⟩ := h
    refine .inr ⟨view, hready, ⟨fields, hfields⟩, hnew.1, hnew.2, hroom, ?_, hfits, rfl⟩
    rw [pushTransfer, he, ok_bind, hview]
    rfl

/-- **An appended block** extends the chain, its line fits, and the queue is filtered. -/
structure Appends (cr : Crypto) (nowMs : ℕ) (node : NativeNode) (b : NativeBlock)
    (p : PreparedNativeBlock) (chain : NativeChain) (retained : PendingState) (o : Outcome) :
    Prop where
  ready : node.poisoned = false
  drift : checkBlockTsFutureDrift b.header.timestampMs nowMs = .ok ()
  room : node.chain.blocks.length < maxNativeHistoryBlocks
  prepare : node.chain.prepare cr b = .ok p
  fits : node.disk.blockLog.length + (utf8 b.toJson.print).length < maxNativeHistoryBytes
  commit : node.chain.commit cr p = .ok chain
  retain : retainPending cr chain (indexBlock cr node.confirmed b) node.pending.transfers
    = .ok retained
  outcome : o = { node with
    chain := chain, confirmed := indexBlock cr node.confirmed b, pending := retained }.publish
    (.appendBlock b.toJson.print :: poolWrites node.pending.transfers retained.transfers)

theorem Appends.append {p : PreparedNativeBlock} {chain : NativeChain} {retained : PendingState}
    (h : Appends cr nowMs self b p chain retained o) : self.chain.append cr b = .ok chain := by
  rw [NativeChain.append, h.prepare, ok_bind, h.commit]

theorem submitBlock_eq_ok (h : self.submitBlock cr nowMs b = .ok o) :
    o = self.decline ∨ ∃ p chain retained, Appends cr nowMs self b p chain retained o := by
  simp only [submitBlock, ensureReady, bind_eq_ok, ensure_eq_ok, harmless_eq_ok] at h
  obtain ⟨_, hready, _, hdrift, h⟩ := h
  split at h
  · exact .inl (Except.ok.inj h).symm
  · simp only [appendBlock, bind_eq_ok, ensure_eq_ok, harmless_eq_ok, mapErr_eq_ok,
      appendBounded_eq_ok, pure_eq_ok] at h
    obtain ⟨_, hroom, p, hp, _, hfits, chain, hchain, retained, hretained, rfl⟩ := h
    obtain ⟨_, _, hx⟩ := prepare_eq_ok hp
    rw [hx.block] at hfits hretained ⊢
    exact .inr ⟨p, chain, retained, hready, hdrift, hroom, hp, hfits, hchain, hretained, rfl⟩

/-- The index of a reorganised node. -/
def reindexed (cr : Crypto) (self : NativeNode) (candidate : NativeChain) : ExtTreeMap Hex32 ℕ :=
  (candidate.blocks.drop (commonPrefixLen self.chain.blocks candidate.blocks)).foldl
    (indexBlock cr) (self.confirmed.filter
      fun _ height => height ≤ commonPrefixLen self.chain.blocks candidate.blocks)

/-- The orphaned transfers a reorganisation keeps. -/
def orphans (cr : Crypto) (self : NativeNode) (candidate : NativeChain) : List NativeTransfer :=
  collectOrphans cr (self.reindexed cr candidate)
    (maxNativeRecoveryTransfers - self.pending.transfers.length)
    ((self.chain.blocks.drop (commonPrefixLen self.chain.blocks candidate.blocks)).flatMap
      (·.transfers)) self.pending.ids []

/-- **A published candidate** outranks the chain, and the queue is filtered from the orphans and
the old queue. -/
structure Publishes (cr : Crypto) (node : NativeNode) (candidate : NativeChain)
    (retained : PendingState) (o : Outcome) : Prop where
  outranks : candidate.outranks cr node.chain = true
  retain : retainPending cr candidate (node.reindexed cr candidate)
    (node.orphans cr candidate ++ node.pending.transfers) = .ok retained
  outcome : o = { node with
    chain := candidate, confirmed := node.reindexed cr candidate, pending := retained }.publish
    (poolWrites node.pending.transfers (node.orphans cr candidate ++ node.pending.transfers) ++
      [Write.replaceBlocks (blockRows candidate.blocks),
        Write.replacePool (poolRows retained.transfers)])

theorem publishCandidate_eq_ok {candidate : NativeChain}
    (h : self.publishCandidate cr candidate = .ok o) :
    candidate.outranks cr self.chain = false ∧ o = self.decline ∨
      ∃ retained, Publishes cr self candidate retained o := by
  unfold publishCandidate at h
  split_ifs at h with hrank
  · exact .inl ⟨‹_›, (Except.ok.inj h).symm⟩
  · simp only [bind_eq_ok, harmless_eq_ok, pure_eq_ok] at h
    obtain ⟨retained, hretained, rfl⟩ := h
    exact .inr ⟨retained, by simpa using hrank, hretained, rfl⟩

/-- **The candidate of `adoptChain` is verified, and its blocks are the blocks offered.** -/
theorem candidateChain_sound (hsound : Sound cr self.chain)
    (h : self.candidateChain cr blocks = .ok c) :
    Sound cr c ∧ c.blocks = blocks := by
  obtain ⟨htake, hle, -⟩ := commonPrefixLen_spec self.chain.blocks blocks
  simp only [candidateChain] at h
  split at h
  · obtain ⟨fork, hfork, hfold⟩ := bind_eq_ok.mp h
    obtain ⟨-, hdepth⟩ := forkAt_eq_ok hfork
    obtain ⟨fork', hfork', hsound', hblocks⟩ := hsound.forkAt hle hdepth
    obtain rfl := Except.ok.inj (hfork'.symm.trans hfork)
    refine ⟨foldlM_append_sound hsound' hfold, ?_⟩
    rw [foldlM_append_blocks hfold, hblocks, htake, List.take_append_drop]
  · exact ⟨sound_replay h, blocks_of_replay h⟩

theorem adoptChain_eq_ok (h : self.adoptChain cr nowMs blocks = .ok o) :
    self.poisoned = false ∧ checkCandidateBudget blocks nowMs = .ok () ∧
      ∃ candidate, self.candidateChain cr blocks = .ok candidate ∧
        self.publishCandidate cr candidate = .ok o := by
  simp only [adoptChain, ensureReady, bind_eq_ok, ensure_eq_ok, harmless_eq_ok] at h
  obtain ⟨_, hready, _, hbudget, candidate, hcandidate, hpublish⟩ := h
  exact ⟨hready, hbudget, candidate, hcandidate, hpublish⟩

theorem adoptRecentSuffix_eq_ok {common : ℕ} {suffix : List NativeBlock}
    (hsound : Sound cr self.chain)
    (h : self.adoptRecentSuffix cr nowMs common suffix = .ok o) :
    self.poisoned = false ∧ ∃ candidate, Sound cr candidate ∧
      candidate.blocks = self.chain.blocks.take common ++ suffix ∧
      checkCandidateBudget candidate.blocks nowMs = .ok () ∧
      self.publishCandidate cr candidate = .ok o := by
  simp only [adoptRecentSuffix, ensureReady, bind_eq_ok, ensure_eq_ok, harmless_eq_ok] at h
  obtain ⟨_, hready, _, -, _, -, _, -, fork, hfork, candidate, hfold, _, hbudget, hpublish⟩ := h
  obtain ⟨hle, hdepth⟩ := forkAt_eq_ok hfork
  obtain ⟨fork', hfork', hsound', hblocks⟩ := hsound.forkAt hle hdepth
  obtain rfl := Except.ok.inj (hfork'.symm.trans hfork)
  refine ⟨hready, candidate, foldlM_append_sound hsound' hfold, ?_, hbudget, hpublish⟩
  rw [foldlM_append_blocks hfold, hblocks]

/-- **What a successful call does.** -/
inductive Acts (cr : Crypto) (nowMs : ℕ) (node : NativeNode) (o : Outcome) : Prop
  | declined (h : o = node.decline)
  | admitted {t : NativeTransfer} {view : NativePendingView} (ha : Admits cr node t view o)
  | appended {b : NativeBlock} {p : PreparedNativeBlock} {chain : NativeChain}
      {retained : PendingState} (ha : Appends cr nowMs node b p chain retained o)
  | published {candidate : NativeChain} {retained : PendingState}
      (hsound : NativeChain.Sound cr candidate)
      (hbudget : checkCandidateBudget candidate.blocks nowMs = .ok ())
      (hp : Publishes cr node candidate retained o)

theorem acts_of_call (hsound : Sound cr self.chain) {c : NodeCall}
    (h : self.call cr nowMs c = .ok o) : Acts cr nowMs self o := by
  have hpublish {candidate : NativeChain} (hcandidate : Sound cr candidate)
      (hbudget : checkCandidateBudget candidate.blocks nowMs = .ok ())
      (h : self.publishCandidate cr candidate = .ok o) : Acts cr nowMs self o := by
    rcases publishCandidate_eq_ok h with ⟨-, ho⟩ | ⟨retained, hp⟩
    · exact .declined ho
    · exact .published hcandidate hbudget hp
  cases c with
  | submitTransfer t =>
    rcases submitTransfer_eq_ok h with ho | ⟨view, ha⟩
    · exact .declined ho
    · exact .admitted ha
  | submitBlock b =>
    rcases submitBlock_eq_ok h with ho | ⟨p, chain, retained, ha⟩
    · exact .declined ho
    · exact .appended ha
  | adoptChain blocks =>
    obtain ⟨-, hbudget, candidate, hcandidate, h⟩ := adoptChain_eq_ok h
    obtain ⟨hsound', hblocks⟩ := candidateChain_sound hsound hcandidate
    exact hpublish hsound' (hblocks ▸ hbudget) h
  | adoptRecentSuffix common suffix =>
    obtain ⟨-, candidate, hsound', -, hbudget, h⟩ := adoptRecentSuffix_eq_ok hsound h
    exact hpublish hsound' hbudget h

/-! ## Boot -/

/-- **Replaying lines is parsing them and appending the blocks,** within the limits. -/
theorem replayLines_eq_ok {index : ℕ} {c' : NativeChain} {ls : List (List Char)} :
    replayLines cr codec nowMs index c ls = .ok c' ↔
      ∃ bs : List NativeBlock, ls.map codec.parseBlock = bs.map .ok ∧
        (∀ i < ls.length, index + i < maxNativeHistoryBlocks) ∧
        (∀ l ∈ ls, (utf8 l).length ≤ nativeTestnet.maxBlockBytes) ∧
        (∀ b ∈ bs, checkBlockTsFutureDrift b.header.timestampMs nowMs = .ok ()) ∧
        bs.foldlM (append cr) c = .ok c' := by
  induction ls generalizing index c with
  | nil =>
    constructor
    · intro h
      exact ⟨[], rfl, by simp, by simp, by simp, h⟩
    · rintro ⟨bs, hparse, -, -, -, hfold⟩
      obtain rfl : bs = [] := by simpa using hparse.symm
      exact hfold
  | cons l ls ih =>
    simp only [replayLines, bind_eq_ok, ensure_eq_ok, mapErr_eq_ok, ih]
    constructor
    · rintro ⟨_, hindex, _, hsize, b, hb, _, hdrift, c₁, hc₁, bs, hparse, hcount, hsizes, hdrifts,
        hfold⟩
      refine ⟨b :: bs, by rw [List.map_cons, hb, hparse, List.map_cons], fun i hi => ?_,
        List.forall_mem_cons.mpr ⟨hsize, hsizes⟩, List.forall_mem_cons.mpr ⟨hdrift, hdrifts⟩, ?_⟩
      · cases i with
        | zero => exact hindex
        | succ i =>
          have := hcount i (by simpa using hi)
          omega
      · rw [List.foldlM_cons, hc₁, ok_bind, hfold]
    · rintro ⟨bs, hparse, hcount, hsizes, hdrifts, hfold⟩
      obtain ⟨b, bs, rfl⟩ : ∃ b bs', bs = b :: bs' := by
        cases bs with
        | nil => simp at hparse
        | cons b bs => exact ⟨b, bs, rfl⟩
      rw [List.map_cons, List.map_cons, List.cons.injEq] at hparse
      rw [List.forall_mem_cons] at hsizes hdrifts
      obtain ⟨c₁, hc₁, hfold⟩ := bind_eq_ok.mp hfold
      refine ⟨(), hcount 0 (by simp), (), hsizes.1, b, hparse.1, (), hdrifts.1, c₁, hc₁, bs,
        hparse.2, fun i hi => ?_, hsizes.2, hdrifts.2, hfold⟩
      have := hcount (i + 1) (by simpa using hi)
      omega

theorem readPoolLines_eq_ok {pending : List NativeTransfer} {ls : List (List Char)} :
    ls.foldlM (readPoolLine cr codec) pending = .ok ts ↔
      ∃ new : List NativeTransfer, ls.map codec.parseTransfer = new.map .ok ∧ ts = pending ++ new ∧
        (∀ i < ls.length, pending.length + i < maxNativeRecoveryTransfers) ∧
        (∀ l ∈ ls, (utf8 l).length ≤ nativeTestnet.maxTransferBytes) ∧
        ∀ t ∈ new, ∃ fields, t.validatedFields cr = .ok fields := by
  induction ls generalizing pending with
  | nil =>
    constructor
    · intro h
      obtain rfl : pending = ts := by simpa using h
      exact ⟨[], rfl, by simp, by simp, by simp, by simp⟩
    · rintro ⟨new, hparse, rfl, -, -, -⟩
      obtain rfl : new = [] := by simpa using hparse.symm
      simp
  | cons l ls ih =>
    simp only [List.foldlM_cons, readPoolLine, bind_eq_ok, ensure_eq_ok, pure_eq_ok, ih]
    constructor
    · rintro ⟨_, ⟨_, hsize, _, hcount, t, ht, fields, hfields, rfl⟩, new, hparse, rfl, hcounts,
        hsizes, hvalid⟩
      refine ⟨t :: new, by rw [List.map_cons, ht, hparse, List.map_cons], by simp, fun i hi => ?_,
        List.forall_mem_cons.mpr ⟨hsize, hsizes⟩,
        List.forall_mem_cons.mpr ⟨⟨fields, hfields⟩, hvalid⟩⟩
      cases i with
      | zero => exact hcount
      | succ i =>
        have := hcounts i (by simpa using hi)
        rw [List.length_append, List.length_singleton] at this
        omega
    · rintro ⟨new, hparse, rfl, hcounts, hsizes, hvalid⟩
      obtain ⟨t, new, rfl⟩ : ∃ t new', new = t :: new' := by
        cases new with
        | nil => simp at hparse
        | cons t new => exact ⟨t, new, rfl⟩
      rw [List.map_cons, List.map_cons, List.cons.injEq] at hparse
      rw [List.forall_mem_cons] at hsizes hvalid
      obtain ⟨fields, hfields⟩ := hvalid.1
      refine ⟨_, ⟨(), hsizes.1, (), hcounts 0 (by simp), t, hparse.1, fields, hfields, rfl⟩, new,
        hparse.2, by simp, fun i hi => ?_, hsizes.2, hvalid.2⟩
      have := hcounts (i + 1) (by simpa using hi)
      rw [List.length_append, List.length_singleton]
      omega

def blockLimits : LogLimits where
  bytes := maxNativeHistoryBytes
  count := maxNativeHistoryBlocks
  line := nativeTestnet.maxBlockBytes

def poolLimits : LogLimits where
  bytes := maxNativePoolBytes
  count := maxNativeRecoveryTransfers
  line := nativeTestnet.maxTransferBytes

/-- The block log holds these blocks, and a node may boot from it now. -/
structure BlockLog (codec : Codec) (nowMs : ℕ) (bytes : List UInt8) (bs : List NativeBlock) :
    Prop where
  holds : LogHolds codec.parseBlock blockLimits bytes bs
  drift : ∀ b ∈ bs, checkBlockTsFutureDrift b.header.timestampMs nowMs = .ok ()

/-- The pool holds these transfers, all valid on their own; no file is an empty pool. -/
structure PoolLog (cr : Crypto) (codec : Codec) (pool : Option (List UInt8))
    (ts : List NativeTransfer) : Prop where
  absent : pool = none → ts = []
  holds : ∀ bytes, pool = some bytes → LogHolds codec.parseTransfer poolLimits bytes ts
  valid : ∀ t ∈ ts, ∃ fields, t.validatedFields cr = .ok fields

theorem forall_add_lt_iff {n : ℕ} : (∀ i < n, 0 + i < limit) ↔ n ≤ limit := by
  constructor
  · intro h
    rcases n with _ | n
    · exact Nat.zero_le _
    · have := h n (Nat.lt_succ_self n)
      omega
  · intro h i hi
    omega

theorem readNativeLog_eq_ok {bytes : List UInt8} {maximum : ℕ} {raw : List Char} :
    readNativeLog bytes maximum = .ok raw ↔
      bytes.length ≤ maximum ∧ stablePrefix bytes = utf8 raw := by
  simp only [readNativeLog, bind_eq_ok, ensure_eq_ok, okOr_eq_ok, fromUtf8_eq_some]
  tauto

theorem readPool_eq_ok {pool pool' : Option (List UInt8)} :
    readPool cr codec pool = .ok (ts, pool') ↔
      PoolLog cr codec pool ts ∧ pool' = pool.map stablePrefix := by
  cases pool with
  | none =>
    simp only [readPool, pure_eq_ok, Prod.mk.injEq]
    constructor
    · rintro ⟨rfl, rfl⟩
      exact ⟨⟨fun _ => rfl, fun _ h => (by cases h), by simp⟩, rfl⟩
    · rintro ⟨h, rfl⟩
      exact ⟨(h.absent rfl).symm, rfl⟩
  | some bytes =>
    simp only [readPool, bind_eq_ok, readNativeLog_eq_ok, readPoolLines_eq_ok, pure_eq_ok,
      Prod.mk.injEq, List.length_nil, forall_add_lt_iff]
    constructor
    · rintro ⟨raw, ⟨hlen, hraw⟩, _, ⟨new, hparse, rfl, hcount, hsizes, hvalid⟩, rfl, rfl⟩
      refine ⟨⟨fun h => (by cases h), fun _ h => ?_, hvalid⟩, rfl⟩
      obtain rfl := Option.some.inj h
      exact ⟨raw, hraw, hlen, hparse, hcount, hsizes⟩
    · rintro ⟨h, rfl⟩
      obtain ⟨raw, hraw, hlen, hparse, hcount, hsizes⟩ := h.holds bytes rfl
      exact ⟨raw, ⟨hlen, hraw⟩, ts, ⟨ts, hparse, rfl, hcount, hsizes, h.valid⟩, rfl, rfl⟩

theorem PoolLog.length_le {pool : Option (List UInt8)} (h : PoolLog cr codec pool ts) :
    (pool.getD []).length ≤ maxNativePoolBytes := by
  cases pool with
  | none => exact Nat.zero_le _
  | some bytes =>
    obtain ⟨_, -, hlen, -⟩ := h.holds bytes rfl
    exact hlen

/-- **Opening a node reads two logs,** replays the blocks of one and filters the transfers of the
other. -/
theorem openInner_eq_ok {disk : Disk} :
    openInner cr codec nowMs disk = .ok node ↔
      ∃ bs ts, BlockLog codec nowMs disk.blockLog bs ∧ PoolLog cr codec disk.pool ts ∧
        replay cr bs = .ok node.chain ∧
        node.confirmed = confirmedIndex cr node.chain ∧
        retainPending cr node.chain node.confirmed ts = .ok node.pending ∧
        node.disk = (poolWrites ts node.pending.transfers).foldl Disk.write
          { blockLog := stablePrefix disk.blockLog, pool := disk.pool.map stablePrefix } ∧
        node.poisoned = false := by
  simp only [openInner, checkFileBudget, bind_eq_ok, ensure_eq_ok, readNativeLog_eq_ok,
    replayLines_eq_ok, Prod.exists, readPool_eq_ok, pure_eq_ok, forall_add_lt_iff]
  constructor
  · rintro ⟨_, -, _, -, genesis, hgenesis, raw, ⟨hlen, hraw⟩, chain, ⟨bs, hparse, hcount, hsizes,
      hdrifts, hfold⟩, ts, _, ⟨hpool, rfl⟩, retained, hretained, rfl⟩
    refine ⟨bs, ts, ⟨⟨raw, hraw, hlen, hparse, hcount, hsizes⟩, hdrifts⟩, hpool, ?_, rfl,
      hretained, rfl, rfl⟩
    rw [replay, hgenesis, ok_bind, hfold]
  · rintro ⟨bs, ts, ⟨⟨raw, hraw, hlen, hparse, hcount, hsizes⟩, hdrifts⟩, hpool, hreplay, hconf,
      hretained, hdisk, hready⟩
    obtain ⟨genesis, hgenesis, hfold⟩ := bind_eq_ok.mp hreplay
    refine ⟨(), hlen, (), hpool.length_le, genesis, hgenesis, raw, ⟨hlen, hraw⟩, node.chain,
      ⟨bs, hparse, hcount, hsizes, hdrifts, hfold⟩, ts, _, ⟨hpool, rfl⟩, node.pending,
      hconf ▸ hretained, ?_⟩
    rw [← hdisk, ← hconf, ← hready]

/-! ## The invariant -/

/-- **What holds of a node between calls.** -/
structure Invariant (cr : Crypto) (node : NativeNode) : Prop where
  sound : NativeChain.Sound cr node.chain
  blocks : node.chain.blocks.length ≤ maxNativeHistoryBlocks
  confirmed : node.confirmed = confirmedIndex cr node.chain
  queued : node.pending.Queued cr node.chain.ledger node.confirmed
  valid : ∀ t ∈ node.pending.transfers, ∃ fields, t.validatedFields cr = .ok fields
  ready : node.poisoned = false

theorem invariant_openInner {disk : Disk} (h : openInner cr codec nowMs disk = .ok node) :
    Invariant cr node := by
  obtain ⟨bs, ts, ⟨⟨raw, -, -, hparse, hcount, -⟩, -⟩, hpool, hreplay, hconf, hretained, -,
    hready⟩ := openInner_eq_ok.mp h
  have hlen : (lines raw).length = bs.length := by simpa using congrArg List.length hparse
  refine ⟨sound_replay hreplay, ?_, hconf, queued_retainPending hretained,
    fun t ht => hpool.valid t (subset_of_retainPending hretained ht), hready⟩
  rw [blocks_of_replay hreplay, ← hlen]
  exact hcount

theorem collectOrphans_subset {confirmed : ExtTreeMap Hex32 ℕ} (ts : List NativeTransfer)
    (seen : ExtTreeSet Hex32) (acc : List NativeTransfer) :
    collectOrphans cr confirmed limit ts seen acc ⊆ acc ++ ts := by
  induction ts generalizing seen acc with
  | nil => simp [collectOrphans]
  | cons t ts ih =>
    rw [collectOrphans]
    split
    · exact List.subset_append_left _ _
    · split
      · have := ih (seen.insert (t.id cr)) (acc ++ [t])
        rwa [List.append_assoc, List.singleton_append] at this
      · intro t' ht'
        rw [List.mem_append, List.mem_cons]
        exact (List.mem_append.mp (ih seen acc ht')).imp_right .inr

/-- Orphans are transfers of the old chain. -/
theorem orphans_subset (candidate : NativeChain) :
    self.orphans cr candidate ⊆ transfers self.chain.blocks := by
  refine List.Subset.trans (collectOrphans_subset _ _ _) fun t ht => ?_
  obtain ⟨b, hb, ht⟩ := List.mem_flatMap.mp ht
  exact List.mem_flatMap.mpr ⟨b, List.mem_of_mem_drop hb, ht⟩

/-- What a reorganisation offers to the new queue is valid on its own. -/
theorem valid_recovery (hsound : Sound cr self.chain)
    (hvalid : ∀ t ∈ self.pending.transfers, ∃ fields, t.validatedFields cr = .ok fields)
    (candidate : NativeChain) (ht : t ∈ self.orphans cr candidate ++ self.pending.transfers) :
    ∃ fields, t.validatedFields cr = .ok fields := by
  rcases List.mem_append.mp ht with ht | ht
  · obtain ⟨f, hf, hsame, -⟩ := hsound
    obtain ⟨b, hb, htb⟩ := List.mem_flatMap.mp (orphans_subset candidate ht)
    exact hf.validated (hsame.blocks ▸ hb) htb
  · exact hvalid t ht

variable {S : Set (List UInt8)}

theorem checkCandidateBudget_length (h : checkCandidateBudget blocks nowMs = .ok ()) :
    blocks.length ≤ maxNativeHistoryBlocks := by
  simp only [checkCandidateBudget, bind_eq_ok, ensure_eq_ok] at h
  obtain ⟨_, hlen, -⟩ := h
  exact hlen

/-- **Every successful call keeps the invariant.** -/
theorem Invariant.call (hn : Invariant cr self) (hinj : Set.InjOn cr.blake3 S)
    (hS : IdsIn S self.chain.blocks) {c : NodeCall} (h : self.call cr nowMs c = .ok o) :
    Invariant cr o.node := by
  cases acts_of_call hn.sound h with
  | declined ho => exact ho ▸ hn
  | @admitted t _ ha =>
    obtain rfl := ha.outcome
    refine ⟨hn.sound, hn.blocks, hn.confirmed,
      hn.queued.add ha.unconfirmed ha.new ha.room ha.push, fun t' ht' => ?_, hn.ready⟩
    rcases List.mem_append.mp ht' with ht' | ht'
    · exact hn.valid t' ht'
    · rw [List.mem_singleton.mp ht']
      exact ha.valid
  | appended ha =>
    obtain rfl := ha.outcome
    have hblocks := blocks_of_commit ha.prepare ha.commit
    refine ⟨hn.sound.append ha.append, ?_, ?_, queued_retainPending ha.retain,
      fun t ht => hn.valid t (subset_of_retainPending ha.retain ht), hn.ready⟩
    · have := ha.room
      simp only [publish, hblocks, List.length_append, List.length_singleton]
      omega
    · simp only [publish, confirmedIndex, hblocks, List.foldl_append, List.foldl_cons,
        List.foldl_nil, hn.confirmed]
  | @published candidate _ hsound hbudget hp =>
    obtain rfl := hp.outcome
    refine ⟨hsound, checkCandidateBudget_length hbudget, ?_, queued_retainPending hp.retain,
      fun t ht => valid_recovery hn.sound hn.valid candidate
        (subset_of_retainPending hp.retain ht), hn.ready⟩
    rw [reindexed, hn.confirmed]
    exact hn.sound.reindex hinj hS candidate

/-! ## Calls that succeed -/

theorem pendingView_ok (hc : Sound cr c)
    (hlen : c.blocks.length ≤ maxNativeHistoryBlocks) : ∃ v, c.ledger.pendingView = .ok v := by
  obtain ⟨f, hf, hsame, -⟩ := hc
  have hheight := hf.lengths.2
  rw [hsame.blocks, maxNativeHistoryBlocks] at hlen
  rw [hsame.ledger]
  exact hf.reachable.consistent.pendingView (by omega)

theorem validated_size (h : ∃ fields, t.validatedFields cr = .ok fields) :
    t.toJson.toVec.length ≤ nativeTestnet.maxTransferBytes := by
  obtain ⟨fields, h⟩ := h
  simp only [NativeTransfer.validatedFields, bind_eq_ok, ensure_eq_ok] at h
  obtain ⟨_, hsize, -⟩ := h
  exact hsize

theorem envelope_of_validated (h : ∃ fields, t.validatedFields cr = .ok fields) :
    ∃ e, t.envelope = .ok e := by
  obtain ⟨fields, h⟩ := h
  simp only [NativeTransfer.validatedFields, bind_eq_ok] at h
  obtain ⟨_, -, e, he, -⟩ := h
  exact ⟨e, he⟩

/-- **A block that can be prepared and fits is appended:** nothing fails after the write. -/
theorem Invariant.submitBlock_ok (hn : Invariant cr self) {p : PreparedNativeBlock}
    (hprepare : self.chain.prepare cr b = .ok p)
    (hdrift : checkBlockTsFutureDrift b.header.timestampMs nowMs = .ok ())
    (hroom : self.chain.blocks.length < maxNativeHistoryBlocks) (hknown : ¬self.knows b)
    (hfits : self.disk.blockLog.length + (utf8 b.toJson.print).length < maxNativeHistoryBytes) :
    ∃ chain retained o, self.submitBlock cr nowMs b = .ok o ∧
      Appends cr nowMs self b p chain retained o := by
  obtain ⟨_, _, hx⟩ := prepare_eq_ok hprepare
  obtain ⟨chain, hcommit⟩ := commit_ok_of_prepare hprepare
  have happend : self.chain.append cr b = .ok chain := by
    rw [append, hprepare, ok_bind, hcommit]
  have hlen : chain.blocks.length ≤ maxNativeHistoryBlocks := by
    rw [blocks_of_commit hprepare hcommit, List.length_append, List.length_singleton]
    omega
  obtain ⟨v, hv⟩ := pendingView_ok (hn.sound.append happend) hlen
  obtain ⟨retained, hretain⟩ : ∃ retained, retainPending cr chain
      (indexBlock cr self.confirmed b) self.pending.transfers = .ok retained :=
    retainPending_ok hv fun t ht => envelope_of_validated (hn.valid t ht)
  refine ⟨chain, retained, _, ?_, hn.ready, hdrift, hroom, hprepare, hfits, hcommit, hretain, rfl⟩
  simp only [NativeNode.submitBlock, ensureReady, bind_eq_ok, ensure_eq_ok, harmless_eq_ok,
    if_neg hknown, appendBlock, mapErr_eq_ok, appendBounded_eq_ok, pure_eq_ok]
  exact ⟨(), hn.ready, (), hdrift, (), hroom, p, hprepare, (), hx.block ▸ hfits, chain, hcommit,
    retained, hx.block ▸ hretain, by rw [hx.block]⟩

/-! ## Runs -/

/-- The nodes that opening and successful calls reach, and the time of the last one; the clock does
not go back.  `S` collects the inputs of the transfer ids on the chains. -/
inductive Reached (cr : Crypto) (codec : Codec) (S : Set (List UInt8)) : ℕ → NativeNode → Prop
  | opened {nowMs : ℕ} {disk : Disk} {node : NativeNode}
      (h : openInner cr codec nowMs disk = .ok node) (hS : IdsIn S node.chain.blocks) :
      Reached cr codec S nowMs node
  | called {nowMs nowMs' : ℕ} {node : NativeNode} {c : NodeCall} {o : Outcome}
      (hn : Reached cr codec S nowMs node) (hclock : nowMs ≤ nowMs')
      (h : node.call cr nowMs' c = .ok o) (hS : IdsIn S o.node.chain.blocks) :
      Reached cr codec S nowMs' o.node

theorem Reached.idsIn (h : Reached cr codec S nowMs node) :
    IdsIn S node.chain.blocks := by
  cases h with
  | opened _ hS | called _ _ _ hS => exact hS

theorem Reached.invariant (hinj : Set.InjOn cr.blake3 S) (h : Reached cr codec S nowMs node) :
    Invariant cr node := by
  induction h with
  | opened h _ => exact invariant_openInner h
  | called hn _ h _ ih => exact ih.call hinj hn.idsIn h

theorem Invariant.template_ok (hn : Invariant cr self) {producerPk rewardPk : String}
    {k k' : Hex32} (hproducer : Hex32.fromHex producerPk = .ok k)
    (hreward : Hex32.fromHex rewardPk = .ok k') {minimum timestampMs : ℕ}
    (hmin : self.chain.minimumTimestampMs = .ok minimum) (hle : minimum ≤ timestampMs)
    (hdrift : checkBlockTsFutureDrift timestampMs nowMs = .ok ()) :
    ∃ template, self.template cr nowMs producerPk rewardPk timestampMs = .ok template := by
  obtain ⟨v, hv, hpush⟩ := bind_eq_ok.mp hn.queued.view
  obtain ⟨es, hes, hfold⟩ := foldlM_pushTransfer hpush
  have hsize : ∀ t ∈ self.pending.transfers,
      t.toJson.toVec.length ≤ nativeTestnet.maxTransferBytes :=
    fun t ht => validated_size (hn.valid t ht)
  have hlen := hn.blocks
  obtain ⟨template, htemplate⟩ := hn.sound.template_ok
    (by rw [maxNativeHistoryBlocks] at hlen; omega) hn.queued.count hsize hes (mapErr_eq_ok.mp hv)
    hfold hproducer hreward hmin hle
  refine ⟨template, ?_⟩
  rw [NativeNode.template, ensureReady, ensure_of hn.ready, hdrift, harmless, mapErr, htemplate]
  rfl

/-- **The derived state of a node is exact after any run,** and so a template for its queue
exists, for any keys and any timestamp that the chain and the clock allow. -/
theorem reached_invariant (hinj : Set.InjOn cr.blake3 S) {node : NativeNode}
    (h : Reached cr codec S nowMs node) :
    node.confirmed = confirmedIndex cr node.chain ∧
    (∀ id, id ∈ node.pending.ids ↔ id ∈ node.pending.transfers.map (NativeTransfer.id cr)) ∧
    (node.pending.transfers.map (NativeTransfer.id cr)).Nodup ∧
    node.pending.transfers.length ≤ maxNativePendingTransfers ∧
    (∀ t ∈ node.pending.transfers, t.id cr ∉ node.confirmed) ∧
    reserve cr node.chain.ledger node.pending.transfers = .ok node.pending.view ∧
    node.pending.transfers.length ≤ maxNativeRecoveryTransfers ∧
    ∀ (producerPk rewardPk : String) (k k' : Hex32) (minimum timestampMs nowMs : ℕ),
      Hex32.fromHex producerPk = .ok k → Hex32.fromHex rewardPk = .ok k' →
      node.chain.minimumTimestampMs = .ok minimum → minimum ≤ timestampMs →
      checkBlockTsFutureDrift timestampMs nowMs = .ok () →
      ∃ template, node.template cr nowMs producerPk rewardPk timestampMs = .ok template := by
  have hn := h.invariant hinj
  have hcount := hn.queued.count
  refine ⟨hn.confirmed, hn.queued.ids, hn.queued.nodup, hcount, hn.queued.fresh, hn.queued.view,
    ?_, fun _ _ _ _ _ _ _ hproducer hreward hmin hle hdrift =>
      hn.template_ok hproducer hreward hmin hle hdrift⟩
  rw [maxNativeRecoveryTransfers]
  omega

/-- An empty directory opens at genesis. -/
theorem openInner_empty (cr : Crypto) (codec : Codec) (nowMs : ℕ) {genesis : NativeChain}
    (hgenesis : new = .ok genesis) :
    ∃ node, openInner cr codec nowMs { blockLog := [], pool := none } = .ok node ∧
      node.chain = genesis ∧ node.disk = { blockLog := [], pool := none } := by
  obtain ⟨-, hblocks, -⟩ := new_eq_ok hgenesis
  have hsound : Sound cr genesis := sound_new hgenesis
  obtain ⟨v, hv⟩ := pendingView_ok hsound (by simp [hblocks])
  obtain ⟨pending, hpending⟩ : ∃ pending, retainPending cr genesis (confirmedIndex cr genesis) []
      = .ok pending := retainPending_ok hv (by simp)
  have hnone : pending.transfers = [] := List.subset_nil.mp (subset_of_retainPending hpending)
  refine ⟨⟨genesis, pending, confirmedIndex cr genesis, ⟨[], none⟩, false⟩, ?_, rfl, rfl⟩
  have hlog : BlockLog codec nowMs [] [] :=
    ⟨⟨[], rfl, Nat.zero_le _, rfl, Nat.zero_le _, by simp [lines, readLines]⟩, by simp⟩
  refine openInner_eq_ok.mpr ⟨[], [], hlog, ⟨fun _ => rfl, fun _ h => (by cases h), by simp⟩, ?_,
    rfl, hpending, ?_, rfl⟩
  · rw [replay, hgenesis]
    rfl
  · rw [hnone]
    rfl

theorem minimumTimestampMs_exampleBlock (hsound : Sound domainCrypto c)
    (hblocks : c.blocks = [exampleBlock]) : c.minimumTimestampMs = .ok 2 := by
  obtain ⟨f, hf, hsame, -⟩ := hsound
  rw [minimumTimestampMs, hblocks, hsame.network, hf.network]
  rfl

open NativeChain in
/-- A node on an empty directory takes a block. -/
theorem exampleBlock_submits (codec : Codec) : ∃ (node : NativeNode) (o : Outcome),
    openInner domainCrypto codec 0 { blockLog := [], pool := none } = .ok node ∧
    node.chain.blocks = [] ∧ node.disk = { blockLog := [], pool := none } ∧
    node.submitBlock domainCrypto 0 exampleBlock = .ok o ∧
    o.node.chain.blocks = [exampleBlock] ∧
    ∃ rest, o.writes = .appendBlock exampleBlock.toJson.print :: rest := by
  obtain ⟨c, c', hc, hc', hblocks⟩ := exampleBlock_appends
  obtain ⟨p, hprepare, hcommit⟩ := bind_eq_ok.mp hc'
  obtain ⟨node, hopen, rfl, hdisk⟩ := openInner_empty domainCrypto codec 0 hc
  have hempty : node.chain.blocks = [] := (new_eq_ok hc).2.1
  obtain ⟨_, _, hx⟩ := prepare_eq_ok hprepare
  have hsize := hx.size
  rw [(new_eq_ok hc).1, Value.toVec] at hsize
  have hdrift : checkBlockTsFutureDrift exampleBlock.header.timestampMs 0 = .ok () :=
    ensure_of (by decide) _
  have hroom : node.chain.blocks.length < maxNativeHistoryBlocks := by
    rw [hempty]
    decide
  have hknown : ¬node.knows exampleBlock := by
    rintro ⟨-, h⟩
    rw [hempty] at h
    cases h
  -- for any length, so that the text of the block is not evaluated
  have hfits (n : ℕ) (hn : n ≤ nativeTestnet.maxBlockBytes) :
      node.disk.blockLog.length + n < maxNativeHistoryBytes := by
    have hlt : nativeTestnet.maxBlockBytes < maxNativeHistoryBytes := by decide
    rw [hdisk, List.length_nil, Nat.zero_add]
    exact hn.trans_lt hlt
  obtain ⟨chain, retained, o, hsubmit, happends⟩ :=
    (invariant_openInner hopen).submitBlock_ok hprepare hdrift hroom hknown (hfits _ hsize)
  obtain rfl : c' = chain := Except.ok.inj (hcommit.symm.trans happends.commit)
  refine ⟨node, o, hopen, hempty, hdisk, hsubmit, ?_, ?_⟩
  · rw [happends.outcome]
    exact hblocks
  · rw [happends.outcome]
    exact ⟨_, rfl⟩

theorem idsIn_empty (h : ∀ b ∈ blocks, b.transfers = []) :
    IdsIn ∅ blocks := by
  intro t ht
  obtain ⟨b, hb, ht⟩ := List.mem_flatMap.mp ht
  simp [h b hb] at ht

open NativeChain in
theorem reached_invariant_one_block : ∃ node,
    Reached domainCrypto ⟨fun _ => .error "", fun _ => .error ""⟩ ∅ 0 node ∧
    node.chain.blocks = [exampleBlock] ∧
    node.confirmed = confirmedIndex domainCrypto node.chain ∧
    ∃ template, node.template domainCrypto 0 (Hex32.toHex 1) (Hex32.toHex 1) 2
      = .ok template := by
  obtain ⟨node, o, hopen, hempty, -, hsubmit, hblocks, -⟩ :=
    exampleBlock_submits ⟨fun _ => .error "", fun _ => .error ""⟩
  have hreached : Reached domainCrypto ⟨fun _ => .error "", fun _ => .error ""⟩ ∅ 0 o.node := by
    refine .called (c := .submitBlock exampleBlock) (.opened hopen ?_) le_rfl hsubmit ?_
    · rw [hempty]
      exact idsIn_empty (by simp)
    · rw [hblocks]
      exact idsIn_empty (by simp [exampleBlock])
  obtain ⟨hconf, -, -, -, -, -, -, htemplate⟩ :=
    reached_invariant (Set.injOn_empty _) hreached
  have hsound := (hreached.invariant (Set.injOn_empty _)).sound
  exact ⟨o.node, hreached, hblocks, hconf, htemplate _ _ 1 1 2 2 0 (Hex32.fromHex_toHex 1)
    (Hex32.fromHex_toHex 1) (minimumTimestampMs_exampleBlock hsound hblocks) le_rfl
    (ensure_of (by decide) _)⟩

end NativeNode

end Native
