import Boole.Native.NodeInvariant

/-!
# Native/NodeCrash — a crash leaves the node before or after the call

The journals are written one line or one file at a time, with no record that ties them together.
**A node that is opened after a crash inside a call is the node before the call or the node after
it** (`open_after_crash`): a torn line is cut off, and the pool that is on the disk at any moment,
filtered on the chain that is on the disk at that moment, is the queue of that chain.
-/

open Std Library Library.Json

namespace Native

open NativeChain

variable {ts ts' : List NativeTransfer} {b : NativeBlock} {blocks : List NativeBlock}
  {pool : Option (List UInt8)} {t : NativeTransfer} {disk : Disk} {chain : NativeChain}
  {retained : PendingState} {c : NodeCall}

/-- What a write that is interrupted leaves behind: a prefix of the line, or the old or the new
file. -/
def Disk.Torn (disk : Disk) : Write → Disk → Prop
  | .appendBlock line, disk' => ∃ torn, torn <+: utf8 (line ++ ['\n']) ∧
    disk' = { disk with blockLog := disk.blockLog ++ torn }
  | .appendPool line, disk' => ∃ torn, torn <+: utf8 (line ++ ['\n']) ∧
    disk' = { disk with pool := some (disk.pool.getD [] ++ torn) }
  | .replaceBlocks lines, disk' => disk' = disk ∨ disk' = disk.write (.replaceBlocks lines)
  | .replacePool lines, disk' => disk' = disk ∨ disk' = disk.write (.replacePool lines)

/-- The writes of a call. -/
def writesOf : Except Failure Outcome → List Write
  | .ok o => o.writes
  | .error _ => []

theorem plain_print (v : Value) : Plain v.print := v.print_no_control

theorem checkBlockTsFutureDrift_eq_ok {ts nowMs : ℕ} {u : Unit} :
    checkBlockTsFutureDrift ts nowMs = .ok u ↔
      ts ≤ saturatingAdd 64 nowMs blockTsMaxFutureDriftMs :=
  ensure_eq_ok

theorem checkBlockTsFutureDrift_mono {ts nowMs nowMs' : ℕ} (hclock : nowMs ≤ nowMs')
    (h : checkBlockTsFutureDrift ts nowMs = .ok ()) :
    checkBlockTsFutureDrift ts nowMs' = .ok () := by
  rw [checkBlockTsFutureDrift_eq_ok, saturatingAdd] at h ⊢
  omega

namespace NativeNode

variable {cr : Crypto} {codec : Codec} {nowMs nowMs' : ℕ} {self node : NativeNode} {o : Outcome}
  {S : Set (List UInt8)}

/-! ## The journals -/

theorem BlockLog.mono {bytes : List UInt8} {bs : List NativeBlock} (hclock : nowMs ≤ nowMs')
    (h : BlockLog codec nowMs bytes bs) : BlockLog codec nowMs' bytes bs :=
  ⟨h.holds, fun b hb => checkBlockTsFutureDrift_mono hclock (h.drift b hb)⟩

/-- A block appended to the log. -/
theorem BlockLog.append (hcodec : codec.Lawful) {bytes : List UInt8} {bs : List NativeBlock}
    (h : BlockLog codec nowMs bytes bs) (hs : Stable bytes)
    (hdrift : checkBlockTsFutureDrift b.header.timestampMs nowMs = .ok ())
    (hsize : b.toJson.toVec.length ≤ nativeTestnet.maxBlockBytes)
    (hfits : bytes.length + (utf8 b.toJson.print).length < maxNativeHistoryBytes)
    (hroom : bs.length < maxNativeHistoryBlocks) :
    BlockLog codec nowMs (bytes ++ utf8 (b.toJson.print ++ ['\n'])) (bs ++ [b]) ∧
      Stable (bytes ++ utf8 (b.toJson.print ++ ['\n'])) := by
  obtain ⟨hholds, hstable⟩ := h.holds.snoc hs (plain_print _) (hcodec.parseBlock_print b) hsize
    hfits hroom
  refine ⟨⟨hholds, fun b' hb' => ?_⟩, hstable⟩
  rcases List.mem_append.mp hb' with hb' | hb'
  · exact h.drift b' hb'
  · rw [List.mem_singleton.mp hb']
    exact hdrift

theorem foldlM_checkCandidateBlock {start total : ℕ} (hstart : start ≤ maxNativeHistoryBytes)
    (h : blocks.foldlM (checkCandidateBlock nowMs) start = .ok total) :
    start + (blocks.map fun b => b.toJson.toVec.length + 1).sum ≤ maxNativeHistoryBytes ∧
      ∀ b ∈ blocks, checkBlockTsFutureDrift b.header.timestampMs nowMs = .ok () := by
  induction blocks generalizing start with
  | nil => exact ⟨hstart, by simp⟩
  | cons b bs ih =>
    obtain ⟨next, hnext, hrest⟩ := bind_eq_ok.mp h
    simp only [checkCandidateBlock, bind_eq_ok, okOr_eq_ok, checkedAdd_eq_some, ensure_eq_ok,
      pure_eq_ok] at hnext
    obtain ⟨_, ⟨-, rfl⟩, _, hle, _, hdrift, rfl⟩ := hnext
    obtain ⟨hsum, hdrifts⟩ := ih hle hrest
    rw [List.map_cons, List.sum_cons, List.forall_mem_cons]
    exact ⟨by omega, hdrift, hdrifts⟩

theorem checkCandidateBudget_eq_ok (h : checkCandidateBudget blocks nowMs = .ok ()) :
    blocks.length ≤ maxNativeHistoryBlocks ∧
    (blocks.map fun b => b.toJson.toVec.length + 1).sum ≤ maxNativeHistoryBytes ∧
    ∀ b ∈ blocks, checkBlockTsFutureDrift b.header.timestampMs nowMs = .ok () := by
  simp only [checkCandidateBudget, bind_eq_ok, ensure_eq_ok] at h
  obtain ⟨_, hlen, total, hfold, -⟩ := h
  obtain ⟨hsum, hdrift⟩ := foldlM_checkCandidateBlock (Nat.zero_le _) hfold
  exact ⟨hlen, by omega, hdrift⟩

/-- A block log that is written anew. -/
theorem blockLog_rows (hcodec : codec.Lawful) (hbudget : checkCandidateBudget blocks nowMs = .ok ())
    (hsize : ∀ b ∈ blocks, b.toJson.toVec.length ≤ nativeTestnet.maxBlockBytes) :
    BlockLog codec nowMs (utf8 (terminate (blockRows blocks))) blocks ∧
      Stable (utf8 (terminate (blockRows blocks))) := by
  obtain ⟨hlen, hsum, hdrift⟩ := checkCandidateBudget_eq_ok hbudget
  have hholds : LogHolds codec.parseBlock blockLimits (utf8 (terminate (blockRows blocks))) blocks ∧
      Stable (utf8 (terminate (blockRows blocks))) := by
    apply logHolds_terminate
    · simp only [blockRows, List.forall_mem_map]
      exact fun b _ => plain_print _
    · rw [blockRows, List.map_map]
      exact List.map_congr_left fun b _ => hcodec.parseBlock_print b
    · rw [blockRows, List.map_map]
      exact hsum
    · rw [blockRows, List.length_map]
      exact hlen
    · simp only [blockRows, List.forall_mem_map]
      exact hsize
  exact ⟨⟨hholds.1, hdrift⟩, hholds.2⟩

/-- The pool's bytes, none when there is no file. -/
theorem PoolLog.holds_getD (h : PoolLog cr codec pool ts) :
    LogHolds codec.parseTransfer poolLimits (pool.getD []) ts := by
  cases pool with
  | none =>
    rw [h.absent rfl]
    exact ⟨[], rfl, Nat.zero_le _, rfl, Nat.zero_le _, by simp [lines, readLines]⟩
  | some bytes => exact h.holds bytes rfl

theorem stable_getD (h : ∀ bytes, pool = some bytes → Stable bytes) :
    Stable (pool.getD []) := by
  cases pool with
  | none => exact ⟨[], rfl, .inl rfl⟩
  | some bytes => exact h bytes rfl

theorem poolLog_some {bytes : List UInt8}
    (h : LogHolds codec.parseTransfer poolLimits bytes ts)
    (hvalid : ∀ t ∈ ts, ∃ fields, t.validatedFields cr = .ok fields) :
    PoolLog cr codec (some bytes) ts :=
  ⟨fun h => (nomatch h), fun _ hb => Option.some.inj hb ▸ h, hvalid⟩

/-- A transfer appended to the pool. -/
theorem PoolLog.append (hcodec : codec.Lawful) (h : PoolLog cr codec pool ts)
    (hs : ∀ bytes, pool = some bytes → Stable bytes)
    (hvalid : ∃ fields, t.validatedFields cr = .ok fields)
    (hfits : (pool.getD []).length + (utf8 t.toJson.print).length < maxNativePoolBytes)
    (hroom : ts.length < maxNativeRecoveryTransfers) :
    PoolLog cr codec (some (pool.getD [] ++ utf8 (t.toJson.print ++ ['\n']))) (ts ++ [t]) ∧
      Stable (pool.getD [] ++ utf8 (t.toJson.print ++ ['\n'])) := by
  obtain ⟨hholds, hstable⟩ := h.holds_getD.snoc (stable_getD hs) (plain_print _)
    (hcodec.parseTransfer_print t) (validated_size hvalid) hfits hroom
  refine ⟨poolLog_some hholds fun t' ht' => ?_, hstable⟩
  rcases List.mem_append.mp ht' with ht' | ht'
  · exact h.valid t' ht'
  · rw [List.mem_singleton.mp ht']
    exact hvalid

/-- A pool that is written anew. -/
theorem poolLog_rows (hcodec : codec.Lawful)
    (hvalid : ∀ t ∈ ts, ∃ fields, t.validatedFields cr = .ok fields)
    (hcount : ts.length ≤ maxNativeRecoveryTransfers) :
    PoolLog cr codec (some (utf8 (terminate (poolRows ts)))) ts ∧
      Stable (utf8 (terminate (poolRows ts))) := by
  have hsum : ((poolRows ts).map fun l => (utf8 l).length + 1).sum ≤ maxNativePoolBytes := by
    have hle : ((poolRows ts).map fun l => (utf8 l).length + 1).sum ≤ ts.length • 4097 := by
      rw [poolRows, List.map_map, ← List.length_map (f := (fun l => (utf8 l).length + 1) ∘
        fun t : NativeTransfer => t.toJson.print)]
      refine List.sum_le_card_nsmul _ _ ?_
      simp only [List.forall_mem_map]
      exact fun t ht => Nat.succ_le_succ (validated_size (hvalid t ht))
    calc ((poolRows ts).map fun l => (utf8 l).length + 1).sum
        ≤ ts.length * 4097 := hle
      _ ≤ maxNativeRecoveryTransfers * 4097 := Nat.mul_le_mul_right _ hcount
      _ ≤ maxNativePoolBytes := by decide
  have hholds : LogHolds codec.parseTransfer poolLimits (utf8 (terminate (poolRows ts))) ts ∧
      Stable (utf8 (terminate (poolRows ts))) := by
    apply logHolds_terminate
    · simp only [poolRows, List.forall_mem_map]
      exact fun t _ => plain_print _
    · rw [poolRows, List.map_map]
      exact List.map_congr_left fun t _ => hcodec.parseTransfer_print t
    · exact hsum
    · rw [poolRows, List.length_map]
      exact hcount
    · simp only [poolRows, List.forall_mem_map]
      exact fun t ht => validated_size (hvalid t ht)
  exact ⟨poolLog_some hholds.1 hvalid, hholds.2⟩

/-! ## What is on the disk -/

/-- **The journals hold the chain and the queue.** -/
structure Stored (cr : Crypto) (codec : Codec) (nowMs : ℕ) (node : NativeNode) : Prop where
  blocks : BlockLog codec nowMs node.disk.blockLog node.chain.blocks
  blocksStable : Stable node.disk.blockLog
  pool : PoolLog cr codec node.disk.pool node.pending.transfers
  poolStable : ∀ bytes, node.disk.pool = some bytes → Stable bytes

theorem Stored.mono (hclock : nowMs ≤ nowMs') (h : Stored cr codec nowMs node) :
    Stored cr codec nowMs' node :=
  ⟨h.blocks.mono hclock, h.blocksStable, h.pool, h.poolStable⟩

/-- A rewritten pool, or the old one when the queue did not change. -/
theorem pool_poolWrites (hcodec : codec.Lawful) (disk : Disk) (h : PoolLog cr codec disk.pool ts)
    (hs : ∀ bytes, disk.pool = some bytes → Stable bytes)
    (hvalid : ∀ t ∈ ts', ∃ fields, t.validatedFields cr = .ok fields)
    (hcount : ts'.length ≤ maxNativeRecoveryTransfers) :
    ((poolWrites ts ts').foldl Disk.write disk).blockLog = disk.blockLog ∧
    PoolLog cr codec ((poolWrites ts ts').foldl Disk.write disk).pool ts' ∧
    ∀ bytes, ((poolWrites ts ts').foldl Disk.write disk).pool = some bytes → Stable bytes := by
  unfold poolWrites
  split_ifs with hsame
  · obtain ⟨hlog, hstable⟩ := poolLog_rows hcodec hvalid hcount
    refine ⟨rfl, hlog, fun bytes hb => ?_⟩
    exact Option.some.inj hb ▸ hstable
  · obtain rfl : ts' = ts := not_not.mp hsame
    exact ⟨rfl, h, hs⟩

theorem count_recovery {p : PendingState} {ledger : NativeLedger}
    {confirmed : ExtTreeMap Hex32 ℕ} (h : p.Queued cr ledger confirmed) :
    p.transfers.length ≤ maxNativeRecoveryTransfers :=
  h.count.trans (by decide)

theorem stored_openInner (hcodec : codec.Lawful) (h : openInner cr codec nowMs disk = .ok node) :
    Stored cr codec nowMs node := by
  have hn := invariant_openInner h
  obtain ⟨bs, ts, hblocks, hpool, hreplay, -, -, hdisk, -⟩ := openInner_eq_ok.mp h
  obtain ⟨hholds, hstable⟩ := hblocks.holds.stablePrefix
  have hpool' : PoolLog cr codec (disk.pool.map stablePrefix) ts := by
    refine ⟨fun h => hpool.absent (Option.map_eq_none_iff.mp h), fun bytes hb => ?_, hpool.valid⟩
    obtain ⟨bytes', hb', rfl⟩ := Option.map_eq_some_iff.mp hb
    exact (hpool.holds bytes' hb').stablePrefix.1
  have hstable' : ∀ bytes, disk.pool.map stablePrefix = some bytes → Stable bytes := by
    intro bytes hb
    obtain ⟨bytes', hb', rfl⟩ := Option.map_eq_some_iff.mp hb
    exact (hpool.holds bytes' hb').stablePrefix.2
  obtain ⟨hlog, hpool'', hstable''⟩ := pool_poolWrites hcodec
    ⟨stablePrefix disk.blockLog, disk.pool.map stablePrefix⟩ hpool' hstable' hn.valid
    (count_recovery hn.queued)
  rw [← hdisk] at hlog hpool'' hstable''
  refine ⟨?_, hlog ▸ hstable, hpool'', hstable''⟩
  rw [hlog, blocks_of_replay hreplay]
  exact ⟨hholds, hblocks.drift⟩

theorem Stored.submitTransfer (hcodec : codec.Lawful) (hs : Stored cr codec nowMs self)
    {view : NativePendingView} (ha : Admits cr self t view o) :
    Stored cr codec nowMs o.node := by
  have hroom : self.pending.transfers.length < maxNativeRecoveryTransfers :=
    ha.room.trans_le (by decide)
  obtain ⟨hpool, hstable⟩ := hs.pool.append hcodec hs.poolStable ha.valid ha.fits hroom
  obtain rfl := ha.outcome
  exact ⟨hs.blocks, hs.blocksStable, hpool, fun bytes hb => Option.some.inj hb ▸ hstable⟩

theorem Stored.submitBlock (hcodec : codec.Lawful) (hn : Invariant cr self)
    (hs : Stored cr codec nowMs self) {p : PreparedNativeBlock}
    (ha : Appends cr nowMs self b p chain retained o) :
    BlockLog codec nowMs (self.disk.blockLog ++ utf8 (b.toJson.print ++ ['\n'])) chain.blocks ∧
      Stored cr codec nowMs o.node := by
  obtain ⟨_, _, hx⟩ := prepare_eq_ok ha.prepare
  have hnetwork : self.chain.network = nativeTestnet := by
    obtain ⟨f, hf, hsame, -⟩ := hn.sound
    exact hsame.network.trans hf.network
  obtain ⟨hblocks, hstable⟩ := hs.blocks.append hcodec hs.blocksStable ha.drift
    (hnetwork ▸ hx.size) ha.fits ha.room
  rw [← blocks_of_commit ha.prepare ha.commit] at hblocks
  refine ⟨hblocks, ?_⟩
  have hqueued := queued_retainPending ha.retain
  obtain ⟨hlog, hpool, hpoolStable⟩ := pool_poolWrites hcodec
    (self.disk.write (.appendBlock b.toJson.print)) hs.pool hs.poolStable
    (fun t ht => hn.valid t (subset_of_retainPending ha.retain ht)) (count_recovery hqueued)
  obtain rfl := ha.outcome
  refine ⟨?_, ?_, hpool, hpoolStable⟩
  · change BlockLog codec nowMs ((poolWrites _ _).foldl Disk.write (self.disk.write _)).blockLog _
    rw [hlog]
    exact hblocks
  · change Stable ((poolWrites _ _).foldl Disk.write (self.disk.write _)).blockLog
    rw [hlog]
    exact hstable

/-- The blocks of a verified chain are small enough. -/
theorem sound_sizes {c : NativeChain} (hc : Sound cr c) (hb : b ∈ c.blocks) :
    b.toJson.toVec.length ≤ nativeTestnet.maxBlockBytes := by
  obtain ⟨f, hf, hsame, -⟩ := hc
  rw [hsame.blocks] at hb
  clear hsame
  induction hf with
  | genesis h => simp [(new_eq_ok h).2.1] at hb
  | @block c b' p h es hc _ hx ih =>
    rw [extend, hx.block, List.mem_append, List.mem_singleton] at hb
    rcases hb with hb | rfl
    · exact ih hb
    · exact hc.network ▸ hx.size

theorem collectOrphans_length {confirmed : ExtTreeMap Hex32 ℕ} {limit : ℕ}
    (ts : List NativeTransfer) (seen : ExtTreeSet Hex32) {acc : List NativeTransfer}
    (hacc : acc.length ≤ limit) :
    (collectOrphans cr confirmed limit ts seen acc).length ≤ limit := by
  induction ts generalizing seen acc with
  | nil => exact hacc
  | cons t ts ih =>
    rw [collectOrphans]
    split
    · exact hacc
    · split
      · refine ih _ ?_
        rw [List.length_append, List.length_singleton]
        omega
      · exact ih _ hacc

/-- The recovery queue has room for every pending transfer. -/
theorem Invariant.count_recovery (hn : Invariant cr self) (candidate : NativeChain) :
    (self.orphans cr candidate ++ self.pending.transfers).length ≤ maxNativeRecoveryTransfers := by
  have horphans : (self.orphans cr candidate).length
      ≤ maxNativeRecoveryTransfers - self.pending.transfers.length :=
    collectOrphans_length _ _ (Nat.zero_le _)
  have hpending := NativeNode.count_recovery hn.queued
  rw [List.length_append]
  omega

theorem Stored.publish (hcodec : codec.Lawful) (hn : Invariant cr self) {candidate : NativeChain}
    (hsound : Sound cr candidate)
    (hbudget : checkCandidateBudget candidate.blocks nowMs = .ok ())
    (hp : Publishes cr self candidate retained o) : Stored cr codec nowMs o.node := by
  have hqueued := queued_retainPending hp.retain
  obtain ⟨hblocks, hstable⟩ := blockLog_rows hcodec hbudget fun b hb => sound_sizes hsound hb
  obtain ⟨hpool, hpoolStable⟩ := poolLog_rows hcodec
    (fun t ht => valid_recovery hn.sound hn.valid candidate
      (subset_of_retainPending hp.retain ht))
    (NativeNode.count_recovery hqueued)
  have hdisk : o.node.disk = ⟨utf8 (terminate (blockRows candidate.blocks)),
      some (utf8 (terminate (poolRows retained.transfers)))⟩ := by
    rw [hp.outcome]
    simp only [NativeNode.publish, List.foldl_append]
    rfl
  have hnode : o.node.chain = candidate ∧ o.node.pending = retained := by
    rw [hp.outcome]
    exact ⟨rfl, rfl⟩
  refine ⟨?_, ?_, ?_, fun bytes hb => ?_⟩
  · rw [hdisk, hnode.1]
    exact hblocks
  · rw [hdisk]
    exact hstable
  · rw [hdisk, hnode.2]
    exact hpool
  · rw [hdisk] at hb
    exact Option.some.inj hb ▸ hpoolStable

/-- **Every successful call keeps the journals.** -/
theorem Stored.call (hcodec : codec.Lawful) (hn : Invariant cr self)
    (hs : Stored cr codec nowMs self) (h : self.call cr nowMs c = .ok o) :
    Stored cr codec nowMs o.node := by
  cases acts_of_call hn.sound h with
  | declined ho => exact ho ▸ hs
  | admitted ha => exact hs.submitTransfer hcodec ha
  | appended ha => exact (hs.submitBlock hcodec hn ha).2
  | published hsound hbudget hp => exact Stored.publish hcodec hn hsound hbudget hp

theorem Reached.stored (hcodec : codec.Lawful) (hinj : Set.InjOn cr.blake3 S)
    (h : Reached cr codec S nowMs node) : Stored cr codec nowMs node := by
  induction h with
  | opened h _ => exact stored_openInner hcodec h
  | called hn hclock h _ ih => exact (ih.mono hclock).call hcodec (hn.invariant hinj) h

/-! ## Crashes -/

/-- A node that is opened on this disk has this chain and this queue. -/
def Recovers (cr : Crypto) (codec : Codec) (nowMs : ℕ) (disk : Disk) (chain : NativeChain)
    (pending : PendingState) : Prop :=
  ∃ ts, BlockLog codec nowMs disk.blockLog chain.blocks ∧ PoolLog cr codec disk.pool ts ∧
    retainPending cr chain (confirmedIndex cr chain) ts = .ok pending

theorem Recovers.openInner {pending : PendingState} (h : Recovers cr codec nowMs disk chain pending)
    (hsound : Sound cr chain) :
    ∃ node, openInner cr codec nowMs disk = .ok node ∧ Same node.chain chain ∧
      node.pending = pending := by
  obtain ⟨ts, hblocks, hpool, hretain⟩ := h
  obtain ⟨r, hr, hsame⟩ := hsound.replay
  have hretain' : retainPending cr r (confirmedIndex cr r) ts = .ok pending := by
    rw [← hretain, retainPending, retainPending, confirmedIndex, confirmedIndex, hsame.ledger,
      hsame.blocks]
  let repaired : Disk := ⟨stablePrefix disk.blockLog, disk.pool.map stablePrefix⟩
  exact ⟨⟨r, pending, confirmedIndex cr r,
      (poolWrites ts pending.transfers).foldl Disk.write repaired, false⟩,
    openInner_eq_ok.mpr ⟨chain.blocks, ts, hblocks, hpool, hr, rfl, hretain', rfl, rfl⟩, hsame, rfl⟩

theorem Stored.recovers (hn : Invariant cr self) (hs : Stored cr codec nowMs self) :
    Recovers cr codec nowMs self.disk self.chain self.pending :=
  ⟨self.pending.transfers, hs.blocks, hs.pool, retainPending_self (hn.confirmed ▸ hn.queued)⟩

theorem torn_replace {disk' : Disk} {w : Write} (h : disk.Torn w disk')
    (hw : (∃ rows, w = .replaceBlocks rows) ∨ ∃ rows, w = .replacePool rows) :
    disk' = disk ∨ disk' = disk.write w := by
  rcases hw with ⟨rows, rfl⟩ | ⟨rows, rfl⟩ <;> exact h

theorem mem_poolWrites {w : Write} (h : w ∈ poolWrites ts ts') :
    ∃ rows, w = .replacePool rows := by
  unfold poolWrites at h
  split at h
  · exact ⟨_, List.mem_singleton.mp h⟩
  · simp at h

theorem prefix_poolWrites {done : List Write} (h : done <+: poolWrites ts ts') :
    done = [] ∨ done = poolWrites ts ts' := by
  unfold poolWrites at h ⊢
  split_ifs at h with hne
  · rw [if_pos hne]
    rcases List.prefix_cons_iff.mp h with rfl | ⟨_, rfl, hnil⟩
    · exact .inl rfl
    · rw [List.prefix_nil.mp hnil]
      exact .inr rfl
  · exact .inl (List.prefix_nil.mp h)

section Crash

variable (hcodec : codec.Lawful) (hn : Invariant cr self) (hs : Stored cr codec nowMs self)
  (hn' : Invariant cr o.node) (h : Crashed Disk.write Disk.Torn self.disk o.writes disk)

include hcodec hn hs hn' h

theorem crash_submitTransfer {view : NativePendingView} (ha : Admits cr self t view o) :
    Recovers cr codec nowMs disk self.chain self.pending ∨
      Recovers cr codec nowMs disk o.node.chain o.node.pending := by
  have hafter := (hs.submitTransfer hcodec ha).recovers hn'
  obtain rfl := ha.outcome
  cases h with
  | before => exact .inl (hs.recovers hn)
  | during _ h =>
    obtain ⟨torn, htorn, rfl⟩ := h
    rcases hs.pool.holds_getD.append_torn (stable_getD hs.poolStable) (plain_print _) ha.fits htorn
      with hholds | rfl
    · exact .inl ⟨_, hs.blocks, poolLog_some hholds hs.pool.valid,
        retainPending_self (hn.confirmed ▸ hn.queued)⟩
    · exact .inr hafter
  | later h =>
    rw [h.eq_of_nil]
    exact .inr hafter

theorem crash_submitBlock {p : PreparedNativeBlock}
    (ha : Appends cr nowMs self b p chain retained o) :
    Recovers cr codec nowMs disk self.chain self.pending ∨
      Recovers cr codec nowMs disk o.node.chain o.node.pending := by
  obtain ⟨hblocks, hs'⟩ := hs.submitBlock hcodec hn ha
  have hafter := hs'.recovers hn'
  have hconf := hn'.confirmed
  obtain rfl := ha.outcome
  -- the block is in the log, and the pool is still the old one
  have hmid : Recovers cr codec nowMs (self.disk.write (.appendBlock b.toJson.print)) chain
      retained := ⟨_, hblocks, hs.pool, hconf ▸ ha.retain⟩
  cases h with
  | before => exact .inl (hs.recovers hn)
  | during _ h =>
    obtain ⟨torn, htorn, rfl⟩ := h
    rcases hs.blocks.holds.append_torn hs.blocksStable (plain_print _) ha.fits htorn
      with hholds | rfl
    · exact .inl ⟨_, ⟨hholds, hs.blocks.drift⟩, hs.pool,
        retainPending_self (hn.confirmed ▸ hn.queued)⟩
    · exact .inr hmid
  | later h =>
    obtain ⟨done, hdone, rfl⟩ := h.exists_prefix fun w hw d d' ht =>
      torn_replace ht (.inr (mem_poolWrites hw))
    refine .inr ?_
    rcases prefix_poolWrites hdone with rfl | rfl
    · exact hmid
    · exact hafter

theorem crash_publish (hinj : Set.InjOn cr.blake3 S) (hS : IdsIn S self.chain.blocks)
    {candidate : NativeChain} (hsound : Sound cr candidate)
    (hbudget : checkCandidateBudget candidate.blocks nowMs = .ok ())
    (hp : Publishes cr self candidate retained o) :
    Recovers cr codec nowMs disk self.chain self.pending ∨
      Recovers cr codec nowMs disk o.node.chain o.node.pending := by
  have hafter := (Stored.publish hcodec hn hsound hbudget hp).recovers hn'
  have hconf := hn'.confirmed
  obtain ⟨hblocks, -⟩ := blockLog_rows hcodec hbudget fun b hb => sound_sizes hsound hb
  obtain ⟨hlog, hpool, -⟩ := pool_poolWrites hcodec self.disk hs.pool hs.poolStable
    (fun t ht => valid_recovery hn.sound hn.valid candidate ht) (hn.count_recovery candidate)
  obtain rfl := hp.outcome
  -- the old chain drops the orphans again: it confirms them
  have hold : retainPending cr self.chain (confirmedIndex cr self.chain)
      (self.orphans cr candidate ++ self.pending.transfers) = .ok self.pending := by
    rw [retainPending_append fun t ht => ?_]
    · exact retainPending_self (hn.confirmed ▸ hn.queued)
    · exact (hn.sound.mem_confirmedIndex hinj hS).mpr
        (List.mem_map_of_mem (orphans_subset candidate ht))
  have hrecovery := (⟨_, hlog ▸ hs.blocks, hpool, hold⟩ : Recovers cr codec nowMs
    ((poolWrites self.pending.transfers (self.orphans cr candidate ++ self.pending.transfers)).foldl
      Disk.write self.disk) self.chain self.pending)
  have hreplaced : Recovers cr codec nowMs
      (((poolWrites self.pending.transfers
        (self.orphans cr candidate ++ self.pending.transfers)).foldl Disk.write self.disk).write
        (.replaceBlocks (blockRows candidate.blocks))) candidate retained :=
    ⟨_, hblocks, hpool, hconf ▸ hp.retain⟩
  obtain ⟨done, hdone, rfl⟩ := h.exists_prefix fun w hw d d' ht => torn_replace ht <| by
    rcases List.mem_append.mp hw with hw | hw
    · exact .inr (mem_poolWrites hw)
    · rcases List.mem_cons.mp hw with rfl | hw
      · exact .inl ⟨_, rfl⟩
      · exact .inr ⟨_, List.mem_singleton.mp hw⟩
  -- the disk is the last one, the one before it, or a disk with the old blocks
  rw [NativeNode.publish] at hdone hafter
  dsimp only at hdone hafter
  rw [List.append_cons, List.prefix_concat_iff, List.prefix_concat_iff] at hdone
  rcases hdone with rfl | rfl | hdone
  · refine .inr ?_
    rw [List.append_cons] at hafter
    exact hafter
  · refine .inr ?_
    rw [List.foldl_append]
    exact hreplaced
  · left
    rcases prefix_poolWrites hdone with rfl | rfl
    · exact hs.recovers hn
    · exact hrecovery

end Crash

/-- **A call that leaves the chain as it is loses no pending transfer.** -/
theorem pending_subset_of_same (h : Acts cr nowMs self o)
    (hsame : Same o.node.chain self.chain) :
    self.pending.transfers ⊆ o.node.pending.transfers := by
  cases h with
  | declined ho =>
    rw [ho]
    exact List.Subset.refl _
  | admitted ha =>
    obtain rfl := ha.outcome
    exact List.subset_append_left _ _
  | @appended _ _ chain _ ha =>
    obtain rfl := ha.outcome
    have hblocks : chain.blocks = self.chain.blocks := hsame.blocks
    rw [blocks_of_commit ha.prepare ha.commit] at hblocks
    simp at hblocks
  | @published candidate _ _ _ hp =>
    have hrank := hp.outranks
    obtain rfl := hp.outcome
    have hwork : candidate.cumulativeWork = self.chain.cumulativeWork := hsame.cumulativeWork
    have hhash : candidate.headHash cr = self.chain.headHash cr :=
      headHash_congr hsame.view
    simp [outranks, hwork, hhash] at hrank

theorem crash_call (hcodec : codec.Lawful) (hinj : Set.InjOn cr.blake3 S)
    (hS : IdsIn S self.chain.blocks) (hn : Invariant cr self) (hs : Stored cr codec nowMs self)
    (h : self.call cr nowMs c = .ok o)
    (hcrash : Crashed Disk.write Disk.Torn self.disk o.writes disk) :
    Recovers cr codec nowMs disk self.chain self.pending ∨
      Recovers cr codec nowMs disk o.node.chain o.node.pending := by
  have hn' := hn.call hinj hS h
  cases acts_of_call hn.sound h with
  | declined ho =>
    rw [ho] at hcrash
    rw [hcrash.eq_of_nil]
    exact .inl (hs.recovers hn)
  | admitted ha => exact crash_submitTransfer hcodec hn hs hn' hcrash ha
  | appended ha => exact crash_submitBlock hcodec hn hs hn' hcrash ha
  | published hsound hbudget hp =>
    exact crash_publish hcodec hn hs hn' hcrash hinj hS hsound hbudget hp

theorem Recovers.mono {pending : PendingState} (hclock : nowMs ≤ nowMs')
    (h : Recovers cr codec nowMs disk chain pending) :
    Recovers cr codec nowMs' disk chain pending := by
  obtain ⟨ts, hblocks, hrest⟩ := h
  exact ⟨ts, hblocks.mono hclock, hrest⟩

end NativeNode

/-! A codec that reads exactly what is printed is lawful, because printing is injective. -/

theorem NativeTransfer.toJson_injective : Function.Injective NativeTransfer.toJson := by
  intro t t' h
  cases t with | mk schema payload pk signature networkId =>
  cases t' with | mk schema' payload' pk' signature' networkId' =>
  cases payload
  cases payload'
  simp_all [NativeTransfer.toJson, NativeTransferPayload.toJson]

theorem NativeBlock.toJson_injective : Function.Injective NativeBlock.toJson := by
  intro b b' h
  cases b with | mk header nonce transfers signature =>
  cases b' with | mk header' nonce' transfers' signature' =>
  cases header
  cases header'
  simp_all [NativeBlock.toJson, NativeBlockHeader.toJson, transfersJson, jsonNat_inj,
    NativeTransfer.toJson_injective.list_map.eq_iff]

noncomputable def printedCodec : Codec where
  parseBlock := unprint fun b => b.toJson.print
  parseTransfer := unprint fun t => t.toJson.print

theorem printedCodec_lawful : printedCodec.Lawful where
  parseBlock_print b :=
    unprint_print (Value.print_injective.comp NativeBlock.toJson_injective) b
  parseTransfer_print t :=
    unprint_print (Value.print_injective.comp NativeTransfer.toJson_injective) t

namespace NativeNode

end NativeNode

end Native
