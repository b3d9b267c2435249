import Boole.Native.PendingView
import Boole.Native.Retarget

/-!
# Native/Template — a chain can always be extended

**On every verified chain a template exists for any transfers its pending view takes**
(`template_ok`): the ledger is consistent, the retargeted difficulty is defined, and the transfers
fit.  Along the way, what every block of a verified chain has been checked for: its height is its
place, and each of its transfers is valid on its own.
-/

open Library

namespace Native.NativeChain

open NativeLedger

variable {c : NativeChain} {ts : List NativeTransfer} {es : List SignedEnvelope}

/-! ## Verified chains -/

variable {cr : Crypto} {f : NativeChain}

/-- The ledger of a history is one that blocks reach from the network's genesis. -/
theorem History.reachable (hf : History cr f) : Reachable cr f.ledger := by
  induction hf with
  | genesis h =>
    obtain ⟨-, -, -, -, hl⟩ := new_eq_ok h
    obtain ⟨schedule, -, hl⟩ := bind_eq_ok.mp hl
    exact .genesis hl
  | @block c b p h es _ _ hx ih =>
    have happly : c.ledger.applyBlock cr b.header.height b.header.rewardPk es = .ok p.ledger := by
      rw [applyBlock, hx.ledger]
      rfl
    exact .block ih happly

/-- The rules of the network are the rules of the ledger. -/
theorem History.rules (hf : History cr f) :
    f.ledger.minimumFee = nativeTestnet.minimumFee ∧
      f.ledger.rewardMaturity = nativeTestnet.rewardMaturity := by
  induction hf with
  | genesis h =>
    obtain ⟨-, -, -, -, hl⟩ := new_eq_ok h
    simp only [NativeNetwork.ledger, newWithRules, bind_eq_ok, pure_eq_ok] at hl
    obtain ⟨_, -, _, -, hl⟩ := hl
    rw [← hl]
    exact ⟨rfl, rfl⟩
  | @block c b p h es _ _ hx ih =>
    obtain ⟨fs, l₁, l₂, e, hb⟩ := applyBlockInner_eq_ok hx.ledger
    obtain ⟨-, -, hfee, hmat, -⟩ := hb.rules
    exact ⟨hfee.trans ih.1, hmat.trans ih.2⟩

/-- The height of a history is a machine number. -/
theorem History.height_lt (hf : History cr f) : f.ledger.height < 2 ^ 64 := by
  have hlength := hf.lengths.2
  cases hf with
  | genesis h =>
    rw [hlength, (new_eq_ok h).2.1]
    decide
  | @block c b p h es hc _ hx =>
    obtain ⟨fs, l₁, l₂, e, hb⟩ := applyBlockInner_eq_ok hx.ledger
    have hlt := hb.height_lt
    rw [hx.height] at hlt
    rw [extend, hb.rules.2.2.2.2]
    exact hlt

theorem Sound.height_lt (hc : Sound cr c) : c.ledger.height < 2 ^ 64 := by
  obtain ⟨f, hf, hsame, -⟩ := hc
  exact hsame.ledger ▸ hf.height_lt

theorem Sound.height_eq (hc : Sound cr c) :
    c.ledger.height = c.blocks.length := by
  obtain ⟨f, hf, hsame, -⟩ := hc
  rw [hsame.ledger, hsame.blocks, hf.lengths.2]

/-- A block's height is its place on the chain. -/
theorem History.heights (hf : History cr f) {i : ℕ} {b : NativeBlock}
    (hb : f.blocks[i]? = some b) : b.header.height = i + 1 := by
  induction hf with
  | genesis h => simp [(new_eq_ok h).2.1] at hb
  | @block c b' p h es hc _ hx ih =>
    rw [extend, hx.block, List.getElem?_append] at hb
    split at hb
    · exact ih hb
    · obtain ⟨hi, rfl⟩ : i - c.blocks.length = 0 ∧ b' = b := by
        cases hi : i - c.blocks.length with
        | zero => simpa [hi] using hb
        | succ n => simp [hi] at hb
      rw [hx.height, hc.lengths.2]
      omega

theorem transferEnvelopes_mem (h : c.transferEnvelopes ts = .ok es) {t : NativeTransfer}
    (ht : t ∈ ts) : ∃ e ∈ es, t.toJson.toVec.length ≤ c.network.maxTransferBytes ∧
      t.envelope = .ok e := by
  simp only [transferEnvelopes, bind_eq_ok, mapM_eq_ok] at h
  obtain ⟨_, -, h⟩ := h
  obtain ⟨e, he, heq⟩ := List.mem_map.mp (h ▸ List.mem_map_of_mem ht)
  simp only [transferEnvelope, eq_comm (a := Except.ok e), bind_eq_ok, ensure_eq_ok] at heq
  obtain ⟨_, hsize, henv⟩ := heq
  exact ⟨e, he, hsize, henv⟩

theorem transferEnvelopes_ok (hcount : ts.length ≤ c.network.maxTransfersPerBlock)
    (hsize : ∀ t ∈ ts, t.toJson.toVec.length ≤ c.network.maxTransferBytes)
    (hes : ts.map NativeTransfer.envelope = es.map .ok) : c.transferEnvelopes ts = .ok es := by
  rw [transferEnvelopes, ensure_of hcount, ok_bind, mapM_eq_ok, ← hes]
  refine List.map_congr_left fun t ht => ?_
  rw [transferEnvelope, ensure_of (hsize t ht), ok_bind]

/-- **The transfers of a verified chain are valid on their own.** -/
theorem History.validated (hf : History cr f) {b : NativeBlock} (hb : b ∈ f.blocks)
    {t : NativeTransfer} (ht : t ∈ b.transfers) : ∃ fields, t.validatedFields cr = .ok fields := by
  induction hf with
  | genesis h => simp [(new_eq_ok h).2.1] at hb
  | @block c b' p h es hc _ hx ih =>
    rw [extend, hx.block, List.mem_append, List.mem_singleton] at hb
    rcases hb with hb | rfl
    · exact ih hb
    · obtain ⟨e, he, hsize, henv⟩ := transferEnvelopes_mem hx.envelopes ht
      obtain ⟨fs, l₁, l₂, _, happlied⟩ := applyBlockInner_eq_ok hx.ledger
      obtain ⟨fields, hvalid⟩ := happlied.run.valid he
      have hl₁ : l₁.networkId = nativeTestnet.networkId ∧
          l₁.minimumFee = nativeTestnet.minimumFee := by
        rw [happlied.unlocked.frame]
        exact ⟨hc.networkId, hc.rules.1⟩
      rw [hl₁.1, hl₁.2] at hvalid
      refine ⟨fields, ?_⟩
      rw [NativeTransfer.validatedFields, ensure_of (hc.network ▸ hsize), ok_bind, henv, ok_bind,
        hvalid]
      rfl

/-- **The difficulty of the next block is defined.** -/
theorem History.nextTarget_ok (hf : History cr f) : ∃ target, f.nextTarget = .ok target := by
  obtain ⟨text, htext, -⟩ := hf.nextTarget_range
  exact ⟨text, htext⟩

/-! ## Templates -/

/-- **A template exists for every list of transfers that the pending view takes,** with valid keys
and a timestamp past the median. -/
theorem Sound.template_ok (hc : Sound cr c) (hlen : c.blocks.length + 11 < 2 ^ 64)
    (hcount : ts.length ≤ nativeTestnet.maxTransfersPerBlock)
    (hsize : ∀ t ∈ ts, t.toJson.toVec.length ≤ nativeTestnet.maxTransferBytes)
    (hes : ts.map NativeTransfer.envelope = es.map .ok) {v v' : NativePendingView}
    (hv : c.ledger.pendingView = .ok v) (hpush : es.foldlM (NativePendingView.push cr) v = .ok v')
    {producerPk rewardPk : String} {k k' : Hex32} (hproducer : Hex32.fromHex producerPk = .ok k)
    (hreward : Hex32.fromHex rewardPk = .ok k') {minimum timestampMs : ℕ}
    (hmin : c.minimumTimestampMs = .ok minimum) (hle : minimum ≤ timestampMs) :
    ∃ template, c.template cr producerPk rewardPk timestampMs ts = .ok template := by
  have hheight := hc.height_eq
  obtain ⟨f, hf, hsame, -⟩ := hc
  have hnetwork : c.network = nativeTestnet := hsame.network.trans hf.network
  have hmaturity : c.ledger.rewardMaturity = 10 := by
    rw [hsame.ledger]
    exact hf.rules.2
  obtain ⟨target, htarget⟩ := hf.nextTarget_ok
  have htarget' : c.nextTarget = .ok target := by
    rw [← nextTarget_view, hsame.view, nextTarget_view, htarget]
  obtain ⟨l', hl'⟩ := applyBlock_of_pushes (hsame.ledger ▸ hf.reachable.consistent)
    (by omega) hv hpush hreward
  have henvelopes : c.transferEnvelopes ts = .ok es :=
    transferEnvelopes_ok (hnetwork ▸ hcount) (hnetwork ▸ hsize) hes
  rw [template, hmin, ok_bind, ensure_of hle, ok_bind, parseHex32, hproducer, mapErr, ok_bind,
    parseHex32, hreward, mapErr, ok_bind, checkedAdd, if_pos (by omega), okOr_some, ok_bind,
    henvelopes, ok_bind, hl', mapErr, htarget']
  exact ⟨_, rfl⟩

end Native.NativeChain
