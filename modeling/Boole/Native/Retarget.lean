import Boole.Native.Replay

/-!
# Native/Retarget — the target never leaves its range

The target of the next block is a function of the blocks below it, which carry timestamps their
producers chose and targets that were computed the same way:

    targets    initial ─ t₁ ─ t₂ ─ ⋯ ─ tₙ ─ nextTarget
    stamps               τ₁ ─ τ₂ ─ ⋯ ─ τₙ       every second block: ⌊tₙ · clamp(τₙ - τₙ₋₁) / 60000⌋

**On every chain in use the next target is defined and lies between one and the initial target**
(`Grown.retarget_well_behaved`), so that each block adds at least the work of the initial target.
-/

open Library

namespace Native

/-- A retarget of a positive target over a positive span is defined and positive. -/
theorem retargetTBlock_pos {policy : DifficultyRetargetPolicy} (hp : policy.validate = .ok ())
    {t e : ℕ} (ht : t ≠ 0) (he : e ≠ 0) (a : ℕ) :
    ∃ next, retargetTBlock t a e policy = .ok next ∧ 1 ≤ next := by
  rw [retargetTBlock, hp, ensure_of ht, ensure_of he]
  refine ⟨_, rfl, le_min ?_ (by decide)⟩
  split
  · exact le_rfl
  · exact Nat.one_le_iff_ne_zero.mpr ‹_›

theorem difficultyWeight_of_ne_zero {t : ℕ} (ht : t ≠ 0) :
    difficultyWeight t = .ok (2 ^ 256 / t) := if_neg ht

namespace NativeChain

/-- The text of a target between one and the limit. -/
def InRange (limit : Hex32) (text : String) : Prop :=
  ∃ target : Hex32, 1 ≤ target.toNat ∧ target.toNat ≤ limit.toNat ∧ text = target.toHex

/-- The initial target of the network, as a number. -/
def initialLimit : Hex32 := BitVec.ofNat 256 (2 ^ 240 - 1)

theorem initialTarget_eq : nativeTestnet.initialTarget = initialLimit.toHex := by decide +kernel

theorem inRange_initial : InRange initialLimit nativeTestnet.initialTarget :=
  ⟨initialLimit, by decide +kernel, le_rfl, initialTarget_eq⟩

/-- A positive number capped by the limit prints as a target in range. -/
theorem inRange_min {limit : Hex32} {n : ℕ} (hn : 1 ≤ n) (hlimit : 1 ≤ limit.toNat) :
    InRange limit (String.ofList (Library.toHex 64 (min n limit.toNat))) := by
  have hlt : min n limit.toNat < 2 ^ 256 := (min_le_right _ _).trans_lt limit.isLt
  have hval : (BitVec.ofNat 256 (min n limit.toNat)).toNat = min n limit.toNat := by
    rw [BitVec.toNat_ofNat, Nat.mod_eq_of_lt hlt]
  refine ⟨BitVec.ofNat 256 (min n limit.toNat), ?_, ?_, ?_⟩
  · rw [hval]
    exact le_min hn hlimit
  · rw [hval]
    exact min_le_right _ _
  · rw [Hex32.toHex, hval]

variable {cr : Crypto} {c f : NativeChain} {S : Set (List UInt8)}

/-- **One step of the schedule:** a last target in range gives a next one in range, whatever the
timestamps are. -/
theorem nextTarget_of_last (hnetwork : f.network = nativeTestnet)
    (hheight : f.ledger.height = f.blocks.length) {last : NativeBlock}
    (hlast : f.blocks.getLast? = some last) (hrange : InRange initialLimit last.header.target) :
    ∃ text, f.nextTarget = .ok text ∧ InRange initialLimit text := by
  rw [NativeChain.nextTarget, hlast, hnetwork]
  dsimp only
  split_ifs with hcond
  · exact ⟨_, rfl, hrange⟩
  · have htwo : 2 ≤ f.blocks.length := by
      have : ¬f.ledger.height < 2 := fun h => hcond (.inl h)
      omega
    obtain ⟨first, hfirst⟩ : ∃ first, f.blocks[f.blocks.length - 2]? = some first :=
      ⟨_, List.getElem?_eq_getElem (by omega)⟩
    obtain ⟨target, hpos, -, htext⟩ := hrange
    have hvalid : nativeTestnet.retarget.validate = .ok () := by decide
    obtain ⟨next, hnext, hone⟩ := retargetTBlock_pos hvalid (Nat.ne_of_gt hpos)
      (by decide : 60000 ≠ 0) (max (last.header.timestampMs - first.header.timestampMs) 1)
    refine ⟨_, ?_, inRange_min hone (by decide +kernel)⟩
    rw [show nativeTestnet.retarget.retargetEveryBlocks = 2 from rfl, hfirst, okOr_some, ok_bind,
      parseHex32, htext, Hex32.fromHex_toHex, mapErr, ok_bind,
      show checkedMul 64 nativeTestnet.retarget.targetBlockMs (2 - 1) = some 60000 from rfl,
      okOr_some, ok_bind, hnext, parseHex32, initialTarget_eq, Hex32.fromHex_toHex]
    rfl

/-- **The target stays in range along a verified chain.**  The induction is on its blocks: each
carries the next target of the ones before. -/
theorem History.nextTarget_range (hf : History cr f) :
    ∃ text, f.nextTarget = .ok text ∧ InRange initialLimit text := by
  induction hf with
  | genesis h =>
    obtain ⟨hnetwork, hblocks, -⟩ := new_eq_ok h
    rw [NativeChain.nextTarget, hblocks, hnetwork]
    exact ⟨_, rfl, inRange_initial⟩
  | @block c b p h es hc hp hx ih =>
    have hf : History cr (c.extend p h) := .block hc hp hx
    obtain ⟨text, htext, hrange⟩ := ih
    obtain rfl : text = b.header.target := Except.ok.inj (htext.symm.trans hx.target)
    exact nextTarget_of_last hf.network hf.lengths.2 (by simp [extend, hx.block]) hrange

theorem Sound.nextTarget_range (hc : Sound cr c) :
    ∃ text, c.nextTarget = .ok text ∧ InRange initialLimit text := by
  obtain ⟨f, hf, hsame, -⟩ := hc
  rw [← nextTarget_view, hsame.view, nextTarget_view]
  exact hf.nextTarget_range

/-- The work of a target in range is defined and no less than that of the limit. -/
theorem InRange.work {limit : Hex32} {text : String} (h : InRange limit text) {target : Hex32}
    (htarget : Hex32.fromHex text = .ok target) : ∃ w, difficultyWeight target.toNat = .ok w ∧
      2 ^ 256 / limit.toNat ≤ w := by
  obtain ⟨target', hpos, hle, rfl⟩ := h
  obtain rfl : target' = target := Except.ok.inj ((Hex32.fromHex_toHex target').symm.trans htarget)
  exact ⟨_, difficultyWeight_of_ne_zero (Nat.ne_of_gt hpos), Nat.div_le_div_left hle hpos⟩

theorem prepare_work {p : PreparedNativeBlock} {b : NativeBlock} (hc : Sound cr c)
    (hp : c.prepare cr b = .ok p) :
    c.cumulativeWork + 2 ^ 256 / initialLimit.toNat ≤ p.cumulativeWork := by
  obtain ⟨_, _, hx⟩ := prepare_eq_ok hp
  obtain ⟨text, htext, hrange⟩ := hc.nextTarget_range
  obtain rfl : text = b.header.target := Except.ok.inj (htext.symm.trans hx.target)
  obtain ⟨target, w, htarget, -, hw, hwork⟩ := hx.work
  obtain ⟨w', hw', hle⟩ := hrange.work htarget
  obtain rfl : w' = w := Except.ok.inj (hw'.symm.trans hw)
  omega

/-- Chains in use with the same head are in the same state. -/
theorem Grown.view_eq_of_headHash {c₀ : NativeChain} (hinj : Set.InjOn cr.blake3 S)
    (hgen : nativeTestnet.genesisInput ∈ S) (hc : Grown cr S c) (hc₀ : Grown cr S c₀)
    (heads : c.headHash cr = c₀.headHash cr) : c.view = c₀.view := by
  obtain ⟨⟨f, hf, hsame, -⟩, hhashed⟩ := hc.sound hinj hgen
  obtain ⟨⟨f₀, hf₀, hsame₀, -⟩, hhashed₀⟩ := hc₀.sound hinj hgen
  rw [headHash_congr hsame.view, headHash_congr hsame₀.view] at heads
  have hview : f.view = f₀.view := hf.view_eq_of_headHash hinj hf₀ (hsame.blocks ▸ hhashed)
    (hsame₀.blocks ▸ hhashed₀) heads
  exact hsame.view.trans (hview.trans hsame₀.view.symm)

/-- **Retargeting is well behaved on every chain in use.**  The next target is defined, sixty-four
digits of a number between one and the initial target; its work is defined; and a block, appended or
prepared before on any chain with this head, adds at least the work of the initial target, which is
not zero. -/
theorem Grown.retarget_well_behaved (hinj : Set.InjOn cr.blake3 S)
    (hgen : nativeTestnet.genesisInput ∈ S) (hc : Grown cr S c) :
    ∃ limit : Hex32, parseHex32 c.network.initialTarget = .ok limit ∧
      (∃ target : Hex32, c.nextTarget = .ok target.toHex ∧ 1 ≤ target.toNat ∧
        target.toNat ≤ limit.toNat ∧
        difficultyWeight target.toNat = .ok (2 ^ 256 / target.toNat)) ∧
      0 < 2 ^ 256 / limit.toNat ∧
      (∀ b c', c.append cr b = .ok c' →
        c.cumulativeWork + 2 ^ 256 / limit.toNat ≤ c'.cumulativeWork) ∧
      (∀ c₀ b p c', Grown cr S c₀ → c₀.prepare cr b = .ok p → c.commit cr p = .ok c' →
        c.cumulativeWork + 2 ^ 256 / limit.toNat ≤ c'.cumulativeWork) := by
  obtain ⟨hsound, -⟩ := hc.sound hinj hgen
  have hcommit : ∀ c₀ b p c', Grown cr S c₀ → c₀.prepare cr b = .ok p → c.commit cr p = .ok c' →
      c.cumulativeWork + 2 ^ 256 / initialLimit.toNat ≤ c'.cumulativeWork := by
    intro c₀ b p c' hc₀ hp h
    obtain ⟨_, _, hx⟩ := prepare_eq_ok hp
    obtain ⟨_, hprev, -, hsame, -⟩ := commit_eq_ok h
    -- The staleness check compares heads, and equal heads have done the same work.
    have hheads : c.headHash cr = c₀.headHash cr := by
      apply Hex32.toHex_injective
      rw [← hprev, hx.block, hx.link]
    obtain ⟨-, -, -, hwork⟩ := view_eq_iff.mp (hc.view_eq_of_headHash hinj hgen hc₀ hheads)
    rw [hsame.cumulativeWork, hwork]
    exact prepare_work (hc₀.sound hinj hgen).1 hp
  have hnetwork : c.network = nativeTestnet := by
    obtain ⟨f, hf, hsame, -⟩ := hsound
    exact hsame.network.trans hf.network
  obtain ⟨_, htext, target, hpos, hle, rfl⟩ := hsound.nextTarget_range
  refine ⟨initialLimit, ?_, ⟨target, htext, hpos, hle,
    difficultyWeight_of_ne_zero (Nat.ne_of_gt hpos)⟩, by decide +kernel, fun b c' h => ?_, hcommit⟩
  · rw [hnetwork, initialTarget_eq, parseHex32, Hex32.fromHex_toHex, mapErr]
  · obtain ⟨p, hp, h⟩ := bind_eq_ok.mp h
    exact hcommit c b p c' hc hp h

theorem Grown.retarget_well_behaved_one_block : ∃ c : NativeChain, c.blocks = [exampleBlock] ∧
    ∃ target : Hex32, c.nextTarget = .ok target.toHex ∧ 1 ≤ target.toNat := by
  obtain ⟨c, c', hc, hc', hblocks⟩ := exampleBlock_appends
  have hgrown : Grown domainCrypto exampleInputs c' :=
    .append (.new hc) (fun i hi => List.mem_cons_of_mem _ hi) hc'
  obtain ⟨limit, -, ⟨target, htarget, hpos, -⟩, -⟩ :=
    Grown.retarget_well_behaved exampleInputs_injOn List.mem_cons_self hgrown
  exact ⟨c', hblocks, target, htarget, hpos⟩

end NativeChain

end Native
