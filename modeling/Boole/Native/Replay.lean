import Boole.Native.HeadHash
import Boole.Native.LedgerUndo

/-!
# Native/Replay — a chain is the replay of its blocks

However a chain came about — blocks appended, blocks prepared elsewhere and committed, recent
prefixes forked off and grown again — **it equals the replay of its own blocks**
(`grown_eq_replay`).  The invariant says that the undo window is a final segment of the inverses of
a full history (`Sound`); growing appends to both, forking drops the last of both.  **The head hash
of a replay commits everything but the signatures** (`replay_eq_of_headHash`).
-/

open Library

namespace Native.NativeChain

open NativeChain

variable {c c' f : NativeChain} {cr : Crypto} {p : PreparedNativeBlock} {b : NativeBlock}
  {bs : List NativeBlock}

/-! ## Histories and replays -/

theorem Same.view (h : Same c c') : c.view = c'.view :=
  view_eq_iff.mpr ⟨h.network, by rw [h.blocks], h.ledger, h.cumulativeWork⟩

theorem Same.symm (h : Same c c') : Same c' c :=
  ⟨h.network.symm, h.blocks.symm, h.ledger.symm, h.cumulativeWork.symm⟩

theorem Same.trans {c₁ c₂ c₃ : NativeChain} (h : Same c₁ c₂) (h' : Same c₂ c₃) : Same c₁ c₃ :=
  ⟨h.network.trans h'.network, h.blocks.trans h'.blocks, h.ledger.trans h'.ledger,
    h.cumulativeWork.trans h'.cumulativeWork⟩

theorem headHash_congr (h : c.view = c'.view) :
    c.headHash cr = c'.headHash cr := by
  rw [← headHash_view, h, headHash_view]

theorem prepare_congr (h : c.view = c'.view) (b : NativeBlock) :
    c.prepare cr b = c'.prepare cr b := by
  rw [← prepare_view, h, prepare_view]

/-- A history has an inverse for every block, and its height counts them. -/
theorem History.lengths (hf : History cr f) :
    f.recentUndo.length = f.blocks.length ∧ f.ledger.height = f.blocks.length := by
  induction hf with
  | genesis h =>
    obtain ⟨-, hblocks, -, hundo, hl⟩ := new_eq_ok h
    simp only [NativeNetwork.ledger, NativeLedger.newWithRules, bind_eq_ok, pure_eq_ok] at hl
    obtain ⟨_, -, _, -, hl⟩ := hl
    rw [hblocks, hundo, ← hl]
    exact ⟨rfl, rfl⟩
  | @block c b p h es _ _ hx ih =>
    obtain ⟨fs, l₁, l₂, e, hb⟩ := NativeLedger.applyBlockInner_eq_ok hx.ledger
    have hheight := hb.rules.2.2.2.2
    simp only [extend, List.length_append, List.length_singleton]
    omega

/-- A chain whose blocks were verified one after the other, and whose window is the last part of
their inverses. -/
def Sound (cr : Crypto) (c : NativeChain) : Prop :=
  ∃ f, History cr f ∧ Same c f ∧ c.recentUndo <:+ f.recentUndo

theorem sound_new (h : new = .ok c) : Sound cr c :=
  ⟨c, .genesis h, ⟨rfl, rfl, rfl, rfl⟩, List.suffix_rfl⟩

theorem commit_eq_ok (h : c.commit cr p = .ok c') :
    ∃ hash, p.block.header.previousHash = (c.headHash cr).toHex ∧
      p.block.hash cr = .ok hash ∧ Same c' (c.extend p hash) ∧
      c'.recentUndo <:+ (c.extend p hash).recentUndo := by
  simp only [commit, bind_eq_ok, ensure_eq_ok, pure_eq_ok] at h
  obtain ⟨_, hprev, hash, hh, rfl⟩ := h
  refine ⟨hash, hprev, hh, ⟨rfl, rfl, rfl, rfl⟩, ?_⟩
  split
  · exact List.tail_suffix _
  · exact List.suffix_rfl

theorem blocks_of_commit {c₀ : NativeChain} (hp : c₀.prepare cr b = .ok p)
    (h : c.commit cr p = .ok c') :
    c'.blocks = c.blocks ++ [b] := by
  obtain ⟨hash, es, hx⟩ := prepare_eq_ok hp
  obtain ⟨_, -, -, hsame, -⟩ := commit_eq_ok h
  rw [hsame.blocks, extend, hx.block]

/-- **A block prepared on a history grows every sound chain with the same state.** -/
theorem Sound.commit_of_prepare (hf : History cr f) (hsame : Same c f)
    (hundo : c.recentUndo <:+ f.recentUndo) (hp : f.prepare cr b = .ok p)
    (hc' : c.commit cr p = .ok c') : Sound cr c' := by
  obtain ⟨h, es, hx⟩ := prepare_eq_ok hp
  obtain ⟨hash, -, hh, hsame', hundo'⟩ := commit_eq_ok hc'
  rw [hx.block, hx.hash] at hh
  obtain rfl := Except.ok.inj hh
  refine ⟨f.extend p h, .block hf hp hx, hsame'.trans ?_, hundo'.trans ?_⟩
  · exact ⟨hsame.network, by simp [extend, hsame.blocks], rfl, rfl⟩
  · obtain ⟨older, hundo⟩ := hundo
    refine ⟨older, ?_⟩
    simp only [extend, ← hundo, List.append_assoc, hsame.cumulativeWork]

theorem Sound.append (hc : Sound cr c) (h : c.append cr b = .ok c') : Sound cr c' := by
  obtain ⟨f, hf, hsame, hundo⟩ := hc
  obtain ⟨p, hp, hcommit⟩ := bind_eq_ok.mp h
  rw [prepare_congr hsame.view] at hp
  exact Sound.commit_of_prepare hf hsame hundo hp hcommit

/-- What is prepared on a chain can be committed to it. -/
theorem commit_ok_of_prepare (hp : c.prepare cr b = .ok p) : ∃ c', c.commit cr p = .ok c' := by
  obtain ⟨h, es, hx⟩ := prepare_eq_ok hp
  rw [commit, hx.block, ensure_of hx.link, hx.hash]
  exact ⟨_, rfl⟩

/-- **The blocks of a history replay to it.** -/
theorem History.replay (hf : History cr f) :
    ∃ r, replay cr f.blocks = .ok r ∧ Same r f := by
  induction hf with
  | genesis h =>
    obtain ⟨-, hblocks, -, -, -⟩ := new_eq_ok h
    refine ⟨_, ?_, rfl, rfl, rfl, rfl⟩
    rw [NativeChain.replay, hblocks, h]
    rfl
  | @block c b p h es hc hp hx ih =>
    obtain ⟨r, hr, hsame⟩ := ih
    have hp' : r.prepare cr b = .ok p := by rw [prepare_congr hsame.view, hp]
    obtain ⟨c', hc'⟩ := commit_ok_of_prepare hp'
    obtain ⟨hash, -, hh, hsame', -⟩ := commit_eq_ok hc'
    refine ⟨c', ?_, hsame'.trans ⟨hsame.network, by simp [extend, hsame.blocks], rfl, rfl⟩⟩
    simp only [NativeChain.replay, extend, hx.block, List.foldlM_append] at hr ⊢
    obtain ⟨g, hg, hfold⟩ := bind_eq_ok.mp hr
    rw [hg, ok_bind, hfold, ok_bind, List.foldlM_cons, NativeChain.append, hp', ok_bind, hc']
    rfl

theorem foldlM_append_sound (hc : Sound cr c) (h : bs.foldlM (NativeChain.append cr) c = .ok c') :
    Sound cr c' :=
  foldlM_invariant (Sound cr) (fun _ _ _ _ hs h => hs.append h) hc h

theorem sound_replay (h : replay cr bs = .ok c) : Sound cr c := by
  obtain ⟨g, hg, hfold⟩ := bind_eq_ok.mp h
  exact foldlM_append_sound (sound_new hg) hfold

theorem foldlM_append_blocks (h : bs.foldlM (append cr) c = .ok c') :
    c'.blocks = c.blocks ++ bs := by
  induction bs generalizing c with
  | nil =>
    obtain rfl : c = c' := by simpa using h
    simp
  | cons b bs ih =>
    rw [List.foldlM_cons] at h
    obtain ⟨c₁, h₁, hrest⟩ := bind_eq_ok.mp h
    obtain ⟨p, hp, hcommit⟩ := bind_eq_ok.mp h₁
    rw [ih hrest, blocks_of_commit hp hcommit, List.append_assoc, List.singleton_append]

theorem blocks_of_replay (h : replay cr bs = .ok c) : c.blocks = bs := by
  obtain ⟨g, hg, hfold⟩ := bind_eq_ok.mp h
  rw [foldlM_append_blocks hfold, (new_eq_ok hg).2.1, List.nil_append]

/-- A replay passes through the replays of its prefixes. -/
theorem replay_prefix (h : replay cr bs = .ok c) {i : ℕ} (hb : bs[i]? = some b) :
    ∃ before after, replay cr (bs.take i) = .ok before ∧
      before.append cr b = .ok after ∧ replay cr (bs.take (i + 1)) = .ok after := by
  obtain ⟨g, hg, hfold⟩ := bind_eq_ok.mp h
  rw [← List.take_append_drop (i + 1) bs, List.foldlM_append] at hfold
  obtain ⟨after, hafter, -⟩ := bind_eq_ok.mp hfold
  have htake : bs.take (i + 1) = bs.take i ++ [b] := by
    rw [List.take_add_one, hb]
    rfl
  have hafter' := hafter
  rw [htake, List.foldlM_append] at hafter'
  obtain ⟨before, hbefore, hstep⟩ := bind_eq_ok.mp hafter'
  rw [List.foldlM_cons] at hstep
  obtain ⟨_, hone, hnil⟩ := bind_eq_ok.mp hstep
  obtain rfl := Except.ok.inj hnil
  refine ⟨before, _, ?_, hone, ?_⟩
  · rw [replay, hg]
    exact hbefore
  · rw [replay, hg]
    exact hafter

theorem Sound.replay (hc : Sound cr c) :
    ∃ r, replay cr c.blocks = .ok r ∧ Same r c := by
  obtain ⟨f, hf, hsame, -⟩ := hc
  obtain ⟨r, hr, hrf⟩ := hf.replay
  exact ⟨r, hsame.blocks ▸ hr, hrf.trans hsame.symm⟩

/-! ## Forks -/

/-- **The head of a sound chain can be taken back while the window lasts,** and what is left is
sound. -/
theorem Sound.undoHead (hc : Sound cr c) (hne : c.recentUndo ≠ []) :
    ∃ c', c.undoHead cr = .ok c' ∧ Sound cr c' ∧
      c'.blocks = c.blocks.dropLast ∧ c'.recentUndo = c.recentUndo.dropLast := by
  obtain ⟨f, hf, hsame, older, hundo⟩ := hc
  cases hf with
  | genesis h =>
    obtain ⟨-, -, -, hnil, -⟩ := new_eq_ok h
    rw [hnil] at hundo
    exact absurd (List.append_eq_nil_iff.mp hundo).2 hne
  | @block f b p h es hf hp hx =>
    obtain ⟨newer, last, hlast⟩ : ∃ newer last, c.recentUndo = newer ++ [last] :=
      ⟨_, _, (List.dropLast_append_getLast hne).symm⟩
    -- the window and the history end with the same inverse
    rw [hlast, ← List.append_assoc] at hundo
    obtain ⟨holder, hinv⟩ := List.append_inj' hundo rfl
    obtain rfl : last = ⟨h, f.cumulativeWork, p.undo⟩ := by simpa using hinv
    have hhead : c.headHash cr = h := by rw [headHash_congr hsame.view, headHash_extend hx]
    have hledger : c.ledger.undoBlock p.undo = .ok f.ledger := by
      rw [hsame.ledger]
      exact undoBlock_prepareBlock hx.ledger
    have hok : c.undoHead cr = .ok { c with
        recentUndo := c.recentUndo.dropLast
        ledger := f.ledger
        cumulativeWork := f.cumulativeWork
        blocks := c.blocks.dropLast } := by
      rw [NativeChain.undoHead, hlast, List.getLast?_append, List.getLast?_singleton,
        Option.some_or, okOr_some, ok_bind, ensure_of hhead.symm, hledger]
      rfl
    refine ⟨_, hok, ⟨f, hf, ⟨hsame.network, ?_, rfl, rfl⟩, older, ?_⟩, rfl, rfl⟩
    · simp [hsame.blocks, extend]
    · simpa [hlast] using holder

theorem Sound.undoHeads (depth : ℕ) (hc : Sound cr c) (hdepth : depth ≤ c.recentUndo.length) :
    ∃ c', undoHeads cr depth c = .ok c' ∧
      Sound cr c' ∧ c'.blocks = c.blocks.take (c.blocks.length - depth) := by
  induction depth generalizing c with
  | zero => exact ⟨c, rfl, hc, by simp⟩
  | succ depth ih =>
    have hne : c.recentUndo ≠ [] := by
      rintro hnil
      simp [hnil] at hdepth
    obtain ⟨c₁, h₁, hc₁, hblocks, hundo⟩ := hc.undoHead hne
    have hdepth₁ : depth ≤ c₁.recentUndo.length := by
      rw [hundo, List.length_dropLast]
      omega
    obtain ⟨c', h', hc', hblocks'⟩ := ih hc₁ hdepth₁
    refine ⟨c', ?_, hc', ?_⟩
    · rw [undoHeads, h₁, ok_bind, h']
    · rw [hblocks', hblocks, List.length_dropLast, List.dropLast_eq_take, List.take_take]
      congr 1
      omega

theorem Sound.forkAt (hc : Sound cr c) {height : ℕ} (hle : height ≤ c.blocks.length)
    (hdepth : c.blocks.length - height ≤ c.recentUndo.length) :
    ∃ c', c.forkAt cr height = .ok c' ∧ Sound cr c' ∧ c'.blocks = c.blocks.take height := by
  obtain ⟨c', h', hc', hblocks⟩ := hc.undoHeads _ hdepth
  refine ⟨c', ?_, hc', ?_⟩
  · rw [NativeChain.forkAt, checkedSub, if_pos hle, okOr_some, ok_bind, ensure_of hdepth, ok_bind,
      h']
  · rw [hblocks]
    congr 1
    omega

theorem forkAt_eq_ok {height : ℕ} (h : c.forkAt cr height = .ok c') :
    height ≤ c.blocks.length ∧ c.blocks.length - height ≤ c.recentUndo.length := by
  simp only [forkAt, bind_eq_ok, okOr_eq_ok, checkedSub_eq_some, ensure_eq_ok] at h
  obtain ⟨_, ⟨hle, rfl⟩, _, hdepth, -⟩ := h
  exact ⟨hle, hdepth⟩

theorem Sound.window (hc : Sound cr c) :
    c.recentUndo.length ≤ c.ledger.height := by
  obtain ⟨f, hf, hsame, hundo⟩ := hc
  obtain ⟨hlen, hheight⟩ := hf.lengths
  rw [hsame.ledger, hheight, ← hlen]
  exact hundo.length_le

/-! ## Chains in use -/

/-- The chains that come about by using the interface: appending, committing a block that was
prepared on any such chain, and forking.  `S` collects the inputs that are hashed. -/
inductive Grown (cr : Crypto) (S : Set (List UInt8)) : NativeChain → Prop
  | new {c : NativeChain} (h : NativeChain.new = .ok c) : Grown cr S c
  | append {c c' : NativeChain} {b : NativeBlock} (hc : Grown cr S c)
      (hb : ∀ i ∈ b.hashed, i ∈ S) (h : c.append cr b = .ok c') : Grown cr S c'
  | commit {c c₀ c' : NativeChain} {b : NativeBlock} {p : PreparedNativeBlock}
      (hc : Grown cr S c) (hc₀ : Grown cr S c₀) (hb : ∀ i ∈ b.hashed, i ∈ S)
      (hp : c₀.prepare cr b = .ok p) (h : c.commit cr p = .ok c') : Grown cr S c'
  | fork {c c' : NativeChain} {height : ℕ} (hc : Grown cr S c)
      (h : c.forkAt cr height = .ok c') : Grown cr S c'

theorem Hashed.snoc {S : Set (List UInt8)} (hbs : Hashed S bs) (hb : ∀ i ∈ b.hashed, i ∈ S) :
    Hashed S (bs ++ [b]) := by
  refine ⟨hbs.genesis, fun b' hb' => ?_⟩
  rcases List.mem_append.mp hb' with hb' | hb'
  · exact hbs.blocks b' hb'
  · rw [List.mem_singleton.mp hb']
    exact hb

/-- **Every chain in use is sound.**  A block prepared elsewhere passes the staleness check only if
the head hashes agree, and then so do the states it was prepared on and is committed to. -/
theorem Grown.sound {S : Set (List UInt8)} (hinj : Set.InjOn cr.blake3 S)
    (hgen : nativeTestnet.genesisInput ∈ S) (hc : Grown cr S c) :
    Sound cr c ∧ Hashed S c.blocks := by
  induction hc with
  | new h =>
    refine ⟨sound_new h, hgen, fun b hb => ?_⟩
    simp [(new_eq_ok h).2.1] at hb
  | append hc hb h ih =>
    obtain ⟨hsound, hhashed⟩ := ih
    obtain ⟨p, hp, hcommit⟩ := bind_eq_ok.mp h
    rw [blocks_of_commit hp hcommit]
    exact ⟨hsound.append h, hhashed.snoc hb⟩
  | @commit c c₀ c' b p hc hc₀ hb hp h ih ih₀ =>
    obtain ⟨⟨f, hf, hsame, hundo⟩, hhashed⟩ := ih
    obtain ⟨⟨f₀, hf₀, hsame₀, -⟩, hhashed₀⟩ := ih₀
    obtain ⟨hash, es, hx⟩ := prepare_eq_ok hp
    obtain ⟨_, hprev, -, -, -⟩ := commit_eq_ok h
    have hheads : f.headHash cr = f₀.headHash cr := by
      rw [← headHash_congr hsame.view, ← headHash_congr hsame₀.view]
      apply Hex32.toHex_injective
      rw [← hprev, hx.block, hx.link]
    have hview : f.view = f₀.view := hf.view_eq_of_headHash hinj hf₀ (hsame.blocks ▸ hhashed)
      (hsame₀.blocks ▸ hhashed₀) hheads
    have hpf : f.prepare cr b = .ok p := by
      rw [prepare_congr (hview.trans hsame₀.view.symm), hp]
    rw [blocks_of_commit hp h]
    exact ⟨Sound.commit_of_prepare hf hsame hundo hpf h, hhashed.snoc hb⟩
  | fork hc h ih =>
    obtain ⟨hsound, hhashed⟩ := ih
    obtain ⟨hle, hdepth⟩ := forkAt_eq_ok h
    obtain ⟨c'', h'', hsound'', hblocks⟩ := hsound.forkAt hle hdepth
    obtain rfl := Except.ok.inj (h''.symm.trans h)
    exact ⟨hsound'', hhashed.mono (by rw [hblocks]; exact List.take_subset _ _)⟩

/-- **A chain equals the replay of its own blocks.**  It also equals it after forking at any height
the window reaches, where no inverse fails; and the window never reaches below genesis. -/
theorem grown_eq_replay {cr : Crypto} {S : Set (List UInt8)} (hinj : Set.InjOn cr.blake3 S)
    (hgen : nativeTestnet.genesisInput ∈ S) {c : NativeChain} (hc : Grown cr S c) :
    (∃ r, NativeChain.replay cr c.blocks = .ok r ∧ Same c r) ∧
    (∀ height, height ≤ c.blocks.length →
      c.blocks.length - height ≤ c.recentUndo.length →
      ∃ fork r, c.forkAt cr height = .ok fork ∧
        NativeChain.replay cr (c.blocks.take height) = .ok r ∧ Same fork r) ∧
    c.recentUndo.length ≤ c.ledger.height := by
  obtain ⟨hsound, -⟩ := hc.sound hinj hgen
  refine ⟨?_, fun height hle hdepth => ?_, hsound.window⟩
  · obtain ⟨r, hr, hsame⟩ := hsound.replay
    exact ⟨r, hr, hsame.symm⟩
  · obtain ⟨fork, hfork, hsound', hblocks⟩ := hsound.forkAt hle hdepth
    obtain ⟨r, hr, hsame⟩ := hsound'.replay
    exact ⟨fork, r, hfork, hblocks ▸ hr, hsame.symm⟩

/-! A hash function that reads the domain of its input tells the inputs of a short chain apart. -/

/-- The fourteenth byte is where the domains of the chain's inputs differ. -/
def domainCrypto : Crypto where
  blake3 input := BitVec.ofNat 256 (input.getD 13 0).toNat
  sha256 _ := 0
  keyError _ := none
  verify _ _ _ := true

def exampleBlock : NativeBlock where
  header := {
    schema := blockSchema
    networkId := nativeTestnetNetworkId
    genesisHash := Hex32.toHex 103
    height := 1
    previousHash := Hex32.toHex 103
    producerPk := Hex32.toHex 1
    rewardPk := Hex32.toHex 1
    timestampMs := 1
    target := nativeTestnet.initialTarget
    transfersRoot := Hex32.toHex 116 }
  nonce := "0"
  transfers := []
  producerSignature := String.ofList (List.replicate 128 '0')

def exampleInputs : Set (List UInt8) := { i | i ∈ nativeTestnet.genesisInput :: exampleBlock.hashed }

theorem exampleInputs_injOn : Set.InjOn domainCrypto.blake3 exampleInputs := by
  have hval : (nativeTestnet.genesisInput :: exampleBlock.hashed).map domainCrypto.blake3
      = [103, 98, 116] := by decide +kernel
  have hnodup : ((nativeTestnet.genesisInput :: exampleBlock.hashed).map
      domainCrypto.blake3).Nodup := by
    rw [hval]
    decide
  exact fun i hi j hj h => List.inj_on_of_nodup_map hnodup hi hj h

/-- The same block under another signature. -/
def resignedBlock : NativeBlock :=
  { exampleBlock with producerSignature := String.ofList (List.replicate 128 '1') }

theorem append_example (hb : b ∈ [exampleBlock, resignedBlock]) :
    ∃ c c', new = .ok c ∧ c.append domainCrypto b = .ok c' ∧ c'.blocks = [b] := by
  have hok : ∀ b ∈ [exampleBlock, resignedBlock],
      (new >>= fun c => c.append domainCrypto b).isOk = true := by decide +kernel
  obtain ⟨c', h⟩ := exists_eq_ok_of_isOk (hok b hb)
  obtain ⟨c, hc, hc'⟩ := bind_eq_ok.mp h
  obtain ⟨p, hp, hcommit⟩ := bind_eq_ok.mp hc'
  refine ⟨c, c', hc, hc', ?_⟩
  rw [blocks_of_commit hp hcommit, (new_eq_ok hc).2.1, List.nil_append]

theorem exampleBlock_appends : ∃ c c', new = .ok c ∧
    c.append domainCrypto exampleBlock = .ok c' ∧ c'.blocks = [exampleBlock] :=
  append_example List.mem_cons_self

theorem replay_example (hb : b ∈ [exampleBlock, resignedBlock]) :
    ∃ c, replay domainCrypto [b] = .ok c := by
  obtain ⟨c, c', hc, hc', -⟩ := append_example hb
  refine ⟨c', ?_⟩
  rw [replay, hc, ok_bind, List.foldlM_cons, hc']
  rfl

theorem exampleBlock_replays :
    ∃ c, replay domainCrypto [exampleBlock] = .ok c :=
  replay_example List.mem_cons_self

theorem grown_eq_replay_one_block : ∃ c, c.blocks = [exampleBlock] ∧
    Grown domainCrypto exampleInputs c ∧
    ∃ r, NativeChain.replay domainCrypto c.blocks = .ok r ∧ Same c r := by
  obtain ⟨c, c', hc, hc', hblocks⟩ := exampleBlock_appends
  have hgrown : Grown domainCrypto exampleInputs c' :=
    .append (.new hc) (fun i hi => List.mem_cons_of_mem _ hi) hc'
  exact ⟨c', hblocks, hgrown,
    (grown_eq_replay exampleInputs_injOn List.mem_cons_self hgrown).1⟩

/-! ## The head hash -/

/-- **The head hash of a replayed chain commits its state:** the height, the ledger, the work and,
up to the producers' signatures, the blocks. -/
theorem replay_eq_of_headHash {cr : Crypto} {S : Set (List UInt8)} (hinj : Set.InjOn cr.blake3 S)
    {bs bs' : List NativeBlock} {c c' : NativeChain} (hS : Hashed S bs) (hS' : Hashed S bs')
    (h : NativeChain.replay cr bs = .ok c) (h' : NativeChain.replay cr bs' = .ok c')
    (heq : c.headHash cr = c'.headHash cr) :
    c.ledger.height = c'.ledger.height ∧ c.ledger = c'.ledger ∧
      c.cumulativeWork = c'.cumulativeWork ∧
      bs.map NativeBlock.unsigned = bs'.map NativeBlock.unsigned := by
  rw [← blocks_of_replay h] at hS ⊢
  rw [← blocks_of_replay h'] at hS' ⊢
  obtain ⟨f, hf, hsame, -⟩ := sound_replay h
  obtain ⟨f', hf', hsame', -⟩ := sound_replay h'
  rw [hsame.blocks] at hS
  rw [hsame'.blocks] at hS'
  rw [headHash_congr hsame.view, headHash_congr hsame'.view] at heq
  have hview := hf.view_eq_of_headHash hinj hf' hS hS' heq
  obtain ⟨-, hblocks, hledger, hwork⟩ :=
    view_eq_iff.mp (hsame.view.trans (hview.trans hsame'.view.symm))
  exact ⟨by rw [hledger], hledger, hwork, hblocks⟩

/-- Two replays of blocks that are signed differently. -/
theorem replay_eq_of_headHash_resigned : ∃ c c',
    NativeChain.replay domainCrypto [exampleBlock] = .ok c ∧
    NativeChain.replay domainCrypto [resignedBlock] = .ok c' ∧
    exampleBlock.producerSignature ≠ resignedBlock.producerSignature ∧
    c.ledger = c'.ledger ∧ c.cumulativeWork = c'.cumulativeWork := by
  obtain ⟨c, hc⟩ := exampleBlock_replays
  obtain ⟨c', hc'⟩ := replay_example (List.mem_cons_of_mem _ List.mem_cons_self)
  have hS : Hashed exampleInputs [exampleBlock] :=
    ⟨List.mem_cons_self, fun b hb i hi => by
      rw [List.mem_singleton.mp hb] at hi
      exact List.mem_cons_of_mem _ hi⟩
  have hS' : Hashed exampleInputs [resignedBlock] :=
    ⟨List.mem_cons_self, fun b hb i hi => by
      rw [List.mem_singleton.mp hb] at hi
      exact List.mem_cons_of_mem _ hi⟩
  have heq : c.headHash domainCrypto = c'.headHash domainCrypto := by
    rw [headHash, headHash, blocks_of_replay hc, blocks_of_replay hc']
    rfl
  obtain ⟨-, hledger, hwork, -⟩ :=
    replay_eq_of_headHash exampleInputs_injOn hS hS' hc hc' heq
  exact ⟨c, c', hc, hc', by decide +kernel, hledger, hwork⟩

end Native.NativeChain
