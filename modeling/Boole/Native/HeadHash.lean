import Boole.Native.Chain

/-!
# Native/HeadHash — the head hash commits the chain's state

The hash of a block covers its header and nonce; the header names the previous hash and the
commitment to the transfers.  So, **if the hash function has no collisions among the inputs that
were hashed, two valid chains with one head hash went through the same states**
(`History.agree_of_headHash`).  Only the producers' signatures are not covered.

Collision-freeness is stated for a set of inputs (`Set.InjOn`), the ones that occur: a hash function
into 32 bytes has collisions somewhere.
-/

open Library Library.Json

namespace Native

variable {h : Hex32} {n : ℕ} {cr : Crypto} {b b' : NativeBlock} {c c' : NativeChain}
  {p : PreparedNativeBlock} {bs : List NativeBlock}

/-! ## What the hashed bytes determine -/

theorem NativeBlockHeader.canonicalize_inj {h h' : NativeBlockHeader}
    (heq : canonicalize h.toJson.sortKeys = canonicalize h'.toJson.sortKeys) : h = h' := by
  rw [canonicalize_eq_iff] at heq
  change Value.object [("genesisHash", .string h.genesisHash), ("height", jsonNat h.height),
      ("networkId", .string h.networkId), ("previousHash", .string h.previousHash),
      ("producerPk", .string h.producerPk), ("rewardPk", .string h.rewardPk),
      ("schema", .string h.schema), ("target", .string h.target),
      ("timestampMs", jsonNat h.timestampMs), ("transfersRoot", .string h.transfersRoot)]
    = Value.object [("genesisHash", .string h'.genesisHash), ("height", jsonNat h'.height),
      ("networkId", .string h'.networkId), ("previousHash", .string h'.previousHash),
      ("producerPk", .string h'.producerPk), ("rewardPk", .string h'.rewardPk),
      ("schema", .string h'.schema), ("target", .string h'.target),
      ("timestampMs", jsonNat h'.timestampMs), ("transfersRoot", .string h'.transfersRoot)] at heq
  cases h
  cases h'
  simp_all [jsonNat_inj]

theorem NativeTransfer.sortKeys_inj {t t' : NativeTransfer}
    (heq : t.toJson.sortKeys.sortKeys = t'.toJson.sortKeys.sortKeys) : t = t' := by
  have payload (p : NativeTransferPayload) : p.toJson.sortKeys.sortKeys
      = .object [("amount", .string p.amount), ("fee", .string p.fee),
        ("from", .string p.sender), ("nonce", .string p.nonce), ("schema", .string p.schema),
        ("to", .string p.recipient), ("validBefore", .string p.validBefore)] := rfl
  have transfer (t : NativeTransfer) : t.toJson.sortKeys.sortKeys
      = .object [("network_id", .string t.networkId), ("payload", t.payload.toJson.sortKeys.sortKeys),
        ("pk", .string t.pk), ("schema", .string t.schema),
        ("signature", .string t.signature)] := rfl
  obtain ⟨schema, ⟨⟩, pk, signature, networkId⟩ := t
  obtain ⟨schema', ⟨⟩, pk', signature', networkId'⟩ := t'
  simp_all

theorem transfersInput_inj {ts ts' : List NativeTransfer}
    (h : transfersInput ts = transfersInput ts') : ts = ts' := by
  have h := canonicalize_eq_iff.mp (List.append_cancel_left h)
  rw [transfersJson, transfersJson, Value.sortKeys, Value.sortKeys, Value.sortKeys, Value.sortKeys,
    sortItems_eq_map, sortItems_eq_map, sortItems_eq_map, sortItems_eq_map, Value.array.injEq,
    List.map_map, List.map_map, List.map_map, List.map_map] at h
  exact List.map_injective_iff.mpr (fun _ _ h => NativeTransfer.sortKeys_inj h) h

theorem blockInput_inj {h h' : NativeBlockHeader} {n' : ℕ} (hn : n < 2 ^ 64) (hn' : n' < 2 ^ 64)
    (heq : blockInput h n = blockInput h' n') : h = h' ∧ n = n' := by
  obtain ⟨hhead, hnonce⟩ := List.append_inj' heq (by simp)
  exact ⟨NativeBlockHeader.canonicalize_inj (List.append_cancel_left hhead),
    leBytes_inj hn hn' hnonce⟩

theorem blockInput_ne_genesisInput (h : NativeBlockHeader) (n : ℕ) (network : NativeNetwork) :
    blockInput h n ≠ network.genesisInput := by
  intro heq
  have := congrArg (fun l => l[13]?) heq
  simp only [blockInput, NativeNetwork.genesisInput, List.append_assoc] at this
  rw [List.getElem?_append_left (by decide), List.getElem?_append_left (by decide)] at this
  revert this
  decide +kernel

theorem parseDigits_lt {acc : ℕ} {cs : List Char} (hacc : acc < 2 ^ 64)
    (h : parseDigits acc cs = .ok n) : n < 2 ^ 64 := by
  induction cs generalizing acc with
  | nil =>
    obtain rfl : acc = n := by simpa [parseDigits] using h
    exact hacc
  | cons c cs ih =>
    rw [parseDigits] at h
    split_ifs at h with h₁ h₂
    exact ih h₂ h

theorem parseU64_lt {s : String} (h : parseU64 s = .ok n) : n < 2 ^ 64 := by
  unfold parseU64 at h
  split at h
  · cases h
  · cases h
  · exact parseDigits_lt (by decide) h
  · exact parseDigits_lt (by decide) h

theorem NativeBlock.hash_eq_ok (hh : b.hash cr = .ok h) :
    ∃ n, n < 2 ^ 64 ∧ b.nonce = toString n ∧ h = cr.blake3 (blockInput b.header n) := by
  simp only [NativeBlock.hash, bind_eq_ok, ensure_eq_ok, pure_eq_ok] at hh
  obtain ⟨n, hn, _, heq, rfl⟩ := hh
  exact ⟨n, parseU64_lt hn, heq.symm, rfl⟩

/-! ## What a chain's next block is checked against -/

/-- A block without its producer's signature. -/
def NativeBlock.unsigned (b : NativeBlock) : NativeBlock := { b with producerSignature := "" }

theorem NativeBlock.unsigned_eq_iff : b.unsigned = b'.unsigned ↔
    b.header = b'.header ∧ b.nonce = b'.nonce ∧ b.transfers = b'.transfers := by
  simp [NativeBlock.unsigned]

/-- The inputs hashed for a block. -/
def NativeBlock.hashed (b : NativeBlock) : List (List UInt8) :=
  [blockInput b.header (Nat.ofDigitChars 10 b.nonce.toList 0), transfersInput b.transfers]

namespace NativeChain

/-- A chain as its next block sees it: no signatures, no undo window. -/
def view (c : NativeChain) : NativeChain :=
  { c with blocks := c.blocks.map NativeBlock.unsigned, recentUndo := [] }

theorem view_eq_iff : c.view = c'.view ↔
    c.network = c'.network ∧
      c.blocks.map NativeBlock.unsigned = c'.blocks.map NativeBlock.unsigned ∧
      c.ledger = c'.ledger ∧ c.cumulativeWork = c'.cumulativeWork := by
  simp [view]

@[simp] theorem headHash_view (cr : Crypto) (c : NativeChain) :
    c.view.headHash cr = c.headHash cr := by
  simp only [headHash, view, List.getLast?_map]
  cases c.blocks.getLast? <;> rfl

@[simp] theorem minimumTimestampMs_view (c : NativeChain) :
    c.view.minimumTimestampMs = c.minimumTimestampMs := by
  simp only [minimumTimestampMs, view, List.length_map, ← List.map_drop, List.map_map]
  rfl

@[simp] theorem nextTarget_view (c : NativeChain) : c.view.nextTarget = c.nextTarget := by
  simp only [nextTarget, view, List.getLast?_map, List.length_map, List.getElem?_map]
  cases c.blocks.getLast? with
  | none => rfl
  | some last =>
    cases c.blocks[c.blocks.length - c.network.retarget.retargetEveryBlocks]? <;> rfl

/-- **Signatures and the undo window play no part in accepting the next block.** -/
theorem prepare_view (cr : Crypto) (c : NativeChain) (b : NativeBlock) :
    c.view.prepare cr b = c.prepare cr b := by
  simp only [prepare, headHash_view, minimumTimestampMs_view, nextTarget_view]
  rfl

/-- **What a prepared block has been checked for.** -/
structure Extends (cr : Crypto) (c : NativeChain) (b : NativeBlock) (p : PreparedNativeBlock)
    (h : Hex32) (es : List SignedEnvelope) : Prop where
  block : p.block = b
  size : b.toJson.toVec.length ≤ c.network.maxBlockBytes
  identity : b.header.schema = blockSchema ∧ b.header.networkId = c.network.networkId ∧
    b.header.genesisHash = (c.network.genesisHash cr).toHex
  height : b.header.height = c.ledger.height + 1
  link : b.header.previousHash = (c.headHash cr).toHex
  timestamp : ∃ minimum, c.minimumTimestampMs = .ok minimum ∧ minimum ≤ b.header.timestampMs
  target : c.nextTarget = .ok b.header.target
  hash : b.hash cr = .ok h
  root : b.header.transfersRoot = transfersRoot cr b.transfers
  work : ∃ target w, Hex32.fromHex b.header.target = .ok target ∧ h < target ∧
    difficultyWeight target.toNat = .ok w ∧ p.cumulativeWork = c.cumulativeWork + w
  envelopes : c.transferEnvelopes b.transfers = .ok es
  ledger : c.ledger.prepareBlock cr b.header.height b.header.rewardPk es = .ok (p.ledger, p.undo)

theorem prepare_eq_ok (hp : c.prepare cr b = .ok p) : ∃ h es, Extends cr c b p h es := by
  simp only [prepare, bind_eq_ok, ensure_eq_ok, okOr_eq_ok, checkedAdd_eq_some, pure_eq_ok,
    parseHex32, mapErr_eq_ok] at hp
  obtain ⟨_, hsize, _, hid, _, ⟨-, rfl⟩, _, ⟨hheight, hlink⟩, _, -, _, -, m, hm, _, htime, _, ht, _,
    rfl, target, htarget, h, hh, _, hlt, _, hroot, _, -, es, hes, w, hw, ⟨l, undo⟩, hl, rfl⟩ := hp
  exact ⟨h, es, rfl, hsize, hid, hheight, hlink, ⟨m, hm, htime⟩, ht, hh, hroot,
    ⟨target, w, htarget, hlt, hw, rfl⟩, hes, hl⟩

theorem transferEnvelopes_congr (h : c.network = c'.network) (ts : List NativeTransfer) :
    c.transferEnvelopes ts = c'.transferEnvelopes ts := by
  have hone : c.transferEnvelope = c'.transferEnvelope := by
    funext t
    simp only [transferEnvelope, h]
  simp only [transferEnvelopes, hone, h]

/-- Blocks that differ in the signature only have the same effect. -/
theorem Extends.congr {p' : PreparedNativeBlock} {h' : Hex32} {es es' : List SignedEnvelope}
    (hx : Extends cr c b p h es) (hx' : Extends cr c' b' p' h' es') (hc : c.view = c'.view)
    (hb : b.unsigned = b'.unsigned) :
    p.ledger = p'.ledger ∧ p.cumulativeWork = p'.cumulativeWork ∧ p.undo = p'.undo := by
  obtain ⟨hheader, -, htransfers⟩ := NativeBlock.unsigned_eq_iff.mp hb
  obtain ⟨hnet, -, hledger, hwork⟩ := view_eq_iff.mp hc
  have hes : es = es' := by
    have h₁ := hx.envelopes
    rw [htransfers, transferEnvelopes_congr hnet, hx'.envelopes] at h₁
    exact (Except.ok.inj h₁).symm
  have h₁ := hx.ledger
  have h₂ := hx'.ledger
  rw [hheader, hledger, hes, h₂] at h₁
  obtain ⟨hl, hu⟩ := Prod.mk.inj (Except.ok.inj h₁)
  obtain ⟨t, w, ht, -, hw, hpw⟩ := hx.work
  obtain ⟨t', w', ht', -, hw', hpw'⟩ := hx'.work
  rw [hheader, ht'] at ht
  obtain rfl := Except.ok.inj ht
  rw [hw'] at hw
  obtain rfl := Except.ok.inj hw
  exact ⟨hl.symm, by rw [hpw, hpw', hwork], hu.symm⟩

/-! ## Histories -/

/-- The chain after a prepared block, with every inverse kept. -/
def extend (c : NativeChain) (p : PreparedNativeBlock) (h : Hex32) : NativeChain :=
  { c with
    blocks := c.blocks ++ [p.block]
    ledger := p.ledger
    cumulativeWork := p.cumulativeWork
    recentUndo := c.recentUndo ++ [⟨h, c.cumulativeWork, p.undo⟩] }

/-- A chain whose window reaches back to genesis: each block was prepared on the ones before. -/
inductive History (cr : Crypto) : NativeChain → Prop
  | genesis {c : NativeChain} (h : NativeChain.new = .ok c) : History cr c
  | block {c : NativeChain} {b : NativeBlock} {p : PreparedNativeBlock} {h : Hex32}
      {es : List SignedEnvelope} (hc : History cr c) (hp : c.prepare cr b = .ok p)
      (hx : Extends cr c b p h es) : History cr (c.extend p h)

theorem new_eq_ok (h : NativeChain.new = .ok c) :
    c.network = nativeTestnet ∧ c.blocks = [] ∧ c.cumulativeWork = 0 ∧ c.recentUndo = [] ∧
      nativeTestnet.ledger = .ok c.ledger := by
  simp only [NativeChain.new, bind_eq_ok, mapErr_eq_ok, pure_eq_ok] at h
  obtain ⟨l, hl, rfl⟩ := h
  exact ⟨rfl, rfl, rfl, rfl, hl⟩

theorem headHash_extend {es : List SignedEnvelope} (hx : Extends cr c b p h es) :
    (c.extend p h).headHash cr = h := by
  simp [headHash, extend, hx.block, hx.hash, Except.toOption]

theorem History.network (hc : History cr c) :
    c.network = nativeTestnet := by
  induction hc with
  | genesis h => exact (new_eq_ok h).1
  | block _ _ _ ih => exact ih

/-- Everything that is hashed for a list of blocks is in `S`. -/
structure Hashed (S : Set (List UInt8)) (blocks : List NativeBlock) : Prop where
  genesis : nativeTestnet.genesisInput ∈ S
  blocks : ∀ b ∈ blocks, ∀ i ∈ b.hashed, i ∈ S

theorem Hashed.mono {S : Set (List UInt8)} {bs' : List NativeBlock} (h : Hashed S bs)
    (hsub : bs' ⊆ bs) : Hashed S bs' :=
  ⟨h.genesis, fun b hb => h.blocks b (hsub hb)⟩

/-- The hash of a block, as the hash of an input in `S`. -/
theorem Hashed.hash {S : Set (List UInt8)} (hS : Hashed S bs) (hb : b ∈ bs) (hh : b.hash cr = .ok h) :
    ∃ n, n < 2 ^ 64 ∧ b.nonce = toString n ∧ blockInput b.header n ∈ S ∧
      h = cr.blake3 (blockInput b.header n) := by
  obtain ⟨n, hn, hnonce, rfl⟩ := NativeBlock.hash_eq_ok hh
  refine ⟨n, hn, hnonce, ?_, rfl⟩
  have := hS.blocks b hb (blockInput b.header (Nat.ofDigitChars 10 b.nonce.toList 0))
    List.mem_cons_self
  rwa [hnonce, show (toString n).toList = Nat.toDigits 10 n from Nat.toList_repr,
    Nat.ofDigitChars_ten_toDigits] at this

section Commitment

variable {cr : Crypto} {S : Set (List UInt8)} (hinj : Set.InjOn cr.blake3 S)
include hinj

/-- A block's hash commits its header and nonce, and through the header its transfers. -/
theorem unsigned_eq_of_hash {bs' : List NativeBlock} (hS : Hashed S bs) (hS' : Hashed S bs')
    (hb : b ∈ bs) (hb' : b' ∈ bs') (hh : b.hash cr = .ok h) (hh' : b'.hash cr = .ok h)
    (hroot : b.header.transfersRoot = transfersRoot cr b.transfers)
    (hroot' : b'.header.transfersRoot = transfersRoot cr b'.transfers) :
    b.unsigned = b'.unsigned := by
  obtain ⟨n, hn, hnonce, hin, rfl⟩ := hS.hash hb hh
  obtain ⟨n', hn', hnonce', hin', heq⟩ := hS'.hash hb' hh'
  obtain ⟨hheader, rfl⟩ := blockInput_inj hn hn' (hinj hin hin' heq)
  refine NativeBlock.unsigned_eq_iff.mpr ⟨hheader, hnonce.trans hnonce'.symm, ?_⟩
  rw [hheader, hroot'] at hroot
  have hin := hS.blocks b hb (transfersInput b.transfers) (by simp [NativeBlock.hashed])
  have hin' := hS'.blocks b' hb' (transfersInput b'.transfers) (by simp [NativeBlock.hashed])
  exact (transfersInput_inj (hinj hin' hin (Hex32.toHex_injective hroot))).symm

theorem hash_ne_genesisHash (hS : Hashed S bs) (hb : b ∈ bs) (hh : b.hash cr = .ok h) :
    h ≠ nativeTestnet.genesisHash cr := by
  obtain ⟨n, -, -, hin, rfl⟩ := hS.hash hb hh
  exact fun heq => blockInput_ne_genesisInput _ _ _ (hinj hin hS.genesis heq)

/-- **The head hash commits the state.**  Two histories with one head hash have the same ledger,
the same work and, up to signatures, the same blocks. -/
theorem History.view_eq_of_headHash (hc : History cr c) (hc' : History cr c')
    (hS : Hashed S c.blocks) (hS' : Hashed S c'.blocks) (heq : c.headHash cr = c'.headHash cr) :
    c.view = c'.view := by
  induction hc generalizing c' with
  | @genesis c hnew =>
    obtain ⟨hnet, hblocks, -, -, -⟩ := new_eq_ok hnew
    cases hc' with
    | genesis hnew' => rw [Except.ok.inj (hnew.symm.trans hnew')]
    | @block c' b' p' h' es' hc' hp' hx' =>
      rw [headHash_extend hx', headHash, hblocks, hnet] at heq
      exact absurd heq.symm
        (hash_ne_genesisHash hinj hS' (by simp [extend, hx'.block]) hx'.hash)
  | @block c b p h es hc hp hx ih =>
    rw [headHash_extend hx] at heq
    cases hc' with
    | genesis hnew' =>
      obtain ⟨hnet, hblocks, -, -, -⟩ := new_eq_ok hnew'
      rw [headHash, hblocks, hnet] at heq
      exact absurd heq (hash_ne_genesisHash hinj hS (by simp [extend, hx.block]) hx.hash)
    | @block c' b' p' h' es' hc' hp' hx' =>
      rw [headHash_extend hx'] at heq
      subst heq
      have hb := unsigned_eq_of_hash hinj hS hS' (by simp [extend, hx.block])
        (by simp [extend, hx'.block]) hx.hash hx'.hash hx.root hx'.root
      have hprev : c.headHash cr = c'.headHash cr := by
        obtain ⟨hheader, -, -⟩ := NativeBlock.unsigned_eq_iff.mp hb
        apply Hex32.toHex_injective
        rw [← hx.link, ← hx'.link, hheader]
      have hview := ih hc' (hS.mono (by simp [extend])) (hS'.mono (by simp [extend])) hprev
      obtain ⟨hl, hw, -⟩ := hx.congr hx' hview hb
      obtain ⟨hnet, hblocks, -, -⟩ := view_eq_iff.mp hview
      refine view_eq_iff.mpr ⟨hnet, ?_, hl, hw⟩
      simp only [extend, List.map_append, hblocks, hx.block, hx'.block, List.map_cons, hb]

end Commitment

end NativeChain

end Native
