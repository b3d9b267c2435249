import Boole.Library.JsonSize
import Boole.Native.Template

/-!
# Native/Mining — a mined and authorised template is a block

`boole-core`'s `NativeBlockTemplate::mine`, and the producer's way from a template to a block.
`template` does not look at the size of the block it will become, `prepare` does; **the block is
accepted all the same** (`append_mined`): every validated transfer is written in canonical form, so
the largest number of transfers stays below the largest block (`length_authorised`).
-/

open Library Library.Json

namespace Native

variable {cr : Crypto} {t : NativeBlockTemplate} {target : Hex32} {b : NativeBlock} {n : ℕ}
  {s : String} {c : NativeChain}

/-! ## Mining -/

/-- Try the nonces `startNonce + offset`, `startNonce + offset + 1`, …; the search ends early where
a nonce would not fit its word. -/
def NativeBlockTemplate.search (cr : Crypto) (self : NativeBlockTemplate) (target : Hex32)
    (startNonce offset : ℕ) : ℕ → Option NativeBlock
  | 0 => none
  | attempts + 1 =>
    match checkedAdd 64 startNonce offset with
    | none => none
    | some nonce =>
      if hashNonce cr self.header nonce < target then
        some {
          header := self.header
          nonce := toString nonce
          transfers := self.transfers
          producerSignature := "" }
      else self.search cr target startNonce (offset + 1) attempts

def NativeBlockTemplate.mine (cr : Crypto) (self : NativeBlockTemplate)
    (startNonce attempts : ℕ) : Except String (Option NativeBlock) := do
  let target ← parseHex32 self.header.target
  pure (self.search cr target startNonce 0 attempts)

/-- A block that was found has the template's content and a nonce that meets the target. -/
theorem NativeBlockTemplate.search_eq_some {start offset attempts : ℕ}
    (h : t.search cr target start offset attempts = some b) :
    b.header = t.header ∧ b.transfers = t.transfers ∧ ∃ n < 2 ^ 64, b.nonce = toString n ∧
      hashNonce cr t.header n < target := by
  induction attempts generalizing offset with
  | zero => simp [search] at h
  | succ attempts ih =>
    rw [search] at h
    split at h
    · simp at h
    · rename_i n hn
      obtain ⟨hlt, rfl⟩ := checkedAdd_eq_some.mp hn
      split_ifs at h with hwork
      · obtain rfl := Option.some.inj h
        exact ⟨rfl, rfl, _, hlt, rfl, hwork⟩
      · exact ih h

theorem NativeBlockTemplate.mine_eq_some {start attempts : ℕ}
    (h : t.mine cr start attempts = .ok (some b)) :
    ∃ target, Hex32.fromHex t.header.target = .ok target ∧ b.header = t.header ∧
      b.transfers = t.transfers ∧ ∃ n < 2 ^ 64, b.nonce = toString n ∧
        hashNonce cr t.header n < target := by
  simp only [mine, bind_eq_ok, parseHex32, mapErr_eq_ok, pure_eq_ok] at h
  obtain ⟨target, htarget, h⟩ := h
  exact ⟨target, htarget, search_eq_some h⟩

/-! ## Authorisation -/

namespace NativeBlock

theorem parseDigits_eq {acc : ℕ} {cs : List Char} (hdigits : ∀ c ∈ cs, c.isDigit)
    (hlt : Nat.ofDigitChars 10 cs acc < 2 ^ 64) :
    parseDigits acc cs = .ok (Nat.ofDigitChars 10 cs acc) := by
  induction cs generalizing acc with
  | nil => rfl
  | cons c cs ih =>
    obtain ⟨hc, hcs⟩ := List.forall_mem_cons.mp hdigits
    rw [Nat.ofDigitChars_cons] at hlt ⊢
    have hle : 10 * acc + (c.toNat - '0'.toNat) ≤
        Nat.ofDigitChars 10 cs (10 * acc + (c.toNat - '0'.toNat)) := by
      rw [Nat.ofDigitChars_eq_ofDigitChars_zero]
      exact (Nat.le_mul_of_pos_left _ (by positivity)).trans (Nat.le_add_right _ _)
    rw [parseDigits, if_pos hc, if_pos (by omega), ih hcs hlt]

/-- A canonical nonce is read as it was written. -/
theorem parseU64_toString (hn : n < 2 ^ 64) : parseU64 (toString n) = .ok n := by
  have hlist : (toString n).toList = Nat.toDigits 10 n := Nat.toList_repr
  have hdigits : ∀ c ∈ Nat.toDigits 10 n, c.isDigit :=
    fun c hc => Nat.isDigit_of_mem_toDigits (by decide) (by decide) hc
  have hread : parseDigits 0 (Nat.toDigits 10 n) = .ok n := by
    rw [parseDigits_eq hdigits (by rwa [Nat.ofDigitChars_ten_toDigits]),
      Nat.ofDigitChars_ten_toDigits]
  rw [parseU64, hlist]
  split
  · rename_i h
    exact absurd h (by simp)
  · rename_i h
    exact absurd (hdigits '+' (by simp [h])) (by decide)
  · rename_i h
    exact absurd (hdigits '+' (by simp [h])) (by decide)
  · exact hread

theorem hash_of_nonce (cr : Crypto) (hn : n < 2 ^ 64) (hnonce : b.nonce = toString n) :
    b.hash cr = .ok (hashNonce cr b.header n) := by
  rw [hash, hnonce, parseU64_toString hn, ok_bind, ensure_of rfl]
  rfl

/-- **What was authorised stays so:** the block differs in its signature only, and its own
signature passes the same check. -/
theorem authorize_eq_ok {b' : NativeBlock} {e : SignedEnvelope} (h : b.authorize cr e = .ok b') :
    b' = { b with producerSignature := e.signature } ∧ b'.verifyAuthorization cr = .ok () ∧
      ∃ signature, Hex64.fromHex b'.producerSignature = some signature := by
  simp only [authorize, bind_eq_ok, ensure_eq_ok, pure_eq_ok] at h
  obtain ⟨_, ⟨hschema, hnet, hpk⟩, payload, hpayload, _, rfl, _, hverified, _, rfl, rfl⟩ := h
  obtain ⟨_, signature, -, hsignature, -⟩ := SignedEnvelope.verifyStrict_eq_true hverified
  refine ⟨rfl, ?_, signature, hsignature⟩
  -- the envelope the check builds is the one the producer sent
  have henvelope : e = {
      schema := signedEnvelopeSchema
      payload := e.payload
      pk := b.header.producerPk
      signature := e.signature
      networkId := some b.header.networkId } := by
    rw [← hschema, ← hpk, ← hnet]
  have hpayload' : authorizationPayload cr { b with producerSignature := e.signature }
      = .ok e.payload := hpayload
  rw [verifyAuthorization, hpayload', ok_bind, ← henvelope, authorize,
    ensure_of ⟨hschema, hnet, hpk⟩, ok_bind, hpayload', ok_bind, ensure_of rfl, ok_bind, hverified,
    ok_bind, ensure_of rfl]
  rfl

end NativeBlock

/-! ## Sizes -/

theorem plain_of_fromHex {k : Hex32} (h : Hex32.fromHex s = .ok k) :
    Plain 64 s.toList := by
  simp only [Hex32.fromHex, okOr_eq_ok, Option.map_eq_some_iff, decodeFixed,
    Option.ite_none_right_eq_some] at h
  obtain ⟨_, ⟨hsize, h⟩, -⟩ := h
  exact plain_fromHex? hsize h

theorem plain_of_fromHex64 {k : Hex64} (h : Hex64.fromHex s = some k) :
    Plain 128 s.toList := by
  simp only [Hex64.fromHex, Option.map_eq_some_iff, decodeFixed,
    Option.ite_none_right_eq_some] at h
  obtain ⟨_, ⟨hsize, h⟩, -⟩ := h
  exact plain_fromHex? hsize h

theorem plain_toHex (h : Hex32) : Plain 64 h.toHex.toList := plain_of_fromHex (Hex32.fromHex_toHex h)

theorem plain_of_decimal {w e : ℕ} (he : 0 < e) (hw : 2 ^ w ≤ 10 ^ e) (h : decimal w s = .ok n) :
    Plain e s.toList := by
  simp only [decimal, bind_eq_ok, ensure_eq_ok] at h
  obtain ⟨_, ⟨-, hhead, hdigits⟩, _, hlt, -⟩ := h
  refine plain_canonical he hdigits (fun hlen hzero => hhead ⟨?_, hzero⟩) (hlt.trans_le hw)
  have hplain : ∀ c ∈ s.toList, PlainChar c :=
    fun c hc => plainChar_of_isDigit (List.all_eq_true.mp hdigits c hc)
  rwa [← String.ofList_toList (s := s), utf8ByteSize_ofList, length_utf8_of_plain hplain]

/-- **A transfer the ledger accepts is written in at most 637 bytes.** -/
theorem NativeTransfer.length_validated {t : NativeTransfer} {e : SignedEnvelope} {fee : ℕ}
    {f : NativeTransferFields} (he : t.envelope = .ok e)
    (h : validateNativeTransfer cr e nativeTestnet.networkId fee = .ok f) :
    t.toJson.toVec.length ≤ 637 := by
  simp only [NativeTransfer.envelope, bind_eq_ok, ensure_eq_ok, pure_eq_ok] at he
  obtain ⟨_, hschema, rfl⟩ := he
  simp only [validateNativeTransfer, NativeTransferPayload.fromValue_toValue, okOr_some, ok_bind,
    bind_eq_ok, ensure_eq_ok, mapErr_eq_ok, Option.some.injEq, checkPublicKey] at h
  obtain ⟨_, -, _, hnet, _, hps, _, hpk, ks, hks, kr, hkr, verified, hv, _, rfl, a, ha, fe, hfe, n,
    hn, vb, hvb, -⟩ := h
  obtain ⟨_, _, -, hsig, -⟩ := SignedEnvelope.verifyStrict_eq_true hv
  have hschema' : Plain 17 t.payload.schema.toList := by rw [hps]; decide
  have henvelope : Plain 15 t.schema.toList := by rw [hschema]; decide
  have hnetwork : Plain 22 t.networkId.toList := by rw [hnet]; decide
  have hsender := plain_of_fromHex hks
  have hpk' : Plain 64 t.pk.toList := hpk ▸ hsender
  have hamount : Plain 39 t.payload.amount.toList := plain_of_decimal (by decide) (by decide) ha
  have hfee : Plain 39 t.payload.fee.toList := plain_of_decimal (by decide) (by decide) hfe
  have hnonce : Plain 20 t.payload.nonce.toList := plain_of_decimal (by decide) (by decide) hn
  have hbefore : Plain 20 t.payload.validBefore.toList :=
    plain_of_decimal (by decide) (by decide) hvb
  have hpayload : t.payload.toJson.toVec.length ≤ 344 :=
    (length_toVec_object <|
      .cons (a := 6) (by decide) (length_toVec_string hschema') <|
      .cons (a := 4) (by decide) (length_toVec_string hsender) <|
      .cons (a := 2) (by decide) (length_toVec_string (plain_of_fromHex hkr)) <|
      .cons (a := 6) (by decide) (length_toVec_string hamount) <|
      .cons (a := 3) (by decide) (length_toVec_string hfee) <|
      .cons (a := 5) (by decide) (length_toVec_string hnonce) <|
      .cons (a := 11) (by decide) (length_toVec_string hbefore) .nil).trans (by decide)
  exact (length_toVec_object <|
    .cons (a := 6) (by decide) (length_toVec_string henvelope) <|
    .cons (a := 7) (by decide) hpayload <|
    .cons (a := 2) (by decide) (length_toVec_string hpk') <|
    .cons (a := 9) (by decide) (length_toVec_string (plain_of_fromHex64 hsig)) <|
    .cons (a := 10) (by decide) (length_toVec_string hnetwork) .nil).trans (by decide)

/-- The header of a block with canonical keys and targets. -/
theorem NativeBlockHeader.length_toVec {h : NativeBlockHeader} (hschema : h.schema = blockSchema)
    (hnet : h.networkId = nativeTestnet.networkId) (hheight : h.height < 2 ^ 64)
    (htime : h.timestampMs < 2 ^ 64) (hhex : ∀ s ∈ [h.genesisHash, h.previousHash, h.producerPk,
      h.rewardPk, h.target, h.transfersRoot], Plain 64 s.toList) :
    h.toJson.toVec.length ≤ 693 := by
  simp only [List.forall_mem_cons, List.not_mem_nil, false_implies, implies_true, and_true] at hhex
  obtain ⟨hgenesis, hprevious, hproducer, hreward, htarget, hroot⟩ := hhex
  have hschema' : Plain 21 h.schema.toList := by rw [hschema]; decide
  have hnetwork : Plain 22 h.networkId.toList := by rw [hnet]; decide
  have hheight' : (jsonNat h.height).toVec.length ≤ 20 :=
    length_toVec_jsonNat (by decide) (hheight.trans (by decide))
  have htime' : (jsonNat h.timestampMs).toVec.length ≤ 20 :=
    length_toVec_jsonNat (by decide) (htime.trans (by decide))
  exact (length_toVec_object <|
    .cons (a := 6) (by decide) (length_toVec_string hschema') <|
    .cons (a := 9) (by decide) (length_toVec_string hnetwork) <|
    .cons (a := 11) (by decide) (length_toVec_string hgenesis) <|
    .cons (a := 6) (by decide) hheight' <|
    .cons (a := 12) (by decide) (length_toVec_string hprevious) <|
    .cons (a := 10) (by decide) (length_toVec_string hproducer) <|
    .cons (a := 8) (by decide) (length_toVec_string hreward) <|
    .cons (a := 11) (by decide) htime' <|
    .cons (a := 6) (by decide) (length_toVec_string htarget) <|
    .cons (a := 13) (by decide) (length_toVec_string hroot) .nil).trans (by decide)

/-- **The largest number of validated transfers stays below the largest block.** -/
theorem NativeBlock.length_toVec (hheader : b.header.toJson.toVec.length ≤ 693) (hn : n < 2 ^ 64)
    (hnonce : b.nonce = toString n) (hsig : Plain 128 b.producerSignature.toList)
    (hcount : b.transfers.length ≤ nativeTestnet.maxTransfersPerBlock)
    (htransfers : ∀ t ∈ b.transfers, t.toJson.toVec.length ≤ 637) :
    b.toJson.toVec.length ≤ nativeTestnet.maxBlockBytes := by
  have hlist : (transfersJson b.transfers).toVec.length ≤ 2 + 512 * 638 := by
    refine (length_toVec_array (n := 637) ?_).trans ?_
    · simpa using htransfers
    · rw [List.length_map]
      exact Nat.add_le_add_left (Nat.mul_le_mul_right _ hcount) _
  have hnonce' : Plain 20 b.nonce.toList := by
    rw [hnonce, show (toString n).toList = Nat.toDigits 10 n from Nat.toList_repr]
    exact plain_toDigits (by decide) (hn.trans (by decide))
  exact (length_toVec_object <|
    .cons (a := 6) (by decide) hheader <|
    .cons (a := 5) (by decide) (length_toVec_string hnonce') <|
    .cons (a := 9) (by decide) hlist <|
    .cons (a := 17) (by decide) (length_toVec_string hsig) .nil).trans (by decide)

namespace NativeChain

/-! ## Chains in use keep their network -/

theorem networkId_of_prepare {p : PreparedNativeBlock} (hp : c.prepare cr b = .ok p) :
    p.ledger.networkId = c.ledger.networkId := by
  obtain ⟨h, es, hx⟩ := prepare_eq_ok hp
  obtain ⟨fs, l₁, l₂, e, hb⟩ := NativeLedger.applyBlockInner_eq_ok hx.ledger
  exact hb.rules.1

theorem networkId_of_commit {c' : NativeChain} {p : PreparedNativeBlock}
    (h : c.commit cr p = .ok c') :
    c'.network = c.network ∧ c'.ledger.networkId = p.ledger.networkId := by
  obtain ⟨_, -, -, hsame, -⟩ := commit_eq_ok h
  exact ⟨hsame.network, by rw [hsame.ledger]; rfl⟩

theorem networkId_of_undoHeads {depth : ℕ} {c' : NativeChain} (h : undoHeads cr depth c = .ok c') :
    c'.network = c.network ∧ c'.ledger.networkId = c.ledger.networkId := by
  induction depth generalizing c with
  | zero =>
    obtain rfl := Except.ok.inj h
    exact ⟨rfl, rfl⟩
  | succ depth ih =>
    obtain ⟨c₁, h₁, h⟩ := bind_eq_ok.mp h
    simp only [undoHead, NativeLedger.undoBlock, bind_eq_ok, mapErr_eq_ok, pure_eq_ok] at h₁
    obtain ⟨_, -, _, -, _, ⟨_, -, _, -, rfl⟩, rfl⟩ := h₁
    obtain ⟨hnet, hid⟩ := ih h
    exact ⟨hnet, hid⟩

/-- **Whatever was appended, committed or forked, the network is the one it was.** -/
theorem Grown.network {S : Set (List UInt8)} (hc : Grown cr S c) :
    c.network = nativeTestnet ∧ c.ledger.networkId = nativeTestnet.networkId := by
  induction hc with
  | new h =>
    have hgenesis : History cr _ := .genesis h
    exact ⟨hgenesis.network, hgenesis.networkId⟩
  | append _ _ h ih =>
    obtain ⟨p, hp, hcommit⟩ := bind_eq_ok.mp h
    obtain ⟨hnet, hid⟩ := networkId_of_commit hcommit
    exact ⟨hnet.trans ih.1, (hid.trans (networkId_of_prepare hp)).trans ih.2⟩
  | commit _ _ _ hp h ih ih₀ =>
    obtain ⟨hnet, hid⟩ := networkId_of_commit h
    exact ⟨hnet.trans ih.1, (hid.trans (networkId_of_prepare hp)).trans ih₀.2⟩
  | fork _ h ih =>
    obtain ⟨_, -, h⟩ := bind_eq_ok.mp h
    obtain ⟨_, -, h⟩ := bind_eq_ok.mp h
    obtain ⟨hnet, hid⟩ := networkId_of_undoHeads h
    exact ⟨hnet.trans ih.1, hid.trans ih.2⟩

/-! ## From a template to a block -/

/-- **What a template has been checked for.** -/
structure Templated (cr : Crypto) (c : NativeChain) (t : NativeBlockTemplate)
    (es : List SignedEnvelope) (l : NativeLedger) : Prop where
  identity : t.header.schema = blockSchema ∧ t.header.networkId = c.network.networkId ∧
    t.header.genesisHash = (c.network.genesisHash cr).toHex
  height : c.ledger.height + 1 < 2 ^ 64 ∧ t.header.height = c.ledger.height + 1
  link : t.header.previousHash = (c.headHash cr).toHex
  keys : ∃ k k', Hex32.fromHex t.header.producerPk = .ok k ∧ Hex32.fromHex t.header.rewardPk = .ok k'
  timestamp : ∃ minimum, c.minimumTimestampMs = .ok minimum ∧ minimum ≤ t.header.timestampMs
  target : c.nextTarget = .ok t.header.target
  root : t.header.transfersRoot = transfersRoot cr t.transfers
  envelopes : c.transferEnvelopes t.transfers = .ok es
  ledger : c.ledger.applyBlock cr t.header.height t.header.rewardPk es = .ok l

theorem template_eq_ok {producerPk rewardPk : String} {timestampMs : ℕ}
    {transfers : List NativeTransfer}
    (h : c.template cr producerPk rewardPk timestampMs transfers = .ok t) :
    t.header.timestampMs = timestampMs ∧ ∃ es l, Templated cr c t es l := by
  simp only [template, bind_eq_ok, ensure_eq_ok, okOr_eq_ok, checkedAdd_eq_some, pure_eq_ok,
    parseHex32, mapErr_eq_ok] at h
  obtain ⟨minimum, hmin, _, htime, k, hk, k', hk', _, ⟨hlt, rfl⟩, es, hes, l, hl, target, htarget,
    rfl⟩ := h
  exact ⟨rfl, es, l, ⟨rfl, rfl, rfl⟩, ⟨hlt, rfl⟩, rfl, ⟨k, k', hk, hk'⟩, ⟨minimum, hmin, htime⟩,
    htarget, rfl, hes, hl⟩

section Templated

variable {cr : Crypto} {c : NativeChain} {t : NativeBlockTemplate} {es : List SignedEnvelope}
  {l : NativeLedger}

/-- The transfers of a template are few and short. -/
theorem Templated.transfers (ht : Templated cr c t es l)
    (hnet : c.ledger.networkId = nativeTestnet.networkId) :
    t.transfers.length ≤ c.network.maxTransfersPerBlock ∧
      ∀ transfer ∈ t.transfers, transfer.toJson.toVec.length ≤ 637 := by
  have hes := ht.envelopes
  simp only [transferEnvelopes, bind_eq_ok, ensure_eq_ok] at hes
  obtain ⟨_, hcount, -⟩ := hes
  refine ⟨hcount, fun transfer htransfer => ?_⟩
  obtain ⟨e, he, -, henvelope⟩ := transferEnvelopes_mem ht.envelopes htransfer
  obtain ⟨⟨_, undo⟩, hprepare, -⟩ := bind_eq_ok.mp ht.ledger
  obtain ⟨fs, l₁, l₂, _, happlied⟩ := NativeLedger.applyBlockInner_eq_ok hprepare
  obtain ⟨f, hvalid⟩ := happlied.run.valid he
  have hl₁ : l₁.networkId = nativeTestnet.networkId := by
    rw [happlied.unlocked.frame]
    exact hnet
  rw [hl₁] at hvalid
  exact NativeTransfer.length_validated henvelope hvalid

/-- A block with the content of a template, a nonce and the producer's signature is small. -/
theorem Templated.length_authorised (ht : Templated cr c t es l) (hnet : c.network = nativeTestnet)
    (hid : c.ledger.networkId = nativeTestnet.networkId) (htime : t.header.timestampMs < 2 ^ 64)
    (htarget : Hex32.fromHex t.header.target = .ok target) (hheader : b.header = t.header)
    (htransfers : b.transfers = t.transfers) (hn : n < 2 ^ 64) (hnonce : b.nonce = toString n)
    {signature : Hex64} (hsig : Hex64.fromHex b.producerSignature = some signature) :
    b.toJson.toVec.length ≤ c.network.maxBlockBytes := by
  obtain ⟨hcount, hshort⟩ := ht.transfers hid
  obtain ⟨k, k', hk, hk'⟩ := ht.keys
  have hhex : ∀ s ∈ [t.header.genesisHash, t.header.previousHash, t.header.producerPk,
      t.header.rewardPk, t.header.target, t.header.transfersRoot], Plain 64 s.toList := by
    rw [ht.identity.2.2, ht.link, ht.root]
    simp only [List.forall_mem_cons, List.not_mem_nil, false_implies, implies_true, and_true]
    exact ⟨plain_toHex _, plain_toHex _, plain_of_fromHex hk, plain_of_fromHex hk',
      plain_of_fromHex htarget, plain_toHex _⟩
  have hlen := NativeBlockHeader.length_toVec ht.identity.1 (hnet ▸ ht.identity.2.1)
    (ht.height.2 ▸ ht.height.1) htime hhex
  rw [hnet] at hcount ⊢
  exact NativeBlock.length_toVec (hheader ▸ hlen) hn hnonce (plain_of_fromHex64 hsig)
    (htransfers ▸ hcount) (htransfers ▸ hshort)

/-- **Such a block passes every check of the chain the template is for.** -/
theorem Templated.append_ok (ht : Templated cr c t es l)
    (hsize : b.toJson.toVec.length ≤ c.network.maxBlockBytes) (hheader : b.header = t.header)
    (htransfers : b.transfers = t.transfers) (htarget : Hex32.fromHex t.header.target = .ok target)
    {h : Hex32} (hhash : b.hash cr = .ok h) (hwork : h < target)
    (hauth : b.verifyAuthorization cr = .ok ()) :
    ∃ c', c.append cr b = .ok c' := by
  obtain ⟨minimum, hmin, htime⟩ := ht.timestamp
  obtain ⟨k, k', hk, hk'⟩ := ht.keys
  obtain ⟨⟨l', undo⟩, hprepare, -⟩ := bind_eq_ok.mp ht.ledger
  have hpositive : target.toNat ≠ 0 := Nat.ne_zero_of_lt hwork
  have hok : ∃ p, c.prepare cr b = .ok p := by
    rw [prepare, ensure_of hsize, ok_bind]
    dsimp only
    rw [hheader, htransfers, ensure_of ht.identity, ok_bind, checkedAdd, if_pos ht.height.1,
      okOr_some, ok_bind, ensure_of ⟨ht.height.2, ht.link⟩, ok_bind, parseHex32, hk, mapErr,
      ok_bind, parseHex32, hk', mapErr, ok_bind, hmin, ok_bind, ensure_of htime, ok_bind, ht.target,
      ok_bind, ensure_of rfl, ok_bind, parseHex32, htarget, mapErr, ok_bind, hhash, ok_bind,
      ensure_of hwork, ensure_of ht.root, ok_bind, hauth, ok_bind, ht.envelopes, ok_bind,
      difficultyWeight, if_neg hpositive, ok_bind, hprepare]
    exact ⟨_, rfl⟩
  obtain ⟨p, hp⟩ := hok
  obtain ⟨c', hc'⟩ := commit_ok_of_prepare hp
  exact ⟨c', by rw [append, hp, ok_bind, hc']⟩

end Templated

/-- **A template is complete.**  Whatever `template` returns on a chain in use, and whatever block
is found for it and authorised by its producer, the chain accepts. -/
theorem append_mined {cr : Crypto} {S : Set (List UInt8)} {c : NativeChain} (hc : Grown cr S c)
    {producerPk rewardPk : String} {timestampMs : ℕ} (htime : timestampMs < 2 ^ 64)
    {transfers : List NativeTransfer} {t : NativeBlockTemplate}
    (ht : c.template cr producerPk rewardPk timestampMs transfers = .ok t)
    {startNonce attempts : ℕ} {b b' : NativeBlock} (hm : t.mine cr startNonce attempts = .ok (some b))
    {envelope : SignedEnvelope} (ha : b.authorize cr envelope = .ok b') :
    ∃ c', c.append cr b' = .ok c' := by
  obtain ⟨hnet, hid⟩ := hc.network
  obtain ⟨rfl, es, l, ht⟩ := template_eq_ok ht
  obtain ⟨target, htarget, hheader, htransfers, n, hn, hnonce, hwork⟩ :=
    NativeBlockTemplate.mine_eq_some hm
  obtain ⟨hb', hauth, signature, hsig⟩ := NativeBlock.authorize_eq_ok ha
  have hheader' : b'.header = t.header := by rw [hb', ← hheader]
  have htransfers' : b'.transfers = t.transfers := by rw [hb', ← htransfers]
  have hnonce' : b'.nonce = toString n := by rw [hb', ← hnonce]
  have hhash := NativeBlock.hash_of_nonce cr hn hnonce'
  rw [hheader'] at hhash
  have hsize := ht.length_authorised hnet hid htime htarget hheader' htransfers' hn hnonce' hsig
  exact ht.append_ok hsize hheader' htransfers' htarget hhash hwork hauth

/-- The producer's authorisation of the first block. -/
def exampleEnvelope : SignedEnvelope where
  schema := signedEnvelopeSchema
  payload := .object [("blockHash", .string (Hex32.toHex 98)), ("schema", .string blockAuthSchema)]
  pk := Hex32.toHex 1
  signature := exampleBlock.producerSignature
  networkId := some nativeTestnetNetworkId

theorem append_mined_one_block : ∃ c t b b' c', NativeChain.new = .ok c ∧
    c.template domainCrypto (Hex32.toHex 1) (Hex32.toHex 1) 1 [] = .ok t ∧
    t.mine domainCrypto 0 1 = .ok (some b) ∧ b.authorize domainCrypto exampleEnvelope = .ok b' ∧
    c.append domainCrypto b' = .ok c' := by
  have hok : (do
      let c ← NativeChain.new
      let t ← c.template domainCrypto (Hex32.toHex 1) (Hex32.toHex 1) 1 []
      let b ← okOr (← t.mine domainCrypto 0 1) "no nonce found"
      b.authorize domainCrypto exampleEnvelope).isOk = true := by decide +kernel
  obtain ⟨b', h⟩ := exists_eq_ok_of_isOk hok
  simp only [bind_eq_ok, okOr_eq_ok] at h
  obtain ⟨c, hc, t, ht, _, hm, b, rfl, ha⟩ := h
  have hgrown : Grown domainCrypto Set.univ c := .new hc
  obtain ⟨c', hc'⟩ := append_mined hgrown (by decide) ht hm ha
  exact ⟨c, t, b, b', c', hc, ht, hm, ha, hc'⟩

end NativeChain

end Native
