import Boole.Library.Paging
import Boole.Native.ForkChoice
import Boole.Native.Mining
import Boole.Native.NodeCrash

/-!
# Native/PeerServer — an honest peer serves its whole chain

The inbound side of `boole-node`'s `native_peers.rs`: the greeting of a round and the answer to each
request in it.  Blocks are sent in pages; the budget of a page counts the blocks one by one and
sets 512 bytes aside for the rest of the message.

    getBlocks from ──▶ blocks[from - 1 ..] ──take limit──▶ ──pack below 1 MiB──▶ page

**Every page is a nonempty run of blocks and fits a message**, so a client that goes on asking behind
the last block it got ends with all of them (`paging_progresses`).  The bytes that a round has left
and the end of its connection are left out.
-/

open Library Library.Json

namespace Native

open NativeChain

variable {start limit : ℕ} {blocks : List NativeBlock}

def maxNativePeerMessageBytes : ℕ := 1024 * 1024

/-! ## Messages on the wire -/

def Head.toJson (self : Head) : Value :=
  .object [("height", jsonNat self.height), ("hash", .string self.hash.toHex)]

def Message.toJson : Message → Value
  | .hello protocolVersion networkId genesisHash head =>
    .object [("type", .string "hello"), ("protocolVersion", jsonNat protocolVersion),
      ("networkId", .string networkId), ("genesisHash", .string genesisHash.toHex),
      ("head", head.toJson)]
  | .getHash snapshot height =>
    .object [("type", .string "getHash"), ("snapshot", snapshot.toJson), ("height", jsonNat height)]
  | .hash snapshot height blockHash =>
    .object [("type", .string "hash"), ("snapshot", snapshot.toJson), ("height", jsonNat height),
      ("hash", .string blockHash.toHex)]
  | .getBlocks snapshot start limit =>
    .object [("type", .string "getBlocks"), ("snapshot", snapshot.toJson), ("from", jsonNat start),
      ("limit", jsonNat limit)]
  | .blocks snapshot start served =>
    .object [("type", .string "blocks"), ("snapshot", snapshot.toJson), ("from", jsonNat start),
      ("blocks", .array (served.map NativeBlock.toJson))]
  | .getPending snapshot offset limit =>
    .object [("type", .string "getPending"), ("snapshot", snapshot.toJson),
      ("offset", jsonNat offset), ("limit", jsonNat limit)]
  | .pending snapshot offset total transfers =>
    .object [("type", .string "pending"), ("snapshot", snapshot.toJson),
      ("offset", jsonNat offset), ("total", jsonNat total),
      ("transfers", .array (transfers.map NativeTransfer.toJson))]
  | .done => .object [("type", .string "done")]

/-- A message as it is sent, with the line feed that ends it. -/
def Message.frame (self : Message) : List UInt8 := self.toJson.toVec ++ [10]

/-! ## The server -/

/-- What a block takes of a page: its text and a comma. -/
def pageCost (block : NativeBlock) : ℕ := block.toJson.toVec.length + 1

/-- The blocks that go into one message. -/
def page (blocks : List NativeBlock) : List NativeBlock :=
  pack pageCost maxNativePeerMessageBytes 512 blocks

/-- The start of a round: the greeting, and the head that the round is about. -/
def greet (cr : Crypto) (node : NativeNode) (request : Message) : Except String (Message × Head) := do
  let _ ← remoteHead cr request
  mapErr Failure.message node.ensureReady
  pure (hello cr node, node.chain.head cr)

/-- The answer to one request.  The first request for pending transfers fixes the ones that the round
is about. -/
def respond (cr : Crypto) (advertised : Head) (node : NativeNode)
    (pending : Option (List NativeTransfer)) (request : Message) :
    Except String (Message × Option (List NativeTransfer)) := do
  mapErr Failure.message node.ensureReady
  match request with
  | .getHash snapshot height =>
    ensure (snapshot = advertised ∧ node.chain.head cr = snapshot ∧ height ≤ snapshot.height)
      "native snapshot changed"
    let hash ← chainHash cr node.chain height
    pure (.hash snapshot height hash, pending)
  | .getBlocks snapshot start limit =>
    ensure (snapshot = advertised ∧ node.chain.head cr = snapshot) "native snapshot changed"
    ensure (0 < start ∧ start ≤ snapshot.height ∧ 0 < limit ∧ limit ≤ blockPage)
      "native block range limit"
    let blocks := page ((node.chain.blocks.drop (start - 1)).take limit)
    ensure (blocks ≠ []) "native block cannot fit page"
    pure (.blocks snapshot start blocks, pending)
  | .getPending snapshot offset limit =>
    ensure (snapshot = advertised ∧ node.chain.head cr = snapshot) "native snapshot changed"
    let transfers := pending.getD node.pending.transfers
    ensure (offset ≤ transfers.length ∧ 0 < limit ∧ limit ≤ transferPage)
      "native pending page limit"
    pure (.pending snapshot offset transfers.length ((transfers.drop offset).take limit),
      some transfers)
  | _ => throw "unexpected native peer request"

/-- A round with a node that does not change; nothing is sent back at its end. -/
def serve (cr : Crypto) (node : NativeNode) : Message → Except String Message
  | .hello protocolVersion networkId genesisHash head => do
    let (greeting, _) ← greet cr node (.hello protocolVersion networkId genesisHash head)
    pure greeting
  | .done => pure .done
  | request => do
    let (reply, _) ← respond cr (node.chain.head cr) node none request
    pure reply

/-! ## Sizes -/

theorem Head.length_toVec {head : Head} (h : head.height < 2 ^ 64) :
    head.toJson.toVec.length ≤ 106 :=
  (length_toVec_object <|
    .cons (a := 6) (by decide)
      (length_toVec_jsonNat (e := 20) (by decide) (h.trans (by decide))) <|
    .cons (a := 4) (by decide) (length_toVec_string (plain_toHex head.hash)) .nil).trans (by decide)

/-- What surrounds the blocks of a message is shorter than what the page sets aside for it. -/
theorem Message.length_blocks {snapshot : Head} (blocks : List NativeBlock)
    (hheight : snapshot.height < 2 ^ 64) (hstart : start < 2 ^ 64) :
    (Message.blocks snapshot start blocks).frame.length < 512 + (blocks.map pageCost).sum := by
  have harray : (Value.array (blocks.map NativeBlock.toJson)).toVec.length
      ≤ 2 + (blocks.map pageCost).sum := by
    have := length_toVec_array_le_sum (blocks.map NativeBlock.toJson)
    rwa [List.map_map] at this
  have hmessage := length_toVec_object <|
    .cons (k := "type") (a := 4) (by decide)
      (length_toVec_string (n := 6) (s := "blocks") (by decide)) <|
    .cons (k := "snapshot") (a := 8) (by decide) (Head.length_toVec hheight) <|
    .cons (k := "from") (a := 4) (by decide)
      (length_toVec_jsonNat (e := 20) (by decide) (hstart.trans (by decide))) <|
    .cons (k := "blocks") (a := 6) (by decide) harray .nil
  rw [Message.frame, Message.toJson, List.length_append, List.length_singleton]
  omega

namespace NativeChain

variable {cr : Crypto} {c : NativeChain}

/-- The blocks from a height on have the heights from there on. -/
theorem Sound.heights_drop (hc : Sound cr c) (hstart : 0 < start)
    (h : blocks <+: c.blocks.drop (start - 1)) :
    blocks.map (·.header.height) = List.range' start blocks.length := by
  obtain ⟨f, hf, hsame, -⟩ := hc
  refine List.ext_getElem (by simp) fun i hi _ => ?_
  rw [List.length_map] at hi
  have hget : f.blocks[start - 1 + i]? = some blocks[i] := by
    rw [← hsame.blocks, ← List.getElem?_drop]
    exact List.prefix_iff_getElem?.mp h i hi
  rw [List.getElem_map, hf.heights hget, List.getElem_range']
  omega

end NativeChain

/-! ## Pages -/

/-- What a page of a chain is: a nonempty run of its blocks that fits a message. -/
structure Served (cr : Crypto) (chain : NativeChain) (start limit : ℕ) (blocks : List NativeBlock) :
    Prop where
  ne_nil : blocks ≠ []
  length_le : blocks.length ≤ limit
  run : blocks <+: chain.blocks.drop (start - 1)
  heights : blocks.map (·.header.height) = List.range' start blocks.length
  fits : (Message.blocks (chain.head cr) start blocks).frame.length ≤ maxNativePeerMessageBytes

section Node

variable {cr : Crypto} {node : NativeNode}

/-- Any block of a verified chain fits a page. -/
theorem served_page {c : NativeChain} (hc : Sound cr c) (hstart : 0 < start)
    (hle : start ≤ c.ledger.height) (hlimit : 0 < limit) :
    Served cr c start limit (page ((c.blocks.drop (start - 1)).take limit)) := by
  have hlt : start - 1 < c.blocks.length := by
    rw [← hc.height_eq]
    omega
  have hprefix := pack_prefix pageCost maxNativePeerMessageBytes 512
    ((c.blocks.drop (start - 1)).take limit)
  have hrun := hprefix.trans (List.take_prefix _ _)
  refine ⟨?_, hprefix.length_le.trans (List.length_take_le _ _), hrun, hc.heights_drop hstart hrun,
    ?_⟩
  · have hsize : c.blocks[start - 1].toJson.toVec.length ≤ nativeTestnet.maxBlockBytes :=
      NativeNode.sound_sizes hc (List.getElem_mem hlt)
    obtain ⟨limit, rfl⟩ := Nat.exists_eq_add_one_of_ne_zero hlimit.ne'
    rw [List.drop_eq_getElem_cons hlt]
    refine pack_ne_nil ?_
    rw [pageCost, maxNativePeerMessageBytes]
    have : nativeTestnet.maxBlockBytes = 524288 := rfl
    omega
  · have hcost : 512 + ((page ((c.blocks.drop (start - 1)).take limit)).map pageCost).sum
      < maxNativePeerMessageBytes := pack_cost_lt (by decide)
    exact ((Message.length_blocks _ hc.height_lt (hle.trans_lt hc.height_lt)).trans hcost).le

/-- **A request for blocks of the advertised chain is answered with a page of them.** -/
theorem respond_getBlocks (hc : Sound cr node.chain) (hready : node.poisoned = false)
    (pending : Option (List NativeTransfer)) (hstart : 0 < start)
    (hle : start ≤ node.chain.ledger.height) (hlimit : 0 < limit) (hpage : limit ≤ blockPage) :
    ∃ blocks, respond cr (node.chain.head cr) node pending
        (.getBlocks (node.chain.head cr) start limit)
      = .ok (.blocks (node.chain.head cr) start blocks, pending) ∧
      Served cr node.chain start limit blocks := by
  have hserved := served_page hc hstart hle hlimit
  refine ⟨_, ?_, hserved⟩
  simp only [respond, NativeNode.ensureReady, hready, bind_eq_ok, mapErr_eq_ok, ensure_eq_ok,
    pure_eq_ok, and_self]
  exact ⟨(), trivial, (), trivial, (), ⟨hstart, hle, hlimit, hpage⟩, (), hserved.ne_nil, trivial⟩

/-! ## Clients -/

/-- A client that asks for the blocks behind the last one it got, with a limit of its own each
time. -/
def follow (cr : Crypto) (node : NativeNode) (next : ℕ) : List ℕ → Except String (List NativeBlock)
  | [] => pure []
  | limit :: limits =>
    if node.chain.ledger.height < next then pure []
    else do
      match ← serve cr node (.getBlocks (node.chain.head cr) next limit) with
      | .blocks _ _ blocks => do
        let rest ← follow cr node (next + blocks.length) limits
        pure (blocks ++ rest)
      | _ => throw "native blocks response required"

theorem serve_getBlocks (hc : Sound cr node.chain) (hready : node.poisoned = false)
    (hstart : 0 < start) (hle : start ≤ node.chain.ledger.height) (hlimit : 0 < limit)
    (hpage : limit ≤ blockPage) :
    ∃ blocks, serve cr node (.getBlocks (node.chain.head cr) start limit)
      = .ok (.blocks (node.chain.head cr) start blocks) ∧
      Served cr node.chain start limit blocks := by
  obtain ⟨blocks, hrespond, hserved⟩ := respond_getBlocks hc hready none hstart hle hlimit hpage
  refine ⟨blocks, ?_, hserved⟩
  simp only [serve, hrespond]
  rfl

/-- What is left of a chain after a page of it. -/
theorem Served.drop_eq {c : NativeChain} (h : Served cr c start limit blocks) (hstart : 0 < start) :
    c.blocks.drop (start - 1) = blocks ++ c.blocks.drop (start + blocks.length - 1) := by
  rw [drop_eq_append_drop h.run]
  congr 2
  omega

/-- **Asking once for every missing block is enough,** whatever the limits. -/
theorem follow_eq (hc : Sound cr node.chain) (hready : node.poisoned = false)
    {limits : List ℕ} (hlimits : ∀ limit ∈ limits, 0 < limit ∧ limit ≤ blockPage) {next : ℕ}
    (hnext : 0 < next) (henough : node.chain.ledger.height + 1 ≤ next + limits.length) :
    follow cr node next limits = .ok (node.chain.blocks.drop (next - 1)) := by
  have hend {next : ℕ} (h : node.chain.ledger.height < next) :
      node.chain.blocks.drop (next - 1) = [] := by
    refine List.drop_eq_nil_of_le ?_
    rw [← hc.height_eq]
    omega
  induction limits generalizing next with
  | nil =>
    have hall : node.chain.blocks.drop (next - 1) = [] := hend henough
    rw [hall]
    rfl
  | cons limit limits ih =>
    obtain ⟨⟨hpos, hpage⟩, hlimits⟩ := List.forall_mem_cons.mp hlimits
    rw [follow]
    split_ifs with hle
    · rw [hend (by assumption)]
      rfl
    · obtain ⟨blocks, hserve, hserved⟩ :=
        serve_getBlocks hc hready hnext (Nat.le_of_not_lt hle) hpos hpage
      have hlength := List.length_pos_iff.mpr hserved.ne_nil
      rw [List.length_cons] at henough
      have hrest : follow cr node (next + blocks.length) limits
          = .ok (node.chain.blocks.drop (next + blocks.length - 1)) :=
        ih hlimits (by omega) (by omega)
      rw [hserve]
      simp only [hrest, ok_bind]
      rw [hserved.drop_eq hnext]
      rfl

end Node

/-! ### The download of a round -/

/-- The peer serves the round from a node that does not change. -/
def Env.ServedBy (cr : Crypto) (env : Env) (node : NativeNode) : Prop :=
  ∀ k request, env.answer k request = serve cr node request

namespace Round

variable {cr : Crypto} {env : Env} {node : NativeNode} {round : Round}

theorem ensure_run {p : Prop} [Decidable p] (h : p) (message : String) :
    Sync.ensure p message round = .ok () round := by
  rw [Sync.ensure, if_pos h]
  rfl

/-- A request that is within the limit and answered. -/
theorem request_run {message reply : Message} (hlimit : round.requests < maxRequests)
    (h : env.answer (round.requests + 1) message = .ok reply) :
    request env message round = .ok reply { round with requests := round.requests + 1 } := by
  -- the counter is raised and read back first
  refine (bind_of_ok (ensure_run hlimit _)).trans ?_
  rw [h]
  rfl

/-- Blocks that are kept for a fork are only checked for their heights. -/
theorem foldlM_takeBlock_run {download : Download}
    (h : blocks.map (·.header.height) = List.range' download.next blocks.length) :
    blocks.foldlM (takeBlock cr env false) download round
      = .ok { download with next := download.next + blocks.length, fork := download.fork ++ blocks }
          round := by
  induction blocks generalizing download with
  | nil =>
    rw [List.append_nil]
    rfl
  | cons block blocks ih =>
    rw [List.map_cons, List.length_cons, List.range'_succ, List.cons.injEq] at h
    obtain ⟨hheight, hrest⟩ := h
    have htake : takeBlock cr env false download block round
        = .ok { download with next := download.next + 1, fork := download.fork ++ [block] } round :=
      bind_of_ok (ensure_run hheight _)
    rw [List.foldlM_cons, bind_of_ok htake, ih hrest, List.append_assoc, Nat.add_assoc,
      Nat.add_comm 1]
    rfl

/-- A page of the peer passes the checks of the client. -/
theorem getBlocks_run (hc : Sound cr node.chain) (hready : node.poisoned = false)
    (henv : env.ServedBy cr node) (next limit : ℕ) (hnext : 0 < next)
    (hle : next ≤ node.chain.ledger.height) (hpos : 0 < limit) (hpage : limit ≤ blockPage)
    (hrequests : round.requests < maxRequests) :
    ∃ blocks, Served cr node.chain next limit blocks ∧
      getBlocks env (node.chain.head cr) next limit round
        = .ok blocks { round with requests := round.requests + 1 } := by
  obtain ⟨blocks, hserve, hserved⟩ := serve_getBlocks hc hready hnext hle hpos hpage
  refine ⟨blocks, hserved, ?_⟩
  rw [getBlocks, bind_of_ok (request_run hrequests ((henv _ _).trans hserve))]
  exact bind_of_ok (ensure_run ⟨rfl, rfl, hserved.ne_nil, hserved.length_le⟩ _)

/-- **The download of a fork ends with the blocks up to the target,** if the round can make a request
for each of them. -/
theorem downloadBlocks_run (hc : Sound cr node.chain) (hready : node.poisoned = false)
    (henv : env.ServedBy cr node) {target : ℕ} (htarget : target ≤ node.chain.ledger.height)
    {fuel : ℕ} {download : Download} (hnext : 0 < download.next)
    (hfuel : target + 1 - download.next < fuel)
    (hrequests : round.requests + (target + 1 - download.next) ≤ maxRequests) :
    ∃ requests, downloadBlocks cr env (node.chain.head cr) false target fuel download round
      = .ok { download with
          next := max download.next (target + 1)
          fork := download.fork ++ (node.chain.blocks.drop (download.next - 1)).take
            (target + 1 - download.next) }
        { round with requests } := by
  induction fuel generalizing download round with
  | zero => omega
  | succ fuel ih =>
    rw [downloadBlocks]
    split_ifs with hle
    · obtain ⟨blocks, hserved, hget⟩ := getBlocks_run hc hready henv download.next
        (min blockPage (target - download.next + 1)) hnext (hle.trans htarget)
        (by rw [blockPage]; omega) (min_le_left _ _) (by omega : round.requests < maxRequests)
      have hlength := List.length_pos_iff.mpr hserved.ne_nil
      have hmost := hserved.length_le.trans (min_le_right _ _)
      obtain ⟨requests, hrest⟩ := @ih { round with requests := round.requests + 1 }
        { download with next := download.next + blocks.length, fork := download.fork ++ blocks }
        (by dsimp only; omega) (by dsimp only; omega) (by dsimp only; omega)
      have hfork : download.fork ++ blocks ++
          (node.chain.blocks.drop (download.next + blocks.length - 1)).take
            (target + 1 - (download.next + blocks.length))
          = download.fork ++ (node.chain.blocks.drop (download.next - 1)).take
            (target + 1 - download.next) := by
        rw [hserved.drop_eq hnext, List.take_append, List.take_of_length_le (l := blocks) (by omega),
          List.append_assoc, Nat.sub_sub]
      have hnext' : max (download.next + blocks.length) (target + 1)
          = max download.next (target + 1) := by omega
      simp only [hfork, hnext'] at hrest
      exact ⟨requests, (bind_of_ok hget).trans
        ((bind_of_ok (foldlM_takeBlock_run hserved.heights)).trans hrest)⟩
    · refine ⟨round.requests, ?_⟩
      have hzero : target + 1 - download.next = 0 := by omega
      rw [hzero, List.take_zero, List.append_nil, max_eq_left (by omega)]
      rfl

end Round

/-! ## Paging -/

open NativeNode in
/-- **Paging always progresses.**  However a node was reached, every request within the limits on its
advertised head is answered with a nonempty run of blocks from there, in a message that can be sent.
So a client that asks behind the last block it got ends with the whole chain, whatever its limits; and
a round that may still make a request for each block up to its target downloads them. -/
theorem paging_progresses (cr : Crypto) (codec : Codec) (openMs : ℕ) (disk : Disk)
    (opened node : NativeNode) (advertised : Head)
    (hopen : openInner cr codec openMs disk = .ok opened) (hrun : Run cr opened node)
    (hready : node.ensureReady = .ok ()) (hadvertised : node.chain.head cr = advertised) :
    (∀ pending start limit, 1 ≤ start → start ≤ advertised.height → 1 ≤ limit →
      limit ≤ blockPage →
      ∃ blocks, respond cr advertised node pending (.getBlocks advertised start limit)
          = .ok (.blocks advertised start blocks, pending) ∧
        blocks ≠ [] ∧ blocks.length ≤ limit ∧ blocks <+: node.chain.blocks.drop (start - 1) ∧
        blocks.map (·.header.height) = List.range' start blocks.length ∧
        (Message.blocks advertised start blocks).frame.length ≤ maxNativePeerMessageBytes) ∧
    (∀ next limits, 1 ≤ next → (∀ limit ∈ limits, 1 ≤ limit ∧ limit ≤ blockPage) →
      advertised.height + 1 ≤ next + limits.length →
      follow cr node next limits = .ok (node.chain.blocks.drop (next - 1))) ∧
    ∀ (env : Env) (round : Round) (download : Round.Download) (target fuel : ℕ),
      env.ServedBy cr node → 1 ≤ download.next → target ≤ advertised.height →
      target + 1 - download.next < fuel →
      round.requests + (target + 1 - download.next) ≤ maxRequests →
      ∃ requests, Round.downloadBlocks cr env advertised false target fuel download round
        = .ok { download with
            next := max download.next (target + 1)
            fork := download.fork ++ (node.chain.blocks.drop (download.next - 1)).take
              (target + 1 - download.next) }
          { round with requests } := by
  have hc := (hrun.steps.rank_le (live_openInner hopen).sound).1
  have hpoison := ensure_eq_ok.mp hready
  subst hadvertised
  refine ⟨fun pending start limit hstart hle hpos hpage => ?_, fun next limits hnext hlimits henough =>
    follow_eq hc hpoison hlimits hnext henough, fun env round download target fuel henv hnext htarget
    hfuel hrequests => Round.downloadBlocks_run hc hpoison henv htarget hnext hfuel hrequests⟩
  obtain ⟨blocks, hrespond, hserved⟩ := respond_getBlocks hc hpoison pending hstart hle hpos hpage
  exact ⟨blocks, hrespond, hserved.ne_nil, hserved.length_le, hserved.run, hserved.heights,
    hserved.fits⟩

open NativeNode NativeChain in
/-- A node that took one block serves it. -/
theorem paging_progresses_one_block : ∃ opened node : NativeNode,
    openInner domainCrypto ⟨fun _ => .error "", fun _ => .error ""⟩ 0 { blockLog := [], pool := none }
      = .ok opened ∧ Run domainCrypto opened node ∧ node.ensureReady = .ok () ∧
    follow domainCrypto node 1 [16] = .ok [exampleBlock] := by
  obtain ⟨opened, o, hopen, -, -, hsubmit, hblocks, -⟩ :=
    exampleBlock_submits ⟨fun _ => .error "", fun _ => .error ""⟩
  have hrun : Run domainCrypto opened o.node := by
    have hcall : Run domainCrypto opened
        (opened.after (opened.call domainCrypto 0 (.submitBlock exampleBlock))) :=
      .call (.refl opened) 0 _
    rwa [call, hsubmit] at hcall
  have hready : o.node.ensureReady = .ok () := by
    have hopened := (invariant_openInner hopen).ready
    rcases submitBlock_eq_ok hsubmit with rfl | ⟨p, chain, retained, ha⟩
    · exact ensure_of hopened _
    · rw [ha.outcome]
      exact ensure_of hopened _
  obtain ⟨-, hfollow, -⟩ := paging_progresses domainCrypto _ 0 _ opened o.node _ hopen hrun hready rfl
  have hc := (hrun.steps.rank_le (live_openInner hopen).sound).1
  refine ⟨opened, o.node, hopen, hrun, hready, (hfollow 1 [16] le_rfl (by decide) ?_).trans ?_⟩
  · change o.node.chain.ledger.height + 1 ≤ 2
    rw [hc.height_eq, hblocks]
    decide
  · rw [hblocks]
    rfl

end Native
