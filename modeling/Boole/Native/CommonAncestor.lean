import Boole.Library.Bisection
import Boole.Native.PeerServer

/-!
# Native/CommonAncestor — where two chains part

A round looks for the last height at which its own chain and the peer's have the same hash, by
bisection.  That is only right if equal hashes at one height mean equal hashes below it.  The
previous hash is part of what a block's hash is taken of, so **as long as no two of the blocks
collide, hashes that agree at a height agree at every height before** (`chainHash_eq_of_le`), and

    ours    genesis ── b₁ ── … ── bₙ ── x …
    theirs  genesis ── b₁ ── … ── bₙ ── y …      the search ends at n

**the search ends with the length of the common prefix, after at most as many questions as its
interval can be halved, none of them above either chain** (`search_finds_common`).
-/

open Library

namespace Native

open NativeBlock

/-! ## Hashes along a chain -/

namespace NativeChain

variable {cr : Crypto} {c c' f : NativeChain} {i j : ℕ}

theorem chainHash_succ (cr : Crypto) (c : NativeChain) (i : ℕ) :
    chainHash cr c (i + 1) = okOr c.blocks[i]? "native hash height unavailable" >>=
      hash cr := rfl

theorem chainHash_congr (h : c.blocks = c'.blocks) (i : ℕ) :
    chainHash cr c i = chainHash cr c' i := by
  rw [chainHash, chainHash, h]

theorem chainHash_extend {p : PreparedNativeBlock} {h : Hex32} (hi : i ≤ c.blocks.length) :
    chainHash cr (c.extend p h) i = chainHash cr c i := by
  cases i with
  | zero => rfl
  | succ i =>
    rw [chainHash_succ, chainHash_succ, extend, List.getElem?_append_left hi]

/-- The last hash is the head. -/
theorem History.chainHash_length (hf : History cr f) :
    chainHash cr f f.blocks.length = .ok (f.headHash cr) := by
  cases hf with
  | genesis h =>
    obtain ⟨hnetwork, hblocks, -⟩ := new_eq_ok h
    rw [headHash, hblocks, hnetwork]
    rfl
  | @block c b p h es hc hp hx =>
    rw [headHash_extend hx, extend, List.length_append, List.length_singleton, chainHash_succ,
      List.getElem?_concat_length, okOr_some, hx.block]
    exact hx.hash

/-- **Every block names the hash below it,** and has one itself. -/
theorem History.link (hf : History cr f) {b : NativeBlock} (hb : f.blocks[i]? = some b) :
    (∃ h, chainHash cr f i = .ok h ∧ b.header.previousHash = h.toHex) ∧
      ∃ h, b.hash cr = .ok h := by
  induction hf with
  | genesis h => simp [(new_eq_ok h).2.1] at hb
  | @block c b' p h es hc hp hx ih =>
    have hi : i ≤ c.blocks.length := by
      have := (List.getElem?_eq_some_iff.mp hb).1
      rw [extend, List.length_append, List.length_singleton] at this
      omega
    rw [chainHash_extend hi]
    rcases hi.lt_or_eq with hlt | rfl
    · rw [extend, List.getElem?_append_left hlt] at hb
      exact ih hb
    · rw [extend, List.getElem?_concat_length, hx.block, Option.some.injEq] at hb
      subst hb
      exact ⟨⟨_, hc.chainHash_length, hx.link⟩, h, hx.hash⟩

/-- A chain that is, up to its undo window, a history. -/
def Verified (cr : Crypto) (c : NativeChain) : Prop := ∃ f, History cr f ∧ Same c f

theorem verified_of_replay {r : NativeChain} (h : replay cr c.blocks = .ok r ∧ Same c r) :
    Verified cr c := by
  obtain ⟨f, hf, hsame, -⟩ := sound_replay h.1
  exact ⟨f, hf, h.2.trans hsame⟩

theorem Verified.height_eq (hc : Verified cr c) : c.ledger.height = c.blocks.length := by
  obtain ⟨f, hf, hsame⟩ := hc
  rw [hsame.ledger, hsame.blocks, hf.lengths.2]

theorem Verified.link (hc : Verified cr c) {b : NativeBlock} (hb : c.blocks[i]? = some b) :
    (∃ h, chainHash cr c i = .ok h ∧ b.header.previousHash = h.toHex) ∧
      ∃ h, b.hash cr = .ok h := by
  obtain ⟨f, hf, hsame⟩ := hc
  rw [chainHash_congr hsame.blocks]
  exact hf.link (hsame.blocks ▸ hb)

/-- A verified chain has a hash at each of its heights. -/
theorem Verified.chainHash_ok (hc : Verified cr c) (hi : i ≤ c.blocks.length) :
    ∃ h, chainHash cr c i = .ok h := by
  cases i with
  | zero => exact ⟨_, rfl⟩
  | succ i =>
    obtain ⟨-, h, hh⟩ := hc.link (List.getElem?_eq_getElem hi)
    rw [chainHash_succ, List.getElem?_eq_getElem hi, okOr_some]
    exact ⟨h, hh⟩

/-! ## Agreement is inherited downwards -/

section Agreement

variable {S : Set (List UInt8)} (hinj : Set.InjOn cr.blake3 S) (hc : Verified cr c)
  (hc' : Verified cr c')
  (hS : ∀ b ∈ c.blocks ++ c'.blocks, ∀ n < 2 ^ 64, b.nonce = toString n → blockInput b.header n ∈ S)

include hinj hc hc' hS

/-- One height down. -/
theorem chainHash_eq_of_succ (hi : i < c.blocks.length) (hi' : i < c'.blocks.length)
    (heq : chainHash cr c (i + 1) = chainHash cr c' (i + 1)) :
    chainHash cr c i = chainHash cr c' i := by
  have hb := List.getElem?_eq_getElem hi
  have hb' := List.getElem?_eq_getElem hi'
  obtain ⟨⟨h, hh, hlink⟩, hash, hhash⟩ := hc.link hb
  obtain ⟨⟨h', hh', hlink'⟩, hash', hhash'⟩ := hc'.link hb'
  rw [chainHash_succ, chainHash_succ, hb, hb', okOr_some, okOr_some, ok_bind, ok_bind, hhash, hhash',
    Except.ok.injEq] at heq
  obtain ⟨n, hn, hnonce, rfl⟩ := hash_eq_ok hhash
  obtain ⟨n', hn', hnonce', rfl⟩ := hash_eq_ok hhash'
  have hin := hS _ (List.mem_append_left _ (List.getElem_mem hi)) n hn hnonce
  have hin' := hS _ (List.mem_append_right _ (List.getElem_mem hi')) n' hn' hnonce'
  -- equal hashes are hashes of equal headers, which name the hash below
  obtain ⟨hheader, -⟩ := blockInput_inj hn hn' (hinj hin hin' heq)
  rw [hheader, hlink'] at hlink
  rw [hh, hh', Hex32.toHex_injective hlink]

theorem chainHash_eq_of_le (hij : i ≤ j) (hj : j ≤ c.blocks.length) (hj' : j ≤ c'.blocks.length)
    (heq : chainHash cr c j = chainHash cr c' j) : chainHash cr c i = chainHash cr c' i := by
  induction j, hij using Nat.le_induction with
  | base => exact heq
  | succ j hij ih =>
    exact ih (Nat.le_of_succ_le hj) (Nat.le_of_succ_le hj')
      (chainHash_eq_of_succ hinj hc hc' hS hj hj' heq)

/-- **Chains agree at a height when all their hashes up to there agree.** -/
theorem chainHash_eq_iff (hi : i ≤ c.blocks.length) (hi' : i ≤ c'.blocks.length) :
    chainHash cr c i = chainHash cr c' i ↔
      (c.blocks.take i).map (hash cr) = (c'.blocks.take i).map (hash cr) := by
  have hone {k : ℕ} (hk : k < i) : chainHash cr c (k + 1) = chainHash cr c' (k + 1) ↔
      c.blocks[k].hash cr = c'.blocks[k].hash cr := by
    rw [chainHash_succ, chainHash_succ, List.getElem?_eq_getElem (hk.trans_le hi),
      List.getElem?_eq_getElem (hk.trans_le hi'), okOr_some, okOr_some, ok_bind, ok_bind]
  constructor
  · intro heq
    refine List.ext_getElem (by simp [hi, hi']) fun k hk _ => ?_
    rw [List.length_map, List.length_take] at hk
    have hki : k < i := by omega
    simpa using (hone hki).mp (chainHash_eq_of_le hinj hc hc' hS hki hi hi' heq)
  · intro heq
    cases i with
    | zero => rfl
    | succ i =>
      have hlast := congrArg (fun l => l[i]?) heq
      simp only [List.getElem?_map, List.getElem?_take_of_lt (Nat.lt_succ_self i),
        List.getElem?_eq_getElem hi, List.getElem?_eq_getElem hi', Option.map_some,
        Option.some.injEq] at hlast
      exact (hone (Nat.lt_succ_self i)).mpr hlast

end Agreement

end NativeChain

/-! ## The search -/

/-- The other threads leave the chain alone, and the node can be locked. -/
structure Env.Quiet (env : Env) : Prop where
  chain : ∀ k node, (env.others k node).chain = node.chain
  lock : ∀ k, env.lock k = .ok ()

/-- The answers from the `first` on are the peer's hashes at the heights asked for. -/
def Env.Truthful (cr : Crypto) (env : Env) (theirs : NativeChain) (first : ℕ) (asked : List ℕ) :
    Prop :=
  ∀ i height, asked[i]? = some height → ∃ hash, chainHash cr theirs height = .ok hash ∧
    env.answer (first + i) (.getHash (theirs.head cr) height)
      = .ok (.hash (theirs.head cr) height hash)

theorem Env.Truthful.tail {cr : Crypto} {env : Env} {theirs : NativeChain} {first height : ℕ}
    {asked : List ℕ} (h : env.Truthful cr theirs first (height :: asked)) :
    env.Truthful cr theirs (first + 1) asked := by
  intro i height hi
  rw [Nat.add_right_comm]
  exact h (i + 1) height hi

/-- A head that passes the greeting is not too high. -/
theorem remoteHead_height {cr : Crypto} {message : Message} {head : Head}
    (h : remoteHead cr message = .ok head) :
    head.height ≤ maxNativeHistoryBlocks := by
  cases message with
  | hello version networkId genesisHash head' =>
    simp only [remoteHead, bind_eq_ok, ensure_eq_ok, pure_eq_ok] at h
    obtain ⟨_, -, _, -, _, hle, _, -, rfl⟩ := h
    exact hle
  | _ => cases h

namespace Round

variable {cr : Crypto} {env : Env} {round : Round} {ours theirs : NativeChain}

theorem lockNode_run (hq : env.Quiet) : lockNode env round
    = .ok (env.others round.locks round.node)
        { round with node := env.others round.locks round.node, locks := round.locks + 1 } := by
  -- what the other threads did is taken over before the lock is tried
  refine (bind_of_ok rfl).trans ((bind_of_ok rfl).trans ?_)
  rw [hq.lock]
  rfl

theorem getHash_run {snapshot : Head} {height : ℕ} {hash : Hex32}
    (hlimit : round.requests < maxRequests)
    (h : env.answer (round.requests + 1) (.getHash snapshot height)
      = .ok (.hash snapshot height hash)) :
    getHash env snapshot height round
      = .ok hash { round with requests := round.requests + 1 } :=
  (bind_of_ok (request_run hlimit h)).trans (bind_of_ok (ensure_run ⟨rfl, rfl⟩ _))

/-- A round after a question and a look at its own chain. -/
def afterQuestion (env : Env) (round : Round) : Round :=
  { round with
    node := env.others round.locks round.node
    requests := round.requests + 1
    locks := round.locks + 1 }

@[simp] theorem requests_afterQuestion :
    (round.afterQuestion env).requests = round.requests + 1 := rfl

/-- One turn of the search: it goes on in the half that the two hashes choose. -/
theorem findCommon_step (hq : env.Quiet) (hc : NativeChain.Verified cr ours)
    (hround : round.node.chain = ours) {low high : ℕ} (hlt : low < high)
    (hhigh : high ≤ ours.blocks.length) (hlimit : round.requests < maxRequests) {asked : List ℕ}
    (htrue : env.Truthful cr theirs (round.requests + 1) (midpoint low high :: asked)) (fuel : ℕ) :
    findCommon cr env (ours.head cr) (theirs.head cr) (fuel + 1) low high round
      = (if chainHash cr ours (midpoint low high) = chainHash cr theirs (midpoint low high) then
            findCommon cr env (ours.head cr) (theirs.head cr) fuel (midpoint low high) high
          else findCommon cr env (ours.head cr) (theirs.head cr) fuel low (midpoint low high - 1))
        (round.afterQuestion env) := by
  obtain ⟨hash, hours⟩ := hc.chainHash_ok ((midpoint_le hlt).trans hhigh)
  obtain ⟨hash', htheirs, hanswer⟩ := htrue 0 _ rfl
  have hchain : (env.others round.locks round.node).chain = ours := (hq.chain _ _).trans hround
  simp only [hours, htheirs, Except.ok.injEq]
  rw [findCommon, if_pos hlt]
  refine (bind_of_ok (getHash_run hlimit hanswer)).trans ((bind_of_ok (lockNode_run hq)).trans ?_)
  refine (bind_of_ok (ensure_run (congrArg _ hchain) _)).trans (bind_of_ok ?_)
  rw [hchain]
  exact congrArg (Sync.lift · _) hours

/-- **The search is a bisection,** and it depends on the answers to its own questions only. -/
theorem findCommon_run (hq : env.Quiet) (hc : NativeChain.Verified cr ours) {low high common : ℕ}
    {asked : List ℕ}
    (h : Bisects (fun i => chainHash cr ours i = chainHash cr theirs i) low high asked common)
    (hhigh : high ≤ ours.blocks.length) {fuel : ℕ} (hfuel : asked.length < fuel)
    (hround : round.node.chain = ours) (hrequests : round.requests + asked.length ≤ maxRequests)
    (htrue : env.Truthful cr theirs (round.requests + 1) asked) :
    ∃ node, node.chain = ours ∧
      findCommon cr env (ours.head cr) (theirs.head cr) fuel low high round
        = .ok common { round with
            node
            requests := round.requests + asked.length
            locks := round.locks + asked.length } := by
  obtain ⟨fuel, rfl⟩ := Nat.exists_eq_add_one_of_ne_zero (Nat.ne_zero_of_lt hfuel)
  -- each question is answered in a later round state, with less fuel
  induction h generalizing fuel round with
  | done h =>
    refine ⟨round.node, hround, ?_⟩
    rw [findCommon, if_neg (Nat.not_lt_of_le h)]
    rfl
  | up hlt hp _ ih =>
    rw [List.length_cons] at hfuel hrequests
    obtain ⟨fuel, rfl⟩ := Nat.exists_eq_add_one_of_ne_zero (by omega : fuel ≠ 0)
    obtain ⟨node, hnode, hrun⟩ := @ih (round.afterQuestion env) hhigh ((hq.chain _ _).trans hround)
      (by rw [requests_afterQuestion]; omega) htrue.tail fuel (by omega)
    refine ⟨node, hnode, ?_⟩
    rw [findCommon_step hq hc hround hlt hhigh (by omega) htrue, if_pos hp, hrun]
    simp only [afterQuestion, List.length_cons, Nat.add_assoc, Nat.add_comm 1]
  | down hlt hp _ ih =>
    have hmid := midpoint_le hlt
    rw [List.length_cons] at hfuel hrequests
    obtain ⟨fuel, rfl⟩ := Nat.exists_eq_add_one_of_ne_zero (by omega : fuel ≠ 0)
    obtain ⟨node, hnode, hrun⟩ := @ih (round.afterQuestion env) (by omega) ((hq.chain _ _).trans hround)
      (by rw [requests_afterQuestion]; omega) htrue.tail fuel (by omega)
    refine ⟨node, hnode, ?_⟩
    rw [findCommon_step hq hc hround hlt hhigh (by omega) htrue, if_neg hp, hrun]
    simp only [afterQuestion, List.length_cons, Nat.add_assoc, Nat.add_comm 1]

/-- A round that gets past the greeting, and whose peer has another head, searches and goes on from
the height it found. -/
theorem synchronize_run {node : NativeNode} {declined : Option DeclinedFork} (hq : env.Quiet)
    (hready : (env.others 0 node).ensureReady = .ok ()) {greeting : Message}
    (hgreeting : env.answer 1 (hello cr node) = .ok greeting)
    (hremote : remoteHead cr greeting = .ok (theirs.head cr))
    (hne : theirs.head cr ≠ node.chain.head cr)
    (hnew : declined ≠ some ⟨node.chain.head cr, theirs.head cr⟩) {common : ℕ} {round : Round}
    (hfind : findCommon cr env (node.chain.head cr) (theirs.head cr) (maxRequests + 1) 0
        (min node.chain.ledger.height theirs.ledger.height)
        { node := env.others 0 node, requests := 1, locks := 1, declined := none }
      = .ok common round) :
    synchronize cr env { node, requests := 0, locks := 0, declined }
      = (if common ≠ node.chain.ledger.height ∧
            (maxNativePeerRoundBlocks < theirs.ledger.height - common ∨
              common < node.chain.earliestRecentForkHeight) then
            finish env .boundedReorgRequiresRecovery
          else synchronizeBlocks cr env (node.chain.head cr) (theirs.head cr) common) round := by
  have hchain : (env.others 0 node).chain = node.chain := hq.chain _ _
  have hhello : hello cr (env.others 0 node) = hello cr node := by rw [hello, hello, hchain]
  refine (bind_of_ok (lockNode_run hq)).trans ?_
  dsimp only
  rw [hhello, hchain]
  have hensure : ensureReady (env.others 0 node)
      { node := env.others 0 node, requests := 0, locks := 1, declined }
      = .ok () { node := env.others 0 node, requests := 0, locks := 1, declined } := by
    rw [ensureReady, hready]
    rfl
  refine (bind_of_ok hensure).trans ((bind_of_ok (request_run (show 0 < maxRequests by decide) hgreeting)).trans ?_)
  rw [hremote]
  refine (bind_of_ok rfl).trans ((bind_of_ok rfl).trans ?_)
  rw [if_neg hnew]
  rw [if_neg hne]
  exact bind_of_ok hfind

end Round

/-- A peer that serves its rounds from its own chain answers truthfully. -/
theorem Env.ServedBy.truthful {cr : Crypto} {env : Env} {server : NativeNode}
    (h : env.ServedBy cr server) (hready : server.ensureReady = .ok ())
    (hc : NativeChain.Verified cr server.chain) (first : ℕ) {asked : List ℕ}
    (hasked : ∀ height ∈ asked, height ≤ server.chain.ledger.height) :
    env.Truthful cr server.chain first asked := by
  intro i height hi
  have hle := hasked height (List.mem_of_getElem? hi)
  obtain ⟨hash, hhash⟩ := hc.chainHash_ok (hc.height_eq ▸ hle)
  refine ⟨hash, hhash, ?_⟩
  have hrespond : respond cr (server.chain.head cr) server none
      (.getHash (server.chain.head cr) height)
      = .ok (.hash (server.chain.head cr) height hash, none) := by
    rw [respond, hready, mapErr, ensure_of ⟨rfl, rfl, hle⟩, hhash]
    rfl
  rw [h, serve, hrespond]
  · rfl
  all_goals simp

/-! ## The common prefix -/

open NativeChain in
/-- **The search finds where two chains part.**  Both chains replay and no two of their blocks collide.
Then there are heights `asked`, few enough and none above either chain, such that a round during which
our chain stays as it is and these questions are answered truthfully goes on from the length of the
longest prefix with the same block hashes; it made no request but the greeting and the questions. -/
theorem search_finds_common (cr : Crypto) (S : Set (List UInt8)) (node : NativeNode)
    (theirs ourReplay theirReplay : NativeChain) (hinj : Set.InjOn cr.blake3 S)
    (hours : replay cr node.chain.blocks = .ok ourReplay ∧ Same node.chain ourReplay)
    (htheirs : replay cr theirs.blocks = .ok theirReplay ∧ Same theirs theirReplay)
    (hS : ∀ b ∈ node.chain.blocks ++ theirs.blocks, ∀ n < 2 ^ 64, b.nonce = toString n →
      blockInput b.header n ∈ S) :
    ∃ asked common,
      IsGreatest {n | n ≤ node.chain.blocks.length ∧ n ≤ theirs.blocks.length ∧
        (node.chain.blocks.take n).map (NativeBlock.hash cr)
          = (theirs.blocks.take n).map (NativeBlock.hash cr)} common ∧
      asked.length ≤ Nat.clog 2 (min node.chain.ledger.height theirs.ledger.height + 1) ∧
      (∀ height ∈ asked, height ≤ node.chain.ledger.height ∧ height ≤ theirs.ledger.height) ∧
      ∀ (env : Env) (declined : Option DeclinedFork) (greeting : Message), env.Quiet →
        (env.others 0 node).ensureReady = .ok () →
        env.answer 1 (hello cr node) = .ok greeting →
        remoteHead cr greeting = .ok (theirs.head cr) →
        theirs.head cr ≠ node.chain.head cr →
        declined ≠ some ⟨node.chain.head cr, theirs.head cr⟩ →
        env.Truthful cr theirs 2 asked →
        ∃ node' : NativeNode, node'.chain = node.chain ∧
          Round.synchronize cr env { node, requests := 0, locks := 0, declined }
            = (if common ≠ node.chain.ledger.height ∧
                  (maxNativePeerRoundBlocks < theirs.ledger.height - common ∨
                    common < node.chain.earliestRecentForkHeight) then
                  Round.finish env .boundedReorgRequiresRecovery
                else Round.synchronizeBlocks cr env (node.chain.head cr) (theirs.head cr) common)
              { node := node'
                requests := 1 + asked.length
                locks := 1 + asked.length
                declined := none } := by
  have hc := verified_of_replay hours
  have hc' := verified_of_replay htheirs
  have hheight := hc.height_eq
  have hheight' := hc'.height_eq
  obtain ⟨asked, common, hsearch⟩ := exists_bisects
    (fun i => chainHash cr node.chain i = chainHash cr theirs i) 0
    (min node.chain.ledger.height theirs.ledger.height)
  have hlength : asked.length ≤ Nat.clog 2 (min node.chain.ledger.height theirs.ledger.height + 1) :=
    hsearch.length_le
  refine ⟨asked, common, ?_, hlength, fun height hmem => le_min_iff.mp (hsearch.mem height hmem).2, ?_⟩
  · have hgreatest := hsearch.isGreatest (Nat.zero_le _) rfl fun i j hij hj =>
      chainHash_eq_of_le hinj hc hc' hS hij (by omega) (by omega)
    convert hgreatest using 1
    ext n
    simp only [Set.mem_ofPred_eq, le_min_iff, hheight, hheight', and_assoc]
    refine and_congr_right fun hn => and_congr_right fun hn' => ?_
    exact (chainHash_eq_iff hinj hc hc' hS hn hn').symm
  · intro env declined greeting hq hready hgreeting hremote hne hnew htrue
    have hfew : asked.length ≤ 17 := by
      have hmost := remoteHead_height hremote
      refine hlength.trans (Nat.clog_le_of_le_pow ?_)
      change theirs.ledger.height ≤ 100000 at hmost
      omega
    have hbudget : 1 + asked.length ≤ maxRequests := by
      rw [maxRequests]
      omega
    obtain ⟨node', hnode', hfind⟩ := @Round.findCommon_run cr env
      { node := env.others 0 node, requests := 1, locks := 1, declined := none } _ _ hq hc _ _ _ _
      hsearch (by omega) (maxRequests + 1) (by omega) (hq.chain _ _) hbudget htrue
    exact ⟨node', hnode', Round.synchronize_run hq hready hgreeting hremote hne hnew hfind⟩

/-! Two blocks mined on genesis with different nonces, under a hash that reads the nonce. -/

/-- The hash of a block is the lowest byte of its nonce. -/
def nonceCrypto : Crypto where
  blake3 input := BitVec.ofNat 256 (input.getD (input.length - 8) 0).toNat
  sha256 _ := 0
  keyError _ := none
  verify _ _ _ := true

theorem blake3_nonceCrypto (header : NativeBlockHeader) {n : ℕ} (hn : n < 256) :
    nonceCrypto.blake3 (blockInput header n) = BitVec.ofNat 256 n := by
  have hbyte : (blockInput header n).getD ((blockInput header n).length - 8) 0 = UInt8.ofNat n := by
    rw [List.getD_eq_getElem?_getD, blockInput, List.length_append, length_leBytes,
      Nat.add_sub_cancel, List.getElem?_append_right le_rfl, Nat.sub_self, leBytes,
      Nat.mod_eq_of_lt hn]
    rfl
  change BitVec.ofNat 256 ((blockInput header n).getD ((blockInput header n).length - 8) 0).toNat = _
  rw [hbyte, UInt8.toNat_ofNat_of_lt' hn]

theorem injOn_nonceCrypto (header header' : NativeBlockHeader) :
    Set.InjOn nonceCrypto.blake3 {blockInput header 0, blockInput header' 1} := by
  have hne : nonceCrypto.blake3 (blockInput header 0) ≠ nonceCrypto.blake3 (blockInput header' 1) := by
    rw [blake3_nonceCrypto _ (by decide), blake3_nonceCrypto _ (by decide)]
    decide
  rintro i (rfl | rfl) j (rfl | rfl) h
  · rfl
  · exact absurd h hne
  · exact absurd h.symm hne
  · rfl

theorem nonce_inj {n m : ℕ} (hn : n < 2 ^ 64) (hm : m < 2 ^ 64) (h : toString n = toString m) :
    n = m := by
  have hparse := parseU64_toString hn
  rw [h, parseU64_toString hm] at hparse
  exact (Except.ok.inj hparse).symm

/-- Any signature passes. -/
theorem verifyStrict_nonceCrypto {e : SignedEnvelope} {pk : Hex32} {signature : Hex64}
    (hpk : Hex32.fromHex e.pk = .ok pk) (hsig : Hex64.fromHex e.signature = some signature) :
    e.verifyStrict nonceCrypto = .ok true := by
  have hpkSize : e.pk.utf8ByteSize = 64 := by
    simp only [Hex32.fromHex, okOr_eq_ok, Option.map_eq_some_iff, decodeFixed,
      Option.ite_none_right_eq_some] at hpk
    obtain ⟨_, ⟨hsize, -⟩, -⟩ := hpk
    exact hsize
  have hsigSize : e.signature.utf8ByteSize = 128 := by
    simp only [Hex64.fromHex, Option.map_eq_some_iff, decodeFixed,
      Option.ite_none_right_eq_some] at hsig
    obtain ⟨_, ⟨hsize, -⟩, -⟩ := hsig
    exact hsize
  rw [SignedEnvelope.verifyStrict, decodeHex32, ensure_of hpkSize, hpk, mapErr, decodeHex64,
    ensure_of hsigSize, hsig]
  rfl

theorem verifyAuthorization_nonceCrypto {b : NativeBlock} {h pk : Hex32} {signature : Hex64}
    (hhash : b.hash nonceCrypto = .ok h) (hpk : Hex32.fromHex b.header.producerPk = .ok pk)
    (hsig : Hex64.fromHex b.producerSignature = some signature) :
    b.verifyAuthorization nonceCrypto = .ok () := by
  obtain ⟨payload, hpayload⟩ : ∃ payload, b.authorizationPayload nonceCrypto = .ok payload := by
    rw [authorizationPayload, hhash]
    exact ⟨_, rfl⟩
  rw [verifyAuthorization, hpayload, ok_bind, authorize,
    ensure_of ⟨rfl, rfl, rfl⟩, ok_bind, hpayload, ok_bind, ensure_of rfl, ok_bind,
    verifyStrict_nonceCrypto hpk hsig, ok_bind, ensure_of rfl, ok_bind]
  rfl

open NativeChain in
/-- Every small nonce makes a first block, and a node that is ready to serve it. -/
theorem mined_nonceCrypto {n : ℕ} (hn : n < 256) : ∃ (b : NativeBlock) (node : NativeNode),
    replay nonceCrypto [b] = .ok node.chain ∧ node.chain.blocks = [b] ∧
    node.ensureReady = .ok () ∧ b.nonce = toString n ∧
    b.hash nonceCrypto = .ok (BitVec.ofNat 256 n) := by
  obtain ⟨c, -, hc, -⟩ := exampleBlock_appends
  obtain ⟨hnetwork, hblocks, -⟩ := new_eq_ok hc
  have hsound : Sound nonceCrypto c := sound_new hc
  obtain ⟨v, hv⟩ := NativeNode.pendingView_ok hsound (by simp [hblocks])
  have hminimum : c.minimumTimestampMs = .ok 1 := by
    rw [minimumTimestampMs, hblocks, hnetwork]
    rfl
  obtain ⟨t, ht⟩ := @Sound.template_ok c [] [] nonceCrypto hsound (by simp [hblocks])
    (Nat.zero_le _) (by simp) rfl v v hv rfl _ _ _ _ (Hex32.fromHex_toHex 1) (Hex32.fromHex_toHex 1)
    _ _ hminimum le_rfl
  obtain ⟨htime, es, l, ht⟩ := template_eq_ok ht
  have htarget : Hex32.fromHex t.header.target = .ok initialLimit := by
    have htext := ht.target
    rw [nextTarget, hblocks, hnetwork] at htext
    rw [← Except.ok.inj htext, initialTarget_eq, Hex32.fromHex_toHex]
  let b : NativeBlock :=
    { header := t.header, nonce := toString n, transfers := t.transfers,
      producerSignature := String.ofList (Library.toHex 128 0) }
  have hlt : n < 2 ^ 64 := hn.trans (by decide)
  have hhash : b.hash nonceCrypto = .ok (BitVec.ofNat 256 n) :=
    (hash_of_nonce nonceCrypto hlt rfl).trans (congrArg _ (blake3_nonceCrypto _ hn))
  have hsig : Hex64.fromHex b.producerSignature = some (BitVec.ofNat 512 0) := by
    rw [Hex64.fromHex, decodeFixed_toHex (by decide)]
    rfl
  have hgenesis : History nonceCrypto c := .genesis hc
  have hsize : b.toJson.toVec.length ≤ c.network.maxBlockBytes :=
    ht.length_authorised hnetwork hgenesis.networkId (by rw [htime]; decide) htarget rfl rfl hlt rfl
      hsig
  have hwork : BitVec.ofNat 256 n < initialLimit := by
    rw [BitVec.lt_def, BitVec.toNat_ofNat, initialLimit, BitVec.toNat_ofNat]
    omega
  obtain ⟨k, k', hk, -⟩ := ht.keys
  obtain ⟨c', hc'⟩ := ht.append_ok hsize rfl rfl htarget hhash hwork
    (verifyAuthorization_nonceCrypto hhash hk hsig)
  refine ⟨b, ⟨c', ⟨[], ∅, v⟩, ∅, ⟨[], none⟩, false⟩, ?_, ?_, ensure_of rfl _, rfl, hhash⟩
  · rw [replay, hc, ok_bind, List.foldlM_cons, hc']
    rfl
  · obtain ⟨p, hp, hcommit⟩ := bind_eq_ok.mp hc'
    rw [blocks_of_commit hp hcommit, hblocks, List.nil_append]

/-- A round alone with a peer that serves it. -/
def servedEnv (cr : Crypto) (server : NativeNode) : Env where
  answer _ := serve cr server
  clock _ := 0
  others _ node := node
  lock _ := .ok ()

/-- The greeting of a node that has blocks is accepted. -/
theorem remoteHead_hello {cr : Crypto} {node : NativeNode} (hpos : (node.chain.head cr).height ≠ 0)
    (hle : (node.chain.head cr).height ≤ maxNativeHistoryBlocks) :
    remoteHead cr (hello cr node) = .ok (node.chain.head cr) := by
  rw [hello, remoteHead, ensure_of rfl, ensure_of ⟨rfl, rfl⟩, ensure_of hle, ensure_of (.inl hpos)]
  rfl

theorem serve_hello {cr : Crypto} {node server : NativeNode} (hready : server.ensureReady = .ok ())
    (hremote : remoteHead cr (hello cr node) = .ok (node.chain.head cr)) :
    serve cr server (hello cr node) = .ok (hello cr server) := by
  have hgreet : greet cr server (hello cr node) = .ok (hello cr server, server.chain.head cr) := by
    rw [greet, hremote, hready]
    rfl
  change (greet cr server (hello cr node) >>= fun r => pure r.1) = _
  rw [hgreet]
  rfl

open NativeChain in
/-- Our first block and the peer's have different nonces: the chains part at genesis, which takes one
question at most. -/
theorem search_finds_common_fork : ∃ (node server node' : NativeNode) (asked : List ℕ),
    node.chain.blocks.length = 1 ∧ server.chain.blocks.length = 1 ∧
    asked.length ≤ 1 ∧ node'.chain = node.chain ∧
    Round.synchronize nonceCrypto (servedEnv nonceCrypto server)
        { node, requests := 0, locks := 0, declined := none }
      = (if 0 ≠ node.chain.ledger.height ∧ (maxNativePeerRoundBlocks < server.chain.ledger.height - 0 ∨
            0 < node.chain.earliestRecentForkHeight) then
            Round.finish (servedEnv nonceCrypto server) .boundedReorgRequiresRecovery
          else Round.synchronizeBlocks nonceCrypto (servedEnv nonceCrypto server)
            (node.chain.head nonceCrypto) (server.chain.head nonceCrypto) 0)
        { node := node', requests := 1 + asked.length, locks := 1 + asked.length,
          declined := none } := by
  obtain ⟨b₀, node, hreplay₀, hb₀, hready₀, hn₀, hh₀⟩ := mined_nonceCrypto (by decide : 0 < 256)
  obtain ⟨b₁, server, hreplay₁, hb₁, hready₁, hn₁, hh₁⟩ := mined_nonceCrypto (by decide : 1 < 256)
  have hours : replay nonceCrypto node.chain.blocks = .ok node.chain ∧ Same node.chain node.chain :=
    ⟨hb₀ ▸ hreplay₀, .refl _⟩
  have htheirs : replay nonceCrypto server.chain.blocks = .ok server.chain ∧
      Same server.chain server.chain := ⟨hb₁ ▸ hreplay₁, .refl _⟩
  have hheight₀ : node.chain.ledger.height = 1 := by
    rw [(verified_of_replay hours).height_eq, hb₀]
    rfl
  have hheight₁ : server.chain.ledger.height = 1 := by
    rw [(verified_of_replay htheirs).height_eq, hb₁]
    rfl
  have hS : ∀ b ∈ node.chain.blocks ++ server.chain.blocks, ∀ n < 2 ^ 64, b.nonce = toString n →
      blockInput b.header n ∈ ({blockInput b₀.header 0, blockInput b₁.header 1} : Set _) := by
    intro b hb n hn hbn
    rw [hb₀, hb₁] at hb
    rcases List.mem_pair.mp hb with rfl | rfl
    · rw [nonce_inj hn (by decide) (hbn.symm.trans hn₀)]
      exact Set.mem_insert _ _
    · rw [nonce_inj hn (by decide) (hbn.symm.trans hn₁)]
      exact Set.mem_insert_of_mem _ rfl
  obtain ⟨asked, common, ⟨⟨hle, -, hmap⟩, -⟩, hlength, hasked, hround⟩ :=
    search_finds_common nonceCrypto _ node server.chain _ _ (injOn_nonceCrypto _ _) hours htheirs hS
  have hheads : server.chain.head nonceCrypto ≠ node.chain.head nonceCrypto := by
    intro h
    have hhash := congrArg Head.hash h
    simp [head, headHash, hb₀, hb₁, hh₀, hh₁, Except.toOption] at hhash
  obtain rfl : common = 0 := by
    by_contra hne
    rw [hb₀] at hle hmap
    obtain rfl : common = 1 := by
      have : common ≤ 1 := hle
      omega
    simp [hb₁, hh₀, hh₁] at hmap
  have hremote {peer : NativeNode} (h : peer.chain.ledger.height = 1) :
      remoteHead nonceCrypto (hello nonceCrypto peer) = .ok (peer.chain.head nonceCrypto) :=
    remoteHead_hello (by simp [head, h]) (by simp [head, h, maxNativeHistoryBlocks])
  have hserved : (servedEnv nonceCrypto server).ServedBy nonceCrypto server := fun _ _ => rfl
  obtain ⟨node', hnode', hrun⟩ := hround (servedEnv nonceCrypto server) none _
    ⟨fun _ _ => rfl, fun _ => rfl⟩ hready₀ (serve_hello hready₁ (hremote hheight₀))
    (hremote hheight₁) hheads (by simp) (hserved.truthful hready₁ (verified_of_replay htheirs) 2
      fun height hmem => (hasked height hmem).2)
  refine ⟨node, server, node', asked, ?_, ?_, ?_, hnode', hrun⟩
  · rw [hb₀]
    rfl
  · rw [hb₁]
    rfl
  · refine hlength.trans (Nat.clog_le_of_le_pow ?_)
    rw [hheight₀, hheight₁]
    decide

end Native
