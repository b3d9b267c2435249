import Mathlib.Data.Prod.Lex
import Boole.Library.Best
import Boole.Native.NodeInvariant
import Boole.Native.Peers

/-!
# Native/ForkChoice — the fork choice is monotone and converges

A chain is ranked by its work and then by its lower head hash (`NativeChain.rank`).  Whatever calls a
node gets and whatever its peers answer, **its blocks always replay from genesis and its rank never
falls**; taking over a chain through our own prefix is the same as replaying it; and **two nodes that
are offered the same chains, in any order and any number of times, end with the same head hash**
(`fork_choice`).
-/

open Library Relation

namespace Native

open NativeChain

variable {cr : Crypto} {node node' : NativeNode}

/-! ## Synchronisation moves a node along its calls -/

/-- One call, successful or not. -/
def Step (cr : Crypto) (node node' : NativeNode) : Prop :=
  ∃ nowMs c, node' = node.after (node.call cr nowMs c)

abbrev Steps (cr : Crypto) : NativeNode → NativeNode → Prop := ReflTransGen (Step cr)

/-- A round moves its node along calls. -/
def Along (cr : Crypto) (round round' : Round) : Prop := Steps cr round.node round'.node

instance (cr : Crypto) : Std.Refl (Along cr) := ⟨fun _ => .refl⟩

instance (cr : Crypto) : IsTrans Round (Along cr) := ⟨fun _ _ _ => .trans⟩

namespace Round

variable {cr : Crypto} {env : Env}

theorem moves_ensure {p : Prop} [Decidable p] (message : String) :
    Moves (Along cr) (Sync.ensure p message) := by
  unfold Sync.ensure
  split
  · exact moves_pure _
  · exact moves_throw _

theorem moves_lift {α : Type} (x : Except String α) : Moves (Along cr) (Sync.lift x) := by
  cases x with
  | ok a => exact moves_pure _
  | error e => exact moves_throw _

section Env

variable (henv : ∀ k node, Steps cr node (env.others k node))

include henv in
theorem moves_lockNode : Moves (Along cr) (lockNode env) := by
  refine moves_get.bind fun round => Moves.bind (moves_modify fun round => henv _ _) fun _ => ?_
  exact (moves_lift _).bind fun _ => moves_get.bind fun _ => moves_pure _

theorem moves_request (message : Message) : Moves (Along cr) (request env message) := by
  refine Moves.bind (moves_modify fun round => .refl) fun _ => moves_get.bind fun round => ?_
  exact (moves_ensure _).bind fun _ => moves_lift _

theorem moves_callNode (c : NodeCall) : Moves (Along cr) (callNode cr env c) := by
  intro round
  have hstep : Steps cr round.node
      (round.node.after (round.node.call cr (env.clock round.locks) c)) :=
    .single ⟨_, _, rfl⟩
  rw [callNode]
  split <;> exact hstep

theorem moves_ensureSnapshot (node : NativeNode) (head : Head) :
    Moves (Along cr) (ensureSnapshot cr node head) := moves_ensure _

theorem moves_ensureReady (node : NativeNode) : Moves (Along cr) (ensureReady node) :=
  moves_lift _

variable (snapshot : Head)

theorem moves_getHash (height : ℕ) : Moves (Along cr) (getHash env snapshot height) := by
  refine (moves_request _).bind fun message => ?_
  split
  · exact (moves_ensure _).bind fun _ => moves_pure _
  · exact moves_throw _

include henv in
theorem moves_findCommon (original remote : Head) (fuel low high : ℕ) :
    Moves (Along cr) (findCommon cr env original remote fuel low high) := by
  induction fuel generalizing low high with
  | zero => exact moves_throw _
  | succ fuel ih =>
    rw [findCommon]
    split
    · refine (moves_getHash _ _).bind fun _ => (moves_lockNode henv).bind fun node => ?_
      refine (moves_ensureSnapshot _ _).bind fun _ => (moves_lift _).bind fun _ => ?_
      split <;> exact ih _ _
    · exact moves_pure _

include henv in
theorem moves_takeBlock (extension : Bool) (download : Download) (block : NativeBlock) :
    Moves (Along cr) (takeBlock cr env extension download block) := by
  refine (moves_ensure _).bind fun _ => ?_
  split
  · refine (moves_lockNode henv).bind fun node => (moves_ensureSnapshot _ _).bind fun _ => ?_
    exact (moves_callNode _).bind fun _ => moves_get.bind fun _ => moves_pure _
  · exact moves_pure _

theorem moves_getBlocks (remote : Head) (next limit : ℕ) :
    Moves (Along cr) (getBlocks env remote next limit) := by
  refine (moves_request _).bind fun message => ?_
  split
  · exact (moves_ensure _).bind fun _ => moves_pure _
  · exact moves_throw _

include henv in
theorem moves_downloadBlocks (remote : Head) (extension : Bool) (target fuel : ℕ)
    (download : Download) :
    Moves (Along cr) (downloadBlocks cr env remote extension target fuel download) := by
  induction fuel generalizing download with
  | zero => exact moves_throw _
  | succ fuel ih =>
    rw [downloadBlocks]
    split
    · refine (moves_getBlocks _ _ _).bind fun blocks => ?_
      exact (moves_foldlM (moves_takeBlock henv extension) _ _).bind ih
    · exact moves_pure _

include henv in
theorem moves_offerFork (original remote : Head) (common : ℕ) (download : Download) :
    Moves (Along cr) (offerFork cr env original remote common download) := by
  refine (moves_lift _).bind fun last => (moves_lift _).bind fun hash => ?_
  refine (moves_ensure _).bind fun _ => (moves_lockNode henv).bind fun node => ?_
  refine (moves_ensureSnapshot _ _).bind fun _ => (moves_callNode _).bind fun adopted => ?_
  split
  · exact Moves.bind (moves_modify fun _ => .refl) fun _ => moves_get.bind fun _ => moves_pure _
  · exact moves_get.bind fun _ => moves_pure _

include henv in
theorem moves_settleFork (original remote : Head) (extension : Bool) (common : ℕ)
    (download : Download) :
    Moves (Along cr) (settleFork cr env original remote extension common download) := by
  unfold settleFork
  split
  · exact moves_offerFork henv _ _ _ _
  · exact moves_pure _

include henv in
theorem moves_takeTransfer (transfer : NativeTransfer) :
    Moves (Along cr) (takeTransfer cr env snapshot transfer) := by
  refine (moves_lift _).bind fun _ => (moves_lockNode henv).bind fun node => ?_
  refine (moves_ensureSnapshot _ _).bind fun _ => ?_
  refine Moves.tryCatch ((moves_callNode _).bind fun _ => moves_pure _) fun _ => ?_
  exact moves_get.bind fun _ => moves_ensureReady _

theorem moves_getPending (offset : ℕ) : Moves (Along cr) (getPending env snapshot offset) := by
  refine (moves_request _).bind fun message => ?_
  split
  · exact (moves_ensure _).bind fun _ => (moves_ensure _).bind fun _ => moves_pure _
  · exact moves_throw _

include henv in
theorem moves_synchronizePending (fuel offset : ℕ) (expectedTotal : Option ℕ) :
    Moves (Along cr) (synchronizePending cr env snapshot fuel offset expectedTotal) := by
  induction fuel generalizing offset expectedTotal with
  | zero => exact moves_throw _
  | succ fuel ih =>
    refine (moves_getPending _ _).bind fun page => (moves_ensure _).bind fun _ => ?_
    refine (moves_forM (moves_takeTransfer henv snapshot) _).bind fun _ => ?_
    split
    · exact moves_pure _
    · exact ih _ _

theorem moves_finish (result : Result) : Moves (Along cr) (finish env result) :=
  moves_get.bind fun _ => (moves_lift _).bind fun _ => moves_pure _

include henv in
theorem moves_synchronizeBlocks (original remote : Head) (common : ℕ) :
    Moves (Along cr) (synchronizeBlocks cr env original remote common) := by
  refine (moves_downloadBlocks henv _ _ _ _ _).bind fun download => ?_
  refine (moves_settleFork henv _ _ _ _ _).bind fun current => (moves_ensure _).bind fun _ => ?_
  split
  · exact (moves_synchronizePending henv _ _ _ _).bind fun _ => moves_finish _
  · exact moves_finish _

include henv in
theorem moves_synchronizeChain (original remote : Head) (earliestRecentFork : ℕ) :
    Moves (Along cr) (synchronizeChain cr env original remote earliestRecentFork) := by
  refine (moves_findCommon henv _ _ _ _ _).bind fun common => ?_
  split
  · exact moves_finish _
  · exact moves_synchronizeBlocks henv _ _ _

include henv in
/-- **Whatever the peer answers, a round moves the node along calls,** its own and those of the
other threads. -/
theorem moves_synchronize : Moves (Along cr) (synchronize cr env) := by
  refine (moves_lockNode henv).bind fun node => (moves_ensureReady _).bind fun _ => ?_
  refine (moves_request _).bind fun answer => (moves_lift _).bind fun remote => ?_
  refine moves_get.bind fun round => ?_
  split
  · refine (moves_lockNode henv).bind fun node => (moves_ensureReady _).bind fun _ => ?_
    exact (moves_ensureSnapshot _ _).bind fun _ => moves_finish _
  · refine Moves.bind (moves_modify fun _ => .refl) fun _ => ?_
    split
    · exact (moves_synchronizePending henv _ _ _ _).bind fun _ => moves_finish _
    · exact moves_synchronizeChain henv _ _ _

end Env

end Round

/-! ## The rank of a chain -/

namespace NativeChain

variable {cr : Crypto} {c c' : NativeChain}

/-- More work first, then the lower head hash. -/
def rank (cr : Crypto) (c : NativeChain) : ℕ ×ₗ ℕᵒᵈ :=
  toLex (c.cumulativeWork, OrderDual.toDual (c.headHash cr).toNat)

theorem outranks_iff : c.outranks cr c' = true ↔ rank cr c' < rank cr c := by
  simp only [outranks, decide_eq_true_eq, rank, Prod.Lex.toLex_lt_toLex, OrderDual.toDual_lt_toDual,
    BitVec.lt_def, eq_comm (a := c'.cumulativeWork)]

theorem Same.rank (h : Same c c') : rank cr c = rank cr c' := by
  rw [NativeChain.rank, NativeChain.rank, h.cumulativeWork, headHash_congr h.view]

theorem headHash_eq_of_rank (h : rank cr c = rank cr c') : c.headHash cr = c'.headHash cr := by
  have := congrArg (fun r => OrderDual.ofDual (ofLex r).2) h
  exact BitVec.eq_of_toNat_eq this

/-- A block adds work. -/
theorem rank_lt_append {b : NativeBlock} (h : c.append cr b = .ok c') :
    rank cr c < rank cr c' := by
  obtain ⟨p, hp, hcommit⟩ := bind_eq_ok.mp h
  obtain ⟨_, _, hx⟩ := prepare_eq_ok hp
  obtain ⟨_, -, -, hsame, -⟩ := commit_eq_ok hcommit
  obtain ⟨target, w, -, -, hw, hwork⟩ := hx.work
  have hpos : 0 < w := by
    unfold difficultyWeight at hw
    split at hw
    · cases hw
    · rename_i hne
      obtain rfl := Except.ok.inj hw
      exact Nat.div_pos target.isLt.le (Nat.pos_of_ne_zero hne)
  have hmore : c.cumulativeWork < c'.cumulativeWork := by
    rw [hsame.cumulativeWork]
    change c.cumulativeWork < p.cumulativeWork
    omega
  exact Prod.Lex.toLex_lt_toLex.mpr (.inl hmore)

end NativeChain

/-! ## Runs -/

/-- Runs of a node: calls, and synchronisation rounds between which and during which other threads
run on the same node. -/
inductive Run (cr : Crypto) : NativeNode → NativeNode → Prop
  | refl (node : NativeNode) : Run cr node node
  | call {node node' : NativeNode} (h : Run cr node node') (nowMs : ℕ) (c : NodeCall) :
      Run cr node (node'.after (node'.call cr nowMs c))
  | synchronize {node node' : NativeNode} (h : Run cr node node') (env : Env)
      (declined : Option DeclinedFork) (henv : ∀ k n, Run cr n (env.others k n)) :
      Run cr node (finalState (Round.synchronize cr env
        { node := node', requests := 0, locks := 0, declined })).node

theorem Run.steps (h : Run cr node node') :
    Steps cr node node' := by
  induction h with
  | refl node => exact .refl
  | call _ nowMs c ih => exact ih.tail ⟨nowMs, c, rfl⟩
  | @synchronize node node' _ env declined _ ih ihenv =>
    have hround : Along cr _ _ :=
      Round.moves_synchronize ihenv { node := node', requests := 0, locks := 0, declined }
    exact ih.trans hround

open NativeChain in
/-- **A call keeps the chain verified and does not lower its rank.** -/
theorem Step.rank_le (h : Step cr node node') (hsound : Sound cr node.chain) :
    Sound cr node'.chain ∧ rank cr node.chain ≤ rank cr node'.chain := by
  obtain ⟨nowMs, c, rfl⟩ := h
  cases hr : node.call cr nowMs c with
  | error f => exact ⟨hsound, le_rfl⟩
  | ok o =>
    change Sound cr o.node.chain ∧ rank cr node.chain ≤ rank cr o.node.chain
    cases NativeNode.acts_of_call hsound hr with
    | declined ho => exact ho ▸ ⟨hsound, le_rfl⟩
    | admitted ha =>
      obtain rfl := ha.outcome
      exact ⟨hsound, le_rfl⟩
    | appended ha =>
      obtain rfl := ha.outcome
      exact ⟨hsound.append ha.append, (rank_lt_append ha.append).le⟩
    | published hcandidate _ hp =>
      obtain rfl := hp.outcome
      exact ⟨hcandidate, (outranks_iff.mp hp.outranks).le⟩

open NativeChain in
theorem Steps.rank_le (h : Steps cr node node') (hsound : Sound cr node.chain) :
    Sound cr node'.chain ∧ rank cr node.chain ≤ rank cr node'.chain := by
  induction h with
  | refl => exact ⟨hsound, le_rfl⟩
  | tail _ hstep ih =>
    obtain ⟨hsound', hle⟩ := hstep.rank_le ih.1
    exact ⟨hsound', ih.2.trans hle⟩

/-! ## Taking over a chain is replaying it -/

namespace NativeChain

variable {cr : Crypto} {c c' : NativeChain}

theorem append_agrees (h : Same c c') (b : NativeBlock) :
    Agrees Same (c.append cr b) (c'.append cr b) := by
  rw [append, prepare_congr h.view]
  refine (agrees_rfl (c'.prepare cr b)).bind fun p p' hp => ?_
  obtain rfl : p = p' := hp
  rw [commit, commit, headHash_congr h.view]
  cases ensure (p.block.header.previousHash = (c'.headHash cr).toHex)
    "prepared native block is stale" with
  | error e => exact rfl
  | ok _ =>
    cases p.block.hash cr with
    | error e => exact rfl
    | ok hash => exact ⟨h.network, by rw [h.blocks], rfl, rfl⟩

theorem foldlM_append_agrees (h : Same c c') (bs : List NativeBlock) :
    Agrees Same (bs.foldlM (append cr) c) (bs.foldlM (append cr) c') := by
  induction bs generalizing c c' with
  | nil => exact h
  | cons b bs ih => exact (append_agrees h b).bind fun _ _ hab => ih hab

theorem Same.refl (c : NativeChain) : Same c c := ⟨rfl, rfl, rfl, rfl⟩

end NativeChain

namespace NativeNode

variable {cr : Crypto} {self : NativeNode} {nowMs : ℕ}

/-- **The candidate that reuses our prefix is the replay of the blocks,** and it fails as the replay
does. -/
theorem candidateChain_agrees (hsound : Sound cr self.chain)
    (blocks : List NativeBlock) :
    Agrees Same (self.candidateChain cr blocks) (replay cr blocks) := by
  obtain ⟨htake, hle, -⟩ := commonPrefixLen_spec self.chain.blocks blocks
  simp only [candidateChain]
  split_ifs with hearliest
  · have hheight := hsound.height_eq
    have hdepth : self.chain.blocks.length - commonPrefixLen self.chain.blocks blocks
        ≤ self.chain.recentUndo.length := by
      rw [earliestRecentForkHeight] at hearliest
      omega
    obtain ⟨fork, hfork, hsound', hblocks⟩ := hsound.forkAt hle hdepth
    obtain ⟨r, hr, hsame⟩ := hsound'.replay
    rw [hblocks, htake] at hr
    obtain ⟨genesis, hgenesis, hfold⟩ := bind_eq_ok.mp hr
    have hreplay : replay cr blocks = (blocks.drop
        (commonPrefixLen self.chain.blocks blocks)).foldlM (append cr) r := by
      conv_lhs => rw [← List.take_append_drop (commonPrefixLen self.chain.blocks blocks) blocks]
      rw [replay, hgenesis, ok_bind, List.foldlM_append, hfold, ok_bind]
    rw [hfork, hreplay]
    exact foldlM_append_agrees hsame.symm _
  · exact agrees_self Same.refl _

/-- Two outcomes that differ at most in the undo window of the chain. -/
structure SameOutcome (o o' : Outcome) : Prop where
  accepted : o.accepted = o'.accepted
  writes : o.writes = o'.writes
  chain : NativeChain.Same o.node.chain o'.node.chain
  pending : o.node.pending = o'.node.pending
  confirmed : o.node.confirmed = o'.node.confirmed
  disk : o.node.disk = o'.node.disk
  poisoned : o.node.poisoned = o'.node.poisoned

theorem publishCandidate_agrees {c c' : NativeChain} (h : Same c c') :
    Agrees SameOutcome (self.publishCandidate cr c) (self.publishCandidate cr c') := by
  have hrank : c.outranks cr self.chain = c'.outranks cr self.chain := by
    rw [outranks, outranks, h.cumulativeWork,
      headHash_congr h.view]
  rw [publishCandidate, publishCandidate, hrank]
  split
  · exact ⟨rfl, rfl, Same.refl _, rfl, rfl, rfl, rfl⟩
  · simp only [retainPending, h.blocks, h.ledger]
    refine (agrees_rfl _).bind fun p p' hp => ?_
    obtain rfl : p = p' := hp
    exact ⟨rfl, rfl, h, rfl, rfl, rfl, rfl⟩

/-- What `adoptChain` would be without the reuse of our own prefix. -/
def adoptReplay (cr : Crypto) (self : NativeNode) (nowMs : ℕ) (blocks : List NativeBlock) :
    Except Failure Outcome := do
  self.ensureReady
  harmless (checkCandidateBudget blocks nowMs)
  let candidate ← harmless (NativeChain.replay cr blocks)
  self.publishCandidate cr candidate

theorem adoptChain_agrees (hsound : Sound cr self.chain) (blocks : List NativeBlock) :
    Agrees SameOutcome (self.adoptChain cr nowMs blocks) (self.adoptReplay cr nowMs blocks) := by
  refine (agrees_rfl _).bind fun _ _ _ => ?_
  refine (agrees_rfl _).bind fun _ _ _ => ?_
  exact ((candidateChain_agrees hsound blocks).mapErr _).bind fun _ _ h => publishCandidate_agrees h

/-! ## Convergence -/

/-- What it takes for a node to take over any valid chain that outranks its own. -/
structure Live (cr : Crypto) (node : NativeNode) : Prop where
  sound : NativeChain.Sound cr node.chain
  valid : ∀ t ∈ node.pending.transfers, ∃ fields, t.validatedFields cr = .ok fields
  ready : node.poisoned = false

open NativeChain in
/-- **A valid chain is taken over exactly when it outranks ours.** -/
theorem Live.adoptChain (hn : Live cr self) {blocks : List NativeBlock} {r : NativeChain}
    (hr : replay cr blocks = .ok r)
    (hbudget : checkCandidateBudget blocks nowMs = .ok ()) :
    ∃ o, self.adoptChain cr nowMs blocks = .ok o ∧ Live cr o.node ∧
      rank cr o.node.chain = max (rank cr self.chain) (rank cr r) := by
  obtain ⟨candidate, hcandidate, hsame⟩ := (candidateChain_agrees hn.sound blocks).exists_ok hr
  obtain ⟨hsound, hblocks⟩ := candidateChain_sound hn.sound hcandidate
  obtain ⟨o, hpublish⟩ : ∃ o, self.publishCandidate cr candidate = .ok o := by
    unfold publishCandidate
    split
    · exact ⟨_, rfl⟩
    · obtain ⟨v, hv⟩ := pendingView_ok hsound (hblocks ▸ checkCandidateBudget_length hbudget)
      obtain ⟨retained, hretain⟩ : ∃ retained, retainPending cr candidate
          (self.reindexed cr candidate)
          (self.orphans cr candidate ++ self.pending.transfers) = .ok retained :=
        retainPending_ok hv fun t ht =>
          envelope_of_validated (valid_recovery hn.sound hn.valid candidate ht)
      simp only [bind_eq_ok, harmless_eq_ok, pure_eq_ok]
      exact ⟨_, retained, hretain, rfl⟩
  have hadopt : self.adoptChain cr nowMs blocks = .ok o := by
    simp only [NativeNode.adoptChain, ensureReady, bind_eq_ok, ensure_eq_ok, harmless_eq_ok]
    exact ⟨(), hn.ready, (), hbudget, candidate, hcandidate, hpublish⟩
  refine ⟨o, hadopt, ?_⟩
  rw [← hsame.rank]
  rcases publishCandidate_eq_ok hpublish with ⟨hrank, rfl⟩ | ⟨retained, hp⟩
  · refine ⟨hn, (max_eq_left (not_lt.mp fun hlt => ?_)).symm⟩
    exact Bool.false_ne_true (hrank.symm.trans (outranks_iff.mpr hlt))
  · have hlt := outranks_iff.mp hp.outranks
    have hretain := hp.retain
    obtain rfl := hp.outcome
    refine ⟨⟨hsound, fun t ht => ?_, hn.ready⟩, (max_eq_right hlt.le).symm⟩
    exact valid_recovery hn.sound hn.valid candidate (subset_of_retainPending hretain ht)

/-- Offer chains to a node one after the other, each at its time. -/
def adoptAll (cr : Crypto) (self : NativeNode) (offers : List (ℕ × List NativeBlock)) :
    NativeNode :=
  offers.foldl (fun node offer => node.after (node.adoptChain cr offer.1 offer.2)) self

/-- A chain that may be offered: it replays, it is in budget, and it is not dated in the future. -/
def Offerable (cr : Crypto) (offer : ℕ × List NativeBlock) : Prop :=
  (∃ r, NativeChain.replay cr offer.2 = .ok r) ∧
    checkCandidateBudget offer.2 offer.1 = .ok ()

open NativeChain in
/-- The rank of the blocks on offer, if they replay. -/
def offeredRank (cr : Crypto) (blocks : List NativeBlock) : WithBot (ℕ ×ₗ ℕᵒᵈ) :=
  match NativeChain.replay cr blocks with
  | .ok r => rank cr r
  | .error _ => ⊥

open NativeChain in
/-- **After all offers, the node has the best rank that was on offer.** -/
theorem Live.adoptAll (hn : Live cr self) {offers : List (ℕ × List NativeBlock)}
    (hoffers : ∀ offer ∈ offers, Offerable cr offer) :
    IsGreatest (insert (rank cr self.chain : WithBot (ℕ ×ₗ ℕᵒᵈ))
      {k | ∃ offer ∈ offers, offeredRank cr offer.2 = k}) (rank cr (self.adoptAll cr offers).chain) := by
  refine (greatest_foldl (fun node => (rank cr node.chain : WithBot (ℕ ×ₗ ℕᵒᵈ)))
    (fun offer : ℕ × List NativeBlock => offeredRank cr offer.2) (Live cr) ?_ hn).2
  intro node offer hoffer hlive
  obtain ⟨⟨r, hr⟩, hbudget⟩ := hoffers offer hoffer
  obtain ⟨o, ho, hlive', hmax⟩ := hlive.adoptChain hr hbudget
  have hoffered : offeredRank cr offer.2 = rank cr r := by rw [offeredRank, hr]
  rw [ho, hoffered, ← WithBot.coe_max, ← hmax]
  exact ⟨hlive', rfl⟩

open NativeChain in
theorem rank_genesis_eq (hn : Live cr node) (hn' : Live cr node') (h : node.chain.blocks = [])
    (h' : node'.chain.blocks = []) :
    rank cr node.chain = rank cr node'.chain := by
  obtain ⟨r, hr, hsame⟩ := hn.sound.replay
  obtain ⟨r', hr', hsame'⟩ := hn'.sound.replay
  rw [h] at hr
  rw [h'] at hr'
  obtain rfl := Except.ok.inj (hr.symm.trans hr')
  rw [← hsame.rank, hsame'.rank]

open NativeChain in
/-- **Nodes that are offered the same chains agree in the end.** -/
theorem headHash_adoptAll_eq (hn : Live cr node) (hn' : Live cr node')
    (hstart : rank cr node.chain = rank cr node'.chain)
    {offers offers' : List (ℕ × List NativeBlock)} (hoffers : ∀ offer ∈ offers, Offerable cr offer)
    (hoffers' : ∀ offer ∈ offers', Offerable cr offer)
    (hset : ∀ blocks, blocks ∈ offers.map Prod.snd ↔ blocks ∈ offers'.map Prod.snd) :
    (node.adoptAll cr offers).chain.headHash cr
      = (node'.adoptAll cr offers').chain.headHash cr := by
  have hranks (xs : List (ℕ × List NativeBlock)) :
      {k | ∃ offer ∈ xs, offeredRank cr offer.2 = k}
        = {k | ∃ blocks ∈ xs.map Prod.snd, offeredRank cr blocks = k} := by
    simp only [List.mem_map, exists_exists_and_eq_and]
  have hbest := hn.adoptAll hoffers
  have hbest' := hn'.adoptAll hoffers'
  rw [hranks] at hbest hbest'
  simp only [hset, hstart] at hbest
  exact headHash_eq_of_rank (WithBot.coe_injective (hbest.unique hbest'))

theorem live_openInner {codec : Codec} {disk : Disk} (h : openInner cr codec nowMs disk = .ok node) :
    Live cr node :=
  have hn := invariant_openInner h
  ⟨hn.sound, hn.valid, hn.ready⟩

end NativeNode

open NativeNode NativeChain in
/-- **Fork choice.**  In any run of a node the blocks replay from genesis, the rank does not fall,
and taking over a chain answers as a replay of it would.  Two nodes that open at genesis and are
offered the same valid chains, in any orders and multiplicities, end with one head hash. -/
theorem fork_choice (cr : Crypto) (codec : Codec) :
    (∀ (openMs : ℕ) (disk : Disk) (start node node' : NativeNode),
      openInner cr codec openMs disk = .ok start → Run cr start node → Run cr node node' →
      (∃ r, replay cr node'.chain.blocks = .ok r ∧ Same node'.chain r) ∧
      rank cr node.chain ≤ rank cr node'.chain ∧
      ∀ nowMs blocks, Agrees SameOutcome (node'.adoptChain cr nowMs blocks)
        (node'.adoptReplay cr nowMs blocks)) ∧
    ∀ (openMs openMs' : ℕ) (disk disk' : Disk) (node node' : NativeNode)
      (offers offers' : List (ℕ × List NativeBlock)),
      openInner cr codec openMs disk = .ok node → node.chain.blocks = [] →
      openInner cr codec openMs' disk' = .ok node' → node'.chain.blocks = [] →
      (∀ offer ∈ offers, Offerable cr offer) → (∀ offer ∈ offers', Offerable cr offer) →
      (∀ blocks, blocks ∈ offers.map Prod.snd ↔ blocks ∈ offers'.map Prod.snd) →
      (node.adoptAll cr offers).chain.headHash cr
        = (node'.adoptAll cr offers').chain.headHash cr := by
  constructor
  · intro openMs disk start node node' hopen hrun hrun'
    obtain ⟨hsound, -⟩ := hrun.steps.rank_le (live_openInner hopen).sound
    obtain ⟨hsound', hrank⟩ := hrun'.steps.rank_le hsound
    obtain ⟨r, hr, hsame⟩ := hsound'.replay
    exact ⟨⟨r, hr, hsame.symm⟩, hrank, fun nowMs blocks => adoptChain_agrees hsound' blocks⟩
  · intro openMs openMs' disk disk' node node' offers offers' hopen hgen hopen' hgen' hoffers
      hoffers' hset
    have hn := live_openInner hopen
    have hn' := live_openInner hopen'
    exact headHash_adoptAll_eq hn hn' (rank_genesis_eq hn hn' hgen hgen') hoffers hoffers' hset

open NativeNode NativeChain in
theorem offerable_exampleBlock : Offerable domainCrypto (0, [exampleBlock]) := by
  obtain ⟨c, c', hc, hc', -⟩ := exampleBlock_appends
  obtain ⟨p, hprepare, -⟩ := bind_eq_ok.mp hc'
  obtain ⟨_, _, hx⟩ := prepare_eq_ok hprepare
  have hsize := hx.size
  rw [(new_eq_ok hc).1] at hsize
  have hdrift : checkBlockTsFutureDrift exampleBlock.header.timestampMs 0 = .ok () :=
    ensure_of (by decide) _
  -- for any length, so that the text of the block is not evaluated
  have hfits (n : ℕ) (hn : n ≤ nativeTestnet.maxBlockBytes) :
      n + 1 ≤ maxNativeHistoryBytes ∧ n + 1 < 2 ^ 64 := by
    have hlt : nativeTestnet.maxBlockBytes < maxNativeHistoryBytes := by decide
    have hmax : maxNativeHistoryBytes < 2 ^ 64 := by decide
    omega
  refine ⟨exampleBlock_replays, ?_⟩
  simp only [checkCandidateBudget, checkCandidateBlock, List.foldlM_cons, List.foldlM_nil,
    bind_eq_ok, ensure_eq_ok, okOr_eq_ok, checkedAdd_eq_some, Nat.zero_add, pure_eq_ok]
  exact ⟨(), by decide, _, ⟨_, ⟨_, ⟨(hfits _ hsize).2, rfl⟩, (), (hfits _ hsize).1, (), hdrift,
    rfl⟩, rfl⟩, trivial⟩

open NativeNode NativeChain in
/-- A block that is offered once to one node and twice to another. -/
theorem fork_choice_one_block : ∃ node : NativeNode,
    openInner domainCrypto ⟨fun _ => .error "", fun _ => .error ""⟩ 0 { blockLog := [], pool := none } = .ok node ∧
    (∃ r, replay domainCrypto node.chain.blocks = .ok r ∧ Same node.chain r) ∧
    (node.adoptAll domainCrypto [(0, [exampleBlock])]).chain.headHash domainCrypto
      = (node.adoptAll domainCrypto [(0, [exampleBlock]), (0, [exampleBlock])]).chain.headHash
          domainCrypto := by
  obtain ⟨c, -, hc, -⟩ := exampleBlock_appends
  obtain ⟨node, hopen, rfl, -⟩ :=
    openInner_empty domainCrypto ⟨fun _ => .error "", fun _ => .error ""⟩ 0 hc
  have hempty : node.chain.blocks = [] := (new_eq_ok hc).2.1
  obtain ⟨hrun, hconverge⟩ :=
    fork_choice domainCrypto ⟨fun _ => .error "", fun _ => .error ""⟩
  refine ⟨node, hopen, (hrun 0 _ node node node hopen (.refl node) (.refl node)).1, ?_⟩
  refine hconverge 0 0 _ _ node node _ _ hopen hempty hopen hempty ?_ ?_ (by simp)
  · simpa using offerable_exampleBlock
  · simpa using offerable_exampleBlock

end Native
