import Mathlib.Data.Prod.Lex
import Boole.Core.Conservation
import Boole.Library.Best

/-!
# Core/ForkChoice — the head hash commits the chain's state

`boole-core`'s `fork_choice.rs`.  Chains compete by the sum of their blocks' weights, and a chain is
named by the hash of its head.  Much of a block is not hashed.  **Still, if the block hash has no
collisions among the blocks that were hashed, two replayed chains with one head have the same
length, the same balances and the same weight** (`replay_determined_by_head`): a field outside the
hash either does not reach the result, or is derived from fields inside it.

    same head ──▸ same hashed fields ──▸ same credits, settlement and weight
         └──▸ same head before it ──▸ …
-/

open Std Library Library.Json
open Native (Hex32)

namespace Core

open PersistedBlock

variable {blocks blocks' chain : List PersistedBlock} {b b' : PersistedBlock} {rules : ReplayRules}
  {s s' : ReplayState}

def addWeight (total : ℕ) (block : PersistedBlock) : Result ℕ := do
  let weight ← mapErr
    (fun e => s!"block at height {block.height} has an unparseable difficulty_weight {block.difficultyWeight}: {e}")
    (parseBiguint block.difficultyWeight)
  pure (total + weight)

def cumulativeDifficultyWeight (blocks : List PersistedBlock) : Result ℕ := blocks.foldlM addWeight 0

variable (lc : LaneCrypto)

def headBlockHash (head : PersistedBlock) : Hex32 := blockHash lc.toCrypto head

/-- The heavier chain wins; of two equally heavy ones the one with the lower head hash. -/
def challenge (best : Option (ℕ × Hex32)) (chain : List PersistedBlock) :
    Result (Option (ℕ × Hex32)) := do
  let head ← okOr chain.getLast? "a candidate chain has no blocks"
  let weight ← cumulativeDifficultyWeight chain
  let hash := headBlockHash lc head
  let wins := match best with
    | none => true
    | some (bestWeight, bestHash) => bestWeight < weight || (weight == bestWeight && hash < bestHash)
  pure (if wins then some (weight, hash) else best)

def chooseCanonicalHead (candidates : List (List PersistedBlock)) : Result Hex32 := do
  let best ← candidates.foldlM (challenge lc) none
  okOr (best.map Prod.snd) "no candidate chains to choose from"

/-! ## Weights -/

/-- The weights of a chain depend on the texts of its blocks only. -/
theorem cumulativeDifficultyWeight_eq {weights : List ℕ}
    (h : blocks.map PersistedBlock.difficultyWeight = weights.map toString) :
    cumulativeDifficultyWeight blocks = .ok weights.sum := by
  suffices ∀ acc, blocks.foldlM addWeight acc = .ok (acc + weights.sum) by
    simpa [cumulativeDifficultyWeight] using this 0
  induction blocks generalizing weights with
  | nil =>
    intro acc
    obtain rfl : weights = [] := by simpa using h.symm
    rfl
  | cons block blocks ih =>
    intro acc
    obtain ⟨weight, rest, rfl, hweight, hrest⟩ := List.map_eq_cons_iff.mp h.symm
    have hread : addWeight acc block = .ok (acc + weight) := by
      have hdigits : (toString weight).toList = Nat.toDigits 10 weight := Nat.toList_repr
      have hparse := parseBig_toDigits (b := 10) (by decide) (by decide) weight 0
      rw [List.replicate_zero, List.nil_append] at hparse
      rw [addWeight, parseBiguint, ← hweight, hdigits, hparse]
      rfl
    rw [List.foldlM_cons, hread, ok_bind, ih hrest.symm, List.sum_cons, add_assoc]

/-- A well-shaped block prints the weight of its target. -/
theorem PersistedBlock.weight_of_shape (h : b.validateShape = .ok ()) :
    ∃ t, parseBiguintHex b.tBlock = .ok t ∧ b.difficultyWeight = toString (2 ^ 256 / t) := by
  obtain ⟨-, -, hweight⟩ := validateShape_eq_ok h
  simp only [validateWeight, Core.difficultyWeight, bind_eq_ok, ensure_eq_ok,
    pure_eq_ok] at hweight
  obtain ⟨t, ht, _, _, _, ⟨_, _, rfl⟩, hweight⟩ := hweight
  exact ⟨t, ht, hweight⟩

/-- The weights of a replayed chain. -/
theorem Replays.exists_weights (h : Replays rules blocks s) :
    ∃ weights : List ℕ, blocks.map PersistedBlock.difficultyWeight = weights.map toString := by
  induction h with
  | nil => exact ⟨[], rfl⟩
  | snoc prior step ih =>
    obtain ⟨weights, hw⟩ := ih
    obtain ⟨t, -, ht⟩ := weight_of_shape step.shape
    exact ⟨weights ++ [2 ^ 256 / t], by simp [hw, ht]⟩

/-! ## Two blocks with the same hashed fields -/

theorem Committed.credits (h : Committed b b') :
    computeBlockRewardCredits b = computeBlockRewardCredits b' := by
  simp only [computeBlockRewardCredits, payee, sharePayees,
    h.proposerPk, h.proposerRewardPk, h.selectedSharePks, h.selectedShareRewardPks]

theorem Committed.weight (h : Committed b b') (hb : b.validateShape = .ok ())
    (hb' : b'.validateShape = .ok ()) :
    b.difficultyWeight = b'.difficultyWeight := by
  obtain ⟨t, ht, hw⟩ := weight_of_shape hb
  obtain ⟨t', ht', hw'⟩ := weight_of_shape hb'
  rw [h.tBlock, ht'] at ht
  rw [hw, hw', Except.ok.inj ht]

/-- **Blocks with the same hashed fields do the same to the books.** -/
theorem Committed.books {t t' : ReplayState} {height height' : ℕ}
    {credits credits' : List PersistedCredit} {bounty bounty' : List PromotedBountyCredit}
    (h : Committed b b') (hb : Replayed rules s t b height credits bounty)
    (hb' : Replayed rules s' t' b' height' credits' bounty') (hbal : s.balances = s'.balances)
    (hfam : s.bountyCreditByFamily = s'.bountyCreditByFamily) :
    t.balances = t'.balances ∧ t.bountyCreditByFamily = t'.bountyCreditByFamily := by
  have hcredits : credits = credits' :=
    Except.ok.inj (hb.credits_eq.symm.trans (h.credits.trans hb'.credits_eq))
  have hbounty : bounty = bounty' := by
    have hset := hb.settlement
    rw [h.promotedBountyShares, h.height, hb'.settlement] at hset
    exact (Except.ok.inj hset).symm
  obtain ⟨mid, hmid, hbooks⟩ := hb.books
  obtain ⟨mid', hmid', hbooks'⟩ := hb'.books
  rw [hcredits, hbal, hmid'] at hmid
  obtain rfl := Except.ok.inj hmid
  rw [hbounty, hfam, hbooks'] at hbooks
  obtain ⟨hbal', hfam'⟩ := Prod.mk.inj (Except.ok.inj hbooks)
  exact ⟨hbal'.symm, hfam'.symm⟩

/-! ## Two chains with one head -/

/-- The block hash has no collisions on a list of blocks, and never gives the anchor. -/
structure HashFree (rules : ReplayRules) (blocks : List PersistedBlock) : Prop where
  injective : Set.InjOn rules.lc.blake3 {i | ∃ b ∈ blocks, i = b.hashInput}
  anchor : ∀ b ∈ blocks, (blockHash rules.lc.toCrypto b).toHex ≠ rules.genesisC

theorem committed_of_injOn {lc : LaneCrypto} {bs : List PersistedBlock}
    (hinj : Set.InjOn lc.blake3 {i | ∃ b ∈ bs, i = b.hashInput}) (hb : b ∈ bs) (hb' : b' ∈ bs)
    (heq : (blockHash lc.toCrypto b).toHex = (blockHash lc.toCrypto b').toHex) : Committed b b' :=
  .of_input (hinj ⟨b, hb, rfl⟩ ⟨b', hb', rfl⟩ (Native.Hex32.toHex_injective heq))

/-- The head of a replayed chain is the anchor or the hash of its last block. -/
theorem Replays.latestC_cases (h : Replays rules blocks s) :
    (blocks = [] ∧ s.latestC = rules.genesisC) ∨
      ∃ b, blocks.getLast? = some b ∧ s.latestC = b.c ∧
        b.c = (blockHash rules.lc.toCrypto b).toHex := by
  cases h with
  | nil => exact .inl ⟨rfl, rfl⟩
  | snoc _ step => exact .inr ⟨_, List.getLast?_concat, step.head, step.hash⟩

/-- Induction over two chains of one length at once, from their common head down. -/
theorem Replays.agree_of_length (h : Replays rules blocks s) (h' : Replays rules blocks' s')
    (hinj : Set.InjOn rules.lc.blake3 {i | ∃ b ∈ blocks ++ blocks', i = b.hashInput})
    (hlen : blocks.length = blocks'.length) (hhead : s.latestC = s'.latestC) :
    s.balances = s'.balances ∧ s.bountyCreditByFamily = s'.bountyCreditByFamily ∧
      blocks.map PersistedBlock.difficultyWeight = blocks'.map PersistedBlock.difficultyWeight := by
  induction h generalizing blocks' s' with
  | nil =>
    cases h' with
    | nil => exact ⟨rfl, rfl, rfl⟩
    | snoc _ _ => simp at hlen
  | @snoc below _ _ b _ _ prior step ih =>
    cases h' with
    | nil => simp at hlen
    | @snoc below' _ _ b' _ _ prior' step' =>
      rw [step.head, step.hash, step'.head, step'.hash] at hhead
      have hcom := committed_of_injOn hinj (by simp) (by simp) hhead
      -- The hashed fields name the head before, so the chains below agree.
      have hprev := hcom.prevC
      rw [step.link, step'.link] at hprev
      have hsub : below ++ below' ⊆ (below ++ [b]) ++ (below' ++ [b']) :=
        List.append_subset.mpr ⟨fun b hb => by simp [hb], fun b hb => by simp [hb]⟩
      have hbelow : Set.InjOn rules.lc.blake3 {i | ∃ b ∈ below ++ below', i = b.hashInput} := by
        refine hinj.mono ?_
        rintro i ⟨b, hb, hi⟩
        exact ⟨b, hsub hb, hi⟩
      obtain ⟨hbal, hfam, hweights⟩ := ih prior' hbelow (by simpa using hlen) hprev
      obtain ⟨hbal', hfam'⟩ := hcom.books step step' hbal hfam
      refine ⟨hbal', hfam', ?_⟩
      rw [List.map_append, List.map_append, hweights, List.map_singleton, List.map_singleton,
        hcom.weight step.shape step'.shape]

/-- The height is hashed, so two chains that end in blocks with one hash have one length. -/
theorem Replays.length_eq (h : Replays rules blocks s) (h' : Replays rules blocks' s')
    (hne : blocks ≠ []) (hne' : blocks' ≠ [])
    (hinj : Set.InjOn rules.lc.blake3 {i | ∃ b ∈ blocks ++ blocks', i = b.hashInput})
    (hhead : s.latestC = s'.latestC) : blocks.length = blocks'.length := by
  cases h with
  | nil => exact absurd rfl hne
  | snoc _ step =>
    cases h' with
    | nil => exact absurd rfl hne'
    | snoc _ step' =>
      rw [step.head, step.hash, step'.head, step'.hash] at hhead
      have hcom := committed_of_injOn hinj (by simp) (by simp) hhead
      rw [List.length_append, List.length_append, ← step.height_eq, ← step'.height_eq, hcom.height]
      rfl

theorem Replays.agree (h : Replays rules blocks s) (h' : Replays rules blocks' s')
    (hfree : HashFree rules (blocks ++ blocks')) (hhead : s.latestC = s'.latestC) :
    s.balances = s'.balances ∧ s.bountyCreditByFamily = s'.bountyCreditByFamily ∧
      blocks.map PersistedBlock.difficultyWeight = blocks'.map PersistedBlock.difficultyWeight := by
  have hlen : blocks.length = blocks'.length := by
    rcases h.latestC_cases with ⟨rfl, hc⟩ | ⟨b, hb, hc, hash⟩ <;>
      rcases h'.latestC_cases with ⟨rfl, hc'⟩ | ⟨b', hb', hc', hash'⟩
    · rfl
    · have hmem := List.mem_of_getLast? hb'
      refine absurd ?_ (hfree.anchor b' (by simp [hmem]))
      rw [← hash', ← hc', ← hhead, hc]
    · have hmem := List.mem_of_getLast? hb
      refine absurd ?_ (hfree.anchor b (by simp [hmem]))
      rw [← hash, ← hc, hhead, hc']
    · refine h.length_eq h' ?_ ?_ hfree.injective hhead
      · exact List.ne_nil_of_mem (List.mem_of_getLast? hb)
      · exact List.ne_nil_of_mem (List.mem_of_getLast? hb')
  exact h.agree_of_length h' hfree.injective hlen hhead

/-- **The head hash commits the replay result.** -/
theorem replay_determined_by_head {lc : LaneCrypto} {spec : GenesisSpec}
    {registry : FamilyManifestRegistry} {network : Option String}
    {blocks blocks' : List PersistedBlock} {r r' : ReplayResult}
    (hfree : HashFree (spec.rules lc registry network) (blocks ++ blocks'))
    (h : replayBlocksWithGenesis lc blocks spec registry network = .ok r)
    (h' : replayBlocksWithGenesis lc blocks' spec registry network = .ok r')
    (hhead : r.latestC = r'.latestC) :
    blocks.length = blocks'.length ∧ r.height = r'.height ∧ r.balances = r'.balances ∧
      r.bountyCreditByFamily = r'.bountyCreditByFamily ∧
      ∃ weight, cumulativeDifficultyWeight blocks = .ok weight ∧
        cumulativeDifficultyWeight blocks' = .ok weight := by
  obtain ⟨s, hs, rfl⟩ := replayBlocksWithRules_eq_ok (replayBlocksWithGenesis_eq_ok h)
  obtain ⟨s', hs', rfl⟩ := replayBlocksWithRules_eq_ok (replayBlocksWithGenesis_eq_ok h')
  obtain ⟨hbal, hfam, htexts⟩ := hs.agree hs' hfree hhead
  have hlen : blocks.length = blocks'.length := by
    simpa using congrArg List.length htexts
  obtain ⟨weights, hweights⟩ := hs.exists_weights
  exact ⟨hlen, hlen, hbal, hfam, weights.sum, cumulativeDifficultyWeight_eq hweights,
    cumulativeDifficultyWeight_eq (htexts ▸ hweights)⟩

/-- Two versions of a block that differ in what they say was left out. -/
theorem replay_determined_by_head_sample : ∃ r r',
    replayBlocksWithGenesis Sample.lane [Sample.block] Sample.spec Sample.registry none = .ok r ∧
    replayBlocksWithGenesis Sample.lane [{ Sample.block with truncatedByKmax := 7 }] Sample.spec
      Sample.registry none = .ok r' ∧ r.balances = r'.balances := by
  obtain ⟨r, hr⟩ := Sample.replays
  have hr' : replayBlocksWithGenesis Sample.lane [{ Sample.block with truncatedByKmax := 7 }]
      Sample.spec Sample.registry none = .ok r := hr
  refine ⟨r, r, hr, hr', (replay_determined_by_head ⟨?_, ?_⟩ hr hr' rfl).2.2.1⟩
  · rintro i ⟨b, hb, rfl⟩ j ⟨b', hb', rfl⟩ -
    simp only [List.cons_append, List.nil_append, List.mem_cons, List.not_mem_nil, or_false] at hb hb'
    rcases hb with rfl | rfl <;> rcases hb' with rfl | rfl <;>
      exact Committed.input ⟨rfl, rfl, rfl, rfl, rfl, rfl, rfl, rfl, rfl, rfl, rfl⟩
  · intro b hb
    exact (by decide +kernel : (1 : Hex32).toHex ≠ zeroAnchor)

/-! ## The choice among several chains -/

/-- More work first, then the lower hash. -/
def rankOf (weight : ℕ) (hash : Hex32) : ℕ ×ₗ ℕᵒᵈ := toLex (weight, OrderDual.toDual hash.toNat)

theorem rankOf_lt {w w' : ℕ} {h h' : Hex32} :
    rankOf w h < rankOf w' h' ↔ w < w' ∨ w' = w ∧ h' < h := by
  simp only [rankOf, Prod.Lex.toLex_lt_toLex, OrderDual.toDual_lt_toDual, BitVec.lt_def,
    eq_comm (a := w)]

theorem hash_eq_of_rankOf {w w' : ℕ} {h h' : Hex32} (heq : rankOf w h = rankOf w' h') : h = h' :=
  BitVec.eq_of_toNat_eq (congrArg (fun r => OrderDual.ofDual (ofLex r).2) heq)

/-- The rank of a chain; a chain without a head or without a weight has none. -/
def chainRank (chain : List PersistedBlock) : WithBot (ℕ ×ₗ ℕᵒᵈ) :=
  match chain.getLast?, cumulativeDifficultyWeight chain with
  | some head, .ok weight => rankOf weight (headBlockHash lc head)
  | _, _ => ⊥

variable {lc : LaneCrypto}

theorem chainRank_eq {head : PersistedBlock} {weight : ℕ} (hhead : chain.getLast? = some head)
    (hweight : cumulativeDifficultyWeight chain = .ok weight) :
    chainRank lc chain = rankOf weight (headBlockHash lc head) := by
  rw [chainRank, hhead, hweight]

theorem exists_chainRank (h : chainRank lc chain ≠ ⊥) :
    ∃ head weight, chain.getLast? = some head ∧ cumulativeDifficultyWeight chain = .ok weight ∧
      chainRank lc chain = rankOf weight (headBlockHash lc head) := by
  unfold chainRank at h ⊢
  split at h
  · rename_i head weight hhead hweight
    exact ⟨head, weight, hhead, hweight, rfl⟩
  · exact absurd rfl h

def bestRank (best : Option (ℕ × Hex32)) : WithBot (ℕ ×ₗ ℕᵒᵈ) :=
  best.elim ⊥ fun p => rankOf p.1 p.2

/-- One comparison keeps the better of the two. -/
theorem challenge_eq_ok (h : chainRank lc chain ≠ ⊥) (best : Option (ℕ × Hex32)) :
    ∃ best', challenge lc best chain = .ok best' ∧
      bestRank best' = max (bestRank best) (chainRank lc chain) := by
  obtain ⟨head, weight, hhead, hweight, hrank⟩ := exists_chainRank h
  rw [hrank]
  simp only [challenge, hhead, hweight]
  refine ⟨_, rfl, ?_⟩
  cases best with
  | none => simp [bestRank]
  | some p =>
    have hwins : (decide (p.1 < weight) || (weight == p.1 && decide (headBlockHash lc head < p.2))) = true
        ↔ rankOf p.1 p.2 < rankOf weight (headBlockHash lc head) := by
      simp [rankOf_lt]
    by_cases hlt : rankOf p.1 p.2 < rankOf weight (headBlockHash lc head)
    · rw [if_pos (hwins.mpr hlt)]
      exact (max_eq_right (WithBot.coe_le_coe.mpr hlt.le)).symm
    · rw [if_neg (hlt ∘ hwins.mp)]
      exact (max_eq_left (WithBot.coe_le_coe.mpr (le_of_not_gt hlt))).symm

/-- **The chosen head is that of the best chain.** -/
theorem chooseCanonicalHead_spec {chains : List (List PersistedBlock)} (hne : chains ≠ [])
    (hranked : ∀ chain ∈ chains, chainRank lc chain ≠ ⊥) :
    ∃ weight hash, chooseCanonicalHead lc chains = .ok hash ∧
      IsGreatest {k | ∃ chain ∈ chains, chainRank lc chain = k} (rankOf weight hash) := by
  have hstep : ∀ best, ∀ chain ∈ chains, True → ∃ best', challenge lc best chain = .ok best' ∧
      True ∧ bestRank best' = max (bestRank best) (chainRank lc chain) := by
    intro best chain hchain _
    obtain ⟨best', h, hmax⟩ := challenge_eq_ok (hranked chain hchain) best
    exact ⟨best', h, trivial, hmax⟩
  obtain ⟨best, hfold, -, hmem, hge⟩ :=
    greatest_foldlM bestRank (chainRank lc) (fun _ => True) hstep (s := none) trivial
  obtain ⟨chain, hchain⟩ := List.exists_mem_of_ne_nil chains hne
  have hsome : bestRank best ≠ ⊥ := by
    intro hbot
    exact hranked chain hchain (le_bot_iff.mp (hbot ▸ hge (.inr ⟨chain, hchain, rfl⟩)))
  cases best with
  | none => exact absurd rfl hsome
  | some p =>
    refine ⟨p.1, p.2, by rw [chooseCanonicalHead, hfold]; rfl, hmem.resolve_left hsome, ?_⟩
    exact fun k hk => hge (.inr hk)

theorem chooseCanonicalHead_congr {chains chains' : List (List PersistedBlock)} (hne : chains ≠ [])
    (hranked : ∀ chain ∈ chains, chainRank lc chain ≠ ⊥)
    (hset : ∀ chain, chain ∈ chains ↔ chain ∈ chains') :
    ∃ hash, chooseCanonicalHead lc chains = .ok hash ∧ chooseCanonicalHead lc chains' = .ok hash := by
  have hne' : chains' ≠ [] := by
    obtain ⟨chain, hchain⟩ := List.exists_mem_of_ne_nil chains hne
    exact List.ne_nil_of_mem ((hset chain).mp hchain)
  obtain ⟨w, hash, hchoice, hbest⟩ := chooseCanonicalHead_spec hne hranked
  obtain ⟨w', hash', hchoice', hbest'⟩ :=
    chooseCanonicalHead_spec hne' fun chain h => hranked chain ((hset chain).mpr h)
  simp only [← hset] at hbest'
  obtain rfl := hash_eq_of_rankOf (WithBot.coe_injective (hbest.unique hbest'))
  exact ⟨hash, hchoice, hchoice'⟩

end Core
