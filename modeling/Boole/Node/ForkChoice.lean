import Boole.Node.Lockstep

/-!
# Node/ForkChoice — the head does not depend on the order of the candidates

A node is shown competing chains one after another and changes to a chain when the fork choice
prefers it (`reorg_to_heavier_chain`).  The running comparison starts with a shortcut: a candidate
with the current head is dropped without comparing weights.  That is sound because **replayed
chains with one head have one weight** (`Competing.rank_eq`), so a chain's rank is a matter of its head.
Then **the node ends on the head that the fork choice picks from all of them at once, in whatever
order and however often they are shown** (`fork_choice_order`).

    current ──candidate──▸ max(current, candidate) ──▸ … ──▸ greatest of the set
-/

open Library
open Native (Hex32)
open Core

namespace Node

variable {chain : List PersistedBlock} {head : PersistedBlock}

open RuntimeAdmissionState

variable {lc : LaneCrypto} {genesis : GenesisSpec}

/-! ## Competing chains -/

/-- Chains that replay under one genesis, none of them empty, with no collision among the hashes of
their blocks. -/
structure Competing (lc : LaneCrypto) (genesis : GenesisSpec) (registry : FamilyManifestRegistry)
    (network : Option String) (chains : List (List PersistedBlock)) : Prop where
  nonempty : ∀ chain ∈ chains, chain ≠ []
  valid : ∀ chain ∈ chains, ∃ r, replayBlocksWithGenesis lc chain genesis registry network = .ok r
  injective : Set.InjOn lc.blake3 {i | ∃ chain ∈ chains, ∃ b ∈ chain, i = b.hashInput}

variable {registry : FamilyManifestRegistry} {network : Option String}
  {chains : List (List PersistedBlock)}

theorem Competing.replays (h : Competing lc genesis registry network chains)
    (hchain : chain ∈ chains) :
    ∃ s head r, replayBlocksWithGenesis lc chain genesis registry network = .ok r ∧
      Replays (genesis.rules lc registry network) chain s ∧ chain.getLast? = some head ∧
      r.latestC = head.c ∧ s.latestC = head.c ∧ head.c = (headBlockHash lc head).toHex := by
  obtain ⟨r, hr⟩ := h.valid chain hchain
  obtain ⟨s, hs, rfl⟩ := replayBlocksWithRules_eq_ok (replayBlocksWithGenesis_eq_ok hr)
  rcases hs.latestC_cases with ⟨rfl, -⟩ | ⟨head, hhead, hc, hash⟩
  · exact absurd rfl (h.nonempty [] hchain)
  · exact ⟨s, head, _, hr, hs, hhead, hc, hc, hash⟩

/-- A replayed chain has a weight, so it has a rank. -/
theorem Competing.ranked (h : Competing lc genesis registry network chains)
    (hchain : chain ∈ chains) : chainRank lc chain ≠ ⊥ := by
  obtain ⟨s, head, -, -, hs, hhead, -⟩ := h.replays hchain
  obtain ⟨weights, hweights⟩ := hs.exists_weights
  rw [chainRank_eq hhead (cumulativeDifficultyWeight_eq hweights)]
  exact WithBot.coe_ne_bot

/-- **Competing chains with one head have one rank.** -/
theorem Competing.rank_eq (h : Competing lc genesis registry network chains)
    {chain' : List PersistedBlock} (hchain : chain ∈ chains) (hchain' : chain' ∈ chains)
    {head' : PersistedBlock} (hhead : chain.getLast? = some head)
    (hhead' : chain'.getLast? = some head') (heq : headBlockHash lc head = headBlockHash lc head') :
    chainRank lc chain = chainRank lc chain' := by
  obtain ⟨s, _, _, -, hs, hlast, -, hc, hash⟩ := h.replays hchain
  obtain ⟨s', _, _, -, hs', hlast', -, hc', hash'⟩ := h.replays hchain'
  obtain rfl := Option.mem_unique hhead hlast
  obtain rfl := Option.mem_unique hhead' hlast'
  have hinj : Set.InjOn lc.blake3 {i | ∃ b ∈ chain ++ chain', i = b.hashInput} := by
    refine h.injective.mono ?_
    rintro i ⟨b, hb, rfl⟩
    rcases List.mem_append.mp hb with hb | hb
    · exact ⟨chain, hchain, b, hb, rfl⟩
    · exact ⟨chain', hchain', b, hb, rfl⟩
  have hsame : s.latestC = s'.latestC := by rw [hc, hc', hash, hash', heq]
  have hlen := hs.length_eq hs' (h.nonempty chain hchain) (h.nonempty chain' hchain') hinj hsame
  obtain ⟨-, -, htexts⟩ := hs.agree_of_length hs' hinj hlen hsame
  obtain ⟨weights, hweights⟩ := hs.exists_weights
  rw [chainRank_eq hhead (cumulativeDifficultyWeight_eq hweights),
    chainRank_eq hhead' (cumulativeDifficultyWeight_eq (htexts ▸ hweights)), heq]

/-- The head of a chain is the hash in its rank. -/
theorem headBlockHash_of_rank {weight : ℕ} {hash : Hex32} (hhead : chain.getLast? = some head)
    (hrank : chainRank lc chain = rankOf weight hash) : headBlockHash lc head = hash := by
  have hne : chainRank lc chain ≠ ⊥ := hrank ▸ WithBot.coe_ne_bot
  obtain ⟨head', weight', hhead', -, hrank'⟩ := exists_chainRank hne
  obtain rfl := Option.mem_unique hhead hhead'
  exact hash_eq_of_rankOf (WithBot.coe_injective (hrank'.symm.trans hrank))

/-! ## One candidate -/

/-- A healthy node whose chain is among the competing ones, with the configuration of the start. -/
structure OnChain (start : RuntimeAdmissionState) (chains : List (List PersistedBlock))
    (s : RuntimeAdmissionState) : Prop where
  healthy : s.canonicalStateFailure = none
  registry : s.familyRegistry = start.familyRegistry
  network : s.authorizationNetworkId = start.authorizationNetworkId
  boot : s.bootGenesis = start.bootGenesis
  member : s.blockCache ∈ chains
  head : s.currentC = s.blockCache.getLast?.map PersistedBlock.c

variable {start s : RuntimeAdmissionState} {candidate : List PersistedBlock} {nowMs : ℕ}

/-- The comparison, shortcut and all, is that of the ranks. -/
theorem Competing.candidateWins_eq (h : Competing lc genesis registry network chains)
    (hs : s.blockCache ∈ chains) (hcandidate : candidate ∈ chains)
    (hhead : candidate.getLast? = some head) :
    s.candidateWins lc candidate head =
      .ok (decide (chainRank lc s.blockCache < chainRank lc candidate)) := by
  obtain ⟨_, current, _, -, -, hcurrent, -⟩ := h.replays hs
  simp only [candidateWins, hcurrent]
  by_cases heq : headBlockHash lc current = headBlockHash lc head
  · rw [if_pos heq, h.rank_eq hs hcandidate hcurrent hhead heq]
    simp
  · rw [if_neg heq]
    have hranked : ∀ chain ∈ [s.blockCache, candidate], chainRank lc chain ≠ ⊥ := by
      simp [h.ranked hs, h.ranked hcandidate]
    obtain ⟨weight, hash, hchoice, hmem, hge⟩ := chooseCanonicalHead_spec (by simp) hranked
    have hcur : chainRank lc s.blockCache ≤ rankOf weight hash := hge ⟨_, by simp, rfl⟩
    have hcan : chainRank lc candidate ≤ rankOf weight hash := hge ⟨_, by simp, rfl⟩
    rw [hchoice]
    obtain ⟨chain, hchain, hrank⟩ := hmem
    rcases List.mem_pair.mp hchain with hchain | hchain <;> rw [hchain] at hrank
    · have hlost : hash ≠ headBlockHash lc head :=
        fun hwon => heq ((headBlockHash_of_rank hcurrent hrank).trans hwon)
      have hle : ¬ chainRank lc s.blockCache < chainRank lc candidate := by
        rw [hrank]
        exact not_lt_of_ge hcan
      simp [hlost, hle]
    · have hwon := headBlockHash_of_rank hhead hrank
      have hlt : chainRank lc s.blockCache < chainRank lc candidate := by
        rw [hrank]
        refine lt_of_le_of_ne hcur fun hsame => ?_
        exact heq ((headBlockHash_of_rank hcurrent hsame).trans hwon.symm)
      simp [hwon, hlt]

/-- What is decided about a candidate that is not dated in the future. -/
theorem Competing.prepareReorg_eq
    (h : Competing lc genesis start.familyRegistry (start.reorgNetworkId genesis) chains)
    (hs : OnChain start chains s) (hcandidate : candidate ∈ chains)
    (hhead : candidate.getLast? = some head)
    (hdrift : checkBlockTsFutureDrift head.ts nowMs = .ok ()) :
    ∃ ledger, s.prepareReorg lc nowMs candidate genesis =
      .ok (if chainRank lc s.blockCache < chainRank lc candidate then
        some (head, head.c, ledger) else none) := by
  have hnetwork : s.reorgNetworkId genesis = start.reorgNetworkId genesis := by
    rw [reorgNetworkId, reorgNetworkId, hs.network, hs.boot]
  obtain ⟨t, _, r, hr, ht, hlast, hlatest, -⟩ := h.replays hcandidate
  obtain rfl := Option.mem_unique hhead hlast
  obtain ⟨ledger, hledger⟩ : ∃ ledger, s.rebuildRewards candidate = .ok ledger := by
    obtain ⟨events, hevents⟩ := Replays.foldlM_rewards ht
    rw [rebuildRewards, hs.registry]
    cases s.rewardLedger with
    | none => exact ⟨none, rfl⟩
    | some old => exact ⟨_, by rw [Option.elim_some]; exact congrArg (some <$> ·) hevents⟩
  refine ⟨ledger, ?_⟩
  simp only [prepareReorg, ensureCanonicalStateHealthy, hs.healthy, Option.elim_none, hhead,
    okOr_some, ok_bind, hdrift, hs.registry, hnetwork, hr,
    h.candidateWins_eq hs.member hcandidate hhead, decide_eq_true_eq, hledger, hlatest]
  split <;> rfl

theorem Competing.reorg_step
    (h : Competing lc genesis start.familyRegistry (start.reorgNetworkId genesis) chains)
    (hs : OnChain start chains s) (hcandidate : candidate ∈ chains)
    (hdrift : ∀ head ∈ candidate.getLast?, checkBlockTsFutureDrift head.ts nowMs = .ok ()) :
    OnChain start chains (s.reorgToHeavierChain lc .sound nowMs candidate genesis).1 ∧
      chainRank lc (s.reorgToHeavierChain lc .sound nowMs candidate genesis).1.blockCache =
        max (chainRank lc s.blockCache) (chainRank lc candidate) := by
  obtain ⟨_, head, _, -, -, hhead, -⟩ := h.replays hcandidate
  obtain ⟨ledger, hprepare⟩ := h.prepareReorg_eq hs hcandidate hhead (hdrift head hhead)
  by_cases hlt : chainRank lc s.blockCache < chainRank lc candidate
  · rw [if_pos hlt] at hprepare
    have hpublish : (do Disk.sound.blocks; ledger.elim (pure ()) fun _ => Disk.sound.rewards) = .ok () := by
      cases ledger <;> rfl
    have hc : some head.c = candidate.getLast?.map PersistedBlock.c := by rw [hhead, Option.map_some]
    simp only [reorgToHeavierChain, hprepare, hpublish]
    exact ⟨⟨rfl, hs.registry, hs.network, hs.boot, hcandidate, hc⟩, (max_eq_right hlt.le).symm⟩
  · rw [if_neg hlt] at hprepare
    simp only [reorgToHeavierChain, hprepare]
    exact ⟨hs, (max_eq_left (not_lt.mp hlt)).symm⟩

/-! ## All candidates -/

/-- Show a node one chain after another, each at its time. -/
def presentAll (lc : LaneCrypto) (genesis : GenesisSpec) (s : RuntimeAdmissionState)
    (offers : List (ℕ × List PersistedBlock)) : RuntimeAdmissionState :=
  offers.foldl (fun s offer => (s.reorgToHeavierChain lc .sound offer.1 offer.2 genesis).1) s

/-- **The order of the candidates does not matter.**  The fork choice depends on the set of chains
only.  A node that is shown chains which replay and are not dated in the future, each of them in
any place and any number of times, starting from one of them, ends on the head that the fork choice
picks from all of them. -/
theorem fork_choice_order (lc : LaneCrypto) :
    (∀ chains chains' : List (List PersistedBlock), chains ≠ [] →
      (∀ chain ∈ chains, chain ≠ [] ∧ ∃ weight, cumulativeDifficultyWeight chain = .ok weight) →
      (∀ chain, chain ∈ chains ↔ chain ∈ chains') →
      ∃ hash, chooseCanonicalHead lc chains = .ok hash ∧ chooseCanonicalHead lc chains' = .ok hash) ∧
    ∀ (genesis : GenesisSpec) (start : RuntimeAdmissionState) (chains : List (List PersistedBlock))
      (offers : List (ℕ × List PersistedBlock)),
      Competing lc genesis start.familyRegistry (start.reorgNetworkId genesis) chains →
      start.canonicalStateFailure = none → start.blockCache ∈ chains →
      start.currentC = start.blockCache.getLast?.map PersistedBlock.c →
      (∀ offer ∈ offers, ∀ head ∈ offer.2.getLast?,
        checkBlockTsFutureDrift head.ts offer.1 = .ok ()) →
      (∀ chain, chain ∈ offers.map Prod.snd ↔ chain ∈ chains) →
      ∃ hash, chooseCanonicalHead lc chains = .ok hash ∧
        (presentAll lc genesis start offers).blockCache.getLast?.map (headBlockHash lc) = some hash ∧
        (presentAll lc genesis start offers).currentC = some hash.toHex := by
  constructor
  · intro chains chains' hne hweights hset
    refine chooseCanonicalHead_congr hne (fun chain hchain => ?_) hset
    obtain ⟨hchain, weight, hweight⟩ := hweights chain hchain
    rw [chainRank_eq (List.getLast?_eq_some_getLast hchain) hweight]
    exact WithBot.coe_ne_bot
  · intro genesis start chains offers h hhealthy hmember hcurrent hdrift hset
    have hstart : OnChain start chains start := ⟨hhealthy, rfl, rfl, rfl, hmember, hcurrent⟩
    obtain ⟨hend, hbest⟩ := greatest_foldl (fun s => chainRank lc s.blockCache)
      (fun offer : ℕ × List PersistedBlock => chainRank lc offer.2) (OnChain start chains)
      (fun s offer hoffer hs => h.reorg_step hs
        ((hset offer.2).mp (List.mem_map_of_mem hoffer)) (hdrift offer hoffer)) hstart
    have hranks : insert (chainRank lc start.blockCache) {k | ∃ offer ∈ offers, chainRank lc offer.2 = k}
        = {k | ∃ chain ∈ chains, chainRank lc chain = k} := by
      ext k
      constructor
      · rintro (rfl | ⟨offer, hoffer, rfl⟩)
        · exact ⟨_, hmember, rfl⟩
        · exact ⟨offer.2, (hset offer.2).mp (List.mem_map_of_mem hoffer), rfl⟩
      · rintro ⟨chain, hchain, rfl⟩
        obtain ⟨offer, hoffer, rfl⟩ := List.mem_map.mp ((hset chain).mpr hchain)
        exact .inr ⟨offer, hoffer, rfl⟩
    obtain ⟨weight, hash, hchoice, hgreatest⟩ :=
      chooseCanonicalHead_spec (List.ne_nil_of_mem hmember) fun chain => h.ranked
    have hrank := (hranks ▸ hbest).unique hgreatest
    obtain ⟨_, head, _, -, -, hhead, -, -, hc⟩ := h.replays hend.member
    have hhash := headBlockHash_of_rank hhead hrank
    refine ⟨hash, hchoice, ?_, ?_⟩
    · rw [← hhash]
      exact congrArg _ hhead
    · rw [← hhash, ← hc]
      exact hend.head.trans (congrArg _ hhead)

/-- The same block with another count of what was left out, which is not hashed. -/
def sampleTwin : PersistedBlock := { Sample.block with truncatedByKmax := 7 }

theorem competing_sample :
    Competing Sample.lane Sample.spec Sample.registry none [[Sample.block], [sampleTwin]] where
  nonempty := by simp
  valid := by
    obtain ⟨r, hr⟩ := Sample.replays
    have hr' : replayBlocksWithGenesis Sample.lane [sampleTwin] Sample.spec Sample.registry none = .ok r :=
      hr
    simpa using ⟨⟨r, hr⟩, ⟨r, hr'⟩⟩
  injective := by
    rintro i ⟨chain, hchain, b, hb, rfl⟩ j ⟨chain', hchain', b', hb', rfl⟩ -
    have hinput : ∀ chain ∈ [[Sample.block], [sampleTwin]], ∀ b ∈ chain,
        b.hashInput = Sample.block.hashInput := by
      intro chain hchain b hb
      rcases List.mem_pair.mp hchain with rfl | rfl <;> obtain rfl := List.mem_singleton.mp hb
      · rfl
      · exact Committed.input ⟨rfl, rfl, rfl, rfl, rfl, rfl, rfl, rfl, rfl, rfl, rfl⟩
    rw [hinput chain hchain b hb, hinput chain' hchain' b' hb']

/-- A node on one version of a block is shown the other one, its own, and the other one again. -/
theorem fork_choice_order_sample : ∃ start hash,
    start.blockCache = [Sample.block] ∧
    chooseCanonicalHead Sample.lane [[Sample.block], [sampleTwin]] = .ok hash ∧
    chooseCanonicalHead Sample.lane [[sampleTwin], [Sample.block], [sampleTwin]] = .ok hash ∧
    (presentAll Sample.lane Sample.spec start
      [(0, [sampleTwin]), (0, [Sample.block]), (0, [sampleTwin])]).currentC = some hash.toHex := by
  let start : RuntimeAdmissionState := { RuntimeAdmissionState.new RuntimeSample.config with
    blockCache := [Sample.block]
    currentC := some Sample.block.c
    familyRegistry := Sample.registry
    bootGenesis := some Sample.spec }
  have hdrift : checkBlockTsFutureDrift Sample.block.ts 0 = .ok () := by decide +kernel
  obtain ⟨horder, hreorg⟩ := fork_choice_order Sample.lane
  obtain ⟨hash, hchoice, -, hhead⟩ := hreorg Sample.spec start _
    [(0, [sampleTwin]), (0, [Sample.block]), (0, [sampleTwin])] competing_sample rfl
    List.mem_cons_self rfl (by simpa using ⟨hdrift, hdrift, hdrift⟩) (by simp)
  have hweights : ∀ chain ∈ [[Sample.block], [sampleTwin]], chain ≠ [] ∧
      ∃ weight, cumulativeDifficultyWeight chain = .ok weight := by
    intro chain hchain
    obtain ⟨_, weight, -, hweight, -⟩ := exists_chainRank (competing_sample.ranked hchain)
    exact ⟨competing_sample.nonempty chain hchain, weight, hweight⟩
  obtain ⟨hash', hone, hmany⟩ := horder _ [[sampleTwin], [Sample.block], [sampleTwin]] (by simp) hweights
    (by simp)
  obtain rfl := Except.ok.inj (hchoice.symm.trans hone)
  exact ⟨start, hash, rfl, hchoice, hmany, hhead⟩

end Node
