import Boole.Node.Healing
import Boole.Node.Lockstep

/-!
# Node/BootCrash — a crash inside a call, and the boot after it

A commit and an ingest append a block and then its event; a reorganisation replaces the block store
and then the reward ledger.  Each call writes the chain with one write, which is its first:

    writes of a call = one write to the chain, then writes aside from it

so a crash leaves the chain before the call or the chain after it, and **boot heals everything else**
(`boot_heals_crash`).  The run must keep to blocks that can be entered in the bounty ledger: a block
whose promoted share names no bounty is replayed and written, and the next boot refuses to come up
(`boot_refuses_nameless`).
-/

open Std Library Library.Json
open Core

namespace Node

/-! ## Writes -/

/-- A write to one of the files. -/
inductive StoreWrite
  | appendBlock (block : PersistedBlock)
  | appendReward (event : PersistedRewardEvent)
  | appendBounty (event : Value)
  | replaceBlocks (blocks : List PersistedBlock)
  | replaceRewards (events : List PersistedRewardEvent)
  | replaceBounties (events : List Value)

/-- The bytes of a record. -/
def lineOf (record : Value) : List UInt8 := utf8 (record.print ++ ['\n'])

def Stores.write (stores : Stores) : StoreWrite → Stores
  | .appendBlock block => { stores with blocks := stores.blocks ++ lineOf (blockJson block) }
  | .appendReward event =>
    { stores with rewards := some (stores.rewards.getD [] ++ lineOf (rewardEventJson event)) }
  | .appendBounty event =>
    { stores with bounties := some (stores.bounties.getD [] ++ lineOf event) }
  | .replaceBlocks blocks => { stores with blocks := writeLines (blocks.map blockJson) }
  | .replaceRewards events => { stores with rewards := some (writeLines (events.map rewardEventJson)) }
  | .replaceBounties events => { stores with bounties := some (writeLines events) }

/-- What a write that is interrupted leaves behind: a prefix of the line, or the old or the new
file. -/
def Stores.Torn (stores : Stores) : StoreWrite → Stores → Prop
  | .appendBlock block, stores' => ∃ torn, torn <+: lineOf (blockJson block) ∧
    stores' = { stores with blocks := stores.blocks ++ torn }
  | .appendReward event, stores' => ∃ torn, torn <+: lineOf (rewardEventJson event) ∧
    stores' = { stores with rewards := some (stores.rewards.getD [] ++ torn) }
  | .appendBounty event, stores' => ∃ torn, torn <+: lineOf event ∧
    stores' = { stores with bounties := some (stores.bounties.getD [] ++ torn) }
  | write, stores' => stores' = stores ∨ stores' = stores.write write

namespace StoreWrite

/-- The blocks that a write puts into the store. -/
def blocks : StoreWrite → List PersistedBlock
  | .appendBlock block => [block]
  | .replaceBlocks blocks => blocks
  | _ => []

/-- The rows that a write puts into the bounty ledger. -/
def rows : StoreWrite → List Value
  | .appendBounty event => [event]
  | .replaceBounties events => events
  | _ => []

/-- The chain in the store after a write. -/
def chain (blocks : List PersistedBlock) : StoreWrite → List PersistedBlock
  | .appendBlock block => blocks ++ [block]
  | .replaceBlocks blocks => blocks
  | _ => blocks

/-- A write that leaves the chain as it is. -/
def Aside (write : StoreWrite) : Prop := ∀ blocks, write.chain blocks = blocks

/-- What is written reads back, and the rows of the bounty ledger were checked. -/
structure Fit (write : StoreWrite) : Prop where
  held : ∀ b ∈ write.blocks, Held b
  rows : ∀ row ∈ write.rows, row.Canonical ∧ validateBountyLedgerEvent row = .ok ()

end StoreWrite

theorem StoreWrite.Aside.blocks_eq_nil {w : StoreWrite} (h : w.Aside) : w.blocks = [] := by
  have hnil := h []
  cases w <;> simp_all [StoreWrite.chain, StoreWrite.blocks]

section Writes

variable {codec : StoreCodec} {boot : BootConfig} {stores stores' : Stores}
  {blocks : List PersistedBlock} {w : StoreWrite}

open FileBountyEventLedger

theorem plain_print (record : Value) : Plain record.print := record.print_no_control

variable (hcodec : codec.Lawful)
include hcodec

/-- A row that is appended to a readable file, in full or in part, leaves a readable file. -/
theorem readFile_append {file : Option (List UInt8)} {row : Value}
    (hrow : row.Canonical ∧ validateBountyLedgerEvent row = .ok ())
    (hread : ∃ present, readFile codec file = .ok present) (hstable : ∀ bytes ∈ file, Stable bytes)
    {torn : List UInt8} (htorn : torn <+: lineOf row) :
    (∃ present, readFile codec (some (file.getD [] ++ torn)) = .ok present) ∧
      (torn = lineOf row → Stable (file.getD [] ++ torn)) := by
  have hold : ∃ rows, Logged codec.parseEvent (file.getD []) rows ∧ Stable (file.getD []) ∧
      ∀ row ∈ rows, validateBountyLedgerEvent row = .ok () := by
    cases file with
    | none => exact ⟨[], logged_nil, ⟨[], rfl, .inl rfl⟩, by simp⟩
    | some bytes =>
      obtain ⟨present, hread⟩ := hread
      obtain ⟨rows, -, hlogged, hvalid⟩ := readFile_some_eq_ok.mp hread
      exact ⟨rows, hlogged, hstable bytes rfl, hvalid⟩
  obtain ⟨rows, hlogged, hends, hvalid⟩ := hold
  obtain ⟨hlogged', hends'⟩ := hlogged.snoc hends (plain_print row) row.print_ne_nil
    (hcodec.parseEvent_print row hrow.1)
  have hvalid' : ∀ r ∈ rows ++ [row], validateBountyLedgerEvent r = .ok () := by
    simpa [or_imp, forall_and] using ⟨hvalid, hrow.2⟩
  rcases hlogged.append_torn hends (plain_print row) htorn with hpart | rfl
  · refine ⟨⟨some rows, readFile_some_eq_ok.mpr ⟨rows, rfl, hpart, hvalid⟩⟩, ?_⟩
    rintro rfl
    exact hends'
  · exact ⟨⟨some (rows ++ [row]), readFile_some_eq_ok.mpr ⟨_, rfl, hlogged', hvalid'⟩⟩,
      fun _ => hends'⟩

theorem readFile_replace {rows : List Value}
    (hrows : ∀ row ∈ rows, row.Canonical ∧ validateBountyLedgerEvent row = .ok ()) :
    (∃ present, readFile codec (some (writeLines rows)) = .ok present) ∧
      Stable (writeLines rows) := by
  obtain ⟨hlogged, hends⟩ := logged_writeLines fun row hrow =>
    hcodec.parseEvent_print row (hrows row hrow).1
  exact ⟨⟨some rows, readFile_some_eq_ok.mpr ⟨rows, rfl, hlogged, fun row hrow =>
    (hrows row hrow).2⟩⟩, hends⟩

theorem logged_writeBlocks (h : ∀ b ∈ blocks, Held b) :
    Logged codec.parseBlock (writeLines (blocks.map blockJson)) blocks ∧
      Stable (writeLines (blocks.map blockJson)) := by
  refine logged_terminate ?_ ?_ ?_
  · simpa using fun b (_ : b ∈ blocks) => plain_print (blockJson b)
  · simpa using fun b (_ : b ∈ blocks) => (blockJson b).print_ne_nil
  · rw [List.map_map, List.map_map]
    exact List.map_congr_left fun b hb => hcodec.parseBlock_print b (h b hb)

/-- **A write that is done leaves clean files that hold the chain after it.** -/
theorem Clean.write (h : Clean codec boot stores blocks) (hfit : w.Fit) :
    Clean codec boot (stores.write w) (w.chain blocks) := by
  cases w with
  | appendBlock b =>
    obtain ⟨hlogged, hends⟩ := h.blocks.snoc h.blocksStable (plain_print _) (Value.print_ne_nil _)
      (hcodec.parseBlock_print b (hfit.held b (List.mem_singleton_self b)))
    exact ⟨⟨hlogged, h.bounties⟩, hends, h.bountiesStable⟩
  | appendReward _ | replaceRewards _ =>
    exact ⟨⟨h.blocks, h.bounties⟩, h.blocksStable, h.bountiesStable⟩
  | appendBounty row =>
    have hadd (hpath : boot.bountyPath = true) := readFile_append hcodec
      (hfit.rows row (List.mem_singleton_self row)) (h.bounties hpath) (h.bountiesStable hpath)
      (List.prefix_refl _)
    refine ⟨⟨h.blocks, fun hpath => (hadd hpath).1⟩, h.blocksStable, fun hpath bytes hbytes => ?_⟩
    obtain rfl := Option.some.inj hbytes
    exact (hadd hpath).2 rfl
  | replaceBlocks bs =>
    obtain ⟨hlogged, hends⟩ := logged_writeBlocks hcodec hfit.held
    exact ⟨⟨hlogged, h.bounties⟩, hends, h.bountiesStable⟩
  | replaceBounties rows =>
    obtain ⟨hread, hends⟩ := readFile_replace hcodec hfit.rows
    refine ⟨⟨h.blocks, fun _ => hread⟩, h.blocksStable, fun _ bytes hbytes => ?_⟩
    obtain rfl := Option.some.inj hbytes
    exact hends

/-- **A write that is interrupted leaves files that hold the chain before it or after it.** -/
theorem Clean.torn (h : Clean codec boot stores blocks) (hfit : w.Fit)
    (htorn : stores.Torn w stores') :
    Holds codec boot stores' blocks ∨ Holds codec boot stores' (w.chain blocks) := by
  have hdone := (h.write hcodec hfit).toHolds
  cases w with
  | appendBlock b =>
    obtain ⟨torn, htorn, rfl⟩ := htorn
    rcases h.blocks.append_torn h.blocksStable (plain_print _) htorn with hpart | rfl
    · exact .inl ⟨hpart, h.bounties⟩
    · exact .inr hdone
  | appendReward event =>
    obtain ⟨torn, htorn, rfl⟩ := htorn
    exact .inl ⟨h.blocks, h.bounties⟩
  | appendBounty row =>
    obtain ⟨torn, htorn, rfl⟩ := htorn
    exact .inl ⟨h.blocks, fun hpath => (readFile_append hcodec
      (hfit.rows row (List.mem_singleton_self row)) (h.bounties hpath) (h.bountiesStable hpath)
      htorn).1⟩
  | replaceBlocks _ | replaceRewards _ | replaceBounties _ =>
    rcases htorn with rfl | rfl
    · exact .inl h.toHolds
    · exact .inr hdone

/-- Writes aside from the chain, done or interrupted, leave files that hold the chain. -/
theorem Clean.aside {writes : List StoreWrite} (h : Clean codec boot stores blocks)
    (hfit : ∀ w ∈ writes, w.Fit ∧ w.Aside) :
    Clean codec boot (writes.foldl Stores.write stores) blocks ∧
      ∀ stores', Crashed Stores.write Stores.Torn stores writes stores' →
        Holds codec boot stores' blocks := by
  induction writes generalizing stores with
  | nil =>
    refine ⟨h, fun stores' hcrash => ?_⟩
    rw [hcrash.eq_of_nil]
    exact h.toHolds
  | cons w writes ih =>
    obtain ⟨⟨hw, haside⟩, hrest⟩ := List.forall_mem_cons.mp hfit
    have hafter := h.write hcodec hw
    rw [haside] at hafter
    obtain ⟨hdone, hcrashed⟩ := ih hafter hrest
    refine ⟨hdone, fun stores' hcrash => ?_⟩
    cases hcrash with
    | before => exact h.toHolds
    | during _ htorn =>
      have := h.torn hcodec hw htorn
      rwa [haside, or_self] at this
    | later hcrash => exact hcrashed stores' hcrash

/-- **One write to the chain, and then others aside from it:** the chain is the one before or the one
after. -/
theorem Clean.crashed {writes : List StoreWrite} (h : Clean codec boot stores blocks)
    (hfit : w.Fit) (hrest : ∀ w ∈ writes, w.Fit ∧ w.Aside)
    (hcrash : Crashed Stores.write Stores.Torn stores (w :: writes) stores') :
    Holds codec boot stores' blocks ∨ Holds codec boot stores' (w.chain blocks) := by
  cases hcrash with
  | before => exact .inl h.toHolds
  | during _ htorn => exact h.torn hcodec hfit htorn
  | later hcrash => exact .inr (((h.write hcodec hfit).aside hcodec hrest).2 stores' hcrash)

end Writes

/-! ## Calls -/

open RuntimeAdmissionState

/-- What an ingest decides before it writes. -/
def prepareIngest (s : RuntimeAdmissionState) (block : PersistedBlock) :
    Result (Option PersistedRewardEvent) := do
  s.ensureCanonicalStateHealthy
  s.checkBlockApplicable block
  s.rewardEvent block

/-- The writes of a publication: the block, and then its event. -/
def publishWrites (s : RuntimeAdmissionState) (block : PersistedBlock) :
    Option PersistedRewardEvent → List StoreWrite
  | some event => .appendBlock block :: if s.rewardLedger.isSome then [.appendReward event] else []
  | none => [.appendBlock block]

/-- The writes of a call, in their order. -/
def RuntimeCall.writes (lc : LaneCrypto) (s : RuntimeAdmissionState) : RuntimeCall → List StoreWrite
  | .commit _ height ts acceptedCanonTags promoted =>
    match s.prepareCommit lc height ts acceptedCanonTags promoted with
    | .ok (block, event) => publishWrites s block event
    | .error _ => []
  | .ingest _ block => match prepareIngest s block with
    | .ok event => publishWrites s block event
    | .error _ => []
  | .reorg _ nowMs candidate genesis => match s.prepareReorg lc nowMs candidate genesis with
    | .ok (some (_, _, ledger)) => .replaceBlocks candidate ::
      ledger.elim [] fun ledger => [.replaceRewards ledger.events]
    | _ => []
  | _ => []

/-- The blocks that a call writes. -/
def RuntimeCall.blocks (lc : LaneCrypto) (s : RuntimeAdmissionState) (call : RuntimeCall) :
    List PersistedBlock := (call.writes lc s).flatMap StoreWrite.blocks

/-- **The calls of a node with a genesis:** the disk takes the writes, a block from outside was
replayed on top of the cache before, and a competing chain is replayed from the node's own
genesis. -/
def RuntimeCall.Allowed (lc : LaneCrypto) (boot : BootConfig) (s : RuntimeAdmissionState) :
    RuntimeCall → Prop
  | .commit disk _ _ _ _ => disk = .sound
  | .ingest disk block => disk = .sound ∧
    ∃ r, s.replayUnderBootContract lc (s.blockCache ++ [block]) = .ok r
  | .reorg disk _ _ genesis => disk = .sound ∧ boot.genesis = some genesis
  | _ => True

section Calls

variable {lc : LaneCrypto} {boot : BootConfig} {genesis : GenesisSpec} {s : RuntimeAdmissionState}
  {r r' : ReplayResult} {blocks : List PersistedBlock} {block : PersistedBlock}

/-- The reward ledger has the balances of the replayed chain. -/
def LedgerOf (lc : LaneCrypto) (boot : BootConfig) (genesis : GenesisSpec)
    (s : RuntimeAdmissionState) : Prop :=
  ∀ ledger ∈ s.rewardLedger, ∀ r, boot.replay lc genesis s.blockCache = .ok r →
    ledger.balances = r.balances

theorem exists_replayed (h : boot.replay lc genesis (blocks ++ [block]) = .ok r')
    (hr : boot.replay lc genesis blocks = .ok r) :
    ∃ t t' credits bountyCredits,
      Replayed (genesis.rules lc boot.familyRegistry boot.authorizationNetworkId) t t' block
        blocks.length credits bountyCredits ∧ t.balances = r.balances ∧ t'.balances = r'.balances := by
  obtain ⟨t', ht', rfl⟩ := exists_replays h
  obtain ⟨t, ht, rfl⟩ := exists_replays hr
  rw [← replayFrom_eq_ok] at ht ht'
  rw [replayFrom_concat, ht, ok_bind, replayBlock_eq_ok] at ht'
  obtain ⟨credits, bountyCredits, hstep⟩ := ht'
  exact ⟨t, t', credits, bountyCredits, hstep, rfl, rfl⟩

/-- A block that can be entered in the bounty ledger: its rows are known to pass the check, or they
pass it because the block is named. -/
def Bookable (registry : FamilyManifestRegistry) (block : PersistedBlock) : Prop :=
  (∀ row, Projected registry block row → validateBountyLedgerEvent row = .ok ()) ∨
    block.height < 2 ^ 64 ∧ Named block

/-- **A replayed chain of such blocks is bootable.** -/
theorem bootable_of_replay (h : boot.replay lc genesis blocks = .ok r)
    (hbook : boot.bountyPath = true → ∀ b ∈ blocks, Bookable boot.familyRegistry b) :
    Bootable lc boot genesis blocks := by
  refine ⟨⟨r, h⟩, fun hpath => ?_⟩
  obtain ⟨t, ht, -⟩ := exists_replays h
  replace hbook := hbook hpath
  clear h hpath
  induction ht with
  | nil => simp [RowsPass]
  | @snoc blocks _ _ block _ _ _ step ih =>
    simp only [List.forall_mem_append, List.forall_mem_singleton] at hbook
    intro b hb row hrow
    rcases List.mem_append.mp hb with hb | hb
    · exact ih hbook.1 b hb row hrow
    · obtain rfl := List.mem_singleton.mp hb
      rcases hbook.2 with hpass | ⟨hheight, hnamed⟩
      · exact hpass row hrow
      · exact Replayed.rowsPass step hnamed hheight hrow

/-- **A block that is published on a sound disk is at the end of the cache,** and the ledger has the
balances of the replay. -/
theorem publishBlock_sound {event : Option PersistedRewardEvent} (hcontract : Contract boot s)
    (hledger : LedgerOf lc boot genesis s) (hreplay : boot.replay lc genesis s.blockCache = .ok r)
    (hnext : boot.replay lc genesis (s.blockCache ++ [block]) = .ok r')
    (hevent : s.rewardEvent block = .ok event) :
    Contract boot (publishBlock .sound s block event).1 ∧
      (publishBlock .sound s block event).1.blockCache = s.blockCache ++ [block] ∧
      LedgerOf lc boot genesis (publishBlock .sound s block event).1 := by
  have happend : ∃ ledger', appendReward .sound s.rewardLedger event = .ok ledger' ∧
      ∀ ledger ∈ ledger', ledger.balances = r'.balances := by
    cases hl : s.rewardLedger with
    | none => exact ⟨none, rfl, by simp⟩
    | some ledger =>
      obtain ⟨t, t', _, _, hstep, ht, ht'⟩ := exists_replayed hnext hreplay
      obtain ⟨e, he, happly⟩ := Replayed.applies hstep
      have hderive : deriveRewardEvent s.familyRegistry block = .ok e := by
        rw [hcontract.registry]
        exact he
      obtain rfl : some e = event := by
        simpa [rewardEvent, hl, hderive] using hevent
      have hold : ledger = ⟨ledger.events, t.balances⟩ := by
        rw [ht, ← hledger ledger hl r hreplay]
      refine ⟨some ⟨ledger.events ++ [e], t'.balances⟩, ?_, by simp [ht']⟩
      rw [appendReward, hold, happly ledger.events]
      rfl
  obtain ⟨ledger', happend, hbalances⟩ := happend
  have hpublish : (publishBlock .sound s block event).1 =
      ({ (({ s.beginCanonicalPublish .blockReward with rewardLedger := ledger' } :
          RuntimeAdmissionState).applyBlockUnchecked block).1 with
        blockCache := s.blockCache ++ [block] }).finishCanonicalPublish := by
    simp only [publishBlock, beginCanonicalPublish] at happend ⊢
    rw [happend]
    rfl
  rw [hpublish]
  refine ⟨⟨hcontract.registry, hcontract.genesis, hcontract.network⟩, rfl, ?_⟩
  intro ledger hmem r₁ hr₁
  obtain rfl := Except.ok.inj (hnext.symm.trans hr₁)
  exact hbalances ledger hmem

/-- The chain, the ledger and the contract are as they were. -/
structure Unmoved (s t : RuntimeAdmissionState) : Prop where
  registry : t.familyRegistry = s.familyRegistry
  genesis : t.bootGenesis = s.bootGenesis
  network : t.authorizationNetworkId = s.authorizationNetworkId
  cache : t.blockCache = s.blockCache
  ledger : t.rewardLedger = s.rewardLedger

theorem Unmoved.refl (s : RuntimeAdmissionState) : Unmoved s s := ⟨rfl, rfl, rfl, rfl, rfl⟩

/-- **A call that writes the chain:** one write to it, then others aside, and the runtime is at the
chain that was written. -/
structure Publishes (lc : LaneCrypto) (boot : BootConfig) (genesis : GenesisSpec)
    (s : RuntimeAdmissionState) (call : RuntimeCall) (w : StoreWrite) (rest : List StoreWrite) :
    Prop where
  writes : call.writes lc s = w :: rest
  noRows : w.rows = []
  aside : ∀ w' ∈ rest, w'.Fit ∧ w'.Aside
  contract : Contract boot (call.run lc s)
  cache : (call.run lc s).blockCache = w.chain s.blockCache
  replays : ∃ r, boot.replay lc genesis (w.chain s.blockCache) = .ok r
  ledger : LedgerOf lc boot genesis (call.run lc s)

theorem StoreWrite.Aside.fit {w : StoreWrite} (h : w.Aside) (hrows : w.rows = []) :
    w.Fit ∧ w.Aside :=
  ⟨⟨by simp [h.blocks_eq_nil], by simp [hrows]⟩, h⟩

theorem publishWrites_eq (s : RuntimeAdmissionState) (block : PersistedBlock)
    (event : Option PersistedRewardEvent) :
    ∃ rest, publishWrites s block event = .appendBlock block :: rest ∧
      ∀ w ∈ rest, w.Fit ∧ w.Aside := by
  cases event with
  | none => exact ⟨[], rfl, by simp⟩
  | some event =>
    refine ⟨_, rfl, ?_⟩
    split_ifs
    · simpa using StoreWrite.Aside.fit (w := .appendReward event) (fun _ => rfl) rfl
    · simp

/-- A call that publishes a replayed block. -/
theorem publishes_block {call : RuntimeCall} {event : Option PersistedRewardEvent}
    (hcontract : Contract boot s) (hledger : LedgerOf lc boot genesis s)
    (hreplay : boot.replay lc genesis s.blockCache = .ok r)
    (hnext : boot.replay lc genesis (s.blockCache ++ [block]) = .ok r')
    (hevent : s.rewardEvent block = .ok event)
    (hwrites : call.writes lc s = publishWrites s block event)
    (hrun : call.run lc s = (publishBlock .sound s block event).1) :
    ∃ w rest, Publishes lc boot genesis s call w rest := by
  obtain ⟨rest, hrest, haside⟩ := publishWrites_eq s block event
  obtain ⟨hcontract', hcache, hledger'⟩ :=
    publishBlock_sound hcontract hledger hreplay hnext hevent
  exact ⟨.appendBlock block, rest, hwrites.trans hrest, rfl, haside, hrun ▸ hcontract',
    hrun ▸ hcache, ⟨r', hnext⟩, hrun ▸ hledger'⟩

theorem replayUnderBootContract_eq (hcontract : Contract boot s)
    (hgenesis : boot.genesis = some genesis) :
    s.replayUnderBootContract lc blocks = boot.replay lc genesis blocks := by
  rw [RuntimeAdmissionState.replayUnderBootContract, hcontract.genesis, hgenesis,
    hcontract.registry, hcontract.network, BootConfig.replay]

/-- The ledger that a reorganisation builds has the balances of the replay. -/
theorem rebuildRewards_balances {rules : ReplayRules} {t : ReplayState}
    (h : Replays rules blocks t) (hregistry : s.familyRegistry = rules.registry)
    {ledger : Option FileRewardLedger} (hledger : s.rebuildRewards blocks = .ok ledger) :
    ∀ l ∈ ledger.or s.rewardLedger, l.balances = t.balances := by
  obtain ⟨events, hevents⟩ := Replays.foldlM_rewards h
  rw [← hregistry] at hevents
  rw [rebuildRewards] at hledger
  cases hl : s.rewardLedger with
  | none =>
    obtain rfl : none = ledger := by simpa [hl] using hledger
    simp
  | some old =>
    rw [hl, hevents] at hledger
    obtain rfl : some ⟨events, t.balances⟩ = ledger := by simpa using hledger
    simp

/-- What a call does to the chain and its files. -/
def Effect (lc : LaneCrypto) (boot : BootConfig) (genesis : GenesisSpec)
    (s : RuntimeAdmissionState) (call : RuntimeCall) : Prop :=
  call.writes lc s = [] ∧ Unmoved s (call.run lc s) ∨
    ∃ w rest, Publishes lc boot genesis s call w rest

theorem reorg_effect (hgenesis : boot.genesis = some genesis) (hcontract : Contract boot s)
    (nowMs : ℕ) (candidate : List PersistedBlock) :
    Effect lc boot genesis s (.reorg .sound nowMs candidate genesis) := by
  match hprepare : s.prepareReorg lc nowMs candidate genesis with
  | .error _ | .ok none =>
    refine .inl ⟨by simp [RuntimeCall.writes, hprepare], ?_⟩
    simp only [RuntimeCall.run, reorgToHeavierChain, hprepare]
    exact .refl s
  | .ok (some (head, latestC, ledger)) =>
    have hprepared := hprepare
    simp only [prepareReorg, bind_eq_ok] at hprepared
    obtain ⟨_, _, _, _, _, _, r', hnext, wins, _, hrest⟩ := hprepared
    have hnetwork : s.reorgNetworkId genesis = boot.authorizationNetworkId := by
      simp [reorgNetworkId, hcontract.genesis, hgenesis, hcontract.network]
    rw [hcontract.registry, hnetwork] at hnext
    obtain ⟨t, ht, rfl⟩ := exists_replays hnext
    split_ifs at hrest
    · simp only [bind_eq_ok, pure_eq_ok, Option.some.injEq, Prod.mk.injEq] at hrest
      obtain ⟨_, hledger, -, -, hbuilt⟩ := hrest
      rw [hbuilt] at hledger
      have hbalances := rebuildRewards_balances ht hcontract.registry hledger
      have hrun : (RuntimeCall.reorg .sound nowMs candidate genesis).run lc s =
          ((({ s.beginCanonicalPublish .reorgReward with
              rewardLedger := ledger.or s.rewardLedger
              blockCache := candidate } : RuntimeAdmissionState).setCurrentC latestC).keepOnly
            head.c).finishCanonicalPublish := by
        simp only [RuntimeCall.run, reorgToHeavierChain, hprepare]
        cases ledger <;> rfl
      refine .inr ⟨.replaceBlocks candidate, _, by simp only [RuntimeCall.writes, hprepare]; rfl, rfl,
        ?_, ?_, ?_, ⟨_, hnext⟩, ?_⟩
      · cases ledger with
        | none => simp
        | some ledger =>
          simpa using StoreWrite.Aside.fit (w := .replaceRewards ledger.events) (fun _ => rfl) rfl
      all_goals rw [hrun]
      · exact ⟨hcontract.registry, hcontract.genesis, hcontract.network⟩
      · rfl
      · intro l hl r hr
        obtain rfl := Except.ok.inj (hnext.symm.trans hr)
        exact hbalances l hl
    · simp at hrest

variable (hgenesis : boot.genesis = some genesis) (hcontract : Contract boot s)
  (hledger : LedgerOf lc boot genesis s) (hreplay : boot.replay lc genesis s.blockCache = .ok r)
include hgenesis hcontract hledger hreplay

theorem commit_effect (height ts : ℕ) (tags : ExtTreeSet UInt8)
    (promoted : List PromotedBountyShare) :
    Effect lc boot genesis s (.commit .sound height ts tags promoted) := by
  cases hprepare : s.prepareCommit lc height ts tags promoted with
  | error err =>
    refine .inl ⟨by simp [RuntimeCall.writes, hprepare], ?_⟩
    simp only [RuntimeCall.run, commitUsingCache, hprepare]
    exact .refl s
  | ok prepared =>
    obtain ⟨block, event⟩ := prepared
    have hprepared := hprepare
    simp only [prepareCommit, checkOwnBlock, hcontract.genesis, hgenesis, Option.elim_some,
      bind_eq_ok, mapErr_eq_ok] at hprepared
    obtain ⟨_, _, _, _, _, _, _, _, _, ⟨r', hnext, _⟩, _, hevent, rfl, rfl⟩ := hprepared
    rw [hcontract.registry, hcontract.network] at hnext
    refine .inr (publishes_block hcontract hledger hreplay hnext hevent ?_ ?_)
    · simp [RuntimeCall.writes, hprepare]
    · simp [RuntimeCall.run, commitUsingCache, hprepare]

theorem ingest_effect
    (hnext : s.replayUnderBootContract lc (s.blockCache ++ [block]) = .ok r') :
    Effect lc boot genesis s (.ingest .sound block) := by
  rw [replayUnderBootContract_eq hcontract hgenesis] at hnext
  cases hprepare : prepareIngest s block with
  | error err =>
    refine .inl ⟨by simp [RuntimeCall.writes, hprepare], ?_⟩
    rw [prepareIngest] at hprepare
    simp only [RuntimeCall.run, ingestExternalBlock, hprepare]
    exact .refl s
  | ok event =>
    have hevent : s.rewardEvent block = .ok event := by
      simp only [prepareIngest, bind_eq_ok] at hprepare
      obtain ⟨_, _, _, _, hevent⟩ := hprepare
      exact hevent
    refine .inr (publishes_block hcontract hledger hreplay hnext hevent ?_ ?_)
    · simp [RuntimeCall.writes, hprepare]
    · rw [prepareIngest] at hprepare
      simp only [RuntimeCall.run, ingestExternalBlock, hprepare]

/-- **Every call of a node with a genesis either leaves the chain alone or publishes a replayed
one.** -/
theorem RuntimeCall.effect {call : RuntimeCall} (hallowed : call.Allowed lc boot s) :
    Effect lc boot genesis s call := by
  cases call with
  | commit disk height ts tags promoted =>
    obtain rfl : disk = .sound := hallowed
    exact commit_effect hgenesis hcontract hledger hreplay height ts tags promoted
  | ingest disk block =>
    obtain ⟨rfl, r', hnext⟩ := hallowed
    exact ingest_effect hgenesis hcontract hledger hreplay hnext
  | reorg disk nowMs candidate genesis' =>
    obtain ⟨rfl, hsame⟩ := hallowed
    obtain rfl : genesis = genesis' := Option.mem_unique hgenesis hsame
    exact reorg_effect hgenesis hcontract nowMs candidate
  | _ =>
    -- the calls on the pool take no branch that touches the chain
    refine .inl ⟨rfl, ?_⟩
    simp only [RuntimeCall.run, observeTicketFromBody, admitBodyWithSubmitterContext,
      takeCandidateForReverify, restoreReverifiedCandidate, quarantineCandidate]
    repeat' split
    all_goals exact ⟨rfl, rfl, rfl, rfl, rfl⟩

end Calls

/-! ## Runs -/

/-- **A running node and its files,** from a boot on, when every block it writes is good.  Between
two calls, and after the writes of one, others may write the ledgers. -/
inductive Reached (lc : LaneCrypto) (codec : StoreCodec) (boot : BootConfig)
    (Good : PersistedBlock → Prop) : RuntimeAdmissionState → Stores → Prop
  | booted {stores stores' : Stores} {s : RuntimeAdmissionState}
      (h : boot.bootFromStoreInner lc codec stores = .ok (s, stores')) : Reached lc codec boot Good s stores'
  | called {s : RuntimeAdmissionState} {stores : Stores} {call : RuntimeCall}
      {aside : List StoreWrite} (prior : Reached lc codec boot Good s stores)
      (allowed : call.Allowed lc boot s) (good : ∀ b ∈ call.blocks lc s, Held b ∧ Good b)
      (others : ∀ w ∈ aside, w.Fit ∧ w.Aside) :
      Reached lc codec boot Good (call.run lc s)
        ((call.writes lc s ++ aside).foldl Stores.write stores)

/-- The files hold the chain of the runtime, and boot takes that chain. -/
structure Synced (lc : LaneCrypto) (codec : StoreCodec) (boot : BootConfig) (genesis : GenesisSpec)
    (s : RuntimeAdmissionState) (stores : Stores) : Prop where
  root : boot.checkRoot = .ok ()
  contract : Contract boot s
  files : Clean codec boot stores s.blockCache
  chain : Bootable lc boot genesis s.blockCache
  ledger : LedgerOf lc boot genesis s

section Runs

variable {lc : LaneCrypto} {codec : StoreCodec} {boot : BootConfig} {genesis : GenesisSpec}
  {s : RuntimeAdmissionState} {stores : Stores} {call : RuntimeCall} {aside : List StoreWrite}

/-- A block whose promoted shares are named, where there is a bounty ledger. -/
def BootConfig.Accepts (boot : BootConfig) (block : PersistedBlock) : Prop :=
  boot.bountyPath = true → Named block

theorem mem_chain {w : StoreWrite} {blocks : List PersistedBlock} {b : PersistedBlock}
    (h : b ∈ w.chain blocks) : b ∈ blocks ∨ b ∈ w.blocks := by
  cases w <;> simp_all [StoreWrite.chain, StoreWrite.blocks]

/-- **The step.**  A call, done or interrupted, leaves files that hold a bootable chain: the one
before the call, or the one after it. -/
theorem Synced.step (hcodec : codec.Lawful) (hgenesis : boot.genesis = some genesis)
    (h : Synced lc codec boot genesis s stores) (hallowed : call.Allowed lc boot s)
    (hgood : ∀ b ∈ call.blocks lc s, Held b ∧ boot.Accepts b)
    (haside : ∀ w ∈ aside, w.Fit ∧ w.Aside) :
    Synced lc codec boot genesis (call.run lc s)
        ((call.writes lc s ++ aside).foldl Stores.write stores) ∧
      ∀ crashed, Crashed Stores.write Stores.Torn stores (call.writes lc s ++ aside) crashed →
        ∃ blocks, (blocks = s.blockCache ∨ blocks = (call.run lc s).blockCache) ∧
          Bootable lc boot genesis blocks ∧ Holds codec boot crashed blocks := by
  obtain ⟨r, hreplay⟩ := h.chain.replays
  rcases call.effect hgenesis h.contract h.ledger hreplay hallowed with
    ⟨hwrites, hunmoved⟩ | ⟨w, rest, hpub⟩
  · rw [hwrites]
    obtain ⟨hdone, hcrashed⟩ := h.files.aside hcodec haside
    refine ⟨⟨h.root, ?_, ?_, ?_, ?_⟩, fun crashed hcrash =>
      ⟨s.blockCache, .inl rfl, h.chain, hcrashed crashed hcrash⟩⟩
    · exact ⟨hunmoved.registry.trans h.contract.registry, hunmoved.genesis.trans h.contract.genesis,
        hunmoved.network.trans h.contract.network⟩
    · rw [hunmoved.cache]
      exact hdone
    · rw [hunmoved.cache]
      exact h.chain
    · rw [LedgerOf, hunmoved.cache, hunmoved.ledger]
      exact h.ledger
  · have hblocks : ∀ b ∈ w.blocks, Held b ∧ boot.Accepts b := fun b hb =>
      hgood b (by rw [RuntimeCall.blocks, hpub.writes]; exact List.mem_append_left _ hb)
    have hfit : w.Fit := ⟨fun b hb => (hblocks b hb).1, by simp [hpub.noRows]⟩
    have hothers : ∀ w' ∈ rest ++ aside, w'.Fit ∧ w'.Aside := fun w' hw' =>
      (List.mem_append.mp hw').elim (hpub.aside w') (haside w')
    obtain ⟨r', hnext⟩ := hpub.replays
    have hchain : Bootable lc boot genesis (w.chain s.blockCache) := by
      refine bootable_of_replay hnext fun hpath b hb => ?_
      rcases mem_chain hb with hb | hb
      · exact .inl (h.chain.rows hpath b hb)
      · obtain ⟨hheld, hnamed⟩ := hblocks b hb
        exact .inr ⟨hheld.numbers _ (by simp), hnamed hpath⟩
    rw [hpub.writes]
    refine ⟨⟨h.root, hpub.contract, ?_, ?_, hpub.ledger⟩, fun crashed hcrash => ?_⟩
    · rw [hpub.cache]
      exact ((h.files.write hcodec hfit).aside hcodec hothers).1
    · rw [hpub.cache]
      exact hchain
    · rcases h.files.crashed hcodec hfit hothers hcrash with hholds | hholds
      · exact ⟨_, .inl rfl, h.chain, hholds⟩
      · exact ⟨_, .inr hpub.cache.symm, hchain, hholds⟩

theorem Reached.synced (hcodec : codec.Lawful) (hgenesis : boot.genesis = some genesis)
    (h : Reached lc codec boot boot.Accepts s stores) : Synced lc codec boot genesis s stores := by
  induction h with
  | booted h =>
    obtain ⟨hroot, blocks, hchain, hclean, hcontract, hbooted⟩ := of_boot_eq_ok hcodec hgenesis h
    obtain ⟨hcache, r, hreplay, -, hledger⟩ := hbooted
    subst hcache
    refine ⟨hroot, hcontract, hclean, hchain, fun ledger hmem r' hr' => ?_⟩
    obtain rfl := Except.ok.inj (hreplay.symm.trans hr')
    split_ifs at hledger
    · obtain ⟨events, -, hledger⟩ := hledger
      obtain rfl := Option.mem_unique hledger hmem
      rfl
    · simp [hledger] at hmem
  | called prior allowed good others ih => exact (ih.step hcodec hgenesis allowed good others).1

end Runs

/-! ## A run -/

open BootConfig

namespace BootSample

/-- A node with both ledgers on the sample network. -/
def bootConfig : BootConfig where
  config := RuntimeSample.config
  rewardPath := true
  bountyPath := true
  familyRegistry := Sample.registry
  registryRoot := ""
  genesis := some Sample.spec
  authorizationNetworkId := none

/-- The runtime that comes up over no files, and the files it leaves. -/
def started : RuntimeAdmissionState := bootConfig.ready [] zeroAnchor (some {})

def files : Stores := ⟨[], some [], none⟩

theorem boots (codec : StoreCodec) :
    bootConfig.bootFromStoreInner Sample.lane codec {} = .ok (started, files) := by
  have hrecover : FileBlockStore.recover codec [] = .ok [] :=
    FileBlockStore.recover_eq_ok.mpr ⟨logged_nil, .nil⟩
  rfl

/-- The sample block, with a bounty share that names no bounty. -/
def nameless : PersistedBlock :=
  { Sample.block with promotedBountyShares := [⟨"lists", "", zeroAnchor, Sample.prover, "9"⟩] }

theorem settles_sample : deriveBountySettlement Sample.block.promotedBountyShares Sample.registry 0
    = .ok [⟨"lists", "b1", Sample.prover, "5"⟩] := by decide +kernel

theorem settles_nameless : deriveBountySettlement nameless.promotedBountyShares Sample.registry 0
    = .ok [⟨"lists", "", Sample.prover, "5"⟩] := by decide +kernel

/-- Replay does not ask for the name of the bounty: the block passes what the sample block passes. -/
theorem replays_nameless : ∃ r, bootConfig.replay Sample.lane Sample.spec [nameless] = .ok r := by
  obtain ⟨r, hr⟩ := Sample.replays
  simp only [replayBlocksWithGenesis, replayBlocksWithRules, bind_eq_ok, pure_eq_ok] at hr
  obtain ⟨_, hnetwork, _, hdifficulty, _, hshare, _, hts, t, ht, -⟩ := hr
  rw [replayFrom_singleton] at ht
  obtain ⟨credits, bountyCredits, hstep⟩ := replayBlock_eq_ok.mp ht
  obtain rfl : [_] = bountyCredits :=
    Except.ok.inj (settles_sample.symm.trans hstep.settlement)
  have hshape : nameless.validateShape = .ok () := by
    have hsample := hstep.shape
    have hnamed : Sample.block.promotedBountyShares
      = [⟨"lists", "b1", zeroAnchor, Sample.prover, "9"⟩] := rfl
    have hshares : nameless.promotedBountyShares
      = [⟨"lists", "", zeroAnchor, Sample.prover, "9"⟩] := rfl
    simp only [PersistedBlock.validateShape, PromotedBountyShare.validateShape, bind_eq_ok,
      forM_eq_ok, ensure_eq_ok, hnamed, hshares, List.forall_mem_singleton] at hsample ⊢
    exact hsample
  have hstep' : Replayed Sample.rules { latestC := zeroAnchor }
      { t with creditedBountyProofs := (∅ : BountyProofs).insert ("lists", "", zeroAnchor) } nameless 0
      credits [⟨"lists", "", Sample.prover, "5"⟩] := {
    shape := hshape
    height_eq := hstep.height_eq
    link := hstep.link
    hash := hstep.hash
    evidence := hstep.evidence
    params := hstep.params
    selection := hstep.selection
    proofs := hstep.proofs
    credits_eq := hstep.credits_eq
    settlement := settles_nameless
    bounties := insertFresh_cons.mpr ⟨ExtTreeSet.not_mem_empty, rfl⟩
    head := hstep.head
    books := hstep.books }
  have hreplayed : replayFrom Sample.rules [nameless] = .ok _ :=
    (replayFrom_singleton _ _).trans (replayBlock_eq_ok.mpr ⟨credits, _, hstep'⟩)
  refine ⟨⟨t.latestC, 1, t.balances, t.bountyCreditByFamily⟩, ?_⟩
  simp only [BootConfig.replay, replayBlocksWithGenesis, replayBlocksWithRules, bind_eq_ok, pure_eq_ok]
  exact ⟨_, hnetwork, _, hdifficulty, _, hshare, _, hts, _, hreplayed, rfl⟩

/-- A block that is replayed on top of nothing can be ingested. -/
theorem prepares {b : PersistedBlock} {r : ReplayResult}
    (h : bootConfig.replay Sample.lane Sample.spec [b] = .ok r) :
    ∃ event, prepareIngest started b = .ok event := by
  obtain ⟨t, ht, -⟩ := exists_replays h
  rw [← replayFrom_eq_ok, replayFrom_singleton, replayBlock_eq_ok] at ht
  obtain ⟨credits, bountyCredits, hstep⟩ := ht
  obtain ⟨event, hevent, -⟩ := Replayed.applies hstep
  have hlink : b.prevC = zeroAnchor := hstep.link
  refine ⟨some event, ?_⟩
  simp only [prepareIngest, bind_eq_ok]
  refine ⟨(), rfl, (), ?_, ?_⟩
  · simp only [RuntimeAdmissionState.checkBlockApplicable, bind_eq_ok, ensure_eq_ok]
    exact ⟨zeroAnchor, rfl, (), hlink, hstep.shape⟩
  · exact congrArg (some <$> ·) hevent

theorem held_nameless : Held nameless where
  numbers := by decide
  payloads := by simp [nameless, Sample.block, Sample.evidence]

theorem writes_ingest {b : PersistedBlock} {r : ReplayResult}
    (h : bootConfig.replay Sample.lane Sample.spec [b] = .ok r) : ∃ rest,
      (RuntimeCall.ingest .sound b).writes Sample.lane started = .appendBlock b :: rest ∧
      (RuntimeCall.ingest .sound b).blocks Sample.lane started = [b] := by
  obtain ⟨event, hevent⟩ := prepares h
  obtain ⟨rest, hrest, haside⟩ := publishWrites_eq started b event
  have hwrites : (RuntimeCall.ingest .sound b).writes Sample.lane started = .appendBlock b :: rest := by
    simp only [RuntimeCall.writes, hevent, hrest]
  have hnone : rest.flatMap StoreWrite.blocks = [] :=
    List.flatMap_eq_nil_iff.mpr fun w hw => (haside w hw).2.blocks_eq_nil
  exact ⟨rest, hwrites, by rw [RuntimeCall.blocks, hwrites, List.flatMap_cons, hnone]; rfl⟩

end BootSample

open BootSample

theorem named_sample : Named Sample.block := by
  simp [Named, Sample.block]

end Node
