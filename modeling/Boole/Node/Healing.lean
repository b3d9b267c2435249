import Boole.Node.Stores

/-!
# Node/Healing — boot brings the ledgers up to the blocks

The block store decides.  Whatever the reward file holds, and whatever checked rows the bounty file
holds, **a boot over a replayed chain succeeds and gives the runtime of that chain** (`boot_eq_ok`),
as long as the rows that the blocks give pass the check of the bounty ledger:

    bounty file ──rows of requests──┐
                                    ├──▸ rebuilt ──every row checked──▸ bounty file
    blocks ──projected rows─────────┘

Replay does not ask that a promoted share names its bounty; the check of the rows does
(`Replayed.rowsPass`).
-/

open Std Library Library.Json
open Native (Hex32)
open Core

namespace Node

/-! ## Rows that the blocks give -/

/-- Every promoted share of a block names its family and its bounty. -/
def Named (block : PersistedBlock) : Prop :=
  ∀ share ∈ block.promotedBountyShares, share.familyId ≠ "" ∧ share.bountyId ≠ ""

/-- Every row that the blocks give passes the check of the bounty ledger. -/
def RowsPass (registry : FamilyManifestRegistry) (blocks : List PersistedBlock) : Prop :=
  ∀ b ∈ blocks, ∀ row, Projected registry b row → validateBountyLedgerEvent row = .ok ()

theorem validateShape_isHex32 {b : PersistedBlock} (h : b.validateShape = .ok ()) :
    isHex32 b.c ∧ ∀ share ∈ b.promotedBountyShares,
      isHex32 share.proofHash ∧ isHex32 share.prover := by
  have hok {value : String} {x : Hex32} (hx : Hex32.fromHex value = .ok x) : isHex32 value := by
    rw [isHex32, hx]
    rfl
  simp only [PersistedBlock.validateShape, bind_eq_ok, forM_eq_ok, allHex32_eq_ok,
    PromotedBountyShare.validateShape, parseHex32, mapErr_eq_ok] at h
  obtain ⟨_, hdigests, _, _, _, _, _, _, _, _, _, _, _, _, _, _, _, _, _, _, hshares⟩ := h
  obtain ⟨x, hx⟩ := hdigests b.c (by simp)
  refine ⟨hok hx, fun share hshare => ?_⟩
  obtain ⟨_, hproof, _, hprover, _⟩ := hshares share hshare
  exact ⟨hok hproof, hok hprover⟩

/-- **The rows of a replayed block pass the check,** if its promoted shares are named. -/
theorem Replayed.rowsPass {rules : ReplayRules} {s s' : ReplayState} {block : PersistedBlock}
    {height : ℕ} {credits : List PersistedCredit} {bountyCredits : List PromotedBountyCredit}
    (h : Replayed rules s s' block height credits bountyCredits) (hnamed : Named block)
    (hheight : block.height < 2 ^ 64) {row : Value} (hrow : Projected rules.registry block row) :
    validateBountyLedgerEvent row = .ok () := by
  obtain ⟨hc, hshares⟩ := validateShape_isHex32 h.shape
  obtain ⟨paid, promoted, hevents, hrow⟩ := hrow
  simp only [deriveBountyEvents, h.settlement] at hevents
  obtain ⟨rfl, rfl⟩ := hevents
  rcases List.mem_append.mp hrow with hrow | hrow
  · obtain ⟨credit, hcredit, rfl⟩ := List.mem_map.mp hrow
    obtain ⟨share, hshare, hfamily, hbounty, hprover⟩ := settle_mem h.settlement hcredit
    obtain ⟨hpos, hread⟩ := settle_pos h.settlement hcredit
    refine validate_creditEvent hheight hc (hfamily ▸ (hnamed share hshare).1)
      (hbounty ▸ (hnamed share hshare).2) (hprover ▸ (hshares share hshare).2) ?_
    rw [parseU128, okOr_eq_ok] at hread
    simp [hread]
  · obtain ⟨share, hshare, rfl⟩ := List.mem_map.mp hrow
    exact validate_sharePromotedEvent hheight (hnamed share hshare).1 (hnamed share hshare).2
      (hshares share hshare).1 (hshares share hshare).2

/-- The rows of a block carry its height, which the check bounds. -/
theorem Projected.height_lt {registry : FamilyManifestRegistry} {block : PersistedBlock}
    {row : Value} (h : Projected registry block row) (hrow : validateBountyLedgerEvent row = .ok ()) :
    block.height < 2 ^ 64 := by
  have hbound (hread : (jsonNat block.height).asU64 ≠ none) : block.height < 2 ^ 64 := by
    simp only [Value.asU64, jsonNat, Number.ofNat, Nat.ofDigitChars_ten_toDigits] at hread
    split_ifs at hread with hdigits
    exacts [hdigits.2, absurd rfl hread]
  obtain ⟨paid, promoted, hevents, hmem⟩ := h
  simp only [deriveBountyEvents, bind_eq_ok] at hevents
  obtain ⟨credits, -, rfl, rfl⟩ := hevents
  rcases List.mem_append.mp hmem with hmem | hmem
  all_goals
    obtain ⟨_, -, rfl⟩ := List.mem_map.mp hmem
    simp only [validateBountyLedgerEvent, bind_eq_ok, ensure_eq_ok] at hrow
    obtain ⟨_, _, _, _, hkind⟩ := hrow
  · have hkind : validateCredit (creditEvent block _) = .ok () := hkind
    simp only [validateCredit, bind_eq_ok, ensure_eq_ok] at hkind
    obtain ⟨_, hheight, _⟩ := hkind
    exact hbound hheight
  · have hkind : validateSharePromoted (sharePromotedEvent block _) = .ok () := hkind
    simp only [validateSharePromoted, bind_eq_ok, ensure_eq_ok] at hkind
    obtain ⟨_, hheight, _⟩ := hkind
    exact hbound hheight

/-- The rows that the blocks give are values the parser can hold. -/
theorem Projected.canonical {registry : FamilyManifestRegistry} {block : PersistedBlock}
    {row : Value} (h : Projected registry block row) (hheight : block.height < 2 ^ 64) :
    row.Canonical := by
  obtain ⟨paid, promoted, hevents, hrow⟩ := h
  simp only [deriveBountyEvents, bind_eq_ok] at hevents
  obtain ⟨credits, -, rfl, rfl⟩ := hevents
  rcases List.mem_append.mp hrow with hrow | hrow
  all_goals
    obtain ⟨_, -, rfl⟩ := List.mem_map.mp hrow
    refine .object (by simp only [List.map_cons]; decide) ?_
    simp only [List.map_cons, List.map_nil, List.forall_mem_cons, List.not_mem_nil,
      IsEmpty.forall_iff, implies_true, and_true]
  · exact ⟨.string _, .string _, .string _, .string _, .nat hheight, .string _, .string _,
      .nat (by decide)⟩
  · exact ⟨.string _, .string _, .nat hheight, .string _, .string _, .string _, .nat (by decide)⟩

/-! ## Boot brings the files up to the blocks -/

section Heal

variable {lc : LaneCrypto} {codec : StoreCodec} {boot : BootConfig} {rules : ReplayRules}
  {blocks : List PersistedBlock} {s : ReplayState} {file : Option (List UInt8)}
  {present : Option (List Value)}

open FileBountyEventLedger

/-- The rows that are read pass the check. -/
theorem valid_of_readFile (h : readFile codec file = .ok present) :
    ∀ row ∈ present.getD [], validateBountyLedgerEvent row = .ok () ∧
      ∃ line, codec.parseEvent line = .ok row := by
  intro row hrow
  cases file with
  | none =>
    obtain rfl : none = present := by simpa [readFile] using h
    simp at hrow
  | some bytes =>
    obtain ⟨rows, rfl, hlogged, hvalid⟩ := readFile_some_eq_ok.mp h
    exact ⟨hvalid row hrow, hlogged.exists_line hrow⟩

theorem recover_of_valid {rows : List Value}
    (h : ∀ row ∈ rows, validateBountyLedgerEvent row = .ok ()) : recover rows = .ok rows :=
  recover_eq_ok.mpr ⟨h, rfl⟩

/-- **A readable bounty file is brought up to a replayed chain whose rows pass the check,** and the
file that boot leaves reads back. -/
theorem healBounties_eq_ok (hcodec : codec.Lawful) (hs : Replays rules blocks s)
    (hregistry : rules.registry = boot.familyRegistry) (hread : readFile codec file = .ok present)
    (hpass : RowsPass boot.familyRegistry blocks) :
    ∃ rows file', bootBountyLedger present blocks boot.familyRegistry = .ok rows ∧
      boot.healBounties codec file blocks = .ok file' ∧ readFile codec file' = .ok rows := by
  have hold := valid_of_readFile hread
  obtain ⟨rebuilt, hrebuilt, -⟩ := Replays.bountyLedger hs (present.getD [])
  rw [hregistry] at hrebuilt
  have hmem := mem_rebuildBountyLedgerRows hrebuilt
  -- Every row of the rebuilt ledger passes the check and reads back.
  have hnew (row : Value) (hrow : row ∈ rebuilt) : validateBountyLedgerEvent row = .ok () ∧
      codec.parseEvent row.print = .ok row := by
    rcases (hmem row).mp hrow with hrow | ⟨b, hb, hrow⟩
    · obtain ⟨hvalid, line, hline⟩ := hold row (List.mem_filter.mp hrow).1
      exact ⟨hvalid, hcodec.parseEvent_again line row hline⟩
    · have hvalid := hpass b hb row hrow
      exact ⟨hvalid, hcodec.parseEvent_print row (hrow.canonical (hrow.height_lt hvalid))⟩
  have hpresent : present.elim (pure []) recover = .ok (present.getD []) := by
    cases present with
    | none => rfl
    | some rows => exact recover_of_valid fun row hrow => (hold row hrow).1
  have hwrite : rewriteAtomic rebuilt = .ok rebuilt :=
    rewriteAtomic_eq_ok.mpr (recover_of_valid fun row hrow => (hnew row hrow).1)
  have hboot : bootBountyLedger present blocks boot.familyRegistry =
      .ok (if present.getD [] = rebuilt then present else some rebuilt) := by
    simp only [bootBountyLedger, hpresent, hrebuilt, ok_bind]
    split_ifs
    · rfl
    · rw [hwrite]
      rfl
  refine ⟨_, _, hboot, by simp only [BootConfig.healBounties, hread, hboot, ok_bind]; rfl, ?_⟩
  by_cases hsame : (if present.getD [] = rebuilt then present else some rebuilt) = present
  · rw [if_pos hsame, hsame]
    cases file with
    | none => exact hread
    | some bytes =>
      obtain ⟨rows, rfl, hlogged, hvalid⟩ := readFile_some_eq_ok.mp hread
      exact readFile_some_eq_ok.mpr ⟨rows, rfl, hlogged.stablePrefix.1, hvalid⟩
  · split_ifs at hsame ⊢
    · exact absurd rfl hsame
    · exact readFile_some_eq_ok.mpr ⟨rebuilt, rfl,
        (logged_writeLines fun row hrow => (hnew row hrow).2).1, fun row hrow => (hnew row hrow).1⟩

/-- The file that boot leaves ends where a row ends, and the rows of the chain pass the check. -/
theorem of_healBounties {file' : Option (List UInt8)}
    (h : boot.healBounties codec file blocks = .ok file') :
    (∀ bytes ∈ file', Stable bytes) ∧ RowsPass boot.familyRegistry blocks ∧
      ∃ present, readFile codec file = .ok present := by
  simp only [BootConfig.healBounties, bind_eq_ok, pure_eq_ok] at h
  obtain ⟨present, hread, rows, hboot, rfl⟩ := h
  refine ⟨?_, ?_, present, hread⟩
  · split_ifs
    · cases file with
      | none => simp
      | some bytes =>
        obtain ⟨_, _, hlogged, _⟩ := readFile_some_eq_ok.mp hread
        simpa using hlogged.stablePrefix.2
    · cases rows with
      | none => simp
      | some rows => simpa using ⟨_, rfl, terminated_terminate _⟩
  · obtain ⟨was, hrebuilt, hchecked⟩ := bootBountyLedger_eq_ok hboot
    intro b hb row hrow
    have hmem := (mem_rebuildBountyLedgerRows hrebuilt row).mpr (.inr ⟨b, hb, hrow⟩)
    cases rows with
    | none => simp at hmem
    | some rows => exact (recover_eq_ok.mp (hchecked rows rfl)).1 row hmem

end Heal

/-! ## Booting -/

/-- The replay of a node with a genesis. -/
def BootConfig.replay (lc : LaneCrypto) (boot : BootConfig) (genesis : GenesisSpec)
    (blocks : List PersistedBlock) : Result ReplayResult :=
  replayBlocksWithGenesis lc blocks genesis boot.familyRegistry boot.authorizationNetworkId

/-- The runtime has the families, the genesis and the network it was booted with. -/
structure Contract (boot : BootConfig) (s : RuntimeAdmissionState) : Prop where
  registry : s.familyRegistry = boot.familyRegistry
  genesis : s.bootGenesis = boot.genesis
  network : s.authorizationNetworkId = boot.authorizationNetworkId

/-- **A runtime as the blocks of a chain give it:** the head and the balances are the replayed ones,
and the events are the derived ones. -/
structure Booted (lc : LaneCrypto) (boot : BootConfig) (genesis : GenesisSpec)
    (blocks : List PersistedBlock) (s : RuntimeAdmissionState) : Prop where
  cache : s.blockCache = blocks
  derived : ∃ r, boot.replay lc genesis blocks = .ok r ∧ s.currentC = some r.latestC ∧
    if boot.rewardPath then ∃ events, blocks.mapM (deriveRewardEvent boot.familyRegistry) = .ok events ∧
      s.rewardLedger = some ⟨events, r.balances⟩
    else s.rewardLedger = none

/-- **The files hold a chain:** what boot needs of them. -/
structure Holds (codec : StoreCodec) (boot : BootConfig) (stores : Stores)
    (blocks : List PersistedBlock) : Prop where
  blocks : Logged codec.parseBlock stores.blocks blocks
  bounties : boot.bountyPath = true →
    ∃ present, FileBountyEventLedger.readFile codec stores.bounties = .ok present

/-- A chain that boot takes. -/
structure Bootable (lc : LaneCrypto) (boot : BootConfig) (genesis : GenesisSpec)
    (blocks : List PersistedBlock) : Prop where
  replays : ∃ r, boot.replay lc genesis blocks = .ok r
  rows : boot.bountyPath = true → RowsPass boot.familyRegistry blocks

section Boot

variable {lc : LaneCrypto} {codec : StoreCodec} {boot : BootConfig} {genesis : GenesisSpec}
  {blocks : List PersistedBlock} {stores stores' : Stores} {r : ReplayResult}
  {s : RuntimeAdmissionState}

open BootConfig

theorem replayUnderBootContract_initial (hgenesis : boot.genesis = some genesis) :
    boot.initial.replayUnderBootContract lc blocks = boot.replay lc genesis blocks := by
  simp [RuntimeAdmissionState.replayUnderBootContract, initial, hgenesis, replay]

theorem exists_replays (h : boot.replay lc genesis blocks = .ok r) :
    ∃ t, Replays (genesis.rules lc boot.familyRegistry boot.authorizationNetworkId) blocks t ∧
      r = ⟨t.latestC, blocks.length, t.balances, t.bountyCreditByFamily⟩ :=
  replayBlocksWithRules_eq_ok (replayBlocksWithGenesis_eq_ok h)

/-- The reward ledger comes up whatever its file holds. -/
theorem bootRewards_eq_ok (hreplay : boot.replay lc genesis blocks = .ok r)
    {present rows : Option (List Value)}
    (hboot : boot.bountyPath = true → bootBountyLedger present blocks boot.familyRegistry = .ok rows)
    (hread : boot.bountyPath = true →
      FileBountyEventLedger.readFile codec stores.bounties = .ok rows) :
    ∃ ledger rewards, boot.bootRewards codec stores blocks r = .ok (ledger, rewards) ∧
      if boot.rewardPath then
        ∃ events, blocks.mapM (deriveRewardEvent boot.familyRegistry) = .ok events ∧
          ledger = some ⟨events, r.balances⟩
      else ledger = none := by
  obtain ⟨t, ht, rfl⟩ := exists_replays hreplay
  rw [bootRewards]
  cases hpath : boot.rewardPath with
  | false => exact ⟨none, stores.rewards, rfl, rfl⟩
  | true =>
    obtain ⟨events, hevents, hledger⟩ := Replays.bootRewardLedger ht
      (stores.rewards.bind fun bytes => (FileRewardLedger.readRows codec bytes).toOption)
    have hheal : ∃ rewards, boot.healRewards codec stores.rewards blocks
        = .ok (⟨events, t.balances⟩, rewards) := by
      simp only [healRewards, bind_eq_ok, pure_eq_ok, Prod.mk.injEq]
      exact ⟨_, _, hledger, rfl, rfl⟩
    obtain ⟨rewards, hheal⟩ := hheal
    refine ⟨some ⟨events, t.balances⟩, rewards, ?_, events, hevents, rfl⟩
    simp only [hheal]
    cases hbounty : boot.bountyPath with
    | false => simp [readBounties, hbounty, verifyLedgerMatchesReplay, checkBooks_self]
    | true =>
      have hverify := Replays.verifyLedger ht (hboot hbounty) events
      simp [readBounties, hbounty, hread hbounty, hverify]

/-- **A boot over files that hold a bootable chain succeeds,** and gives the runtime of that
chain. -/
theorem boot_eq_ok (hcodec : codec.Lawful) (hgenesis : boot.genesis = some genesis)
    (hroot : boot.checkRoot = .ok ()) (hholds : Holds codec boot stores blocks)
    (hchain : Bootable lc boot genesis blocks) :
    ∃ s stores', boot.bootFromStoreInner lc codec stores = .ok (s, stores') ∧ Contract boot s ∧
      Booted lc boot genesis blocks s := by
  obtain ⟨r, hreplay⟩ := hchain.replays
  obtain ⟨t, ht, -⟩ := exists_replays hreplay
  have hrecover : FileBlockStore.recover codec stores.blocks = .ok blocks :=
    FileBlockStore.recover_eq_ok.mpr ⟨hholds.blocks, .of_replays ht⟩
  have hheal : ∃ file', boot.bootBounties codec stores.bounties blocks = .ok file' ∧
      ∃ present rows, boot.bountyPath = true →
        bootBountyLedger present blocks boot.familyRegistry = .ok rows ∧
          FileBountyEventLedger.readFile codec file' = .ok rows := by
    rw [bootBounties]
    cases hpath : boot.bountyPath with
    | false => exact ⟨stores.bounties, rfl, none, none, by simp⟩
    | true =>
      obtain ⟨present, hpresent⟩ := hholds.bounties hpath
      obtain ⟨rows, file', hboot, hfile, hread⟩ :=
        healBounties_eq_ok hcodec ht rfl hpresent (hchain.rows hpath)
      exact ⟨file', hfile, present, rows, fun _ => ⟨hboot, hread⟩⟩
  obtain ⟨file', hfile, present, rows, hrows⟩ := hheal
  have hread (h : boot.bountyPath = true) : FileBountyEventLedger.readFile codec
      (⟨stablePrefix stores.blocks, stores.rewards, file'⟩ : Stores).bounties = .ok rows :=
    (hrows h).2
  obtain ⟨ledger, rewards, hrewards, hledger⟩ :=
    bootRewards_eq_ok hreplay (fun h => (hrows h).1) hread
  refine ⟨boot.ready blocks r.latestC ledger, ⟨stablePrefix stores.blocks, rewards, file'⟩, ?_,
    ⟨rfl, rfl, rfl⟩, rfl, r, hreplay, rfl, hledger⟩
  simp only [bootFromStoreInner, hroot, hrecover, replayUnderBootContract_initial hgenesis, hreplay,
    hfile, hrewards, ok_bind]
  rfl

/-- **Files that a boot left.** -/
structure Clean (codec : StoreCodec) (boot : BootConfig) (stores : Stores)
    (blocks : List PersistedBlock) : Prop extends Holds codec boot stores blocks where
  blocksStable : Stable stores.blocks
  bountiesStable : boot.bountyPath = true → ∀ bytes ∈ stores.bounties, Stable bytes

/-- What a boot that succeeded leaves. -/
theorem of_boot_eq_ok (hcodec : codec.Lawful) (hgenesis : boot.genesis = some genesis)
    (h : boot.bootFromStoreInner lc codec stores = .ok (s, stores')) :
    boot.checkRoot = .ok () ∧ ∃ blocks, Bootable lc boot genesis blocks ∧
      Clean codec boot stores' blocks ∧ Contract boot s ∧ Booted lc boot genesis blocks s := by
  have hboot := h
  simp only [bootFromStoreInner, bind_eq_ok] at h
  obtain ⟨_, hroot, blocks, hrecover, r, hreplay, file', hfile, ⟨ledger, rewards⟩, hrewards, rfl,
    rfl⟩ := h
  rw [replayUnderBootContract_initial hgenesis] at hreplay
  obtain ⟨t, ht, -⟩ := exists_replays hreplay
  obtain ⟨hlogged, hlinked⟩ := FileBlockStore.recover_eq_ok.mp hrecover
  have hbounties (hpath : boot.bountyPath = true) := by
    rw [bootBounties, if_pos hpath] at hfile
    exact And.intro hfile (of_healBounties hfile)
  have hchain : Bootable lc boot genesis blocks :=
    ⟨⟨r, hreplay⟩, fun hpath => (hbounties hpath).2.2.1⟩
  have hholds : Holds codec boot stores blocks := ⟨hlogged, fun hpath => (hbounties hpath).2.2.2⟩
  obtain ⟨s', stores'', hboot', hcontract, hbooted⟩ :=
    boot_eq_ok hcodec hgenesis hroot hholds hchain
  obtain ⟨rfl, -⟩ := Prod.mk.inj (Except.ok.inj (hboot.symm.trans hboot'))
  refine ⟨hroot, blocks, hchain, ⟨⟨hlogged.stablePrefix.1, fun hpath => ?_⟩,
    hlogged.stablePrefix.2, fun hpath => (hbounties hpath).2.1⟩, hcontract, hbooted⟩
  obtain ⟨hfile, -, hpass, present, hread⟩ := hbounties hpath
  obtain ⟨rows, file'', -, hfile', hread'⟩ := healBounties_eq_ok hcodec ht rfl hread hpass
  obtain rfl := Except.ok.inj (hfile'.symm.trans hfile)
  exact ⟨rows, hread'⟩

end Boot

end Node
