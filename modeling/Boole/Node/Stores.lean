import Boole.Library.LineLog
import Boole.Node.Runtime

/-!
# Node/Stores — the files of a node, and booting from them

`boole-node`'s `block_store.rs`, the file side of `reward_store.rs` and `bounty_event_store.rs`, and
`boot_from_store_inner` of `runtime.rs`.  Three logs, one record to a line:

    blocks    read, checked and replayed; what they say is the chain
    bounties  read and checked; rewritten if they are not what the blocks give
    rewards   read if readable; rewritten if they are not what the blocks give

A read cuts a torn last line off.  `serde_json` is not part of the repository, so a boot is given
readers for the three kinds of lines (`StoreCodec`).
-/

open Std Library Library.Json
open Core

namespace Node

open Value

variable {blocks : List PersistedBlock} {rows : List Value} {key : String}

/-! ## Records as JSON -/

/-- A field that is left out if it has its default. -/
def fieldUnless (isDefault : Prop) [Decidable isDefault] (key : String) (value : Value) :
    List (String × Value) := if isDefault then [] else [(key, value)]

def workAuthorizationJson (auth : ShareWorkAuthorization) : Value :=
  .object ([("schema", .string auth.schema), ("payload", auth.payload), ("pk", .string auth.pk),
    ("signature", .string auth.signature)] ++
    auth.networkId.elim [] fun network => [("networkId", .string network)])

def evidenceJson (evidence : SelectedShareEvidence) : Value :=
  .object ([("pk", .string evidence.pk), ("n", .string evidence.n), ("j", .string evidence.j),
    ("c", .string evidence.c), ("canonHash", .string evidence.canonHash),
    ("proofPackage", .string evidence.proofPackage)] ++
    fieldUnless (evidence.seedHex = "") "seedHex" (.string evidence.seedHex) ++
    evidence.signedWork.elim [] fun auth => [("signedWork", workAuthorizationJson auth)])

def blockJson (block : PersistedBlock) : Value :=
  .object ([("height", jsonNat block.height), ("prevC", .string block.prevC), ("c", .string block.c),
    ("proposerPk", .string block.proposerPk),
    ("selectedShareHashes", jsonStrings block.selectedShareHashes),
    ("selectedSharePks", jsonStrings block.selectedSharePks)] ++
    fieldUnless (block.selectedShareRewardPks = []) "selectedShareRewardPks"
      (jsonStrings block.selectedShareRewardPks) ++
    fieldUnless (block.proposerRewardPk = "") "proposerRewardPk" (.string block.proposerRewardPk) ++
    fieldUnless (block.selectedShareEvidence = []) "selectedShareEvidence"
      (.array (block.selectedShareEvidence.map evidenceJson)) ++
    [("minShareScore", .string block.minShareScore)] ++
    fieldUnless (block.minShareScoreMultiplierNanos = 0) "minShareScoreMultiplierNanos"
      (jsonNat block.minShareScoreMultiplierNanos) ++
    [("kmaxApplied", jsonNat block.kmaxApplied), ("difficultyEpoch", jsonNat block.difficultyEpoch),
    ("tBlock", .string block.tBlock), ("tShare", .string block.tShare),
    ("difficultyWeight", .string block.difficultyWeight),
    ("droppedBelowMinScore", jsonNat block.droppedBelowMinScore),
    ("droppedKernelReject", jsonNat block.droppedKernelReject),
    ("truncatedByKmax", jsonNat block.truncatedByKmax), ("ts", jsonNat block.ts)] ++
    fieldUnless (block.promotedBountyShares = []) "promotedBountyShares"
      (.array (block.promotedBountyShares.map PromotedBountyShare.toJson)))

def creditJson (credit : PersistedCredit) : Value :=
  .object [("pk", .string credit.pk), ("amount", .string credit.amount)]

def rewardEventJson (event : PersistedRewardEvent) : Value :=
  .object [("height", jsonNat event.height), ("c", .string event.c),
    ("credits", .array (event.credits.map creditJson))]

/-- The numbers of a block are machine integers, and what was signed is a value of the parser. -/
structure Held (block : PersistedBlock) : Prop where
  numbers : ∀ n ∈ [block.height, block.minShareScoreMultiplierNanos, block.kmaxApplied,
    block.difficultyEpoch, block.droppedBelowMinScore, block.droppedKernelReject,
    block.truncatedByKmax, block.ts], n < 2 ^ 64
  payloads : ∀ evidence ∈ block.selectedShareEvidence, ∀ auth ∈ evidence.signedWork,
    auth.payload.Canonical

/-- `serde_json::from_str` at the types of the three logs. -/
structure StoreCodec where
  parseBlock : List Char → Except String PersistedBlock
  parseReward : List Char → Except String PersistedRewardEvent
  parseEvent : List Char → Except String Value

/-- Reading back what was written gives the record that was written, and what was read once can be
written and read again. -/
structure StoreCodec.Lawful (codec : StoreCodec) : Prop where
  parseBlock_print : ∀ b, Held b → codec.parseBlock (blockJson b).print = .ok b
  parseEvent_print : ∀ v : Value, v.Canonical → codec.parseEvent v.print = .ok v
  parseEvent_again : ∀ line v, codec.parseEvent line = .ok v → codec.parseEvent v.print = .ok v

/-! ## Files -/

/-- The bytes of the three logs.  A block log that is not there is an empty one; the other two are
asked for whether they are there. -/
structure Stores where
  blocks : List UInt8 := []
  rewards : Option (List UInt8) := none
  bounties : Option (List UInt8) := none

/-- The text of a log without its torn tail. -/
def readStablePrefix (bytes : List UInt8) : Result (List Char) :=
  okOr (fromUtf8 (stablePrefix bytes)) "invalid utf-8 sequence"

variable (codec : StoreCodec)

/-- Read one block: it follows the blocks before it. -/
def FileBlockStore.parseLine (blocks : List PersistedBlock) (entry : List Char × ℕ) :
    Result (List PersistedBlock) := do
  let line := entry.2 + 1
  let block ← mapErr (fun err => s!"blockStore: line {line} invalid JSON: {err}")
    (codec.parseBlock entry.1)
  block.validateShape
  ensure (block.height = entry.2)
    s!"blockStore: line {line} has height {block.height}, expected {entry.2}"
  let prevC := (blocks.getLast?.map PersistedBlock.c).getD block.prevC
  ensure (block.prevC = prevC)
    s!"blockStore: line {line} prevC {block.prevC} does not match previous c {prevC}"
  pure (blocks ++ [block])

def FileBlockStore.recover (bytes : List UInt8) : Result (List PersistedBlock) := do
  let raw ← readStablePrefix bytes
  (recordLines raw).zipIdx.foldlM (parseLine codec) []

/-- The rows of a reward file. -/
def FileRewardLedger.readRows (bytes : List UInt8) : Result (List PersistedRewardEvent) := do
  let raw ← readStablePrefix bytes
  (recordLines raw).mapM fun line =>
    mapErr (fun err => s!"rewardLedger: invalid JSON: {err}") (codec.parseReward line)

namespace FileBountyEventLedger

def parseLine (entry : List Char × ℕ) : Result Value := do
  let line := entry.2 + 1
  let event ← mapErr (fun err => s!"bountyEventLedger: line {line} invalid JSON: {err}")
    (codec.parseEvent entry.1)
  mapErr (fun err => s!"bountyEventLedger: line {line} schema invalid: {err}")
    (validateBountyLedgerEvent event)
  pure event

/-- The rows of a bounty file. -/
def readRows (bytes : List UInt8) : Result (List Value) := do
  let raw ← readStablePrefix bytes
  (recordLines raw).zipIdx.mapM (parseLine codec)

/-- The rows of a bounty file, if it is there. -/
def readFile (file : Option (List UInt8)) : Result (Option (List Value)) :=
  file.elim (pure none) fun bytes => do
    let rows ← readRows codec bytes
    pure (some rows)

end FileBountyEventLedger

/-- `write_ndjson_lines_atomic` -/
def writeLines (rows : List Value) : List UInt8 := utf8 (terminate (rows.map Value.print))

/-! ## Booting -/

/-- What a node is booted with.  The root is the one its registry derives. -/
structure BootConfig where
  config : RuntimeConfig
  rewardPath : Bool
  bountyPath : Bool
  familyRegistry : FamilyManifestRegistry
  registryRoot : String
  genesis : Option GenesisSpec
  authorizationNetworkId : Option String

namespace BootConfig

variable (lc : LaneCrypto) (codec : StoreCodec) (boot : BootConfig)

/-- A genesis that pins the families must pin the ones at hand. -/
def checkRoot : Result Unit :=
  match boot.genesis with
  | none => pure ()
  | some genesis => genesis.params.familyManifestRoot.elim (pure ()) fun expectedRoot =>
    ensure (boot.registryRoot = expectedRoot)
      s!"family manifest root mismatch for network {genesis.networkId}: genesis pins {expectedRoot}, local registry derives {boot.registryRoot} — refusing to boot"

/-- The runtime before the chain is known. -/
def initial : RuntimeAdmissionState :=
  { RuntimeAdmissionState.new boot.config with
    familyRegistry := boot.familyRegistry
    bootGenesis := boot.genesis
    authorizationNetworkId := boot.authorizationNetworkId }

variable (file : Option (List UInt8))

/-- The bounty file after boot brought it up to the blocks. -/
def healBounties (blocks : List PersistedBlock) : Result (Option (List UInt8)) := do
  let present ← FileBountyEventLedger.readFile codec file
  let rows ← bootBountyLedger present blocks boot.familyRegistry
  pure (if rows = present then file.map stablePrefix else rows.map writeLines)

/-- The bounty file after boot, where one is configured. -/
def bootBounties (blocks : List PersistedBlock) : Result (Option (List UInt8)) :=
  if boot.bountyPath then boot.healBounties codec file blocks else pure file

/-- The bounty file that the reward ledger is compared with, where one is configured. -/
def readBounties : Result (Option (Option (List Value))) :=
  if boot.bountyPath then some <$> FileBountyEventLedger.readFile codec file else pure none

/-- The reward ledger after boot brought it up to the blocks, and its file.  A file that cannot be
read is written anew. -/
def healRewards (blocks : List PersistedBlock) :
    Result (FileRewardLedger × Option (List UInt8)) := do
  let present := file.bind fun bytes => (FileRewardLedger.readRows codec bytes).toOption
  let ledger ← bootRewardLedger present blocks boot.familyRegistry
  let read := present.bind fun rows => (FileRewardLedger.recover rows).toOption
  pure (ledger, if read.map FileRewardLedger.events = some ledger.events then file.map stablePrefix
    else some (writeLines (ledger.events.map rewardEventJson)))

/-- The reward ledger, where one is configured, checked against the replay. -/
def bootRewards (stores : Stores) (blocks : List PersistedBlock) (replay : ReplayResult) :
    Result (Option FileRewardLedger × Option (List UInt8)) :=
  if boot.rewardPath then do
    let (ledger, rewards) ← boot.healRewards codec stores.rewards blocks
    let bountyFile ← boot.readBounties codec stores.bounties
    verifyLedgerMatchesReplay ledger replay.balances bountyFile replay.bountyCreditByFamily
    pure (some ledger, rewards)
  else pure (none, stores.rewards)

/-- The runtime at the head of the replayed chain. -/
def ready (blocks : List PersistedBlock) (latestC : String)
    (rewardLedger : Option FileRewardLedger) : RuntimeAdmissionState :=
  { { boot.initial with rewardLedger }.setCurrentC latestC with blockCache := blocks }

def bootFromStoreInner (stores : Stores) : Result (RuntimeAdmissionState × Stores) := do
  boot.checkRoot
  let blocks ← FileBlockStore.recover codec stores.blocks
  let replay ← boot.initial.replayUnderBootContract lc blocks
  let bounties ← boot.bootBounties codec stores.bounties blocks
  let stores := { stores with blocks := stablePrefix stores.blocks, bounties }
  let (rewardLedger, rewards) ← boot.bootRewards codec stores blocks replay
  pure (boot.ready blocks replay.latestC rewardLedger, { stores with rewards })

end BootConfig

/-! ## What a read finds -/

/-- Blocks that follow one another, as far as the store checks it. -/
inductive Linked : List PersistedBlock → Prop
  | nil : Linked []
  | snoc {blocks : List PersistedBlock} {block : PersistedBlock} (prior : Linked blocks)
      (shape : block.validateShape = .ok ()) (height : block.height = blocks.length)
      (link : ∀ last ∈ blocks.getLast?, block.prevC = last.c) : Linked (blocks ++ [block])

theorem Linked.of_replays {rules : ReplayRules} {s : ReplayState} (h : Replays rules blocks s) :
    Linked blocks := by
  induction h with
  | nil => exact .nil
  | snoc prior step ih =>
    refine ih.snoc step.shape step.height_eq fun last hlast => ?_
    cases prior with
    | nil => simp at hlast
    | snoc _ before =>
      obtain rfl : _ = last := by simpa using hlast
      rw [step.link, before.head]

section Read

variable {codec : StoreCodec} {bytes : List UInt8}

theorem readStablePrefix_eq_ok {raw : List Char} :
    readStablePrefix bytes = .ok raw ↔ fromUtf8 (stablePrefix bytes) = some raw := okOr_eq_ok

/-- One more line is one more block that follows. -/
theorem FileBlockStore.parseLine_eq_ok {blocks' : List PersistedBlock} {line : List Char} :
    parseLine codec blocks (line, blocks.length) = .ok blocks' ↔
      ∃ block, codec.parseBlock line = .ok block ∧ block.validateShape = .ok () ∧
        block.height = blocks.length ∧ (∀ last ∈ blocks.getLast?, block.prevC = last.c) ∧
        blocks ++ [block] = blocks' := by
  simp only [parseLine, bind_eq_ok, mapErr_eq_ok, ensure_eq_ok, pure_eq_ok]
  have hlink (block : PersistedBlock) :
      block.prevC = (blocks.getLast?.map PersistedBlock.c).getD block.prevC ↔
        ∀ last ∈ blocks.getLast?, block.prevC = last.c := by
    cases blocks.getLast? <;> simp
  simp only [hlink]
  tauto

theorem FileBlockStore.parse_eq_ok {ls : List (List Char)} :
    ls.zipIdx.foldlM (parseLine codec) [] = .ok blocks ↔
      ls.map codec.parseBlock = blocks.map .ok ∧ Linked blocks := by
  induction ls using List.reverseRecOn generalizing blocks with
  | nil =>
    simp only [List.zipIdx_nil, List.foldlM_nil, pure_eq_ok]
    constructor
    · rintro rfl
      exact ⟨rfl, .nil⟩
    · rintro ⟨hmap, -⟩
      simpa using hmap
  | append_singleton ls line ih =>
    have hlast : [line].zipIdx (0 + ls.length) = [(line, ls.length)] := by simp
    rw [List.zipIdx_append, hlast, List.foldlM_append, bind_eq_ok]
    simp only [ih, List.foldlM_cons, List.foldlM_nil, bind_pure]
    constructor
    · rintro ⟨prior, ⟨hmap, hlinked⟩, hline⟩
      have hlength : ls.length = prior.length := by simpa using congrArg List.length hmap
      rw [hlength] at hline
      obtain ⟨block, hparse, hshape, hheight, hlink, rfl⟩ := parseLine_eq_ok.mp hline
      exact ⟨by simp [hmap, hparse], hlinked.snoc hshape hheight hlink⟩
    · rintro ⟨hmap, hlinked⟩
      cases hlinked with
      | nil => simp at hmap
      | @snoc prior block hprior hshape hheight hlink =>
        rw [List.map_append, List.map_append] at hmap
        obtain ⟨hmap, hparse⟩ := List.append_inj' hmap rfl
        have hlength : ls.length = prior.length := by simpa using congrArg List.length hmap
        rw [hlength]
        exact ⟨prior, ⟨hmap, hprior⟩, parseLine_eq_ok.mpr
          ⟨block, by simpa using hparse, hshape, hheight, hlink, rfl⟩⟩

/-- **A block store is read to the blocks it holds, if they follow one another.** -/
theorem FileBlockStore.recover_eq_ok :
    recover codec bytes = .ok blocks ↔ Logged codec.parseBlock bytes blocks ∧ Linked blocks := by
  simp only [recover, bind_eq_ok, readStablePrefix_eq_ok, parse_eq_ok]
  constructor
  · rintro ⟨raw, hraw, hmap, hlinked⟩
    exact ⟨⟨raw, hraw, hmap⟩, hlinked⟩
  · rintro ⟨⟨raw, hraw, hmap⟩, hlinked⟩
    exact ⟨raw, hraw, hmap, hlinked⟩

namespace FileBountyEventLedger

theorem parseLine_eq_ok {entry : List Char × ℕ} {event : Value} :
    parseLine codec entry = .ok event ↔
      codec.parseEvent entry.1 = .ok event ∧ validateBountyLedgerEvent event = .ok () := by
  simp only [parseLine, bind_eq_ok, mapErr_eq_ok, pure_eq_ok]
  grind

theorem parse_eq_ok {ls : List (List Char)} {n : ℕ} :
    (ls.zipIdx n).mapM (parseLine codec) = .ok rows ↔ ls.map codec.parseEvent = rows.map .ok ∧
      ∀ row ∈ rows, validateBountyLedgerEvent row = .ok () := by
  rw [mapM_eq_ok]
  induction ls generalizing n rows with
  | nil =>
    cases rows <;> simp
  | cons line ls ih =>
    cases rows with
    | nil => simp
    | cons row rows =>
      simp only [List.zipIdx_cons, List.map_cons, List.cons.injEq, ih, parseLine_eq_ok,
        List.forall_mem_cons]
      tauto

/-- **A bounty file is read to the rows it holds, if each passes the check.** -/
theorem readRows_eq_ok :
    readRows codec bytes = .ok rows ↔ Logged codec.parseEvent bytes rows ∧
      ∀ row ∈ rows, validateBountyLedgerEvent row = .ok () := by
  simp only [readRows, bind_eq_ok, readStablePrefix_eq_ok, parse_eq_ok]
  constructor
  · rintro ⟨raw, hraw, hmap, hvalid⟩
    exact ⟨⟨raw, hraw, hmap⟩, hvalid⟩
  · rintro ⟨⟨raw, hraw, hmap⟩, hvalid⟩
    exact ⟨raw, hraw, hmap, hvalid⟩

theorem readFile_some_eq_ok {present : Option (List Value)} :
    readFile codec (some bytes) = .ok present ↔
      ∃ rows, present = some rows ∧ Logged codec.parseEvent bytes rows ∧
        ∀ row ∈ rows, validateBountyLedgerEvent row = .ok () := by
  simp only [readFile, Option.elim_some, bind_eq_ok, readRows_eq_ok, pure_eq_ok]
  tauto

end FileBountyEventLedger

/-- Rows that read back are a file that reads back. -/
theorem logged_writeLines (h : ∀ row ∈ rows, codec.parseEvent row.print = .ok row) :
    Logged codec.parseEvent (writeLines rows) rows ∧ Stable (writeLines rows) := by
  refine logged_terminate ?_ ?_ ?_
  · simpa [Library.Plain] using fun row (_ : row ∈ rows) => row.print_no_control
  · simpa using fun row (_ : row ∈ rows) => row.print_ne_nil
  · rw [List.map_map]
    exact List.map_congr_left h

end Read

/-! ## What is written determines the record -/

/-- No field of that name. -/
def Without (key : String) (fields : List (String × Value)) : Prop := ∀ f ∈ fields, f.1 ≠ key

@[simp] theorem without_nil (key : String) : Without key [] := by simp [Without]

@[simp] theorem without_cons {f : String × Value} {fields : List (String × Value)} :
    Without key (f :: fields) ↔ f.1 ≠ key ∧ Without key fields := by simp [Without]

@[simp] theorem without_append {l l' : List (String × Value)} :
    Without key (l ++ l') ↔ Without key l ∧ Without key l' := List.forall_mem_append

@[simp] theorem without_fieldUnless {d : Prop} [Decidable d] {key' : String} {v : Value} :
    Without key (fieldUnless d key' v) ↔ d ∨ key' ≠ key := by
  rw [fieldUnless]
  split_ifs with h <;> simp [h]

/-- A field that may be left out can be read off, if what follows has no field of that name. -/
theorem fieldUnless_append_inj {α : Type} {none : α} [DecidableEq α] {json : α → Value} {a b : α}
    {r r' : List (String × Value)} (hjson : Function.Injective json) (hr : Without key r)
    (hr' : Without key r')
    (h : fieldUnless (a = none) key (json a) ++ r = fieldUnless (b = none) key (json b) ++ r') :
    a = b ∧ r = r' := by
  unfold fieldUnless at h
  split_ifs at h with ha hb hb
  · exact ⟨ha.trans hb.symm, h⟩
  · rw [List.nil_append] at h
    exact absurd rfl (hr (key, json b) (by simp [h]))
  · rw [List.nil_append] at h
    exact absurd rfl (hr' (key, json a) (by simp [← h]))
  · simp only [List.singleton_append, List.cons.injEq, Prod.mk.injEq, true_and] at h
    exact ⟨hjson h.1, h.2⟩

theorem string_injective : Function.Injective string := fun _ _ => string.inj

theorem jsonArray_injective {α : Type} {json : α → Value} (h : Function.Injective json) :
    Function.Injective fun xs : List α => array (xs.map json) := fun _ _ heq =>
  h.list_map (array.inj heq)

theorem workAuthorizationJson_injective : Function.Injective workAuthorizationJson := by
  rintro ⟨schema, payload, pk, signature, network⟩ ⟨schema', payload', pk', signature', network'⟩ h
  cases network <;> cases network' <;> simp_all [workAuthorizationJson]

theorem evidenceJson_injective : Function.Injective evidenceJson := by
  rintro ⟨pk, n, j, c, canonHash, proofPackage, seedHex, work⟩
    ⟨pk', n', j', c', canonHash', proofPackage', seedHex', work'⟩ h
  simp only [evidenceJson, object.injEq, List.cons_append, List.cons.injEq, Prod.mk.injEq,
    true_and, string.injEq] at h
  obtain ⟨rfl, rfl, rfl, rfl, rfl, rfl, h⟩ := h
  have hkey (work : Option ShareWorkAuthorization) : Without "seedHex" (work.elim [] fun auth =>
      [("signedWork", workAuthorizationJson auth)]) := by cases work <;> simp
  obtain ⟨rfl, h⟩ := fieldUnless_append_inj string_injective (hkey work) (hkey work') h
  cases work <;> cases work' <;> simp_all [workAuthorizationJson_injective.eq_iff]

theorem promotedBountyShareJson_injective : Function.Injective PromotedBountyShare.toJson := by
  rintro ⟨⟩ ⟨⟩ h
  simp_all [PromotedBountyShare.toJson]

/-- **The line of a block determines the block.** -/
theorem blockJson_injective : Function.Injective blockJson := by
  intro b b' h
  cases b
  cases b'
  simp only [blockJson, object.injEq, List.append_assoc, List.cons_append, List.cons.injEq,
    Prod.mk.injEq, true_and, string.injEq, jsonNat_inj, jsonStrings_inj] at h
  obtain ⟨rfl, rfl, rfl, rfl, rfl, rfl, h⟩ := h
  obtain ⟨rfl, h⟩ := fieldUnless_append_inj (jsonArray_injective string_injective) (by simp)
    (by simp) h
  obtain ⟨rfl, h⟩ := fieldUnless_append_inj string_injective (by simp) (by simp) h
  obtain ⟨rfl, h⟩ := fieldUnless_append_inj (jsonArray_injective evidenceJson_injective) (by simp)
    (by simp) h
  simp only [List.cons.injEq, Prod.mk.injEq, true_and, string.injEq] at h
  obtain ⟨rfl, h⟩ := h
  obtain ⟨rfl, h⟩ := fieldUnless_append_inj (fun _ _ => jsonNat_inj.mp) (by simp) (by simp) h
  simp only [List.cons.injEq, Prod.mk.injEq, true_and, string.injEq, jsonNat_inj] at h
  obtain ⟨rfl, rfl, rfl, rfl, rfl, rfl, rfl, rfl, rfl, h⟩ := h
  obtain ⟨rfl, -⟩ := fieldUnless_append_inj (jsonArray_injective promotedBountyShareJson_injective)
    (without_nil _) (without_nil _) (congrArg (· ++ []) h)
  rfl

/-- A codec that reads exactly what is printed. -/
noncomputable def printedCodec : StoreCodec where
  parseBlock := unprint fun b => (blockJson b).print
  parseReward _ := .error "not a reward event"
  parseEvent := unprint Value.print

theorem printedCodec_lawful : printedCodec.Lawful where
  parseBlock_print b _ := unprint_print (print_injective.comp blockJson_injective) b
  parseEvent_print v _ := unprint_print print_injective v
  parseEvent_again _ v _ := unprint_print print_injective v

end Node
