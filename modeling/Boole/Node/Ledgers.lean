import Boole.Core.ForkChoice

/-!
# Node/Ledgers — the reward ledger and the bounty ledger as projections of the chain

`boole-node`'s `reward_store.rs`, the projections of `runtime.rs`, and the check of bounty rows in
`boole-core`'s `bounty_ledger.rs`.  The block store decides; both ledgers are derived from it.

    blocks ──▸ replay ─────────────────────────▸ balances, credits by family
        ├──▸ reward events ──apply──▸ balances         (the same)
        └──▸ bounty rows ──sum of "credit" rows──▸ credits by family   (the same)

Replay and the two ledgers fold the same rows in the same order, so **the ledgers rebuilt from an
accepted chain never error and never diverge from its replay** (`ledgers_match_replay`).
-/

open Std Library Library.Json
open Native (Hex32)
open Core

namespace Node

variable {rows : List Value} {credits : List PersistedCredit} {rules : ReplayRules}
  {s : ReplayState} {block : PersistedBlock} {blocks : List PersistedBlock}
  {ledger : FileRewardLedger}

/-! ## Rows of the bounty ledger -/

/-- Thirty-two bytes in lower-case hexadecimal. -/
def isHex32 (value : String) : Bool := (Hex32.fromHex value).isOk

variable (event : Value)

/-- A text field that must not be empty. -/
def hasText (key : String) : Bool := (event.getStr key).elim false (· ≠ "")

def hasHex32 (key : String) : Bool := (event.getStr key).elim false isHex32

def isStatus (value : String) : Bool := ["open", "solved", "expired", "withdrawn"].contains value

def validateSharePromoted : Result Unit := do
  ensure ((event.get "height").bind Value.asU64 ≠ none)
    "bountyLedger: share_promoted event requires height (unsigned integer)"
  ensure (hasText event "familyId") "bountyLedger: share_promoted event requires familyId"
  ensure (hasText event "bountyId") "bountyLedger: share_promoted event requires bountyId"
  ensure (hasHex32 event "proofHash")
    "bountyLedger: share_promoted event requires proofHash (32-byte lowercase hex)"
  ensure (hasHex32 event "prover")
    "bountyLedger: share_promoted event requires prover (32-byte lowercase hex)"

def validateCredit : Result Unit := do
  ensure ((event.get "height").bind Value.asU64 ≠ none)
    "bountyLedger: credit event requires height (unsigned integer)"
  ensure (hasHex32 event "c") "bountyLedger: credit event requires c (32-byte lowercase hex)"
  ensure (hasText event "familyId") "bountyLedger: credit event requires familyId"
  ensure (hasText event "bountyId") "bountyLedger: credit event requires bountyId"
  ensure (hasHex32 event "prover")
    "bountyLedger: credit event requires prover (32-byte lowercase hex)"
  ensure ((event.getStr "amount").bind (parseUint 128) ≠ none)
    "bountyLedger: credit event requires amount (u128 decimal string)"

def validateProof : Result Unit := do
  ensure (hasHex32 event "proofHash")
    "bountyLedger: proof event requires proofHash (32-byte lowercase hex)"
  ensure (hasHex32 event "solverPk")
    "bountyLedger: proof event requires solverPk (32-byte lowercase hex)"
  ensure (event.get "accepted" = some (.bool true) ∨ event.get "accepted" = some (.bool false))
    "bountyLedger: proof event requires accepted (boolean)"

def validateStatusChange : Result Unit := do
  ensure ((event.getStr "prevStatus").elim false isStatus)
    "bountyLedger: status_change event requires prevStatus"
  ensure ((event.getStr "newStatus").elim false isStatus)
    "bountyLedger: status_change event requires newStatus"

/-- The announced bounty, where a row carries it, agrees with the row. -/
def validateCreate : Result Unit :=
  match event.get "bounty" with
  | some (.object fields) => do
    let bounty := Value.object fields
    let workId := (event.getStr "workId").getD ""
    let bountyId ← okOr (bounty.getStr "id") "bountyLedger: create event bounty.id missing"
    ensure (bountyId = workId)
      s!"bountyLedger: create event workId/bounty.id mismatch ({workId} vs {bountyId})"
    let problemHash ← okOr (bounty.getStr "problemHash")
      "bountyLedger: create event bounty.problemHash missing"
    ensure (problemHash = (event.getStr "problemHash").getD "")
      "bountyLedger: create event problemHash mismatch with bounty.problemHash"
    let verifierKind ← okOr ((bounty.get "verifier").bind fun v => v.getStr "kind")
      "bountyLedger: create event bounty.verifier.kind missing"
    ensure (verifierKind = (event.getStr "verifierKind").getD "")
      "bountyLedger: create event verifierKind mismatch with bounty.verifier.kind"
  | _ => pure ()

/-- The rows that requests write, and not blocks. -/
def validateRouteEvent (kind : String) (event : Value) : Result Unit := do
  ensure (hasText event "workId") "bountyLedger: workId must be a non-empty string"
  ensure (hasHex32 event "problemHash") "bountyLedger: problemHash must be 32-byte lowercase hex"
  ensure (hasText event "verifierKind") "bountyLedger: verifierKind must be a non-empty string"
  ensure (((event.get "ts").bind Value.asU64).elim false (· < 2 ^ 63))
    "bountyLedger: ts must be a non-negative integer (unix ms)"
  if kind = "proof" then validateProof event
  else if kind = "status_change" then validateStatusChange event
  else validateCreate event

/-- A value in an error. -/
def renderScalar : Value → String
  | .string s => s
  | other => String.ofList other.print

def validateBountyLedgerEvent : Result Unit := do
  let rendered := (event.get "schemaVersion").elim "undefined" renderScalar
  ensure ((event.get "schemaVersion").bind Value.asU64 = some 1)
    s!"bountyLedger: unsupported schemaVersion {rendered} (only v1 accepted)"
  let kind := (event.getStr "kind").getD ""
  ensure (["create", "status_change", "proof", "credit", "share_promoted"].contains kind)
    s!"bountyLedger: unknown event kind: {kind}"
  if kind = "share_promoted" then validateSharePromoted event
  else if kind = "credit" then validateCredit event
  else validateRouteEvent kind event

/-! ## The projections -/

structure PersistedRewardEvent where
  height : ℕ
  c : String
  credits : List PersistedCredit
deriving DecidableEq

variable (registry : FamilyManifestRegistry)

/-- The base credits of a block and its settlement, in one event. -/
def deriveRewardEvent (block : PersistedBlock) : Result PersistedRewardEvent := do
  let credits ← computeBlockRewardCredits block
  let bountyCredits ← deriveBountySettlement block.promotedBountyShares registry block.height
  pure ⟨block.height, block.c, credits ++ bountyCredits.map PromotedBountyCredit.proverRow⟩

/-- A payment, with the keys in the order of the map. -/
def creditEvent (block : PersistedBlock) (credit : PromotedBountyCredit) : Value :=
  .object [("amount", .string credit.amount), ("bountyId", .string credit.bountyId),
    ("c", .string block.c), ("familyId", .string credit.familyId),
    ("height", jsonNat block.height), ("kind", .string "credit"),
    ("prover", .string credit.prover), ("schemaVersion", jsonNat 1)]

/-- A promotion; it is written for a share that is paid nothing as well. -/
def sharePromotedEvent (block : PersistedBlock) (share : PromotedBountyShare) : Value :=
  .object [("bountyId", .string share.bountyId), ("familyId", .string share.familyId),
    ("height", jsonNat block.height), ("kind", .string "share_promoted"),
    ("proofHash", .string share.proofHash), ("prover", .string share.prover),
    ("schemaVersion", jsonNat 1)]

def deriveBountyEvents (block : PersistedBlock) : Result (List Value × List Value) := do
  let credits ← deriveBountySettlement block.promotedBountyShares registry block.height
  pure (credits.map (creditEvent block), block.promotedBountyShares.map (sharePromotedEvent block))

/-- Rows that requests wrote; the others are derived from the blocks. -/
def isRouteRow : Bool :=
  ["create", "status_change", "proof"].any fun kind => event.getStr "kind" = some kind

def rebuildBountyLedgerRows (existing : List Value) (blocks : List PersistedBlock)
    (registry : FamilyManifestRegistry) : Result (List Value) :=
  blocks.foldlM (fun rows block => do
    let (credits, shares) ← deriveBountyEvents registry block
    pure (rows ++ credits ++ shares)) (existing.filter isRouteRow)

/-! ## The reward ledger -/

structure FileRewardLedger where
  events : List PersistedRewardEvent := []
  balances : Balances := ∅

namespace FileRewardLedger

/-- A row that pays nothing is refused. -/
def applyRow (balances : Balances) (row : PersistedCredit) : Result Balances := do
  let amount ← parseU128 row.amount
  ensure (amount ≠ 0) "rewardLedger: credit amount must be positive"
  checkedCredit balances row.pk amount

def apply (self : FileRewardLedger) (event : PersistedRewardEvent) : Result FileRewardLedger := do
  ensure (event.credits ≠ []) "rewardLedger: credits must not be empty"
  let balances ← event.credits.foldlM applyRow self.balances
  pure ⟨self.events ++ [event], balances⟩

/-- The ledger the rows of a file stand for; the heights count up from zero. -/
def recover (rows : List PersistedRewardEvent) : Result FileRewardLedger :=
  rows.zipIdx.foldlM (fun ledger (event, i) => do
    ensure (event.height = i)
      s!"rewardLedger: line {i + 1} has height {event.height}, expected {i}"
    ledger.apply event) {}

/-- The ledger that replaces a file. -/
def rewriteAtomic (events : List PersistedRewardEvent) : Result FileRewardLedger :=
  events.foldlM apply {}

end FileRewardLedger

/-- Boot keeps the ledger it reads if it holds the derived events, and writes the derived one
otherwise. -/
def bootRewardLedger (present : Option (List PersistedRewardEvent)) (blocks : List PersistedBlock)
    (registry : FamilyManifestRegistry) : Result FileRewardLedger := do
  let expected ← blocks.mapM (deriveRewardEvent registry)
  match present.bind fun rows => (FileRewardLedger.recover rows).toOption with
  | some ledger =>
    if ledger.events = expected then pure ledger else FileRewardLedger.rewriteAtomic expected
  | none => FileRewardLedger.rewriteAtomic expected

/-! ## The bounty ledger -/

namespace FileBountyEventLedger

/-- The rows of a file; each is checked. -/
def recover (rows : List Value) : Result (List Value) := do
  forM rows.zipIdx fun (event, i) =>
    mapErr (fun err => s!"bountyEventLedger: line {i + 1} schema invalid: {err}")
      (validateBountyLedgerEvent event)
  pure rows

/-- The rows that replace a file; each is checked before anything is written. -/
def rewriteAtomic (events : List Value) : Result (List Value) := do
  forM events fun event =>
    mapErr (fun err => s!"bountyEventLedger: {err}") (validateBountyLedgerEvent event)
  pure events

end FileBountyEventLedger

/-- Boot rewrites the bounty ledger if it is not the one the blocks give.  A file that is not there
and would be empty is not written. -/
def bootBountyLedger (file : Option (List Value)) (blocks : List PersistedBlock)
    (registry : FamilyManifestRegistry) : Result (Option (List Value)) := do
  let present ← file.elim (pure []) FileBountyEventLedger.recover
  let rebuilt ← rebuildBountyLedgerRows present blocks registry
  if present = rebuilt then pure file else some <$> FileBountyEventLedger.rewriteAtomic rebuilt

/-- Count the amount of a credit row for its family. -/
def addBountyCredit (totals : Balances) (event : Value) : Result Balances :=
  if (event.getStr "kind").getD "" ≠ "credit" then pure totals
  else do
    let familyId ← okOr (event.getStr "familyId") "bountyLedger credit event missing familyId"
    let amount ← okOr (event.getStr "amount") "bountyLedger credit event missing amount"
    let amount ← parseU128 amount
    checkedCredit totals familyId amount

def bountyCreditTotals (rows : List Value) : Result Balances := rows.foldlM addBountyCredit ∅

/-- Every account of one book is in the other with the same amount, and the other has no more. -/
def checkBooks (what : String) (ledger replay : Balances) : Result Unit := do
  forM replay.toList fun (key, replayAmount) =>
    ensure (balanceOf ledger key = replayAmount)
      s!"{what} {key}: ledger={balanceOf ledger key} replay={replayAmount}"
  forM ledger.toList fun (key, ledgerAmount) =>
    ensure (replay.contains key) s!"{what} {key}: ledger={ledgerAmount} replay=0"

/-- `bountyFile` is the bounty ledger's file, where one is configured. -/
def verifyLedgerMatchesReplay (ledger : FileRewardLedger) (replayBalances : Balances)
    (bountyFile : Option (Option (List Value))) (replayBountyCreditByFamily : Balances) :
    Result Unit := do
  checkBooks "reward ledger divergence at pk" ledger.balances replayBalances
  match bountyFile with
  | none => pure ()
  | some none =>
    ensure (replayBountyCreditByFamily = ∅)
      s!"bounty event ledger missing but replay has {replayBountyCreditByFamily.size} family credit entries"
  | some (some rows) =>
    let events ← FileBountyEventLedger.recover rows
    let totals ← bountyCreditTotals events
    checkBooks "bounty ledger family-credit divergence at" totals replayBountyCreditByFamily

/-! ## Reward events pay what replay pays -/

/-- A row that pays something is taken by the ledger as replay takes it. -/
theorem FileRewardLedger.applyRow_of_creditRow {m m' : Balances} {row : PersistedCredit}
    (hpos : 0 < row.value) (h : creditRow m row = .ok m') : applyRow m row = .ok m' := by
  obtain ⟨hread, hcredit⟩ := creditRow_eq_ok h
  simp [applyRow, parseU128, hread, hpos.ne', hcredit]

theorem FileRewardLedger.applyRows_of_creditRows {rows : List PersistedCredit} {m m' : Balances}
    (hpos : ∀ row ∈ rows, 0 < row.value) (h : rows.foldlM creditRow m = .ok m') :
    rows.foldlM applyRow m = .ok m' := by
  induction rows generalizing m with
  | nil => exact h
  | cons row rows ih =>
    obtain ⟨hrow, hrows⟩ := List.forall_mem_cons.mp hpos
    rw [List.foldlM_cons, bind_eq_ok] at h ⊢
    obtain ⟨t, ht, hrest⟩ := h
    exact ⟨t, applyRow_of_creditRow hrow ht, ih hrows hrest⟩

/-- Every key that was counted was counted at least once. -/
theorem tally_pos (pks : List String) (m : Balances)
    (hm : ∀ (k : String) v, m[k]? = some v → 0 < v) :
    ∀ (k : String) v, (pks.foldl tally m)[k]? = some v → 0 < v := by
  induction pks generalizing m with
  | nil => exact hm
  | cons pk pks ih =>
    refine ih (tally m pk) fun k v hv => ?_
    rw [tally, getElem?_insert] at hv
    split_ifs at hv with hk
    · cases hv
      omega
    · exact hm k v hv

/-- **A block pays someone, and each row of its base credits pays something.** -/
theorem computeBlockRewardCredits_pos {b : PersistedBlock}
    (h : computeBlockRewardCredits b = .ok credits)
    (hread : ∀ row ∈ credits, parseUint 128 row.amount = some row.value) :
    credits ≠ [] ∧ ∀ row ∈ credits, 0 < row.value := by
  simp only [computeBlockRewardCredits, computeBlockCreditsForRewardPks, bind_eq_ok,
    pure_eq_ok] at h
  obtain ⟨_, _, _, _, _, _, rfl⟩ := h
  have hpos := tally_pos (b.sharePayees ++ [b.payee]) ∅ (by simp)
  have htotal := (tally_posts (b.sharePayees ++ [b.payee]) ∅).total
  generalize (b.sharePayees ++ [b.payee]).foldl tally ∅ = totals at *
  refine ⟨fun hnil => ?_, fun row hrow => ?_⟩
  · -- The proposer is counted, so the book of counts is not empty.
    have hnone : total totals = 0 := by
      rw [total, sumBy, List.map_eq_nil_iff.mp hnil, List.map_nil, List.sum_nil]
    rw [hnone] at htotal
    simp at htotal
  · have hvalue := hread row hrow
    obtain ⟨entry, hentry, rfl⟩ := List.mem_map.mp hrow
    rw [eq_of_parseUint_toString hvalue]
    exact hpos entry.1 entry.2 (mem_toList_iff.mp hentry)

/-- **The event of a replayed block moves a ledger as replay moved the balances.** -/
theorem Replayed.applies {s' : ReplayState} {height : ℕ} {bountyCredits : List PromotedBountyCredit}
    (h : Replayed rules s s' block height credits bountyCredits) :
    ∃ event, deriveRewardEvent rules.registry block = .ok event ∧ ∀ events,
      FileRewardLedger.apply ⟨events, s.balances⟩ event = .ok ⟨events ++ [event], s'.balances⟩ := by
  obtain ⟨mid, hbase, hbooks⟩ := h.books
  have hbounty := (creditBounties_iff.mp hbooks).1
  obtain ⟨hsome, hpos⟩ := computeBlockRewardCredits_pos h.credits_eq (creditRows_posts hbase).1
  refine ⟨⟨block.height, block.c, credits ++ bountyCredits.map PromotedBountyCredit.proverRow⟩,
    ?_, fun events => ?_⟩
  · simp [deriveRewardEvent, h.credits_eq, h.settlement]
  have hprovers : ∀ row ∈ bountyCredits.map PromotedBountyCredit.proverRow, 0 < row.value := by
    intro row hrow
    obtain ⟨credit, hcredit, rfl⟩ := List.mem_map.mp hrow
    exact (settle_pos h.settlement hcredit).1
  simp only [FileRewardLedger.apply, bind_eq_ok, List.foldlM_append]
  exact ⟨(), by simp [hsome], s'.balances,
    ⟨mid, FileRewardLedger.applyRows_of_creditRows hpos hbase,
      FileRewardLedger.applyRows_of_creditRows hprovers hbounty⟩, rfl⟩

/-- **The ledger of the derived events holds the balances of the replay.** -/
theorem Replays.rewardLedger (h : Replays rules blocks s) :
    ∃ events, blocks.mapM (deriveRewardEvent rules.registry) = .ok events ∧
      FileRewardLedger.rewriteAtomic events = .ok ⟨events, s.balances⟩ := by
  induction h with
  | nil => exact ⟨[], rfl, rfl⟩
  | snoc prior step ih =>
    obtain ⟨events, hevents, hledger⟩ := ih
    obtain ⟨event, hevent, happly⟩ := Replayed.applies step
    refine ⟨events ++ [event], ?_, ?_⟩
    · simp [hevents, hevent]
    · rw [FileRewardLedger.rewriteAtomic, List.foldlM_append, bind_eq_ok]
      exact ⟨_, hledger, by simp [happly]⟩

/-- The same ledger, built block by block. -/
theorem Replays.foldlM_rewards (h : Replays rules blocks s) :
    ∃ events, blocks.foldlM (fun ledger block => do
      let event ← deriveRewardEvent rules.registry block
      ledger.apply event) ({} : FileRewardLedger) = .ok ⟨events, s.balances⟩ := by
  induction h with
  | nil => exact ⟨[], rfl⟩
  | snoc prior step ih =>
    obtain ⟨events, hevents⟩ := ih
    obtain ⟨event, hevent, happly⟩ := Replayed.applies step
    rw [List.foldlM_append, hevents]
    simp [hevent, happly]

namespace FileRewardLedger

theorem apply_events {ledger' : FileRewardLedger} {event : PersistedRewardEvent}
    (h : ledger.apply event = .ok ledger') : ledger'.events = ledger.events ++ [event] := by
  simp only [apply, bind_eq_ok, pure_eq_ok] at h
  obtain ⟨_, _, _, _, rfl⟩ := h
  rfl

theorem events_of_rewriteAtomic {events : List PersistedRewardEvent}
    (h : rewriteAtomic events = .ok ledger) : ledger.events = events := by
  induction events using List.reverseRecOn generalizing ledger with
  | nil =>
    cases h
    rfl
  | append_singleton events event ih =>
    rw [rewriteAtomic, List.foldlM_append, bind_eq_ok] at h
    obtain ⟨t, ht, h⟩ := h
    rw [apply_events (by simpa using h), ih ht]

/-- A ledger read from a file is the one that would be written for its rows. -/
theorem rewriteAtomic_of_recover {rows : List PersistedRewardEvent} (h : recover rows = .ok ledger) :
    rewriteAtomic rows = .ok ledger := by
  induction rows using List.reverseRecOn generalizing ledger with
  | nil => exact h
  | append_singleton rows row ih =>
    rw [recover, List.zipIdx_append, List.foldlM_append, bind_eq_ok] at h
    obtain ⟨t, ht, h⟩ := h
    simp only [List.zipIdx_cons, List.zipIdx_nil, List.foldlM_cons, List.foldlM_nil, bind_eq_ok,
      pure_eq_ok] at h
    obtain ⟨_, ⟨_, _, happly⟩, rfl⟩ := h
    rw [rewriteAtomic, List.foldlM_append, bind_eq_ok]
    exact ⟨t, ih ht, by simpa using happly⟩

end FileRewardLedger

/-- **Whatever file boot finds, it comes up with the balances of the replay.** -/
theorem Replays.bootRewardLedger (h : Replays rules blocks s)
    (present : Option (List PersistedRewardEvent)) :
    ∃ events, blocks.mapM (deriveRewardEvent rules.registry) = .ok events ∧
      bootRewardLedger present blocks rules.registry = .ok ⟨events, s.balances⟩ := by
  obtain ⟨events, hevents, hledger⟩ := Replays.rewardLedger h
  refine ⟨events, hevents, ?_⟩
  simp only [Node.bootRewardLedger, hevents, ok_bind]
  cases hfile : present.bind fun rows => (FileRewardLedger.recover rows).toOption with
  | none => exact hledger
  | some ledger =>
    simp only
    split_ifs with heq
    · -- The file held the derived events, so it is the ledger that would have been written.
      obtain ⟨rows, -, hrows⟩ := Option.bind_eq_some_iff.mp hfile
      have hread := FileRewardLedger.rewriteAtomic_of_recover (toOption_eq_some.mp hrows)
      obtain rfl : rows = events := (FileRewardLedger.events_of_rewriteAtomic hread).symm.trans heq
      exact hread.symm.trans hledger
    · exact hledger

/-! ## Bounty rows pay what replay pays -/

theorem addBountyCredit_sharePromotedEvent (m : Balances) (block : PersistedBlock)
    (share : PromotedBountyShare) :
    addBountyCredit m (sharePromotedEvent block share) = .ok m := rfl

/-- A row that a request wrote pays nothing. -/
theorem addBountyCredit_of_isRouteRow (m : Balances) {event : Value} (h : isRouteRow event) :
    addBountyCredit m event = .ok m := by
  have hkind : (event.getStr "kind").getD "" ≠ "credit" := by
    simp only [isRouteRow, List.any_cons, List.any_nil, Bool.or_false, Bool.or_eq_true,
      decide_eq_true_eq] at h
    rcases h with h | h | h <;> rw [h] <;> decide
  rw [addBountyCredit, if_pos hkind]
  rfl

/-- **The rows of a replayed block count for the families what replay counted.** -/
theorem Replayed.bountyRows {s' : ReplayState} {height : ℕ}
    {bountyCredits : List PromotedBountyCredit}
    (h : Replayed rules s s' block height credits bountyCredits) :
    ∃ paid promoted, deriveBountyEvents rules.registry block = .ok (paid, promoted) ∧
      (paid ++ promoted).foldlM addBountyCredit s.bountyCreditByFamily =
        .ok s'.bountyCreditByFamily := by
  obtain ⟨mid, -, hbooks⟩ := h.books
  refine ⟨_, _, by simp only [deriveBountyEvents, h.settlement, ok_bind]; rfl, ?_⟩
  rw [List.foldlM_append, bind_eq_ok]
  refine ⟨s'.bountyCreditByFamily, ?_, foldlM_unmoved fun event hevent => ?_⟩
  · have hfamilies := (creditBounties_iff.mp hbooks).2
    rw [List.foldlM_map] at hfamilies ⊢
    exact hfamilies
  · obtain ⟨share, -, rfl⟩ := List.mem_map.mp hevent
    exact addBountyCredit_sharePromotedEvent _ block share

/-- **Whatever rows were there, the rebuilt ledger counts what replay counted.** -/
theorem Replays.bountyLedger (h : Replays rules blocks s) (existing : List Value) :
    ∃ rows, rebuildBountyLedgerRows existing blocks rules.registry = .ok rows ∧
      bountyCreditTotals rows = .ok s.bountyCreditByFamily := by
  induction h with
  | nil =>
    exact ⟨existing.filter isRouteRow, rfl, foldlM_unmoved fun event hevent =>
      addBountyCredit_of_isRouteRow ∅ (List.mem_filter.mp hevent).2⟩
  | snoc prior step ih =>
    obtain ⟨rows, hrows, htotals⟩ := ih
    obtain ⟨paid, promoted, hevents, hfold⟩ := Replayed.bountyRows step
    refine ⟨rows ++ paid ++ promoted, ?_, ?_⟩
    · rw [rebuildBountyLedgerRows, List.foldlM_append, bind_eq_ok]
      exact ⟨rows, hrows, by simp [hevents]⟩
    · rw [bountyCreditTotals, List.append_assoc, List.foldlM_append, bind_eq_ok]
      exact ⟨_, htotals, hfold⟩

/-- A row that the blocks give. -/
def Projected (block : PersistedBlock) (row : Value) : Prop :=
  ∃ paid promoted, deriveBountyEvents registry block = .ok (paid, promoted) ∧ row ∈ paid ++ promoted

/-- **A rebuilt ledger has the rows that requests wrote and the rows that the blocks give.** -/
theorem mem_rebuildBountyLedgerRows {existing : List Value} {registry : FamilyManifestRegistry}
    (h : rebuildBountyLedgerRows existing blocks registry = .ok rows) (row : Value) :
    row ∈ rows ↔ row ∈ existing.filter isRouteRow ∨ ∃ b ∈ blocks, Projected registry b row := by
  induction blocks using List.reverseRecOn generalizing rows with
  | nil =>
    obtain rfl : existing.filter isRouteRow = rows := by simpa [rebuildBountyLedgerRows] using h
    simp
  | append_singleton blocks block ih =>
    rw [rebuildBountyLedgerRows, List.foldlM_append, bind_eq_ok] at h
    obtain ⟨prior, hprior, h⟩ := h
    simp only [List.foldlM_cons, List.foldlM_nil, bind_eq_ok, pure_eq_ok] at h
    obtain ⟨_, ⟨⟨paid, promoted⟩, hevents, rfl⟩, rfl⟩ := h
    have hblock : Projected registry block row ↔ row ∈ paid ++ promoted := by
      simp [Projected, hevents]
    rw [List.append_assoc, List.mem_append, ih hprior, ← hblock]
    simp only [List.mem_append, List.mem_singleton, or_and_right, exists_or, exists_eq_left,
      or_assoc]

/-! ### Rows that pass the check -/

theorem asU64_schemaVersion : (jsonNat 1).asU64 = some 1 := Value.asU64_jsonNat (by decide)

theorem validate_creditEvent {credit : PromotedBountyCredit} (hheight : block.height < 2 ^ 64)
    (hc : isHex32 block.c) (hfamily : credit.familyId ≠ "") (hbounty : credit.bountyId ≠ "")
    (hprover : isHex32 credit.prover) (hamount : parseUint 128 credit.amount ≠ none) :
    validateBountyLedgerEvent (creditEvent block credit) = .ok () := by
  simp [validateBountyLedgerEvent, validateCredit, creditEvent, hasText, hasHex32, Value.getStr,
    Value.get, Value.asStr, Value.asU64_jsonNat hheight, asU64_schemaVersion, *]

theorem validate_sharePromotedEvent {share : PromotedBountyShare} (hheight : block.height < 2 ^ 64)
    (hfamily : share.familyId ≠ "") (hbounty : share.bountyId ≠ "")
    (hproof : isHex32 share.proofHash) (hprover : isHex32 share.prover) :
    validateBountyLedgerEvent (sharePromotedEvent block share) = .ok () := by
  simp [validateBountyLedgerEvent, validateSharePromoted, sharePromotedEvent, hasText, hasHex32,
    Value.getStr, Value.get, Value.asStr, Value.asU64_jsonNat hheight, asU64_schemaVersion, *]

/-! ## Nothing diverges -/

/-- A book agrees with itself. -/
theorem checkBooks_self (what : String) (m : Balances) : checkBooks what m m = .ok () := by
  simp only [checkBooks, bind_eq_ok, forM_eq_ok, ensure_eq_ok, Prod.forall,
    ExtTreeMap.mem_toList_iff_getElem?_eq_some]
  refine ⟨(), fun key amount h => ?_, fun key amount h => ?_⟩
  · rw [balanceOf, h, Option.getD_some]
  · exact ExtTreeMap.contains_iff_mem.mpr (ExtTreeMap.mem_iff_isSome_getElem?.mpr (by simp [h]))

namespace FileBountyEventLedger

theorem recover_eq_ok {events : List Value} :
    recover rows = .ok events ↔ (∀ row ∈ rows, validateBountyLedgerEvent row = .ok ()) ∧
      rows = events := by
  simp only [recover, bind_eq_ok, forM_eq_ok, mapErr_eq_ok, pure_eq_ok, Prod.forall]
  constructor
  · rintro ⟨-, hrows, rfl⟩
    refine ⟨fun row hrow => ?_, rfl⟩
    obtain ⟨i, hi, rfl⟩ := List.getElem_of_mem hrow
    exact hrows _ i (List.mem_zipIdx_iff_getElem?.mpr (List.getElem?_eq_getElem hi))
  · rintro ⟨hrows, rfl⟩
    exact ⟨(), fun row i hrow => hrows row (List.fst_mem_of_mem_zipIdx hrow), rfl⟩

theorem rewriteAtomic_eq_ok {events : List Value} :
    rewriteAtomic rows = .ok events ↔ recover rows = .ok events := by
  simp only [recover_eq_ok, rewriteAtomic, bind_eq_ok]
  simp

end FileBountyEventLedger

/-- A bounty ledger that boot left is the one the blocks give, and its rows pass the check. -/
theorem bootBountyLedger_eq_ok {file file' : Option (List Value)}
    {registry : FamilyManifestRegistry} (h : bootBountyLedger file blocks registry = .ok file') :
    ∃ present, rebuildBountyLedgerRows present blocks registry = .ok (file'.getD []) ∧
      ∀ rows ∈ file', FileBountyEventLedger.recover rows = .ok rows := by
  simp only [bootBountyLedger, bind_eq_ok] at h
  obtain ⟨present, hpresent, rebuilt, hrebuilt, h⟩ := h
  refine ⟨present, ?_⟩
  split_ifs at h with heq
  · obtain rfl : file = file' := by simpa using h
    subst heq
    cases file with
    | none =>
      obtain rfl : [] = present := by simpa using hpresent
      exact ⟨hrebuilt, by simp⟩
    | some rows =>
      obtain rfl := (FileBountyEventLedger.recover_eq_ok.mp hpresent).2
      exact ⟨hrebuilt, by simpa using hpresent⟩
  · cases hwrite : FileBountyEventLedger.rewriteAtomic rebuilt with
    | error e => simp [hwrite] at h
    | ok rows =>
      have hrecover := FileBountyEventLedger.rewriteAtomic_eq_ok.mp hwrite
      obtain rfl := (FileBountyEventLedger.recover_eq_ok.mp hrecover).2
      obtain rfl : some rebuilt = file' := by simpa [hwrite] using h
      exact ⟨hrebuilt, by simpa using hrecover⟩

/-- After boot has rebuilt the bounty ledger, the comparison with the replay finds nothing. -/
theorem Replays.verifyLedger (h : Replays rules blocks s) {file file' : Option (List Value)}
    (hfile : bootBountyLedger file blocks rules.registry = .ok file')
    (events : List PersistedRewardEvent) :
    verifyLedgerMatchesReplay ⟨events, s.balances⟩ s.balances (some file') s.bountyCreditByFamily
      = .ok () := by
  obtain ⟨was, hrebuilt, hchecked⟩ := bootBountyLedger_eq_ok hfile
  obtain ⟨rows, hrows, htotals⟩ := Replays.bountyLedger h was
  obtain rfl : file'.getD [] = rows := Except.ok.inj (hrebuilt.symm.trans hrows)
  cases file' with
  | none =>
    -- No file was written because there was nothing to write.
    have hempty : ∅ = s.bountyCreditByFamily := Except.ok.inj htotals
    simp [verifyLedgerMatchesReplay, checkBooks_self, ← hempty]
  | some rows =>
    rw [Option.getD_some] at htotals
    simp [verifyLedgerMatchesReplay, checkBooks_self, hchecked rows rfl, htotals]

/-- **The ledgers of an accepted chain are projections of its replay.**  The derived reward events
are taken without an error and give the replayed balances; the bounty rows rebuilt over any rows
give the replayed credits of the families; and after boot has rebuilt both files, the comparison
with the replay finds nothing. -/
theorem ledgers_match_replay {rules : ReplayRules} {blocks : List PersistedBlock} {r : ReplayResult}
    (h : replayBlocksWithRules rules blocks = .ok r) :
    (∃ events, blocks.mapM (deriveRewardEvent rules.registry) = .ok events ∧
      ∃ ledger, events.foldlM FileRewardLedger.apply {} = .ok ledger ∧
        ledger.balances = r.balances) ∧
    (∀ existing, ∃ rows, rebuildBountyLedgerRows existing blocks rules.registry = .ok rows ∧
      bountyCreditTotals rows = .ok r.bountyCreditByFamily) ∧
    ∀ present, ∃ ledger, bootRewardLedger present blocks rules.registry = .ok ledger ∧
      verifyLedgerMatchesReplay ledger r.balances none r.bountyCreditByFamily = .ok () ∧
      ∀ file file', bootBountyLedger file blocks rules.registry = .ok file' →
        verifyLedgerMatchesReplay ledger r.balances (some file') r.bountyCreditByFamily = .ok () := by
  obtain ⟨s, hs, rfl⟩ := replayBlocksWithRules_eq_ok h
  refine ⟨?_, Replays.bountyLedger hs, fun present => ?_⟩
  · obtain ⟨events, hevents, hledger⟩ := Replays.rewardLedger hs
    exact ⟨events, hevents, _, hledger, rfl⟩
  obtain ⟨events, -, hboot⟩ := Replays.bootRewardLedger hs present
  refine ⟨_, hboot, ?_, fun file file' hfile => Replays.verifyLedger hs hfile events⟩
  simp [verifyLedgerMatchesReplay, checkBooks_self]

/-- Booting over one block, with no ledger files, writes both and finds nothing to report. -/
theorem ledgers_match_replay_sample : ∃ r ledger rows,
    replayBlocksWithRules Sample.rules [Sample.block] = .ok r ∧
    bootRewardLedger none [Sample.block] Sample.registry = .ok ledger ∧
    bootBountyLedger none [Sample.block] Sample.registry = .ok (some rows) ∧
    verifyLedgerMatchesReplay ledger r.balances (some (some rows)) r.bountyCreditByFamily = .ok () := by
  obtain ⟨r, hr⟩ := Sample.replays
  have hr := replayBlocksWithGenesis_eq_ok hr
  obtain ⟨-, -, hboot⟩ := ledgers_match_replay hr
  obtain ⟨ledger, hledger, -, hverify⟩ := hboot none
  have hfile : (do
      let file ← bootBountyLedger none [Sample.block] Sample.registry
      pure file.isSome : Result Bool) = .ok true := by decide +kernel
  simp only [bind_eq_ok, pure_eq_ok] at hfile
  obtain ⟨file, hfile, hsome⟩ := hfile
  obtain ⟨rows, rfl⟩ := Option.isSome_iff_exists.mp hsome
  exact ⟨r, ledger, rows, hr, hledger, hfile, hverify none _ hfile⟩

end Node
