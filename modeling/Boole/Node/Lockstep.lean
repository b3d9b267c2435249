import Boole.Node.Runtime

/-!
# Node/Lockstep — the candidates and the pool hold the same shares

The runtime keeps admitted shares twice: as candidates for a block, and as active entries of the
share pool.  Ten operations change the one, the other or both, while detached verifiers hold
candidates across changes of the head.

    candidates   c₁  c₂  …  cₙ
                 │   │       │        poolShareForCandidate
    pool         s₁  s₂  …  sₙ        in the order of insertion

`InStep` is this picture, and every operation preserves it.  **So the two never diverge, in any
run** (`runtime_in_lockstep`): an admitted share is always a candidate, and a candidate can always
be reserved.
-/

open Std Library Library.Json
open Native (Hex32)
open Core

namespace Node

namespace RuntimeAdmissionState

variable {lc : LaneCrypto} {s : RuntimeAdmissionState}

/-- The candidates are the active shares of the pool, in one order; both know the same head and the
same cap. -/
structure InStep (s : RuntimeAdmissionState) : Prop where
  holds : s.pool.Holds (s.candidates.map poolShareForCandidate)
  cap : s.pool.globalShareCap = s.config.policy.globalShareCap
  head : s.pool.currentC = s.currentC

/-! ## Moving the head -/

theorem InStep.setCurrentC (h : s.InStep) (c : String) : (s.setCurrentC c).InStep where
  holds := h.holds.setCurrentC c
  cap := (s.pool.setCurrentC_frame c).2.trans h.cap
  head := (s.pool.setCurrentC_frame c).1

/-- Dropping the shares of other heads drops them on both sides. -/
theorem InStep.keepOnly (h : s.InStep) {c : String} (hc : s.currentC = some c) :
    (s.keepOnly c).InStep where
  holds := by
    have := h.holds.prune c
    rwa [List.filter_map] at this
  cap := h.cap
  head := hc.symm

theorem InStep.applyBlockUnchecked (h : s.InStep) (block : PersistedBlock) :
    (s.applyBlockUnchecked block).1.InStep :=
  (h.setCurrentC block.c).keepOnly rfl

/-! ## Publishing -/

/-- A state that differs in its chain only is in step as well. -/
theorem InStep.of_eq {t : RuntimeAdmissionState} (h : s.InStep) (hpool : t.pool = s.pool)
    (hcandidates : t.candidates = s.candidates) (hconfig : t.config = s.config)
    (hhead : t.currentC = s.currentC) : t.InStep where
  holds := by rw [hpool, hcandidates]; exact h.holds
  cap := by rw [hpool, hconfig]; exact h.cap
  head := by rw [hpool, hhead]; exact h.head

theorem InStep.publishBlock (h : s.InStep) (disk : Disk) (block : PersistedBlock)
    (event : Option PersistedRewardEvent) : (publishBlock disk s block event).1.InStep := by
  simp only [RuntimeAdmissionState.publishBlock]
  split
  · exact h.of_eq rfl rfl rfl rfl
  · rename_i ledger _
    have hledger : ({ s.beginCanonicalPublish .blockReward with
        rewardLedger := ledger } : RuntimeAdmissionState).InStep := h.of_eq rfl rfl rfl rfl
    exact (hledger.applyBlockUnchecked block).of_eq rfl rfl rfl rfl

theorem InStep.ingest (h : s.InStep) (disk : Disk) (block : PersistedBlock) :
    (ingestExternalBlock disk s block).1.InStep := by
  simp only [ingestExternalBlock]
  split
  · exact h
  · exact h.publishBlock disk block _

theorem InStep.commit (h : s.InStep) (disk : Disk) (height ts : ℕ)
    (acceptedCanonTags : ExtTreeSet UInt8) (promoted : List PromotedBountyShare) :
    (commitUsingCache lc disk s height ts acceptedCanonTags promoted).1.InStep := by
  simp only [commitUsingCache]
  split
  · exact h
  · exact h.publishBlock disk _ _

/-- The head of a replayed chain is its last block. -/
theorem latestC_of_getLast {blocks : List PersistedBlock} {head : PersistedBlock}
    {spec : GenesisSpec} {registry : FamilyManifestRegistry} {network : Option String}
    {r : ReplayResult} (h : replayBlocksWithGenesis lc blocks spec registry network = .ok r)
    (hhead : blocks.getLast? = some head) : r.latestC = head.c := by
  obtain ⟨t, ht, rfl⟩ := replayBlocksWithRules_eq_ok (replayBlocksWithGenesis_eq_ok h)
  cases ht with
  | nil => simp at hhead
  | snoc prior step =>
    obtain rfl : _ = head := by simpa using hhead
    exact step.head

theorem InStep.reorg (h : s.InStep) (disk : Disk) (nowMs : ℕ) (candidate : List PersistedBlock)
    (genesis : GenesisSpec) : (reorgToHeavierChain lc disk s nowMs candidate genesis).1.InStep := by
  simp only [reorgToHeavierChain]
  split
  · exact h
  · exact h
  · rename_i candidateHead latestC ledger hprepare
    split
    · exact h.of_eq rfl rfl rfl rfl
    · -- The pool is pruned to the stored head and the runtime moved to the replayed one.
      have hhead : latestC = candidateHead.c := by
        simp only [prepareReorg, bind_eq_ok, okOr_eq_ok] at hprepare
        obtain ⟨_, _, head, hlast, _, _, replay, hreplay, wins, _, hprepare⟩ := hprepare
        split_ifs at hprepare
        · simp only [bind_eq_ok] at hprepare
          obtain ⟨_, _, rfl, rfl, _⟩ := hprepare
          exact latestC_of_getLast hreplay hlast
        · simp at hprepare
      subst hhead
      have hchain : ({ s.beginCanonicalPublish .reorgReward with
          rewardLedger := ledger.or s.rewardLedger, blockCache := candidate } :
            RuntimeAdmissionState).InStep := h.of_eq rfl rfl rfl rfl
      exact ((hchain.setCurrentC _).keepOnly rfl).of_eq rfl rfl rfl rfl

/-! ## Shares -/

theorem InStep.observe (h : s.InStep) (body : Value) : (s.observeTicketFromBody body).1.InStep := by
  simp only [observeTicketFromBody]
  split
  · exact h
  · exact h.of_eq rfl rfl rfl rfl

/-- **An admission either changes nothing or appends one candidate, which the pool took too.** -/
theorem InStep.admit_cases (h : s.InStep) (now : ℤ) (ip : String) (body : Value) (canonTag : UInt8)
    (rewardPk : Option String) (signedWork : Option ShareWorkAuthorization) :
    (∃ err, s.admitBodyWithSubmitterContext lc now ip body canonTag rewardPk signedWork
        = (s, .error err)) ∨
    ∃ submission digest limiter pool,
      s.pool.accept submission.poolShare = .ok pool ∧
      s.admitBodyWithSubmitterContext lc now ip body canonTag rewardPk signedWork =
        ({ s with
            rateLimiter := limiter, pool
            candidates := s.candidates ++
              [candidateFor lc submission digest canonTag rewardPk signedWork] }, .ok digest) := by
  simp only [admitBodyWithSubmitterContext]
  split
  · exact .inl ⟨_, rfl⟩
  · rename_i submission digest limiter pool hok
    simp only [bind_eq_ok] at hok
    obtain ⟨parsed, _, ⟨digest', limiter', pool'⟩, hadmit, rfl, rfl, rfl, rfl⟩ := hok
    have haccept := (admitParsedSubmissionTyped_eq_ok hadmit).accepted
    -- The pool had room, and it holds as many shares as there are candidates.
    have hroom : s.candidates.length < s.config.policy.globalShareCap := by
      have := (h.holds.accept haccept).2
      rwa [List.length_map, h.cap] at this
    rw [if_neg (Nat.not_le.mpr hroom)]
    exact .inr ⟨_, _, _, _, haccept, rfl⟩

theorem InStep.admitBody (h : s.InStep) (now : ℤ) (ip : String) (body : Value) (canonTag : UInt8)
    (rewardPk : Option String) (signedWork : Option ShareWorkAuthorization) :
    (s.admitBodyWithSubmitterContext lc now ip body canonTag rewardPk signedWork).1.InStep := by
  rcases h.admit_cases now ip body canonTag rewardPk signedWork with
    ⟨err, heq⟩ | ⟨submission, digest, limiter, pool, haccept, heq⟩
  · rw [heq]
    exact h
  · rw [heq]
    have hframe : pool.globalShareCap = s.pool.globalShareCap ∧ pool.currentC = s.pool.currentC := by
      obtain ⟨-, -, -, rfl⟩ := SharePool.accept_eq_ok haccept
      exact ⟨rfl, rfl⟩
    refine ⟨?_, hframe.1.trans h.cap, hframe.2.trans h.head⟩
    rw [List.map_append]
    exact (h.holds.accept haccept).1

/-- A candidate that is found can be reserved. -/
theorem InStep.reserve (h : s.InStep) {index : ℕ} {candidate : CandidateShare}
    (hindex : s.candidates[index]? = some candidate) :
    ∃ pool, s.pool.reserveForSemanticCheck (poolShareForCandidate candidate) = some pool ∧
      ({ s with pool, candidates := s.candidates.eraseIdx index } : RuntimeAdmissionState).InStep := by
  have hshare : (s.candidates.map poolShareForCandidate)[index]?
      = some (poolShareForCandidate candidate) := by simp [hindex]
  obtain ⟨pool, hpool, hholds, hc, hcap⟩ := h.holds.reserve hshare
  refine ⟨pool, hpool, ?_, hcap.trans h.cap, hc.trans h.head⟩
  rw [List.eraseIdx_map] at hholds
  exact hholds

/-- The place of a candidate is one where a candidate with the hash is. -/
theorem positionOf_eq_some {shareHash : String} {index : ℕ} (h : s.positionOf shareHash = some index) :
    ∃ candidate, s.candidates[index]? = some candidate ∧ candidate.shareHash = shareHash := by
  obtain ⟨hlt, hhash, -⟩ := List.findIdx?_eq_some_iff_getElem.mp h
  exact ⟨_, List.getElem?_eq_getElem hlt, of_decide_eq_true hhash⟩

theorem positionOf_isSome {shareHash : String}
    (h : ∃ candidate ∈ s.candidates, candidate.shareHash = shareHash) :
    ∃ index, s.positionOf shareHash = some index := by
  obtain ⟨candidate, hmem, hhash⟩ := h
  rw [← Option.isSome_iff_exists, positionOf, List.findIdx?_isSome, List.any_eq_true]
  exact ⟨candidate, hmem, decide_eq_true hhash⟩

/-- **Quarantine finds nothing, or answers `true`.** -/
theorem InStep.quarantine (h : s.InStep) (shareHash : String) :
    (s.quarantineCandidate shareHash).1.InStep ∧
      ((∃ candidate ∈ s.candidates, candidate.shareHash = shareHash) →
        (s.quarantineCandidate shareHash).2 = true) := by
  cases hpos : s.positionOf shareHash with
  | none =>
    refine ⟨by simpa [quarantineCandidate, hpos] using h, fun hmem => ?_⟩
    obtain ⟨index, hindex⟩ := positionOf_isSome hmem
    simp [hpos] at hindex
  | some index =>
    obtain ⟨candidate, hget, -⟩ := positionOf_eq_some hpos
    obtain ⟨pool, hpool, hstep⟩ := h.reserve hget
    simp only [quarantineCandidate, hpos, hget, hpool, Option.bind_some, Option.map_some,
      Option.isSome_some, implies_true, and_true]
    exact hstep

/-- **Taking finds nothing, or takes a candidate with the hash.** -/
theorem InStep.take (h : s.InStep) (shareHash : String) (admittedAt : ℤ) (peerIp : String) :
    (s.takeCandidateForReverify shareHash admittedAt peerIp).1.InStep ∧
      ((∃ candidate ∈ s.candidates, candidate.shareHash = shareHash) →
        ∃ candidate ∈ s.candidates, candidate.shareHash = shareHash ∧
          (s.takeCandidateForReverify shareHash admittedAt peerIp).2 = some candidate) := by
  cases hpos : s.positionOf shareHash with
  | none =>
    refine ⟨by simpa [takeCandidateForReverify, hpos] using h, fun hmem => ?_⟩
    obtain ⟨index, hindex⟩ := positionOf_isSome hmem
    simp [hpos] at hindex
  | some index =>
    obtain ⟨candidate, hget, hhash⟩ := positionOf_eq_some hpos
    obtain ⟨pool, hpool, hstep⟩ := h.reserve hget
    simp only [takeCandidateForReverify, hpos, hget, hpool, Option.bind_some, Option.map_some]
    exact ⟨hstep, fun _ => ⟨candidate, List.mem_of_getElem? hget, hhash, rfl⟩⟩

theorem InStep.restore (h : s.InStep) (candidate : CandidateShare) :
    (s.restoreReverifiedCandidate candidate).1.InStep := by
  simp only [restoreReverifiedCandidate]
  split_ifs with hrefused
  · exact h
  cases hpool : s.pool.restoreAfterSemanticCheck (poolShareForCandidate candidate) with
  | none => exact h
  | some pool =>
    obtain ⟨hholds, hc, hcap⟩ := h.holds.restore hpool
    exact ⟨by rwa [List.map_append], hcap.trans h.cap, hc.trans h.head⟩

theorem InStep.release (h : s.InStep) (candidate : CandidateShare) (admittedAt : ℤ)
    (peerIp : String) : (s.releaseSemanticReservation candidate admittedAt peerIp).1.InStep where
  holds := h.holds.release (poolShareForCandidate candidate)
  cap := (s.pool.releaseSemanticReservation_frame (poolShareForCandidate candidate)).2.trans h.cap
  head := (s.pool.releaseSemanticReservation_frame (poolShareForCandidate candidate)).1.trans h.head

end RuntimeAdmissionState

/-! ## Runs -/

open RuntimeAdmissionState

/-- A call to the runtime, with everything it is given from outside.  A candidate that is restored
or released is any that a verifier may come back with. -/
inductive RuntimeCall
  | setCurrentC (c : String)
  | observeTicket (body : Value)
  | admitBody (now : ℤ) (ip : String) (body : Value) (canonTag : UInt8) (rewardPk : Option String)
      (signedWork : Option ShareWorkAuthorization)
  | take (shareHash : String) (admittedAt : ℤ) (peerIp : String)
  | restore (candidate : CandidateShare)
  | release (candidate : CandidateShare) (admittedAt : ℤ) (peerIp : String)
  | quarantine (shareHash : String)
  | commit (disk : Disk) (height ts : ℕ) (acceptedCanonTags : ExtTreeSet UInt8)
      (promotedBountyShares : List PromotedBountyShare)
  | ingest (disk : Disk) (block : PersistedBlock)
  | reorg (disk : Disk) (nowMs : ℕ) (candidate : List PersistedBlock) (genesis : GenesisSpec)

/-- The state after a call. -/
def RuntimeCall.run (lc : LaneCrypto) (s : RuntimeAdmissionState) :
    RuntimeCall → RuntimeAdmissionState
  | .setCurrentC c => s.setCurrentC c
  | .observeTicket body => (s.observeTicketFromBody body).1
  | .admitBody now ip body canonTag rewardPk signedWork =>
    (s.admitBodyWithSubmitterContext lc now ip body canonTag rewardPk signedWork).1
  | .take shareHash admittedAt peerIp => (s.takeCandidateForReverify shareHash admittedAt peerIp).1
  | .restore candidate => (s.restoreReverifiedCandidate candidate).1
  | .release candidate admittedAt peerIp =>
    (s.releaseSemanticReservation candidate admittedAt peerIp).1
  | .quarantine shareHash => (s.quarantineCandidate shareHash).1
  | .commit disk height ts acceptedCanonTags promotedBountyShares =>
    (s.commitUsingCache lc disk height ts acceptedCanonTags promotedBountyShares).1
  | .ingest disk block => (ingestExternalBlock disk s block).1
  | .reorg disk nowMs candidate genesis =>
    (s.reorgToHeavierChain lc disk nowMs candidate genesis).1

/-- A runtime before its first call: no shares, and whatever chain it was booted with. -/
def RuntimeAdmissionState.Fresh (s : RuntimeAdmissionState) : Prop :=
  s.pool = .fromPolicy s.config.policy ∧ s.currentC = none ∧ s.candidates = []

theorem RuntimeAdmissionState.fresh_new (config : RuntimeConfig) : (new config).Fresh :=
  ⟨rfl, rfl, rfl⟩

theorem RuntimeAdmissionState.Fresh.inStep {s : RuntimeAdmissionState} (h : s.Fresh) : s.InStep := by
  obtain ⟨hpool, hhead, hcandidates⟩ := h
  refine ⟨?_, ?_, ?_⟩
  · rw [hpool, hcandidates]
    exact SharePool.holds_new _ _
  · rw [hpool]
    rfl
  · rw [hpool, hhead]
    rfl

theorem RuntimeCall.inStep {lc : LaneCrypto} {s : RuntimeAdmissionState} (h : s.InStep)
    (call : RuntimeCall) : (call.run lc s).InStep := by
  cases call with
  | setCurrentC c => exact h.setCurrentC c
  | observeTicket body => exact h.observe body
  | admitBody now ip body canonTag rewardPk signedWork =>
    exact h.admitBody now ip body canonTag rewardPk signedWork
  | take shareHash admittedAt peerIp => exact (h.take shareHash admittedAt peerIp).1
  | restore candidate => exact h.restore candidate
  | release candidate admittedAt peerIp => exact h.release candidate admittedAt peerIp
  | quarantine shareHash => exact (h.quarantine shareHash).1
  | commit disk height ts acceptedCanonTags promoted =>
    exact h.commit disk height ts acceptedCanonTags promoted
  | ingest disk block => exact h.ingest disk block
  | reorg disk nowMs candidate genesis => exact h.reorg disk nowMs candidate genesis

/-- A run keeps the two sides in step. -/
theorem inStep_of_run {lc : LaneCrypto} {s : RuntimeAdmissionState} (h : s.InStep)
    (calls : List RuntimeCall) : (calls.foldl (RuntimeCall.run lc) s).InStep := by
  induction calls generalizing s with
  | nil => exact h
  | cons call calls ih => exact ih (call.inStep h)

/-- What a share of the pool and a candidate are compared by. -/
abbrev ShareIdentity := String × String × String × String

def poolIdentity (share : PoolShare) : ShareIdentity := (share.pk, share.n, share.j, share.c)

def candidateIdentity (candidate : CandidateShare) : ShareIdentity :=
  (candidate.pk, candidate.n, candidate.j, candidate.c)

theorem RuntimeAdmissionState.InStep.perm {s : RuntimeAdmissionState} (h : s.InStep) :
    ((s.pool.byKey.toList.map Prod.snd).map poolIdentity).Perm
        (s.candidates.map candidateIdentity) ∧
      (s.candidates.map candidateIdentity).Nodup := by
  have hmap : (s.candidates.map poolShareForCandidate).map poolIdentity =
      s.candidates.map candidateIdentity := by
    rw [List.map_map]
    rfl
  refine ⟨hmap ▸ (Listed.perm_values h.holds).map poolIdentity, ?_⟩
  -- The key of a share is a function of its identity.
  have hkeys := Listed.nodup h.holds
  rw [Listed.order_eq h.holds, show shareKey =
    (fun id : ShareIdentity => shareKey ⟨"", id.1, id.2.1, id.2.2.1, id.2.2.2⟩) ∘ poolIdentity
    from rfl, ← List.map_map, hmap] at hkeys
  exact List.Nodup.of_map _ hkeys

/-- **In every run the candidates and the active shares of the pool correspond one to one.**  So an
admitted share always becomes a candidate, and one for the head where there is a head; a candidate
can always be taken; and quarantine answers `true` whenever it finds one. -/
theorem runtime_in_lockstep (lc : LaneCrypto) {start : RuntimeAdmissionState} (hstart : start.Fresh)
    (calls : List RuntimeCall) {s : RuntimeAdmissionState}
    (hs : s = calls.foldl (RuntimeCall.run lc) start) :
    ((s.pool.byKey.toList.map Prod.snd).map poolIdentity).Perm
        (s.candidates.map candidateIdentity) ∧
    (s.candidates.map candidateIdentity).Nodup ∧
    (∀ now ip body canonTag rewardPk signedWork digest t,
      s.admitBodyWithSubmitterContext lc now ip body canonTag rewardPk signedWork = (t, .ok digest) →
      ∃ candidate, candidate.shareHash = digest.toHex ∧ t.candidates = s.candidates ++ [candidate] ∧
        (s.currentC ≠ none → candidate ∈ t.candidateSharesForCurrentC)) ∧
    (∀ shareHash admittedAt peerIp,
      (∃ candidate ∈ s.candidates, candidate.shareHash = shareHash) →
      ∃ candidate ∈ s.candidates, candidate.shareHash = shareHash ∧
        (s.takeCandidateForReverify shareHash admittedAt peerIp).2 = some candidate) ∧
    ∀ shareHash, (∃ candidate ∈ s.candidates, candidate.shareHash = shareHash) →
      (s.quarantineCandidate shareHash).2 = true := by
  have h : s.InStep := hs ▸ inStep_of_run hstart.inStep calls
  refine ⟨h.perm.1, h.perm.2, ?_, fun shareHash admittedAt peerIp =>
    (h.take shareHash admittedAt peerIp).2, fun shareHash => (h.quarantine shareHash).2⟩
  intro now ip body canonTag rewardPk signedWork digest t hadmit
  rcases @InStep.admit_cases lc s h now ip body canonTag rewardPk signedWork with
    ⟨err, heq⟩ | ⟨submission, digest', limiter, pool, haccept, heq⟩
  · rw [heq] at hadmit
    cases hadmit
  rw [heq] at hadmit
  obtain ⟨rfl, hdigest⟩ := Prod.mk.inj hadmit
  obtain rfl := Except.ok.inj hdigest
  refine ⟨candidateFor lc submission digest' canonTag rewardPk signedWork, rfl, rfl,
    fun hhead => ?_⟩
  obtain ⟨c, hc⟩ := Option.ne_none_iff_exists'.mp hhead
  have hfor : submission.cHex = c :=
    (SharePool.accept_eq_ok haccept).1 c (by rw [h.head, hc]; rfl)
  simp [candidateSharesForCurrentC, hc, candidateFor, hfor]

namespace RuntimeSample

/-- Targets that every hash of the sample lane meets, and room for four shares. -/
def config : RuntimeConfig where
  policy := {
    thresholds := ⟨255, 255, 254, 255⟩
    kMax := 4
    shareCapPerPkBlock := 4
    globalShareCap := 4
    l := 16384
    dMax := 1024
    m := 1
    perIpRateLimitPer60s := 10
    minShareScoreMultiplierNanos := 1000000000 }
  admissionWindowMs := 60000
  difficultyRetarget := none

/-- A submission at the zero head, without a seed. -/
def body : Value :=
  .object [("bytes", .string Sample.package), ("c", .string zeroAnchor), ("j", .string zeroAnchor),
    ("n", .string zeroAnchor), ("nonceS", .string zeroAnchor), ("pk", .string Sample.miner)]

/-- The head is set, a ticket is seen, and a share is admitted. -/
def calls : List RuntimeCall :=
  [.setCurrentC zeroAnchor, .observeTicket body, .admitBody 1000 "10.0.0.1" body 0 none none]

/-- The state after these calls. -/
def admitted : RuntimeAdmissionState := calls.foldl (RuntimeCall.run Sample.lane) (.new config)

theorem candidates_admitted : admitted.candidates.map CandidateShare.shareHash
    = [(1 : Hex32).toHex] := by decide +kernel

end RuntimeSample

/-- The one share that was admitted is active in the pool, and can be put under quarantine. -/
theorem runtime_in_lockstep_sample :
    RuntimeSample.admitted.pool.byKey.toList.length = 1 ∧
      (RuntimeSample.admitted.quarantineCandidate (1 : Hex32).toHex).2 = true := by
  obtain ⟨hperm, -, -, -, hquarantine⟩ := runtime_in_lockstep Sample.lane
    (RuntimeAdmissionState.fresh_new RuntimeSample.config) RuntimeSample.calls
    (s := RuntimeSample.admitted) rfl
  have hhashes := RuntimeSample.candidates_admitted
  refine ⟨?_, hquarantine _ ?_⟩
  · have hlength := congrArg List.length hhashes
    simpa using hperm.length_eq.trans (by simpa using hlength)
  · have hmem : (1 : Hex32).toHex ∈ RuntimeSample.admitted.candidates.map CandidateShare.shareHash := by
      rw [hhashes]
      exact List.mem_singleton_self _
    exact List.mem_map.mp hmem

end Node
