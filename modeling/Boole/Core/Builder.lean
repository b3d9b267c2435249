import Boole.Core.Admission
import Boole.Core.Replay

/-!
# Core/Builder — which candidate shares become a block

`boole-core`'s `block_builder.rs`.  Candidates are filtered, ranked by score, cut to the block size,
and put in the canonical order in which replay expects them; the first one below the target
proposes.

    candidates ──filter──▸ ──rank──▸ ──one per proof──▸ ──take kMax──▸ ──kernel tags──▸ canonical order
-/

open Std Library Library.Json

namespace Core

structure CandidateShare where
  label : String
  pk : String
  rewardPk : String
  n : String
  j : String
  c : String
  shareHash : String
  score : String
  canonTag : UInt8
  canonHash : String
  proofPackage : String
  seedHex : String
  signedWork : Option ShareWorkAuthorization
deriving DecidableEq

def CandidateShare.canonicalOrderKey (self : CandidateShare) : CanonicalOrderKey :=
  ⟨self.pk, self.n, self.j⟩

structure BlockBuilderConfig where
  tBlock : String
  tShare : String
  minShareScore : ℕ
  minShareScoreMultiplierNanos : ℕ
  kMax : ℕ
  difficultyEpoch : ℕ
  difficultyWeight : String
deriving DecidableEq

namespace BlockBuilderConfig

/-- The multiplier is the rule's, and not the one of the policy. -/
def fromPolicyWithTBlock (policy : CalibrationPolicy) (tBlock : String) (difficultyEpoch : ℕ) :
    Result BlockBuilderConfig := do
  let floor ← Core.minShareScore policy.thresholds.tShare Core.minShareScoreMultiplierNanos
  let tBlockValue ← parseBiguintHex tBlock
  let weight ← Core.difficultyWeight tBlockValue
  pure {
    tBlock
    tShare := hexTarget policy.thresholds.tShare
    minShareScore := floor
    minShareScoreMultiplierNanos := Core.minShareScoreMultiplierNanos
    kMax := policy.kMax
    difficultyEpoch
    difficultyWeight := toString weight }

def fromPolicy (policy : CalibrationPolicy) : Result BlockBuilderConfig :=
  fromPolicyWithTBlock policy (hexTarget policy.thresholds.tBlock) 0

end BlockBuilderConfig

structure BuiltBlockSelection where
  selected : List CandidateShare
  proposerIndex : ℕ
  tiedProposerCount : ℕ
  droppedBelowMinScore : ℕ
  droppedKernelReject : ℕ
  truncatedByKmax : ℕ
  kernelCheckedTags : List UInt8
  kernelAccepted : List Bool
  promotedBountyShares : List PromotedBountyShare
deriving DecidableEq

inductive BuildSelectionResult
  | ok (selection : BuiltBlockSelection)
  | noProposer (droppedKernelReject : ℕ) (kernelCheckedTags : List UInt8)
      (kernelAccepted : List Bool)
deriving DecidableEq

/-! ## Filtering -/

def parseScoreDecimal (value : String) : Result ℕ :=
  mapErr (fun err => s!"invalid decimal score: {err}") (parseBiguint value)

/-- The key a candidate is paid to. -/
def CandidateShare.payee (share : CandidateShare) : String :=
  if share.rewardPk = "" then share.pk else share.rewardPk

/-- A verified authorization signs this very candidate. -/
def VerifiedShareAuthorization.signs (verified : VerifiedShareAuthorization)
    (share : CandidateShare) : Bool :=
  verified.signerPk = share.pk ∧ verified.workPk = share.pk ∧ verified.workN = share.n ∧
    verified.workJ = share.j ∧ verified.workC = share.c ∧
    verified.workBytesHex = share.proofPackage ∧ verified.rewardRecipient = share.payee

/-- What the loop over the candidates gathers. -/
structure ScoreSurvivors where
  droppedBelowMinScore : ℕ := 0
  scoreSurvivors : List CandidateShare := []

/-- One candidate.  One that is for another head, was credited before, or is not authorized is passed
over; a score that is no number ends the loop. -/
def surveyShare (lc : LaneCrypto) (chainHead : String) (cfg : BlockBuilderConfig)
    (creditedCanonHashes : ExtTreeSet String) (expectedNetworkId : Option String)
    (s : ScoreSurvivors) (share : CandidateShare) : Result ScoreSurvivors :=
  if share.c ≠ chainHead then pure s
  else if share.canonHash ≠ "" ∧ creditedCanonHashes.contains share.canonHash then pure s
  else match verifyShareWorkAuthorizationForNetwork lc share.signedWork expectedNetworkId with
    | .error _ => pure s
    | .ok verified =>
      if verified.any fun verified => ¬ verified.signs share then pure s
      else do
        let score ← parseScoreDecimal share.score
        pure (if score < cfg.minShareScore then
            { s with droppedBelowMinScore := s.droppedBelowMinScore + 1 }
          else { s with scoreSurvivors := s.scoreSurvivors ++ [share] })

/-- The score of a candidate, for ranking. -/
def CandidateShare.rank (share : CandidateShare) : ℕ :=
  (parseScoreDecimal share.score).toOption.getD 0

def comparePreselection (a b : CandidateShare) : Ordering :=
  (compare b.rank a.rank).then (compareCanonical a.canonicalOrderKey b.canonicalOrderKey)

/-- Of the candidates with one proof the first stays. -/
def retainFirst : ExtTreeSet String → List CandidateShare → List CandidateShare
  | _, [] => []
  | selectedCanonHashes, share :: rest =>
    if share.canonHash = "" then share :: retainFirst selectedCanonHashes rest
    else if selectedCanonHashes.contains share.canonHash then retainFirst selectedCanonHashes rest
    else share :: retainFirst (selectedCanonHashes.insert share.canonHash) rest

def buildBlockSelectionForNetwork (lc : LaneCrypto) (chainHead : String)
    (shares : List CandidateShare) (cfg : BlockBuilderConfig)
    (acceptedCanonTags : ExtTreeSet UInt8) (creditedCanonHashes : ExtTreeSet String)
    (promotedBountyShares : List PromotedBountyShare) (expectedNetworkId : Option String) :
    Result BuildSelectionResult := do
  let tBlock ← normalizeHex256 cfg.tBlock
  let survey ← shares.foldlM
    (surveyShare lc chainHead cfg creditedCanonHashes expectedNetworkId) {}
  let ranked := survey.scoreSurvivors.insertionSort fun a b => comparePreselection a b ≠ .gt
  let distinct := retainFirst ∅ ranked
  let preselected := distinct.take cfg.kMax
  let accepted := fun share : CandidateShare => acceptedCanonTags.contains share.canonTag
  let survivors := (preselected.filter accepted).insertionSort fun a b =>
    compareCanonical a.canonicalOrderKey b.canonicalOrderKey ≠ .gt
  let (winnerIndex, tiedProposerCount) ←
    selectQualifyingProposer (survivors.map CandidateShare.shareHash) tBlock
  let droppedKernelReject := preselected.countP fun share => ¬ accepted share
  let kernelCheckedTags := preselected.map CandidateShare.canonTag
  let kernelAccepted := preselected.map accepted
  pure (match winnerIndex with
    | none => .noProposer droppedKernelReject kernelCheckedTags kernelAccepted
    | some proposerIndex => .ok {
        selected := survivors, proposerIndex, tiedProposerCount
        droppedBelowMinScore := survey.droppedBelowMinScore
        droppedKernelReject, truncatedByKmax := distinct.length - cfg.kMax
        kernelCheckedTags, kernelAccepted, promotedBountyShares })

end Core
