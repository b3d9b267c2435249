import Boole.Core.Block
import Boole.Core.Package
import Boole.Core.RateLimiter
import Boole.Core.SharePool
import Boole.Library.HexBytes

/-!
# Core/Admission — from a submitted body to a share in the pool

`boole-core`'s `config.rs` (the policy), `admission_types.rs` and `admission.rs`.  The checks are
made in a fixed order and the first that fails decides; **only a share that passes all of them
changes the limiter and the pool**, which is why a refusal returns no state.

    body ──▸ head ──▸ ticket ──▸ seed ──▸ package ──▸ work ──▸ quota ──▸ pool
-/

open Library Library.Json
open Native (Hex32 Crypto Hex32Error)

namespace Core

/-! ## Policy -/

structure CalibrationThresholds where
  tSubmit : ℕ
  tShare : ℕ
  tBlock : ℕ
  tTicket : ℕ
deriving DecidableEq

structure CalibrationPolicy where
  thresholds : CalibrationThresholds
  kMax : ℕ
  shareCapPerPkBlock : ℕ
  globalShareCap : ℕ
  l : ℕ
  dMax : ℕ
  m : ℤ
  perIpRateLimitPer60s : ℕ
  minShareScoreMultiplierNanos : ℕ
deriving DecidableEq

def SharePool.fromPolicy (policy : CalibrationPolicy) : SharePool :=
  .newWithGlobalCap policy.shareCapPerPkBlock policy.globalShareCap

def RateLimiter.fromPolicy (policy : CalibrationPolicy) (windowMs : ℤ) : RateLimiter :=
  .new policy.m policy.perIpRateLimitPer60s windowMs

/-! ## Refusals -/

inductive AdmissionStatus
  | badRequest
  | unprocessableEntity
  | rateLimited
deriving DecidableEq

inductive TicketRejectReason
  | aboveTTicket
  | unobserved
deriving DecidableEq

inductive SubmitPowRejectReason
  | aboveTSubmit
deriving DecidableEq

inductive SeedBindingRejectReason
  | notDerivedFromContext
deriving DecidableEq

inductive AdmissionError
  | missingField (field : String)
  | invalidFieldType (field expected : String)
  | badHex (field detail : String)
  | ticket (reason : TicketRejectReason)
  | validator (reason : ValidationReason)
  | submitPow (reason : SubmitPowRejectReason)
  | seedBinding (reason : SeedBindingRejectReason)
  | rateLimited (reason : RateLimitRejectReason)
  | sharePool (reason : SharePoolRejectReason)
deriving DecidableEq

/-- The status that `reject` is called with for an error. -/
def AdmissionError.status : AdmissionError → AdmissionStatus
  | .missingField _ | .invalidFieldType _ _ | .badHex _ _ => .badRequest
  | .rateLimited _ => .rateLimited
  | _ => .unprocessableEntity

/-- A decision: the hash of an accepted share, or the error.  The stage and the status that a
refusal carries besides are determined by the error. -/
abbrev AdmissionDecision := Except AdmissionError Hex32

/-! ## Parsing -/

structure ParsedSubmission where
  cHex : String
  pkHex : String
  nHex : String
  jHex : String
  nonceSHex : String
  c : Hex32
  pk : Hex32
  n : Hex32
  j : Hex32
  nonceS : Hex32
  packageBytes : List UInt8
  seedHex : String
deriving DecidableEq

def stringField (body : Value) (field : String) : Except AdmissionError String := do
  let value ← okOr (body.get field) (.missingField field)
  okOr value.asStr (.invalidFieldType field "string")

def hexField (field value : String) : Except AdmissionError Hex32 :=
  mapErr (fun err => .badHex field (Hex32Error.message err)) (Hex32.fromHex value)

/-- Every required field is there before any is read; `seedHex` may be missing. -/
def parseSubmissionBody (body : Value) : Except AdmissionError ParsedSubmission := do
  forM ["c", "pk", "n", "j", "nonceS", "bytes"] fun field =>
    ensure ((body.get field).isSome) (AdmissionError.missingField field)
  let cHex ← stringField body "c"
  let pkHex ← stringField body "pk"
  let nHex ← stringField body "n"
  let jHex ← stringField body "j"
  let nonceSHex ← stringField body "nonceS"
  let bytesHex ← stringField body "bytes"
  let c ← hexField "c" cHex
  let pk ← hexField "pk" pkHex
  let n ← hexField "n" nHex
  let j ← hexField "j" jHex
  let nonceS ← hexField "nonceS" nonceSHex
  let packageBytes ← okOr (decodeHex bytesHex) (.badHex "bytes" "invalid hex")
  let seedHex ← (body.get "seedHex").elim (pure "") fun _ => stringField body "seedHex"
  pure { cHex, pkHex, nHex, jHex, nonceSHex, c, pk, n, j, nonceS, packageBytes, seedHex }

/-! ## Admission -/

def checkAdmissionTicket (ticketValid observed : Bool) : Except TicketRejectReason Unit := do
  ensure (ticketValid = true) .aboveTTicket
  ensure (observed = true) .unobserved

/-- The share that a submission is in the pool. -/
def ParsedSubmission.poolShare (s : ParsedSubmission) : PoolShare where
  label := "admission"
  pk := s.pkHex
  n := s.nHex
  j := s.jHex
  c := s.cHex

def admitParsedSubmissionTyped (cr : Crypto) (policy : CalibrationPolicy) (limiter : RateLimiter)
    (pool : SharePool) (now : ℤ) (ip : String) (s : ParsedSubmission) :
    Except AdmissionError (Hex32 × RateLimiter × SharePool) := do
  ensure (pool.currentC.all fun c => c = s.cHex) (.sharePool .staleC)
  mapErr AdmissionError.ticket (checkAdmissionTicket
    ((ticketHash cr s.c s.pk s.n).toNat < policy.thresholds.tTicket)
    (limiter.hasObservedTicket s.pkHex s.cHex s.nHex))
  ensure (s.seedHex = "" ∨ (findTargetSeedJIndex cr s.c s.pk s.n s.seedHex).isSome)
    (.seedBinding .notDerivedFromContext)
  let _ ← mapErr AdmissionError.validator
    (validateProofPackageWithLimits s.packageBytes policy.l policy.dMax)
  let canonHash := cr.sha256 s.packageBytes
  ensure ((submissionPowHash cr s.c s.pk s.nonceS canonHash).toNat < policy.thresholds.tSubmit)
    (.submitPow .aboveTSubmit)
  mapErr AdmissionError.rateLimited (limiter.peek now ip s.pkHex s.cHex)
  let pool ← mapErr AdmissionError.sharePool (pool.accept s.poolShare)
  pure (shareHash cr s.c s.pk s.n s.j canonHash, limiter.commit now ip s.pkHex s.cHex, pool)

/-! ## What an admitted submission passed -/

/-- A submission was taken. -/
structure Admits (cr : Crypto) (policy : CalibrationPolicy) (limiter : RateLimiter)
    (pool pool' : SharePool) (s : ParsedSubmission) (digest : Hex32) : Prop where
  seed : s.seedHex = "" ∨ (findTargetSeedJIndex cr s.c s.pk s.n s.seedHex).isSome
  package : ∃ walked, validateProofPackageWithLimits s.packageBytes policy.l policy.dMax = .ok walked
  ticket : limiter.hasObservedTicket s.pkHex s.cHex s.nHex = true
  accepted : pool.accept s.poolShare = .ok pool'
  digest_eq : digest = shareHash cr s.c s.pk s.n s.j (cr.sha256 s.packageBytes)

theorem admitParsedSubmissionTyped_eq_ok {cr : Crypto} {policy : CalibrationPolicy}
    {limiter limiter' : RateLimiter} {pool pool' : SharePool} {now : ℤ} {ip : String}
    {s : ParsedSubmission} {digest : Hex32}
    (h : admitParsedSubmissionTyped cr policy limiter pool now ip s = .ok (digest, limiter', pool')) :
    Admits cr policy limiter pool pool' s digest := by
  simp only [admitParsedSubmissionTyped, checkAdmissionTicket, bind_eq_ok, ensure_eq_ok,
    mapErr_eq_ok] at h
  obtain ⟨_, -, _, ⟨_, -, hticket⟩, _, hseed, walked, hwalked, _, -, _, -, accepted, haccept,
    rfl, -, rfl⟩ := h
  exact ⟨hseed, ⟨walked, hwalked⟩, hticket, haccept, rfl⟩

end Core
