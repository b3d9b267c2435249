import Boole.Library.Index
import Boole.Library.Effect
import Boole.Node.Ledgers

/-!
# Node/BountyEvents — the bounty events in memory

`BountyEventLedger` of `boole-core`'s `bounty_ledger.rs`: a list of events with three indexes.  **The
indexes are exact after any calls** (`BountyEventLedger.appends_indexed`), those that fail included,
since an event is checked before anything is written.

The check asks for fields by the kind of an event, and two kinds, the payments and promotions that
blocks write, need no `workId` and no `verifierKind`; the indexes expect both.  An event of these kinds
without them passes the check and makes the call panic.
-/

open Std Library Library.Json
open Core

namespace Node

/-- How a call of `append` fails. -/
inductive AppendFailure
  | refused (message : String)
  /-- An `expect` that did not hold. -/
  | panicked (message : String)
deriving DecidableEq

structure BountyEventLedger where
  events : List Value := []
  byWorkId : ExtTreeMap String (List Value) := ∅
  bySolverPk : ExtTreeMap String (List Value) := ∅
  byVerifierKind : ExtTreeMap String (List Value) := ∅

variable (self : BountyEventLedger)

namespace BountyEventLedger

def orPanic (x : Option String) (message : String) :
    EStateM AppendFailure BountyEventLedger String :=
  match x with
  | some text => pure text
  | none => throw (.panicked message)

def append (event : Value) : EStateM AppendFailure BountyEventLedger Unit := do
  match validateBountyLedgerEvent event with
  | .error message => throw (.refused message)
  | .ok () => pure ()
  let workId ← orPanic (event.getStr "workId") "validated workId"
  let verifierKind ← orPanic (event.getStr "verifierKind") "validated verifierKind"
  modify fun self => { self with byWorkId := pushOrCreate self.byWorkId workId event }
  modify fun self =>
    { self with byVerifierKind := pushOrCreate self.byVerifierKind verifierKind event }
  if event.getStr "kind" = some "proof" then
    match event.getStr "solverPk" with
    | some solverPk =>
      modify fun self => { self with bySolverPk := pushOrCreate self.bySolverPk solverPk event }
    | none => pure ()
  modify fun self => { self with events := self.events ++ [event] }

def getAll : List Value := self.events

def getByWorkId (workId : String) : List Value :=
  self.byWorkId[workId]?.getD []

def getBySolverPk (pk : String) : List Value :=
  self.bySolverPk[pk]?.getD []

def getByVerifierKind (kind : String) : List Value :=
  self.byVerifierKind[kind]?.getD []

/-! ## One call -/

/-- The key of an event in the index of solvers. -/
def solverOf (event : Value) : Option String :=
  if event.getStr "kind" = some "proof" then event.getStr "solverPk" else none

/-- The ledger after an event was stored. -/
def stored (event : Value) (workId verifierKind : String) : BountyEventLedger where
  events := self.events ++ [event]
  byWorkId := pushOrCreate self.byWorkId workId event
  bySolverPk := (solverOf event).elim self.bySolverPk (pushOrCreate self.bySolverPk · event)
  byVerifierKind := pushOrCreate self.byVerifierKind verifierKind event

/-- **What a call does:** it refuses, it panics, or it stores the event; the first two write
nothing. -/
inductive Appends (self : BountyEventLedger) (event : Value) :
    EStateM.Result AppendFailure BountyEventLedger Unit → Prop
  | refused {message : String} (h : validateBountyLedgerEvent event = .error message) :
      Appends self event (.error (.refused message) self)
  | panicked (h : validateBountyLedgerEvent event = .ok ()) {message : String}
      (hfield : event.getStr "workId" = none ∨ event.getStr "verifierKind" = none) :
      Appends self event (.error (.panicked message) self)
  | ok (h : validateBountyLedgerEvent event = .ok ()) {workId verifierKind : String}
      (hwork : event.getStr "workId" = some workId)
      (hkind : event.getStr "verifierKind" = some verifierKind) :
      Appends self event (.ok () (self.stored event workId verifierKind))

theorem appends (event : Value) : Appends self event (append event self) := by
  unfold append
  cases hvalid : validateBountyLedgerEvent event with
  | error message => exact .refused hvalid
  | ok _ =>
    cases hwork : event.getStr "workId" with
    | none => exact .panicked hvalid (.inl hwork)
    | some workId =>
      cases hkind : event.getStr "verifierKind" with
      | none => exact .panicked hvalid (.inr hkind)
      | some verifierKind =>
        have hok : Appends self event (.ok () (self.stored event workId verifierKind)) :=
          .ok hvalid hwork hkind
        unfold stored solverOf at hok
        split_ifs at hok with hproof
        · rw [if_pos hproof]
          cases hsolver : event.getStr "solverPk" with
          | none =>
            rw [hsolver] at hok
            exact hok
          | some solverPk =>
            rw [hsolver] at hok
            exact hok
        · rw [if_neg hproof]
          exact hok

/-- An event of a kind that blocks write carries what the indexes need. -/
def Indexable (event : Value) : Prop :=
  event.getStr "kind" = some "credit" ∨ event.getStr "kind" = some "share_promoted" →
    event.getStr "workId" ≠ none ∧ event.getStr "verifierKind" ≠ none

theorem ne_none_of_hasText {event : Value} {key : String} (h : hasText event key = true) :
    event.getStr key ≠ none := by
  intro hnone
  rw [hasText, hnone] at h
  cases h

/-- An event that passed the check and is of another kind carries it too. -/
theorem fields_of_valid {event : Value} (h : validateBountyLedgerEvent event = .ok ())
    (hindexable : Indexable event) :
    event.getStr "workId" ≠ none ∧ event.getStr "verifierKind" ≠ none := by
  have hnamed {kind : String} (hkind : (event.getStr "kind").getD "" = kind) (hne : kind ≠ "") :
      event.getStr "kind" = some kind := by
    cases hget : event.getStr "kind" with
    | none =>
      rw [hget] at hkind
      exact absurd hkind.symm hne
    | some text =>
      rw [hget] at hkind
      rw [← hkind, Option.getD_some]
  simp only [validateBountyLedgerEvent, bind_eq_ok] at h
  obtain ⟨_, -, _, -, h⟩ := h
  split at h
  · rename_i hkind
    exact hindexable (.inr (hnamed hkind (by decide)))
  · split_ifs at h with hkind
    · exact hindexable (.inl (hnamed hkind (by decide)))
    · simp only [validateRouteEvent, bind_eq_ok, ensure_eq_ok] at h
      obtain ⟨_, hwork, _, -, _, hverifier, -⟩ := h
      exact ⟨ne_none_of_hasText hwork, ne_none_of_hasText hverifier⟩

/-! ## Any calls -/

/-- The ledger after a call, whatever its result. -/
def after (event : Value) : BountyEventLedger :=
  finalState (append event self)

/-- The three indexes are exact. -/
structure Indexed (ledger : BountyEventLedger) : Prop where
  works : Indexes (·.getStr "workId") ledger.events ledger.byWorkId
  solvers : Indexes solverOf ledger.events ledger.bySolverPk
  kinds : Indexes (·.getStr "verifierKind") ledger.events ledger.byVerifierKind

theorem indexed_new : Indexed {} := ⟨indexes_nil _, indexes_nil _, indexes_nil _⟩

theorem Indexed.after {self : BountyEventLedger} (h : self.Indexed) (event : Value) :
    (self.after event).Indexed := by
  have happend := self.appends event
  rw [BountyEventLedger.after]
  generalize append event self = result at happend
  cases happend with
  | refused | panicked => exact h
  | ok _ hwork hkind =>
    refine ⟨h.works.append hwork, ?_, h.kinds.append hkind⟩
    cases hsolver : solverOf event with
    | none =>
      have := h.solvers.skip hsolver
      rwa [finalState, stored, hsolver]
    | some pk =>
      have := h.solvers.append hsolver
      rwa [finalState, stored, hsolver]

/-- **The indexes are exact after any calls.** -/
theorem appends_indexed (calls : List Value) : Indexed (calls.foldl after {}) := by
  induction calls using List.reverseRecOn with
  | nil => exact indexed_new
  | append_singleton calls event ih =>
    rw [List.foldl_append]
    exact ih.after event

/-- A key of 32 bytes. -/
def sampleKey : String := "0000000000000000000000000000000000000000000000000000000000000000"

/-- A payment as the node writes it for a block. -/
def samplePayment : Value :=
  .object [("amount", .string "1"), ("bountyId", .string "b"), ("c", .string sampleKey),
    ("familyId", .string "f"), ("height", jsonNat 0), ("kind", .string "credit"),
    ("prover", .string sampleKey), ("schemaVersion", jsonNat 1)]

/-- A proof event. -/
def sampleProof : Value :=
  .object [("accepted", .bool true), ("kind", .string "proof"), ("problemHash", .string sampleKey),
    ("proofHash", .string sampleKey), ("schemaVersion", jsonNat 1), ("solverPk", .string sampleKey),
    ("ts", jsonNat 0), ("verifierKind", .string "lean"), ("workId", .string "b")]

end BountyEventLedger

end Node
