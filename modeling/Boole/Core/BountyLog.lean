import Boole.Core.Bounties

/-!
# Core/BountyLog — the registry and the events it is rebuilt from

The live operations of `BountyRegistry` and `apply_event`, which rebuilds a registry from the events
of a log.  The replay checks less: a proof event is recorded whatever the status of its bounty, and
over an earlier verdict.

    call ──▸ registry ──▸ registry'
      └──▸ event ─────────apply_event──▸ registry'

**A replay of the logged events arrives at the live registry** (`Logs.applyEvent`), because a live
proof is judged once and only for an open bounty; so a bounty has at most one accepted proof, is
solved when it has one, and never leaves a terminal status.
-/

open Std Library Library.Json

namespace Core

open BountyRegistry

variable {r r' : ListedRegistry} {e : BountyEvent} {bounty : Bounty}

/-! ## The registry with the order of its announcements -/

structure ListedRegistry extends BountyRegistry where
  order : List String

structure UpdateStatusInput where
  id : String
  status : String
  ts : UInt64

inductive BountyEvent
  | create (bounty : Bounty)
  | status (id status : String) (ts : UInt64)
  | proof (bountyId proofHash prover : String) (accepted : Bool) (ts : UInt64)

variable (self : ListedRegistry)

namespace ListedRegistry

def new : ListedRegistry := { BountyRegistry.new with order := [] }

/-- File a bounty that is new. -/
def announce (bounty : Bounty) : ListedRegistry where
  toBountyRegistry := self.put bounty
  order := self.order ++ [bounty.id]

def create (input : CreateBountyInput) : Result (ListedRegistry × Bounty) := do
  let bounty ← self.previewCreate input
  pure (self.announce bounty, bounty)

def updateStatus (input : UpdateStatusInput) : Result (ListedRegistry × Bounty) := do
  let updated ← self.previewUpdateStatus input.id input.status input.ts
  pure ({ self with toBountyRegistry := self.put updated }, updated)

def submitProof (input : SubmitProofInput) : Result (ListedRegistry × SubmitProofResult) := do
  let (registry, result) ← self.toBountyRegistry.submitProof input
  pure ({ self with toBountyRegistry := registry }, result)

/-- The bounties in the order of their announcement. -/
def list : List Bounty := self.order.filterMap self.get

/-- A bounty that a proof event solves. -/
def solve (bounty : Bounty) (ts : UInt64) : Bounty := { bounty with status := "solved", updatedAt := ts }

def applyEvent : BountyEvent → Result ListedRegistry
  | .create bounty => do
    ensure (self.get bounty.id).isNone s!"duplicates id {bounty.id}"
    pure (self.announce bounty)
  | .status id status ts => do
    let existing ← okOr (self.get id) s!"updates unknown id {id}"
    validateStatusTransition existing.status status
    pure { self with toBountyRegistry := self.put { existing with status, updatedAt := ts } }
  | .proof bountyId proofHash _ accepted ts => do
    let bounty ← okOr (self.get bountyId) s!"proof references unknown bounty {bountyId}"
    let recorded := self.recordProof bountyId proofHash accepted
    pure { self with toBountyRegistry :=
      if accepted ∧ bounty.status = "open" then recorded.put (solve bounty ts) else recorded }

/-! ## Calls and what they log -/

end ListedRegistry

inductive RegistryCall
  | create (input : CreateBountyInput)
  | updateStatus (input : UpdateStatusInput)
  | submitProof (input : SubmitProofInput)

namespace ListedRegistry

/-- One call: the registry after it, and the event of a call that succeeded.  A proof that was judged
before is no event. -/
def call : RegistryCall → ListedRegistry × Option BountyEvent
  | .create input =>
    match self.create input with
    | .ok (registry, bounty) => (registry, some (.create bounty))
    | .error _ => (self, none)
  | .updateStatus input =>
    match self.updateStatus input with
    | .ok (registry, _) => (registry, some (.status input.id input.status input.ts))
    | .error _ => (self, none)
  | .submitProof input =>
    match self.submitProof input with
    | .ok (registry, result) =>
      (registry, if result.duplicate then none
        else some (.proof input.bountyId input.proofHash input.prover input.accepted input.ts))
    | .error _ => (self, none)

/-- A run: the registry and the log. -/
def run (acc : ListedRegistry × List BountyEvent) (c : RegistryCall) :
    ListedRegistry × List BountyEvent :=
  ((acc.1.call c).1, acc.2 ++ (acc.1.call c).2.toList)

/-- **What a call that logs an event does.** -/
inductive Logs (r : ListedRegistry) : BountyEvent → ListedRegistry → Prop
  | create {bounty : Bounty} (hnew : r.get bounty.id = none) (hopen : bounty.status = "open") :
      Logs r (.create bounty) (r.announce bounty)
  | status {id status : String} {ts : UInt64} {old : Bounty} (hold : r.get id = some old)
      (hvalid : validateStatusTransition old.status status = .ok ()) :
      Logs r (.status id status ts)
        { r with toBountyRegistry := r.put { old with status, updatedAt := ts } }
  | proof {bountyId proofHash prover : String} {accepted : Bool} {ts : UInt64} {bounty : Bounty}
      (hget : r.get bountyId = some bounty) (hnew : r.hasProof bountyId proofHash = none)
      (hopen : bounty.status = "open") :
      Logs r (.proof bountyId proofHash prover accepted ts)
        { r with toBountyRegistry :=
          if accepted then (r.recordProof bountyId proofHash accepted).put (solve bounty ts)
          else r.recordProof bountyId proofHash accepted }

/-- A call logs nothing and changes nothing, or it does what its event says. -/
theorem call_logs (r : ListedRegistry) (c : RegistryCall) :
    r.call c = (r, none) ∨ ∃ e, (r.call c).2 = some e ∧ Logs r e (r.call c).1 := by
  cases c with
  | create input =>
    rw [call]
    cases h : r.create input with
    | error => exact .inl rfl
    | ok result =>
      simp only [create, bind_eq_ok, previewCreate_eq_ok, pure_eq_ok] at h
      obtain ⟨_, ⟨-, hnew, rfl⟩, rfl⟩ := h
      exact .inr ⟨_, rfl, .create hnew rfl⟩
  | updateStatus input =>
    rw [call]
    cases h : r.updateStatus input with
    | error => exact .inl rfl
    | ok result =>
      simp only [updateStatus, previewUpdateStatus, bind_eq_ok, okOr_eq_ok,
        pure_eq_ok] at h
      obtain ⟨_, ⟨old, hold, _, hvalid, rfl⟩, rfl⟩ := h
      exact .inr ⟨_, rfl, .status hold hvalid⟩
  | submitProof input =>
    rw [call]
    cases h : r.submitProof input with
    | error => exact .inl rfl
    | ok result =>
      simp only [submitProof, BountyRegistry.submitProof, BountyRegistry.previewSubmitProof,
        bind_eq_ok, okOr_eq_ok, pure_eq_ok] at h
      obtain ⟨_, ⟨judgement, ⟨_, -, _, -, bounty, hget, hjudged⟩, rfl⟩, rfl⟩ := h
      split at hjudged
      · obtain rfl := pure_eq_ok.mp hjudged
        exact .inl rfl
      · rename_i hnew
        simp only [bind_eq_ok, ensure_eq_ok, pure_eq_ok] at hjudged
        obtain ⟨_, hopen, rfl⟩ := hjudged
        refine .inr ⟨_, rfl, ?_⟩
        have hsettle : r.settleProof input ⟨input.accepted, false, judged bounty input⟩ =
            if input.accepted then (r.recordProof input.bountyId input.proofHash input.accepted).put
              (solve bounty input.ts)
            else r.recordProof input.bountyId input.proofHash input.accepted := by
          cases h : input.accepted <;> simp [settleProof, judged, h, solve]
        have hlogs : Logs r (.proof input.bountyId input.proofHash input.prover input.accepted input.ts) _ :=
          .proof hget hnew hopen
        rw [← hsettle] at hlogs
        exact hlogs

/-! ## Replay -/

/-- **The event of a call does what the call did.** -/
theorem Logs.applyEvent (h : Logs r e r') :
    r.applyEvent e = .ok r' := by
  cases h with
  | create hnew => simp [ListedRegistry.applyEvent, hnew, ensure_of]
  | status hold hvalid =>
    simp only [ListedRegistry.applyEvent, hold, okOr_some, ok_bind, hvalid]
    rfl
  | @proof _ _ _ accepted _ _ hget _ hopen =>
    cases accepted <;> simp [ListedRegistry.applyEvent, hget, hopen]

/-! ## What a run keeps -/

/-- A status that is not left. -/
def Terminal (status : String) : Prop := status = "solved" ∨ status = "expired" ∨ status = "withdrawn"

theorem not_terminal_of_valid {current next : String}
    (h : validateStatusTransition current next = .ok ()) : ¬Terminal current := by
  simp only [validateStatusTransition, bind_eq_ok] at h
  obtain ⟨_, -, hcurrent⟩ := h
  rintro (rfl | rfl | rfl) <;> simp at hcurrent

theorem not_terminal_open : ¬Terminal "open" := by
  unfold Terminal
  decide

theorem hasProof_put (r : BountyRegistry) (bounty : Bounty) (id proofHash : String) :
    (r.put bounty).hasProof id proofHash = r.hasProof id proofHash := rfl

theorem hasProof_recordProof (r : BountyRegistry) (bountyId proofHash id hash : String)
    (accepted : Bool) : (r.recordProof bountyId proofHash accepted).hasProof id hash =
      if id = bountyId ∧ hash = proofHash then some accepted else r.hasProof id hash := by
  rw [hasProof, recordProof, getElem?_insert]
  by_cases hid : bountyId = id
  · subst hid
    rw [if_pos rfl, Option.bind_some, getElem?_insert, hasProof]
    by_cases hhash : proofHash = hash
    · rw [if_pos hhash, if_pos ⟨rfl, hhash.symm⟩]
    · rw [if_neg hhash, if_neg fun h => hhash h.2.symm]
      cases r.proofs[bountyId]? <;> simp
  · rw [if_neg hid, if_neg fun h => hid h.1.symm]
    rfl

/-- **The verdicts and the statuses of a registry agree.** -/
structure Sound (r : BountyRegistry) : Prop where
  filed : ∀ id proofHash verdict, r.hasProof id proofHash = some verdict → r.get id ≠ none
  once : ∀ id h h', r.hasProof id h = some true → r.hasProof id h' = some true → h = h'
  solved : ∀ id h bounty, r.hasProof id h = some true → r.get id = some bounty →
    bounty.status = "solved"

theorem sound_new : Sound BountyRegistry.new := by
  have hnone (id h : String) : BountyRegistry.new.hasProof id h = none := by
    simp [BountyRegistry.hasProof, BountyRegistry.new]
  constructor <;> simp [hnone]

theorem Sound.put {r : BountyRegistry} (hr : Sound r)
    (hsolved : ∀ h, r.hasProof bounty.id h = some true → bounty.status = "solved") :
    Sound (r.put bounty) := by
  refine ⟨fun id h verdict hv => ?_, hr.once, fun id h b hv hget => ?_⟩
  · rw [get_put]
    split
    · simp
    · exact hr.filed id h verdict hv
  · rw [get_put] at hget
    split_ifs at hget with hid
    · subst hid
      obtain rfl := Option.some.inj hget
      exact hsolved h hv
    · exact hr.solved id h b hv hget

/-- No proof was accepted for a bounty that is not solved. -/
theorem Sound.not_accepted {r : BountyRegistry} (hr : Sound r) {id : String}
    (hget : r.get id = some bounty) (hopen : bounty.status ≠ "solved") (h : String) :
    r.hasProof id h ≠ some true :=
  fun hv => hopen (hr.solved id h bounty hv hget)

theorem Sound.record {r : BountyRegistry} (hr : Sound r) {bountyId proofHash : String}
    (hget : r.get bountyId = some bounty) (hopen : bounty.status = "open") {accepted : Bool}
    {ts : UInt64} :
    Sound (if accepted then (r.recordProof bountyId proofHash accepted).put (solve bounty ts)
      else r.recordProof bountyId proofHash accepted) := by
  have hnone := hr.not_accepted hget (by rw [hopen]; decide)
  have hid := r.keyed _ _ hget
  cases accepted with
  | false =>
    refine ⟨fun id h verdict hv => ?_, fun id h h' hv hv' => ?_, fun id h b hv hb => ?_⟩
    all_goals simp only [Bool.false_eq_true, if_false, hasProof_recordProof] at *
    · split_ifs at hv with heq
      · rw [heq.1]
        simp [hget]
      · exact hr.filed id h verdict hv
    · split at hv
      · cases hv
      · split at hv'
        · cases hv'
        · exact hr.once id h h' hv hv'
    · split at hv
      · cases hv
      · exact hr.solved id h b hv hb
  | true =>
    have hgets (id : String) : ((r.recordProof bountyId proofHash true).put (solve bounty ts)).get id =
        if bountyId = id then some (solve bounty ts) else r.get id := by
      rw [get_put, get_recordProof]
      exact if_congr (by rw [← hid]; rfl) rfl rfl
    refine ⟨fun id h verdict hv => ?_, fun id h h' hv hv' => ?_, fun id h b hv hb => ?_⟩
    all_goals simp only [if_true, hasProof_put, hasProof_recordProof, hgets] at *
    · split_ifs with hne
      · simp
      · rw [if_neg fun heq => hne heq.1.symm] at hv
        exact hr.filed id h verdict hv
    · by_cases hsame : id = bountyId
      · subst hsame
        split_ifs at hv with heq
        · split at hv'
          · rename_i heq'
            rw [heq.2, heq'.2]
          · exact absurd hv' (hnone h')
        · exact absurd hv (hnone h)
      · rw [if_neg fun heq => hsame heq.1] at hv hv'
        exact hr.once id h h' hv hv'
    · split_ifs at hb with hne
      · obtain rfl := Option.some.inj hb
        rfl
      · rw [if_neg fun heq => hne heq.1.symm] at hv
        exact hr.solved id h b hv hb

theorem Logs.sound (h : Logs r e r') (hr : Sound r.toBountyRegistry) :
    Sound r'.toBountyRegistry := by
  cases h with
  | create hnew =>
    exact hr.put fun h hv => absurd hnew (hr.filed _ h true hv)
  | @status id status ts old hold hvalid =>
    have hopen : old.status ≠ "solved" := fun h => not_terminal_of_valid hvalid (.inl h)
    have hid := r.keyed _ _ hold
    refine hr.put fun h hv => absurd hv ?_
    exact hr.not_accepted (hid ▸ hold) hopen h
  | proof hget _ hopen => exact hr.record hget hopen

/-- A bounty in a terminal status is not touched. -/
theorem Logs.absorbing (h : Logs r e r') {id : String} (hget : r.get id = some bounty)
    (hterminal : Terminal bounty.status) :
    r'.get id = some bounty := by
  have hput {registry : BountyRegistry} (hsame : registry.get id = r.get id) {new : Bounty}
      (hne : new.id ≠ id) : (registry.put new).get id = some bounty := by
    rw [get_put, if_neg hne, hsame, hget]
  cases h with
  | create hnew =>
    refine hput rfl ?_
    rintro rfl
    rw [hget] at hnew
    cases hnew
  | @status id' status ts old hold hvalid =>
    have hid := r.keyed _ _ hold
    refine hput rfl fun heq => ?_
    obtain rfl : id' = id := hid.symm.trans heq
    obtain rfl := Option.mem_unique hold hget
    exact not_terminal_of_valid hvalid hterminal
  | @proof bountyId proofHash _ accepted ts b hget' _ hopen =>
    have hid := r.keyed _ _ hget'
    cases accepted with
    | false => exact hget
    | true =>
      refine hput rfl fun heq => ?_
      obtain rfl : bountyId = id := hid.symm.trans heq
      obtain rfl := Option.mem_unique hget' hget
      exact not_terminal_open (hopen ▸ hterminal)

/-! ## Runs -/

/-- A call that changed the registry appended its event. -/
theorem run_cases (acc : ListedRegistry × List BountyEvent) (c : RegistryCall) :
    run acc c = acc ∨ ∃ e r, run acc c = (r, acc.2 ++ [e]) ∧ Logs acc.1 e r := by
  rcases call_logs acc.1 c with heq | ⟨e, he, hlogs⟩
  · exact .inl (by rw [run, heq]; simp)
  · exact .inr ⟨e, _, by rw [run, he]; rfl, hlogs⟩

/-- What holds of every logged change holds of a run. -/
theorem run_invariant {P : ListedRegistry × List BountyEvent → Prop}
    (hstep : ∀ acc e r, P acc → Logs acc.1 e r → P (r, acc.2 ++ [e])) (calls : List RegistryCall)
    {acc : ListedRegistry × List BountyEvent} (h : P acc) : P (calls.foldl run acc) := by
  induction calls generalizing acc with
  | nil => exact h
  | cons c calls ih =>
    refine ih ?_
    rcases run_cases acc c with heq | ⟨e, r, heq, hlogs⟩
    · rw [heq]
      exact h
    · rw [heq]
      exact hstep acc e r h hlogs

/-- **The registry and its log agree:** whatever is called, a replay of the logged events on an empty
registry arrives at the same bounties, order and verdicts; a bounty has at most one accepted proof
and is solved when it has one; and whatever is called afterwards, a bounty in a terminal status
stays as it is. -/
theorem log_agrees (calls : List RegistryCall) :
    ((calls.foldl run (new, [])).2.foldlM applyEvent new = .ok (calls.foldl run (new, [])).1) ∧
    (∀ id h h', (calls.foldl run (new, [])).1.hasProof id h = some true →
      (calls.foldl run (new, [])).1.hasProof id h' = some true → h = h') ∧
    (∀ id h, (calls.foldl run (new, [])).1.hasProof id h = some true →
      ∃ bounty, (calls.foldl run (new, [])).1.get id = some bounty ∧ bounty.status = "solved") ∧
    ∀ (id : String) (bounty : Bounty) (later : List RegistryCall),
      (calls.foldl run (new, [])).1.get id = some bounty → Terminal bounty.status →
      ((calls ++ later).foldl run (new, [])).1.get id = some bounty := by
  have hreplay : (calls.foldl run (new, [])).2.foldlM applyEvent new =
      .ok (calls.foldl run (new, [])).1 :=
    run_invariant (P := fun acc => acc.2.foldlM applyEvent new = .ok acc.1)
      (fun acc e r h hlogs => by
        rw [List.foldlM_append, h, ok_bind, List.foldlM_cons, hlogs.applyEvent]
        rfl) calls rfl
  have hsound : Sound (calls.foldl run (new, [])).1.toBountyRegistry :=
    run_invariant (P := fun acc => Sound acc.1.toBountyRegistry)
      (fun _ _ _ h hlogs => hlogs.sound h) calls sound_new
  refine ⟨hreplay, hsound.once, fun id h hv => ?_, fun id bounty later hget hterminal => ?_⟩
  · obtain ⟨bounty, hget⟩ := Option.ne_none_iff_exists'.mp (hsound.filed id h true hv)
    exact ⟨bounty, hget, hsound.solved id h bounty hv hget⟩
  · rw [List.foldl_append]
    exact run_invariant (P := fun acc => acc.1.get id = some bounty)
      (fun _ _ _ h hlogs => hlogs.absorbing h hterminal) later hget

/-- A bounty is announced and solved; the second submission of the proof is no event. -/
example : let zeros := "0000000000000000000000000000000000000000000000000000000000000000"
    let proof : SubmitProofInput := ⟨"b", zeros, zeros, true, 2⟩
    let acc := [RegistryCall.create ⟨"b", "d", zeros, "lean", [], 1, 1, 1⟩, .submitProof proof,
      .submitProof proof].foldl run (new, [])
    acc.2.length = 2 ∧ acc.1.hasProof "b" zeros = some true := by
  decide +kernel

/-! ## Replaying any log -/

/-- An event that is replayed, whether or not a call logged it. -/
theorem extends_applyEvent (h : r.applyEvent e = .ok r') :
    r.Extends r'.toBountyRegistry ∧ r.order <+: r'.order := by
  cases e with
  | create bounty =>
    simp only [applyEvent, bind_eq_ok, ensure_eq_ok, pure_eq_ok, Option.isNone_iff_eq_none] at h
    obtain ⟨_, hnew, rfl⟩ := h
    exact ⟨extends_put_new hnew, List.prefix_append _ _⟩
  | status id status ts =>
    simp only [applyEvent, bind_eq_ok, okOr_eq_ok, pure_eq_ok] at h
    obtain ⟨old, hold, _, hvalid, rfl⟩ := h
    obtain rfl := r.keyed id old hold
    have hput : r.Extends (r.put { old with status, updatedAt := ts }) :=
      extends_put hold rfl rfl fun hs => absurd (.inl hs) (not_terminal_of_valid hvalid)
    exact ⟨hput, List.prefix_rfl⟩
  | proof bountyId proofHash prover accepted ts =>
    simp only [applyEvent, bind_eq_ok, okOr_eq_ok, pure_eq_ok] at h
    obtain ⟨bounty, hget, rfl⟩ := h
    refine ⟨?_, List.prefix_rfl⟩
    obtain rfl := r.keyed _ bounty hget
    dsimp only
    split_ifs
    · exact extends_put (r := r.recordProof _ _ _) hget rfl rfl fun _ => rfl
    · exact .refl r.toBountyRegistry

/-- A call, or an event of any log; what fails changes nothing. -/
def move (r : ListedRegistry) : RegistryCall ⊕ BountyEvent → ListedRegistry
  | .inl c => (r.call c).1
  | .inr e => (r.applyEvent e).toOption.getD r

theorem extends_move (r : ListedRegistry) (step : RegistryCall ⊕ BountyEvent) :
    r.Extends (r.move step).toBountyRegistry ∧ r.order <+: (r.move step).order := by
  have hsame : r.Extends r.toBountyRegistry ∧ r.order <+: r.order := ⟨.refl _, List.prefix_rfl⟩
  cases step with
  | inl c =>
    rcases call_logs r c with hnone | ⟨e, -, hlogs⟩
    · rwa [move, hnone]
    · exact extends_applyEvent hlogs.applyEvent
  | inr e =>
    rw [move]
    cases h : r.applyEvent e with
    | error => exact hsame
    | ok => exact extends_applyEvent h

/-- **Bounties stand as announced.**  Calls and the events of any log, in any order, drop no bounty,
change no domain and no reward, reopen none that is solved, and only append to the listing. -/
theorem moves_extend (r : ListedRegistry) (steps : List (RegistryCall ⊕ BountyEvent)) :
    r.Extends (steps.foldl move r).toBountyRegistry ∧ r.order <+: (steps.foldl move r).order := by
  induction steps generalizing r with
  | nil => exact ⟨.refl _, List.prefix_rfl⟩
  | cons step steps ih =>
    obtain ⟨hext, horder⟩ := extends_move r step
    exact ⟨hext.trans (ih _).1, horder.trans (ih _).2⟩

end ListedRegistry

end Core
