import Boole.Library.Framing
import Boole.Derivation.Forks

/-!
# Derivation/Roots — the root commits the state

A root is the hash of the root before it, the L1 block and the events of the step.  What a step is
free to choose, the verdicts and the fork table, **reaches the state only through what the events
tell**: the records that were applied and the row that was activated.  The events are a stream of
tagged records of fixed sizes, so equal streams tell the same, and two runs that end in one root have
gone through the same states (`Reached.root_commits`).

    root ◂─sha─ root before ‖ height ‖ block hash ‖ sha(events)
                    │                     │             └──▸ verdicts applied, row activated
                    ▾                     └──▸ items, randomness
                   …
-/

open Std Library Relation

namespace Derivation

open Draft State ForkTable

/-! ## Reading the events back -/

/-- The size of an event after its tag. -/
def eventSize (tag : UInt8) : ℕ :=
  if tag = 1 then 18 else if tag = 2 then 65 else if tag = 3 then 46 else if tag = 4 then 36
  else if tag = 5 then 88 else if tag = 6 then 117 else if tag = 7 then 73 else 69

/-- The events that tell of a choice: a record that was applied, or a row that was activated. -/
def Event.choice : Event → Bool
  | .verdict _ | .fork _ => true
  | _ => false

/-- The choices of a step. -/
def chosen (activated : Option Bytes) (applied : List IndexedVerdict) : List Event :=
  activated.toList.map .fork ++ applied.map .verdict

theorem chosen_inj {activated activated' : Option Bytes} {applied applied' : List IndexedVerdict}
    (h : chosen activated applied = chosen activated' applied') : activated = activated' ∧ applied = applied' := by
  have hverdict : Function.Injective Event.verdict := fun _ _ => Event.verdict.inj
  cases activated with
  | none =>
    cases activated' with
    | none => exact ⟨rfl, hverdict.list_map h⟩
    | some b => cases applied <;> exact nomatch h
  | some a =>
    cases activated' with
    | none => cases applied' <;> exact nomatch h
    | some b =>
      obtain ⟨hfork, hrest⟩ := List.cons.inj h
      exact ⟨congrArg some (Event.fork.inj hfork), hverdict.list_map hrest⟩

theorem length_bytes (v : VerdictRecord) : v.bytes.length = 80 := by
  simp [VerdictRecord.bytes]

theorem Event.framed (e : Event) (h : ∀ record, e = .fork record → record.length = 69) :
    Framed eventSize e.bytes := by
  cases e with
  | fork record => exact ⟨8, record, rfl, h record rfl⟩
  | item | status | round | purge | verdict | reward | admission =>
    exact ⟨_, _, rfl, by simp [eventSize, length_bytes]⟩

theorem ForkRow.length_activationRecord {cr : Crypto} {row : ForkRow} {record : Bytes}
    (h : row.activationRecord cr = .ok record) : record.length = 69 := by
  simp only [ForkRow.activationRecord, bind_eq_ok, pure_eq_ok] at h
  obtain ⟨digest, -, rfl⟩ := h
  simp

theorem RecordKind.code_injective : Function.Injective RecordKind.code := by
  intro a b
  cases a <;> cases b <;> decide

theorem Outcome.code_injective : Function.Injective Outcome.code := by
  intro a b
  cases a <;> cases b <;> decide

theorem ForkKind.code_injective : Function.Injective ForkKind.code := by
  intro a b
  cases a <;> cases b <;> decide

theorem Disposition.code_injective : Function.Injective Disposition.code := by
  intro a b
  cases a <;> cases b <;> decide

theorem VerdictRecord.bytes_injective : Function.Injective VerdictRecord.bytes := by
  intro a b h
  simp only [VerdictRecord.bytes, List.cons_append, List.cons.injEq] at h
  obtain ⟨hkind, h⟩ := h
  obtain ⟨hch, h⟩ := List.append_inj h (by simp)
  rw [List.cons.injEq] at h
  obtain ⟨houtcome, h⟩ := h
  obtain ⟨h, hdigest⟩ := List.append_inj h (by simp)
  obtain ⟨h, hfuel⟩ := List.append_inj h (by simp)
  obtain ⟨hreason, hepoch⟩ := List.append_inj h (by simp)
  obtain ⟨_, _, _, _, _, _, _⟩ := a
  obtain ⟨_, _, _, _, _, _, _⟩ := b
  rw [VerdictRecord.mk.injEq]
  exact ⟨RecordKind.code_injective hkind, wordBytes_inj hch, Outcome.code_injective houtcome,
    UInt16.toNat_inj.mp (beBytes_inj (UInt16.toNat_lt _) (UInt16.toNat_lt _) hreason),
    UInt32.toNat_inj.mp (beBytes_inj (UInt32.toNat_lt _) (UInt32.toNat_lt _) hepoch),
    UInt64.toNat_inj.mp (beBytes_inj (UInt64.toNat_lt _) (UInt64.toNat_lt _) hfuel), wordBytes_inj hdigest⟩

/-- An event that tells of a choice is read off its bytes. -/
theorem Event.eq_of_choice {e e' : Event} (he : e.choice = true) (he' : e'.choice = true)
    (h : e.bytes = e'.bytes) : e = e' := by
  cases e <;> cases e' <;> simp [Event.choice] at he he'
  · rename_i v v'
    simp only [Event.bytes, List.cons.injEq, true_and] at h
    obtain ⟨hindex, hrecord⟩ := List.append_inj h (by simp)
    have hnumber := UInt64.toNat_inj.mp (beBytes_inj (UInt64.toNat_lt _) (UInt64.toNat_lt _) hindex)
    obtain ⟨_, _⟩ := v
    obtain ⟨_, _⟩ := v'
    rw [Event.verdict.injEq, IndexedVerdict.mk.injEq]
    exact ⟨hnumber, VerdictRecord.bytes_injective hrecord⟩
  · exact nomatch (List.cons.inj h).1
  · exact nomatch (List.cons.inj h).1
  · rw [(List.cons.inj h).2]

theorem Event.choice_congr {e e' : Event} (h : e.bytes = e'.bytes) : e.choice = e'.choice := by
  have hhead (e : Event) : e.choice = decide (e.bytes.head? = some 5 ∨ e.bytes.head? = some 8) := by
    cases e <;> simp [Event.choice, Event.bytes]
  rw [hhead, hhead, h]

/-- **Equal streams tell of the same choices.** -/
theorem filter_choice_inj {evs evs' : List Event}
    (h : ∀ record, .fork record ∈ evs → record.length = 69)
    (h' : ∀ record, .fork record ∈ evs' → record.length = 69)
    (heq : evs.flatMap Event.bytes = evs'.flatMap Event.bytes) :
    evs.filter Event.choice = evs'.filter Event.choice := by
  have hframed {l : List Event} (hl : ∀ record, .fork record ∈ l → record.length = 69) :
      ∀ x ∈ l.map Event.bytes, Framed eventSize x := by
    intro x hx
    obtain ⟨e, he, rfl⟩ := List.mem_map.mp hx
    exact e.framed fun record hrecord => hl record (hrecord ▸ he)
  have hmap := flatten_inj (hframed h) (hframed h') heq
  clear h h' heq hframed
  induction evs generalizing evs' with
  | nil =>
    obtain rfl : evs' = [] := by simpa using hmap.symm
    rfl
  | cons e evs ih =>
    cases evs' with
    | nil => simp at hmap
    | cons e' evs' =>
      rw [List.map_cons, List.map_cons, List.cons.injEq] at hmap
      obtain ⟨he, hrest⟩ := hmap
      have hchoice := Event.choice_congr he
      rw [List.filter_cons, List.filter_cons, ← hchoice, ih hrest]
      split_ifs with hc
      · rw [Event.eq_of_choice hc (hchoice ▸ hc) he]
      · rfl

/-! ## What a step tells -/

section Moves

variable {cr : Crypto} {c : Config} {p : M3Config} {cap h : ℕ} {mix : Hash} {forks : ForkTable}
  {d d' : Draft}

theorem filter_choice_ledger (evs : List Event) :
    evs.filter Event.choice = (evs.filter Event.ledger).filter Event.choice := by
  rw [List.filter_filter]
  refine List.filter_congr fun e _ => ?_
  cases e <;> rfl

theorem filter_choice_of_ledger {evs : List Event} (h : evs.filter Event.ledger = []) :
    evs.filter Event.choice = [] := by
  rw [filter_choice_ledger, h]
  rfl

theorem Draft.Granted.choice {slot : ℕ} {key : Key} {solver : Address} {compensation : Bool} {m m' : M3State}
    {evs : List Event} (hg : Granted p slot key solver h compensation m evs m') :
    evs.filter Event.choice = [] := by
  cases hg <;> rfl

/-- Applying a record tells of this record alone. -/
theorem Draft.applyRecord_choice {slot : ℕ} {job : Job} {v : IndexedVerdict} {clock : FuelClock}
    (hd : applyRecord c p d h slot job v clock = .ok d') :
    d'.events.filter Event.choice = d.events.filter Event.choice ++ [.verdict v] := by
  obtain ⟨m, l, P, new, -, -, -, hnew, ha⟩ := applyRecord_eq_ok hd
  obtain ⟨m', told, evs, heffect, -, hevs, hledger⟩ := ha.m3 hnew
  rw [hevs, List.filter_append, filter_choice_ledger evs, hledger, List.filter_cons_of_pos rfl]
  suffices htold : told.filter Event.choice = [] by rw [htold]
  cases heffect with
  | none => rfl
  | paid _ _ _ hgrant => exact hgrant.choice
  | revoked =>
    rw [List.filter_eq_nil_iff]
    intro e he
    rcases List.mem_append.mp he with he | he
    all_goals
      obtain ⟨_, -, rfl⟩ := List.mem_map.mp he
      simp [Event.choice]

/-- The records tell of those that were applied. -/
theorem Draft.applyDue_choice {records applied : List IndexedVerdict}
    (hd : applyDue c d h records forks = .ok (d', applied)) :
    d'.events.filter Event.choice = d.events.filter Event.choice ++ applied.map .verdict := by
  obtain ⟨p, m, cap, later, mid, acc, m', hdue⟩ := applyDue_eq_ok hd
  have hmid := foldlM_invariant (fun acc : Due => acc.draft.events.filter Event.choice =
      d.events.filter Event.choice ++ acc.applied.map .verdict)
    (fun acc x acc' _ hacc hx => ?_) (by simp) hdue.splits.loop
  · rw [hdue.splits.applied] at hmid
    rw [hdue.result]
    exact hmid
  · obtain ⟨m, job, slot, due, next, hx⟩ := examine_eq_ok hx
    rcases hx.result with ⟨-, happlied, happly⟩ | ⟨-, happlied, hdraft⟩
    · rw [applyRecord_choice happly, hacc, happlied, List.map_append, List.append_assoc]
      rfl
    · rw [happlied, hdraft, hacc]

/-- From the rounds to the vesting nothing is chosen. -/
theorem BlockStep.choice (hb : BlockStep cr c h mix d d') :
    d'.events.filter Event.choice = d.events.filter Event.choice := by
  have hkeep {evs evs' : List Event} (hevs : evs'.filter Event.choice = []) :
      (evs ++ evs').filter Event.choice = evs.filter Event.choice := by
    rw [List.filter_append, hevs, List.append_nil]
  cases hb with
  | slot hs => cases hs <;> first | rfl | exact hkeep rfl
  | expire =>
    obtain ⟨cands, evs, -, -, hevs, heq⟩ := expire_eq c h d
    rw [heq]
    refine hkeep (List.filter_eq_nil_iff.mpr fun e he => ?_)
    obtain ⟨k, rfl⟩ := hevs e he
    simp [Event.choice]
  | purge =>
    obtain ⟨G, hf, -⟩ := purge_forgets c h d
    obtain ⟨evs, hevs, hledger⟩ := hf.events
    rw [hevs]
    exact hkeep (filter_choice_of_ledger hledger)
  | item hi =>
    cases hi with
    | plain _ _ hevs => exact hkeep (filter_choice_of_ledger hevs)
    | completed _ _ _ hevs hd' =>
      have hevs := filter_choice_of_ledger hevs
      cases hd' with
      | void _ _ hevs' | superseded _ _ hevs' =>
        exact (hkeep (filter_choice_of_ledger hevs')).trans (hkeep hevs)
      | queued => exact hkeep hevs
  | accept _ ha =>
    cases ha with
    | mk _ _ _ _ _ _ _ hgrant hevs =>
      refine hkeep ?_
      rw [filter_choice_ledger, hevs]
      exact hgrant.choice

theorem Draft.vest_choice {payments : List RewardPayment} (hv : d.vest c h = .ok (d', payments)) :
    d'.events.filter Event.choice = d.events.filter Event.choice := by
  obtain ⟨p, m, m', rs, -, -, -, rfl⟩ := vest_eq_ok hv
  have hpaid : (rs.map (Event.reward · 2)).filter Event.choice = [] := by
    rw [List.filter_eq_nil_iff]
    intro e he
    obtain ⟨r, -, rfl⟩ := List.mem_map.mp he
    simp [Event.choice]
  rw [List.filter_append, hpaid, List.append_nil]

/-- The row that a height activates. -/
def ForkTable.rowAt (self : ForkTable) (h : ℕ) : Option ForkRow :=
  (self.rows.drop 1).find? fun row => row.height = h

theorem Draft.activate_choice (hd : d.activate cr h forks = .ok d') (hstart : d.events = []) :
    ∃ activated : Option Bytes, d'.events.filter Event.choice = activated.toList.map .fork ∧
      Option.Rel (fun row record => row.activationRecord cr = .ok record) (forks.rowAt h) activated := by
  obtain ⟨m, -, ha⟩ := activate_eq_ok hd
  rw [rowAt]
  cases ha with
  | none hrow =>
    rw [hrow]
    exact ⟨none, by simp [setM3, hstart], .none⟩
  | kernelFix hrow _ _ _ hrecord | quarantine hrow _ _ hrecord | policy hrow _ hrecord =>
    rw [hrow]
    refine ⟨some _, ?_, .some hrecord⟩
    simp [emit, setM3, hstart, Event.choice]

/-- **The events of a step tell of the row it activated and the records it applied.** -/
theorem Folds.chosen {s : State} {i : StepInput} {st : Step} {g : Stages} (hf : Folds cr c s i st g) :
    ∃ activated, st.events.filter Event.choice = Derivation.chosen activated st.verdicts ∧
      Option.Rel (fun row record => row.activationRecord cr = .ok record) (i.forks.rowAt i.l1.number) activated := by
  obtain ⟨activated, hact, hrow⟩ := activate_choice hf.activate rfl
  have hjudged := applyDue_choice hf.due
  have hsettled := steps_invariant
    (fun d : Draft => d.events.filter Event.choice = g.judged.events.filter Event.choice)
    (fun _ _ hd hb => hb.choice.trans hd) hf.settling rfl
  refine ⟨activated, ?_, hrow⟩
  rw [hf.events, vest_choice hf.vest, hsettled, hjudged]
  exact congrArg (· ++ _) hact

end Moves

/-! ## Tables that activate the same -/

namespace ForkTable

variable {cr : Crypto} {c : Config} {t t' : ForkTable} {h : ℕ} {u u' : Unit}

/-- The first row is fixed by the configuration. -/
theorem validate_head (ht : t.validate cr c = .ok u) (ht' : t'.validate cr c = .ok u') :
    t.rows.head? = t'.rows.head? := by
  -- the list of a row that is no quarantine is empty
  have hfirst {t : ForkTable} {u : Unit} (ht : t.validate cr c = .ok u) :
      ∃ p, c.m3 = some p ∧ t.rows.head? = some ⟨0, 0, p.genesisGateRuleDigest, .genesis, []⟩ := by
    simp only [validate, bind_eq_ok, okOr_eq_ok, ensure_eq_ok] at ht
    obtain ⟨p, hp, row, hrow, _, ⟨hepoch, hheight, hkind, hdigest⟩, _, hrows, -⟩ := ht
    obtain ⟨rest, hrest⟩ := List.head?_eq_some_iff.mp hrow
    have hok := (hrows (row, 0) (by simp [hrest])).2.2
    obtain ⟨_, hlist⟩ := exists_eq_ok_of_isOk hok
    simp only [ForkRow.listDigest, bind_eq_ok, ensure_eq_ok] at hlist
    obtain ⟨_, ⟨hquarantine, -⟩, -⟩ := hlist
    have hnil : row.list = [] := by simpa [hkind] using hquarantine
    refine ⟨p, hp, hrow.trans (congrArg some ?_)⟩
    obtain ⟨_, _, _, _, _⟩ := row
    rw [ForkRow.mk.injEq]
    exact ⟨hepoch, hheight, hdigest, hkind, hnil⟩
  obtain ⟨p, hp, hhead⟩ := hfirst ht
  obtain ⟨p', hp', hhead'⟩ := hfirst ht'
  obtain rfl := Option.mem_unique hp hp'
  rw [hhead, hhead']

theorem rowAt_eq_some {row : ForkRow} (hrow : t.rowAt h = some row) : row ∈ t.rows ∧ row.height = h := by
  exact ⟨List.mem_of_mem_drop (List.mem_of_find?_eq_some hrow), by simpa using List.find?_some hrow⟩

theorem epoch_lt (ht : t.validate cr c = .ok u) {row : ForkRow} (hrow : row ∈ t.rows) : row.epoch < 2 ^ 32 := by
  simp only [validate, bind_eq_ok, ensure_eq_ok] at ht
  obtain ⟨-, -, -, -, -, -, -, hrows, -⟩ := ht
  obtain ⟨n, hn⟩ := List.mem_iff_getElem?.mp hrow
  obtain ⟨hlt, heq, -⟩ := hrows (row, n) (List.mem_zipIdx_iff_getElem?.mpr hn)
  exact heq ▸ hlt

/-- The rechecks of a height are those of the row it activates. -/
theorem recheckSet_congr (ht : t.Valid) (ht' : t'.Valid) (hrow : t.rowAt (h + 1) = t'.rowAt (h + 1)) (s : State) :
    t.recheckSet s (h + 1) = t'.recheckSet s (h + 1) := by
  have hfind {t : ForkTable} (ht : t.Valid) :
      t.rows.find? (fun row => row.height = h + 1 ∧ row.kind = .kernelFix) =
        (t.rowAt (h + 1)).filter fun row => row.kind = .kernelFix := by
    simp only [Bool.decide_and]
    have honce : t.rows.Pairwise fun a b => decide (a.height = h + 1) = true → decide (b.height = h + 1) = false := by
      refine ht.ascends.imp fun hlt ha => ?_
      rw [decide_eq_true_iff] at ha
      rw [decide_eq_false_iff_not]
      omega
    rw [find?_and honce, rowAt, ht.find?_drop]
  rw [recheckSet, recheckSet, hfind ht, hfind ht', hrow]

end ForkTable

theorem ForkRow.listInput_inj {row row' : ForkRow} (h : row.listInput.flatten = row'.listInput.flatten) :
    row.list = row'.list := by
  simp only [ForkRow.listInput, List.flatten_cons, List.flatten_nil, List.append_nil] at h
  obtain ⟨-, h⟩ := List.append_inj h rfl
  obtain ⟨-, h⟩ := List.append_inj h (by simp)
  refine flatMap_inj (n := 32) (fun a b hab => ?_) (fun a => by simp) h
  obtain ⟨hhash, hdisposition⟩ := List.append_inj hab (by simp)
  obtain ⟨_, _⟩ := a
  obtain ⟨_, _⟩ := b
  rw [ForkItem.mk.injEq]
  exact ⟨wordBytes_inj hhash, Disposition.code_injective (List.cons.inj hdisposition).1⟩

/-- **A row is read off its activation record and its height.** -/
theorem ForkRow.activationRecord_inj {cr : Crypto} {row row' : ForkRow} {record : Bytes}
    (hr : row.activationRecord cr = .ok record) (hr' : row'.activationRecord cr = .ok record)
    (hepoch : row.epoch < 2 ^ 32) (hepoch' : row'.epoch < 2 ^ 32) (hheight : row.height = row'.height)
    (hinj : Injects cr [row.listInput.flatten, row'.listInput.flatten]) : row = row' := by
  simp only [ForkRow.activationRecord, ForkRow.listDigest, bind_eq_ok, ensure_eq_ok, pure_eq_ok] at hr hr'
  obtain ⟨_, ⟨-, -, -, -, rfl⟩, rfl⟩ := hr
  obtain ⟨_, ⟨-, -, -, -, rfl⟩, heq⟩ := hr'
  obtain ⟨hfront, hrest⟩ := List.append_inj heq.symm (by simp)
  obtain ⟨hbytes, hdigest⟩ := List.append_inj hfront (by simp)
  rw [List.cons.injEq] at hrest
  obtain ⟨hkind, hlist⟩ := hrest
  have hinput := hinj _ (by simp) _ (by simp) (wordBytes_inj hlist)
  have hitems := ForkRow.listInput_inj hinput
  have hnumber := beBytes_inj hepoch hepoch' hbytes
  obtain ⟨_, _, _, _, _⟩ := row
  obtain ⟨_, _, _, _, _⟩ := row'
  rw [ForkRow.mk.injEq]
  exact ⟨hnumber, hheight, wordBytes_inj hdigest, ForkKind.code_injective hkind, hitems⟩

/-! ## Steps that tell the same -/

section Steps

variable {cr : Crypto} {c : Config} {p : M3Config} {cap h : ℕ} {forks forks' : ForkTable}

/-- What a record does does not depend on the table it was checked against. -/
theorem Draft.examine_agree {acc acc' acc'' : Due} {x : IndexedVerdict × ℕ}
    (he : examine c p cap h forks acc x = .ok acc') (he' : examine c p cap h forks' acc x = .ok acc'') :
    acc' = acc'' := by
  rw [examine, bind_eq_ok] at he he'
  obtain ⟨m, hm, he⟩ := he
  obtain ⟨m', hm', he'⟩ := he'
  obtain rfl := Except.ok.inj (hm.symm.trans hm')
  rw [bind_eq_ok] at he he'
  obtain ⟨⟨job, slot⟩, hjob, he⟩ := he
  obtain ⟨⟨job', slot'⟩, hjob', he'⟩ := he'
  have hchecked := checkRecord_eq_ok hjob
  have hchecked' := checkRecord_eq_ok hjob'
  obtain rfl : job = job' := Option.mem_unique hchecked.queued hchecked'.queued
  obtain ⟨P, hP, rfl⟩ := hchecked.problem
  obtain ⟨P', hP', rfl⟩ := hchecked'.problem
  obtain rfl := Option.mem_unique hP hP'
  exact Except.ok.inj (he.symm.trans he')

/-- **Steps that apply the same records end alike**, whatever they were given for later. -/
theorem Draft.applyDue_agree {d d' d'' : Draft} {records records' applied : List IndexedVerdict}
    (hd : applyDue c d h records forks = .ok (d', applied))
    (hd' : applyDue c d h records' forks' = .ok (d'', applied)) : d' = d'' := by
  obtain ⟨p, m, cap, later, mid, acc, m₁, hdue⟩ := applyDue_eq_ok hd
  obtain ⟨p', m', cap', later', mid', acc', m₁', hdue'⟩ := applyDue_eq_ok hd'
  obtain rfl := Option.mem_unique hdue.profile hdue'.profile
  obtain rfl := Option.mem_unique hdue.m3 hdue'.m3
  obtain rfl := Option.mem_unique hdue.capacity hdue'.capacity
  obtain rfl := foldlM_agree (fun _ _ _ _ => examine_agree) hdue.splits.loop hdue'.splits.loop
  obtain rfl := Option.mem_unique hdue.m3_mid hdue'.m3_mid
  rw [hdue.result, hdue'.result]

variable {s : State} {i i' : StepInput} {st st' : Step} {g g' : Stages}

theorem Folds.record_length (hf : Folds cr c s i st g) {record : Bytes} (hrecord : .fork record ∈ st.events) :
    record.length = 69 := by
  obtain ⟨activated, hchosen, hrow⟩ := hf.chosen
  have hmem : .fork record ∈ st.events.filter Event.choice := List.mem_filter.mpr ⟨hrecord, rfl⟩
  rw [hchosen, Derivation.chosen] at hmem
  generalize i.forks.rowAt i.l1.number = row at hrow
  cases hrow with
  | none => simp at hmem
  | some hrecord =>
    obtain rfl : record = _ := by simpa using hmem
    exact ForkRow.length_activationRecord hrecord

/-- Streams of events tell which row was activated and which records were applied. -/
theorem Folds.choices (hf : Folds cr c s i st g) (hf' : Folds cr c s i' st' g')
    (hnumber : i.l1.number = i'.l1.number)
    (hstream : st.events.flatMap Event.bytes = st'.events.flatMap Event.bytes)
    (hlists : ∀ row ∈ i.forks.rowAt i.l1.number, ∀ row' ∈ i'.forks.rowAt i.l1.number,
      Injects cr [row.listInput.flatten, row'.listInput.flatten]) :
    i.forks.rowAt i.l1.number = i'.forks.rowAt i.l1.number ∧ st.verdicts = st'.verdicts := by
  obtain ⟨activated, hchosen, hrow⟩ := hf.chosen
  obtain ⟨activated', hchosen', hrow'⟩ := hf'.chosen
  rw [← hnumber] at hrow'
  have hsame : Derivation.chosen activated st.verdicts = Derivation.chosen activated' st'.verdicts := by
    rw [← hchosen, ← hchosen']
    exact filter_choice_inj (fun _ => hf.record_length) (fun _ => hf'.record_length) hstream
  obtain ⟨rfl, hverdicts⟩ := chosen_inj hsame
  refine ⟨?_, hverdicts⟩
  generalize hr : i.forks.rowAt i.l1.number = r at hrow hlists
  generalize hr' : i'.forks.rowAt i.l1.number = r' at hrow' hlists
  cases hrow with
  | none =>
    cases hrow'
    rfl
  | some hrecord =>
    cases hrow' with
    | some hrecord' =>
      obtain ⟨hmem, hheight⟩ := rowAt_eq_some hr
      obtain ⟨hmem', hheight'⟩ := rowAt_eq_some hr'
      rw [ForkRow.activationRecord_inj hrecord hrecord' (epoch_lt hf.table hmem)
        (epoch_lt hf'.table hmem') (hheight.trans hheight'.symm) (hlists _ rfl _ rfl)]

/-- **Steps from one state that tell the same end alike.** -/
theorem Folds.agree (hf : Folds cr c s i st g) (hf' : Folds cr c s i' st' g')
    (hnumber : i.l1.number = i'.l1.number) (hmix : i.l1.mix = i'.l1.mix) (hitems : i.items = i'.items)
    (hrow : i.forks.rowAt i.l1.number = i'.forks.rowAt i.l1.number) (hverdicts : st.verdicts = st'.verdicts) :
    g.final = g'.final := by
  have hactivated : g.activated = g'.activated := by
    have ha := hf.activate
    have ha' := hf'.activate
    rw [← hnumber] at ha'
    rw [← hf.height] at ha ha' hrow
    have hrechecks := recheckSet_congr (validate_eq_ok hf.table)
      (validate_eq_ok hf'.table) hrow
    have hhead := validate_head hf.table hf'.table
    rw [rowAt] at hrow
    simp only [Draft.activate, Draft.startHistory, hrechecks, hhead, hrow] at ha ha'
    exact Except.ok.inj (ha.symm.trans ha')
  have hjudged : g.judged = g'.judged := by
    have hd := hf.due
    have hd' := hf'.due
    rw [hactivated, hverdicts, hnumber, hmix] at hd
    exact applyDue_agree hd hd'
  have hslotted : g.slotted = g'.slotted := by
    have hs := hf.slots
    rw [hjudged, hnumber, hmix, hf'.slots] at hs
    exact (Except.ok.inj hs).symm
  have hinbox : g.inbox = g'.inbox := by
    have hi := hf.items
    rw [hslotted, hnumber, hitems, hf'.items] at hi
    exact (Except.ok.inj hi).symm
  have hsettled : g.settled = g'.settled := by
    have hs := hf.settle
    rw [hinbox, hnumber, hf'.settle] at hs
    exact (Except.ok.inj hs).symm
  have hv := hf.vest
  rw [hsettled, hnumber, hf'.vest] at hv
  exact (Prod.mk.inj (Except.ok.inj hv)).1.symm

end Steps

/-! ## Roots -/

section Roots

variable {cr : Crypto} {c : Config} {gas : ℕ} {P : State → StepInput → Prop} {run run' : List (StepInput × Step)}
  {s s' : State}

/-- **What a root is taken of can be read back.** -/
theorem State.rootInput_inj {root root' : Hash} {b b' : L1Block} {evs evs' : List Event} (hb : b.number < 2 ^ 64)
    (hb' : b'.number < 2 ^ 64)
    (h : (rootInput cr c root b evs).flatten = (rootInput cr c root' b' evs').flatten) :
    root = root' ∧ b.number = b'.number ∧ b.hashBytes = b'.hashBytes ∧
      sha cr [evs.flatMap Event.bytes] = sha cr [evs'.flatMap Event.bytes] := by
  simp only [rootInput, List.flatten_cons, List.flatten_nil, List.append_nil] at h
  obtain ⟨-, h⟩ := List.append_inj h rfl
  obtain ⟨hroot, h⟩ := List.append_inj h (by simp)
  obtain ⟨hnumber, h⟩ := List.append_inj h (by simp)
  -- the hash of the block has any length, and what follows it a fixed one
  obtain ⟨hhash, hevents⟩ := List.append_inj' h (by simp)
  exact ⟨wordBytes_inj hroot, beBytes_inj hb hb' hnumber, hhash, wordBytes_inj hevents⟩

/-- The first root has a tag of its own. -/
theorem State.rootInput_ne_digestInput (hm3 : c.m3.isSome = true) (root : Hash) (b : L1Block) (evs : List Event) :
    (rootInput cr c root b evs).flatten ≠ c.digestInput.flatten := by
  intro h
  have htag : (rootInput cr c root b evs).flatten[9]? = c.digestInput.flatten[9]? := by rw [h]
  simp only [rootInput, Config.digestInput, hm3, List.flatten_cons] at htag
  rw [List.getElem?_append_left (by decide), List.getElem?_append_left (by decide)] at htag
  exact absurd htag (by decide)

/-- What the roots of a run are taken of, from a first root on. -/
def rootInputs (cr : Crypto) (c : Config) : Hash → List (StepInput × Step) → List Bytes
  | _, [] => []
  | root, (i, st) :: run => (State.rootInput cr c root i.l1 st.events).flatten :: rootInputs cr c st.state.root run

/-- The root at the end of a run. -/
def lastRoot : Hash → List (StepInput × Step) → Hash
  | root, [] => root
  | _, (_, st) :: run => lastRoot st.state.root run

theorem rootInputs_concat (root : Hash) (run : List (StepInput × Step)) (i : StepInput) (st : Step) :
    rootInputs cr c root (run ++ [(i, st)]) =
      rootInputs cr c root run ++ [(rootInput cr c (lastRoot root run) i.l1 st.events).flatten] := by
  induction run generalizing root with
  | nil => rfl
  | cons x run ih => rw [List.cons_append, rootInputs, ih, rootInputs, lastRoot, List.cons_append]

theorem lastRoot_concat (root : Hash) (run : List (StepInput × Step)) (i : StepInput) (st : Step) :
    lastRoot root (run ++ [(i, st)]) = st.state.root := by
  induction run generalizing root with
  | nil => rfl
  | cons x run ih => exact ih _

/-- The streams of events of a run. -/
def streams (run : List (StepInput × Step)) : List Bytes := run.map fun x => x.2.events.flatMap Event.bytes

/-- What the lists of the rows that a run activated were hashed as. -/
def rowLists (run : List (StepInput × Step)) : List Bytes :=
  run.flatMap fun x => (x.1.forks.rowAt x.1.l1.number).toList.map (·.listInput.flatten)

theorem mem_rowLists {x : StepInput × Step} (hx : x ∈ run) {row : ForkRow}
    (hrow : row ∈ x.1.forks.rowAt x.1.l1.number) : row.listInput.flatten ∈ rowLists run :=
  List.mem_flatMap.mpr ⟨x, hx, List.mem_map_of_mem (Option.mem_toList.mpr hrow)⟩

/-- **Two runs in which nothing was forged:** no two inputs of one kind have the same hash, and the
hash of an L1 block determines its randomness and its items. -/
structure Unforged (cr : Crypto) (c : Config) (run run' : List (StepInput × Step)) : Prop where
  roots : Injects cr (c.digestInput.flatten ::
    (rootInputs cr c (c.digest cr) run ++ rootInputs cr c (c.digest cr) run'))
  events : Injects cr (streams run ++ streams run')
  lists : Injects cr (rowLists run ++ rowLists run')
  blocks : ∀ x ∈ run, ∀ x' ∈ run', x.1.l1.hashBytes = x'.1.l1.hashBytes →
    x.1.l1.mix = x'.1.l1.mix ∧ x.1.items = x'.1.items

instance : Decidable (Unforged cr c run run') :=
  decidable_of_iff (Injects cr (c.digestInput.flatten ::
      (rootInputs cr c (c.digest cr) run ++ rootInputs cr c (c.digest cr) run')) ∧
    Injects cr (streams run ++ streams run') ∧ Injects cr (rowLists run ++ rowLists run') ∧
    ∀ x ∈ run, ∀ x' ∈ run', x.1.l1.hashBytes = x'.1.l1.hashBytes →
      x.1.l1.mix = x'.1.l1.mix ∧ x.1.items = x'.1.items)
    ⟨fun ⟨h₁, h₂, h₃, h₄⟩ => ⟨h₁, h₂, h₃, h₄⟩, fun ⟨h₁, h₂, h₃, h₄⟩ => ⟨h₁, h₂, h₃, h₄⟩⟩

theorem Injects.mono {xs ys : List Bytes} (h : Injects cr ys) (hsub : xs ⊆ ys) : Injects cr xs :=
  fun x hx y hy => h x (hsub hx) y (hsub hy)

/-- The runs without their last steps. -/
theorem Unforged.init {x x' : StepInput × Step} (h : Unforged cr c (run ++ [x]) (run' ++ [x'])) :
    Unforged cr c run run' := by
  refine ⟨h.roots.mono ?_, h.events.mono ?_, h.lists.mono ?_, fun y hy y' hy' =>
    h.blocks y (List.mem_append_left _ hy) y' (List.mem_append_left _ hy')⟩
  · rw [rootInputs_concat, rootInputs_concat]
    grind
  · simp only [streams]
    grind
  · simp only [rowLists]
    grind

theorem Reached.lastRoot_eq (hr : Reached cr c gas P run s) : lastRoot (c.digest cr) run = s.root := by
  cases hr with
  | new hs => rw [new_eq_ok hs, lastRoot]
  | step => exact lastRoot_concat _ _ _ _

/-- The root of a step was taken of the root before it. -/
theorem Reached.root_eq {i : StepInput} {st : Step} (hr : Reached cr c gas P run s) (hst : s.fold cr c i = .ok st) :
    st.state.root = sha cr (rootInput cr c s.root i.l1 st.events) ∧
      (rootInput cr c s.root i.l1 st.events).flatten ∈ rootInputs cr c (c.digest cr) (run ++ [(i, st)]) := by
  obtain ⟨g, hf⟩ := fold_eq_ok hst
  refine ⟨by rw [hf.state, hf.events], ?_⟩
  rw [rootInputs_concat, hr.lastRoot_eq]
  exact List.mem_append_right _ (List.mem_singleton_self _)

/-- **The root commits the whole state.**  Two runs from the first state, with any items, verdicts and
fork tables, that end in one root end in one state: the height, the candidates, the pools, the rounds,
the slots, the problems, the queues of re-poses and the M3 state are the same. -/
theorem Reached.root_commits (hr : Reached cr c gas Free run s) (hr' : Reached cr c gas Free run' s')
    (hfree : Unforged cr c run run') (hroot : s.root = s'.root) : s = s' := by
  induction hr generalizing run' s' with
  | new hs =>
    cases hr' with
    | new hs' => exact Except.ok.inj (hs.symm.trans hs')
    | step hr' _ hst' =>
      obtain ⟨g, hf⟩ := State.fold_eq_ok hst'
      obtain ⟨heq, hmem⟩ := hr'.root_eq hst'
      rw [heq, State.new_eq_ok hs] at hroot
      exact absurd (hfree.roots _ (List.mem_cons_of_mem _ (List.mem_append_right _ hmem)) _
        List.mem_cons_self hroot.symm) (State.rootInput_ne_digestInput hf.profile _ _ _)
  | @step run s hr i _ st hst ih =>
    obtain ⟨g, hf⟩ := State.fold_eq_ok hst
    obtain ⟨heq, hmem⟩ := hr.root_eq hst
    cases hr' with
    | new hs' =>
      rw [heq, State.new_eq_ok hs'] at hroot
      exact absurd (hfree.roots _ (List.mem_cons_of_mem _ (List.mem_append_left _ hmem)) _
        List.mem_cons_self hroot) (State.rootInput_ne_digestInput hf.profile _ _ _)
    | @step run' s' hr' i' _ st' hst' =>
      obtain ⟨g', hf'⟩ := State.fold_eq_ok hst'
      obtain ⟨heq', hmem'⟩ := hr'.root_eq hst'
      rw [heq, heq'] at hroot
      have hinput := hfree.roots _ (List.mem_cons_of_mem _ (List.mem_append_left _ hmem)) _
        (List.mem_cons_of_mem _ (List.mem_append_right _ hmem')) hroot
      obtain ⟨hbefore, hnumber, hhash, hevents⟩ := State.rootInput_inj hf.inRange hf'.inRange hinput
      obtain rfl := ih hr' hfree.init hbefore
      have hlast : (i, st) ∈ run ++ [(i, st)] := List.mem_append_right _ (List.mem_singleton_self _)
      have hlast' : (i', st') ∈ run' ++ [(i', st')] := List.mem_append_right _ (List.mem_singleton_self _)
      obtain ⟨hmix, hitems⟩ := hfree.blocks _ hlast _ hlast' hhash
      have hstream : st.events.flatMap Event.bytes = st'.events.flatMap Event.bytes := by
        refine hfree.events _ (List.mem_append_left _ (List.mem_map_of_mem hlast)) _
          (List.mem_append_right _ (List.mem_map_of_mem hlast')) ?_
        simpa [sha] using hevents
      obtain ⟨hrow, hverdicts⟩ := hf.choices hf' hnumber hstream fun row hrow row' hrow' =>
        hfree.lists.mono (List.cons_subset.mpr ⟨List.mem_append_left _ (mem_rowLists hlast hrow),
          List.cons_subset.mpr ⟨List.mem_append_right _ (mem_rowLists hlast' (hnumber ▸ hrow')),
            List.nil_subset _⟩⟩)
      have hfinal := hf.agree hf' hnumber hmix hitems hrow hverdicts
      rw [hf.events, hf'.events, hfinal] at hroot
      rw [hf.state, hf'.state, hfinal, hroot, hnumber]

end Roots

namespace Example

/-- A table that announces a change of the policy at height 3. -/
def amended : ForkTable := ⟨[⟨0, 0, 0, .genesis, []⟩, ⟨1, 3, 0, .policy, []⟩]⟩

end Example

theorem Reached.root_commits_amended : ∃ run s run' s',
    Reached toyCrypto exampleConfig exampleGas Free run s ∧ Reached toyCrypto exampleConfig exampleGas Free run' s' ∧
    run.map (·.1.forks) = [Example.genesis] ∧ run'.map (·.1.forks) = [Example.amended] ∧
    Unforged toyCrypto exampleConfig run run' ∧ s.root = s'.root ∧ s = s' := by
  have hplay : (do
      let x ← play toyCrypto exampleConfig exampleGas Free [⟨Example.block 1, [Example.pool], [], Example.genesis⟩]
      let y ← play toyCrypto exampleConfig exampleGas Free [⟨Example.block 1, [Example.pool], [], Example.amended⟩]
      let forks (run : List (StepInput × Step)) := run.map fun x : StepInput × Step => x.1.forks
      pure (decide (forks x.1 = [Example.genesis] ∧ forks y.1 = [Example.amended] ∧
        Unforged toyCrypto exampleConfig x.1 y.1 ∧ x.2.root = y.2.root))) = .ok true := by decide +kernel
  simp only [bind_eq_ok, pure_eq_ok] at hplay
  obtain ⟨x, hx, y, hy, hv⟩ := hplay
  obtain ⟨hforks, hforks', hfree, hroot⟩ := of_decide_eq_true hv
  exact ⟨x.1, x.2, y.1, y.2, reached_of_play hx, reached_of_play hy, hforks, hforks', hfree, hroot,
    (reached_of_play hx).root_commits (reached_of_play hy) hfree hroot⟩

end Derivation
