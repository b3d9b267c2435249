import Boole.Derivation.Parts
import Boole.Derivation.Onward
import Boole.Derivation.Statuses

/-!
# Derivation/Journal — the items behind every candidate

The journal of a run lists its inbox items in the order they were folded, each with its height and its
code.  **Everything the state says of a candidate can be read off the journal** (`Ran.journaled`): the
COMMIT it comes from, the OPEN that was accepted for it, and the parts, which are the first valid ones
after the OPEN.

    … COMMIT … OPEN  PART₂  ·  PART₀  PART₂  ·  PART₁ …
                │     └───────── first of each index ──────┘
              openPos                              donePos

That a PART reaches the candidate it names rests on its hash: no two OPENs of the journal may have one
commit hash for different problems (`Distinct`).
-/

open Std Library Relation

namespace Derivation

open Draft Candidate

variable {forks : ForkTable} {m : M3State} {o' : OpenRecord} {data : Bytes}

/-! ## The journal -/

/-- An item that was folded. -/
structure Entry where
  height : ℕ
  item : Input
  code : UInt8
deriving DecidableEq

def Entry.pos (e : Entry) : Pos := (e.height, e.item.transactionIndex, e.item.logIndex)

/-- The items of a step in the order they are folded. -/
def StepInput.entries (i : StepInput) (codes : List UInt8) : List Entry :=
  ((i.items.insertionSort Draft.itemLe).zip codes).map fun z => ⟨i.l1.number, z.1, z.2⟩

def journal (run : List (StepInput × Step)) : List Entry := run.flatMap fun y => y.1.entries y.2.codes

/-- A record as its OPEN wrote it. -/
def OpenRecord.posted (o : OpenRecord) : OpenRecord :=
  { o with donePos := none, queueIndex := none, bitmap := [0, 0], hR := none }

/-- The COMMIT of a candidate. -/
structure Commits (e : Entry) (key : Key) (l : LiveCandidate) : Prop where
  code : e.code = 0x80
  kind : e.item.kind = 2
  pos : e.pos = (l.hC, l.transactionIndex, l.logIndex)
  body : ∃ b, decodeBody 1 commitBody e.item.body = some b ∧ key = (b.p, b.ch) ∧ b.poster = l.poster

/-- The OPEN of a candidate, and the record it wrote. -/
structure Opens (cr : Crypto) (c : Config) (e : Entry) (key : Key) (o : OpenRecord) : Prop where
  code : e.code = 0x81
  kind : e.item.kind = 3
  body : ∃ q, parseOpen cr c e.item.body = .ok q ∧
    key = (q.problem, commitHash cr c.chainId q.problem q.cancel q.record.bodyDigest) ∧
    o = { q.record with hO := e.height, openPos := e.pos }

/-- The codes of a PART that was accepted. -/
def Entry.took (e : Entry) : Prop := e.code = 0x82 ∨ e.code = 0x83

instance (e : Entry) : Decidable e.took := inferInstanceAs (Decidable (_ ∨ _))

/-- The valid part an entry brings. -/
def Entry.part (cr : Crypto) (o : OpenRecord) (ch : Hash) (e : Entry) : Option (ℕ × Bytes) :=
  partOf cr o ch e.item

/-- **No two OPENs have one commit hash for different problems.** -/
def Distinct (cr : Crypto) (c : Config) (log : List Entry) : Prop :=
  ∀ e ∈ log, ∀ e' ∈ log, ∀ key key' o o', Opens cr c e key o → Opens cr c e' key' o' →
    key.2 = key'.2 → key = key'

theorem Distinct.mono {cr : Crypto} {c : Config} {log log' : List Entry} (h : Distinct cr c log')
    (hsub : log ⊆ log') : Distinct cr c log :=
  fun e he e' he' => h e (hsub he) e' (hsub he')

theorem Distinct.of_append {cr : Crypto} {c : Config} {log log' : List Entry}
    (h : Distinct cr c (log ++ log')) : Distinct cr c log :=
  h.mono (List.subset_append_left _ _)

/-- The parts that came after an OPEN: the bitmap marks the first valid ones, and these are the ones
that were accepted. -/
structure Gathers (cr : Crypto) (o : OpenRecord) (ch : Hash) (post : List Entry) : Prop where
  bits : ∀ j, hasBit o.bitmap j = true ↔ j ∈ (firsts (Entry.part cr o ch) post).map Prod.fst
  taken : (post.filter Entry.took).filterMap (Entry.part cr o ch) = firsts (Entry.part cr o ch) post

/-- **How far a candidate has come.** -/
inductive Progress (cr : Crypto) (c : Config) (log : List Entry) (s : State) (key : Key)
    (l : LiveCandidate) : Prop
  | committed (hstatus : l.status = .committed) (hopen : l.open? = none)
  | opened {o : OpenRecord} (hstatus : l.status = .opened) (hopen : l.open? = some o)
      (howned : s.opened[key.2]? = some key) (hdone : o.donePos = none) {pre post : List Entry} {e : Entry}
      (hlog : log = pre ++ e :: post) (he : Opens cr c e key o.posted) (hg : Gathers cr o key.2 post)
      (hmore : (firsts (Entry.part cr o key.2) post).length ≠ o.n)
  | done {o : OpenRecord} (hstatus : ¬l.status.young) (hopen : l.open? = some o)
      {pre post later : List Entry} {e e' : Entry} (hlog : log = pre ++ e :: (post ++ e' :: later))
      (he : Opens cr c e key o.posted) (hg : Gathers cr o key.2 (post ++ [e']))
      (hmore : (firsts (Entry.part cr o key.2) post).length ≠ o.n)
      (hall : (firsts (Entry.part cr o key.2) (post ++ [e'])).length = o.n)
      (hpos : o.donePos = some e'.pos) (hR : o.hR = some e'.height)

/-- **The state and the journal agree.** -/
structure Journal (cr : Crypto) (c : Config) (log : List Entry) (s : State) : Prop where
  live : ∀ (key : Key) (l : LiveCandidate), s.candidates[key]? = some (.live l) →
    (∃ e ∈ log, Commits e key l) ∧ Progress cr c log s key l
  owners : ∀ (ch : Hash) (k : Key), s.opened[ch]? = some k → k.2 = ch ∧ ∃ e ∈ log, ∃ o, Opens cr c e k o
  backed : ∀ e ∈ log, e.took → ∃ e₀ ∈ log, ∃ key o v, Opens cr c e₀ key o ∧ e.part cr o key.2 = some v

/-! ## Moves that leave the transport alone -/

/-- A candidate that may have been judged. -/
structure Moved (l l' : LiveCandidate) : Prop where
  hC : l'.hC = l.hC
  transactionIndex : l'.transactionIndex = l.transactionIndex
  logIndex : l'.logIndex = l.logIndex
  poster : l'.poster = l.poster
  open? : l'.open? = l.open?
  status : l'.status = l.status ∨ ¬l.status.young ∧ ¬l'.status.young

/-- **No candidate is new, and no record changes.** -/
structure Calm (s s' : State) : Prop where
  live : ∀ (key : Key) (l' : LiveCandidate), s'.candidates[key]? = some (.live l') →
    ∃ l, s.candidates[key]? = some (.live l) ∧ Moved l l'
  owners : ∀ (ch : Hash) (k : Key), s'.opened[ch]? = some k → s.opened[ch]? = some k
  owned : ∀ (key : Key) (l' : LiveCandidate), s'.candidates[key]? = some (.live l') →
    s.opened[key.2]? = some key → s'.opened[key.2]? = some key

section Calm

variable {cr : Crypto} {c : Config} {h : ℕ} {mix : Hash} {s s' s'' : State} {d d' : Draft}

theorem moved_refl (l : LiveCandidate) : Moved l l := ⟨rfl, rfl, rfl, rfl, rfl, .inl rfl⟩

theorem Moved.trans {l₁ l₂ l₃ : LiveCandidate} (h : Moved l₁ l₂) (h' : Moved l₂ l₃) : Moved l₁ l₃ where
  hC := h'.hC.trans h.hC
  transactionIndex := h'.transactionIndex.trans h.transactionIndex
  logIndex := h'.logIndex.trans h.logIndex
  poster := h'.poster.trans h.poster
  open? := h'.open?.trans h.open?
  status := by
    rcases h.status with hs | ⟨hold, hnew⟩
    · exact hs ▸ h'.status
    · rcases h'.status with hs' | ⟨-, hnew'⟩
      · exact .inr ⟨hold, hs' ▸ hnew⟩
      · exact .inr ⟨hold, hnew'⟩

theorem Calm.trans (h : Calm s s') (h' : Calm s' s'') : Calm s s'' where
  live key l'' hl'' := by
    obtain ⟨l', hl', hm'⟩ := h'.live key l'' hl''
    obtain ⟨l, hl, hm⟩ := h.live key l' hl'
    exact ⟨l, hl, hm.trans hm'⟩
  owners ch k hk := h.owners ch k (h'.owners ch k hk)
  owned key l'' hl'' hk := by
    obtain ⟨l', hl', -⟩ := h'.live key l'' hl''
    exact h'.owned key l'' hl'' (h.owned key l' hl' hk)

theorem calm_of_live (hopened : s'.opened = s.opened)
    (hlive : ∀ (key : Key) (l' : LiveCandidate), s'.candidates[key]? = some (.live l') →
      ∃ l, s.candidates[key]? = some (.live l) ∧ Moved l l') : Calm s s' :=
  ⟨hlive, fun _ _ hk => hopened ▸ hk, fun _ _ _ hk => hopened ▸ hk⟩

theorem calm_of_eq (hcands : s'.candidates = s.candidates) (hopened : s'.opened = s.opened) : Calm s s' :=
  calm_of_live hopened fun _ l' hl' => ⟨l', hcands ▸ hl', moved_refl l'⟩

/-- What else was changed before does not matter. -/
theorem Calm.of_eq (h : Calm s' s'') (hcands : s'.candidates = s.candidates)
    (hopened : s'.opened = s.opened) : Calm s s'' :=
  (calm_of_eq hcands hopened).trans h

/-- One candidate is judged. -/
theorem calm_judged {key : Key} {l : LiveCandidate} {v : Status} (hopened : s'.opened = s.opened)
    (hl : s.candidates[key]? = some (.live l)) (hold : ¬l.status.young) (hnew : ¬v.young)
    (hcands : s'.candidates = s.candidates.insert key (.live { l with status := v })) : Calm s s' := by
  refine calm_of_live hopened fun k l' hl' => ?_
  rw [hcands, getElem?_insert] at hl'
  split at hl'
  · rename_i heq
    subst heq
    obtain rfl := live.inj (Option.some.inj hl')
    exact ⟨l, hl, rfl, rfl, rfl, rfl, rfl, .inr ⟨hold, hnew⟩⟩
  · exact ⟨l', hl', moved_refl l'⟩

/-- Several candidates are moved to one status. -/
theorem calm_restated {Q : Key → Prop} {v : Status} (hopened : s'.opened = s.opened)
    (hcands : Restated Q v s.candidates s'.candidates) (hnew : ¬v.young)
    (hold : ∀ k, Q k → ∃ u, s.statusOf k = some u ∧ ¬u.young) : Calm s s' := by
  refine calm_of_live hopened fun k l' hl' => ?_
  by_cases hk : Q k
  · obtain ⟨l, hl, hmoved⟩ := hcands.moved k hk
    obtain rfl := live.inj (Option.mem_unique hmoved hl')
    obtain ⟨u, hu, hyoung⟩ := hold k hk
    obtain rfl := Option.some.inj ((State.statusOf_of_getElem? hl).symm.trans hu)
    exact ⟨l, hl, rfl, rfl, rfl, rfl, rfl, .inr ⟨hyoung, hnew⟩⟩
  · exact ⟨l', hcands.kept k hk ▸ hl', moved_refl l'⟩

theorem Draft.ties_calm (cr : Crypto) (d : Draft) (h : ℕ) (mix : Hash) :
    Calm d.toState (d.ties cr h mix).toState := by
  refine calm_of_live rfl fun key l' hl' => ?_
  simp only [ties, ExtTreeMap.getElem?_map, Option.map_eq_some_iff] at hl'
  obtain ⟨x, hx, htie⟩ := hl'
  cases x with
  | tombstone => cases htie
  | live l =>
    refine ⟨l, hx, ?_⟩
    rw [tie] at htie
    split at htie <;>
    · obtain rfl := live.inj htie
      exact ⟨rfl, rfl, rfl, rfl, rfl, .inl rfl⟩

theorem Draft.SlotStep.calm {slot : ℕ} (hs : SlotStep cr c h mix slot d d') :
    Calm d.toState d'.toState := by
  cases hs <;> exact calm_of_eq rfl rfl

theorem Draft.slotEvents_calm (hd : slotEvents cr c d h mix = .ok d') :
    Calm d.toState d'.toState := by
  unfold slotEvents at hd
  split at hd
  · obtain rfl := Except.ok.inj hd
    exact calm_of_eq rfl rfl
  · refine foldlM_invariant (fun d₁ : Draft => Calm d.toState d₁.toState)
      (fun d₁ slot d₂ _ hc h₂ => ?_) (calm_of_eq rfl rfl) hd
    obtain ⟨d₃, hfirst, hsecond⟩ := slotEvent_eq_ok h₂
    exact (hc.trans hfirst.calm).trans hsecond.calm

theorem Draft.expire_calm (c : Config) (d : Draft) (h : ℕ) : Calm d.toState (d.expire c h).toState := by
  obtain ⟨cands, evs, hover, hkept, -, heq⟩ := expire_eq c h d
  rw [heq]
  refine calm_of_live rfl fun key l' hl' => ?_
  by_cases hkey : Overdue c h d.toState key
  · exact nomatch (hover key hkey).symm.trans hl'
  · exact ⟨l', (hkept key hkey).symm.trans hl', moved_refl l'⟩

theorem Draft.purge_calm (c : Config) (d : Draft) (h : ℕ) : Calm d.toState (d.purge c h).toState := by
  obtain ⟨G, hf, -⟩ := purge_forgets c h d
  have hlive (key : Key) (l' : LiveCandidate) (hl' : (d.purge c h).candidates[key]? = some (.live l')) :
      ¬G key ∧ d.candidates[key]? = some (.live l') := by
    have hkey : ¬G key := fun hkey => nomatch (hf.gone key hkey).1.symm.trans hl'
    exact ⟨hkey, hf.kept key hkey ▸ hl'⟩
  refine ⟨fun key l' hl' => ⟨l', (hlive key l' hl').2, moved_refl l'⟩, fun ch k hk => ?_,
    fun key l' hl' hk => ?_⟩
  · rcases hf.opened ch with heq | ⟨hnone, -⟩
    · exact heq ▸ hk
    · exact nomatch hnone.symm.trans hk
  · rcases hf.opened key.2 with heq | ⟨-, k, hk', -, hG⟩
    · exact heq ▸ hk
    · -- what is forgotten is a tombstone, and the candidate is still there
      obtain rfl := Option.mem_unique hk' hk
      exact absurd hG (hlive k l' hl').1

theorem nextStatus_grown {kind : RecordKind} {old new : Status} {outcome : Outcome} {f x : Bool}
    (h : nextStatus kind old outcome f x = some new) : ¬old.young ∧ ¬new.young := by
  cases kind <;> cases old <;> cases outcome <;> cases f <;> cases x <;>
    cases h <;> simp [Status.young]

theorem Draft.WindowStep.calm {p : Hash} (hw : WindowStep c p h s s') : Calm s s' := by
  rw [hw.frame]
  exact calm_of_eq rfl rfl

theorem Draft.VoidStep.calm {p : Hash} (hv : VoidStep c p h d d') : Calm d.toState d'.toState := by
  cases hv with
  | again => exact calm_of_eq rfl rfl
  | @void P _ _ s hwindow cands hcands =>
    have hfirst : Calm d.toState s := hwindow.calm.of_eq rfl rfl
    refine hfirst.trans (calm_restated rfl hcands (by simp [Status.young]) fun k hk => ⟨_, hk.2, ?_⟩)
    simp [Status.young]

theorem Judged.calm {p : M3Config} {cap n : ℕ} {v : IndexedVerdict} {job : Job} {l : LiveCandidate}
    {P : Problem} {new : Status} {clock : FuelClock}
    (hj : Judged c p cap h forks d n v job m l P new clock d') : Calm d.toState d'.toState := by
  obtain ⟨hold, hnew⟩ := nextStatus_grown hj.status
  cases hj.applies with
  | plain | compensated => exact calm_judged rfl hj.candidate hold hnew rfl
  | stale =>
    have hopened : (d.toState.enqueueRepose job.key.1).opened = d.opened := by
      rw [enqueueRepose_frame]
    exact calm_judged hopened hj.candidate hold hnew rfl
  | voided _ _ hstep =>
    have hfirst : Calm d.toState { d.toState with
        candidates := d.candidates.insert job.key (.live { l with status := new }) } :=
      calm_judged rfl hj.candidate hold hnew rfl
    exact (hfirst.trans hstep.calm).trans (calm_of_eq rfl rfl)

theorem JudgeStep.calm {p : M3Config} {cap : ℕ} {x x' : Draft × ℕ}
    (hj : JudgeStep cr c p cap h mix forks x x') : Calm x.1.toState x'.1.toState := by
  cases hj with
  | ties d n => exact ties_calm cr d h mix
  | apply hj => exact hj.calm
  | advance => exact calm_of_eq rfl rfl

theorem Draft.Accepts.calm {key : Key} {P : Problem} {r : Runner}
    (ha : Accepts c key h d d') (hw : Wins d key P r m) :
    Calm d.toState d'.toState := by
  have hpassed := hw.statusOf
  cases ha with
  | @mk p _ l hl o _ _ _ _ _ cands hcands s hwindow =>
    have hstatus : l.status = .passed := Option.some.inj ((State.statusOf_of_getElem? hl).symm.trans hpassed)
    have hfirst : Calm d.toState { d.toState with
        candidates := d.candidates.insert key (.live { l with status := .accepted }) } :=
      calm_judged rfl hl (by simp [hstatus, Status.young]) (by simp [Status.young]) rfl
    have hrest : Calm { d.toState with
        candidates := d.candidates.insert key (.live { l with status := .accepted }) }
        { d.toState with candidates := cands } := by
      refine calm_restated rfl hcands (by simp [Status.young]) fun k ⟨_, hne, hk⟩ => ?_
      rw [State.statusOf_insert rfl, if_neg (Ne.symm hne)]
      rcases hk with hk | hk <;> exact ⟨_, hk, by simp [Status.young]⟩
    exact ((hfirst.trans hrest).trans (hwindow.calm.of_eq rfl rfl)).trans (calm_of_eq rfl rfl)

theorem Draft.settle_calm (hd : d.settle c h = .ok d') : Calm d.toState d'.toState := by
  refine foldlM_invariant (fun d₁ : Draft => Calm d.toState d₁.toState)
    (fun d₁ id d₂ _ hc h₂ => ?_) (calm_of_eq rfl rfl) hd
  rcases settleProblem_eq_ok h₂ with rfl | ⟨ch, P, r, m, hw, ha⟩
  · exact hc
  · exact hc.trans (ha.calm hw)

theorem Draft.vest_calm {payments : List RewardPayment} (hv : d.vest c h = .ok (d', payments)) :
    Calm d.toState d'.toState := by
  obtain ⟨p, m, m', rs, -, -, -, rfl⟩ := vest_eq_ok hv
  exact calm_of_eq rfl rfl

theorem Draft.Activates.calm (ha : Activates cr h forks d m d') :
    Calm d.toState d'.toState := by
  cases ha <;> exact calm_of_eq rfl rfl

end Calm

section Stay

variable {cr : Crypto} {c : Config} {log : List Entry} {s s' : State} {key : Key} {l l' : LiveCandidate}

theorem Commits.moved {e : Entry} (he : Commits e key l) (hm : Moved l l') : Commits e key l' where
  code := he.code
  kind := he.kind
  pos := by rw [he.pos, hm.hC, hm.transactionIndex, hm.logIndex]
  body := by rw [hm.poster]; exact he.body

theorem Progress.moved (hp : Progress cr c log s key l) (hm : Moved l l')
    (howned : s.opened[key.2]? = some key → s'.opened[key.2]? = some key) : Progress cr c log s' key l' := by
  have hsame (hyoung : l.status.young) : l'.status = l.status := hm.status.resolve_right fun h => h.1 hyoung
  cases hp with
  | committed hstatus hopen =>
    exact .committed ((hsame (.inl hstatus)).trans hstatus) (hm.open?.trans hopen)
  | opened hstatus hopen hmine hdone hlog he hg hmore =>
    exact .opened ((hsame (.inr hstatus)).trans hstatus) (hm.open?.trans hopen) (howned hmine) hdone hlog he hg hmore
  | done hstatus hopen hlog he hg hmore hall hpos hR =>
    refine .done ?_ (hm.open?.trans hopen) hlog he hg hmore hall hpos hR
    rcases hm.status with heq | ⟨-, hnew⟩
    · rwa [heq]
    · exact hnew

/-- **Judging and forgetting keep the state and the journal in step.** -/
theorem Journal.calm (hj : Journal cr c log s) (hc : Calm s s') : Journal cr c log s' where
  live key l' hl' := by
    obtain ⟨l, hl, hm⟩ := hc.live key l' hl'
    obtain ⟨⟨e, he, hcommits⟩, hprogress⟩ := hj.live key l hl
    exact ⟨⟨e, he, hcommits.moved hm⟩, hprogress.moved hm (hc.owned key l' hl')⟩
  owners ch k hk := hj.owners ch k (hc.owners ch k hk)
  backed := hj.backed

end Stay

/-! ## Items -/

section Items

variable {cr : Crypto} {c : Config} {h : ℕ} {log post : List Entry} {s s' : State} {x : Input}
  {accepted : ℕ} {code : UInt8} {e : Entry} {o : OpenRecord} {ch : Hash} {key : Key} {l : LiveCandidate}

/-- An entry that changes nothing for an OPEN: it is no part of it, or one that has come before. -/
def Idle (cr : Crypto) (o : OpenRecord) (ch : Hash) (e : Entry) : Prop :=
  e.part cr o ch = none ∨ ∃ v, e.part cr o ch = some v ∧ hasBit o.bitmap v.1 = true ∧ ¬e.took

theorem Gathers.skip (hg : Gathers cr o ch post) (he : Idle cr o ch e) :
    Gathers cr o ch (post ++ [e]) ∧
      firsts (Entry.part cr o ch) (post ++ [e]) = firsts (Entry.part cr o ch) post := by
  have hfirsts : firsts (Entry.part cr o ch) (post ++ [e]) = firsts (Entry.part cr o ch) post := by
    rw [firsts_concat]
    rcases he with hnone | ⟨v, hv, hbit, -⟩
    · exact keepFirst_of_none hnone
    · exact keepFirst_of_mem hv ((hg.bits v.1).mp hbit)
  refine ⟨⟨fun j => by rw [hfirsts]; exact hg.bits j, ?_⟩, hfirsts⟩
  rw [hfirsts, List.filter_append, List.filterMap_append, hg.taken]
  rcases he with hnone | ⟨v, -, -, htook⟩
  · by_cases htook : e.took <;> simp [hnone]
  · simp [htook]

/-- What counts as a part was fixed by the OPEN. -/
theorem posted_congr (h : o'.posted = o.posted) :
    o'.n = o.n ∧ Entry.part cr o' ch = Entry.part cr o ch := by
  have hn : o'.posted.n = o.posted.n := by rw [h]
  have hpart : Entry.part cr o'.posted ch = Entry.part cr o.posted ch := by rw [h]
  exact ⟨hn, hpart⟩

theorem Gathers.take (hg : Gathers cr o ch post) {i : ℕ} (he : e.part cr o ch = some (i, data))
    (htook : e.took) {w : BitVec 64} (hw : o.bitmap[i / 64]? = some w)
    (hbit : w.getLsbD (i % 64) = false) (ho' : o'.posted = o.posted)
    (hbitmap : o'.bitmap = o.bitmap.set (i / 64) (w ||| BitVec.twoPow 64 (i % 64))) :
    Gathers cr o' ch (post ++ [e]) ∧ firsts (Entry.part cr o' ch) (post ++ [e]) =
      firsts (Entry.part cr o ch) post ++ [(i, data)] := by
  have hpart : Entry.part cr o' ch = Entry.part cr o ch := (posted_congr ho').2
  have hfresh : i ∉ (firsts (Entry.part cr o ch) post).map Prod.fst := by
    rw [← hg.bits i, hasBit, hw, Option.any_some, hbit]
    exact Bool.false_ne_true
  have hfirsts := (firsts_concat (Entry.part cr o ch) post e).trans (keepFirst_of_notMem he hfresh)
  rw [hpart]
  refine ⟨⟨fun j => ?_, ?_⟩, hfirsts⟩
  · rw [hpart, hfirsts, hbitmap, hasBit_set hw, hg.bits j]
    simp
  · rw [hpart, hfirsts, List.filter_append, List.filterMap_append, hg.taken]
    simp [htook, he]

theorem part_of_kind (hkind : e.item.kind ≠ 4) : e.part cr o ch = none := by
  cases hpart : e.part cr o ch with
  | none => rfl
  | some v =>
    obtain ⟨b, path, hcarries, -⟩ := partOf_eq_some.mp hpart
    exact absurd hcarries.kind hkind

/-- A candidate that an item leaves alone. -/
theorem Progress.skip (hp : Progress cr c log s key l)
    (howned : s.opened[key.2]? = some key → s'.opened[key.2]? = some key)
    (he : ∀ o, l.open? = some o → l.status = .opened → Idle cr o key.2 e) :
    Progress cr c (log ++ [e]) s' key l := by
  cases hp with
  | committed hstatus hopen => exact .committed hstatus hopen
  | @opened o hstatus hopen hmine hdone pre post e₀ hlog he₀ hg hmore =>
    obtain ⟨hg', hfirsts⟩ := hg.skip (he o hopen hstatus)
    have hlog' : log ++ [e] = pre ++ e₀ :: (post ++ [e]) := by simp [hlog]
    exact .opened hstatus hopen (howned hmine) hdone hlog' he₀ hg' (hfirsts ▸ hmore)
  | @done o hstatus hopen pre post later e₀ e₁ hlog he₀ hg hmore hall hpos hR =>
    have hlog' : log ++ [e] = pre ++ e₀ :: (post ++ e₁ :: (later ++ [e])) := by simp [hlog]
    exact .done hstatus hopen hlog' he₀ hg hmore hall hpos hR

/-- A valid part that is new is accepted. -/
theorem took_of_carries {b : PartBody} {path : List Hash} (hc : Carries cr o x b path data)
    (hopened : s.opened[b.ch]? = some key) (hl : s.candidates[key]? = some (.live l))
    (hstatus : l.status = .opened) (ho : l.open? = some o) (hbit : hasBit o.bitmap b.index = false)
    (hitem : item cr c h s x accepted = .ok (s', code)) : code = 0x82 ∨ code = 0x83 := by
  have hhandle : handle cr c h s x accepted = partItem cr h s x := by
    simp [handle, hc.kind]
  have hrefusal : partRefusal (live l).status = none := by
    rw [status, hstatus]
    rfl
  rw [item, hhandle, partItem, hc.body] at hitem
  cases hword : o.bitmap[b.index / 64]? with
  | none =>
    simp [okOr, hopened, hl, hrefusal, ensure, ho, hc.index, hc.tail, hc.length, hc.verified, hword,
      live?, bind, Except.bind] at hitem
  | some w =>
    rw [hasBit, hword, Option.any_some] at hbit
    simp only [okOr, hopened, hl, hrefusal, ho, hc.index, hc.tail, hc.length, hc.verified, hword,
      hbit, live?, bind, Except.bind] at hitem
    obtain ⟨-, rfl⟩ := Prod.mk.inj (Except.ok.inj hitem)
    unfold recordPart
    split
    · exact .inr rfl
    · exact .inl rfl

theorem Progress.owned (hp : Progress cr c log s key l) (hstatus : l.status = .opened) :
    s.opened[key.2]? = some key := by
  cases hp with
  | committed hs => exact nomatch hs.symm.trans hstatus
  | opened _ _ howned => exact howned
  | done hyoung => exact absurd (.inr hstatus) hyoung

/-- The record of an OPEN starts with no part, and expects one. -/
theorem Opens.start (he : Opens cr c e key o) : o.posted = o ∧ o.n ≠ 0 := by
  obtain ⟨q, hq, -, rfl⟩ := he.body
  simp only [parseOpen, bind_eq_ok, ensure_eq_ok, pure_eq_ok] at hq
  obtain ⟨b, -, m, -, _, -, _, -, _, ⟨hz, hn⟩, _, -, rfl⟩ := hq
  refine ⟨rfl, ?_⟩
  dsimp only
  rw [← hn, partSize]
  omega

section

variable (hj : Journal cr c log s)
include hj

theorem Journal.skip (hl : s.candidates[key]? = some (.live l))
    (howned : s.opened[key.2]? = some key → s'.opened[key.2]? = some key)
    (he : ∀ o, l.open? = some o → l.status = .opened → Idle cr o key.2 e) :
    (∃ e' ∈ log ++ [e], Commits e' key l) ∧ Progress cr c (log ++ [e]) s' key l := by
  obtain ⟨⟨e', he', hcommits⟩, hprogress⟩ := hj.live key l hl
  exact ⟨⟨e', List.mem_append_left _ he', hcommits⟩, hprogress.skip howned he⟩

theorem Journal.owners_concat {k : Key} (hk : s.opened[ch]? = some k) :
    k.2 = ch ∧ ∃ e' ∈ log ++ [e], ∃ o, Opens cr c e' k o := by
  obtain ⟨hch, e', he', hopens⟩ := hj.owners ch k hk
  exact ⟨hch, e', List.mem_append_left _ he', hopens⟩

theorem Journal.backed_concat
    (he : e.took → ∃ e₀ ∈ log, ∃ key o v, Opens cr c e₀ key o ∧ e.part cr o key.2 = some v) :
    ∀ e' ∈ log ++ [e], e'.took → ∃ e₀ ∈ log ++ [e], ∃ key o v, Opens cr c e₀ key o ∧
      e'.part cr o key.2 = some v := by
  intro e' he' htook
  have hold (h : ∃ e₀ ∈ log, ∃ key o v, Opens cr c e₀ key o ∧ e'.part cr o key.2 = some v) :
      ∃ e₀ ∈ log ++ [e], ∃ key o v, Opens cr c e₀ key o ∧ e'.part cr o key.2 = some v := by
    obtain ⟨e₀, he₀, hopens⟩ := h
    exact ⟨e₀, List.mem_append_left _ he₀, hopens⟩
  rcases List.mem_append.mp he' with he' | he'
  · exact hold (hj.backed e' he' htook)
  · obtain rfl := List.mem_singleton.mp he'
    exact hold (he htook)

/-- An item that is no PART and writes at most one candidate. -/
theorem Journal.insert (hkind : e.item.kind ≠ 4) (hcode : ¬e.took) {y : Candidate}
    (hcands : s'.candidates = s.candidates.insert key y) (hopened : s'.opened = s.opened)
    (hnew : ∀ l, y = .live l → (∃ e' ∈ log ++ [e], Commits e' key l) ∧
      Progress cr c (log ++ [e]) s' key l) : Journal cr c (log ++ [e]) s' where
  live k l hl := by
    rw [hcands, getElem?_insert] at hl
    split_ifs at hl with heq
    · subst heq
      exact hnew l (Option.some.inj hl)
    · exact hj.skip hl (fun hk => hopened ▸ hk) fun _ _ _ => .inl (part_of_kind hkind)
  owners ch k hk := hj.owners_concat (hopened ▸ hk)
  backed := hj.backed_concat fun htook => absurd htook hcode

/-- An item that writes no candidate. -/
theorem Journal.idle (hcode : ¬e.took) (hcands : s'.candidates = s.candidates)
    (hopened : s'.opened = s.opened) (hidle : ∀ (k : Key) (l : LiveCandidate) (o : OpenRecord),
      s.candidates[k]? = some (.live l) → l.open? = some o → l.status = .opened → Idle cr o k.2 e) :
    Journal cr c (log ++ [e]) s' where
  live k l hl := by
    rw [hcands] at hl
    exact hj.skip hl (fun hk => hopened ▸ hk) fun o => hidle k l o hl
  owners ch k hk := hj.owners_concat (hopened ▸ hk)
  backed := hj.backed_concat fun htook => absurd htook hcode

/-- A part that is accepted, with its candidate. -/
theorem Journal.part {b : PartBody} {path : List Hash} {bitmap : List (BitVec 64)}
    (hp : PartAccepted cr s x b key l o path data bitmap)
    (hx : e.item = x) (htook : e.took) {l' : LiveCandidate}
    (hcands : s'.candidates = s.candidates.insert key (.live l')) (hopened : s'.opened = s.opened)
    (hmoved : l'.hC = l.hC ∧ l'.transactionIndex = l.transactionIndex ∧ l'.logIndex = l.logIndex ∧
      l'.poster = l.poster) (ho' : l'.open? = some o') (hposted : o'.posted = o.posted)
    (hbitmap : o'.bitmap = bitmap) (hend : countOnes bitmap ≠ o.n ∧ l'.status = l.status ∧
      o'.donePos = o.donePos ∨ countOnes bitmap = o.n ∧ ¬l'.status.young ∧ o'.donePos = some e.pos ∧
      o'.hR = some e.height) :
    Journal cr c (log ++ [e]) s' := by
  have hch : b.ch = key.2 := (hj.owners _ _ hp.opened).1.symm
  have hpart : e.part cr o key.2 = some (b.index, data) :=
    partOf_eq_some.mpr ⟨b, path, hx ▸ hp.carries, hch, rfl⟩
  obtain ⟨w, hw, hbit, hset⟩ := hp.fresh
  obtain ⟨⟨e₁, he₁, hcommits⟩, hprogress⟩ := hj.live key l hp.candidate
  cases hprogress with
  | committed _ hnone => exact nomatch hnone.symm.trans hp.record
  | done hyoung => exact absurd hp.status hyoung
  | @opened o₁ hstatus ho₁ howned hdone pre post e₀ hlog he₀ hg hmore =>
    obtain rfl := Option.mem_unique ho₁ hp.record
    obtain ⟨hg', hfirsts⟩ := hg.take hpart htook hw hbit hposted (hbitmap.trans hset)
    have hcount : countOnes bitmap = (firsts (Entry.part cr o' key.2) (post ++ [e])).length := by
      rw [← hbitmap, countOnes_of_nodup (nodup_firsts _ _) hg'.bits, List.length_map]
    obtain ⟨hn, hsame⟩ := posted_congr hposted
    have he₀' : Opens cr c e₀ key o'.posted := hposted ▸ he₀
    refine ⟨fun k l₂ hl₂ => ?_, fun ch k hk => hj.owners_concat (hopened ▸ hk), ?_⟩
    · rw [hcands, getElem?_insert] at hl₂
      split_ifs at hl₂ with heq
      · subst heq
        obtain rfl := live.inj (Option.some.inj hl₂)
        refine ⟨⟨e₁, List.mem_append_left _ he₁, hcommits.code, hcommits.kind, ?_, ?_⟩, ?_⟩
        · rw [hcommits.pos, hmoved.1, hmoved.2.1, hmoved.2.2.1]
        · rw [hmoved.2.2.2]
          exact hcommits.body
        · rcases hend with ⟨hmore', hkept, hdone'⟩ | ⟨hall, hyoung, hpos, hR⟩
          · have hlog' : log ++ [e] = pre ++ e₀ :: (post ++ [e]) := by simp [hlog]
            exact .opened (hkept.trans hstatus) ho' (hopened ▸ howned) (hdone'.trans hdone) hlog' he₀' hg'
              (hn ▸ hcount ▸ hmore')
          · have hlog' : log ++ [e] = pre ++ e₀ :: (post ++ e :: []) := by simp [hlog]
            refine .done hyoung ho' hlog' he₀' hg' ?_ (hn ▸ hcount ▸ hall) hpos hR
            rw [hsame, hn]
            exact hmore
      · refine hj.skip hl₂ (fun hk => hopened ▸ hk) fun o₂ ho₂ hstatus₂ => .inl ?_
        -- the hash of a PART names one candidate
        by_contra hsome
        obtain ⟨⟨i, data₂⟩, hsome⟩ := Option.ne_none_iff_exists'.mp hsome
        obtain ⟨b₂, _, hcarries₂, hch₂, -⟩ := partOf_eq_some.mp hsome
        obtain rfl : b = b₂ := Option.some.inj (hp.body.symm.trans (hx ▸ hcarries₂.body))
        have howned₂ := (hj.live k l₂ hl₂).2.owned hstatus₂
        rw [← hch₂, hp.opened] at howned₂
        exact heq (Option.some.inj howned₂)
    · exact hj.backed_concat fun _ =>
        ⟨e₀, by simp [hlog], key, o₁.posted, (b.index, data), he₀, hpart⟩

/-- An OPEN that is accepted. -/
theorem Journal.open (hl : s.candidates[key]? = some (.live l)) (he : Opens cr c e key o)
    (hd : Distinct cr c (log ++ [e]))
    (hcands : s'.candidates = s.candidates.insert key (.live { l with open? := some o, status := .opened }))
    (hopened : s'.opened = s.opened.insert key.2 key) : Journal cr c (log ++ [e]) s' := by
  obtain ⟨hposted, hn⟩ := he.start
  have hkind : e.item.kind ≠ 4 := by
    rw [he.kind]
    decide
  obtain ⟨⟨e₁, he₁, hcommits⟩, -⟩ := hj.live key l hl
  refine ⟨fun k l₂ hl₂ => ?_, fun ch k hk => ?_, hj.backed_concat fun htook => ?_⟩
  · rw [hcands, getElem?_insert] at hl₂
    split at hl₂
    · rename_i heq
      subst heq
      obtain rfl := live.inj (Option.some.inj hl₂)
      refine ⟨⟨e₁, List.mem_append_left _ he₁, hcommits.code, hcommits.kind, hcommits.pos, hcommits.body⟩, ?_⟩
      refine .opened rfl rfl (by simp [hopened]) ?_ rfl (hposted.symm ▸ he) ⟨fun j => ?_, rfl⟩ (Ne.symm hn)
      · rw [← hposted]
        rfl
      · rw [← hposted]
        simp only [firsts, List.foldl_nil, List.map_nil, List.not_mem_nil, iff_false, OpenRecord.posted, hasBit,
          Bool.not_eq_true, Option.any_eq_false]
        intro w hw
        have hzero : w = 0 := by simpa using List.mem_of_getElem? hw
        simp [hzero]
    · rename_i hne
      refine hj.skip hl₂ (fun hk => ?_) fun o _ _ => .inl (part_of_kind hkind)
      -- the hash of an OPEN that came before names another candidate
      rw [hopened, getElem?_insert]
      split_ifs with heq
      · obtain ⟨-, e', he', o', hopens'⟩ := hj.owners _ _ hk
        exact absurd (hd e (by simp) e' (List.mem_append_left _ he') key k o o' he hopens' heq) hne
      · exact hk
  · rw [hopened, getElem?_insert] at hk
    split_ifs at hk with heq
    · obtain rfl := Option.some.inj hk
      exact ⟨heq, e, by simp, o, he⟩
    · exact hj.owners_concat hk
  · simp [Entry.took, he.code] at htook

end

/-- **One item keeps the state and the journal in step.** -/
theorem Draft.ItemStep.journal (hi : ItemStep cr c h s x accepted s' code)
    (hitem : ∃ s', item cr c h s x accepted = .ok (s', code)) (hj : Journal cr c log s)
    (hd : Distinct cr c (log ++ [⟨h, x, code⟩])) : Journal cr c (log ++ [⟨h, x, code⟩]) s' := by
  have hkind {n : UInt8} (hx : x.kind = n) (hn : n ≠ 4) : (⟨h, x, code⟩ : Entry).item.kind ≠ 4 := hx ▸ hn
  cases hi with
  | refused hcode =>
    have htook : ¬(⟨h, x, code⟩ : Entry).took := by
      rintro (rfl | rfl) <;> simp at hcode
    refine hj.idle htook rfl rfl fun k l o hl ho hstatus => ?_
    cases hpart : (⟨h, x, code⟩ : Entry).part cr o k.2 with
    | none => exact .inl hpart
    | some v =>
      obtain ⟨b, path, hcarries, hch, hindex⟩ := partOf_eq_some.mp hpart
      refine .inr ⟨v, hpart, ?_, htook⟩
      -- a valid part that is new would have been accepted
      by_contra hbit
      obtain ⟨s', hitem⟩ := hitem
      have howned := (hj.live k l hl).2.owned hstatus
      exact htook (took_of_carries hcarries (hch ▸ howned) hl hstatus ho
        (Bool.eq_false_iff.mpr (hindex ▸ hbit)) hitem)
  | @commit b hx hbody P _ _ _ params _ _ _ _ =>
    refine hj.insert (hkind hx (by decide)) (by simp [Entry.took]) rfl rfl fun l hl => ?_
    obtain rfl := live.inj hl
    exact ⟨⟨_, List.mem_append_right _ List.mem_cons_self, rfl, hx, rfl, b, hbody, rfl, rfl⟩,
      .committed rfl rfl⟩
  | @opened q hx hparse key hkey l hl hstatus _ _ _ _ _ _ _ _ =>
    exact hj.open hl ⟨rfl, hx, q, hparse, hkey, rfl⟩ hd rfl rfl
  | @part b key l o path data bitmap hp hmore =>
    exact hj.part hp rfl (.inl rfl) rfl rfl ⟨rfl, rfl, rfl, rfl⟩ rfl rfl rfl (.inl ⟨hmore, rfl, rfl⟩)
  | @last b key l o path data bitmap hp hall =>
    exact hj.part hp rfl (.inr rfl) rfl rfl ⟨rfl, rfl, rfl, rfl⟩ rfl rfl rfl
      (.inr ⟨hall, by simp [Status.young], rfl, rfl⟩)
  | cancelled hx =>
    exact hj.insert (hkind hx (by decide)) (by simp [Entry.took]) rfl rfl nofun
  | pool hx | problem hx =>
    exact hj.idle (by simp [Entry.took]) rfl rfl fun _ _ _ _ _ _ => .inl (part_of_kind (hkind hx (by decide)))

/-- A complete candidate is judged later, or not at all. -/
theorem Draft.Completes.journal {d d' : Draft} (hcomp : Completes key h d l d')
    (hj : Journal cr c log d.toState) (hl : d.candidates[key]? = some (.live l)) (hyoung : ¬l.status.young) :
    Journal cr c log d'.toState := by
  cases hcomp with
  | void | superseded => exact hj.calm (calm_judged rfl hl hyoung (by simp [Status.young]) rfl)
  | @queued P _ _ _ m _ o hopen =>
    refine ⟨fun k l₂ hl₂ => ?_, hj.owners, hj.backed⟩
    simp only [getElem?_insert] at hl₂
    split_ifs at hl₂ with heq
    · subst heq
      obtain rfl := live.inj (Option.some.inj hl₂)
      obtain ⟨⟨e, he, hcommits⟩, hprogress⟩ := hj.live key l hl
      refine ⟨⟨e, he, hcommits.code, hcommits.kind, hcommits.pos, hcommits.body⟩, ?_⟩
      cases hprogress with
      | committed hstatus => exact absurd (.inl hstatus) hyoung
      | opened hstatus => exact absurd (.inr hstatus) hyoung
      | done _ hopen' hlog he hg hmore hall hpos hR =>
        obtain rfl := Option.mem_unique hopen' hopen
        exact .done hyoung rfl hlog he ⟨hg.bits, hg.taken⟩ hmore hall hpos hR
    · obtain ⟨hcommits, hprogress⟩ := hj.live k l₂ hl₂
      exact ⟨hcommits, hprogress.moved (moved_refl l₂) fun hk => hk⟩

theorem Draft.foldItem_journal (log : List Entry) {acc acc' : Inbox} (ha : foldItem cr c h acc x = .ok acc') :
    ∃ code, acc'.codes = acc.codes ++ [code] ∧ (Journal cr c log acc.draft.toState →
      Distinct cr c (log ++ [⟨h, x, code⟩]) → Journal cr c (log ++ [⟨h, x, code⟩]) acc'.draft.toState) := by
  obtain ⟨code, hdraft, hcodes, -⟩ := foldItem_eq_ok ha
  refine ⟨code, hcodes, fun hj hd => ?_⟩
  have hitem : ∃ s', item cr c h acc.draft.toState x acc.accepted = .ok (s', code) := by
    simp only [foldItem, bind_eq_ok, pure_eq_ok] at ha
    obtain ⟨⟨s', code'⟩, hitem, draft, -, rfl⟩ := ha
    obtain rfl : code' = code := by simpa using hcodes
    exact ⟨s', hitem⟩
  generalize acc'.draft = d' at hdraft ⊢
  cases hdraft with
  | plain hs => exact hs.journal hitem hj hd
  | @completed b key l o path data bitmap hpart hall l' hl' evs hevs d' hcomp =>
    have hfirst := (ItemStep.last hpart hall).journal hitem hj hd
    subst hl'
    refine hcomp.journal ?_ (by simp) (by simp [Status.young])
    exact hfirst.calm (calm_of_eq rfl rfl)

theorem Draft.foldItems_journal {items : List Input} {acc inbox : Inbox}
    (ha : items.foldlM (foldItem cr c h) acc = .ok inbox) : ∃ codes, inbox.codes = acc.codes ++ codes ∧
      ∀ log, Journal cr c log acc.draft.toState →
        Distinct cr c (log ++ (items.zip codes).map fun z => ⟨h, z.1, z.2⟩) →
        Journal cr c (log ++ (items.zip codes).map fun z => ⟨h, z.1, z.2⟩) inbox.draft.toState := by
  induction items generalizing acc with
  | nil =>
    obtain rfl := Except.ok.inj ha
    exact ⟨[], by simp, fun log hj _ => by simpa using hj⟩
  | cons x items ih =>
    rw [List.foldlM_cons, bind_eq_ok] at ha
    obtain ⟨acc₁, h₁, ha⟩ := ha
    obtain ⟨codes, hcodes, hrest⟩ := ih ha
    obtain ⟨code, hcode, -⟩ := foldItem_journal [] h₁
    refine ⟨code :: codes, by rw [hcodes, hcode]; simp, fun log hj hd => ?_⟩
    rw [List.zip_cons_cons, List.map_cons, List.append_cons] at hd ⊢
    obtain ⟨code', hcode', hstep⟩ := foldItem_journal log h₁
    obtain rfl : code = code' := by simpa [hcode'] using hcode.symm
    exact hrest _ (hstep hj hd.of_append) hd

end Items

/-! ## Runs -/

section Runs

variable {cr : Crypto} {c : Config} {gas : ℕ} {s s' : State} {i : StepInput} {st : Step}
  {log : List Entry} {run : List (StepInput × Step)}

theorem Folds.journal {g : Stages} (hf : Folds cr c s i st g) (hj : Journal cr c log s)
    (hd : Distinct cr c (log ++ i.entries st.codes)) :
    Journal cr c (log ++ i.entries st.codes) st.state := by
  obtain ⟨m, -, hact⟩ := activate_eq_ok hf.activate
  obtain ⟨p, cap, -, -, hjudging⟩ := hf.judging
  have hjudged : Calm s g.judged.toState :=
    steps_invariant (fun x : Draft × ℕ => Calm s x.1.toState) (fun _ _ hx hj => hx.trans hj.calm)
      hjudging hact.calm
  have hbefore := ((hjudged.trans (slotEvents_calm hf.slots)).trans
    (expire_calm c g.slotted i.l1.number)).trans (purge_calm c _ i.l1.number)
  obtain ⟨codes, hcodes, hitems⟩ := foldItems_journal hf.items
  rw [hf.codes, hcodes] at hd ⊢
  have hafter := (settle_calm hf.settle).trans (vest_calm hf.vest)
  rw [hf.state]
  exact ((hitems log (hj.calm hbefore) hd).calm hafter).calm (calm_of_eq rfl rfl)

theorem Plain.journal {slotted : Draft} {inbox : Inbox} (hf : Plain cr c s i st slotted inbox)
    (hj : Journal cr c log s) (hd : Distinct cr c (log ++ i.entries st.codes)) :
    Journal cr c (log ++ i.entries st.codes) st.state := by
  have hties : Calm s (ties cr { s with events := [] } i.l1.number i.l1.mix).toState :=
    ties_calm cr { s with events := [] } i.l1.number i.l1.mix
  have hbefore := ((hties.trans (slotEvents_calm hf.slots)).trans
    (expire_calm c slotted i.l1.number)).trans (purge_calm c _ i.l1.number)
  obtain ⟨codes, hcodes, hitems⟩ := foldItems_journal hf.items
  rw [hf.codes, hcodes] at hd ⊢
  rw [hf.state]
  exact (hitems log (hj.calm hbefore) hd).calm (calm_of_eq rfl rfl)

theorem journal_concat (run : List (StepInput × Step)) (i : StepInput) (st : Step) :
    journal (run ++ [(i, st)]) = journal run ++ i.entries st.codes := by
  simp [journal]

/-- **In every run the state and the journal agree.** -/
theorem Ran.journaled (hr : Ran cr c gas run s) (hd : Distinct cr c (journal run)) :
    Journal cr c (journal run) s := by
  obtain ⟨s₀, hs₀, hon⟩ := hr
  induction hon with
  | refl =>
    rw [State.new_eq_ok hs₀]
    exact ⟨nofun, nofun, nofun⟩
  | fold _ hst ih =>
    obtain ⟨g, hf⟩ := State.fold_eq_ok hst
    rw [journal_concat] at hd ⊢
    exact hf.journal (ih hd.of_append) hd
  | step _ hst ih =>
    obtain ⟨slotted, inbox, hf⟩ := State.step_eq_ok hst
    rw [journal_concat] at hd ⊢
    exact hf.journal (ih hd.of_append) hd

end Runs

end Derivation
