import Boole.Derivation.Reposes

/-!
# Derivation/Windows — commit windows without the M3 profile

A COMMIT is accepted while its problem is open, an OPEN some blocks after the COMMIT, and a candidate
that is not complete by then expires.  The tombstones that refuse a second COMMIT are forgotten some
time after the problem was closed.  **A candidate that has expired or was cancelled never comes back**:
while its tombstone is there it is in the way, and when it is forgotten the problem has been closed.

    height   h_v ── h_c ─── closed ─── h_c + w ─── closed + w + 1
             posed  COMMIT  deadline   expired     tombstone forgotten
-/

open Std Library Relation

namespace Derivation

open Draft State

/-! ## A step seen from the state before it -/

/-- A problem of a draft at height `h` is a new one, or was there before the step. -/
def Since (h : ℕ) (s : State) (p : Hash) (P' : Problem) : Prop :=
  P'.hV = h ∧ (P'.closed = none ∨ P'.closed = some h) ∨
  ∃ P, s.problems[p]? = some P ∧ P'.hV = P.hV ∧ P'.slot = P.slot ∧
    (P'.closed = P.closed ∨ P'.closed = some h)

/-- A candidate that is not complete was there before the step, in a window that ends at `low` or
later, or it is committed to an open problem in this step, if `new`. -/
def Waits (c : Config) (h low : ℕ) (new : Prop) (s d : State) (key : Key) (x : Candidate) : Prop :=
  ∀ l', x = .live l' → l'.status.young →
    (new ∧ l'.hC = h ∧ ∃ P', d.problems[key.1]? = some P' ∧ P'.closed = none) ∨
    ∃ l, s.candidates[key]? = some (.live l) ∧ l.status.young ∧ l.hC = l'.hC ∧
      (l'.status = .committed → l.status = .committed) ∧ low ≤ l'.hC + c.w

/-- **What is left of the state before the step.** -/
structure Stage (c : Config) (h low : ℕ) (new : Prop) (s d : State) : Prop where
  keys : ∀ p ∈ s.problems, p ∈ d.problems
  problems : ∀ (p : Hash) (P' : Problem), d.problems[p]? = some P' → Since h s p P'
  candidates : ∀ (key : Key) (x : Candidate), d.candidates[key]? = some x → Waits c h low new s d key x

section Stage

variable {cr : Crypto} {c : Config} {h low : ℕ} {new : Prop} {mix : Hash} {s : State} {d d' : Draft}

theorem le_plus {a b n : ℕ} (hn : n < 2 ^ 64) (h : n ≤ plus a b) : n ≤ a + b := by
  unfold plus checkedAdd at h
  split at h
  · exact h
  · omega

theorem Since.closed {p : Hash} {P' : Problem} (hp : Since h s p P') :
    Since h s p { P' with closed := some h } := by
  rcases hp with ⟨hV, -⟩ | ⟨P, hP, hV, hslot, -⟩
  · exact .inl ⟨hV, .inr rfl⟩
  · exact .inr ⟨P, hP, hV, hslot, .inr rfl⟩

theorem mem_closeProblem {problems : ExtTreeMap Hash Problem} {id : Option Hash} {p : Hash} :
    p ∈ closeProblem problems id h ↔ p ∈ problems := by
  rw [ExtTreeMap.mem_iff_isSome_getElem?, getElem?_closeProblem, ExtTreeMap.mem_iff_isSome_getElem?]
  split
  · rw [Option.isSome_map]
  · exact Iff.rfl

/-- The problems changed, and no candidate is new. -/
theorem Stage.of_problems (hs : Stage c h low False s d.toState)
    (hkeys : ∀ p ∈ d.problems, p ∈ d'.problems)
    (hproblems : ∀ (p : Hash) (P' : Problem), d'.problems[p]? = some P' → Since h s p P')
    (hcands : d'.candidates = d.candidates) : Stage c h low False s d'.toState where
  keys p hp := hkeys p (hs.keys p hp)
  problems := hproblems
  candidates key x hx l' hl' hyoung := by
    rw [hcands] at hx
    exact .inr ((hs.candidates key x hx l' hl' hyoung).resolve_left fun h => h.1)

theorem Draft.SlotStep.stage {slot : ℕ} (hd : SlotStep cr c h mix slot d d')
    (hs : Stage c h low False s d.toState) : Stage c h low False s d'.toState := by
  cases hd with
  | same => exact hs
  | ended =>
    exact hs.of_problems (fun _ hp => mem_closeProblem.mpr hp)
      (forall_closeProblem hs.problems fun _ _ hP => hP.closed) rfl
  | reposed =>
    exact hs.of_problems (fun _ hp => ExtTreeMap.mem_insert.mpr (.inr hp))
      (forall_insert hs.problems (.inl ⟨rfl, .inl rfl⟩)) rfl
  | dropped | waits | drawn => exact hs.of_problems (fun _ hp => hp) hs.problems rfl

theorem Draft.slotEvents_stage (hd : slotEvents cr c d h mix = .ok d')
    (hs : Stage c h low False s d.toState) : Stage c h low False s d'.toState := by
  unfold slotEvents at hd
  split at hd
  · exact Except.ok.inj hd ▸ hs
  · refine foldlM_invariant (fun d₁ : Draft => Stage c h low False s d₁.toState)
      (fun d₁ slot d₂ _ hs h₂ => ?_) hs hd
    obtain ⟨d₃, hfirst, hsecond⟩ := slotEvent_eq_ok h₂
    exact hsecond.stage (hfirst.stage hs)

/-- At the start of a step nothing has changed but the ties. -/
theorem stage_ties (cr : Crypto) (c : Config) (h : ℕ) (mix : Hash) (s : State) :
    Stage c h 0 False s (ties cr { s with events := [] } h mix).toState := by
  refine ⟨fun _ hp => hp, fun p P hP => .inr ⟨P, hP, rfl, rfl, .inl rfl⟩, fun key x hx l' hl' hyoung => ?_⟩
  subst hl'
  simp only [ties, ExtTreeMap.getElem?_map, Option.map_eq_some_iff] at hx
  obtain ⟨x₀, hx₀, htie⟩ := hx
  cases x₀ with
  | tombstone => cases htie
  | live l =>
    rw [tie] at htie
    split at htie <;>
    · obtain rfl := Candidate.live.inj htie
      exact .inr ⟨l, hx₀, hyoung, rfl, id, Nat.zero_le _⟩

/-- What is left after the expiry is within its window. -/
theorem Stage.expire (hs : Stage c h low False s d.toState) (hh : h < 2 ^ 64) :
    Stage c h h False s (d.expire c h).toState := by
  obtain ⟨cands, evs, hover, hkept, -, heq⟩ := expire_eq c h d
  rw [heq]
  refine ⟨hs.keys, hs.problems, fun key x hx l' hl' hyoung => ?_⟩
  by_cases hkey : Overdue c h d.toState key
  · obtain rfl := Option.some.inj ((hover key hkey).symm.trans hx)
    exact nomatch hl'
  · have hx' := (hkept key hkey).symm.trans hx
    obtain ⟨l, hl, hl₁, hhC, hcommitted, -⟩ :=
      (hs.candidates key x hx' l' hl' hyoung).resolve_left fun h => h.1
    refine .inr ⟨l, hl, hl₁, hhC, hcommitted, ?_⟩
    by_contra hlt
    refine hkey ⟨l', hl' ▸ hx', hyoung, ?_⟩
    have hfit : l'.hC + c.w < 2 ^ 64 := by omega
    rw [plus, checkedAdd_eq_some.mpr ⟨hfit, rfl⟩]
    exact Nat.lt_of_not_le hlt

theorem Stage.purge (hs : Stage c h low False s d.toState) :
    Stage c h low False s (d.purge c h).toState := by
  obtain ⟨G, hf, -⟩ := purge_forgets c h d
  have hproblems : (d.purge c h).problems = d.problems := by rw [hf.frame]
  refine ⟨hproblems ▸ hs.keys, hproblems ▸ hs.problems, fun key x hx l' hl' hyoung => ?_⟩
  by_cases hkey : G key
  · exact nomatch (hf.gone key hkey).1.symm.trans hx
  · rw [hf.kept key hkey] at hx
    exact .inr ((hs.candidates key x hx l' hl' hyoung).resolve_left fun h => h.1)

/-- A candidate is written again, in its window. -/
theorem Waits.same {d₁ : State} {key : Key} {l l₁ : LiveCandidate}
    (hw : Waits c h low new s d₁ key (.live l)) (hyoung : l.status.young) (hhC : l₁.hC = l.hC)
    (hstatus : l₁.status = .committed → l.status = .committed) : Waits c h low new s d₁ key (.live l₁) := by
  intro l' hl' _
  obtain rfl := Candidate.live.inj hl'
  rcases hw l rfl hyoung with ⟨hnew, hC, hP⟩ | ⟨l₀, hl₀, hyoung₀, hC, hcommitted, hlow⟩
  · exact .inl ⟨hnew, hhC.trans hC, hP⟩
  · exact .inr ⟨l₀, hl₀, hyoung₀, hC.trans hhC.symm, fun h => hcommitted (hstatus h), hhC ▸ hlow⟩

theorem Draft.ItemStep.stage {d₁ d₂ : State} {x : Input} {accepted : ℕ} {code : UInt8}
    (hi : ItemStep cr c h d₁ x accepted d₂ code) (hs : Stage c h low True s d₁) :
    Stage c h low True s d₂ := by
  cases hi with
  | refused => exact hs
  | commit _ _ hP _ hopen =>
    refine ⟨hs.keys, hs.problems, forall_insert hs.candidates fun l' hl' _ => ?_⟩
    obtain rfl := Candidate.live.inj hl'
    exact .inl ⟨trivial, rfl, _, hP, hopen⟩
  | opened _ _ _ hl hstatus =>
    exact ⟨hs.keys, hs.problems, forall_insert hs.candidates
      ((hs.candidates _ _ hl).same (.inl hstatus) rfl nofun)⟩
  | part hpart =>
    exact ⟨hs.keys, hs.problems, forall_insert hs.candidates
      ((hs.candidates _ _ hpart.candidate).same hpart.status rfl fun h => h)⟩
  | last hpart =>
    refine ⟨hs.keys, hs.problems, forall_insert hs.candidates fun l' hl' hyoung => ?_⟩
    obtain rfl := Candidate.live.inj hl'
    rcases hyoung with hyoung | hyoung <;> exact nomatch hyoung
  | cancelled => exact ⟨hs.keys, hs.problems, forall_insert hs.candidates nofun⟩
  | pool => exact ⟨hs.keys, hs.problems, hs.candidates⟩
  | @problem b hkind hbody r hr hindex hdrawn hreq pool hpool hdepth hverify id hid =>
    refine ⟨fun p hp => ExtTreeMap.mem_insert.mpr (.inr (hs.keys p hp)),
      forall_insert hs.problems (.inl ⟨rfl, .inl rfl⟩), fun key x hx l' hl' hyoung => ?_⟩
    refine (hs.candidates key x hx l' hl' hyoung).imp_left fun ⟨hnew, hC, P', hP', hopen⟩ => ⟨hnew, hC, ?_⟩
    -- the problem is still open, or it is the new one
    simp only [getElem?_insert]
    split
    · exact ⟨_, rfl, rfl⟩
    · exact ⟨P', hP', hopen⟩

/-- The items of a step without the M3 profile, with their codes. -/
theorem Draft.foldItem_plain {acc acc' : Inbox} {x : Input} (hm : c.m3 = none)
    (ha : foldItem cr c h acc x = .ok acc') : ∃ d₂ code,
      ItemStep cr c h acc.draft.toState x acc.accepted d₂ code ∧
      acc'.draft.toState = d₂ ∧ acc'.codes = acc.codes ++ [code] := by
  simp only [foldItem, bind_eq_ok, pure_eq_ok] at ha
  obtain ⟨⟨d₂, code⟩, hitem, draft, hdraft, rfl⟩ := ha
  refine ⟨d₂, code, item_eq_ok hitem, ?_, rfl⟩
  rw [completePart, if_neg (by simp [hm])] at hdraft
  obtain rfl := Except.ok.inj hdraft
  split <;> rfl

theorem Draft.foldItems_stage {items : List Input} {acc inbox : Inbox} (hm : c.m3 = none)
    (ha : items.foldlM (foldItem cr c h) acc = .ok inbox)
    (hs : Stage c h low True s acc.draft.toState) : Stage c h low True s inbox.draft.toState ∧
      ∃ codes, inbox.codes = acc.codes ++ codes ∧ ∀ y ∈ items.zip codes, ∃ d₁ accepted d₂,
        Stage c h low True s d₁ ∧ ItemStep cr c h d₁ y.1 accepted d₂ y.2 := by
  induction items generalizing acc with
  | nil =>
    obtain rfl := Except.ok.inj ha
    exact ⟨hs, [], by simp, by simp⟩
  | cons x items ih =>
    rw [List.foldlM_cons, bind_eq_ok] at ha
    obtain ⟨acc₁, h₁, ha⟩ := ha
    obtain ⟨d₂, code, hi, heq, hcodes⟩ := foldItem_plain hm h₁
    obtain ⟨hstage, codes, hall, hitems⟩ := ih ha (heq ▸ hi.stage hs)
    refine ⟨hstage, code :: codes, by rw [hall, hcodes]; simp, fun y hy => ?_⟩
    rcases List.mem_cons.mp hy with rfl | hy
    · exact ⟨_, _, d₂, hs, hi⟩
    · exact hitems y hy

end Stage

/-! ## Windows -/

/-- **Every candidate that is not complete is within its window, and was committed before its problem
was closed.** -/
def Windowed (c : Config) (s : State) : Prop :=
  ∀ (key : Key) (l : LiveCandidate), s.candidates[key]? = some (.live l) → l.status.young →
    l.hC ≤ s.height ∧ s.height ≤ l.hC + c.w ∧
    ∃ P, s.problems[key.1]? = some P ∧ ∀ x, P.closed = some x → l.hC < x

section Windows

variable {cr : Crypto} {c : Config} {s : State} {i : StepInput} {st : Step} {slotted : Draft}
  {inbox : Draft.Inbox}

/-- The items of a step, and what they left. -/
theorem Plain.stage (hf : Plain cr c s i st slotted inbox) :
    Stage c i.l1.number i.l1.number True s inbox.draft.toState ∧
      ∀ y ∈ (i.items.insertionSort itemLe).zip st.codes, ∃ d₁ accepted d₂,
        Stage c i.l1.number i.l1.number True s d₁ ∧
        ItemStep cr c i.l1.number d₁ y.1 accepted d₂ y.2 := by
  have hstart := ((slotEvents_stage hf.slots (stage_ties cr c i.l1.number i.l1.mix s)).expire
    hf.inRange).purge
  have hallow : Stage c i.l1.number i.l1.number True s
      ((slotted.expire c i.l1.number).purge c i.l1.number).toState :=
    ⟨hstart.keys, hstart.problems, fun key x hx l' hl' hyoung =>
      .inr ((hstart.candidates key x hx l' hl' hyoung).resolve_left fun h => h.1)⟩
  obtain ⟨hstage, codes, hcodes, hitems⟩ := foldItems_stage hf.profile hf.items hallow
  rw [hf.codes, hcodes]
  exact ⟨hstage, hitems⟩

theorem Plain.windowed (hf : Plain cr c s i st slotted inbox) (hw : Windowed c s) :
    Windowed c st.state := by
  obtain ⟨hstage, -⟩ := hf.stage
  rw [hf.state]
  intro key l hl hyoung
  have hheight := hf.height
  rcases hstage.candidates key _ hl l rfl hyoung with ⟨-, hC, P, hP, hopen⟩ | ⟨l₀, hl₀, hyoung₀, hC, -, hlow⟩
  · refine ⟨hC.le, hC ▸ Nat.le_add_right _ _, P, hP, fun x hx => ?_⟩
    rw [hopen] at hx
    exact nomatch hx
  · obtain ⟨hle, -, P₀, hP₀, hclosed⟩ := hw key l₀ hl₀ hyoung₀
    have hmem := hstage.keys key.1 (mem_iff_exists.mpr ⟨_, hP₀⟩)
    obtain ⟨P, hP⟩ := mem_iff_exists.mp hmem
    have hlt : l.hC < i.l1.number := by omega
    refine ⟨hlt.le, hlow, P, hP, fun x hx => ?_⟩
    -- the problem was closed before, or is closed in this step
    rcases hstage.problems key.1 P hP with ⟨-, hnone | hnow⟩ | ⟨P₁, hP₁, -, -, hsame | hnow⟩
    · exact nomatch hnone.symm.trans hx
    · obtain rfl := Option.mem_unique hnow hx
      exact hlt
    · obtain rfl := Option.mem_unique hP₀ hP₁
      rw [← hC]
      exact hclosed x (hsame ▸ hx)
    · obtain rfl := Option.mem_unique hnow hx
      exact hlt

/-- **When a COMMIT and an OPEN are accepted.** -/
theorem Plain.accepted (hf : Plain cr c s i st slotted inbox) (hw : Windowed c s) (hd : 2 ≤ c.d)
    (hheight : i.l1.number + c.d < 2 ^ 64) {x : Input} {code : UInt8}
    (hx : (x, code) ∈ (i.items.insertionSort itemLe).zip st.codes) :
    (code = 0x80 → ∃ b P params, decodeBody 1 commitBody x.body = some b ∧
      s.problems[b.p]? = some P ∧ c.slotTable[P.slot]? = some params ∧ P.closed = none ∧
      P.hV < i.l1.number ∧ i.l1.number ≤ P.hV + params.solveDeadline) ∧
    (code = 0x81 → ∃ o l, parseOpen cr c x.body = .ok o ∧
      s.candidates[(o.problem, commitHash cr c.chainId o.problem o.cancel o.record.bodyDigest)]? =
        some (.live l) ∧ l.status = .committed ∧ l.hC + c.d ≤ i.l1.number ∧
      i.l1.number ≤ l.hC + c.w) := by
  obtain ⟨d₁, accepted, d₂, hstage, hi⟩ := hf.stage.2 _ hx
  have hrange := hf.inRange
  refine ⟨fun hcode => ?_, fun hcode => ?_⟩
  · dsimp only at hi
    subst hcode
    cases hi with
    | refused hcode => exact absurd hcode (by decide)
    | @commit b _ hbody P hP hlate hopen params hparams hwindow =>
      rcases hstage.problems b.p P hP with ⟨hV, -⟩ | ⟨P₀, hP₀, hV, hslot, hclosed⟩
      · omega
      · have hopen₀ : P₀.closed = none := by
          rcases hclosed with hsame | hnow
          · exact hsame.symm.trans hopen
          · exact nomatch hnow.symm.trans hopen
        exact ⟨b, P₀, params, hbody, hP₀, hslot ▸ hparams, hopen₀, hV ▸ hlate,
          hV ▸ le_plus hrange hwindow⟩
  · dsimp only at hi
    subst hcode
    cases hi with
    | refused hcode => exact absurd hcode (by decide)
    | @opened o _ hparse key hkey l hl hstatus _ _ _ _ _ _ hfrom huntil =>
      subst hkey
      have hplus (hfit : l.hC ≤ i.l1.number) : l.hC + c.d ≤ i.l1.number := by
        rw [plus, checkedAdd_eq_some.mpr ⟨by omega, rfl⟩] at hfrom
        exact hfrom
      rcases hstage.candidates _ _ hl l rfl (.inl hstatus) with
        ⟨-, hC, -⟩ | ⟨l₀, hl₀, hyoung, hC, hcommitted, -⟩
      · -- a candidate committed in this step cannot be opened yet
        have := hplus hC.le
        omega
      · have hle := (hw _ l₀ hl₀ hyoung).1
        have hfrom := hplus (by rw [← hf.height]; omega)
        exact ⟨o, l₀, hparse, hl₀, hcommitted hstatus, hC ▸ hfrom, hC ▸ le_plus hrange huntil⟩

end Windows

/-! ## No resurrection -/

/-- The candidate has been dropped: its tombstone is there, or its problem has been closed. -/
def Dead (s : State) (key : Key) : Prop :=
  s.statusOf key = some .cancelled ∨ s.statusOf key = some .expired ∨
  s.statusOf key = none ∧ ∃ P, s.problems[key.1]? = some P ∧ P.closed ≠ none

section Dead

variable {cr : Crypto} {c : Config} {h : ℕ} {mix : Hash} {d d' : Draft} {key : Key}

theorem Dead.of_same {s s' : State} (hd : Dead s key) (hstatus : s'.statusOf key = s.statusOf key)
    (hpers : Persists s.problems s'.problems) : Dead s' key := by
  rcases hd with hd | hd | ⟨hd, P, hP, hclosed⟩
  · exact .inl (hstatus.trans hd)
  · exact .inr (.inl (hstatus.trans hd))
  · obtain ⟨P', hP', hkeeps⟩ := hpers key.1 P hP
    exact .inr (.inr ⟨hstatus.trans hd, P', hP', hkeeps.closed hclosed⟩)

/-- An item moves no candidate that has been dropped. -/
theorem Draft.ItemStep.dead {s s' : State} {x : Input} {accepted : ℕ} {code : UInt8}
    (hi : ItemStep cr c h s x accepted s' code) (hd : Dead s key) :
    s'.statusOf key = s.statusOf key := by
  have hlive {k : Key} {l : LiveCandidate} (hl : s.candidates[k]? = some (.live l))
      (hyoung : l.status.young) (y : Candidate) (hy : s'.candidates = s.candidates.insert k y) :
      s'.statusOf key = s.statusOf key := by
    rw [statusOf_insert hy, if_neg]
    · rfl
    · rintro rfl
      have hstatus := statusOf_of_getElem? hl
      rcases hd with hd | hd | ⟨hd, -⟩ <;> rcases hyoung with hyoung | hyoung <;>
        simp [hd, Candidate.status, hyoung] at hstatus
  cases hi with
  | refused | pool | problem => rfl
  | @commit b _ _ P hP _ hopen _ _ _ hnew =>
    rw [statusOf_insert rfl, if_neg]
    · rfl
    · rintro rfl
      have hnone : s.statusOf (b.p, b.ch) = none := by
        rw [statusOf, ExtTreeMap.getElem?_eq_none hnew]
        rfl
      rcases hd with hd | hd | ⟨-, Q, hQ, hclosed⟩
      · cases hd.symm.trans hnone
      · cases hd.symm.trans hnone
      · obtain rfl := Option.mem_unique hP hQ
        exact hclosed hopen
  | opened _ _ _ hl hstatus => exact hlive hl (.inl hstatus) _ rfl
  | part hpart => exact hlive hpart.candidate hpart.status _ rfl
  | last hpart => exact hlive hpart.candidate hpart.status _ rfl
  | cancelled _ _ _ hv hstatus =>
    rw [statusOf_insert rfl, if_neg]
    · rfl
    · rintro rfl
      rcases hd with hd | hd | ⟨hd, -⟩ <;> rcases hstatus with rfl | rfl <;> cases hd.symm.trans hv

/-- **A candidate that has been dropped stays dropped.** -/
theorem Dead.expire (hd : Dead d.toState key) : Dead (d.expire c h).toState key := by
  obtain ⟨cands, evs, -, hkept, -, heq⟩ := expire_eq c h d
  rw [heq]
  refine hd.of_same ?_ (persists_refl _)
  rw [statusOf, statusOf, hkept key]
  rintro ⟨l, hl, hyoung, -⟩
  have hstatus := statusOf_of_getElem? hl
  rcases hd with hd | hd | ⟨hd, -⟩ <;> rcases hyoung with hyoung | hyoung <;>
    simp [hd, Candidate.status, hyoung] at hstatus

theorem Dead.purge (hd : Dead d.toState key)
    (hids : ∀ (p : Hash) (P : Problem), d.problems[p]? = some P → P.id = p) :
    Dead (d.purge c h).toState key := by
  obtain ⟨G, hf, hclosed⟩ := purge_forgets c h d
  have hproblems : (d.purge c h).problems = d.problems := by rw [hf.frame]
  by_cases hkey : G key
  · -- the tombstone is forgotten, because the problem has been closed
    obtain ⟨id, P, hP, hid, hpurges⟩ := hclosed key hkey
    obtain rfl := (hids id P hP).symm.trans hid
    refine .inr (.inr ⟨?_, P, hproblems ▸ hP, fun hnone => ?_⟩)
    · rw [statusOf, (hf.gone key hkey).1]
      rfl
    · rw [Purges, hnone] at hpurges
      cases hpurges
  · refine hd.of_same ?_ (hproblems ▸ persists_refl _)
    rw [statusOf, statusOf, hf.kept key hkey]

end Dead

/-! ## Runs -/

section Runs

variable {cr : Crypto} {c : Config} {gas : ℕ} {s s' : State} {i : StepInput} {st : Step}
  {slotted : Draft} {inbox : Draft.Inbox} {run run' : List (StepInput × Step)} {D : Key → Prop}

/-- What a run without the M3 profile keeps: its identities are new, and dropped candidates stay
dropped. -/
structure Buried (cr : Crypto) (c : Config) (D : Key → Prop) (s : State) : Prop where
  grounded : ∃ ds, Grounded cr c ds s.board
  fresh : Set.InjOn cr.sha256 (s.board.hashed c) → Fresh cr c s.board ∧ ∀ key, D key → Dead s key

/-- A part of a step that follows the board. -/
theorem Buried.move {h : ℕ} {ds' : List (ℕ × ℕ)} (hb : Buried cr c D s)
    (hrun : BoardRun cr c h (Unposed cr c) s.board ds' s'.board)
    (hdead : ∀ key, Dead s key → Persists s.problems s'.problems →
      (∀ (p : Hash) (P : Problem), s.problems[p]? = some P → P.id = p) → Dead s' key) :
    Buried cr c D s' := by
  obtain ⟨ds, hg⟩ := hb.grounded
  refine ⟨⟨_, hrun.grounded hg⟩, fun hinj => ?_⟩
  obtain ⟨hfresh, hD⟩ := hb.fresh (hinj.mono (hrun.keeps hg).hashed)
  obtain ⟨hfresh', hpers⟩ := hrun.fresh hg hfresh hinj
  exact ⟨hfresh', fun key hkey => hdead key (hD key hkey) hpers fun p P hP =>
    (hg.lineage.problems p P hP).1⟩

theorem Buried.still (hb : Buried cr c D s) (hboard : s'.board = s.board)
    (hdead : ∀ key, Dead s key →
      (∀ (p : Hash) (P : Problem), s.problems[p]? = some P → P.id = p) → Dead s' key) :
    Buried cr c D s' := by
  have hrun : BoardRun cr c 0 (Unposed cr c) s.board [] s'.board := hboard ▸ .refl
  exact hb.move hrun fun key hd _ hids => hdead key hd hids

theorem Draft.slotEvents_candidates {h : ℕ} {mix : Hash} {d d' : Draft}
    (hd : slotEvents cr c d h mix = .ok d') : d'.candidates = d.candidates := by
  unfold slotEvents at hd
  split at hd
  · exact congrArg (·.candidates) (Except.ok.inj hd).symm
  · refine foldlM_invariant (fun d₁ : Draft => d₁.candidates = d.candidates)
      (fun d₁ slot d₂ _ hsame h₂ => ?_) rfl hd
    have hone {d₁ d₂ : Draft} (hs : SlotStep cr c h mix slot d₁ d₂) :
        d₂.candidates = d₁.candidates := by cases hs <;> rfl
    obtain ⟨d₃, hfirst, hsecond⟩ := slotEvent_eq_ok h₂
    exact (hone hsecond).trans ((hone hfirst).trans hsame)

theorem Plain.buried (hf : Plain cr c s i st slotted inbox) (hb : Buried cr c D s) :
    Buried cr c D st.state := by
  obtain ⟨evs, -, hslots⟩ := slotEvents_board (G := Unposed cr c) hf.slots
  have hslotted : Buried cr c D slotted.toState := by
    refine hb.move hslots fun key hd hpers _ => hd.of_same ?_ hpers
    rw [statusOf_of_eq (slotEvents_candidates hf.slots), ties_statusOf]
  have hexpired : Buried cr c D (slotted.expire c i.l1.number).toState :=
    hslotted.still (expire_board c slotted i.l1.number) fun key hd _ => hd.expire
  have hpurged : Buried cr c D ((slotted.expire c i.l1.number).purge c i.l1.number).toState :=
    hexpired.still (purge_board c _ i.l1.number) fun key hd hids => hd.purge hids
  have hitems : Buried cr c D inbox.draft.toState := by
    refine foldlM_invariant (fun acc : Inbox => Buried cr c D acc.draft.toState)
      (fun acc x acc' _ hb hx => ?_) hpurged hf.items
    obtain ⟨d₂, code, hi, heq, -⟩ := foldItem_plain hf.profile hx
    rw [heq]
    exact hb.move hi.board fun key hd hpers _ => hd.of_same (hi.dead hd) hpers
  rw [hf.state]
  exact ⟨hitems.grounded, hitems.fresh⟩

/-- Without the M3 profile a run is made of plain steps. -/
theorem Onward.plain_induction {I : State → Prop} (hon : Onward cr c s run s') (hm : c.m3 = none)
    (hstep : ∀ {s i st slotted inbox}, Plain cr c s i st slotted inbox → I s → I st.state)
    (hs : I s) : I s' := by
  induction hon with
  | refl => exact hs
  | fold _ hst _ =>
    obtain ⟨g, hf⟩ := fold_eq_ok hst
    exact absurd hf.profile (by rw [hm]; exact Bool.false_ne_true)
  | step _ hst ih =>
    obtain ⟨slotted, inbox, hf⟩ := step_eq_ok hst
    exact hstep hf ih

theorem Ran.buried (hr : Ran cr c gas run s) (hm : c.m3 = none) :
    Buried cr c (fun _ => False) s := by
  obtain ⟨s₀, hs₀, hon⟩ := hr
  refine hon.plain_induction hm (fun hf hb => hf.buried hb)
    ⟨⟨_, new_grounded hs₀⟩, fun hinj => ⟨((new_issued hs₀).fresh hinj).1, nofun⟩⟩

theorem Ran.windowed (hr : Ran cr c gas run s) (hm : c.m3 = none) : Windowed c s := by
  obtain ⟨s₀, hs₀, hon⟩ := hr
  refine hon.plain_induction hm (fun hf hw => hf.windowed hw) ?_
  rw [new_eq_ok hs₀]
  intro key l hl
  simp at hl

theorem Ran.tombs (hr : Ran cr c gas run s) (hm : c.m3 = none) : Tombs s := by
  obtain ⟨s₀, hs₀, hon⟩ := hr
  refine hon.plain_induction hm (fun hf ht => ?_) (new_tombs hs₀)
  have hmoves : Tombs _ := steps_invariant (fun d : Draft => Tombs d.toState)
    (fun _ _ ht hb => (tombs_kept cr c Free).block (n := 0) hb trivial ht) hf.moves (ties_tombs ht)
  rw [hf.state]
  exact hmoves

/-- **Commit windows, and no resurrection,** without the M3 profile: candidates that are not complete
are within their window; none is left when the tombstones of its problem are forgotten; a COMMIT is
accepted only while its problem is open and an OPEN only in its window; and a candidate that has
expired or was cancelled is never committed, open or checking again. -/
theorem Ran.commit_windows (hr : Ran cr c gas run s) (hm : c.m3 = none) :
    (∀ (key : Key) (l : LiveCandidate), s.candidates[key]? = some (.live l) →
      l.status = .committed ∨ l.status = .opened → s.height ≤ l.hC + c.w) ∧
    (∀ (key : Key) (P : Problem) (x : ℕ), s.problems[key.1]? = some P → P.closed = some x →
      x + c.w ≤ s.height → s.statusOf key ≠ some .committed ∧ s.statusOf key ≠ some .opened) ∧
    (∀ (i : StepInput) (st : Step), s.step cr c i.l1 i.items = .ok st → i.l1.number + c.d < 2 ^ 64 →
      ∀ x code, (x, code) ∈ (i.items.insertionSort Draft.itemLe).zip st.codes →
      (code = 0x80 → ∃ b P params, decodeBody 1 commitBody x.body = some b ∧
        s.problems[b.p]? = some P ∧ c.slotTable[P.slot]? = some params ∧ P.closed = none ∧
        P.hV < i.l1.number ∧ i.l1.number ≤ P.hV + params.solveDeadline) ∧
      (code = 0x81 → ∃ o l, parseOpen cr c x.body = .ok o ∧
        s.candidates[(o.problem, commitHash cr c.chainId o.problem o.cancel o.record.bodyDigest)]? =
          some (.live l) ∧ l.status = .committed ∧ l.hC + c.d ≤ i.l1.number ∧
        i.l1.number ≤ l.hC + c.w)) ∧
    ∀ (run' : List (StepInput × Step)) (s' : State), Onward cr c s run' s' →
      Set.InjOn cr.sha256 (s'.board.hashed c) →
      (∀ key, s.statusOf key = some .cancelled ∨ s.statusOf key = some .expired →
        s'.statusOf key ≠ some .committed ∧ s'.statusOf key ≠ some .opened ∧
        s'.statusOf key ≠ some .checking) ∧
      ∀ (key : Key) (P : Problem), s.problems[key.1]? = some P → P.closed ≠ none →
        s.statusOf key = none → s'.statusOf key ≠ some .committed := by
  have hw := hr.windowed hm
  have hvalid := hr.grounded.valid
  refine ⟨fun key l hl hyoung => (hw key l hl hyoung).2.1, fun key P x hP hx hle => ?_,
    fun i st hst hheight x code hx => ?_, fun run' s' hon hinj => ?_⟩
  · have hnone (v : Status) (hv : v.young) : s.statusOf key ≠ some v := by
      intro hstatus
      obtain ⟨y, hy, hyv⟩ := Option.map_eq_some_iff.mp hstatus
      cases y with
      | tombstone w =>
        obtain rfl : w = v := hyv
        rcases hr.tombs hm key w hy with rfl | rfl <;> rcases hv with hv | hv <;> exact nomatch hv
      | live l =>
        obtain rfl : l.status = v := hyv
        obtain ⟨-, hlow, Q, hQ, hlt⟩ := hw key l hy hv
        obtain rfl := Option.mem_unique hP hQ
        have := hlt x hx
        omega
    exact ⟨hnone _ (.inl rfl), hnone _ (.inr rfl)⟩
  · obtain ⟨slotted, inbox, hf⟩ := State.step_eq_ok hst
    exact hf.accepted hw hvalid.delay hheight hx
  · have hb : Buried cr c (Dead s) s :=
      ⟨(hr.buried hm).grounded, fun hinj => ⟨((hr.buried hm).fresh hinj).1, fun _ h => h⟩⟩
    have hb' : Buried cr c (Dead s) s' := hon.plain_induction hm (fun hf hb => hf.buried hb) hb
    have hlost (key : Key) (hd : Dead s key) (v : Status) (hv : v ≠ .cancelled ∧ v ≠ .expired) :
        s'.statusOf key ≠ some v := by
      rcases (hb'.fresh hinj).2 key hd with h | h | ⟨h, -⟩ <;> rw [h]
      · exact fun heq => hv.1 (Option.some.inj heq).symm
      · exact fun heq => hv.2 (Option.some.inj heq).symm
      · exact nofun
    refine ⟨fun key hkey => ?_, fun key P hP hclosed hnone => ?_⟩
    · have hd : Dead s key := hkey.imp_right .inl
      exact ⟨hlost key hd _ (by decide), hlost key hd _ (by decide), hlost key hd _ (by decide)⟩
    · exact hlost key (.inr (.inr ⟨hnone, P, hP, hclosed⟩)) _ (by decide)

end Runs

/-- Fold blocks one after the other, without the M3 profile. -/
def walk (cr : Crypto) (c : Config) (s : State) (inputs : List StepInput) :
    Except FoldError (List (StepInput × Step) × State) :=
  inputs.foldlM (fun x i => do
    let st ← x.2.step cr c i.l1 i.items
    pure (x.1 ++ [(i, st)], st.state)) ([], s)

theorem onward_of_walk {cr : Crypto} {c : Config} {s : State} {inputs : List StepInput}
    {x : List (StepInput × Step) × State} (hx : walk cr c s inputs = .ok x) :
    Onward cr c s x.1 x.2 := by
  refine foldlM_invariant (fun y : List (StepInput × Step) × State => Onward cr c s y.1 y.2)
    (fun y i y' _ hy hy' => ?_) .refl hx
  simp only [bind_eq_ok, pure_eq_ok] at hy'
  obtain ⟨st, hst, rfl⟩ := hy'
  exact hy.step hst

namespace Example

/-- The toy chain without the M3 profile. -/
def plainConfig : Config := { exampleConfig with m3 := none }

/-- A solution is committed at height 4 and never opened. -/
def forsaken : List StepInput :=
  [⟨block 1, [pool], [], genesis⟩, ⟨block 2, [], [], genesis⟩, ⟨block 3, [problem], [], genesis⟩,
    ⟨block 4, [commit 0 0 1], [], genesis⟩, ⟨block 5, [], [], genesis⟩, ⟨block 6, [], [], genesis⟩,
    ⟨block 7, [], [], genesis⟩, ⟨block 8, [], [], genesis⟩]

/-- The problem is closed, the tombstone is forgotten, and the same COMMIT comes again. -/
def insistent : List StepInput :=
  (List.range 10).map (fun n => ⟨block (n + 9), [], [], genesis⟩) ++
    [⟨block 19, [commit 0 0 1], [], genesis⟩]

end Example

/-- A candidate that expired is not committed again when its tombstone has been forgotten. -/
theorem Ran.commit_windows_forsaken : ∃ run s run' s' key,
    Ran toyCrypto Example.plainConfig exampleGas run s ∧
    Onward toyCrypto Example.plainConfig s run' s' ∧
    Set.InjOn toyCrypto.sha256 (s'.board.hashed Example.plainConfig) ∧
    s.statusOf key = some .expired ∧ s'.statusOf key = none ∧ s'.statusOf key ≠ some .committed := by
  have heval : (do
      let s₀ ← State.new toyCrypto Example.plainConfig exampleGas
      let x ← walk toyCrypto Example.plainConfig s₀ Example.forsaken
      let y ← walk toyCrypto Example.plainConfig x.2 Example.insistent
      pure (x.2.statusOf (0, Example.hash 0 1), y.2.statusOf (0, Example.hash 0 1),
        y.2.rounds.toList.map (·.2.origin)) : Except FoldError _) =
      .ok (some .expired, none, [(1, 0, 0)]) := by decide +kernel
  simp only [bind_eq_ok, pure_eq_ok] at heval
  obtain ⟨s₀, hs₀, x, hx, y, hy, hv⟩ := heval
  obtain ⟨hexpired, hnone, horigins⟩ := Prod.mk.inj hv |>.imp_right Prod.mk.inj
  have hr : Ran toyCrypto Example.plainConfig exampleGas x.1 x.2 := ⟨s₀, hs₀, onward_of_walk hx⟩
  have hinj := toy_injOn (c := Example.plainConfig) (s := y.2) (o := (1, 0, 0)) (by rw [horigins]; simp)
  have hon := onward_of_walk hy
  obtain ⟨hdropped, -⟩ := (hr.commit_windows rfl).2.2.2 y.1 y.2 hon hinj
  exact ⟨x.1, x.2, y.1, y.2, _, hr, hon, hinj, hexpired, hnone, (hdropped _ (.inr hexpired)).1⟩

end Derivation
