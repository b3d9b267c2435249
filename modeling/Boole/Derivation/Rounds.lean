import Boole.Derivation.Lineage

/-!
# Derivation/Rounds — turns of the slots

**A round is drawn or open exactly while it is the active round of its slot** (`Turns`).  Closing a
problem looks its round up by the identity of the problem, so this rests on identities that tell the
slot: two rounds may share a problem, but not across slots.  A slot that has been scheduled stays
awake (`BoardStep.awake`).
-/

open Std Library

namespace Derivation

variable {key : ℕ × ℕ} {r : Round} {slot : ℕ} {S S' : Slot}

/-- A round that has not ended. -/
def RoundStatus.running : RoundStatus → Bool
  | .drawn | .opened => true
  | .closed | .withheld => false

theorem running_iff {v : RoundStatus} : v.running = true ↔ v = .drawn ∨ v = .opened := by
  cases v <;> simp [RoundStatus.running]

/-- The active round of a slot, with the height it is scheduled for. -/
def Slot.turn (S : Slot) : Option ((ℕ × ℕ) × Option ℕ) := S.active.map (·, S.scheduled)

def Board.turn (B : Board) (slot : ℕ) : Option ((ℕ × ℕ) × Option ℕ) := B.slots[slot]?.bind Slot.turn

/-- The round has not ended. -/
def Board.live (B : Board) (key : ℕ × ℕ) : Prop := B.rounds[key]?.map (·.status.running) = some true

/-- **Active rounds and running rounds are the same**, and a slot with an active round waits for no
height. -/
structure Turns (B : Board) : Prop where
  active : ∀ slot x, B.turn slot = some x → x.1.1 = slot ∧ x.2 = none ∧ B.live x.1
  running : ∀ key, B.live key → B.turn key.1 = some (key, none)

section Turns

variable {cr : Crypto} {c : Config} {h : ℕ} {G : Board → Hash → Prop} {ds ds' : List (ℕ × ℕ)} {B B' : Board}

theorem turn_set {slots : List Slot} {i : ℕ} {old new : Slot} (hslot : slots[i]? = some old) (j : ℕ) :
    (slots.set i new)[j]?.bind Slot.turn = if i = j then new.turn else slots[j]?.bind Slot.turn := by
  rw [List.getElem?_set]
  split
  · rw [if_pos (List.getElem?_eq_some_iff.mp hslot).1]
    rfl
  · rfl

theorem live_insert {rounds : ExtTreeMap (ℕ × ℕ) Round lexOrd.compare} (k : ℕ × ℕ) :
    (rounds.insert key r)[k]?.map (·.status.running) =
      if key = k then some r.status.running else rounds[k]?.map (·.status.running) := by
  rw [getElem?_insert]
  split <;> rfl

theorem Turns.of_same (ht : Turns B) (hturn : ∀ slot, B'.turn slot = B.turn slot)
    (hlive : ∀ key, B'.live key ↔ B.live key) : Turns B' where
  active slot x hx := by
    rw [hturn] at hx
    rw [hlive]
    exact ht.active slot x hx
  running key hkey := by
    rw [hturn]
    exact ht.running key ((hlive key).mp hkey)

/-- A slot with no active round is written again. -/
theorem Turns.idle (ht : Turns B) (hslot : B.slots[slot]? = some S) (hsame : S'.turn = S.turn)
    (hslots : B'.slots = B.slots.set slot S') (hrounds : B'.rounds = B.rounds) :
    Turns B' := by
  refine ht.of_same (fun j => ?_) fun key => by rw [Board.live, hrounds]; rfl
  rw [Board.turn, hslots, turn_set hslot]
  split_ifs with heq
  · rw [hsame, ← heq, Board.turn, hslot]
    rfl
  · rfl

/-- A round is written again and runs as before. -/
theorem live_rewritten {r' : Round} (hr : B.rounds[key]? = some r)
    (hsame : r'.status.running = r.status.running) (hrounds : B'.rounds = B.rounds.insert key r')
    (k : ℕ × ℕ) : B'.live k ↔ B.live k := by
  rw [Board.live, hrounds, live_insert]
  split_ifs with heq
  · rw [hsame, ← heq, Board.live, hr]
    rfl
  · rfl

/-- The active round of a slot ends. -/
theorem Turns.ended (ht : Turns B) (hslot : B.slots[slot]? = some S) (hactive : S.active = some key)
    (hr : r.status.running = false) (hnone : S'.active = none)
    (hslots : B'.slots = B.slots.set slot S') (hrounds : B'.rounds = B.rounds.insert key r) :
    Turns B' := by
  have hturn : B.turn slot = some (key, S.scheduled) := by
    rw [Board.turn, hslot, Option.bind_some, Slot.turn, hactive]
    rfl
  obtain ⟨hmine, -, -⟩ := ht.active slot _ hturn
  have hturns (j : ℕ) : B'.turn j = if slot = j then none else B.turn j := by
    rw [Board.turn, hslots, turn_set hslot, Slot.turn, hnone]
    rfl
  have hlives (k : ℕ × ℕ) : B'.live k ↔ key ≠ k ∧ B.live k := by
    rw [Board.live, hrounds, live_insert, hr]
    by_cases hk : key = k <;> simp [hk, Board.live]
  constructor
  · intro j x hx
    rw [hturns, Option.ite_none_left_eq_some] at hx
    obtain ⟨hj, hsched, hlive⟩ := ht.active j x hx.2
    refine ⟨hj, hsched, (hlives _).mpr ⟨?_, hlive⟩⟩
    rintro rfl
    exact hx.1 (hmine.symm.trans hj)
  · intro k hk
    obtain ⟨hne, hlive⟩ := (hlives k).mp hk
    rw [hturns, if_neg]
    · exact ht.running k hlive
    · rintro rfl
      -- the active round of the slot is the one that ends
      have heq := (ht.running k hlive).symm.trans hturn
      exact hne (Prod.mk.inj (Option.some.inj heq)).1.symm

/-- A slot that waits starts its next round. -/
theorem Turns.started (ht : Turns B) {n : ℕ} (hslot : B.slots[slot]? = some S)
    (hidle : S.active = none) (hr : r.status.running = true)
    (hturn : S'.turn = some ((slot, n), none)) (hslots : B'.slots = B.slots.set slot S')
    (hrounds : B'.rounds = B.rounds.insert (slot, n) r) : Turns B' := by
  have hnone : B.turn slot = none := by
    rw [Board.turn, hslot, Option.bind_some, Slot.turn, hidle]
    rfl
  have hturns (j : ℕ) : B'.turn j = if slot = j then some ((slot, n), none) else B.turn j := by
    rw [Board.turn, hslots, turn_set hslot, hturn]
    rfl
  have hlives (k : ℕ × ℕ) : B'.live k ↔ (slot, n) = k ∨ B.live k := by
    rw [Board.live, hrounds, live_insert, hr]
    by_cases hk : (slot, n) = k <;> simp [hk, Board.live]
  constructor
  · intro j x hx
    rw [hturns] at hx
    split at hx
    · rw [← Option.some.inj hx]
      exact ⟨‹slot = j›, rfl, (hlives _).mpr (.inl rfl)⟩
    · obtain ⟨hj, hsched, hlive⟩ := ht.active j x hx
      exact ⟨hj, hsched, (hlives _).mpr (.inr hlive)⟩
  · intro k hk
    rw [hturns]
    rcases (hlives k).mp hk with rfl | hlive
    · rw [if_pos rfl]
    · rw [if_neg]
      · exact ht.running k hlive
      · rintro rfl
        rw [ht.running k hlive] at hnone
        exact nomatch hnone

theorem scheduleSlot_turn (S : Slot) (start : ℕ) : (scheduleSlot S start).turn = S.turn := by
  unfold scheduleSlot
  split_ifs with hnone
  · rw [Slot.turn, Slot.turn, hnone.1]
    rfl
  · rfl

/-- **The round of a problem is a round of its slot.** -/
theorem Grounded.slot_eq (hg : Grounded cr c ds B) (hinj : Set.InjOn cr.sha256 (B.hashed c))
    {p : Hash} {P : Problem} (hP : B.problems[p]? = some P) (hr : B.rounds[key]? = some r)
    (hproblem : r.problem = some p) : key.1 = P.slot := by
  obtain ⟨rfl, ht⟩ := hg.lineage.problems p P hP
  have hround := hg.lineage.rounds key r hr
  obtain ⟨epoch, hepoch, hid⟩ := hround.problem P.id hproblem
  obtain ⟨horigin, -⟩ := origin_of_idOf hinj hg.stock hg.valid.leaves ⟨key, by rw [hr]; rfl⟩ ht.origin
    hepoch ht.epoch hid ht.id
  have hseq : r.poolSeq = P.poolSeq := congrArg Prod.fst horigin
  have hslot := hround.slot
  rw [hseq, ht.slot] at hslot
  exact (Option.some.inj hslot).symm

theorem BoardStep.turns (hb : BoardStep cr c h G B ds' B') (hg : Grounded cr c ds B)
    (hinj : Set.InjOn cr.sha256 (B.hashed c)) (ht : Turns B) : Turns B' := by
  cases hb with
  | dropped | won | voided | shut | requeued => exact ht.of_same (fun _ => rfl) fun _ => Iff.rfl
  | ended _ hslot hkey _ hend =>
    refine ht.ended hslot hkey ?_ rfl rfl rfl
    rcases hend with ⟨-, rfl⟩ | ⟨-, rfl⟩ <;> rfl
  | freed _ _ hr _ hslot hactive => exact ht.ended hslot hactive rfl rfl rfl rfl
  | reposed hslot hidle | drawn hslot hidle => exact ht.started hslot hidle rfl rfl rfl rfl
  | waits hslot hidle =>
    refine ht.idle hslot ?_ rfl rfl
    rw [Slot.turn, Slot.turn, hidle]
    rfl
  | pooled _ _ _ _ hslot => exact ht.idle hslot (scheduleSlot_turn _ _) rfl rfl
  | posed hr hdrawn =>
    refine ht.of_same (fun _ => rfl) (live_rewritten hr ?_ rfl)
    rw [hdrawn]
    rfl
  | @settled p P hP _ key r hr hproblem S hslot hactive =>
    -- the round is not the active one of its slot, so it has ended already
    refine ht.of_same (fun _ => rfl) (live_rewritten hr ?_ rfl)
    refine (Bool.eq_false_iff.mpr fun hrun => hactive ?_).symm
    have hturn := ht.running key (by rw [Board.live, hr]; exact congrArg some hrun)
    rw [hg.slot_eq hinj hP hr hproblem, Board.turn, hslot, Option.bind_some, Slot.turn,
      Option.map_eq_some_iff] at hturn
    obtain ⟨key', hkey', heq⟩ := hturn
    rw [hkey', (Prod.mk.inj heq).1]

end Turns

/-! ## Slots that stay awake -/

/-- The slot has an active round or a height it is scheduled for. -/
def Slot.awake (S : Slot) : Bool := S.active.isSome || S.scheduled.isSome

theorem Slot.awake_iff (S : Slot) : S.awake = true ↔ S.active ≠ none ∨ S.scheduled ≠ none := by
  rw [Slot.awake, Bool.or_eq_true, Option.isSome_iff_ne_none, Option.isSome_iff_ne_none]

def Board.awake (B : Board) (slot : ℕ) : Prop := B.slots[slot]?.map Slot.awake = some true

section Awake

variable {cr : Crypto} {c : Config} {h : ℕ} {G : Board → Hash → Prop} {ds ds' : List (ℕ × ℕ)} {B B' : Board}

theorem awake_set {i : ℕ} {new : Slot} (hnew : new.awake = true) (ha : B.awake slot)
    (hslots : B'.slots = B.slots.set i new) : B'.awake slot := by
  rw [Board.awake, hslots, List.getElem?_set]
  obtain ⟨S, hS, -⟩ := Option.map_eq_some_iff.mp ha
  split
  · rename_i heq
    rw [if_pos (by rw [heq]; exact (List.getElem?_eq_some_iff.mp hS).1)]
    exact congrArg some hnew
  · exact ha

theorem scheduleSlot_awake (S : Slot) (start : ℕ) : (scheduleSlot S start).awake = true := by
  unfold scheduleSlot
  split_ifs with hnot
  · simp [Slot.awake]
  · rw [Slot.awake_iff]
    by_contra hcon
    exact hnot (not_or.mp hcon |>.imp not_not.mp not_not.mp)

theorem BoardStep.awake (hb : BoardStep cr c h G B ds' B')
    (hgap : ∀ p ∈ c.slotTable, h + p.announceGap < 2 ^ 64) (ha : B.awake slot) :
    B'.awake slot := by
  cases hb with
  | dropped | won | voided | shut | requeued | posed | settled => exact ha
  | ended hparams =>
    refine awake_set ?_ ha rfl
    rw [checkedAdd_eq_some.mpr ⟨hgap _ (List.mem_of_getElem? hparams), rfl⟩]
    rfl
  | reposed | drawn => exact awake_set rfl ha rfl
  | waits | freed => exact awake_set (by simp [Slot.awake]) ha rfl
  | pooled => exact awake_set (scheduleSlot_awake _ _) ha rfl

end Awake

/-! ## Runs -/

section Runs

variable {cr : Crypto} {c : Config} {gas : ℕ} {s s' : State} {run run' : List (StepInput × Step)}

theorem new_turns (hs : State.new cr c gas = .ok s) : Turns s.board := by
  rw [State.new_eq_ok hs]
  refine ⟨fun slot x hx => ?_, fun key hkey => ?_⟩
  · obtain ⟨S, hS, hturn⟩ := Option.bind_eq_some_iff.mp hx
    obtain ⟨_, -, rfl⟩ := List.mem_map.mp (List.mem_of_getElem? hS)
    exact nomatch hturn
  · simp [Board.live, State.board] at hkey

theorem Ran.turns (hr : Ran cr c gas run s) (hinj : Set.InjOn cr.sha256 (s.board.hashed c)) :
    Grounded cr c (draws run) s.board ∧ Turns s.board := by
  refine ⟨hr.grounded, ?_⟩
  obtain ⟨s₀, hs₀, hon⟩ := hr
  refine hon.board.2.apart Turns (fun _ hg hinj ht hb => ?_) (new_grounded hs₀) (new_turns hs₀) hinj
  exact hb.turns hg (hinj.mono (hb.keeps hg.numbers hg.stock).hashed) ht

theorem Onward.awake (hon : Onward cr c s run s') (hvalid : c.Valid)
    (hheight : s'.height + 2 ^ 32 < 2 ^ 64) (ha : s.board.awake slot) :
    s'.board.awake slot := by
  refine hon.board.2.preserves (fun B => B.awake slot) (fun hh ha hb => ?_) ha
  refine hb.awake (fun p hp => ?_) ha
  have hgap := (hvalid.params p hp p.announceGap (by simp)).2
  omega

/-- **Slots and rounds:** a round is drawn or open exactly when it is the active round of its slot, no
slot has both an active round and a scheduled height, the rounds of a slot are numbered from 1 to its
counter, and a slot that was awake stays awake. -/
theorem Ran.slots_turn (hr : Ran cr c gas run s) (hon : Onward cr c s run' s')
    (hinj : Set.InjOn cr.sha256 (s'.board.hashed c))
    (hheight : s'.height + 2 ^ 32 < 2 ^ 64) :
    (∀ (key : ℕ × ℕ) (r : Round), s'.rounds[key]? = some r →
      (r.status = .drawn ∨ r.status = .opened ↔
        ∃ S, s'.slots[key.1]? = some S ∧ S.active = some key)) ∧
    (∀ (slot : ℕ) (S : Slot) (key : ℕ × ℕ), s'.slots[slot]? = some S → S.active = some key →
      key.1 = slot ∧ key ∈ s'.rounds) ∧
    (∀ S ∈ s'.slots, S.active = none ∨ S.scheduled = none) ∧
    (∀ (slot : ℕ) (S : Slot), s'.slots[slot]? = some S →
      ∀ n, (slot, n) ∈ s'.rounds ↔ 1 ≤ n ∧ n ≤ S.round) ∧
    ∀ (slot : ℕ) (S : Slot), s.slots[slot]? = some S → S.active ≠ none ∨ S.scheduled ≠ none →
      ∃ S', s'.slots[slot]? = some S' ∧ (S'.active ≠ none ∨ S'.scheduled ≠ none) := by
  obtain ⟨hg, ht⟩ := (hr.trans hon).turns hinj
  have hactive {slot : ℕ} {S : Slot} {key : ℕ × ℕ} (hS : s'.slots[slot]? = some S)
      (hkey : S.active = some key) := ht.active slot (key, S.scheduled)
    (by rw [Board.turn, show s'.board.slots = s'.slots from rfl, hS, Option.bind_some, Slot.turn, hkey]
        rfl)
  refine ⟨fun key r hkey => ?_, fun slot S key hS hkey => ?_, fun S hS => ?_, fun slot S hS n => ?_,
    fun slot S hS hawake => ?_⟩
  · have hlive : s'.board.live key ↔ r.status = .drawn ∨ r.status = .opened := by
      rw [Board.live, show s'.board.rounds[key]? = some r from hkey, ← running_iff]
      exact Option.some_inj
    rw [← hlive]
    refine ⟨fun hlive => ?_, fun ⟨S, hS, hkey⟩ => (hactive hS hkey).2.2⟩
    obtain ⟨S, hS, hturn⟩ := Option.bind_eq_some_iff.mp (ht.running key hlive)
    obtain ⟨key', hkey', heq⟩ := Option.map_eq_some_iff.mp hturn
    exact ⟨S, hS, by rw [hkey', (Prod.mk.inj heq).1]⟩
  · obtain ⟨hslot, -, hlive⟩ := hactive hS hkey
    obtain ⟨r, hr, -⟩ := Option.map_eq_some_iff.mp hlive
    exact ⟨hslot, ExtTreeMap.mem_iff_isSome_getElem?.mpr (by
      rw [show s'.rounds[key]? = some r from hr]
      rfl)⟩
  · obtain ⟨slot, hS⟩ := List.mem_iff_getElem?.mp hS
    cases hkey : S.active with
    | none => exact .inl rfl
    | some key => exact .inr (hactive hS hkey).2.1
  · refine (hg.numbers slot n).trans ?_
    rw [show s'.board.slots[slot]? = some S from hS]
    simp
  · have hlater : s'.board.awake slot := hon.awake hg.valid hheight <| by
      rw [Board.awake, show s.board.slots[slot]? = some S from hS]
      exact congrArg some (S.awake_iff.mpr hawake)
    obtain ⟨S', hS', hawake'⟩ := Option.map_eq_some_iff.mp hlater
    exact ⟨S', hS', S'.awake_iff.mp hawake'⟩

/-- The problem of the only slot is open. -/
theorem Ran.slots_turn_winning : ∃ run s S, Ran toyCrypto exampleConfig exampleGas run s ∧
    s.slots[0]? = some S ∧ S.active = some (0, 1) ∧ (0, 1) ∈ s.rounds ∧ S.scheduled = none := by
  obtain ⟨run, s, hr, hv⟩ := exists_reached_of_play toyCrypto exampleConfig exampleGas Free
    (Example.winning.take 4) (fun x => (x.2.rounds.toList.map (·.2.origin), x.2.height,
      x.2.slots[0]?.bind (·.active))) (v := ([(1, 0, 0)], 4, some (0, 1))) (by decide +kernel)
  obtain ⟨horigins, hheight, hactive⟩ := Prod.mk.inj hv |>.imp_right Prod.mk.inj
  obtain ⟨S, hS, hkey⟩ := Option.bind_eq_some_iff.mp hactive
  have hinj := toy_injOn (c := exampleConfig) (s := s) (o := (1, 0, 0)) (by rw [horigins]; simp)
  obtain ⟨-, hmem, hone, -⟩ := hr.ran.slots_turn .refl hinj (by rw [hheight]; norm_num)
  have hsched := (hone S (List.mem_of_getElem? hS)).resolve_left (by rw [hkey]; exact nofun)
  exact ⟨run, s, S, hr.ran, hS, hkey, (hmem 0 S _ hS hkey).2, hsched⟩

end Runs

end Derivation
