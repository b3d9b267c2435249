import Boole.Native.LedgerInvariant

/-!
# Native/LedgerUndo — an undo record takes a block back exactly

A block is applied together with a record of what its entries were before.  The record is written
**before** each change and keeps the first value it sees, so it always remembers the ledger the
block started from (`Remembers`), and playing it back returns that ledger
(`undoBlock_prepareBlock`).
-/

open Std Library

namespace Native

open NativeLedgerUndo

variable {undo undo' : NativeLedgerUndo} {l l₀ l' : NativeLedger} {es : List SignedEnvelope}
  {height : ℕ} {cr : Crypto} {rewardPk pk : String}

/-- The record goes from `l` back to `l₀`. -/
structure Remembers (undo : NativeLedgerUndo) (l₀ l : NativeLedger) : Prop where
  height : undo.height = l₀.height
  issued : undo.issued = l₀.issued
  balances : Records undo.balances l₀.balances l.balances
  nextNonces : Records undo.nextNonces l₀.nextNonces l.nextNonces
  lockedBalances : Records undo.lockedBalances l₀.lockedBalances l.lockedBalances
  pendingRewards : Records undo.pendingRewards l₀.pendingRewards l.pendingRewards

namespace Remembers

variable {undo : NativeLedgerUndo} {l₀ l l' : NativeLedger}

theorem new (l : NativeLedger) : Remembers (new l) l l :=
  ⟨rfl, rfl, records_empty _, records_empty _, records_empty _, records_empty _⟩

/-! ## Remembering -/

theorem balance (h : Remembers undo l₀ l) (pk : String) : Remembers (undo.balance l pk) l₀ l :=
  { h with balances := h.balances.remember pk }

theorem lockedBalance (h : Remembers undo l₀ l) (pk : String) :
    Remembers (undo.lockedBalance l pk) l₀ l :=
  { h with lockedBalances := h.lockedBalances.remember pk }

theorem foldl_balance (h : Remembers undo l₀ l) (pks : List String) :
    Remembers (pks.foldl (fun undo pk => undo.balance l pk) undo) l₀ l := by
  induction pks generalizing undo with
  | nil => exact h
  | cons pk pks ih => exact ih (h.balance pk)

end Remembers

/-- A key stays remembered. -/
theorem balances_foldl_balance (l : NativeLedger) (pks : List String) (undo : NativeLedgerUndo)
    (pk : String) :
    (pks.foldl (fun undo pk => undo.balance l pk) undo).balances[pk]? = none ↔
      undo.balances[pk]? = none ∧ pk ∉ pks := by
  induction pks generalizing undo with
  | nil => simp
  | cons k pks ih =>
    rw [List.foldl_cons, ih, balance, getElem?_insertIfNew, List.mem_cons, not_or]
    split_ifs with h
    · simp [h.1]
    · constructor
      · rintro ⟨hnone, hmem⟩
        exact ⟨hnone, fun hpk => h ⟨hpk.symm, hpk ▸ hnone⟩, hmem⟩
      · rintro ⟨hnone, -, hmem⟩
        exact ⟨hnone, hmem⟩

/-! ## The steps of a block -/

theorem Remembers.maturedReward (h : Remembers undo l l) {e : ℕ × String × ℕ}
    (he : l.pendingRewards[e.1]? = some e.2) :
    Remembers (undo.maturedReward l e) l l := by
  have h' := h.lockedBalance e.2.1
  exact ⟨h'.height, h'.issued, h'.balances, h'.nextNonces, h'.lockedBalances,
    h'.pendingRewards.remember_old he⟩

theorem Remembers.foldl_maturedReward (h : Remembers undo l l) {es : List (ℕ × String × ℕ)}
    (hes : ∀ e ∈ es, l.pendingRewards[e.1]? = some e.2) :
    Remembers (es.foldl (NativeLedgerUndo.maturedReward l) undo) l l := by
  induction es generalizing undo with
  | nil => exact h
  | cons e es ih =>
    exact ih (h.maturedReward (hes e List.mem_cons_self))
      fun e he => hes e (List.mem_cons_of_mem _ he)

/-- What is remembered once stays remembered. -/
theorem known_maturedReward (l : NativeLedger) (undo : NativeLedgerUndo) (e : ℕ × String × ℕ)
    (u : ℕ) (pk : String) :
    (undo.pendingRewards[u]? ≠ none ∨ e.1 = u →
      (undo.maturedReward l e).pendingRewards[u]? ≠ none) ∧
    (undo.lockedBalances[pk]? ≠ none ∨ e.2.1 = pk →
      (undo.maturedReward l e).lockedBalances[pk]? ≠ none) := by
  constructor
  · intro h
    simp only [maturedReward, getElem?_insert]
    split
    · simp
    · exact h.resolve_right ‹_›
  · intro h
    simp only [maturedReward, lockedBalance,
      getElem?_insertIfNew]
    split_ifs with hne
    · simp
    · rcases h with h | rfl
      · exact h
      · exact fun hnone => hne ⟨rfl, hnone⟩

theorem known_foldl_maturedReward (l : NativeLedger) (es : List (ℕ × String × ℕ))
    (undo : NativeLedgerUndo) (u : ℕ) (pk : String) :
    (undo.pendingRewards[u]? ≠ none ∨ (∃ e ∈ es, e.1 = u) →
      (es.foldl (maturedReward l) undo).pendingRewards[u]? ≠ none) ∧
    (undo.lockedBalances[pk]? ≠ none ∨ (∃ e ∈ es, e.2.1 = pk) →
      (es.foldl (maturedReward l) undo).lockedBalances[pk]? ≠ none) := by
  induction es generalizing undo with
  | nil => simp
  | cons e es ih =>
    obtain ⟨hpend, hlock⟩ := ih (undo.maturedReward l e)
    obtain ⟨hpend₁, hlock₁⟩ := known_maturedReward l undo e u pk
    constructor
    · rintro (h | ⟨e', he', rfl⟩)
      · exact hpend (.inl (hpend₁ (.inl h)))
      · rcases List.mem_cons.mp he' with rfl | he'
        · exact hpend (.inl (hpend₁ (.inr rfl)))
        · exact hpend (.inr ⟨e', he', rfl⟩)
    · rintro (h | ⟨e', he', rfl⟩)
      · exact hlock (.inl (hlock₁ (.inl h)))
      · rcases List.mem_cons.mp he' with rfl | he'
        · exact hlock (.inl (hlock₁ (.inr rfl)))
        · exact hlock (.inr ⟨e', he', rfl⟩)

/-- **Before a block changes anything, the record takes in what will mature:** it remembers those
rewards, and the locks of their keys. -/
theorem Remembers.matured (h : Remembers undo l l) (height : ℕ) :
    Remembers (undo.matured l height) l l ∧
      ∀ u pk amount, u ≤ height → l.pendingRewards[u]? = some (pk, amount) →
        (undo.matured l height).pendingRewards[u]? ≠ none ∧
        (undo.matured l height).lockedBalances[pk]? ≠ none := by
  refine ⟨h.foldl_maturedReward fun e he =>
    mem_toList_iff.mp (List.mem_of_mem_filter he),
    fun u pk amount hle hu => ?_⟩
  have hmem : (u, pk, amount) ∈ l.pendingRewards.toList.filter fun e => e.1 ≤ height :=
    List.mem_filter.mpr ⟨mem_toList_iff.mpr hu, by simpa using hle⟩
  obtain ⟨hpend, hlock⟩ := known_foldl_maturedReward l _ undo u pk
  exact ⟨hpend (.inr ⟨_, hmem, rfl⟩), hlock (.inr ⟨_, hmem, rfl⟩)⟩

open NativeLedger

theorem Remembers.unlocked {l₁ : NativeLedger} (h : Remembers undo l l) (hu : Unlocked height l l₁) :
    Remembers (undo.matured l height) l l₁ := by
  obtain ⟨hrem, hmat⟩ := h.matured height
  have hb : l₁.balances = l.balances := by rw [hu.frame]
  have hn : l₁.nextNonces = l.nextNonces := by rw [hu.frame]
  refine ⟨hrem.height, hrem.issued, hb ▸ hrem.balances, hn ▸ hrem.nextNonces,
    hrem.lockedBalances.write fun pk hpk => ?_, hrem.pendingRewards.write fun u hunone => ?_⟩
  · exact hu.locked pk fun u amount hle hpend => (hmat u pk amount hle hpend).2 hpk
  · rw [hu.pending, getElem?_unmatured]
    split
    · rfl
    · cases hpend : l.pendingRewards[u]? with
      | none => rfl
      | some e => exact absurd hunone (hmat u e.1 e.2 (by omega) hpend).1

theorem Remembers.transfer {e : SignedEnvelope} (h : Remembers undo l₀ l)
    (ht : applyTransfer cr height rewardPk (l, undo) e = .ok (l', undo')) :
    Remembers undo' l₀ l' := by
  obtain ⟨p, -, rfl, rfl⟩ := applyTransfer_eq_ok ht
  have hrem := h.foldl_balance p.balances.keys
  refine ⟨hrem.height, hrem.issued, hrem.balances.write fun pk hpk => ?_,
    hrem.nextNonces.touch p.sender p.nextNonce, hrem.lockedBalances, hrem.pendingRewards⟩
  obtain ⟨-, hmem⟩ := (balances_foldl_balance l p.balances.keys undo pk).mp hpk
  rw [mem_keys_iff, not_not] at hmem
  rw [commitTransfer, getElem?_overlay, hmem, Option.none_or]

theorem Remembers.transfers (h : Remembers undo l₀ l)
    (ht : es.foldlM (applyTransfer cr height rewardPk) (l, undo) = .ok (l', undo')) :
    Remembers undo' l₀ l' :=
  foldlM_invariant (fun s => Remembers s.2 l₀ s.1) (fun _ _ _ _ hs h => hs.transfer h) h ht

theorem Remembers.credit {amount : ℕ} (h : Remembers undo l₀ l) (hc : l.credit pk amount = .ok l') :
    Remembers (if amount ≠ 0 then undo.balance l pk else undo) l₀ l' := by
  unfold NativeLedger.credit at hc
  split at hc
  · simp only [bind_eq_ok, pure_eq_ok] at hc
    obtain ⟨b, -, rfl⟩ := hc
    rw [if_pos ‹_›]
    exact { h with balances := h.balances.touch pk b }
  · obtain rfl : l = l' := by simpa using hc
    rw [if_neg ‹_›]
    exact h

theorem Remembers.lockEmission {emission : ℕ} (h : Remembers undo l₀ l)
    (hl : l.lockEmission height pk emission undo = .ok (l', undo')) :
    Remembers undo' l₀ l' := by
  unfold NativeLedger.lockEmission at hl
  split at hl
  · simp only [bind_eq_ok] at hl
    obtain ⟨u, -, b, -, rfl, rfl⟩ := hl
    exact { h with
      lockedBalances := h.lockedBalances.touch pk b
      pendingRewards := h.pendingRewards.touch u (pk, emission) }
  · obtain ⟨rfl, rfl⟩ : l = l' ∧ undo = undo' := by simpa using hl
    exact h

theorem Remembers.emission (h : Remembers undo l₀ l)
    (he : l.applyEmission height pk undo = .ok (l', undo')) : Remembers undo' l₀ l' := by
  simp only [applyEmission, bind_eq_ok] at he
  obtain ⟨e, -, l₁, hl₁, ⟨l₂, undo₂⟩, h₂, issued, -, rfl, rfl⟩ := he
  have hrem := (h.credit hl₁).lockEmission h₂
  exact ⟨hrem.height, hrem.issued, hrem.balances, hrem.nextNonces, hrem.lockedBalances,
    hrem.pendingRewards⟩

/-! ## Blocks -/

/-- **The record of a block remembers the ledger the block was applied to.** -/
theorem remembers_prepareBlock (h : l.prepareBlock cr height rewardPk es = .ok (l', undo)) :
    Remembers undo l l' := by
  simp only [prepareBlock, applyBlockInner, bind_eq_ok] at h
  obtain ⟨_, -, _, -, _, -, l₁, h₁, ⟨l₂, undo₂⟩, h₂, h'⟩ := h
  exact (((Remembers.new l).unlocked (unlockRewards_eq_ok h₁)).transfers h₂).emission h'

/-- A block changes neither the network nor its rules. -/
theorem NativeLedger.BlockApplied.rules {l₁ l₂ : NativeLedger} {e : ℕ}
    {fs : List NativeTransferFields} (h : BlockApplied cr l height rewardPk es fs l₁ l₂ l' e) :
    l'.networkId = l.networkId ∧ l'.schedule = l.schedule ∧ l'.minimumFee = l.minimumFee ∧
      l'.rewardMaturity = l.rewardMaturity ∧ l'.height = l.height + 1 := by
  rw [h.emits.frame, h.frame]
  exact ⟨rfl, rfl, rfl, rfl, h.height_eq⟩

/-- **Undoing a block returns the ledger it was applied to, entry by entry.** -/
theorem undoBlock_prepareBlock (h : l.prepareBlock cr height rewardPk es = .ok (l', undo)) :
    l'.undoBlock undo = .ok l := by
  have hrem := remembers_prepareBlock h
  obtain ⟨fs, l₁, l₂, e, hb⟩ := applyBlockInner_eq_ok h
  obtain ⟨hnet, hsched, hfee, hmat, hheight⟩ := hb.rules
  have hadd : checkedAdd 64 undo.height 1 = some l'.height := by
    rw [checkedAdd_eq_some, hrem.height, hheight]
    exact ⟨by rw [← hb.height_eq]; exact hb.height_lt, rfl⟩
  rw [undoBlock, hadd, okOr_some, ok_bind, ensure_of rfl, restore_of_records hrem.balances,
    restore_of_records hrem.nextNonces, restore_of_records hrem.lockedBalances,
    restore_of_records hrem.pendingRewards, hrem.height, hrem.issued, hnet, hsched, hfee, hmat]
  rfl

end Native
