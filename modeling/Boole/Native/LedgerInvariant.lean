import Boole.Native.Ledger

/-!
# Native/LedgerInvariant — conservation and exact reward locks

**Every ledger that blocks can reach passes its own audit** (`audit_of_consistent`).  The invariant
is `Consistent`: the balances add up to what was issued, the locks of a key are exactly its pending
rewards, and a key holds at least what is locked for it.

The blocks' effect on the balances is one posting (`Posts`): each transfer debits its sender with
amount and fee, credits the recipient with the amount and the producer with the fee, and the
issuance is credited to the reward key.  Names may coincide in every way; account by account that
makes no difference.
-/

open Std Library Library.Json

namespace Native

variable {locked : ExtTreeMap String ℕ} {pending : ExtTreeMap ℕ (String × ℕ)} {u amount height : ℕ}
  {pk rewardPk : String} {l l' : NativeLedger} {cr : Crypto} {undo undo' : NativeLedgerUndo}
  {es : List SignedEnvelope}

namespace NativeLedger

/-! ## Locks and pending rewards -/

/-- What the pending rewards of a key add up to. -/
def pendingFor (pending : ExtTreeMap ℕ (String × ℕ)) (pk : String) : ℕ :=
  sumBy (fun _ e => if e.1 = pk then e.2 else 0) pending

/-- The locked balances are the totals of the pending rewards, with no entry for a zero one. -/
def LocksMatch (locked : ExtTreeMap String ℕ) (pending : ExtTreeMap ℕ (String × ℕ)) : Prop :=
  ∀ pk, locked[pk]? = if pendingFor pending pk = 0 then none else some (pendingFor pending pk)

theorem LocksMatch.balanceOf_eq (h : LocksMatch locked pending) (pk : String) :
    balanceOf locked pk = pendingFor pending pk := by
  rw [balanceOf, h pk]
  split <;> simp_all

theorem locksMatch_empty : LocksMatch ∅ ∅ := by
  intro pk
  simp [pendingFor]

/-- Locks match as soon as each lock is the right total and no lock is zero. -/
theorem locksMatch_of_balanceOf (hne : ∀ pk : String, locked[pk]? ≠ some 0)
    (h : ∀ pk, balanceOf locked pk = pendingFor pending pk) :
    LocksMatch locked pending := by
  intro pk
  have hpk := h pk
  have hne := hne pk
  rw [balanceOf] at hpk
  cases hl : locked[pk]? with
  | none => simp_all
  | some v =>
    rw [hl] at hpk hne
    simp_all

theorem LocksMatch.ne_zero (h : LocksMatch locked pending) (pk : String) :
    locked[pk]? ≠ some 0 := by
  rw [h pk]
  split <;> simp_all

/-- A pending reward is part of what is locked for its key. -/
theorem pendingFor_erase (h : pending[u]? = some (pk, amount)) (k : String) :
    pendingFor (pending.erase u) k + (if pk = k then amount else 0) = pendingFor pending k := by
  have := sumBy_erase (fun (_ : ℕ) (e : String × ℕ) => if e.1 = k then e.2 else 0) pending u
  rw [h] at this
  exact this

theorem pendingFor_insert (h : pending[u]? = none) (pk : String) (amount : ℕ) (k : String) :
    pendingFor (pending.insert u (pk, amount)) k
      = pendingFor pending k + (if pk = k then amount else 0) := by
  have := sumBy_insert (fun (_ : ℕ) (e : String × ℕ) => if e.1 = k then e.2 else 0) pending u
    (pk, amount)
  rw [h] at this
  exact this

theorem LocksMatch.unlock (h : LocksMatch locked pending) (hu : pending[u]? = some (pk, amount)) :
    LocksMatch (setOrClose locked pk (balanceOf locked pk - amount)) (pending.erase u) := by
  refine locksMatch_of_balanceOf (fun k => ?_) (fun k => ?_)
  · have hk := h.ne_zero k
    rw [getElem?_setOrClose]
    split
    · split <;> simp_all
    · exact hk
  · have hk := h.balanceOf_eq k
    have hpend := pendingFor_erase hu k
    rw [balanceOf_setOrClose]
    by_cases hpk : pk = k
    · subst hpk
      rw [if_pos rfl] at hpend ⊢
      omega
    · rw [if_neg hpk] at hpend ⊢
      omega

theorem LocksMatch.lock (h : LocksMatch locked pending) (hu : pending[u]? = none) (pk : String)
    (hne : amount ≠ 0) :
    LocksMatch (locked.insert pk (balanceOf locked pk + amount))
      (pending.insert u (pk, amount)) := by
  refine locksMatch_of_balanceOf (fun k => ?_) (fun k => ?_)
  · have hk := h.ne_zero k
    rw [getElem?_insert]
    split
    · simp [hne]
    · exact hk
  · have hk := h.balanceOf_eq k
    rw [balanceOf_insert, pendingFor_insert hu]
    by_cases hpk : pk = k
    · subst hpk
      rw [if_pos rfl, if_pos rfl, hk]
    · rw [if_neg hpk, if_neg hpk, hk, add_zero]

/-! ## Unlocking -/

/-- The rewards that do not mature at `height`. -/
def unmatured (height : ℕ) (pending : ExtTreeMap ℕ (String × ℕ)) : ExtTreeMap ℕ (String × ℕ) :=
  pending.filter fun u _ => height < u

theorem getElem?_unmatured (height : ℕ) (pending : ExtTreeMap ℕ (String × ℕ)) (u : ℕ) :
    (unmatured height pending)[u]? = if height < u then pending[u]? else none := by
  rw [unmatured, ExtTreeMap.getElem?_filter']
  cases pending[u]? <;> simp [Option.filter]

/-- What unlocking does: the matured rewards leave the queue, and only the locks of their keys
change. -/
structure Unlocked (height : ℕ) (l l' : NativeLedger) : Prop where
  pending : l'.pendingRewards = unmatured height l.pendingRewards
  locked : ∀ pk, (∀ u amount, u ≤ height → l.pendingRewards[u]? ≠ some (pk, amount)) →
    l'.lockedBalances[pk]? = l.lockedBalances[pk]?
  frame : l' = { l with
    pendingRewards := l'.pendingRewards, lockedBalances := l'.lockedBalances }

theorem unlocked_self (h : ∀ u e, l.pendingRewards[u]? = some e → height < u) :
    Unlocked height l l := by
  refine ⟨?_, fun _ _ => rfl, rfl⟩
  refine ExtTreeMap.ext_getElem? fun u => ?_
  rw [getElem?_unmatured]
  split
  · rfl
  · cases hu : l.pendingRewards[u]? with
    | none => rfl
    | some e => exact absurd (h u e hu) ‹_›

theorem unlockReward_eq_ok (h : l.unlockReward u pk amount = .ok l') :
    amount ≤ l.lockedBalance pk ∧ l' = { l with
      pendingRewards := l.pendingRewards.erase u
      lockedBalances := setOrClose l.lockedBalances pk (l.lockedBalance pk - amount) } := by
  simp only [unlockReward, bind_eq_ok, okOr_eq_ok, checkedSub_eq_some, pure_eq_ok] at h
  obtain ⟨r, ⟨hle, rfl⟩, rfl⟩ := h
  exact ⟨hle, rfl⟩

theorem unlockReward_unlocked {l₁ : NativeLedger} (hu : l.pendingRewards[u]? = some (pk, amount))
    (hle : u ≤ height) (h₁ : l.unlockReward u pk amount = .ok l₁) (h' : Unlocked height l₁ l') :
    Unlocked height l l' := by
  obtain ⟨-, rfl⟩ := unlockReward_eq_ok h₁
  refine ⟨?_, fun k hk => ?_, ?_⟩
  · rw [h'.pending]
    refine ExtTreeMap.ext_getElem? fun v => ?_
    rw [getElem?_unmatured, getElem?_unmatured, getElem?_erase]
    split
    · rw [if_neg (by omega)]
    · rfl
  · have hne : pk ≠ k := fun h => hk u amount hle (h ▸ hu)
    rw [h'.locked k fun v a hv => ?_, getElem?_setOrClose, if_neg hne]
    rw [getElem?_erase]
    split
    · simp
    · exact hk v a hv
  · rw [h'.frame]

/-- The loop stops at the first reward that does not mature: all others come later. -/
theorem unlockLoop_eq_ok {fuel : ℕ} (hfuel : l.pendingRewards.size ≤ fuel)
    (h : unlockLoop height fuel l = .ok l') :
    Unlocked height l l' := by
  induction fuel generalizing l with
  | zero =>
    obtain rfl : l = l' := by simpa [unlockLoop] using h
    refine unlocked_self fun u e hu => ?_
    have : l.pendingRewards = ∅ :=
      ExtTreeMap.eq_empty_iff_size_eq_zero.mpr (Nat.le_zero.mp hfuel)
    simp [this] at hu
  | succ fuel ih =>
    rw [unlockLoop] at h
    split at h
    · rename_i u pk amount hfirst
      have hu := getElem?_of_firstKeyValue hfirst
      split_ifs at h with hle
      · obtain ⟨l₁, h₁, hrest⟩ := bind_eq_ok.mp h
        refine unlockReward_unlocked hu hle h₁ (ih ?_ hrest)
        obtain ⟨-, rfl⟩ := unlockReward_eq_ok h₁
        have hmem : u ∈ l.pendingRewards := mem_iff_exists.mpr ⟨_, hu⟩
        rw [ExtTreeMap.size_erase, if_pos (ExtTreeMap.mem_iff_contains.mp hmem)]
        omega
      · obtain rfl : l = l' := by simpa using h
        refine unlocked_self fun v e hv => ?_
        have := firstKeyValue_isLE hfirst hv
        rw [Nat.isLE_compare] at this
        omega
    · rename_i hfirst
      obtain rfl : l = l' := by simpa using h
      refine unlocked_self fun v e hv => ?_
      simp [firstKeyValue_eq_none.mp hfirst] at hv

theorem unlockRewards_eq_ok (h : l.unlockRewards height = .ok l') : Unlocked height l l' :=
  unlockLoop_eq_ok le_rfl h

/-- **Matured rewards can always be unlocked,** and what remains locked is what remains
pending. -/
theorem unlockLoop_ok (height fuel : ℕ) (hl : LocksMatch l.lockedBalances l.pendingRewards) :
    ∃ l', unlockLoop height fuel l = .ok l' ∧
      LocksMatch l'.lockedBalances l'.pendingRewards := by
  induction fuel generalizing l with
  | zero => exact ⟨l, rfl, hl⟩
  | succ fuel ih =>
    rw [unlockLoop]
    split
    · rename_i u pk amount hfirst
      have hu := getElem?_of_firstKeyValue hfirst
      have hle : amount ≤ l.lockedBalance pk := by
        have := pendingFor_erase hu pk
        rw [if_pos rfl] at this
        rw [lockedBalance, hl.balanceOf_eq]
        omega
      split
      · rw [unlockReward, checkedSub, if_pos hle]
        exact ih (hl.unlock hu)
      · exact ⟨l, rfl, hl⟩
    · exact ⟨l, rfl, hl⟩

theorem unlockRewards_ok (height : ℕ) (hl : LocksMatch l.lockedBalances l.pendingRewards) :
    ∃ l', l.unlockRewards height = .ok l' ∧
      LocksMatch l'.lockedBalances l'.pendingRewards :=
  unlockLoop_ok height _ hl

/-! ## Transfers -/

/-- A staged credit is a posting on the balances the stage stands for. -/
theorem stageCredit_eq_ok {s s' : ExtTreeMap String ℕ} (h : l.stageCredit s pk amount = .ok s') :
    Posts [] [(pk, amount)] (overlay l.balances s) (overlay l.balances s') := by
  intro k
  unfold stageCredit at h
  split at h
  · simp only [bind_eq_ok, okOr_eq_ok, checkedAdd_eq_some, pure_eq_ok] at h
    obtain ⟨b, ⟨-, rfl⟩, rfl⟩ := h
    simp only [balanceOf_overlay, getElem?_insert]
    by_cases hk : pk = k
    · subst hk
      simp [balance]
    · simp [hk]
  · simp_all

/-- What a transfer credits: the recipient with the amount, the producer with the fee. -/
def transferCredits (f : NativeTransferFields) (rewardPk : Option String) : List (String × ℕ) :=
  (f.recipient, f.amount) :: (rewardPk.map (·, f.fee)).toList

/-- **What a transfer that was prepared has been checked for, and what it will do.** -/
structure Prepares (cr : Crypto) (l : NativeLedger) (height : ℕ) (rewardPk : Option String)
    (envelope : SignedEnvelope) (f : NativeTransferFields) (p : PreparedTransfer) : Prop where
  valid : validateNativeTransfer cr envelope l.networkId l.minimumFee = .ok f
  unexpired : height ≤ f.validBefore
  nonce : f.nonce = l.nextNonce f.sender
  nonce_lt : f.nonce + 1 < 2 ^ 64
  covered : f.amount + f.fee ≤ l.spendableBalance f.sender
  posts : Posts [(f.sender, f.amount + f.fee)] (transferCredits f rewardPk) l.balances
    (overlay l.balances p.balances)
  sender : p.sender = f.sender
  nextNonce : p.nextNonce = f.nonce + 1

theorem prepareTransfer_eq_ok {rewardPk : Option String} {envelope : SignedEnvelope}
    {p : PreparedTransfer} (h : l.prepareTransfer cr height rewardPk envelope = .ok p) :
    ∃ f, Prepares cr l height rewardPk envelope f p := by
  simp only [prepareTransfer, bind_eq_ok, ensure_eq_ok, okOr_eq_ok, checkedAdd_eq_some,
    checkedSub_eq_some, pure_eq_ok] at h
  obtain ⟨f, hf, _, hexp, _, hnonce, _, ⟨-, rfl⟩, _, hcov, _, ⟨hle, rfl⟩, _, ⟨hlt, rfl⟩, s₁, hs₁,
    s₂, hs₂, rfl⟩ := h
  -- the debit replaces the sender's balance, the credits build on what is staged
  have hdebit : Posts [(f.sender, f.amount + f.fee)] [] l.balances (overlay l.balances
      ((∅ : ExtTreeMap String ℕ).insert f.sender (l.balance f.sender - (f.amount + f.fee)))) := by
    intro k
    simp only [balanceOf_overlay]
    by_cases hk : f.sender = k
    · subst hk
      simpa [balance] using Nat.sub_add_cancel hle
    · simp [hk]
  have hamount := hdebit.trans (stageCredit_eq_ok hs₁)
  refine ⟨f, hf, hexp, hnonce, hlt, hcov, ?_, rfl, rfl⟩
  cases rewardPk with
  | none =>
    obtain rfl : s₁ = s₂ := by simpa [stageFee] using hs₂
    exact hamount
  | some rewardPk => exact hamount.trans (stageCredit_eq_ok hs₂)

/-- The transfers of a block, applied one after the other, with the fields each was read as. -/
inductive TransferRun (cr : Crypto) (height : ℕ) (rewardPk : String) :
    NativeLedger → List SignedEnvelope → List NativeTransferFields → NativeLedger → Prop
  | nil (l : NativeLedger) : TransferRun cr height rewardPk l [] [] l
  | cons {l l' : NativeLedger} {e : SignedEnvelope} {es : List SignedEnvelope}
      {f : NativeTransferFields} {fs : List NativeTransferFields} {p : PreparedTransfer}
      (hp : Prepares cr l height (some rewardPk) e f p)
      (hrun : TransferRun cr height rewardPk (l.commitTransfer p) es fs l') :
      TransferRun cr height rewardPk l (e :: es) (f :: fs) l'

theorem applyTransfer_eq_ok {e : SignedEnvelope}
    (h : applyTransfer cr height rewardPk (l, undo) e = .ok (l', undo')) :
    ∃ p, l.prepareTransfer cr height (some rewardPk) e = .ok p ∧ l' = l.commitTransfer p ∧
      undo' = (p.balances.keys.foldl (fun undo pk => undo.balance l pk) undo).nextNonce l
        p.sender := by
  simp only [applyTransfer, bind_eq_ok] at h
  obtain ⟨p, hp, rfl, rfl⟩ := h
  exact ⟨p, hp, rfl, rfl⟩

theorem transferRun_of_foldlM
    (h : es.foldlM (applyTransfer cr height rewardPk) (l, undo) = .ok (l', undo')) :
    ∃ fs, TransferRun cr height rewardPk l es fs l' := by
  induction es generalizing l undo with
  | nil =>
    obtain ⟨rfl, -⟩ : l = l' ∧ undo = undo' := by simpa using h
    exact ⟨[], .nil l⟩
  | cons e es ih =>
    rw [List.foldlM_cons, bind_eq_ok] at h
    obtain ⟨⟨l₁, undo₁⟩, h₁, hrest⟩ := h
    obtain ⟨p, hp, rfl, -⟩ := applyTransfer_eq_ok h₁
    obtain ⟨f, hf⟩ := prepareTransfer_eq_ok hp
    obtain ⟨fs, hfs⟩ := ih hrest
    exact ⟨f :: fs, .cons hf hfs⟩

/-- What the transfers of a block debit. -/
def debits (fs : List NativeTransferFields) : List (String × ℕ) :=
  fs.map fun f => (f.sender, f.amount + f.fee)

/-- What the transfers of a block credit. -/
def credits (rewardPk : String) (fs : List NativeTransferFields) : List (String × ℕ) :=
  fs.flatMap fun f => transferCredits f (some rewardPk)

/-- Fees are paid by the senders: transfers neither make nor lose money. -/
theorem volume_credits (rewardPk : String) (fs : List NativeTransferFields) :
    volume (credits rewardPk fs) = volume (debits fs) := by
  induction fs with
  | nil => rfl
  | cons f fs ih =>
    rw [credits, debits, List.flatMap_cons, List.map_cons, volume_append]
    rw [credits, debits] at ih
    rw [ih]
    simp only [transferCredits, Option.map_some, Option.toList_some, volume_cons, volume_nil]
    omega

namespace TransferRun

variable {cr : Crypto} {height : ℕ} {rewardPk : String} {l l' : NativeLedger}
  {es : List SignedEnvelope} {fs : List NativeTransferFields}

variable (h : TransferRun cr height rewardPk l es fs l')
include h

theorem posts : Posts (debits fs) (credits rewardPk fs) l.balances l'.balances := by
  induction h with
  | nil l => exact Posts.refl _
  | cons hp _ ih => exact hp.posts.trans ih

/-- Transfers change balances and nonces, and nothing else. -/
theorem frame : l' = { l with balances := l'.balances, nextNonces := l'.nextNonces } := by
  induction h with
  | nil l => rfl
  | cons _ _ ih =>
    rw [ih]
    rfl

/-- A transfer spends what is not locked, so what is locked stays covered. -/
theorem covered (hc : ∀ pk, l.lockedBalance pk ≤ l.balance pk) (pk : String) :
    l'.lockedBalance pk ≤ l'.balance pk := by
  induction h generalizing pk with
  | nil l => exact hc pk
  | @cons l l' e es f fs p hp _ ih =>
    refine ih (fun k => ?_) pk
    have hpost := hp.posts k
    have hcov := hp.covered
    have hk := hc k
    have hs := hc f.sender
    rw [spendableBalance] at hcov
    change l.lockedBalance k ≤ balanceOf (overlay l.balances p.balances) k
    simp only [posted_cons, posted_nil] at hpost
    rw [balance] at hk hs hcov
    by_cases hsk : f.sender = k
    · subst hsk
      rw [if_pos rfl] at hpost
      omega
    · rw [if_neg hsk] at hpost
      omega

/-- Each transfer was valid under the ledger's rules. -/
theorem valid {e : SignedEnvelope} (he : e ∈ es) :
    ∃ f, validateNativeTransfer cr e l.networkId l.minimumFee = .ok f := by
  induction h with
  | nil l => simp at he
  | cons hp _ ih =>
    rcases List.mem_cons.mp he with rfl | he
    · exact ⟨_, hp.valid⟩
    · exact ih he

end TransferRun

/-! ## Issuance -/

theorem emission_eq_ok {sch : EmissionSchedule} {issued e : ℕ}
    (h : sch.emission height issued = .ok e) : issued + e ≤ sch.totalSupply := by
  simp only [EmissionSchedule.emission, bind_eq_ok, okOr_eq_ok, checkedSub_eq_some,
    pure_eq_ok] at h
  obtain ⟨r, ⟨hle, rfl⟩, rfl⟩ := h
  omega

theorem credit_eq_ok (h : l.credit pk amount = .ok l') :
    Posts [] [(pk, amount)] l.balances l'.balances ∧ l' = { l with balances := l'.balances } := by
  unfold credit at h
  split at h
  · simp only [bind_eq_ok, okOr_eq_ok, checkedAdd_eq_some, pure_eq_ok] at h
    obtain ⟨b, ⟨-, rfl⟩, rfl⟩ := h
    refine ⟨fun k => ?_, rfl⟩
    simp only [balanceOf_insert, posted_cons]
    split_ifs with hk
    · rw [hk]
      rfl
    · rfl
  · obtain rfl : l = l' := by simpa using h
    refine ⟨fun k => ?_, rfl⟩
    simp_all

/-- **What the issuance of a block does.**  It is locked when there is something to lock. -/
structure Emits (height : ℕ) (rewardPk : String) (e : ℕ) (l l' : NativeLedger) : Prop where
  emission : l.schedule.emission height l.issued = .ok e
  posts : Posts [] [(rewardPk, e)] l.balances l'.balances
  locks : e ≠ 0 ∧ l.rewardMaturity ≠ 0 →
    l'.lockedBalances = l.lockedBalances.insert rewardPk (l.lockedBalance rewardPk + e) ∧
    l'.pendingRewards = l.pendingRewards.insert (height + l.rewardMaturity) (rewardPk, e)
  no_locks : ¬(e ≠ 0 ∧ l.rewardMaturity ≠ 0) →
    l'.lockedBalances = l.lockedBalances ∧ l'.pendingRewards = l.pendingRewards
  frame : l' = { l with
    balances := l'.balances, lockedBalances := l'.lockedBalances
    pendingRewards := l'.pendingRewards, issued := l.issued + e, height := height }

theorem applyEmission_eq_ok (h : l.applyEmission height rewardPk undo = .ok (l', undo')) :
    ∃ e, Emits height rewardPk e l l' := by
  simp only [applyEmission, bind_eq_ok] at h
  obtain ⟨e, he, l₁, hl₁, ⟨l₂, undo₂⟩, h₂, _, hissued, h'⟩ := h
  obtain ⟨hposts, hframe⟩ := credit_eq_ok hl₁
  simp only [okOr_eq_ok, checkedAdd_eq_some] at hissued
  obtain ⟨-, rfl⟩ := hissued
  obtain ⟨rfl, -⟩ := h'
  refine ⟨e, ?_⟩
  have hmat : l₁.rewardMaturity = l.rewardMaturity := by rw [hframe]
  unfold lockEmission at h₂
  split at h₂
  · rename_i hlock
    simp only [bind_eq_ok, okOr_eq_ok, checkedAdd_eq_some] at h₂
    obtain ⟨_, ⟨-, rfl⟩, _, ⟨-, rfl⟩, rfl, -⟩ := h₂
    refine ⟨he, hposts, fun _ => ⟨?_, ?_⟩, fun h => absurd (hmat ▸ hlock) h, ?_⟩ <;> rw [hframe]
    rfl
  · rename_i hlock
    obtain ⟨rfl, -⟩ := h₂
    refine ⟨he, hposts, fun h => absurd (hmat ▸ h) hlock, fun _ => ⟨?_, ?_⟩, ?_⟩ <;> rw [hframe]

/-! ## Blocks -/

/-- **What a block does to the ledger:** it unlocks, runs its transfers, and issues. -/
structure BlockApplied (cr : Crypto) (l : NativeLedger) (height : ℕ) (rewardPk : String)
    (es : List SignedEnvelope) (fs : List NativeTransferFields) (l₁ l₂ l' : NativeLedger)
    (e : ℕ) : Prop where
  height_eq : height = l.height + 1
  height_lt : height < 2 ^ 64
  rewardPk_ok : ∃ k, Hex32.fromHex rewardPk = .ok k
  unlocked : Unlocked height l l₁
  unlock : l.unlockRewards height = .ok l₁
  run : TransferRun cr height rewardPk l₁ es fs l₂
  emits : Emits height rewardPk e l₂ l'

theorem applyBlockInner_eq_ok (h : l.applyBlockInner cr height rewardPk es undo = .ok (l', undo')) :
    ∃ fs l₁ l₂ e, BlockApplied cr l height rewardPk es fs l₁ l₂ l' e := by
  simp only [applyBlockInner, bind_eq_ok, okOr_eq_ok, checkedAdd_eq_some, ensure_eq_ok,
    checkPublicKey, mapErr_eq_ok] at h
  obtain ⟨_, ⟨hlt, rfl⟩, _, rfl, k, hk, l₁, h₁, ⟨l₂, undo₂⟩, h₂, h'⟩ := h
  obtain ⟨fs, hfs⟩ := transferRun_of_foldlM h₂
  obtain ⟨e, he⟩ := applyEmission_eq_ok h'
  exact ⟨fs, l₁, l₂, e, rfl, hlt, ⟨k, hk⟩, unlockRewards_eq_ok h₁, h₁, hfs, he⟩

theorem applyBlock_eq_ok (h : l.applyBlock cr height rewardPk es = .ok l') :
    ∃ fs l₁ l₂ e, BlockApplied cr l height rewardPk es fs l₁ l₂ l' e := by
  simp only [applyBlock, bind_eq_ok, pure_eq_ok] at h
  obtain ⟨⟨l₁, undo⟩, h₁, rfl⟩ := h
  exact applyBlockInner_eq_ok h₁

/-! ## The invariant -/

/-- The accounting is consistent: money is conserved, and rewards are locked exactly. -/
structure Consistent (l : NativeLedger) : Prop where
  conserved : total l.balances = l.issued
  capped : l.issued ≤ l.schedule.totalSupply
  locks : LocksMatch l.lockedBalances l.pendingRewards
  covered : ∀ pk, l.lockedBalance pk ≤ l.balance pk
  pending : ∀ u pk amount, l.pendingRewards[u]? = some (pk, amount) →
    l.height < u ∧ u ≤ l.height + l.rewardMaturity ∧ l.rewardMaturity < u ∧ amount ≠ 0

theorem consistent_newWithRules {networkId : String} {schedule : EmissionSchedule}
    {minimumFee rewardMaturity : ℕ}
    (h : newWithRules networkId schedule minimumFee rewardMaturity = .ok l) : Consistent l := by
  simp only [newWithRules, bind_eq_ok, pure_eq_ok] at h
  obtain ⟨_, -, rfl⟩ := h
  exact ⟨total_empty, Nat.zero_le _, locksMatch_empty, fun _ => by simp [lockedBalance],
    fun u pk amount h => by simp at h⟩

/-- Unlocking frees money and moves none. -/
theorem Unlocked.lockedBalance_le {l₁ : NativeLedger} (h : Unlocked height l l₁)
    (hl : LocksMatch l.lockedBalances l.pendingRewards)
    (hl₁ : LocksMatch l₁.lockedBalances l₁.pendingRewards) (pk : String) :
    l₁.lockedBalance pk ≤ l.lockedBalance pk := by
  rw [lockedBalance, lockedBalance, hl.balanceOf_eq, hl₁.balanceOf_eq, h.pending]
  exact sumBy_filter_le _ _ _

namespace BlockApplied

variable {cr : Crypto} {l l₁ l₂ l' : NativeLedger} {height e : ℕ} {rewardPk : String}
  {es : List SignedEnvelope} {fs : List NativeTransferFields}

variable (h : BlockApplied cr l height rewardPk es fs l₁ l₂ l' e)
include h

/-- Before the issuance, a block has moved money between accounts and unlocked rewards. -/
theorem frame : l₂ = { l with
      balances := l₂.balances, nextNonces := l₂.nextNonces
      lockedBalances := l₁.lockedBalances
      pendingRewards := unmatured height l.pendingRewards } := by
  rw [h.run.frame, h.unlocked.frame, ← h.unlocked.pending]

/-- **A block posts its transfers and its issuance.** -/
theorem posts :
    Posts (debits fs) (credits rewardPk fs ++ [(rewardPk, e)]) l.balances l'.balances := by
  have hb : l₁.balances = l.balances := by rw [h.unlocked.frame]
  have := h.run.posts.trans h.emits.posts
  rwa [hb, List.append_nil] at this

/-- The height at which the block's reward unlocks is not taken. -/
theorem fresh (hl : Consistent l) :
    l₂.pendingRewards[height + l₂.rewardMaturity]? = none := by
  rw [h.frame, getElem?_unmatured]
  split
  · cases hu : l.pendingRewards[height + l.rewardMaturity]? with
    | none => rfl
    | some e =>
      have := (hl.pending _ e.1 e.2 hu).2.1
      rw [h.height_eq] at this
      omega
  · rfl

/-- After the transfers, the accounting is consistent except for the height. -/
theorem mid (hl : Consistent l) :
    total l₂.balances = l₂.issued ∧ LocksMatch l₂.lockedBalances l₂.pendingRewards ∧
      ∀ pk, l₂.lockedBalance pk ≤ l₂.balance pk := by
  obtain ⟨l₁', hl₁', hlocks₁⟩ := unlockRewards_ok height hl.locks
  obtain rfl : l₁' = l₁ := Except.ok.inj (hl₁'.symm.trans h.unlock)
  have hcov₁ : ∀ pk, l₁'.lockedBalance pk ≤ l₁'.balance pk := by
    intro pk
    have hle := h.unlocked.lockedBalance_le hl.locks hlocks₁ pk
    have : l₁'.balance pk = l.balance pk := by rw [h.unlocked.frame]; rfl
    rw [this]
    exact hle.trans (hl.covered pk)
  refine ⟨?_, ?_, h.run.covered hcov₁⟩
  · have htot := h.run.posts.total
    have hb : l₁'.balances = l.balances := by rw [h.unlocked.frame]
    have hi : l₂.issued = l.issued := by rw [h.frame]
    rw [volume_credits, hb, hl.conserved] at htot
    omega
  · rw [h.run.frame]
    exact hlocks₁

/-- **One block keeps the accounting consistent.** -/
theorem consistent (hl : Consistent l) : Consistent l' := by
  obtain ⟨htot, hlocks, hcov⟩ := h.mid hl
  have hmat : l₂.rewardMaturity = l.rewardMaturity := by rw [h.frame]
  have hfields : l'.issued = l₂.issued + e ∧ l'.schedule = l₂.schedule ∧ l'.height = height ∧
      l'.rewardMaturity = l₂.rewardMaturity := by
    rw [h.emits.frame]
    exact ⟨rfl, rfl, rfl, rfl⟩
  obtain ⟨hissued, hsched, hheight, hmat'⟩ := hfields
  have hnext := h.height_eq
  have hpend : ∀ u pk amount, l₂.pendingRewards[u]? = some (pk, amount) → l'.height < u ∧
      u ≤ l'.height + l'.rewardMaturity ∧ l'.rewardMaturity < u ∧ amount ≠ 0 := by
    intro u pk amount hu
    rw [h.frame, getElem?_unmatured] at hu
    split_ifs at hu
    have := hl.pending u pk amount hu
    omega
  have hbalance (pk : String) :
      l'.balance pk = l₂.balance pk + if rewardPk = pk then e else 0 := h.emits.posts pk
  have hcons : total l'.balances = l'.issued := by
    have := h.emits.posts.total
    simp only [volume_cons] at this
    omega
  have hcap : l'.issued ≤ l'.schedule.totalSupply := by
    rw [hissued, hsched]
    exact emission_eq_ok h.emits.emission
  by_cases hlock : e ≠ 0 ∧ l₂.rewardMaturity ≠ 0
  · obtain ⟨hlocked, hpending⟩ := h.emits.locks hlock
    refine ⟨hcons, hcap, ?_, fun pk => ?_, fun u pk amount hu => ?_⟩
    · rw [hlocked, hpending]
      exact hlocks.lock (h.fresh hl) rewardPk hlock.1
    · have := hcov pk
      rw [lockedBalance] at this ⊢
      rw [hlocked, balanceOf_insert, hbalance]
      split_ifs with hpk
      · rw [lockedBalance, hpk]
        omega
      · omega
    · rw [hpending, getElem?_insert] at hu
      split_ifs at hu
      · obtain ⟨-, rfl⟩ : rewardPk = pk ∧ e = amount := by simpa using hu
        omega
      · exact hpend u pk amount hu
  · obtain ⟨hlocked, hpending⟩ := h.emits.no_locks hlock
    refine ⟨hcons, hcap, ?_, fun pk => ?_, fun u pk amount hu => ?_⟩
    · rw [hlocked, hpending]
      exact hlocks
    · rw [lockedBalance, hlocked, hbalance]
      exact (hcov pk).trans (Nat.le_add_right _ _)
    · exact hpend u pk amount (hpending ▸ hu)

end BlockApplied

/-! ## The audit -/

theorem Consistent.issued_lt (hl : Consistent l) : l.issued < 2 ^ 128 :=
  hl.capped.trans_lt l.schedule.supply_lt

theorem Consistent.balance_lt (hl : Consistent l) (pk : String) :
    l.balance pk < 2 ^ 128 := by
  have := balanceOf_le_total l.balances pk
  rw [hl.conserved] at this
  exact this.trans_lt hl.issued_lt

/-- A checked sum that stays below the bound is the sum. -/
theorem foldlM_checkedAdd (es : List (String × ℕ)) (acc : ℕ) (h : acc + volume es < 2 ^ 128) :
    es.foldlM (fun sum e => okOr (checkedAdd 128 sum e.2) NativeLedgerError.overflow) acc
      = .ok (acc + volume es) := by
  induction es generalizing acc with
  | nil => rfl
  | cons e es ih =>
    rw [volume_cons] at h ⊢
    have hlt : acc + e.2 < 2 ^ 128 := by omega
    rw [List.foldlM_cons, checkedAdd, if_pos hlt, ← add_assoc]
    exact ih (acc + e.2) (by omega)

theorem foldlM_addLock (l : NativeLedger) (es : List (String × ℕ)) (acc : ℕ)
    (hes : ∀ e ∈ es, e.2 ≠ 0 ∧ e.2 ≤ l.balance e.1) (h : acc + volume es < 2 ^ 128) :
    es.foldlM l.addLock acc = .ok (acc + volume es) := by
  induction es generalizing acc with
  | nil => rfl
  | cons e es ih =>
    rw [volume_cons] at h ⊢
    have hlt : acc + e.2 < 2 ^ 128 := by omega
    obtain ⟨hne, hle⟩ := hes e List.mem_cons_self
    have hone : l.addLock acc e = .ok (acc + e.2) := by
      rw [addLock, ensure, if_pos (by omega), checkedAdd, if_pos hlt]
      rfl
    rw [List.foldlM_cons, hone, ← add_assoc]
    exact ih (acc + e.2) (fun e he => hes e (List.mem_cons_of_mem _ he)) (by omega)

/-- The locks the audit expects after some of the pending rewards are those rewards' totals. -/
theorem foldlM_expectLock (l : NativeLedger) (es : List (ℕ × String × ℕ))
    (locks : ExtTreeMap String ℕ) (hlocks : ∀ pk : String, locks[pk]? ≠ some 0)
    (hes : ∀ e ∈ es, l.height < e.1 ∧ e.1 ≤ l.height + l.rewardMaturity ∧
      l.rewardMaturity < e.1 ∧ e.2.2 ≠ 0)
    (h : ∀ pk, balanceOf locks pk + posted (es.map Prod.snd) pk < 2 ^ 128) :
    ∃ locks', es.foldlM l.expectLock locks = .ok locks' ∧
      (∀ pk : String, locks'[pk]? ≠ some 0) ∧
      ∀ pk, balanceOf locks' pk = balanceOf locks pk + posted (es.map Prod.snd) pk := by
  induction es generalizing locks with
  | nil => exact ⟨locks, rfl, hlocks, fun _ => rfl⟩
  | cons e es ih =>
    obtain ⟨u, pk, amount⟩ := e
    obtain ⟨hlt, hle, hmat, hne⟩ := hes _ List.mem_cons_self
    simp only at hlt hle hmat hne
    have hb : balanceOf locks pk + amount < 2 ^ 128 := by
      have := h pk
      simp only [List.map_cons, posted_cons, if_pos] at this
      omega
    have hone : l.expectLock locks (u, pk, amount)
        = .ok (locks.insert pk (balanceOf locks pk + amount)) := by
      rw [expectLock, checkedSub, if_pos (by omega), ensure, if_pos, checkedAdd, if_pos hb]
      · rfl
      · simp only [Option.any_some, decide_eq_true_eq]
        omega
    have hbal : ∀ k, balanceOf (locks.insert pk (balanceOf locks pk + amount)) k
        + posted (es.map Prod.snd) k
        = balanceOf locks k + posted (((u, pk, amount) :: es).map Prod.snd) k := by
      intro k
      simp only [balanceOf_insert, List.map_cons, posted_cons]
      split
      · subst pk
        omega
      · omega
    obtain ⟨locks', hrun, hne', hbal'⟩ := ih (locks.insert pk (balanceOf locks pk + amount))
      (fun k => by
        rw [getElem?_insert]
        split
        · simp [hne]
        · exact hlocks k)
      (fun e he => hes e (List.mem_cons_of_mem _ he)) (fun k => by rw [hbal]; exact h k)
    refine ⟨locks', ?_, hne', fun k => by rw [hbal', hbal]⟩
    rw [List.foldlM_cons, hone]
    exact hrun

theorem pendingFor_eq_posted (pending : ExtTreeMap ℕ (String × ℕ)) (pk : String) :
    pendingFor pending pk = posted (pending.toList.map Prod.snd) pk := by
  rw [pendingFor, posted, List.map_map]
  rfl

/-- **A consistent ledger passes its audit,** and the audit reports its totals. -/
theorem audit_of_consistent (hl : Consistent l) :
    l.audit = .ok {
      issued := l.issued
      supplyCap := l.schedule.totalSupply
      totalBalance := l.issued
      totalLocked := total l.lockedBalances
      totalSpendable := l.issued - total l.lockedBalances
      balanceEntries := l.balances.size
      nonceEntries := l.nextNonces.size
      pendingRewardEntries := l.pendingRewards.size } := by
  have htot : volume l.balances.toList = l.issued := hl.conserved
  have hsum := foldlM_checkedAdd l.balances.toList 0 (by rw [htot, zero_add]; exact hl.issued_lt)
  obtain ⟨locks, hlocks, hne, hbal⟩ := foldlM_expectLock l l.pendingRewards.toList ∅ (by simp)
    (fun e he => hl.pending e.1 e.2.1 e.2.2 (mem_toList_iff.mp he))
    (fun pk => by
      rw [balanceOf_empty, zero_add, ← pendingFor_eq_posted, ← hl.locks.balanceOf_eq]
      exact (hl.covered pk).trans_lt (hl.balance_lt pk))
  have heq : locks = l.lockedBalances := by
    refine ExtTreeMap.ext_getElem? fun pk => ?_
    have : LocksMatch locks l.pendingRewards :=
      locksMatch_of_balanceOf hne fun pk => by
        rw [hbal, balanceOf_empty, zero_add, pendingFor_eq_posted]
    rw [this pk, hl.locks pk]
  have hle : total l.lockedBalances ≤ l.issued := by
    rw [← hl.conserved]
    exact total_mono hl.covered
  have hlocked := foldlM_addLock l l.lockedBalances.toList 0
    (fun e he => by
      have hget := mem_toList_iff.mp he
      have hcov := hl.covered e.1
      rw [lockedBalance, balanceOf, hget] at hcov
      exact ⟨fun h0 => hl.locks.ne_zero e.1 (by rw [hget, h0]), hcov⟩)
    (by
      rw [zero_add]
      exact hle.trans_lt hl.issued_lt)
  have hsub : checkedSub l.issued (total l.lockedBalances)
      = some (l.issued - total l.lockedBalances) := by rw [checkedSub, if_pos hle]
  rw [zero_add] at hsum hlocked
  rw [htot] at hsum
  change l.lockedBalances.toList.foldlM l.addLock 0 = .ok (total l.lockedBalances) at hlocked
  rw [audit, hsum, ok_bind, ensure_of ⟨rfl, hl.capped⟩, ok_bind, hlocks, ok_bind, heq,
    ensure_of rfl, ok_bind, hlocked, ok_bind, hsub]
  rfl

/-! ## Runs -/

/-- The ledgers that successful blocks reach from a genesis with any rules. -/
inductive Reachable (cr : Crypto) : NativeLedger → Prop
  | genesis {networkId : String} {schedule : EmissionSchedule} {minimumFee rewardMaturity : ℕ}
      {l : NativeLedger} (h : newWithRules networkId schedule minimumFee rewardMaturity = .ok l) :
      Reachable cr l
  | block {l l' : NativeLedger} {height : ℕ} {rewardPk : String}
      {transfers : List SignedEnvelope} (hl : Reachable cr l)
      (h : l.applyBlock cr height rewardPk transfers = .ok l') : Reachable cr l'

theorem Reachable.consistent (h : Reachable cr l) : Consistent l := by
  induction h with
  | genesis h => exact consistent_newWithRules h
  | block _ h ih =>
    obtain ⟨fs, l₁, l₂, e, hb⟩ := applyBlock_eq_ok h
    exact hb.consistent ih

/-- **Conservation and exact locks.**  In every ledger that blocks can reach, with any rules and any
transfers, the balances add up to what was issued, which the supply bounds; a lock is nonzero, is
the sum of the pending rewards of its key and is covered by its balance; a pending reward unlocks
within the maturity distance; and so the audit passes. -/
theorem reachable_audit {cr : Crypto} {l : NativeLedger} (h : Reachable cr l) :
    total l.balances = l.issued ∧ l.issued ≤ l.schedule.totalSupply ∧
    (∀ pk locked, l.lockedBalances[pk]? = some locked →
      locked ≠ 0 ∧ locked = pendingFor l.pendingRewards pk ∧ locked ≤ l.balance pk) ∧
    (∀ pk, l.lockedBalance pk = pendingFor l.pendingRewards pk ∧
      l.lockedBalance pk ≤ l.balance pk) ∧
    (∀ u reward, l.pendingRewards[u]? = some reward →
      l.height < u ∧ u ≤ l.height + l.rewardMaturity) ∧
    ∃ report, l.audit = .ok report := by
  have hl := h.consistent
  refine ⟨hl.conserved, hl.capped, fun pk locked hpk => ?_, fun pk => ⟨?_, hl.covered pk⟩,
    fun u reward hu => ?_, ⟨_, audit_of_consistent hl⟩⟩
  · have hbal : l.lockedBalance pk = locked := by rw [lockedBalance, balanceOf, hpk]; rfl
    refine ⟨fun h0 => hl.locks.ne_zero pk (by rw [hpk, h0]), ?_, hbal ▸ hl.covered pk⟩
    rw [← hbal, lockedBalance, hl.locks.balanceOf_eq]
  · exact hl.locks.balanceOf_eq pk
  · obtain ⟨hlt, hle, -⟩ := hl.pending u reward.1 reward.2 hu
    exact ⟨hlt, hle⟩

/-! A small run: the owner mines two blocks, and spends the first reward in the second. -/

def exampleOwner : String := Hex32.toHex 1

def exampleFriend : String := Hex32.toHex 2

def exampleSchedule : EmissionSchedule where
  totalSupply := 250
  initialReward := 100
  halvingEpoch := 10
  supply_ne := by decide
  supply_lt := by decide
  reward_ne := by decide
  reward_lt := by decide
  epoch_ne := by decide

/-- The owner pays thirty to the friend and a fee of five to the producer. -/
def examplePayment : SignedEnvelope where
  schema := signedEnvelopeSchema
  payload := NativeTransferPayload.toValue
    { schema := nativeTransferSchema, sender := exampleOwner, recipient := exampleFriend
      amount := "30", fee := "5", nonce := "0", validBefore := "9" }
  pk := exampleOwner
  signature := String.ofList (List.replicate 128 '0')
  networkId := some "example-net"

def exampleRun : Except NativeLedgerError NativeLedger := do
  let l ← newWithRules "example-net" exampleSchedule 1 1
  let l ← l.applyBlock .permissive 1 exampleOwner []
  l.applyBlock .permissive 2 exampleOwner [examplePayment]

theorem reachable_audit_two_blocks : ∃ l, exampleRun = .ok l ∧ l.balance exampleFriend = 30 ∧
    l.lockedBalance exampleOwner = 100 ∧ total l.balances = l.issued ∧
    ∃ report, l.audit = .ok report := by
  have hval : (exampleRun.map fun l => (l.balance exampleFriend, l.lockedBalance exampleOwner))
      = .ok (30, 100) := by decide +kernel
  cases hrun : exampleRun with
  | error e => simp [hrun, Except.map] at hval
  | ok l =>
    obtain ⟨hfriend, hlocked⟩ : l.balance exampleFriend = 30 ∧
        l.lockedBalance exampleOwner = 100 := by
      simpa [hrun, Except.map] using hval
    have hreach : Reachable .permissive l := by
      simp only [exampleRun, bind_eq_ok] at hrun
      obtain ⟨l₀, h₀, l₁, h₁, h₂⟩ := hrun
      exact .block (.block (.genesis h₀) h₁) h₂
    obtain ⟨hcons, -, -, -, -, haudit⟩ := reachable_audit hreach
    exact ⟨l, rfl, hfriend, hlocked, hcons, haudit⟩

end NativeLedger

end Native
