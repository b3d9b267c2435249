import Boole.Native.Spending

/-!
# Native/PendingView — what the queue reserves, the next block can hold

The pending view runs transfers one after the other as the next block would, except that no
producer collects their fees.  **A list of transfers that the view takes in order is accepted as a
block, whoever produces it** (`applyBlock_of_pushes`): the block's ledger stays at least as rich as
the view (`Richer`), and no sum overflows because all the money there is fits in an amount.
-/

open Std Library

namespace Native

open NativePendingView

variable {l : NativeLedger} {cr : Crypto} {e : SignedEnvelope} {v v' : NativePendingView}
  {es : List SignedEnvelope}

namespace NativeLedger

/-! ## Preparing transfers -/

theorem stageCredit_ok {s : ExtTreeMap String ℕ} {pk : String} {amount : ℕ}
    (h : total (overlay l.balances s) + amount < 2 ^ 128) :
    ∃ s', l.stageCredit s pk amount = .ok s' := by
  unfold stageCredit
  split
  · have hle := balanceOf_le_total (overlay l.balances s) pk
    rw [balanceOf_overlay] at hle
    have hlt : (s[pk]?).getD (l.balance pk) + amount < 2 ^ 128 := by
      rw [balance]
      omega
    rw [checkedAdd, if_pos hlt]
    exact ⟨_, rfl⟩
  · exact ⟨_, rfl⟩

/-- **A transfer that passes its checks can be prepared** while all the money there is fits in an
amount. -/
theorem prepareTransfer_ok {height : ℕ} {rewardPk : Option String} {f : NativeTransferFields}
    (hvalid : validateNativeTransfer cr e l.networkId l.minimumFee = .ok f)
    (hexp : height ≤ f.validBefore) (hnonce : f.nonce = l.nextNonce f.sender)
    (hnonce_lt : f.nonce + 1 < 2 ^ 64) (hcov : f.amount + f.fee ≤ l.spendableBalance f.sender)
    (htotal : total l.balances < 2 ^ 128) :
    ∃ p, l.prepareTransfer cr height rewardPk e = .ok p := by
  have hbal : f.amount + f.fee ≤ l.balance f.sender := hcov.trans (Nat.sub_le _ _)
  have hbook := balanceOf_le_total l.balances f.sender
  have hdebit_lt : f.amount + f.fee < 2 ^ 128 := (hbal.trans hbook).trans_lt htotal
  let s := (∅ : ExtTreeMap String ℕ).insert f.sender (l.balance f.sender - (f.amount + f.fee))
  have hdebit : Posts [(f.sender, f.amount + f.fee)] [] l.balances (overlay l.balances s) := by
    intro k
    simp only [s, balanceOf_overlay]
    by_cases hk : f.sender = k
    · subst hk
      simpa [balance] using Nat.sub_add_cancel hbal
    · simp [hk]
  have hs := hdebit.total
  simp only [volume_cons] at hs
  obtain ⟨s₁, h₁⟩ : ∃ s₁, l.stageCredit s f.recipient f.amount = .ok s₁ :=
    stageCredit_ok (by omega)
  have hs₁ := (stageCredit_eq_ok h₁).total
  simp only [volume_cons] at hs₁
  obtain ⟨s₂, h₂⟩ : ∃ s₂, l.stageFee s₁ rewardPk f.fee = .ok s₂ := by
    cases rewardPk with
    | none => exact ⟨s₁, rfl⟩
    | some rewardPk => exact stageCredit_ok (by omega)
  refine ⟨⟨s₂, f.sender, f.nonce + 1⟩, ?_⟩
  simp only [prepareTransfer, bind_eq_ok, ensure_eq_ok, okOr_eq_ok, checkedAdd_eq_some,
    checkedSub_eq_some]
  exact ⟨f, hvalid, (), hexp, (), hnonce, _, ⟨hdebit_lt, rfl⟩, (), hcov, _, ⟨hbal, rfl⟩, _,
    ⟨hnonce_lt, rfl⟩, s₁, h₁, s₂, h₂, rfl⟩

/-- A ledger that allows at least what another one does: the same rules, nonces and locks, and no
account with less. -/
structure Richer (l r : NativeLedger) : Prop where
  networkId : r.networkId = l.networkId
  minimumFee : r.minimumFee = l.minimumFee
  nextNonces : r.nextNonces = l.nextNonces
  lockedBalances : r.lockedBalances = l.lockedBalances
  balances : ∀ pk, l.balance pk ≤ r.balance pk

theorem Richer.refl (l : NativeLedger) : Richer l l := ⟨rfl, rfl, rfl, rfl, fun _ => le_rfl⟩

/-- What a view reserves, a richer ledger with a producer can apply, and it stays richer. -/
theorem Richer.transfer {r : NativeLedger} (h : Richer l r) (htotal : total r.balances < 2 ^ 128)
    {height : ℕ} (rewardPk : String) {p : PreparedTransfer}
    (hp : l.prepareTransfer cr height none e = .ok p) :
    ∃ q, r.prepareTransfer cr height (some rewardPk) e = .ok q ∧
      Richer (l.commitTransfer p) (r.commitTransfer q) ∧
      total (r.commitTransfer q).balances = total r.balances := by
  obtain ⟨f, hf⟩ := prepareTransfer_eq_ok hp
  have hcov : f.amount + f.fee ≤ r.spendableBalance f.sender := by
    have := hf.covered
    have := h.balances f.sender
    rw [spendableBalance, lockedBalance] at *
    rw [h.lockedBalances]
    omega
  have hvalid : validateNativeTransfer cr e r.networkId r.minimumFee = .ok f := by
    rw [h.networkId, h.minimumFee, hf.valid]
  have hnonce : f.nonce = r.nextNonce f.sender := by rw [nextNonce, h.nextNonces, hf.nonce]; rfl
  obtain ⟨q, hq⟩ : ∃ q, r.prepareTransfer cr height (some rewardPk) e = .ok q :=
    prepareTransfer_ok hvalid hf.unexpired hnonce hf.nonce_lt hcov htotal
  obtain ⟨f', hf'⟩ := prepareTransfer_eq_ok hq
  obtain rfl : f = f' := Except.ok.inj (hvalid.symm.trans hf'.valid)
  refine ⟨q, hq, ⟨h.networkId, h.minimumFee, ?_, h.lockedBalances, fun pk => ?_⟩, ?_⟩
  · simp only [commitTransfer, h.nextNonces, hf.sender, hf'.sender, hf.nextNonce, hf'.nextNonce]
  · have hl := hf.posts pk
    have hr := hf'.posts pk
    have hle := h.balances pk
    simp only [transferCredits, Option.map_none, Option.toList_none, posted_cons,
      posted_nil] at hl hr
    simp only [balance, commitTransfer] at *
    omega
  · have hr := hf'.posts.total
    simp only [transferCredits, Option.map_some, Option.toList_some, volume_cons] at hr
    simp only [commitTransfer]
    omega

end NativeLedger

open NativeLedger

theorem NativePendingView.push_eq_ok (h : v.push cr e = .ok v') :
    ∃ p, v.ledger.prepareTransfer cr v.height none e = .ok p ∧
      v' = { v with ledger := v.ledger.commitTransfer p } := by
  simp only [push, bind_eq_ok, pure_eq_ok] at h
  obtain ⟨p, hp, rfl⟩ := h
  exact ⟨p, hp, rfl⟩

theorem applyTransfers_of_pushes (hpush : es.foldlM (push cr) v = .ok v')
    {r : NativeLedger} (hr : Richer v.ledger r) (htotal : total r.balances < 2 ^ 128)
    (rewardPk : String) (undo : NativeLedgerUndo) :
    ∃ r' undo', es.foldlM (applyTransfer cr v.height rewardPk) (r, undo) = .ok (r', undo') := by
  induction es generalizing v r undo with
  | nil => exact ⟨r, undo, rfl⟩
  | cons e es ih =>
    obtain ⟨v₁, hv₁, hrest⟩ := bind_eq_ok.mp hpush
    obtain ⟨p, hp, rfl⟩ := push_eq_ok hv₁
    obtain ⟨q, hq, hricher, htotal'⟩ := hr.transfer htotal rewardPk hp
    obtain ⟨r', undo', hfold⟩ := ih hrest hricher (by rw [htotal']; exact htotal)
      ((q.balances.keys.foldl (fun undo pk => undo.balance r pk) undo).nextNonce r q.sender)
    refine ⟨r', undo', ?_⟩
    rw [List.foldlM_cons, applyTransfer, hq]
    exact hfold

namespace NativeLedger

/-! ## Blocks -/

theorem emission_ok {sch : EmissionSchedule} (height : ℕ) {issued : ℕ}
    (h : issued ≤ sch.totalSupply) :
    ∃ e, sch.emission height issued = .ok e := by
  rw [EmissionSchedule.emission, checkedSub, if_pos h]
  exact ⟨_, rfl⟩

/-- The reward of a block unlocks at a height that exists, if one is computed. -/
def UnlockFits (l : NativeLedger) (height : ℕ) : Prop :=
  ∀ e, l.schedule.emission height l.issued = .ok e → e ≠ 0 ∧ l.rewardMaturity ≠ 0 →
    height + l.rewardMaturity < 2 ^ 64

/-- The issuance of a block fits: it is capped by the supply. -/
theorem applyEmission_ok (height : ℕ) (htotal : total l.balances = l.issued)
    (hcap : l.issued ≤ l.schedule.totalSupply) (hcov : ∀ pk, l.lockedBalance pk ≤ l.balance pk)
    (hheight : l.UnlockFits height) (rewardPk : String) (undo : NativeLedgerUndo) :
    ∃ r, l.applyEmission height rewardPk undo = .ok r := by
  obtain ⟨e, he⟩ := emission_ok height hcap
  have hsum := emission_eq_ok he
  have hsupply := l.schedule.supply_lt
  have hbal := balanceOf_le_total l.balances rewardPk
  have hlock := hcov rewardPk
  have hbal_lt : l.balance rewardPk + e < 2 ^ 128 := by
    rw [balance]
    omega
  obtain ⟨l₁, h₁⟩ : ∃ l₁, l.credit rewardPk e = .ok l₁ := by
    unfold credit
    split
    · rw [checkedAdd, if_pos hbal_lt]
      exact ⟨_, rfl⟩
    · exact ⟨_, rfl⟩
  have hframe := (credit_eq_ok h₁).2
  have hlocked : l₁.lockedBalance rewardPk = l.lockedBalance rewardPk := by
    rw [hframe]
    rfl
  have hmat : l₁.rewardMaturity = l.rewardMaturity := by rw [hframe]
  obtain ⟨l₂, undo₂, h₂, hissued⟩ : ∃ l₂ undo₂, l₁.lockEmission height rewardPk e
      (if e ≠ 0 then undo.balance l rewardPk else undo) = .ok (l₂, undo₂) ∧
      l₂.issued = l.issued := by
    unfold lockEmission
    split
    · rename_i hlock
      rw [hmat] at hlock
      have hfits := hheight e he hlock
      rw [checkedAdd, if_pos (by omega), okOr_some, checkedAdd, if_pos (by omega)]
      exact ⟨_, _, rfl, by rw [hframe]⟩
    · exact ⟨_, _, rfl, by rw [hframe]⟩
  rw [applyEmission, he, ok_bind, h₁, ok_bind, h₂, ok_bind]
  simp only [hissued]
  rw [checkedAdd, if_pos (by omega)]
  exact ⟨_, rfl⟩

theorem pendingView_eq_ok (h : l.pendingView = .ok v) :
    v.height = l.height + 1 ∧ l.height + 1 < 2 ^ 64 ∧
      l.unlockRewards (l.height + 1) = .ok v.ledger := by
  simp only [pendingView, bind_eq_ok, okOr_eq_ok, checkedAdd_eq_some, pure_eq_ok] at h
  obtain ⟨_, ⟨hlt, rfl⟩, l₁, hl₁, rfl⟩ := h
  exact ⟨rfl, hlt, hl₁⟩

/-- A consistent ledger has a pending view. -/
theorem Consistent.pendingView (hl : Consistent l) (hlt : l.height + 1 < 2 ^ 64) :
    ∃ v, l.pendingView = .ok v := by
  obtain ⟨l₁, hl₁, -⟩ := unlockRewards_ok (l.height + 1) hl.locks
  rw [NativeLedger.pendingView, checkedAdd, if_pos hlt, okOr_some, ok_bind, hl₁]
  exact ⟨_, rfl⟩

/-- **What the pending view takes in order is accepted as the next block.** -/
theorem prepareBlock_of_pushes (hl : Consistent l) (hfits : l.UnlockFits (l.height + 1))
    (hv : l.pendingView = .ok v) (hpush : es.foldlM (push cr) v = .ok v')
    {rewardPk : String} {k : Hex32} (hk : Hex32.fromHex rewardPk = .ok k) :
    ∃ r, l.prepareBlock cr (l.height + 1) rewardPk es = .ok r := by
  obtain ⟨hheight, hlt, hunlock⟩ := pendingView_eq_ok hv
  have hunlocked := unlockRewards_eq_ok hunlock
  obtain ⟨l₁, hl₁, hlocks⟩ := unlockRewards_ok (l.height + 1) hl.locks
  obtain rfl : v.ledger = l₁ := Except.ok.inj (hunlock.symm.trans hl₁)
  have hrules : v.ledger.balances = l.balances ∧ v.ledger.issued = l.issued ∧
      v.ledger.schedule = l.schedule ∧ v.ledger.rewardMaturity = l.rewardMaturity := by
    rw [hunlocked.frame]
    exact ⟨rfl, rfl, rfl, rfl⟩
  obtain ⟨hbal, hissued, hsched, hmat⟩ := hrules
  have hconserved : total v.ledger.balances = v.ledger.issued := by
    rw [hbal, hissued, hl.conserved]
  have hcov : ∀ pk, v.ledger.lockedBalance pk ≤ v.ledger.balance pk := fun pk => by
    refine (hunlocked.lockedBalance_le hl.locks hlocks pk).trans ?_
    rw [balance, hbal]
    exact hl.covered pk
  obtain ⟨l₂, undo₂, hfold⟩ := applyTransfers_of_pushes hpush (Richer.refl v.ledger)
    (by rw [hconserved, hissued]; exact hl.issued_lt) rewardPk
    ((NativeLedgerUndo.new l).matured l (l.height + 1))
  obtain ⟨fs, hrun⟩ := transferRun_of_foldlM hfold
  -- the transfers moved money, and the rules did not change
  have hrules₂ : l₂.issued = l.issued ∧ l₂.schedule = l.schedule ∧
      l₂.rewardMaturity = l.rewardMaturity := by
    rw [hrun.frame]
    exact ⟨hissued, hsched, hmat⟩
  obtain ⟨hissued₂, hsched₂, hmat₂⟩ := hrules₂
  have htotal₂ : total l₂.balances = l₂.issued := by
    have := hrun.posts.total
    rw [volume_credits] at this
    omega
  have hfits₂ : l₂.UnlockFits (l.height + 1) := by
    rw [UnlockFits, hissued₂, hsched₂, hmat₂]
    exact hfits
  obtain ⟨r, hr⟩ := applyEmission_ok (l.height + 1) htotal₂
    (by rw [hissued₂, hsched₂]; exact hl.capped) (hrun.covered hcov) hfits₂ rewardPk undo₂
  refine ⟨r, ?_⟩
  rw [hheight] at hfold
  simp only [prepareBlock, applyBlockInner, bind_eq_ok, okOr_eq_ok, checkedAdd_eq_some,
    ensure_eq_ok, checkPublicKey, mapErr_eq_ok]
  exact ⟨_, ⟨hlt, rfl⟩, (), rfl, k, hk, v.ledger, hunlock, (l₂, undo₂), hfold, hr⟩

theorem applyBlock_of_pushes (hl : Consistent l) (hlt : l.height + 1 + l.rewardMaturity < 2 ^ 64)
    (hv : l.pendingView = .ok v) (hpush : es.foldlM (push cr) v = .ok v')
    {rewardPk : String} {k : Hex32} (hk : Hex32.fromHex rewardPk = .ok k) :
    ∃ l', l.applyBlock cr (l.height + 1) rewardPk es = .ok l' := by
  obtain ⟨r, hr⟩ := prepareBlock_of_pushes hl (fun _ _ _ => hlt) hv hpush hk
  exact ⟨r.1, by rw [applyBlock, hr]; rfl⟩

/-- **The pending view is sound.**  Transfers that the pending view of a reachable ledger takes one by
one make a block, whatever valid key it rewards, unless its reward would unlock at a height that does
not exist. -/
theorem reachable_prepareBlock {cr : Crypto} {l : NativeLedger} (h : Reachable cr l)
    {v v' : NativePendingView} (hv : l.pendingView = .ok v) {es : List SignedEnvelope}
    (hpush : es.foldlM (NativePendingView.push cr) v = .ok v')
    (hfits : l.UnlockFits (l.height + 1)) {rewardPk : String} {k : Hex32}
    (hk : Hex32.fromHex rewardPk = .ok k) :
    ∃ r, l.prepareBlock cr (l.height + 1) rewardPk es = .ok r :=
  prepareBlock_of_pushes h.consistent hfits hv hpush hk

/-- The owner mines a block and pays; the friend, who is paid, also produces the next block. -/
theorem reachable_prepareBlock_payment : ∃ l v v' r,
    Reachable .permissive l ∧ l.pendingView = .ok v ∧
    [examplePayment].foldlM (NativePendingView.push .permissive) v = .ok v' ∧
    l.prepareBlock .permissive (l.height + 1) exampleFriend [examplePayment] = .ok r := by
  have hval : (do
      let l ← newWithRules "example-net" exampleSchedule 1 1
      let l ← l.applyBlock .permissive 1 exampleOwner []
      let v ← l.pendingView
      let _ ← [examplePayment].foldlM (NativePendingView.push .permissive) v
      pure (decide (l.height = 1 ∧ l.rewardMaturity = 1))) = .ok true := by decide +kernel
  simp only [bind_eq_ok, pure_eq_ok] at hval
  obtain ⟨l₀, h₀, l, hl, v, hv, v', hv', hrules⟩ := hval
  obtain ⟨hheight, hmat⟩ := of_decide_eq_true hrules
  have hreach : Reachable .permissive l := .block (.genesis h₀) hl
  have hkey : Hex32.fromHex exampleFriend = .ok 2 := by decide +kernel
  obtain ⟨r, hr⟩ := reachable_prepareBlock hreach hv hv' (fun _ _ _ => by rw [hheight, hmat]; decide) hkey
  exact ⟨l, v, v', r, hreach, hv, hv', hr⟩

end NativeLedger

end Native
