import Mathlib.Algebra.BigOperators.Intervals
import Mathlib.Order.Interval.Finset.Nat
import Boole.Native.PendingView

/-!
# Native/Issuance — how much is issued, and when it can be spent

A run of blocks leaves a history: for every block the key it rewards and what it issued.  Two closed
forms follow from it.

* `Minted.issued_eq` — what has been issued is **the sum of the schedule, cut off at the supply**.
* `Minted.lockedBalance_eq` — what is locked for a key is **the sum of its last emissions**, those of
  the blocks that are younger than the maturity distance:

      block    1 ⋯ H−m │ H−m+1 ⋯ H │ H+1
               free    │  locked   │ next
-/

open Std Library

namespace Native

/-! ## The schedule -/

/-- The reward of a height before the supply bounds it. -/
def EmissionSchedule.reward (self : EmissionSchedule) (height : ℕ) : ℕ :=
  if height / self.halvingEpoch < 128 then self.initialReward >>> (height / self.halvingEpoch) else 0

theorem EmissionSchedule.emission_eq_ok_iff {self : EmissionSchedule} {height issued e : ℕ} :
    self.emission height issued = .ok e ↔
      issued ≤ self.totalSupply ∧ e = min (self.reward height) (self.totalSupply - issued) := by
  simp only [EmissionSchedule.emission, bind_eq_ok, okOr_eq_ok, checkedSub_eq_some, pure_eq_ok]
  constructor
  · rintro ⟨_, ⟨hle, rfl⟩, rfl⟩
    exact ⟨hle, rfl⟩
  · rintro ⟨hle, rfl⟩
    exact ⟨_, ⟨hle, rfl⟩, rfl⟩

/-! ## Histories -/

namespace NativeLedger

/-- What a block issued, and to which key. -/
structure Mint where
  rewardPk : String
  amount : ℕ
deriving DecidableEq

/-- **A ledger with the history of its blocks.**  A block that is undone leaves no trace. -/
inductive Minted (cr : Crypto) : List Mint → NativeLedger → Prop
  | genesis {networkId : String} {schedule : EmissionSchedule} {minimumFee rewardMaturity : ℕ} {l : NativeLedger}
      (h : newWithRules networkId schedule minimumFee rewardMaturity = .ok l) : Minted cr [] l
  | block {ms : List Mint} {l l' : NativeLedger} {height e : ℕ} {rewardPk : String} {es : List SignedEnvelope}
      (hl : Minted cr ms l) (he : l.schedule.emission height l.issued = .ok e)
      (h : l.applyBlock cr height rewardPk es = .ok l') : Minted cr (ms ++ [⟨rewardPk, e⟩]) l'
  | undo {ms : List Mint} {l l' l'' : NativeLedger} {height : ℕ} {rewardPk : String} {es : List SignedEnvelope}
      {undo : NativeLedgerUndo} (hl : Minted cr ms l) (h : l.prepareBlock cr height rewardPk es = .ok (l', undo))
      (hu : l'.undoBlock undo = .ok l'') : Minted cr ms l''

variable {cr : Crypto} {ms : List Mint} {l l' : NativeLedger}

/-- Undoing adds no ledgers. -/
theorem Minted.reachable (h : Minted cr ms l) : Reachable cr l := by
  induction h with
  | genesis h => exact .genesis h
  | block _ _ h ih => exact .block ih h
  | undo _ h hu ih =>
    rw [undoBlock_prepareBlock h] at hu
    exact Except.ok.inj hu ▸ ih

/-- An invariant of histories that every block keeps. -/
theorem Minted.invariant {Q : List Mint → NativeLedger → Prop}
    (hnew : ∀ {networkId schedule minimumFee rewardMaturity l},
      newWithRules networkId schedule minimumFee rewardMaturity = .ok l → Q [] l)
    (hblock : ∀ {ms : List Mint} {l l₁ l₂ l' : NativeLedger} {height e : ℕ} {rewardPk : String}
      {es : List SignedEnvelope} {fs : List NativeTransferFields}, Consistent l →
      BlockApplied cr l height rewardPk es fs l₁ l₂ l' e → Q ms l → Q (ms ++ [⟨rewardPk, e⟩]) l')
    (h : Minted cr ms l) : Q ms l := by
  induction h with
  | genesis h => exact hnew h
  | @block ms l l' height e rewardPk es hl he h ih =>
    obtain ⟨fs, l₁, l₂, e', hb⟩ := applyBlock_eq_ok h
    have he' := hb.emits.emission
    rw [hb.frame] at he'
    obtain rfl := Except.ok.inj (he.symm.trans he')
    exact hblock hl.reachable.consistent hb ih
  | undo _ h hu ih =>
    rw [undoBlock_prepareBlock h] at hu
    exact Except.ok.inj hu ▸ ih

/-! ## Issuance -/

/-- **What has been issued is the sum of the schedule, cut off at the supply.** -/
theorem Minted.issued_eq (h : Minted cr ms l) :
    l.issued = min l.schedule.totalSupply (∑ n ∈ Finset.Icc 1 l.height, l.schedule.reward n) := by
  refine h.invariant (Q := fun _ l =>
    l.issued = min l.schedule.totalSupply (∑ n ∈ Finset.Icc 1 l.height, l.schedule.reward n)) ?_ ?_
  · intro networkId schedule minimumFee rewardMaturity l h
    simp only [newWithRules, bind_eq_ok, pure_eq_ok] at h
    obtain ⟨_, -, rfl⟩ := h
    simp
  · intro ms l l₁ l₂ l' height e rewardPk es fs hl hb ih
    obtain ⟨-, hsched, -, -, hheight⟩ := hb.rules
    have hemits := hb.emits.emission
    have hissued : l'.issued = l₂.issued + e := by rw [hb.emits.frame]
    rw [hb.frame] at hemits hissued
    dsimp only at hemits hissued
    rw [EmissionSchedule.emission_eq_ok_iff, hb.height_eq] at hemits
    obtain ⟨hle, rfl⟩ := hemits
    rw [hsched, hheight, Finset.sum_Icc_succ_top (by omega)]
    omega

/-- Before the issuance of a block the accounting is as the block before left it. -/
theorem Consistent.transfers {l₁ : NativeLedger} {height : ℕ} {rewardPk : String} {es : List SignedEnvelope}
    {fs : List NativeTransferFields} (hl : Consistent l) (hunlock : l.unlockRewards height = .ok l₁)
    (hrun : TransferRun cr height rewardPk l₁ es fs l') :
    total l'.balances = l.issued ∧ (∀ pk, l'.lockedBalance pk ≤ l'.balance pk) ∧ l'.issued = l.issued ∧
      l'.schedule = l.schedule ∧ l'.rewardMaturity = l.rewardMaturity := by
  have hunlocked := unlockRewards_eq_ok hunlock
  obtain ⟨l₁', hl₁', hlocks⟩ := unlockRewards_ok height hl.locks
  obtain rfl := Except.ok.inj (hunlock.symm.trans hl₁')
  have hrules : l₁.balances = l.balances ∧ l₁.issued = l.issued ∧ l₁.schedule = l.schedule ∧
      l₁.rewardMaturity = l.rewardMaturity := by
    rw [hunlocked.frame]
    exact ⟨rfl, rfl, rfl, rfl⟩
  obtain ⟨hbal, hissued, hsched, hmat⟩ := hrules
  have hcov (pk : String) : l₁.lockedBalance pk ≤ l₁.balance pk := by
    refine (hunlocked.lockedBalance_le hl.locks hlocks pk).trans ?_
    rw [balance, hbal]
    exact hl.covered pk
  have htotal := hrun.posts.total
  rw [volume_credits, hbal, hl.conserved] at htotal
  refine ⟨by omega, hrun.covered hcov, ?_⟩
  rw [hrun.frame]
  exact ⟨hissued, hsched, hmat⟩

/-- **Issuance in closed form.**  What a ledger at height `H` has issued is the sum of the rewards of
the heights `1` to `H`, cut off at the supply.  In the next block, whatever its transfers, the emission
is defined and its additions to the balance, the lock and the issued amount stay in range; so the
issuance of the block succeeds unless its unlock height does not exist. -/
theorem Minted.issued_closed (h : Minted cr ms l) :
    l.issued = min l.schedule.totalSupply (∑ n ∈ Finset.Icc 1 l.height, l.schedule.reward n) ∧
    ∀ (l₁ l₂ : NativeLedger) (rewardPk : String) (es : List SignedEnvelope) (fs : List NativeTransferFields)
      (undo : NativeLedgerUndo), l.unlockRewards (l.height + 1) = .ok l₁ →
      TransferRun cr (l.height + 1) rewardPk l₁ es fs l₂ →
      (∃ e, l₂.schedule.emission (l.height + 1) l₂.issued = .ok e ∧ l₂.balance rewardPk + e < 2 ^ 128 ∧
        l₂.lockedBalance rewardPk + e < 2 ^ 128 ∧ l₂.issued + e < 2 ^ 128) ∧
      (l.UnlockFits (l.height + 1) → ∃ r, l₂.applyEmission (l.height + 1) rewardPk undo = .ok r) := by
  have hl := h.reachable.consistent
  refine ⟨h.issued_eq, fun l₁ l₂ rewardPk es fs undo hunlock hrun => ?_⟩
  obtain ⟨htotal, hcov, hissued, hsched, hmat⟩ := hl.transfers hunlock hrun
  have hcap : l₂.issued ≤ l₂.schedule.totalSupply := by
    rw [hissued, hsched]
    exact hl.capped
  rw [← hissued] at htotal
  refine ⟨?_, fun hfits => ?_⟩
  · obtain ⟨e, he⟩ := emission_ok (l.height + 1) hcap
    have hsum := emission_eq_ok he
    have hsupply := l₂.schedule.supply_lt
    have hbal := balanceOf_le_total l₂.balances rewardPk
    have hlock := hcov rewardPk
    rw [balance] at hlock ⊢
    exact ⟨e, he, by omega, by omega, by omega⟩
  · refine applyEmission_ok _ htotal hcap hcov ?_ rewardPk undo
    rw [UnlockFits, hissued, hsched, hmat]
    exact hfits

theorem Minted.issued_closed_three_blocks : ∃ ms l, Minted .permissive ms l ∧ l.height = 3 ∧
    l.issued = 250 ∧ l.issued = min l.schedule.totalSupply (∑ n ∈ Finset.Icc 1 l.height, l.schedule.reward n) := by
  have hval : (do
      let l₀ ← newWithRules "example-net" exampleSchedule 1 1
      let l₁ ← l₀.applyBlock .permissive 1 exampleOwner []
      let l₂ ← l₁.applyBlock .permissive 2 exampleOwner []
      let l₃ ← l₂.applyBlock .permissive 3 exampleOwner []
      let e₁ ← l₀.schedule.emission 1 l₀.issued
      let e₂ ← l₁.schedule.emission 2 l₁.issued
      let e₃ ← l₂.schedule.emission 3 l₂.issued
      pure (decide (l₃.height = 3 ∧ l₃.issued = 250))) = .ok true := by decide +kernel
  simp only [bind_eq_ok, pure_eq_ok] at hval
  obtain ⟨l₀, h₀, l₁, h₁, l₂, h₂, l₃, h₃, e₁, he₁, e₂, he₂, e₃, he₃, hv⟩ := hval
  obtain ⟨hheight, hissued⟩ := of_decide_eq_true hv
  have hminted : Minted .permissive _ l₃ := .block (.block (.block (.genesis h₀) he₁ h₁) he₂ h₂) he₃ h₃
  exact ⟨_, l₃, hminted, hheight, hissued, hminted.issued_closed.1⟩

/-- The unlock height of the very first reward can overflow. -/
theorem unlockHeight_overflows : ∃ l, newWithRules "example-net" exampleSchedule 1 (2 ^ 64 - 1) = .ok l ∧
    l.applyBlock .permissive 1 exampleOwner [] = .error .overflow := by
  have hval : (do
      let l ← newWithRules "example-net" exampleSchedule 1 (2 ^ 64 - 1)
      pure (decide (l.applyBlock .permissive 1 exampleOwner [] = .error .overflow)) :
        Except NativeLedgerError Bool) = .ok true := by decide +kernel
  simp only [bind_eq_ok, pure_eq_ok] at hval
  obtain ⟨l, hl, hv⟩ := hval
  exact ⟨l, hl, of_decide_eq_true hv⟩

/-! ## Maturity -/

/-- What the block at a height issued to a key. -/
def mintedAt (ms : List Mint) (pk : String) (h : ℕ) : ℕ :=
  ((ms[h - 1]?).filter fun x => x.rewardPk = pk).elim 0 Mint.amount

/-- **The pending rewards are the emissions of the blocks that have not matured.** -/
structure Kept (ms : List Mint) (l : NativeLedger) : Prop where
  length : ms.length = l.height
  pending : ∀ h, 0 < h → h ≤ l.height → l.height < h + l.rewardMaturity →
    l.pendingRewards[h + l.rewardMaturity]? =
      ((ms[h - 1]?).filter fun x => x.amount ≠ 0).map fun x => (x.rewardPk, x.amount)

theorem BlockApplied.kept {l₁ l₂ : NativeLedger} {height e : ℕ} {rewardPk : String} {es : List SignedEnvelope}
    {fs : List NativeTransferFields} (hb : BlockApplied cr l height rewardPk es fs l₁ l₂ l' e)
    (hl : Consistent l) (hk : Kept ms l) : Kept (ms ++ [⟨rewardPk, e⟩]) l' := by
  obtain ⟨-, -, -, hmat, hheight⟩ := hb.rules
  have hfresh := hb.fresh hl
  have hmat₂ : l₂.rewardMaturity = l.rewardMaturity := by rw [hb.frame]
  have hpending₂ : l₂.pendingRewards = unmatured height l.pendingRewards := by rw [hb.frame]
  have hlocks := hb.emits.locks
  have hno := hb.emits.no_locks
  have hnumber := hb.height_eq
  have hlength := hk.length
  rw [hmat₂] at hfresh hlocks hno
  refine ⟨by rw [List.length_append, hk.length, hheight]; rfl, fun h hpos hle hlt => ?_⟩
  rw [hmat] at hlt ⊢
  by_cases hlast : h = height
  · -- the new block's own reward
    subst hlast
    have hentry : (ms ++ [(⟨rewardPk, e⟩ : Mint)])[h - 1]? = some ⟨rewardPk, e⟩ := by
      rw [List.getElem?_append_right (by omega), hlength, hnumber]
      simp
    rw [hentry]
    by_cases he : e = 0
    · rw [(hno fun hlock => hlock.1 he).2, hfresh]
      simp [he]
    · rw [(hlocks ⟨he, by omega⟩).2, getElem?_insert]
      simp [he]
  · -- an older reward, which was pending before
    have hold : (ms ++ [(⟨rewardPk, e⟩ : Mint)])[h - 1]? = ms[h - 1]? :=
      List.getElem?_append_left (by omega)
    rw [hold, ← hk.pending h hpos (by omega) (by omega)]
    have hkept : l₂.pendingRewards[h + l.rewardMaturity]? = l.pendingRewards[h + l.rewardMaturity]? := by
      rw [hpending₂, getElem?_unmatured, if_pos (by omega)]
    by_cases hlock : e ≠ 0 ∧ l.rewardMaturity ≠ 0
    · rw [(hlocks hlock).2, getElem?_insert, if_neg (by omega), hkept]
    · rw [(hno hlock).2, hkept]

theorem Minted.kept (h : Minted cr ms l) : Kept ms l := by
  refine h.invariant ?_ fun hl hb hk => hb.kept hl hk
  intro networkId schedule minimumFee rewardMaturity l h
  simp only [newWithRules, bind_eq_ok, pure_eq_ok] at h
  obtain ⟨_, -, rfl⟩ := h
  exact ⟨rfl, fun h hpos hle => absurd hle (by simpa using hpos.ne')⟩

/-- What is pending above a height are the emissions of the blocks that mature above it. -/
theorem Kept.pendingFor_unmatured (hk : Kept ms l) (hl : Consistent l) {n : ℕ} (hn : l.height ≤ n) (pk : String) :
    pendingFor (unmatured n l.pendingRewards) pk =
      ∑ h ∈ Finset.Ioc (n - l.rewardMaturity) l.height, mintedAt ms pk h := by
  have hkeys : (unmatured n l.pendingRewards).keys.toFinset ⊆
      (Finset.Ioc (n - l.rewardMaturity) l.height).map (addRightEmbedding l.rewardMaturity) := by
    intro u hu
    rw [List.mem_toFinset, mem_keys_iff, getElem?_unmatured] at hu
    split at hu
    · obtain ⟨⟨p, a⟩, hp⟩ := Option.ne_none_iff_exists'.mp hu
      obtain ⟨hlt, hle, hmat, -⟩ := hl.pending u p a hp
      rw [Finset.mem_map]
      refine ⟨u - l.rewardMaturity, Finset.mem_Ioc.mpr ⟨by omega, by omega⟩, ?_⟩
      exact Nat.sub_add_cancel hmat.le
    · exact absurd rfl hu
  rw [pendingFor, sumBy_eq_sum_of_subset _ _ hkeys, Finset.sum_map]
  refine Finset.sum_congr rfl fun h hh => ?_
  obtain ⟨hlo, hhi⟩ := Finset.mem_Ioc.mp hh
  rw [addRightEmbedding_apply, getElem?_unmatured, if_pos (by omega),
    hk.pending h (by omega) hhi (by omega), mintedAt]
  cases ms[h - 1]? with
  | none => rfl
  | some x =>
    by_cases hx : x.amount = 0 <;> by_cases hpk : x.rewardPk = pk <;> simp [Option.filter_some, hx, hpk]

/-- **What is locked for a key is the sum of its last emissions.** -/
theorem Minted.lockedBalance_eq (h : Minted cr ms l) (pk : String) :
    l.lockedBalance pk = ∑ n ∈ Finset.Ioc (l.height - l.rewardMaturity) l.height, mintedAt ms pk n := by
  have hl := h.reachable.consistent
  have hall : unmatured l.height l.pendingRewards = l.pendingRewards := by
    refine ExtTreeMap.ext_getElem? fun u => ?_
    rw [getElem?_unmatured]
    split_ifs with hgt
    · rfl
    · cases hu : l.pendingRewards[u]? with
      | none => rfl
      | some e => exact absurd (hl.pending u e.1 e.2 hu).1 hgt
  rw [lockedBalance, hl.locks.balanceOf_eq, ← hall]
  exact h.kept.pendingFor_unmatured hl le_rfl pk

/-- **Maturity is exact.**  At height `H` the locked balance of a key is the sum of its emissions in
the blocks `h` with `H - m < h ≤ H`.  While the transfers of block `H + 1` run, the emissions of the
blocks with `h + m ≤ H + 1` are free and those of the other blocks are locked: a transfer that passes
its other checks goes through exactly when the sender's balance covers it on top of the latter. -/
theorem Minted.matures (h : Minted cr ms l) :
    (∀ pk, l.lockedBalance pk = ∑ n ∈ Finset.Ioc (l.height - l.rewardMaturity) l.height, mintedAt ms pk n) ∧
    ∀ (l₁ l₂ : NativeLedger) (rewardPk : String) (es : List SignedEnvelope) (fs : List NativeTransferFields),
      l.unlockRewards (l.height + 1) = .ok l₁ → TransferRun cr (l.height + 1) rewardPk l₁ es fs l₂ →
      (∀ pk, l₂.lockedBalance pk =
        ∑ n ∈ (Finset.Icc 1 l.height).filter fun n => l.height + 1 < n + l.rewardMaturity, mintedAt ms pk n) ∧
      ∀ (e : SignedEnvelope) (f : NativeTransferFields),
        validateNativeTransfer cr e l₂.networkId l₂.minimumFee = .ok f → l.height + 1 ≤ f.validBefore →
        f.nonce = l₂.nextNonce f.sender → f.nonce + 1 < 2 ^ 64 →
        ((∃ p, l₂.prepareTransfer cr (l.height + 1) (some rewardPk) e = .ok p) ↔
          f.amount + f.fee + ∑ n ∈ (Finset.Icc 1 l.height).filter fun n => l.height + 1 < n + l.rewardMaturity,
            mintedAt ms f.sender n ≤ l₂.balance f.sender) := by
  have hl := h.reachable.consistent
  refine ⟨h.lockedBalance_eq, fun l₁ l₂ rewardPk es fs hunlock hrun => ?_⟩
  obtain ⟨htotal, hcov, -, -, -⟩ := hl.transfers hunlock hrun
  have hinterval : (Finset.Icc 1 l.height).filter (fun n => l.height + 1 < n + l.rewardMaturity) =
      Finset.Ioc (l.height + 1 - l.rewardMaturity) l.height := by
    ext n
    simp only [Finset.mem_filter, Finset.mem_Icc, Finset.mem_Ioc]
    omega
  have hlocked (pk : String) : l₂.lockedBalance pk =
      ∑ n ∈ (Finset.Icc 1 l.height).filter fun n => l.height + 1 < n + l.rewardMaturity, mintedAt ms pk n := by
    obtain ⟨l₁', hl₁', hlocks⟩ := unlockRewards_ok (l.height + 1) hl.locks
    obtain rfl := Except.ok.inj (hunlock.symm.trans hl₁')
    have hsame : l₂.lockedBalance pk = l₁.lockedBalance pk := by
      rw [hrun.frame]
      rfl
    rw [hsame, lockedBalance, hlocks.balanceOf_eq, (unlockRewards_eq_ok hunlock).pending, hinterval]
    exact h.kept.pendingFor_unmatured hl (Nat.le_succ _) pk
  refine ⟨hlocked, fun e f hvalid hexp hnonce hnonce_lt => ?_⟩
  have hcovered := hcov f.sender
  rw [← hlocked]
  constructor
  · rintro ⟨p, hp⟩
    obtain ⟨f', hf⟩ := prepareTransfer_eq_ok hp
    obtain rfl := Except.ok.inj (hvalid.symm.trans hf.valid)
    have := hf.covered
    rw [spendableBalance] at this
    omega
  · intro hle
    refine prepareTransfer_ok hvalid hexp hnonce hnonce_lt ?_ (htotal ▸ hl.issued_lt)
    rw [spendableBalance]
    omega

theorem Minted.matures_two_blocks : ∃ ms l, Minted .permissive ms l ∧ l.rewardMaturity = 2 ∧ l.height = 3 ∧
    l.lockedBalance exampleOwner = 150 ∧
    l.lockedBalance exampleOwner = ∑ n ∈ Finset.Ioc (3 - 2) 3, mintedAt ms exampleOwner n := by
  have hval : (do
      let l₀ ← newWithRules "example-net" exampleSchedule 1 2
      let l₁ ← l₀.applyBlock .permissive 1 exampleOwner []
      let l₂ ← l₁.applyBlock .permissive 2 exampleOwner []
      let l₃ ← l₂.applyBlock .permissive 3 exampleOwner []
      let e₁ ← l₀.schedule.emission 1 l₀.issued
      let e₂ ← l₁.schedule.emission 2 l₁.issued
      let e₃ ← l₂.schedule.emission 3 l₂.issued
      pure (decide (l₃.rewardMaturity = 2 ∧ l₃.height = 3 ∧ l₃.lockedBalance exampleOwner = 150))) = .ok true := by
    decide +kernel
  simp only [bind_eq_ok, pure_eq_ok] at hval
  obtain ⟨l₀, h₀, l₁, h₁, l₂, h₂, l₃, h₃, e₁, he₁, e₂, he₂, e₃, he₃, hv⟩ := hval
  obtain ⟨hmat, hheight, hlocked⟩ := of_decide_eq_true hv
  have hminted : Minted .permissive _ l₃ := .block (.block (.block (.genesis h₀) he₁ h₁) he₂ h₂) he₃ h₃
  have hsum := hminted.matures.1 exampleOwner
  rw [hmat, hheight] at hsum
  exact ⟨_, l₃, hminted, hmat, hheight, hlocked, hsum⟩

/-- Without a maturity distance a reward is still not there for its own block's transfers: the payment
that block 1 refuses goes through in block 2. -/
theorem own_reward_unspendable : ∃ l l₁ l₂, newWithRules "example-net" exampleSchedule 1 0 = .ok l ∧
    l.applyBlock .permissive 1 exampleOwner [examplePayment] = .error .insufficientBalance ∧
    l.applyBlock .permissive 1 exampleOwner [] = .ok l₁ ∧
    l₁.applyBlock .permissive 2 exampleOwner [examplePayment] = .ok l₂ := by
  have hval : (do
      let l ← newWithRules "example-net" exampleSchedule 1 0
      let l₁ ← l.applyBlock .permissive 1 exampleOwner []
      let _ ← l₁.applyBlock .permissive 2 exampleOwner [examplePayment]
      pure (decide (l.applyBlock .permissive 1 exampleOwner [examplePayment] = .error .insufficientBalance)) :
        Except NativeLedgerError Bool) = .ok true := by decide +kernel
  simp only [bind_eq_ok, pure_eq_ok] at hval
  obtain ⟨l, hl, l₁, h₁, l₂, h₂, hv⟩ := hval
  exact ⟨l, l₁, l₂, hl, of_decide_eq_true hv, h₁, h₂⟩

end NativeLedger

end Native
