import Boole.Derivation.Deposits
import Boole.Derivation.Rewards

/-!
# Derivation/Capacity — what a step applies and pays fits in its deposits

The fuel clock lets a height apply at most `q_max * v_per_deposit` records, and their numbers follow
one another, so they fill at most `q_max` deposits.  The format of a deposit has **two bytes for the
number of its records and one for the number of deposits**, and no check at start-up keeps
`v_per_deposit` and `q_max` within these; where they are, every deposit can be written.
-/

open Std Library Relation

namespace Derivation

/-! ## The records of a height -/

section Height

variable {cr : Crypto} {c : Config} {p : M3Config} {cap h start : ℕ} {mix : Hash} {forks : ForkTable}

/-- The clock has counted the records that were applied since the cursor stood at `start`. -/
def Counted (cap h start : ℕ) (x : Draft × ℕ) : Prop :=
  ∃ m, x.1.m3 = some m ∧ (x.2 = start ∨
    m.clock.due = h ∧ x.2 ≤ start + m.clock.count ∧ m.clock.count ≤ cap)

theorem JudgeStep.counted {x x' : Draft × ℕ} (hj : JudgeStep cr c p cap h mix forks x x')
    (hx : Counted cap h start x) : Counted cap h start x' := by
  obtain ⟨m, hm, hcount⟩ := hx
  cases hj with
  | ties => exact ⟨m, hm, hcount⟩
  | apply hj =>
    obtain rfl := Option.mem_unique hm hj.m3
    obtain ⟨m', hm', -, -, hclock⟩ := hj.applies.queue
    refine ⟨m', hm', .inr ?_⟩
    have hpush := FuelClock.push_eq_ok hj.push
    have hcap := hpush.cap_ne
    rw [hclock]
    refine ⟨hpush.due_eq, ?_⟩
    rcases hpush.count with ⟨-, hlt, hnext⟩ | ⟨hlate, hnext⟩ <;> rw [hnext] <;> omega
  | advance hm' =>
    obtain rfl := Option.mem_unique hm hm'
    exact ⟨_, rfl, hcount⟩

variable {s : State} {i : StepInput} {st : Step} {g : Stages}

/-- **A height applies at most as many records as the clock allows.** -/
theorem Folds.length_verdicts (hf : Folds cr c s i st g) :
    st.verdicts.length ≤ c.qMax * c.vPerDeposit := by
  obtain ⟨p, m₀, cap, later, mid, acc, m', hdue⟩ := Draft.applyDue_eq_ok hf.due
  obtain ⟨m, hm, hnext⟩ := hf.cursor_activated
  obtain rfl := Option.mem_unique hm hdue.m3
  obtain ⟨p', cap', -, hcap', hjudging⟩ := hf.judging
  obtain ⟨-, hcap⟩ := checkedMul_eq_some.mp hcap'
  have hcounted : Counted cap' i.l1.number s.cursor (g.judged, g.judged.cursor) :=
    steps_invariant (Counted cap' i.l1.number s.cursor) (fun _ _ hx hj => hj.counted hx) hjudging
      ⟨m, hm, .inl rfl⟩
  obtain ⟨m₁, hm₁, hcount⟩ := hcounted
  have hcursor : g.judged.cursor = s.cursor + st.verdicts.length := by
    rw [hdue.result, ← hnext]
    rfl
  omega

/-- The records that a step applies belong to the jobs from the cursor on. -/
theorem Folds.verdict (hf : Folds cr c s i st g) (hnum : ∀ m, s.m3 = some m → Numbered m) {j : ℕ}
    {v : IndexedVerdict} (hv : st.verdicts[j]? = some v) :
    v.queueIndex.toNat = s.cursor + j ∧ ReasonValid v.record.outcome v.record.reason := by
  obtain ⟨p, m₀, cap, later, mid, acc, m', hdue⟩ := Draft.applyDue_eq_ok hf.due
  obtain ⟨m, hm, hnext⟩ := hf.cursor_activated
  obtain ⟨m₁, hm₁, hjobs⟩ := hf.numbered_activated hnum
  obtain rfl := Option.mem_unique hm hm₁
  have hlt : j < st.verdicts.length := (List.getElem?_eq_some_iff.mp hv).1
  have hsplit : st.verdicts = st.verdicts.take j ++ v :: st.verdicts.drop (j + 1) := by
    rw [← (List.getElem?_eq_some_iff.mp hv).2, List.getElem_cons_drop, List.take_append_drop]
  have hs := hdue.splits
  rw [hsplit] at hs
  obtain ⟨mid₁, m₂, job, slot, next, hloop, hm₂, hchecked, -⟩ := hs.due
  obtain ⟨m₃, hm₃, hqueue, hnext₃⟩ := Draft.examine_foldlM_queue hloop hm
  obtain rfl := Option.mem_unique hm₂ hm₃
  refine ⟨?_, hchecked.reason⟩
  have hplace := hchecked.queued
  rw [hqueue] at hplace
  rw [hchecked.index, hjobs _ job hplace, hnext₃, hnext, List.length_take, Nat.min_eq_left hlt.le,
    Nat.zero_add]

end Height

/-! ## Deposits -/

section Deposits

variable {cr : Crypto} {c : Config} {p : M3Config} {l1 : L1Block} {gas : ℕ}

/-- A block hash of 32 bytes is a text that can be read. -/
theorem hexDecode_hash (hhash : l1.hashBytes.length = 32) :
    (strip0x l1.hash).bind hexDecode = some l1.hashBytes := by
  rw [L1Block.hashBytes] at hhash ⊢
  cases h0x : strip0x l1.hash with
  | none =>
    rw [h0x] at hhash
    exact absurd hhash (by decide)
  | some digits =>
    rw [h0x, Option.getD_some] at hhash
    rw [Option.bind_some, Option.getD_some]
    cases hbytes : hexDecode digits with
    | none =>
      rw [hbytes] at hhash
      exact absurd hhash (by decide)
    | some b => rfl

theorem exists_deposit (hhash : l1.hashBytes.length = 32) (domain : String) (index : ℕ)
    (target : Address) (amount gas : ℕ) (data : Bytes) :
    ∃ text, deposit cr domain l1 index target amount gas data = .ok text := by
  obtain ⟨sender, hsender⟩ : ∃ b, (strip0x depositor).bind hexDecode = some b :=
    Option.isSome_iff_exists.mp (by decide +kernel)
  simp only [deposit, hexBytes, hexDecode_hash hhash, hsender, okOr_some, mapErr, ok_bind,
    ensure_of hhash]
  exact ⟨_, rfl⟩

theorem mem_of_mem_chunks {α : Type} {n : ℕ} {l batch : List α} (hbatch : batch ∈ chunks n l) {x : α}
    (hx : x ∈ batch) : x ∈ l := by
  obtain ⟨j, -, rfl⟩ := List.mem_map.mp hbatch
  exact List.mem_of_mem_drop (List.mem_of_mem_take hx)

theorem exists_verdictDeposits {records : List IndexedVerdict} {start : ℕ} (hp : c.m3 = some p)
    (hhash : l1.hashBytes.length = 32) (hper : c.vPerDeposit ≤ 65535) (hqmax : c.qMax ≤ 255)
    (hlen : records.length ≤ c.qMax * c.vPerDeposit)
    (hrecords : ∀ (j : ℕ) (v : IndexedVerdict), records[j]? = some v →
      v.queueIndex.toNat = start + j ∧ ReasonValid v.record.outcome v.record.reason) :
    ∃ texts, verdictDeposits cr c l1 records = .ok texts := by
  have hp' : okOr c.m3 Error.profileRequired = .ok p := by rw [hp, okOr_some]
  cases records with
  | nil => exact ⟨[], by simp only [verdictDeposits, hp', ok_bind]; rfl⟩
  | cons first rest =>
    have hpos : c.vPerDeposit ≠ 0 := by
      intro hzero
      rw [hzero, Nat.mul_zero] at hlen
      simp at hlen
    have hcount : ((first :: rest).length + c.vPerDeposit - 1) / c.vPerDeposit ≤ c.qMax := by
      rw [Nat.div_le_iff_le_mul_add_pred (Nat.pos_of_ne_zero hpos), Nat.mul_comm]
      omega
    have hfirst : first.queueIndex.toNat = start := (hrecords 0 first rfl).1
    have hindices : ∀ x ∈ (first :: rest).zipIdx,
        checkedAdd 64 first.queueIndex.toNat x.2 = some x.1.queueIndex.toNat := by
      intro x hx
      have hx := (hrecords x.2 x.1 (List.mem_zipIdx_iff_getElem?.mp hx)).1
      rw [hfirst, hx, checkedAdd_eq_some]
      exact ⟨hx ▸ x.1.queueIndex.toNat_lt, rfl⟩
    simp only [verdictDeposits, hp', ok_bind,
      ensure_of (show c.vPerDeposit ≠ 0 ∧ c.vPerDeposit ≤ 2 ^ 16 - 1 from ⟨hpos, hper⟩),
      ensure_of (show ((first :: rest).length + c.vPerDeposit - 1) / c.vPerDeposit ≤ c.qMax ∧
        ((first :: rest).length + c.vPerDeposit - 1) / c.vPerDeposit ≤ 2 ^ 8 - 1 from
        ⟨hcount, hcount.trans hqmax⟩), ensure_of hindices]
    refine exists_mapM_eq_ok fun batch hbatch => ?_
    obtain ⟨encoded, hencoded⟩ : ∃ encoded, batch.1.mapM (fun v => v.record.encode) = .ok encoded := by
      refine exists_mapM_eq_ok fun v hv => ⟨v.record.bytes, ?_⟩
      obtain ⟨j, hj⟩ := List.mem_iff_getElem?.mp (mem_of_mem_chunks (List.fst_mem_of_mem_zipIdx hbatch) hv)
      rw [VerdictRecord.encode, validateReason, ensure_of (hrecords j v hj).2]
      rfl
    simp only [verdictDeposit, hencoded]
    exact exists_deposit hhash _ _ _ _ _ _

theorem exists_rewardDeposit {payment : RewardPayment} (hp : c.m3 = some p)
    (hhash : l1.hashBytes.length = 32) (hmint : p.mintEnabled = true) (hamount : payment.amount ≠ 0) :
    ∃ text, rewardDeposit cr c l1 payment = .ok text := by
  simp only [rewardDeposit, hp, okOr_some, ok_bind,
    ensure_of (show p.mintEnabled ∧ payment.amount ≠ 0 from ⟨hmint, hamount⟩)]
  exact exists_deposit hhash _ _ _ _ _ _

/-- **The deposits of a step can be written** when the numbers of records and of deposits fit the
bytes that the format has for them. -/
theorem Reached.deposits_fit {run : List (StepInput × Step)} {s : State}
    (hr : Reached cr c gas Free run s) (hper : c.vPerDeposit ≤ 65535) (hqmax : c.qMax ≤ 255)
    {i : StepInput} {st : Step} (hst : s.fold cr c i = .ok st) (hhash : i.l1.hashBytes.length = 32) :
    (∃ texts, verdictDeposits cr c i.l1 st.verdicts = .ok texts) ∧
      ∀ pay ∈ st.payments, ∃ text, rewardDeposit cr c i.l1 pay = .ok text := by
  obtain ⟨g, hf⟩ := State.fold_eq_ok hst
  obtain ⟨p, hp⟩ := Option.isSome_iff_exists.mp hf.profile
  refine ⟨exists_verdictDeposits hp hhash hper hqmax hf.length_verdicts
    fun j v hv => hf.verdict hr.numbered hv, fun pay hpay => ?_⟩
  obtain ⟨m, hl⟩ := hr.ledgered hp
  obtain ⟨m', -, -, htables, hsettles⟩ := hf.settles hp hl.tombs hl.m3 hl.tables
  obtain ⟨r, hreward, -, hamount⟩ := hsettles.payments pay hpay
  have hmint : p.mintEnabled = true := by
    by_contra hmint
    have hpaid : pay.rewardId ∈ st.paid := List.mem_map_of_mem hpay
    rw [hsettles.paid, if_neg hmint] at hpaid
    exact nomatch hpaid
  refine exists_rewardDeposit hp hhash hmint fun hzero => ?_
  have hmem := htables.rewards.amount _ r hreward
  rw [hamount, hzero] at hmem
  exact (Config.valid_m3 hf.valid hp).mint hmint hmem

/-- The verdict that makes a solution win is deposited. -/
theorem Reached.deposits_fit_verdict : ∃ run i st s,
    Reached toyCrypto exampleConfig exampleGas Free (run ++ [(i, st)]) s ∧ st.verdicts.length = 1 ∧
    ∃ texts, verdictDeposits toyCrypto exampleConfig i.l1 st.verdicts = .ok texts := by
  obtain ⟨run, i, st, s, hr, hf⟩ := exists_last_of_play toyCrypto exampleConfig exampleGas Free
    Example.winning (fun x => x.2.verdicts.length = 1 ∧ x.1.l1.hashBytes.length = 32)
    (by decide +kernel)
  obtain ⟨hlen, hhash⟩ := decide_eq_true_eq.mp hf
  obtain ⟨s₀, hr₀, -, hst, -⟩ := hr.last
  exact ⟨run, i, st, s, hr, hlen, (hr₀.deposits_fit (by decide) (by decide) hst hhash).1⟩

/-- The example chain with room for 65536 records in a deposit, more than two bytes can count. -/
def wideConfig : Config :=
  { exampleConfig with qMax := 1, vPerDeposit := 65536, verdictGas := 209737160, cCommit := 1 }

/-- **A configuration that passes validation and whose first verdict cannot be deposited.** -/
theorem Reached.deposits_too_wide : ∃ run i st s,
    Reached toyCrypto wideConfig 300000000 Free (run ++ [(i, st)]) s ∧
    i.l1.hashBytes.length = 32 ∧
    verdictDeposits toyCrypto wideConfig i.l1 st.verdicts =
      .error (.format "records per deposit") := by
  obtain ⟨run, i, st, s, hr, hf⟩ := exists_last_of_play toyCrypto wideConfig 300000000 Free
    Example.winning (fun x => x.1.l1.hashBytes.length = 32 ∧
      verdictDeposits toyCrypto wideConfig x.1.l1 x.2.verdicts =
        .error (.format "records per deposit")) (by decide +kernel)
  exact ⟨run, i, st, s, hr, decide_eq_true_eq.mp hf⟩

end Deposits

end Derivation
