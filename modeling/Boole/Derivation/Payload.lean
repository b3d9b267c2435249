import Boole.Library.Fallible
import Boole.Library.Json

/-!
# Derivation/Payload — what an engine may leave out

`boole-devnet-driver`'s `check_payload_transactions`.  The engine that builds a block may drop user
transactions, and nothing else: every deposit of the derivation stands at the front, and what
follows keeps the order.  The check is one greedy scan over the derived transactions.  **Taking the
first match loses nothing** (`scan_isOk`), so the scan accepts exactly the subsequences.
-/

open Library Library.Json
open scoped List

namespace Derivation

variable {expected txs : List String}

/-- A deposit transaction, by its type byte. -/
def IsSystem (tx : String) : Prop := "0x7e".toList <+: tx.toList

instance : DecidablePred IsSystem := fun _ => inferInstanceAs (Decidable (_ <+: _))

/-- What is left of an iterator after `any` found its first match. -/
def afterFirst (raw : String) : List String → Option (List String)
  | [] => none
  | tx :: rest => if tx = raw then some rest else afterFirst raw rest

/-- One turn of the scan over the payload. -/
def scanStep (remaining : List String) (tx : Value) : Except String (List String) := do
  let raw ← okOr tx.asStr "non-string payload transaction"
  okOr (afterFirst raw remaining) "payload transactions are not an order-preserving subsequence"

def checkPayloadTransactions (payload : Value) (expected : List String) : Except String Unit := do
  let txs ← okOr ((payload.get "transactions").bind Value.asArray) "payload transactions missing"
  let systemCount := (expected.takeWhile fun tx => IsSystem tx).length
  ensure (¬(txs.length < systemCount ∨
      ((txs.take systemCount).zip (expected.take systemCount)).any fun (a, b) =>
        a.asStr ≠ some b))
    "payload system prefix missing, changed or reordered"
  let _ ← txs.foldlM scanStep expected

/-! ## The greedy scan -/

/-- **The first match is as good as any.** -/
theorem cons_sublist_iff_afterFirst {raw : String} {rest remaining : List String} :
    raw :: rest <+ remaining ↔ ∃ l, afterFirst raw remaining = some l ∧ rest <+ l := by
  induction remaining with
  | nil => simp [afterFirst]
  | cons tx remaining ih =>
    rw [afterFirst, List.cons_sublist_cons', ih]
    split_ifs with htx
    · subst htx
      simp only [Option.some.injEq, exists_eq_left', true_and, or_iff_right_iff_imp]
      exact fun h => (List.sublist_cons_self _ _).trans (ih.mpr h)
    · simp [Ne.symm htx]

theorem scan_isOk :
    (∃ l, (txs.map Value.string).foldlM scanStep expected = .ok l) ↔ txs <+ expected := by
  induction txs generalizing expected with
  | nil => simp
  | cons tx txs ih =>
    simp only [List.map_cons, List.foldlM_cons, bind_eq_ok, scanStep, Value.asStr, okOr_eq_ok,
      Option.some.injEq, exists_eq_left']
    rw [cons_sublist_iff_afterFirst]
    constructor
    · rintro ⟨l, m, hm, hl⟩
      exact ⟨m, hm, ih.mp ⟨l, hl⟩⟩
    · rintro ⟨m, hm, hsub⟩
      obtain ⟨l, hl⟩ := ih.mpr hsub
      exact ⟨l, m, hm, hl⟩

/-- The comparison place by place. -/
theorem system_prefix_iff {system : List String} :
    ¬(txs.length < system.length ∨ (((txs.map Value.string).take system.length).zip system).any
      fun (a, b) => a.asStr ≠ some b) ↔ system <+: txs := by
  induction system generalizing txs with
  | nil => simp
  | cons s system ih =>
    cases txs with
    | nil => simp
    | cons tx txs =>
      rw [List.cons_prefix_cons, ← ih]
      simp [Value.asStr]
      grind

/-- **The check accepts the deposits in their order, then a subsequence of the others.** -/
theorem payload_transactions_exact (payload : Value) (txs system user : List String)
    (hpayload : payload.get "transactions" = some (.array (txs.map .string)))
    (hsystem : ∀ tx ∈ system, IsSystem tx) (huser : ∀ tx ∈ user, ¬IsSystem tx) :
    (∃ u, checkPayloadTransactions payload (system ++ user) = .ok u) ↔
      ∃ kept, kept <+ user ∧ txs = system ++ kept := by
  have hcount : (system ++ user).takeWhile (IsSystem ·) = system := by
    rw [List.takeWhile_append_of_pos (by simpa using hsystem)]
    cases user with
    | nil => simp
    | cons tx user => simp [huser]
  simp only [checkPayloadTransactions, bind_eq_ok, hpayload, okOr_eq_ok, ensure_eq_ok,
    Option.bind_some, Value.asArray, Option.some.injEq, exists_eq_left', hcount, List.length_map,
    List.take_left, system_prefix_iff]
  constructor
  · rintro ⟨_, _, ⟨kept, rfl⟩, l, hl, -⟩
    exact ⟨kept, (List.append_sublist_append_left _).mp (scan_isOk.mp ⟨l, hl⟩), rfl⟩
  · rintro ⟨kept, hkept, rfl⟩
    obtain ⟨l, hl⟩ := scan_isOk.mpr ((List.append_sublist_append_left system).mpr hkept)
    exact ⟨(), (), List.prefix_append _ _, l, hl, rfl⟩

/-- A deposit and one of two equal user transactions. -/
theorem payload_transactions_exact_repeated :
    ∃ u, checkPayloadTransactions
      (.object [("transactions", .array [.string "0x7e01", .string "0x02"])])
      ["0x7e01", "0x02", "0x02"] = .ok u :=
  (payload_transactions_exact _ ["0x7e01", "0x02"] ["0x7e01"] ["0x02", "0x02"] rfl
    (by decide +kernel) (by decide +kernel)).mpr ⟨["0x02"], by decide, rfl⟩

end Derivation
