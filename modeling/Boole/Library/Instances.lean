import Mathlib.Algebra.Ring.Nat
import Mathlib.Tactic.Common
import Std.Data.ExtTreeMap

/-!
# Library/Instances — one choice of instances

Which instance stands in a definition depends on what was imported when it was written.  Two choices
matter to definitions that are evaluated: **a statement about the members of a list is decided along
the list**, also where the type of the members is finite and could be enumerated; and the order of
256-bit words, the keys of most maps, is transitive by one proof with a name.
-/

namespace Library

variable {α : Type*} {p : α → Prop} [DecidablePred p]

instance (priority := 2000) decidableForallMem (l : List α) : Decidable (∀ x ∈ l, p x) :=
  List.decidableBAll p l

instance (priority := 2000) decidableExistsMem (l : List α) : Decidable (∃ x ∈ l, p x) :=
  List.decidableBEx p l

instance transOrd_word : Std.TransOrd (BitVec 256) := inferInstance

instance transOrd_wordPair : @Std.TransOrd (BitVec 256 × BitVec 256) lexOrd := inferInstance

end Library
