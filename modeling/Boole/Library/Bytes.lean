import Boole.Library.Instances
import Mathlib.Data.List.Basic

/-!
# Library/Bytes — integers as a fixed number of bytes

`leBytes n x` writes the last `n` bytes of `x`, least significant first, and `beBytes n x` writes
them the other way round.  **A number below `256 ^ n` is determined by its bytes**
(`leBytes_inj`, `beBytes_inj`).
-/

namespace Library

/-- The last `n` bytes of a number, least significant first. -/
def leBytes : ℕ → ℕ → List UInt8
  | 0, _ => []
  | n + 1, x => UInt8.ofNat (x % 256) :: leBytes n (x / 256)

/-- The last `n` bytes of a number, most significant first. -/
def beBytes (n x : ℕ) : List UInt8 := (leBytes n x).reverse

@[simp] theorem length_leBytes (n x : ℕ) : (leBytes n x).length = n := by
  induction n generalizing x with
  | zero => rfl
  | succ n ih => simp [leBytes, ih]

@[simp] theorem length_beBytes (n x : ℕ) : (beBytes n x).length = n := by
  simp [beBytes]

theorem leBytes_cons (n : ℕ) (b : UInt8) (x : ℕ) :
    leBytes (n + 1) (b.toNat + 256 * x) = b :: leBytes n x := by
  have hb := b.toNat_lt
  rw [leBytes, show (b.toNat + 256 * x) % 256 = b.toNat by omega,
    show (b.toNat + 256 * x) / 256 = x by omega, UInt8.ofNat_toNat]

theorem leBytes_inj {n x y : ℕ} (hx : x < 256 ^ n) (hy : y < 256 ^ n)
    (h : leBytes n x = leBytes n y) : x = y := by
  induction n generalizing x y with
  | zero =>
    obtain rfl : x = 0 := by simpa using hx
    obtain rfl : y = 0 := by simpa using hy
    rfl
  | succ n ih =>
    rw [leBytes, leBytes, List.cons.injEq] at h
    obtain ⟨hhead, htail⟩ := h
    have hmod : x % 256 = y % 256 := by
      have := congrArg UInt8.toNat hhead
      simpa using this
    have hdiv : x / 256 = y / 256 := by
      refine ih ?_ ?_ htail
      · rw [Nat.div_lt_iff_lt_mul (by decide)]
        rwa [Nat.pow_succ] at hx
      · rw [Nat.div_lt_iff_lt_mul (by decide)]
        rwa [Nat.pow_succ] at hy
    omega

theorem beBytes_inj {n x y : ℕ} (hx : x < 256 ^ n) (hy : y < 256 ^ n)
    (h : beBytes n x = beBytes n y) : x = y :=
  leBytes_inj hx hy (List.reverse_injective h)

end Library
