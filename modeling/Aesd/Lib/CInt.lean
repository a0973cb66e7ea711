import Mathlib.Algebra.Ring.Int.Defs
import Mathlib.Algebra.Ring.Nat

/-!
# C integers

The conversions of C's fixed-width integer types on a 64-bit target, as
functions on `Int` and `Nat`. An expression of the source is written with
the exact operators and converted where the source stores or converts it;
the lemmas below say when a conversion changes nothing.
-/

namespace Aesd.Lib

/-- Conversion to a 64-bit unsigned type (`size_t`, `unsigned long`). -/
def toU64 (x : Int) : Nat := (x % 2 ^ 64).toNat

/-- Conversion to a 32-bit unsigned type (`uint32_t`, `unsigned int`). -/
def toU32 (x : Int) : Nat := (x % 2 ^ 32).toNat

/-- Conversion to a 64-bit signed type (`ssize_t`, `loff_t`), two's
complement. -/
def toI64 (x : Int) : Int := x.bmod (2 ^ 64)

/-- Conversion to a 32-bit signed type (`int`), two's complement. -/
def toI32 (x : Int) : Int := x.bmod (2 ^ 32)

theorem toU64_lt (x : Int) : toU64 x < 2 ^ 64 := by
  unfold toU64
  omega

theorem toU64_of_range {x : Int} (h0 : 0 ≤ x) (h : x < 2 ^ 64) :
    (toU64 x : Int) = x := by
  unfold toU64
  omega

theorem toU64_natCast {n : Nat} (h : n < 2 ^ 64) : toU64 (n : Int) = n := by
  have := toU64_of_range (x := (n : Int)) (by omega) (by omega)
  omega

theorem toU32_natCast {n : Nat} (h : n < 2 ^ 32) : toU32 (n : Int) = n := by
  unfold toU32
  omega

theorem toI64_of_range {x : Int} (h0 : -2 ^ 63 ≤ x) (h : x < 2 ^ 63) :
    toI64 x = x := by
  unfold toI64
  exact Int.bmod_eq_of_le (by omega) (by omega)

theorem toI64_natCast {n : Nat} (h : n < 2 ^ 63) : toI64 (n : Int) = n :=
  toI64_of_range (by omega) (by omega)

theorem toI64_range (x : Int) : -2 ^ 63 ≤ toI64 x ∧ toI64 x < 2 ^ 63 := by
  unfold toI64
  have h1 := Int.le_bmod (x := x) (m := 2 ^ 64) (by decide)
  have h2 := Int.bmod_lt (x := x) (m := 2 ^ 64) (by decide)
  omega

theorem toI64_add_toI64 (x y : Int) : toI64 (x + toI64 y) = toI64 (x + y) := by
  unfold toI64
  rw [Int.add_bmod_bmod]

/-- **A wrapping addition to a position that is not negative** is exact where
its result is not negative. -/
theorem toI64_add_eq {x y : Int} (h0 : 0 ≤ x) (h : 0 ≤ toI64 (x + y))
    (hx : x < 2 ^ 63) (hy : -2 ^ 63 ≤ y ∧ y < 2 ^ 63) : toI64 (x + y) = x + y := by
  simp only [toI64, Int.bmod] at h ⊢
  split at h <;> split <;> omega

theorem toI32_of_range {x : Int} (h0 : -2 ^ 31 ≤ x) (h : x < 2 ^ 31) :
    toI32 x = x := by
  unfold toI32
  exact Int.bmod_eq_of_le (by omega) (by omega)

theorem toI32_range (x : Int) : -2 ^ 31 ≤ toI32 x ∧ toI32 x < 2 ^ 31 := by
  unfold toI32
  have h1 := Int.le_bmod (x := x) (m := 2 ^ 32) (by decide)
  have h2 := Int.bmod_lt (x := x) (m := 2 ^ 32) (by decide)
  omega

theorem toI32_natCast {n : Nat} (h : n < 2 ^ 31) : toI32 (n : Int) = n :=
  toI32_of_range (by omega) (by omega)

end Aesd.Lib
