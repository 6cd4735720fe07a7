import Mathlib.Algebra.Ring.Int.Defs
import Mathlib.Algebra.Ring.Nat
import Mathlib.Data.Int.Notation
import Mathlib.Tactic.Common

/-!
# Exceptions and machine integers

The exceptions that the modelled Python code raises, with the text they carry, and the conversion to
the 32-bit integers of the modelled C++ code.
-/

namespace Ikun

/-- A raised exception. `NoFreeBlocksError` is the one exception that callers of the block
allocators are told to expect. -/
inductive Exn
  | runtimeError (msg : String)
  | valueError (msg : String)
  | typeError (msg : String)
  | keyError
  | indexError
  | attributeError (msg : String)
  | recursionError
  | assertionError
  | noFreeBlocks
  deriving DecidableEq, Repr

/-- The conversion to `int32_t`. -/
def toInt32 (n : ℤ) : ℤ := Int.bmod n (2 ^ 32)

theorem toInt32_lt (n : ℤ) : toInt32 n < 2 ^ 31 := by
  have := Int.bmod_lt (x := n) (m := 2 ^ 32) (by decide)
  unfold toInt32
  omega

theorem toInt32_eq_self {n : ℤ} (h₀ : 0 ≤ n) (h : n < 2 ^ 31) : toInt32 n = n := by
  unfold toInt32
  exact Int.bmod_eq_of_le (by omega) (by omega)

end Ikun
