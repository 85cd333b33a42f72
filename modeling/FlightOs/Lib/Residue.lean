/-
# Words as residues

Sums, differences and products of words agree with those of the integers modulo `2 ^ 32`, so a
computation on words is compared with a formula by one congruence, however often it wraps.
-/
import FlightOs.Lib.Word
import Mathlib.Data.Int.ModEq

namespace FlightOs

/-- `a * b` -/
def wmul (a b : Nat) : Nat := a * b % 2 ^ 32

theorem wmul_of_lt {a b : Nat} (h : a * b < 2 ^ 32) : wmul a b = a * b := Nat.mod_eq_of_lt h

theorem wadd_residue (a b : Nat) : (wadd a b : Int) ≡ a + b [ZMOD 2 ^ 32] := by
  unfold wadd Int.ModEq
  push_cast
  rw [Int.emod_emod, add_comm]

theorem wsub_residue (a b : Nat) : (wsub a b : Int) ≡ a - b [ZMOD 2 ^ 32] := by
  unfold wsub Int.ModEq
  omega

theorem wmul_residue (a b : Nat) : (wmul a b : Int) ≡ a * b [ZMOD 2 ^ 32] := by
  unfold wmul Int.ModEq
  push_cast
  rw [Int.emod_emod]

/-- Words are equal when their residues are. -/
theorem eq_of_residue {a b : Nat} (ha : a < 2 ^ 32) (hb : b < 2 ^ 32) :
    a = b ↔ (2 ^ 32 : Int) ∣ b - a := by
  rw [← Int.modEq_iff_dvd]
  constructor
  · rintro rfl
    rfl
  · intro h
    unfold Int.ModEq at h
    omega

end FlightOs
