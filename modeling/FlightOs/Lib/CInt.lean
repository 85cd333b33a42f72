/-
# Signed machine integers

The values of a signed type of `w` bits are the integers from `-2 ^ (w - 1)` up to, and without,
`2 ^ (w - 1)` (`Fits`).  An operation computes its exact result; what becomes of a result that is
no value of the type is said by the caller:

* `sint w x`: the low `w` bits of `x`, as conversion to the type and the hardware's adders give it.
* `uint w x`: the same bits, read as an unsigned number.
* `checked e w x`: the error `e`, for the questions in which an overflow must not happen at all.
-/
import Mathlib.Data.Int.Basic
import Mathlib.Tactic.Linarith

namespace FlightOs

/-- The values of a signed type of `w` bits. -/
def Fits (w : Nat) (x : Int) : Prop := -2 ^ (w - 1) ≤ x ∧ x < 2 ^ (w - 1)

instance (w : Nat) (x : Int) : Decidable (Fits w x) := inferInstanceAs (Decidable (_ ∧ _))

/-- The low `w` bits of `x`, read as a signed number. -/
def sint (w : Nat) (x : Int) : Int := x.bmod (2 ^ w)

/-- The low `w` bits of `x`, read as an unsigned number. -/
def uint (w : Nat) (x : Int) : Nat := (x % 2 ^ w).toNat

/-- The result of an operation that must not overflow. -/
def checked {ε : Type} (e : ε) (w : Nat) (x : Int) : Except ε Int :=
  if Fits w x then .ok x else .error e

theorem two_pow_width {w : Nat} (hw : 0 < w) : ((2 ^ w : Nat) : Int) = 2 ^ (w - 1) * 2 := by
  rw [Nat.cast_pow, Nat.cast_ofNat, ← pow_succ, Nat.sub_add_cancel hw]

theorem sint_of_fits {w : Nat} {x : Int} (hw : 0 < w) (h : Fits w x) : sint w x = x := by
  obtain ⟨hlo, hhi⟩ := h
  apply Int.bmod_eq_of_le_mul_two
  · rw [two_pow_width hw]
    linarith
  · rw [two_pow_width hw]
    linarith

theorem sint_fits {w : Nat} (hw : 0 < w) (x : Int) : Fits w (sint w x) := by
  have hlo := Int.le_bmod (x := x) (Nat.two_pow_pos w)
  have hhi := Int.bmod_lt (x := x) (Nat.two_pow_pos w)
  rw [two_pow_width hw] at hlo hhi
  unfold Fits sint
  omega

/-- Only the last of the operations in a row has to wrap. -/
theorem sint_add_sint (w : Nat) (x y : Int) : sint w (sint w x + y) = sint w (x + y) :=
  Int.bmod_add_bmod

theorem sint_sint (w : Nat) (x : Int) : sint w (sint w x) = sint w x := Int.bmod_bmod

theorem sint_sub_left (w : Nat) (x y : Int) : sint w (sint w x - y) = sint w (x - y) :=
  Int.bmod_sub_bmod

theorem sint_sub_sint (w : Nat) (x y : Int) : sint w (x - sint w y) = sint w (x - y) :=
  Int.sub_bmod_bmod

theorem uint_of_fits {w : Nat} {x : Int} (h0 : 0 ≤ x) (h : x < 2 ^ w) : uint w x = x.toNat := by
  rw [uint, Int.emod_eq_of_lt h0 h]

theorem checked_of_fits {ε : Type} {e : ε} {w : Nat} {x : Int} (h : Fits w x) :
    checked e w x = .ok x := if_pos h

end FlightOs
