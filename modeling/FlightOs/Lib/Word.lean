/-
# Machine words

A 32-bit word is a natural number below `2 ^ 32`, and the operations below are the ones whose
wrap-around a program can observe.  Comparisons, divisions by powers of two and array indices
are those of the natural numbers.

The shift reads the low five bits of its count, as the hardware does.  The C standard leaves a
shift by the width of the word undefined, so no result may rest on that case; it only makes the
operation total.
-/
import Mathlib.Data.Nat.Basic
import Mathlib.Tactic.Ring

namespace FlightOs

/-- `a + b`

The sum has `a` last: where `a` is a variable and `b` a number, evaluation stops there instead of
counting. -/
def wadd (a b : Nat) : Nat := (b + a) % 2 ^ 32

/-- `a - b` -/
def wsub (a b : Nat) : Nat := (2 ^ 32 - b % 2 ^ 32 + a) % 2 ^ 32

/-- `a << k` -/
def wshl (a k : Nat) : Nat := a * 2 ^ (k % 32) % 2 ^ 32

/-- `ALIGN(x, a)`, for a power of two `a`: `x` plus `a - 1`, with the low bits cleared. -/
def walign (x a : Nat) : Nat := wadd x (a - 1) / a * a

/-- `x & ~(2 ^ k - 1)` -/
def wclr (x k : Nat) : Nat := x / 2 ^ k * 2 ^ k

theorem wadd_of_lt {a b : Nat} (h : a + b < 2 ^ 32) : wadd a b = a + b := by
  rw [wadd, Nat.add_comm]
  exact Nat.mod_eq_of_lt h

theorem wadd_lt (a b : Nat) : wadd a b < 2 ^ 32 := Nat.mod_lt _ (by norm_num)

theorem wsub_lt (a b : Nat) : wsub a b < 2 ^ 32 := Nat.mod_lt _ (by norm_num)

theorem wsub_of_le {a b : Nat} (ha : a < 2 ^ 32) (h : b ≤ a) : wsub a b = a - b := by
  unfold wsub
  omega

/-- Subtracting more than there is wraps to the top of the word. -/
theorem wsub_of_lt {a b : Nat} (hb : b < 2 ^ 32) (h : a < b) : wsub a b = 2 ^ 32 - (b - a) := by
  unfold wsub
  omega

theorem wshl_one {k : Nat} (hk : k < 32) : wshl 1 k = 2 ^ k := by
  unfold wshl
  rw [Nat.mod_eq_of_lt hk, Nat.one_mul]
  exact Nat.mod_eq_of_lt (Nat.pow_lt_pow_right (by norm_num) hk)

/-- Whatever the count, one shifted is a power of two. -/
theorem wshl_one' (k : Nat) : wshl 1 k = 2 ^ (k % 32) := by
  have h := wshl_one (Nat.mod_lt k (by norm_num : 0 < 32))
  unfold wshl at h ⊢
  rwa [Nat.mod_mod] at h

/-- Alignment lands on the next multiple. -/
theorem walign_spec {x a : Nat} (ha : 0 < a) (h : x + (a - 1) < 2 ^ 32) :
    a ∣ walign x a ∧ x ≤ walign x a ∧ walign x a < x + a := by
  unfold walign
  rw [wadd_of_lt h]
  refine ⟨Nat.dvd_mul_left a _, ?_, ?_⟩
  · have h1 := Nat.div_add_mod (x + (a - 1)) a
    have h2 := Nat.mod_lt (x + (a - 1)) ha
    rw [Nat.mul_comm]
    omega
  · have := Nat.div_mul_le_self (x + (a - 1)) a
    omega

theorem walign_of_dvd {x a : Nat} (ha : 0 < a) (h : x + (a - 1) < 2 ^ 32) (hd : a ∣ x) :
    walign x a = x := by
  obtain ⟨q, rfl⟩ := hd
  unfold walign
  rw [wadd_of_lt h, Nat.mul_add_div ha, Nat.div_eq_of_lt (by omega), Nat.add_zero, Nat.mul_comm]

/-- Below the end of the range, a multiple of a power of two has room for the rounding. -/
theorem walign_of_dvd_of_lt {x a : Nat} (ha : 0 < a) (hx : x < 2 ^ 32) (hd : a ∣ x)
    (h : a ∣ 2 ^ 32) : walign x a = x := by
  obtain ⟨q, rfl⟩ := hd
  obtain ⟨p, hp⟩ := h
  have hqp : q + 1 ≤ p := by
    rw [hp] at hx
    exact Nat.lt_of_mul_lt_mul_left hx
  have hle : a * (q + 1) ≤ 2 ^ 32 := hp ▸ Nat.mul_le_mul_left a hqp
  rw [Nat.mul_succ] at hle
  exact walign_of_dvd ha (by omega) ⟨q, rfl⟩

end FlightOs
