/-
# The integer square root: `isqrt` of `kernel/tick.c`

The root is found one binary digit after the other, from the top.  `bit` is the power of four of
the digit at hand; `num` is what remains of the radicand, and `res` is twice the root found so far
times the weight of that digit.  So with `N` the radicand, `R` the root so far and `2 ^ j` the
weight of its last digit, the rounds keep

    num = N - R * R,   res = R * 2 ^ j,   N < (R + 2 ^ j) ^ 2

(`isqrtLoop_spec`), and at `j = 0` the root is complete.

Every sum and difference is `checked`: the function has a result only if none overflows.
-/
import FlightOs.Lib.CInt
import FlightOs.Lib.Loop
import Mathlib.Tactic.NormNum
import Mathlib.Tactic.Ring

namespace FlightOs

/-- Why a computation on `int` has no result. -/
inductive IntFault
  | overflow
  | endless
deriving DecidableEq

/-- The variables of the main loop. -/
structure IsqrtState where
  num : Int
  res : Int
  bit : Int

/-- `while (bit > num) bit >>= 2` -/
def isqrtBitRound (num bit : Int) : Except IntFault (Round Int Int) :=
  if num < bit then .ok (.next (bit >>> (2 : Nat))) else .ok (.done bit)

/-- `while (bit)` -/
def isqrtRound (s : IsqrtState) : Except IntFault (Round IsqrtState Int) :=
  if s.bit = 0 then .ok (.done s.res)
  else do
    let sum ← checked .overflow 32 (s.res + s.bit)
    if sum ≤ s.num then
      let num ← checked .overflow 32 (s.num - sum)
      let res ← checked .overflow 32 ((s.res >>> (1 : Nat)) + s.bit)
      return .next ⟨num, res, s.bit >>> (2 : Nat)⟩
    else
      return .next ⟨s.num, s.res >>> (1 : Nat), s.bit >>> (2 : Nat)⟩

def isqrt (fuel : Nat) (num : Int) : Except IntFault Int := do
  let bit ← loop .endless (isqrtBitRound num) fuel ((1 : Int) <<< (30 : Nat))
  loop .endless isqrtRound fuel ⟨num, 0, bit⟩

/-! ## 1. The powers of four -/

/-- The values of `bit`: the powers of four, and zero after the last. -/
def isqrtBit : Nat → Int
  | 0 => 0
  | j + 1 => 4 ^ j

theorem isqrtBit_shift (j : Nat) : isqrtBit (j + 1) >>> (2 : Nat) = isqrtBit j := by
  cases j with
  | zero => rfl
  | succ j =>
    rw [isqrtBit, isqrtBit, Int.shiftRight_eq_div_pow, pow_succ]
    omega

theorem isqrtBit_ne_zero (j : Nat) : isqrtBit (j + 1) ≠ 0 := by
  simp [isqrtBit]

/-- The first loop ends at a power of four beyond which the radicand has no digit. -/
theorem isqrtBitLoop_spec {num : Int} (h0 : 0 ≤ num) (j : Nat) :
    ∀ fuel : Nat, num < 4 ^ j → j < fuel →
      ∃ k, loop .endless (isqrtBitRound num) fuel (isqrtBit j) = .ok (isqrtBit k) ∧
        k ≤ j ∧ num < 4 ^ k := by
  induction j with
  | zero =>
    intro fuel hlt hf
    obtain ⟨n, rfl⟩ := Nat.exists_eq_add_of_lt hf
    have hround : isqrtBitRound num (isqrtBit 0) = .ok (.done (isqrtBit 0)) :=
      if_neg (by rw [isqrtBit]; omega)
    exact ⟨0, loop_done hround _, Nat.le_refl 0, hlt⟩
  | succ j ih =>
    intro fuel hlt hf
    obtain ⟨n, rfl⟩ := Nat.exists_eq_add_of_lt hf
    by_cases hbit : num < isqrtBit (j + 1)
    · have hround : isqrtBitRound num (isqrtBit (j + 1)) = .ok (.next (isqrtBit j)) := by
        rw [isqrtBitRound, if_pos hbit, isqrtBit_shift]
      obtain ⟨k, hk, hkj, hltk⟩ := ih (j + 1 + n) hbit (by omega)
      exact ⟨k, (loop_next hround _).trans hk, by omega, hltk⟩
    · have hround : isqrtBitRound num (isqrtBit (j + 1)) = .ok (.done (isqrtBit (j + 1))) :=
        if_neg hbit
      exact ⟨j + 1, loop_done hround _, Nat.le_refl _, hlt⟩

/-! ## 2. The digits of the root -/

/-- Half of what `res` stands for at one digit is what it stands for at the next. -/
theorem isqrt_half (R : Int) (j : Nat) : (R * 2 ^ (j + 1)) >>> (1 : Nat) = R * 2 ^ j := by
  rw [Int.shiftRight_eq_div_pow, pow_succ, ← mul_assoc]
  omega

theorem isqrt_four_pow (j : Nat) : (4 : Int) ^ j = 2 ^ j * 2 ^ j := by
  rw [← mul_pow]
  norm_num

/-- The root so far fits the radicand, and the root with one more unit does not. -/
structure IsqrtInv (N R : Int) (j : Nat) : Prop where
  nonneg : 0 ≤ R
  le : R * R ≤ N
  lt : N < (R + 2 ^ j) * (R + 2 ^ j)
  low : R = 0 ∧ j ≤ 16 ∨ j ≤ 15

/-- No sum of a round leaves `int`: before the top digit is known the root is zero. -/
theorem IsqrtInv.sum_fits {N R : Int} {j : Nat} (h : IsqrtInv N R (j + 1)) (hN : N < 2 ^ 31) :
    R * 2 ^ (j + 1) + 4 ^ j < 2 ^ 31 := by
  have hR : R ≤ 46340 := by
    by_contra hgt
    have : (46341 : Int) * 46341 ≤ R * R := by
      apply mul_self_le_mul_self <;> omega
    have := h.le
    omega
  rcases h.low with ⟨hzero, hj⟩ | hj
  · rw [hzero, zero_mul, zero_add]
    calc (4 : Int) ^ j ≤ 4 ^ 15 := pow_le_pow_right₀ (by norm_num) (by omega)
      _ < 2 ^ 31 := by norm_num
  · calc R * 2 ^ (j + 1) + 4 ^ j ≤ 46340 * 2 ^ 15 + 4 ^ 14 := by
          apply add_le_add
          · exact mul_le_mul hR (pow_le_pow_right₀ (by norm_num) hj) (by positivity) (by norm_num)
          · exact pow_le_pow_right₀ (by norm_num) (by omega)
      _ < 2 ^ 31 := by norm_num

/-- A digit that fits is taken. -/
theorem IsqrtInv.take {N R : Int} {j : Nat} (h : IsqrtInv N R (j + 1))
    (hfit : R * 2 ^ (j + 1) + 4 ^ j ≤ N - R * R) : IsqrtInv N (R + 2 ^ j) j where
  nonneg := by have := h.nonneg; positivity
  le := by
    rw [isqrt_four_pow, pow_succ] at hfit
    linarith [mul_comm R (2 ^ j)]
  lt := by
    have := h.lt
    rw [pow_succ] at this
    linarith
  low := Or.inr (by rcases h.low with h | h <;> omega)

/-- A digit that does not fit is zero. -/
theorem IsqrtInv.skip {N R : Int} {j : Nat} (h : IsqrtInv N R (j + 1))
    (hfit : ¬ R * 2 ^ (j + 1) + 4 ^ j ≤ N - R * R) : IsqrtInv N R j where
  nonneg := h.nonneg
  le := h.le
  lt := by
    rw [isqrt_four_pow, pow_succ] at hfit
    linarith [mul_comm R (2 ^ j)]
  low := Or.inr (by rcases h.low with h | h <;> omega)

/-- One round finds one digit. -/
theorem isqrtRound_step {N R : Int} {j : Nat} (h : IsqrtInv N R (j + 1)) (hN : N < 2 ^ 31) :
    ∃ R', isqrtRound ⟨N - R * R, R * 2 ^ (j + 1), isqrtBit (j + 1)⟩ =
      .ok (.next ⟨N - R' * R', R' * 2 ^ j, isqrtBit j⟩) ∧ IsqrtInv N R' j := by
  have hsum := h.sum_fits hN
  have hR := h.nonneg
  have hle := h.le
  have hpos : (0 : Int) ≤ R * 2 ^ (j + 1) := by positivity
  have hbit : (0 : Int) < 4 ^ j := by positivity
  have hs : checked IntFault.overflow 32 (R * 2 ^ (j + 1) + 4 ^ j) =
      .ok (R * 2 ^ (j + 1) + 4 ^ j) := checked_of_fits ⟨by norm_num; omega, by norm_num; omega⟩
  by_cases hfit : R * 2 ^ (j + 1) + 4 ^ j ≤ N - R * R
  · have hRR : 0 ≤ R * R := by positivity
    have hn : checked IntFault.overflow 32 (N - R * R - (R * 2 ^ (j + 1) + 4 ^ j)) =
        .ok (N - R * R - (R * 2 ^ (j + 1) + 4 ^ j)) :=
      checked_of_fits ⟨by norm_num; omega, by norm_num; omega⟩
    have hhalf : R * 2 ^ j ≤ R * 2 ^ (j + 1) := by
      apply mul_le_mul_of_nonneg_left _ hR
      exact pow_le_pow_right₀ (by norm_num) (Nat.le_succ j)
    have hhalf0 : (0 : Int) ≤ R * 2 ^ j := by positivity
    have hr : checked IntFault.overflow 32 (R * 2 ^ j + 4 ^ j) = .ok (R * 2 ^ j + 4 ^ j) :=
      checked_of_fits ⟨by norm_num; omega, by norm_num; omega⟩
    have hnum : N - R * R - (R * 2 ^ (j + 1) + 4 ^ j) = N - (R + 2 ^ j) * (R + 2 ^ j) := by
      rw [isqrt_four_pow, pow_succ]
      ring
    have hres : R * 2 ^ j + 4 ^ j = (R + 2 ^ j) * 2 ^ j := by
      rw [isqrt_four_pow]
      ring
    refine ⟨R + 2 ^ j, ?_, h.take hfit⟩
    rw [isqrtRound, if_neg (isqrtBit_ne_zero j), isqrtBit_shift, isqrt_half, isqrtBit]
    simp only [hs, hn, hr, hfit, if_true, bind, Except.bind, pure, Except.pure]
    rw [hnum, hres]
  · refine ⟨R, ?_, h.skip hfit⟩
    rw [isqrtRound, if_neg (isqrtBit_ne_zero j), isqrtBit_shift, isqrt_half, isqrtBit]
    simp only [hs, hfit, if_false, bind, Except.bind, pure, Except.pure]

/-- The main loop completes the root, one round for each digit and one that finds `bit` zero. -/
theorem isqrtLoop_spec {N : Int} (hN : N < 2 ^ 31) (j : Nat) :
    ∀ (R : Int) (fuel : Nat), IsqrtInv N R j → j < fuel →
      ∃ r, loop .endless isqrtRound fuel ⟨N - R * R, R * 2 ^ j, isqrtBit j⟩ = .ok r ∧
        0 ≤ r ∧ r * r ≤ N ∧ N < (r + 1) * (r + 1) := by
  induction j with
  | zero =>
    intro R fuel h hf
    obtain ⟨n, rfl⟩ := Nat.exists_eq_add_of_lt hf
    refine ⟨R, ?_, h.nonneg, h.le, by simpa using h.lt⟩
    have hround : isqrtRound ⟨N - R * R, R * 2 ^ 0, isqrtBit 0⟩ = .ok (.done (R * 2 ^ 0)) :=
      if_pos rfl
    rw [pow_zero, mul_one] at hround ⊢
    exact loop_done hround (0 + n)
  | succ j ih =>
    intro R fuel h hf
    obtain ⟨n, rfl⟩ := Nat.exists_eq_add_of_lt hf
    obtain ⟨R', hround, h'⟩ := isqrtRound_step h hN
    obtain ⟨r, hr, hspec⟩ := ih R' (j + 1 + n) h' (by omega)
    exact ⟨r, (loop_next hround _).trans hr, hspec⟩

/-- The root of a value that `int` holds. -/
theorem isqrt_spec {num : Int} (h0 : 0 ≤ num) (h31 : num < 2 ^ 31) {fuel : Nat} (hf : 17 ≤ fuel) :
    ∃ r, isqrt fuel num = .ok r ∧ 0 ≤ r ∧ r * r ≤ num ∧ num < (r + 1) * (r + 1) := by
  obtain ⟨k, hk, hk16, hlt⟩ := isqrtBitLoop_spec h0 16 fuel (lt_trans h31 (by norm_num)) (by omega)
  have hstart : IsqrtInv num 0 k := by
    refine ⟨le_refl 0, by simpa using h0, ?_, Or.inl ⟨rfl, hk16⟩⟩
    rwa [zero_add, ← isqrt_four_pow]
  obtain ⟨r, hr, hspec⟩ := isqrtLoop_spec h31 k 0 fuel hstart (by omega)
  refine ⟨r, ?_, hspec⟩
  rw [mul_zero, sub_zero, zero_mul] at hr
  have htop : (1 : Int) <<< (30 : Nat) = isqrtBit 16 := by decide
  rw [isqrt, htop, hk]
  exact hr

/-- **The integer square root.**  For every value of `int` that is not negative, `isqrt` ends,
overflows in no intermediate result, and returns the floor of the square root. -/
theorem isqrt_floor (num : Int) (h0 : 0 ≤ num) (hnum : Fits 32 num) (fuel : Nat)
    (hf : 17 ≤ fuel) : isqrt fuel num = .ok (num.toNat.sqrt : Int) := by
  obtain ⟨r, hr, hr0, hle, hlt⟩ := isqrt_spec h0 hnum.2 hf
  obtain ⟨n, rfl⟩ := Int.eq_ofNat_of_zero_le h0
  obtain ⟨m, rfl⟩ := Int.eq_ofNat_of_zero_le hr0
  have hroot : m = n.sqrt := Nat.eq_sqrt.mpr ⟨by exact_mod_cast hle, by exact_mod_cast hlt⟩
  rw [hr, hroot]
  rfl

/-- The largest `int`. -/
theorem isqrt_floor_max : isqrt 17 2147483647 = .ok ((2147483647 : Int).toNat.sqrt : Int) :=
  isqrt_floor 2147483647 (by decide) (by decide) 17 (by decide)

end FlightOs
