/-
# The median filter: `median3filter` of the deglitching kernel

Every inner sample is compared with the median of the three around it, and replaced when it is
further from that median than the threshold.  The input and the output are different arrays: the
kernel filters from one pair of memory banks into the other.

`median3` sorts its arguments with one swap at most, chosen by the first comparison that asks for
one.  Where two swaps are needed it returns the wrong one of the three (`Misplaced`), and
`median3filter_iff` says exactly which inputs the filter gets right.
-/
import FlightOs.Lib.CInt
import Mathlib.Order.MinMax

namespace FlightOs

/-! ## 1. The code -/

/-- determine the median of 3 values -/
def median3 (a b c : Int) : Int :=
  if b < a then a
  else if c < b then c
  else if b < a then a
  else b

/-- get the absolute of a value -/
def intAbs (a : Int) : Int := if 0 ≤ a then a else sint 32 (-a)

/-- One sample of the output.  The absolute value is an `int` and the threshold is unsigned, so
they are compared as unsigned numbers. -/
def deglitch (threshold : Nat) (a b c : Int) : Int :=
  let m := median3 a b c
  if threshold < uint 32 (intAbs (sint 32 (m - b))) then m else b

/-- `n` rounds of the loop, from the index `i` on. -/
def median3filterLoop (xs : List Int) (threshold : Nat) : Nat → Nat → List Int → List Int
  | 0, _, out => out
  | n + 1, i, out => median3filterLoop xs threshold n (i + 1)
      (out.set i (deglitch threshold (xs.getD (i - 1) 0) (xs.getD i 0) (xs.getD (i + 1) 0)))

/-- apply a median filter of length 3 to data -/
def median3filter (xs out : List Int) (threshold : Nat) : List Int :=
  let len := xs.length
  let out := out.set 0 (xs.getD 0 0)
  let out := median3filterLoop xs threshold (len - 1 - 1) 1 out
  out.set (len - 1) (xs.getD (len - 1) 0)

/-! ## 2. What it is for -/

/-- The median of three values. -/
def median (a b c : Int) : Int := max (min a b) (min (max a b) c)

theorem median_comm (a b c : Int) : median a b c = median b a c := by
  unfold median
  rw [min_comm, max_comm a b]

theorem median_of_le {a b c : Int} (hab : a ≤ b) (hbc : b ≤ c) : median a b c = b := by
  simp [median, hab, hbc]

theorem median_of_le_of_le {a b c : Int} (hac : a ≤ c) (hcb : c ≤ b) : median a b c = c := by
  simp [median, hac, hcb, hac.trans hcb]

theorem median_of_le_left {a b c : Int} (hca : c ≤ a) (hab : a ≤ b) : median a b c = a := by
  simp [median, hab, hca, hca.trans hab]

/-- Between equal values there is nothing else. -/
theorem median_between (a b : Int) : median a b a = a := by
  rcases le_total a b with hab | hba
  · exact median_of_le_of_le (le_refl a) hab
  · rw [median_comm]
    exact median_of_le hba (le_refl a)

/-- The sample of the filter: the median, where it is further away than the threshold. -/
def medianSample (threshold : Nat) (a b c : Int) : Int :=
  if threshold < (median a b c - b).natAbs then median a b c else b

/-- The output of a median filter: the ends are copied, and every inner sample is filtered with
its two neighbours. -/
structure MedianFiltered (xs : List Int) (threshold : Nat) (out : List Int) : Prop where
  length : out.length = xs.length
  first : out[0]? = xs[0]?
  last : out[xs.length - 1]? = xs[xs.length - 1]?
  inner : ∀ (i : Nat) (a b c : Int), xs[i]? = some a → xs[i + 1]? = some b → xs[i + 2]? = some c →
    out[i + 1]? = some (medianSample threshold a b c)

/-- In a filtered array no single outlier between equal neighbours is left. -/
theorem MedianFiltered.outlier {xs out : List Int} {threshold : Nat}
    (h : MedianFiltered xs threshold out) {i : Nat} {a b : Int} (ha : xs[i]? = some a)
    (hb : xs[i + 1]? = some b) (hc : xs[i + 2]? = some a) (hfar : threshold < (b - a).natAbs) :
    out[i + 1]? = some a := by
  rw [h.inner i a b a ha hb hc, medianSample, median_between, if_pos (by omega)]

/-! ## 3. Where the code is right -/

/-- Neighbouring samples whose differences are `int`s. -/
def DiffsFit (xs : List Int) : Prop :=
  ∀ (i : Nat) (a b : Int), xs[i]? = some a → xs[i + 1]? = some b →
    Fits 32 (a - b) ∧ Fits 32 (b - a)

/-- Samples that are not negative are close enough. -/
theorem DiffsFit.of_nonneg {xs : List Int} (h : ∀ x ∈ xs, 0 ≤ x ∧ x < 2 ^ 31) : DiffsFit xs := by
  intro i a b ha hb
  obtain ⟨ha0, ha31⟩ := h a (List.mem_of_getElem? ha)
  obtain ⟨hb0, hb31⟩ := h b (List.mem_of_getElem? hb)
  norm_num at ha31 hb31
  exact ⟨⟨by norm_num; omega, by norm_num; omega⟩, ⟨by norm_num; omega, by norm_num; omega⟩⟩

/-- Three samples on which the single swap of `median3` shows: the third is below the first, and
the value returned in place of the median is beyond the threshold. -/
def Misplaced (threshold : Nat) (a b c : Int) : Prop :=
  c < a ∧ (b < a ∧ threshold < a - b ∨ a ≤ b ∧ threshold < b - c)

instance (threshold : Nat) (a b c : Int) : Decidable (Misplaced threshold a b c) :=
  inferInstanceAs (Decidable (_ ∧ _))

/-- The comparison with the threshold, when the difference is an `int`. -/
theorem uint_intAbs {d : Int} (h : Fits 32 d) : uint 32 (intAbs (sint 32 d)) = d.natAbs := by
  rw [sint_of_fits (by norm_num) h, intAbs]
  obtain ⟨hlo, hhi⟩ := h
  norm_num at hlo hhi
  split
  · rw [uint_of_fits (by omega) (by norm_num; omega)]
    omega
  · rcases eq_or_lt_of_le hlo with heq | hlt
    · rw [← heq]
      decide
    · rw [sint_of_fits (by norm_num) ⟨by norm_num; omega, by norm_num; omega⟩,
        uint_of_fits (by omega) (by norm_num; omega)]
      omega

/-- One sample is right, if and only if it is not one of those. -/
theorem deglitch_eq_iff {threshold : Nat} {a b c : Int} (ha : Fits 32 (a - b))
    (hc : Fits 32 (c - b)) :
    deglitch threshold a b c = medianSample threshold a b c ↔ ¬ Misplaced threshold a b c := by
  have hb : Fits 32 (b - b) := by
    rw [sub_self]
    decide
  unfold deglitch median3 medianSample Misplaced
  dsimp only
  rcases lt_or_ge b a with hba | hab
  · rw [if_pos hba, uint_intAbs ha]
    rcases lt_or_ge c a with hca | hac
    · rcases le_total b c with hbc | hcb
      · rw [median_comm, median_of_le_of_le hbc hca.le]
        split <;> split <;> omega
      · rw [median_comm, median_of_le_left hcb hba.le]
        split <;> split <;> omega
    · rw [median_comm, median_of_le hba.le hac]
      split <;> omega
  · rw [if_neg (not_lt.mpr hab), if_neg (not_lt.mpr hab)]
    rcases lt_or_ge c b with hcb | hbc
    · rw [if_pos hcb, uint_intAbs hc]
      rcases lt_or_ge c a with hca | hac
      · rw [median_of_le_left hca.le hab]
        split <;> split <;> omega
      · rw [median_of_le_of_le hac hcb.le]
        split <;> omega
    · rw [if_neg (not_lt.mpr hbc), uint_intAbs hb, median_of_le hab hbc]
      split <;> omega

/-! ## 4. The loop -/

section Loop

variable {xs : List Int} {threshold : Nat}

theorem median3filterLoop_length {n : Nat} : ∀ {i : Nat} {out : List Int},
    (median3filterLoop xs threshold n i out).length = out.length := by
  induction n with
  | zero => intros; rfl
  | succ n ih => simp [median3filterLoop, ih]

/-- What the rounds from `i` on leave at an index. -/
theorem median3filterLoop_get {n : Nat} : ∀ {i j : Nat} {out : List Int}, j < out.length →
    (median3filterLoop xs threshold n i out)[j]? =
      if i ≤ j ∧ j < i + n then
        some (deglitch threshold (xs.getD (j - 1) 0) (xs.getD j 0) (xs.getD (j + 1) 0))
      else out[j]? := by
  induction n with
  | zero =>
    intro i j out _
    rw [median3filterLoop, if_neg (by omega)]
  | succ n ih =>
    intro i j out hj
    rw [median3filterLoop, ih (by simpa using hj)]
    by_cases hlater : i + 1 ≤ j ∧ j < i + 1 + n
    · rw [if_pos hlater, if_pos (by omega)]
    · rw [if_neg hlater]
      by_cases heq : j = i
      · rw [heq, if_pos (by omega), List.getElem?_set_self (heq ▸ hj)]
      · rw [if_neg (by omega), List.getElem?_set_ne (Ne.symm heq)]

theorem median3filter_length {out : List Int} :
    (median3filter xs out threshold).length = out.length := by
  simp [median3filter, median3filterLoop_length]

/-- The inner samples of the output. -/
theorem median3filter_inner {out : List Int} (hout : out.length = xs.length) {i : Nat} {a b c : Int}
    (ha : xs[i]? = some a) (hb : xs[i + 1]? = some b) (hc : xs[i + 2]? = some c) :
    (median3filter xs out threshold)[i + 1]? = some (deglitch threshold a b c) := by
  obtain ⟨hlt, -⟩ := List.getElem?_eq_some_iff.mp hc
  rw [median3filter, List.getElem?_set_ne (by omega),
    median3filterLoop_get (by rw [List.length_set]; omega), if_pos (by omega)]
  simp [List.getD_eq_getElem?_getD, ha, hb, hc]

end Loop

/-- **The median filter** gets an input right, if and only if no three neighbours of it are
misplaced by the single swap. -/
theorem median3filter_iff (xs out : List Int) (threshold : Nat) (hlen : 2 ≤ xs.length)
    (hout : out.length = xs.length) (hfit : DiffsFit xs) :
    MedianFiltered xs threshold (median3filter xs out threshold) ↔
      ∀ (i : Nat) (a b c : Int), xs[i]? = some a → xs[i + 1]? = some b → xs[i + 2]? = some c →
        ¬ Misplaced threshold a b c := by
  have hsample : ∀ {i : Nat} {a b c : Int}, xs[i]? = some a → xs[i + 1]? = some b →
      xs[i + 2]? = some c →
      ((median3filter xs out threshold)[i + 1]? = some (medianSample threshold a b c) ↔
        ¬ Misplaced threshold a b c) := by
    intro i a b c ha hb hc
    rw [median3filter_inner hout ha hb hc, Option.some.injEq]
    exact deglitch_eq_iff (hfit i a b ha hb).1 (hfit (i + 1) b c hb hc).2
  constructor
  · intro h i a b c ha hb hc
    exact (hsample ha hb hc).mp (h.inner i a b c ha hb hc)
  · intro h
    refine ⟨median3filter_length.trans hout, ?_, ?_, fun i a b c ha hb hc =>
      (hsample ha hb hc).mpr (h i a b c ha hb hc)⟩
    · rw [median3filter, List.getElem?_set_ne (by omega),
        median3filterLoop_get (by rw [List.length_set]; omega), if_neg (by omega),
        List.getElem?_set_self (by omega)]
      simp [List.getD_eq_getElem?_getD, List.getElem?_eq_getElem (by omega : 0 < xs.length)]
    · rw [median3filter, List.getElem?_set_self (by
        rw [median3filterLoop_length, List.length_set]
        omega)]
      simp [List.getD_eq_getElem?_getD,
        List.getElem?_eq_getElem (by omega : xs.length - 1 < xs.length)]

/-- Rising samples are filtered. -/
theorem median3filter_iff_rising : MedianFiltered [0, 50, 10] 5 [0, 10, 10] := by
  have hxs : median3filter [0, 50, 10] [0, 0, 0] 5 = [0, 10, 10] := by decide
  rw [← hxs]
  refine (median3filter_iff [0, 50, 10] [0, 0, 0] 5 (by decide) (by decide)
    (DiffsFit.of_nonneg (by decide))).mpr ?_
  intro i a b c ha hb hc
  match i with
  | 0 =>
    simp only [List.getElem?_cons_zero, List.getElem?_cons_succ, Option.some.injEq] at ha hb hc
    rw [← ha, ← hb, ← hc]
    decide
  | i + 1 => simp at hc

/-- A step down: the sample behind it becomes the one before it, although it is the median. -/
theorem median3filter_misplaced : ¬ ∀ (xs out : List Int) (threshold : Nat), 2 ≤ xs.length →
    out.length = xs.length → DiffsFit xs →
      MedianFiltered xs threshold (median3filter xs out threshold) := by
  intro h
  have hin := (h [10, 0, 0] [0, 0, 0] 5 (by decide) (by decide)
    (DiffsFit.of_nonneg (by decide))).inner 0 10 0 0 rfl rfl rfl
  revert hin
  decide

/-- A single outlier between equal neighbours is removed in any case. -/
theorem median3filter_outlier {xs out : List Int} {threshold : Nat} (hout : out.length = xs.length)
    (hfit : DiffsFit xs) {i : Nat} {a b : Int} (ha : xs[i]? = some a) (hb : xs[i + 1]? = some b)
    (hc : xs[i + 2]? = some a) (hfar : threshold < (b - a).natAbs) :
    (median3filter xs out threshold)[i + 1]? = some a := by
  have hright : ¬ Misplaced threshold a b a := fun h => absurd h.1 (lt_irrefl a)
  rw [median3filter_inner hout ha hb hc,
    (deglitch_eq_iff (hfit i a b ha hb).1 (hfit (i + 1) b a hb hc).2).mpr hright, medianSample,
    median_between, if_pos (by omega)]

end FlightOs
