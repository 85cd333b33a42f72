/-
# Nanoseconds and `struct timespec`: `kernel/time.c`

`long` has 32 bits here, and `ktime` and the nanoseconds have 64.  Every operation is taken modulo
the width of the type it is carried out in, where the widths differ with a conversion between
them.  A `BUG_ON` that fires halts the machine.

The conversion of nanoseconds asserts a range first.  The bound of that range is written
`~(1LL << 31) * NSEC_PER_SEC`, where the complement is taken of a 64-bit value and is negative: the
assertion fails for every positive argument (`nsToTimespec_iff`).  Behind the assertion the code is
right on the range that its documentation gives, although the product in it wraps
(`timespecSplit_exact`, `timespecToKtime_split`, `timespecAdd_split`).
-/
import FlightOs.Lib.CInt
import FlightOs.Lib.Loop
import Mathlib.Tactic.NormNum
import Mathlib.Tactic.Ring

namespace FlightOs

/-! ## 1. The code -/

def nsecPerSec : Int := 1000000000

/-- The two members of `struct timespec`. -/
structure Timespec where
  tvSec : Int
  tvNsec : Int
deriving DecidableEq

/-- Why a conversion has no result. -/
inductive TimeFault
  | bug
  | endless
deriving DecidableEq

/-- `while (t.tv_nsec >= NSEC_PER_SEC)` -/
def normaliseDown (t : Timespec) : Except TimeFault (Round Timespec Timespec) :=
  if nsecPerSec ≤ t.tvNsec then
    .ok (.next ⟨sint 32 (t.tvSec + 1), sint 32 (t.tvNsec - nsecPerSec)⟩)
  else .ok (.done t)

/-- `while (t.tv_nsec < 0)` -/
def normaliseUp (t : Timespec) : Except TimeFault (Round Timespec Timespec) :=
  if t.tvNsec < 0 then
    .ok (.next ⟨sint 32 (t.tvSec - 1), sint 32 (t.tvNsec + nsecPerSec)⟩)
  else .ok (.done t)

/-- normalise a struct timespec so 0 <= tv_nsec < NSEC_PER_SEC -/
def timespecNormalise (fuel : Nat) (t : Timespec) : Except TimeFault Timespec := do
  let t ← loop .endless normaliseDown fuel t
  loop .endless normaliseUp fuel t

/-- add two struct timespec -/
def timespecAdd (fuel : Nat) (t1 t2 : Timespec) : Except TimeFault Timespec :=
  timespecNormalise fuel ⟨sint 32 (t1.tvSec + t2.tvSec), sint 32 (t1.tvNsec + t2.tvNsec)⟩

/-- The seconds of a conversion, and the nanoseconds that are left: the product is one of `long`s. -/
def timespecSplit (nsec : Int) : Timespec :=
  let tvSec := sint 32 (nsec.tdiv nsecPerSec)
  ⟨tvSec, sint 32 (sint 64 (nsec - sint 32 (tvSec * nsecPerSec)))⟩

/-- convert nanoseconds to a struct timespec -/
def nsToTimespec (fuel : Nat) (nsec : Int) : Except TimeFault Timespec :=
  if nsec = 0 then .ok ⟨0, 0⟩
  else if sint 64 (~~~((1 : Int) <<< (31 : Nat)) * nsecPerSec) < nsec then .error .bug
  else timespecNormalise fuel (timespecSplit nsec)

/-- add nanoseconds to a timespec -/
def timespecAddNs (fuel : Nat) (ts : Timespec) (nsec : Int) : Except TimeFault Timespec :=
  if nsec = 0 then .ok ts
  else do
    let t ← nsToTimespec fuel nsec
    timespecAdd fuel ts t

/-- set a ktime from seconds and nanoseconds, both `unsigned long` -/
def ktimeSet (sec nsec : Nat) : Int := sint 64 (sint 64 ((sec : Int) * nsecPerSec) + nsec)

def ktimeToTimespec (fuel : Nat) (t : Int) : Except TimeFault Timespec := nsToTimespec fuel t

def timespecToKtime (ts : Timespec) : Int := ktimeSet (uint 32 ts.tvSec) (uint 32 ts.tvNsec)

/-! ## 2. What a timespec stands for -/

namespace Timespec

/-- The nanoseconds a timespec stands for. -/
def ns (t : Timespec) : Int := t.tvSec * nsecPerSec + t.tvNsec

/-- The members are `long`s. -/
def Long (t : Timespec) : Prop := Fits 32 t.tvSec ∧ Fits 32 t.tvNsec

def Normalised (t : Timespec) : Prop := 0 ≤ t.tvNsec ∧ t.tvNsec < nsecPerSec

end Timespec

/-- What converting, converting back and adding are for, at one number of nanoseconds. -/
structure NsConverted (fuel : Nat) (nsec : Int) : Prop where
  converts : ∃ ts, nsToTimespec fuel nsec = .ok ts ∧ ts.Normalised ∧ ts.ns = nsec
  roundTrip : ∃ ts, ktimeToTimespec fuel nsec = .ok ts ∧ timespecToKtime ts = nsec
  adds : ∀ ts : Timespec, ts.Long → (∃ sum : Timespec, sum.Long ∧ sum.Normalised ∧
      sum.ns = ts.ns + nsec) →
    ∃ sum, timespecAddNs fuel ts nsec = .ok sum ∧ sum.ns = ts.ns + nsec

/-! ## 3. The loops of the normalisation -/

theorem normaliseDown_done {fuel : Nat} (hf : 0 < fuel) {t : Timespec} (h : t.tvNsec < nsecPerSec) :
    loop .endless normaliseDown fuel t = .ok t := by
  obtain ⟨m, rfl⟩ := Nat.exists_eq_add_of_lt hf
  have hround : normaliseDown t = .ok (.done t) := if_neg (not_le.mpr h)
  exact loop_done hround (0 + m)

theorem normaliseUp_done {fuel : Nat} (hf : 0 < fuel) {t : Timespec} (h : 0 ≤ t.tvNsec) :
    loop .endless normaliseUp fuel t = .ok t := by
  obtain ⟨m, rfl⟩ := Nat.exists_eq_add_of_lt hf
  have hround : normaliseUp t = .ok (.done t) := if_neg (not_lt.mpr h)
  exact loop_done hround (0 + m)

/-- The first loop takes `n` full seconds out of the nanoseconds. -/
theorem normaliseDown_spec {n : Nat} : ∀ {fuel : Nat} {sec nsec r : Int}, n < fuel →
    sint 32 sec = sec → 0 ≤ r → r < nsecPerSec → nsec = r + n * nsecPerSec → nsec < 2 ^ 31 →
    loop .endless normaliseDown fuel ⟨sec, nsec⟩ = .ok ⟨sint 32 (sec + n), r⟩ := by
  induction n with
  | zero =>
    intro fuel sec nsec r hf hs h0 hr hnsec _
    obtain rfl : nsec = r := by simpa using hnsec
    rw [normaliseDown_done hf hr, Nat.cast_zero, add_zero, hs]
  | succ n ih =>
    intro fuel sec nsec r hf hs h0 hr hnsec hlt
    obtain ⟨m, rfl⟩ := Nat.exists_eq_add_of_lt hf
    push_cast at hnsec
    unfold nsecPerSec at *
    have hround : normaliseDown ⟨sec, nsec⟩ =
        .ok (.next ⟨sint 32 (sec + 1), nsec - 1000000000⟩) := by
      unfold normaliseDown nsecPerSec
      rw [if_pos (by dsimp only; omega),
        sint_of_fits (x := nsec - 1000000000) (by norm_num) ⟨by norm_num; omega, by norm_num; omega⟩]
    rw [loop_next hround, ih (by omega) (sint_sint 32 _) h0 hr (by omega) (by omega), sint_add_sint]
    push_cast
    rw [add_assoc, add_comm (1 : Int)]

/-- The second loop adds `n` full seconds to negative nanoseconds. -/
theorem normaliseUp_spec {n : Nat} : ∀ {fuel : Nat} {sec nsec r : Int}, n < fuel →
    sint 32 sec = sec → 0 ≤ r → r < nsecPerSec → nsec = r - n * nsecPerSec → -2 ^ 31 ≤ nsec →
    loop .endless normaliseUp fuel ⟨sec, nsec⟩ = .ok ⟨sint 32 (sec - n), r⟩ := by
  induction n with
  | zero =>
    intro fuel sec nsec r hf hs h0 hr hnsec _
    obtain rfl : nsec = r := by simpa using hnsec
    rw [normaliseUp_done hf h0, Nat.cast_zero, sub_zero, hs]
  | succ n ih =>
    intro fuel sec nsec r hf hs h0 hr hnsec hle
    obtain ⟨m, rfl⟩ := Nat.exists_eq_add_of_lt hf
    push_cast at hnsec
    unfold nsecPerSec at *
    have hround : normaliseUp ⟨sec, nsec⟩ =
        .ok (.next ⟨sint 32 (sec - 1), nsec + 1000000000⟩) := by
      unfold normaliseUp nsecPerSec
      rw [if_pos (by dsimp only; omega),
        sint_of_fits (x := nsec + 1000000000) (by norm_num) ⟨by norm_num; omega, by norm_num; omega⟩]
    rw [loop_next hround, ih (by omega) (sint_sint 32 _) h0 hr (by omega) (by omega), sint_sub_left]
    push_cast
    rw [sub_sub, add_comm (1 : Int)]

/-- **Normalisation** ends, and moves the full seconds of the nanoseconds into the seconds. -/
theorem timespecNormalise_eq {fuel : Nat} (hf : 4 ≤ fuel) {t : Timespec} (ht : t.Long) :
    timespecNormalise fuel t =
      .ok ⟨sint 32 (t.tvSec + t.tvNsec / nsecPerSec), t.tvNsec % nsecPerSec⟩ := by
  obtain ⟨sec, nsec⟩ := t
  obtain ⟨hsec, hlo, hhi⟩ := ht
  have hs : sint 32 sec = sec := sint_of_fits (by norm_num) hsec
  norm_num at hlo hhi
  have hr0 : 0 ≤ nsec % nsecPerSec := Int.emod_nonneg _ (by decide)
  have hr : nsec % nsecPerSec < nsecPerSec := Int.emod_lt_of_pos _ (by decide)
  have hdiv : nsec = nsec % nsecPerSec + nsec / nsecPerSec * nsecPerSec := by
    rw [mul_comm]
    exact (Int.emod_add_mul_ediv nsec nsecPerSec).symm
  unfold timespecNormalise
  dsimp only
  rcases le_or_gt 0 nsec with h0 | hneg
  · obtain ⟨n, hn⟩ := Int.eq_ofNat_of_zero_le (Int.ediv_nonneg h0 (by decide) :
      0 ≤ nsec / nsecPerSec)
    have hf2 : n < fuel := by
      unfold nsecPerSec at hn
      omega
    rw [hn] at hdiv ⊢
    rw [normaliseDown_spec hf2 hs hr0 hr hdiv hhi]
    exact normaliseUp_done (by omega) hr0
  · obtain ⟨n, hn⟩ := Int.eq_ofNat_of_zero_le (by unfold nsecPerSec; omega :
      0 ≤ -(nsec / nsecPerSec))
    have hf2 : n < fuel := by
      unfold nsecPerSec at hn
      omega
    have hq : nsec / nsecPerSec = -(n : Int) := by omega
    rw [hq, neg_mul, ← sub_eq_add_neg] at hdiv
    rw [normaliseDown_done (by omega) (by unfold nsecPerSec; dsimp only; omega), hq,
      ← sub_eq_add_neg]
    exact normaliseUp_spec hf2 hs hr0 hr hdiv hlo

/-- Normalisation changes what a timespec stands for only by wrapping its seconds. -/
theorem timespecNormalise_ns {fuel : Nat} (hf : 4 ≤ fuel) {t : Timespec} (ht : t.Long)
    (hfit : Fits 32 (t.ns / nsecPerSec)) :
    ∃ t', timespecNormalise fuel t = .ok t' ∧ t'.Normalised ∧ t'.ns = t.ns := by
  have hq : t.tvSec + t.tvNsec / nsecPerSec = t.ns / nsecPerSec := by
    unfold Timespec.ns nsecPerSec
    omega
  refine ⟨_, timespecNormalise_eq hf ht, ⟨Int.emod_nonneg _ (by decide),
    Int.emod_lt_of_pos _ (by decide)⟩, ?_⟩
  rw [hq, sint_of_fits (by norm_num) hfit, ← hq]
  unfold Timespec.ns nsecPerSec
  dsimp only
  omega

/-- The sum of two timespecs is exact whenever a timespec can stand for it. -/
theorem timespecAdd_exact {fuel : Nat} (hf : 4 ≤ fuel) {t1 t2 : Timespec} (h1 : t1.Normalised)
    (h2 : t2.Normalised) (hsec : Fits 32 (t1.tvSec + t2.tvSec))
    (hfit : Fits 32 ((t1.ns + t2.ns) / nsecPerSec)) :
    ∃ t, timespecAdd fuel t1 t2 = .ok t ∧ t.Normalised ∧ t.ns = t1.ns + t2.ns := by
  obtain ⟨h10, h1⟩ := h1
  obtain ⟨h20, h2⟩ := h2
  have hnsec : Fits 32 (t1.tvNsec + t2.tvNsec) := by
    unfold nsecPerSec at h1 h2
    exact ⟨by norm_num; omega, by norm_num; omega⟩
  have hsum : (⟨t1.tvSec + t2.tvSec, t1.tvNsec + t2.tvNsec⟩ : Timespec).ns = t1.ns + t2.ns := by
    unfold Timespec.ns
    ring
  unfold timespecAdd
  rw [sint_of_fits (by norm_num) hsec, sint_of_fits (by norm_num) hnsec, ← hsum]
  exact timespecNormalise_ns hf ⟨hsec, hnsec⟩ (by rwa [hsum])

/-! ## 4. The conversion -/

/-- Behind the assertion, the conversion is exact on the documented range. -/
theorem timespecSplit_exact {nsec : Int} (h0 : 0 ≤ nsec) (h : nsec < 2 ^ 31 * nsecPerSec) :
    timespecSplit nsec = ⟨nsec / nsecPerSec, nsec % nsecPerSec⟩ := by
  have hq : Fits 32 (nsec / nsecPerSec) := by
    unfold nsecPerSec at *
    exact ⟨by norm_num at *; omega, by norm_num at *; omega⟩
  have hr : Fits 32 (nsec % nsecPerSec) := by
    unfold nsecPerSec at *
    exact ⟨by norm_num; omega, by norm_num; omega⟩
  have hdiff : Fits 64 (nsec - sint 32 (nsec / nsecPerSec * nsecPerSec)) := by
    obtain ⟨hlo, hhi⟩ := sint_fits (by norm_num) (w := 32) (nsec / nsecPerSec * nsecPerSec)
    unfold nsecPerSec at *
    norm_num at *
    exact ⟨by norm_num; omega, by norm_num; omega⟩
  have hrest : nsec - nsec / nsecPerSec * nsecPerSec = nsec % nsecPerSec := by
    rw [Int.emod_def, mul_comm]
  unfold timespecSplit
  rw [Int.tdiv_eq_ediv_of_nonneg h0, sint_of_fits (by norm_num) hq]
  dsimp only
  rw [sint_of_fits (by norm_num) hdiff, sint_sub_sint, hrest, sint_of_fits (by norm_num) hr]

/-- So is the way back. -/
theorem timespecToKtime_split {nsec : Int} (h0 : 0 ≤ nsec) (h : nsec < 2 ^ 31 * nsecPerSec) :
    timespecToKtime (timespecSplit nsec) = nsec := by
  rw [timespecSplit_exact h0 h]
  unfold timespecToKtime ktimeSet nsecPerSec at *
  norm_num at h
  have hq : uint 32 (nsec / 1000000000) = (nsec / 1000000000).toNat :=
    uint_of_fits (by omega) (by norm_num; omega)
  have hr : uint 32 (nsec % 1000000000) = (nsec % 1000000000).toNat :=
    uint_of_fits (by omega) (by norm_num; omega)
  dsimp only
  rw [hq, hr, sint_add_sint, sint_of_fits (by norm_num) ⟨by norm_num; omega, by norm_num; omega⟩]
  omega

/-- And so is adding to a timespec, whenever a timespec can stand for the sum. -/
theorem timespecAdd_split {fuel : Nat} (hf : 4 ≤ fuel) {ts : Timespec} (hlong : ts.Long)
    (hts : ts.Normalised) {nsec : Int} (h0 : 0 ≤ nsec) (h : nsec < 2 ^ 31 * nsecPerSec)
    (hfit : Fits 32 ((ts.ns + nsec) / nsecPerSec)) :
    ∃ t, timespecAdd fuel ts (timespecSplit nsec) = .ok t ∧ t.Normalised ∧ t.ns = ts.ns + nsec := by
  have hsplit : (timespecSplit nsec).ns = nsec := by
    rw [timespecSplit_exact h0 h]
    unfold Timespec.ns nsecPerSec
    dsimp only
    omega
  have hnorm : (timespecSplit nsec).Normalised := by
    rw [timespecSplit_exact h0 h]
    exact ⟨Int.emod_nonneg _ (by decide), Int.emod_lt_of_pos _ (by decide)⟩
  have hsec : Fits 32 (ts.tvSec + (timespecSplit nsec).tvSec) := by
    rw [timespecSplit_exact h0 h]
    obtain ⟨⟨hlo, -⟩, -⟩ := hlong
    obtain ⟨-, hhi⟩ := hfit
    obtain ⟨hn0, -⟩ := hts
    unfold Timespec.ns nsecPerSec at *
    norm_num at hlo hhi
    exact ⟨by norm_num; omega, by norm_num; omega⟩
  have hsum := timespecAdd_exact hf hts hnorm hsec (by rwa [hsplit])
  rwa [hsplit] at hsum

/-- The bound of the assertion is below zero. -/
theorem nsToTimespec_bug {fuel : Nat} {nsec : Int} (h : 0 < nsec) :
    nsToTimespec fuel nsec = .error .bug := by
  have hbound : sint 64 (~~~((1 : Int) <<< (31 : Nat)) * nsecPerSec) = -2147483649000000000 := by
    decide
  rw [nsToTimespec, if_neg h.ne', hbound, if_pos (by omega)]

/-- **Nanoseconds are converted**, on the whole documented range, for zero only. -/
theorem nsToTimespec_iff (fuel : Nat) (nsec : Int) (h0 : 0 ≤ nsec)
    (h : nsec < 2 ^ 31 * nsecPerSec) : NsConverted fuel nsec ↔ nsec = 0 := by
  constructor
  · intro hconv
    obtain ⟨ts, hok, -⟩ := hconv.converts
    by_contra hne
    rw [nsToTimespec_bug (by omega)] at hok
    cases hok
  · rintro rfl
    refine ⟨⟨⟨0, 0⟩, rfl, ⟨by decide, by decide⟩, by decide⟩, ⟨⟨0, 0⟩, rfl, by decide⟩, ?_⟩
    intro ts _ _
    exact ⟨ts, rfl, (add_zero _).symm⟩

theorem nsToTimespec_iff_zero : NsConverted 4 0 :=
  (nsToTimespec_iff 4 0 (by decide) (by decide)).mpr rfl

/-- One nanosecond stops the machine. -/
theorem nsToTimespec_halts : ¬ ∀ (fuel : Nat) (nsec : Int), 0 ≤ nsec → nsec < 2 ^ 31 * nsecPerSec →
    NsConverted fuel nsec := by
  intro h
  obtain ⟨ts, hok, -⟩ := (h 4 1 (by decide) (by decide)).converts
  rw [nsToTimespec_bug (by decide)] at hok
  cases hok

end FlightOs
