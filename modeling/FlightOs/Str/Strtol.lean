/-
# Numbers in strings

`strtol` and `strtoll` (`lib/string.c`).  Whether the next digit overflows is looked at only where
the upper bits of what has been read are in use, as many as the base has.

What goes wrong, and where:

* behind a sign the limit has a bit less, so that the last digit may go beyond it while none of
  these bits is in use: the number is returned, and changes its sign;
* without one, `strtoll` goes by a limit that has been cut to 32 bits;
* base 16 is taken for base 0, and the number is read in base 10, or in base 8 behind a zero.

`strtol_value_iff`: the result is the value of the longest sequence of digits, or the limit, if and
only if none of these is the case.
-/
import FlightOs.Ar.Reader
import FlightOs.Log2
import Mathlib.Algebra.Order.Group.Int
import Mathlib.Tactic.Linarith

namespace FlightOs

/-! ## 1. The code -/

/-- The value of a character, of which the upper case is that of `c | 0x20`. -/
def strtoVal (c : UInt8) : Option Nat :=
  let l := c ||| 0x20
  if isDigit c then some (c.toNat - 48)
  else if 97 ≤ l ∧ l ≤ 122 then some (l.toNat - 97 + 10)
  else none

/-- The loop over the digits, in words of `w` bits: the number, and what it has not read. -/
def strtoLoop (w base clamp : Nat) : Nat → List UInt8 → Nat × List UInt8
  | res, [] => (res, [])
  | res, c :: l =>
    match strtoVal c with
    | none => (res, c :: l)
    | some val =>
      if base ≤ val then (res, c :: l)
      -- overflow is looked for only where the upper bits are in use
      else if 2 ^ (w - kfls base) ≤ res ∧ (clamp - val) / base < res then (clamp, c :: l)
      else strtoLoop w base clamp ((res * base + val) % 2 ^ w) l

inductive StrSign
  | none
  | minus
  | plus
  deriving DecidableEq, Repr

/-- The sign behind the blanks, and what follows it. -/
def strtoSign (nptr : List UInt8) : StrSign × List UInt8 :=
  let nptr := nptr.dropWhile isSpace
  if nptr.head? = some 45 then (.minus, nptr.tail)
  else if nptr.head? = some 43 then (.plus, nptr.tail)
  else (.none, nptr)

/-- The base that is used, and where the digits begin. -/
def strtoBase (base : Nat) (nptr : List UInt8) : Nat × List UInt8 :=
  if base = 0 ∨ base = 16 then
    if nptr.head? = some 48 then
      if nptr[1]? = some 120 ∨ nptr[1]? = some 88 then (16, nptr.drop 2) else (8, nptr.drop 1)
    else (10, nptr)
  else (base, nptr)

/-- `clamp`, where `clamp` is what it is set to first. -/
def strtoClamp (w clamp : Nat) : StrSign → Nat
  | .none => clamp
  | .minus => 2 ^ (w - 1)
  | .plus => 2 ^ (w - 1) - 1

/-- `- (long int) res` or `(long int) res` -/
def strtoResult (w : Nat) (sign : StrSign) (res : Nat) : Int :=
  match sign with
  | .minus => Int.bmod (-res) (2 ^ w)
  | _ => Int.bmod res (2 ^ w)

/-- Both functions: the number, and `*endptr`. -/
def strto (w clamp : Nat) (nptr : List UInt8) (base : Nat) : Int × List UInt8 :=
  let (sign, digits) := strtoSign nptr
  let (base, digits) := strtoBase base digits
  let (res, endptr) := strtoLoop w base (strtoClamp w clamp sign) 0 digits
  (strtoResult w sign res, if res ≠ 0 then endptr else nptr)

namespace Str

/-- `strtol` -/
def strtol (nptr : List UInt8) (base : Nat) : Int × List UInt8 := strto 32 (2 ^ 32 - 1) nptr base

/-- `strtoll`, with `(unsigned long) ULONG_LONG_MAX` -/
def strtoll (nptr : List UInt8) (base : Nat) : Int × List UInt8 := strto 64 (2 ^ 32 - 1) nptr base

end Str

/-! ## 2. Values and limits -/

/-- The longest sequence of digits. -/
def strDigits (base : Nat) : List UInt8 → List Nat
  | [] => []
  | c :: l =>
    match strtoVal c with
    | none => []
    | some val => if base ≤ val then [] else val :: strDigits base l

/-- The number with these digits, behind others that make up `res`. -/
def valueFrom (base res : Nat) (ds : List Nat) : Nat := ds.foldl (fun r d => r * base + d) res

/-- The value of the longest sequence of digits. -/
def strValue (base : Nat) (l : List UInt8) : Nat := valueFrom base 0 (strDigits base l)

/-- The largest value that there is with this sign, without it. -/
def strLimit (w : Nat) : StrSign → Nat
  | .none => 2 ^ w - 1
  | .minus => 2 ^ (w - 1)
  | .plus => 2 ^ (w - 1) - 1

/-- The value with its sign, converted to the type of the result if it has none. -/
def strSigned (w : Nat) (sign : StrSign) (v : Nat) : Int :=
  match sign with
  | .none => Int.bmod v (2 ^ w)
  | .minus => -v
  | .plus => v

section Values

variable {w base clamp res v : Nat} {c : UInt8} {l : List UInt8} {ds ds' : List Nat}

theorem valueFrom_cons (d : Nat) : valueFrom base res (d :: ds) = valueFrom base (res * base + d) ds :=
  rfl

theorem le_valueFrom (hb : 0 < base) : ∀ {ds : List Nat} {res : Nat}, res ≤ valueFrom base res ds
  | [], _ => Nat.le_refl _
  | d :: ds, res => by
    have hstep : res ≤ res * base + d := Nat.le_add_right_of_le (Nat.le_mul_of_pos_right res hb)
    exact hstep.trans (le_valueFrom hb)

theorem strDigits_lt : ∀ {l : List UInt8}, ∀ d ∈ strDigits base l, d < base
  | [], d, hd => by cases hd
  | c :: l, d, hd => by
    rw [strDigits] at hd
    split at hd
    case h_1 => cases hd
    case h_2 val _ =>
      split at hd
      case isTrue => cases hd
      case isFalse hlt =>
        rcases List.mem_cons.mp hd with rfl | hd
        · exact Nat.not_le.mp hlt
        · exact strDigits_lt d hd

/-- **The loop.**  The limit is found to be exceeded at the last digit, or not at all: what has been
read before it is the value divided by the base. -/
theorem strtoLoop_eq (hb : 0 < base) (hroom : 2 ^ (w - kfls base) * base ≤ 2 ^ w)
    (hclamp : clamp < 2 ^ w) (hbase : base ≤ clamp + 1) : ∀ {l : List UInt8} {res : Nat},
    (strtoLoop w base clamp res l).1 =
      if strDigits base l ≠ [] ∧ 2 ^ (w - kfls base) ≤ valueFrom base res (strDigits base l) / base ∧
        clamp < valueFrom base res (strDigits base l) then clamp
      else valueFrom base res (strDigits base l)
  | [], res => by simp [strtoLoop, strDigits, valueFrom]
  | c :: l, res => by
    rw [strtoLoop]
    cases hval : strtoVal c with
    | none => simp [strDigits, hval, valueFrom]
    | some d =>
      dsimp only
      by_cases hd : base ≤ d
      · simp [strDigits, hval, if_pos hd, valueFrom]
      · have hcons : strDigits base (c :: l) = d :: strDigits base l := by
          rw [strDigits, hval]
          exact if_neg hd
        simp only [hcons, if_neg hd, valueFrom_cons]
        have hnext : res * base + d ≤ valueFrom base (res * base + d) (strDigits base l) :=
          le_valueFrom hb
        have hover : (clamp - d) / base < res ↔ clamp < res * base + d := by
          rw [Nat.div_lt_iff_lt_mul hb]
          omega
        have hdiv : (res * base + d) / base = res := by
          rw [Nat.mul_comm, Nat.mul_add_div hb, Nat.div_eq_of_lt (Nat.not_le.mp hd), Nat.add_zero]
        have hdiv' := Nat.div_le_div_right (c := base) hnext
        rw [hdiv] at hdiv'
        by_cases hstop : 2 ^ (w - kfls base) ≤ res ∧ (clamp - d) / base < res
        · rw [if_pos hstop, if_pos ⟨List.cons_ne_nil _ _, hstop.1.trans hdiv',
            Nat.lt_of_lt_of_le (hover.mp hstop.2) hnext⟩]
        · have hfits : res * base + d < 2 ^ w := by
            by_cases hlow : 2 ^ (w - kfls base) ≤ res
            · have := mt hover.mpr fun h => hstop ⟨hlow, h⟩
              omega
            · have := Nat.mul_le_mul_right base (Nat.succ_le_of_lt (Nat.not_le.mp hlow))
              rw [Nat.succ_mul] at this
              omega
          rw [if_neg hstop, Nat.mod_eq_of_lt hfits, strtoLoop_eq hb hroom hclamp hbase]
          by_cases hnil : strDigits base l = []
          · have hno : ¬ (2 ^ (w - kfls base) ≤ res ∧ clamp < res * base + d) := by
              rwa [← hover]
            simp only [hnil, valueFrom, List.foldl_nil, hdiv, ne_eq, not_true_eq_false, false_and,
              if_false, reduceCtorEq, not_false_eq_true, true_and, if_neg hno]
          · simp only [ne_eq, hnil, reduceCtorEq, not_false_eq_true, true_and]

/-- A larger base makes the number no smaller. -/
theorem valueFrom_mono {base' : Nat} (hb : 0 < base') (hle : base ≤ base') :
    ∀ {l : List UInt8} {res res' : Nat}, res ≤ res' →
      valueFrom base res (strDigits base l) ≤ valueFrom base' res' (strDigits base' l)
  | [], _, _, h => h
  | c :: l, res, res', h => by
    rw [strDigits, strDigits]
    cases strtoVal c with
    | none => exact h
    | some d =>
      dsimp only
      by_cases hd : base ≤ d
      · rw [if_pos hd]
        exact h.trans (le_valueFrom hb)
      · rw [if_neg hd, if_neg (by omega), valueFrom_cons, valueFrom_cons]
        exact valueFrom_mono hb hle (Nat.add_le_add_right (Nat.mul_le_mul h hle) d)

end Values

/-! ## 3. What is read -/

section Read

variable {w base : Nat} {s l : List UInt8} {sign : StrSign} {u v q t : Nat}

/-- The base in which the number is read. -/
def strReadBase (base : Nat) (s : List UInt8) : Nat := (strtoBase base (strtoSign s).2).1

/-- The value that is read in this base. -/
def strRead (base : Nat) (s : List UInt8) : Nat :=
  strValue (strReadBase base s) (strtoBase base (strtoSign s).2).2

/-- In any other base than 16 the digits are read as they are. -/
theorem strtoBase_of_ne (h0 : base ≠ 0) (h16 : base ≠ 16) : strtoBase base l = (base, l) :=
  if_neg (by omega)

theorem strtoBase_bounds (hb : 2 ≤ base) (hb' : base ≤ 36) :
    2 ≤ (strtoBase base l).1 ∧ (strtoBase base l).1 ≤ 36 := by
  unfold strtoBase
  split_ifs <;> omega

/-- What is read in base 16 is no more than there is, unless the number is the zero of a prefix. -/
theorem strRead_le (hb : 2 ≤ base) :
    strRead base s ≤ strValue base (strtoSign s).2 ∨ strValue base (strtoSign s).2 = 0 := by
  rw [strRead, strReadBase]
  generalize (strtoSign s).2 = l
  by_cases h16 : base = 16
  · subst h16
    rw [strtoBase, if_pos (.inr rfl)]
    cases l with
    | nil => exact .inl (Nat.le_refl 0)
    | cons c l =>
      by_cases h0 : c = 48
      · subst h0
        have hzero : strValue 16 (48 :: l) = strValue 16 l := rfl
        rw [hzero, if_pos (by rfl)]
        cases l with
        | nil => exact .inr rfl
        | cons c' l =>
          by_cases hx : c' = 120 ∨ c' = 88
          · right
            rcases hx with rfl | rfl <;> rfl
          · rw [if_neg (by simpa using hx)]
            exact .inl (valueFrom_mono (by decide) (show 8 ≤ 16 by decide) (Nat.le_refl 0))
      · rw [if_neg (by simpa using h0)]
        exact .inl (valueFrom_mono (by decide) (show 10 ≤ 16 by decide) (Nat.le_refl 0))
  · rw [strtoBase_of_ne (by omega) h16]
    exact .inl (Nat.le_refl _)

/-- The upper bits are as many as the base has. -/
theorem room_of_base (hb : 0 < base) (hb' : base ≤ 36) (hw : 6 ≤ w) :
    2 ^ (w - kfls base) * base ≤ 2 ^ w ∧ 2 ^ (w - 6) ≤ 2 ^ (w - kfls base) := by
  have hk : kfls base ≤ 6 := kfls_le_iff.mpr (by omega)
  have hlt : base < 2 ^ kfls base := kfls_le_iff.mp le_rfl
  constructor
  · calc 2 ^ (w - kfls base) * base ≤ 2 ^ (w - kfls base) * 2 ^ kfls base :=
          Nat.mul_le_mul_left _ hlt.le
      _ = 2 ^ w := by rw [← Nat.pow_add, Nat.sub_add_cancel (hk.trans hw)]
  · exact Nat.pow_le_pow_right (by decide) (by omega)

/-- **The number that is returned**, from the value that is read. -/
theorem strto_eq (hb : 2 ≤ base) (hb' : base ≤ 36) (hw : w = 32 ∨ w = 64) :
    (strto w (2 ^ 32 - 1) s base).1 = strtoResult w (strtoSign s).1
      (if 2 ^ (w - kfls (strReadBase base s)) ≤ strRead base s / strReadBase base s ∧
          strtoClamp w (2 ^ 32 - 1) (strtoSign s).1 < strRead base s then
        strtoClamp w (2 ^ 32 - 1) (strtoSign s).1
      else strRead base s) := by
  obtain ⟨hlow, hhigh⟩ := strtoBase_bounds (l := (strtoSign s).2) hb hb'
  obtain ⟨hroom, -⟩ := room_of_base (w := w) (by omega) hhigh (by omega)
  have hclamp : strtoClamp w (2 ^ 32 - 1) (strtoSign s).1 < 2 ^ w ∧
      (strtoBase base (strtoSign s).2).1 ≤ strtoClamp w (2 ^ 32 - 1) (strtoSign s).1 + 1 := by
    rcases hw with rfl | rfl <;> cases (strtoSign s).1 <;> norm_num [strtoClamp] <;> omega
  have hrun : (strto w (2 ^ 32 - 1) s base).1 = strtoResult w (strtoSign s).1
      (strtoLoop w (strtoBase base (strtoSign s).2).1 (strtoClamp w (2 ^ 32 - 1) (strtoSign s).1) 0
        (strtoBase base (strtoSign s).2).2).1 := rfl
  rw [hrun, strtoLoop_eq (by omega) hroom hclamp.1 hclamp.2]
  by_cases hnil : strDigits (strtoBase base (strtoSign s).2).1 (strtoBase base (strtoSign s).2).2 = []
  · have hzero : strRead base s = 0 := by
      rw [strRead, strReadBase, strValue, hnil]
      rfl
    have hno : ¬ strtoClamp w (2 ^ 32 - 1) (strtoSign s).1 < strRead base s := by
      rw [hzero]
      exact Nat.not_lt_zero _
    rw [if_neg fun h => h.1 hnil, if_neg fun h => hno h.2]
    rfl
  · simp only [ne_eq, hnil, not_false_eq_true, true_and]
    rfl

/-! ## 4. The law -/

/-- The result is the value of the longest sequence of digits, or the limit of its sign. -/
def StrLaw (w base : Nat) (s : List UInt8) (result : Int) : Prop :=
  result = strSigned w (strtoSign s).1 (min (strValue base (strtoSign s).2) (strLimit w (strtoSign s).1))

/-- The value goes beyond the limit of its sign with the last digit, and none of the upper bits is in
use before it. -/
def StrSlip (w base : Nat) (sign : StrSign) (v : Nat) : Prop :=
  sign ≠ .none ∧ strLimit w sign < v ∧ v / base < 2 ^ (w - kfls base)

/-- The upper bits are in use in a number without a sign. -/
def StrCut (w base : Nat) (sign : StrSign) (v : Nat) : Prop :=
  sign = .none ∧ 2 ^ (w - kfls base) ≤ v / base

/-- The value that is read stands for the same number. -/
def StrReadsSame (w base : Nat) (s : List UInt8) : Prop :=
  min (strRead base s) (strLimit w (strtoSign s).1) =
    min (strValue base (strtoSign s).2) (strLimit w (strtoSign s).1)

/-- A number that is returned stands for a value `u` if the limit is found to be exceeded where it is,
and the value `v` that was read is limited to the same number; `t` is where the upper bits begin. -/
theorem strtoResult_minus_iff (hw : w = 32 ∨ w = 64) (hfit : v / base < t → v < 2 ^ w) :
    strtoResult w .minus (if t ≤ v / base ∧ strtoClamp w (2 ^ 32 - 1) .minus < v then
        strtoClamp w (2 ^ 32 - 1) .minus else v) =
      strSigned w .minus (min u (strLimit w .minus)) ↔
    min v (strLimit w .minus) = min u (strLimit w .minus) ∧
      ¬ (strLimit w .minus < v ∧ v / base < t) := by
  simp only [strtoResult, strSigned, strtoClamp, strLimit, Int.bmod_def]
  rcases hw with rfl | rfl <;> norm_num at hfit ⊢ <;> split_ifs <;> omega

theorem strtoResult_plus_iff (hw : w = 32 ∨ w = 64) (hfit : v / base < t → v < 2 ^ w) :
    strtoResult w .plus (if t ≤ v / base ∧ strtoClamp w (2 ^ 32 - 1) .plus < v then
        strtoClamp w (2 ^ 32 - 1) .plus else v) =
      strSigned w .plus (min u (strLimit w .plus)) ↔
    min v (strLimit w .plus) = min u (strLimit w .plus) ∧
      ¬ (strLimit w .plus < v ∧ v / base < t) := by
  simp only [strtoResult, strSigned, strtoClamp, strLimit, Int.bmod_def]
  rcases hw with rfl | rfl <;> norm_num at hfit ⊢ <;> split_ifs <;> omega

theorem strtoResult_none_iff (hfit : v / base < t → v < 2 ^ 32) :
    strtoResult 32 .none (if t ≤ v / base ∧ strtoClamp 32 (2 ^ 32 - 1) .none < v then
        strtoClamp 32 (2 ^ 32 - 1) .none else v) =
      strSigned 32 .none (min u (strLimit 32 .none)) ↔
    min v (strLimit 32 .none) = min u (strLimit 32 .none) := by
  simp only [strtoResult, strSigned, strtoClamp, strLimit, Int.bmod_def]
  norm_num at hfit ⊢
  split_ifs <;> omega

/-- The limit that has been cut is the value of no number whose upper bits are in use. -/
theorem strtoResult_none64_iff (hfit : v / base < t → v < 2 ^ 64) (ht : 2 ^ 58 ≤ t)
    (hu : v ≤ u ∨ u = 0) :
    strtoResult 64 .none (if t ≤ v / base ∧ strtoClamp 64 (2 ^ 32 - 1) .none < v then
        strtoClamp 64 (2 ^ 32 - 1) .none else v) =
      strSigned 64 .none (min u (strLimit 64 .none)) ↔
    min v (strLimit 64 .none) = min u (strLimit 64 .none) ∧ ¬ t ≤ v / base := by
  have hle := Nat.div_le_self v base
  simp only [strtoResult, strSigned, strtoClamp, strLimit, Int.bmod_def]
  norm_num at hfit ht ⊢
  split_ifs <;> omega

/-- **The value law** holds if and only if the value that is read stands for the same number, and the
limit is found to be exceeded where it is: behind a sign, the value is not beyond it by its last digit
alone; and without one, the upper bits are not in use before the last digit in `strtoll`. -/
theorem strtol_value_iff (hb : 2 ≤ base) (hb' : base ≤ 36) :
    (StrLaw 32 base s (Str.strtol s base).1 ↔ StrReadsSame 32 base s ∧
        ¬ StrSlip 32 (strReadBase base s) (strtoSign s).1 (strRead base s)) ∧
      (StrLaw 64 base s (Str.strtoll s base).1 ↔ StrReadsSame 64 base s ∧
        ¬ StrSlip 64 (strReadBase base s) (strtoSign s).1 (strRead base s) ∧
        ¬ StrCut 64 (strReadBase base s) (strtoSign s).1 (strRead base s)) := by
  obtain ⟨hlow, hhigh⟩ : 2 ≤ strReadBase base s ∧ strReadBase base s ≤ 36 := strtoBase_bounds hb hb'
  have hpos : 0 < strReadBase base s := by omega
  have hfit : ∀ w, 6 ≤ w → strRead base s / strReadBase base s < 2 ^ (w - kfls (strReadBase base s)) →
      strRead base s < 2 ^ w := by
    intro w hw hlt
    have hroom := (room_of_base hpos hhigh hw).1
    rw [Nat.div_lt_iff_lt_mul hpos] at hlt
    omega
  have htop : 2 ^ 58 ≤ 2 ^ (64 - kfls (strReadBase base s)) :=
    (room_of_base hpos hhigh (by decide : 6 ≤ 64)).2
  unfold StrLaw StrReadsSame StrSlip StrCut Str.strtol Str.strtoll
  rw [strto_eq hb hb' (.inl rfl), strto_eq hb hb' (.inr rfl)]
  cases (strtoSign s).1 with
  | none =>
    rw [strtoResult_none_iff (hfit 32 (by decide)),
      strtoResult_none64_iff (hfit 64 (by decide)) htop (strRead_le hb)]
    simp
  | minus =>
    rw [strtoResult_minus_iff (.inl rfl) (hfit 32 (by decide)),
      strtoResult_minus_iff (.inr rfl) (hfit 64 (by decide))]
    simp
  | plus =>
    rw [strtoResult_plus_iff (.inl rfl) (hfit 32 (by decide)),
      strtoResult_plus_iff (.inr rfl) (hfit 64 (by decide))]
    simp

/-- `-3000000000` is limited by `strtol`, and read as it is by `strtoll`. -/
theorem strtol_value_iff_limited :
    (Str.strtol [45, 51, 48, 48, 48, 48, 48, 48, 48, 48, 48] 10).1 = -2147483648 ∧
      StrLaw 32 10 [45, 51, 48, 48, 48, 48, 48, 48, 48, 48, 48]
        (Str.strtol [45, 51, 48, 48, 48, 48, 48, 48, 48, 48, 48] 10).1 ∧
      StrLaw 64 10 [45, 51, 48, 48, 48, 48, 48, 48, 48, 48, 48]
        (Str.strtoll [45, 51, 48, 48, 48, 48, 48, 48, 48, 48, 48] 10).1 := by
  refine ⟨by decide, (strtol_value_iff (by decide) (by decide)).1.mpr ⟨?_, ?_⟩,
    (strtol_value_iff (by decide) (by decide)).2.mpr ⟨?_, ?_, ?_⟩⟩
  · unfold StrReadsSame
    decide
  · unfold StrSlip
    decide
  · unfold StrReadsSame
    decide
  · unfold StrSlip
    decide
  · unfold StrCut
    decide

/-- **`+2147483648`** is read as the least number there is. -/
theorem strtol_plus_wraps : ¬ ∀ (s : List UInt8) (base : Nat), 2 ≤ base → base ≤ 36 →
    strDigits base (strtoSign s).2 ≠ [] → StrLaw 32 base s (Str.strtol s base).1 := by
  intro h
  have hlaw := h [43, 50, 49, 52, 55, 52, 56, 51, 54, 52, 56] 10 (by decide) (by decide)
    (by decide)
  have hne : ¬ StrLaw 32 10 [43, 50, 49, 52, 55, 52, 56, 51, 54, 52, 56]
      (Str.strtol [43, 50, 49, 52, 55, 52, 56, 51, 54, 52, 56] 10).1 := by
    rw [StrLaw]
    decide
  exact hne hlaw

end Read

end FlightOs
