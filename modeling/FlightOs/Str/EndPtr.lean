/-
# Where a number ends

The base in which `strtol` reads, and the position that it leaves in `*endptr`.

The digits that are consumed are those of the loop, and the leading zero that selects base 8; the
`0x` of a prefix is none.  The code does not ask how many there were, but whether the number is
zero, and base 16 is treated like base 0.  `strtol_endptr_iff` says for which strings and bases this
makes no difference.
-/
import FlightOs.Str.Strtol

namespace FlightOs

/-! ## 1. What the base and the position are -/

/-- `0x` or `0X` -/
def StrHexPrefix (l : List UInt8) : Prop :=
  l.head? = some 48 ∧ (l[1]? = some 120 ∨ l[1]? = some 88)

instance (l : List UInt8) : Decidable (StrHexPrefix l) := inferInstanceAs (Decidable (_ ∧ _))

/-- The base that is to be used: a base of zero goes by the prefix, any other is taken as it is. -/
def strBaseFor (base : Nat) (l : List UInt8) : Nat :=
  if base = 0 then
    if StrHexPrefix l then 16 else if l.head? = some 48 then 8 else 10
  else base

/-- What follows the sign, without the `0x` of a prefix. -/
def strStart (base : Nat) (s : List UInt8) : List UInt8 :=
  let l := (strtoSign s).2
  if (base = 0 ∨ base = 16) ∧ StrHexPrefix l then l.drop 2 else l

/-- What the loop of `strtol` leaves. -/
def strRest (base : Nat) (s : List UInt8) : List UInt8 :=
  (strtoLoop 32 (strReadBase base s) (strtoClamp 32 (2 ^ 32 - 1) (strtoSign s).1) 0
    (strtoBase base (strtoSign s).2).2).2

/-- The digits there are to consume, in the base in which the number is read. -/
def strNumber (base : Nat) (s : List UInt8) : List Nat :=
  strDigits (strReadBase base s) (strStart base s)

/-- The right base is used, and the position is that behind the digits that were consumed, if there
were any, and the start of the string otherwise. -/
structure StrScanned (base : Nat) (s : List UInt8) (endptr : List UInt8) : Prop where
  selects : strReadBase base s = strBaseFor base (strtoSign s).2
  ends : endptr = if strRest base s ≠ strStart base s then strRest base s else s

/-! ## 2. The loop -/

section Loop

variable {w base clamp res : Nat} {l : List UInt8}

theorem strtoVal_lt {c : UInt8} {d : Nat} (h : strtoVal c = some d) : d < 36 := by
  unfold strtoVal at h
  dsimp only at h
  split at h
  · next hc =>
    simp only [isDigit, Bool.and_eq_true, decide_eq_true_eq, UInt8.le_iff_toNat_le] at hc
    have h57 : (57 : UInt8).toNat = 57 := rfl
    have := Option.some.inj h
    omega
  · split at h
    · next hl =>
      have h122 := UInt8.le_iff_toNat_le.mp hl.2
      have h122' : (122 : UInt8).toNat = 122 := rfl
      have := Option.some.inj h
      omega
    · cases h

/-- What the loop leaves is the end of what it was given. -/
theorem strtoLoop_suffix {l : List UInt8} : ∀ {res : Nat}, (strtoLoop w base clamp res l).2 <:+ l := by
  induction l with
  | nil =>
    intro res
    exact List.suffix_refl []
  | cons c l ih =>
    intro res
    rw [strtoLoop]
    split
    · exact List.suffix_refl _
    · split
      · exact List.suffix_refl _
      · split
        · exact List.suffix_refl _
        · exact ih.trans (List.suffix_cons c l)

/-- From zero, the loop passes the first digit, whatever it is. -/
theorem strtoLoop_zero_cons {c : UInt8} {d : Nat} (hval : strtoVal c = some d) (hd : d < base)
    (hw : d < 2 ^ w) :
    strtoLoop w base clamp 0 (c :: l) = strtoLoop w base clamp d l := by
  rw [strtoLoop, hval]
  dsimp only
  rw [if_neg (Nat.not_le.mpr hd), if_neg fun h => absurd h.1 (Nat.not_le.mpr (Nat.two_pow_pos _)),
    Nat.zero_mul, Nat.zero_add, Nat.mod_eq_of_lt hw]

/-- It moves, if and only if there is a digit. -/
theorem strtoLoop_moves (hw : 36 ≤ 2 ^ w) :
    (strtoLoop w base clamp 0 l).2 = l ↔ strDigits base l = [] := by
  cases l with
  | nil => exact iff_of_true rfl rfl
  | cons c l =>
    cases hval : strtoVal c with
    | none => simp [strtoLoop, strDigits, hval]
    | some d =>
      by_cases hd : base ≤ d
      · simp [strtoLoop, strDigits, hval, hd]
      · have hlt := strtoVal_lt hval
        rw [strtoLoop_zero_cons hval (Nat.not_le.mp hd) (by omega), strDigits, hval]
        dsimp only
        rw [if_neg hd]
        refine iff_of_false (fun h => ?_) (List.cons_ne_nil _ _)
        have hsuffix : (strtoLoop w base clamp d l).2 <:+ l := strtoLoop_suffix
        have hlen := hsuffix.length_le
        rw [h, List.length_cons] at hlen
        omega

/-- A number that is not zero stays so: the products that could wrap are found. -/
theorem strtoLoop_ne_zero (hb : 0 < base) (hroom : 2 ^ (w - kfls base) * base ≤ 2 ^ w)
    (hclamp : clamp < 2 ^ w) (h36 : 36 ≤ clamp) {l : List UInt8} : ∀ {res : Nat}, res ≠ 0 →
    (strtoLoop w base clamp res l).1 ≠ 0 := by
  induction l with
  | nil =>
    intro res h
    exact h
  | cons c l ih =>
    intro res h
    rw [strtoLoop]
    cases hval : strtoVal c with
    | none => exact h
    | some d =>
      dsimp only
      have hlt := strtoVal_lt hval
      split
      · exact h
      · next hd =>
        split
        · dsimp only
          omega
        · next hstop =>
          have hfits : res * base + d < 2 ^ w := by
            by_cases hlow : 2 ^ (w - kfls base) ≤ res
            · have hle : res ≤ (clamp - d) / base := Nat.not_lt.mp fun hgt => hstop ⟨hlow, hgt⟩
              rw [Nat.le_div_iff_mul_le hb] at hle
              omega
            · have := Nat.mul_le_mul_right base (Nat.succ_le_of_lt (Nat.not_le.mp hlow))
              rw [Nat.succ_mul] at this
              omega
          rw [Nat.mod_eq_of_lt hfits]
          apply ih
          have := Nat.mul_pos (Nat.pos_of_ne_zero h) hb
          omega

/-- The number is zero, if and only if all its digits are. -/
theorem strtoLoop_eq_zero (hb : 0 < base) (hroom : 2 ^ (w - kfls base) * base ≤ 2 ^ w)
    (hclamp : clamp < 2 ^ w) (h36 : 36 ≤ clamp) {l : List UInt8} :
    (strtoLoop w base clamp 0 l).1 = 0 ↔ ∀ d ∈ strDigits base l, d = 0 := by
  induction l with
  | nil => exact iff_of_true rfl fun d hd => by cases hd
  | cons c l ih =>
    cases hval : strtoVal c with
    | none => simp [strtoLoop, strDigits, hval]
    | some d =>
      by_cases hd : base ≤ d
      · simp [strtoLoop, strDigits, hval, hd]
      · have hlt := strtoVal_lt hval
        rw [strtoLoop_zero_cons hval (Nat.not_le.mp hd) (by omega), strDigits, hval]
        dsimp only
        rw [if_neg hd, List.forall_mem_cons]
        by_cases h0 : d = 0
        · rw [h0, ih, and_iff_right rfl]
        · exact iff_of_false (strtoLoop_ne_zero hb hroom hclamp h36 h0) fun h => h0 h.1

end Loop

/-! ## 3. The digits that are consumed -/

section Scan

variable {base : Nat} {s l : List UInt8}

theorem strtoSign_suffix : (strtoSign s).2 <:+ s := by
  have hblanks : s.dropWhile isSpace <:+ s := List.dropWhile_suffix _
  unfold strtoSign
  dsimp only
  split
  · exact (List.tail_suffix _).trans hblanks
  · split
    · exact (List.tail_suffix _).trans hblanks
    · exact hblanks

/-- The base that is used, by what follows the sign. -/
theorem strtoBase_hex (hb : base = 0 ∨ base = 16) (h : StrHexPrefix l) :
    strtoBase base l = (16, l.drop 2) := by
  rw [strtoBase, if_pos hb, if_pos h.1, if_pos h.2]

theorem strtoBase_zero (hb : base = 0 ∨ base = 16) (h : ¬ StrHexPrefix l) (h0 : l.head? = some 48) :
    strtoBase base l = (8, l.drop 1) := by
  rw [strtoBase, if_pos hb, if_pos h0, if_neg fun hx => h ⟨h0, hx⟩]

theorem strtoBase_ten (hb : base = 0 ∨ base = 16) (h0 : l.head? ≠ some 48) :
    strtoBase base l = (10, l) := by
  rw [strtoBase, if_pos hb, if_neg h0]

/-- The digits begin where the loop does, or with the zero that has selected base 8. -/
theorem strStart_cases : strStart base s = (strtoBase base (strtoSign s).2).2 ∨
    strReadBase base s = 8 ∧ strStart base s = 48 :: (strtoBase base (strtoSign s).2).2 := by
  unfold strStart strReadBase
  dsimp only
  generalize (strtoSign s).2 = l
  by_cases hb : base = 0 ∨ base = 16
  · by_cases hx : StrHexPrefix l
    · left
      rw [if_pos ⟨hb, hx⟩, strtoBase_hex hb hx]
    · rw [if_neg fun h => hx h.2]
      by_cases h0 : l.head? = some 48
      · right
        rw [strtoBase_zero hb hx h0]
        cases l with
        | nil => cases h0
        | cons c l => exact ⟨rfl, by rw [Option.some.inj h0]; rfl⟩
      · left
        rw [strtoBase_ten hb h0]
  · left
    rw [if_neg fun h => hb h.1, strtoBase, if_neg hb]

/-- The right base is used, but for base 16 without its prefix. -/
theorem strReadBase_iff : strReadBase base s = strBaseFor base (strtoSign s).2 ↔
    (base = 16 → StrHexPrefix (strtoSign s).2) := by
  unfold strReadBase strBaseFor
  generalize (strtoSign s).2 = l
  by_cases hb : base = 0 ∨ base = 16
  · by_cases hx : StrHexPrefix l
    · rw [strtoBase_hex hb hx, if_pos hx]
      refine iff_of_true ?_ fun _ => hx
      split <;> omega
    · rw [if_neg hx]
      by_cases h0 : l.head? = some 48
      · rw [strtoBase_zero hb hx h0, if_pos h0]
        split
        · next h => exact iff_of_true rfl fun h16 => by omega
        · next h => exact iff_of_false (by omega) fun hall => hx (hall (by omega))
      · rw [strtoBase_ten hb h0, if_neg h0]
        split
        · next h => exact iff_of_true rfl fun h16 => by omega
        · next h => exact iff_of_false (by omega) fun hall => hx (hall (by omega))
  · rw [strtoBase, if_neg hb, if_neg (by omega)]
    exact iff_of_true rfl fun h16 => absurd (Or.inr h16) hb

theorem strReadBase_bounds (hbase : base < 2 ^ 32) :
    0 < strReadBase base s ∧ strReadBase base s < 2 ^ 32 := by
  unfold strReadBase strtoBase
  split_ifs <;> omega

theorem strtoClamp_bounds (sign : StrSign) :
    36 ≤ strtoClamp 32 (2 ^ 32 - 1) sign ∧ strtoClamp 32 (2 ^ 32 - 1) sign < 2 ^ 32 := by
  cases sign <;> decide

theorem strRest_suffix : strRest base s <:+ strStart base s := by
  have hloop : strRest base s <:+ (strtoBase base (strtoSign s).2).2 := strtoLoop_suffix
  rcases @strStart_cases base s with h | ⟨-, h⟩
  · rw [h]
    exact hloop
  · rw [h]
    exact hloop.trans (List.suffix_cons _ _)

theorem strStart_suffix : strStart base s <:+ s := by
  refine List.IsSuffix.trans ?_ strtoSign_suffix
  unfold strStart
  dsimp only
  split
  · exact List.drop_suffix _ _
  · exact List.suffix_refl _

/-- Something is consumed, if and only if there is a digit. -/
theorem strRest_eq_iff : strRest base s = strStart base s ↔ strNumber base s = [] := by
  have h36 : 36 ≤ 2 ^ 32 := by norm_num
  unfold strNumber
  rcases @strStart_cases base s with h | ⟨h8, h⟩
  · rw [h]
    exact strtoLoop_moves h36
  · rw [h, h8, strDigits, show strtoVal 48 = some 0 from rfl]
    refine iff_of_false (fun hrest => ?_) (by simp)
    have hloop : strRest base s <:+ (strtoBase base (strtoSign s).2).2 := strtoLoop_suffix
    have hlen := hloop.length_le
    rw [hrest, List.length_cons] at hlen
    omega

/-- The number that is read is zero, if and only if all its digits are. -/
theorem strtol_zero_iff (hbase : base < 2 ^ 32) :
    (strtoLoop 32 (strReadBase base s) (strtoClamp 32 (2 ^ 32 - 1) (strtoSign s).1) 0
      (strtoBase base (strtoSign s).2).2).1 = 0 ↔ ∀ d ∈ strNumber base s, d = 0 := by
  obtain ⟨hpos, hlt⟩ := strReadBase_bounds (s := s) hbase
  obtain ⟨h36, hclamp⟩ := strtoClamp_bounds (strtoSign s).1
  have hroom : 2 ^ (32 - kfls (strReadBase base s)) * strReadBase base s ≤ 2 ^ 32 := by
    have hk : kfls (strReadBase base s) ≤ 32 := kfls_le_iff.mpr hlt
    calc 2 ^ (32 - kfls (strReadBase base s)) * strReadBase base s
        ≤ 2 ^ (32 - kfls (strReadBase base s)) * 2 ^ kfls (strReadBase base s) :=
          Nat.mul_le_mul_left _ (kfls_le_iff.mp le_rfl).le
      _ = 2 ^ 32 := by rw [← Nat.pow_add, Nat.sub_add_cancel hk]
  rw [strtoLoop_eq_zero hpos hroom hclamp h36]
  unfold strNumber
  rcases @strStart_cases base s with h | ⟨h8, h⟩
  · rw [h]
  · rw [h, h8, strDigits.eq_2, show strtoVal 48 = some 0 from rfl]
    simp

/-- What `strtol` leaves in `*endptr`. -/
theorem strtol_endptr (hbase : base < 2 ^ 32) : (Str.strtol s base).2 =
    if ∃ d ∈ strNumber base s, d ≠ 0 then strRest base s else s := by
  have hrun : (Str.strtol s base).2 =
      if (strtoLoop 32 (strReadBase base s) (strtoClamp 32 (2 ^ 32 - 1) (strtoSign s).1) 0
        (strtoBase base (strtoSign s).2).2).1 ≠ 0 then strRest base s else s := rfl
  rw [hrun]
  refine if_congr ?_ rfl rfl
  rw [ne_eq, strtol_zero_iff hbase]
  push Not
  rfl

/-- The position is right, if and only if there is no digit, or one that is not zero. -/
theorem strtol_ends_iff (hbase : base < 2 ^ 32) :
    (Str.strtol s base).2 = (if strRest base s ≠ strStart base s then strRest base s else s) ↔
      strNumber base s = [] ∨ ∃ d ∈ strNumber base s, d ≠ 0 := by
  rw [strtol_endptr hbase]
  by_cases hnil : strNumber base s = []
  · have hnone : ¬ ∃ d ∈ strNumber base s, d ≠ 0 := by simp [hnil]
    rw [if_neg hnone, if_neg fun h => h (strRest_eq_iff.mpr hnil)]
    exact iff_of_true rfl (Or.inl hnil)
  · have hmoved : strRest base s ≠ strStart base s := mt strRest_eq_iff.mp hnil
    rw [if_pos hmoved]
    by_cases hone : ∃ d ∈ strNumber base s, d ≠ 0
    · rw [if_pos hone]
      exact iff_of_true rfl (Or.inr hone)
    · rw [if_neg hone]
      refine iff_of_false (fun hs => hmoved ?_) fun h => h.elim hnil hone
      exact strRest_suffix.eq_of_length_le (hs ▸ strStart_suffix.length_le)

end Scan

/-- **The base and the end of a number** are those of the documentation, if and only if base 16
comes with its prefix, and the digits, if there are any, are not all zero. -/
theorem strtol_endptr_iff (s : List UInt8) (base : Nat) (hbase : base < 2 ^ 32) :
    StrScanned base s (Str.strtol s base).2 ↔ (base = 16 → StrHexPrefix (strtoSign s).2) ∧
      (strNumber base s = [] ∨ ∃ d ∈ strNumber base s, d ≠ 0) := by
  rw [← strReadBase_iff, ← strtol_ends_iff hbase]
  exact ⟨fun h => ⟨h.selects, h.ends⟩, fun h => ⟨h.1, h.2⟩⟩

/-- `0x1f` in base 16. -/
theorem strtol_endptr_iff_hex : StrScanned 16 [48, 120, 49, 102] (Str.strtol [48, 120, 49, 102] 16).2 :=
  (strtol_endptr_iff [48, 120, 49, 102] 16 (by decide)).mpr (by decide)

/-- Behind `0` in base 10 there is the end of the string, and the position is its start. -/
theorem strtol_endptr_zero : ¬ ∀ (s : List UInt8) (base : Nat), base < 2 ^ 32 →
    StrScanned base s (Str.strtol s base).2 := by
  intro h
  have hends := (strtol_ends_iff (by decide)).mp (h [48] 10 (by decide)).ends
  revert hends
  decide

end FlightOs
