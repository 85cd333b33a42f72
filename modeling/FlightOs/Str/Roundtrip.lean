/-
# Numbers that are printed and read back

What `vsnprintf` prints for an integer conversion, `strtol` and `strtoll` are to read back in the
base of the conversion: pads and all, from the first blank to the last digit.

* Base 16 is left out: `strtol` takes it for base 0, and no conversion here prints a prefix.
* The conversions that do not print their argument (`SignLost`, `Extended`, `Truncated`) are left
  out as well.

`printf_strtol`: `strtol` reads back what fits a `long`; `strtoll` reads everything back, except for
an unsigned number that is not below its limit of 32 bits where overflow is looked for.
-/
import FlightOs.Printf.Integer
import FlightOs.Str.EndPtr

namespace FlightOs

/-! ## 1. Digits -/

/-- A number ends here. -/
def StrStops (l : List UInt8) : Prop := ∀ c ∈ l.head?, strtoVal c = none

section Digits

variable {upper : Bool} {w base clamp n res : Nat} {ds : List Nat} {rest : List UInt8}

theorem strtoVal_asciiDigit : ∀ (upper : Bool) (d : Nat), d < 16 →
    strtoVal (asciiDigit upper d) = some d := by
  decide

/-- A digit is no blank and no sign. -/
theorem asciiDigit_start : ∀ (upper : Bool) (d : Nat), d < 16 →
    isSpace (asciiDigit upper d) = false ∧ asciiDigit upper d ≠ 45 ∧ asciiDigit upper d ≠ 43 := by
  decide

/-- A numeral, behind zeros, as its digits. -/
theorem numeral_digits (upper : Bool) (n zeros : Nat) (hbase : 1 < base) :
    ∃ ds, List.replicate zeros '0'.toUInt8 ++ numeral upper base n = ds.map (asciiDigit upper) ∧
      ds ≠ [] ∧ (∀ d ∈ ds, d < base) ∧ valueFrom base 0 ds = n := by
  obtain ⟨ds, hds, hne, hlt, hval⟩ : ∃ ds, numeral upper base n = ds.map (asciiDigit upper) ∧
      ds ≠ [] ∧ (∀ d ∈ ds, d < base) ∧ valueFrom base 0 ds = n := by
    unfold numeral
    split
    case isTrue hn =>
      refine ⟨[0], ?_, List.cons_ne_nil _ _, ?_, ?_⟩
      · cases upper <;> decide
      · simp
        omega
      · rw [hn]
        simp [valueFrom]
    case isFalse hn =>
      refine ⟨(Nat.digits base n).reverse, by rw [List.map_reverse], ?_, fun d hd => ?_, ?_⟩
      · simp [Nat.digits_ne_nil_iff_ne_zero.mpr hn]
      · exact Nat.digits_lt_base hbase (List.mem_reverse.mp hd)
      · rw [valueFrom, List.foldl_reverse]
        conv_rhs => rw [← Nat.ofDigits_digits base n, Nat.ofDigits_eq_foldr]
        simp only [Nat.cast_id, Nat.mul_comm, Nat.add_comm]
  refine ⟨List.replicate zeros 0 ++ ds, ?_, by simp [hne], fun d hd => ?_, ?_⟩
  · have hzero : asciiDigit upper 0 = '0'.toUInt8 := by cases upper <;> decide
    rw [List.map_append, List.map_replicate, hzero, hds]
  · rcases List.mem_append.mp hd with hd | hd
    · rw [List.eq_of_mem_replicate hd]
      omega
    · exact hlt d hd
  · have hzeros : ∀ k, valueFrom base 0 (List.replicate k 0) = 0 := by
      intro k
      induction k with
      | zero => rfl
      | succ k ih =>
        rw [List.replicate_succ, valueFrom_cons, Nat.zero_mul]
        exact ih
    have happend : valueFrom base 0 (List.replicate zeros 0 ++ ds) =
        valueFrom base (valueFrom base 0 (List.replicate zeros 0)) ds := List.foldl_append
    rw [happend, hzeros, hval]

/-- **The digits of a number that is not found to exceed the limit.** -/
theorem strtoLoop_reads (hb : 0 < base) (h16 : base ≤ 16) (hstops : StrStops rest) :
    ∀ {ds : List Nat} {res : Nat}, (∀ d ∈ ds, d < base) → valueFrom base res ds < 2 ^ w →
      (valueFrom base res ds ≤ clamp ∨ valueFrom base res ds / base < 2 ^ (w - kfls base)) →
        strtoLoop w base clamp res (ds.map (asciiDigit upper) ++ rest) =
          (valueFrom base res ds, rest)
  | [], res, _, _, _ => by
    rw [List.map_nil, List.nil_append]
    cases rest with
    | nil => rfl
    | cons c l =>
      have hnone : strtoVal c = none := hstops c rfl
      rw [strtoLoop, hnone]
      rfl
  | d :: ds, res, hds, hlt, hlimit => by
    have hd : d < base := hds d List.mem_cons_self
    have hnext : res * base + d ≤ valueFrom base (res * base + d) ds := le_valueFrom hb
    rw [valueFrom_cons] at hlt hlimit ⊢
    have hgo : ¬ (2 ^ (w - kfls base) ≤ res ∧ (clamp - d) / base < res) := by
      rintro ⟨hlow, hover⟩
      rw [Nat.div_lt_iff_lt_mul hb] at hover
      rcases hlimit with hle | hle
      · omega
      · have hdiv : res ≤ valueFrom base (res * base + d) ds / base := by
          rw [Nat.le_div_iff_mul_le hb]
          omega
        omega
    rw [List.map_cons, List.cons_append, strtoLoop, strtoVal_asciiDigit upper d (by omega)]
    simp only
    rw [if_neg (by omega), if_neg hgo, Nat.mod_eq_of_lt (lt_of_le_of_lt hnext hlt)]
    exact strtoLoop_reads hb h16 hstops (fun e he => hds e (List.mem_cons_of_mem d he)) hlt hlimit

/-- The digits that are read. -/
theorem strDigits_map (h16 : base ≤ 16) (hstops : StrStops rest) : ∀ {ds : List Nat},
    (∀ d ∈ ds, d < base) → strDigits base (ds.map (asciiDigit upper) ++ rest) = ds
  | [], _ => by
    rw [List.map_nil, List.nil_append]
    cases rest with
    | nil => rfl
    | cons c l =>
      have hnone : strtoVal c = none := hstops c rfl
      rw [strDigits, hnone]
  | d :: ds, hds => by
    have hd : d < base := hds d List.mem_cons_self
    rw [List.map_cons, List.cons_append, strDigits, strtoVal_asciiDigit upper d (by omega)]
    simp only
    rw [if_neg (by omega),
      strDigits_map h16 hstops (fun e he => hds e (List.mem_cons_of_mem d he))]

end Digits

/-! ## 2. The text of a conversion -/

/-- The number, converted to the type of the result, and the end of the string, or blanks that are
left; behind a zero, the start of the string. -/
structure StrReadsBack (w : Nat) (value : Int) (text : List UInt8) (r : Int × List UInt8) :
    Prop where
  number : r.1 = Int.bmod value (2 ^ w)
  zero : value = 0 → r.2 = text
  ends : value ≠ 0 → r.2 <:+ text ∧ ∀ c ∈ r.2, c = ' '.toUInt8

namespace IntSpecifier

variable {S : IntSpecifier} {v : BitVec 64}

/-- The sign of the text. -/
def strSign (S : IntSpecifier) (v : BitVec 64) : StrSign :=
  if S.value v < 0 then .minus else if S.conv.signed && S.spec.plus then .plus else .none

theorem strtoSign_sgn {k : Nat} {l : List UInt8}
    (hl : ∀ c ∈ l.head?, isSpace c = false ∧ c ≠ 45 ∧ c ≠ 43) :
    strtoSign (spaces k ++ (S.sgn v ++ l)) = (S.strSign v, l) := by
  have hspaces : ∀ l, (spaces k ++ l).dropWhile isSpace = l.dropWhile isSpace := by
    intro l
    refine List.dropWhile_append_of_pos (fun c hc => ?_)
    rw [List.eq_of_mem_replicate hc]
    decide
  have hdrop : l.dropWhile isSpace = l := by
    cases l with
    | nil => rfl
    | cons c l => rw [List.dropWhile_cons_of_neg (by simp [(hl c rfl).1])]
  have hminus : l.head? ≠ some 45 := fun h => (hl 45 h).2.1 rfl
  have hplus : l.head? ≠ some 43 := fun h => (hl 43 h).2.2 rfl
  unfold strtoSign
  rw [hspaces]
  unfold sgn strSign
  split
  case isTrue => rfl
  case isFalse =>
    split
    case isTrue => rfl
    case isFalse =>
      split
      case isTrue =>
        have hblank : ([' '.toUInt8] ++ l).dropWhile isSpace = l := hdrop
        simp only
        rw [hblank, if_neg hminus, if_neg hplus]
      case isFalse =>
        rw [List.nil_append, hdrop]
        simp only [if_neg hminus, if_neg hplus]

/-- What is printed of the digits, where none is lost. -/
theorem keptDigits_eq (hlost : ¬ S.SignLost v) (hext : ¬ S.Extended v) (htrunc : ¬ S.Truncated v) :
    keptDigits S.width.value (S.sgn v) (S.digits v) =
      numeral S.upper S.conv.base (S.value v).natAbs := by
  cases hs : S.conv.signed with
  | true =>
    obtain ⟨hbase, hupper⟩ := signed_conv hs
    rw [keptDigits, (S.digits_signed hs).1]
    refine if_neg (fun hboth => hlost ⟨hs, (sgn_ne_nil hs).mp hboth.1, ?_⟩)
    rw [← hbase, ← hupper]
    exact hboth.2
  | false =>
    have heq : S.magnitude v = (S.value v).natAbs :=
      (S.magnitude_unsigned hs).elim And.left (fun h => absurd h.2.2 hext)
    rw [keptDigits, S.sgn_unsigned hs, digits,
      digitsOf_eq (base_bounds _).1 (by decide) (S.magnitude_lt hs htrunc heq), heq]
    simp

/-- **The text**: blanks, the sign, the digits of the number, and blanks. -/
theorem text_digits (hlost : ¬ S.SignLost v) (hext : ¬ S.Extended v) (htrunc : ¬ S.Truncated v) :
    ∃ before ds after, S.text v =
        spaces before ++ (S.sgn v ++ (ds.map (asciiDigit S.upper) ++ spaces after)) ∧
      ds ≠ [] ∧ (∀ d ∈ ds, d < S.conv.base) ∧ valueFrom S.conv.base 0 ds = (S.value v).natAbs := by
  obtain ⟨before, zeros, after, heq⟩ := layout_parts S.spec.left S.spec.zeropad S.width.value
    (S.sgn v) (numeral S.upper S.conv.base (S.value v).natAbs)
  obtain ⟨ds, hds, hne, hlt, hval⟩ := numeral_digits S.upper (S.value v).natAbs zeros
    (base_bounds S.conv).1
  refine ⟨before, ds, after, ?_, hne, hlt, hval⟩
  rw [text, keptDigits_eq hlost hext htrunc, heq, ← hds]
  simp only [List.append_assoc]

/-- The value fits the type. -/
theorem value_bounds : (S.conv.signed = true → -2 ^ (S.length.bits - 1) ≤ S.value v ∧
      S.value v < 2 ^ (S.length.bits - 1)) ∧
    (S.conv.signed = false → 0 ≤ S.value v ∧ S.value v < 2 ^ S.length.bits) := by
  unfold value
  constructor
  · intro hs
    rw [if_pos hs]
    exact ⟨BitVec.le_toInt _, BitVec.toInt_lt⟩
  · intro hs
    rw [hs]
    refine ⟨Int.natCast_nonneg _, ?_⟩
    have hlt := (v.setWidth S.length.bits).isLt
    simp only [Bool.false_eq_true, if_false]
    exact_mod_cast hlt

end IntSpecifier

/-! ## 3. Reading back -/

section Reads

variable {S : IntSpecifier} {v : BitVec 64} {w before after : Nat} {ds : List Nat}

/-- An unsigned number reaches what the limit of 32 bits is looked for. -/
def StrOverLimit (S : IntSpecifier) (v : BitVec 64) : Prop :=
  S.conv.signed = false ∧ 2 ^ (64 - kfls S.conv.base) ≤ (S.value v).natAbs / S.conv.base

theorem StrOverLimit.lt (h : StrOverLimit S v) : 2 ^ 32 - 1 < (S.value v).natAbs := by
  obtain ⟨-, hb16⟩ := IntSpecifier.base_bounds S.conv
  have hk : kfls S.conv.base ≤ 5 := kfls_le_iff.mpr (by omega)
  calc 2 ^ 32 - 1 < 2 ^ (64 - 5) := by decide
    _ ≤ 2 ^ (64 - kfls S.conv.base) := Nat.pow_le_pow_right (by decide) (by omega)
    _ ≤ (S.value v).natAbs / S.conv.base := h.2
    _ ≤ (S.value v).natAbs := Nat.div_le_self _ _

/-- Behind the blanks there is a digit, and behind the digits there is none. -/
theorem text_scan (after : Nat) (hne : ds ≠ []) (hlt : ∀ d ∈ ds, d < S.conv.base) :
    (∀ c ∈ (ds.map (asciiDigit S.upper) ++ spaces after).head?,
      isSpace c = false ∧ c ≠ 45 ∧ c ≠ 43) ∧ StrStops (spaces after) := by
  obtain ⟨hb1, hb16⟩ := IntSpecifier.base_bounds S.conv
  constructor
  · obtain ⟨d, ds, rfl⟩ := List.exists_cons_of_ne_nil hne
    intro c hc
    obtain rfl : asciiDigit S.upper d = c := Option.some.inj hc
    have hd : d < S.conv.base := hlt d List.mem_cons_self
    exact asciiDigit_start S.upper d (by omega)
  · intro c hc
    rw [List.eq_of_mem_replicate (List.mem_of_head? hc)]
    decide

/-- What a call makes of the text, while the limit is not found to be exceeded. -/
theorem strto_text (before after : Nat) (hhex : S.conv.base ≠ 16) (hne : ds ≠ [])
    (hlt : ∀ d ∈ ds, d < S.conv.base)
    (hval : valueFrom S.conv.base 0 ds = (S.value v).natAbs) (hw : (S.value v).natAbs < 2 ^ w)
    (hlimit : (S.value v).natAbs ≤ strtoClamp w (2 ^ 32 - 1) (S.strSign v) ∨
      (S.value v).natAbs / S.conv.base < 2 ^ (w - kfls S.conv.base)) :
    strto w (2 ^ 32 - 1)
        (spaces before ++ (S.sgn v ++ (ds.map (asciiDigit S.upper) ++ spaces after))) S.conv.base =
      (strtoResult w (S.strSign v) (S.value v).natAbs,
        if (S.value v).natAbs ≠ 0 then spaces after
        else spaces before ++ (S.sgn v ++ (ds.map (asciiDigit S.upper) ++ spaces after))) := by
  obtain ⟨hb1, hb16⟩ := IntSpecifier.base_bounds S.conv
  obtain ⟨hstart, hstops⟩ := text_scan (S := S) after hne hlt
  have hloop : strtoLoop w S.conv.base (strtoClamp w (2 ^ 32 - 1) (S.strSign v)) 0
      (ds.map (asciiDigit S.upper) ++ spaces after) = ((S.value v).natAbs, spaces after) := by
    rw [← hval] at hw hlimit ⊢
    exact strtoLoop_reads (by omega) hb16 hstops hlt hw hlimit
  unfold strto
  rw [IntSpecifier.strtoSign_sgn hstart]
  simp only
  rw [strtoBase_of_ne (by omega) hhex]
  simp only [hloop]

/-- `strtoll` stops at its limit of 32 bits. -/
theorem strtoll_over (hhex : S.conv.base ≠ 16) (hne : ds ≠ []) (hlt : ∀ d ∈ ds, d < S.conv.base)
    (hval : valueFrom S.conv.base 0 ds = (S.value v).natAbs) (hover : StrOverLimit S v) :
    (Str.strtoll (spaces before ++ (S.sgn v ++ (ds.map (asciiDigit S.upper) ++ spaces after)))
      S.conv.base).1 = Int.bmod (2 ^ 32 - 1) (2 ^ 64) := by
  obtain ⟨hb1, hb16⟩ := IntSpecifier.base_bounds S.conv
  obtain ⟨hstart, hstops⟩ := text_scan (S := S) after hne hlt
  have hclamp := hover.lt
  obtain ⟨hs, hlarge⟩ := hover
  have hsign : S.strSign v = .none := by
    unfold IntSpecifier.strSign
    rw [if_neg (not_lt.mpr (S.value_nonneg hs)), hs]
    rfl
  have hscan := IntSpecifier.strtoSign_sgn (S := S) (v := v) (k := before) hstart
  have hbase : strtoBase S.conv.base (ds.map (asciiDigit S.upper) ++ spaces after) =
      (S.conv.base, ds.map (asciiDigit S.upper) ++ spaces after) := strtoBase_of_ne (by omega) hhex
  have hread : strRead S.conv.base
      (spaces before ++ (S.sgn v ++ (ds.map (asciiDigit S.upper) ++ spaces after))) =
        (S.value v).natAbs := by
    rw [strRead, strReadBase, hscan]
    simp only [hbase]
    rw [strValue, strDigits_map hb16 hstops hlt, hval]
  rw [Str.strtoll, strto_eq hb1 (by omega) (.inr rfl), hread, strReadBase, hscan]
  simp only [hbase, hsign, strtoClamp]
  rw [if_pos ⟨hlarge, hclamp⟩]
  rfl

/-- A result with its sign. -/
theorem strtoResult_natAbs :
    strtoResult w (S.strSign v) (S.value v).natAbs = Int.bmod (S.value v) (2 ^ w) := by
  by_cases hneg : S.value v < 0
  · have hsign : S.strSign v = .minus := if_pos hneg
    have habs : -(((S.value v).natAbs : Nat) : Int) = S.value v := by omega
    rw [hsign, strtoResult]
    simp only [habs]
  · have habs : (((S.value v).natAbs : Nat) : Int) = S.value v := by omega
    have hsign : S.strSign v ≠ .minus := by
      unfold IntSpecifier.strSign
      rw [if_neg hneg]
      split <;> simp
    unfold strtoResult
    split
    case h_1 h => exact absurd h hsign
    case h_2 => rw [habs]

theorem natAbs_value_lt_bits : (S.value v).natAbs < 2 ^ S.length.bits := by
  have hpow : (2 : Int) ^ S.length.bits = 2 * 2 ^ (S.length.bits - 1) := by
    rw [← pow_succ', Nat.sub_add_cancel (by cases S.length <;> decide)]
  have hcast : (((2 ^ S.length.bits : Nat)) : Int) = 2 ^ S.length.bits := by push_cast; rfl
  have hpos : (0 : Int) < 2 ^ (S.length.bits - 1) := by positivity
  obtain ⟨hsigned, hunsigned⟩ := IntSpecifier.value_bounds (S := S) (v := v)
  cases hs : S.conv.signed with
  | true =>
    obtain ⟨hlow, hhigh⟩ := hsigned hs
    omega
  | false =>
    obtain ⟨hlow, hhigh⟩ := hunsigned hs
    omega

/-- A signed number is within the limit that goes with its sign. -/
theorem signed_limit (hbits : S.length.bits ≤ w) (hs : S.conv.signed = true) :
    (S.value v < 0 → (S.value v).natAbs ≤ 2 ^ (w - 1)) ∧
      (0 ≤ S.value v → (S.value v).natAbs ≤ 2 ^ (w - 1) - 1) := by
  obtain ⟨hlow, hhigh⟩ := (IntSpecifier.value_bounds (S := S) (v := v)).1 hs
  have hpow : 2 ^ (S.length.bits - 1) ≤ 2 ^ (w - 1) := Nat.pow_le_pow_right (by decide) (by omega)
  have hcast : (((2 ^ (S.length.bits - 1) : Nat)) : Int) = 2 ^ (S.length.bits - 1) := by
    push_cast
    rfl
  constructor
  · intro hneg
    omega
  · intro hnonneg
    omega

/-- The limit is not found to be exceeded. -/
theorem within_limit (hbits : S.length.bits ≤ w) (hw : w = 32 ∨ w = 64 ∧ ¬ StrOverLimit S v) :
    (S.value v).natAbs ≤ strtoClamp w (2 ^ 32 - 1) (S.strSign v) ∨
      (S.value v).natAbs / S.conv.base < 2 ^ (w - kfls S.conv.base) := by
  have hlt : (S.value v).natAbs < 2 ^ S.length.bits := natAbs_value_lt_bits
  unfold IntSpecifier.strSign
  split
  case isTrue hneg =>
    have hs : S.conv.signed = true := by
      by_contra hs
      have hnonneg := ((IntSpecifier.value_bounds (v := v)).2 (Bool.eq_false_iff.mpr hs)).1
      exact absurd hneg (not_lt.mpr hnonneg)
    exact .inl ((signed_limit hbits hs).1 hneg)
  case isFalse hneg =>
    have hnonneg : 0 ≤ S.value v := not_lt.mp hneg
    split
    case isTrue hplus =>
      have hs : S.conv.signed = true := (Bool.and_eq_true _ _ |>.mp hplus).1
      exact .inl ((signed_limit hbits hs).2 hnonneg)
    case isFalse =>
      rcases hw with rfl | ⟨rfl, hover⟩
      · have hpow : 2 ^ S.length.bits ≤ 2 ^ 32 := Nat.pow_le_pow_right (by decide) hbits
        refine .inl ?_
        show _ ≤ 2 ^ 32 - 1
        omega
      · refine .inr ?_
        cases hs : S.conv.signed with
        | true =>
          have hbase := (IntSpecifier.signed_conv hs).1
          have hle := (signed_limit hbits hs).2 hnonneg
          have hk : kfls 10 = 4 := by decide
          rw [hbase, hk]
          omega
        | false => exact not_le.mp (fun h => hover ⟨hs, h⟩)

/-- **What is printed is read back**, by `strtol` if it fits a `long`, and by `strtoll` if and only
if it is no unsigned number that is taken for one over the limit. -/
theorem printf_strtol (hhex : S.conv.base ≠ 16) (hlost : ¬ S.SignLost v) (hext : ¬ S.Extended v)
    (htrunc : ¬ S.Truncated v) :
    ∃ text, (∀ {δ : Type} (F : FloatOps δ) (str size : Nat), text.length < vsnLimit str size →
        VsnPrints F str size S.format (S.args v) text) ∧
      (S.length ≠ .ll → StrReadsBack 32 (S.value v) text (Str.strtol text S.conv.base)) ∧
      (StrReadsBack 64 (S.value v) text (Str.strtoll text S.conv.base) ↔ ¬ StrOverLimit S v) := by
  obtain ⟨before, ds, after, htext, hne, hds, hval⟩ := S.text_digits hlost hext htrunc
  have hreads : ∀ w, S.length.bits ≤ w → (w = 32 ∨ w = 64 ∧ ¬ StrOverLimit S v) →
      StrReadsBack w (S.value v) (S.text v) (strto w (2 ^ 32 - 1) (S.text v) S.conv.base) := by
    intro w hbits hw
    have hlt : (S.value v).natAbs < 2 ^ w :=
      natAbs_value_lt_bits.trans_le (Nat.pow_le_pow_right (by decide) hbits)
    have hcall := strto_text before after hhex hne hds hval hlt
      (within_limit hbits hw)
    rw [← htext] at hcall
    rw [hcall]
    refine ⟨strtoResult_natAbs, fun hzero => ?_, fun hnz => ?_⟩
    · simp [hzero]
    · have hnz : (S.value v).natAbs ≠ 0 := Int.natAbs_ne_zero.mpr hnz
      simp only [if_pos hnz]
      refine ⟨?_, fun c hc => List.eq_of_mem_replicate hc⟩
      rw [htext]
      exact ((List.suffix_append _ _).trans (List.suffix_append _ _)).trans (List.suffix_append _ _)
  refine ⟨S.text v, fun F str size hroom => vsnPrints_text str size (S.pieces F v) hroom,
    fun hll => hreads 32 (by cases h : S.length <;> first | decide | exact absurd h hll) (.inl rfl),
    fun hback hover => ?_,
    fun hover => hreads 64 (by cases S.length <;> decide) (.inr ⟨rfl, hover⟩)⟩
  have hnumber := hback.number
  rw [htext, strtoll_over hhex hne hds hval hover] at hnumber
  have hmod : Int.bmod (2 ^ 32 - 1) (2 ^ 64) % ((2 ^ 64 : Nat) : Int) =
      Int.bmod (S.value v) (2 ^ 64) % ((2 ^ 64 : Nat) : Int) := by rw [hnumber]
  rw [Int.bmod_emod, Int.bmod_emod] at hmod
  have hlarge := hover.lt
  have hlt : (S.value v).natAbs < 2 ^ 64 := S.natAbs_value_lt v
  have hnonneg := S.value_nonneg (v := v) hover.1
  omega

/-- Minus 45 in a field of three. -/
theorem printf_strtol_three :
    ∃ text, (∀ {δ : Type} (F : FloatOps δ) (str size : Nat), text.length < vsnLimit str size →
        VsnPrints F str size threeWide.format (threeWide.args (-45)) text) ∧
      (threeWide.length ≠ .ll →
        StrReadsBack 32 (threeWide.value (-45)) text (Str.strtol text threeWide.conv.base)) ∧
      (StrReadsBack 64 (threeWide.value (-45)) text (Str.strtoll text threeWide.conv.base) ↔
        ¬ StrOverLimit threeWide (-45)) := by
  refine printf_strtol (by decide) (fun h => ?_) (fun h => ?_) (fun h => ?_)
  · exact absurd h.2.2 (by decide)
  · exact absurd h.1 (by decide)
  · exact absurd h.1 (by decide)

end Reads

end FlightOs
