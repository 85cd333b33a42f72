/-
# Numerals, and how a number is laid out

The digits of a value come out of `vsnprintf` with the last one first, and `render_final` puts the
pad and the sign behind them before it prints the buffer backwards.

* `digitsOf_eq`: as long as they fit, these are the digits of the value in its base.
* `renderFinal_eq`: a number is printed as the sign, the digits and the pad, in the order that the
  flags ask for; but where there is a sign and the digits alone are as many as the width, the first
  of them is lost.
* `textValue_eq`: the value can be read off the text.
-/
import FlightOs.Printf.Vsnprintf
import Mathlib.Data.Nat.Digits.Lemmas

namespace FlightOs

/-! ## 1. Numerals -/

/-- The numeral of `n`, the first digit first, without leading zeros. -/
def numeral (upper : Bool) (base n : Nat) : List UInt8 :=
  if n = 0 then ['0'.toUInt8] else ((Nat.digits base n).map (asciiDigit upper)).reverse

/-- The value of a character as a digit; what is no digit has a value that no base has. -/
def digitValue (c : UInt8) : Nat :=
  if '0'.toUInt8 ≤ c ∧ c ≤ '9'.toUInt8 then c.toNat - 48
  else if 'a'.toUInt8 ≤ c ∧ c ≤ 'f'.toUInt8 then c.toNat - 87
  else if 'A'.toUInt8 ≤ c ∧ c ≤ 'F'.toUInt8 then c.toNat - 55
  else 16

/-- The number that these digits are, behind others that make up `acc`. -/
def readFrom (base acc : Nat) (ds : List UInt8) : Nat :=
  ds.foldl (fun r c => r * base + digitValue c) acc

section Numeral

variable {upper : Bool} {base n room : Nat}

theorem digitValue_asciiDigit : ∀ (upper : Bool) (d : Nat), d < 16 →
    digitValue (asciiDigit upper d) = d := by
  decide +kernel

theorem readFrom_append (ds es : List UInt8) :
    readFrom base 0 (ds ++ es) = readFrom base (readFrom base 0 ds) es := List.foldl_append

theorem readFrom_zeros : ∀ n, readFrom base 0 (List.replicate n '0'.toUInt8) = 0
  | 0 => rfl
  | n + 1 => by
    have h0 : digitValue '0'.toUInt8 = 0 := by decide
    rw [List.replicate_succ', readFrom_append, readFrom_zeros n]
    simp [readFrom, h0]

/-- **The digits of a value that fits.** -/
theorem digitsOf_eq (hbase : 1 < base) : ∀ {room n : Nat}, 0 < room → n < base ^ room →
    (digitsOf upper base room n).reverse = numeral upper base n
  | 0, _, h, _ => absurd h (Nat.lt_irrefl 0)
  | room + 1, n, _, hn => by
    rw [digitsOf, numeral]
    by_cases hq : n / base = 0
    · have hlt : n < base := (Nat.div_eq_zero_iff.mp hq).resolve_left (by omega)
      rw [if_pos hq, Nat.mod_eq_of_lt hlt]
      by_cases h0 : n = 0
      · rw [if_pos h0, h0]
        rfl
      · rw [if_neg h0, Nat.digits_of_lt base n h0 hlt]
        rfl
    · have h0 : n ≠ 0 := by
        rintro rfl
        exact hq (Nat.zero_div base)
      have hroom : 0 < room := by
        refine Nat.pos_of_ne_zero (fun h => hq ?_)
        rw [h, Nat.zero_add, Nat.pow_one] at hn
        exact Nat.div_eq_of_lt hn
      have ih := digitsOf_eq hbase (n := n / base) hroom
        (Nat.div_lt_of_lt_mul (by rwa [Nat.pow_succ'] at hn))
      rw [numeral, if_neg hq] at ih
      rw [if_neg hq, if_neg h0, Nat.digits_def' hbase (Nat.pos_of_ne_zero h0), List.reverse_cons, ih,
        List.map_cons, List.reverse_cons]

/-- The digits are read back, as far as there was room for them. -/
theorem readFrom_digitsOf (hbase : 1 < base) (h16 : base ≤ 16) : ∀ {room n : Nat},
    readFrom base 0 (digitsOf upper base room n).reverse = n % base ^ room
  | 0, n => by rw [Nat.pow_zero, Nat.mod_one]; rfl
  | room + 1, n => by
    have hd : digitValue (asciiDigit upper (n % base)) = n % base :=
      digitValue_asciiDigit upper _ (lt_of_lt_of_le (Nat.mod_lt _ (by omega)) h16)
    rw [digitsOf, List.reverse_cons, readFrom_append]
    have htail : readFrom base 0 (if n / base = 0 then [] else digitsOf upper base room (n / base)).reverse
        = n / base % base ^ room := by
      split
      · next hq =>
        rw [hq, Nat.zero_mod]
        rfl
      · exact readFrom_digitsOf hbase h16
    rw [htail, Nat.pow_succ', Nat.mod_mul, Nat.add_comm, Nat.mul_comm base]
    simp only [readFrom, List.foldl_cons, List.foldl_nil, hd]

theorem numeral_ne_nil (hbase : 1 < base) : numeral upper base n ≠ [] := by
  have hlt : n < base ^ (n + 1) := (Nat.lt_succ_self n).trans (Nat.lt_pow_self hbase)
  rw [← digitsOf_eq hbase (Nat.succ_pos n) hlt, digitsOf]
  simp

theorem readFrom_numeral (hbase : 1 < base) (h16 : base ≤ 16) :
    readFrom base 0 (numeral upper base n) = n := by
  have hlt : n < base ^ (n + 1) := (Nat.lt_succ_self n).trans (Nat.lt_pow_self hbase)
  rw [← digitsOf_eq hbase (Nat.succ_pos n) hlt, readFrom_digitsOf hbase h16, Nat.mod_eq_of_lt hlt]

theorem length_numeral_le {k : Nat} (hbase : 1 < base) (hk : 0 < k) (h : n < base ^ k) :
    (numeral upper base n).length ≤ k := by
  rw [numeral]
  split
  · exact hk
  · rw [List.length_reverse, List.length_map]
    exact (Nat.digits_length_le_iff hbase n).mpr h

theorem digitValue_digitsOf (h0 : 0 < base) (h16 : base ≤ 16) : ∀ {room n : Nat},
    ∀ c ∈ digitsOf upper base room n, digitValue c < 16
  | 0, _, c, hc => absurd hc List.not_mem_nil
  | room + 1, n, c, hc => by
    rw [digitsOf, List.mem_cons] at hc
    rcases hc with rfl | hc
    · have hlt : n % base < 16 := lt_of_lt_of_le (Nat.mod_lt _ h0) h16
      rwa [digitValue_asciiDigit _ _ hlt]
    · split at hc
      · exact absurd hc List.not_mem_nil
      · exact digitValue_digitsOf h0 h16 c hc

theorem digitValue_numeral (hbase : 1 < base) (h16 : base ≤ 16) :
    ∀ c ∈ numeral upper base n, digitValue c < 16 := by
  have hlt : n < base ^ (n + 1) := (Nat.lt_succ_self n).trans (Nat.lt_pow_self hbase)
  intro c hc
  rw [← digitsOf_eq hbase (Nat.succ_pos n) hlt, List.mem_reverse] at hc
  exact digitValue_digitsOf (Nat.lt_of_succ_lt hbase) h16 c hc

end Numeral

/-! ## 2. The value of a text -/

/-- The digits in a text, read as one number. -/
def textValue (base : Nat) (text : List UInt8) : Nat :=
  readFrom base 0 (text.filter (fun c => digitValue c < 16))

/-- The digits in a number with its pads and its sign. -/
theorem filter_digits {before zeros after : Nat} {sgn ds : List UInt8}
    (hsgn : ∀ c ∈ sgn, ¬ digitValue c < 16) (hds : ∀ c ∈ ds, digitValue c < 16) :
    (spaces before ++ sgn ++ List.replicate zeros '0'.toUInt8 ++ ds ++ spaces after).filter
      (fun c => digitValue c < 16) = List.replicate zeros '0'.toUInt8 ++ ds := by
  have hspaces : ∀ n, (spaces n).filter (fun c => digitValue c < 16) = [] := by
    intro n
    refine List.filter_eq_nil_iff.mpr (fun c hc => ?_)
    rw [List.eq_of_mem_replicate hc]
    decide
  have hnone : sgn.filter (fun c => digitValue c < 16) = [] :=
    List.filter_eq_nil_iff.mpr (fun c hc => by simpa using hsgn c hc)
  have hzeros : (List.replicate zeros '0'.toUInt8).filter (fun c => digitValue c < 16) =
      List.replicate zeros '0'.toUInt8 := by
    refine List.filter_eq_self.mpr (fun c hc => ?_)
    rw [List.eq_of_mem_replicate hc]
    decide
  have hall : ds.filter (fun c => digitValue c < 16) = ds :=
    List.filter_eq_self.mpr (fun c hc => by simpa using hds c hc)
  simp only [List.filter_append, hspaces, hnone, hzeros, hall, List.nil_append, List.append_nil]

/-- **The value is that of the digits**, whatever pads and signs there are. -/
theorem textValue_eq {base before zeros after : Nat} {sgn ds : List UInt8}
    (hsgn : ∀ c ∈ sgn, ¬ digitValue c < 16) (hds : ∀ c ∈ ds, digitValue c < 16) :
    textValue base (spaces before ++ sgn ++ List.replicate zeros '0'.toUInt8 ++ ds ++ spaces after) =
      readFrom base 0 ds := by
  rw [textValue, filter_digits hsgn hds, readFrom_append, readFrom_zeros]

/-! ## 3. The layout -/

/-- A sign and digits in a field. -/
def layout (left zero : Bool) (width : Nat) (sgn ds : List UInt8) : List UInt8 :=
  let pad := width - (sgn.length + ds.length)
  if left then sgn ++ ds ++ spaces pad
  else if zero then sgn ++ List.replicate pad '0'.toUInt8 ++ ds
  else spaces pad ++ sgn ++ ds

/-- The sign that is asked for. -/
def signOf (sign : Bool) (spec : FmtSpec) : List UInt8 :=
  if sign then ['-'.toUInt8]
  else if spec.plus then ['+'.toUInt8]
  else if spec.space then [' '.toUInt8]
  else []

section Layout

variable {left zero sign : Bool} {width : Nat} {sgn ds buf : List UInt8} {spec : FmtSpec}

theorem length_layout : (layout left zero width sgn ds).length = max width (sgn.length + ds.length) := by
  unfold layout spaces
  simp only
  split
  · simp only [List.length_append, List.length_replicate]
    omega
  · split
    · simp only [List.length_append, List.length_replicate]
      omega
    · simp only [List.length_append, List.length_replicate]
      omega

/-- Pads and zeros around a sign and digits. -/
theorem layout_parts (left zero : Bool) (width : Nat) (sgn ds : List UInt8) : ∃ before zeros after, layout left zero width sgn ds =
    spaces before ++ sgn ++ List.replicate zeros '0'.toUInt8 ++ ds ++ spaces after := by
  obtain ⟨pad, hpad⟩ : ∃ pad, pad = width - (sgn.length + ds.length) := ⟨_, rfl⟩
  rw [layout, ← hpad]
  cases left with
  | true => exact ⟨0, 0, pad, by simp [spaces]⟩
  | false =>
    cases zero with
    | true => exact ⟨0, pad, 0, by simp [spaces]⟩
    | false => exact ⟨pad, 0, 0, by simp [spaces]⟩

theorem renderSign_none (h : signOf sign spec = []) : renderSign sign spec buf = buf := by
  unfold signOf at h
  unfold renderSign
  cases sign with
  | true => cases h
  | false =>
    cases hp : spec.plus with
    | true => simp [hp] at h
    | false =>
      cases hs : spec.space with
      | true => simp [hp, hs] at h
      | false => simp

theorem renderSign_some {c : UInt8} (h : signOf sign spec = [c]) (hlen : buf.length < stackBufSize) :
    renderSign sign spec buf =
      (if buf.length = spec.width then buf.dropLast else buf) ++ [c] := by
  have hpush : ∀ c, pushChar c (if buf.length = spec.width then buf.dropLast else buf) =
      (if buf.length = spec.width then buf.dropLast else buf) ++ [c] := by
    intro c
    refine if_pos ?_
    split
    · rw [List.length_dropLast]
      omega
    · exact hlen
  unfold signOf at h
  unfold renderSign
  cases sign with
  | true =>
    obtain rfl : '-'.toUInt8 = c := List.head_eq_of_cons_eq h
    simp only [Bool.true_or, true_and, if_true]
    exact hpush _
  | false =>
    cases hp : spec.plus with
    | true =>
      simp only [hp, Bool.false_eq_true, if_false, if_true] at h
      obtain rfl : '+'.toUInt8 = c := List.head_eq_of_cons_eq h
      simp only [Bool.or_true, Bool.true_or, true_and, Bool.false_eq_true, if_false, if_true]
      exact hpush _
    | false =>
      cases hs : spec.space with
      | true =>
        simp only [hp, hs, Bool.false_eq_true, if_false, if_true] at h
        obtain rfl : ' '.toUInt8 = c := List.head_eq_of_cons_eq h
        simp only [Bool.or_true, true_and, Bool.false_eq_true, if_false, if_true]
        exact hpush _
      | false => simp [hp, hs] at h

theorem signOf_cases (sign : Bool) (spec : FmtSpec) : signOf sign spec = [] ∨ ∃ c, signOf sign spec = [c] := by
  unfold signOf
  split
  · exact .inr ⟨_, rfl⟩
  · split
    · exact .inr ⟨_, rfl⟩
    · split
      · exact .inr ⟨_, rfl⟩
      · exact .inl rfl

/-- The digits, the first one first, from which a sign takes one where they fill the width. -/
def keptDigits (width : Nat) (sgn ds : List UInt8) : List UInt8 :=
  if sgn ≠ [] ∧ ds.length = width then ds.tail else ds

/-- **What `render_final` prints**, without a hash and a precision. -/
theorem renderFinal_eq (hhash : spec.hash = false) (hprec : spec.prec = 0)
    (hwidth : spec.width < stackBufSize)
    (hlen : buf.length + (signOf sign spec).length ≤ stackBufSize) :
    renderFinal sign buf spec = layout spec.left spec.zeropad spec.width (signOf sign spec)
      (keptDigits spec.width (signOf sign spec) buf.reverse) := by
  have hzeros : ∀ w, w < stackBufSize → zerosTo w buf =
      buf ++ List.replicate (w - buf.length) '0'.toUInt8 := by
    intro w hw
    rw [zerosTo, Nat.min_eq_left (Nat.le_of_lt hw)]
  have hzero : zerosTo 0 buf = buf := by
    rw [hzeros 0 (by decide)]
    simp
  unfold renderFinal layout keptDigits
  simp only [hhash, hprec, hzero, ite_self, Bool.false_eq_true, if_false]
  rcases signOf_cases sign spec with hsgn | ⟨c, hsgn⟩
  · simp only [renderSign_none hsgn, hsgn, ne_eq, not_true, false_and, if_false, List.nil_append,
      List.length_nil, Nat.zero_add, List.length_reverse]
    cases spec.left with
    | true => simp
    | false =>
      cases spec.zeropad with
      | true => simp [hzeros _ hwidth]
      | false => simp
  rw [hsgn] at hlen ⊢
  have hlt : buf.length < stackBufSize := hlen
  have hrest : (if [c] ≠ [] ∧ buf.reverse.length = spec.width then buf.reverse.tail else buf.reverse)
      = (if buf.length = spec.width then buf.dropLast else buf).reverse := by
    rw [List.length_reverse, List.tail_reverse, apply_ite List.reverse]
    simp
  rw [hrest]
  by_cases hz : spec.left = false ∧ spec.zeropad = true ∧ buf.length < spec.width
  · -- the sign takes the place of a zero
    obtain ⟨hl, hp, hw⟩ := hz
    obtain ⟨k, hk⟩ : ∃ k, spec.width - buf.length = k + 1 := ⟨spec.width - buf.length - 1, by omega⟩
    have hB : (zerosTo spec.width buf).length = spec.width := by
      rw [hzeros _ hwidth, List.length_append, List.length_replicate]
      omega
    have hne : ¬ buf.length = spec.width := Nat.ne_of_lt hw
    have hpad : spec.width - ([c].length + buf.length) = k := by
      rw [List.length_singleton]
      omega
    simp only [hl, hp, Bool.not_false, Bool.and_self, if_true, Bool.false_eq_true, if_false, if_neg hne]
    rw [renderSign_some hsgn (by omega), if_pos hB, hzeros _ hwidth, hk, List.replicate_succ',
      ← List.append_assoc, List.dropLast_concat, List.length_reverse, hpad]
    simp
  · have hbuf : (if (!spec.left && spec.zeropad) = true then zerosTo spec.width buf else buf) = buf := by
      split
      · next hlz =>
        rw [Bool.and_eq_true, Bool.not_eq_true'] at hlz
        have hge : spec.width - buf.length = 0 := by
          by_contra hne
          exact hz ⟨hlz.1, hlz.2, by omega⟩
        rw [hzeros _ hwidth, hge, List.replicate_zero, List.append_nil]
      · rfl
    rw [hbuf, renderSign_some hsgn hlt]
    obtain ⟨B, hB⟩ : ∃ B, (if buf.length = spec.width then buf.dropLast else buf) = B := ⟨_, rfl⟩
    rw [hB]
    cases hl : spec.left with
    | true => simp [Nat.add_comm]
    | false =>
      cases hp : spec.zeropad with
      | true =>
        have hge : spec.width - (B.length + 1) = 0 := by
          have : ¬ buf.length < spec.width := fun h => hz ⟨hl, hp, h⟩
          rw [← hB]
          split
          · rw [List.length_dropLast]
            omega
          · omega
        simp [Nat.add_comm 1, hge]
      | false => simp [Nat.add_comm]

end Layout

end FlightOs
