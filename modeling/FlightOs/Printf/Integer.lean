/-
# Integer conversions

A conversion `%[flags][width][length]type` for an integer: what it decodes to, what it prints, and
when that is the argument.

* `IntSpecifier.pieces`: the format is one piece, whose text is the sign and the digits of what the
  argument is made to, laid out in the width.
* `intPrinted_iff`: this is the argument, in its width, except where the sign costs a digit, where an
  unsigned `char` or `short` is printed with its sign bit extended, and where a `long long` has more
  binary digits than the buffer has room for.
-/
import FlightOs.Ar.Format
import FlightOs.Printf.Bounds
import FlightOs.Printf.Numeral

namespace FlightOs

/-! ## 1. Specifiers -/

inductive LengthMod
  | none | hh | h | l | ll
deriving DecidableEq

def LengthMod.text : LengthMod → List UInt8
  | .none => []
  | .hh => ['h'.toUInt8, 'h'.toUInt8]
  | .h => ['h'.toUInt8]
  | .l => ['l'.toUInt8]
  | .ll => ['l'.toUInt8, 'l'.toUInt8]

/-- The width of the type; a `long` has 32 bits. -/
def LengthMod.bits : LengthMod → Nat
  | .hh => 8
  | .h => 16
  | .none | .l => 32
  | .ll => 64

inductive IntConv
  | d | i | u | x | X | o | b
deriving DecidableEq

def IntConv.char : IntConv → UInt8
  | .d => 'd'.toUInt8
  | .i => 'i'.toUInt8
  | .u => 'u'.toUInt8
  | .x => 'x'.toUInt8
  | .X => 'X'.toUInt8
  | .o => 'o'.toUInt8
  | .b => 'b'.toUInt8

def IntConv.base : IntConv → Nat
  | .d | .i | .u => 10
  | .x | .X => 16
  | .o => 8
  | .b => 2

def IntConv.signed (c : IntConv) : Bool := c == .d || c == .i

/-- The width is not there, or a number, or an argument. -/
inductive WidthField
  | none
  | number (w : Nat)
  | star (v : BitVec 32)

def WidthField.text : WidthField → List UInt8
  | .none => []
  | .number w => numeral false 10 w
  | .star _ => ['*'.toUInt8]

def WidthField.value : WidthField → Nat
  | .none => 0
  | .number w => w
  | .star v => v.toInt.natAbs

/-- A negative width aligns to the left. -/
def WidthField.left : WidthField → Bool
  | .star v => v.msb
  | _ => false

def WidthField.args {δ : Type} : WidthField → List (VsnArg δ)
  | .star v => [.int v]
  | _ => []

def intFlags : List UInt8 := ['-'.toUInt8, '+'.toUInt8, ' '.toUInt8, '0'.toUInt8]

/-- An integer conversion, with a width that the buffer has room for. -/
structure IntSpecifier where
  flags : List UInt8
  width : WidthField
  length : LengthMod
  conv : IntConv
  flags_mem : ∀ c ∈ flags, c ∈ intFlags
  width_lt : width.value < stackBufSize
  /-- A zero would be a flag. -/
  width_pos : ∀ w, width = .number w → 0 < w

namespace IntSpecifier

variable (S : IntSpecifier)

def format : List UInt8 :=
  '%'.toUInt8 :: (S.flags ++ (S.width.text ++ (S.length.text ++ [S.conv.char, 0])))

/-- The argument; `v` counts as far as its type goes. -/
def arg {δ : Type} (v : BitVec 64) : VsnArg δ :=
  match S.length with
  | .ll => .longLong v
  | .l => .long (v.setWidth 32)
  | _ => .int (v.setWidth 32)

def args {δ : Type} (v : BitVec 64) : List (VsnArg δ) := S.width.args ++ [S.arg v]

/-- The argument, converted to the type of the length modifier. -/
def value (v : BitVec 64) : Int :=
  if S.conv.signed then (v.setWidth S.length.bits).toInt else (v.setWidth S.length.bits).toNat

/-- What the fields before the type decode to. -/
def spec : FmtSpec where
  left := S.flags.contains '-'.toUInt8 || S.width.left
  plus := S.flags.contains '+'.toUInt8
  space := S.flags.contains ' '.toUInt8
  zeropad := S.flags.contains '0'.toUInt8
  char := S.length == .hh
  short := S.length == .h
  long := S.length == .l
  longLong := S.length == .ll
  width := S.width.value

end IntSpecifier

/-! ## 2. Decoding -/

/-- What comes behind the flags is no flag. -/
def NoFlag (l : List UInt8) : Prop :=
  ∀ c ∈ l.head?, c ∉ intFlags ∧ c ≠ '#'.toUInt8

theorem evalFlags_eq {rest : List UInt8} (hrest : NoFlag rest) : ∀ (flags : List UInt8)
    (spec : FmtSpec), (∀ c ∈ flags, c ∈ '#'.toUInt8 :: intFlags) →
      evalFlags spec (flags ++ rest) =
        ({ spec with
            left := spec.left || flags.contains '-'.toUInt8
            plus := spec.plus || flags.contains '+'.toUInt8
            space := spec.space || flags.contains ' '.toUInt8
            zeropad := spec.zeropad || flags.contains '0'.toUInt8
            hash := spec.hash || flags.contains '#'.toUInt8 }, rest)
  | [], spec, _ => by
    cases rest with
    | nil => simp [evalFlags]
    | cons c rest =>
      obtain ⟨hc, hhash⟩ := hrest c rfl
      simp only [intFlags, List.mem_cons, List.not_mem_nil, or_false, not_or] at hc
      obtain ⟨h1, h2, h3, h4⟩ := hc
      simp [evalFlags, h1, h2, h3, h4, hhash]
  | c :: flags, spec, hflags => by
    have ih := fun spec => evalFlags_eq hrest flags spec
      (fun d hd => hflags d (List.mem_cons_of_mem _ hd))
    have hc := hflags c (List.mem_cons_self ..)
    simp only [intFlags, List.mem_cons, List.not_mem_nil, or_false] at hc
    rcases hc with rfl | rfl | rfl | rfl | rfl
    · exact (ih _).trans (by simp [Char.toUInt8])
    · exact (ih _).trans (by simp [Char.toUInt8])
    · exact (ih _).trans (by simp [Char.toUInt8])
    · exact (ih _).trans (by simp [Char.toUInt8])
    · exact (ih _).trans (by simp [Char.toUInt8])

/-- The digits of a number, and where it ends. -/
theorem vsnDigits_eq {rest : List UInt8} (hrest : ∀ c ∈ rest.head?, isDigit c = false) :
    ∀ (ds : List UInt8) (res : Nat), (∀ d ∈ ds, isDigit d = true) →
      vsnDigits res (ds ++ rest) =
        (ds.foldl (fun r d => wadd (r * 10) (d.toNat - 48)) res, rest)
  | [], res, _ => by
    cases rest with
    | nil => rfl
    | cons c rest =>
      have hc := hrest c rfl
      simp [vsnDigits, hc]
  | d :: ds, res, hds => by
    rw [List.cons_append, vsnDigits, if_pos (hds d (List.mem_cons_self ..)),
      vsnDigits_eq hrest ds _ (fun e he => hds e (List.mem_cons_of_mem _ he))]
    rfl

theorem digitValue_of_isDigit {d : UInt8} (hd : isDigit d = true) : digitValue d = d.toNat - 48 :=
  if_pos (by rwa [isDigit, Bool.and_eq_true, decide_eq_true_eq, decide_eq_true_eq] at hd)

/-- A number that fits a word is read as it is. -/
theorem foldl_wadd_digits : ∀ (ds : List UInt8) (res : Nat), (∀ d ∈ ds, isDigit d = true) →
    ds.foldl (fun r d => wadd (r * 10) (d.toNat - 48)) (res % 2 ^ 32) = readFrom 10 res ds % 2 ^ 32
  | [], _, _ => rfl
  | d :: ds, res, hds => by
    have hd := digitValue_of_isDigit (hds d List.mem_cons_self)
    have hstep : wadd (res % 2 ^ 32 * 10) (d.toNat - 48) = (res * 10 + digitValue d) % 2 ^ 32 := by
      rw [hd, wadd]
      omega
    rw [List.foldl_cons, hstep, foldl_wadd_digits ds _ fun e he => hds e (List.mem_cons_of_mem _ he)]
    rfl

/-- What comes behind a number is no digit, and does not pass for one. -/
def NoDigit (l : List UInt8) : Prop := ∀ c ∈ l.head?, isDigit c = false ∧ c ≠ '/'.toUInt8

/-- **The value of a number**, and where it ends. -/
theorem vsnStrtoi_digits {ds rest : List UInt8} (hne : ds ≠ []) (hds : ∀ d ∈ ds, isDigit d = true)
    (hlt : readFrom 10 0 ds < 2 ^ 32) (hrest : NoDigit rest) :
    vsnStrtoi (ds ++ rest) = (readFrom 10 0 ds, rest) := by
  have hfold := foldl_wadd_digits ds 0 hds
  rw [Nat.zero_mod, Nat.mod_eq_of_lt hlt] at hfold
  have hdigits := vsnDigits_eq (fun c hc => (hrest c hc).1) ds 0 hds
  rw [hfold] at hdigits
  have hslash : (rest.head? == some '/'.toUInt8) = false :=
    beq_false_of_ne fun h => (hrest _ h).2 rfl
  cases ds with
  | nil => exact absurd rfl hne
  | cons d ds =>
    obtain ⟨hspace, hminus, hplus⟩ := isDigit_not_space (hds d List.mem_cons_self)
    have h1 : (some d == some '-'.toUInt8) = false := beq_false_of_ne (fun h => hminus (Option.some.inj h))
    have h2 : (some d == some '+'.toUInt8) = false := beq_false_of_ne (fun h => hplus (Option.some.inj h))
    unfold vsnStrtoi
    rw [List.cons_append, List.dropWhile_cons_of_neg (by simp [hspace])]
    simp only [List.head?_cons, h1, h2, Bool.or_self, Bool.false_eq_true, if_false]
    rw [← List.cons_append, hdigits]
    simp only [hslash, Bool.false_eq_true, if_false]

theorem isDigit_asciiDigit : ∀ d < 10, isDigit (asciiDigit false d) = true ∧
    (d ≠ 0 → asciiDigit false d ≠ '0'.toUInt8) := by
  decide

/-- The text of a width is digits, the first of which is no zero. -/
theorem numeral_width {w : Nat} (hpos : 0 < w) :
    (∃ d ds, numeral false 10 w = d :: ds ∧ d ≠ '0'.toUInt8) ∧
      ∀ d ∈ numeral false 10 w, isDigit d = true := by
  have hw := Nat.ne_of_gt hpos
  have hlt := fun {d} (hd : d ∈ Nat.digits 10 w) => Nat.digits_lt_base (by decide : 1 < 10) hd
  have hdigits : Nat.digits 10 w ≠ [] := Nat.digits_ne_nil_iff_ne_zero.mpr hw
  rw [numeral, if_neg hw]
  constructor
  · -- the first digit is the last one of the list
    refine ⟨_, _, by rw [← List.dropLast_append_getLast hdigits, List.map_append, List.map_singleton,
      List.reverse_append, List.reverse_singleton, List.singleton_append], ?_⟩
    exact (isDigit_asciiDigit _ (hlt (List.getLast_mem hdigits))).2 (Nat.getLast_digit_ne_zero 10 hw)
  · intro d hd
    obtain ⟨e, he, rfl⟩ := List.mem_map.mp (List.mem_reverse.mp hd)
    exact (isDigit_asciiDigit e (hlt he)).1

section Width

variable {δ : Type} {W : WidthField} {rest : List UInt8} {args : List (VsnArg δ)}

/-- A width does not begin with a flag. -/
theorem WidthField.noFlag (hW : ∀ w, W = .number w → 0 < w) (hrest : NoFlag rest) :
    NoFlag (W.text ++ rest) := by
  intro c hc
  cases hw : W with
  | none =>
    rw [hw] at hc
    exact hrest c hc
  | number w =>
    obtain ⟨⟨d, ds, hn, hzero⟩, hall⟩ := numeral_width (hW w hw)
    rw [hw, WidthField.text, hn] at hc
    obtain rfl := Option.some.inj hc
    have hdigit := hall d (by rw [hn]; exact List.mem_cons_self)
    refine ⟨fun hmem => ?_, ?_⟩
    · simp only [intFlags, List.mem_cons, List.not_mem_nil, or_false] at hmem
      rcases hmem with rfl | rfl | rfl | rfl
      · exact absurd hdigit (by decide)
      · exact absurd hdigit (by decide)
      · exact absurd hdigit (by decide)
      · exact hzero rfl
    · rintro rfl
      exact absurd hdigit (by decide)
  | star v =>
    rw [hw] at hc
    obtain rfl := Option.some.inj hc
    decide

/-- A number, or its negation if it is negative, is its absolute value. -/
theorem toNat_abs {w : Nat} (x : BitVec w) : (if x.msb then -x else x).toNat = x.toInt.natAbs := by
  have hlt := x.isLt
  rw [BitVec.toInt_eq_msb_cond]
  cases hm : x.msb with
  | true =>
    have hpos : x.toNat ≠ 0 := by
      intro h0
      obtain rfl : x = 0#w := BitVec.eq_of_toNat_eq (by simpa using h0)
      simp at hm
    simp only [if_true]
    rw [BitVec.toNat_neg, Nat.mod_eq_of_lt (by omega)]
    omega
  | false => simp

/-- **The width.** -/
theorem evalWidth_field (hW : ∀ w, W = .number w → 0 < w ∧ w < 2 ^ 32) (hne : rest ≠ [])
    (hstar : ∀ c ∈ rest.head?, c ≠ '*'.toUInt8) (hrest : NoDigit rest) (spec : FmtSpec) :
    evalWidth spec (W.text ++ rest) (W.args ++ args) =
      some ({ spec with width := W.value, left := spec.left || W.left }, rest, args) := by
  cases hw : W with
  | none =>
    obtain ⟨c, l, rfl⟩ := List.exists_cons_of_ne_nil hne
    have hdig := (hrest c rfl).1
    simp only [WidthField.text, WidthField.args, WidthField.value, WidthField.left, List.nil_append,
      Bool.or_false]
    rw [evalWidth, if_neg (by simp [hdig]), if_neg (hstar c rfl)]
  | number w =>
    obtain ⟨hpos, hlt⟩ := hW w hw
    obtain ⟨⟨d, ds, hn, -⟩, hall⟩ := numeral_width hpos
    have hread : readFrom 10 0 (numeral false 10 w) = w := readFrom_numeral (by decide) (by decide)
    have hatoi := vsnStrtoi_digits (numeral_ne_nil (by decide)) hall (by rw [hread]; exact hlt) hrest
    rw [hread] at hatoi
    simp only [WidthField.text, WidthField.args, WidthField.value, WidthField.left, List.nil_append,
      Bool.or_false]
    rw [hn] at hall hatoi ⊢
    rw [List.cons_append] at hatoi ⊢
    have h0 : (w == 0) = false := by simpa using Nat.ne_of_gt hpos
    rw [evalWidth, if_pos (hall d List.mem_cons_self), hatoi]
    simp [h0]
  | star v =>
    simp only [WidthField.text, WidthField.args, WidthField.value, WidthField.left, List.cons_append,
      List.nil_append]
    rw [evalWidth, if_neg (by decide), if_pos rfl, ← toNat_abs]
    cases hv : v.msb with
    | true => simp [starArg, hv]
    | false => simp [starArg, hv]

end Width

/-- What stands behind the width. -/
def IntSpecifier.tail (S : IntSpecifier) : List UInt8 := S.length.text ++ [S.conv.char, 0]

namespace IntSpecifier

variable {S : IntSpecifier} {δ : Type} {args : List (VsnArg δ)}

theorem tail_head : ∃ c l, S.tail = c :: l ∧ isDigit c = false ∧ c ≠ '*'.toUInt8 ∧
    c ≠ '.'.toUInt8 ∧ c ≠ '/'.toUInt8 ∧ c ∉ intFlags ∧ c ≠ '#'.toUInt8 := by
  unfold tail
  cases S.length <;> cases S.conv <;> exact ⟨_, _, rfl, by decide⟩

theorem tail_fields : S.tail ≠ [] ∧ NoFlag S.tail ∧ NoDigit S.tail ∧
    ∀ c ∈ S.tail.head?, c ≠ '*'.toUInt8 := by
  obtain ⟨c, l, hc, hdig, hstar, -, hslash, hflag, hhash⟩ := S.tail_head
  have hhead : ∀ d ∈ S.tail.head?, d = c := by
    intro d hd
    rw [hc] at hd
    exact (Option.some.inj hd).symm
  refine ⟨by rw [hc]; exact List.cons_ne_nil _ _, fun d hd => ?_, fun d hd => ?_, fun d hd => ?_⟩
  · rw [hhead d hd]
    exact ⟨hflag, hhash⟩
  · rw [hhead d hd]
    exact ⟨hdig, hslash⟩
  · rw [hhead d hd]
    exact hstar

theorem evalWidth_eq (spec : FmtSpec) :
    evalWidth spec (S.width.text ++ S.tail) (S.width.args ++ args) =
      some ({ spec with width := S.width.value, left := spec.left || S.width.left }, S.tail, args) := by
  obtain ⟨hne, -, hdigit, hstar⟩ := S.tail_fields
  refine evalWidth_field (fun w hw => ⟨S.width_pos w hw, ?_⟩) hne hstar hdigit spec
  have hlt := S.width_lt
  rw [hw] at hlt
  exact Nat.lt_trans hlt (by decide)

theorem evalPrec_eq (spec : FmtSpec) (args : List (VsnArg δ)) :
    evalPrec spec S.tail args = some ({ spec with prec := 0 }, S.tail, args) := by
  obtain ⟨c, l, hc, -, -, hdot, -⟩ := S.tail_head
  unfold evalPrec
  simp [hc, hdot]

theorem evalLength_eq (spec : FmtSpec) (h : spec.char = false ∧ spec.short = false ∧
    spec.long = false ∧ spec.longLong = false) :
    evalLength spec S.tail =
      ({ spec with
          char := S.length == .hh
          short := S.length == .h
          long := S.length == .l
          longLong := S.length == .ll }, [S.conv.char, 0]) := by
  obtain ⟨h1, h2, h3, h4⟩ := h
  obtain ⟨_, _, _, _, _, _, _, _, _, _, _, _, _, _⟩ := spec
  simp only at h1 h2 h3 h4
  subst h1 h2 h3 h4
  unfold tail
  cases S.length <;> cases S.conv <;> rfl

/-- **The fields before the type.** -/
theorem decodeFormat_eq (S : IntSpecifier) (args : List (VsnArg δ)) :
    decodeFormat (S.flags ++ (S.width.text ++ S.tail)) (S.width.args ++ args) =
      some (S.spec, [S.conv.char, 0], args) := by
  have hflags := WidthField.noFlag S.width_pos S.tail_fields.2.1
  have hhash : S.flags.contains '#'.toUInt8 = false := by
    rw [Bool.eq_false_iff, Ne, List.contains_iff_mem]
    exact fun hmem => absurd (S.flags_mem _ hmem) (by decide)
  unfold decodeFormat
  rw [evalFlags_eq hflags S.flags _ fun c hc => List.mem_cons_of_mem _ (S.flags_mem c hc)]
  simp only [hhash, evalWidth_eq, Option.bind_eq_bind, Option.bind_some, evalPrec_eq]
  rw [evalLength_eq _ ⟨rfl, rfl, rfl, rfl⟩]
  simp [spec]

end IntSpecifier

/-! ## 3. What is printed -/

namespace IntSpecifier

variable (S : IntSpecifier)

/-- What the digits are made of: the absolute value where the type is signed; where it is not, an
argument for a narrow type has its sign bit extended. -/
def magnitude (v : BitVec 64) : Nat :=
  if S.conv.signed then (S.value v).natAbs
  else
    match S.length with
    | .hh => ((v.setWidth 8).signExtend 32).toNat
    | .h => ((v.setWidth 16).signExtend 32).toNat
    | .none | .l => (v.setWidth 32).toNat
    | .ll => v.toNat

def upper : Bool := S.conv == .X

/-- The sign that goes with the value; an unsigned conversion has none. -/
def sgn (v : BitVec 64) : List UInt8 :=
  if S.value v < 0 then ['-'.toUInt8]
  else if S.conv.signed && S.spec.plus then ['+'.toUInt8]
  else if S.conv.signed && S.spec.space then [' '.toUInt8]
  else []

/-- The digits, the first one first, as many as there is room for. -/
def digits (v : BitVec 64) : List UInt8 :=
  (digitsOf S.upper S.conv.base stackBufSize (S.magnitude v)).reverse

/-- The text of the conversion. -/
def text (v : BitVec 64) : List UInt8 :=
  layout S.spec.left S.spec.zeropad S.width.value (S.sgn v)
    (keptDigits S.width.value (S.sgn v) (S.digits v))

variable {S} {v : BitVec 64}

theorem value_nonneg (h : S.conv.signed = false) : 0 ≤ S.value v := by
  rw [value, h]
  exact Int.natCast_nonneg _

/-- The type, once it is known. -/
theorem configSpecifier_spec : ∃ spec, configSpecifier S.conv.char S.spec = spec ∧
    spec.base = S.conv.base ∧ spec.uppercase = S.upper ∧ spec.hash = false ∧ spec.prec = 0 ∧
    spec.left = S.spec.left ∧ spec.zeropad = S.spec.zeropad ∧ spec.width = S.width.value ∧
    spec.plus = (S.conv.signed && S.spec.plus) ∧ spec.space = (S.conv.signed && S.spec.space) ∧
    spec.char = (S.length == .hh) ∧ spec.short = (S.length == .h) ∧
    spec.long = (S.length == .l) ∧ spec.longLong = (S.length == .ll) := by
  refine ⟨_, rfl, ?_⟩
  unfold upper
  cases S.conv <;> exact ⟨rfl, rfl, rfl, rfl, rfl, rfl, rfl, rfl, rfl, rfl, rfl, rfl, rfl⟩

theorem renderXlongToAscii_eq (signed : Bool) (x : BitVec 32) (spec : FmtSpec) :
    renderXlongToAscii (!signed) x spec = renderFinal (signed && decide (x.toInt < 0))
      (digitsOf spec.uppercase spec.base stackBufSize (if signed then x.toInt.natAbs else x.toNat))
      spec := by
  unfold renderXlongToAscii
  rw [← toNat_abs, ← BitVec.msb_eq_toInt]
  cases signed <;> simp

theorem renderXlongLongToAscii_eq (signed : Bool) (x : BitVec 64) (spec : FmtSpec) :
    renderXlongLongToAscii (!signed) x spec = renderFinal (signed && decide (x.toInt < 0))
      (digitsOf spec.uppercase spec.base stackBufSize (if signed then x.toInt.natAbs else x.toNat))
      spec := by
  unfold renderXlongLongToAscii
  rw [← toNat_abs, ← BitVec.msb_eq_toInt]
  cases signed <;> simp

/-- The argument is taken by its type, and a narrow one is cast. -/
theorem renderXsignedInteger_eq {δ : Type} {spec : FmtSpec} (hchar : spec.char = (S.length == .hh))
    (hshort : spec.short = (S.length == .h)) (hlong : spec.long = (S.length == .l))
    (hll : spec.longLong = (S.length == .ll)) :
    renderXsignedInteger (!S.conv.signed) spec [S.arg (δ := δ) v] =
      some (renderFinal (decide (S.value v < 0))
        (digitsOf spec.uppercase spec.base stackBufSize (S.magnitude v)) spec, []) := by
  have h8 : ((v.setWidth 32).setWidth 8).signExtend 32 = (v.setWidth 8).signExtend 32 := by
    rw [BitVec.setWidth_setWidth_of_le v (by decide : 8 ≤ 32)]
  have h16 : ((v.setWidth 32).setWidth 16).signExtend 32 = (v.setWidth 16).signExtend 32 := by
    rw [BitVec.setWidth_setWidth_of_le v (by decide : 16 ≤ 32)]
  have hneg : ∀ x : Nat, decide ((x : Int) < 0) = false := fun x =>
    decide_eq_false (not_lt.mpr (Int.natCast_nonneg x))
  have hi8 := BitVec.toInt_signExtend_of_le (x := v.setWidth 8) (v := 32) (by decide)
  have hi16 := BitVec.toInt_signExtend_of_le (x := v.setWidth 16) (v := 32) (by decide)
  unfold renderXsignedInteger arg magnitude value
  cases hl : S.length with
  | none =>
    rw [hl] at hchar hshort hlong hll
    simp only [hchar, hshort, hlong, hll, renderXlongToAscii_eq, LengthMod.bits]
    cases S.conv.signed <;> simp [hneg, -BitVec.toNat_setWidth]
  | hh =>
    rw [hl] at hchar hshort hlong hll
    simp only [hchar, hshort, hlong, hll, h8, renderXlongToAscii_eq, LengthMod.bits]
    cases S.conv.signed <;> simp [hneg, hi8, -BitVec.toNat_setWidth]
  | h =>
    rw [hl] at hchar hshort hlong hll
    simp only [hchar, hshort, hlong, hll, h16, renderXlongToAscii_eq, LengthMod.bits]
    cases S.conv.signed <;> simp [hneg, hi16, -BitVec.toNat_setWidth]
  | l =>
    rw [hl] at hchar hshort hlong hll
    simp only [hlong, hll, renderXlongToAscii_eq, LengthMod.bits]
    cases S.conv.signed <;> simp [hneg, -BitVec.toNat_setWidth]
  | ll =>
    rw [hl] at hchar hshort hlong hll
    simp only [hlong, hll, renderXlongLongToAscii_eq, LengthMod.bits,
      BitVec.setWidth_eq]
    cases S.conv.signed <;> simp [hneg, -BitVec.toNat_setWidth]

theorem base_bounds (c : IntConv) : 1 < c.base ∧ c.base ≤ 16 := by
  cases c <;> decide

theorem natAbs_value_lt (S : IntSpecifier) (v : BitVec 64) : (S.value v).natAbs < 2 ^ 64 := by
  have hpow : 2 ^ S.length.bits ≤ 2 ^ 64 := Nat.pow_le_pow_right (by decide) (by cases S.length <;> decide)
  unfold value
  split
  · rw [← toNat_abs]
    exact lt_of_lt_of_le (BitVec.isLt _) hpow
  · rw [Int.natAbs_natCast]
    exact lt_of_lt_of_le (BitVec.isLt _) hpow

/-- A signed conversion is decimal. -/
theorem signed_conv (h : S.conv.signed = true) : S.conv.base = 10 ∧ S.upper = false := by
  unfold upper
  cases hc : S.conv <;> first | exact ⟨rfl, rfl⟩ | (rw [hc] at h; cases h)

/-- The digits of a signed conversion leave room for a sign. -/
theorem digits_signed (h : S.conv.signed = true) :
    S.digits v = numeral S.upper S.conv.base (S.value v).natAbs ∧ (S.digits v).length ≤ 20 := by
  have hbase := (S.signed_conv h).1
  have hlt := S.natAbs_value_lt v
  have heq : S.digits v = numeral S.upper S.conv.base (S.value v).natAbs := by
    rw [digits, magnitude, h, if_pos rfl]
    refine digitsOf_eq (base_bounds _).1 (by decide) ?_
    rw [hbase]
    exact lt_of_lt_of_le hlt (by decide)
  refine ⟨heq, ?_⟩
  rw [heq]
  refine length_numeral_le (base_bounds _).1 (by decide) ?_
  rw [hbase]
  exact lt_of_lt_of_le hlt (by decide)

theorem sgn_unsigned (h : S.conv.signed = false) : S.sgn v = [] := by
  rw [sgn, if_neg (not_lt.mpr (S.value_nonneg h)), h]
  rfl

theorem length_sgn_le : (S.sgn v).length ≤ 1 := by
  unfold sgn
  split
  · exact Nat.le_refl 1
  · split
    · exact Nat.le_refl 1
    · split
      · exact Nat.le_refl 1
      · exact Nat.zero_le 1

theorem length_digitsOf_le {upper : Bool} {base : Nat} : ∀ {room n : Nat},
    (digitsOf upper base room n).length ≤ room
  | 0, _ => Nat.le_refl 0
  | room + 1, n => by
    rw [digitsOf, List.length_cons]
    split
    · exact Nat.succ_le_succ (Nat.zero_le room)
    · exact Nat.succ_le_succ length_digitsOf_le

theorem length_digits_sgn : (S.digits v).length + (S.sgn v).length ≤ stackBufSize := by
  cases h : S.conv.signed with
  | true =>
    have h1 := (S.digits_signed (v := v) h).2
    have h2 := S.length_sgn_le (v := v)
    unfold stackBufSize
    omega
  | false =>
    rw [S.sgn_unsigned h, digits, List.length_reverse]
    exact length_digitsOf_le

/-- **The text of a conversion.** -/
theorem renderSpecifier_eq {δ : Type} (F : FloatOps δ) :
    renderSpecifier F S.conv.char S.spec [S.arg v] = some (.text (S.text v), []) := by
  obtain ⟨spec, hspec, hbase, hupper, hhash, hprec, hleft, hzero, hwidth, hplus, hspace, hchar, hshort,
    hlong, hll⟩ := S.configSpecifier_spec
  have hinteger : ∀ args : List (VsnArg δ), renderInteger S.conv.char spec args =
      renderXsignedInteger (!S.conv.signed) spec args := by
    intro args
    cases S.conv <;> rfl
  have hb := base_bounds S.conv
  have hsgn : signOf (decide (S.value v < 0)) spec = S.sgn v := by
    rw [signOf, sgn, hplus, hspace]
    simp only [decide_eq_true_eq]
  have hlen := S.length_digits_sgn (v := v)
  rw [digits, List.length_reverse] at hlen
  unfold renderSpecifier
  rw [hspec]
  simp only [hinteger, renderXsignedInteger_eq hchar hshort hlong hll, Option.map_some]
  rw [if_pos (by omega), hbase, hupper,
    renderFinal_eq hhash hprec (hwidth ▸ S.width_lt) (by rw [hsgn]; exact hlen), hsgn, hleft, hzero,
    hwidth]
  rfl

/-- **The format is one piece.** -/
theorem pieces {δ : Type} (F : FloatOps δ) (v : BitVec 64) :
    vsnPieces F (S.format.length + 1) S.format (S.args v) = some ([⟨[], .text (S.text v)⟩], []) := by
  obtain ⟨rest, hrest⟩ : ∃ rest, S.flags ++ (S.width.text ++ S.tail) = rest := ⟨_, rfl⟩
  have hfmt : S.format = '%'.toUInt8 :: rest := by
    rw [← hrest]
    rfl
  have hdecode := S.decodeFormat_eq [S.arg (δ := δ) v]
  rw [hrest] at hdecode
  have hdrop : S.format.dropWhile isLiteral = '%'.toUInt8 :: rest := by
    rw [hfmt]
    exact List.dropWhile_cons_of_neg (by decide)
  have htake : S.format.takeWhile isLiteral = [] := by
    rw [hfmt]
    exact List.takeWhile_cons_of_neg (by decide)
  have hhead : ¬ S.format.head? = some 0 := by
    rw [hfmt, List.head?_cons]
    decide
  have hpct : ¬ '%'.toUInt8 = 0 := by decide
  rw [vsnPieces, if_neg hhead, hdrop]
  simp only [if_neg hpct, args, hdecode, S.renderSpecifier_eq F, htake]
  have hlen : S.format.length = rest.length + 1 := by rw [hfmt, List.length_cons]
  rw [hlen, vsnPieces, List.head?_cons, if_pos rfl]
  rfl

end IntSpecifier

/-! ## 4. The buffer -/

/-- `vsnprintf` returns with the text in the buffer, and its terminator. -/
def VsnPrints {δ : Type} (F : FloatOps δ) (str size : Nat) (fmt : List UInt8)
    (args : List (VsnArg δ)) (text : List UInt8) : Prop :=
  ∃ o, vsnprintf F str size (some fmt) args = .ok (o, text.length) ∧
    (∀ i, i < text.length → o.stores.lookup i = text[i]?) ∧ o.stores.lookup text.length = some 0

section Text

variable {δ : Type} {F : FloatOps δ} {str size lim : Nat} {fmt text text' : List UInt8}
  {args : List (VsnArg δ)}

theorem lookup_sprints (lim i : Nat) : ∀ (cs : List UInt8) (o : VsnOut), o.buf + cs.length ≤ lim + 1 →
    (sprints lim cs o).stores.lookup i =
      if o.buf ≤ i ∧ i < o.buf + cs.length then cs[i - o.buf]? else o.stores.lookup i
  | [], o, _ => by
    rw [if_neg (by rw [List.length_nil]; omega)]
    rfl
  | c :: cs, o, h => by
    rw [List.length_cons] at h
    have hstep : sprintc lim o c = ⟨o.buf + 1, (o.buf, c) :: o.stores⟩ := by
      rw [sprintc, if_neg (by omega)]
      rfl
    have ih := lookup_sprints lim i cs (sprintc lim o c) (by rw [hstep]; simp only; omega)
    rw [sprints, List.foldl_cons]
    rw [sprints, hstep] at ih
    rw [hstep, ih]
    simp only [List.length_cons]
    by_cases hi : i = o.buf
    · subst hi
      rw [if_neg (by omega), if_pos (by omega), Nat.sub_self]
      exact List.lookup_cons_self
    · have hne : (i == o.buf) = false := beq_false_of_ne hi
      by_cases hin : o.buf + 1 ≤ i ∧ i < o.buf + 1 + cs.length
      · obtain ⟨k, hk⟩ : ∃ k, i - o.buf = k + 1 := ⟨i - o.buf - 1, by omega⟩
        rw [if_pos hin, if_pos (by omega), hk, List.getElem?_cons_succ]
        congr 1
        omega
      · rw [if_neg hin, if_neg (by omega), List.lookup_cons, hne]

/-- **A text that there is room for is printed.** -/
theorem vsnPrints_text (str size : Nat)
    (h : vsnPieces F (fmt.length + 1) fmt args = some ([⟨[], .text text⟩], []))
    (hroom : text.length < vsnLimit str size) : VsnPrints F str size fmt args text := by
  obtain ⟨lim, hlim⟩ : ∃ lim, vsnLimit str size = lim := ⟨_, rfl⟩
  rw [hlim] at hroom
  have hrun : vsnRun lim [⟨[], .text text⟩] [] ⟨0, []⟩ = .ok (sprints lim text ⟨0, []⟩) := by
    have hlit : printLiteral lim [] ⟨0, []⟩ = .ok ⟨0, []⟩ := by
      unfold printLiteral
      rw [if_neg (Nat.not_lt_zero lim)]
      simp [printn]
    rw [vsnRun, hlit]
    simp only [bind, Except.bind]
    rw [if_neg (by omega)]
    rfl
  have hbuf : (sprints lim text ⟨0, []⟩).buf = text.length := by
    rw [sprints_buf _ _ (Nat.zero_le _)]
    simp only
    omega
  have hlook := fun i => lookup_sprints lim i text ⟨0, []⟩ (by simp only; omega)
  simp only [Nat.zero_le, Nat.zero_add, true_and, Nat.sub_zero] at hlook
  refine ⟨(sprints lim text ⟨0, []⟩).store text.length 0, ?_, fun i hi => ?_, ?_⟩
  · rw [vsnprintf_eq h, hlim, hrun, Except.map, VsnOut.finish, if_neg (by omega), hbuf, if_pos hroom]
  · have hne : (i == text.length) = false := beq_false_of_ne (Nat.ne_of_lt hi)
    rw [VsnOut.store, List.lookup_cons, hne]
    simp only
    rw [hlook, if_pos hi]
  · exact List.lookup_cons_self

/-- There is one text that a call prints. -/
theorem VsnPrints.unique (h : VsnPrints F str size fmt args text)
    (h' : VsnPrints F str size fmt args text') : text = text' := by
  obtain ⟨o, heq, hlook, -⟩ := h
  obtain ⟨o', heq', hlook', -⟩ := h'
  obtain ⟨rfl, hlen⟩ := Prod.mk.inj (Except.ok.inj (heq.symm.trans heq'))
  refine List.ext_getElem? (fun i => ?_)
  by_cases hi : i < text.length
  · rw [← hlook i hi, hlook' i (hlen ▸ hi)]
  · rw [List.getElem?_eq_none (by omega), List.getElem?_eq_none (by omega)]

end Text

/-! ## 5. The value -/

/-- The text is the value in its base, with a sign that goes with it, and with pads that make up the
width. -/
def IntText (width : Nat) (upper : Bool) (base : Nat) (value : Int) (text : List UInt8) : Prop :=
  ∃ before zeros after sgn,
    text = spaces before ++ sgn ++ List.replicate zeros '0'.toUInt8 ++
      numeral upper base value.natAbs ++ spaces after ∧
    (if value < 0 then sgn = ['-'.toUInt8]
      else sgn = [] ∨ sgn = ['+'.toUInt8] ∨ sgn = [' '.toUInt8]) ∧
    text.length = max width (sgn.length + (numeral upper base value.natAbs).length)

/-- A conversion prints its argument, wherever there is room. -/
def IntPrinted (S : IntSpecifier) (v : BitVec 64) : Prop :=
  ∃ text, (∀ {δ : Type} (F : FloatOps δ) (str size : Nat), text.length < vsnLimit str size →
      VsnPrints F str size S.format (S.args v) text) ∧
    IntText S.width.value S.upper S.conv.base (S.value v) text

namespace IntSpecifier

/-- There is a sign, and the digits alone are as many as the width. -/
def SignLost (S : IntSpecifier) (v : BitVec 64) : Prop :=
  S.conv.signed = true ∧ (S.value v < 0 ∨ '+'.toUInt8 ∈ S.flags ∨ ' '.toUInt8 ∈ S.flags) ∧
    (numeral false 10 (S.value v).natAbs).length = S.width.value

/-- The sign bit of an unsigned `char` or `short` is set. -/
def Extended (S : IntSpecifier) (v : BitVec 64) : Prop :=
  S.conv.signed = false ∧ (S.length = .hh ∧ 2 ^ 7 ≤ S.value v ∨ S.length = .h ∧ 2 ^ 15 ≤ S.value v)

/-- The value has more binary digits than the buffer has room for. -/
def Truncated (S : IntSpecifier) (v : BitVec 64) : Prop :=
  S.conv = .b ∧ S.length = .ll ∧ 2 ^ 32 ≤ S.value v

variable {S : IntSpecifier} {v : BitVec 64}

theorem digitValue_sgn : ∀ c ∈ S.sgn v, ¬ digitValue c < 16 := by
  intro c hc
  unfold sgn at hc
  split at hc
  · rw [List.mem_singleton.mp hc]
    decide
  · split at hc
    · rw [List.mem_singleton.mp hc]
      decide
    · split at hc
      · rw [List.mem_singleton.mp hc]
        decide
      · exact absurd hc List.not_mem_nil

end IntSpecifier

theorem digitValue_sign {value : Int} {sgn : List UInt8}
    (h : if value < 0 then sgn = ['-'.toUInt8]
      else sgn = [] ∨ sgn = ['+'.toUInt8] ∨ sgn = [' '.toUInt8]) :
    sgn.length ≤ 1 ∧ ∀ c ∈ sgn, ¬ digitValue c < 16 := by
  have hnone : ∀ c ∈ ['-'.toUInt8, '+'.toUInt8, ' '.toUInt8], ¬ digitValue c < 16 := by
    decide +kernel
  split at h
  · subst h
    exact ⟨Nat.le_refl 1, fun c hc => hnone c (by simp_all)⟩
  · rcases h with rfl | rfl | rfl
    · exact ⟨Nat.zero_le 1, fun c hc => absurd hc List.not_mem_nil⟩
    · exact ⟨Nat.le_refl 1, fun c hc => hnone c (by simp_all)⟩
    · exact ⟨Nat.le_refl 1, fun c hc => hnone c (by simp_all)⟩

namespace IntSpecifier

variable {S : IntSpecifier} {v : BitVec 64}

/-- **One text is printed**, and it is the one to be compared with the number. -/
theorem intPrinted_text :
    IntPrinted S v ↔ IntText S.width.value S.upper S.conv.base (S.value v) (S.text v) := by
  constructor
  · rintro ⟨text, hprints, htext⟩
    have hshort : text.length < 100 := by
      obtain ⟨_, _, _, sgn, -, hsgn, hlen⟩ := htext
      have h1 := (digitValue_sign hsgn).1
      have h2 : (numeral S.upper S.conv.base (S.value v).natAbs).length ≤ 64 := by
        refine length_numeral_le (base_bounds _).1 (by decide) ?_
        exact lt_of_lt_of_le (S.natAbs_value_lt v) (Nat.pow_le_pow_left (base_bounds _).1 64)
      have h3 : S.width.value < 32 := S.width_lt
      omega
    have hshort' : (S.text v).length < 100 := by
      have h1 := S.length_digits_sgn (v := v)
      have h2 : (keptDigits S.width.value (S.sgn v) (S.digits v)).length ≤ (S.digits v).length := by
        unfold keptDigits
        split
        · rw [List.length_tail]
          exact Nat.sub_le _ _
        · exact Nat.le_refl _
      have h3 : S.width.value < stackBufSize := S.width_lt
      unfold stackBufSize at h1 h3
      rw [IntSpecifier.text, length_layout]
      omega
    have hlimit : vsnLimit 0 100 = 100 := by decide
    have h1 := hprints noFloats 0 100 (by rw [hlimit]; exact hshort)
    have h2 := vsnPrints_text 0 100 (S.pieces noFloats v)
      (by rw [hlimit]; exact hshort')
    rwa [h1.unique h2] at htext
  · exact fun h => ⟨S.text v, fun F str size hroom => vsnPrints_text str size (S.pieces F v) hroom, h⟩

/-- The value of the text, where no digit has given way to a sign. -/
theorem textValue_text (h : S.conv.signed = false) :
    textValue S.conv.base (S.text v) = S.magnitude v % S.conv.base ^ stackBufSize := by
  obtain ⟨hb1, hb16⟩ := base_bounds S.conv
  have hkept : keptDigits S.width.value (S.sgn v) (S.digits v) = S.digits v := by
    rw [keptDigits, S.sgn_unsigned h]
    simp
  rw [text, hkept]
  obtain ⟨before, zeros, after, heq⟩ := layout_parts S.spec.left S.spec.zeropad S.width.value
    (S.sgn v) (S.digits v)
  rw [heq, textValue_eq S.digitValue_sgn, digits, readFrom_digitsOf hb1 hb16]
  intro c hc
  rw [digits, List.mem_reverse] at hc
  exact digitValue_digitsOf (Nat.lt_of_succ_lt hb1) hb16 c hc

end IntSpecifier

/-- The value of a number's text -/
theorem IntText.value {width base : Nat} {upper : Bool} {value : Int} {text : List UInt8}
    (hbase : 1 < base) (h16 : base ≤ 16) (h : IntText width upper base value text) :
    textValue base text = value.natAbs := by
  obtain ⟨before, zeros, after, sgn, rfl, hsgn, -⟩ := h
  rw [textValue_eq (digitValue_sign hsgn).2 (digitValue_numeral hbase h16), readFrom_numeral hbase h16]

namespace IntSpecifier

variable {S : IntSpecifier} {v : BitVec 64}

theorem toNat_signExtend_32 {k : Nat} (hk : k ≤ 32) (x : BitVec k) :
    (x.signExtend 32).toNat = x.toNat + if 2 ^ (k - 1) ≤ x.toNat then 2 ^ 32 - 2 ^ k else 0 := by
  have hlt : x.toNat < 2 ^ 32 := lt_of_lt_of_le x.isLt (Nat.pow_le_pow_right (by decide) hk)
  rw [BitVec.toNat_signExtend, BitVec.toNat_setWidth, Nat.mod_eq_of_lt hlt, BitVec.msb_eq_decide]
  simp only [decide_eq_true_eq]

/-- What an unsigned conversion prints, and what it should. -/
theorem magnitude_unsigned (h : S.conv.signed = false) :
    S.magnitude v = (S.value v).natAbs ∧ ¬ S.Extended v ∨
      S.magnitude v < 2 ^ 32 ∧ S.magnitude v ≠ (S.value v).natAbs ∧ S.Extended v := by
  unfold magnitude Extended value
  rw [h]
  simp only [Bool.false_eq_true, if_false, Int.natAbs_natCast, true_and]
  cases S.length with
  | none => exact .inl ⟨rfl, by simp⟩
  | l => exact .inl ⟨rfl, by simp⟩
  | ll => exact .inl ⟨by simp [LengthMod.bits], by simp⟩
  | hh =>
    have hlt := (v.setWidth 8).isLt
    have hcast : ∀ x : Nat, (2 : Int) ^ 7 ≤ (x : Int) ↔ 2 ^ 7 ≤ x := fun x => by omega
    simp only [LengthMod.bits, toNat_signExtend_32 (show 8 ≤ 32 by decide), hcast, true_and,
      reduceCtorEq, false_and, or_false]
    by_cases hbit : 2 ^ 7 ≤ (v.setWidth 8).toNat
    · rw [if_pos hbit]
      exact .inr ⟨by omega, by omega, hbit⟩
    · rw [if_neg hbit]
      exact .inl ⟨rfl, hbit⟩
  | h =>
    have hlt := (v.setWidth 16).isLt
    have hcast : ∀ x : Nat, (2 : Int) ^ 15 ≤ (x : Int) ↔ 2 ^ 15 ≤ x := fun x => by omega
    simp only [LengthMod.bits, toNat_signExtend_32 (show 16 ≤ 32 by decide), hcast, true_and,
      reduceCtorEq, false_and, false_or]
    by_cases hbit : 2 ^ 15 ≤ (v.setWidth 16).toNat
    · rw [if_pos hbit]
      exact .inr ⟨by omega, by omega, hbit⟩
    · rw [if_neg hbit]
      exact .inl ⟨rfl, hbit⟩

theorem sgn_ne_nil (h : S.conv.signed = true) :
    S.sgn v ≠ [] ↔ S.value v < 0 ∨ '+'.toUInt8 ∈ S.flags ∨ ' '.toUInt8 ∈ S.flags := by
  unfold sgn spec
  rw [h]
  simp only [Bool.true_and, List.contains_eq_mem, decide_eq_true_eq]
  by_cases h1 : S.value v < 0
  · simp [h1]
  · by_cases h2 : '+'.toUInt8 ∈ S.flags
    · simp [h1, h2]
    · by_cases h3 : ' '.toUInt8 ∈ S.flags <;> simp [h1, h2, h3]

/-- As long as every digit is there, the text is the value's. -/
theorem intText_text
    (h : keptDigits S.width.value (S.sgn v) (S.digits v) =
      numeral S.upper S.conv.base (S.value v).natAbs) :
    IntText S.width.value S.upper S.conv.base (S.value v) (S.text v) := by
  obtain ⟨before, zeros, after, heq⟩ := layout_parts S.spec.left S.spec.zeropad S.width.value
    (S.sgn v) (numeral S.upper S.conv.base (S.value v).natAbs)
  rw [text, h]
  refine ⟨before, zeros, after, S.sgn v, heq, ?_, length_layout⟩
  unfold sgn
  split
  · rfl
  · split
    · exact .inr (.inl rfl)
    · split
      · exact .inr (.inr rfl)
      · exact .inl rfl

/-- What the values of an unsigned conversion leave room for. -/
theorem magnitude_lt (h : S.conv.signed = false) (htrunc : ¬ S.Truncated v)
    (heq : S.magnitude v = (S.value v).natAbs) : S.magnitude v < S.conv.base ^ stackBufSize := by
  have hlt : S.magnitude v < 2 ^ 64 := heq ▸ S.natAbs_value_lt v
  by_cases hb : S.conv = .b
  · by_cases hl : S.length = .ll
    · have hnot : ¬ 2 ^ 32 ≤ S.value v := fun hle => htrunc ⟨hb, hl, hle⟩
      have hnonneg := S.value_nonneg (v := v) h
      rw [heq, hb]
      show (S.value v).natAbs < 2 ^ 32
      omega
    · have hbits : S.length.bits ≤ 32 := by
        cases hl' : S.length <;> first | decide | exact absurd hl' hl
      rw [heq, hb, value, h]
      simp only [Bool.false_eq_true, if_false, Int.natAbs_natCast]
      exact lt_of_lt_of_le (BitVec.isLt _) (Nat.pow_le_pow_right (by decide) hbits)
  · have h8 : 8 ≤ S.conv.base := by
      cases hc : S.conv <;> first | decide | exact absurd hc hb
    calc S.magnitude v < 2 ^ 64 := hlt
      _ ≤ 8 ^ stackBufSize := by decide
      _ ≤ S.conv.base ^ stackBufSize := Nat.pow_le_pow_left h8 _

/-- **A sign where the digits fill the width** costs the first of them. -/
theorem not_intText_of_signLost (h : S.SignLost v) :
    ¬ IntText S.width.value S.upper S.conv.base (S.value v) (S.text v) := by
  obtain ⟨hs, hsign, hwidth⟩ := h
  obtain ⟨hb1, hb16⟩ := base_bounds S.conv
  obtain ⟨hbase, hupper⟩ := signed_conv hs
  have hne := (sgn_ne_nil hs).mpr hsign
  have hsgn : (S.sgn v).length = 1 :=
    Nat.le_antisymm S.length_sgn_le (List.length_pos_of_ne_nil hne)
  obtain ⟨D, hD⟩ : ∃ D, numeral S.upper S.conv.base (S.value v).natAbs = D := ⟨_, rfl⟩
  have hdigits : S.digits v = D := (S.digits_signed hs).1.trans hD
  have hpos : 0 < D.length := List.length_pos_of_ne_nil (hD ▸ numeral_ne_nil hb1)
  have hlen : D.length = S.width.value := by rw [← hD, hbase, hupper, hwidth]
  have hkept : keptDigits S.width.value (S.sgn v) (S.digits v) = D.tail := by
    rw [keptDigits, hdigits, if_pos ⟨hne, hlen⟩]
  have hdig : ∀ c ∈ D, digitValue c < 16 := hD ▸ digitValue_numeral hb1 hb16
  rintro ⟨before, zeros, after, sgn, htext, hsgn', -⟩
  -- all of the digits are in the text
  have hcount : D.length ≤ ((S.text v).filter (fun c => digitValue c < 16)).length := by
    rw [htext, hD, filter_digits (digitValue_sign hsgn').2 hdig, List.length_append]
    exact Nat.le_add_left _ _
  -- but there are as many characters as there are digits, and one of them is the sign
  have htotal : (S.text v).length = D.length := by
    rw [text, hkept, length_layout, List.length_tail]
    omega
  obtain ⟨before', zeros', after', heq⟩ := layout_parts S.spec.left S.spec.zeropad
    S.width.value (S.sgn v) D.tail
  rw [text, hkept, heq] at hcount htotal
  rw [filter_digits S.digitValue_sgn (fun c hc => hdig c (List.mem_of_mem_tail hc))] at hcount
  simp only [List.length_append] at hcount htotal
  omega

end IntSpecifier

/-- **An integer conversion prints its argument** exactly where no digit gives way to the sign, no
sign bit is extended, and there is room for the digits. -/
theorem intPrinted_iff (S : IntSpecifier) (v : BitVec 64) :
    IntPrinted S v ↔ ¬ S.SignLost v ∧ ¬ S.Extended v ∧ ¬ S.Truncated v := by
  obtain ⟨hb1, hb16⟩ := IntSpecifier.base_bounds S.conv
  rw [S.intPrinted_text]
  cases hs : S.conv.signed with
  | true =>
    have hext : ¬ S.Extended v := fun h => by
      rw [IntSpecifier.Extended, hs] at h
      exact absurd h.1 (by decide)
    have htrunc : ¬ S.Truncated v := fun h => by
      rw [h.1] at hs
      exact absurd hs (by decide)
    constructor
    · exact fun htext => ⟨fun h => S.not_intText_of_signLost h htext, hext, htrunc⟩
    · rintro ⟨hlost, -⟩
      refine S.intText_text ?_
      obtain ⟨hbase, hupper⟩ := IntSpecifier.signed_conv hs
      have hdigits := (S.digits_signed (v := v) hs).1
      rw [keptDigits, hdigits]
      refine if_neg (fun hboth => hlost ⟨hs, (IntSpecifier.sgn_ne_nil hs).mp hboth.1, ?_⟩)
      rw [← hbase, ← hupper]
      exact hboth.2
  | false =>
    have hlost : ¬ S.SignLost v := fun h => by
      rw [IntSpecifier.SignLost, hs] at h
      exact absurd h.1 (by decide)
    constructor
    · intro htext
      have hval := htext.value hb1 hb16
      rw [S.textValue_text hs] at hval
      refine ⟨hlost, fun hext => ?_, fun htrunc => ?_⟩
      · rcases S.magnitude_unsigned hs with ⟨-, hno⟩ | ⟨hlt, hne, -⟩
        · exact hno hext
        · have hpow : 2 ^ 32 ≤ S.conv.base ^ stackBufSize := Nat.pow_le_pow_left hb1 32
          rw [Nat.mod_eq_of_lt (by omega)] at hval
          exact hne hval
      · obtain ⟨hb, -, hle⟩ := htrunc
        have hpow : S.conv.base ^ stackBufSize = 2 ^ 32 := by rw [hb]; rfl
        rw [hpow] at hval
        omega
    · rintro ⟨-, hext, htrunc⟩
      refine S.intText_text ?_
      rcases S.magnitude_unsigned hs with ⟨heq, -⟩ | ⟨-, -, h⟩
      · rw [keptDigits, S.sgn_unsigned hs, IntSpecifier.digits,
          digitsOf_eq hb1 (by decide) (S.magnitude_lt hs htrunc heq), heq]
        simp
      · exact absurd h hext

/-- `%3d` -/
def threeWide : IntSpecifier where
  flags := []
  width := .number 3
  length := .none
  conv := .d
  flags_mem c hc := absurd hc List.not_mem_nil
  width_lt := by decide
  width_pos := by
    rintro w h
    cases h
    decide

example : threeWide.text (-123) = ['-', '2', '3'].map Char.toUInt8 := by decide +kernel

/-- Minus 123 in a field of three is printed as minus 23. -/
theorem intPrinted_lost : ¬ ∀ (S : IntSpecifier) (v : BitVec 64), IntPrinted S v := by
  intro hall
  have hlost : threeWide.SignLost (-123) := ⟨rfl, .inl (by decide), by decide +kernel⟩
  exact IntSpecifier.not_intText_of_signLost hlost
    (IntSpecifier.intPrinted_text.mp (hall threeWide (-123)))

end FlightOs
