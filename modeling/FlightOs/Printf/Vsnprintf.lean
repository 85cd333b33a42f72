/-
# `vsnprintf`

`vsnprintf` (`lib/vsnprintf.c`) copies a format up to a `%`, decodes the specifier behind it, renders
its argument, and goes on behind the type.  Everything it writes goes through one of two helpers:
`_sprintc` stores one character unless the cursor is past the end, and `_printn` stores a number of
bytes without a limit of its own.

* A format is the memory from its first byte on, with the terminator somewhere in it; a specifier
  that is cut off by the terminator makes the code read on behind it, as it does here.
* What is written are stores at offsets from the start of the buffer, the latest first.
* Floating point arithmetic is a parameter; what is made of its results, the exponent, the
  characteristic and the mantissa, is not.

The output to the terminal, where the buffer is `NULL`, is left out.
-/
import FlightOs.Ar.Reader

namespace FlightOs

/-! ## 1. The specifier -/

/-- `STACK_BUF_SIZE` -/
def stackBufSize : Nat := 32

/-- `struct fmt_spec`, with a field for each of its flags -/
structure FmtSpec where
  left : Bool := false
  plus : Bool := false
  space : Bool := false
  zeropad : Bool := false
  hash : Bool := false
  precision : Bool := false
  char : Bool := false
  short : Bool := false
  long : Bool := false
  longLong : Bool := false
  uppercase : Bool := false
  width : Nat := 0
  base : Nat := 0
  prec : Nat := 0
deriving DecidableEq

/-- An argument, with its type.  A `long` and a pointer are words, as an `int` is; of a string there
is what lies before its terminator, if it is not `NULL`. -/
inductive VsnArg (δ : Type)
  | int (v : BitVec 32)
  | long (v : BitVec 32)
  | longLong (v : BitVec 64)
  | double (v : δ)
  | str (s : Option (List UInt8))
  | ptr (v : BitVec 32)

/-- The loop of `_vsn_strtoi` -/
def vsnDigits : Nat → List UInt8 → Nat × List UInt8
  | res, [] => (res, [])
  | res, c :: l => if isDigit c then vsnDigits (wadd (res * 10) (c.toNat - 48)) l else (res, c :: l)

/-- `_vsn_strtoi`: the number, as a word, and where it ends. -/
def vsnStrtoi (nptr : List UInt8) : Nat × List UInt8 :=
  let l := nptr.dropWhile isSpace
  let neg := l.head? == some '-'.toUInt8
  let l := if neg || l.head? == some '+'.toUInt8 then l.tail else l
  let (res, endptr) := vsnDigits 0 l
  -- the character before `0` passes for a number that is not there
  (if neg then wsub 0 res else res,
    if endptr.head? == some '/'.toUInt8 then nptr else endptr)

def evalFlags (spec : FmtSpec) : List UInt8 → FmtSpec × List UInt8
  | [] => (spec, [])
  | c :: fmt =>
    if c = '-'.toUInt8 then evalFlags { spec with left := true } fmt
    else if c = '+'.toUInt8 then evalFlags { spec with plus := true } fmt
    else if c = ' '.toUInt8 then evalFlags { spec with space := true } fmt
    else if c = '0'.toUInt8 then evalFlags { spec with zeropad := true } fmt
    else if c = '#'.toUInt8 then evalFlags { spec with hash := true } fmt
    else (spec, c :: fmt)

section Decode

variable {δ : Type}

/-- What a specifier is decoded to, with the rest of the format and of the arguments. -/
abbrev Decoded (δ : Type) := FmtSpec × List UInt8 × List (VsnArg δ)

/-- The word behind a `*` -/
def starArg : List (VsnArg δ) → Option (BitVec 32 × List (VsnArg δ))
  | .int v :: args => some (v, args)
  | _ => none

def evalWidth (spec : FmtSpec) (fmt : List UInt8) (args : List (VsnArg δ)) : Option (Decoded δ) :=
  match fmt with
  | [] => none
  | c :: fmt' =>
    if isDigit c then
      let (w, fmt) := vsnStrtoi fmt
      -- a width of zero evaluates as the flag
      some ({ spec with width := w, zeropad := spec.zeropad || w == 0 }, fmt, args)
    else if c = '*'.toUInt8 then do
      let (v, args) ← starArg args
      if v.msb then some ({ spec with width := (-v).toNat, left := true }, fmt', args)
      else some ({ spec with width := v.toNat }, fmt', args)
    else some ({ spec with width := 0 }, fmt, args)

def evalPrec (spec : FmtSpec) (fmt : List UInt8) (args : List (VsnArg δ)) : Option (Decoded δ) :=
  match fmt with
  | [] => none
  | c :: fmt' =>
    if c ≠ '.'.toUInt8 then some ({ spec with prec := 0 }, fmt, args)
    else
      match fmt' with
      | [] => none
      | d :: fmt'' =>
        if isDigit d then
          let (p, fmt) := vsnStrtoi fmt'
          some ({ spec with precision := true, prec := p }, fmt, args)
        else if d = '*'.toUInt8 then do
          let (v, args) ← starArg args
          some ({ spec with precision := true, prec := v.toNat }, fmt'', args)
        else some ({ spec with precision := true, prec := 0 }, fmt', args)

def evalLength (spec : FmtSpec) (fmt : List UInt8) : FmtSpec × List UInt8 :=
  if fmt.head? = some 'h'.toUInt8 then
    if fmt.tail.head? = some 'h'.toUInt8 then ({ spec with char := true }, fmt.tail.tail)
    else ({ spec with short := true }, fmt.tail)
  else if fmt.head? = some 'l'.toUInt8 then
    if fmt.tail.head? = some 'l'.toUInt8 then ({ spec with longLong := true }, fmt.tail.tail)
    else ({ spec with long := true }, fmt.tail)
  else (spec, fmt)

def decodeFormat (fmt : List UInt8) (args : List (VsnArg δ)) : Option (Decoded δ) := do
  -- the flags are cleared, and every other field is set on the way
  let (spec, fmt) := evalFlags {} fmt
  let (spec, fmt, args) ← evalWidth spec fmt args
  let (spec, fmt, args) ← evalPrec spec fmt args
  let (spec, fmt) := evalLength spec fmt
  some (spec, fmt, args)

end Decode

def configSpecifier (c : UInt8) (spec : FmtSpec) : FmtSpec :=
  if c = 'd'.toUInt8 then { spec with hash := false, base := 10 }
  else if c = 'i'.toUInt8 then { spec with base := 10 }
  else if c = 'u'.toUInt8 then { spec with base := 10, plus := false, space := false, hash := false }
  else if c = 'p'.toUInt8 ∨ c = 'x'.toUInt8 then
    { spec with base := 16, plus := false, space := false }
  else if c = 'X'.toUInt8 then
    { spec with base := 16, uppercase := true, plus := false, space := false }
  else if c = 'o'.toUInt8 then { spec with base := 8, plus := false, space := false }
  else if c = 'b'.toUInt8 then { spec with base := 2, plus := false, space := false }
  else { spec with base := 0 }

/-! ## 2. Rendering

The characters of a number are put into `buf`, of `STACK_BUF_SIZE` bytes, from its end to its start;
`n` is the length of what is in it. -/

def spaces (n : Nat) : List UInt8 := List.replicate n ' '.toUInt8

/-- `for (; n < STACK_BUF_SIZE && n < width; n++) buf[n] = '0';` -/
def zerosTo (width : Nat) (buf : List UInt8) : List UInt8 :=
  buf ++ List.replicate (min width stackBufSize - buf.length) '0'.toUInt8

/-- `if (n < STACK_BUF_SIZE) buf[n++] = c;` -/
def pushChar (c : UInt8) (buf : List UInt8) : List UInt8 :=
  if buf.length < stackBufSize then buf ++ [c] else buf

/-- What the hash makes of the digits. -/
def renderHash (spec : FmtSpec) (buf : List UInt8) : List UInt8 :=
  let n := buf.length
  let buf :=
    if n ≠ 0 ∧ (n = spec.prec ∨ n = spec.width) then
      let buf := buf.dropLast
      if buf.length ≠ 0 ∧ spec.base = 16 then buf.dropLast else buf
    else buf
  let buf :=
    if spec.base = 16 then pushChar (if spec.uppercase then 'x'.toUInt8 else 'X'.toUInt8) buf
    else buf
  pushChar '0'.toUInt8 buf

/-- The sign takes the place of the last digit where that is at the end of the width. -/
def renderSign (sign : Bool) (spec : FmtSpec) (buf : List UInt8) : List UInt8 :=
  let buf := if (sign || spec.plus || spec.space) ∧ buf.length = spec.width then buf.dropLast else buf
  if sign then pushChar '-'.toUInt8 buf
  else if spec.plus then pushChar '+'.toUInt8 buf
  else if spec.space then pushChar ' '.toUInt8 buf
  else buf

/-- `render_final`: the characters that it prints, one after another. -/
def renderFinal (sign : Bool) (buf : List UInt8) (spec : FmtSpec) : List UInt8 :=
  let buf := if spec.left then buf else zerosTo spec.prec buf
  let buf := if !spec.left && spec.zeropad then zerosTo spec.width buf else buf
  let buf := if spec.hash then renderHash spec buf else buf
  let buf := renderSign sign spec buf
  (if spec.left || spec.zeropad then [] else spaces (spec.width - buf.length)) ++ buf.reverse ++
    if spec.left then spaces (spec.width - buf.length) else []

/-- The character of a digit; a base above ten has letters. -/
def asciiDigit (upper : Bool) (d : Nat) : UInt8 :=
  if d < 10 then '0'.toUInt8 + d.toUInt8
  else (if upper then 'A'.toUInt8 else 'a'.toUInt8) + d.toUInt8 - 10

/-- The digits of a value, the last one first, until none are left or the buffer is full. -/
def digitsOf (upper : Bool) (base : Nat) : Nat → Nat → List UInt8
  | 0, _ => []
  | room + 1, value =>
    asciiDigit upper (value % base) ::
      if value / base = 0 then [] else digitsOf upper base room (value / base)

def renderXlongToAscii (usign : Bool) (value : BitVec 32) (spec : FmtSpec) : List UInt8 :=
  let sign := !usign && value.msb
  let value := if sign then -value else value
  renderFinal sign (digitsOf spec.uppercase spec.base stackBufSize value.toNat) spec

def renderXlongLongToAscii (usign : Bool) (val : BitVec 64) (spec : FmtSpec) : List UInt8 :=
  let sign := !usign && val.msb
  let val := if sign then -val else val
  renderFinal sign (digitsOf spec.uppercase spec.base stackBufSize val.toNat) spec

/-- What a specifier prints: characters one after another, or a string between two pads, or it does
not come to an end. -/
inductive VsnItem
  | text (cs : List UInt8)
  | string (before : Nat) (s : List UInt8) (after : Nat)
  | endless

section Render

variable {δ : Type}

def renderXsignedInteger (usign : Bool) (spec : FmtSpec) :
    List (VsnArg δ) → Option (List UInt8 × List (VsnArg δ))
  | arg :: args =>
    if spec.longLong then
      match arg with
      | .longLong v => some (renderXlongLongToAscii usign v spec, args)
      | _ => none
    else if spec.long then
      match arg with
      | .long v => some (renderXlongToAscii usign v spec, args)
      | _ => none
    else
      match arg with
      | .int v =>
        -- `(short int)` and `(char)`, which are signed
        let i :=
          if spec.short then (v.setWidth 16).signExtend 32
          else if spec.char then (v.setWidth 8).signExtend 32
          else v
        some (renderXlongToAscii usign i spec, args)
      | _ => none
  | [] => none

def renderPointer (spec : FmtSpec) : List (VsnArg δ) → Option (List UInt8 × List (VsnArg δ))
  | .ptr v :: args => some (renderXlongToAscii true v spec, args)
  | _ => none

def renderInteger (c : UInt8) (spec : FmtSpec) (args : List (VsnArg δ)) :
    Option (List UInt8 × List (VsnArg δ)) :=
  if c = 'd'.toUInt8 ∨ c = 'i'.toUInt8 then renderXsignedInteger false spec args
  else if c = 'p'.toUInt8 then renderPointer spec args
  else renderXsignedInteger true spec args

def renderMantissa (buf : List UInt8) (mantissa prec : Nat) : List UInt8 :=
  let digits := digitsOf false 10 (stackBufSize - buf.length) mantissa
  let buf := buf ++ digits
  let zeros := min (prec - digits.length) (stackBufSize - buf.length)
  pushChar '.'.toUInt8 (buf ++ List.replicate zeros '0'.toUInt8)

def renderExponent (buf : List UInt8) (exp : Int) : List UInt8 :=
  let buf := buf ++ digitsOf false 10 (stackBufSize - buf.length) exp.natAbs
  let buf := if exp.natAbs < 10 then pushChar '0'.toUInt8 buf else buf
  pushChar 'e'.toUInt8 (pushChar (if exp < 0 then '-'.toUInt8 else '+'.toUInt8) buf)

def renderCharacteristic (buf : List UInt8) (characteristic : Nat) : List UInt8 :=
  buf ++ digitsOf false 10 (stackBufSize - buf.length) characteristic

/-- The floating point arithmetic of `render_float`. -/
structure FloatOps (δ : Type) where
  /-- `val < 0.0` -/
  isNeg : δ → Bool
  neg : δ → δ
  /-- `val > (double) 0xFFFFFFF` -/
  isLarge : δ → Bool
  /-- The value, the exponent and the precision, unless it keeps multiplying, as it does with an
  infinite value. -/
  getExpFloatValParam : δ → Bool → Nat → Option (δ × Int × Nat)
  /-- The characteristic and the mantissa. -/
  separateAndRound : δ → Nat → Nat × Nat

def renderFloat (F : FloatOps δ) (prExp : Bool) (spec : FmtSpec) :
    List (VsnArg δ) → Option (VsnItem × List (VsnArg δ))
  | .double val :: args =>
    let sign := F.isNeg val
    let val := if sign then F.neg val else val
    let prec := if spec.precision then spec.prec else 6
    -- more would overflow the mantissa
    let prec := if 10 ≤ prec then 9 else prec
    let scaled :=
      if prExp || F.isLarge val then F.getExpFloatValParam val spec.precision prec
      else some (val, 0, prec)
    match scaled with
    | none => some (.endless, args)
    | some (val, exp, prec) =>
      let (characteristic, mantissa) := F.separateAndRound val prec
      let buf := if exp ≠ 0 then renderExponent [] exp else []
      let buf := if prec ≠ 0 then renderMantissa buf mantissa prec else buf
      let buf := renderCharacteristic buf characteristic
      some (.text (renderFinal sign buf { spec with prec := prec }), args)
  | _ => none

def renderChar (spec : FmtSpec) : List (VsnArg δ) → Option (List UInt8 × List (VsnArg δ))
  | .int v :: args =>
    let c := v.toNat.toUInt8
    some (if spec.left then c :: spaces (spec.width - 1) else spaces (spec.width - 1) ++ [c], args)
  | _ => none

def renderString (spec : FmtSpec) : List (VsnArg δ) → Option (VsnItem × List (VsnArg δ))
  | .str none :: args => some (.text [], args)
  | .str (some s) :: args =>
    let len := if spec.precision then min s.length spec.prec else s.length
    -- the pad in front does not count the string
    some (if spec.left then .string 0 (s.take len) (spec.width - len)
      else .string spec.width (s.take len) 0, args)
  | _ => none

/-- `render_specifier`, for the type `c` -/
def renderSpecifier (F : FloatOps δ) (c : UInt8) (spec : FmtSpec) (args : List (VsnArg δ)) :
    Option (VsnItem × List (VsnArg δ)) :=
  let spec := configSpecifier c spec
  if spec.base ≠ 0 then (renderInteger c spec args).map (fun r => (.text r.1, r.2))
  else if c = 'f'.toUInt8 ∨ c = 'F'.toUInt8 then renderFloat F false spec args
  else if c = 'g'.toUInt8 then renderFloat F true spec args
  else if c = 'c'.toUInt8 then (renderChar spec args).map (fun r => (.text r.1, r.2))
  else if c = 's'.toUInt8 then renderString spec args
  else some (.text [c], args)

end Render

/-! ## 3. Writing -/

/-- The cursor, as an offset from the start of the buffer, and the stores, the latest first. -/
structure VsnOut where
  buf : Nat
  stores : List (Nat × UInt8)

/-- What ends a run without a result. -/
inductive VsnError
  /-- An argument is not there or of another type, or the format does not end. -/
  | mismatch
  /-- The value of a floating point specifier is never normalised. -/
  | endless
  /-- `memcpy` with a length that is negative. -/
  | wild
deriving DecidableEq

def VsnOut.store (o : VsnOut) (i : Nat) (c : UInt8) : VsnOut := { o with stores := (i, c) :: o.stores }

/-- `_sprintc`, where the end is at `lim` -/
def sprintc (lim : Nat) (o : VsnOut) (c : UInt8) : VsnOut :=
  if lim < o.buf then o else { o.store o.buf c with buf := o.buf + 1 }

def sprints (lim : Nat) (cs : List UInt8) (o : VsnOut) : VsnOut := cs.foldl (sprintc lim) o

/-- `memcpy`, behind which the cursor stays where it was -/
def printn (cs : List UInt8) (o : VsnOut) : VsnOut :=
  { o with stores := ((List.range cs.length).map (o.buf + ·) |>.zip cs).reverse ++ o.stores }

/-- What `render_specifier` writes. -/
def VsnItem.print (lim : Nat) (o : VsnOut) : VsnItem → Except VsnError VsnOut
  | .text cs => .ok (sprints lim cs o)
  | .string before s after =>
    .ok (sprints lim (spaces after) (printn s (sprints lim (spaces before) o)))
  | .endless => .error .endless

/-- A character that is copied: neither the terminator nor the start of a specifier. -/
def isLiteral (c : UInt8) : Bool := c != 0 && c != '%'.toUInt8

/-- The characters before the next specifier are copied, as many as there is room for. -/
def printLiteral (lim : Nat) (tmp : List UInt8) (o : VsnOut) : Except VsnError VsnOut :=
  -- behind the end, the room is less than none
  if lim < o.buf then .error .wild
  else
    let n := if tmp.length < lim - o.buf then tmp.length else lim - o.buf
    let o := printn (tmp.take n) o
    .ok { o with buf := o.buf + n }

section Main

variable {δ : Type}

/-- The loop of `vsnprintf`, once for each specifier. -/
def vsnLoop (F : FloatOps δ) (lim : Nat) : Nat → List UInt8 → List (VsnArg δ) → VsnOut →
    Except VsnError VsnOut
  | 0, _, _, _ => .error .mismatch
  | fuel + 1, fmt, args, o =>
    if fmt.head? = some 0 then .ok o
    else
      match fmt.dropWhile isLiteral with
      | [] => .error .mismatch
      | c :: fmt' => do
        let o ← printLiteral lim (fmt.takeWhile isLiteral) o
        if lim ≤ o.buf then .ok o
        else if c = 0 then .ok o
        else
          match decodeFormat fmt' args with
          | some (spec, t :: fmt, args) =>
            match renderSpecifier F t spec args with
            | some (item, args) => do
              let o ← item.print lim o
              vsnLoop F lim fuel fmt args o
            | none => .error .mismatch
          | _ => .error .mismatch

/-- `INT_MAX` -/
def intMax : Nat := 2 ^ 31 - 1

/-- The room that there is: `end - buf`, where the buffer starts at `str`. -/
def vsnLimit (str size : Nat) : Nat :=
  let size := min size intMax
  let stop := (str + size) % 2 ^ 32
  if stop < str then 2 ^ 32 - 1 - str else stop - str

/-- `vsnprintf`, with what it returns -/
def vsnprintf (F : FloatOps δ) (str size : Nat) (format : Option (List UInt8))
    (ap : List (VsnArg δ)) : Except VsnError (VsnOut × Nat) :=
  match format with
  | none => .ok (⟨0, []⟩, 0)
  | some fmt => do
    let lim := vsnLimit str size
    let o ← vsnLoop F lim (fmt.length + 1) fmt ap ⟨0, []⟩
    let o := if lim = 0 then o else if o.buf < lim then o.store o.buf 0 else o.store lim 0
    .ok (o, o.buf)

end Main

end FlightOs
