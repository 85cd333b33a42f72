/-
# The archive reader

`ar_load` (`lib/ar.c`) goes through an archive twice.  `ar_get_filecount` skips each record by the
size in its header and counts the files, for the tables; then every record is processed by a
function for its kind, which says where the next one begins.

Addresses are words, and the memory is a function on them: the passes read the headers wherever
they come to.  `strtol` stops at what is no digit; where a size or an offset fills its field, and
what comes behind it in the header, it reads on in the stack of the caller, so the bytes that lie
there are a parameter of each pass.  There is no result where a pass does not come to its end.
-/
import FlightOs.Lib.Word
import Mathlib.Data.UInt
import Mathlib.Data.List.Basic

namespace FlightOs

/-! ## 1. Strings -/

def isSpace (c : UInt8) : Bool := c == 32 || (9 ≤ c && c ≤ 13)

def isDigit (c : UInt8) : Bool := 48 ≤ c && c ≤ 57

/-- The loop of `strtol`, in base ten, where the letters are no digits. -/
def strtolDigits (clamp : Nat) : Nat → List UInt8 → Nat
  | res, [] => res
  | res, c :: l =>
    if isDigit c then
      let val := c.toNat - 48
      -- overflow is looked for only where the four upper bits are in use
      if 2 ^ 28 ≤ res ∧ (clamp - val) / 10 < res then clamp
      else strtolDigits clamp (res * 10 + val) l
    else res

/-- `strtol`, in base ten -/
def strtol (nptr : List UInt8) : Nat :=
  match nptr.dropWhile isSpace with
  | [] => 0
  | c :: l =>
    if c = 45 then wsub 0 (strtolDigits (2 ^ 31) 0 l)
    else if c = 43 then strtolDigits (2 ^ 31 - 1) 0 l
    else strtolDigits (2 ^ 32 - 1) 0 (c :: l)

/-- `strchr`; the fuel is the number of the addresses. -/
def strchr (mem : Nat → UInt8) (c : UInt8) : Nat → Nat → Nat
  | 0, _ => 0
  | n + 1, s => if mem s = c then s else if mem s = 0 then 0 else strchr mem c n (wadd s 1)

/-- A 32-bit integer, the most significant byte first. -/
def memWord (mem : Nat → UInt8) (p : Nat) : Nat :=
  (mem p).toNat * 2 ^ 24 + (mem (wadd p 1)).toNat * 2 ^ 16 + (mem (wadd p 2)).toNat * 2 ^ 8 +
    (mem (wadd p 3)).toNat

/-! ## 2. The records -/

/-- What is stored for a file: `fname`, `p_file`, `filesz` and `fnamesz` of `struct archive`. -/
structure ArFile where
  fname : Nat
  pFile : Nat
  filesz : Nat
  fnamesz : Nat
  deriving DecidableEq, Repr

/-- `struct archive`.  The tables are the lists of what has been stored in them, so that `n_file` is
the length of `files`; a null pointer is 0. -/
structure Archive where
  arBase : Nat
  arSize : Nat
  arStr : Nat
  files : List ArFile
  nSym : Nat
  sym : List Nat
  pSym : List Nat
  deriving DecidableEq, Repr

def Archive.stop (a : Archive) : Nat := wadd a.arBase a.arSize

def sizeofArHdr : Nat := 60

/-- `ar_read_hdr`: the header, of which `ar_name` are the first 16 bytes. -/
def arReadHdr (mem : Nat → UInt8) (p : Nat) : List UInt8 :=
  (List.range sizeofArHdr).map fun i => mem (wadd p i)

/-- `ar_get_entry_size`: `ar_size` are the ten bytes from 48 on, and the last two are `ar_fmag`. -/
def arGetEntrySize (stack : List UInt8) (hdr : List UInt8) : Nat := strtol (hdr.drop 48 ++ stack)

/-- `strncmp(hdr->ar_name, GNU_AR_STR_TBL_MAG, ..)` -/
def isStrTbl (hdr : List UInt8) : Bool := hdr.take 2 == [47, 47]

/-- `strncmp(hdr->ar_name, GNU_AR_SYM_TBL_MAG, ..)` -/
def isSymTbl (hdr : List UInt8) : Bool := hdr.take 2 == [47, 32]

/-- `AR_MAG` -/
def arMag : List UInt8 := [33, 60, 97, 114, 99, 104, 62, 10]

/-- `ar_check_magic` -/
def arCheckMagic (mem : Nat → UInt8) (p : Nat) : Nat :=
  if (List.range 8).map (fun i => mem (wadd p i)) = arMag then wadd p 8 else 0

/-- `kmalloc`, as far as the reader is concerned: call `k` of those of `ar_load`. -/
def arKmalloc (avail : Nat → Bool) (k size : Nat) : Bool := size % 2 ^ 32 != 0 && avail k

/-- `ar_get_strtbl_filename` -/
def arGetStrtblFilename (stack : List UInt8) (a : Archive) (hdr : List UInt8) : Nat :=
  let str := wadd a.arStr (strtol (hdr.drop 1 ++ stack))
  if a.stop < str then 0 else if str < a.arBase then 0 else str

/-- The loop over the symbol strings in `ar_process_sym_tbl`. -/
def arSymLoop (mem : Nat → UInt8) (p strsize nSym : Nat) : Nat → Nat → Nat → List Nat
  | 0, _, _ => []
  | n + 1, i, j =>
    if i < strsize ∧ j < nSym then
      if mem (wadd p i) = 0 then wadd p (i + 1) :: arSymLoop mem p strsize nSym n (i + 1) (j + 1)
      else arSymLoop mem p strsize nSym n (i + 1) j
    else []

/-- `ar_process_sym_tbl` -/
def arProcessSymTbl (mem : Nat → UInt8) (avail : Nat → Bool) (stack : List UInt8) (p : Nat)
    (a : Archive) (hdr : List UInt8) : Nat × Archive :=
  if a.nSym ≠ 0 then (0, a)
  else
    let recsize := arGetEntrySize stack hdr
    if a.stop < wadd p recsize then (0, a)
    else
      let nSym := memWord mem p
      let p := wadd p 4
      -- if this record is empty, move to the next
      if nSym = 0 then (p, a)
      else if arKmalloc avail 4 (nSym * 4) = false then (0, a)
      else if p % 4 ≠ 0 then (0, a)
      else
        let pSym := (List.range nSym).map fun i =>
          wadd (wadd a.arBase (memWord mem (wadd p (i * 4)))) sizeofArHdr
        let p := wadd p (nSym * 4)
        let strsize := wsub (wsub recsize 4) (nSym * 4)
        if arKmalloc avail 5 (nSym * 4) = false then (0, a)
        else
          (wadd p strsize, { a with
            nSym := nSym
            pSym := pSym
            sym := p :: arSymLoop mem p strsize nSym strsize 1 1 })

/-- `ar_process_strtbl` -/
def arProcessStrtbl (stack : List UInt8) (p : Nat) (a : Archive) (hdr : List UInt8) :
    Nat × Archive :=
  if a.arStr ≠ 0 then (0, a) else (wadd p (arGetEntrySize stack hdr), { a with arStr := p })

/-- `ar_process_file` -/
def arProcessFile (mem : Nat → UInt8) (stack : List UInt8) (p : Nat) (a : Archive)
    (hdr : List UInt8) : Nat × Archive :=
  let str := wsub p sizeofArHdr
  -- name is an offset into the string table
  let str := if mem str = 47 then arGetStrtblFilename stack a hdr else str
  let filesz := arGetEntrySize stack hdr
  (wadd p filesz, { a with
    files := a.files ++ [⟨str, p, filesz, wsub (strchr mem 47 (2 ^ 32) str) str⟩] })

/-- `ar_process_hdr` -/
def arProcessHdr (mem : Nat → UInt8) (avail : Nat → Bool) (stack : List UInt8) (p : Nat)
    (a : Archive) (hdr : List UInt8) : Nat × Archive :=
  if isStrTbl hdr then arProcessStrtbl stack p a hdr
  else if isSymTbl hdr then arProcessSymTbl mem avail stack p a hdr
  else arProcessFile mem stack p a hdr

/-! ## 3. The passes -/

/-- `ar_get_filecount` -/
def arGetFilecount (mem : Nat → UInt8) (stack : List UInt8) (stop : Nat) : Nat → Nat → Nat →
    Option Nat
  | 0, _, _ => none
  | n + 1, p, cnt =>
    if p < stop then
      let hdr := arReadHdr mem p
      let p := wadd (wadd p sizeofArHdr) (arGetEntrySize stack hdr)
      if isStrTbl hdr then arGetFilecount mem stack stop n p cnt
      else if isSymTbl hdr then arGetFilecount mem stack stop n p cnt
      else arGetFilecount mem stack stop n p (cnt + 1)
    else some cnt

/-- The loop of `ar_load`, with the archive as it stands at the end or at the error. -/
def arLoadRecords (mem : Nat → UInt8) (avail : Nat → Bool) (stack : List UInt8) : Nat → Nat →
    Archive → Option (Int × Archive)
  | 0, _, _ => none
  | n + 1, p, a =>
    if p < a.stop then
      let r := arProcessHdr mem avail stack (wadd p sizeofArHdr) a (arReadHdr mem p)
      if r.1 = 0 then some (-1, r.2) else arLoadRecords mem avail stack n r.1 r.2
    else some (0, a)

def arInit (p size : Nat) : Archive := ⟨p, size, 0, [], 0, [], []⟩

/-- The four tables are there, for `n` files each. -/
def arTables (avail : Nat → Bool) (n : Nat) : Bool :=
  (List.range 4).all fun k => arKmalloc avail k (n * 4)

/-- `ar_load`; `stack` and `stack'` lie behind the headers of the first and the second pass. -/
def arLoad (mem : Nat → UInt8) (avail : Nat → Bool) (stack stack' : List UInt8)
    (fuel p size : Nat) : Option (Int × Archive) :=
  let a := arInit p size
  let p := arCheckMagic mem p
  if p = 0 then some (-1, a)
  else
    match arGetFilecount mem stack a.stop fuel p 0 with
    | none => none
    | some n =>
      if arTables avail n then arLoadRecords mem avail stack' fuel p a else some (-1, a)

end FlightOs
