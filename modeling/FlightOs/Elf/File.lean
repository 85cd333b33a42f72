/-
# ELF files

What the loaders read of an ELF file (`lib/elf.c`): the header, the section headers, the symbols, the
relocation entries, and the names of sections and symbols.  The file is the list of its bytes; what
would lie behind its end is read as zero.  Numbers have their most significant byte first, as the
header check demands.

A pointer to a string is the string; `none` is the null pointer.  Names are compared by `strcmp`, that
is, up to their terminating zeros.
-/
import FlightOs.Lib.Word
import Mathlib.Data.UInt
import Mathlib.Data.List.Range
import Mathlib.Data.List.TakeWhile

namespace FlightOs

abbrev ElfFile := List UInt8

/-! ## 1. Numbers and strings -/

def ElfFile.byte (f : ElfFile) (i : Nat) : UInt8 := f.getD i 0

def ElfFile.half (f : ElfFile) (i : Nat) : Nat := (f.byte i).toNat * 2 ^ 8 + (f.byte (i + 1)).toNat

def ElfFile.word (f : ElfFile) (i : Nat) : Nat := f.half i * 2 ^ 16 + f.half (i + 2)

theorem ElfFile.half_lt (f : ElfFile) (i : Nat) : f.half i < 2 ^ 16 := by
  have h0 := (f.byte i).toNat_lt
  have h1 := (f.byte (i + 1)).toNat_lt
  unfold ElfFile.half
  omega

theorem ElfFile.word_lt (f : ElfFile) (i : Nat) : f.word i < 2 ^ 32 := by
  have h0 := f.half_lt i
  have h1 := f.half_lt (i + 2)
  unfold ElfFile.word
  omega

/-- The string at an offset. -/
def ElfFile.str (f : ElfFile) (i : Nat) : List UInt8 := (f.drop i).takeWhile (· ≠ 0)

/-- The bytes of a string constant. -/
def cstr (s : String) : List UInt8 := s.toList.map fun c => UInt8.ofNat c.toNat

/-! ## 2. The header -/

structure ElfEhdr where
  eIdent : List UInt8
  eType : Nat
  eMachine : Nat
  eVersion : Nat
  eEntry : Nat
  eShoff : Nat
  eShentsize : Nat
  eShnum : Nat

def ElfFile.ehdr (f : ElfFile) : ElfEhdr where
  eIdent := (List.range 16).map f.byte
  eType := f.half 16
  eMachine := f.half 18
  eVersion := f.word 20
  eEntry := f.word 24
  eShoff := f.word 32
  eShentsize := f.half 46
  eShnum := f.half 48

def etRel : Nat := 1
def etExec : Nat := 2
def etDyn : Nat := 3

def emSparc : Nat := 2

def sizeofElfShdr : Nat := 40

/-- `elf_header_check` (`arch/sparc/kernel/elf.c`) -/
def elfHeaderCheck (f : ElfFile) : Int :=
  let ehdr := f.ehdr
  if ehdr.eShentsize ≠ sizeofElfShdr then -1
  else if ehdr.eIdent.getD 0 0 ≠ 0x7f then -1
  else if ehdr.eIdent.getD 1 0 ≠ 0x45 then -1
  else if ehdr.eIdent.getD 2 0 ≠ 0x4c then -1
  else if ehdr.eIdent.getD 3 0 ≠ 0x46 then -1
  -- a file of either class is accepted, and read as one of 32 bits
  else if ehdr.eIdent.getD 4 0 ≠ 1 ∧ ehdr.eIdent.getD 4 0 ≠ 2 then -1
  else if ehdr.eIdent.getD 5 0 ≠ 2 then -1
  else if ehdr.eIdent.getD 6 0 ≠ 1 then -1
  else if ehdr.eMachine ≠ emSparc then -1
  else if ehdr.eVersion ≠ 1 then -1
  else 0

/-! ## 3. Sections -/

structure ElfShdr where
  shName : Nat
  shType : Nat
  shFlags : Nat
  shAddr : Nat
  shOffset : Nat
  shSize : Nat
  shInfo : Nat
  shAddralign : Nat
  shEntsize : Nat
  deriving DecidableEq, Repr

def shtStrtab : Nat := 3
def shtRela : Nat := 4
def shtNobits : Nat := 8

/-- The entry of the table of section headers. -/
def ElfFile.shdr (f : ElfFile) (idx : Nat) : ElfShdr :=
  let p := f.ehdr.eShoff + sizeofElfShdr * idx
  { shName := f.word p, shType := f.word (p + 4), shFlags := f.word (p + 8), shAddr := f.word (p + 12)
    shOffset := f.word (p + 16), shSize := f.word (p + 20), shInfo := f.word (p + 28)
    shAddralign := f.word (p + 32), shEntsize := f.word (p + 36) }

/-- `sh_flags & SHF_ALLOC` -/
def ElfShdr.alloc (sh : ElfShdr) : Bool := sh.shFlags.testBit 1

/-- `elf_get_sec_by_idx`; there are no section headers at the offset 0. -/
def elfGetSecByIdx (f : ElfFile) (idx : Nat) : Option ElfShdr :=
  if f.ehdr.eShnum ≤ idx then none else if f.ehdr.eShoff = 0 then none else some (f.shdr idx)

/-- `elf_find_shdr_alloc_idx` -/
def elfFindShdrAllocIdx (f : ElfFile) (offset : Nat) : Nat :=
  if f.ehdr.eShoff = 0 then 0
  else ((List.range' offset (f.ehdr.eShnum - offset)).find? fun i => (f.shdr i).alloc).getD 0

/-- `elf_get_num_alloc_sections` -/
def elfGetNumAllocSections (f : ElfFile) : Nat :=
  (List.range f.ehdr.eShnum).countP fun i => (f.shdr i).alloc

/-- `elf_find_sec_idx_by_type` -/
def elfFindSecIdxByType (f : ElfFile) (shType offset : Nat) : Nat :=
  if f.ehdr.eShoff = 0 then 0
  else
    ((List.range' offset (f.ehdr.eShnum - offset)).find? fun i => (f.shdr i).shType = shType).getD 0

/-- `elf_get_sec_shstrtab`: the table that its own name is in. -/
def elfGetSecShstrtab (f : ElfFile) : Option ElfShdr :=
  if f.ehdr.eShoff = 0 then none
  else
    ((List.range f.ehdr.eShnum).map f.shdr).find? fun sh =>
      sh.shType = shtStrtab ∧ sh.shName ≤ sh.shSize ∧
        f.str (sh.shOffset + sh.shName) = cstr ".shstrtab"

/-- `elf_get_shstrtab_str` -/
def elfGetShstrtabStr (f : ElfFile) (idx : Nat) : Option (List UInt8) :=
  if f.ehdr.eShnum ≤ idx then none
  else if f.ehdr.eShoff = 0 then none
  else (elfGetSecShstrtab f).map fun tab => f.str (tab.shOffset + (f.shdr idx).shName)

/-- `elf_find_sec`, where there is a table of names. -/
def elfFindSec (f : ElfFile) (name : List UInt8) : Option ElfShdr :=
  if f.ehdr.eShoff = 0 then none
  else
    (elfGetSecShstrtab f).bind fun tab =>
      ((List.range' 1 (f.ehdr.eShnum - 1)).map f.shdr).find? fun sh =>
        f.str (tab.shOffset + sh.shName) = name

/-! ## 4. Symbols -/

structure ElfSym where
  stName : Nat
  stValue : Nat
  stSize : Nat
  stInfo : Nat
  stShndx : Nat
  deriving DecidableEq, Repr

def sizeofElfSym : Nat := 16

def shnUndef : Nat := 0
def shnAbs : Nat := 0xfff1
def shnCommon : Nat := 0xfff2

def sttSection : Nat := 3

/-- `ELF_ST_TYPE(st_info)` -/
def ElfSym.stType (y : ElfSym) : Nat := y.stInfo % 16

/-- An entry of the table of symbols. -/
def ElfFile.sym (f : ElfFile) (symtab : ElfShdr) (i : Nat) : ElfSym :=
  let p := symtab.shOffset + sizeofElfSym * i
  { stName := f.word p, stValue := f.word (p + 4), stSize := f.word (p + 8)
    stInfo := (f.byte (p + 12)).toNat, stShndx := f.half (p + 14) }

/-- `elf_get_symbol_str`; the names are in `.strtab`. -/
def elfGetSymbolStr (f : ElfFile) (idx : Nat) : Option (List UInt8) :=
  (elfFindSec f (cstr ".symtab")).bind fun symtab =>
    if idx < symtab.shSize / symtab.shEntsize then
      (elfFindSec f (cstr ".strtab")).map fun strtab => f.str (strtab.shOffset + (f.sym symtab idx).stName)
    else none

/-- The table of symbols, if its entries have the size of a symbol. -/
def elfSymtab (f : ElfFile) : Option ElfShdr :=
  (elfFindSec f (cstr ".symtab")).filter fun symtab => symtab.shEntsize = sizeofElfSym

/-- The symbols, with their names. -/
def elfSymbols (f : ElfFile) : List (ElfSym × List UInt8) :=
  match elfSymtab f with
  | none => []
  | some symtab =>
    (List.range (symtab.shSize / symtab.shEntsize)).map fun i =>
      (f.sym symtab i, (elfGetSymbolStr f i).getD [])

/-- The first symbol of a name. -/
def elfFindSymbol (f : ElfFile) (name : List UInt8) : Option ElfSym :=
  ((elfSymbols f).find? fun y => y.2 = name).map Prod.fst

/-- `elf_get_symbol_value`: what it returns, and the value it has stored, if any.  Where there is no
table of symbols, it returns -1, which is not 0. -/
def elfGetSymbolValue (f : ElfFile) (name : List UInt8) : Int × Option Nat :=
  if (elfSymtab f).isNone then (-1, none)
  else
    match elfFindSymbol f name with
    | none => (0, none)
    | some y => (1, some y.stValue)

/-- `elf_get_symbol_size` -/
def elfGetSymbolSize (f : ElfFile) (name : List UInt8) : Nat :=
  if (elfSymtab f).isNone then 2 ^ 32 - 1 else ((elfFindSymbol f name).map ElfSym.stSize).getD 0

/-- `elf_get_symbol_shndx` -/
def elfGetSymbolShndx (f : ElfFile) (name : List UInt8) : Nat :=
  if (elfSymtab f).isNone then 2 ^ 16 - 1
  else ((elfFindSymbol f name).map ElfSym.stShndx).getD (2 ^ 16 - 1)

/-- `elf_get_symbol_type` -/
def elfGetSymbolType (f : ElfFile) (name : List UInt8) : Nat :=
  ((elfFindSymbol f name).map ElfSym.stType).getD 0

/-- `elf_get_common_objects`: their names. -/
def elfGetCommonObjects (f : ElfFile) : List (List UInt8) :=
  ((elfSymbols f).filter fun y => y.1.stShndx = shnCommon).map Prod.snd

/-! ## 5. Relocation entries -/

structure ElfRela where
  rOffset : Nat
  rInfo : Nat
  rAddend : Nat
  deriving DecidableEq, Repr

def sizeofElfRela : Nat := 12

/-- An entry of a table of relocations. -/
def ElfFile.rela (f : ElfFile) (sec : ElfShdr) (i : Nat) : ElfRela :=
  let p := sec.shOffset + sizeofElfRela * i
  ⟨f.word p, f.word (p + 4), f.word (p + 8)⟩

/-- `ELF_R_SYM(r_info)` -/
def ElfRela.rSym (r : ElfRela) : Nat := r.rInfo / 2 ^ 8

end FlightOs
