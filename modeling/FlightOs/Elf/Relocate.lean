/-
# Relocating a module

`module_relocate` goes through the entries of the RELA sections, and for each one finds out the address
of its symbol in one of five ways, then calls `apply_relocate_add` with it.  What that writes is not
followed here: an entry is *applied* with the address of a symbol, in a section.

* `none` is a run that does not come back: the stop at an unknown RELA section (`BUG`), a division by
  an entry size of zero, a null pointer that is read, or a value that was never stored and is used.
* Otherwise there is one result for each entry that was reached (`none` if it was passed over), and what
  the function returns.

`lookup` is `lookup_symbol`, and 0 its null pointer.
-/
import FlightOs.Elf.Layout
import Mathlib.Data.List.Forall2

namespace FlightOs

/-! ## 1. Applying an entry -/

/-- An entry that was applied with the address `sym`, in the section at `base`. -/
structure Applied where
  rela : ElfRela
  sym : Nat
  base : Nat
  deriving DecidableEq, Repr

/-- What becomes of an entry. -/
inductive RelocStep where
  /-- the run ends there -/
  | fault
  /-- `return -1` -/
  | error
  /-- `continue`, or an error of `apply_relocate_add` -/
  | skip
  | apply (a : Applied)
  deriving DecidableEq, Repr

/-- `apply_relocate_add`, whose result is ignored. -/
def applyRelocateAdd (m : ElfBinary) (rela : ElfRela) (sym : Nat) (secName : List UInt8) : RelocStep :=
  if sym = 0 then .skip
  else
    match findElfSec m secName with
    | some (some text) => .apply ⟨rela, sym, text.addr⟩
    | _ => .fault

/-- The end of the paths that look for a section: `if (!s) continue;`, then the address of `s`. -/
def applyFound (m : ElfBinary) (rela : ElfRela) (relSec : List UInt8) : Option ElfSection → RelocStep
  | none => .skip
  | some s => applyRelocateAdd m rela s.addr relSec

/-! ## 2. One entry -/

/-- The name of the entry's symbol, if it has one. -/
def relocName (f : ElfFile) (rela : ElfRela) : Option (List UInt8) :=
  (elfGetSymbolStr f rela.rSym).filter (· ≠ [])

/-- `find_elf_sec(m, elf_get_shstrtab_str(…, elf_get_symbol_shndx(…)))` -/
def findSymbolSec (f : ElfFile) (m : ElfBinary) (symstr : List UInt8) : Option (Option ElfSection) :=
  match elfGetShstrtabStr f (elfGetSymbolShndx f symstr) with
  | none => some none
  | some name => findElfSec m name

/-- A symbol whose type has the bit of `STT_OBJECT`. -/
def relocateObject (f : ElfFile) (m : ElfBinary) (rela : ElfRela) (relSec symstr : List UInt8) :
    RelocStep :=
  match findSymbolSec f m symstr with
  | none => .fault
  | some s =>
    if elfGetSymbolShndx f symstr = shnAbs ∨ elfGetSymbolShndx f symstr = shnCommon then
      match findElfSec m symstr with
      | none => .fault
      | some none => .error
      | some (some s) => applyRelocateAdd m rela s.addr relSec
    else applyFound m rela relSec s

/-- Any other symbol. -/
def relocateValue (f : ElfFile) (m : ElfBinary) (text : Option ElfSection) (rela : ElfRela)
    (relSec symstr : List UInt8) : RelocStep :=
  match elfGetSymbolValue f symstr with
  | (0, _) => .error
  | (_, none) => .fault
  | (_, some symval) =>
    match text with
    | none => .fault
    | some text => applyRelocateAdd m rela (wadd text.addr symval) relSec

/-- A symbol without a name: the section one before its index. -/
def relocateIndex (m : ElfBinary) (rela : ElfRela) (relSec : List UInt8) : RelocStep :=
  applyFound m rela relSec (findElfIdx m (wsub rela.rSym 1))

/-- The body of the loop over the entries. -/
def relocateEntry (f : ElfFile) (m : ElfBinary) (lookup : List UInt8 → Nat) (relSec : List UInt8)
    (rela : ElfRela) : RelocStep :=
  match findElfSec m (cstr ".text") with
  | none => .fault
  | some text =>
    match relocName f rela with
    | none => relocateIndex m rela relSec
    | some symstr =>
      if lookup symstr ≠ 0 then applyRelocateAdd m rela (lookup symstr) relSec
      else if (elfGetSymbolType f symstr).testBit 0 then relocateObject f m rela relSec symstr
      else relocateValue f m text rela relSec symstr

/-! ## 3. The loops -/

/-- What a run leaves. -/
abbrev RelocRun := Option (List (Option Applied) × Int)

/-- A loop over entries. -/
def relocateAll {α : Type} (step : α → RelocStep) : List α → RelocRun
  | [] => some ([], 0)
  | e :: es =>
    match step e with
    | .fault => none
    | .error => some ([], -1)
    | .skip => (relocateAll step es).map fun r => (none :: r.1, r.2)
    | .apply a => (relocateAll step es).map fun r => (some a :: r.1, r.2)

/-- One run behind another. -/
def RelocRun.andThen (r next : RelocRun) : RelocRun :=
  match r with
  | none => none
  | some (t, err) => if err = 0 then next.map fun r => (t ++ r.1, r.2) else some (t, err)

/-- The section that a RELA section of a known name is for. -/
def relSecOf (name : List UInt8) : Option (List UInt8) :=
  if name = cstr ".rela.text" then some (cstr ".text")
  else if name = cstr ".rela.data" then some (cstr ".data")
  else if name = cstr ".rela.rodata" then some (cstr ".rodata")
  else if name = cstr ".rela.text.startup" then some (cstr ".text.startup")
  else if name = cstr ".rela.eh_frame" then some (cstr ".eh_frame")
  else none

/-- The entries of a RELA section. -/
def sectionRelas (f : ElfFile) (idx : Nat) : List ElfRela :=
  (List.range ((f.shdr idx).shSize / (f.shdr idx).shEntsize)).map (f.rela (f.shdr idx))

/-- The body of the loop over the RELA sections. -/
def relocateSection (f : ElfFile) (m : ElfBinary) (lookup : List UInt8 → Nat) (idx : Nat) : RelocRun :=
  match (elfGetShstrtabStr f idx).bind relSecOf with
  | none => none
  | some relSec =>
    if (f.shdr idx).shEntsize = 0 then none
    else relocateAll (relocateEntry f m lookup relSec) (sectionRelas f idx)

/-- The loop over the RELA sections. -/
def relocateLoop (f : ElfFile) (m : ElfBinary) (lookup : List UInt8 → Nat) : Nat → Nat → RelocRun
  | 0, _ => some ([], 0)
  | fuel + 1, idx =>
    let idx := elfFindSecIdxByType f shtRela (idx + 1)
    if idx = 0 then some ([], 0)
    else (relocateSection f m lookup idx).andThen (relocateLoop f m lookup fuel idx)

/-- `module_relocate` -/
def moduleRelocate (f : ElfFile) (m : ElfBinary) (lookup : List UInt8 → Nat) : RelocRun :=
  if f.ehdr.eType ≠ etRel ∧ f.ehdr.eType ≠ etDyn then some ([], 0)
  else relocateLoop f m lookup f.ehdr.eShnum 0

end FlightOs
