/-
# Looking up the value of a symbol

`elf_get_symbol_value` (`lib/elf.c`) returns 1 if the symbol has been found, and 0 otherwise.  Where
there is no `.symtab`, or one whose entries have another size than a symbol, it returns -1, and
`module_load` takes that for a symbol that has been found.

`elf_get_symbol_value_iff`: it returns what it says, and `module_load` only uses values that have
been stored, if and only if there is a table of symbols with entries of their size.
-/
import FlightOs.Elf.ModuleLoad

namespace FlightOs

section Symbols

variable {f : ElfFile} {name : List UInt8}

/-! ## 1. The table of symbols -/

/-- The entries of a table of symbols, which are `sh_entsize` apart, with their names. -/
def symtabEntries (f : ElfFile) (symtab : ElfShdr) : List (ElfSym × List UInt8) :=
  (List.range (symtab.shSize / symtab.shEntsize)).map fun i =>
    let y := f.sym { symtab with shOffset := symtab.shOffset + symtab.shEntsize * i } 0
    (y, ((elfFindSec f (cstr ".strtab")).map fun strtab => f.str (strtab.shOffset + y.stName)).getD [])

/-- The entries of `.symtab`, if there is one. -/
def elfSymtabEntries (f : ElfFile) : List (ElfSym × List UInt8) :=
  ((elfFindSec f (cstr ".symtab")).map (symtabEntries f)).getD []

/-- There is a table, and its entries have the size of a symbol. -/
def SymtabUsable (f : ElfFile) : Prop :=
  ∃ symtab, elfFindSec f (cstr ".symtab") = some symtab ∧ symtab.shEntsize = sizeofElfSym

theorem symtabUsable_iff : SymtabUsable f ↔ (elfSymtab f).isSome := by
  simp only [SymtabUsable, elfSymtab, Option.isSome_iff_exists, Option.filter_eq_some_iff,
    decide_eq_true_eq]

/-- The functions for symbols see the entries of such a table. -/
theorem elfSymbols_eq (h : SymtabUsable f) : elfSymbols f = elfSymtabEntries f := by
  obtain ⟨symtab, hfind, hsize⟩ := h
  have htab : elfSymtab f = some symtab := by
    rw [elfSymtab, hfind]
    exact if_pos (decide_eq_true hsize)
  rw [elfSymbols, htab, elfSymtabEntries, hfind, Option.map_some, Option.getD_some, symtabEntries]
  refine List.map_congr_left fun i hi => ?_
  have hsym : f.sym { symtab with shOffset := symtab.shOffset + symtab.shEntsize * i } 0 =
      f.sym symtab i := by
    rw [ElfFile.sym, ElfFile.sym, hsize, Nat.mul_zero, Nat.add_zero]
  have hstr : elfGetSymbolStr f i = (elfFindSec f (cstr ".strtab")).map fun strtab =>
      f.str (strtab.shOffset + (f.sym symtab i).stName) := by
    rw [elfGetSymbolStr, hfind, Option.bind_some, if_pos (List.mem_range.mp hi)]
  dsimp only
  rw [hsym, hstr]

/-! ## 2. The value -/

/-- What `elf_get_symbol_value` returns is not 0 if the name is there, and the value is then that of
the first symbol of the name. -/
structure SymbolLaw (f : ElfFile) (name : List UInt8) : Prop where
  found : (elfGetSymbolValue f name).1 ≠ 0 ↔ ∃ y ∈ elfSymtabEntries f, y.2 = name
  value : (elfGetSymbolValue f name).1 ≠ 0 → ∃ pre y post,
    elfSymtabEntries f = pre ++ (y, name) :: post ∧ (∀ z ∈ pre, z.2 ≠ name) ∧
      (elfGetSymbolValue f name).2 = some y.stValue

variable (name) in
/-- Without a table nothing is stored, and what is returned says that it is. -/
theorem elfGetSymbolValue_of_not_usable (h : ¬ SymtabUsable f) :
    elfGetSymbolValue f name = (-1, none) := by
  rw [symtabUsable_iff, Option.not_isSome_iff_eq_none] at h
  rw [elfGetSymbolValue, h]
  rfl

variable (name) in
/-- With one, the value of the first symbol of the name is stored, if there is one. -/
theorem elfGetSymbolValue_of_usable (h : SymtabUsable f) :
    (elfGetSymbolValue f name = (0, none) ∧ ∀ y ∈ elfSymtabEntries f, y.2 ≠ name) ∨
      ∃ pre y post, elfGetSymbolValue f name = (1, some y.stValue) ∧
        elfSymtabEntries f = pre ++ (y, name) :: post ∧ ∀ z ∈ pre, z.2 ≠ name := by
  have htab : ¬ (elfSymtab f).isNone = true := by
    rw [Option.isNone_iff_eq_none]
    exact Option.isSome_iff_ne_none.mp (symtabUsable_iff.mp h)
  rw [elfGetSymbolValue, if_neg htab, elfFindSymbol, elfSymbols_eq h]
  cases hfind : (elfSymtabEntries f).find? fun y => y.2 = name with
  | none =>
    exact .inl ⟨rfl, fun y hy heq => List.find?_eq_none.mp hfind y hy (decide_eq_true heq)⟩
  | some x =>
    obtain ⟨hname, pre, post, hsplit, hpre⟩ := List.find?_eq_some_iff_append.mp hfind
    obtain ⟨y, n⟩ := x
    obtain rfl : n = name := of_decide_eq_true hname
    refine .inr ⟨pre, y, post, rfl, hsplit, fun z hz heq => ?_⟩
    have hz' := hpre z hz
    simp [heq] at hz'

theorem symbolLaw_of_usable (h : SymtabUsable f) : SymbolLaw f name := by
  rcases elfGetSymbolValue_of_usable name h with ⟨heq, hnone⟩ | ⟨pre, y, post, heq, hsplit, hpre⟩
  · have hret : (elfGetSymbolValue f name).1 = 0 := congrArg Prod.fst heq
    refine ⟨iff_of_false (not_not.mpr hret) ?_, fun hne => absurd hret hne⟩
    rintro ⟨y, hy, hname⟩
    exact hnone y hy hname
  · have hone : (elfGetSymbolValue f name).1 = 1 := congrArg Prod.fst heq
    have hret : (elfGetSymbolValue f name).1 ≠ 0 := by
      rw [hone]
      decide
    have hmem : (y, name) ∈ elfSymtabEntries f :=
      hsplit ▸ List.mem_append_right _ (List.mem_cons_self ..)
    exact ⟨iff_of_true hret ⟨_, hmem, rfl⟩, fun _ => ⟨pre, y, post, hsplit, hpre, congrArg Prod.snd heq⟩⟩

theorem symbolLaw_iff : SymbolLaw f name ↔ SymtabUsable f := by
  refine ⟨fun h => ?_, symbolLaw_of_usable⟩
  by_contra hno
  have heq := elfGetSymbolValue_of_not_usable name hno
  obtain ⟨-, y, -, -, -, hval⟩ := h.value (by rw [heq]; decide)
  rw [heq] at hval
  cases hval

/-! ## 3. The functions of a module -/

variable {env : ModuleEnv} {mod : Nat} {h : BlockHeap} {r : Kmod} {m : ElfBinary} {va : Nat}

variable (va name) in
/-- The address of a function is derived from a value that was stored. -/
theorem moduleEntry_isSome (husable : SymtabUsable f) : (moduleEntry f va name).isSome := by
  rcases elfGetSymbolValue_of_usable name husable with ⟨heq, -⟩ | ⟨-, y, -, heq, -⟩
  · rw [moduleEntry, heq]
    rfl
  · rw [moduleEntry, heq]
    rfl

theorem moduleEntry_none (hno : ¬ SymtabUsable f) : moduleEntry f va name = none := by
  rw [moduleEntry, elfGetSymbolValue_of_not_usable name hno]
  rfl

/-- Behind the relocation, `module_load` comes back if its table has room and no address is derived
from a value that was not stored. -/
theorem moduleStart_isSome_iff : (moduleStart env f mod h r m).isSome ↔
    (r.add moduleRealloc h mod).isSome ∧ SymtabUsable f := by
  rw [moduleStart]
  rcases r.add moduleRealloc h mod with _ | ⟨h', r'⟩
  · exact iff_of_false Bool.false_ne_true fun hr => Bool.false_ne_true hr.1
  · rw [Option.bind_some]
    dsimp only
    by_cases husable : SymtabUsable f
    · obtain ⟨init, hinit⟩ := Option.isSome_iff_exists.mp
        (moduleEntry_isSome (cstr "_module_init") m.va husable)
      rw [hinit, Option.bind_some, Option.isSome_map]
      exact iff_of_true (moduleEntry_isSome _ _ husable) ⟨rfl, husable⟩
    · rw [moduleEntry_none husable, Option.bind_none]
      exact iff_of_false Bool.false_ne_true fun hr => husable hr.2

/-- **The contract of the lookup** is met, and `module_load` does not use a value that was not stored,
if and only if there is a table of symbols with entries of their size. -/
theorem elf_get_symbol_value_iff : (SymbolLaw f name ↔ SymtabUsable f) ∧
    ((moduleStart env f mod h r m).isSome ↔ (r.add moduleRealloc h mod).isSome ∧ SymtabUsable f) :=
  ⟨symbolLaw_iff, moduleStart_isSome_iff⟩

end Symbols

/-- **A file without symbols** has every name, with a value that is not stored. -/
theorem elf_get_symbol_value_stripped : ¬ ∀ (f : ElfFile) (name : List UInt8), SymbolLaw f name := by
  intro h
  have hnone : elfFindSec (layoutSample 4) (cstr ".symtab") = none := by decide
  have hno : ¬ SymtabUsable (layoutSample 4) := by
    rintro ⟨symtab, hfind, -⟩
    exact absurd (hfind.symm.trans hnone) (Option.some_ne_none symtab)
  exact hno (symbolLaw_iff.mp (h (layoutSample 4) (cstr "_module_init")))

end FlightOs
