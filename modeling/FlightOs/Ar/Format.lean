/-
# The format of an archive

What an archive is, whatever the reader makes of it: its magic number, and behind that the records,
each at an even offset: the symbol table and the string table, if there are any, and the members.
A record is a header with a decimal size, and the data.

`strtol_decimal`, `arReadHdr_eq`: the reader finds the header of a record, and the size in it.
-/
import FlightOs.Ar.Reader
import Mathlib.Tactic.Common
import Mathlib.Tactic.Linarith

namespace FlightOs

/-! ## 1. Decimal numbers -/

/-- The number with these digits, behind others that make up `res`. -/
def decimalFrom (res : Nat) (ds : List UInt8) : Nat := ds.foldl (fun r d => r * 10 + (d.toNat - 48)) res

/-- A field with a decimal number, filled up with blanks. -/
def IsDecimal (field : List UInt8) (n : Nat) : Prop :=
  ∃ ds k, ds ≠ [] ∧ (∀ d ∈ ds, isDigit d = true) ∧ decimalFrom 0 ds = n ∧
    field = ds ++ List.replicate k 32

theorem le_decimalFrom : ∀ (ds : List UInt8) (res : Nat), res ≤ decimalFrom res ds
  | [], _ => Nat.le_refl _
  | d :: ds, res => Nat.le_trans (by omega) (le_decimalFrom ds (res * 10 + (d.toNat - 48)))

/-- The digits are read up to the first character that is none. -/
theorem strtolDigits_eq {rest : List UInt8} (hrest : ∀ c ∈ rest.head?, isDigit c = false) :
    ∀ {ds : List UInt8} {res : Nat}, (∀ d ∈ ds, isDigit d = true) → decimalFrom res ds < 2 ^ 32 →
      strtolDigits (2 ^ 32 - 1) res (ds ++ rest) = decimalFrom res ds
  | [], res, _, _ => by
    cases rest with
    | nil => rfl
    | cons c rest =>
      have hc : isDigit c = false := hrest c rfl
      rw [List.nil_append, strtolDigits, hc]
      rfl
  | d :: ds, res, hd, hlt => by
    have hle := le_decimalFrom ds (res * 10 + (d.toNat - 48))
    have hlt' : decimalFrom (res * 10 + (d.toNat - 48)) ds < 2 ^ 32 := hlt
    rw [List.cons_append, strtolDigits, if_pos (hd d (List.mem_cons_self ..))]
    dsimp only
    rw [if_neg (by omega)]
    exact strtolDigits_eq hrest (fun e he => hd e (List.mem_cons_of_mem _ he)) hlt'

theorem isDigit_not_space {c : UInt8} (h : isDigit c = true) :
    isSpace c = false ∧ c ≠ 45 ∧ c ≠ 43 := by
  simp only [isDigit, Bool.and_eq_true, decide_eq_true_eq, UInt8.le_iff_toNat_le] at h
  have h48 : (48 : UInt8).toNat = 48 := rfl
  have h57 : (57 : UInt8).toNat = 57 := rfl
  have hne : ∀ d : UInt8, d.toNat < 48 → c ≠ d := by
    rintro d hd rfl
    omega
  refine ⟨?_, hne 45 (by decide), hne 43 (by decide)⟩
  have h13 : ¬ c ≤ 13 := by
    have : (13 : UInt8).toNat = 13 := rfl
    rw [UInt8.le_iff_toNat_le]
    omega
  simp [isSpace, hne 32 (by decide), h13]

/-- **A decimal number** is read, whatever comes behind it. -/
theorem strtol_decimal {field rest : List UInt8} {n : Nat} (h : IsDecimal field n) (hn : n < 2 ^ 32)
    (hrest : ∀ c ∈ rest.head?, isDigit c = false) : strtol (field ++ rest) = n := by
  obtain ⟨ds, k, hne, hd, rfl, rfl⟩ := h
  obtain ⟨d, ds, rfl⟩ := List.exists_cons_of_ne_nil hne
  obtain ⟨hspace, h45, h43⟩ := isDigit_not_space (hd d (List.mem_cons_self ..))
  have hrest' : ∀ c ∈ (List.replicate k 32 ++ rest).head?, isDigit c = false := by
    cases k with
    | zero => exact hrest
    | succ k =>
      intro c hc
      obtain rfl : (32 : UInt8) = c := Option.some.inj hc
      decide
  have hdigits := strtolDigits_eq hrest' hd hn
  rw [List.append_assoc]
  rw [List.cons_append] at hdigits ⊢
  rw [strtol, List.dropWhile_cons_of_neg (by simp [hspace])]
  simp only [if_neg h45, if_neg h43]
  exact hdigits

/-! ## 2. What lies in the memory -/

/-- The bytes lie at `p`. -/
def MemHolds (mem : Nat → UInt8) (p : Nat) (bs : List UInt8) : Prop :=
  ∀ i (h : i < bs.length), mem (p + i) = bs[i]

section Memory

variable {mem : Nat → UInt8} {p : Nat} {bs bs' : List UInt8}

theorem memHolds_append :
    MemHolds mem p (bs ++ bs') ↔ MemHolds mem p bs ∧ MemHolds mem (p + bs.length) bs' := by
  constructor
  · intro h
    refine ⟨fun i hi => ?_, fun i hi => ?_⟩
    · rw [h i (by rw [List.length_append]; omega), List.getElem_append_left hi]
    · rw [Nat.add_assoc, h (bs.length + i) (by rw [List.length_append]; omega),
        List.getElem_append_right (Nat.le_add_right _ _)]
      simp
  · rintro ⟨h, h'⟩ i hi
    rw [List.length_append] at hi
    by_cases hlt : i < bs.length
    · rw [List.getElem_append_left hlt, h i hlt]
    · rw [List.getElem_append_right (Nat.le_of_not_lt hlt), ← h' (i - bs.length) (by omega)]
      congr 1
      omega

theorem memHolds_cons {b : UInt8} :
    MemHolds mem p (b :: bs) ↔ mem p = b ∧ MemHolds mem (p + 1) bs := by
  rw [← List.singleton_append, memHolds_append]
  refine and_congr ⟨fun h => h 0 Nat.one_pos, fun h i hi => ?_⟩ Iff.rfl
  obtain rfl : i = 0 := Nat.lt_one_iff.mp hi
  exact h

/-- The bytes are read as they lie there. -/
theorem MemHolds.read (h : MemHolds mem p bs) (hp : p + bs.length ≤ 2 ^ 32) :
    (List.range bs.length).map (fun i => mem (wadd p i)) = bs := by
  refine List.ext_getElem (by simp) fun i hi _ => ?_
  rw [List.length_map, List.length_range] at hi
  rw [List.getElem_map, List.getElem_range, wadd_of_lt (by omega), h i hi]

theorem MemHolds.drop (h : MemHolds mem p bs) {n : Nat} (hn : n ≤ bs.length) :
    MemHolds mem (p + n) (bs.drop n) := by
  rw [← List.take_append_drop n bs, memHolds_append, List.length_take, Nat.min_eq_left hn] at h
  exact h.2

theorem MemHolds.take (h : MemHolds mem p bs) (n : Nat) : MemHolds mem p (bs.take n) := by
  rw [← List.take_append_drop n bs, memHolds_append] at h
  exact h.1

theorem MemHolds.shorten (h : MemHolds mem p bs) (hpre : bs' <+: bs) : MemHolds mem p bs' := by
  obtain ⟨t, rfl⟩ := hpre
  exact (memHolds_append.mp h).1

end Memory

/-! ## 3. Records -/

/-- A record: the fields of its header, where `info` are the date, the owner and the mode, and its
data. -/
structure ArRecord where
  arName : List UInt8
  info : List UInt8
  arSize : List UInt8
  data : List UInt8

namespace ArRecord

/-- The header, with `AR_FMAG` at its end. -/
def hdr (r : ArRecord) : List UInt8 := r.arName ++ r.info ++ r.arSize ++ [96, 10]

/-- The next record starts at an even offset. -/
def pad (r : ArRecord) : List UInt8 := if r.data.length % 2 = 0 then [] else [10]

def bytes (r : ArRecord) : List UInt8 := r.hdr ++ r.data ++ r.pad

structure WellFormed (r : ArRecord) : Prop where
  arName : r.arName.length = 16
  info : r.info.length = 32
  arSize : r.arSize.length = 10
  size : IsDecimal r.arSize r.data.length

section Header

variable {r : ArRecord}

theorem WellFormed.length_hdr (h : r.WellFormed) : r.hdr.length = sizeofArHdr := by
  simp only [hdr, List.length_append, h.arName, h.info, h.arSize]
  rfl

/-- Where the data are even, there is no padding. -/
theorem pad_of_even (h : r.data.length % 2 = 0) : r.pad = [] := if_pos h

theorem pad_of_odd (h : r.data.length % 2 ≠ 0) : r.pad = [10] := if_neg h

theorem WellFormed.length_bytes (h : r.WellFormed) :
    r.bytes.length = sizeofArHdr + r.data.length + r.data.length % 2 := by
  rw [bytes, List.length_append, List.length_append, h.length_hdr]
  congr 1
  by_cases heven : r.data.length % 2 = 0
  · rw [pad_of_even heven, heven]
    rfl
  · rw [pad_of_odd heven]
    exact (Nat.mod_two_ne_zero.mp heven).symm

theorem WellFormed.even_bytes (h : r.WellFormed) : r.bytes.length % 2 = 0 := by
  rw [h.length_bytes, sizeofArHdr]
  omega

theorem WellFormed.drop_hdr (h : r.WellFormed) : r.hdr.drop 48 = r.arSize ++ [96, 10] := by
  have hlen : (r.arName ++ r.info).length = 48 := by rw [List.length_append, h.arName, h.info]
  rw [hdr, List.append_assoc, ← hlen, List.drop_left]

theorem WellFormed.arGetEntrySize (h : r.WellFormed) (hlt : r.data.length < 2 ^ 32)
    (stack : List UInt8) : FlightOs.arGetEntrySize stack r.hdr = r.data.length := by
  rw [FlightOs.arGetEntrySize, h.drop_hdr, List.append_assoc]
  refine strtol_decimal h.size hlt fun c hc => ?_
  obtain rfl : (96 : UInt8) = c := Option.some.inj hc
  decide

theorem WellFormed.take_hdr (h : r.WellFormed) : r.hdr.take 2 = r.arName.take 2 := by
  rw [hdr, List.append_assoc, List.append_assoc, List.take_append_of_le_length (by rw [h.arName]; omega)]

/-- The header is read where it lies. -/
theorem WellFormed.arReadHdr_eq (h : r.WellFormed) {mem : Nat → UInt8} {p : Nat}
    (hmem : MemHolds mem p r.hdr) (hp : p + sizeofArHdr ≤ 2 ^ 32) : arReadHdr mem p = r.hdr := by
  have hlen := h.length_hdr
  rw [arReadHdr, ← hlen]
  exact hmem.read (hlen ▸ hp)

end Header

end ArRecord

/-! ## 4. Archives -/

/-- A word, the most significant byte first. -/
def wordBytes (n : Nat) : List UInt8 :=
  [UInt8.ofNat (n / 2 ^ 24), UInt8.ofNat (n / 2 ^ 16), UInt8.ofNat (n / 2 ^ 8), UInt8.ofNat n]

/-- The names of the members, where their data start, and the sizes. -/
def arEntries (p : Nat) : List (ArRecord × List UInt8) → List (List UInt8 × Nat × Nat)
  | [] => []
  | (r, name) :: ms => (name, p + sizeofArHdr, r.data.length) :: arEntries (p + r.bytes.length) ms

/-- The symbol table, with the symbols and the numbers of the members that define them, the string
table, and the members with their names. -/
structure GnuAr where
  symtab : Option (ArRecord × List (List UInt8 × Nat))
  strtab : Option ArRecord
  members : List (ArRecord × List UInt8)

namespace GnuAr

def tables (A : GnuAr) : List ArRecord := (A.symtab.map Prod.fst).toList ++ A.strtab.toList

def records (A : GnuAr) : List ArRecord := A.tables ++ A.members.map Prod.fst

def bytes (A : GnuAr) : List UInt8 := arMag ++ A.records.flatMap ArRecord.bytes

/-- The symbol index. -/
def syms (A : GnuAr) : List (List UInt8 × Nat) := (A.symtab.map Prod.snd).getD []

/-- Where the members start. -/
def membersOffset (A : GnuAr) : Nat := 8 + (A.tables.flatMap ArRecord.bytes).length

/-- Where the header of a member is. -/
def memberOffset (A : GnuAr) (k : Nat) : Nat :=
  A.membersOffset + ((A.members.take k).flatMap fun m => m.1.bytes).length

/-- The members of an archive that lies at `base`. -/
def entries (A : GnuAr) (base : Nat) : List (List UInt8 × Nat × Nat) :=
  arEntries (base + A.membersOffset) A.members

/-- The names of the symbols, each with a null character at its end. -/
def symNames (syms : List (List UInt8 × Nat)) : List UInt8 := syms.flatMap fun s => s.1 ++ [0]

/-- The number of the symbols, the offset of a member for each, their names, and what makes the size
even. -/
def symtabData (A : GnuAr) : List UInt8 :=
  wordBytes A.syms.length ++ (A.syms.flatMap fun s => wordBytes (A.memberOffset s.2)) ++
    symNames A.syms ++ List.replicate ((symNames A.syms).length % 2) 0

/-- A short name stands in the header; of a long one, its offset in the string table does. -/
def Named (A : GnuAr) (m : ArRecord × List UInt8) : Prop :=
  m.2 ≠ [] ∧ 47 ∉ m.2 ∧ 0 ∉ m.2 ∧
    ((∃ k, m.1.arName = m.2 ++ 47 :: List.replicate k 32) ∨
      ∃ field off st, m.1.arName = 47 :: (field ++ [32]) ∧ IsDecimal field off ∧
        A.strtab = some st ∧ off ≤ st.data.length ∧ m.2 ++ [47] <+: st.data.drop off)

structure WellFormed (A : GnuAr) : Prop where
  records : ∀ r ∈ A.records, r.WellFormed
  symtab : ∀ t ∈ A.symtab, [47, 32] <+: t.1.arName ∧ t.1.data = A.symtabData
  syms : ∀ s ∈ A.syms, s.1 ≠ [] ∧ 0 ∉ s.1 ∧ s.2 < A.members.length
  strtab : ∀ r ∈ A.strtab, [47, 47] <+: r.arName
  members : ∀ m ∈ A.members, A.Named m

end GnuAr

/-! ## 5. Sample records -/

/-- Bytes at an address, in a memory that is zero elsewhere. -/
def memOf (base : Nat) (bs : List UInt8) (i : Nat) : UInt8 := bs.getD (i - base) 0

theorem memOf_holds (base : Nat) (bs : List UInt8) : MemHolds (memOf base bs) base bs := by
  intro i hi
  rw [memOf, Nat.add_sub_cancel_left, List.getD_eq_getElem?_getD, List.getElem?_eq_getElem hi,
    Option.getD_some]

/-- A field, filled up with blanks. -/
def arField (n : Nat) (s : List UInt8) : List UInt8 := s ++ List.replicate (n - s.length) 32

def arSampleRecord (name size data : List UInt8) : ArRecord :=
  ⟨arField 16 name, List.replicate 32 32, arField 10 size, data⟩

theorem arSampleRecord_wf {name size data : List UInt8} (hname : (arField 16 name).length = 16)
    (hsize : (arField 10 size).length = 10) (hne : size ≠ []) (hd : ∀ d ∈ size, isDigit d = true)
    (hval : decimalFrom 0 size = data.length) : (arSampleRecord name size data).WellFormed :=
  ⟨hname, List.length_replicate .., hsize, size, 10 - size.length, hne, hd, hval, rfl⟩

end FlightOs
