/-
# The two passes over an archive

The tables for the files of an archive are allocated for the number that the first pass has
counted, and filled by the second.  The two agree where they come to the same records.  They do
not where a symbol table has no symbols, and a size other than 4: the first pass skips it by its
size, and the second goes on behind the count of the symbols.

Where the second pass stands is told by `p`, `ar_str` and `n_sym` (`ArCursor`); the records that it
does not stop at are those of `ArTakes`.

`ar_passes_agree`: where the second pass is made and takes no symbol table of that kind, and both
passes read the same sizes, no table is written beyond its end.  `ar_passes_overrun`: two files in
tables for one.
-/
import FlightOs.Ar.Records
import Mathlib.Logic.Relation

namespace FlightOs

open Relation

/-! ## 1. Strides -/

section Stride

variable {mem : Nat → UInt8} {avail : Nat → Bool} {stack stack' : List UInt8} {p q : Nat}
  {a : Archive} {hdr : List UInt8}

/-- Where the first pass goes on. -/
def arNext (mem : Nat → UInt8) (stack : List UInt8) (p : Nat) : Nat :=
  wadd (wadd p sizeofArHdr) (arGetEntrySize stack (arReadHdr mem p))

/-- The records that the first pass comes to. -/
inductive ArMeets (mem : Nat → UInt8) (stack : List UInt8) (stop : Nat) (p : Nat) : Nat → Prop
  | start : ArMeets mem stack stop p p
  | next {q : Nat} : ArMeets mem stack stop p q → q < stop →
      ArMeets mem stack stop p (arNext mem stack q)

theorem ArMeets.trans {stop r : Nat} (h : ArMeets mem stack stop p q)
    (h' : ArMeets mem stack stop q r) : ArMeets mem stack stop p r := by
  induction h' with
  | start => exact h
  | next _ hlt ih => exact ih.next hlt

/-- The numbers of `strtol` are words. -/
theorem strtolDigits_lt {clamp : Nat} (hclamp : clamp < 2 ^ 32) {res : Nat} (l : List UInt8)
    (hres : res < 2 ^ 32) : strtolDigits clamp res l < 2 ^ 32 := by
  induction l generalizing res with
  | nil => exact hres
  | cons c l ih =>
    rw [strtolDigits]
    split
    case isFalse => exact hres
    case isTrue hd =>
      simp only [isDigit, Bool.and_eq_true, decide_eq_true_eq, UInt8.le_iff_toNat_le] at hd
      have h57 : c.toNat ≤ 57 := hd.2
      dsimp only
      split_ifs with hover
      · exact hclamp
      · exact ih (by omega)

theorem arGetEntrySize_lt (stack hdr : List UInt8) : arGetEntrySize stack hdr < 2 ^ 32 := by
  unfold arGetEntrySize strtol
  split
  · exact Nat.two_pow_pos 32
  · split_ifs
    · exact wsub_lt _ _
    · exact strtolDigits_lt (by norm_num) _ (by norm_num)
    · exact strtolDigits_lt (by norm_num) _ (by norm_num)

/-- The symbol table is skipped by its size, in pieces. -/
theorem wadd_pieces {p n r : Nat} :
    wadd (wadd (wadd p 4) n) (wsub (wsub r 4) n) = wadd p r := by
  unfold wadd wsub
  omega

variable (mem avail stack p a hdr)

/-- A file is stored for each record that is no table. -/
theorem arProcessHdr_files :
    (arProcessHdr mem avail stack p a hdr).2.files.length =
      a.files.length + if isStrTbl hdr || isSymTbl hdr then 0 else 1 := by
  unfold arProcessHdr
  split
  case isTrue hstr =>
    rw [hstr, Bool.true_or, if_pos rfl, arProcessStrtbl]
    split <;> rfl
  case isFalse hstr =>
    rw [Bool.eq_false_iff.mpr hstr, Bool.false_or]
    split
    case isTrue hsym =>
      unfold arProcessSymTbl
      dsimp only
      split_ifs <;> rfl
    case isFalse hsym => simp [arProcessFile]

theorem arProcessHdr_stop : (arProcessHdr mem avail stack p a hdr).2.stop = a.stop := by
  unfold arProcessHdr arProcessStrtbl arProcessSymTbl arProcessFile
  dsimp only
  split_ifs <;> rfl

end Stride

/-! ## 2. The first pass -/

/-- From `q` on, the first pass comes to so many files. -/
inductive ArFilesFrom (mem : Nat → UInt8) (stack : List UInt8) (stop : Nat) : Nat → Nat → Prop
  | stop {q : Nat} : ¬ q < stop → ArFilesFrom mem stack stop q 0
  | next {q n : Nat} : q < stop → ArFilesFrom mem stack stop (arNext mem stack q) n →
      ArFilesFrom mem stack stop q
        (n + if isStrTbl (arReadHdr mem q) || isSymTbl (arReadHdr mem q) then 0 else 1)

section Passes

variable {mem : Nat → UInt8} {stack : List UInt8} {stop p : Nat}

/-- What the first pass does with one record. -/
theorem arGetFilecount_step {stop fuel p cnt : Nat} (hp : p < stop) :
    arGetFilecount mem stack stop (fuel + 1) p cnt = arGetFilecount mem stack stop fuel
      (arNext mem stack p)
        (cnt + if isStrTbl (arReadHdr mem p) || isSymTbl (arReadHdr mem p) then 0 else 1) := by
  rw [arGetFilecount, if_pos hp]
  dsimp only
  cases isStrTbl (arReadHdr mem p) <;> cases isSymTbl (arReadHdr mem p) <;> rfl

theorem arGetFilecount_le {stop fuel p cnt n : Nat}
    (h : arGetFilecount mem stack stop fuel p cnt = some n) : cnt ≤ n := by
  induction fuel generalizing p cnt with
  | zero => cases h
  | succ fuel ih =>
    by_cases hp : p < stop
    · rw [arGetFilecount_step hp] at h
      exact Nat.le_trans (Nat.le_add_right _ _) (ih h)
    · rw [arGetFilecount, if_neg hp] at h
      cases h
      exact Nat.le_refl _

/-- What it counts are the files that it comes to. -/
theorem arGetFilecount_files {fuel cnt n : Nat}
    (h : arGetFilecount mem stack stop fuel p cnt = some n) :
    ∃ m, ArFilesFrom mem stack stop p m ∧ n = cnt + m := by
  induction fuel generalizing p cnt with
  | zero => cases h
  | succ fuel ih =>
    by_cases hp : p < stop
    · rw [arGetFilecount_step hp] at h
      obtain ⟨m, hm, rfl⟩ := ih h
      exact ⟨_, .next hp hm, by omega⟩
    · rw [arGetFilecount, if_neg hp] at h
      cases h
      exact ⟨0, .stop hp, rfl⟩

/-- There is one number of files. -/
theorem ArFilesFrom.unique {n m : Nat} (h : ArFilesFrom mem stack stop p n)
    (h' : ArFilesFrom mem stack stop p m) : n = m := by
  induction h generalizing m with
  | stop hp =>
    cases h' with
    | stop => rfl
    | next hp' => exact absurd hp' hp
  | next hp _ ih =>
    cases h' with
    | stop hp' => exact absurd hp hp'
    | next _ hm => rw [ih hm]

end Passes

/-! ## 3. The second pass -/

/-- Where the second pass stands: `p`, and `ar_str` and `n_sym` of the archive. -/
structure ArCursor where
  p : Nat
  arStr : Nat
  nSym : Nat
  deriving DecidableEq, Repr

/-- The symbol table at `p` is none that is not accepted: it is not foul, and where it has symbols,
its offsets are aligned, and there is memory for the tables. -/
def ArSymtabTaken (mem : Nat → UInt8) (avail : Nat → Bool) (stack : List UInt8) (stop p : Nat) :
    Prop :=
  let n := memWord mem (wadd p sizeofArHdr)
  ¬ stop < arNext mem stack p ∧
    (n ≠ 0 → arKmalloc avail 4 (n * 4) = true ∧ wadd (wadd p sizeofArHdr) 4 % 4 = 0 ∧
      arKmalloc avail 5 (n * 4) = true)

instance decidableArSymtabTaken (mem : Nat → UInt8) (avail : Nat → Bool) (stack : List UInt8)
    (stop p : Nat) : Decidable (ArSymtabTaken mem avail stack stop p) :=
  inferInstanceAs (Decidable (_ ∧ _))

/-- The second pass takes the record, and goes on. -/
inductive ArTakes (mem : Nat → UInt8) (avail : Nat → Bool) (stack : List UInt8) (stop : Nat) :
    ArCursor → ArCursor → Prop
  | strtab {p n : Nat} : p < stop → isStrTbl (arReadHdr mem p) = true → arNext mem stack p ≠ 0 →
      ArTakes mem avail stack stop ⟨p, 0, n⟩ ⟨arNext mem stack p, wadd p sizeofArHdr, n⟩
  | empty {p str : Nat} : p < stop → isSymTbl (arReadHdr mem p) = true →
      ArSymtabTaken mem avail stack stop p → memWord mem (wadd p sizeofArHdr) = 0 →
      wadd (wadd p sizeofArHdr) 4 ≠ 0 →
      ArTakes mem avail stack stop ⟨p, str, 0⟩ ⟨wadd (wadd p sizeofArHdr) 4, str, 0⟩
  | symtab {p str : Nat} : p < stop → isSymTbl (arReadHdr mem p) = true →
      ArSymtabTaken mem avail stack stop p → memWord mem (wadd p sizeofArHdr) ≠ 0 →
      arNext mem stack p ≠ 0 →
      ArTakes mem avail stack stop ⟨p, str, 0⟩
        ⟨arNext mem stack p, str, memWord mem (wadd p sizeofArHdr)⟩
  | file {p str n : Nat} : p < stop → isStrTbl (arReadHdr mem p) = false →
      isSymTbl (arReadHdr mem p) = false → arNext mem stack p ≠ 0 →
      ArTakes mem avail stack stop ⟨p, str, n⟩ ⟨arNext mem stack p, str, n⟩

/-- The first pass skips a symbol table without symbols by 4 bytes, and any other record by the size
that the second pass reads from its header. -/
def ArStride (mem : Nat → UInt8) (stack stack' : List UInt8) (p : Nat) : Prop :=
  let hdr := arReadHdr mem p
  arGetEntrySize stack hdr =
    if isSymTbl hdr = true ∧ memWord mem (wadd p sizeofArHdr) = 0 then 4 else arGetEntrySize stack' hdr

instance decidableArStride (mem : Nat → UInt8) (stack stack' : List UInt8) (p : Nat) :
    Decidable (ArStride mem stack stack' p) :=
  inferInstanceAs (Decidable (_ = _))

section Walks

variable {mem : Nat → UInt8} {avail : Nat → Bool} {stack stack' : List UInt8} {stop p : Nat}
  {hdr : List UInt8} {c c' c₁ c₂ : ArCursor} {a : Archive}

theorem isStrTbl_of_isSymTbl (h : isSymTbl hdr = true) : isStrTbl hdr = false := by
  rw [isSymTbl, beq_iff_eq] at h
  rw [isStrTbl, h]
  rfl

def Archive.cursor (a : Archive) (p : Nat) : ArCursor := ⟨p, a.arStr, a.nSym⟩

/-- Where the second pass goes on, and what it has found. -/
theorem arProcessHdr_takes (hp : p < a.stop) {r : Nat × Archive}
    (hr : arProcessHdr mem avail stack (wadd p sizeofArHdr) a (arReadHdr mem p) = r)
    (hne : r.1 ≠ 0) : ArTakes mem avail stack a.stop (a.cursor p) (r.2.cursor r.1) := by
  unfold arProcessHdr at hr
  split at hr
  case isTrue hstr =>
    unfold arProcessStrtbl at hr
    split at hr
    · subst hr
      exact absurd rfl hne
    case isFalse h0 =>
      subst hr
      rw [Archive.cursor, not_not.mp h0]
      exact .strtab hp hstr hne
  case isFalse hstr =>
    split at hr
    case isFalse hsym =>
      subst hr
      exact .file hp (Bool.eq_false_iff.mpr hstr) (Bool.eq_false_iff.mpr hsym) hne
    case isTrue hsym =>
      unfold arProcessSymTbl at hr
      dsimp only at hr
      split at hr
      · subst hr
        exact absurd rfl hne
      case isFalse h0 =>
      rw [Archive.cursor, not_not.mp h0]
      split at hr
      · subst hr
        exact absurd rfl hne
      case isFalse hfoul =>
      split at hr
      case isTrue hn =>
        subst hr
        rw [Archive.cursor, not_not.mp h0]
        exact .empty hp hsym ⟨hfoul, fun h => absurd hn h⟩ hn hne
      case isFalse hn =>
      split at hr
      · subst hr
        exact absurd rfl hne
      case isFalse h4 =>
      split at hr
      · subst hr
        exact absurd rfl hne
      case isFalse halign =>
      split at hr
      · subst hr
        exact absurd rfl hne
      case isFalse h5 =>
      subst hr
      dsimp only [Archive.cursor] at hne ⊢
      rw [wadd_pieces] at hne ⊢
      exact .symtab hp hsym ⟨hfoul, fun _ => ⟨Bool.not_eq_false _ ▸ h4, not_not.mp halign,
        Bool.not_eq_false _ ▸ h5⟩⟩ hn hne

/-- No other record is taken. -/
theorem ArTakes.ne (h : ArTakes mem avail stack a.stop (a.cursor p) c) :
    (arProcessHdr mem avail stack (wadd p sizeofArHdr) a (arReadHdr mem p)).1 ≠ 0 := by
  generalize hk : a.cursor p = k at h
  cases h with
  | strtab hp hstr hne =>
    obtain ⟨rfl, h0, -⟩ := ArCursor.mk.inj hk
    rw [arProcessHdr, if_pos hstr, arProcessStrtbl, if_neg (not_not.mpr h0)]
    exact hne
  | empty hp hsym htaken hn hne =>
    obtain ⟨rfl, -, h0⟩ := ArCursor.mk.inj hk
    obtain ⟨hfoul, -⟩ := htaken
    rw [arNext] at hfoul
    rw [arProcessHdr, isStrTbl_of_isSymTbl hsym, if_neg Bool.false_ne_true, if_pos hsym,
      arProcessSymTbl, if_neg (not_not.mpr h0)]
    dsimp only
    rw [if_neg hfoul, if_pos hn]
    exact hne
  | symtab hp hsym htaken hn hne =>
    obtain ⟨rfl, -, h0⟩ := ArCursor.mk.inj hk
    obtain ⟨hfoul, hroom⟩ := htaken
    obtain ⟨h4, halign, h5⟩ := hroom hn
    rw [arNext] at hfoul
    rw [arProcessHdr, isStrTbl_of_isSymTbl hsym, if_neg Bool.false_ne_true, if_pos hsym,
      arProcessSymTbl, if_neg (not_not.mpr h0)]
    dsimp only
    rw [if_neg hfoul, if_neg hn, if_neg (Bool.not_eq_false _ ▸ h4), if_neg (not_not.mpr halign),
      if_neg (Bool.not_eq_false _ ▸ h5), wadd_pieces]
    exact hne
  | file hp hstr hsym hne =>
    obtain ⟨rfl, -, -⟩ := ArCursor.mk.inj hk
    rw [arProcessHdr, hstr, hsym]
    exact hne

/-- There is one way to go on. -/
theorem ArTakes.unique (h : ArTakes mem avail stack stop c c₁)
    (h' : ArTakes mem avail stack stop c c₂) : c₁ = c₂ := by
  have hexcl := fun {hdr} => @isStrTbl_of_isSymTbl hdr
  cases h <;> cases h' <;> simp_all

/-- **Where the strides agree**, and only there, the second pass goes on where the first does. -/
theorem ArTakes.p_eq_iff (h : ArTakes mem avail stack' stop c c') :
    c'.p = arNext mem stack c.p ↔ ArStride mem stack stack' c.p := by
  have hsize : ∀ {p n : Nat}, n < 2 ^ 32 →
      (wadd (wadd p sizeofArHdr) n = arNext mem stack p ↔ arGetEntrySize stack (arReadHdr mem p) = n) := by
    intro p n hn
    have hlt := arGetEntrySize_lt stack (arReadHdr mem p)
    unfold arNext wadd
    omega
  cases h with
  | strtab _ hstr =>
    have hsym : ¬ isSymTbl (arReadHdr mem _) = true := fun h =>
      Bool.false_ne_true ((isStrTbl_of_isSymTbl h).symm.trans hstr)
    rw [ArStride, if_neg (fun h => hsym h.1)]
    exact hsize (arGetEntrySize_lt _ _)
  | empty _ hsym _ hn =>
    rw [ArStride, if_pos ⟨hsym, hn⟩]
    exact hsize (by decide)
  | symtab _ hsym _ hn =>
    rw [ArStride, if_neg (fun h => hn h.2)]
    exact hsize (arGetEntrySize_lt _ _)
  | file _ _ hsym =>
    rw [ArStride, if_neg (fun h => Bool.false_ne_true (hsym.symm.trans h.1))]
    exact hsize (arGetEntrySize_lt _ _)

/-- **The second pass** stores no more files than the first counts from there on. -/
theorem arLoadRecords_files_le {fuel fuel' cnt n : Nat} {a' : Archive} {r : Int}
    (hs : ∀ c, ReflTransGen (ArTakes mem avail stack' a.stop) (a.cursor p) c →
      ∀ c', ArTakes mem avail stack' a.stop c c' → ArStride mem stack stack' c.p)
    (hcount : arGetFilecount mem stack a.stop fuel p cnt = some n)
    (hload : arLoadRecords mem avail stack' fuel' p a = some (r, a')) :
    a'.files.length + cnt ≤ a.files.length + n := by
  induction fuel' generalizing fuel p cnt a with
  | zero => cases hload
  | succ fuel' ih =>
    cases fuel with
    | zero => cases hcount
    | succ fuel =>
      rw [arLoadRecords] at hload
      by_cases hp : p < a.stop
      · rw [if_pos hp] at hload
        rw [arGetFilecount_step hp] at hcount
        generalize hr : arProcessHdr mem avail stack' (wadd p sizeofArHdr) a (arReadHdr mem p) = x
          at hload
        have hfiles := arProcessHdr_files mem avail stack' (wadd p sizeofArHdr) a (arReadHdr mem p)
        have hstop := arProcessHdr_stop mem avail stack' (wadd p sizeofArHdr) a (arReadHdr mem p)
        rw [hr] at hfiles hstop
        dsimp only at hload
        split at hload
        case isTrue =>
          cases hload
          have hmono := arGetFilecount_le hcount
          omega
        case isFalse hne =>
          have htakes := arProcessHdr_takes hp hr hne
          have hp' : x.1 = arNext mem stack p := htakes.p_eq_iff.mpr (hs _ .refl _ htakes)
          rw [← hp', ← hstop] at hcount
          rw [← hstop] at htakes hs
          have hle := ih (fun c hc c' => hs c (.head htakes hc) c') hcount hload
          omega
      · rw [if_neg hp] at hload
        rw [arGetFilecount, if_neg hp] at hcount
        cases hload
        cases hcount
        exact Nat.le_refl _

end Walks

/-! ## 4. The tables -/

/-- The files for which each of the tables has room. -/
def arTableLen (n : Nat) : Nat := n * 4 % 2 ^ 32 / 4

/-- Wherever the archive is loaded, or found faulty, no more files have been stored than counted, and
no table has been written beyond its end. -/
def ArTablesHold (mem : Nat → UInt8) (avail : Nat → Bool) (stack stack' : List UInt8)
    (p size : Nat) : Prop :=
  ∀ fuel r a, arLoad mem avail stack stack' fuel p size = some (r, a) →
    ∀ n, arGetFilecount mem stack (wadd p size) fuel (wadd p 8) 0 = some n →
      a.files.length ≤ n ∧ a.files.length ≤ arTableLen n

theorem arCheckMagic_of_ne {mem : Nat → UInt8} {p : Nat} (h : arCheckMagic mem p ≠ 0) :
    arCheckMagic mem p = wadd p 8 := by
  unfold arCheckMagic at h ⊢
  split at h
  case isTrue hmag => exact if_pos hmag
  case isFalse => exact absurd rfl h

theorem arInit_stop (p size : Nat) : (arInit p size).stop = wadd p size := rfl

/-- The second pass is made behind a magic number, where there is memory for the tables.  Then the
count does not wrap around in the size of a table, and no record that the second pass takes is skipped by
another size in the first. -/
def ArAgrees (mem : Nat → UInt8) (avail : Nat → Bool) (stack stack' : List UInt8)
    (p size : Nat) : Prop :=
  arCheckMagic mem p ≠ 0 → ∀ n, ArFilesFrom mem stack (wadd p size) (wadd p 8) n →
    arTables avail n = true → n < 2 ^ 30 ∧
      ∀ c, ReflTransGen (ArTakes mem avail stack' (wadd p size)) ⟨wadd p 8, 0, 0⟩ c →
        ∀ c', ArTakes mem avail stack' (wadd p size) c c' → ArStride mem stack stack' c.p

/-- **No table is written beyond its end** where the passes take the same strides. -/
theorem ar_passes_agree {mem : Nat → UInt8} {avail : Nat → Bool} {stack stack' : List UInt8}
    {p size : Nat} (h : ArAgrees mem avail stack stack' p size) :
    ArTablesHold mem avail stack stack' p size := by
  intro fuel r a hload n hcount
  rw [arLoad] at hload
  by_cases hmagic : arCheckMagic mem p = 0
  · rw [if_pos hmagic] at hload
    cases hload
    exact ⟨Nat.zero_le _, Nat.zero_le _⟩
  · rw [if_neg hmagic, arCheckMagic_of_ne hmagic, arInit_stop, hcount] at hload
    dsimp only at hload
    split at hload
    case isFalse =>
      cases hload
      exact ⟨Nat.zero_le _, Nat.zero_le _⟩
    case isTrue htables =>
      obtain ⟨m, hm, hn⟩ := arGetFilecount_files hcount
      obtain rfl : n = m := hn.trans (Nat.zero_add m)
      obtain ⟨hlt, hs⟩ := h hmagic n hm htables
      have hle := arLoadRecords_files_le (a := arInit p size) hs hcount hload
      have hlen : a.files.length ≤ n := by simpa [arInit] using hle
      refine ⟨hlen, hlen.trans ?_⟩
      rw [arTableLen]
      omega

/-- The first pass does not leave a set that it does not leave in one step. -/
theorem ArMeets.mem_of_closed {mem : Nat → UInt8} {stack : List UInt8} {stop p q : Nat}
    {L : List Nat} (h0 : p ∈ L) (hL : ∀ r ∈ L, r < stop → arNext mem stack r ∈ L)
    (h : ArMeets mem stack stop p q) : q ∈ L := by
  induction h with
  | start => exact h0
  | next _ hlt ih => exact hL _ ih hlt

/-- A file of two bytes. -/
def arOneFile : List UInt8 := arMag ++ (arSampleRecord [97, 47] [50] [104, 105]).bytes

/-- A file, and a symbol table without symbols that goes beyond the end. -/
def arFoulFile : List UInt8 :=
  arMag ++ (arSampleRecord [97, 47] [48] []).bytes ++ (arSampleRecord [47] [57, 57, 57] [0, 0, 0, 0]).bytes

/-- The symbol table is not taken. -/
theorem ar_passes_agree_foul :
    ArTablesHold (memOf 0x1000 arFoulFile) (fun _ => true) [] [] 0x1000 132 := by
  have hnext : arNext (memOf 0x1000 arFoulFile) [] (wadd 0x1000 8) = 0x1044 := by decide
  have hnext₂ : arNext (memOf 0x1000 arFoulFile) [] 0x1044 = 0x1467 := by decide
  have hfirst : ArTakes (memOf 0x1000 arFoulFile) (fun _ => true) [] (wadd 0x1000 132)
      ⟨wadd 0x1000 8, 0, 0⟩ ⟨0x1044, 0, 0⟩ :=
    hnext ▸ .file (by decide) (by decide) (by decide) (by decide)
  have hstops : ∀ c, ¬ ArTakes (memOf 0x1000 arFoulFile) (fun _ => true) [] (wadd 0x1000 132)
      ⟨0x1044, 0, 0⟩ c := by
    have hstr : isStrTbl (arReadHdr (memOf 0x1000 arFoulFile) 0x1044) = false := by decide
    have hsym : isSymTbl (arReadHdr (memOf 0x1000 arFoulFile) 0x1044) = true := by decide
    have hfoul : ¬ ArSymtabTaken (memOf 0x1000 arFoulFile) (fun _ => true) [] (wadd 0x1000 132)
        0x1044 := by
      rintro ⟨hfoul, -⟩
      rw [hnext₂] at hfoul
      exact hfoul (by decide)
    intro c hc
    cases hc with
    | strtab _ h => exact Bool.false_ne_true (hstr.symm.trans h)
    | empty _ _ h => exact hfoul h
    | symtab _ _ h => exact hfoul h
    | file _ _ h => exact Bool.false_ne_true (h.symm.trans hsym)
  refine ar_passes_agree (fun _ n hn _ => ⟨?_, fun c hc c' hstep => ?_⟩)
  · have hcount : arGetFilecount (memOf 0x1000 arFoulFile) [] (wadd 0x1000 132) 3 (wadd 0x1000 8) 0 =
        some 1 := by decide
    obtain ⟨m, hm, hone⟩ := arGetFilecount_files hcount
    obtain rfl := hn.unique hm
    omega
  · rcases hc.cases_head with rfl | ⟨d, hd, hreach⟩
    · decide
    · obtain rfl := hd.unique hfirst
      rcases hreach.cases_head with rfl | ⟨e, he, -⟩
      · exact absurd hstep (hstops _)
      · exact absurd he (hstops _)

/-- A symbol table without symbols, of 64 bytes, in which the header of a file is hidden; and a file
behind it. -/
def arHiddenFile : List UInt8 :=
  arMag ++ (arSampleRecord [47] [54, 52]
    ([0, 0, 0, 0] ++ (arSampleRecord [98, 47] [48] []).bytes)).bytes ++
      (arSampleRecord [97, 47] [48] []).bytes

/-- **Two files are stored in tables for one.** -/
theorem ar_passes_overrun : ¬ ∀ (mem : Nat → UInt8) (avail : Nat → Bool) (stack stack' : List UInt8)
    (p size : Nat), ArTablesHold mem avail stack stack' p size := by
  intro h
  have hcount : arGetFilecount (memOf 0x1000 arHiddenFile) [] (wadd 0x1000 192) 4 (wadd 0x1000 8) 0 =
      some 1 := by decide
  have hload : (arLoad (memOf 0x1000 arHiddenFile) (fun _ => true) [] [] 4 0x1000 192).map
      (fun r => r.2.files.length) = some 2 := by decide
  obtain ⟨⟨r, a⟩, hsome, hlen⟩ := Option.map_eq_some_iff.mp hload
  have hle := (h _ _ _ _ _ _ 4 r a hsome 1 hcount).1
  dsimp only at hlen
  omega

end FlightOs
