/-
# Archives that are read as they are

`ar_load_exact_iff`: an archive is loaded, and the files and the symbols recorded are those of the
archive, if and only if it has a member, its records have even sizes, and it lies at the address of
a word where it has symbols.

A record of odd size is followed by a byte that `ar_load` takes for the first one of the next
header.  Without members the tables have no entries, and `kmalloc` has nothing to return.
-/
import FlightOs.Ar.Records

namespace FlightOs

/-! ## 1. The archive in memory -/

/-- A well-formed archive in memory. -/
structure ArchiveAt (A : GnuAr) (mem : Nat → UInt8) (base : Nat) : Prop where
  wf : A.WellFormed
  holds : MemHolds mem base A.bytes
  fits : base + A.bytes.length < 2 ^ 32

/-- What is recorded of an archive: all its members and its symbols, in order, each symbol with the
data of the member that defines it. -/
structure Recorded (A : GnuAr) (mem : Nat → UInt8) (base : Nat) (a : Archive) : Prop where
  files : a.files.map (arFileEntry mem) = A.entries base
  nSym : a.nSym = A.syms.length
  sym : List.Forall₂ (fun q s => MemHolds mem q (s.1 ++ [0])) a.sym A.syms
  pSym : a.pSym.map some = A.syms.map fun s => (A.entries base)[s.2]?.map fun e => e.2.1

/-- The archive is loaded as it is. -/
def ArExact (A : GnuAr) (mem : Nat → UInt8) (avail : Nat → Bool) (stack stack' : List UInt8)
    (base : Nat) : Prop :=
  ∃ fuel a, arLoad mem avail stack stack' fuel base A.bytes.length = some (0, a) ∧
    Recorded A mem base a

/-- A member, records of even sizes, and the address of a word where there are symbols. -/
def GnuAr.Readable (A : GnuAr) (base : Nat) : Prop :=
  A.members ≠ [] ∧ (∀ r ∈ A.records, r.data.length % 2 = 0) ∧ (A.syms ≠ [] → base % 4 = 0)

namespace ArchiveAt

variable {A : GnuAr} {mem : Nat → UInt8} {avail : Nat → Bool} {stack stack' : List UInt8}
  {base : Nat}

theorem stop_eq (h : ArchiveAt A mem base) :
    (arInit base A.bytes.length).stop = base + A.bytes.length := wadd_of_lt h.fits

theorem length_bytes (A : GnuAr) :
    A.bytes.length = A.membersOffset + (A.members.flatMap fun m => m.1.bytes).length := by
  rw [GnuAr.bytes, GnuAr.records, List.flatMap_append, List.length_append, List.length_append,
    GnuAr.membersOffset, List.flatMap_map]
  have hmag : arMag.length = 8 := rfl
  omega

/-- The tables and the members, where they lie. -/
theorem holds_parts (h : ArchiveAt A mem base) :
    MemHolds mem base arMag ∧ MemHolds mem (base + 8) (A.tables.flatMap ArRecord.bytes) ∧
      MemHolds mem (base + A.membersOffset) (A.members.flatMap fun m => m.1.bytes) := by
  have hmem := h.holds
  rw [GnuAr.bytes, GnuAr.records, List.flatMap_append, List.flatMap_map, memHolds_append,
    memHolds_append] at hmem
  refine ⟨hmem.1, hmem.2.1, ?_⟩
  rw [GnuAr.membersOffset, ← Nat.add_assoc]
  exact hmem.2.2

/-- A record of it, behind others. -/
theorem recordAt (h : ArchiveAt A mem base) {pre post : List ArRecord} {r : ArRecord}
    (hsplit : A.records = pre ++ r :: post) :
    RecordAt mem (base + A.bytes.length) (base + 8 + (pre.flatMap ArRecord.bytes).length) r := by
  have hmem := h.holds
  have hlen : A.bytes.length = 8 + (pre.flatMap ArRecord.bytes).length + r.bytes.length +
      (post.flatMap ArRecord.bytes).length := by
    rw [GnuAr.bytes, hsplit, List.flatMap_append, List.flatMap_cons, List.length_append,
      List.length_append, List.length_append, ← Nat.add_assoc, ← Nat.add_assoc]
    rfl
  rw [GnuAr.bytes, hsplit, List.flatMap_append, List.flatMap_cons, memHolds_append,
    memHolds_append, memHolds_append] at hmem
  refine ⟨h.wf.records r ?_, hmem.2.2.1, by omega, h.fits⟩
  rw [hsplit]
  exact List.mem_append_right _ (List.mem_cons_self ..)

/-- Where a member starts, the archive has not ended. -/
theorem member_lt (h : ArchiveAt A mem base) {k : Nat} (hk : k < A.members.length) :
    A.memberOffset k + sizeofArHdr ≤ A.bytes.length := by
  have hsplit : A.members = A.members.take k ++ A.members[k] :: A.members.drop (k + 1) := by
    rw [List.cons_getElem_drop_succ, List.take_append_drop]
  have hrecords : A.records = (A.tables ++ (A.members.take k).map Prod.fst) ++
      A.members[k].1 :: (A.members.drop (k + 1)).map Prod.fst := by
    rw [GnuAr.records, List.append_assoc, ← List.map_cons, ← List.map_append, ← hsplit]
  have hat := (h.recordAt hrecords).length
  rw [List.flatMap_append, List.length_append, List.flatMap_map] at hat
  rw [GnuAr.memberOffset, GnuAr.membersOffset]
  omega

theorem symtabAt (h : ArchiveAt A mem base) {r : ArRecord} {syms : List (List UInt8 × Nat)}
    (hsym : A.symtab = some (r, syms)) :
    SymtabAt A mem (arInit base A.bytes.length) (base + 8) r := by
  have hrecords : A.records = [] ++ r :: (A.strtab.toList ++ A.members.map Prod.fst) := by
    rw [GnuAr.records, GnuAr.tables, hsym]
    rfl
  have hat := h.recordAt hrecords
  obtain ⟨hname, hdata⟩ := h.wf.symtab _ hsym
  refine ⟨h.stop_eq ▸ hat, hname, hdata, fun s hs => ?_, fun s hs => ?_, rfl⟩
  · obtain ⟨hne, hnull, -⟩ := h.wf.syms s hs
    exact ⟨hne, hnull⟩
  · have hlt := h.member_lt (h.wf.syms s hs).2.2
    have hfits := h.fits
    have hbase : (arInit base A.bytes.length).arBase = base := rfl
    omega

/-- Behind the symbol table, which has an even size. -/
theorem reads_symtab (h : ArchiveAt A mem base) (stack : List UInt8) (hfull : ∀ k, avail k = true)
    (hword : A.syms ≠ [] → base % 4 = 0) :
    ∃ k, ArReads mem avail stack (base + 8) (arInit base A.bytes.length) k
      (base + 8 + ((A.symtab.map Prod.fst).toList.flatMap ArRecord.bytes).length)
      (withSyms A (arInit base A.bytes.length) (base + 8)) := by
  cases hsym : A.symtab with
  | none =>
    have hnil : A.syms = [] := by
      rw [GnuAr.syms, hsym]
      rfl
    refine ⟨0, fun n => ?_⟩
    rw [withSyms, hnil]
    rfl
  | some t =>
    obtain ⟨r, syms⟩ := t
    have hat := h.symtabAt hsym
    have hlen := hat.length_data
    refine ⟨1, ?_⟩
    have hnext : base + 8 + sizeofArHdr + r.data.length =
        base + 8 + (((some (r, syms)).map Prod.fst).toList.flatMap ArRecord.bytes).length := by
      rw [Option.map_some, Option.toList_some, List.flatMap_singleton, hat.wf.length_bytes]
      omega
    rw [← hnext]
    exact hat.reads stack hfull ⟨rfl, rfl⟩ fun hne => by have := hword hne; omega

theorem strtabAt (h : ArchiveAt A mem base) {st : ArRecord} (hst : A.strtab = some st) :
    RecordAt mem (base + A.bytes.length)
      (base + 8 + ((A.symtab.map Prod.fst).toList.flatMap ArRecord.bytes).length) st := by
  have hsplit : A.records =
      (A.symtab.map Prod.fst).toList ++ st :: A.members.map Prod.fst := by
    rw [GnuAr.records, GnuAr.tables, hst, Option.toList_some, List.append_assoc,
      List.singleton_append]
  exact h.recordAt hsplit

/-- The string table is noted. -/
theorem reads_strtab {a : Archive} {p : Nat} {st : ArRecord} (hat : RecordAt mem a.stop p st)
    (hname : [47, 47] <+: st.arName) (hnone : a.arStr = 0) (stack : List UInt8) :
    ArReads mem avail stack p a 1 (p + sizeofArHdr + st.data.length)
      { a with arStr := p + sizeofArHdr } := by
  refine hat.reads ?_
  have hstr : isStrTbl st.hdr = true := by
    have htake : st.arName.take 2 = [47, 47] := (List.prefix_iff_eq_take.mp hname).symm
    rw [isStrTbl, hat.wf.take_hdr, htake]
    decide
  rw [arProcessHdr, if_pos hstr, arProcessStrtbl, if_neg (not_not.mpr hnone), hat.size, hat.next]

/-- The archive behind its tables. -/
def withTables (A : GnuAr) (base str : Nat) : Archive :=
  { withSyms A (arInit base A.bytes.length) (base + 8) with arStr := str }

theorem withTables_stop (h : ArchiveAt A mem base) (str : Nat) :
    (withTables A base str).stop = base + A.bytes.length := h.stop_eq

/-- **Behind the tables**, the string table has been found, and the symbols recorded. -/
theorem reads_tables (h : ArchiveAt A mem base) (stack : List UInt8)
    (hfull : ∀ k, avail k = true) (hword : A.syms ≠ [] → base % 4 = 0)
    (heven : ∀ st ∈ A.strtab, st.data.length % 2 = 0) :
    ∃ k str, ArReads mem avail stack (base + 8) (arInit base A.bytes.length) k
        (base + A.membersOffset) (withTables A base str) ∧
      HasStrtab A mem (withTables A base str) := by
  obtain ⟨k, hread⟩ := h.reads_symtab stack hfull hword
  cases hst : A.strtab with
  | none =>
    refine ⟨k, 0, ?_, fun st hin => ?_⟩
    · have hoff : base + A.membersOffset =
          base + 8 + ((A.symtab.map Prod.fst).toList.flatMap ArRecord.bytes).length := by
        rw [GnuAr.membersOffset, GnuAr.tables, hst, Option.toList_none, List.append_nil,
          Nat.add_assoc]
      rw [hoff]
      exact hread
    · rw [hst] at hin
      cases hin
  | some st =>
    have hat := h.strtabAt hst
    have hlen := hat.length
    have hev := heven st hst
    have hstop : (withSyms A (arInit base A.bytes.length) (base + 8)).stop =
        base + A.bytes.length := h.stop_eq
    have hread' : ArReads mem avail stack _ _ 1 _ _ :=
      reads_strtab (hstop ▸ hat) (h.wf.strtab st hst) rfl stack
    have hoff : base + A.membersOffset =
        base + 8 + ((A.symtab.map Prod.fst).toList.flatMap ArRecord.bytes).length + sizeofArHdr +
          st.data.length := by
      rw [GnuAr.membersOffset, GnuAr.tables, hst, Option.toList_some, List.flatMap_append,
        List.length_append, List.flatMap_singleton, hat.wf.length_bytes]
      omega
    rw [hoff]
    refine ⟨1 + k, _, hread.trans hread', fun st' hin => ?_⟩
    obtain rfl : st = st' := Option.some.inj (hst.symm.trans hin)
    refine ⟨hat.data, ?_, ?_⟩
    · have hbase : ∀ str, (withTables A base str).arBase = base := fun _ => rfl
      rw [hbase]
      dsimp only [withTables]
      omega
    · rw [h.withTables_stop]
      dsimp only [withTables]
      omega

/-- The members, behind the tables. -/
theorem members_held (h : ArchiveAt A mem base) :
    MemHolds mem (base + A.membersOffset) (A.members.flatMap fun m => m.1.bytes) ∧
      base + A.membersOffset + (A.members.flatMap fun m => m.1.bytes).length =
        base + A.bytes.length := by
  refine ⟨h.holds_parts.2.2, ?_⟩
  rw [length_bytes A, Nat.add_assoc]

/-- A member takes up its header at least. -/
theorem members_length (h : ArchiveAt A mem base) : A.members.length < 2 ^ 30 := by
  have hle : ∀ ms : List (ArRecord × List UInt8), (∀ m ∈ ms, m.1.WellFormed) →
      ms.length * sizeofArHdr ≤ (ms.flatMap fun m => m.1.bytes).length := by
    intro ms hms
    induction ms with
    | nil => exact Nat.zero_le _
    | cons m ms ih =>
      have hm := (hms m (List.mem_cons_self ..)).length_bytes
      have ih := ih fun m hm => hms m (List.mem_cons_of_mem _ hm)
      rw [List.flatMap_cons, List.length_append, List.length_cons, Nat.succ_mul]
      omega
  have hall := hle A.members fun m hm => h.wf.records _
    (List.mem_append_right _ (List.mem_map_of_mem hm))
  have hfits := h.fits
  have hlen := length_bytes A
  have hhdr : sizeofArHdr = 60 := rfl
  rw [hhdr] at hall
  omega

theorem symbols_hold (h : ArchiveAt A mem base) :
    List.Forall₂ (fun q s => MemHolds mem q (s.1 ++ [0]))
      (symStarts (base + 8 + sizeofArHdr + 4 + A.syms.length * 4) A.syms) A.syms := by
  cases hsym : A.symtab with
  | none =>
    have hnil : A.syms = [] := by
      rw [GnuAr.syms, hsym]
      rfl
    rw [hnil]
    exact .nil
  | some t => exact symStarts_hold (h.symtabAt hsym).holds_parts.2.2

theorem symbols_start (h : ArchiveAt A mem base) :
    (A.syms.map fun s => base + A.memberOffset s.2 + sizeofArHdr).map some =
      A.syms.map fun s => (A.entries base)[s.2]?.map fun e => e.2.1 := by
  rw [List.map_map]
  refine List.map_congr_left fun s hs => ?_
  rw [Function.comp_apply, GnuAr.entries, arEntries_start (h.wf.syms s hs).2.2]
  simp only [GnuAr.memberOffset, Nat.add_assoc]

theorem member_wf (h : ArchiveAt A mem base) {m : ArRecord × List UInt8} (hm : m ∈ A.members) :
    m.1.WellFormed :=
  h.wf.records _ (List.mem_append_right _ (List.mem_map_of_mem hm))

/-- **Both passes** start behind the magic number. -/
theorem arLoad_eq (h : ArchiveAt A mem base) (fuel : Nat) :
    arLoad mem avail stack stack' fuel base A.bytes.length =
      match arGetFilecount mem stack (base + A.bytes.length) fuel (base + 8) 0 with
      | none => none
      | some n =>
        if arTables avail n then
          arLoadRecords mem avail stack' fuel (base + 8) (arInit base A.bytes.length)
        else some (-1, arInit base A.bytes.length) := by
  have hfits := h.fits
  have hlen := length_bytes A
  have hmag : 8 ≤ A.bytes.length := by
    rw [hlen, GnuAr.membersOffset]
    omega
  have hread : (List.range 8).map (fun i => mem (wadd base i)) = arMag :=
    h.holds_parts.1.read (by have hmag' : arMag.length = 8 := rfl; omega)
  have hstart : wadd base 8 = base + 8 := wadd_of_lt (by omega)
  rewrite [arLoad, arCheckMagic, if_pos hread, hstart, if_neg (by omega), h.stop_eq]
  rfl

end ArchiveAt

/-! ## 2. The first pass -/

section Count

variable {A : GnuAr} {mem : Nat → UInt8} {avail : Nat → Bool} {stack stack' : List UInt8}
  {base : Nat}

/-- Records of one kind, of even sizes: each counts `b`. -/
theorem counts_run {stop b : Nat} (hfits : stop < 2 ^ 32) : ∀ {rs : List ArRecord} {p cnt : Nat},
    (∀ r ∈ rs, r.WellFormed ∧ r.data.length % 2 = 0 ∧
      (if isStrTbl r.hdr || isSymTbl r.hdr then 0 else 1) = b) →
      MemHolds mem p (rs.flatMap ArRecord.bytes) → p + (rs.flatMap ArRecord.bytes).length ≤ stop →
        ∀ n, arGetFilecount mem stack stop (n + rs.length) p cnt =
          arGetFilecount mem stack stop n (p + (rs.flatMap ArRecord.bytes).length)
            (cnt + rs.length * b)
  | [], p, cnt, _, _, _, n => by simp
  | r :: rs, p, cnt, hrs, hmem, hstop, n => by
    obtain ⟨hwf, heven, hb⟩ := hrs r (List.mem_cons_self ..)
    rw [List.flatMap_cons, List.length_append] at hstop ⊢
    rw [List.flatMap_cons, memHolds_append] at hmem
    have hat : RecordAt mem stop p r := ⟨hwf, hmem.1, by omega, hfits⟩
    have hnext : p + sizeofArHdr + r.data.length = p + r.bytes.length := by
      rw [hwf.length_bytes, heven]
      omega
    rw [List.length_cons, ← Nat.add_assoc, hat.counts, hb, hnext,
      counts_run hfits (fun r' hr' => hrs r' (List.mem_cons_of_mem _ hr')) hmem.2 (by omega)]
    congr 1
    · omega
    · ring

theorem table_kind (h : ArchiveAt A mem base) {r : ArRecord} (hr : r ∈ A.tables) :
    (isStrTbl r.hdr || isSymTbl r.hdr) = true := by
  have htwo : ∀ {c : UInt8}, [47, c] <+: r.arName → r.WellFormed → r.hdr.take 2 = [47, c] :=
    fun hpre hwf => hwf.take_hdr.trans (List.prefix_iff_eq_take.mp hpre).symm
  have hwf := h.wf.records r (List.mem_append_left _ hr)
  rcases List.mem_append.mp hr with hsym | hstr
  · obtain ⟨t, ht, rfl⟩ := Option.map_eq_some_iff.mp (Option.mem_toList.mp hsym)
    rw [isStrTbl, isSymTbl, htwo (h.wf.symtab t ht).1 hwf]
    decide
  · rw [isStrTbl, isSymTbl, htwo (h.wf.strtab r (Option.mem_toList.mp hstr)) hwf]
    decide

variable (stack) in
/-- **The members are counted**, where all records have even sizes. -/
theorem count_eq (h : ArchiveAt A mem base) (heven : ∀ r ∈ A.records, r.data.length % 2 = 0) :
    ∃ fuel, arGetFilecount mem stack (base + A.bytes.length) fuel (base + 8) 0 =
      some A.members.length := by
  obtain ⟨-, htables, hmembers⟩ := h.holds_parts
  have hlen := ArchiveAt.length_bytes A
  have hoff : A.membersOffset = 8 + (A.tables.flatMap ArRecord.bytes).length := rfl
  have hcount : ∀ n, arGetFilecount mem stack (base + A.bytes.length) (n + A.tables.length)
      (base + 8) 0 = arGetFilecount mem stack (base + A.bytes.length) n
        (base + 8 + (A.tables.flatMap ArRecord.bytes).length) (0 + A.tables.length * 0) :=
    counts_run h.fits (fun r hr => ⟨h.wf.records r (List.mem_append_left _ hr),
      heven r (List.mem_append_left _ hr), if_pos (table_kind h hr)⟩) htables (by omega)
  have hflat : (A.members.map Prod.fst).flatMap ArRecord.bytes =
      A.members.flatMap fun m => m.1.bytes := List.flatMap_map ..
  have hcount' : ∀ n cnt, arGetFilecount mem stack (base + A.bytes.length)
      (n + (A.members.map Prod.fst).length) (base + A.membersOffset) cnt =
        arGetFilecount mem stack (base + A.bytes.length) n
          (base + A.membersOffset + ((A.members.map Prod.fst).flatMap ArRecord.bytes).length)
          (cnt + (A.members.map Prod.fst).length * 1) := by
    refine fun n cnt => counts_run h.fits (fun r hr => ⟨h.wf.records r (List.mem_append_right _ hr),
      heven r (List.mem_append_right _ hr), ?_⟩) (hflat ▸ hmembers) (by rw [hflat]; omega) n
    obtain ⟨⟨r, name⟩, hm, rfl⟩ := List.mem_map.mp hr
    obtain ⟨hstr, hsym⟩ := named_not_tables (h.wf.members _ hm)
    rw [hstr, hsym]
    rfl
  refine ⟨1 + (A.members.map Prod.fst).length + A.tables.length, ?_⟩
  rw [hcount, Nat.add_assoc base, ← hoff, hcount', hflat, h.members_held.2, arGetFilecount,
    if_neg (Nat.lt_irrefl _), List.length_map]
  congr 1
  omega

end Count

/-! ## 3. The contract -/

section Contract

variable {A : GnuAr} {mem : Nat → UInt8} {avail : Nat → Bool} {stack stack' : List UInt8}
  {base : Nat}

theorem arTables_eq (hfull : ∀ k, avail k = true) (n : Nat) (hn : n < 2 ^ 30) :
    arTables avail n = true ↔ n ≠ 0 := by
  have hone : ∀ k, arKmalloc avail k (n * 4) = decide (n ≠ 0) := by
    intro k
    rw [arKmalloc, hfull, Bool.and_true, Nat.mod_eq_of_lt (by omega)]
    by_cases h0 : n = 0
    · rw [h0]
      rfl
    · rw [decide_eq_true h0, bne_iff_ne]
      omega
  rw [arTables, List.all_eq_true]
  constructor
  · intro h
    have h0 := h 0 (by decide)
    rw [hone] at h0
    exact of_decide_eq_true h0
  · intro h k _
    rw [hone]
    exact decide_eq_true h

/-- **A readable archive is loaded as it is.** -/
theorem ArchiveAt.exact (h : ArchiveAt A mem base) (hfull : ∀ k, avail k = true)
    (hA : A.Readable base) : ArExact A mem avail stack stack' base := by
  obtain ⟨hne, heven, hword⟩ := hA
  obtain ⟨k, str, htables, hst⟩ := h.reads_tables stack' hfull hword
    fun st hst => heven st (List.mem_append_left _ (List.mem_append_right _
      (Option.mem_toList.mpr hst)))
  obtain ⟨hmem, hlen⟩ := h.members_held
  have hstop := h.withTables_stop str
  obtain ⟨fs, hfs, hmembers⟩ := reads_members avail stack' (a := withTables A base str)
    (fun m hm => ⟨h.member_wf hm, h.wf.members m hm,
      heven _ (List.mem_append_right _ (List.mem_map_of_mem hm))⟩) hmem
    (Nat.le_of_eq (hlen.trans hstop.symm)) (hstop ▸ h.fits) hst
  rw [hlen] at hmembers
  obtain ⟨fuel, hcount⟩ := count_eq stack h heven
  have hload : arLoadRecords mem avail stack' (1 + (A.members.length + k)) (base + 8)
      (arInit base A.bytes.length) =
        some (0, { withTables A base str with files := [] ++ fs }) := by
    rw [(htables.trans hmembers) 1, arLoadRecords, if_neg]
    · rfl
    · have hstop' : Archive.stop { withTables A base str with
          files := (withTables A base str).files ++ fs } = base + A.bytes.length := hstop
      rw [hstop']
      exact Nat.lt_irrefl _
  refine ⟨max fuel (1 + (A.members.length + k)), { withTables A base str with files := fs }, ?_, ?_⟩
  · have hn := h.members_length
    rw [h.arLoad_eq, arGetFilecount_mono hcount (Nat.le_max_left _ _)]
    dsimp only
    rw [if_pos ((arTables_eq hfull _ hn).mpr fun h0 => hne (List.length_eq_zero_iff.mp h0)),
      arLoadRecords_mono hload (Nat.le_max_right _ _), List.nil_append]
  · exact ⟨hfs, rfl, h.symbols_hold, h.symbols_start⟩

/-! ### The other direction -/

theorem arEntries_parity : ∀ {ms : List (ArRecord × List UInt8)} {p : Nat},
    (∀ m ∈ ms, m.1.WellFormed) → ∀ e ∈ arEntries p ms, e.2.1 % 2 = p % 2
  | [], _, _, _, he => absurd he List.not_mem_nil
  | (r, name) :: ms, p, hms, e, he => by
    rcases List.mem_cons.mp he with rfl | he
    · have hhdr : sizeofArHdr = 60 := rfl
      dsimp only
      omega
    · have heven := (hms _ (List.mem_cons_self ..)).even_bytes
      have ih := arEntries_parity (fun m hm => hms m (List.mem_cons_of_mem _ hm)) e he
      dsimp only at heven
      omega

theorem records_even : ∀ {rs : List ArRecord}, (∀ r ∈ rs, r.WellFormed) →
    (rs.flatMap ArRecord.bytes).length % 2 = 0
  | [], _ => rfl
  | r :: rs, hrs => by
    have hr := (hrs r (List.mem_cons_self ..)).even_bytes
    have ih := records_even fun r hr => hrs r (List.mem_cons_of_mem _ hr)
    rw [List.flatMap_cons, List.length_append]
    omega

/-- What comes behind a record of odd size is taken for a file that starts at an odd offset. -/
theorem odd_record {a : Archive} {p n stop : Nat} {r : ArRecord} {res : Int × Archive}
    (hload : arLoadRecords mem avail stack n (p + sizeofArHdr + r.data.length) a = some res)
    (h0 : res.1 = 0) (hstop : a.stop = stop) (hat : RecordAt mem stop p r)
    (hodd : r.data.length % 2 ≠ 0) : ∃ f ∈ res.2.files, f.pFile % 2 ≠ p % 2 := by
  subst hstop
  obtain ⟨hpad, hlt⟩ := hat.pad hodd
  have hfits := hat.fits
  have hfirst : mem (wadd (p + sizeofArHdr + r.data.length) 0) ≠ 47 := by
    rw [wadd_of_lt (by omega), Nat.add_zero, hpad]
    decide
  obtain ⟨f, hf, hstart⟩ := arLoadRecords_file hlt hfirst hload h0
  refine ⟨f, hf, ?_⟩
  have hhdr : sizeofArHdr = 60 := rfl
  rw [hstart, wadd]
  omega

theorem odd_member : ∀ {ms : List (ArRecord × List UInt8)} {p n : Nat} {a : Archive},
    (∀ m ∈ ms, m.1.WellFormed ∧ A.Named m) → (∃ m ∈ ms, m.1.data.length % 2 ≠ 0) →
      MemHolds mem p (ms.flatMap fun m => m.1.bytes) →
        p + (ms.flatMap fun m => m.1.bytes).length ≤ a.stop → a.stop < 2 ^ 32 →
          HasStrtab A mem a → ∀ {res : Int × Archive},
            arLoadRecords mem avail stack n p a = some res → res.1 = 0 →
              ∃ f ∈ res.2.files, f.pFile % 2 ≠ p % 2
  | [], _, _, _, _, hodd, _, _, _, _, _, _, _ => by
    obtain ⟨m, hm, -⟩ := hodd
    cases hm
  | (r, name) :: ms, p, n, a, hms, hodd, hmem, hstop, hfits, hst, res, hload, h0 => by
    obtain ⟨hwf, hnamed⟩ := hms _ (List.mem_cons_self ..)
    dsimp only at hwf
    rw [List.flatMap_cons, List.length_append] at hstop
    rw [List.flatMap_cons, memHolds_append] at hmem
    have hat : RecordAt mem a.stop p r := ⟨hwf, hmem.1, by dsimp only at hstop; omega, hfits⟩
    obtain ⟨f, -, hread⟩ := reads_member avail stack hat hnamed hst
    have hload' := (hread n).symm.trans (arLoadRecords_mono hload (Nat.le_succ n))
    by_cases heven : r.data.length % 2 = 0
    · have hnext : p + sizeofArHdr + r.data.length = p + r.bytes.length := by
        rw [hwf.length_bytes, heven]
        omega
      rw [hnext] at hload'
      have hodd' : ∃ m ∈ ms, m.1.data.length % 2 ≠ 0 := by
        obtain ⟨m, hm, hmod⟩ := hodd
        rcases List.mem_cons.mp hm with rfl | hm
        · exact absurd heven hmod
        · exact ⟨m, hm, hmod⟩
      obtain ⟨g, hg, hpar⟩ := odd_member (a := { a with files := a.files ++ [f] }) (fun m hm => hms m (List.mem_cons_of_mem _ hm)) hodd' hmem.2
        (by dsimp only at hstop; rw [Nat.add_assoc]; exact hstop) hfits hst hload' h0
      have hbytes := hwf.even_bytes
      exact ⟨g, hg, by dsimp only at hpar; omega⟩
    · exact odd_record hload' h0 rfl hat heven

/-- **An archive that is loaded as it is** is readable. -/
theorem ArchiveAt.readable (h : ArchiveAt A mem base) (hfull : ∀ k, avail k = true)
    (hexact : ArExact A mem avail stack stack' base) : A.Readable base := by
  obtain ⟨fuel, a, hload, hrec⟩ := hexact
  rw [h.arLoad_eq] at hload
  split at hload
  case h_1 => cases hload
  case h_2 n hcount =>
  split at hload
  case isFalse =>
    cases hload
  case isTrue htables =>
  have hword : A.syms ≠ [] → base % 4 = 0 := by
    intro hne
    by_contra hmod
    cases hsym : A.symtab with
    | none => exact hne (by rw [GnuAr.syms, hsym]; rfl)
    | some t =>
      have hres := (h.symtabAt hsym).refuses hne (by omega) hload
      cases hres
  have hoff : A.membersOffset % 2 = 0 := by
    have htab := records_even fun r hr => h.wf.records r (List.mem_append_left _ hr)
    rw [GnuAr.membersOffset]
    omega
  -- all entries start at even offsets
  have hparity : ∀ f ∈ a.files, f.pFile % 2 = base % 2 := by
    intro f hf
    have hmem : arFileEntry mem f ∈ A.entries base := hrec.files ▸ List.mem_map_of_mem hf
    have hpar := arEntries_parity (fun m hm => h.member_wf hm) _ hmem
    have hstart : (arFileEntry mem f).2.1 = f.pFile := rfl
    omega
  have hstr : ∀ st ∈ A.strtab, st.data.length % 2 = 0 := by
    intro st hst
    by_contra hodd
    obtain ⟨k, hread⟩ := h.reads_symtab stack' hfull hword
    have hat : RecordAt mem (withSyms A (arInit base A.bytes.length) (base + 8)).stop _ st :=
      h.stop_eq ▸ h.strtabAt hst
    have hread' := hread.trans (reads_strtab hat (h.wf.strtab st hst) rfl stack')
    have hload' := (hread' fuel).symm.trans (arLoadRecords_mono hload (Nat.le_add_right _ _))
    obtain ⟨f, hf, hpar⟩ := odd_record hload' rfl rfl hat hodd
    have hsame := hparity f hf
    have hsym := records_even fun r hr => h.wf.records r (List.mem_append_left _
      (List.mem_append_left A.strtab.toList hr))
    omega
  obtain ⟨k, str, hread, hst⟩ := h.reads_tables stack' hfull hword hstr
  have hload' := (hread fuel).symm.trans (arLoadRecords_mono hload (Nat.le_add_right _ _))
  obtain ⟨hmem, hlen⟩ := h.members_held
  have hstop := h.withTables_stop str
  have hmembers : ∀ m ∈ A.members, m.1.data.length % 2 = 0 := by
    by_contra hodd
    simp only [not_forall] at hodd
    obtain ⟨m, hm, hmod⟩ := hodd
    obtain ⟨f, hf, hpar⟩ := odd_member (fun m hm => ⟨h.member_wf hm, h.wf.members m hm⟩)
      ⟨m, hm, hmod⟩ hmem (Nat.le_of_eq (hlen.trans hstop.symm)) (hstop ▸ h.fits) hst hload' rfl
    have hsame := hparity f hf
    omega
  have heven : ∀ r ∈ A.records, r.data.length % 2 = 0 := by
    intro r hr
    rcases List.mem_append.mp hr with htab | hm
    · rcases List.mem_append.mp htab with hsym | hst
      · obtain ⟨⟨r, syms⟩, ht, rfl⟩ := Option.map_eq_some_iff.mp (Option.mem_toList.mp hsym)
        have hdata := (h.symtabAt ht).length_data
        dsimp only
        omega
      · exact hstr r (Option.mem_toList.mp hst)
    · obtain ⟨m, hin, rfl⟩ := List.mem_map.mp hm
      exact hmembers m hin
  refine ⟨fun hnil => ?_, heven, hword⟩
  -- there is nothing to count
  obtain ⟨fuel', hcount'⟩ := count_eq stack h heven
  have hzero := (arGetFilecount_mono hcount (Nat.le_max_left fuel fuel')).symm.trans
    (arGetFilecount_mono hcount' (Nat.le_max_right fuel fuel'))
  rw [hnil] at hzero
  obtain rfl : n = 0 := Option.some.inj hzero
  exact (arTables_eq hfull 0 (by decide)).mp htables rfl

/-- **Archives are read as they are**, if and only if they are readable. -/
theorem ar_load_exact_iff (h : ArchiveAt A mem base) (hfull : ∀ k, avail k = true) :
    ArExact A mem avail stack stack' base ↔ A.Readable base :=
  ⟨h.readable hfull, h.exact hfull⟩

end Contract

/-! ## 4. Two archives -/

/-- A symbol `f`, a member with a short name, with `data`, and one with a long name that defines the
symbol. -/
def arSample (size data : List UInt8) (offset : Nat) : GnuAr where
  symtab := some (arSampleRecord [47] [49, 48] (wordBytes 1 ++ wordBytes offset ++ [102, 0]),
    [([102], 1)])
  strtab := some (arSampleRecord [47, 47] [50, 48] (List.replicate 18 97 ++ [47, 10]))
  members := [(arSampleRecord [97, 47] size data, [97]),
    (arSampleRecord [47, 48] [52] [1, 2, 3, 4], List.replicate 18 97)]

theorem arSample_wf {d : UInt8} {data : List UInt8} {offset : Nat} (hd : isDigit d = true)
    (hsize : decimalFrom 0 [d] = data.length)
    (hoff : (arSample [d] data offset).memberOffset 1 = offset) :
    (arSample [d] data offset).WellFormed where
  records := by
    intro r hr
    simp only [GnuAr.records, GnuAr.tables, arSample, Option.map_some, Option.toList_some,
      List.map_cons, List.map_nil, List.cons_append, List.nil_append, List.mem_cons,
      List.not_mem_nil, or_false] at hr
    rcases hr with rfl | rfl | rfl | rfl
    · exact arSampleRecord_wf rfl rfl (by decide) (by simp [isDigit]) rfl
    · exact arSampleRecord_wf rfl rfl (by decide) (by simp [isDigit]) rfl
    · exact arSampleRecord_wf rfl rfl (by simp) (by simpa using hd) hsize
    · exact arSampleRecord_wf rfl rfl (by decide) (by simp [isDigit]) rfl
  symtab := by
    intro t ht
    obtain rfl := Option.some.inj ht
    refine ⟨⟨List.replicate 14 32, rfl⟩, ?_⟩
    have hdata : (arSample [d] data offset).symtabData =
        wordBytes 1 ++ wordBytes ((arSample [d] data offset).memberOffset 1) ++ [102, 0] := by
      simp [GnuAr.symtabData, GnuAr.syms, GnuAr.symNames, arSample]
    rw [hdata, hoff]
    rfl
  syms := by
    intro s hs
    obtain rfl : s = ([102], 1) := List.mem_singleton.mp hs
    exact ⟨by simp, by simp, Nat.one_lt_two⟩
  strtab := by
    intro r hr
    obtain rfl := Option.some.inj hr
    decide
  members := by
    intro m hm
    rcases List.mem_pair.mp hm with rfl | rfl
    · exact ⟨by simp, by simp, by simp, .inl ⟨14, rfl⟩⟩
    · exact ⟨by decide, by decide, by decide, .inr ⟨arField 14 [48], 0, _, rfl,
        ⟨[48], 13, by decide, by simp [isDigit], rfl, rfl⟩, rfl, by decide, by decide⟩⟩

theorem arSample_at {d : UInt8} {data : List UInt8} {offset : Nat} (hd : isDigit d = true)
    (hsize : decimalFrom 0 [d] = data.length)
    (hoff : (arSample [d] data offset).memberOffset 1 = offset)
    (hfits : 0x1000 + (arSample [d] data offset).bytes.length < 2 ^ 32) :
    ArchiveAt (arSample [d] data offset) (memOf 0x1000 (arSample [d] data offset).bytes) 0x1000 :=
  ⟨arSample_wf hd hsize hoff, memOf_holds _ _, hfits⟩

theorem ar_load_exact_iff_sample :
    ArExact (arSample [50] [104, 105] 220) (memOf 0x1000 (arSample [50] [104, 105] 220).bytes)
        (fun _ => true) [] [] 0x1000 ↔ (arSample [50] [104, 105] 220).Readable 0x1000 :=
  ar_load_exact_iff (arSample_at (by decide) (by decide) (by decide +kernel) (by decide +kernel))
    fun _ => rfl

/-- **The reader gets lost behind a member of one byte.** -/
theorem ar_load_odd_member : ¬ ∀ (A : GnuAr) (mem : Nat → UInt8) (base : Nat),
    ArchiveAt A mem base → ArExact A mem (fun _ => true) [] [] base := by
  intro h
  have hat : ArchiveAt (arSample [49] [104] 220) (memOf 0x1000 (arSample [49] [104] 220).bytes)
      0x1000 := arSample_at (by decide) (by decide) (by decide +kernel) (by decide +kernel)
  obtain ⟨-, heven, -⟩ := hat.readable (fun _ => rfl) (h _ _ _ hat)
  have hodd := heven (arSampleRecord [97, 47] [49] [104]) (by simp [GnuAr.records, arSample])
  cases hodd

end FlightOs
