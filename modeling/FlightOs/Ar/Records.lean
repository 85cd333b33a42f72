/-
# How the reader goes through the records

Each step of the two passes over a record that lies in memory as the format has it: where the next
record is looked for, and what is stored.  Behind odd data that is one byte before the next record.

`reads_members`, `SymtabAt.reads`: members of even sizes and the symbol table are recorded as they
are.  `arLoadRecords_file`: what does not start with a slash is taken for a file.
-/
import FlightOs.Ar.Format

namespace FlightOs

/-! ## 1. Fuel -/

section Fuel

variable {mem : Nat → UInt8} {avail : Nat → Bool} {stack : List UInt8}

theorem arLoadRecords_mono : ∀ {n m p : Nat} {a : Archive} {r : Int × Archive},
    arLoadRecords mem avail stack n p a = some r → n ≤ m →
      arLoadRecords mem avail stack m p a = some r
  | 0, _, _, _, _, h, _ => by cases h
  | _ + 1, 0, _, _, _, _, hle => absurd hle (Nat.not_succ_le_zero _)
  | n + 1, m + 1, p, a, r, h, hle => by
    rw [arLoadRecords] at h ⊢
    split at h
    case isFalse hp => rwa [if_neg hp]
    case isTrue hp =>
      rw [if_pos hp]
      dsimp only at h ⊢
      split at h
      case isTrue h0 => rwa [if_pos h0]
      case isFalse h0 =>
        rw [if_neg h0]
        exact arLoadRecords_mono h (Nat.le_of_succ_le_succ hle)

theorem arGetFilecount_mono {stop : Nat} : ∀ {n m p cnt r : Nat},
    arGetFilecount mem stack stop n p cnt = some r → n ≤ m →
      arGetFilecount mem stack stop m p cnt = some r
  | 0, _, _, _, _, h, _ => by cases h
  | _ + 1, 0, _, _, _, _, hle => absurd hle (Nat.not_succ_le_zero _)
  | n + 1, m + 1, p, cnt, r, h, hle => by
    have ih : ∀ {p cnt : Nat}, arGetFilecount mem stack stop n p cnt = some r →
        arGetFilecount mem stack stop m p cnt = some r :=
      fun h => arGetFilecount_mono h (Nat.le_of_succ_le_succ hle)
    rw [arGetFilecount] at h ⊢
    split at h
    case isFalse hp => rwa [if_neg hp]
    case isTrue hp =>
      rw [if_pos hp]
      dsimp only at h ⊢
      split at h
      case isTrue hstr =>
        rw [if_pos hstr]
        exact ih h
      case isFalse hstr =>
        rw [if_neg hstr]
        split at h
        case isTrue hsym =>
          rw [if_pos hsym]
          exact ih h
        case isFalse hsym =>
          rw [if_neg hsym]
          exact ih h

theorem arProcessHdr_grows {p : Nat} {a : Archive} {hdr : List UInt8} :
    a.files <+: (arProcessHdr mem avail stack p a hdr).2.files := by
  unfold arProcessHdr arProcessStrtbl arProcessSymTbl arProcessFile
  dsimp only
  split_ifs <;> first | exact List.prefix_refl _ | exact List.prefix_append _ _

/-- What has been recorded stays. -/
theorem arLoadRecords_grows : ∀ {n p : Nat} {a : Archive} {r : Int × Archive},
    arLoadRecords mem avail stack n p a = some r → a.files <+: r.2.files
  | 0, _, _, _, h => by cases h
  | n + 1, p, a, r, h => by
    rw [arLoadRecords] at h
    split at h
    case isFalse =>
      cases h
      exact List.prefix_refl _
    case isTrue =>
      dsimp only at h
      split at h
      case isTrue =>
        cases h
        exact arProcessHdr_grows
      case isFalse => exact arProcessHdr_grows.trans (arLoadRecords_grows h)

end Fuel

/-! ## 2. Records that the reader comes to -/

/-- After `k` records the second pass is at `p'`. -/
def ArReads (mem : Nat → UInt8) (avail : Nat → Bool) (stack : List UInt8) (p : Nat) (a : Archive)
    (k p' : Nat) (a' : Archive) : Prop :=
  ∀ n, arLoadRecords mem avail stack (n + k) p a = arLoadRecords mem avail stack n p' a'

/-- A record of an archive at `p`. -/
structure RecordAt (mem : Nat → UInt8) (stop p : Nat) (r : ArRecord) : Prop where
  wf : r.WellFormed
  holds : MemHolds mem p r.bytes
  ends : p + r.bytes.length ≤ stop
  fits : stop < 2 ^ 32

section Record

variable {mem : Nat → UInt8} {avail : Nat → Bool} {stack : List UInt8} {stop p : Nat}
  {r : ArRecord} {a : Archive}

theorem ArReads.trans {p' p'' k k' : Nat} {a' a'' : Archive}
    (h : ArReads mem avail stack p a k p' a') (h' : ArReads mem avail stack p' a' k' p'' a'') :
    ArReads mem avail stack p a (k' + k) p'' a'' := fun n => by
  rw [← Nat.add_assoc, h, h']

namespace RecordAt

theorem length (h : RecordAt mem stop p r) :
    p + sizeofArHdr + r.data.length + r.data.length % 2 ≤ stop := by
  have hends := h.ends
  rw [h.wf.length_bytes] at hends
  omega

theorem hdr (h : RecordAt mem stop p r) : arReadHdr mem p = r.hdr := by
  have hlen := h.length
  have hfits := h.fits
  refine h.wf.arReadHdr_eq ?_ (by omega)
  have hbytes := h.holds
  rw [ArRecord.bytes, List.append_assoc, memHolds_append] at hbytes
  exact hbytes.1

theorem data (h : RecordAt mem stop p r) : MemHolds mem (p + sizeofArHdr) r.data := by
  have hbytes := h.holds
  rw [ArRecord.bytes, memHolds_append, memHolds_append, h.wf.length_hdr] at hbytes
  exact hbytes.1.2

theorem start (h : RecordAt mem stop p r) : wadd p sizeofArHdr = p + sizeofArHdr := by
  have hlen := h.length
  have hfits := h.fits
  exact wadd_of_lt (by omega)

theorem size (h : RecordAt mem stop p r) : arGetEntrySize stack r.hdr = r.data.length := by
  have hlen := h.length
  have hfits := h.fits
  exact h.wf.arGetEntrySize (by omega) stack

theorem next (h : RecordAt mem stop p r) :
    wadd (p + sizeofArHdr) r.data.length = p + sizeofArHdr + r.data.length := by
  have hlen := h.length
  have hfits := h.fits
  exact wadd_of_lt (by omega)

theorem lt (h : RecordAt mem stop p r) : p < stop := by
  have hlen := h.length
  rw [sizeofArHdr] at hlen
  omega

/-- The second pass goes on behind the data, unless the record is not accepted. -/
theorem reads (h : RecordAt mem a.stop p r) {a' : Archive}
    (hproc : arProcessHdr mem avail stack (p + sizeofArHdr) a r.hdr =
      (p + sizeofArHdr + r.data.length, a')) :
    ArReads mem avail stack p a 1 (p + sizeofArHdr + r.data.length) a' := fun n => by
  rw [arLoadRecords, if_pos h.lt, h.hdr, h.start, hproc]
  exact if_neg (by rw [sizeofArHdr]; omega)

/-- The first pass does so, too. -/
theorem counts (h : RecordAt mem stop p r) (n cnt : Nat) :
    arGetFilecount mem stack stop (n + 1) p cnt =
      arGetFilecount mem stack stop n (p + sizeofArHdr + r.data.length)
        (cnt + if isStrTbl r.hdr || isSymTbl r.hdr then 0 else 1) := by
  rw [arGetFilecount, if_pos h.lt, h.hdr]
  dsimp only
  rw [h.start, h.size, h.next]
  cases isStrTbl r.hdr <;> cases isSymTbl r.hdr <;> rfl

/-- The padding of odd data starts with a line feed. -/
theorem pad (h : RecordAt mem stop p r) (hodd : r.data.length % 2 ≠ 0) :
    mem (p + sizeofArHdr + r.data.length) = 10 ∧ p + sizeofArHdr + r.data.length < stop := by
  have hbytes := h.holds
  have hlen := h.length
  rw [ArRecord.bytes, memHolds_append, List.length_append, h.wf.length_hdr,
    ArRecord.pad_of_odd hodd, ← Nat.add_assoc] at hbytes
  exact ⟨hbytes.2 0 Nat.one_pos, by omega⟩

end RecordAt

theorem arProcessHdr_file {hdr : List UInt8} (hstr : isStrTbl hdr = false)
    (hsym : isSymTbl hdr = false) :
    arProcessHdr mem avail stack p a hdr = arProcessFile mem stack p a hdr := by
  rw [arProcessHdr, hstr, hsym]
  rfl

/-- What does not start with a slash is a file. -/
theorem not_tables {hdr : List UInt8} {c : UInt8} (h : hdr.head? = some c) (hc : c ≠ 47) :
    isStrTbl hdr = false ∧ isSymTbl hdr = false := by
  cases hdr with
  | nil => cases h
  | cons d hdr =>
    obtain rfl : d = c := Option.some.inj h
    constructor
    · refine beq_eq_false_iff_ne.mpr fun heq => hc ?_
      exact (List.cons.inj heq).1
    · refine beq_eq_false_iff_ne.mpr fun heq => hc ?_
      exact (List.cons.inj heq).1

/-- It is recorded, unless the archive is found faulty. -/
theorem arLoadRecords_file {n : Nat} (hlt : p < a.stop) (hfirst : mem (wadd p 0) ≠ 47)
    {res : Int × Archive} (hload : arLoadRecords mem avail stack n p a = some res) (h0 : res.1 = 0) :
    ∃ f ∈ res.2.files, f.pFile = wadd p sizeofArHdr := by
  cases n with
  | zero => cases hload
  | succ n =>
    have htbl : isStrTbl (arReadHdr mem p) = false ∧ isSymTbl (arReadHdr mem p) = false :=
      not_tables rfl hfirst
    obtain ⟨hstr, hsym⟩ := htbl
    rw [arLoadRecords, if_pos hlt, arProcessHdr_file hstr hsym] at hload
    dsimp only at hload
    split at hload
    · cases hload
      cases h0
    · have hmem := (arLoadRecords_grows hload).subset
        (List.mem_append_right _ (List.mem_singleton_self _))
      exact ⟨_, hmem, rfl⟩

end Record

/-! ## 3. Files -/

section File

variable {mem : Nat → UInt8} {avail : Nat → Bool} {stack : List UInt8} {A : GnuAr} {p : Nat}
  {a : Archive}

theorem strchr_eq {c : UInt8} : ∀ {name : List UInt8} {n s : Nat}, c ∉ name → 0 ∉ name →
    MemHolds mem s (name ++ [c]) → s + name.length < 2 ^ 32 → name.length < n →
      strchr mem c n s = s + name.length
  | [], 0, _, _, _, _, _, hn => absurd hn (Nat.not_lt_zero _)
  | [], n + 1, s, _, _, hmem, _, _ => by
    rw [strchr, if_pos (memHolds_cons.mp hmem).1]
    rfl
  | _ :: _, 0, _, _, _, _, _, hn => absurd hn (Nat.not_lt_zero _)
  | d :: name, n + 1, s, hc, h0, hmem, hs, hn => by
    obtain ⟨hd, hmem'⟩ := memHolds_cons.mp hmem
    rw [List.length_cons] at hs hn ⊢
    have hdc : mem s ≠ c := fun heq => hc (by rw [← heq, hd]; exact List.mem_cons_self ..)
    have hd0 : mem s ≠ 0 := fun heq => h0 (by rw [← heq, hd]; exact List.mem_cons_self ..)
    rw [strchr, if_neg hdc, if_neg hd0, wadd_of_lt (by omega),
      strchr_eq (fun h => hc (List.mem_cons_of_mem _ h)) (fun h => h0 (List.mem_cons_of_mem _ h))
        hmem' (by omega) (by omega)]
    omega

/-- The name of a recorded file. -/
def arFileName (mem : Nat → UInt8) (f : ArFile) : List UInt8 :=
  (List.range f.fnamesz).map fun i => mem (wadd f.fname i)

/-- Its name, where it starts, and its size. -/
def arFileEntry (mem : Nat → UInt8) (f : ArFile) : List UInt8 × Nat × Nat :=
  (arFileName mem f, f.pFile, f.filesz)

/-- The string table has been found. -/
def HasStrtab (A : GnuAr) (mem : Nat → UInt8) (a : Archive) : Prop :=
  ∀ st ∈ A.strtab, MemHolds mem a.arStr st.data ∧ a.arBase ≤ a.arStr ∧
    a.arStr + st.data.length ≤ a.stop

/-- The record of a member is no table. -/
theorem named_not_tables {r : ArRecord} {name : List UInt8} (hnamed : A.Named (r, name)) :
    isStrTbl r.hdr = false ∧ isSymTbl r.hdr = false := by
  obtain ⟨hne, hslash, -, ⟨k, hshort⟩ | ⟨field, off, st, hlong, hoff, -⟩⟩ := hnamed
  · obtain ⟨c, cs, rfl⟩ := List.exists_cons_of_ne_nil hne
    have hhead : r.hdr.head? = some c := by
      rw [ArRecord.hdr, hshort]
      rfl
    exact not_tables hhead fun heq => hslash (heq ▸ List.mem_cons_self ..)
  · -- the second character is a digit
    obtain ⟨ds, k, hds, hd, -, hfield⟩ := hoff
    obtain ⟨d, ds, rfl⟩ := List.exists_cons_of_ne_nil hds
    have hdigit := hd d (List.mem_cons_self ..)
    have htake : r.hdr.take 2 = [47, d] := by
      rw [ArRecord.hdr, hlong, hfield]
      rfl
    rw [isStrTbl, isSymTbl, htake, beq_eq_false_iff_ne, beq_eq_false_iff_ne]
    constructor
    · intro heq
      obtain rfl : d = 47 := (List.cons.inj (List.cons.inj heq).2).1
      cases hdigit
    · intro heq
      obtain rfl : d = 32 := (List.cons.inj (List.cons.inj heq).2).1
      cases hdigit

variable (stack) in
/-- Where the name of a member is looked for, there it is. -/
theorem named_at {r : ArRecord} {name : List UInt8} (h : RecordAt mem a.stop p r)
    (hnamed : A.Named (r, name)) (hst : HasStrtab A mem a) :
    ∃ str, (if mem (wsub (p + sizeofArHdr) sizeofArHdr) = 47 then arGetStrtblFilename stack a r.hdr
      else wsub (p + sizeofArHdr) sizeofArHdr) = str ∧ MemHolds mem str (name ++ [47]) ∧
        str + name.length < 2 ^ 32 := by
  obtain ⟨hne, hslash, -, hkind⟩ := hnamed
  dsimp only at hne hslash hkind
  have hlen := h.length
  have hfits := h.fits
  have hhdr : sizeofArHdr = 60 := rfl
  have hback : wsub (p + sizeofArHdr) sizeofArHdr = p := by
    rw [wsub_of_le (by omega) (Nat.le_add_left _ _), Nat.add_sub_cancel]
  have hbytes := h.holds
  rw [ArRecord.bytes, List.append_assoc, memHolds_append, ArRecord.hdr, List.append_assoc,
    List.append_assoc, memHolds_append] at hbytes
  have hname := hbytes.1.1
  rw [hback]
  rcases hkind with ⟨k, hshort⟩ | ⟨field, off, st, hlong, hoff, hstr, hle, hpre⟩
  · have hname' : MemHolds mem p (name ++ [47]) :=
      hname.shorten ⟨List.replicate k 32, by rw [hshort]; simp⟩
    have hlenName := h.wf.arName
    rw [hshort, List.length_append] at hlenName
    refine ⟨p, if_neg ?_, hname', by omega⟩
    obtain ⟨c, cs, rfl⟩ := List.exists_cons_of_ne_nil hne
    rw [(memHolds_cons.mp hname').1]
    exact fun heq => hslash (heq ▸ List.mem_cons_self ..)
  · obtain ⟨hdata, hbase, hstop⟩ := hst st hstr
    have hread : strtol (r.hdr.drop 1 ++ stack) = off := by
      have hdrop : r.hdr.drop 1 ++ stack =
          field ++ (32 :: (r.info ++ r.arSize ++ [96, 10] ++ stack)) := by
        rw [ArRecord.hdr, hlong]
        simp
      rw [hdrop]
      refine strtol_decimal hoff (by omega) fun c hc => ?_
      obtain rfl : (32 : UInt8) = c := Option.some.inj hc
      decide
    have hpreLen := hpre.length_le
    rw [List.length_append, List.length_drop, List.length_singleton] at hpreLen
    refine ⟨a.arStr + off, ?_, (hdata.drop hle).shorten hpre, by omega⟩
    have hfirst : mem p = 47 := by
      rw [hlong] at hname
      exact (memHolds_cons.mp hname).1
    rw [if_pos hfirst, arGetStrtblFilename, hread, wadd_of_lt (by omega), if_neg (by omega),
      if_neg (by omega)]

variable (avail stack) in
/-- **A member is recorded.** -/
theorem reads_member {r : ArRecord} {name : List UInt8} (h : RecordAt mem a.stop p r)
    (hnamed : A.Named (r, name)) (hst : HasStrtab A mem a) :
    ∃ f, arFileEntry mem f = (name, p + sizeofArHdr, r.data.length) ∧
      ArReads mem avail stack p a 1 (p + sizeofArHdr + r.data.length)
        { a with files := a.files ++ [f] } := by
  obtain ⟨hstr, hsym⟩ := named_not_tables hnamed
  obtain ⟨str, hsel, hmem, hfits⟩ := named_at stack h hnamed hst
  have hchr : strchr mem 47 (2 ^ 32) str = str + name.length :=
    strchr_eq hnamed.2.1 hnamed.2.2.1 hmem hfits (by omega)
  have hsz : wsub (str + name.length) str = name.length := by
    rw [wsub_of_le hfits (Nat.le_add_right _ _), Nat.add_sub_cancel_left]
  refine ⟨⟨str, p + sizeofArHdr, r.data.length, name.length⟩, ?_, h.reads ?_⟩
  · have hread := (memHolds_append.mp hmem).1.read (Nat.le_of_lt hfits)
    rw [arFileEntry, arFileName, hread]
  · rw [arProcessHdr_file hstr hsym, arProcessFile, hsel, hchr, hsz, h.size, h.next]

variable (avail stack) in
/-- Members, of even sizes. -/
theorem reads_members : ∀ {ms : List (ArRecord × List UInt8)} {p : Nat} {a : Archive},
    (∀ m ∈ ms, m.1.WellFormed ∧ A.Named m ∧ m.1.data.length % 2 = 0) →
      MemHolds mem p (ms.flatMap fun m => m.1.bytes) →
        p + (ms.flatMap fun m => m.1.bytes).length ≤ a.stop → a.stop < 2 ^ 32 →
          HasStrtab A mem a →
            ∃ fs, fs.map (arFileEntry mem) = arEntries p ms ∧
              ArReads mem avail stack p a ms.length
                (p + (ms.flatMap fun m => m.1.bytes).length) { a with files := a.files ++ fs }
  | [], p, a, _, _, _, _, _ => ⟨[], rfl, fun n => by rw [List.append_nil]; rfl⟩
  | (r, name) :: ms, p, a, hms, hmem, hstop, hfits, hst => by
    obtain ⟨hwf, hnamed, heven⟩ := hms _ (List.mem_cons_self ..)
    dsimp only at hwf heven
    rw [List.flatMap_cons, List.length_append] at hstop ⊢
    rw [List.flatMap_cons, memHolds_append] at hmem
    have hat : RecordAt mem a.stop p r := ⟨hwf, hmem.1, by dsimp only at hstop; omega, hfits⟩
    obtain ⟨f, hf, hread⟩ := reads_member avail stack hat hnamed hst
    have hnext : p + sizeofArHdr + r.data.length = p + r.bytes.length := by
      rw [hwf.length_bytes, heven]
      omega
    rw [hnext] at hread
    obtain ⟨fs, hfs, hreads⟩ := reads_members (a := { a with files := a.files ++ [f] })
      (fun m hm => hms m (List.mem_cons_of_mem _ hm)) hmem.2
      (by dsimp only at hstop; rw [Nat.add_assoc]; exact hstop) hfits hst
    refine ⟨f :: fs, ?_, ?_⟩
    · rw [List.map_cons, hf, hfs, arEntries]
    · have hall := hread.trans hreads
      rw [Nat.add_assoc] at hall
      simpa using hall

end File

/-! ## 4. Symbols -/

section Symbols

variable {mem : Nat → UInt8} {avail : Nat → Bool} {stack : List UInt8} {A : GnuAr} {p : Nat}
  {a : Archive}

theorem memWord_eq {n : Nat} (h : MemHolds mem p (wordBytes n)) (hn : n < 2 ^ 32)
    (hp : p + 4 ≤ 2 ^ 32) : memWord mem p = n := by
  obtain ⟨h0, h1, h2, h3, -⟩ : mem p = _ ∧ mem (p + 1) = _ ∧ mem (p + 2) = _ ∧ mem (p + 3) = _ ∧ _ := by
    simpa only [wordBytes, memHolds_cons, Nat.add_assoc, Nat.reduceAdd] using h
  rw [memWord, wadd_of_lt (by omega), wadd_of_lt (by omega), wadd_of_lt (by omega), h0, h1, h2, h3]
  simp only [UInt8.toNat_ofNat']
  omega

theorem memHolds_words {α : Type} {f : α → Nat} : ∀ {l : List α} {p : Nat},
    MemHolds mem p (l.flatMap fun s => wordBytes (f s)) → ∀ i (h : i < l.length),
      MemHolds mem (p + i * 4) (wordBytes (f l[i]))
  | s :: l, p, h, 0, _ => (memHolds_append.mp h).1
  | s :: l, p, h, i + 1, hi => by
    have ih := memHolds_words (memHolds_append.mp h).2 i (Nat.lt_of_succ_lt_succ hi)
    have hlen : (wordBytes (f s)).length = 4 := rfl
    rw [hlen] at ih
    have hp : p + (i + 1) * 4 = p + 4 + i * 4 := by omega
    rw [hp]
    exact ih

/-- Where the names of symbols start. -/
def symStarts (q : Nat) : List (List UInt8 × Nat) → List Nat
  | [] => []
  | s :: ss => q :: symStarts (q + s.1.length + 1) ss

theorem symNames_cons (s : List UInt8 × Nat) (ss : List (List UInt8 × Nat)) :
    GnuAr.symNames (s :: ss) = s.1 ++ 0 :: GnuAr.symNames ss := by
  rw [GnuAr.symNames, List.flatMap_cons, List.append_assoc]
  rfl

/-- The loop has come to `cs`, the rest of a name. -/
theorem arSymLoop_eq {q strsize nSym : Nat} (hfits : q + strsize < 2 ^ 32) :
    ∀ {n i j : Nat} {cs : List UInt8} {ss : List (List UInt8 × Nat)},
      MemHolds mem (q + i) (cs ++ 0 :: GnuAr.symNames ss) → 0 ∉ cs → (∀ s ∈ ss, 0 ∉ s.1) →
        i + (cs ++ 0 :: GnuAr.symNames ss).length ≤ strsize → strsize ≤ n + i →
          j + ss.length = nSym →
            arSymLoop mem q strsize nSym n i j = symStarts (q + i + cs.length + 1) ss
  | 0, i, j, cs, ss, _, _, _, hlen, hn, _ => by
    simp only [List.length_append, List.length_cons] at hlen
    omega
  | n + 1, i, j, cs, [], _, _, _, _, _, hj => by
    rw [arSymLoop, if_neg (by simp only [List.length_nil] at hj; omega), symStarts]
  | n + 1, i, j, [], s :: ss, hmem, _, hss, hlen, hn, hj => by
    obtain ⟨h0, hmem'⟩ := memHolds_cons.mp hmem
    rw [symNames_cons] at hmem' hlen
    simp only [List.length_cons, List.length_append, List.length_nil] at hlen hj
    have ih : arSymLoop mem q strsize nSym n (i + 1) (j + 1) =
        symStarts (q + (i + 1) + s.1.length + 1) ss := arSymLoop_eq hfits hmem'
      (hss s (List.mem_cons_self ..)) (fun t ht => hss t (List.mem_cons_of_mem _ ht))
      (by simp only [List.length_cons, List.length_append]; omega) (by omega) (by omega)
    have hsel : arSymLoop mem q strsize nSym (n + 1) i j =
        wadd q (i + 1) :: arSymLoop mem q strsize nSym n (i + 1) (j + 1) := by
      rw [arSymLoop, if_pos ⟨by omega, by omega⟩, wadd_of_lt (by omega), if_pos h0]
    rw [hsel, ih, symStarts, wadd_of_lt (by omega)]
    simp only [List.length_nil, Nat.add_zero, Nat.add_assoc]
  | n + 1, i, j, c :: cs, s :: ss, hmem, h0, hss, hlen, hn, hj => by
    obtain ⟨hc, hmem'⟩ := memHolds_cons.mp hmem
    simp only [List.cons_append, List.length_cons] at hlen hj
    have ih : arSymLoop mem q strsize nSym n (i + 1) j =
        symStarts (q + (i + 1) + cs.length + 1) (s :: ss) := arSymLoop_eq hfits hmem'
      (fun h => h0 (List.mem_cons_of_mem _ h)) hss (by omega) (by omega) hj
    have hne : mem (q + i) ≠ 0 := fun heq => h0 (by rw [← heq, hc]; exact List.mem_cons_self ..)
    rw [arSymLoop, if_pos ⟨by omega, by omega⟩, wadd_of_lt (by omega), if_neg hne, ih]
    simp only [List.length_cons]
    congr 1
    omega

theorem symStarts_hold : ∀ {ss : List (List UInt8 × Nat)} {q : Nat},
    MemHolds mem q (GnuAr.symNames ss) →
      List.Forall₂ (fun q s => MemHolds mem q (s.1 ++ [0])) (symStarts q ss) ss
  | [], _, _ => .nil
  | s :: ss, q, h => by
    rw [GnuAr.symNames, List.flatMap_cons, memHolds_append] at h
    refine .cons h.1 ?_
    have h' := h.2
    rw [List.length_append, List.length_singleton, ← Nat.add_assoc] at h'
    exact symStarts_hold h'

/-- The loop over all names. -/
theorem arSymLoop_names {q strsize : Nat} {s : List UInt8 × Nat} {ss : List (List UInt8 × Nat)}
    (hmem : MemHolds mem q (GnuAr.symNames (s :: ss))) (hs : s.1 ≠ []) (h0 : ∀ t ∈ s :: ss, 0 ∉ t.1)
    (hlen : (GnuAr.symNames (s :: ss)).length ≤ strsize) (hfits : q + strsize < 2 ^ 32) :
    q :: arSymLoop mem q strsize (s :: ss).length strsize 1 1 = symStarts q (s :: ss) := by
  obtain ⟨⟨name, k⟩, rfl⟩ : ∃ t, t = s := ⟨s, rfl⟩
  obtain ⟨c, cs, rfl⟩ := List.exists_cons_of_ne_nil hs
  rw [symNames_cons] at hmem hlen
  obtain ⟨-, hmem'⟩ := memHolds_cons.mp hmem
  have hnull := h0 _ (List.mem_cons_self ..)
  simp only [List.cons_append, List.length_cons] at hlen
  rw [symStarts, arSymLoop_eq hfits hmem' (fun h => hnull (List.mem_cons_of_mem _ h))
    (fun t ht => h0 t (List.mem_cons_of_mem _ ht)) (by omega) (by omega)
    (by rw [List.length_cons]; omega)]
  simp only [List.length_cons]
  congr 2
  omega
/-- Where the members start, in a memory. -/
theorem arEntries_start : ∀ {ms : List (ArRecord × List UInt8)} {p k : Nat}, k < ms.length →
    (arEntries p ms)[k]?.map (fun e => e.2.1) =
      some (p + ((ms.take k).flatMap fun m => m.1.bytes).length + sizeofArHdr)
  | [], _, _, h => absurd h (Nat.not_lt_zero _)
  | (r, name) :: ms, p, 0, _ => rfl
  | (r, name) :: ms, p, k + 1, h => by
    have ih : (arEntries (p + r.bytes.length) ms)[k]?.map (fun e => e.2.1) =
        some (p + r.bytes.length + ((ms.take k).flatMap fun m => m.1.bytes).length + sizeofArHdr) :=
      arEntries_start (Nat.lt_of_succ_lt_succ h)
    rw [arEntries, List.getElem?_cons_succ, ih, List.take_succ_cons, List.flatMap_cons,
      List.length_append, Nat.add_assoc p]

theorem symWords_length {α : Type} {f : α → Nat} : ∀ l : List α,
    (l.flatMap fun s => wordBytes (f s)).length = l.length * 4
  | [] => rfl
  | s :: l => by
    have hword : (wordBytes (f s)).length = 4 := rfl
    rw [List.flatMap_cons, List.length_append, symWords_length l, List.length_cons, hword]
    omega

/-- The archive with its symbols. -/
def withSyms (A : GnuAr) (a : Archive) (p : Nat) : Archive :=
  { a with
    nSym := A.syms.length
    sym := symStarts (p + sizeofArHdr + 4 + A.syms.length * 4) A.syms
    pSym := A.syms.map fun s => a.arBase + A.memberOffset s.2 + sizeofArHdr }

/-- The symbol table, of an archive in memory. -/
structure SymtabAt (A : GnuAr) (mem : Nat → UInt8) (a : Archive) (p : Nat) (r : ArRecord) : Prop
    extends RecordAt mem a.stop p r where
  name : [47, 32] <+: r.arName
  content : r.data = A.symtabData
  syms : ∀ s ∈ A.syms, s.1 ≠ [] ∧ 0 ∉ s.1
  members : ∀ s ∈ A.syms, a.arBase + A.memberOffset s.2 + sizeofArHdr < 2 ^ 32
  none : a.nSym = 0

namespace SymtabAt

variable {r : ArRecord}

theorem proc (h : SymtabAt A mem a p r) (stack : List UInt8) :
    arProcessHdr mem avail stack (p + sizeofArHdr) a r.hdr =
      arProcessSymTbl mem avail stack (p + sizeofArHdr) a r.hdr := by
  have htake : r.hdr.take 2 = [47, 32] := by
    rw [h.wf.take_hdr]
    exact (List.prefix_iff_eq_take.mp h.name).symm
  have hstr : isStrTbl r.hdr = false := by
    rw [isStrTbl, htake]
    decide
  have hsym : isSymTbl r.hdr = true := by
    rw [isSymTbl, htake]
    decide
  rw [arProcessHdr, if_neg (ne_true_of_eq_false hstr), if_pos hsym]

theorem length_data (h : SymtabAt A mem a p r) :
    r.data.length = 4 + A.syms.length * 4 + (GnuAr.symNames A.syms).length +
      (GnuAr.symNames A.syms).length % 2 := by
  have hcount : (wordBytes A.syms.length).length = 4 := rfl
  rw [h.content, GnuAr.symtabData]
  simp only [List.length_append, List.length_replicate, symWords_length, hcount]

/-- The count, the offsets and the names, where the reader looks for them. -/
theorem holds_parts (h : SymtabAt A mem a p r) :
    MemHolds mem (p + sizeofArHdr) (wordBytes A.syms.length) ∧
      MemHolds mem (p + sizeofArHdr + 4)
        (A.syms.flatMap fun s => wordBytes (A.memberOffset s.2)) ∧
      MemHolds mem (p + sizeofArHdr + 4 + A.syms.length * 4) (GnuAr.symNames A.syms) := by
  have hdata := h.data
  rw [h.content, GnuAr.symtabData, memHolds_append, memHolds_append, memHolds_append,
    List.length_append, symWords_length] at hdata
  have hcount : (wordBytes A.syms.length).length = 4 := rfl
  rw [hcount, ← Nat.add_assoc] at hdata
  exact ⟨hdata.1.1.1, hdata.1.1.2, hdata.1.2⟩

/-- **The symbol table is recorded**, at the address of a word. -/
theorem reads (h : SymtabAt A mem a p r) (stack : List UInt8) (hfull : ∀ k, avail k = true)
    (hfresh : a.sym = [] ∧ a.pSym = []) (hword : A.syms ≠ [] → p % 4 = 0) :
    ArReads mem avail stack p a 1 (p + sizeofArHdr + r.data.length) (withSyms A a p) := by
  obtain ⟨hcount, hwords, hnames⟩ := h.holds_parts
  have hlen := h.length
  have hfits := h.fits
  have hdata := h.length_data
  have hhdr : sizeofArHdr = 60 := rfl
  have hn : memWord mem (p + sizeofArHdr) = A.syms.length := memWord_eq hcount (by omega) (by omega)
  refine h.toRecordAt.reads ?_
  rw [h.proc, arProcessSymTbl, if_neg (not_not.mpr h.none)]
  dsimp only
  rw [h.size, h.next, if_neg (by omega), hn, wadd_of_lt (by omega)]
  by_cases hempty : A.syms.length = 0
  · have hnil : A.syms = [] := List.length_eq_zero_iff.mp hempty
    have hsame : withSyms A a p = a := by
      obtain ⟨base, size, str, files, nSym, sym, pSym⟩ := a
      obtain ⟨rfl, rfl⟩ : sym = [] ∧ pSym = [] := hfresh
      obtain rfl : nSym = 0 := h.none
      rw [withSyms, hnil]
      rfl
    have hfour : r.data.length = 4 := by
      rw [hdata, hnil]
      rfl
    rw [if_pos hempty, hsame, hfour]
  · have hne : A.syms ≠ [] := fun hnil => hempty (by rw [hnil]; rfl)
    have hmod := hword hne
    have halloc : ∀ k, arKmalloc avail k (A.syms.length * 4) = true := by
      intro k
      rw [arKmalloc, hfull, Bool.and_true, bne_iff_ne]
      omega
    have hfour : wsub r.data.length 4 = r.data.length - 4 := wsub_of_le (by omega) (by omega)
    have hstr : wsub (r.data.length - 4) (A.syms.length * 4) =
        r.data.length - 4 - A.syms.length * 4 := wsub_of_le (by omega) (by omega)
    have hstart : wadd (p + sizeofArHdr + 4) (A.syms.length * 4) =
        p + sizeofArHdr + 4 + A.syms.length * 4 := wadd_of_lt (by omega)
    have hend : wadd (p + sizeofArHdr + 4 + A.syms.length * 4)
        (r.data.length - 4 - A.syms.length * 4) = p + sizeofArHdr + r.data.length := by
      rw [wadd_of_lt (by omega)]
      omega
    rw [if_neg hempty, if_neg (by rw [halloc]; exact Bool.noConfusion), if_neg (by omega),
      if_neg (by rw [halloc]; exact Bool.noConfusion), hfour, hstr, hstart, hend]
    refine Prod.ext rfl ?_
    have hloop : ∀ {syms : List (List UInt8 × Nat)} {q strsize : Nat}, syms ≠ [] →
        (∀ s ∈ syms, s.1 ≠ [] ∧ 0 ∉ s.1) → MemHolds mem q (GnuAr.symNames syms) →
        (GnuAr.symNames syms).length ≤ strsize → q + strsize < 2 ^ 32 →
        q :: arSymLoop mem q strsize syms.length strsize 1 1 = symStarts q syms := by
      intro syms q strsize hne hsyms hq hle hlt
      obtain ⟨s, ss, rfl⟩ := List.exists_cons_of_ne_nil hne
      exact arSymLoop_names hq (hsyms s (List.mem_cons_self ..)).1 (fun t ht => (hsyms t ht).2)
        hle hlt
    have hpSym : ((List.range A.syms.length).map fun i =>
        wadd (wadd a.arBase (memWord mem (wadd (p + sizeofArHdr + 4) (i * 4)))) sizeofArHdr) =
        A.syms.map fun s => a.arBase + A.memberOffset s.2 + sizeofArHdr := by
      refine List.ext_getElem (by simp) fun i hi hi' => ?_
      rw [List.length_map] at hi'
      have hoff := h.members _ (List.getElem_mem hi')
      have hadd : wadd a.arBase (A.memberOffset A.syms[i].2) =
          a.arBase + A.memberOffset A.syms[i].2 := wadd_of_lt (by omega)
      rw [List.getElem_map, List.getElem_map, List.getElem_range, wadd_of_lt (b := i * 4) (by omega),
        memWord_eq (memHolds_words hwords i hi') (by omega) (by omega), hadd, wadd_of_lt hoff]
    dsimp only
    rw [withSyms, hpSym, hloop hne h.syms hnames (by omega) (by omega)]

/-- At another address, it is not. -/
theorem refuses (h : SymtabAt A mem a p r) (hne : A.syms ≠ []) (hword : p % 4 ≠ 0) {n : Nat}
    {res : Int × Archive} (hload : arLoadRecords mem avail stack n p a = some res) :
    res.1 = -1 := by
  obtain ⟨hcount, -, -⟩ := h.holds_parts
  have hlen := h.length
  have hfits := h.fits
  have hdata := h.length_data
  have hhdr : sizeofArHdr = 60 := rfl
  have hn : memWord mem (p + sizeofArHdr) = A.syms.length := memWord_eq hcount (by omega) (by omega)
  have hpos : A.syms.length ≠ 0 := fun h0 => hne (List.length_eq_zero_iff.mp h0)
  have hproc : (arProcessSymTbl mem avail stack (p + sizeofArHdr) a r.hdr).1 = 0 := by
    rw [arProcessSymTbl, if_neg (not_not.mpr h.none)]
    dsimp only
    rw [h.size, h.next, if_neg (by omega), hn, if_neg hpos, wadd_of_lt (by omega)]
    split
    · rfl
    · rw [if_pos (by omega)]
  cases n with
  | zero => cases hload
  | succ n =>
    rw [arLoadRecords, if_pos h.lt, h.hdr, h.start, h.proc] at hload
    dsimp only at hload
    rw [if_pos hproc] at hload
    cases hload
    rfl

end SymtabAt

end Symbols

end FlightOs
