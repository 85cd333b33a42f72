/-
# Archives that are read within their bounds

`ar_load_inside_iff`: `ar_load` reads nothing outside the buffer, and what it records lies in it, if
and only if the records that the two passes come to let them (`ArBounded`).  What is recorded counts
only where the second pass comes to the end of the archive.

It is not the case for a header that is cut off (`ar_load_reads_beyond`), for a member whose size
goes beyond the end, and for a symbol table with fewer names than symbols
(`ar_load_records_beyond`).
-/
import FlightOs.Ar.Bounds

namespace FlightOs

open Relation

section Passes

variable {mem : Nat → UInt8} {avail : Nat → Bool} {stack stack' : List UInt8}
  {base size p q n : Nat} {a : Archive} {c : ArCursor}

/-! ## 1. The passes -/

/-- One round of the first pass. -/
theorem arGetFilecountReads_step {stop : Nat} (hp : p < stop) :
    arGetFilecountReads mem stack stop (n + 1) p =
      arReadHdrReads p ++ arGetEntrySizeReads stack (arReadHdr mem p) ++
        arGetFilecountReads mem stack stop n (arNext mem stack p) := by
  rw [arGetFilecountReads, if_pos hp]
  rfl

theorem ArMeets.reads {stop : Nat} (h : ArMeets mem stack stop p q) :
    ∃ k, ∀ n, ∀ x ∈ arGetFilecountReads mem stack stop n q,
      x ∈ arGetFilecountReads mem stack stop (n + k) p := by
  induction h with
  | start => exact ⟨0, fun n x hx => hx⟩
  | next _ hq ih =>
    obtain ⟨k, hk⟩ := ih
    refine ⟨k + 1, fun n x hx => ?_⟩
    rw [← Nat.add_assoc, Nat.add_right_comm]
    refine hk (n + 1) x ?_
    rw [arGetFilecountReads_step hq]
    exact List.mem_append_right _ hx

/-- **The first pass** reads what the records that it comes to let it read. -/
theorem arGetFilecountReads_inside (hbuf : ArBuffer base size) :
    (∀ fuel, ∀ x ∈ arGetFilecountReads mem stack (base + size) fuel p, x.Inside base size) ↔
      ∀ q, ArMeets mem stack (base + size) p q → q < base + size →
        ArHdrInside base size q ∧ ArSizeEnds mem q := by
  constructor
  · intro h q hmeets hq
    obtain ⟨k, hk⟩ := hmeets.reads
    have hread : ∀ x ∈ arReadHdrReads q ++ arGetEntrySizeReads stack (arReadHdr mem q),
        x.Inside base size := by
      intro x hx
      refine h (1 + k) x (hk 1 x ?_)
      rw [arGetFilecountReads_step hq]
      exact List.mem_append_left _ hx
    rwa [inside_append, arReadHdrReads_inside hbuf hq, arGetEntrySizeReads_inside] at hread
  · intro h fuel
    induction fuel generalizing p with
    | zero => exact fun x hx => by cases hx
    | succ fuel ih =>
      by_cases hp : p < base + size
      · rw [arGetFilecountReads_step hp, inside_append, inside_append,
          arReadHdrReads_inside hbuf hp, arGetEntrySizeReads_inside]
        exact ⟨h p .start hp, ih fun q hq => h q ((ArMeets.start.next hp).trans hq)⟩
      · rw [arGetFilecountReads, if_neg hp]
        exact fun x hx => by cases hx

variable (mem avail stack p a) in
theorem arProcessHdr_bounds (hdr : List UInt8) :
    (arProcessHdr mem avail stack p a hdr).2.arBase = a.arBase ∧
      (arProcessHdr mem avail stack p a hdr).2.arSize = a.arSize := by
  unfold arProcessHdr arProcessStrtbl arProcessSymTbl arProcessFile
  dsimp only
  split_ifs <;> exact ⟨rfl, rfl⟩

theorem ArTakes.lt {stop : Nat} {c' : ArCursor} (h : ArTakes mem avail stack stop c c') :
    c.p < stop := by
  cases h <;> assumption

/-- After `k` records the second pass is at `q`, with the archive `b`. -/
structure ArComesTo (mem : Nat → UInt8) (avail : Nat → Bool) (stack : List UInt8) (p : Nat)
    (a : Archive) (k q : Nat) (b : Archive) : Prop where
  base : b.arBase = a.arBase
  size : b.arSize = a.arSize
  goes : ArReads mem avail stack p a k q b
  reads : ∀ n, ∀ x ∈ arLoadRecordsReads mem avail stack n q b,
    x ∈ arLoadRecordsReads mem avail stack (n + k) p a

theorem ArComesTo.stop {k : Nat} {b : Archive} (h : ArComesTo mem avail stack p a k q b) :
    b.stop = a.stop := by
  rw [Archive.stop, h.base, h.size, Archive.stop]

/-- One record more. -/
theorem ArComesTo.next {k : Nat} {b : Archive} {r : Nat × Archive}
    (h : ArComesTo mem avail stack p a k q b) (hq : q < b.stop)
    (hr : arProcessHdr mem avail stack (wadd q sizeofArHdr) b (arReadHdr mem q) = r)
    (hne : r.1 ≠ 0) : ArComesTo mem avail stack p a (k + 1) r.1 r.2 := by
  have hbounds := arProcessHdr_bounds mem avail stack (wadd q sizeofArHdr) b (arReadHdr mem q)
  rw [hr] at hbounds
  refine ⟨hbounds.1.trans h.base, hbounds.2.trans h.size, fun n => ?_, fun n x hx => ?_⟩
  · rw [← Nat.add_assoc, Nat.add_right_comm, h.goes, arLoadRecords, if_pos hq, hr]
    exact if_neg hne
  · rw [← Nat.add_assoc, Nat.add_right_comm]
    refine h.reads (n + 1) x ?_
    rw [arLoadRecordsReads, if_pos hq]
    dsimp only
    rw [hr, if_neg hne]
    exact List.mem_append_right _ hx

/-- **Where the walk comes to, the second pass comes**. -/
theorem arComesTo_of_reaches (h : ReflTransGen (ArTakes mem avail stack a.stop) (a.cursor p) c) :
    ∃ k b, b.cursor c.p = c ∧ ArComesTo mem avail stack p a k c.p b := by
  induction h with
  | refl => exact ⟨0, a, rfl, rfl, rfl, fun _ => rfl, fun _ _ hx => hx⟩
  | tail _ hstep ih =>
    obtain ⟨k, b, hb, hcomes⟩ := ih
    rw [← hb, ← hcomes.stop] at hstep
    have hq := hstep.lt
    obtain rfl := hstep.unique (arProcessHdr_takes hq rfl hstep.ne)
    exact ⟨k + 1, _, rfl, hcomes.next hq rfl hstep.ne⟩

/-- **The second pass** reads what the records that it comes to let it read. -/
theorem arLoadRecordsReads_inside (hbuf : ArBuffer base size) (hbase : a.arBase = base)
    (hsize : a.arSize = size) :
    (∀ fuel, ∀ x ∈ arLoadRecordsReads mem avail stack fuel p a, x.Inside base size) ↔
      ∀ c, ReflTransGen (ArTakes mem avail stack (base + size)) (a.cursor p) c →
        c.p < base + size → ArRecordInside mem avail stack base size c := by
  have hstop : ∀ {b : Archive}, b.arBase = base → b.arSize = size → b.stop = base + size :=
    fun hb hs => by rw [Archive.stop, hb, hs, wadd_of_lt hbuf.fits]
  constructor
  · intro h c hreach hc
    rw [← hstop hbase hsize] at hreach
    obtain ⟨k, b, hb, hcomes⟩ := arComesTo_of_reaches hreach
    have hbase' := hcomes.base.trans hbase
    have hsize' := hcomes.size.trans hsize
    rw [← hb]
    refine (arRecordReads_inside hbuf hbase' hsize' hc).mp fun x hx => ?_
    refine h (1 + k) x (hcomes.reads 1 x ?_)
    rw [arLoadRecordsReads, if_pos (hstop hbase' hsize' ▸ hc)]
    exact List.mem_append_left _ hx
  · intro h fuel
    induction fuel generalizing p a with
    | zero => exact fun x hx => by cases hx
    | succ fuel ih =>
      rw [arLoadRecordsReads, hstop hbase hsize]
      by_cases hp : p < base + size
      case neg =>
        rw [if_neg hp]
        exact fun x hx => by cases hx
      rw [if_pos hp]
      dsimp only
      rw [inside_append, arRecordReads_inside hbuf hbase hsize hp]
      refine ⟨h _ .refl hp, ?_⟩
      by_cases hne : (arProcessHdr mem avail stack (wadd p sizeofArHdr) a (arReadHdr mem p)).1 = 0
      · rw [if_pos hne]
        exact fun x hx => by cases hx
      rw [if_neg hne]
      have hbounds := arProcessHdr_bounds mem avail stack (wadd p sizeofArHdr) a (arReadHdr mem p)
      have htakes := arProcessHdr_takes (hstop hbase hsize ▸ hp) rfl hne
      rw [hstop hbase hsize] at htakes
      exact ih (hbounds.1.trans hbase) (hbounds.2.trans hsize) fun c hc => h c (.head htakes hc)

end Passes

/-! ## 2. What is recorded -/

/-- There are as many names as symbols, and they and the members lie in the buffer. -/
structure ArSymbolsKept (mem : Nat → UInt8) (stack : List UInt8) (base size q : Nat) : Prop where
  all : arSymCount mem q ≤ 1 + nullsIn mem (arSymNames mem q) 1 (arStrsize mem stack q)
  first : InBuffer base size (arSymNames mem q)
  names : ∀ i, 1 ≤ i → i < arStrsize mem stack q →
    1 + nullsIn mem (arSymNames mem q) 1 i < arSymCount mem q →
      mem (wadd (arSymNames mem q) i) = 0 → InBuffer base size (wadd (arSymNames mem q) (i + 1))
  starts : ∀ i < arSymCount mem q,
    wadd (memWord mem (wadd (wadd (wadd q sizeofArHdr) 4) (i * 4))) sizeofArHdr < size

/-- **What is recorded of the record at `q`** lies in the buffer. -/
structure ArRecordKept (mem : Nat → UInt8) (stack : List UInt8) (base size q : Nat) : Prop where
  file : isStrTbl (arReadHdr mem q) = false → isSymTbl (arReadHdr mem q) = false →
    q + sizeofArHdr + arGetEntrySize stack (arReadHdr mem q) ≤ base + size
  symbols : isSymTbl (arReadHdr mem q) = true → arSymCount mem q ≠ 0 →
    ArSymbolsKept mem stack base size q

section Recorded

variable {mem : Nat → UInt8} {avail : Nat → Bool} {stack : List UInt8} {base size p q n : Nat}
  {a b : Archive} {c : ArCursor} {r : Nat × Archive}

/-- Members in the buffer. -/
def FilesInside (base size : Nat) (files : List ArFile) : Prop :=
  ∀ f ∈ files, base ≤ f.pFile ∧ f.pFile + f.filesz ≤ base + size

/-- Tables for the symbols that are filled with addresses in the buffer. -/
def SymbolsInside (base size nSym : Nat) (sym pSym : List Nat) : Prop :=
  (sym.length = nSym ∧ ∀ x ∈ sym, InBuffer base size x) ∧
    pSym.length = nSym ∧ ∀ x ∈ pSym, InBuffer base size x

/-- No symbols have been recorded where there is no count of them. -/
def Archive.NoneYet (a : Archive) : Prop := a.nSym = 0 → a.sym = [] ∧ a.pSym = []

/-- The tables for the symbols, from the record at `q`. -/
def arSym (mem : Nat → UInt8) (stack : List UInt8) (q : Nat) : List Nat :=
  arSymNames mem q :: arSymLoop mem (arSymNames mem q) (arStrsize mem stack q) (arSymCount mem q)
    (arStrsize mem stack q) 1 1

def arPSym (mem : Nat → UInt8) (base q : Nat) : List Nat :=
  (List.range (arSymCount mem q)).map fun i =>
    wadd (wadd base (memWord mem (wadd (wadd (wadd q sizeofArHdr) 4) (i * 4)))) sizeofArHdr

/-- **What is recorded of a record** that the second pass takes. -/
inductive ArRecords (mem : Nat → UInt8) (stack : List UInt8) (q : Nat) (a : Archive) :
    Archive → Prop
  | table {str : Nat} : (isStrTbl (arReadHdr mem q) || isSymTbl (arReadHdr mem q)) = true →
      (isSymTbl (arReadHdr mem q) = true → arSymCount mem q = 0) →
      ArRecords mem stack q a { a with arStr := str }
  | symtab : isSymTbl (arReadHdr mem q) = true → arSymCount mem q ≠ 0 → a.nSym = 0 →
      ArRecords mem stack q a { a with
        nSym := arSymCount mem q
        sym := arSym mem stack q
        pSym := arPSym mem a.arBase q }
  | file {str len : Nat} : isStrTbl (arReadHdr mem q) = false →
      isSymTbl (arReadHdr mem q) = false →
      ArRecords mem stack q a { a with
        files := a.files ++ [⟨str, wadd q sizeofArHdr, arGetEntrySize stack (arReadHdr mem q), len⟩] }

theorem arProcessHdr_records
    (hr : arProcessHdr mem avail stack (wadd q sizeofArHdr) a (arReadHdr mem q) = r)
    (hne : r.1 ≠ 0) : ArRecords mem stack q a r.2 := by
  unfold arProcessHdr at hr
  split at hr
  case isTrue hstr =>
    unfold arProcessStrtbl at hr
    split at hr
    · subst hr
      exact absurd rfl hne
    case isFalse =>
      subst hr
      refine .table (by rw [hstr, Bool.true_or]) fun hsym => ?_
      exact absurd (hstr.symm.trans (isStrTbl_of_isSymTbl hsym)) Bool.true_eq_false.mp
  case isFalse hstr =>
    split at hr
    case isFalse hsym =>
      subst hr
      exact .file (Bool.eq_false_iff.mpr hstr) (Bool.eq_false_iff.mpr hsym)
    case isTrue hsym =>
      unfold arProcessSymTbl at hr
      dsimp only at hr
      split at hr
      · subst hr
        exact absurd rfl hne
      case isFalse h0 =>
      split at hr
      · subst hr
        exact absurd rfl hne
      case isFalse =>
      split at hr
      case isTrue hn =>
        subst hr
        have hrec : ArRecords mem stack q a { a with arStr := a.arStr } :=
          .table (by rw [hsym, Bool.or_true]) fun _ => hn
        exact hrec
      case isFalse hn =>
      split at hr
      · subst hr
        exact absurd rfl hne
      case isFalse =>
      split at hr
      · subst hr
        exact absurd rfl hne
      case isFalse =>
      split at hr
      · subst hr
        exact absurd rfl hne
      case isFalse =>
      subst hr
      exact .symtab hsym hn (not_not.mp h0)

/-- The end of the archive is come to, where the second pass succeeds. -/
theorem arLoadRecords_reaches {fuel : Nat}
    (h : arLoadRecords mem avail stack fuel p a = some (0, b)) :
    ∃ c, ReflTransGen (ArTakes mem avail stack a.stop) (a.cursor p) c ∧ ¬ c.p < a.stop := by
  induction fuel generalizing p a with
  | zero => cases h
  | succ fuel ih =>
    rw [arLoadRecords] at h
    by_cases hp : p < a.stop
    case neg => exact ⟨_, .refl, hp⟩
    rw [if_pos hp] at h
    dsimp only at h
    generalize hr : arProcessHdr mem avail stack (wadd p sizeofArHdr) a (arReadHdr mem p) = r at h
    by_cases hne : r.1 = 0
    · rw [if_pos hne] at h
      cases h
    rw [if_neg hne] at h
    obtain ⟨c, hc, hlt⟩ := ih h
    rw [← hr, arProcessHdr_stop] at hc hlt
    rw [hr] at hc
    exact ⟨c, .head (arProcessHdr_takes hp hr hne) hc, hlt⟩

/-- Where the walk comes to the end of the archive, the second pass succeeds. -/
theorem arLoadRecords_of_reaches
    (h : ReflTransGen (ArTakes mem avail stack a.stop) (a.cursor p) c) (hc : ¬ c.p < a.stop) :
    ∃ fuel b, arLoadRecords mem avail stack fuel p a = some (0, b) := by
  obtain ⟨k, b, -, hcomes⟩ := arComesTo_of_reaches h
  refine ⟨1 + k, b, ?_⟩
  rw [hcomes.goes, arLoadRecords, if_neg (hcomes.stop ▸ hc)]

/-- **The run rule**: what each record that is taken keeps if and only if it meets `Q`, the second
pass has kept at the end if and only if all records meet it. -/
theorem arLoadRecords_keeps {I K : Archive → Prop} {Q : Nat → Prop} {fuel : Nat}
    (hstep : ∀ q a b, I a → ArRecords mem stack q a b → I b ∧ (K b ↔ K a ∧ Q q)) (ha : I a)
    (h : arLoadRecords mem avail stack fuel p a = some (0, b)) :
    K b ↔ K a ∧ ∀ c, ReflTransGen (ArTakes mem avail stack a.stop) (a.cursor p) c →
      c.p < a.stop → Q c.p := by
  induction fuel generalizing p a with
  | zero => cases h
  | succ fuel ih =>
    rw [arLoadRecords] at h
    by_cases hp : p < a.stop
    case neg =>
      rw [if_neg hp] at h
      cases h
      refine (and_iff_left fun c hc hlt => ?_).symm
      rcases hc.cases_head with rfl | ⟨d, hd, -⟩
      · exact absurd hlt hp
      · exact absurd hd.lt hp
    rw [if_pos hp] at h
    dsimp only at h
    generalize hr : arProcessHdr mem avail stack (wadd p sizeofArHdr) a (arReadHdr mem p) = r at h
    by_cases hne : r.1 = 0
    · rw [if_pos hne] at h
      cases h
    rw [if_neg hne] at h
    have htakes := arProcessHdr_takes hp hr hne
    obtain ⟨hI, hK⟩ := hstep p a r.2 ha (arProcessHdr_records hr hne)
    have hstop : r.2.stop = a.stop := by
      rw [← hr]
      exact arProcessHdr_stop mem avail stack (wadd p sizeofArHdr) a (arReadHdr mem p)
    rw [ih hI h, hK, hstop, and_assoc]
    refine and_congr_right fun _ => ⟨?_, fun hall => ⟨hall _ .refl hp, ?_⟩⟩
    · rintro ⟨hQ, hrest⟩ c hc hlt
      rcases hc.cases_head with rfl | ⟨d, hd, hc⟩
      · exact hQ
      · rw [hd.unique htakes] at hc
        exact hrest c hc hlt
    · exact fun c hc => hall c (.head htakes hc)

/-- An address that is counted from the start of the buffer. -/
theorem inBuffer_wadd (hbuf : ArBuffer base size) {o : Nat} :
    InBuffer base size (wadd (wadd base o) sizeofArHdr) ↔ wadd o sizeofArHdr < size := by
  have hfits := hbuf.fits
  have hsum : wadd (wadd base o) sizeofArHdr = (base + wadd o sizeofArHdr) % 2 ^ 32 := by
    unfold wadd
    omega
  have hlt := wadd_lt o sizeofArHdr
  rw [hsum, InBuffer]
  by_cases hwrap : base + wadd o sizeofArHdr < 2 ^ 32
  · rw [Nat.mod_eq_of_lt hwrap]
    omega
  · refine iff_of_false (fun h => ?_) (by omega)
    have hlow := h.1
    omega

/-- **The tables for the symbols**, from a symbol table. -/
theorem symbolsInside_iff (hbuf : ArBuffer base size) (hn : arSymCount mem q ≠ 0) :
    SymbolsInside base size (arSymCount mem q) (arSym mem stack q) (arPSym mem base q) ↔
      ArSymbolsKept mem stack base size q := by
  have hfuel : arStrsize mem stack q ≤ 1 + arStrsize mem stack q := Nat.le_add_left _ _
  have hlen : (arSym mem stack q).length = arSymCount mem q ↔
      arSymCount mem q ≤ 1 + nullsIn mem (arSymNames mem q) 1 (arStrsize mem stack q) := by
    rw [arSym, List.length_cons, length_arSymLoop hfuel]
    omega
  have hsym : (∀ x ∈ arSym mem stack q, InBuffer base size x) ↔
      InBuffer base size (arSymNames mem q) ∧ ∀ i, 1 ≤ i → i < arStrsize mem stack q →
        1 + nullsIn mem (arSymNames mem q) 1 i < arSymCount mem q →
          mem (wadd (arSymNames mem q) i) = 0 →
            InBuffer base size (wadd (arSymNames mem q) (i + 1)) := by
    rw [arSym, List.forall_mem_cons]
    refine and_congr_right fun _ => ⟨fun h i h1 hi hj h0 => ?_, fun h x hx => ?_⟩
    · exact h _ ((mem_arSymLoop hfuel).mpr ⟨i, h1, hi, hj, h0, rfl⟩)
    · obtain ⟨i, h1, hi, hj, h0, rfl⟩ := (mem_arSymLoop hfuel).mp hx
      exact h i h1 hi hj h0
  have hpSym : (∀ x ∈ arPSym mem base q, InBuffer base size x) ↔ ∀ i < arSymCount mem q,
      wadd (memWord mem (wadd (wadd (wadd q sizeofArHdr) 4) (i * 4))) sizeofArHdr < size := by
    rw [arPSym, List.forall_mem_map]
    refine forall_congr' fun i => ?_
    rw [List.mem_range, inBuffer_wadd hbuf]
  rw [SymbolsInside, hlen, hsym, hpSym]
  constructor
  · rintro ⟨⟨hall, hfirst, hnames⟩, -, hstarts⟩
    exact ⟨hall, hfirst, hnames, hstarts⟩
  · rintro ⟨hall, hfirst, hnames, hstarts⟩
    refine ⟨⟨hall, hfirst, hnames⟩, ?_, hstarts⟩
    rw [arPSym, List.length_map, List.length_range]

/-- **The members** that are recorded lie in the buffer, if and only if those of all records do. -/
theorem files_inside_iff (hbuf : ArBuffer base size) (hbase : a.arBase = base)
    (hsize : a.arSize = size) (hfiles : a.files = []) {fuel : Nat}
    (h : arLoadRecords mem avail stack fuel p a = some (0, b)) :
    FilesInside base size b.files ↔
      ∀ c, ReflTransGen (ArTakes mem avail stack (base + size)) (a.cursor p) c →
        c.p < base + size → isStrTbl (arReadHdr mem c.p) = false →
          isSymTbl (arReadHdr mem c.p) = false → base ≤ wadd c.p sizeofArHdr ∧
            wadd c.p sizeofArHdr + arGetEntrySize stack (arReadHdr mem c.p) ≤ base + size := by
  have hstop : a.stop = base + size := by rw [Archive.stop, hbase, hsize, wadd_of_lt hbuf.fits]
  rw [← hstop]
  refine (arLoadRecords_keeps (I := fun _ => True) (K := fun a => FilesInside base size a.files)
    (Q := fun q => isStrTbl (arReadHdr mem q) = false → isSymTbl (arReadHdr mem q) = false →
      base ≤ wadd q sizeofArHdr ∧
        wadd q sizeofArHdr + arGetEntrySize stack (arReadHdr mem q) ≤ a.stop) ?_ trivial h).trans ?_
  · intro q a' b' _ hrec
    refine ⟨trivial, ?_⟩
    rw [hstop]
    cases hrec with
    | table htbl =>
      refine (and_iff_left fun hstr hsym => ?_).symm
      rw [hstr, hsym] at htbl
      cases htbl
    | symtab hsym =>
      exact (and_iff_left fun _ h => absurd (hsym.symm.trans h) Bool.true_eq_false.mp).symm
    | file hstr hsym =>
      rw [forall_prop_of_true hstr, forall_prop_of_true hsym]
      simp only [FilesInside, List.forall_mem_append, List.forall_mem_singleton]
  · refine and_iff_right ?_
    rw [hfiles]
    exact fun f hf => by cases hf

/-- **The symbols** that are recorded lie in the buffer, if and only if those of all symbol tables
do. -/
theorem symbols_inside_iff (hbuf : ArBuffer base size) (hbase : a.arBase = base)
    (hsize : a.arSize = size) (hsym : a.nSym = 0 ∧ a.sym = [] ∧ a.pSym = []) {fuel : Nat}
    (h : arLoadRecords mem avail stack fuel p a = some (0, b)) :
    SymbolsInside base size b.nSym b.sym b.pSym ↔
      ∀ c, ReflTransGen (ArTakes mem avail stack (base + size)) (a.cursor p) c →
        c.p < base + size → isSymTbl (arReadHdr mem c.p) = true → arSymCount mem c.p ≠ 0 →
          ArSymbolsKept mem stack base size c.p := by
  have hstop : a.stop = base + size := by rw [Archive.stop, hbase, hsize, wadd_of_lt hbuf.fits]
  have hempty : SymbolsInside base size 0 [] [] :=
    ⟨⟨rfl, fun x hx => by cases hx⟩, rfl, fun x hx => by cases hx⟩
  rw [← hstop]
  refine (arLoadRecords_keeps (I := fun a => a.arBase = base ∧ a.NoneYet)
    (K := fun a => SymbolsInside base size a.nSym a.sym a.pSym)
    (Q := fun q => isSymTbl (arReadHdr mem q) = true → arSymCount mem q ≠ 0 →
      ArSymbolsKept mem stack base size q) ?_ ⟨hbase, fun _ => hsym.2⟩ h).trans ?_
  · intro q a' b' hI hrec
    obtain ⟨hbase', hnone⟩ := hI
    cases hrec with
    | table _ hcount =>
      exact ⟨⟨hbase', hnone⟩, (and_iff_left fun h hn => absurd (hcount h) hn).symm⟩
    | symtab htbl hn h0 =>
      refine ⟨⟨hbase', fun h => absurd h hn⟩, ?_⟩
      obtain ⟨hsym', hpSym'⟩ := hnone h0
      dsimp only
      rw [h0, hsym', hpSym', hbase', symbolsInside_iff hbuf hn, forall_prop_of_true htbl,
        forall_prop_of_true hn]
      exact (and_iff_right hempty).symm
    | file _ hno =>
      exact ⟨⟨hbase', hnone⟩,
        (and_iff_left fun h _ => absurd (hno.symm.trans h) Bool.false_ne_true).symm⟩
  · refine and_iff_right ?_
    rw [hsym.1, hsym.2.1, hsym.2.2]
    exact hempty

end Recorded

/-! ## 3. The call -/

/-- **`ar_load` stays in its buffer**: it reads nothing outside the buffer; and where it succeeds, the
members lie in the buffer, and the tables for the symbols are filled with addresses in it. -/
structure ArStaysInside (mem : Nat → UInt8) (avail : Nat → Bool) (stack stack' : List UInt8)
    (base size : Nat) : Prop where
  reads : ∀ fuel, ∀ x ∈ arLoadReads mem avail stack stack' fuel base size, x.Inside base size
  files : ∀ fuel a, arLoad mem avail stack stack' fuel base size = some (0, a) →
    FilesInside base size a.files
  symbols : ∀ fuel a, arLoad mem avail stack stack' fuel base size = some (0, a) →
    SymbolsInside base size a.nSym a.sym a.pSym

/-- The second pass is made, and comes to `c`. -/
def ArLoads (mem : Nat → UInt8) (avail : Nat → Bool) (stack stack' : List UInt8)
    (base size : Nat) (c : ArCursor) : Prop :=
  arCheckMagic mem base ≠ 0 ∧
    (∃ n, ArFilesFrom mem stack (base + size) (wadd base 8) n ∧ arTables avail n = true) ∧
      ReflTransGen (ArTakes mem avail stack' (base + size)) ⟨wadd base 8, 0, 0⟩ c

/-- **What an archive has to meet.** -/
structure ArBounded (mem : Nat → UInt8) (avail : Nat → Bool) (stack stack' : List UInt8)
    (base size : Nat) : Prop where
  magic : ArMagicInside mem base size
  counted : arCheckMagic mem base ≠ 0 → ∀ q, ArMeets mem stack (base + size) (wadd base 8) q →
    q < base + size → ArHdrInside base size q ∧ ArSizeEnds mem q
  loaded : ∀ c, ArLoads mem avail stack stack' base size c → c.p < base + size →
    ArRecordInside mem avail stack' base size c
  kept : (∃ e, ArLoads mem avail stack stack' base size e ∧ ¬ e.p < base + size) →
    ∀ c, ArLoads mem avail stack stack' base size c → c.p < base + size →
      ArRecordKept mem stack' base size c.p

section Load

variable {mem : Nat → UInt8} {avail : Nat → Bool} {stack stack' : List UInt8} {base size p : Nat}
  {a : Archive} {x : ArRead}

theorem arLoadRecordsReads_mono {n m : Nat} (h : x ∈ arLoadRecordsReads mem avail stack n p a)
    (hle : n ≤ m) : x ∈ arLoadRecordsReads mem avail stack m p a := by
  induction n generalizing m p a with
  | zero => cases h
  | succ n ih =>
    obtain ⟨m, rfl⟩ := Nat.exists_eq_add_of_lt hle
    rw [arLoadRecordsReads] at h
    rw [arLoadRecordsReads]
    split_ifs at h ⊢ with hp
    · dsimp only at h ⊢
      refine (List.mem_append.mp h).elim (List.mem_append_left _) fun h => List.mem_append_right _ ?_
      split_ifs at h ⊢ with hne
      · exact h
      · exact ih h (Nat.le_add_right _ _)
    · exact h

/-- The first pass comes to its end, where files can be counted. -/
theorem ArFilesFrom.counts {stop n : Nat} (h : ArFilesFrom mem stack stop p n) (cnt : Nat) :
    ∃ fuel, arGetFilecount mem stack stop fuel p cnt = some (cnt + n) := by
  induction h generalizing cnt with
  | stop hq =>
    refine ⟨1, ?_⟩
    rw [arGetFilecount, if_neg hq]
    rfl
  | next hq _ ih =>
    obtain ⟨fuel, hfuel⟩ := ih _
    refine ⟨fuel + 1, ?_⟩
    rw [arGetFilecount_step hq, hfuel, Nat.add_assoc, Nat.add_comm (ite _ _ _)]

theorem arLoadReads_of_magic {fuel : Nat} (hmagic : arCheckMagic mem base ≠ 0)
    (hfits : base + size < 2 ^ 32) : arLoadReads mem avail stack stack' fuel base size =
      arCheckMagicReads mem base ++
        (arGetFilecountReads mem stack (base + size) fuel (wadd base 8) ++
          match arGetFilecount mem stack (base + size) fuel (wadd base 8) 0 with
          | none => []
          | some n => if arTables avail n then
              arLoadRecordsReads mem avail stack' fuel (wadd base 8) (arInit base size) else []) := by
  have hreads := arLoadReads.eq_def mem avail stack stack' fuel base size
  dsimp only at hreads
  rw [if_neg hmagic, arCheckMagic_of_ne hmagic, arInit_stop, wadd_of_lt hfits] at hreads
  exact hreads

/-- **What `ar_load` reads** lies in the buffer, if and only if the magic number and the records do,
as far as they are come to. -/
theorem arLoadReads_inside (hbuf : ArBuffer base size) :
    (∀ fuel, ∀ x ∈ arLoadReads mem avail stack stack' fuel base size, x.Inside base size) ↔
      ArMagicInside mem base size ∧
      (arCheckMagic mem base ≠ 0 → ∀ q, ArMeets mem stack (base + size) (wadd base 8) q →
        q < base + size → ArHdrInside base size q ∧ ArSizeEnds mem q) ∧
      ∀ c, ArLoads mem avail stack stack' base size c → c.p < base + size →
        ArRecordInside mem avail stack' base size c := by
  have hfits := hbuf.fits
  by_cases hmagic : arCheckMagic mem base = 0
  · have hreads : ∀ fuel, arLoadReads mem avail stack stack' fuel base size =
        arCheckMagicReads mem base := fun fuel => by
      rw [arLoadReads, if_pos hmagic, List.append_nil]
    simp only [hreads, arCheckMagicReads_inside hbuf]
    refine ⟨fun h => ⟨h 0, fun hne => absurd hmagic hne, fun c hc => absurd hmagic hc.1⟩,
      fun h _ => h.1⟩
  simp only [arLoadReads_of_magic hmagic hfits, inside_append, arCheckMagicReads_inside hbuf]
  rw [forall_and, forall_and, forall_const]
  refine and_congr_right fun _ => and_congr ?_ ⟨?_, ?_⟩
  · rw [forall_prop_of_true hmagic]
    exact arGetFilecountReads_inside hbuf
  · rintro h c ⟨-, ⟨n, hn, htables⟩, hreach⟩ hc
    refine (arLoadRecordsReads_inside (a := arInit base size) hbuf rfl rfl).mp ?_ c hreach hc
    intro fuel x hx
    -- in so many rounds both passes are done
    obtain ⟨fuel', hcount⟩ := hn.counts 0
    have hall := h (max fuel fuel') x
    rw [arGetFilecount_mono hcount (Nat.le_max_right _ _), Nat.zero_add] at hall
    dsimp only at hall
    rw [if_pos htables] at hall
    exact hall (arLoadRecordsReads_mono hx (Nat.le_max_left _ _))
  · intro h fuel x hx
    split at hx
    case h_1 => cases hx
    case h_2 n hcount =>
    split at hx
    case isFalse => cases hx
    case isTrue htables =>
    obtain ⟨m, hm, hn⟩ := arGetFilecount_files hcount
    rw [Nat.zero_add] at hn
    subst hn
    exact (arLoadRecordsReads_inside (a := arInit base size) hbuf rfl rfl).mpr
      (fun c hreach => h c ⟨hmagic, ⟨n, hm, htables⟩, hreach⟩) fuel x hx

/-- **Where `ar_load` succeeds**, both passes have been made, and the second has come to the end. -/
theorem arLoad_succeeds (hfits : base + size < 2 ^ 32) {fuel : Nat}
    (h : arLoad mem avail stack stack' fuel base size = some (0, a)) :
    (arCheckMagic mem base ≠ 0 ∧
      ∃ n, ArFilesFrom mem stack (base + size) (wadd base 8) n ∧ arTables avail n = true) ∧
    arLoadRecords mem avail stack' fuel (wadd base 8) (arInit base size) = some (0, a) := by
  by_cases hmagic : arCheckMagic mem base = 0
  · rw [arLoad, if_pos hmagic] at h
    cases h
  obtain ⟨n, hcount⟩ := arLoad_counts hmagic h
  rw [arLoad_passes hmagic hcount] at h
  by_cases htables : arTables avail n = true
  · rw [if_pos htables] at h
    obtain ⟨m, hm, hn⟩ := arGetFilecount_files hcount
    rw [Nat.zero_add] at hn
    subst hn
    rw [wadd_of_lt hfits] at hm
    exact ⟨⟨hmagic, n, hm, htables⟩, h⟩
  · rw [if_neg htables] at h
    cases h

/-- It succeeds where the second pass comes to the end. -/
theorem ArLoads.succeeds (hfits : base + size < 2 ^ 32) {e : ArCursor}
    (h : ArLoads mem avail stack stack' base size e) (he : ¬ e.p < base + size) :
    ∃ fuel a, arLoad mem avail stack stack' fuel base size = some (0, a) := by
  obtain ⟨hmagic, ⟨n, hn, htables⟩, hreach⟩ := h
  have hstop : (arInit base size).stop = base + size := wadd_of_lt hfits
  obtain ⟨fuel, a, hload⟩ := arLoadRecords_of_reaches (a := arInit base size) (hstop ▸ hreach)
    (hstop ▸ he)
  obtain ⟨fuel', hcount⟩ := hn.counts 0
  rw [Nat.zero_add] at hcount
  refine ⟨max fuel fuel', a, ?_⟩
  rw [arLoad_passes hmagic (wadd_of_lt hfits ▸ arGetFilecount_mono hcount (Nat.le_max_right _ _)),
    if_pos htables]
  exact arLoadRecords_mono hload (Nat.le_max_left _ _)

/-- **What is recorded** lies in the buffer, if and only if it does for each record, where the
headers lie in it. -/
theorem arLoad_records_inside (hbuf : ArBuffer base size) {fuel : Nat}
    (h : arLoad mem avail stack stack' fuel base size = some (0, a))
    (hhdr : ∀ c, ArLoads mem avail stack stack' base size c → c.p < base + size →
      ArHdrInside base size c.p) :
    FilesInside base size a.files ∧ SymbolsInside base size a.nSym a.sym a.pSym ↔
      ∀ c, ArLoads mem avail stack stack' base size c → c.p < base + size →
        ArRecordKept mem stack' base size c.p := by
  have hfits := hbuf.fits
  obtain ⟨⟨hmagic, htables⟩, hload⟩ := arLoad_succeeds hfits h
  rw [files_inside_iff (a := arInit base size) hbuf rfl rfl rfl hload,
    symbols_inside_iff (a := arInit base size) hbuf rfl rfl ⟨rfl, rfl, rfl⟩ hload]
  constructor
  · rintro ⟨hfile, hsym⟩ c hc hlt
    obtain ⟨-, hend⟩ := hhdr c hc hlt
    refine ⟨fun h₁ h₂ => ?_, hsym c hc.2.2 hlt⟩
    have hin := (hfile c hc.2.2 hlt h₁ h₂).2
    rwa [wadd_of_lt (by omega)] at hin
  · intro hall
    refine ⟨fun c hreach hlt h₁ h₂ => ?_, fun c hreach hlt =>
      (hall c ⟨hmagic, htables, hreach⟩ hlt).symbols⟩
    obtain ⟨hbase, hend⟩ := hhdr c ⟨hmagic, htables, hreach⟩ hlt
    have hin := (hall c ⟨hmagic, htables, hreach⟩ hlt).file h₁ h₂
    rw [wadd_of_lt (by omega)]
    exact ⟨by omega, hin⟩

theorem ArStaysInside.bounded (hbuf : ArBuffer base size)
    (h : ArStaysInside mem avail stack stack' base size) :
    ArBounded mem avail stack stack' base size := by
  obtain ⟨hmagic, hcounted, hloaded⟩ := (arLoadReads_inside hbuf).mp h.reads
  refine ⟨hmagic, hcounted, hloaded, ?_⟩
  rintro ⟨e, he, hend⟩
  obtain ⟨fuel, a, hload⟩ := he.succeeds hbuf.fits hend
  exact (arLoad_records_inside hbuf hload fun c hc hlt => (hloaded c hc hlt).hdr).mp
    ⟨h.files fuel a hload, h.symbols fuel a hload⟩

theorem ArBounded.staysInside (hbuf : ArBuffer base size)
    (h : ArBounded mem avail stack stack' base size) :
    ArStaysInside mem avail stack stack' base size := by
  have hrecorded : ∀ fuel a, arLoad mem avail stack stack' fuel base size = some (0, a) →
      FilesInside base size a.files ∧ SymbolsInside base size a.nSym a.sym a.pSym := by
    intro fuel a hload
    refine (arLoad_records_inside hbuf hload fun c hc hlt => (h.loaded c hc hlt).hdr).mpr ?_
    obtain ⟨⟨hmagic, htables⟩, hrec⟩ := arLoad_succeeds hbuf.fits hload
    obtain ⟨e, hreach, hend⟩ := arLoadRecords_reaches hrec
    have hstop : (arInit base size).stop = base + size := wadd_of_lt hbuf.fits
    rw [hstop] at hreach hend
    exact h.kept ⟨e, ⟨hmagic, htables, hreach⟩, hend⟩
  exact ⟨(arLoadReads_inside hbuf).mpr ⟨h.magic, h.counted, h.loaded⟩,
    fun fuel a hload => (hrecorded fuel a hload).1, fun fuel a hload => (hrecorded fuel a hload).2⟩

/-- **`ar_load` stays in the buffer**, and so does what it records, if and only if the archive is
bounded. -/
theorem ar_load_inside_iff (hbuf : ArBuffer base size) :
    ArStaysInside mem avail stack stack' base size ↔ ArBounded mem avail stack stack' base size :=
  ⟨fun h => h.bounded hbuf, fun h => h.staysInside hbuf⟩

end Load

/-- The archive of one file, of two bytes, is bounded. -/
theorem arOneFile_bounded :
    ArBounded (memOf 0x1000 arOneFile) (fun _ => true) [] [] 0x1000 70 := by
  have hstep : ArTakes (memOf 0x1000 arOneFile) (fun _ => true) [] (0x1000 + 70) ⟨0x1008, 0, 0⟩
      ⟨arNext (memOf 0x1000 arOneFile) [] 0x1008, 0, 0⟩ :=
    .file (by decide) (by decide) (by decide) (by decide)
  have hnext : arNext (memOf 0x1000 arOneFile) [] 0x1008 = 0x1046 := by decide
  have hsize : ArSizeEnds (memOf 0x1000 arOneFile) 0x1008 := by
    rw [ArSizeEnds]
    decide
  have hstr : isStrTbl (arReadHdr (memOf 0x1000 arOneFile) 0x1008) = false := by decide
  have hsym : isSymTbl (arReadHdr (memOf 0x1000 arOneFile) 0x1008) ≠ true := by decide
  -- the second pass comes to the file, and to the end
  have hcursors : ∀ c, ArLoads (memOf 0x1000 arOneFile) (fun _ => true) [] [] 0x1000 70 c →
      c = ⟨0x1008, 0, 0⟩ ∨ c = ⟨0x1046, 0, 0⟩ := by
    rintro c ⟨-, -, hreach⟩
    rcases hreach.cases_head with rfl | ⟨d, hd, hreach⟩
    · exact .inl rfl
    have hd' : d = ⟨0x1046, 0, 0⟩ := by rw [hd.unique hstep, hnext]
    rw [hd'] at hreach
    rcases hreach.cases_head with rfl | ⟨e, he, -⟩
    · exact .inr rfl
    · exact absurd he.lt (by decide)
  have hrecord : ∀ {P : ArCursor → Prop}, P ⟨0x1008, 0, 0⟩ →
      ∀ c, ArLoads (memOf 0x1000 arOneFile) (fun _ => true) [] [] 0x1000 70 c →
        c.p < 0x1000 + 70 → P c := by
    intro P hP c hc hlt
    rcases hcursors c hc with rfl | rfl
    · exact hP
    · exact absurd hlt (by decide)
  refine ⟨.inl (by decide), fun _ q hq hlt => ?_, hrecord ?_, fun _ => hrecord ?_⟩
  · have hin : q ∈ [0x1008, 0x1046] := hq.mem_of_closed (by decide) (by decide)
    rcases List.mem_pair.mp hin with rfl | rfl
    · exact ⟨⟨by decide, by decide⟩, hsize⟩
    · exact absurd hlt (by decide)
  · have hname : arNameAt (memOf 0x1000 arOneFile) ⟨0x1008, 0, 0⟩ = 0x1008 := by decide
    refine ⟨⟨by decide, by decide⟩, fun _ _ => hsize, fun h => absurd h hsym, fun _ _ => ?_⟩
    refine ⟨fun h => absurd h (by decide), ?_, 1, ?_⟩
    · rw [hname]
      decide
    · rw [hname]
      exact ⟨by decide, .inl (by decide)⟩
  · exact ⟨fun _ _ => by decide, fun h => absurd h hsym⟩

theorem ar_load_inside_iff_one :
    ArStaysInside (memOf 0x1000 arOneFile) (fun _ => true) [] [] 0x1000 70 :=
  (ar_load_inside_iff ⟨by decide, by decide⟩).mpr arOneFile_bounded

/-- The magic number and the first byte of a header. -/
def arTruncated : List UInt8 := arMag ++ [97]

/-- **A header is read beyond the end of the buffer.** -/
theorem ar_load_reads_beyond : ¬ ∀ (mem : Nat → UInt8) (avail : Nat → Bool)
    (stack stack' : List UInt8) (base size : Nat), ArBuffer base size →
      ArStaysInside mem avail stack stack' base size := by
  intro h
  have hbuf : ArBuffer 0x1000 9 := ⟨by decide, by decide⟩
  have hbounded := (h (memOf 0x1000 arTruncated) (fun _ => true) [] [] 0x1000 9 hbuf).bounded hbuf
  obtain ⟨hhdr, -⟩ := hbounded.counted (by decide) (wadd 0x1000 8) .start (by decide)
  exact absurd hhdr.2 (by decide)

/-- The header of a file, without its data. -/
def arNoData : List UInt8 := arMag ++ (arSampleRecord [97, 47] [57, 57] []).bytes

/-- A table of two symbols in which no name ends, and a file. -/
def arOneName : List UInt8 :=
  arMag ++ (arSampleRecord [47] [49, 52] ([0, 0, 0, 2] ++ [0, 0, 0, 0] ++ [0, 0, 0, 0] ++
    [102, 103])).bytes ++ (arSampleRecord [97, 47] [48] []).bytes

/-- **A member is recorded that does not lie in the buffer, and an entry for a symbol is left as it
is.** -/
theorem ar_load_records_beyond :
    (∃ a, arLoad (memOf 0x1000 arNoData) (fun _ => true) [] [] 3 0x1000 68 = some (0, a) ∧
      ¬ FilesInside 0x1000 68 a.files) ∧
    ∃ a, arLoad (memOf 0x1000 arOneName) (fun _ => true) [] [] 4 0x1000 142 = some (0, a) ∧
      ¬ SymbolsInside 0x1000 142 a.nSym a.sym a.pSym := by
  constructor
  · have hload : (arLoad (memOf 0x1000 arNoData) (fun _ => true) [] [] 3 0x1000 68).map
        (fun r => (r.1, r.2.files.map fun f => (f.pFile, f.filesz))) =
        some (0, [(0x1044, 99)]) := by decide
    obtain ⟨⟨r, a⟩, hsome, hfiles⟩ := Option.map_eq_some_iff.mp hload
    obtain ⟨rfl, hfiles⟩ := Prod.mk.inj hfiles
    refine ⟨a, hsome, fun h => ?_⟩
    have hmem : (0x1044, 99) ∈ a.files.map fun f => (f.pFile, f.filesz) := by
      rw [hfiles]
      exact List.mem_singleton.mpr rfl
    obtain ⟨f, hf, heq⟩ := List.mem_map.mp hmem
    obtain ⟨hp, hsz⟩ := Prod.mk.inj heq
    have hend := (h f hf).2
    omega
  · have hload : (arLoad (memOf 0x1000 arOneName) (fun _ => true) [] [] 4 0x1000 142).map
        (fun r => (r.1, r.2.nSym, r.2.sym.length)) = some (0, 2, 1) := by decide
    obtain ⟨⟨r, a⟩, hsome, heq⟩ := Option.map_eq_some_iff.mp hload
    obtain ⟨rfl, hn, hlen⟩ : r = 0 ∧ a.nSym = 2 ∧ a.sym.length = 1 := by simpa using heq
    refine ⟨a, hsome, fun h => ?_⟩
    have hall := h.1.1
    omega

end FlightOs
