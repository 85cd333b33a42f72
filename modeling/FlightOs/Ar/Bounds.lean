/-
# What a record lets the reader read

`ar_load` (`lib/ar.c`) checks where a symbol table ends, and where a name in the string table
begins.  It does not check that

* a header, or the magic number, lies in the buffer as a whole, and a number in it ends there;
* the count of the symbols and their offsets lie in the symbol table, and the names behind them;
* the name of a file ends in the buffer.

`arRecordReads_inside`: what is read of a record lies in the buffer, if and only if all of this does.
-/
import FlightOs.Ar.Reads

namespace FlightOs

open Relation

/-! ## 1. The buffer -/

/-- A buffer: it does not begin at the null pointer, and its end is an address. -/
structure ArBuffer (base size : Nat) : Prop where
  nonnull : 0 < base
  fits : base + size < 2 ^ 32

/-- An address in the buffer. -/
def InBuffer (base size x : Nat) : Prop := base ≤ x ∧ x < base + size

instance decidableInBuffer (base size x : Nat) : Decidable (InBuffer base size x) :=
  inferInstanceAs (Decidable (_ ∧ _))

/-- The byte lies in the buffer, or in the copy of the header. -/
def ArRead.Inside (base size : Nat) : ArRead → Prop
  | .mem x => InBuffer base size x
  | .hdr i => i < sizeofArHdr

/-! ## 2. What a record has to meet -/

/-- The magic number, or a byte in which it differs, lies in the buffer. -/
def ArMagicInside (mem : Nat → UInt8) (base size : Nat) : Prop :=
  arMag.length ≤ size ∨ ∃ i < arMag.length, i < size ∧ arMag[i]? ≠ some (mem (base + i))

/-- The header at `q` lies in the buffer. -/
def ArHdrInside (base size q : Nat) : Prop := base ≤ q ∧ q + sizeofArHdr ≤ base + size

/-- The size ends in the header. -/
def ArSizeEnds (mem : Nat → UInt8) (q : Nat) : Prop :=
  strtolReads ((arReadHdr mem q).drop 48) ≤ 12

/-- Where the name of a file begins. -/
def arNameAt (mem : Nat → UInt8) (c : ArCursor) : Nat :=
  if mem c.p = 47 then wadd c.arStr (strtol ((arReadHdr mem c.p).drop 1)) else c.p

/-- The name of a file lies in the buffer, and so does what ends it. -/
structure ArNameInside (mem : Nat → UInt8) (base size : Nat) (c : ArCursor) : Prop where
  number : mem c.p = 47 → strtolReads ((arReadHdr mem c.p).drop 1) ≤ 59
  start : base ≤ arNameAt mem c
  ends : ∃ k, arNameAt mem c + k < base + size ∧
    (mem (arNameAt mem c + k) = 47 ∨ mem (arNameAt mem c + k) = 0)

/-- The number of symbols in the table at `q`. -/
def arSymCount (mem : Nat → UInt8) (q : Nat) : Nat := memWord mem (wadd q sizeofArHdr)

/-- Where the names of the symbols begin. -/
def arSymNames (mem : Nat → UInt8) (q : Nat) : Nat :=
  wadd (wadd (wadd q sizeofArHdr) 4) (arSymCount mem q * 4)

/-- `strsize`, the size of the section of the names. -/
def arStrsize (mem : Nat → UInt8) (stack : List UInt8) (q : Nat) : Nat :=
  wsub (wsub (arGetEntrySize stack (arReadHdr mem q)) 4) (arSymCount mem q * 4)

/-- How many null bytes there are behind `p`, from `i` up to `k`. -/
def nullsIn (mem : Nat → UInt8) (p i k : Nat) : Nat :=
  (List.range' i (k - i)).countP fun t => mem (wadd p t) == 0

/-- The count, the offsets and the names of the symbol table at `q` lie in the buffer, the names as
far as ends of names are looked for. -/
structure ArSymtabInside (mem : Nat → UInt8) (avail : Nat → Bool) (stack : List UInt8)
    (base size q : Nat) : Prop where
  count : q + sizeofArHdr + 4 ≤ base + size
  offsets : arSymCount mem q ≠ 0 → arKmalloc avail 4 (arSymCount mem q * 4) = true →
    wadd (wadd q sizeofArHdr) 4 % 4 = 0 →
      q + sizeofArHdr + 4 + arSymCount mem q * 4 ≤ base + size
  names : arSymCount mem q ≠ 0 → arKmalloc avail 4 (arSymCount mem q * 4) = true →
    wadd (wadd q sizeofArHdr) 4 % 4 = 0 → arKmalloc avail 5 (arSymCount mem q * 4) = true →
      ∀ i, 1 ≤ i → i < arStrsize mem stack q →
        1 + nullsIn mem (arSymNames mem q) 1 i < arSymCount mem q →
          arSymNames mem q + i < base + size

/-- **The record at `c`**, as far as the second pass reads it, lies in the buffer. -/
structure ArRecordInside (mem : Nat → UInt8) (avail : Nat → Bool) (stack : List UInt8)
    (base size : Nat) (c : ArCursor) : Prop where
  hdr : ArHdrInside base size c.p
  number : (isStrTbl (arReadHdr mem c.p) = true → c.arStr = 0) →
    (isSymTbl (arReadHdr mem c.p) = true → c.nSym = 0) → ArSizeEnds mem c.p
  symtab : isSymTbl (arReadHdr mem c.p) = true → c.nSym = 0 →
    ¬ base + size < arNext mem stack c.p → ArSymtabInside mem avail stack base size c.p
  name : isStrTbl (arReadHdr mem c.p) = false → isSymTbl (arReadHdr mem c.p) = false →
    ArNameInside mem base size c

/-! ## 3. What the parts read -/

section Parts

variable {mem : Nat → UInt8} {avail : Nat → Bool} {stack stack' : List UInt8}
  {base size p q n : Nat} {c : ArCursor}

theorem inside_append {xs ys : List ArRead} : (∀ x ∈ xs ++ ys, x.Inside base size) ↔
    (∀ x ∈ xs, x.Inside base size) ∧ ∀ x ∈ ys, x.Inside base size :=
  List.forall_mem_append

theorem inside_map {ns : List Nat} :
    (∀ x ∈ ns.map .mem, ArRead.Inside base size x) ↔ ∀ x ∈ ns, InBuffer base size x :=
  List.forall_mem_map

/-- Bytes from the buffer on: the first byte behind the buffer is not among them. -/
theorem byteAddrs_inside (hbuf : ArBuffer base size) (hp : base ≤ p) (hend : p ≤ base + size) :
    (∀ x ∈ byteAddrs p n, InBuffer base size x) ↔ p + n ≤ base + size := by
  have hfits := hbuf.fits
  constructor
  · intro h
    by_contra hlt
    have hmem : wadd p (base + size - p) ∈ byteAddrs p n :=
      List.mem_map_of_mem (List.mem_range.mpr (by omega))
    have hin := (h _ hmem).2
    rw [wadd_of_lt (by omega)] at hin
    omega
  · intro h x hx
    obtain ⟨i, hi, rfl⟩ := List.mem_map.mp hx
    have hi := List.mem_range.mp hi
    rw [wadd_of_lt (by omega)]
    exact ⟨by omega, by omega⟩

/-- The header of a record before the end. -/
theorem arReadHdrReads_inside (hbuf : ArBuffer base size) (hq : q < base + size) :
    (∀ x ∈ arReadHdrReads q, x.Inside base size) ↔ ArHdrInside base size q := by
  have hfits := hbuf.fits
  rw [arReadHdrReads, inside_map]
  constructor
  · intro h
    have hfirst := h (wadd q 0) (List.mem_map_of_mem (List.mem_range.mpr (by decide)))
    rw [wadd_zero (by omega)] at hfirst
    exact ⟨hfirst.1, (byteAddrs_inside hbuf hfirst.1 (Nat.le_of_lt hq)).mp h⟩
  · rintro ⟨hbase, hend⟩
    exact (byteAddrs_inside hbuf hbase (Nat.le_of_lt hq)).mpr hend

/-- A number at `i` in a header is read to its end. -/
theorem arNumberReads_inside {hdr : List UInt8} (hlen : hdr.length = sizeofArHdr) {i : Nat}
    (hi : i ≤ sizeofArHdr) : (∀ x ∈ arNumberReads stack hdr i, x.Inside base size) ↔
      strtolReads (hdr.drop i) ≤ sizeofArHdr - i := by
  have hdrop : (hdr.drop i).length = sizeofArHdr - i := by rw [List.length_drop, hlen]
  have hends : strtolReads (hdr.drop i ++ stack) ≤ (hdr.drop i).length ↔ _ := strtolReads_append
  rw [← hdrop, ← hends, arNumberReads, List.forall_mem_map, hdrop]
  constructor
  · intro h
    by_contra hlt
    have hin : i + (sizeofArHdr - i) < sizeofArHdr :=
      h (sizeofArHdr - i) (List.mem_range.mpr (by omega))
    omega
  · intro h k hk
    have hk := List.mem_range.mp hk
    have hin : i + k < sizeofArHdr := by omega
    exact hin

theorem length_arReadHdr : (arReadHdr mem q).length = sizeofArHdr := by
  rw [arReadHdr, List.length_map, List.length_range]

theorem arGetEntrySizeReads_inside :
    (∀ x ∈ arGetEntrySizeReads stack (arReadHdr mem q), x.Inside base size) ↔ ArSizeEnds mem q :=
  arNumberReads_inside length_arReadHdr (by decide)

/-- The comparison with the magic number. -/
theorem strncmpReads_inside (hbuf : ArBuffer base size) {l : List UInt8} (hp : base ≤ p)
    (hend : p ≤ base + size) : (∀ x ∈ strncmpReads mem p l, InBuffer base size x) ↔
      p + l.length ≤ base + size ∨
        ∃ i < l.length, p + i < base + size ∧ l[i]? ≠ some (mem (p + i)) := by
  have hfits := hbuf.fits
  induction l generalizing p with
  | nil => simpa [strncmpReads] using hend
  | cons a l ih =>
    rw [strncmpReads, List.forall_mem_cons]
    by_cases hlt : p < base + size
    case neg =>
      refine iff_of_false (fun h => hlt h.1.2) ?_
      rintro (hle | ⟨i, -, hi, -⟩)
      · rw [List.length_cons] at hle
        omega
      · omega
    rw [and_iff_right ⟨hp, hlt⟩]
    by_cases ha : mem p = a
    case neg =>
      rw [if_neg ha]
      refine iff_of_true (fun x hx => by cases hx) (.inr ⟨0, Nat.succ_pos _, hlt, ?_⟩)
      exact fun heq => ha (Option.some.inj heq).symm
    have hrest : _ ↔ _ := ih (p := p + 1) (by omega) (by omega)
    rw [if_pos ha, wadd_of_lt (by omega), hrest, List.length_cons]
    refine or_congr (by omega) ⟨?_, ?_⟩
    · rintro ⟨i, hi, hin, hne⟩
      refine ⟨i + 1, Nat.succ_lt_succ hi, by omega, ?_⟩
      rwa [List.getElem?_cons_succ, ← Nat.add_assoc, Nat.add_right_comm]
    · rintro ⟨i, hi, hin, hne⟩
      cases i with
      | zero => exact absurd (congrArg some ha.symm) hne
      | succ i =>
        refine ⟨i, Nat.lt_of_succ_lt_succ hi, by omega, ?_⟩
        rwa [List.getElem?_cons_succ, ← Nat.add_assoc, Nat.add_right_comm] at hne

theorem arCheckMagicReads_inside (hbuf : ArBuffer base size) :
    (∀ x ∈ arCheckMagicReads mem base, x.Inside base size) ↔ ArMagicInside mem base size := by
  rw [arCheckMagicReads, inside_map,
    strncmpReads_inside hbuf (Nat.le_refl _) (Nat.le_add_right _ _), ArMagicInside]
  simp only [Nat.add_le_add_iff_left, Nat.add_lt_add_iff_left]

/-- The search for the end of a name, which starts in the buffer or at its end. -/
theorem strchrReads_inside (hbuf : ArBuffer base size) {a : UInt8} (hp : base ≤ p)
    (hend : p ≤ base + size) (hn : base + size - p < n) :
    (∀ x ∈ strchrReads mem a n p, InBuffer base size x) ↔
      ∃ k, p + k < base + size ∧ (mem (p + k) = a ∨ mem (p + k) = 0) := by
  have hfits := hbuf.fits
  induction n generalizing p with
  | zero => omega
  | succ n ih =>
    rw [strchrReads, List.forall_mem_cons]
    by_cases hlt : p < base + size
    case neg =>
      refine iff_of_false (fun h => hlt h.1.2) ?_
      rintro ⟨k, hk, -⟩
      omega
    rw [and_iff_right ⟨hp, hlt⟩]
    by_cases ha : mem p = a
    · rw [if_pos ha]
      exact iff_of_true (fun x hx => by cases hx) ⟨0, hlt, .inl ha⟩
    by_cases h0 : mem p = 0
    · rw [if_neg ha, if_pos h0]
      exact iff_of_true (fun x hx => by cases hx) ⟨0, hlt, .inr h0⟩
    have hrest : _ ↔ _ := ih (p := p + 1) (by omega) (by omega) (by omega)
    rw [if_neg ha, if_neg h0, wadd_of_lt (by omega), hrest]
    constructor
    · rintro ⟨k, hk, hterm⟩
      rw [Nat.add_assoc, Nat.add_comm 1] at hk hterm
      exact ⟨k + 1, hk, hterm⟩
    · rintro ⟨k, hk, hterm⟩
      cases k with
      | zero => exact absurd hterm (not_or.mpr ⟨ha, h0⟩)
      | succ k =>
        refine ⟨k, by omega, ?_⟩
        rwa [Nat.add_assoc, Nat.add_comm 1]

/-! ## 4. The names of the symbols -/

theorem nullsIn_of_le {i k : Nat} (h : k ≤ i) : nullsIn mem p i k = 0 := by
  rw [nullsIn, Nat.sub_eq_zero_of_le h]
  rfl

theorem nullsIn_step {i k : Nat} (h : i < k) : nullsIn mem p i k =
    (if mem (wadd p i) = 0 then 1 else 0) + nullsIn mem p (i + 1) k := by
  have hsub : k - i = (k - (i + 1)) + 1 := by omega
  rw [nullsIn, hsub, List.range'_succ, List.countP_cons, Nat.add_comm, nullsIn]
  simp only [beq_iff_eq]

theorem nullsIn_mono {i k k' : Nat} (h : k ≤ k') : nullsIn mem p i k ≤ nullsIn mem p i k' := by
  have hsplit : k' - i = (k - i) + ((k' - i) - (k - i)) := by omega
  rw [nullsIn, nullsIn, hsplit, ← List.range'_append_1, List.countP_append]
  exact Nat.le_add_right _ _

variable {strsize nSym fuel i j x : Nat}

/-- The loop looks at a character as long as not all names have been found. -/
theorem mem_arSymLoopReads (hfuel : strsize ≤ i + fuel) :
    x ∈ arSymLoopReads mem p strsize nSym fuel i j ↔
      ∃ k, i ≤ k ∧ k < strsize ∧ j + nullsIn mem p i k < nSym ∧ x = wadd p k := by
  induction fuel generalizing i j with
  | zero =>
    refine iff_of_false (fun h => by cases h) ?_
    rintro ⟨k, hik, hk, -⟩
    omega
  | succ fuel ih =>
    rw [arSymLoopReads]
    by_cases hround : i < strsize ∧ j < nSym
    case neg =>
      rw [if_neg hround]
      refine iff_of_false (fun h => by cases h) ?_
      rintro ⟨k, hik, hk, hj, -⟩
      omega
    rw [if_pos hround, List.mem_cons]
    have hrest : x ∈ (if mem (wadd p i) = 0 then arSymLoopReads mem p strsize nSym fuel (i + 1) (j + 1)
        else arSymLoopReads mem p strsize nSym fuel (i + 1) j) ↔
        ∃ k, i < k ∧ k < strsize ∧ j + nullsIn mem p i k < nSym ∧ x = wadd p k := by
      by_cases hnull : mem (wadd p i) = 0
      · rw [if_pos hnull, ih (by omega)]
        refine exists_congr fun k => and_congr_right fun hk => ?_
        rw [nullsIn_step hk, if_pos hnull, Nat.add_assoc]
      · rw [if_neg hnull, ih (by omega)]
        refine exists_congr fun k => and_congr_right fun hk => ?_
        rw [nullsIn_step hk, if_neg hnull, Nat.zero_add]
    rw [hrest]
    constructor
    · rintro (rfl | ⟨k, hik, hk⟩)
      · exact ⟨i, Nat.le_refl _, hround.1, by rw [nullsIn_of_le (Nat.le_refl _)]; exact hround.2, rfl⟩
      · exact ⟨k, Nat.le_of_lt hik, hk⟩
    · rintro ⟨k, hik, hk⟩
      rcases Nat.eq_or_lt_of_le hik with rfl | hlt
      · exact .inl hk.2.2
      · exact .inr ⟨k, hlt, hk⟩

/-- A name starts behind each null byte that is found. -/
theorem mem_arSymLoop (hfuel : strsize ≤ i + fuel) :
    x ∈ arSymLoop mem p strsize nSym fuel i j ↔
      ∃ k, i ≤ k ∧ k < strsize ∧ j + nullsIn mem p i k < nSym ∧ mem (wadd p k) = 0 ∧
        x = wadd p (k + 1) := by
  induction fuel generalizing i j with
  | zero =>
    refine iff_of_false (fun h => by cases h) ?_
    rintro ⟨k, hik, hk, -⟩
    omega
  | succ fuel ih =>
    rw [arSymLoop]
    by_cases hround : i < strsize ∧ j < nSym
    case neg =>
      rw [if_neg hround]
      refine iff_of_false (fun h => by cases h) ?_
      rintro ⟨k, hik, hk, hj, -⟩
      omega
    rw [if_pos hround]
    by_cases hnull : mem (wadd p i) = 0
    · rw [if_pos hnull, List.mem_cons, ih (by omega)]
      constructor
      · rintro (rfl | ⟨k, hik, hk, hj, hx⟩)
        · refine ⟨i, Nat.le_refl _, hround.1, ?_, hnull, rfl⟩
          rw [nullsIn_of_le (Nat.le_refl _)]
          exact hround.2
        · refine ⟨k, Nat.le_of_succ_le hik, hk, ?_, hx⟩
          rwa [nullsIn_step hik, if_pos hnull, ← Nat.add_assoc]
      · rintro ⟨k, hik, hk, hj, hx⟩
        rcases Nat.eq_or_lt_of_le hik with rfl | hlt
        · exact .inl hx.2
        · refine .inr ⟨k, hlt, hk, ?_, hx⟩
          rwa [nullsIn_step hlt, if_pos hnull, ← Nat.add_assoc] at hj
    · rw [if_neg hnull, ih (by omega)]
      constructor
      · rintro ⟨k, hik, hk, hj, hx⟩
        refine ⟨k, Nat.le_of_succ_le hik, hk, ?_, hx⟩
        rwa [nullsIn_step hik, if_neg hnull, Nat.zero_add]
      · rintro ⟨k, hik, hk, hj, hx⟩
        rcases Nat.eq_or_lt_of_le hik with rfl | hlt
        · exact absurd hx.1 hnull
        · refine ⟨k, hlt, hk, ?_, hx⟩
          rwa [nullsIn_step hlt, if_neg hnull, Nat.zero_add] at hj

theorem length_arSymLoop (hfuel : strsize ≤ i + fuel) :
    (arSymLoop mem p strsize nSym fuel i j).length = min (nSym - j) (nullsIn mem p i strsize) := by
  induction fuel generalizing i j with
  | zero =>
    rw [nullsIn_of_le (by omega), Nat.min_zero]
    rfl
  | succ fuel ih =>
    rw [arSymLoop]
    by_cases hi : i < strsize
    case neg =>
      rw [if_neg (fun h => hi h.1), nullsIn_of_le (by omega), Nat.min_zero]
      rfl
    by_cases hj : j < nSym
    case neg =>
      rw [if_neg (fun h => hj h.2), List.length_nil]
      omega
    rw [if_pos ⟨hi, hj⟩, nullsIn_step hi]
    by_cases hnull : mem (wadd p i) = 0
    · rw [if_pos hnull, if_pos hnull, List.length_cons, ih (by omega)]
      omega
    · rw [if_neg hnull, if_neg hnull, ih (by omega), Nat.zero_add]

/-- The characters that are looked at lie in the buffer.  The first one that does not would be the
one behind its end. -/
theorem arSymLoopReads_inside (hbuf : ArBuffer base size) (hp : base ≤ p) (hend : p ≤ base + size) :
    (∀ x ∈ arSymLoopReads mem p strsize nSym strsize 1 1, InBuffer base size x) ↔
      ∀ k, 1 ≤ k → k < strsize → 1 + nullsIn mem p 1 k < nSym → p + k < base + size := by
  have hfits := hbuf.fits
  have hnonnull := hbuf.nonnull
  constructor
  · intro h k h1 hk hj
    by_contra hlt
    -- where the end has been passed, it has been read
    have hread : ∀ k', 1 ≤ k' → k' ≤ k → InBuffer base size (wadd p k') := by
      intro k' h1' hle
      have hmono : nullsIn mem p 1 k' ≤ nullsIn mem p 1 k := nullsIn_mono hle
      exact h _ ((mem_arSymLoopReads (Nat.le_add_left _ _)).mpr
        ⟨k', h1', Nat.lt_of_le_of_lt hle hk, by omega, rfl⟩)
    by_cases hp' : p < base + size
    · have hin := (hread (base + size - p) (by omega) (by omega)).2
      rw [wadd_of_lt (by omega)] at hin
      omega
    · have hin := hread 1 (Nat.le_refl 1) h1
      have hwadd : wadd p 1 = p + 1 ∨ wadd p 1 = 0 := by
        unfold wadd
        omega
      have hlow := hin.1
      have hhigh := hin.2
      omega
  · intro h x hx
    obtain ⟨k, h1, hk, hj, rfl⟩ := (mem_arSymLoopReads (Nat.le_add_left _ _)).mp hx
    have hlt := h k h1 hk hj
    rw [wadd_of_lt (by omega)]
    exact ⟨by omega, hlt⟩

/-! ## 5. What a record reads -/

variable {a : Archive}

/-- The null pointer does not lie in a buffer. -/
theorem strchrReads_null (hbuf : ArBuffer base size) {b : UInt8} (hn : 0 < n) :
    ¬ ∀ x ∈ strchrReads mem b n 0, InBuffer base size x := by
  intro h
  have hnonnull := hbuf.nonnull
  cases n with
  | zero => exact absurd hn (Nat.lt_irrefl 0)
  | succ n =>
    have hfirst := (h 0 (List.mem_cons_self ..)).1
    omega

theorem wsub_wadd_hdr (hq : q < 2 ^ 32) : wsub (wadd q sizeofArHdr) sizeofArHdr = q := by
  unfold wsub wadd sizeofArHdr
  omega

/-- **A file**: its size, and the search for the end of its name. -/
theorem arProcessFileReads_inside (hbuf : ArBuffer base size) (hbase : a.arBase = base)
    (hsize : a.arSize = size) (hhdr : ArHdrInside base size q) :
    (∀ x ∈ arProcessFileReads mem stack (wadd q sizeofArHdr) a (arReadHdr mem q),
      x.Inside base size) ↔ ArSizeEnds mem q ∧ ArNameInside mem base size (a.cursor q) := by
  have hfits := hbuf.fits
  obtain ⟨hq, hend⟩ := hhdr
  rw [sizeofArHdr] at hend
  have hstop : a.stop = base + size := by rw [Archive.stop, hbase, hsize, wadd_of_lt hfits]
  have hfirst : (ArRead.mem q).Inside base size := ⟨hq, by omega⟩
  unfold arProcessFileReads
  rw [wsub_wadd_hdr (by omega)]
  dsimp only
  by_cases hslash : mem q = 47
  case neg =>
    -- the name is in the header
    have hname : arNameAt mem (a.cursor q) = q := if_neg hslash
    rw [if_neg hslash, if_neg hslash, List.cons_append, List.nil_append, List.forall_mem_cons,
      inside_append, arGetEntrySizeReads_inside, inside_map,
      strchrReads_inside hbuf hq (by omega) (by omega), and_iff_right hfirst]
    refine and_congr_right fun _ => ⟨fun h => ⟨fun h' => absurd h' hslash, ?_, ?_⟩, fun h => ?_⟩
    · rw [hname]
      exact hq
    · rw [hname]
      exact h
    · have hends := h.ends
      rwa [hname] at hends
  case pos =>
    rw [if_pos hslash, if_pos hslash, List.cons_append, List.forall_mem_cons, inside_append,
      inside_append, arGetEntrySizeReads_inside, inside_map,
      arNumberReads_inside length_arReadHdr (by decide), and_iff_right hfirst, and_left_comm]
    refine and_congr_right fun _ => ?_
    by_cases hnum : strtolReads ((arReadHdr mem q).drop 1) ≤ sizeofArHdr - 1
    case neg => exact iff_of_false (fun h => hnum h.1) fun h => hnum (h.number hslash)
    have hlen : ((arReadHdr mem q).drop 1).length = sizeofArHdr - 1 := by
      rw [List.length_drop, length_arReadHdr]
    have hname : arNameAt mem (a.cursor q) = wadd a.arStr (strtol ((arReadHdr mem q).drop 1)) :=
      if_pos hslash
    rw [arGetStrtblFilename, strtol_append (hlen ▸ hnum), ← hname, hstop, hbase, and_iff_right hnum]
    by_cases hhigh : base + size < arNameAt mem (a.cursor q)
    · rw [if_pos hhigh]
      refine iff_of_false (strchrReads_null hbuf (Nat.two_pow_pos 32)) fun h => ?_
      obtain ⟨k, hk, -⟩ := h.ends
      omega
    by_cases hlow : arNameAt mem (a.cursor q) < base
    · rw [if_neg hhigh, if_pos hlow]
      exact iff_of_false (strchrReads_null hbuf (Nat.two_pow_pos 32)) fun h => absurd hlow (Nat.not_lt.mpr h.start)
    rw [if_neg hhigh, if_neg hlow, strchrReads_inside hbuf (by omega) (by omega) (by omega)]
    exact ⟨fun h => ⟨fun _ => hnum, by omega, h⟩, fun h => h.ends⟩

/-- **A symbol table**: its size, and what it holds, unless it reaches beyond the end. -/
theorem arProcessSymTblReads_inside (hbuf : ArBuffer base size) (hbase : a.arBase = base)
    (hsize : a.arSize = size) (h0 : a.nSym = 0) (hhdr : ArHdrInside base size q) :
    (∀ x ∈ arProcessSymTblReads mem avail stack (wadd q sizeofArHdr) a (arReadHdr mem q),
      x.Inside base size) ↔ ArSizeEnds mem q ∧
        (¬ base + size < arNext mem stack q → ArSymtabInside mem avail stack base size q) := by
  have hfits := hbuf.fits
  obtain ⟨hq, hend⟩ := hhdr
  rw [sizeofArHdr] at hend
  have hstop : a.stop = base + size := by rw [Archive.stop, hbase, hsize, wadd_of_lt hfits]
  have hdata : wadd q sizeofArHdr = q + 60 := wadd_of_lt (by rw [sizeofArHdr]; omega)
  unfold arProcessSymTblReads
  rw [if_neg (not_not.mpr h0)]
  dsimp only
  rw [inside_append, arGetEntrySizeReads_inside]
  refine and_congr_right fun _ => ?_
  rw [hstop]
  by_cases hfoul : base + size < arNext mem stack q
  · have hfoul' := hfoul
    rw [arNext] at hfoul'
    rw [if_pos hfoul']
    exact iff_of_true (fun x hx => by cases hx) fun h => absurd hfoul h
  rw [forall_prop_of_true hfoul]
  rw [arNext] at hfoul
  rw [if_neg hfoul, inside_append, inside_map, hdata,
    byteAddrs_inside hbuf (by omega) (by omega)]
  by_cases hcount : q + 60 + 4 ≤ base + size
  case neg => exact iff_of_false (fun h => hcount h.1) fun h => hcount h.count
  rw [and_iff_right hcount]
  have hoffs : wadd (q + 60) 4 = q + 60 + 4 := wadd_of_lt (by omega)
  have hn : arSymCount mem q = memWord mem (q + 60) := by rw [arSymCount, hdata]
  have hst : arStrsize mem stack q =
      wsub (wsub (arGetEntrySize stack (arReadHdr mem q)) 4) (arSymCount mem q * 4) := rfl
  have hnames : arSymNames mem q = wadd (wadd (q + 60) 4) (arSymCount mem q * 4) := by
    rw [arSymNames, hdata]
  rw [← hn, ← hst, ← hnames]
  by_cases hn0 : arSymCount mem q = 0
  · rw [if_pos hn0]
    exact iff_of_true (fun x hx => by cases hx)
      ⟨hcount, fun h => absurd hn0 h, fun h => absurd hn0 h⟩
  rw [if_neg hn0]
  by_cases h4 : arKmalloc avail 4 (arSymCount mem q * 4) = false
  · rw [if_pos h4]
    exact iff_of_true (fun x hx => by cases hx)
      ⟨hcount, fun _ h => absurd (h4.symm.trans h) Bool.false_ne_true,
        fun _ h => absurd (h4.symm.trans h) Bool.false_ne_true⟩
  rw [if_neg h4]
  have h4' := Bool.eq_true_of_not_eq_false h4
  by_cases halign : wadd (q + 60) 4 % 4 ≠ 0
  · rw [if_pos halign]
    exact iff_of_true (fun x hx => by cases hx)
      ⟨hcount, fun _ _ h => absurd (hdata ▸ h) halign, fun _ _ h => absurd (hdata ▸ h) halign⟩
  rw [if_neg halign, inside_append, inside_map, hoffs,
    byteAddrs_inside hbuf (by omega) (by omega)]
  have halign' : wadd (wadd q sizeofArHdr) 4 % 4 = 0 := by rw [hdata]; exact not_not.mp halign
  by_cases hoffsets : q + 60 + 4 + arSymCount mem q * 4 ≤ base + size
  case neg => exact iff_of_false (fun h => hoffsets h.1) fun h => hoffsets (h.offsets hn0 h4' halign')
  rw [and_iff_right hoffsets]
  rw [hoffs, wadd_of_lt (by omega)] at hnames
  by_cases h5 : arKmalloc avail 5 (arSymCount mem q * 4) = false
  · rw [if_pos h5]
    exact iff_of_true (fun x hx => by cases hx) ⟨hcount, fun _ _ _ => hoffsets,
      fun _ _ _ h => absurd (h5.symm.trans h) Bool.false_ne_true⟩
  rw [if_neg h5, inside_map, arSymLoopReads_inside hbuf (by omega) (by omega)]
  have h5' := Bool.eq_true_of_not_eq_false h5
  exact ⟨fun h => ⟨hcount, fun _ _ _ => hoffsets, fun _ _ _ _ => h⟩,
    fun h => h.names hn0 h4' halign' h5'⟩

/-- **What the second pass reads of a record**. -/
theorem arRecordReads_inside (hbuf : ArBuffer base size) (hbase : a.arBase = base)
    (hsize : a.arSize = size) (hq : q < base + size) :
    (∀ x ∈ arReadHdrReads q ++
      arProcessHdrReads mem avail stack (wadd q sizeofArHdr) a (arReadHdr mem q),
        x.Inside base size) ↔ ArRecordInside mem avail stack base size (a.cursor q) := by
  rw [inside_append, arReadHdrReads_inside hbuf hq]
  by_cases hhdr : ArHdrInside base size q
  case neg => exact iff_of_false (fun h => hhdr h.1) fun h => hhdr h.hdr
  rw [and_iff_right hhdr, arProcessHdrReads]
  cases hstr : isStrTbl (arReadHdr mem q) with
  | true =>
    rw [if_pos rfl, arProcessStrtblReads]
    have hsym : isSymTbl (arReadHdr mem q) ≠ true := fun h =>
      absurd (hstr.symm.trans (isStrTbl_of_isSymTbl h)) Bool.true_eq_false.mp
    have hrecord : (a.arStr = 0 → ArSizeEnds mem q) ↔
        ArRecordInside mem avail stack base size (a.cursor q) := by
      refine ⟨fun h => ⟨hhdr, fun h0 _ => h (h0 hstr), fun h => absurd h hsym, fun h => ?_⟩,
        fun h h0 => h.number (fun _ => h0) fun h' => absurd h' hsym⟩
      exact absurd (hstr.symm.trans h) Bool.true_eq_false.mp
    rw [← hrecord]
    by_cases h0 : a.arStr = 0
    · rw [if_neg (not_not.mpr h0), arGetEntrySizeReads_inside, forall_prop_of_true h0]
    · rw [if_pos h0]
      exact iff_of_true (fun x hx => by cases hx) fun h => absurd h h0
  | false =>
    have hstr' : isStrTbl (arReadHdr mem q) ≠ true := Bool.eq_false_iff.mp hstr
    rw [if_neg Bool.false_ne_true]
    cases hsym : isSymTbl (arReadHdr mem q) with
    | true =>
      rw [if_pos rfl]
      by_cases h0 : a.nSym = 0
      · rw [arProcessSymTblReads_inside hbuf hbase hsize h0 hhdr]
        refine ⟨fun h => ⟨hhdr, fun _ _ => h.1, fun _ _ => h.2, fun _ h' => ?_⟩,
          fun h => ⟨h.number (fun h' => absurd h' hstr') fun _ => h0, h.symtab hsym h0⟩⟩
        exact absurd (hsym.symm.trans h') Bool.true_eq_false.mp
      · rw [arProcessSymTblReads, if_pos h0]
        refine iff_of_true (fun x hx => by cases hx)
          ⟨hhdr, fun _ h => absurd (h hsym) h0, fun _ h => absurd h h0, fun _ h => ?_⟩
        exact absurd (hsym.symm.trans h) Bool.true_eq_false.mp
    | false =>
      have hsym' : isSymTbl (arReadHdr mem q) ≠ true := Bool.eq_false_iff.mp hsym
      rw [if_neg Bool.false_ne_true, arProcessFileReads_inside hbuf hbase hsize hhdr]
      exact ⟨fun h => ⟨hhdr, fun _ _ => h.1, fun h' => absurd h' hsym', fun _ _ => h.2⟩,
        fun h => ⟨h.number (fun h' => absurd h' hstr') fun h' => absurd h' hsym',
          h.name hstr hsym⟩⟩

end Parts

end FlightOs
