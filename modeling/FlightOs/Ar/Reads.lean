/-
# What the reader reads

The bytes that `ar_load` (`lib/ar.c`) reads: those of the memory, and those of the copy of a header
on the stack, behind which a number in its last field may go on.

`arLoad_congr`: what the other bytes of the memory hold makes no difference.  `strtol_append`: a
number that ends in the header is read the same, whatever lies behind it.
-/
import FlightOs.Ar.Ends

namespace FlightOs

/-! ## 1. Strings -/

/-- How many characters the loop of `strtol` looks at. -/
def strtolDigitsReads (clamp : Nat) : Nat → List UInt8 → Nat
  | _, [] => 1
  | res, c :: l =>
    if isDigit c then
      let val := c.toNat - 48
      if 2 ^ 28 ≤ res ∧ (clamp - val) / 10 < res then 1
      else strtolDigitsReads clamp (res * 10 + val) l + 1
    else 1

/-- How many characters `strtol` looks at.  Behind the end of the list there is one more. -/
def strtolReads : List UInt8 → Nat
  | [] => 1
  | c :: l =>
    if isSpace c then strtolReads l + 1
    else if c = 45 then strtolDigitsReads (2 ^ 31) 0 l + 1
    else if c = 43 then strtolDigitsReads (2 ^ 31 - 1) 0 l + 1
    else strtolDigitsReads (2 ^ 32 - 1) 0 (c :: l)

/-- The addresses that `strchr` reads. -/
def strchrReads (mem : Nat → UInt8) (c : UInt8) : Nat → Nat → List Nat
  | 0, _ => []
  | n + 1, s => s :: if mem s = c then [] else if mem s = 0 then [] else strchrReads mem c n (wadd s 1)

/-- The addresses that `strncmp` reads for its first argument, where the second is `l`. -/
def strncmpReads (mem : Nat → UInt8) : Nat → List UInt8 → List Nat
  | _, [] => []
  | p, c :: l => p :: if mem p = c then strncmpReads mem (wadd p 1) l else []

/-- `n` bytes from `p` on. -/
def byteAddrs (p n : Nat) : List Nat := (List.range n).map fun i => wadd p i

section Strtol

variable {clamp res : Nat} {l l' : List UInt8}

theorem strtolDigitsReads_pos : 0 < strtolDigitsReads clamp res l := by
  cases l with
  | nil => exact Nat.one_pos
  | cons c l =>
    rw [strtolDigitsReads]
    dsimp only
    split_ifs <;> exact Nat.succ_pos _

theorem strtolDigits_append : strtolDigitsReads clamp res l ≤ l.length →
    strtolDigits clamp res (l ++ l') = strtolDigits clamp res l := by
  induction l generalizing res with
  | nil => exact fun h => absurd h (Nat.not_succ_le_zero 0)
  | cons c l ih =>
    intro h
    rw [strtolDigitsReads] at h
    rw [List.cons_append, strtolDigits, strtolDigits]
    dsimp only at h ⊢
    split_ifs at h ⊢ with hdigit hover
    · rfl
    · exact ih (Nat.le_of_succ_le_succ h)
    · rfl

theorem strtolDigitsReads_append :
    strtolDigitsReads clamp res (l ++ l') ≤ l.length ↔ strtolDigitsReads clamp res l ≤ l.length := by
  induction l generalizing res with
  | nil =>
    have hpos : 0 < strtolDigitsReads clamp res l' := strtolDigitsReads_pos
    simp only [List.nil_append, List.length_nil, strtolDigitsReads]
    omega
  | cons c l ih =>
    rw [List.cons_append, strtolDigitsReads, strtolDigitsReads]
    dsimp only
    split_ifs
    · rfl
    · rw [List.length_cons, Nat.succ_le_succ_iff, Nat.succ_le_succ_iff, ih]
    · rfl

theorem strtol_space {c : UInt8} (h : isSpace c = true) : strtol (c :: l) = strtol l := by
  rw [strtol, strtol, List.dropWhile_cons_of_pos h]

theorem strtol_digits {c : UInt8} (h : isSpace c = false) : strtol (c :: l) =
    if c = 45 then wsub 0 (strtolDigits (2 ^ 31) 0 l)
    else if c = 43 then strtolDigits (2 ^ 31 - 1) 0 l
    else strtolDigits (2 ^ 32 - 1) 0 (c :: l) := by
  rw [strtol, List.dropWhile_cons_of_neg (by simp [h])]

/-- **A number that ends in its field** does not depend on what lies behind it. -/
theorem strtol_append (h : strtolReads l ≤ l.length) : strtol (l ++ l') = strtol l := by
  induction l with
  | nil => exact absurd h (Nat.not_succ_le_zero 0)
  | cons c l ih =>
    rw [strtolReads] at h
    rw [List.cons_append]
    cases hc : isSpace c with
    | true =>
      rw [hc, if_pos rfl] at h
      rw [strtol_space hc, strtol_space hc]
      exact ih (Nat.le_of_succ_le_succ h)
    | false =>
      rw [hc, if_neg Bool.false_ne_true] at h
      rw [strtol_digits hc, strtol_digits hc]
      split_ifs at h ⊢
      · rw [strtolDigits_append (Nat.le_of_succ_le_succ h)]
      · rw [strtolDigits_append (Nat.le_of_succ_le_succ h)]
      · exact strtolDigits_append h

/-- Whether it ends there does not depend on it, either. -/
theorem strtolReads_append : strtolReads (l ++ l') ≤ l.length ↔ strtolReads l ≤ l.length := by
  induction l with
  | nil =>
    have hpos : 0 < strtolReads l' := by
      cases l' with
      | nil => exact Nat.one_pos
      | cons c l =>
        rw [strtolReads]
        split_ifs
        · exact Nat.succ_pos _
        · exact Nat.succ_pos _
        · exact Nat.succ_pos _
        · exact strtolDigitsReads_pos
    simp only [List.nil_append, List.length_nil, strtolReads]
    omega
  | cons c l ih =>
    rw [List.cons_append, strtolReads, strtolReads, List.length_cons]
    split_ifs
    · rw [Nat.succ_le_succ_iff, Nat.succ_le_succ_iff, ih]
    · rw [Nat.succ_le_succ_iff, Nat.succ_le_succ_iff, strtolDigitsReads_append]
    · rw [Nat.succ_le_succ_iff, Nat.succ_le_succ_iff, strtolDigitsReads_append]
    · exact strtolDigitsReads_append (l := c :: l)

end Strtol

/-! ## 2. The reader -/

/-- A byte that is read: of the memory, or the one so far behind the start of a copy of a header. -/
inductive ArRead
  | mem (p : Nat)
  | hdr (i : Nat)
  deriving DecidableEq, Repr

/-- The number at `i` in a header. -/
def arNumberReads (stack hdr : List UInt8) (i : Nat) : List ArRead :=
  (List.range (strtolReads (hdr.drop i ++ stack))).map fun k => .hdr (i + k)

def arCheckMagicReads (mem : Nat → UInt8) (p : Nat) : List ArRead :=
  (strncmpReads mem p arMag).map .mem

def arReadHdrReads (p : Nat) : List ArRead := (byteAddrs p sizeofArHdr).map .mem

def arGetEntrySizeReads (stack hdr : List UInt8) : List ArRead := arNumberReads stack hdr 48

/-- The loop over the symbol strings. -/
def arSymLoopReads (mem : Nat → UInt8) (p strsize nSym : Nat) : Nat → Nat → Nat → List Nat
  | 0, _, _ => []
  | n + 1, i, j =>
    if i < strsize ∧ j < nSym then
      wadd p i :: if mem (wadd p i) = 0 then arSymLoopReads mem p strsize nSym n (i + 1) (j + 1)
        else arSymLoopReads mem p strsize nSym n (i + 1) j
    else []

/-- `ar_process_sym_tbl`, with the bounds of the archive and where the pass stands. -/
def arProcessSymTblReads (mem : Nat → UInt8) (avail : Nat → Bool) (stack : List UInt8)
    (p : Nat) (a : Archive) (hdr : List UInt8) : List ArRead :=
  if a.nSym ≠ 0 then []
  else
    let recsize := arGetEntrySize stack hdr
    arGetEntrySizeReads stack hdr ++
      if a.stop < wadd p recsize then []
      else
        let nSym := memWord mem p
        (byteAddrs p 4).map .mem ++
          let p := wadd p 4
          if nSym = 0 then []
          else if arKmalloc avail 4 (nSym * 4) = false then []
          else if p % 4 ≠ 0 then []
          else
            (byteAddrs p (nSym * 4)).map .mem ++
              let p := wadd p (nSym * 4)
              let strsize := wsub (wsub recsize 4) (nSym * 4)
              if arKmalloc avail 5 (nSym * 4) = false then []
              else (arSymLoopReads mem p strsize nSym strsize 1 1).map .mem

def arProcessStrtblReads (stack : List UInt8) (a : Archive) (hdr : List UInt8) : List ArRead :=
  if a.arStr ≠ 0 then [] else arGetEntrySizeReads stack hdr

/-- `ar_process_file`, with `ar_get_strtbl_filename` -/
def arProcessFileReads (mem : Nat → UInt8) (stack : List UInt8) (p : Nat) (a : Archive)
    (hdr : List UInt8) : List ArRead :=
  let str := wsub p sizeofArHdr
  .mem str :: (if mem str = 47 then arNumberReads stack hdr 1 else []) ++
    let str := if mem str = 47 then arGetStrtblFilename stack a hdr else str
    arGetEntrySizeReads stack hdr ++ (strchrReads mem 47 (2 ^ 32) str).map .mem

/-- `ar_process_hdr`.  The two characters of the name that are compared lie in the header. -/
def arProcessHdrReads (mem : Nat → UInt8) (avail : Nat → Bool) (stack : List UInt8) (p : Nat)
    (a : Archive) (hdr : List UInt8) : List ArRead :=
  if isStrTbl hdr then arProcessStrtblReads stack a hdr
  else if isSymTbl hdr then arProcessSymTblReads mem avail stack p a hdr
  else arProcessFileReads mem stack p a hdr

/-- What the first pass reads in so many rounds. -/
def arGetFilecountReads (mem : Nat → UInt8) (stack : List UInt8) (stop : Nat) : Nat → Nat →
    List ArRead
  | 0, _ => []
  | n + 1, p =>
    if p < stop then
      let hdr := arReadHdr mem p
      arReadHdrReads p ++ arGetEntrySizeReads stack hdr ++
        arGetFilecountReads mem stack stop n (wadd (wadd p sizeofArHdr) (arGetEntrySize stack hdr))
    else []

/-- What the loop of `ar_load` reads in so many rounds. -/
def arLoadRecordsReads (mem : Nat → UInt8) (avail : Nat → Bool) (stack : List UInt8) : Nat → Nat →
    Archive → List ArRead
  | 0, _, _ => []
  | n + 1, p, a =>
    if p < a.stop then
      let hdr := arReadHdr mem p
      let r := arProcessHdr mem avail stack (wadd p sizeofArHdr) a hdr
      arReadHdrReads p ++ arProcessHdrReads mem avail stack (wadd p sizeofArHdr) a hdr ++
        if r.1 = 0 then [] else arLoadRecordsReads mem avail stack n r.1 r.2
    else []

/-- What `ar_load` reads, where each of the passes has made so many rounds, or has ended. -/
def arLoadReads (mem : Nat → UInt8) (avail : Nat → Bool) (stack stack' : List UInt8)
    (fuel p size : Nat) : List ArRead :=
  let a := arInit p size
  arCheckMagicReads mem p ++
    let p := arCheckMagic mem p
    if p = 0 then []
    else
      arGetFilecountReads mem stack a.stop fuel p ++
        match arGetFilecount mem stack a.stop fuel p 0 with
        | none => []
        | some n => if arTables avail n then arLoadRecordsReads mem avail stack' fuel p a else []

/-! ## 3. What is not read -/

/-- The two memories hold the same where something is read. -/
def SameReads (mem mem' : Nat → UInt8) (reads : List ArRead) : Prop :=
  ∀ x, .mem x ∈ reads → mem' x = mem x

section Congr

variable {mem mem' : Nat → UInt8} {avail : Nat → Bool} {stack stack' : List UInt8} {p q : Nat}
  {a : Archive} {hdr : List UInt8} {xs ys : List ArRead}

theorem sameReads_append : SameReads mem mem' (xs ++ ys) ↔
    SameReads mem mem' xs ∧ SameReads mem mem' ys := by
  simp only [SameReads, List.mem_append, or_imp, forall_and]

theorem sameReads_map {ns : List Nat} :
    SameReads mem mem' (ns.map .mem) ↔ ∀ x ∈ ns, mem' x = mem x := by
  simp [SameReads]

theorem arReadHdr_congr (h : SameReads mem mem' (arReadHdrReads p)) :
    arReadHdr mem' p = arReadHdr mem p := by
  rw [arReadHdrReads, sameReads_map] at h
  exact List.map_congr_left fun i hi => h _ (List.mem_map_of_mem hi)

theorem wadd_wadd (p i k : Nat) : wadd (wadd p i) k = wadd p (i + k) := by
  unfold wadd
  omega

theorem wadd_zero (hp : p < 2 ^ 32) : wadd p 0 = p := wadd_of_lt (by omega)

/-- A word among bytes that are read. -/
theorem memWord_congr {i n : Nat} (h : ∀ x ∈ byteAddrs p n, mem' x = mem x) (hi : i + 4 ≤ n) :
    memWord mem' (wadd p i) = memWord mem (wadd p i) := by
  have hbyte : ∀ k < 4, mem' (wadd (wadd p i) k) = mem (wadd (wadd p i) k) := by
    intro k hk
    rw [wadd_wadd]
    exact h _ (List.mem_map_of_mem (List.mem_range.mpr (by omega)))
  have hfirst := hbyte 0 (by norm_num)
  rw [wadd_zero (wadd_lt _ _)] at hfirst
  rw [memWord, memWord, hfirst, hbyte 1 (by norm_num), hbyte 2 (by norm_num), hbyte 3 (by norm_num)]

theorem strncmpReads_congr {l : List UInt8} (hp : p < 2 ^ 32)
    (h : ∀ x ∈ strncmpReads mem p l, mem' x = mem x) :
    (List.range l.length).map (fun i => mem' (wadd p i)) = l ↔
      (List.range l.length).map (fun i => mem (wadd p i)) = l := by
  induction l generalizing p with
  | nil => rfl
  | cons c l ih =>
    have hshift : ∀ f : Nat → UInt8, (List.range (c :: l).length).map (fun i => f (wadd p i)) =
        f p :: (List.range l.length).map (fun i => f (wadd (wadd p 1) i)) := by
      intro f
      rw [List.length_cons, List.range_succ_eq_map, List.map_cons, List.map_map, wadd_zero hp]
      simp only [Function.comp_def, wadd_wadd, Nat.add_comm, Nat.succ_eq_add_one]
    rw [strncmpReads] at h
    rw [hshift, hshift, List.cons.injEq, List.cons.injEq, h p (List.mem_cons_self ..)]
    refine and_congr_right fun hc => ?_
    rw [if_pos hc] at h
    exact ih (wadd_lt _ _) fun x hx => h x (List.mem_cons_of_mem _ hx)

theorem arCheckMagic_congr (hp : p < 2 ^ 32) (h : SameReads mem mem' (arCheckMagicReads mem p)) :
    arCheckMagic mem' p = arCheckMagic mem p := by
  have hiff := strncmpReads_congr hp (sameReads_map.mp h)
  exact if_congr hiff rfl rfl

theorem strchr_congr {c : UInt8} {n : Nat} (h : ∀ x ∈ strchrReads mem c n p, mem' x = mem x) :
    strchr mem' c n p = strchr mem c n p := by
  induction n generalizing p with
  | zero => rfl
  | succ n ih =>
    rw [strchrReads] at h
    rw [strchr, strchr, h p (List.mem_cons_self ..)]
    split_ifs at h ⊢
    · rfl
    · rfl
    · exact ih fun x hx => h x (List.mem_cons_of_mem _ hx)

theorem arSymLoop_congr {strsize nSym n i j : Nat}
    (h : ∀ x ∈ arSymLoopReads mem p strsize nSym n i j, mem' x = mem x) :
    arSymLoop mem' p strsize nSym n i j = arSymLoop mem p strsize nSym n i j := by
  induction n generalizing i j with
  | zero => rfl
  | succ n ih =>
    rw [arSymLoop, arSymLoop]
    by_cases hround : i < strsize ∧ j < nSym
    case neg => rw [if_neg hround, if_neg hround]
    rw [arSymLoopReads, if_pos hround] at h
    rw [if_pos hround, if_pos hround, h _ (List.mem_cons_self ..)]
    by_cases hnull : mem (wadd p i) = 0
    · rw [if_pos hnull] at h
      rw [if_pos hnull, if_pos hnull, ih fun x hx => h x (List.mem_cons_of_mem _ hx)]
    · rw [if_neg hnull] at h
      rw [if_neg hnull, if_neg hnull, ih fun x hx => h x (List.mem_cons_of_mem _ hx)]

theorem arProcessSymTbl_congr (hp : p < 2 ^ 32)
    (h : SameReads mem mem' (arProcessSymTblReads mem avail stack p a hdr)) :
    arProcessSymTbl mem' avail stack p a hdr = arProcessSymTbl mem avail stack p a hdr := by
  unfold arProcessSymTblReads at h
  unfold arProcessSymTbl
  by_cases h0 : a.nSym ≠ 0
  · rw [if_pos h0, if_pos h0]
  rw [if_neg h0] at h ⊢
  rw [if_neg h0]
  dsimp only at h ⊢
  by_cases hfoul : a.stop < wadd p (arGetEntrySize stack hdr)
  · rw [if_pos hfoul, if_pos hfoul]
  rw [if_neg hfoul, sameReads_append, sameReads_append, sameReads_map] at h
  obtain ⟨-, hcount, h⟩ := h
  have hn := memWord_congr (i := 0) hcount (Nat.le_refl 4)
  rw [wadd_zero hp] at hn
  rw [if_neg hfoul, if_neg hfoul, hn]
  by_cases hn0 : memWord mem p = 0
  · rw [if_pos hn0, if_pos hn0]
  rw [if_neg hn0] at h ⊢
  rw [if_neg hn0]
  by_cases h4 : arKmalloc avail 4 (memWord mem p * 4) = false
  · rw [if_pos h4, if_pos h4]
  rw [if_neg h4] at h ⊢
  rw [if_neg h4]
  by_cases halign : wadd p 4 % 4 ≠ 0
  · rw [if_pos halign, if_pos halign]
  rw [if_neg halign, sameReads_append, sameReads_map] at h
  obtain ⟨hoffsets, h⟩ := h
  rw [if_neg halign, if_neg halign]
  by_cases h5 : arKmalloc avail 5 (memWord mem p * 4) = false
  · rw [if_pos h5, if_pos h5]
  rw [if_neg h5, sameReads_map] at h
  rw [if_neg h5, if_neg h5, arSymLoop_congr h]
  -- the offsets, one by one
  have hwords : (List.range (memWord mem p)).map (fun i =>
      wadd (wadd a.arBase (memWord mem' (wadd (wadd p 4) (i * 4)))) sizeofArHdr) =
      (List.range (memWord mem p)).map fun i =>
        wadd (wadd a.arBase (memWord mem (wadd (wadd p 4) (i * 4)))) sizeofArHdr := by
    refine List.map_congr_left fun i hi => ?_
    rw [memWord_congr hoffsets (by have := List.mem_range.mp hi; omega)]
  rw [hwords]

theorem arProcessFile_congr (h : SameReads mem mem' (arProcessFileReads mem stack p a hdr)) :
    arProcessFile mem' stack p a hdr = arProcessFile mem stack p a hdr := by
  unfold arProcessFileReads at h
  dsimp only at h
  rw [sameReads_append, sameReads_append, sameReads_map] at h
  obtain ⟨hfirst, -, hname⟩ := h
  unfold arProcessFile
  dsimp only
  rw [hfirst _ (List.mem_cons_self ..), strchr_congr hname]

theorem arProcessHdr_congr (hp : p < 2 ^ 32)
    (h : SameReads mem mem' (arProcessHdrReads mem avail stack p a hdr)) :
    arProcessHdr mem' avail stack p a hdr = arProcessHdr mem avail stack p a hdr := by
  unfold arProcessHdrReads at h
  unfold arProcessHdr
  split_ifs at h ⊢
  · rfl
  · exact arProcessSymTbl_congr hp h
  · exact arProcessFile_congr h

/-- **The first pass** depends on what it reads. -/
theorem arGetFilecount_congr {stop fuel cnt : Nat}
    (h : SameReads mem mem' (arGetFilecountReads mem stack stop fuel p)) :
    arGetFilecount mem' stack stop fuel p cnt = arGetFilecount mem stack stop fuel p cnt := by
  induction fuel generalizing p cnt with
  | zero => rfl
  | succ fuel ih =>
    by_cases hp : p < stop
    · rw [arGetFilecountReads, if_pos hp] at h
      dsimp only at h
      rw [sameReads_append, sameReads_append] at h
      obtain ⟨⟨hhdr, -⟩, hrest⟩ := h
      rw [arGetFilecount_step hp, arGetFilecount_step hp, arNext, arReadHdr_congr hhdr]
      exact ih hrest
    · rw [arGetFilecount, arGetFilecount, if_neg hp, if_neg hp]

/-- **The second pass** depends on what it reads. -/
theorem arLoadRecords_congr {fuel : Nat}
    (h : SameReads mem mem' (arLoadRecordsReads mem avail stack fuel p a)) :
    arLoadRecords mem' avail stack fuel p a = arLoadRecords mem avail stack fuel p a := by
  induction fuel generalizing p a with
  | zero => rfl
  | succ fuel ih =>
    rw [arLoadRecords, arLoadRecords]
    by_cases hp : p < a.stop
    case neg => rw [if_neg hp, if_neg hp]
    rw [arLoadRecordsReads, if_pos hp] at h
    dsimp only at h ⊢
    rw [sameReads_append, sameReads_append] at h
    obtain ⟨⟨hhdr, hrec⟩, hrest⟩ := h
    rw [if_pos hp, if_pos hp, arReadHdr_congr hhdr, arProcessHdr_congr (wadd_lt _ _) hrec]
    by_cases hne : (arProcessHdr mem avail stack (wadd p sizeofArHdr) a (arReadHdr mem p)).1 = 0
    · rw [if_pos hne, if_pos hne]
    · rw [if_neg hne] at hrest
      rw [if_neg hne, if_neg hne]
      exact ih hrest

/-- **`ar_load` depends on what it reads**, and on no other byte of the memory. -/
theorem arLoad_congr {fuel size : Nat} (hp : p < 2 ^ 32)
    (h : SameReads mem mem' (arLoadReads mem avail stack stack' fuel p size)) :
    arLoad mem' avail stack stack' fuel p size = arLoad mem avail stack stack' fuel p size := by
  unfold arLoadReads at h
  unfold arLoad
  dsimp only at h ⊢
  rw [sameReads_append] at h
  obtain ⟨hmagic, h⟩ := h
  rw [arCheckMagic_congr hp hmagic]
  by_cases h0 : arCheckMagic mem p = 0
  · rw [if_pos h0, if_pos h0]
  rw [if_neg h0, sameReads_append] at h
  obtain ⟨hcount, h⟩ := h
  rw [if_neg h0, if_neg h0, arGetFilecount_congr hcount]
  cases hfound : arGetFilecount mem stack (arInit p size).stop fuel (arCheckMagic mem p) 0 with
  | none => rfl
  | some n =>
    rw [hfound] at h
    dsimp only at h ⊢
    by_cases htables : arTables avail n = true
    · rw [if_pos htables] at h
      rw [if_pos htables, if_pos htables, arLoadRecords_congr h]
    · rw [if_neg htables, if_neg htables]

end Congr

end FlightOs
