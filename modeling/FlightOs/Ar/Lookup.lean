/-
# Looking up a name in an archive

`ar_find_file`, `ar_read_file` and `ar_find_symbol` (`lib/ar.c`) compare the names with `strncmp`,
over the length of the stored name.  A stored name that the search name begins with is a match.

`ar_lookup_exact_iff`: the member (symbol) found is the first one with the search name, if there is
one, if and only if none whose name is a proper prefix of it comes before.
-/
import FlightOs.Ar.Contract

namespace FlightOs

/-! ## 1. The code -/

/-- `strncmp` -/
def strncmp (mem : Nat → UInt8) (s1 s2 : Nat) : Nat → Int
  | 0 => 0
  | n + 1 =>
    let c1 := mem s1
    let c2 := mem s2
    if c1 ≠ c2 then if c1 < c2 then -1 else 1
    else if c1 = 0 then 0
    else strncmp mem (wadd s1 1) (wadd s2 1) n

/-- `strlen`; the fuel is the number of the addresses. -/
def strlen (mem : Nat → UInt8) : Nat → Nat → Nat
  | 0, _ => 0
  | n + 1, s => if mem s = 0 then 0 else strlen mem n (wadd s 1) + 1

/-- `memcpy`, which is `memmove`: the bytes are those that are at `src` before. -/
def memcpy (mem : Nat → UInt8) (dest src n : Nat) : Nat → UInt8 :=
  fun x => if wsub x dest < n then mem (wadd src (wsub x dest)) else mem x

/-- The member at which the loop of `ar_find_file` and of `ar_read_file` returns.  The tables of a
loaded archive are there, so that the checks before the loop pass. -/
def arMatchFile (mem : Nat → UInt8) (a : Archive) (name : Nat) : Option ArFile :=
  a.files.find? fun f => strncmp mem f.fname name f.fnamesz = 0

/-- `ar_find_file` -/
def arFindFile (mem : Nat → UInt8) (a : Archive) (name : Nat) : Nat :=
  match arMatchFile mem a name with
  | some f => f.pFile
  | none => 0

/-- `ar_read_file`: what it returns, and the memory. -/
def arReadFile (mem : Nat → UInt8) (a : Archive) (name ptr : Nat) : Nat × (Nat → UInt8) :=
  match arMatchFile mem a name with
  | some f => (f.filesz, if ptr ≠ 0 then memcpy mem ptr f.pFile f.filesz else mem)
  | none => (0, mem)

/-- The entries of the two tables for the symbols: a name, and where its member starts.  `stale` is
what the memory of the table of names held before, for the entries that have not been stored. -/
def arSymbols (stale : Nat → Nat) (a : Archive) : List (Nat × Nat) :=
  (List.range a.nSym).map fun i => (a.sym[i]?.getD (stale i), a.pSym[i]?.getD 0)

/-- The symbol at which the loop of `ar_find_symbol` returns. -/
def arMatchSymbol (mem : Nat → UInt8) (stale : Nat → Nat) (a : Archive) (name : Nat) :
    Option (Nat × Nat) :=
  (arSymbols stale a).find? fun s => strncmp mem s.1 name (strlen mem (2 ^ 32) s.1) = 0

/-- `ar_find_symbol` -/
def arFindSymbol (mem : Nat → UInt8) (stale : Nat → Nat) (a : Archive) (name : Nat) : Nat :=
  match arMatchSymbol mem stale a name with
  | some s => s.2
  | none => 0

/-! ## 2. Names -/

/-- The null-terminated string at `p`, cut after `n` characters. -/
def strAt (mem : Nat → UInt8) : Nat → Nat → List UInt8
  | 0, _ => []
  | n + 1, p => if mem p = 0 then [] else mem p :: strAt mem n (wadd p 1)

/-- There is a null-terminated string at `p`. -/
def IsStr (mem : Nat → UInt8) : Nat → List UInt8 → Prop
  | p, [] => mem p = 0
  | p, c :: s => mem p = c ∧ c ≠ 0 ∧ IsStr mem (wadd p 1) s

instance decidableIsStr (mem : Nat → UInt8) : ∀ p s, Decidable (IsStr mem p s)
  | p, [] => inferInstanceAs (Decidable (mem p = 0))
  | p, c :: s =>
    have := decidableIsStr mem (wadd p 1) s
    inferInstanceAs (Decidable (mem p = c ∧ c ≠ 0 ∧ IsStr mem (wadd p 1) s))

/-- The name of a member: as many characters as its size says, unless it ends before. -/
def arFullName (mem : Nat → UInt8) (f : ArFile) : List UInt8 := strAt mem f.fnamesz f.fname

/-- The name of a symbol. -/
def arSymName (mem : Nat → UInt8) (s : Nat × Nat) : List UInt8 := strAt mem (2 ^ 32) s.1

section Names

variable {mem : Nat → UInt8} {s : List UInt8} {n p q : Nat}

theorem strlen_eq : strlen mem n p = (strAt mem n p).length := by
  induction n generalizing p with
  | zero => rfl
  | succ n ih =>
    rw [strlen, strAt]
    split
    · rfl
    · rw [ih, List.length_cons]

theorem length_strAt_le : (strAt mem n p).length ≤ n := by
  induction n generalizing p with
  | zero => exact Nat.le_refl 0
  | succ n ih =>
    rw [strAt]
    split
    · exact Nat.zero_le _
    · rw [List.length_cons]
      exact Nat.succ_le_succ ih

/-- A string cut at its end is the string. -/
theorem strAt_length : strAt mem (strAt mem n p).length p = strAt mem n p := by
  induction n generalizing p with
  | zero => rfl
  | succ n ih =>
    by_cases h0 : mem p = 0
    · simp only [strAt, if_pos h0, List.length_nil]
    · have h : strAt mem (n + 1) p = mem p :: strAt mem n (wadd p 1) := if_neg h0
      rw [h, List.length_cons, strAt, if_neg h0, ih]

/-- Two strings that are compared over `n` characters are equal if their first `n` are. -/
theorem strncmp_eq_zero_iff (hs : IsStr mem q s) :
    strncmp mem p q n = 0 ↔ strAt mem n p = s.take n := by
  induction n generalizing p q s with
  | zero => simp only [strncmp, strAt, List.take_zero]
  | succ n ih =>
    cases s with
    | nil =>
      have hq : mem q = 0 := hs
      by_cases hp : mem p = 0
      · simp [strncmp, strAt, hq, hp]
      · have hlt : ¬ mem p < 0 := by simp
        simp [strncmp, strAt, hq, hp, hlt]
    | cons c s =>
      obtain ⟨hq, hc, hrest⟩ := hs
      by_cases hp : mem p = c
      · simp [strncmp, strAt, hq, hp, hc, ih hrest]
      · have hne : strncmp mem p q (n + 1) ≠ 0 := by
          rw [strncmp]
          simp only [hq, if_pos (show mem p ≠ c from hp)]
          split <;> decide
        refine iff_of_false hne ?_
        rw [strAt]
        split <;> simp [hp]

end Names

/-! ## 3. The first match -/

/-- Two searches agree if what is found by the laxer one only comes behind what is found by the
other. -/
theorem find?_eq_find?_iff {α : Type} {p q : α → Bool} (hqp : ∀ x, q x = true → p x = true) :
    ∀ {l : List α}, l.find? p = l.find? q ↔
      ∀ pre x post, l = pre ++ x :: post → p x = true → q x = false → ∃ y ∈ pre, q y = true
  | [] => by simp
  | a :: l => by
    have ih := find?_eq_find?_iff hqp (l := l)
    by_cases hq : q a = true
    · rw [List.find?_cons_of_pos (hqp a hq), List.find?_cons_of_pos hq]
      refine iff_of_true rfl fun pre x post heq hp hx => ?_
      cases pre with
      | nil =>
        obtain ⟨rfl, -⟩ := List.cons.inj heq
        rw [hq] at hx
        cases hx
      | cons b pre =>
        obtain ⟨rfl, -⟩ := List.cons.inj heq
        exact ⟨a, List.mem_cons_self .., hq⟩
    · rw [List.find?_cons_of_neg hq]
      by_cases hp : p a = true
      · rw [List.find?_cons_of_pos hp]
        refine iff_of_false (fun h => hq (List.find?_some h.symm)) fun h => ?_
        obtain ⟨y, hy, -⟩ := h [] a l rfl hp (Bool.eq_false_iff.mpr hq)
        cases hy
      · rw [List.find?_cons_of_neg hp, ih]
        constructor
        · intro h pre x post heq hpx hqx
          cases pre with
          | nil =>
            obtain ⟨rfl, -⟩ := List.cons.inj heq
            exact absurd hpx hp
          | cons b pre =>
            obtain ⟨-, rfl⟩ := List.cons.inj heq
            obtain ⟨y, hy, hqy⟩ := h pre x post rfl hpx hqx
            exact ⟨y, List.mem_cons_of_mem _ hy, hqy⟩
        · rintro h pre x post rfl hpx hqx
          obtain ⟨y, hy, hqy⟩ := h (a :: pre) x post rfl hpx hqx
          rcases List.mem_cons.mp hy with rfl | hy
          · exact absurd hqy hq
          · exact ⟨y, hy, hqy⟩

/-- Whatever is named by a proper prefix of the name, and ends where `cut` says, comes behind
something of the name itself. -/
def ExactFirst {α : Type} (nameOf : α → List UInt8) (cut : α → Prop) (l : List α)
    (s : List UInt8) : Prop :=
  ∀ pre x post, l = pre ++ x :: post → cut x → nameOf x <+: s → nameOf x ≠ s →
    ∃ y ∈ pre, nameOf y = s

/-! ## 4. The names of a loaded archive -/

section Loaded

variable {mem : Nat → UInt8} {avail : Nat → Bool} {stack stack' : List UInt8}

/-- The size of the name is where the terminator is found. -/
def ArNameSizes (mem : Nat → UInt8) (files : List ArFile) : Prop :=
  ∀ f ∈ files, f.fnamesz = wsub (strchr mem 47 (2 ^ 32) f.fname) f.fname

theorem arProcessHdr_nameSizes {p : Nat} {a : Archive} {hdr : List UInt8}
    (h : ArNameSizes mem a.files) :
    ArNameSizes mem (arProcessHdr mem avail stack p a hdr).2.files := by
  unfold arProcessHdr
  split
  case isTrue =>
    unfold arProcessStrtbl
    split <;> exact h
  case isFalse =>
    split
    case isTrue =>
      unfold arProcessSymTbl
      dsimp only
      split_ifs <;> exact h
    case isFalse =>
      intro f hf
      rcases List.mem_append.mp hf with hf | hf
      · exact h f hf
      · obtain rfl := List.mem_singleton.mp hf
        rfl

theorem arLoadRecords_nameSizes : ∀ {n p : Nat} {a : Archive} {r : Int × Archive},
    arLoadRecords mem avail stack n p a = some r → ArNameSizes mem a.files →
      ArNameSizes mem r.2.files
  | 0, _, _, _, h, _ => by cases h
  | n + 1, p, a, r, h, hsizes => by
    rw [arLoadRecords] at h
    split at h
    case isFalse =>
      cases h
      exact hsizes
    case isTrue =>
      dsimp only at h
      split at h
      case isTrue =>
        cases h
        exact arProcessHdr_nameSizes hsizes
      case isFalse => exact arLoadRecords_nameSizes h (arProcessHdr_nameSizes hsizes)

theorem arLoad_nameSizes {fuel base size : Nat} {r : Int × Archive}
    (h : arLoad mem avail stack stack' fuel base size = some r) : ArNameSizes mem r.2.files := by
  have hinit : ArNameSizes mem (arInit base size).files := fun f hf => by cases hf
  unfold arLoad at h
  dsimp only at h
  split at h
  case isTrue =>
    cases h
    exact hinit
  case isFalse =>
    split at h
    case h_1 => cases h
    case h_2 =>
      split at h
      case isTrue => exact arLoadRecords_nameSizes h hinit
      case isFalse =>
        cases h
        exact hinit

theorem strAt_eq : ∀ {s : List UInt8} {p : Nat}, 0 ∉ s → MemHolds mem p s →
    p + s.length < 2 ^ 32 → strAt mem s.length p = s
  | [], _, _, _, _ => rfl
  | c :: s, p, h0, hmem, hp => by
    obtain ⟨hc, hmem'⟩ := memHolds_cons.mp hmem
    rw [List.length_cons] at hp
    have hne : mem p ≠ 0 := fun h => h0 (by rw [← h, hc]; exact List.mem_cons_self ..)
    rw [List.length_cons, strAt, if_neg hne, wadd_of_lt (by omega), hc,
      strAt_eq (fun h => h0 (List.mem_cons_of_mem _ h)) hmem' (by omega)]

/-- The name of a member ends at the terminator. -/
theorem arLoad_fullName {fuel base size : Nat} {r : Int × Archive} {f : ArFile} {name : List UInt8}
    (h : arLoad mem avail stack stack' fuel base size = some r) (hf : f ∈ r.2.files)
    (h47 : 47 ∉ name) (h0 : 0 ∉ name) (hmem : MemHolds mem f.fname (name ++ [47]))
    (hfits : f.fname + name.length < 2 ^ 32) : arFullName mem f = name := by
  have hsize : f.fnamesz = name.length := by
    rw [arLoad_nameSizes h f hf, strchr_eq h47 h0 hmem hfits (by omega),
      wsub_of_le hfits (Nat.le_add_right _ _), Nat.add_sub_cancel_left]
  rw [arFullName, hsize]
  exact strAt_eq h0 (memHolds_append.mp hmem).1 hfits

end Loaded

/-! ## 5. The searches -/

section Search

variable {mem : Nat → UInt8} {stale : Nat → Nat} {a : Archive} {name : Nat} {s : List UInt8}

/-- The searches end at the first member, and at the first symbol, of the name. -/
structure ArMatchExact (mem : Nat → UInt8) (stale : Nat → Nat) (a : Archive) (name : Nat)
    (s : List UInt8) : Prop where
  file : arMatchFile mem a name = a.files.find? fun f => arFullName mem f = s
  symbol : arMatchSymbol mem stale a name = (arSymbols stale a).find? fun x => arSymName mem x = s

/-- The three functions return what is stored for the first member, and for the first symbol, of the
name, or nothing. -/
structure ArLookupExact (mem : Nat → UInt8) (stale : Nat → Nat) (a : Archive) (name : Nat)
    (s : List UInt8) : Prop where
  findFile : arFindFile mem a name =
    (a.files.find? fun f => arFullName mem f = s).elim 0 ArFile.pFile
  readFile : ∀ ptr, arReadFile mem a name ptr =
    (a.files.find? fun f => arFullName mem f = s).elim (0, mem) fun f =>
      (f.filesz, if ptr ≠ 0 then memcpy mem ptr f.pFile f.filesz else mem)
  findSymbol : arFindSymbol mem stale a name =
    ((arSymbols stale a).find? fun x => arSymName mem x = s).elim 0 Prod.snd

theorem ArMatchExact.lookup (h : ArMatchExact mem stale a name s) :
    ArLookupExact mem stale a name s where
  findFile := by
    rw [arFindFile, h.file]
    cases a.files.find? fun f => arFullName mem f = s <;> rfl
  readFile ptr := by
    rw [arReadFile, h.file]
    cases a.files.find? fun f => arFullName mem f = s <;> rfl
  findSymbol := by
    rw [arFindSymbol, h.symbol]
    cases (arSymbols stale a).find? fun x => arSymName mem x = s <;> rfl

/-- The name is not ended by a null character. -/
def ArCut (mem : Nat → UInt8) (f : ArFile) : Prop := (arFullName mem f).length = f.fnamesz

/-- A member matches by its whole name, or by all the characters its size says. -/
theorem strncmp_file_iff (hs : IsStr mem name s) (f : ArFile) :
    strncmp mem f.fname name f.fnamesz = 0 ↔
      arFullName mem f = s ∨ ArCut mem f ∧ arFullName mem f <+: s := by
  have hle : (arFullName mem f).length ≤ f.fnamesz := length_strAt_le
  rw [strncmp_eq_zero_iff hs]
  constructor
  · intro h
    by_cases hlen : s.length ≤ f.fnamesz
    · exact .inl (h.trans (List.take_of_length_le hlen))
    · have hcut : (arFullName mem f).length = f.fnamesz := by
        rw [arFullName, h, List.length_take]
        omega
      refine .inr ⟨hcut, ?_⟩
      rw [arFullName, h]
      exact List.take_prefix ..
  · rintro (h | ⟨hcut, hpre⟩)
    · rw [← h, List.take_of_length_le hle]
      rfl
    · have htake := List.prefix_iff_eq_take.mp hpre
      rwa [hcut] at htake

/-- A symbol matches what begins with its name. -/
theorem strncmp_symbol_iff (hs : IsStr mem name s) (x : Nat × Nat) :
    strncmp mem x.1 name (strlen mem (2 ^ 32) x.1) = 0 ↔ arSymName mem x <+: s := by
  rw [strncmp_eq_zero_iff hs, strlen_eq, strAt_length, List.prefix_iff_eq_take]
  rfl

theorem arMatchFile_exact_iff (hs : IsStr mem name s) :
    (arMatchFile mem a name = a.files.find? fun f => arFullName mem f = s) ↔
      ExactFirst (arFullName mem) (ArCut mem) a.files s := by
  rw [arMatchFile, find?_eq_find?_iff fun f hf => by
    simpa only [decide_eq_true_eq, strncmp_file_iff hs] using Or.inl (of_decide_eq_true hf)]
  simp only [decide_eq_true_eq, decide_eq_false_iff_not, strncmp_file_iff hs, ExactFirst]
  constructor
  · intro h pre f post heq hcut hpre hne
    exact h pre f post heq (.inr ⟨hcut, hpre⟩) hne
  · intro h pre f post heq hmatch hne
    obtain ⟨hcut, hpre⟩ := hmatch.resolve_left hne
    exact h pre f post heq hcut hpre hne

theorem arMatchSymbol_exact_iff (hs : IsStr mem name s) :
    (arMatchSymbol mem stale a name = (arSymbols stale a).find? fun x => arSymName mem x = s) ↔
      ExactFirst (arSymName mem) (fun _ => True) (arSymbols stale a) s := by
  rw [arMatchSymbol, find?_eq_find?_iff fun x hx => by
    simpa only [decide_eq_true_eq, strncmp_symbol_iff hs] using
      of_decide_eq_true hx ▸ List.prefix_refl _]
  simp only [decide_eq_true_eq, decide_eq_false_iff_not, strncmp_symbol_iff hs, ExactFirst,
    true_implies]

/-- **The searches are exact** if and only if no member and no symbol whose name the search name
begins with comes before one of the search name itself. -/
theorem ar_lookup_exact_iff (hs : IsStr mem name s) :
    (ArMatchExact mem stale a name s ↔
        ExactFirst (arFullName mem) (ArCut mem) a.files s ∧
          ExactFirst (arSymName mem) (fun _ => True) (arSymbols stale a) s) ∧
      (ExactFirst (arFullName mem) (ArCut mem) a.files s ∧
          ExactFirst (arSymName mem) (fun _ => True) (arSymbols stale a) s →
        ArLookupExact mem stale a name s) := by
  have hiff : ArMatchExact mem stale a name s ↔
      ExactFirst (arFullName mem) (ArCut mem) a.files s ∧
        ExactFirst (arSymName mem) (fun _ => True) (arSymbols stale a) s := by
    rw [← arMatchFile_exact_iff hs, ← arMatchSymbol_exact_iff hs]
    exact ⟨fun h => ⟨h.file, h.symbol⟩, fun h => ⟨h.1, h.2⟩⟩
  exact ⟨hiff, fun h => (hiff.mpr h).lookup⟩

end Search

/-! ## 6. Two members -/

/-- Members `a` and `ab`. -/
def arTwoFiles : List UInt8 :=
  arMag ++ (arSampleRecord [97, 47] [50] [1, 2]).bytes ++
    (arSampleRecord [97, 98, 47] [50] [3, 4]).bytes

/-- The archive at `0x1000`, and the name `ab` at `0x2000`. -/
def arTwoFilesMem (i : Nat) : UInt8 :=
  if i < 0x2000 then memOf 0x1000 arTwoFiles i else memOf 0x2000 [97, 98, 0] i

def arTwoFilesLoaded : Archive :=
  { arInit 0x1000 132 with files := [⟨0x1008, 0x1044, 2, 1⟩, ⟨0x1046, 0x1082, 2, 2⟩] }

theorem ar_lookup_exact_iff_two :
    (ArMatchExact arTwoFilesMem (fun _ => 0) arTwoFilesLoaded 0x2000 [97, 98] ↔
        ExactFirst (arFullName arTwoFilesMem) (ArCut arTwoFilesMem) arTwoFilesLoaded.files [97, 98] ∧
          ExactFirst (arSymName arTwoFilesMem) (fun _ => True)
            (arSymbols (fun _ => 0) arTwoFilesLoaded) [97, 98]) ∧
      (ExactFirst (arFullName arTwoFilesMem) (ArCut arTwoFilesMem) arTwoFilesLoaded.files [97, 98] ∧
          ExactFirst (arSymName arTwoFilesMem) (fun _ => True)
            (arSymbols (fun _ => 0) arTwoFilesLoaded) [97, 98] →
        ArLookupExact arTwoFilesMem (fun _ => 0) arTwoFilesLoaded 0x2000 [97, 98]) :=
  ar_lookup_exact_iff (by decide)

/-- **`ab` is looked up, and `a` is found.** -/
theorem ar_lookup_finds_prefix : ¬ ∀ (mem : Nat → UInt8) (avail : Nat → Bool)
    (stack stack' : List UInt8) (fuel base size : Nat) (a : Archive) (stale : Nat → Nat)
    (name : Nat) (s : List UInt8),
    arLoad mem avail stack stack' fuel base size = some (0, a) → IsStr mem name s →
      ArLookupExact mem stale a name s := by
  intro h
  have hload : arLoad arTwoFilesMem (fun _ => true) [] [] 4 0x1000 132 =
      some (0, arTwoFilesLoaded) := by decide
  have hfile := (h _ _ _ _ _ _ _ _ (fun _ => 0) 0x2000 [97, 98] hload (by decide)).findFile
  have hne : arFindFile arTwoFilesMem arTwoFilesLoaded 0x2000 ≠
      (arTwoFilesLoaded.files.find? fun f => arFullName arTwoFilesMem f = [97, 98]).elim 0
        ArFile.pFile := by decide
  exact hne hfile

end FlightOs
