/-
# The layout of a module's image

`module_load_mem` puts the sections one behind the other, from the first multiple of the image's
alignment in a block of the sections' total size plus that alignment.  What it has to establish:
every section has its own interval of the block, at a multiple of its own alignment, and holds the bytes
of the file, or zeros if its type is `SHT_NOBITS`.

The condition under which it does (`module_layout_iff`): the sizes before each section happen to add up
to a multiple of its alignment, since no padding is put in; no section of another type has the bit of
`SHT_NOBITS` in its type, since the type is tested as if it were a mask, or it is all zeros; and
the size of the block does not wrap.
-/
import FlightOs.Elf.Sections
import Mathlib.Data.List.GetD

namespace FlightOs

variable {f : ElfFile} {place : Nat → Nat} {s s' : LoadState}

/-! ## 1. Well-formed files -/

/-- What holds of every file of the format: the first section header is the null one, alignments are
powers of two or zero, and the headers and the contents of the sections are in the file. -/
structure ElfFile.WellFormed (f : ElfFile) : Prop where
  first : (f.shdr 0).shType = 0 ∧ (f.shdr 0).shFlags = 0
  align : ∀ i < f.ehdr.eShnum, (f.shdr i).shAddralign = 0 ∨ ∃ k, (f.shdr i).shAddralign = 2 ^ k
  table : f.ehdr.eShoff + sizeofElfShdr * f.ehdr.eShnum ≤ f.length
  contents : ∀ i < f.ehdr.eShnum, (f.shdr i).shType ≠ shtNobits →
    (f.shdr i).shOffset + (f.shdr i).shSize ≤ f.length

theorem mem_elfAllocIdxs {i : Nat} :
    i ∈ elfAllocIdxs f ↔ 0 < i ∧ i < f.ehdr.eShnum ∧ (f.shdr i).alloc = true := by
  unfold elfAllocIdxs elfAllocFrom
  rw [List.mem_filter, List.mem_range'_1, and_assoc]
  exact ⟨fun ⟨h1, h2, ha⟩ => ⟨h1, by omega, ha⟩, fun ⟨h1, h2, ha⟩ => ⟨h1, by omega, ha⟩⟩

/-- Where the first section is not loaded, the ones that are counted are the ones that are loaded. -/
theorem elfNumAlloc_eq (h0 : (f.shdr 0).alloc = false) :
    elfGetNumAllocSections f = (elfAllocIdxs f).length ∧
      (List.range f.ehdr.eShnum).filter (fun i => (f.shdr i).alloc) = elfAllocIdxs f := by
  unfold elfAllocIdxs elfAllocFrom elfGetNumAllocSections
  rw [List.countP_eq_length_filter, List.range_eq_range']
  cases f.ehdr.eShnum with
  | zero => exact ⟨rfl, rfl⟩
  | succ n => simp only [Nat.add_sub_cancel, List.range'_succ, List.filter_cons, h0, Bool.false_eq_true,
      if_false, Nat.zero_add, and_self]

theorem ElfFile.WellFormed.alloc_first (hwf : f.WellFormed) : (f.shdr 0).alloc = false := by
  rw [ElfShdr.alloc, hwf.first.2]
  exact Nat.zero_testBit 1

/-- There are sections where loading them succeeds. -/
theorem ElfFile.WellFormed.loads (hwf : f.WellFormed) {dest : ElfShdr → Nat → Nat}
    (hok : loadSections dest place f s = (s', true)) :
    f.ehdr.eShnum ≠ 0 ∧ elfAllocIdxs f ≠ [] := by
  have hnum := loadSections_ne_zero hok
  constructor
  · intro hz
    rw [elfGetNumAllocSections, hz] at hnum
    exact hnum rfl
  · intro hnil
    rw [(elfNumAlloc_eq hwf.alloc_first).1, hnil] at hnum
    exact hnum rfl

/-! ## 2. The set-up -/

/-- The alignment of the image. -/
def imageAlign (f : ElfFile) (idxs : List Nat) (a : Nat) : Nat :=
  idxs.foldl (fun a i => max a (f.shdr i).shAddralign) a

theorem setupElfSection_eq {m m' : ElfBinary} {i : Nat} (h : setupElfSection f m i = some m') :
    (f.ehdr.eShnum ≠ 0 ∧ f.ehdr.eShoff ≠ 0) ∧
      m' = if (f.shdr i).alloc then
        { m with size := wadd m.size (secSize f i), align := max m.align (f.shdr i).shAddralign } else m := by
  unfold setupElfSection elfGetSecByIdx at h
  split at h
  · exact absurd h (Option.some_ne_none m').symm
  · next hidx =>
    split at h
    · exact absurd h (Option.some_ne_none m').symm
    · next hoff =>
      refine ⟨⟨by omega, hoff⟩, ?_⟩
      rw [Option.map_some] at h
      rw [← Option.some.inj h]
      split
      · rw [secSize, max_def]
        congr 1
        split
        · rw [if_pos (by omega)]
        · split
          · omega
          · rfl
      · rfl

/-- The set-up over some sections. -/
theorem setup_foldlM {idxs : List Nat} {m m' : ElfBinary} (hm : m.size < 2 ^ 32)
    (h : idxs.foldlM (setupElfSection f) m = some m') :
    (idxs ≠ [] → f.ehdr.eShoff ≠ 0) ∧
      m' = { m with
              size := (m.size + total (secSize f) (idxs.filter fun i => (f.shdr i).alloc)) % 2 ^ 32
              align := imageAlign f (idxs.filter fun i => (f.shdr i).alloc) m.align } := by
  induction idxs generalizing m with
  | nil =>
    obtain rfl := Option.some.inj h
    refine ⟨fun hne => absurd rfl hne, ?_⟩
    rw [List.filter_nil, total_nil, Nat.add_zero, Nat.mod_eq_of_lt hm]
    rfl
  | cons i idxs ih =>
    rw [List.foldlM_cons] at h
    obtain ⟨m₁, h₁, h⟩ := Option.bind_eq_some_iff.mp h
    obtain ⟨⟨-, hoff⟩, rfl⟩ := setupElfSection_eq h₁
    refine ⟨fun _ => hoff, ?_⟩
    rw [List.filter_cons]
    split at h
    · next ha =>
      obtain ⟨-, rfl⟩ := ih (wadd_lt _ _) h
      rw [if_pos ha, total_cons]
      refine congrArg₂ (fun size align => ({ m with size := size, align := align } : ElfBinary)) ?_ rfl
      dsimp only
      rw [wadd, Nat.mod_add_mod, Nat.add_comm (secSize f i), Nat.add_assoc]
    · next ha =>
      obtain ⟨-, rfl⟩ := ih hm h
      rw [if_neg ha]

/-- **What the set-up leaves.** -/
theorem setupElfBinary_eq (h0 : (f.shdr 0).alloc = false) {m : ElfBinary}
    (h : setupElfBinary f = some m) :
    m = { ElfBinary.start with
            size := total (secSize f) (elfAllocIdxs f) % 2 ^ 32
            align := imageAlign f (elfAllocIdxs f) 4 } := by
  obtain ⟨-, rfl⟩ := setup_foldlM (by decide) h
  rw [(elfNumAlloc_eq h0).2]
  exact congrArg (fun n => ({ ElfBinary.start with
    size := n % 2 ^ 32, align := imageAlign f (elfAllocIdxs f) 4 } : ElfBinary)) (Nat.zero_add _)

/-- There are section headers where it succeeds and there are sections. -/
theorem setupElfBinary_shoff {m : ElfBinary} (h : setupElfBinary f = some m)
    (hn : f.ehdr.eShnum ≠ 0) : f.ehdr.eShoff ≠ 0 := by
  refine (setup_foldlM (by decide) h).1 ?_
  rw [Ne, List.range_eq_nil]
  exact hn

/-! ## 3. Alignments -/

/-- The largest of powers of two is one, and all of them divide it. -/
theorem imageAlign_spec {idxs : List Nat} {a : Nat} (ha : ∃ k, a = 2 ^ k)
    (hidx : ∀ i ∈ idxs, (f.shdr i).shAddralign = 0 ∨ ∃ k, (f.shdr i).shAddralign = 2 ^ k) :
    (∃ k, imageAlign f idxs a = 2 ^ k) ∧ a ∣ imageAlign f idxs a ∧
      ∀ i ∈ idxs, (f.shdr i).shAddralign = 0 ∨ (f.shdr i).shAddralign ∣ imageAlign f idxs a := by
  induction idxs generalizing a with
  | nil => exact ⟨ha, dvd_refl a, fun i hi => absurd hi List.not_mem_nil⟩
  | cons i idxs ih =>
    have hmax : (∃ k, max a (f.shdr i).shAddralign = 2 ^ k) ∧ a ∣ max a (f.shdr i).shAddralign ∧
        ((f.shdr i).shAddralign = 0 ∨ (f.shdr i).shAddralign ∣ max a (f.shdr i).shAddralign) := by
      obtain ⟨k, rfl⟩ := ha
      rcases hidx i List.mem_cons_self with h0 | ⟨j, hj⟩
      · rw [h0, Nat.max_zero]
        exact ⟨⟨k, rfl⟩, dvd_refl _, .inl rfl⟩
      · rw [hj]
        rcases Nat.le_total k j with hkj | hkj
        · rw [Nat.max_eq_right (Nat.pow_le_pow_right (by decide) hkj)]
          exact ⟨⟨j, rfl⟩, pow_dvd_pow 2 hkj, .inr (dvd_refl _)⟩
        · rw [Nat.max_eq_left (Nat.pow_le_pow_right (by decide) hkj)]
          exact ⟨⟨k, rfl⟩, dvd_refl _, .inr (pow_dvd_pow 2 hkj)⟩
    obtain ⟨hpow, hdvd, hall⟩ := ih hmax.1 (fun j hj => hidx j (List.mem_cons_of_mem _ hj))
    refine ⟨hpow, hmax.2.1.trans hdvd, fun j hj => ?_⟩
    rcases List.mem_cons.mp hj with rfl | hj
    · exact hmax.2.2.imp_right fun h => h.trans hdvd
    · exact hall j hj

theorem imageAlign_lt {idxs : List Nat} {a : Nat} (ha : a < 2 ^ 32) : imageAlign f idxs a < 2 ^ 32 := by
  induction idxs generalizing a with
  | nil => exact ha
  | cons i idxs ih => exact ih (Nat.max_lt.mpr ⟨ha, f.word_lt _⟩)

/-- For a power of two, the mask clears what is above the last multiple. -/
theorem alignPtr_pow (x k : Nat) : alignPtr x (2 ^ k) = walign x (2 ^ k) := by
  unfold alignPtr walign
  dsimp only
  rw [Nat.and_two_pow_sub_one_eq_mod]
  have := Nat.div_add_mod (wadd x (2 ^ k - 1)) (2 ^ k)
  rw [Nat.mul_comm] at this
  omega

/-! ## 4. The memory after the writes -/

variable {mem : Nat → UInt8} {w : ElfWrite} {ws : List ElfWrite} {x : Nat}

/-- In the bytes that are written. -/
theorem run_at {i : Nat} (hend : w.dest + w.bytes.length ≤ 2 ^ 32) (hi : i < w.bytes.length) :
    w.run mem (w.dest + i) = w.bytes.getD i 0 := by
  unfold ElfWrite.run
  rw [wsub_of_le (by omega) (by omega), Nat.add_sub_cancel_left, List.getD_eq_getElem _ _ hi,
    List.getD_eq_getElem _ _ hi]

/-- Apart from them. -/
theorem run_of_apart (hx : x < 2 ^ 32) (hend : w.dest + w.bytes.length ≤ 2 ^ 32)
    (h : x < w.dest ∨ w.dest + w.bytes.length ≤ x) : w.run mem x = mem x := by
  unfold ElfWrite.run
  refine List.getD_eq_default _ _ ?_
  rcases h with h | h
  · rw [wsub]
    omega
  · rw [wsub_of_le hx (by omega)]
    omega

theorem runAll_of_apart (hx : x < 2 ^ 32)
    (h : ∀ w ∈ ws, w.dest + w.bytes.length ≤ 2 ^ 32 ∧ (x < w.dest ∨ w.dest + w.bytes.length ≤ x)) :
    ElfWrite.runAll mem ws x = mem x := by
  induction ws generalizing mem with
  | nil => rfl
  | cons w ws ih =>
    obtain ⟨hend, hap⟩ := h w List.mem_cons_self
    exact (ih fun w hw => h w (List.mem_cons_of_mem _ hw)).trans (run_of_apart hx hend hap)

theorem sectionBytes_length (f : ElfFile) (sec : ElfShdr) : (sectionBytes f sec).length = sec.shSize := by
  unfold sectionBytes
  split
  · exact List.length_replicate
  · rw [List.length_map, List.length_range]

/-- A byte of what is put where a section goes. -/
def sectionByte (f : ElfFile) (sec : ElfShdr) (j : Nat) : UInt8 :=
  if sec.shType.testBit 3 then 0 else f.byte (sec.shOffset + j)

theorem sectionBytes_getD {sec : ElfShdr} {j : Nat} (hj : j < sec.shSize) :
    (sectionBytes f sec).getD j 0 = sectionByte f sec j := by
  have hlen := sectionBytes_length f sec
  rw [List.getD_eq_getElem _ _ (by omega)]
  unfold sectionBytes sectionByte
  split
  · exact List.getElem_replicate _
  · rw [List.getElem_map, List.getElem_range]

/-- **The sections are all in memory** after they have been put one behind the other. -/
theorem runAll_packed {idxs : List Nat} {a i b j : Nat} (hend : a + total (secSize f) idxs ≤ 2 ^ 32)
    (hp : (i, b) ∈ packed (secSize f) a idxs) (hj : j < secSize f i) :
    ElfWrite.runAll mem
        ((packed (secSize f) a idxs).map fun p => ⟨p.2, sectionBytes f (f.shdr p.1)⟩) (b + j) =
      sectionByte f (f.shdr i) j := by
  induction idxs generalizing a mem with
  | nil => exact absurd hp List.not_mem_nil
  | cons idx idxs ih =>
    rw [total_cons] at hend
    rw [packed, List.map_cons]
    rcases List.mem_cons.mp hp with heq | hp
    · obtain ⟨rfl, rfl⟩ := Prod.mk.inj heq
      change ElfWrite.runAll (ElfWrite.run mem ⟨b, sectionBytes f (f.shdr i)⟩) _ (b + j) = _
      refine (runAll_of_apart (by omega) ?_).trans ?_
      · intro w hw
        obtain ⟨p, hp, rfl⟩ := List.mem_map.mp hw
        have hb := packed_bounds hp
        dsimp only
        rw [sectionBytes_length]
        unfold secSize at hb hj hend
        omega
      · have hlen := sectionBytes_length f (f.shdr i)
        rw [run_at (w := ⟨b, sectionBytes f (f.shdr i)⟩) (by dsimp only; unfold secSize at hend; omega)
          (by dsimp only; rw [hlen]; exact hj)]
        exact sectionBytes_getD hj
    · exact ih (by omega) hp

/-! ## 5. The layout -/

/-- The sections that are loaded, with the addresses that are recorded for them. -/
def recordedPlaces (f : ElfFile) (m : ElfBinary) : List (Nat × Nat) :=
  (elfAllocIdxs f).zip (m.secs.map fun e => (e.map ElfSection.addr).getD 0)

/-- What an image from `lo` to `hi` has to be. -/
structure ImageLayout (f : ElfFile) (m : ElfBinary) (lo hi : Nat) (mem : Nat → UInt8) : Prop where
  all : (recordedPlaces f m).map Prod.fst = elfAllocIdxs f
  inside : ∀ p ∈ recordedPlaces f m, lo ≤ p.2 ∧ p.2 + secSize f p.1 ≤ hi
  apart : (recordedPlaces f m).Pairwise fun p q =>
    p.2 + secSize f p.1 ≤ q.2 ∨ q.2 + secSize f q.1 ≤ p.2
  aligned : ∀ p ∈ recordedPlaces f m,
    (f.shdr p.1).shAddralign = 0 ∨ (f.shdr p.1).shAddralign ∣ p.2
  content : ∀ p ∈ recordedPlaces f m, ∀ j < secSize f p.1, mem (p.2 + j) =
    if (f.shdr p.1).shType = shtNobits then 0 else f.byte ((f.shdr p.1).shOffset + j)

/-- The type of a section does not mislead the loader. -/
def TypeClean (f : ElfFile) (i : Nat) : Prop :=
  (f.shdr i).shType.testBit 3 = true → (f.shdr i).shType ≠ shtNobits →
    ∀ j < secSize f i, f.byte ((f.shdr i).shOffset + j) = 0

/-- The files whose image is as it has to be. -/
structure LayoutClean (f : ElfFile) : Prop where
  fits : total (secSize f) (elfAllocIdxs f) + imageAlign f (elfAllocIdxs f) 4 < 2 ^ 32
  aligned : ∀ pre i post, elfAllocIdxs f = pre ++ i :: post →
    (f.shdr i).shAddralign = 0 ∨ (f.shdr i).shAddralign ∣ total (secSize f) pre
  types : ∀ i ∈ elfAllocIdxs f, TypeClean f i

theorem sectionByte_iff {i : Nat} :
    (∀ j < secSize f i, sectionByte f (f.shdr i) j =
      if (f.shdr i).shType = shtNobits then 0 else f.byte ((f.shdr i).shOffset + j)) ↔
      TypeClean f i := by
  unfold TypeClean sectionByte
  by_cases ht : (f.shdr i).shType = shtNobits
  · have hbit : (f.shdr i).shType.testBit 3 = true := by
      rw [ht]
      decide
    refine ⟨fun _ _ hne => absurd ht hne, fun _ j _ => ?_⟩
    rw [if_pos hbit, if_pos ht]
  · cases hbit : (f.shdr i).shType.testBit 3 with
    | false => simp only [Bool.false_eq_true, if_false, ht, false_implies, implies_true]
    | true => simp only [if_true, if_false, ne_eq, ht, not_false_eq_true, true_implies, eq_comm]

theorem zip_placedEntries {idxs : List Nat} {c va : Nat} {es : List (Option ElfSection)} :
    idxs.zip ((placedEntries f c va idxs ++ es).map fun e => (e.map ElfSection.addr).getD 0) =
      wpacked (secSize f) va idxs := by
  induction idxs generalizing c va with
  | nil => rfl
  | cons idx idxs ih => exact congrArg ((idx, va) :: ·) ih

/-- The recorded addresses, if the first entries are those of the sections. -/
theorem recordedPlaces_eq {m : ElfBinary} {c va : Nat} {es : List (Option ElfSection)}
    (hsecs : m.secs = placedTable f c va ++ es) :
    recordedPlaces f m = wpacked (secSize f) va (elfAllocIdxs f) := by
  rw [recordedPlaces, hsecs, placedTable, List.append_assoc]
  exact zip_placedEntries

/-- **The first address of the image**, in a block that does not wrap. -/
theorem alignPtr_block {idxs : List Nat} {base len : Nat}
    (hidx : ∀ i ∈ idxs, (f.shdr i).shAddralign = 0 ∨ ∃ k, (f.shdr i).shAddralign = 2 ^ k)
    (hlen : base + len ≤ 2 ^ 32) (hfit : imageAlign f idxs 4 ≤ len) :
    base ≤ alignPtr base (imageAlign f idxs 4) ∧
      alignPtr base (imageAlign f idxs 4) < base + imageAlign f idxs 4 := by
  obtain ⟨⟨k, hk⟩, -⟩ := imageAlign_spec (a := 4) ⟨2, rfl⟩ hidx
  rw [hk] at hfit ⊢
  rw [alignPtr_pow]
  have hpos : 0 < 2 ^ k := Nat.two_pow_pos k
  exact (walign_spec hpos (by omega)).2

/-- Whatever the block, it is a multiple of every section's alignment. -/
theorem dvd_alignPtr {idxs : List Nat}
    (hidx : ∀ i ∈ idxs, (f.shdr i).shAddralign = 0 ∨ ∃ k, (f.shdr i).shAddralign = 2 ^ k) (base : Nat) :
    ∀ i ∈ idxs, (f.shdr i).shAddralign = 0 ∨
      (f.shdr i).shAddralign ∣ alignPtr base (imageAlign f idxs 4) := by
  obtain ⟨⟨k, hk⟩, -, hall⟩ := imageAlign_spec (a := 4) ⟨2, rfl⟩ hidx
  intro i hi
  refine (hall i hi).imp_right fun hd => hd.trans ?_
  rw [hk, alignPtr_pow]
  exact Nat.dvd_mul_left _ _

theorem packed_aligned_iff {idxs : List Nat} {va : Nat}
    (hva : ∀ i ∈ idxs, (f.shdr i).shAddralign = 0 ∨ (f.shdr i).shAddralign ∣ va) :
    (∀ p ∈ packed (secSize f) va idxs,
        (f.shdr p.1).shAddralign = 0 ∨ (f.shdr p.1).shAddralign ∣ p.2) ↔
      ∀ pre i post, idxs = pre ++ i :: post →
        (f.shdr i).shAddralign = 0 ∨ (f.shdr i).shAddralign ∣ total (secSize f) pre := by
  refine (forall_packed_iff (P := fun i b =>
    (f.shdr i).shAddralign = 0 ∨ (f.shdr i).shAddralign ∣ b)).trans ?_
  refine forall_congr' fun pre => forall_congr' fun i => forall_congr' fun post =>
    forall_congr' fun heq => ?_
  have hi : i ∈ idxs := by
    rw [heq]
    exact List.mem_append_right _ List.mem_cons_self
  rcases hva i hi with h0 | hd
  · rw [h0]
    simp only [true_or]
  · rw [Nat.dvd_add_right hd]

theorem packed_content_iff {idxs : List Nat} {va : Nat} {mem : Nat → UInt8}
    (hend : va + total (secSize f) idxs ≤ 2 ^ 32) :
    (∀ p ∈ packed (secSize f) va idxs, ∀ j < secSize f p.1,
        ElfWrite.runAll mem
            ((packed (secSize f) va idxs).map fun p => ⟨p.2, sectionBytes f (f.shdr p.1)⟩) (p.2 + j) =
          if (f.shdr p.1).shType = shtNobits then 0 else f.byte ((f.shdr p.1).shOffset + j)) ↔
      ∀ i ∈ idxs, TypeClean f i := by
  have hbytes : ∀ p ∈ packed (secSize f) va idxs, ((∀ j < secSize f p.1,
      ElfWrite.runAll mem
          ((packed (secSize f) va idxs).map fun p => ⟨p.2, sectionBytes f (f.shdr p.1)⟩) (p.2 + j) =
        if (f.shdr p.1).shType = shtNobits then 0 else f.byte ((f.shdr p.1).shOffset + j)) ↔
      TypeClean f p.1) := by
    intro p hp
    rw [← sectionByte_iff]
    exact forall_congr' fun j => forall_congr' fun hj => by rw [runAll_packed hend hp hj]
  refine (forall_congr' fun p => forall_congr' fun hp => hbytes p hp).trans ?_
  have hfst : (packed (secSize f) va idxs).map Prod.fst = idxs := packed_map_fst idxs va
  conv_rhs => rw [← hfst]
  exact List.forall_mem_map.symm

/-- **The layout of sections that are put one behind the other**, from the first address of a block. -/
theorem imageLayout_iff {m : ElfBinary} {c base len : Nat} {es : List (Option ElfSection)}
    {mem : Nat → UInt8} (hwf : f.WellFormed) (hne : elfAllocIdxs f ≠ []) (hbase : 0 < base)
    (hsecs : m.secs = placedTable f c (alignPtr base (imageAlign f (elfAllocIdxs f) 4)) ++ es)
    (hlen : len = wadd (total (secSize f) (elfAllocIdxs f) % 2 ^ 32)
      (imageAlign f (elfAllocIdxs f) 4)) (hend : base + len ≤ 2 ^ 32) :
    ImageLayout f m base (base + len)
        (ElfWrite.runAll mem (placedWrites moduleDest f
          (alignPtr base (imageAlign f (elfAllocIdxs f) 4)) (elfAllocIdxs f))) ↔
      LayoutClean f := by
  have hidx : ∀ i ∈ elfAllocIdxs f,
      (f.shdr i).shAddralign = 0 ∨ ∃ k, (f.shdr i).shAddralign = 2 ^ k :=
    fun i hi => hwf.align i (mem_elfAllocIdxs.mp hi).2.1
  have hplaces := recordedPlaces_eq hsecs
  have hva := dvd_alignPtr hidx base
  have hblock := alignPtr_block hidx hend
  have hA : imageAlign f (elfAllocIdxs f) 4 < 2 ^ 32 := imageAlign_lt (by decide)
  generalize alignPtr base (imageAlign f (elfAllocIdxs f) 4) = va at *
  constructor
  · intro hL
    have hin := hL.inside
    rw [hplaces] at hin
    obtain ⟨heq, hle⟩ := wpacked_inside (elfAllocIdxs f) hbase hend hin
    have hfirst : base ≤ va := by
      obtain ⟨i, idxs, hcons⟩ := List.exists_cons_of_ne_nil hne
      exact (hin (i, va) (by rw [hcons]; exact List.mem_cons_self)).1
    have hend' := hle hne
    have hfits : total (secSize f) (elfAllocIdxs f) + imageAlign f (elfAllocIdxs f) 4 < 2 ^ 32 := by
      rw [hlen, wadd] at hend'
      omega
    refine ⟨hfits, ?_, ?_⟩
    · have hal := hL.aligned
      rw [hplaces, heq] at hal
      exact (packed_aligned_iff hva).mp hal
    · have hco := hL.content
      rw [hplaces, placedWrites, heq] at hco
      exact (packed_content_iff (by omega)).mp hco
  · intro hC
    have hfits := hC.fits
    rw [Nat.mod_eq_of_lt (by omega), wadd_of_lt hfits] at hlen
    obtain ⟨hlo, hhi⟩ := hblock (by omega)
    have heq : wpacked (secSize f) va (elfAllocIdxs f) = packed (secSize f) va (elfAllocIdxs f) :=
      wpacked_eq _ (by omega)
    rw [heq] at hplaces
    refine ⟨?_, ?_, ?_, ?_, ?_⟩
    · rw [hplaces, packed_map_fst]
    · intro p hp
      rw [hplaces] at hp
      have hb := packed_bounds hp
      omega
    · rw [hplaces]
      exact (tiled_packed (elfAllocIdxs f) va).pairwise.imp Or.inl
    · rw [hplaces]
      exact (packed_aligned_iff hva).mpr hC.aligned
    · rw [hplaces, placedWrites, heq]
      exact (packed_content_iff (by omega)).mpr hC.types

/-- **The image of a module**: it is laid out as it has to be if and only if the sizes happen to fit the
alignments, and no type misleads the loader. -/
theorem module_layout_iff (hwf : f.WellFormed) (hsetup : setupElfBinary f = some s.bin)
    (hload : moduleLoadMem place f s = (s', 0)) (hbase : 0 < place s.heap.count)
    (hend : place s.heap.count + wadd s.bin.size s.bin.align ≤ 2 ^ 32) (mem : Nat → UInt8) :
    s'.bin.base = some s.heap.count ∧
      (ImageLayout f s'.bin (place s.heap.count)
          (place s.heap.count + wadd s.bin.size s.bin.align) (ElfWrite.runAll mem s'.writes) ↔
        LayoutClean f) := by
  obtain ⟨s₁, hone, hsec⟩ := onward_ok (loadReturn_ok hload)
  rcases loadBase_eq place s with ⟨-, heq⟩ | ⟨-, h, heq, -⟩
  · rw [heq] at hone
    obtain ⟨rfl, -⟩ := Prod.mk.inj hone
    obtain ⟨hn, hne⟩ := hwf.loads hsec
    obtain ⟨-, sec, es, addrs, hbin, hw, -⟩ := loadSections_ok (setupElfBinary_shoff hsetup hn) hsec
    refine ⟨by rw [hbin]; rfl, ?_⟩
    have hw' : ElfWrite.runAll mem s'.writes = ElfWrite.runAll (ElfWrite.runAll mem s.writes)
        (placedWrites moduleDest f (alignPtr (place s.heap.count) s.bin.align) (elfAllocIdxs f)) := by
      rw [hw]
      exact List.foldl_append
    have hset := setupElfBinary_eq hwf.alloc_first hsetup
    have halign : s.bin.align = imageAlign f (elfAllocIdxs f) 4 := congrArg ElfBinary.align hset
    have hsize : s.bin.size = total (secSize f) (elfAllocIdxs f) % 2 ^ 32 := congrArg ElfBinary.size hset
    rw [halign] at hw'
    rw [halign, hsize] at hend ⊢
    rw [hw']
    have hsecs : s'.bin.secs = placedTable f (s.heap.grant.count + 1)
        (alignPtr (place s.heap.count) (imageAlign f (elfAllocIdxs f) 4)) ++ es := by
      rw [hbin, halign]
      rfl
    exact imageLayout_iff hwf hne hbase hsecs rfl hend
  · rw [heq] at hone
    exact absurd (Prod.mk.inj hone).2 Bool.false_ne_true

/-! ### Two files -/

/-- A number, most significant byte first. -/
def beBytes : Nat → Nat → List UInt8
  | 0, _ => []
  | n + 1, v => beBytes n (v / 2 ^ 8) ++ [UInt8.ofNat v]

/-- A header, with the table of sections right behind it. -/
def sampleEhdr (type entry shnum : Nat) : List UInt8 :=
  [0x7f, 0x45, 0x4c, 0x46, 1, 2, 1] ++ List.replicate 9 0 ++ beBytes 2 type ++ beBytes 2 emSparc ++
    beBytes 4 1 ++ beBytes 4 entry ++ beBytes 4 0 ++ beBytes 4 52 ++ beBytes 4 0 ++ beBytes 2 52 ++
    beBytes 4 0 ++ beBytes 2 sizeofElfShdr ++ beBytes 2 shnum ++ beBytes 2 0

def sampleShdr (sh : ElfShdr) : List UInt8 :=
  beBytes 4 sh.shName ++ beBytes 4 sh.shType ++ beBytes 4 sh.shFlags ++ beBytes 4 sh.shAddr ++
    beBytes 4 sh.shOffset ++ beBytes 4 sh.shSize ++ beBytes 4 0 ++ beBytes 4 sh.shInfo ++
    beBytes 4 sh.shAddralign ++ beBytes 4 sh.shEntsize

/-- A file with these section headers, and what is behind them. -/
def sampleFile (type entry : Nat) (shdrs : List ElfShdr) (contents : List UInt8) : ElfFile :=
  sampleEhdr type entry shdrs.length ++ shdrs.flatMap sampleShdr ++ contents

/-- `.text` of `n` bytes, and `.data` of four. -/
def layoutSample (n : Nat) : ElfFile :=
  sampleFile etRel 0
    [⟨0, 0, 0, 0, 0, 0, 0, 0, 0⟩, ⟨1, 1, 6, 0, 235, n, 0, 4, 0⟩, ⟨7, 1, 3, 0, 239, 4, 0, 4, 0⟩,
      ⟨13, shtStrtab, 0, 0, 212, 23, 0, 1, 0⟩]
    ([0] ++ cstr ".text" ++ [0] ++ cstr ".data" ++ [0] ++ cstr ".shstrtab" ++ [0] ++
      [1, 2, 3, 4, 5, 6, 7, 8])

/-- Blocks a page apart. -/
def samplePlace (b : Nat) : Nat := 4096 * (b + 1)

/-- A heap that has everything, and the binary set up. -/
def sampleState (f : ElfFile) : LoadState :=
  ⟨.empty fun _ => true, (setupElfBinary f).getD .start, []⟩

theorem pow_of_mem {a : Nat} (h : a ∈ [0, 1, 4]) : a = 0 ∨ ∃ k, a = 2 ^ k := by
  rcases List.mem_cons.mp h with rfl | h
  · exact .inl rfl
  · rcases List.mem_cons.mp h with rfl | h
    · exact .inr ⟨0, rfl⟩
    · rw [List.mem_singleton.mp h]
      exact .inr ⟨2, rfl⟩

theorem layoutSample_wellFormed {n : Nat} (hn : n = 2 ∨ n = 4) : (layoutSample n).WellFormed where
  first := by rcases hn with rfl | rfl <;> decide
  align := by
    have hmem : ∀ i < (layoutSample n).ehdr.eShnum,
        ((layoutSample n).shdr i).shAddralign ∈ [0, 1, 4] := by
      rcases hn with rfl | rfl <;> decide
    exact fun i hi => pow_of_mem (hmem i hi)
  table := by rcases hn with rfl | rfl <;> decide +kernel
  contents := by rcases hn with rfl | rfl <;> decide +kernel

theorem module_layout_fits :
    (moduleLoadMem samplePlace (layoutSample 4) (sampleState (layoutSample 4))).1.bin.base = some 0 ∧
      (ImageLayout (layoutSample 4)
          (moduleLoadMem samplePlace (layoutSample 4) (sampleState (layoutSample 4))).1.bin 4096 4108
          (ElfWrite.runAll (fun _ => 0)
            (moduleLoadMem samplePlace (layoutSample 4) (sampleState (layoutSample 4))).1.writes) ↔
        LayoutClean (layoutSample 4)) :=
  module_layout_iff (s := sampleState (layoutSample 4)) (layoutSample_wellFormed (.inr rfl))
    (by decide) (Prod.ext rfl (by decide)) (by decide) (by decide) _

/-- `.data` is put behind the two bytes of `.text`. -/
theorem module_layout_misaligned : ¬ ∀ (f : ElfFile) (place : Nat → Nat) (s s' : LoadState)
    (mem : Nat → UInt8), f.WellFormed → elfHeaderCheck f = 0 →
    f.ehdr.eType = etRel ∨ f.ehdr.eType = etDyn → setupElfBinary f = some s.bin →
    moduleLoadMem place f s = (s', 0) → 0 < place s.heap.count →
    place s.heap.count + wadd s.bin.size s.bin.align ≤ 2 ^ 32 →
    ImageLayout f s'.bin (place s.heap.count) (place s.heap.count + wadd s.bin.size s.bin.align)
      (ElfWrite.runAll mem s'.writes) := by
  intro hall
  have hload : moduleLoadMem samplePlace (layoutSample 2) (sampleState (layoutSample 2)) =
      ((moduleLoadMem samplePlace (layoutSample 2) (sampleState (layoutSample 2))).1, 0) :=
    Prod.ext rfl (by decide)
  have hlayout := hall _ _ _ _ (fun _ => 0) (layoutSample_wellFormed (.inl rfl)) (by decide)
    (by decide) (by decide) hload (by decide) (by decide)
  have hdata : ((2, 4098) : Nat × Nat) ∈ recordedPlaces (layoutSample 2)
      (moduleLoadMem samplePlace (layoutSample 2) (sampleState (layoutSample 2))).1.bin := by
    decide
  exact absurd (hlayout.aligned _ hdata) (by decide)

end FlightOs
