/-
# Where the sections of an application are put

`application_load_mem` writes the bytes of a section where the file says (`sh_addr`), and records for it
the address behind the sections before it, counted from the address of the image: a block's for a
relocatable file, the entry point for an executable one.  The relocations go by what is recorded.

So the two agree if and only if the file happens to say the address that is counted
(`application_placement_iff`); for a relocatable file that address depends on the block.
-/
import FlightOs.Elf.Layout
import Mathlib.Data.List.Forall2

namespace FlightOs

variable {f : ElfFile} {place : Nat → Nat} {s s' : LoadState}

/-! ## 1. The placement -/

/-- What has to be in memory for a section. -/
def sectionContent (f : ElfFile) (i : Nat) : List UInt8 :=
  (List.range (secSize f i)).map fun j =>
    if (f.shdr i).shType = shtNobits then 0 else f.byte ((f.shdr i).shOffset + j)

/-- The write for a section is the one that its recorded address promises. -/
structure PlacedAt (f : ElfFile) (p : Nat × Nat) (w : ElfWrite) : Prop where
  dest : secSize f p.1 ≠ 0 → w.dest = p.2
  bytes : w.bytes = sectionContent f p.1

/-- What the writes `ws` of a load have to be, with an image from `lo` to `hi`. -/
structure PlacementRight (f : ElfFile) (m : ElfBinary) (ws : List ElfWrite) (lo hi : Nat) : Prop where
  placed : List.Forall₂ (PlacedAt f) (recordedPlaces f m) ws
  inside : f.ehdr.eType = etRel → ∀ w ∈ ws, w.bytes ≠ [] → lo ≤ w.dest ∧ w.dest + w.bytes.length ≤ hi
  aligned : f.ehdr.eType = etRel → ∀ p ∈ recordedPlaces f m,
    (f.shdr p.1).shAddralign = 0 ∨ (f.shdr p.1).shAddralign ∣ p.2

/-- The address of the image, whose block is at `base`. -/
def imageVa (f : ElfFile) (base : Nat) : Nat :=
  if f.ehdr.eType = etRel then alignPtr base (imageAlign f (elfAllocIdxs f) 4) else f.ehdr.eEntry

/-- The files whose sections are put where they are recorded. -/
structure PlacementClean (f : ElfFile) (va : Nat) : Prop where
  addr : ∀ p ∈ wpacked (secSize f) va (elfAllocIdxs f), secSize f p.1 ≠ 0 → (f.shdr p.1).shAddr = p.2
  types : ∀ i ∈ elfAllocIdxs f, TypeClean f i
  fits : f.ehdr.eType = etRel →
    total (secSize f) (elfAllocIdxs f) + imageAlign f (elfAllocIdxs f) 4 < 2 ^ 32
  aligned : f.ehdr.eType = etRel → ∀ pre i post, elfAllocIdxs f = pre ++ i :: post →
    (f.shdr i).shAddralign = 0 ∨ (f.shdr i).shAddralign ∣ total (secSize f) pre

/-! ## 2. What a load leaves -/

/-- The entries and the writes of a load that succeeds. -/
theorem applicationLoadMem_ok (hwf : f.WellFormed) (htype : f.ehdr.eType = etRel ∨ f.ehdr.eType = etExec)
    (hsetup : setupElfBinary f = some s.bin) (hload : applicationLoadMem place f s = (s', 0)) :
    elfAllocIdxs f ≠ [] ∧
      recordedPlaces f s'.bin =
        wpacked (secSize f) (imageVa f (place s.heap.count)) (elfAllocIdxs f) ∧
      s'.writes = s.writes ++
        placedWrites applicationDest f (imageVa f (place s.heap.count)) (elfAllocIdxs f) := by
  have halign : s.bin.align = imageAlign f (elfAllocIdxs f) 4 :=
    congrArg ElfBinary.align (setupElfBinary_eq hwf.alloc_first hsetup)
  -- in both cases the sections are loaded from the address of the image on
  obtain ⟨s₁, hva, hws, hsec⟩ : ∃ s₁ : LoadState, s₁.bin.va = imageVa f (place s.heap.count) ∧
      s₁.writes = s.writes ∧ loadSections applicationDest place f s₁ = (s', true) := by
    have hok := loadReturn_ok hload
    rcases htype with hrel | hexec
    · rw [if_pos hrel] at hok
      obtain ⟨s₁, hone, hsec⟩ := onward_ok hok
      rcases loadBase_eq place s with ⟨-, heq⟩ | ⟨-, h, heq, -⟩
      · rw [heq] at hone
        obtain ⟨rfl, -⟩ := Prod.mk.inj hone
        refine ⟨_, ?_, ?_, hsec⟩
        · rw [imageVa, if_pos hrel, ← halign]
          rfl
        · rfl
      · rw [heq] at hone
        exact absurd (Prod.mk.inj hone).2 Bool.false_ne_true
    · have hrel : f.ehdr.eType ≠ etRel := by
        rw [hexec]
        decide
      rw [if_neg hrel, if_pos hexec] at hok
      refine ⟨_, ?_, ?_, hok⟩
      · rw [imageVa, if_neg hrel]
        rfl
      · rfl
  obtain ⟨hn, hne⟩ := hwf.loads hsec
  obtain ⟨-, sec, es, addrs, hbin, hw, -⟩ := loadSections_ok (setupElfBinary_shoff hsetup hn) hsec
  refine ⟨hne, ?_, ?_⟩
  · rw [← hva]
    exact recordedPlaces_eq (congrArg ElfBinary.secs hbin)
  · rw [hw, hws, hva]

/-! ## 3. The bytes -/

theorem sectionBytes_eq_range (f : ElfFile) (sec : ElfShdr) :
    sectionBytes f sec = (List.range sec.shSize).map (sectionByte f sec) := by
  unfold sectionBytes sectionByte
  split
  · rw [List.map_const', List.length_range]
  · rfl

/-- A section gets its contents if and only if its type does not mislead the loader. -/
theorem sectionBytes_eq_iff {i : Nat} : sectionBytes f (f.shdr i) = sectionContent f i ↔ TypeClean f i := by
  rw [← sectionByte_iff, sectionBytes_eq_range, sectionContent, secSize, List.map_inj_left]
  exact forall_congr' fun j => imp_congr_left List.mem_range

/-- The writes and the recorded places, section by section. -/
theorem forall₂_placedAt_iff {places : List (Nat × Nat)} :
    List.Forall₂ (PlacedAt f) places
        (places.map fun p => ⟨(f.shdr p.1).shAddr, sectionBytes f (f.shdr p.1)⟩) ↔
      (∀ p ∈ places, secSize f p.1 ≠ 0 → (f.shdr p.1).shAddr = p.2) ∧
        ∀ p ∈ places, TypeClean f p.1 := by
  rw [List.forall₂_map_right_iff, List.forall₂_same]
  constructor
  · exact fun h => ⟨fun p hp => (h p hp).dest, fun p hp => sectionBytes_eq_iff.mp (h p hp).bytes⟩
  · exact fun h p hp => ⟨h.1 p hp, sectionBytes_eq_iff.mpr (h.2 p hp)⟩

/-! ## 4. The bounds -/

/-- Empty sections do not move the others. -/
theorem wpacked_filter {idxs : List Nat} {va : Nat} (hva : va < 2 ^ 32) :
    (wpacked (secSize f) va idxs).filter (fun p => secSize f p.1 ≠ 0) =
      wpacked (secSize f) va (idxs.filter fun i => secSize f i ≠ 0) := by
  induction idxs generalizing va with
  | nil => rfl
  | cons i idxs ih =>
    rw [wpacked, List.filter_cons, List.filter_cons, ih (wadd_lt _ _)]
    by_cases hi : secSize f i = 0
    · have hstay : wadd va (secSize f i) = va := by
        rw [hi, wadd_of_lt (by omega), Nat.add_zero]
      simp only [hi, ne_eq, not_true, decide_false, Bool.false_eq_true, if_false]
      rw [← hi, hstay]
    · simp only [hi, ne_eq, not_false_eq_true, decide_true, if_true]
      rfl

theorem total_filter (idxs : List Nat) :
    total (secSize f) (idxs.filter fun i => secSize f i ≠ 0) = total (secSize f) idxs := by
  induction idxs with
  | nil => rfl
  | cons i idxs ih =>
    rw [List.filter_cons, total_cons, ← ih]
    by_cases hi : secSize f i = 0
    · simp only [hi, ne_eq, not_true, decide_false, Bool.false_eq_true, if_false, Nat.zero_add]
    · simp only [hi, ne_eq, not_false_eq_true, decide_true, if_true, total_cons]

/-- **What lies in the block** is what fits it: bytes that are put at the recorded addresses. -/
theorem packed_inside_iff {idxs : List Nat} {base len : Nat} (hbase : 0 < base)
    (hidx : ∀ i ∈ idxs, (f.shdr i).shAddralign = 0 ∨ ∃ k, (f.shdr i).shAddralign = 2 ^ k)
    (hlen : len = wadd (total (secSize f) idxs % 2 ^ 32) (imageAlign f idxs 4))
    (hend : base + len ≤ 2 ^ 32) :
    (∀ p ∈ wpacked (secSize f) (alignPtr base (imageAlign f idxs 4)) idxs, secSize f p.1 ≠ 0 →
        base ≤ p.2 ∧ p.2 + secSize f p.1 ≤ base + len) ↔
      total (secSize f) idxs + imageAlign f idxs 4 < 2 ^ 32 := by
  have hblock := alignPtr_block hidx hend
  have hA : imageAlign f idxs 4 < 2 ^ 32 := imageAlign_lt (by decide)
  have hva : alignPtr base (imageAlign f idxs 4) < 2 ^ 32 :=
    Nat.lt_of_le_of_lt (Nat.sub_le _ _) (wadd_lt _ _)
  generalize alignPtr base (imageAlign f idxs 4) = va at *
  constructor
  · intro hin
    have hin' : ∀ p ∈ wpacked (secSize f) va (idxs.filter fun i => secSize f i ≠ 0),
        base ≤ p.2 ∧ p.2 + secSize f p.1 ≤ base + len := by
      intro p hp
      rw [← wpacked_filter hva] at hp
      obtain ⟨hmem, hsize⟩ := List.mem_filter.mp hp
      exact hin p hmem (of_decide_eq_true hsize)
    have hend' := (wpacked_inside _ hbase hend hin').2
    rw [total_filter] at hend'
    cases hxs : idxs.filter fun i => secSize f i ≠ 0 with
    | nil =>
      have hT := total_filter (f := f) idxs
      rw [hxs, total_nil] at hT
      omega
    | cons x xs =>
      rw [hxs] at hin' hend'
      have hfirst := (hin' (x, va) List.mem_cons_self).1
      have hle := hend' (List.cons_ne_nil x xs)
      rw [hlen, wadd] at hle
      dsimp only at hfirst
      omega
  · intro hfits p hp _
    rw [Nat.mod_eq_of_lt (by omega), wadd_of_lt hfits] at hlen
    obtain ⟨hlo, hhi⟩ := hblock (by omega)
    rw [wpacked_eq idxs (by omega)] at hp
    have hb := packed_bounds hp
    omega

/-! ## 5. The placement of an application -/

/-- **The sections of an application** are where they are recorded if and only if the file names those
addresses, and no type misleads the loader; and for a relocatable file they lie in its block if and only
if its size does not wrap, each at a multiple of its alignment if the sizes happen to fit. -/
theorem application_placement_iff (hwf : f.WellFormed)
    (htype : f.ehdr.eType = etRel ∨ f.ehdr.eType = etExec) (hsetup : setupElfBinary f = some s.bin)
    (hload : applicationLoadMem place f s = (s', 0))
    (hblock : f.ehdr.eType = etRel → 0 < place s.heap.count ∧
      place s.heap.count + wadd s.bin.size s.bin.align ≤ 2 ^ 32) :
    PlacementRight f s'.bin (s'.writes.drop s.writes.length) (place s.heap.count)
        (place s.heap.count + wadd s.bin.size s.bin.align) ↔
      PlacementClean f (imageVa f (place s.heap.count)) := by
  obtain ⟨-, hplaces, hw⟩ := applicationLoadMem_ok hwf htype hsetup hload
  have hset := setupElfBinary_eq hwf.alloc_first hsetup
  have halign : s.bin.align = imageAlign f (elfAllocIdxs f) 4 := congrArg ElfBinary.align hset
  have hsize : s.bin.size = total (secSize f) (elfAllocIdxs f) % 2 ^ 32 := congrArg ElfBinary.size hset
  have hidx : ∀ i ∈ elfAllocIdxs f,
      (f.shdr i).shAddralign = 0 ∨ ∃ k, (f.shdr i).shAddralign = 2 ^ k :=
    fun i hi => hwf.align i (mem_elfAllocIdxs.mp hi).2.1
  have hws : s'.writes.drop s.writes.length =
      (wpacked (secSize f) (imageVa f (place s.heap.count)) (elfAllocIdxs f)).map fun p =>
        ⟨(f.shdr p.1).shAddr, sectionBytes f (f.shdr p.1)⟩ := by
    rw [hw, List.drop_left]
    rfl
  rw [hws, halign, hsize]
  rw [halign, hsize] at hblock
  have htypes : (∀ p ∈ wpacked (secSize f) (imageVa f (place s.heap.count)) (elfAllocIdxs f),
      TypeClean f p.1) ↔ ∀ i ∈ elfAllocIdxs f, TypeClean f i := by
    have hfst : (wpacked (secSize f) (imageVa f (place s.heap.count)) (elfAllocIdxs f)).map Prod.fst =
        elfAllocIdxs f := wpacked_map_fst _ _
    conv_rhs => rw [← hfst]
    exact List.forall_mem_map.symm
  -- for a relocatable file, once the size fits, nothing wraps
  have hpacked : f.ehdr.eType = etRel →
      total (secSize f) (elfAllocIdxs f) + imageAlign f (elfAllocIdxs f) 4 < 2 ^ 32 →
      ((∀ p ∈ recordedPlaces f s'.bin, (f.shdr p.1).shAddralign = 0 ∨ (f.shdr p.1).shAddralign ∣ p.2) ↔
        ∀ pre i post, elfAllocIdxs f = pre ++ i :: post →
          (f.shdr i).shAddralign = 0 ∨ (f.shdr i).shAddralign ∣ total (secSize f) pre) := by
    intro hrel hfits
    obtain ⟨hbase, hend⟩ := hblock hrel
    rw [Nat.mod_eq_of_lt (by omega), wadd_of_lt hfits] at hend
    obtain ⟨hlo, hhi⟩ := alignPtr_block hidx hend (Nat.le_add_left _ _)
    rw [hplaces, imageVa, if_pos hrel, wpacked_eq _ (by omega)]
    exact packed_aligned_iff (dvd_alignPtr hidx _)
  constructor
  · intro hright
    obtain ⟨haddr, htype'⟩ := forall₂_placedAt_iff.mp (hplaces ▸ hright.placed)
    have hfits : f.ehdr.eType = etRel →
        total (secSize f) (elfAllocIdxs f) + imageAlign f (elfAllocIdxs f) 4 < 2 ^ 32 := by
      intro hrel
      obtain ⟨hbase, hend⟩ := hblock hrel
      refine (packed_inside_iff hbase hidx rfl hend).mp fun p hp hne => ?_
      have hva : imageVa f (place s.heap.count) =
          alignPtr (place s.heap.count) (imageAlign f (elfAllocIdxs f) 4) := if_pos hrel
      rw [← hva] at hp
      have hin := hright.inside hrel _ (List.mem_map_of_mem hp)
      dsimp only at hin
      rw [← haddr p hp hne]
      have hlen := sectionBytes_length f (f.shdr p.1)
      rw [hlen] at hin
      refine hin fun hnil => hne ?_
      rw [hnil] at hlen
      exact hlen.symm
    exact ⟨haddr, htypes.mp htype', hfits, fun hrel => (hpacked hrel (hfits hrel)).mp (hright.aligned hrel)⟩
  · intro hclean
    refine ⟨?_, ?_, fun hrel => (hpacked hrel (hclean.fits hrel)).mpr (hclean.aligned hrel)⟩
    · rw [hplaces]
      exact forall₂_placedAt_iff.mpr ⟨hclean.addr, htypes.mpr hclean.types⟩
    · intro hrel w hw hne
      obtain ⟨hbase, hend⟩ := hblock hrel
      obtain ⟨p, hp, rfl⟩ := List.mem_map.mp hw
      have hlen := sectionBytes_length f (f.shdr p.1)
      have hsz : secSize f p.1 ≠ 0 := by
        intro hz
        exact hne (List.eq_nil_of_length_eq_zero (hlen.trans hz))
      dsimp only
      rw [hlen, hclean.addr p hp hsz]
      have hva : imageVa f (place s.heap.count) =
          alignPtr (place s.heap.count) (imageAlign f (elfAllocIdxs f) 4) := if_pos hrel
      rw [hva] at hp
      exact (packed_inside_iff hbase hidx rfl hend).mpr (hclean.fits hrel) p hp hsz

/-- An executable file: `.text` of four bytes at `2 ^ 30`, `.data` behind it, and the entry point. -/
def placementSample (entry : Nat) : ElfFile :=
  sampleFile etExec entry
    [⟨0, 0, 0, 0, 0, 0, 0, 0, 0⟩, ⟨1, 1, 6, 2 ^ 30, 235, 4, 0, 4, 0⟩,
      ⟨7, 1, 3, 2 ^ 30 + 4, 239, 4, 0, 4, 0⟩, ⟨13, shtStrtab, 0, 0, 212, 23, 0, 1, 0⟩]
    ([0] ++ cstr ".text" ++ [0] ++ cstr ".data" ++ [0] ++ cstr ".shstrtab" ++ [0] ++
      [1, 2, 3, 4, 5, 6, 7, 8])

theorem placementSample_wellFormed {entry : Nat} (he : entry = 2 ^ 30 ∨ entry = 2 ^ 30 + 4) :
    (placementSample entry).WellFormed where
  first := by rcases he with rfl | rfl <;> decide
  align := by
    have hmem : ∀ i < (placementSample entry).ehdr.eShnum,
        ((placementSample entry).shdr i).shAddralign ∈ [0, 1, 4] := by
      rcases he with rfl | rfl <;> decide
    exact fun i hi => pow_of_mem (hmem i hi)
  table := by rcases he with rfl | rfl <;> decide +kernel
  contents := by rcases he with rfl | rfl <;> decide +kernel

theorem application_placement_at_entry : ∃ s',
    applicationLoadMem samplePlace (placementSample (2 ^ 30)) (sampleState (placementSample (2 ^ 30))) =
      (s', 0) ∧
    (PlacementRight (placementSample (2 ^ 30)) s'.bin
        (s'.writes.drop (sampleState (placementSample (2 ^ 30))).writes.length)
        (samplePlace (sampleState (placementSample (2 ^ 30))).heap.count)
        (samplePlace (sampleState (placementSample (2 ^ 30))).heap.count +
          wadd (sampleState (placementSample (2 ^ 30))).bin.size
            (sampleState (placementSample (2 ^ 30))).bin.align) ↔
      PlacementClean (placementSample (2 ^ 30)) (imageVa (placementSample (2 ^ 30))
        (samplePlace (sampleState (placementSample (2 ^ 30))).heap.count))) := by
  have hload : applicationLoadMem samplePlace (placementSample (2 ^ 30))
      (sampleState (placementSample (2 ^ 30))) =
        ((applicationLoadMem samplePlace (placementSample (2 ^ 30))
          (sampleState (placementSample (2 ^ 30)))).1, 0) := Prod.ext rfl (by decide)
  exact ⟨_, hload, application_placement_iff (placementSample_wellFormed (.inl rfl))
    (.inr (by decide)) (by decide) hload (fun hrel => absurd hrel (by decide))⟩

/-- The entry point is not the first byte of `.text`: everything is recorded four bytes too far. -/
theorem application_placement_behind : ¬ ∀ (f : ElfFile) (place : Nat → Nat) (s s' : LoadState),
    f.WellFormed → f.ehdr.eType = etRel ∨ f.ehdr.eType = etExec → setupElfBinary f = some s.bin →
    applicationLoadMem place f s = (s', 0) →
    (f.ehdr.eType = etRel → 0 < place s.heap.count ∧
      place s.heap.count + wadd s.bin.size s.bin.align ≤ 2 ^ 32) →
    PlacementRight f s'.bin (s'.writes.drop s.writes.length) (place s.heap.count)
      (place s.heap.count + wadd s.bin.size s.bin.align) := by
  intro hall
  have hload : applicationLoadMem samplePlace (placementSample (2 ^ 30 + 4))
      (sampleState (placementSample (2 ^ 30 + 4))) =
        ((applicationLoadMem samplePlace (placementSample (2 ^ 30 + 4))
          (sampleState (placementSample (2 ^ 30 + 4)))).1, 0) := Prod.ext rfl (by decide)
  have hright := hall _ _ _ _ (placementSample_wellFormed (.inr rfl))
    (.inr (by decide)) (by decide) hload (fun hrel => absurd hrel (by decide))
  have hplaces : recordedPlaces (placementSample (2 ^ 30 + 4))
      (applicationLoadMem samplePlace (placementSample (2 ^ 30 + 4))
        (sampleState (placementSample (2 ^ 30 + 4)))).1.bin = [(1, 2 ^ 30 + 4), (2, 2 ^ 30 + 8)] := by
    decide
  have hws : (applicationLoadMem samplePlace (placementSample (2 ^ 30 + 4))
        (sampleState (placementSample (2 ^ 30 + 4)))).1.writes =
      [⟨2 ^ 30, [1, 2, 3, 4]⟩, ⟨2 ^ 30 + 4, [5, 6, 7, 8]⟩] := by
    decide
  have hplaced := hright.placed
  rw [hplaces, show (sampleState (placementSample (2 ^ 30 + 4))).writes.length = 0 from rfl,
    List.drop_zero, hws] at hplaced
  obtain ⟨htext, -⟩ := List.forall₂_cons.mp hplaced
  exact absurd (htext.dest (by decide)) (by decide)

end FlightOs
