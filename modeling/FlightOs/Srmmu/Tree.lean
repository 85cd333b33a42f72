/-
# Page tables as a tree

What the tables in memory stand for: for each 16 MiB region at most one table of level 2, for
each 256 KiB section at most one of level 3, with 64 entries each and a count.  `PgTree` is that
tree, with the address of every table; `Rep s lvl1 A` says that the memory of `s` holds the tree
`A` below the level 1 table at `lvl1`, each table in a buffer of its own.

Since the buffers are apart, a store to one table leaves the rest of the tree as it is.  That is
proved once here: one lemma for each kind of store (`setEnt`, `setCnt`, `setTop`), one for a
table that is given back (`unlink`) and one for a table that is set up in a new buffer
(`build`).

A table whose buffer already starts at a multiple of 256 is not covered: its marker words lie
outside of its buffer.
-/
import FlightOs.Srmmu.Tables
import Mathlib.Logic.Function.Basic

namespace FlightOs

/-! ## 1. Encodings -/

theorem magicMarker_eq : magicMarker = 3735934976 := by decide

theorem magic_eq {o : Nat} (ho : o < 1024) : magic o = 3735934976 + o := by
  have h : 3735934976 + o = 3735934976 ||| o := by
    have := Nat.two_pow_add_eq_or_of_lt (i := 10) ho 3648374
    simpa using this
  rw [magic, Nat.mod_eq_of_lt ho, magicMarker_eq, h, Nat.or_comm]

theorem isMagic_magic {o : Nat} (ho : o < 1024) : isMagic (magic o) = true := by
  rw [isMagic, magic_eq ho, magicMarker_eq, beq_iff_eq, wclr]
  omega

theorem offsetFromMagic_magic {o : Nat} (ho : o < 1024) : offsetFromMagic (magic o) = o := by
  rw [offsetFromMagic, magic_eq ho]
  omega

theorem isPtEntry_iff {x : Nat} : isPtEntry x = true ↔ x / 2 % 2 = 1 := by
  rw [isPtEntry, Nat.testBit_eq_decide_div_mod_eq, decide_eq_true_iff, pow_one]

/-- A descriptor of an aligned table is no entry, is not zero, and leads back to the table. -/
theorem srmmuPtd_spec {T : Nat} (h : 256 ∣ T) (hT : T < 2 ^ 32) :
    isPtEntry (srmmuPtd T) = false ∧ srmmuPtd T ≠ 0 ∧ srmmuPtdToAddr (srmmuPtd T) = T := by
  obtain ⟨t, rfl⟩ := h
  have hptd : srmmuPtd (256 * t) = 16 * t + 1 := by
    have hdiv : wclr (256 * t / 2 ^ 4) 2 = 2 ^ 4 * t := by
      rw [wclr]
      omega
    have hor : 2 ^ 4 * t + 1 = 2 ^ 4 * t ||| 1 := Nat.two_pow_add_eq_or_of_lt (by norm_num) t
    rw [srmmuPtd, hdiv, ← hor]
    omega
  refine ⟨?_, by omega, ?_⟩
  · rw [hptd, Bool.eq_false_iff]
    intro he
    rw [isPtEntry_iff] at he
    omega
  · have hclr : wclr (16 * t + 1) 2 = 16 * t := by
      rw [wclr]
      omega
    rw [hptd, srmmuPtdToAddr, hclr, wshl]
    norm_num
    omega

/-- An entry is an entry, whatever the page and the flags. -/
theorem isPtEntry_srmmuPte (pa perm : Nat) : isPtEntry (srmmuPte pa perm) = true := by
  rw [isPtEntry, srmmuPte, Nat.testBit_or, Nat.testBit_or]
  simp [Nat.testBit]

theorem ne_zero_of_isPtEntry {x : Nat} (h : isPtEntry x = true) : x ≠ 0 := by
  rintro rfl
  exact absurd h (by decide)

/-- An entry with flags that fit leads back to its page. -/
theorem srmmuPteToAddr_srmmuPte {pa perm : Nat} (h : 4096 ∣ pa) (hpa : pa < 2 ^ 32)
    (hperm : perm < 256) : srmmuPteToAddr (srmmuPte pa perm) = pa := by
  obtain ⟨t, rfl⟩ := h
  have hdiv : wclr (4096 * t / 2 ^ 4) 8 = 2 ^ 8 * t := by
    rw [wclr]
    omega
  have hflags : 2 ||| perm < 2 ^ 8 := Nat.or_lt_two_pow (x := 2) (by omega) hperm
  have hor : 2 ^ 8 * t + (2 ||| perm) = 2 ^ 8 * t ||| (2 ||| perm) :=
    Nat.two_pow_add_eq_or_of_lt hflags t
  have hclr : wclr (2 ^ 8 * t + (2 ||| perm)) 8 = 256 * t := by
    rw [wclr]
    omega
  rw [srmmuPteToAddr, srmmuPte, hdiv, Nat.or_assoc, ← hor, hclr, wshl]
  norm_num
  omega

/-! ## 2. The tree -/

/-- The table of a 16 MiB region, or of a 256 KiB section. -/
inductive TblKey
  | lvl2 (r : Nat)
  | lvl3 (q : Nat)
deriving DecidableEq

/-- The entries of level 1, and for each table its address, its entries and its count. -/
structure PgTree where
  top : Nat → Nat
  tbl : TblKey → Option Nat
  ent : TblKey → Nat → Nat
  cnt : TblKey → Nat

namespace PgTree

def setTop (A : PgTree) (r v : Nat) : PgTree := { A with top := Function.update A.top r v }

def setTbl (A : PgTree) (k : TblKey) (t : Option Nat) : PgTree :=
  { A with tbl := Function.update A.tbl k t }

def setEnt (A : PgTree) (k : TblKey) (i v : Nat) : PgTree :=
  { A with ent := Function.update A.ent k (Function.update (A.ent k) i v) }

def setCnt (A : PgTree) (k : TblKey) (v : Nat) : PgTree :=
  { A with cnt := Function.update A.cnt k v }

/-- A new table, empty and not counted yet. -/
def addTbl (A : PgTree) (k : TblKey) (T : Nat) : PgTree :=
  { A with
    tbl := Function.update A.tbl k (some T)
    ent := Function.update A.ent k (fun _ => 0)
    cnt := Function.update A.cnt k 0 }

variable {A : PgTree} {k k' : TblKey} {T : Nat}

theorem addTbl_self : (A.addTbl k T).tbl k = some T := by simp [addTbl]

theorem addTbl_of_ne (h : k' ≠ k) : (A.addTbl k T).tbl k' = A.tbl k' ∧
    (A.addTbl k T).cnt k' = A.cnt k' := by
  simp [addTbl, h]

/-- A new table takes no other one's place. -/
theorem addTbl_of_some (h : A.tbl k = none) {T' : Nat} (hk' : A.tbl k' = some T') :
    (A.addTbl k T).tbl k' = some T' := by
  refine (addTbl_of_ne ?_).1.trans hk'
  rintro rfl
  rw [h] at hk'
  cases hk'

end PgTree

/-! ## 3. Buffers -/

/-- The buffers, of 512 bytes each, lie apart, in the address space, and clear of the level 1
table. -/
structure HeapOk (heap : List (Nat × Nat)) (lvl1 : Nat) : Prop where
  bound : ∀ b ∈ heap, 0 < b.1 ∧ b.1 + b.2 ≤ 2 ^ 32 ∧ b.2 = 512
  apart : ∀ b ∈ heap, ∀ c ∈ heap, b ≠ c → b.1 + b.2 ≤ c.1 ∨ c.1 + c.2 ≤ b.1
  top : ∀ b ∈ heap, b.1 + b.2 ≤ lvl1 ∨ lvl1 + 1024 ≤ b.1
  lvl1 : lvl1 + 1024 ≤ 2 ^ 32

/-- A buffer that a valid allocator may hand out: aligned to 8 bytes, in the address space, and
clear of everything in use. -/
structure FreshBuf (heap : List (Nat × Nat)) (lvl1 a : Nat) : Prop where
  pos : 0 < a
  aligned : 8 ∣ a
  bound : a + 512 ≤ 2 ^ 32
  apart : ∀ b ∈ heap, a + 512 ≤ b.1 ∨ b.1 + b.2 ≤ a
  top : a + 512 ≤ lvl1 ∨ lvl1 + 1024 ≤ a

theorem HeapOk.cons {heap : List (Nat × Nat)} {lvl1 a : Nat} (h : HeapOk heap lvl1)
    (ha : FreshBuf heap lvl1 a) : HeapOk ((a, 512) :: heap) lvl1 where
  bound b hb := by
    rcases List.mem_cons.mp hb with rfl | hb
    · exact ⟨ha.pos, ha.bound, rfl⟩
    · exact h.bound b hb
  apart b hb c hc hne := by
    rcases List.mem_cons.mp hb with rfl | hb <;> rcases List.mem_cons.mp hc with rfl | hc
    · exact absurd rfl hne
    · exact ha.apart c hc
    · exact (ha.apart b hb).symm
    · exact h.apart b hb c hc hne
  top b hb := by
    rcases List.mem_cons.mp hb with rfl | hb
    · exact ha.top
    · exact h.top b hb
  lvl1 := h.lvl1

theorem HeapOk.filter {heap : List (Nat × Nat)} {lvl1 : Nat} (h : HeapOk heap lvl1)
    (p : Nat × Nat → Bool) : HeapOk (heap.filter p) lvl1 where
  bound b hb := h.bound b (List.mem_filter.mp hb).1
  apart b hb c hc := h.apart b (List.mem_filter.mp hb).1 c (List.mem_filter.mp hc).1
  top b hb := h.top b (List.mem_filter.mp hb).1
  lvl1 := h.lvl1

/-! ## 4. A tree in memory -/

/-- A table in a buffer of its own, with the marker and the count in the two words below it. -/
structure TblAt (s : Srmmu) (T cnt : Nat) (ent : Nat → Nat) : Prop where
  aligned : 256 ∣ T
  buf : ∃ B, (B, 512) ∈ s.heap ∧ B + 8 ≤ T ∧ T < B + 256 ∧ s.mem (T - 4) = magic (T - B)
  cnt : s.mem (T - 8) = cnt
  ent : ∀ i < 64, s.mem (T + 4 * i) = ent i

/-- The memory holds the tree below the level 1 table. -/
structure Rep (s : Srmmu) (lvl1 : Nat) (A : PgTree) : Prop where
  heap : HeapOk s.heap lvl1
  top : ∀ r < 256, s.mem (lvl1 + 4 * r) = A.top r
  tbl : ∀ k T, A.tbl k = some T → TblAt s T (A.cnt k) (A.ent k)
  inj : ∀ k k' T, A.tbl k = some T → A.tbl k' = some T → k = k'

/-- A table is the same where the words of its footprint and its buffer are. -/
theorem TblAt.congr {s s' : Srmmu} {T cnt : Nat} {ent : Nat → Nat} (h : TblAt s T cnt ent)
    (hheap : ∀ B, (B, 512) ∈ s.heap → B < T → T < B + 256 → (B, 512) ∈ s'.heap)
    (hmem : ∀ a, T - 8 ≤ a → a < T + 256 → s'.mem a = s.mem a) : TblAt s' T cnt ent := by
  obtain ⟨B, hB, h1, h2, hmagic⟩ := h.buf
  refine ⟨h.aligned, ⟨B, hheap B hB (by omega) h2, h1, h2, ?_⟩, ?_, fun i hi => ?_⟩
  · rw [hmem _ (by omega) (by omega), hmagic]
  · rw [hmem _ (by omega) (by omega), h.cnt]
  · rw [hmem _ (by omega) (by omega), h.ent i hi]

namespace Rep

variable {s : Srmmu} {lvl1 : Nat} {A : PgTree}

/-- Where a table lies. -/
theorem bounds (h : Rep s lvl1 A) {k : TblKey} {T : Nat} (hk : A.tbl k = some T) :
    8 < T ∧ T + 256 ≤ 2 ^ 32 ∧ (T + 256 ≤ lvl1 ∨ lvl1 + 1024 ≤ T - 8) := by
  obtain ⟨B, hB, h1, h2, -⟩ := (h.tbl k T hk).buf
  have hb := h.heap.bound _ hB
  have ht := h.heap.top _ hB
  simp only at hb ht
  omega

/-- The footprints of two tables are apart. -/
theorem apart (h : Rep s lvl1 A) {k k' : TblKey} {T T' : Nat} (hk : A.tbl k = some T)
    (hk' : A.tbl k' = some T') (hne : k ≠ k') : T + 256 ≤ T' - 8 ∨ T' + 256 ≤ T - 8 := by
  obtain ⟨B, hB, h1, h2, -⟩ := (h.tbl k T hk).buf
  obtain ⟨B', hB', h1', h2', -⟩ := (h.tbl k' T' hk').buf
  obtain ⟨t, rfl⟩ := (h.tbl k T hk).aligned
  obtain ⟨t', rfl⟩ := (h.tbl k' T' hk').aligned
  by_cases hBB : B = B'
  · -- one buffer holds one table only
    have htt : 256 * t = 256 * t' := by omega
    exact absurd (h.inj k k' _ hk (htt ▸ hk')) hne
  · have := h.heap.apart _ hB _ hB' (fun e => hBB (congrArg Prod.fst e))
    simp only at this
    omega

theorem entryAddr_eq (h : Rep s lvl1 A) {k : TblKey} {T i : Nat} (hk : A.tbl k = some T)
    (hi : i < 64) : entryAddr T i = T + 4 * i := by
  have := h.bounds hk
  exact wadd_of_lt (by omega)

theorem entryAddr_top (h : Rep s lvl1 A) {r : Nat} (hr : r < 256) :
    entryAddr lvl1 r = lvl1 + 4 * r := by
  have := h.heap.lvl1
  exact wadd_of_lt (by omega)

theorem entry_eq (h : Rep s lvl1 A) {k : TblKey} {T i : Nat} (hk : A.tbl k = some T)
    (hi : i < 64) : s.entry T i = A.ent k i := by
  rw [Srmmu.entry, h.entryAddr_eq hk hi, (h.tbl k T hk).ent i hi]

theorem entry_top (h : Rep s lvl1 A) {r : Nat} (hr : r < 256) : s.entry lvl1 r = A.top r := by
  rw [Srmmu.entry, h.entryAddr_top hr, h.top r hr]

/-- The words below a table. -/
theorem below_eq (h : Rep s lvl1 A) {k : TblKey} {T : Nat} (hk : A.tbl k = some T) :
    wsub T 4 = T - 4 ∧ wsub T 8 = T - 8 := by
  have := h.bounds hk
  exact ⟨wsub_of_le (by omega) (by omega), wsub_of_le (by omega) (by omega)⟩

/-- The marker of a table is found below it. -/
theorem marker_eq (h : Rep s lvl1 A) {k : TblKey} {T n : Nat} (hk : A.tbl k = some T) :
    mmuMarker s T n = .below := by
  obtain ⟨B, -, h1, h2, hmagic⟩ := (h.tbl k T hk).buf
  rw [mmuMarker, (h.below_eq hk).1, hmagic, isMagic_magic (by omega), if_pos rfl]

/-! ### Stores -/

/-- A store to an entry of a table. -/
theorem setEnt (h : Rep s lvl1 A) {k : TblKey} {T i : Nat} (v : Nat) (hk : A.tbl k = some T)
    (hi : i < 64) : Rep (s.write (entryAddr T i) v) lvl1 (A.setEnt k i v) := by
  rw [h.entryAddr_eq hk hi]
  have hT := h.bounds hk
  refine ⟨h.heap, fun r hr => ?_, fun k' T' hk' => ?_, h.inj⟩
  · simp only [Srmmu.write]
    rw [Function.update_of_ne (by omega), h.top r hr]
    rfl
  · by_cases hkk : k' = k
    · subst hkk
      obtain rfl : T' = T := Option.some.inj (hk'.symm.trans hk)
      obtain ⟨B, hB, h1, h2, hmagic⟩ := (h.tbl k' T' hk).buf
      refine ⟨(h.tbl k' T' hk).aligned, ⟨B, hB, h1, h2, ?_⟩, ?_, fun j hj => ?_⟩
      · simp only [Srmmu.write]
        rw [Function.update_of_ne (by omega), hmagic]
      · simp only [Srmmu.write]
        rw [Function.update_of_ne (by omega), (h.tbl k' T' hk).cnt]
        rfl
      · simp only [Srmmu.write, PgTree.setEnt, Function.update_self]
        by_cases hji : j = i
        · subst hji
          rw [Function.update_self, Function.update_self]
        · rw [Function.update_of_ne (by omega), Function.update_of_ne hji,
            (h.tbl k' T' hk).ent j hj]
    · have hap := h.apart hk hk' (Ne.symm hkk)
      have hent : (A.setEnt k i v).ent k' = A.ent k' := Function.update_of_ne hkk _ _
      rw [hent]
      refine (h.tbl k' T' hk').congr (fun B hB _ _ => hB) (fun a h1 h2 => ?_)
      exact Function.update_of_ne (by omega) _ _

/-- A store to the count of a table. -/
theorem setCnt (h : Rep s lvl1 A) {k : TblKey} {T : Nat} (v : Nat) (hk : A.tbl k = some T) :
    Rep (s.write (wsub T 8) v) lvl1 (A.setCnt k v) := by
  rw [(h.below_eq hk).2]
  have hT := h.bounds hk
  refine ⟨h.heap, fun r hr => ?_, fun k' T' hk' => ?_, h.inj⟩
  · simp only [Srmmu.write]
    rw [Function.update_of_ne (by omega), h.top r hr]
    rfl
  · by_cases hkk : k' = k
    · subst hkk
      obtain rfl : T' = T := Option.some.inj (hk'.symm.trans hk)
      obtain ⟨B, hB, h1, h2, hmagic⟩ := (h.tbl k' T' hk).buf
      refine ⟨(h.tbl k' T' hk).aligned, ⟨B, hB, h1, h2, ?_⟩, ?_, fun j hj => ?_⟩
      · simp only [Srmmu.write]
        rw [Function.update_of_ne (by omega), hmagic]
      · simp only [Srmmu.write, PgTree.setCnt, Function.update_self]
      · simp only [Srmmu.write]
        rw [Function.update_of_ne (by omega), (h.tbl k' T' hk).ent j hj]
        rfl
    · have hap := h.apart hk hk' (Ne.symm hkk)
      have hcnt : (A.setCnt k v).cnt k' = A.cnt k' := Function.update_of_ne hkk _ _
      rw [hcnt]
      refine (h.tbl k' T' hk').congr (fun B hB _ _ => hB) (fun a h1 h2 => ?_)
      exact Function.update_of_ne (by omega) _ _

/-- A store to an entry of level 1. -/
theorem setTop (h : Rep s lvl1 A) {r : Nat} (v : Nat) (hr : r < 256) :
    Rep (s.write (entryAddr lvl1 r) v) lvl1 (A.setTop r v) := by
  rw [h.entryAddr_top hr]
  refine ⟨h.heap, fun r' hr' => ?_, fun k T hk => ?_, h.inj⟩
  · simp only [Srmmu.write, PgTree.setTop]
    by_cases hrr : r' = r
    · subst hrr
      rw [Function.update_self, Function.update_self]
    · rw [Function.update_of_ne (by omega), Function.update_of_ne hrr, h.top r' hr']
  · have hT := h.bounds hk
    refine (h.tbl k T hk).congr (fun B hB _ _ => hB) (fun a h1 h2 => ?_)
    exact Function.update_of_ne (by omega) _ _

/-- A log entry, or another list of answers, is no store. -/
theorem congr (h : Rep s lvl1 A) {s' : Srmmu} (hmem : s'.mem = s.mem) (hheap : s'.heap = s.heap) :
    Rep s' lvl1 A := by
  refine ⟨hheap ▸ h.heap, fun r hr => by rw [hmem]; exact h.top r hr, fun k T hk => ?_, h.inj⟩
  exact (h.tbl k T hk).congr (fun B hB _ _ => hheap ▸ hB) (fun a _ _ => by rw [hmem])

/-- Tables that no entry leads to any more need not be part of the tree. -/
theorem forget (h : Rep s lvl1 A) {tbl : TblKey → Option Nat}
    (htbl : ∀ k T, tbl k = some T → A.tbl k = some T) : Rep s lvl1 { A with tbl := tbl } :=
  ⟨h.heap, h.top, fun k T hk => h.tbl k T (htbl k T hk),
    fun k k' T hk hk' => h.inj k k' T (htbl k T hk) (htbl k' T hk')⟩

/-- The buffer of a table, computed from its marker. -/
theorem free_addr (h : Rep s lvl1 A) {k : TblKey} {T : Nat} (hk : A.tbl k = some T) :
    ∃ B, wsub T (offsetFromMagic (s.mem (wsub T 4))) = B ∧ (B, 512) ∈ s.heap ∧
      B + 8 ≤ T ∧ T < B + 256 := by
  obtain ⟨B, hB, h1, h2, hmagic⟩ := (h.tbl k T hk).buf
  have hT := h.bounds hk
  refine ⟨B, ?_, hB, h1, h2⟩
  rw [(h.below_eq hk).1, hmagic, offsetFromMagic_magic (by omega),
    wsub_of_le (by omega) (by omega)]
  omega

/-- Giving the buffer of a table back. -/
theorem unlink (h : Rep s lvl1 A) {k : TblKey} {T B : Nat} (hk : A.tbl k = some T)
    (hB : (B, 512) ∈ s.heap) (h1 : B + 8 ≤ T) (h2 : T < B + 256) :
    Rep (s.free B) lvl1 (A.setTbl k none) := by
  have hmem : ∀ k' T', (A.setTbl k none).tbl k' = some T' → A.tbl k' = some T' ∧ k' ≠ k := by
    intro k' T' hk'
    simp only [PgTree.setTbl] at hk'
    by_cases hkk : k' = k
    · subst hkk
      rw [Function.update_self] at hk'
      cases hk'
    · rw [Function.update_of_ne hkk] at hk'
      exact ⟨hk', hkk⟩
  refine ⟨h.heap.filter _, h.top, fun k' T' hk' => ?_, fun k₁ k₂ T' e₁ e₂ =>
    h.inj k₁ k₂ T' (hmem k₁ T' e₁).1 (hmem k₂ T' e₂).1⟩
  obtain ⟨hk'', hne⟩ := hmem k' T' hk'
  have hap := h.apart hk hk'' (Ne.symm hne)
  refine (h.tbl k' T' hk'').congr (fun B' hB' h3 h4 => ?_) (fun a _ _ => rfl)
  refine List.mem_filter.mpr ⟨hB', ?_⟩
  simp only [ne_eq, decide_eq_true_eq]
  -- the other table would lie in the same buffer
  rintro rfl
  omega

/-! ### The count and the buffer of a table -/

/-- Where the count of a table is. -/
theorem refSlot_eq (h : Rep s lvl1 A) {k : TblKey} {T n : Nat} (hk : A.tbl k = some T) :
    mmuRefSlot s T n = .ok (wsub T 8) ∧ s.mem (wsub T 8) = A.cnt k := by
  rw [mmuRefSlot, h.marker_eq hk, (h.below_eq hk).2, (h.tbl k T hk).cnt]
  exact ⟨rfl, rfl⟩

theorem incRefCnt (h : Rep s lvl1 A) {k : TblKey} {T n : Nat} (hk : A.tbl k = some T)
    (hcnt : A.cnt k + 1 < 2 ^ 32) :
    ∃ s', mmuIncRefCnt s T n = .ok (s', A.cnt k + 1) ∧ Rep s' lvl1 (A.setCnt k (A.cnt k + 1)) ∧
      s'.heap = s.heap ∧ s'.pages = s.pages := by
  obtain ⟨hslot, hmem⟩ := h.refSlot_eq (n := n) hk
  refine ⟨s.write (wsub T 8) (A.cnt k + 1), ?_, h.setCnt _ hk, rfl, rfl⟩
  rw [mmuIncRefCnt, hslot]
  simp only [hmem, wadd_of_lt hcnt]

theorem decRefCnt (h : Rep s lvl1 A) {k : TblKey} {T n : Nat} (hk : A.tbl k = some T)
    (hcnt : 0 < A.cnt k) :
    ∃ s', mmuDecRefCnt s T n = .ok (s', A.cnt k - 1) ∧ Rep s' lvl1 (A.setCnt k (A.cnt k - 1)) ∧
      s'.heap = s.heap ∧ s'.pages = s.pages := by
  obtain ⟨hslot, hmem⟩ := h.refSlot_eq (n := n) hk
  refine ⟨s.write (wsub T 8) (A.cnt k - 1), ?_, h.setCnt _ hk, rfl, rfl⟩
  rw [mmuDecRefCnt, hslot]
  simp only [hmem, if_neg (Nat.pos_iff_ne_zero.mp hcnt)]

/-- The buffer that goes back is that of the table. -/
theorem freeTbl (h : Rep s lvl1 A) {k : TblKey} {T n : Nat} (hk : A.tbl k = some T) :
    ∃ B, mmuFreeTbl s T n = .ok (s.free B) ∧ Rep (s.free B) lvl1 (A.setTbl k none) ∧
      (B, 512) ∈ s.heap ∧ B + 8 ≤ T ∧ T < B + 256 := by
  obtain ⟨B, haddr, hB, h1, h2⟩ := h.free_addr hk
  refine ⟨B, ?_, h.unlink hk hB h1 h2, hB, h1, h2⟩
  rw [mmuFreeTbl, h.marker_eq hk]
  simp only [haddr]

end Rep

/-! ## 5. New tables -/

/-- The answers of a valid allocator: `NULL`, or a buffer clear of everything in use. -/
def AnswersOk (lvl1 : Nat) : List (Nat × Nat) → List Nat → Prop
  | _, [] => True
  | heap, a :: as =>
    if a = 0 then AnswersOk lvl1 heap as
    else FreshBuf heap lvl1 a ∧ AnswersOk lvl1 ((a, 512) :: heap) as

/-- No buffer starts at a multiple of 256. -/
def Unaligned (answers : List Nat) : Prop := ∀ a ∈ answers, 256 ∣ a → a = 0

instance (answers : List Nat) : Decidable (Unaligned answers) :=
  inferInstanceAs (Decidable (∀ a ∈ answers, 256 ∣ a → a = 0))

/-- What making a table at `T` leaves behind: a new buffer around the table, and its two words. -/
structure NewTbl (s s' : Srmmu) (lvl1 T : Nat) : Prop where
  aligned : 256 ∣ T
  buf : ∃ B, FreshBuf s.heap lvl1 B ∧ s'.heap = (B, 512) :: s.heap ∧ B + 8 ≤ T ∧ T < B + 256 ∧
    s'.mem (T - 4) = magic (T - B)
  cnt : s'.mem (T - 8) = 0
  frame : ∀ x, x ≠ T - 4 → x ≠ T - 8 → s'.mem x = s.mem x
  pages : s'.pages = s.pages
  answers : AnswersOk lvl1 s'.heap s'.answers ∧ Unaligned s'.answers

/-- **`mmu_alloc_tbl`** fails without a trace, or makes a table inside of its buffer. -/
theorem mmuAllocTbl_spec {s : Srmmu} {lvl1 : Nat} (hok : AnswersOk lvl1 s.heap s.answers)
    (hun : Unaligned s.answers) :
    ((mmuAllocTbl s 256).2 = 0 ∧ (mmuAllocTbl s 256).1.mem = s.mem ∧
      (mmuAllocTbl s 256).1.heap = s.heap ∧ (mmuAllocTbl s 256).1.pages = s.pages) ∨
    ((mmuAllocTbl s 256).2 ≠ 0 ∧ NewTbl s (mmuAllocTbl s 256).1 lvl1 (mmuAllocTbl s 256).2) := by
  cases hans : s.answers with
  | nil =>
    have hnil : mmuAllocTbl s 256 = (s, 0) := by simp [mmuAllocTbl, Srmmu.alloc, hans]
    rw [hnil]
    exact Or.inl ⟨rfl, rfl, rfl, rfl⟩
  | cons a as =>
    rw [hans, AnswersOk] at hok
    by_cases ha : a = 0
    · have hnull : mmuAllocTbl s 256 = ({ s with answers := as }, 0) := by
        simp [mmuAllocTbl, Srmmu.alloc, hans, ha]
      rw [hnull]
      exact Or.inl ⟨rfl, rfl, rfl, rfl⟩
    · right
      rw [if_neg ha] at hok
      obtain ⟨hfresh, hok⟩ := hok
      have hbound := hfresh.bound
      obtain ⟨hal, hge, hlt⟩ := walign_spec (x := a) (a := 256) (by norm_num) (by omega)
      obtain ⟨T, hT⟩ : ∃ T, T = walign a 256 := ⟨_, rfl⟩
      rw [← hT] at hal hge hlt
      have hne : T ≠ a := fun e => ha (hun a (hans ▸ List.mem_cons_self) (e ▸ hal))
      have h8 := hfresh.aligned
      have hTa : a + 8 ≤ T := by omega
      have hoff : wsub T a = T - a := wsub_of_le (by omega) hge
      have h4 : wsub T 4 = T - 4 := wsub_of_le (by omega) (by omega)
      have h8' : wsub T 8 = T - 8 := wsub_of_le (by omega) (by omega)
      have hcond : magicWords < T - a ∧ T - a < 2 ^ 31 := by
        rw [magicWords]
        omega
      have hres : mmuAllocTbl s 256 =
          ((({ s with answers := as, heap := (a, 512) :: s.heap }).write (T - 4)
            (magic (T - a))).write (T - 8) 0, T) := by
        simp only [mmuAllocTbl, Srmmu.alloc, hans, if_neg ha, ← hT, hoff, h4, h8', if_pos hcond]
      rw [hres]
      refine ⟨by omega, hal, ⟨a, hfresh, rfl, hTa, by omega, ?_⟩, ?_, ?_, rfl, hok, ?_⟩
      · simp only [Srmmu.write]
        rw [Function.update_of_ne (by omega), Function.update_self]
      · simp only [Srmmu.write, Function.update_self]
      · intro x h1 h2
        simp only [Srmmu.write]
        rw [Function.update_of_ne h2, Function.update_of_ne h1]
      · exact fun b hb => hun b (hans ▸ List.mem_cons_of_mem a hb)

theorem mmuSetTblInvalid_spec (s : Srmmu) (T : Nat) : ∀ n,
    (∀ i < n, (mmuSetTblInvalid s T n).mem (entryAddr T i) = 0) ∧
    (∀ x, (∀ i < n, x ≠ entryAddr T i) → (mmuSetTblInvalid s T n).mem x = s.mem x) ∧
    (mmuSetTblInvalid s T n).heap = s.heap ∧ (mmuSetTblInvalid s T n).pages = s.pages ∧
    (mmuSetTblInvalid s T n).answers = s.answers
  | 0 => ⟨fun _ hi => absurd hi (Nat.not_lt_zero _), fun _ _ => rfl, rfl, rfl, rfl⟩
  | n + 1 => by
    obtain ⟨hzero, hframe, hheap, hpages, hans⟩ := mmuSetTblInvalid_spec s T n
    refine ⟨fun i hi => ?_, fun x hx => ?_, hheap, hpages, hans⟩
    · simp only [mmuSetTblInvalid, Srmmu.write]
      by_cases he : entryAddr T i = entryAddr T n
      · rw [he, Function.update_self]
      · rw [Function.update_of_ne he]
        exact hzero i (lt_of_le_of_ne (Nat.le_of_lt_succ hi) (fun e => he (e ▸ rfl)))
    · simp only [mmuSetTblInvalid, Srmmu.write]
      rw [Function.update_of_ne (hx n (Nat.lt_succ_self n))]
      exact hframe x (fun i hi => hx i (Nat.lt_succ_of_lt hi))

/-- A new table, once its entries are cleared, is a table of the tree that nothing leads to. -/
theorem Rep.build {s s' : Srmmu} {lvl1 T : Nat} {A : PgTree} (h : Rep s lvl1 A)
    (hn : NewTbl s s' lvl1 T) (k : TblKey) :
    Rep (mmuSetTblInvalid s' T 64) lvl1 (A.addTbl k T) := by
  obtain ⟨B, hfresh, hheap, h1, h2, hmagic⟩ := hn.buf
  obtain ⟨hzero, hframe, hheap', -, -⟩ := mmuSetTblInvalid_spec s' T 64
  have hbound := hfresh.bound
  have hent : ∀ i < 64, entryAddr T i = T + 4 * i := fun i hi => wadd_of_lt (by omega)
  -- below the table, and outside of its footprint, nothing is cleared
  have hout : ∀ x, x < T ∨ T + 256 ≤ x → (mmuSetTblInvalid s' T 64).mem x = s'.mem x := by
    intro x hx
    refine hframe x (fun i hi => ?_)
    rw [hent i hi]
    omega
  have hbuf : ∀ k' T', A.tbl k' = some T' → T' + 256 ≤ B ∨ B + 512 ≤ T' - 8 := by
    intro k' T' hk'
    obtain ⟨B', hB', h1', h2', -⟩ := (h.tbl k' T' hk').buf
    have := hfresh.apart _ hB'
    simp only at this
    omega
  have htop := hfresh.top
  refine ⟨?heap, ?top, ?tbl, ?inj⟩
  case heap =>
    rw [hheap', hheap]
    exact h.heap.cons hfresh
  case top =>
    intro r hr
    rw [hout _ (by omega), hn.frame _ (by omega) (by omega), h.top r hr]
    rfl
  case tbl =>
    intro k' T' hk'
    simp only [PgTree.addTbl, Function.update_apply] at hk' ⊢
    by_cases hkk : k' = k
    · rw [if_pos hkk] at hk'
      obtain rfl : T = T' := Option.some.inj hk'
      rw [if_pos hkk, if_pos hkk]
      refine ⟨hn.aligned, ⟨B, ?_, h1, h2, ?_⟩, ?_, fun i hi => ?_⟩
      · rw [hheap', hheap]
        exact List.mem_cons_self
      · rw [hout _ (by omega), hmagic]
      · rw [hout _ (by omega), hn.cnt]
      · rw [← hent i hi]
        exact hzero i hi
    · rw [if_neg hkk] at hk'
      rw [if_neg hkk, if_neg hkk]
      have hap := hbuf k' T' hk'
      refine (h.tbl k' T' hk').congr (fun B' hB' _ _ => ?_) (fun x h3 h4 => ?_)
      · rw [hheap', hheap]
        exact List.mem_cons_of_mem _ hB'
      · rw [hout _ (by omega), hn.frame _ (by omega) (by omega)]
  case inj =>
    intro k₁ k₂ T' e₁ e₂
    simp only [PgTree.addTbl, Function.update_apply] at e₁ e₂
    split at e₁ <;> split at e₂
    next a b => rw [a, b]
    next a b =>
      have := hbuf k₂ T' e₂
      have := Option.some.inj e₁
      omega
    next a b =>
      have := hbuf k₁ T' e₁
      have := Option.some.inj e₂
      omega
    next a b => exact h.inj k₁ k₂ T' e₁ e₂

end FlightOs
