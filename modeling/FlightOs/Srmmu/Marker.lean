/-
# The marker of a table

`mmu_alloc_tbl` asks for twice the size of a table, moves up to the next multiple of that size, and
leaves two words next to the table by which `mmu_free_tbl` finds the start of the buffer again: below
the table if there is room, else above it.  The place above is `tbl[tbl_size]`, with the size in bytes
as an index of words: it lies four table sizes up, and so behind the buffer.

* `MmuTblKept`: what the two functions rely on, for one address of the allocator.
* `mmuTblKept_of_unaligned`: the words below a table keep it.
* `mmuAllocTbl_iff`: for the tables of level 2 and 3, it is kept unless the buffer itself is aligned.
-/
import FlightOs.Srmmu.Tree

namespace FlightOs

section Marker

variable {s s' : Srmmu} {n a x : Nat} {as : List Nat}

/-- Where the words of a table of `n` bytes at `T` may lie, in the buffer at `a`. -/
def BesideTbl (n a T x : Nat) : Prop := a ≤ x ∧ x + 4 ≤ a + 2 * n ∧ (x + 4 ≤ T ∨ T + n ≤ x)

/-- What is in a buffer next to the table is still there, the count apart. -/
def MarkerKept (s s' : Srmmu) (n a T : Nat) : Prop :=
  ∀ x, BesideTbl n a T x → mmuRefSlot s T n ≠ .ok x → s'.mem x = s.mem x

/-- **A table in a buffer**: it is aligned and inside, what was stored for it lies inside and next to
it, and however the table and its count are used, it is the buffer that is given back. -/
structure MmuTblKept (n a : Nat) (s : Srmmu) : Prop where
  aligned : n ∣ (mmuAllocTbl s n).2
  inside : a ≤ (mmuAllocTbl s n).2 ∧ (mmuAllocTbl s n).2 + n ≤ a + 2 * n
  beside : ∀ x, (mmuAllocTbl s n).1.mem x ≠ s.mem x → BesideTbl n a (mmuAllocTbl s n).2 x
  freed : ∀ s', MarkerKept (mmuAllocTbl s n).1 s' n a (mmuAllocTbl s n).2 →
    mmuFreeTbl s' (mmuAllocTbl s n).2 n = .ok (s'.free a)

/-- **Above the start of the buffer** there is room for the two words. -/
theorem mmuAllocTbl_below (hans : s.answers = a :: as) (h8 : 8 ∣ a) (hn : 8 ∣ n) (h0 : 0 < n)
    (hn31 : n < 2 ^ 31) (ha : a + 2 * n ≤ 2 ^ 32) (hna : ¬ n ∣ a) :
    n ∣ walign a n ∧ a + 8 ≤ walign a n ∧ walign a n < a + n ∧
      mmuAllocTbl s n =
        ((({ s with answers := as, heap := (a, 2 * n) :: s.heap }).write (walign a n - 4)
          (magic (walign a n - a))).write (walign a n - 8) 0, walign a n) := by
  obtain ⟨hal, hge, hlt⟩ := walign_spec (x := a) h0 (by omega)
  have h8T : 8 ∣ walign a n := hn.trans hal
  have hne : walign a n ≠ a := fun e => hna (e ▸ hal)
  have ha0 : a ≠ 0 := fun e => hna (e ▸ Nat.dvd_zero n)
  have hT : a + 8 ≤ walign a n := by omega
  refine ⟨hal, hT, hlt, ?_⟩
  obtain ⟨T, hTa⟩ : ∃ T, T = walign a n := ⟨_, rfl⟩
  rw [← hTa] at hal hge hlt h8T hne hT
  have hoff : wsub T a = T - a := wsub_of_le (by omega) hge
  have h4 : wsub T 4 = T - 4 := wsub_of_le (by omega) (by omega)
  have h8' : wsub T 8 = T - 8 := wsub_of_le (by omega) (by omega)
  have hcond : magicWords < T - a ∧ T - a < 2 ^ 31 := by
    rw [magicWords]
    omega
  simp only [mmuAllocTbl, Srmmu.alloc, hans, if_neg ha0, ← hTa, hoff, h4, h8', if_pos hcond]

/-- **At the start of the buffer** the words are stored behind it. -/
theorem mmuAllocTbl_above (hans : s.answers = a :: as) (h0 : 0 < n) (ha0 : a ≠ 0)
    (ha : a + 2 * n ≤ 2 ^ 32) (hna : n ∣ a) :
    mmuAllocTbl s n =
      ((({ s with answers := as, heap := (a, 2 * n) :: s.heap }).write (entryAddr a n)
        (magic 0)).write (entryAddr a (n + 1)) 0, a) := by
  have hT : walign a n = a := walign_of_dvd h0 (by omega) hna
  have hoff : wsub a a = 0 := by rw [wsub_of_le (by omega) (Nat.le_refl a), Nat.sub_self]
  have hcond : ¬ (magicWords < 0 ∧ 0 < 2 ^ 31) := by decide
  simp only [mmuAllocTbl, Srmmu.alloc, hans, if_neg ha0, hT, hoff, if_neg hcond]

/-- A table that is not at the start of its buffer is kept. -/
theorem mmuTblKept_of_unaligned (hans : s.answers = a :: as) (h8 : 8 ∣ a) (hn : 8 ∣ n) (h0 : 0 < n)
    (hn10 : n ≤ 1024) (ha : a + 2 * n ≤ 2 ^ 32) (hna : ¬ n ∣ a) : MmuTblKept n a s := by
  obtain ⟨hal, hge, hlt, hres⟩ :=
    mmuAllocTbl_below hans h8 hn h0 (lt_of_le_of_lt hn10 (by decide)) ha hna
  generalize walign a n = T at hal hge hlt hres
  have h4 : wsub T 4 = T - 4 := wsub_of_le (by omega) (by omega)
  have h8' : wsub T 8 = T - 8 := wsub_of_le (by omega) (by omega)
  have hmark : (mmuAllocTbl s n).1.mem (T - 4) = magic (T - a) := by
    rw [hres]
    simp only [Srmmu.write]
    rw [Function.update_of_ne (by omega), Function.update_self]
  have hmagic : isMagic (magic (T - a)) = true := isMagic_magic (by omega)
  have hT : (mmuAllocTbl s n).2 = T := by rw [hres]
  constructor
  · rwa [hT]
  · rw [hT]
    omega
  · intro x hx
    rw [hT]
    have hwhere : x = T - 4 ∨ x = T - 8 := by
      by_contra hne
      rw [not_or] at hne
      refine hx ?_
      rw [hres]
      simp only [Srmmu.write]
      rw [Function.update_of_ne hne.2, Function.update_of_ne hne.1]
    unfold BesideTbl
    omega
  · intro s' hkept
    rw [hT] at hkept ⊢
    have hslot : mmuRefSlot (mmuAllocTbl s n).1 T n = .ok (T - 8) := by
      rw [mmuRefSlot, mmuMarker, h4, hmark, if_pos hmagic, h8']
    have hthere : s'.mem (T - 4) = magic (T - a) := by
      rw [hkept (T - 4) (by unfold BesideTbl; omega), hmark]
      rw [hslot, ne_eq, Except.ok.injEq]
      omega
    have hback : wsub T (offsetFromMagic (magic (T - a))) = a := by
      rw [offsetFromMagic_magic (by omega), wsub_of_le (by omega) (Nat.sub_le T a)]
      omega
    rw [mmuFreeTbl, mmuMarker, h4, hthere, if_pos hmagic]
    simp only [hback]

/-- The word behind an aligned buffer that is taken for the marker's place. -/
theorem entryAddr_outside (hn : 0 < n) (hn30 : n < 2 ^ 30) (ha : a + 2 * n ≤ 2 ^ 32) :
    ¬ BesideTbl n a a (entryAddr a n) ∧ entryAddr a n ≠ entryAddr a (n + 1) := by
  unfold BesideTbl entryAddr wadd
  omega

/-- A memory in which every store of a marker or a count shows, with one buffer to hand out. -/
def onesMem (a : Nat) : Srmmu := ⟨fun _ => 1, [a], [], []⟩

/-- **The tables of level 2 and 3** are kept in every buffer that does not start at a multiple of their
size, and in no other. -/
theorem mmuAllocTbl_iff (hn : n = srmmuTblLvl2Align ∨ n = srmmuTblLvl3Align) (h8 : 8 ∣ a)
    (h0 : a ≠ 0) (ha : a + 2 * n ≤ 2 ^ 32) :
    (∀ s as, s.answers = a :: as → MmuTblKept n a s) ↔ ¬ n ∣ a := by
  have h256 : n = 256 := by
    rcases hn with rfl | rfl
    · rfl
    · rfl
  subst h256
  constructor
  · intro hall hna
    have hans : (onesMem a).answers = a :: [] := rfl
    have hres := mmuAllocTbl_above hans (by decide) h0 ha hna
    obtain ⟨hout, hne⟩ := entryAddr_outside (n := 256) (by decide) (by decide) ha
    have hbeside := (hall (onesMem a) [] hans).beside (entryAddr a 256)
    rw [hres] at hbeside
    refine hout (hbeside ?_)
    simp only [Srmmu.write]
    rw [Function.update_of_ne hne, Function.update_self]
    exact (by decide : magic 0 ≠ 1)
  · intro hna s as hans
    exact mmuTblKept_of_unaligned hans h8 (by decide) (by decide) (by decide) ha hna

/-- A buffer at 8 bytes above a multiple of 256 serves a table of level 2. -/
theorem mmuAllocTbl_iff_unaligned :
    (∀ s as, s.answers = 4104 :: as → MmuTblKept 256 4104 s) ↔ ¬ 256 ∣ 4104 :=
  mmuAllocTbl_iff (Or.inl rfl) (by decide) (by decide) (by decide)

/-- **A buffer at a multiple of 256**: the words of its table are not in it. -/
theorem mmuAllocTbl_outside :
    ¬ ∀ n, (n = srmmuTblLvl2Align ∨ n = srmmuTblLvl3Align) → ∀ a, 8 ∣ a → a ≠ 0 →
      a + 2 * n ≤ 2 ^ 32 → ∀ s as, s.answers = a :: as → MmuTblKept n a s := by
  intro hall
  have hkept := hall 256 (Or.inl rfl) 4096 (by decide) (by decide) (by decide)
    (onesMem 4096) [] rfl
  have hbeside := hkept.beside 5120 (by decide)
  rw [BesideTbl] at hbeside
  omega

end Marker

end FlightOs
