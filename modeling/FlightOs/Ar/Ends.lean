/-
# Whether the reader comes to an end

Both passes of `ar_load` (`lib/ar.c`) go on by the size that is read from a header, which may have a
sign.  A size of -60 leads back to the header that it is read from; others lead back over several
records.

Where the second pass stands is told by an `ArCursor`: it does not take a second string table, and a
second table with symbols, so that a circle through one ends with an error.

`ar_load_ends_iff`: `ar_load` returns if and only if neither pass comes to a header that leads back
to itself.  `ar_load_ends_of_forward`: it does where every header leads forward.
-/
import FlightOs.Lib.Circle
import FlightOs.Ar.Passes
import Mathlib.Data.Finite.Prod

namespace FlightOs

open Relation

/-! ## 1. The walks -/

/-- The first pass goes on from `q` to `q'`. -/
def ArSkips (mem : Nat → UInt8) (stack : List UInt8) (stop q q' : Nat) : Prop :=
  q < stop ∧ q' = arNext mem stack q

/-! ## 2. The positions -/

section Walks

variable {mem : Nat → UInt8} {avail : Nat → Bool} {stack stack' : List UInt8} {stop p : Nat}
  {hdr : List UInt8} {c c₁ c₂ : ArCursor} {a : Archive}

theorem memWord_lt (mem : Nat → UInt8) (p : Nat) : memWord mem p < 2 ^ 32 := by
  have h0 := (mem p).toNat_lt
  have h1 := (mem (wadd p 1)).toNat_lt
  have h2 := (mem (wadd p 2)).toNat_lt
  have h3 := (mem (wadd p 3)).toNat_lt
  unfold memWord
  omega

/-- The first pass stays among the addresses. -/
theorem arSkips_finite (hp : p < 2 ^ 32) :
    {q | ReflTransGen (ArSkips mem stack stop) p q}.Finite := by
  refine (Set.finite_lt_nat (2 ^ 32)).subset ?_
  intro q hq
  induction (Set.mem_ofPred.mp hq) with
  | refl => exact hp
  | tail _ hstep _ =>
    rw [hstep.2]
    exact wadd_lt _ _

/-- The fields of a cursor are words. -/
def ArCursor.Words (c : ArCursor) : Prop := c.p < 2 ^ 32 ∧ c.arStr < 2 ^ 32 ∧ c.nSym < 2 ^ 32

theorem ArTakes.words (h : ArTakes mem avail stack stop c c₁) (hc : c.Words) : c₁.Words := by
  obtain ⟨-, hstr, hsym⟩ := hc
  cases h with
  | strtab => exact ⟨wadd_lt _ _, wadd_lt _ _, hsym⟩
  | empty => exact ⟨wadd_lt _ _, hstr, hsym⟩
  | symtab => exact ⟨wadd_lt _ _, hstr, memWord_lt _ _⟩
  | file => exact ⟨wadd_lt _ _, hstr, hsym⟩

theorem arTakes_finite (hc : c.Words) :
    {k | ReflTransGen (ArTakes mem avail stack stop) c k}.Finite := by
  have hword : {i | i < 2 ^ 32}.Finite := Set.finite_lt_nat (2 ^ 32)
  refine ((hword.prod (hword.prod hword)).image fun w : Nat × Nat × Nat => (⟨w.1, w.2.1, w.2.2⟩ : ArCursor)).subset ?_
  intro k hk
  have hk' : k.Words := by
    induction (Set.mem_ofPred.mp hk) with
    | refl => exact hc
    | tail hreach hstep ih => exact hstep.words (ih hreach)
  exact ⟨⟨k.p, k.arStr, k.nSym⟩, hk', rfl⟩

/-! ## 3. The passes -/

/-- **The first pass** ends, if and only if its walk does not circle. -/
theorem arGetFilecount_ends_iff {cnt : Nat} (hp : p < 2 ^ 32) :
    (∃ fuel n, arGetFilecount mem stack stop fuel p cnt = some n) ↔
      ¬ Circles (ArSkips mem stack stop) p := by
  rw [← acc_iff_not_circles (arSkips_finite hp)]
  refine returns_iff_acc (fun n x => arGetFilecount mem stack stop n x.1 x.2) Prod.fst
    (fun _ => True) (x := (p, cnt)) (fun _ => rfl) ?_ ?_ trivial
  · rintro q _ _ ⟨-, rfl⟩ ⟨-, rfl⟩
    rfl
  · rintro ⟨q, cnt⟩ -
    by_cases hq : q < stop
    · exact .inr ⟨(_, _), trivial, ⟨hq, rfl⟩, fun n => arGetFilecount_step hq⟩
    · refine .inl ⟨fun _ ht => hq ht.1, fun n => ?_⟩
      rw [arGetFilecount, if_neg hq]
      rfl

/-- **The second pass** ends, if and only if its walk does not circle. -/
theorem arLoadRecords_ends_iff (hc : (a.cursor p).Words) :
    (∃ fuel r, arLoadRecords mem avail stack fuel p a = some r) ↔
      ¬ Circles (ArTakes mem avail stack a.stop) (a.cursor p) := by
  rw [← acc_iff_not_circles (arTakes_finite hc)]
  refine returns_iff_acc (fun n x => arLoadRecords mem avail stack n x.1 x.2)
    (fun x => x.2.cursor x.1) (fun x => x.2.stop = a.stop) (r := ArTakes mem avail stack a.stop)
    (x := (p, a)) (fun _ => rfl) (fun _ _ _ => ArTakes.unique) ?_ rfl
  rintro ⟨q, b⟩ hb
  dsimp only at hb ⊢
  rw [← hb]
  by_cases hq : q < b.stop
  case neg =>
    refine .inl ⟨fun c ht => ?_, fun n => ?_⟩
    · generalize hk : b.cursor q = k at ht
      cases ht <;> exact hq (by obtain ⟨rfl, -, -⟩ := ArCursor.mk.inj hk; assumption)
    · rw [arLoadRecords, if_neg hq]
      rfl
  case pos =>
    generalize hr : arProcessHdr mem avail stack (wadd q sizeofArHdr) b (arReadHdr mem q) = r
    have hround : ∀ n, arLoadRecords mem avail stack (n + 1) q b =
        if r.1 = 0 then some (-1, r.2) else arLoadRecords mem avail stack n r.1 r.2 := by
      intro n
      rw [arLoadRecords, if_pos hq, hr]
    by_cases hne : r.1 = 0
    · refine .inl ⟨fun c ht => ht.ne (hr ▸ hne), fun n => ?_⟩
      rw [hround, if_pos hne]
      rfl
    · refine .inr ⟨r, ?_, arProcessHdr_takes hq hr hne, fun n => ?_⟩
      · rw [← hr]
        exact arProcessHdr_stop mem avail stack (wadd q sizeofArHdr) b (arReadHdr mem q)
      · rw [hround, if_neg hne]

end Walks

/-! ## 4. The call -/

/-- `ar_load` returns. -/
def ArLoadEnds (mem : Nat → UInt8) (avail : Nat → Bool) (stack stack' : List UInt8)
    (p size : Nat) : Prop :=
  ∃ fuel r, arLoad mem avail stack stack' fuel p size = some r

/-- Neither pass comes to a header that leads back to itself.  The second pass is made where there
is memory for the tables. -/
def ArLeadsOn (mem : Nat → UInt8) (avail : Nat → Bool) (stack stack' : List UInt8)
    (p size : Nat) : Prop :=
  ¬ Circles (ArSkips mem stack (wadd p size)) (wadd p 8) ∧
    ∀ n, ArFilesFrom mem stack (wadd p size) (wadd p 8) n → arTables avail n = true →
      ¬ Circles (ArTakes mem avail stack' (wadd p size)) ⟨wadd p 8, 0, 0⟩

section Load

variable {mem : Nat → UInt8} {avail : Nat → Bool} {stack stack' : List UInt8} {p size fuel : Nat}

/-- Behind the magic number: the first pass, the tables, the second pass. -/
theorem arLoad_passes (hmagic : arCheckMagic mem p ≠ 0) {n : Nat}
    (hcount : arGetFilecount mem stack (wadd p size) fuel (wadd p 8) 0 = some n) :
    arLoad mem avail stack stack' fuel p size =
      if arTables avail n then arLoadRecords mem avail stack' fuel (wadd p 8) (arInit p size)
      else some (-1, arInit p size) := by
  rw [arLoad, if_neg hmagic, arCheckMagic_of_ne hmagic, arInit_stop, hcount]

theorem arLoad_counts {r : Int × Archive} (hmagic : arCheckMagic mem p ≠ 0)
    (h : arLoad mem avail stack stack' fuel p size = some r) :
    ∃ n, arGetFilecount mem stack (wadd p size) fuel (wadd p 8) 0 = some n := by
  rw [arLoad, if_neg hmagic, arCheckMagic_of_ne hmagic, arInit_stop] at h
  split at h
  · cases h
  · exact ⟨_, by assumption⟩

theorem arInit_words : ((arInit p size).cursor (wadd p 8)).Words :=
  ⟨wadd_lt _ _, Nat.two_pow_pos 32, Nat.two_pow_pos 32⟩

theorem ArLoadEnds.leadsOn (h : ArLoadEnds mem avail stack stack' p size)
    (hmagic : arCheckMagic mem p ≠ 0) : ArLeadsOn mem avail stack stack' p size := by
  obtain ⟨fuel, r, hload⟩ := h
  obtain ⟨n, hcount⟩ := arLoad_counts hmagic hload
  refine ⟨(arGetFilecount_ends_iff (wadd_lt _ _)).mp ⟨fuel, n, hcount⟩, fun m hm htables => ?_⟩
  obtain ⟨m', hm', hn⟩ := arGetFilecount_files hcount
  obtain rfl := hm.unique hm'
  rw [Nat.zero_add] at hn
  rw [arLoad_passes hmagic hcount, hn, if_pos htables] at hload
  exact (arLoadRecords_ends_iff arInit_words).mp ⟨fuel, r, hload⟩

theorem ArLeadsOn.ends (h : arCheckMagic mem p ≠ 0 → ArLeadsOn mem avail stack stack' p size) :
    ArLoadEnds mem avail stack stack' p size := by
  by_cases hmagic : arCheckMagic mem p = 0
  · refine ⟨0, (-1, arInit p size), ?_⟩
    rw [arLoad, if_pos hmagic]
  obtain ⟨hskips, htakes⟩ := h hmagic
  obtain ⟨fuel, n, hcount⟩ :=
    (arGetFilecount_ends_iff (wadd_lt _ _)).mpr hskips
  by_cases htables : arTables avail n = true
  · obtain ⟨m, hm, hn⟩ := arGetFilecount_files hcount
    rw [Nat.zero_add] at hn
    subst hn
    obtain ⟨fuel', r, hload⟩ := (arLoadRecords_ends_iff arInit_words).mpr (htakes n hm htables)
    refine ⟨max fuel fuel', r, ?_⟩
    rw [arLoad_passes hmagic (arGetFilecount_mono hcount (Nat.le_max_left _ _)), if_pos htables]
    exact arLoadRecords_mono hload (Nat.le_max_right _ _)
  · refine ⟨fuel, (-1, arInit p size), ?_⟩
    rw [arLoad_passes hmagic hcount, if_neg htables]

/-- **`ar_load` returns**, if and only if the headers of an archive lead on. -/
theorem ar_load_ends_iff : ArLoadEnds mem avail stack stack' p size ↔
    (arCheckMagic mem p ≠ 0 → ArLeadsOn mem avail stack stack' p size) :=
  ⟨ArLoadEnds.leadsOn, ArLeadsOn.ends⟩

/-- **Where every header leads forward**, for both passes, `ar_load` returns. -/
theorem ar_load_ends_of_forward (hfits : wadd p size + 64 ≤ 2 ^ 32)
    (hfwd : ∀ q < wadd p size, q < arNext mem stack q ∧ q < arNext mem stack' q) :
    ArLoadEnds mem avail stack stack' p size := by
  refine ArLeadsOn.ends fun _ => ⟨?_, fun _ _ _ => ?_⟩
  · refine not_circles_of_lt (m := fun q => q) ?_
    rintro q _ ⟨hq, rfl⟩
    exact (hfwd q hq).1
  · refine not_circles_of_lt (m := ArCursor.p) ?_
    intro c c' h
    cases h with
    | strtab hq => exact (hfwd _ hq).2
    | empty hq =>
      -- a table without symbols is left behind the count
      dsimp only
      rw [wadd_of_lt (a := _) (b := sizeofArHdr), wadd_of_lt] <;> unfold sizeofArHdr <;> omega
    | symtab hq => exact (hfwd _ hq).2
    | file hq => exact (hfwd _ hq).2

end Load

/-- A file of size -60. -/
def arEndless : List UInt8 := arMag ++ (arSampleRecord [97, 47] [45, 54, 48] []).bytes

/-- **The first pass does not leave a header of size -60.** -/
theorem ar_load_stalls : ¬ ∀ (mem : Nat → UInt8) (avail : Nat → Bool) (stack stack' : List UInt8)
    (p size : Nat), p + size < 2 ^ 32 → arCheckMagic mem p ≠ 0 →
      ArLoadEnds mem avail stack stack' p size := by
  intro h
  have hends := h (memOf 0x1000 arEndless) (fun _ => true) [] [] 0x1000 68 (by norm_num)
    (by decide)
  obtain ⟨hskips, -⟩ := hends.leadsOn (by decide)
  have hback : ArSkips (memOf 0x1000 arEndless) [] (wadd 0x1000 68) (wadd 0x1000 8)
      (wadd 0x1000 8) := ⟨by decide, by decide⟩
  exact hskips ⟨_, .refl, .single hback⟩

end FlightOs
