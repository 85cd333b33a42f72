/-
# Critical sections

The EDAC module (`arch/sparc/kernel/edac.c`) keeps the sections of memory in which an uncorrectable
error is critical.  `edac_error_in_critical_section` looks at every cell of the table, those not in
use included: a zeroed cell covers the address 0 only.

`crit_sections_hold`: in every run the table holds the sections added and not removed since, as long
as a removal names a section that is not `(NULL, NULL)`, and behind it in the table stands no other
section that does not stand before it, too.  `crit_seg_rem` zeroes all cells behind the one removed,
and takes a cell that is not in use for the section `(NULL, NULL)`.
-/
import FlightOs.Ram.SecTable
import FlightOs.Lib.System

namespace FlightOs

/-! ## 1. The table -/

/-- `struct edac_crit_sec` -/
structure EdacCritSec where
  (begin end' : Nat)
  deriving DecidableEq, Repr

instance : Zero EdacCritSec := ⟨⟨0, 0⟩⟩

/-- The end is part of the section. -/
def EdacCritSec.covers (c : EdacCritSec) (addr : Nat) : Bool :=
  decide (c.begin ≤ addr) && decide (addr ≤ c.end')

def critRealloc : Nat := 10

def edacErrorInCriticalSection (t : SecTable EdacCritSec) (addr : Nat) : Bool :=
  t.cells.any fun c => c.covers addr

def critSegAdd (t : SecTable EdacCritSec) (begin stop : Nat) : Int × SecTable EdacCritSec :=
  (0, t.add critRealloc ⟨begin, stop⟩)

def critSegRem (t : SecTable EdacCritSec) (begin stop : Nat) : Int × SecTable EdacCritSec :=
  t.rem fun c => begin == c.begin && stop == c.end'

/-! ## 2. What the table is to hold -/

inductive CritOp
  | segAdd (begin stop : Nat)
  | segRem (begin stop : Nat)
  deriving DecidableEq, Repr

/-- The table, and the sections that have been added and not removed since. -/
structure CritState where
  table : SecTable EdacCritSec
  sections : List EdacCritSec
  deriving DecidableEq, Repr

def CritState.step (s : CritState) : CritOp → CritState
  | .segAdd begin stop =>
    { table := (critSegAdd s.table begin stop).2
      sections := ⟨begin, stop⟩ :: s.sections }
  | .segRem begin stop =>
    { table := (critSegRem s.table begin stop).2
      sections := s.sections.filter (· ≠ ⟨begin, stop⟩) }

def critInit : CritState := ⟨⟨[], 0⟩, []⟩

/-- An address is critical if it lies in one of the sections; the table has no other sections; and a
removal fails for a section only that is not one of them. -/
structure CritState.Right (s : CritState) : Prop where
  critical : ∀ addr, addr ≠ 0 →
    (edacErrorInCriticalSection s.table addr = true ↔ ∃ c ∈ s.sections, c.covers addr = true)
  entries : ∀ c, c ≠ 0 → (c ∈ s.table.cells ↔ c ∈ s.sections)
  fails : ∀ begin stop, (critSegRem s.table begin stop).1 ≠ 0 → ⟨begin, stop⟩ ∉ s.sections

/-- A removal names a section other than that of a zeroed cell, and every other section behind it
stands before it, too. -/
def CritState.NothingBehind (s : CritState) : CritOp → Prop
  | .segAdd _ _ => True
  | .segRem begin stop =>
    (⟨begin, stop⟩ : EdacCritSec) ≠ 0 ∧
      ∀ i ∈ s.table.cells.findIdx? fun c => begin == c.begin && stop == c.end',
        ∀ c ∈ s.table.cells.drop (i + 1), c ≠ 0 → c ≠ ⟨begin, stop⟩ → c ∈ s.table.cells.take i

instance decidableCritNothingBehind (s : CritState) : ∀ o, Decidable (s.NothingBehind o)
  | .segAdd .. => isTrue trivial
  | .segRem _ _ => inferInstanceAs (Decidable (_ ∧ ∀ i ∈ _, _))

/-! ## 3. The table over whole runs -/

/-- The cells in use are the sections, but for zeroed ones between them. -/
structure CritState.Holds (s : CritState) (secs : List EdacCritSec) (spare : Nat) : Prop where
  table : s.table.Holds secs spare
  used : ∀ c ∈ s.sections, c ∈ secs
  known : ∀ c ∈ secs, c ≠ 0 → c ∈ s.sections

def CritState.Inv (s : CritState) : Prop := ∃ secs spare, s.Holds secs spare

section Runs

variable {s : CritState} {secs : List EdacCritSec} {spare begin stop : Nat}

theorem EdacCritSec.covers_zero {addr : Nat} (h : addr ≠ 0) :
    (0 : EdacCritSec).covers addr = false := by
  change (decide (0 ≤ addr) && decide (addr ≤ 0)) = false
  simp [h]

theorem critSame_iff {c : EdacCritSec} :
    (begin == c.begin && stop == c.end') = true ↔ c = ⟨begin, stop⟩ := by
  cases c
  simp only [Bool.and_eq_true, beq_iff_eq, EdacCritSec.mk.injEq]
  exact and_congr eq_comm eq_comm

theorem CritState.Holds.cells_mem (h : s.Holds secs spare) {c : EdacCritSec} (hc : c ≠ 0) :
    c ∈ s.table.cells ↔ c ∈ s.sections := by
  rw [h.table.cells, List.mem_append]
  constructor
  · rintro (hmem | hmem)
    · exact h.known c hmem hc
    · exact absurd (List.eq_of_mem_replicate hmem) hc
  · exact fun hmem => .inl (h.used c hmem)

theorem CritState.Inv.right (h : s.Inv) : s.Right := by
  obtain ⟨secs, spare, h⟩ := h
  refine ⟨fun addr haddr => ?_, fun c hc => h.cells_mem hc, fun begin stop hfail hmem => ?_⟩
  · have hne : ∀ c : EdacCritSec, c.covers addr = true → c ≠ 0 := by
      rintro c hcovers rfl
      rw [EdacCritSec.covers_zero haddr] at hcovers
      exact absurd hcovers Bool.false_ne_true
    rw [edacErrorInCriticalSection, List.any_eq_true]
    exact exists_congr fun c => and_congr_left fun hcovers => h.cells_mem (hne c hcovers)
  · cases hfind : s.table.cells.findIdx? fun c => begin == c.begin && stop == c.end' with
    | none =>
      have hin : (⟨begin, stop⟩ : EdacCritSec) ∈ s.table.cells := by
        rw [h.table.cells]
        exact List.mem_append_left _ (h.used _ hmem)
      have hnot := List.findIdx?_eq_none_iff.mp hfind _ hin
      simp at hnot
    | some i =>
      rw [critSegRem, SecTable.rem_eq hfind] at hfail
      exact hfail rfl

theorem CritState.Inv.segAdd (h : s.Inv) (begin stop : Nat) :
    (s.step (.segAdd begin stop)).Inv := by
  obtain ⟨secs, spare, h⟩ := h
  obtain ⟨spare', hadd⟩ := h.table.add (by decide : 0 < critRealloc) ⟨begin, stop⟩
  refine ⟨_, spare', hadd, fun c hc => ?_, fun c hc hne => ?_⟩
  · rcases List.mem_cons.mp hc with rfl | hc
    · exact List.mem_append_right _ (List.mem_singleton_self _)
    · exact List.mem_append_left _ (h.used c hc)
  · rcases List.mem_append.mp hc with hc | hc
    · exact List.mem_cons_of_mem _ (h.known c hc hne)
    · exact List.mem_cons.mpr (.inl (List.mem_singleton.mp hc))

/-- The section found, and those before and behind it. -/
theorem crit_find_split {i : Nat}
    (hi : (secs.findIdx? fun c => begin == c.begin && stop == c.end') = some i) :
    secs = secs.take i ++ ⟨begin, stop⟩ :: secs.drop (i + 1) ∧ (⟨begin, stop⟩ ∉ secs.take i) := by
  obtain ⟨hlt, hsame, hfirst⟩ := List.findIdx?_eq_some_iff_getElem.mp hi
  constructor
  · rw [← critSame_iff.mp hsame, ← List.drop_eq_getElem_cons hlt, List.take_append_drop]
  · intro hmem
    obtain ⟨j, hj, heq⟩ := List.mem_take_iff_getElem.mp hmem
    refine hfirst j (by omega) ?_
    rw [heq]
    exact critSame_iff.mpr rfl

/-- The section is not in the table. -/
theorem CritState.Holds.segRem_unknown (h : s.Holds secs spare)
    (hne : (⟨begin, stop⟩ : EdacCritSec) ≠ 0)
    (hfind : (secs.findIdx? fun c => begin == c.begin && stop == c.end') = none) :
    (s.step (.segRem begin stop)).Holds secs spare := by
  have hzero : (begin == (0 : EdacCritSec).begin && stop == (0 : EdacCritSec).end') = false := by
    rw [Bool.eq_false_iff]
    exact fun hsame => hne (critSame_iff.mp hsame).symm
  have hnot : ∀ c ∈ secs, c ≠ ⟨begin, stop⟩ := by
    intro c hc heq
    have hsame := List.findIdx?_eq_none_iff.mp hfind c hc
    rw [critSame_iff.mpr heq] at hsame
    cases hsame
  have htable : (s.step (.segRem begin stop)).table = s.table := by
    rw [CritState.step, critSegRem, SecTable.rem_none (h.table.find_none hfind hzero)]
  refine ⟨htable ▸ h.table, fun c hc => h.used c (List.mem_of_mem_filter hc), fun c hc hc0 => ?_⟩
  exact List.mem_filter.mpr ⟨h.known c hc hc0, decide_eq_true (hnot c hc)⟩

/-- The section is in the table, and what stands behind it before it, too. -/
theorem CritState.Holds.segRem_known (h : s.Holds secs spare) {i : Nat}
    (hok : s.NothingBehind (.segRem begin stop))
    (hfind : (secs.findIdx? fun c => begin == c.begin && stop == c.end') = some i) :
    (s.step (.segRem begin stop)).Holds
      (secs.take i ++ List.replicate (secs.length - (i + 1)) 0) (spare + 1) := by
  obtain ⟨hne, hbehind⟩ := hok
  obtain ⟨hsplit, hfirst⟩ := crit_find_split hfind
  obtain ⟨hlt, -⟩ := List.findIdx?_eq_some_iff_findIdx_eq.mp hfind
  refine ⟨(h.table.rem hfind).2, fun c hc => ?_, fun c hc hc0 => ?_⟩
  · obtain ⟨hsec, hcne⟩ := List.mem_filter.mp hc
    have hmem := h.used c hsec
    rw [hsplit] at hmem
    rcases List.mem_append.mp hmem with hbefore | hrest
    · exact List.mem_append_left _ hbefore
    · rcases List.mem_cons.mp hrest with heq | hdrop
      · exact absurd heq (of_decide_eq_true hcne)
      · by_cases hc0 : c = 0
        · -- a zeroed section is still there
          refine List.mem_append_right _ (List.mem_replicate.mpr ⟨?_, hc0⟩)
          have hpos := List.length_pos_of_mem hdrop
          rw [List.length_drop] at hpos
          omega
        · have hcells : c ∈ s.table.cells.drop (i + 1) := by
            rw [h.table.cells, List.drop_append_of_le_length hlt]
            exact List.mem_append_left _ hdrop
          have hbefore := hbehind i (h.table.find hfind) c hcells hc0 (of_decide_eq_true hcne)
          rw [h.table.cells, List.take_append_of_le_length (Nat.le_of_lt hlt)] at hbefore
          exact List.mem_append_left _ hbefore
  · rcases List.mem_append.mp hc with hbefore | hzero
    · have hcne : c ≠ ⟨begin, stop⟩ := fun heq => hfirst (heq ▸ hbefore)
      exact List.mem_filter.mpr
        ⟨h.known c (List.mem_of_mem_take hbefore) hc0, decide_eq_true hcne⟩
    · exact absurd (List.eq_of_mem_replicate hzero) hc0

theorem CritState.Inv.step (h : s.Inv) (o : CritOp) (hok : s.NothingBehind o) : (s.step o).Inv := by
  cases o with
  | segAdd begin stop => exact h.segAdd begin stop
  | segRem begin stop =>
    obtain ⟨secs, spare, h⟩ := h
    cases hfind : secs.findIdx? fun c => begin == c.begin && stop == c.end' with
    | none => exact ⟨_, _, h.segRem_unknown hok.1 hfind⟩
    | some i => exact ⟨_, _, h.segRem_known hok hfind⟩

end Runs

theorem critInit_inv : critInit.Inv :=
  ⟨[], 0, ⟨rfl, rfl⟩, fun _ hc => (by cases hc), fun _ hc => (by cases hc)⟩

/-- **The critical sections.**  In every run whose removals leave nothing behind, addresses are
critical that lie in a section added and not removed since, and no others; and only such a section
can be removed. -/
theorem crit_sections_hold (ops : List CritOp)
    (h : StepsMeet CritState.step CritState.NothingBehind critInit ops) :
    Along CritState.step CritState.Right critInit ops :=
  Along.mono (fun _ h => h.right)
    (StepsMeet.along (fun _ o hI hok => hI.step o hok) ops critInit_inv h)

theorem crit_sections_hold_two :
    Along CritState.step CritState.Right critInit
      [.segAdd 16 32, .segAdd 64 96, .segRem 64 96, .segAdd 80 96, .segRem 4 8] :=
  crit_sections_hold _ (by decide)

/-- **A section is lost.**  Two sections are added, and the first one is removed. -/
theorem crit_section_lost :
    ¬ ∀ ops : List CritOp, Along CritState.step CritState.Right critInit ops := by
  intro h
  have hright := Along.stop _ (h [.segAdd 16 32, .segAdd 64 96, .segRem 16 32])
  have hlost : edacErrorInCriticalSection
      ([CritOp.segAdd 16 32, .segAdd 64 96, .segRem 16 32].foldl CritState.step critInit).table 80 =
      false := by decide
  have hsection := (hright.critical 80 (by decide)).mpr ⟨⟨64, 96⟩, by decide, by decide⟩
  rw [hlost] at hsection
  cases hsection

end FlightOs
