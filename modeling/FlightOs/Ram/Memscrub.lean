/-
# The table of sections to scrub

`kernel/memscrub.c` reads memory over and over, some words of each section in every cycle.  A
section is stored with its first and its last word, the position of the next cycle and the number
of words in a cycle.

* `memscrubSecCycle`: what a cycle does with one section, and which words it reads.
* `memscrub_table_iff`: the table is right in every state of a run if and only if each removal
  names a section with nothing behind it (or with sections that are stored as a zeroed cell).
  `memscrub_seg_rem` is to move the sections behind it by one cell, but copies the zeroed cell
  over them.
-/
import FlightOs.Ram.SecTable
import FlightOs.Lib.System

namespace FlightOs

/-! ## 1. Sections and cycles -/

/-- `struct memscrub_sec`; `end'` is the address of the last word. -/
structure MemscrubSec where
  (begin end' : Nat)
  pos : Nat
  wpc : Nat
  deriving DecidableEq, Repr

instance : Zero MemscrubSec := ⟨⟨0, 0, 0, 0⟩⟩

/-- The words read by the loop of `memscrub`, in at most `n` rounds. -/
def memscrubReads : Nat → Nat → Nat → List Nat
  | 0, _, _ => []
  | n + 1, addr, stop => if addr < stop then addr :: memscrubReads n (wadd addr 4) stop else []

/-- `memscrub`: the words read, and the next address. -/
def memscrub (addr n : Nat) : List Nat × Nat :=
  let stop := wadd addr (n * 4)
  (memscrubReads n addr stop, stop)

/-- One round of the loop over the sections in `mem_do_scrub`: the section after it, and the words
read.  The rest of the section is read first if it is less than a cycle's words. -/
def memscrubSecCycle (s : MemscrubSec) : MemscrubSec × List Nat :=
  let rest := wsub s.end' s.pos / 4
  let turn := rest < s.wpc
  let reads := if turn then (memscrub s.pos rest).1 else []
  let n := if turn then s.wpc - rest else s.wpc
  let pos := if turn then s.begin else s.pos
  if wadd pos n < s.end' then
    ({ s with pos := (memscrub pos n).2 }, reads ++ (memscrub pos n).1)
  else ({ s with pos := pos }, reads)

/-! ## 2. The table -/

def scrubRealloc : Nat := 10

/-- One cycle of `mem_do_scrub`: the table after it, and the words read for each section.  The count
is compared as an unsigned number, so that a negative one is more than there are cells. -/
def memDoScrub (t : SecTable MemscrubSec) : SecTable MemscrubSec × List (List Nat) :=
  let cnt := if 0 ≤ t.cnt then t.cnt.toNat else t.cells.length
  ({ t with
      cells := (t.cells.take cnt).map (fun s => (memscrubSecCycle s).1) ++ t.cells.drop cnt },
    (t.cells.take cnt).map fun s => (memscrubSecCycle s).2)

/-- What `memscrub_seg_add` writes into a cell: the end is stored one word short. -/
def memscrubSec (begin stop wpc : Nat) : MemscrubSec := ⟨begin, stop - 4, begin, wpc⟩

def memscrubSegAdd (t : SecTable MemscrubSec) (begin stop wpc : Nat) :
    Int × SecTable MemscrubSec :=
  if begin % 4 ≠ 0 then (-EINVAL, t)
  else if stop % 4 ≠ 0 then (-EINVAL, t)
  else if stop ≤ begin then (-EINVAL, t)
  else if (stop - begin) / 4 < wpc then (-EINVAL, t)
  else (0, t.add scrubRealloc (memscrubSec begin stop wpc))

/-- The section with the given bounds. -/
def memscrubSame (begin stop : Nat) (s : MemscrubSec) : Bool :=
  begin == s.begin && stop == wadd s.end' 4

def memscrubSegRem (t : SecTable MemscrubSec) (begin stop : Nat) : Int × SecTable MemscrubSec :=
  t.rem (memscrubSame begin stop)

/-! ## 3. What the table is to hold -/

inductive ScrubOp
  | segAdd (begin stop wpc : Nat)
  | segRem (begin stop : Nat)
  | cycle
  deriving DecidableEq, Repr

/-- The table, and the sections that have been added and not removed since, in order.  A removal
takes the first section with its bounds. -/
structure ScrubState where
  table : SecTable MemscrubSec
  sections : List MemscrubSec
  deriving DecidableEq, Repr

def ScrubState.step (s : ScrubState) : ScrubOp → ScrubState
  | .segAdd begin stop wpc =>
    let r := memscrubSegAdd s.table begin stop wpc
    { table := r.2
      sections := if r.1 = 0 then s.sections ++ [memscrubSec begin stop wpc] else s.sections }
  | .segRem begin stop =>
    { table := (memscrubSegRem s.table begin stop).2
      sections := s.sections.eraseP (memscrubSame begin stop) }
  | .cycle =>
    { table := (memDoScrub s.table).1
      sections := s.sections.map fun c => (memscrubSecCycle c).1 }

/-- The table at the start, as a static variable. -/
def scrubInit : ScrubState := ⟨⟨[], 0⟩, []⟩

/-- The first cells of the table, as many as are counted, are the sections. -/
def ScrubState.Right (s : ScrubState) : Prop :=
  s.table.cnt = s.sections.length ∧ s.table.cells.take s.table.cnt.toNat = s.sections

instance (s : ScrubState) : Decidable s.Right := inferInstanceAs (Decidable (_ ∧ _))

/-- A removal finds nothing, or a section in use with zeroed cells behind it only. -/
def ScrubState.NothingBehind (s : ScrubState) : ScrubOp → Prop
  | .segRem begin stop =>
    ∀ i ∈ s.table.cells.findIdx? (memscrubSame begin stop),
      (i : Int) < s.table.cnt ∧
        ∀ c ∈ (s.table.cells.take s.table.cnt.toNat).drop (i + 1), c = 0
  | _ => True

instance decidableScrubNothingBehind (s : ScrubState) : ∀ o, Decidable (s.NothingBehind o)
  | .segAdd .. => isTrue trivial
  | .segRem _ _ => inferInstanceAs (Decidable (∀ i ∈ _, _))
  | .cycle => isTrue trivial

/-! ## 4. The table over whole runs -/

/-- The table holds the sections, and zeroes behind them. -/
def ScrubState.Inv (s : ScrubState) : Prop := ∃ spare, s.table.Holds s.sections spare

section Runs

variable {s : ScrubState} {spare : Nat}

theorem ScrubState.Inv.right (h : s.Inv) : s.Right := by
  obtain ⟨spare, hholds⟩ := h
  exact ⟨hholds.cnt, hholds.live⟩

/-- What `memscrub_seg_add` can do. -/
theorem memscrubSegAdd_cases (t : SecTable MemscrubSec) (begin stop wpc : Nat) :
    memscrubSegAdd t begin stop wpc = (-(EINVAL : Int), t) ∨
      (begin % 4 = 0 ∧ stop % 4 = 0 ∧ begin < stop ∧ wpc ≤ (stop - begin) / 4) ∧
        memscrubSegAdd t begin stop wpc =
          (0, t.add scrubRealloc (memscrubSec begin stop wpc)) := by
  unfold memscrubSegAdd
  split
  · exact .inl rfl
  · split
    · exact .inl rfl
    · split
      · exact .inl rfl
      · split
        · exact .inl rfl
        · exact .inr ⟨by omega, rfl⟩

theorem ScrubState.Inv.segAdd (h : s.Inv) (begin stop wpc : Nat) :
    (s.step (.segAdd begin stop wpc)).Inv := by
  obtain ⟨spare, hholds⟩ := h
  rcases memscrubSegAdd_cases s.table begin stop wpc with heq | ⟨-, heq⟩
  · have hne : (-(EINVAL : Int)) ≠ 0 := by decide
    refine ⟨spare, ?_⟩
    simp only [ScrubState.step, heq, if_neg hne]
    exact hholds
  · obtain ⟨spare', hadd⟩ := hholds.add (by decide : 0 < scrubRealloc)
      (memscrubSec begin stop wpc)
    refine ⟨spare', ?_⟩
    simp only [ScrubState.step, heq, if_true]
    exact hadd

/-- The sections are scrubbed where they stand. -/
theorem ScrubState.Inv.cycle (h : s.Inv) : (s.step .cycle).Inv := by
  obtain ⟨spare, hholds⟩ := h
  have hlive := hholds.live
  have hpos : 0 ≤ s.table.cnt := hholds.cnt ▸ Int.natCast_nonneg _
  refine ⟨spare, ?_, ?_⟩
  · have hrest : s.table.cells.drop s.table.cnt.toNat = List.replicate spare 0 := by
      rw [hholds.cells, hholds.cnt, Int.toNat_natCast, List.drop_left]
    simp only [ScrubState.step, memDoScrub, if_pos hpos, hlive, hrest]
  · simp only [ScrubState.step, memDoScrub, List.length_map]
    exact hholds.cnt

/-- What a table holds is what is counted. -/
theorem ScrubState.right_iff {secs : List MemscrubSec} (h : s.table.Holds secs spare) :
    s.Right ↔ secs = s.sections := by
  rw [ScrubState.Right, h.live, h.cnt]
  exact ⟨fun hright => hright.2, fun heq => ⟨by rw [heq], heq⟩⟩

/-- Nothing is found: nothing changes. -/
theorem ScrubState.Inv.segRem_missing (h : s.Inv) {begin stop : Nat}
    (hnone : s.table.cells.findIdx? (memscrubSame begin stop) = none) :
    s.step (.segRem begin stop) = s := by
  obtain ⟨spare, hholds⟩ := h
  have hsecs : s.sections.findIdx? (memscrubSame begin stop) = none := by
    rw [hholds.cells, List.findIdx?_append] at hnone
    exact (Option.or_eq_none_iff.mp hnone).1
  rw [ScrubState.step, memscrubSegRem, SecTable.rem_none hnone, List.eraseP_eq_eraseIdx, hsecs]

/-- No section in use has the bounds: whatever is found is a spare cell, and the count goes wrong. -/
theorem ScrubState.Inv.segRem_unknown (h : s.Inv) {begin stop i : Nat}
    (hnone : s.sections.findIdx? (memscrubSame begin stop) = none)
    (hfind : s.table.cells.findIdx? (memscrubSame begin stop) = some i) :
    ¬ (s.step (.segRem begin stop)).Right ∧ ¬ s.NothingBehind (.segRem begin stop) := by
  obtain ⟨spare, hholds⟩ := h
  have hspare := hholds.find_spare hnone hfind
  constructor
  · rintro ⟨hcnt, -⟩
    simp only [ScrubState.step, memscrubSegRem, SecTable.rem_eq hfind, List.eraseP_eq_eraseIdx,
      hnone, hholds.cnt] at hcnt
    omega
  · intro hok
    have hlt := (hok i hfind).1
    rw [hholds.cnt] at hlt
    omega

/-- A section in use is removed: the sections behind it are zeroed. -/
theorem ScrubState.Inv.segRem_known (h : s.Inv) {begin stop i : Nat}
    (hi : s.sections.findIdx? (memscrubSame begin stop) = some i) :
    (s.step (.segRem begin stop)).Right ↔ s.NothingBehind (.segRem begin stop) := by
  obtain ⟨spare, hholds⟩ := h
  obtain ⟨hlt, -⟩ := List.findIdx?_eq_some_iff_findIdx_eq.mp hi
  have hdrop : (s.sections.drop (i + 1)).length = s.sections.length - (i + 1) := List.length_drop
  have hspec : (s.step (.segRem begin stop)).sections =
      s.sections.take i ++ s.sections.drop (i + 1) := by
    rw [ScrubState.step, List.eraseP_eq_eraseIdx, hi]
    exact List.eraseIdx_eq_take_drop_succ _ _
  have hzero : List.replicate (s.sections.length - (i + 1)) 0 = s.sections.drop (i + 1) ↔
      ∀ c ∈ s.sections.drop (i + 1), c = 0 := by
    rw [eq_comm, List.eq_replicate_iff, and_iff_right hdrop]
  rw [ScrubState.right_iff (hholds.rem hi).2, hspec, List.append_cancel_left_eq, hzero]
  constructor
  · intro hall j hj
    obtain rfl : i = j := Option.some.inj ((hholds.find hi).symm.trans hj)
    refine ⟨?_, ?_⟩
    · rw [hholds.cnt]
      exact_mod_cast hlt
    · rw [hholds.live]
      exact hall
  · intro hok
    have hall := (hok i (hholds.find hi)).2
    rwa [hholds.live] at hall

/-- **One step**: what keeps the table right, and the invariant with it. -/
theorem ScrubState.Inv.step_iff (h : s.Inv) (o : ScrubOp) :
    ((s.step o).Right ↔ s.NothingBehind o) ∧ (s.NothingBehind o → (s.step o).Inv) := by
  cases o with
  | segAdd begin stop wpc =>
    have hadd := h.segAdd begin stop wpc
    exact ⟨iff_of_true hadd.right trivial, fun _ => hadd⟩
  | cycle => exact ⟨iff_of_true h.cycle.right trivial, fun _ => h.cycle⟩
  | segRem begin stop =>
    cases hfind : s.table.cells.findIdx? (memscrubSame begin stop) with
    | none =>
      have hok : s.NothingBehind (.segRem begin stop) := fun i hi => by
        rw [hfind] at hi
        cases hi
      rw [h.segRem_missing hfind]
      exact ⟨iff_of_true h.right hok, fun _ => h⟩
    | some i =>
      cases hsecs : s.sections.findIdx? (memscrubSame begin stop) with
      | none =>
        obtain ⟨hright, hok⟩ := h.segRem_unknown hsecs hfind
        exact ⟨iff_of_false hright hok, fun h' => absurd h' hok⟩
      | some j =>
        refine ⟨h.segRem_known hsecs, fun hok => ?_⟩
        have hright := (h.segRem_known hsecs).mpr hok
        obtain ⟨spare, hholds⟩ := h
        have hrem := (hholds.rem hsecs).2
        have heq := (ScrubState.right_iff hrem).mp hright
        exact ⟨spare + 1, heq ▸ hrem⟩

end Runs

theorem scrubInit_inv : scrubInit.Inv := ⟨0, rfl, rfl⟩

/-- **The table of sections.**  In every run the first cells of the table, as many as are counted,
are the sections added and not removed since, if and only if each removal finds nothing, or a section
in use with zeroed cells behind it only. -/
theorem memscrub_table_iff (ops : List ScrubOp) :
    Along ScrubState.step ScrubState.Right scrubInit ops ↔
      StepsMeet ScrubState.step ScrubState.NothingBehind scrubInit ops :=
  along_iff_stepsMeet (fun _ h => h.right) (fun _ o h => (h.step_iff o).1)
    (fun _ o h => (h.step_iff o).2) ops scrubInit_inv

/-- **A section is lost.**  Two sections are added, and the first one is removed. -/
theorem memscrub_loses_section :
    ¬ ∀ ops : List ScrubOp, Along ScrubState.step ScrubState.Right scrubInit ops :=
  fun h => absurd (h [.segAdd 4096 8192 4, .segAdd 8192 12288 4, .segRem 4096 8192]) (by decide)

end FlightOs
