/-
# Tables of memory sections

The scrubber (`kernel/memscrub.c`) and the EDAC module (`arch/sparc/kernel/edac.c`) keep their
sections in tables of one make: an array that grows in chunks of zeroed cells, and the number of
cells in use.  A section is added behind those in use.  The cell of a removed section is zeroed, and
then a loop "moves everything after back by one field": it copies each cell to the one behind it,
so that all cells from the removed section's on are zero afterwards (`SecTable.rem_eq`).

`SecTable.Holds` says what is in a table whose count is right: the cells in use, and zeroes.
-/
import FlightOs.Errno
import Mathlib.Algebra.Notation.Defs
import Mathlib.Data.List.Basic
import Mathlib.Tactic.Common

namespace FlightOs

/-- The cells of a table, and the count of those in use, an `int`. -/
structure SecTable (α : Type) where
  cells : List α
  cnt : Int
  deriving DecidableEq, Repr

namespace SecTable

section Operations

variable {α : Type} [Zero α]

/-- The array is full: `krealloc` and `bzero` of the new cells. -/
def grow (chunk : Nat) (t : SecTable α) : SecTable α :=
  if t.cnt = t.cells.length then { t with cells := t.cells ++ List.replicate chunk 0 } else t

/-- A section is written behind those in use; with a negative count that is outside the array. -/
def add (chunk : Nat) (t : SecTable α) (a : α) : SecTable α :=
  let t := t.grow chunk
  { cells := if 0 ≤ t.cnt then t.cells.set t.cnt.toNat a else t.cells
    cnt := t.cnt + 1 }

/-- `n` rounds, from `i` on, of the loop that moves the cells: `sec[i] = sec[i - 1]`. -/
def shift : Nat → Nat → List α → List α
  | 0, _, cells => cells
  | n + 1, i, cells => shift n (i + 1) (cells.set i (cells.getD (i - 1) 0))

/-- The first cell of the array that is the one named goes. -/
def rem (same : α → Bool) (t : SecTable α) : Int × SecTable α :=
  match t.cells.findIdx? same with
  | none => (-ENOENT, t)
  | some i =>
    (0, { cells := shift (t.cells.length - (i + 1)) (i + 1) (t.cells.set i 0)
          cnt := t.cnt - 1 })

/-- The sections in use stand first; the other cells are zero. -/
structure Holds (t : SecTable α) (secs : List α) (spare : Nat) : Prop where
  cells : t.cells = secs ++ List.replicate spare 0
  cnt : t.cnt = secs.length

end Operations

section Lemmas

variable {α : Type} [Zero α] {t : SecTable α} {secs : List α} {spare : Nat} {same : α → Bool}

theorem Holds.live (h : t.Holds secs spare) : t.cells.take t.cnt.toNat = secs := by
  rw [h.cells, h.cnt, Int.toNat_natCast, List.take_left]

/-- **A section is added behind the others.** -/
theorem Holds.add (h : t.Holds secs spare) {chunk : Nat} (hchunk : 0 < chunk) (a : α) :
    ∃ spare', (t.add chunk a).Holds (secs ++ [a]) spare' := by
  -- after growing there is a spare cell
  obtain ⟨spare', hgrow⟩ : ∃ n, (t.grow chunk).Holds secs (n + 1) := by
    unfold grow
    cases spare with
    | zero =>
      obtain ⟨n, rfl⟩ := Nat.exists_eq_succ_of_ne_zero hchunk.ne'
      have hfull : t.cnt = t.cells.length := by
        rw [h.cnt, h.cells, List.replicate_zero, List.append_nil]
      refine ⟨n, ?_⟩
      rw [if_pos hfull]
      exact ⟨by rw [h.cells, List.replicate_zero, List.append_nil], h.cnt⟩
    | succ n =>
      refine ⟨n, ?_⟩
      rw [if_neg]
      · exact h
      · rw [h.cnt, h.cells, List.length_append, List.length_replicate]
        omega
  refine ⟨spare', ?_, ?_⟩
  · have hset : (secs ++ List.replicate (spare' + 1) 0).set secs.length a =
        secs ++ [a] ++ List.replicate spare' 0 := by
      rw [List.set_append_right _ _ (Nat.le_refl _), Nat.sub_self, List.replicate_succ,
        List.set_cons_zero, List.append_assoc, List.singleton_append]
    simp only [SecTable.add, hgrow.cells, hgrow.cnt, Int.natCast_nonneg, if_true, Int.toNat_natCast]
    exact hset
  · simp [SecTable.add, hgrow.cnt]

/-- The loop copies the cell before the first one it meets to all the others. -/
theorem shift_eq : ∀ (n : Nat) (i : Nat) (cells : List α), i + 1 + n = cells.length →
    shift n (i + 1) cells = cells.take (i + 1) ++ List.replicate n (cells.getD i 0)
  | 0, i, cells, h => by
    rw [shift, List.replicate_zero, List.append_nil, List.take_of_length_le (by omega)]
  | n + 1, i, cells, h => by
    have hi : i + 1 < cells.length := by omega
    have hlen : (cells.set (i + 1) (cells.getD i 0)).length = cells.length := List.length_set
    have hcell : (cells.set (i + 1) (cells.getD i 0)).getD (i + 1) 0 = cells.getD i 0 := by
      simp [List.getD_eq_getElem?_getD, hi]
    have htake : (cells.set (i + 1) (cells.getD i 0)).take (i + 1 + 1) =
        cells.take (i + 1) ++ [cells.getD i 0] := by
      rw [List.take_add_one, List.take_set_of_le (Nat.le_refl _)]
      simp [hi]
    rw [shift, Nat.add_sub_cancel, shift_eq n (i + 1) _ (by omega), htake, hcell,
      List.replicate_succ, List.append_assoc, List.singleton_append]

/-- **A removal zeroes the cells** from the removed one on. -/
theorem rem_eq {i : Nat} (h : t.cells.findIdx? same = some i) :
    t.rem same =
      (0, { cells := t.cells.take i ++ List.replicate (t.cells.length - i) 0, cnt := t.cnt - 1 }) := by
  obtain ⟨hi, -⟩ := List.findIdx?_eq_some_iff_findIdx_eq.mp h
  have hlen : (t.cells.set i 0).length = t.cells.length := List.length_set
  have hcell : (t.cells.set i 0).getD i 0 = 0 := by
    simp [List.getD_eq_getElem?_getD, hi]
  have htake : (t.cells.set i 0).take (i + 1) = t.cells.take i ++ [0] := by
    rw [List.take_add_one, List.take_set_of_le (Nat.le_refl _)]
    simp [hi]
  have hcount : t.cells.length - i = t.cells.length - (i + 1) + 1 := by omega
  simp only [rem, h]
  rw [shift_eq _ _ _ (by omega), htake, hcell, hcount, List.replicate_succ, List.append_assoc,
    List.singleton_append]

theorem rem_none (h : t.cells.findIdx? same = none) : t.rem same = (-(ENOENT : Int), t) := by
  simp only [rem, h]

theorem Holds.find (h : t.Holds secs spare) {i : Nat} (hi : secs.findIdx? same = some i) :
    t.cells.findIdx? same = some i := by
  rw [h.cells, List.findIdx?_append, hi, Option.some_or]

/-- **What is left when a section in use is removed**: the sections before it. -/
theorem Holds.rem (h : t.Holds secs spare) {i : Nat} (hi : secs.findIdx? same = some i) :
    (t.rem same).1 = 0 ∧
      (t.rem same).2.Holds (secs.take i ++ List.replicate (secs.length - (i + 1)) 0) (spare + 1) := by
  obtain ⟨hlt, -⟩ := List.findIdx?_eq_some_iff_findIdx_eq.mp hi
  rw [rem_eq (h.find hi)]
  refine ⟨rfl, ?_, ?_⟩
  · have hcount : secs.length + spare - i = secs.length - (i + 1) + (spare + 1) := by omega
    rw [h.cells, List.take_append_of_le_length (Nat.le_of_lt hlt), List.length_append,
      List.length_replicate, hcount, List.append_assoc, List.replicate_append_replicate]
  · dsimp only
    rw [h.cnt, List.length_append, List.length_take_of_le (Nat.le_of_lt hlt),
      List.length_replicate]
    omega

/-- What is found and not in use is a spare cell. -/
theorem Holds.find_spare (h : t.Holds secs spare) (hsecs : secs.findIdx? same = none) {i : Nat}
    (hi : t.cells.findIdx? same = some i) : secs.length ≤ i := by
  rw [h.cells, List.findIdx?_append, hsecs, Option.none_or] at hi
  obtain ⟨j, -, rfl⟩ := Option.map_eq_some_iff.mp hi
  exact Nat.le_add_left _ _

/-- A section that is not in use is not found, unless it is the one of a zeroed cell. -/
theorem Holds.find_none (h : t.Holds secs spare) (hsecs : secs.findIdx? same = none)
    (hzero : same 0 = false) : t.cells.findIdx? same = none := by
  rw [h.cells, List.findIdx?_append, hsecs, Option.none_or, List.findIdx?_replicate]
  simp [hzero]

end Lemmas

end SecTable

end FlightOs
