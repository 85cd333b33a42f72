/-
# Places on a circle

A circle of `n` places is read from one of them on: `circle n h k` is the place `k` steps after `h`.
A rotation of the numbers below `n` is the list of the places after some `h`, and a part of it is an
arc (`arc n h j m`): the `m` places that begin `j` steps after `h`.  Arcs are taken apart at both ends,
and an arc of all places is a rotation.
-/
import Mathlib.Data.List.Rotate
import Mathlib.Data.Nat.ModEq
import Mathlib.Data.List.Range
import Mathlib.Tactic.Common

namespace FlightOs

/-- The place `k` steps after `h`. -/
def circle (n h k : Nat) : Nat := (h + k) % n

/-- The `m` places from the one `j` steps after `h` on. -/
def arc (n h j m : Nat) : List Nat := (List.range m).map fun k => circle n h (j + k)

section Circle

variable {n h j k m : Nat}

theorem circle_lt (hn : 0 < n) : circle n h k < n := Nat.mod_lt _ hn

theorem circle_zero (hh : h < n) : circle n h 0 = h := Nat.mod_eq_of_lt hh

/-- After `n` steps one is back. -/
theorem circle_self (hh : h < n) : circle n h n = h := by
  rw [circle, Nat.add_mod_right]
  exact Nat.mod_eq_of_lt hh

theorem circle_circle : circle n (circle n h j) k = circle n h (j + k) := by
  rw [circle, circle, circle, Nat.mod_add_mod, Nat.add_assoc]

/-- A step forward, as it is computed without division. -/
theorem circle_add_of_lt (hh : h < n) (hk : k ≤ n) :
    circle n h k = if n ≤ h + k then h + k - n else h + k := by
  unfold circle
  split
  · rename_i hle
    rw [Nat.mod_eq_sub_mod hle]
    exact Nat.mod_eq_of_lt (by omega)
  · exact Nat.mod_eq_of_lt (by omega)

/-- Fewer than `n` steps lead to different places. -/
theorem circle_inj (hj : j < n) (hk : k < n) : circle n h j = circle n h k ↔ j = k := by
  refine ⟨fun heq => ?_, fun heq => heq ▸ rfl⟩
  have hmod : (h + j) % n = (h + k) % n := heq
  have hjk : Nat.ModEq n j k := Nat.ModEq.add_left_cancel' h hmod
  rwa [Nat.ModEq, Nat.mod_eq_of_lt hj, Nat.mod_eq_of_lt hk] at hjk

/-- Every place is some steps away. -/
theorem exists_circle (hh : h < n) {i : Nat} (hi : i < n) : ∃ k < n, circle n h k = i := by
  have hback : (h + (n - h + i)) % n = i := by
    rw [show h + (n - h + i) = n + i by omega, Nat.add_mod_left]
    exact Nat.mod_eq_of_lt hi
  refine ⟨(n - h + i) % n, Nat.mod_lt _ (by omega), ?_⟩
  rw [circle, Nat.add_mod_mod]
  exact hback

@[simp] theorem arc_zero : arc n h j 0 = [] := rfl

@[simp] theorem length_arc : (arc n h j m).length = m := by rw [arc, List.length_map, List.length_range]

theorem getElem_arc (hk : k < (arc n h j m).length) : (arc n h j m)[k] = circle n h (j + k) := by
  simp only [arc, List.getElem_map, List.getElem_range]

theorem mem_arc {i : Nat} : i ∈ arc n h j m ↔ ∃ k < m, circle n h (j + k) = i := by
  simp only [arc, List.mem_map, List.mem_range]

theorem forall_mem_arc {P : Nat → Prop} : (∀ i ∈ arc n h 0 m, P i) ↔ ∀ k < m, P (circle n h k) := by
  simp only [arc, List.forall_mem_map, List.mem_range, Nat.zero_add]

theorem arc_eq_nil : arc n h j m = [] ↔ m = 0 := by
  rw [arc, List.map_eq_nil_iff, List.range_eq_nil]

theorem arc_succ_left : arc n h j (m + 1) = circle n h j :: arc n h (j + 1) m := by
  rw [arc, List.range_succ_eq_map, List.map_cons, List.map_map, Nat.add_zero]
  refine congrArg _ (List.map_congr_left fun k _ => ?_)
  rw [Function.comp_apply, Nat.succ_eq_add_one, Nat.add_right_comm, Nat.add_assoc]

theorem arc_succ_right : arc n h j (m + 1) = arc n h j m ++ [circle n h (j + m)] := by
  rw [arc, List.range_succ, List.map_append, arc, List.map_singleton]

theorem arc_append {l : Nat} : arc n h j m ++ arc n h (j + m) l = arc n h j (m + l) := by
  rw [arc, arc, arc, List.range_add, List.map_append, List.map_map]
  refine congrArg _ (List.map_congr_left fun k _ => ?_)
  rw [Function.comp_apply, Nat.add_assoc]

/-- The same arc, seen from a place further on. -/
theorem arc_circle {i : Nat} : arc n (circle n h i) j m = arc n h (i + j) m := by
  rw [arc, arc]
  refine List.map_congr_left fun k _ => ?_
  rw [circle_circle, Nat.add_assoc]

theorem arc_eq_rotate : arc n h 0 n = (List.range n).rotate h := by
  refine List.ext_getElem (by simp) fun k hk hk' => ?_
  rw [getElem_arc, List.getElem_rotate, List.getElem_range, List.length_range, circle, Nat.zero_add,
    Nat.add_comm]

/-- All places, in the order of the circle. -/
theorem arc_isRotated : (arc n h 0 n).IsRotated (List.range n) :=
  List.IsRotated.symm ⟨h, arc_eq_rotate.symm⟩

theorem nodup_arc (hm : m ≤ n) : (arc n h 0 m).Nodup := by
  rw [arc]
  refine List.Nodup.map_on (fun j hj k hk heq => ?_) List.nodup_range
  rw [List.mem_range] at hj hk
  rw [Nat.zero_add, Nat.zero_add] at heq
  exact (circle_inj (by omega) (by omega)).mp heq

end Circle

end FlightOs
