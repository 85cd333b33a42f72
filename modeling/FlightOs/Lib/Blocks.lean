/-
# Blocks that somebody holds

The holders of memory know each block by its address, and its size: a list of pairs, to which a
block is added unless its address is zero, and from which it is dropped by its address.
-/
import Mathlib.Data.List.Nodup

namespace FlightOs

def addBlock (live : List (Nat × Nat)) (ptr size : Nat) : List (Nat × Nat) :=
  if ptr = 0 then live else (ptr, size) :: live

def dropBlock (live : List (Nat × Nat)) (ptr : Nat) : List (Nat × Nat) :=
  live.filter (fun e => e.1 ≠ ptr)

section Blocks

variable {live : List (Nat × Nat)} {ptr size : Nat} {e : Nat × Nat}

theorem mem_dropBlock : e ∈ dropBlock live ptr ↔ e ∈ live ∧ e.1 ≠ ptr := by
  simp [dropBlock]

/-- Nothing is dropped at an address where there is nothing. -/
theorem dropBlock_of_forall (h : ∀ e ∈ live, e.1 ≠ ptr) : dropBlock live ptr = live :=
  List.filter_eq_self.mpr (fun e he => by simpa using h e he)

theorem dropBlock_map_nodup (h : (live.map Prod.fst).Nodup) :
    ((dropBlock live ptr).map Prod.fst).Nodup :=
  h.sublist (List.filter_sublist.map Prod.fst)

/-- What is dropped is one block, if each address is there once. -/
theorem perm_dropBlock (h : (live.map Prod.fst).Nodup) (hmem : ptr ∈ live.map Prod.fst) :
    (live.map Prod.fst).Perm (ptr :: (dropBlock live ptr).map Prod.fst) := by
  have hmap : (dropBlock live ptr).map Prod.fst = (live.map Prod.fst).filter (fun x => x ≠ ptr) := by
    rw [dropBlock, List.filter_map]
    rfl
  have herase : (live.map Prod.fst).filter (fun x => x ≠ ptr) = (live.map Prod.fst).erase ptr := by
    rw [h.erase_eq_filter]
    refine List.filter_congr (fun x _ => ?_)
    by_cases hx : x = ptr <;> simp [hx]
  rw [hmap, herase]
  exact List.perm_cons_erase hmem

end Blocks

end FlightOs
