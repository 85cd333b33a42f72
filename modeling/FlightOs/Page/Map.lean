/-
# The page map: `lib/page.c`

The page map is a null-terminated array of nodes, each with a buddy pool (`Mm/Pool.lean`) for a
section of the memory.  A node without a section has a pool whose `max_order` is zero, and
`page_map_add` takes the first of these for a new section, after it has compared the section with
those of the nodes before.

A node is named by a number, in place of its address; its pool is part of it.  The array is the list
of the nodes before the terminating null pointer.  There is no result where that pointer is followed.
-/
import FlightOs.Mm.Inv
import Mathlib.Logic.Function.Basic

namespace FlightOs

/-! ## 1. The map -/

/-- Where a `struct list_head` of the page map lies. -/
inductive PgNode
  | full
  | empty
  | node (i : Nat)
deriving DecidableEq

/-- `struct page_map_node`, without its list node. -/
structure PageMapNode where
  pool : MmPool
  memStart : Nat
  memEnd : Nat

/-- Two nodes with one section, whose pools have the same constants. -/
structure PageMapNode.Same (w w' : PageMapNode) : Prop where
  memStart : w'.memStart = w.memStart
  memEnd : w'.memEnd = w.memEnd
  pool : MmSame w.pool w'.pool

theorem PageMapNode.Same.refl (w : PageMapNode) : w.Same w := ⟨rfl, rfl, .refl _⟩

/-- `page_mem`, the nodes, the links of the two lists and the counters of the pools. -/
structure PageMap where
  pageMem : Option (List Nat)
  node : Nat → PageMapNode
  links : Links PgNode
  stat : MmStat

/-- What `mm_init` leaves in the pool of a node and in the counters. -/
def PageMap.setMm (s : PageMap) (i : Nat) (mm : Mm) : PageMap :=
  { s with node := Function.update s.node i { s.node i with pool := mm.pool }, stat := mm.stat }

def PageMap.setSection (s : PageMap) (i start stop : Nat) : PageMap :=
  { s with node := Function.update s.node i { s.node i with memStart := start, memEnd := stop } }

/-- `page_map_set_map` -/
def pageMapSetMap (s : PageMap) (pg : List Nat) : PageMap :=
  let links := initListHead s.links .full
  let links := initListHead links .empty
  -- consider all as full at the beginning
  { s with
    pageMem := some pg
    links := pg.foldl (fun links i => listAddTail links (.node i) .full) links }

/-- What the search of `page_map_add` comes to. -/
inductive PageMapSearch
  | found (i : Nat)
  | overlap
  | exceeded
deriving DecidableEq

/-- The search for the first empty pool entry, with the check for overlapping configurations. -/
def pageMapSearch (node : Nat → PageMapNode) (start stop : Nat) : List Nat → PageMapSearch
  | [] => .exceeded
  | i :: pg =>
    if (node i).pool.maxOrder = 0 then .found i
    else if (node i).memStart ≤ start ∧ start < (node i).memEnd then .overlap
    else if stop ≤ (node i).memEnd ∧ (node i).memStart < stop then .overlap
    else pageMapSearch node start stop pg

/-- Zero, or a negated error number. -/
def pageMapAdd (s : PageMap) (start stop pageSize : Nat) : Option (PageMap × Int) :=
  match s.pageMem with
  | none => some (s, -(ENOMEM : Int))
  | some pg =>
    if stop < start then some (s, -(ENOMEM : Int))
    else if stop - start < pageSize then some (s, -(ENOMEM : Int))
    else if pageSize = 0 then some (s, -(ENOMEM : Int))
    -- the first node is looked at before the end of the array is
    else if pg = [] then none
    else
      match pageMapSearch s.node start stop pg with
      | .overlap => some (s, -(EINVAL : Int))
      | .exceeded => some (s, -(ENOMEM : Int))
      | .found i =>
        match mmInit ⟨(s.node i).pool, s.stat⟩ start (stop - start) pageSize with
        | (mm, ret) =>
          let s := s.setMm i mm
          if ret ≠ 0 then some (s, -(ENOMEM : Int))
          else
            let s := s.setSection i start stop
            some ({ s with links := listAddTail s.links (.node i) .full }, 0)

/-- Zero, or a negated error number. -/
def pageMapInit (s : PageMap) (pgMap : List Nat) (start stop pageSize : Nat) : PageMap × Int :=
  match pgMap with
  | [] => (s, -(ENOMEM : Int))
  | pg :: _ =>
    if stop < start then (s, -(ENOMEM : Int))
    else
      match mmInit ⟨(s.node pg).pool, s.stat⟩ start (stop - start) pageSize with
      | (mm, ret) =>
        let s := s.setMm pg mm
        if ret ≠ 0 then (s, -(ENOMEM : Int))
        else (pageMapSetMap (s.setSection pg start stop) pgMap, 0)

/-! ## 2. The pool of a new section -/

section Orders

variable {mm : Mm} {mp : MmPool} {blk order base size granularity : Nat}

theorem mmMergeBlk_same : MmSame mp (mmMergeBlk mp blk order).1 := by
  simp only [mmMergeBlk]
  split_ifs <;> exact ⟨rfl, rfl, rfl, rfl⟩

theorem mmUpmergeLoop_same : ∀ (n : Nat) (mp : MmPool) (blk order : Nat),
    MmSame mp (mmUpmergeLoop n mp blk order).1
  | 0, mp, _, _ => .refl mp
  | n + 1, mp, blk, order => by
    have hmerge : MmSame mp (mmMergeBlk mp blk order).1 := mmMergeBlk_same
    rw [mmUpmergeLoop]
    split
    next mp' tmp heq =>
      rw [heq] at hmerge
      exact hmerge.trans (mmUpmergeLoop_same n mp' tmp _)
    next mp' heq =>
      rw [heq] at hmerge
      exact hmerge

theorem mmUpmergeBlks_same : MmSame mp (mmUpmergeBlks mp blk) := by
  have hloop := mmUpmergeLoop_same (mp.maxOrder - mmBlkGetAllocOrder mp blk) mp blk
    (mmBlkGetAllocOrder mp blk)
  simp only [mmUpmergeBlks, mmLinkFree]
  split_ifs
  · exact hloop.trans ⟨rfl, rfl, rfl, rfl⟩
  · exact hloop.trans ⟨rfl, rfl, rfl, rfl⟩

/-- **A release** leaves the constants of a pool alone. -/
theorem mmFree_same : MmSame mm.pool (mmFree mm blk).pool := by
  simp only [mmFree]
  split_ifs
  all_goals first
    | exact .refl _
    | exact mmUpmergeBlks_same.trans ⟨rfl, rfl, rfl, rfl⟩

/-- **The order of a pool** is recorded, even where `mm_init` fails. -/
theorem mmInit_maxOrder :
    (mmInit mm base size granularity).1.pool.maxOrder = ilog2 (rounddownPowOfTwo size) := by
  simp only [mmInit]
  split_ifs
  all_goals first
    | rfl
    | exact mmFree_same.maxOrder

variable (mm base granularity) in
/-- A pool of more than one byte can be told from one that is not in use. -/
theorem mmInit_maxOrder_ne_zero (h : 2 ≤ size) (hlt : size < 2 ^ 32) :
    (mmInit mm base size granularity).1.pool.maxOrder ≠ 0 := by
  rw [mmInit_maxOrder, (ilog2_rounddown (by omega) hlt).1]
  intro h0
  have hlog : Nat.log2 size < 1 := by omega
  rw [Nat.log2_lt (by omega)] at hlog
  omega

end Orders

end FlightOs
