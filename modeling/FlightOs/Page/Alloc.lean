/-
# Taking and releasing pages: `lib/page.c`

The nodes of the page map are linked on two lists, those that may have pages and those that are
exhausted.  `page_alloc` searches the first and moves a node to the second when its pool refuses a
page; `page_free` moves it back when the pool has enough free blocks.  `page_map_reserve_chunk`
looks at the array and does not care for the lists.

There is no result where a null pointer is followed, where a list leads to the anchor of the other,
and where a loop does not end.  What is printed is left out, and so is the check of the alignment
that `CONFIG_PAGE_MAP_CHECK_PAGE_ALIGNMENT` would add to `page_alloc`.
-/
import FlightOs.Lib.RingIter
import FlightOs.ListPair
import FlightOs.Page.Map

namespace FlightOs

/-! ## 1. The functions -/

/-- The pool of a node and the counters: what the functions of `mm.c` work on. -/
def PageMap.mm (s : PageMap) (i : Nat) : Mm := ⟨(s.node i).pool, s.stat⟩

/-- `PG_SIZE` -/
def pgSize (mp : MmPool) : Nat := wshl 1 mp.minOrder

/-- What a search for memory works on: the map and the result.  The nodes whose pools have been
asked are noted as well; nothing reads them. -/
structure PageScan where
  map : PageMap
  page : Option Nat
  asked : List Nat

/-- `mm_alloc` for the pool of a node. -/
def PageScan.ask (st : PageScan) (i size : Nat) : PageScan :=
  let r := mmAlloc (st.map.mm i) size
  ⟨st.map.setMm i r.1, r.2, st.asked ++ [i]⟩

/-- The loop of `page_map_reserve_chunk`. -/
def pageMapReserveFrom (size : Nat) : List Nat → PageScan → PageScan
  | [], st => st
  | i :: pg, st =>
    let st := st.ask i size
    if st.page.isSome then st else pageMapReserveFrom size pg st

/-- `page_map_reserve_chunk` -/
def pageMapReserveChunk (s : PageMap) (size : Nat) : Option PageScan :=
  match s.pageMem with
  | none => some ⟨s, none, []⟩
  -- the first node is asked before the end of the array is looked for
  | some pg => if pg = [] then none else some (pageMapReserveFrom size pg ⟨s, none, []⟩)

/-- The body of the loop in `page_alloc`. -/
def pageAllocTurn (st : PageScan) : PgNode → Option (PageScan × Bool)
  | .node i =>
    let st := st.ask i (pgSize (st.map.node i).pool)
    if st.page.isSome then some (st, true)
    else
      let links := listMoveTail st.map.links (.node i) .empty
      some ({ st with map := { st.map with links } }, false)
  | _ => none

/-- `page_alloc` -/
def pageAlloc (fuel : Nat) (s : PageMap) : Option PageScan :=
  match s.pageMem with
  | none => some ⟨s, none, []⟩
  | some _ =>
    (ringFor (fun st => st.map.links) pageAllocTurn .full fuel ⟨s, none, []⟩
      (s.links .full).next).map Prod.fst

/-- The body of the loop in `page_free` over the exhausted nodes.  A node with enough free blocks is
moved to the other list. -/
def pageFreeEmptyTurn (thresh page : Nat) (s : PageMap) : PgNode → Option (PageMap × Bool)
  | .node i =>
    if mmAddrInPool (s.node i).pool page then
      let s := s.setMm i (mmFree (s.mm i) page)
      if thresh ≤ mmUnallocatedBlocks (s.node i).pool then
        some ({ s with links := listMoveTail s.links (.node i) .full }, true)
      else some (s, true)
    else some (s, false)
  | _ => none

/-- The body of the loop in `page_free` over the other nodes. -/
def pageFreeFullTurn (page : Nat) (s : PageMap) : PgNode → Option (PageMap × Bool)
  | .node i =>
    if mmAddrInPool (s.node i).pool page then some (s.setMm i (mmFree (s.mm i) page), true)
    else some (s, false)
  | _ => none

/-- `page_free`; `thresh` is `PAGE_MAP_MOVE_NODE_AVAIL_THRESH`. -/
def pageFree (thresh fuel : Nat) (s : PageMap) (page : Nat) : Option PageMap :=
  match s.pageMem with
  | none => some s
  | some _ =>
    if page = 0 then some s
    else
      match ringFor PageMap.links (pageFreeEmptyTurn thresh page) .empty fuel s
        (s.links .empty).next with
      | none => none
      | some (s, true) => some s
      | some (s, false) =>
        (ringFor PageMap.links (pageFreeFullTurn page) .full fuel s
          (s.links .full).next).map Prod.fst

/-- The body of the loops in `page_map_get_chunk_size`, with the size that has been found. -/
def pageMapGetChunkSizeTurn (addr : Nat) (st : PageMap × Nat) : PgNode → Option ((PageMap × Nat) × Bool)
  | .node i =>
    if mmAddrInPool (st.1.node i).pool addr then
      some ((st.1, mmBlockSize (st.1.node i).pool addr), true)
    else some (st, false)
  | _ => none

/-- `page_map_get_chunk_size` -/
def pageMapGetChunkSize (fuel : Nat) (s : PageMap) (addr : Nat) : Option Nat :=
  match s.pageMem with
  | none => some 0
  | some _ =>
    if addr = 0 then some 0
    else
      let turn := pageMapGetChunkSizeTurn addr
      match ringFor (fun st => st.1.links) turn .empty fuel (s, 0) (s.links .empty).next with
      | none => none
      | some (st, true) => some st.2
      | some (st, false) =>
        (ringFor (fun st => st.1.links) turn .full fuel st (s.links .full).next).map fun r => r.1.2

/-! ## 2. What a pool is asked -/

section Pool

variable {mm : Mm} {mp : MmPool} {st st' : MmStat} {blk order size addr : Nat}

theorem mmSplitLoop_same : ∀ (n : Nat) (mp : MmPool), MmSame mp (mmSplitLoop blk order n mp)
  | 0, mp => .refl mp
  | n + 1, mp => by
    have hsplit : MmSame mp (mmSplitBlk mp blk (order + n)) := ⟨rfl, rfl, rfl, rfl⟩
    exact hsplit.trans (mmSplitLoop_same n _)

theorem mmTake_same {i : Nat} : MmSame mm.pool (mmTake mm blk i order).pool := by
  let mp := mmBlkSetAllocOrder (mmMarkAlloc mm.pool blk) blk order
  have hloop : MmSame mp (mmSplitLoop blk order (i - order) mp) := mmSplitLoop_same _ mp
  exact ⟨hloop.base, hloop.maxOrder, hloop.minOrder, hloop.nBlks⟩

/-- **An allocation** leaves the constants of a pool alone. -/
theorem mmAlloc_same : MmSame mm.pool (mmAlloc mm size).1.pool := by
  unfold mmAlloc mmAllocOrder
  split_ifs
  · exact .refl _
  · exact .refl _
  · split
    · exact .refl _
    · exact ⟨mmTake_same.base, mmTake_same.maxOrder, mmTake_same.minOrder, mmTake_same.nBlks⟩
  · exact mmTake_same

/-- A pool that refuses is left as it is. -/
theorem mmAlloc_refused (h : (mmAlloc mm size).2 = none) : (mmAlloc mm size).1.pool = mm.pool := by
  unfold mmAlloc mmAllocOrder at h ⊢
  split_ifs at h ⊢
  · rfl
  · rfl
  · split
    · rfl
    next heq => rw [heq] at h; cases h

variable (mp st st' size) in
/-- The counters have no part in it. -/
theorem mmAlloc_stat : (mmAlloc ⟨mp, st⟩ size).2 = (mmAlloc ⟨mp, st'⟩ size).2 ∧
    (mmAlloc ⟨mp, st⟩ size).1.pool = (mmAlloc ⟨mp, st'⟩ size).1.pool := by
  unfold mmAlloc mmAllocOrder
  split_ifs
  · exact ⟨rfl, rfl⟩
  · exact ⟨rfl, rfl⟩
  · dsimp only
    split <;> exact ⟨rfl, rfl⟩
  · exact ⟨rfl, rfl⟩

end Pool

/-! ## 3. A search -/

/-- The two lists of the page map. -/
abbrev PageMap.Lists (s : PageMap) (full empty : List Nat) : Prop :=
  ListPair s.links PgNode.node .full .empty full empty

theorem PgNode.node_inj : Function.Injective PgNode.node := fun _ _ h => PgNode.node.inj h

/-- The pool of a node refuses. -/
def PageMap.Refuses (s : PageMap) (i size : Nat) : Prop := (mmAlloc (s.mm i) size).2 = none

/-- How a search for memory ends that has found the pools of `dry` to refuse, and has `rest` left:
with nothing, or with what the next pool has.  `size` is what a node is asked for. -/
inductive PgFound (s : PageMap) (size : Nat → Nat) (dry : List Nat) :
    List Nat → PageScan → Prop
  | none {st : PageScan} (page : st.page = none) (node : st.map.node = s.node)
      (asked : st.asked = dry) : PgFound s size dry [] st
  | some {st : PageScan} {i a : Nat} {rest : List Nat} (page : st.page = some a)
      (serves : (mmAlloc (s.mm i) (size i)).2 = some a)
      (node : st.map.node = (s.setMm i (mmAlloc (s.mm i) (size i)).1).node)
      (asked : st.asked = dry ++ [i]) : PgFound s size dry (i :: rest) st

section Search

variable {s : PageMap} {st : PageScan} {full empty pg : List Nat} {i size : Nat}

/-- A node is asked what it was asked at first, as long as the nodes are as they were. -/
theorem PageScan.ask_eq (hnode : st.map.node = s.node) (i size : Nat) :
    (st.ask i size).page = (mmAlloc (s.mm i) size).2 ∧
      (st.ask i size).map.node = (s.setMm i (mmAlloc (s.mm i) size).1).node := by
  obtain ⟨hpage, hpool⟩ := mmAlloc_stat (s.node i).pool st.map.stat s.stat size
  have hmm : st.map.mm i = ⟨(s.node i).pool, st.map.stat⟩ := by rw [PageMap.mm, hnode]
  constructor
  · show (mmAlloc (st.map.mm i) size).2 = _
    rw [hmm, hpage]
    rfl
  · show Function.update st.map.node i _ = Function.update s.node i _
    rw [hnode, hmm, hpool]
    rfl

/-- A pool that refuses leaves its node as it is. -/
theorem PageMap.Refuses.node_eq (h : s.Refuses i size) :
    (s.setMm i (mmAlloc (s.mm i) size).1).node = s.node := by
  show Function.update s.node i _ = s.node
  rw [mmAlloc_refused h]
  exact Function.update_eq_self i s.node

/-- **The search of `page_map_reserve_chunk`.** -/
theorem pageMapReserveFrom_spec (pg : List Nat) (size : Nat) (hnode : st.map.node = s.node) (hpage : st.page = none) :
    ∃ dry rest, pg = dry ++ rest ∧ (∀ i ∈ dry, s.Refuses i size) ∧
      (pageMapReserveFrom size pg st).map.links = st.map.links ∧
      (pageMapReserveFrom size pg st).map.pageMem = st.map.pageMem ∧
      PgFound s (fun _ => size) (st.asked ++ dry) rest (pageMapReserveFrom size pg st) := by
  induction pg generalizing st with
  | nil =>
    refine ⟨[], [], rfl, fun i hi => absurd hi List.not_mem_nil, rfl, rfl, ?_⟩
    exact .none hpage hnode (List.append_nil _).symm
  | cons i pg ih =>
    obtain ⟨hask, hnode'⟩ := PageScan.ask_eq hnode i size
    cases h : (mmAlloc (s.mm i) size).2 with
    | none =>
      have href : s.Refuses i size := h
      rw [h] at hask
      rw [href.node_eq] at hnode'
      obtain ⟨dry, rest, heq, hdry, hlinks, hmem, hfound⟩ := ih hnode' hask
      have hrun : pageMapReserveFrom size (i :: pg) st = pageMapReserveFrom size pg (st.ask i size) := by
        rw [pageMapReserveFrom]
        exact if_neg (by rw [hask]; exact Bool.false_ne_true)
      refine ⟨i :: dry, rest, by rw [heq, List.cons_append], ?_, ?_, ?_, ?_⟩
      · intro j hj
        rcases List.mem_cons.mp hj with rfl | hj
        · exact href
        · exact hdry j hj
      · rw [hrun, hlinks]
        rfl
      · rw [hrun, hmem]
        rfl
      · rw [hrun, List.append_cons]
        exact hfound
    | some a =>
      rw [h] at hask
      have hrun : pageMapReserveFrom size (i :: pg) st = st.ask i size := by
        rw [pageMapReserveFrom]
        exact if_pos (by rw [hask]; rfl)
      refine ⟨[], i :: pg, rfl, fun i hi => absurd hi List.not_mem_nil, ?_, ?_, ?_⟩
      · rw [hrun]
        rfl
      · rw [hrun]
        rfl
      · rw [hrun, List.append_nil]
        exact .some hask h hnode' rfl

/-- How the search of `page_alloc` stands when `rest` is still on the list. -/
structure PgSearch (s : PageMap) (full empty : List Nat) (dry rest : List Nat) (st : PageScan) :
    Prop where
  split : full = dry ++ rest
  refuses : ∀ i ∈ dry, s.Refuses i (pgSize (s.node i).pool)
  lists : st.map.Lists rest (empty ++ dry)
  pageMem : st.map.pageMem = s.pageMem

/-- A node that refuses is moved, the next one is asked. -/
theorem PgSearch.next {dry rest : List Nat} (S : PgSearch s full empty dry (i :: rest) st)
    (hnode : st.map.node = s.node) (h : s.Refuses i (pgSize (s.node i).pool)) :
    ∃ st', pageAllocTurn st (.node i) = some (st', false) ∧
      PgSearch s full empty (dry ++ [i]) rest st' ∧ st'.map.node = s.node ∧ st'.page = none ∧
      st'.asked = st.asked ++ [i] := by
  obtain ⟨hask, hnode'⟩ := PageScan.ask_eq hnode i (pgSize (s.node i).pool)
  have href : (mmAlloc (s.mm i) (pgSize (s.node i).pool)).2 = none := h
  rw [href] at hask
  rw [h.node_eq] at hnode'
  have hsize : pgSize (st.map.node i).pool = pgSize (s.node i).pool := by rw [hnode]
  have hturn := S.lists.moveAcross PgNode.node_inj (n := i) List.mem_cons_self
  rw [List.erase_cons_head, List.append_assoc] at hturn
  let asked := st.ask i (pgSize (s.node i).pool)
  let moved := { asked.map with links := listMoveTail st.map.links (.node i) .empty }
  refine ⟨{ asked with map := moved }, ?_, ⟨?_, ?_, hturn, S.pageMem⟩, hnode', hask, rfl⟩
  · simp only [pageAllocTurn, hsize]
    rw [if_neg (by rw [hask]; exact Bool.false_ne_true)]
    rfl
  · rw [S.split, List.append_assoc]
    rfl
  · intro j hj
    rcases List.mem_append.mp hj with hj | hj
    · exact S.refuses j hj
    · rw [List.mem_singleton.mp hj]
      exact h

/-- **A call of `page_alloc`** takes the nodes that refuse off the list, and the page from the next
one. -/
theorem pageAlloc_spec (hmem : s.pageMem = some pg) (L : s.Lists full empty) {fuel : Nat}
    (hfuel : full.length < fuel) :
    ∃ dry rest st, pageAlloc fuel s = some st ∧ PgSearch s full empty dry rest st ∧
      PgFound s (fun i => pgSize (s.node i).pool) dry rest st := by
  have hstart : PgSearch s full empty [] full ⟨s, none, []⟩ :=
    ⟨rfl, fun i hi => absurd hi List.not_mem_nil, by simpa using L, rfl⟩
  obtain ⟨st, stop, hfor, dry, rest, hS, hfound⟩ := ringFor_rule
    (fun st : PageScan => st.map.links) pageAllocTurn .full
    (fun st l => ∃ dry rest, l = rest.map PgNode.node ∧ PgSearch s full empty dry rest st ∧
      st.map.node = s.node ∧ st.page = none ∧ st.asked = dry)
    (fun st _ => ∃ dry rest, PgSearch s full empty dry rest st ∧
      PgFound s (fun i => pgSize (s.node i).pool) dry rest st)
    (by
      rintro st x l ⟨dry, rest, hl, hS, -⟩
      have hring : Ring st.map.links .full ([] ++ x :: l) := by
        rw [List.nil_append, hl]
        exact hS.lists.fst
      exact hring.next_mid)
    (by
      rintro st ⟨dry, rest, hl, hS, hnode, hpage, hasked⟩
      obtain rfl := List.map_eq_nil_iff.mp hl.symm
      exact ⟨dry, [], hS, .none hpage hnode hasked⟩)
    (by
      rintro st x l ⟨dry, rest, hl, hS, hnode, hpage, hasked⟩
      obtain ⟨i, rest, rfl, rfl, rfl⟩ := List.map_eq_cons_iff.mp hl.symm
      cases h : (mmAlloc (s.mm i) (pgSize (s.node i).pool)).2 with
      | none =>
        obtain ⟨st', hturn, hS', hnode', hpage', hasked'⟩ := hS.next hnode h
        refine ⟨st', false, hturn, ?_⟩
        rw [if_neg Bool.false_ne_true]
        exact ⟨dry ++ [i], rest, rfl, hS', hnode', hpage', by rw [hasked', hasked]⟩
      | some a =>
        obtain ⟨hask, hnode'⟩ := PageScan.ask_eq hnode i (pgSize (s.node i).pool)
        have hsize : pgSize (st.map.node i).pool = pgSize (s.node i).pool := by rw [hnode]
        rw [h] at hask
        refine ⟨st.ask i (pgSize (s.node i).pool), true, ?_, ?_⟩
        · simp only [pageAllocTurn, hsize]
          rw [if_pos (by rw [hask]; rfl)]
        · rw [if_pos rfl]
          refine ⟨dry, i :: rest, ⟨hS.split, hS.refuses, hS.lists, hS.pageMem⟩, ?_⟩
          refine .some hask h hnode' ?_
          rw [← hasked]
          rfl)
    ⟨[], full, rfl, hstart, rfl, rfl, rfl⟩
    (by simpa using hfuel)
  refine ⟨dry, rest, st, ?_, hS, hfound⟩
  have hhead : (s.links .full).next = some ((full.map PgNode.node).headD .full) := L.fst.next_head
  simp only [pageAlloc, hmem, hhead, hfor, Option.map_some]

theorem pageAlloc_mono {n m : Nat} (h : pageAlloc n s = some st) (hle : n ≤ m) :
    pageAlloc m s = some st := by
  unfold pageAlloc at h ⊢
  split at h
  · exact h
  · obtain ⟨r, hr, rfl⟩ := Option.map_eq_some_iff.mp h
    rw [ringFor_mono hr hle, Option.map_some]

/-- What a call of `page_alloc` comes back with. -/
theorem pageAlloc_result (hmem : s.pageMem = some pg) (L : s.Lists full empty) {fuel : Nat}
    (h : pageAlloc fuel s = some st) : ∃ dry rest, PgSearch s full empty dry rest st ∧
      PgFound s (fun i => pgSize (s.node i).pool) dry rest st := by
  obtain ⟨dry, rest, st', hst', hS, hfound⟩ := pageAlloc_spec hmem L
    (Nat.lt_succ_of_le (Nat.le_max_right fuel full.length))
  have heq := (pageAlloc_mono h (Nat.le_succ_of_le (Nat.le_max_left fuel _))).symm.trans hst'
  exact ⟨dry, rest, Option.some.inj heq ▸ ⟨hS, hfound⟩⟩

end Search

/-! ## 4. A release -/

/-- The node after its pool has taken the page back. -/
def PageMap.freed (s : PageMap) (i page : Nat) : PageMap := s.setMm i (mmFree (s.mm i) page)

/-- What a call of `page_free` makes of the nodes and of the two lists: the first exhausted node with
the page, or else the first of the others, takes it back. -/
inductive PgFreed (s : PageMap) (full empty : List Nat) (thresh page : Nat) :
    (Nat → PageMapNode) → List Nat → List Nat → Prop
  | nowhere (none : ∀ i ∈ full ++ empty, mmAddrInPool (s.node i).pool page = false) :
      PgFreed s full empty thresh page s.node full empty
  | moved {i : Nat} (mem : i ∈ empty) (has : mmAddrInPool (s.node i).pool page = true)
      (avail : thresh ≤ mmUnallocatedBlocks ((s.freed i page).node i).pool) :
      PgFreed s full empty thresh page (s.freed i page).node (full ++ [i]) (empty.erase i)
  | kept {i : Nat} (mem : i ∈ empty) (has : mmAddrInPool (s.node i).pool page = true)
      (few : mmUnallocatedBlocks ((s.freed i page).node i).pool < thresh) :
      PgFreed s full empty thresh page (s.freed i page).node full empty
  | listed {i : Nat} (mem : i ∈ full) (has : mmAddrInPool (s.node i).pool page = true)
      (none : ∀ j ∈ empty, mmAddrInPool (s.node j).pool page = false) :
      PgFreed s full empty thresh page (s.freed i page).node full empty

section Release

variable {s : PageMap} {full empty pg : List Nat} {thresh page fuel : Nat}

/-- A loop over a list of nodes that changes nothing until it stops at the first node of a kind. -/
theorem ringFor_first {σ : Type} {links : σ → Links PgNode} {s : σ} {head : PgNode} {l : List Nat}
    (p : Nat → Bool) (body : σ → PgNode → Option (σ × Bool)) (turn : Nat → σ)
    (hring : Ring (links s) head (l.map PgNode.node))
    (hbody : ∀ i, body s (.node i) = if p i then some (turn i, true) else some (s, false))
    (hfuel : l.length < fuel) :
    (ringFor links body head fuel s (links s head).next = some (s, false) ∧ ∀ i ∈ l, p i = false) ∨
    ∃ i ∈ l, p i = true ∧ ringFor links body head fuel s (links s head).next = some (turn i, true) := by
  obtain ⟨s', stop, hfor, hQ⟩ := ringFor_rule links body head
    (fun s' k => s' = s ∧ ∃ pre rest, l = pre ++ rest ∧ k = rest.map PgNode.node ∧
      ∀ i ∈ pre, p i = false)
    (fun s' stop => (stop = false ∧ s' = s ∧ ∀ i ∈ l, p i = false) ∨
      (stop = true ∧ ∃ i ∈ l, p i = true ∧ s' = turn i))
    (by
      rintro s' x k ⟨rfl, pre, rest, hl, hk, -⟩
      rw [hl, List.map_append, ← hk] at hring
      exact hring.next_mid)
    (by
      rintro s' ⟨rfl, pre, rest, hl, hk, hpre⟩
      obtain rfl := List.map_eq_nil_iff.mp hk.symm
      rw [List.append_nil] at hl
      exact Or.inl ⟨rfl, rfl, hl ▸ hpre⟩)
    (by
      rintro s' x k ⟨rfl, pre, rest, hl, hk, hpre⟩
      obtain ⟨i, rest, rfl, rfl, rfl⟩ := List.map_eq_cons_iff.mp hk.symm
      rw [hbody]
      cases h : p i with
      | true =>
        refine ⟨turn i, true, rfl, ?_⟩
        rw [if_pos rfl]
        exact Or.inr ⟨rfl, i, hl ▸ List.mem_append_right pre List.mem_cons_self, h, rfl⟩
      | false =>
        refine ⟨s', false, rfl, ?_⟩
        rw [if_neg Bool.false_ne_true]
        refine ⟨rfl, pre ++ [i], rest, by rw [hl, List.append_assoc]; rfl, rfl, fun j hj => ?_⟩
        rcases List.mem_append.mp hj with hj | hj
        · exact hpre j hj
        · rw [List.mem_singleton.mp hj]
          exact h)
    ⟨rfl, [], l, rfl, rfl, fun i hi => absurd hi List.not_mem_nil⟩
    (show (l.map PgNode.node).length < fuel by rwa [List.length_map])
  rw [hring.next_head]
  rcases hQ with ⟨rfl, rfl, hnone⟩ | ⟨rfl, i, hi, hin, rfl⟩
  · exact Or.inl ⟨hfor, hnone⟩
  · exact Or.inr ⟨i, hi, hin, hfor⟩

variable (thresh) in
/-- **A call of `page_free`.** -/
theorem pageFree_spec (hmem : s.pageMem = some pg) (hpage : page ≠ 0) (L : s.Lists full empty)
    (hfuel : full.length + empty.length < fuel) :
    ∃ s' full' empty', pageFree thresh fuel s page = some s' ∧ s'.pageMem = some pg ∧
      s'.Lists full' empty' ∧ PgFreed s full empty thresh page s'.node full' empty' := by
  let has := fun i => mmAddrInPool (s.node i).pool page
  rcases ringFor_first has (pageFreeEmptyTurn thresh page)
    (fun i => if thresh ≤ mmUnallocatedBlocks ((s.freed i page).node i).pool then
      { s.freed i page with links := listMoveTail s.links (.node i) .full } else s.freed i page)
    L.snd (by
      intro i
      simp only [pageFreeEmptyTurn]
      split
      · by_cases h : thresh ≤ mmUnallocatedBlocks ((s.freed i page).node i).pool
        · rw [if_pos h]
          exact if_pos h
        · rw [if_neg h]
          exact if_neg h
      · rfl) (show empty.length < fuel by omega)
    with ⟨hfor, hnone⟩ | ⟨i, hi, hin, hfor⟩
  · have hcall : pageFree thresh fuel s page = (ringFor PageMap.links (pageFreeFullTurn page) .full
        fuel s (s.links .full).next).map Prod.fst := by
      simp only [pageFree, hmem, if_neg hpage, hfor]
    rcases ringFor_first has (pageFreeFullTurn page) (fun i => s.freed i page) L.fst
      (fun i => rfl) (show full.length < fuel by omega)
      with ⟨hfor', hnone'⟩ | ⟨i, hi, hin, hfor'⟩
    · refine ⟨s, full, empty, by rw [hcall, hfor']; rfl, hmem, L, .nowhere fun i hi => ?_⟩
      rcases List.mem_append.mp hi with hi | hi
      · exact hnone' i hi
      · exact hnone i hi
    · exact ⟨s.freed i page, full, empty, by rw [hcall, hfor']; rfl, hmem, L, .listed hi hin hnone⟩
  · have hcall : pageFree thresh fuel s page =
        some (if thresh ≤ mmUnallocatedBlocks ((s.freed i page).node i).pool then
          { s.freed i page with links := listMoveTail s.links (.node i) .full }
        else s.freed i page) := by
      simp only [pageFree, hmem, if_neg hpage, hfor]
    by_cases h : thresh ≤ mmUnallocatedBlocks ((s.freed i page).node i).pool
    · rw [if_pos h] at hcall
      exact ⟨_, full ++ [i], empty.erase i, hcall, hmem,
        (L.symm.moveAcross PgNode.node_inj hi).symm, .moved hi hin h⟩
    · rw [if_neg h] at hcall
      exact ⟨s.freed i page, full, empty, hcall, hmem, L, .kept hi hin (not_le.mp h)⟩

theorem pageFree_mono {s' : PageMap} {n m : Nat} (h : pageFree thresh n s page = some s')
    (hle : n ≤ m) : pageFree thresh m s page = some s' := by
  unfold pageFree at h ⊢
  split at h
  · exact h
  split_ifs at h ⊢
  · exact h
  split at h
  · cases h
  next heq => rw [ringFor_mono heq hle]; exact h
  next heq =>
    rw [ringFor_mono heq hle]
    obtain ⟨r, hr, rfl⟩ := Option.map_eq_some_iff.mp h
    exact Option.map_eq_some_iff.mpr ⟨r, ringFor_mono hr hle, rfl⟩

/-- What a call of `page_free` comes back with. -/
theorem pageFree_result {s' : PageMap} (hmem : s.pageMem = some pg) (hpage : page ≠ 0)
    (L : s.Lists full empty) (h : pageFree thresh fuel s page = some s') :
    s'.pageMem = some pg ∧ ∃ full' empty', s'.Lists full' empty' ∧
      PgFreed s full empty thresh page s'.node full' empty' := by
  obtain ⟨s₁, full', empty', h₁, hmem', L', hF⟩ := pageFree_spec thresh hmem hpage L
    (Nat.lt_succ_of_le (Nat.le_max_right fuel (full.length + empty.length)))
  have heq := (pageFree_mono h (Nat.le_succ_of_le (Nat.le_max_left fuel _))).symm.trans h₁
  obtain rfl := Option.some.inj heq
  exact ⟨hmem', full', empty', L', hF⟩

/-- **A call of `page_map_get_chunk_size`** finds the size of the block in the node that has it, if
the others do not have it. -/
theorem pageMapGetChunkSize_spec {i : Nat} (hmem : s.pageMem = some pg) (hpage : page ≠ 0)
    (L : s.Lists full empty) (hfuel : full.length + empty.length < fuel) (hi : i ∈ full ++ empty)
    (hin : mmAddrInPool (s.node i).pool page = true)
    (hone : ∀ j ∈ full ++ empty, mmAddrInPool (s.node j).pool page = true → j = i) :
    pageMapGetChunkSize fuel s page = some (mmBlockSize (s.node i).pool page) := by
  let has := fun i => mmAddrInPool (s.node i).pool page
  let links := fun st : PageMap × Nat => st.1.links
  let found := fun i => (s, mmBlockSize (s.node i).pool page)
  have hsnd : Ring (links (s, 0)) .empty (empty.map PgNode.node) := L.snd
  have hfst : Ring (links (s, 0)) .full (full.map PgNode.node) := L.fst
  simp only [pageMapGetChunkSize, hmem, if_neg hpage]
  rcases ringFor_first has (pageMapGetChunkSizeTurn page) found hsnd (fun i => rfl)
    (show empty.length < fuel by omega) with ⟨hfor, hnone⟩ | ⟨j, hj, hhas, hfor⟩
  · rcases ringFor_first has (pageMapGetChunkSizeTurn page) found hfst (fun i => rfl)
      (show full.length < fuel by omega) with ⟨-, hnone'⟩ | ⟨j, hj, hhas, hfor'⟩
    · have hfalse : has i = false := (List.mem_append.mp hi).elim (hnone' i) (hnone i)
      exact absurd (hfalse.symm.trans hin) Bool.false_ne_true
    · obtain rfl := hone j (List.mem_append_left empty hj) hhas
      simp only [links] at hfor hfor'
      simp only [hfor, hfor']
      rfl
  · obtain rfl := hone j (List.mem_append_right full hj) hhas
    simp only [links] at hfor
    simp only [hfor]
    rfl

end Release

end FlightOs
