/-
# The two lists of the page map

A configured node is on one of the two lists of the page map, and `page_alloc` asks none but
configured ones.  `page_map_set_map` links every node of the array, and `page_map_add` links a node
when it is configured: a node that is in the array before it is configured is linked twice, and the
list no longer leads back to its head.

* `pageMapSetMap_lists`, `pageMapAdd_cases`: what a call makes of the lists.
* `PgInv.call`: the step.  The nodes on the lists are the configured nodes of the array.
* `page_map_partition`: in every run in which an array is set only when its nodes are configured.
-/
import FlightOs.Page.Alloc
import FlightOs.Page.Overlap

namespace FlightOs

/-! ## 1. Linking the nodes -/

section Link

variable {s s' : PageMap} {pg : List Nat} {start stop pageSize i : Nat} {ret : Int}

theorem listPair_addAll (pg : List Nat) {m : Links PgNode} {full : List Nat}
    (L : ListPair m PgNode.node .full .empty full []) (hnd : (full ++ pg).Nodup) :
    ListPair (pg.foldl (fun m i => listAddTail m (.node i) .full) m) PgNode.node .full .empty
      (full ++ pg) [] := by
  induction pg generalizing m full with
  | nil =>
    rw [List.append_nil]
    exact L
  | cons i pg ih =>
    have hi : i ∉ full := fun h => (List.nodup_append.mp hnd).2.2 i h i List.mem_cons_self rfl
    have hadd := L.addTail (n := i)
      (by rw [List.mem_cons, List.mem_map_of_injective PgNode.node_inj]; simp [hi]) (by simp)
    rw [List.append_cons] at hnd ⊢
    exact ih hadd hnd

/-- **`page_map_set_map`** links every node of the array. -/
theorem pageMapSetMap_lists (s : PageMap) (hnd : pg.Nodup) : (pageMapSetMap s pg).Lists pg [] := by
  suffices L : (⟨some pg, s.node, initListHead (initListHead s.links .full) .empty, s.stat⟩ :
      PageMap).Lists [] [] from listPair_addAll pg L hnd
  refine ⟨?_, initListHead_ring _ _, ?_⟩
  · refine (initListHead_ring s.links .full).congr (fun x hx => ?_)
    rw [List.mem_singleton] at hx
    exact initListHead_frame _ (by rw [hx]; decide)
  · decide

/-- The node that a search finds is one of the array and not in use. -/
theorem pageMapSearch_found {node : Nat → PageMapNode}
    (h : pageMapSearch node start stop pg = .found i) : i ∈ pg ∧ (node i).pool.maxOrder = 0 := by
  induction pg with
  | nil => cases h
  | cons j pg ih =>
    rw [pageMapSearch] at h
    split_ifs at h with h0
    · cases h
      exact ⟨List.mem_cons_self, h0⟩
    · exact ⟨List.mem_cons_of_mem j (ih h).1, (ih h).2⟩

/-- **What a call of `page_map_add` does**: nothing; or it spoils the pool of an unused node; or it
configures the node and links it. -/
theorem pageMapAdd_cases (hpg : s.pageMem = some pg)
    (h : pageMapAdd s start stop pageSize = some (s', ret)) :
    (s' = s ∧ ret ≠ 0) ∨ ∃ i, pageMapSearch s.node start stop pg = .found i ∧
      (0 < pageSize ∧ pageSize ≤ stop - start) ∧
      ((ret ≠ 0 ∧
          s' = s.setMm i (mmInit ⟨(s.node i).pool, s.stat⟩ start (stop - start) pageSize).1) ∨
        (ret = 0 ∧ s'.pageMem = some pg ∧ s'.links = listAddTail s.links (.node i) .full ∧
          (mmInit ⟨(s.node i).pool, s.stat⟩ start (stop - start) pageSize).2 = 0 ∧
          s'.node = ((s.setMm i (mmInit ⟨(s.node i).pool, s.stat⟩ start (stop - start)
            pageSize).1).setSection i start stop).node)) := by
  unfold pageMapAdd at h
  simp only [hpg] at h
  have hkeep : ∀ e : Int, e ≠ 0 → some (s, e) = some (s', ret) → s' = s ∧ ret ≠ 0 := by
    intro e he heq
    cases heq
    exact ⟨rfl, he⟩
  split_ifs at h with h1 h2 h3 h4
  · exact Or.inl (hkeep _ (by decide) h)
  · exact Or.inl (hkeep _ (by decide) h)
  · exact Or.inl (hkeep _ (by decide) h)
  · cases hs : pageMapSearch s.node start stop pg with
    | overlap =>
      rw [hs] at h
      exact Or.inl (hkeep _ (by decide) h)
    | exceeded =>
      rw [hs] at h
      exact Or.inl (hkeep _ (by decide) h)
    | found i =>
      simp only [hs] at h
      refine Or.inr ⟨i, rfl, ⟨Nat.pos_of_ne_zero h3, not_lt.mp h2⟩, ?_⟩
      split_ifs at h with h5
      · cases h
        exact Or.inl ⟨by decide, rfl⟩
      · cases h
        exact Or.inr ⟨rfl, hpg, rfl, not_not.mp h5, rfl⟩

theorem pageMapAdd_returns (start stop pageSize : Nat) (h : s.pageMem ≠ some []) :
    ∃ r, pageMapAdd s start stop pageSize = some r := by
  unfold pageMapAdd
  cases hpg : s.pageMem with
  | none => exact ⟨_, rfl⟩
  | some pg =>
    have hne : pg ≠ [] := fun e => h (by rw [hpg, e])
    simp only [if_neg hne]
    split_ifs
    · exact ⟨_, rfl⟩
    · exact ⟨_, rfl⟩
    · exact ⟨_, rfl⟩
    · split
      · exact ⟨_, rfl⟩
      · exact ⟨_, rfl⟩
      · split_ifs <;> exact ⟨_, rfl⟩

end Link

/-! ## 2. Runs -/

/-- The page map, the nodes whose pools have been set up by a call that returned zero, and those that
the last call asked for memory. -/
structure PgState where
  map : PageMap
  ready : List Nat
  asked : List Nat

/-- A call, or a node that is stored behind the last one of the array. -/
inductive PgOp
  | init (pg : List Nat) (start stop pageSize : Nat)
  | store (i : Nat)
  | setMap (pg : List Nat)
  | add (start stop pageSize : Nat)
  | alloc
  | reserve (size : Nat)
  | free (page : Nat)

/-- The node that `page_map_add` takes for a new section. -/
def PageMap.unused (s : PageMap) (start stop : Nat) : List Nat :=
  match pageMapSearch s.node start stop (s.pageMem.getD []) with
  | .found i => [i]
  | _ => []

def pgCall (thresh fuel : Nat) (s : PgState) : PgOp → Option PgState
  | .init pg start stop pageSize =>
    let r := pageMapInit s.map pg start stop pageSize
    some ⟨r.1, if r.2 = 0 then pg.take 1 ++ s.ready else s.ready, []⟩
  | .store i => s.map.pageMem.map fun pg => ⟨{ s.map with pageMem := some (pg ++ [i]) }, s.ready, []⟩
  | .setMap pg => some ⟨pageMapSetMap s.map pg, s.ready, []⟩
  | .add start stop pageSize => (pageMapAdd s.map start stop pageSize).map fun r =>
    ⟨r.1, if r.2 = 0 then s.map.unused start stop ++ s.ready else s.ready, []⟩
  | .alloc => (pageAlloc fuel s.map).map fun st => ⟨st.map, s.ready, st.asked⟩
  | .reserve size => (pageMapReserveChunk s.map size).map fun st => ⟨st.map, s.ready, st.asked⟩
  | .free page => (pageFree thresh fuel s.map page).map fun map => ⟨map, s.ready, []⟩

/-- The calls in any order, from a page map that is not in use. -/
def pgSystem (thresh : Nat) : System PgState PgOp where
  init s := s.map.pageMem = none ∧ s.ready = [] ∧ s.asked = []
  step s o s' := ∃ fuel, pgCall thresh fuel s o = some s'

/-- The nodes up to the first one that has the memory are set up. -/
def PgState.ReadyFor (s : PgState) (size : Nat) : List Nat → Prop
  | [] => True
  | i :: pg => i ∈ s.ready ∧ (s.map.Refuses i size → s.ReadyFor size pg)

/-- An array is set when its nodes are set up, and a chunk is looked for in pools that are.  A node
that is stored later is not in use, and there is a node when the first one is looked at. -/
def PgOk (s : PgState) : PgOp → Prop
  | .init pg start stop _ => pg.Nodup ∧ (SectionSize start stop ∧ stop ≠ start) ∧
    (∀ i ∈ pg.take 1, i ∉ s.ready) ∧ ∀ i ∈ pg.tail, i ∈ s.ready
  | .store i => ∃ pg, s.map.pageMem = some pg ∧ i ∉ pg ∧ (s.map.node i).pool.maxOrder = 0
  | .setMap pg => pg.Nodup ∧ ∀ i ∈ pg, i ∈ s.ready
  | .add start stop _ => SectionSize start stop ∧ s.map.pageMem ≠ some []
  | .alloc => True
  | .reserve size => ∀ pg, s.map.pageMem = some pg → pg ≠ [] ∧ s.ReadyFor size pg
  | .free _ => True

/-- The configured nodes of the array are on the two lists, each of them once, and no other node is;
none but nodes that are set up have been asked for memory. -/
structure PgPartition (s : PgState) : Prop where
  lists : ∀ pg, s.map.pageMem = some pg → ∃ full empty, s.map.Lists full empty ∧
    (full ++ empty).Nodup ∧ ∀ i, i ∈ full ++ empty ↔ i ∈ pg ∧ i ∈ s.ready
  asked : ∀ i ∈ s.asked, i ∈ s.ready

/-- The invariant of a run. -/
structure PgInv (s : PgState) : Prop extends PgPartition s where
  nodup : ∀ pg, s.map.pageMem = some pg → pg.Nodup
  used : ∀ i ∈ s.ready, (s.map.node i).pool.maxOrder ≠ 0

section Run

variable {thresh fuel : Nat} {s s' : PgState} {pg full empty : List Nat} {i size : Nat}

@[simp] theorem setMm_pageMem (s : PageMap) (mm : Mm) : (s.setMm i mm).pageMem = s.pageMem := rfl

@[simp] theorem setMm_links (s : PageMap) (mm : Mm) : (s.setMm i mm).links = s.links := rfl

/-- A node keeps its section, and its pool the constants, when the pool serves a call. -/
theorem setMm_same {s : PageMap} {mm : Mm} (h : MmSame (s.mm i).pool mm.pool) (j : Nat) :
    (s.node j).Same ((s.setMm i mm).node j) := by
  by_cases hj : j = i
  · rw [hj, setMm_node]
    exact ⟨rfl, rfl, h⟩
  · rw [setMm_node_of_ne s mm hj]
    exact ⟨rfl, rfl, .refl _⟩

/-- The nodes that have been asked for a chunk are set up. -/
theorem PgState.ReadyFor.asked {pg dry rest : List Nat} (h : s.ReadyFor size pg)
    (heq : pg = dry ++ rest) (hdry : ∀ i ∈ dry, s.map.Refuses i size) :
    (∀ i ∈ dry, i ∈ s.ready) ∧ ∀ i ∈ rest.take 1, i ∈ s.ready := by
  induction dry generalizing pg with
  | nil =>
    refine ⟨fun i hi => absurd hi List.not_mem_nil, ?_⟩
    rw [List.nil_append] at heq
    rw [← heq]
    cases pg with
    | nil => exact fun i hi => absurd hi List.not_mem_nil
    | cons j pg =>
      intro i hi
      rw [List.take_succ_cons, List.take_zero, List.mem_singleton] at hi
      exact hi ▸ h.1
  | cons j dry ih =>
    subst heq
    obtain ⟨hall, hrest⟩ := ih (h.2 (hdry j List.mem_cons_self)) rfl
      (fun i hi => hdry i (List.mem_cons_of_mem j hi))
    refine ⟨fun i hi => ?_, hrest⟩
    rcases List.mem_cons.mp hi with rfl | hi
    · exact h.1
    · exact hall i hi

/-- What a search has asked, and what it leaves of the nodes. -/
theorem PgFound.spec {s : PageMap} {f : Nat → Nat} {dry rest : List Nat} {st : PageScan}
    (h : PgFound s f dry rest st) :
    (∀ i ∈ st.asked, i ∈ dry ∨ i ∈ rest.take 1) ∧
      ∀ j, (s.node j).Same (st.map.node j) := by
  cases h with
  | none page node asked =>
    exact ⟨fun i hi => Or.inl (asked ▸ hi), fun j => by rw [node]; exact .refl _⟩
  | some page serves node asked =>
    refine ⟨fun i hi => ?_, fun j => ?_⟩
    · rw [asked] at hi
      exact List.mem_append.mp hi
    · rw [node]
      exact setMm_same mmAlloc_same j

/-- A release keeps the nodes on the lists, and what they are. -/
theorem PgFreed.spec {s : PageMap} {page : Nat} {node : Nat → PageMapNode} {full' empty' : List Nat}
    (h : PgFreed s full empty thresh page node full' empty') :
    (full' ++ empty').Perm (full ++ empty) ∧
      ∀ j, (s.node j).Same (node j) := by
  cases h with
  | nowhere none => exact ⟨.refl _, fun j => .refl _⟩
  | @moved i mem has avail =>
    refine ⟨?_, setMm_same mmFree_same⟩
    have hperm : (i :: empty.erase i).Perm empty := (List.perm_cons_erase mem).symm
    rw [List.append_assoc]
    exact hperm.append_left full
  | kept mem has few => exact ⟨.refl _, setMm_same mmFree_same⟩
  | listed mem has none => exact ⟨.refl _, setMm_same mmFree_same⟩

/-- Nothing is on the lists but what was, and the nodes are the same. -/
theorem PgInv.relist (I : PgInv s) {map : PageMap} {asked : List Nat}
    (hmem : map.pageMem = s.map.pageMem)
    (hlists : ∀ pg, s.map.pageMem = some pg → ∀ full empty, s.map.Lists full empty →
      ∃ full' empty', map.Lists full' empty' ∧ (full' ++ empty').Perm (full ++ empty))
    (hsame : ∀ j, (s.map.node j).Same (map.node j))
    (hasked : ∀ i ∈ asked, i ∈ s.ready) : PgInv ⟨map, s.ready, asked⟩ := by
  refine ⟨⟨fun pg hpg => ?_, hasked⟩, fun pg hpg => ?_, fun i hi => ?_⟩
  · have hpg' : s.map.pageMem = some pg := hmem.symm.trans hpg
    obtain ⟨full, empty, L, hnd, hiff⟩ := I.lists pg hpg'
    obtain ⟨full', empty', L', hperm⟩ := hlists pg hpg' full empty L
    exact ⟨full', empty', L', hperm.nodup_iff.mpr hnd, fun i => hperm.mem_iff.trans (hiff i)⟩
  · exact I.nodup pg (hmem.symm.trans hpg)
  · rw [(hsame i).pool.maxOrder]
    exact I.used i hi

theorem PgInv.alloc (I : PgInv s) (h : pgCall thresh fuel s .alloc = some s') : PgInv s' := by
  obtain ⟨st, hst, rfl⟩ := Option.map_eq_some_iff.mp h
  cases hmem : s.map.pageMem with
  | none =>
    rw [pageAlloc, hmem] at hst
    cases hst
    exact I.relist rfl (fun pg _ full empty L => ⟨full, empty, L, .refl _⟩) (fun j => .refl _)
      (fun i hi => absurd hi List.not_mem_nil)
  | some pg =>
    obtain ⟨full, empty, L, -, hiff⟩ := I.lists pg hmem
    obtain ⟨dry, rest, hS, hfound⟩ := pageAlloc_result hmem L hst
    obtain ⟨hasked, hsame⟩ := hfound.spec
    refine I.relist hS.pageMem (fun pg' hpg' full' empty' L' => ?_) hsame (fun i hi => ?_)
    · obtain ⟨rfl, rfl⟩ := L.unique PgNode.node_inj L'
      refine ⟨rest, empty ++ dry, hS.lists, ?_⟩
      rw [hS.split, ← List.append_assoc]
      exact List.perm_append_comm.trans (by rw [← List.append_assoc])
    · refine ((hiff i).mp (List.mem_append_left empty ?_)).2
      rw [hS.split, List.mem_append]
      exact (hasked i hi).imp_right List.mem_of_mem_take

theorem PgInv.reserve (I : PgInv s) (hok : PgOk s (.reserve size))
    (h : pgCall thresh fuel s (.reserve size) = some s') : PgInv s' := by
  obtain ⟨st, hst, rfl⟩ := Option.map_eq_some_iff.mp h
  have hsame : ∀ pg, s.map.pageMem = some pg → ∀ full empty, s.map.Lists full empty →
      ∃ full' empty', s.map.Lists full' empty' ∧ (full' ++ empty').Perm (full ++ empty) :=
    fun _ _ full empty L => ⟨full, empty, L, .refl _⟩
  unfold pageMapReserveChunk at hst
  cases hmem : s.map.pageMem with
  | none =>
    rw [hmem] at hst
    cases hst
    exact I.relist rfl hsame (fun j => .refl _) (fun i hi => absurd hi List.not_mem_nil)
  | some pg =>
    obtain ⟨hne, hready⟩ := hok pg hmem
    simp only [hmem, if_neg hne] at hst
    let start : PageScan := ⟨s.map, none, []⟩
    have hstart : start.map.node = s.map.node ∧ start.page = none := ⟨rfl, rfl⟩
    obtain ⟨dry, rest, heq, hdry, hlinks, hpageMem, hfound⟩ :=
      pageMapReserveFrom_spec pg size hstart.1 hstart.2
    rw [Option.some.inj hst] at hlinks hpageMem hfound
    obtain ⟨hasked, hsame⟩ := hfound.spec
    obtain ⟨hd, hr⟩ := hready.asked heq hdry
    refine I.relist hpageMem ?_ hsame (fun i hi => ?_)
    · intro pg' hpg' full empty L
      exact ⟨full, empty, by rw [PageMap.Lists, hlinks]; exact L, .refl _⟩
    · exact (hasked i hi).elim (hd i) (hr i)

theorem PgInv.free {page : Nat} (I : PgInv s) (h : pgCall thresh fuel s (.free page) = some s') :
    PgInv s' := by
  obtain ⟨map, hmap, rfl⟩ := Option.map_eq_some_iff.mp h
  have hkeep : s.map = map → PgInv ⟨map, s.ready, []⟩ := by
    rintro rfl
    exact I.relist rfl (fun pg _ full empty L => ⟨full, empty, L, .refl _⟩) (fun j => .refl _)
      (fun i hi => absurd hi List.not_mem_nil)
  cases hmem : s.map.pageMem with
  | none =>
    rw [pageFree, hmem] at hmap
    exact hkeep (Option.some.inj hmap)
  | some pg =>
    by_cases hpage : page = 0
    · simp only [pageFree, hmem, if_pos hpage] at hmap
      exact hkeep (Option.some.inj hmap)
    · obtain ⟨full, empty, L, -, -⟩ := I.lists pg hmem
      obtain ⟨hmem', full', empty', L', hF⟩ := pageFree_result hmem hpage L hmap
      obtain ⟨hperm, hsame⟩ := hF.spec
      refine I.relist (hmem'.trans hmem.symm) (fun pg' _ full₁ empty₁ L₁ => ?_) hsame
        (fun i hi => absurd hi List.not_mem_nil)
      obtain ⟨rfl, rfl⟩ := L.unique PgNode.node_inj L₁
      exact ⟨full', empty', L', hperm⟩

/-- An array whose nodes are set up is set. -/
theorem PgInv.setMap {map : PageMap} {ready : List Nat} (hnd : pg.Nodup) (hpg : ∀ i ∈ pg, i ∈ ready)
    (hused : ∀ i ∈ ready, (map.node i).pool.maxOrder ≠ 0) :
    PgInv ⟨pageMapSetMap map pg, ready, []⟩ := by
  refine ⟨⟨fun pg' hpg' => ?_, fun i hi => absurd hi List.not_mem_nil⟩, fun pg' hpg' => ?_, hused⟩
  · obtain rfl := Option.some.inj hpg'
    refine ⟨pg, [], pageMapSetMap_lists map hnd, by rwa [List.append_nil], fun i => ?_⟩
    rw [List.append_nil]
    exact ⟨fun hi => ⟨hi, hpg i hi⟩, And.left⟩
  · exact Option.some.inj hpg' ▸ hnd

/-- Spoiling the pool of a node that is not set up changes nothing. -/
theorem PgInv.spoil (I : PgInv s) (hi : i ∉ s.ready) (mm : Mm) :
    PgInv ⟨s.map.setMm i mm, s.ready, []⟩ := by
  refine ⟨⟨I.lists, fun j hj => absurd hj List.not_mem_nil⟩, I.nodup, fun j hj => ?_⟩
  show ((s.map.setMm i mm).node j).pool.maxOrder ≠ 0
  have hji : j ≠ i := fun e => hi (e ▸ hj)
  rw [setMm_node_of_ne s.map mm hji]
  exact I.used j hj

theorem PgInv.init {start stop pageSize : Nat} (I : PgInv s)
    (hok : PgOk s (.init pg start stop pageSize))
    (h : pgCall thresh fuel s (.init pg start stop pageSize) = some s') : PgInv s' := by
  obtain ⟨hnd, ⟨hsz, hne⟩, hnew, hready⟩ := hok
  obtain rfl := Option.some.inj h
  have hkeep : PgInv ⟨s.map, s.ready, []⟩ :=
    I.relist rfl (fun pg _ full empty L => ⟨full, empty, L, .refl _⟩) (fun j => .refl _)
      (fun i hi => absurd hi List.not_mem_nil)
  cases pg with
  | nil =>
    simp only [pageMapInit]
    exact hkeep
  | cons i pg =>
    have hi : i ∉ s.ready := hnew i List.mem_cons_self
    simp only [pageMapInit]
    by_cases h1 : stop < start
    · rw [if_pos h1]
      exact hkeep
    rw [if_neg h1]
    have h2s : 2 ≤ stop - start ∧ stop - start < 2 ^ 32 := by
      unfold SectionSize at hsz
      omega
    have hmax := mmInit_maxOrder_ne_zero ⟨(s.map.node i).pool, s.map.stat⟩ start pageSize h2s.1 h2s.2
    generalize mmInit ⟨(s.map.node i).pool, s.map.stat⟩ start (stop - start) pageSize = r at hmax ⊢
    by_cases h2 : r.2 ≠ 0
    · rw [if_pos h2]
      exact I.spoil hi r.1
    · rw [if_neg h2]
      refine PgInv.setMap hnd (fun j hj => ?_) (fun j hj => ?_)
      · rcases List.mem_cons.mp hj with rfl | hj
        · exact List.mem_append_left _ List.mem_cons_self
        · exact List.mem_append_right _ (hready j hj)
      · rcases List.mem_append.mp hj with hj | hj
        · rw [List.take_succ_cons, List.take_zero, List.mem_singleton] at hj
          rw [hj, setSection_node_self, setMm_node_self]
          exact hmax
        · have hji : j ≠ i := fun e => hi (e ▸ hj)
          rw [setSection_node_of_ne _ hji, setMm_node_of_ne _ _ hji]
          exact I.used j hj

theorem PgInv.store (I : PgInv s) (hok : PgOk s (.store i))
    (h : pgCall thresh fuel s (.store i) = some s') : PgInv s' := by
  obtain ⟨pg, hmem, hnew, hunused⟩ := hok
  obtain ⟨pg₁, hmem₁, rfl⟩ := Option.map_eq_some_iff.mp h
  obtain rfl := Option.some.inj (hmem.symm.trans hmem₁)
  have hi : i ∉ s.ready := fun hr => I.used i hr hunused
  refine ⟨⟨fun pg' hpg' => ?_, fun j hj => absurd hj List.not_mem_nil⟩, fun pg' hpg' => ?_, I.used⟩
  · obtain rfl := Option.some.inj hpg'
    obtain ⟨full, empty, L, hnd, hiff⟩ := I.lists pg hmem
    refine ⟨full, empty, L, hnd, fun j => (hiff j).trans (and_congr_left fun hj => ?_)⟩
    rw [List.mem_append, List.mem_singleton]
    exact ⟨Or.inl, fun hor => hor.resolve_right (fun e => hi (e ▸ hj))⟩
  · obtain rfl := Option.some.inj hpg'
    exact List.Nodup.append (I.nodup pg hmem) (List.nodup_singleton i)
      (List.disjoint_singleton.mpr hnew)

theorem PgInv.add {start stop pageSize : Nat} (I : PgInv s)
    (hok : PgOk s (.add start stop pageSize))
    (h : pgCall thresh fuel s (.add start stop pageSize) = some s') : PgInv s' := by
  obtain ⟨⟨map, ret⟩, hadd, rfl⟩ := Option.map_eq_some_iff.mp h
  have hkeep : PgInv ⟨s.map, s.ready, []⟩ :=
    I.relist rfl (fun pg _ full empty L => ⟨full, empty, L, .refl _⟩) (fun j => .refl _)
      (fun i hi => absurd hi List.not_mem_nil)
  cases hmem : s.map.pageMem with
  | none =>
    rw [pageMapAdd, hmem] at hadd
    cases hadd
    exact hkeep
  | some pg =>
    rcases pageMapAdd_cases hmem hadd with ⟨rfl, hret⟩ | ⟨i, hfound, ⟨hpos, hle⟩, hcase⟩
    · dsimp only
      rw [if_neg hret]
      exact hkeep
    obtain ⟨hipg, hunused⟩ := pageMapSearch_found hfound
    have hi : i ∉ s.ready := fun hr => I.used i hr hunused
    have h2s := hok.1.two_le hpos hle
    have hmax := mmInit_maxOrder_ne_zero ⟨(s.map.node i).pool, s.map.stat⟩ start pageSize h2s.1 h2s.2
    generalize mmInit ⟨(s.map.node i).pool, s.map.stat⟩ start (stop - start) pageSize = r
      at hmax hcase
    rcases hcase with ⟨hret, rfl⟩ | ⟨rfl, hpm, hlinks, -, hnode⟩
    · dsimp only
      rw [if_neg hret]
      exact I.spoil hi r.1
    · have hun : s.map.unused start stop = [i] := by
        simp only [PageMap.unused, hmem, Option.getD_some, hfound]
      dsimp only
      rw [if_pos rfl, hun]
      refine ⟨⟨fun pg' hpg' => ?_, fun j hj => absurd hj List.not_mem_nil⟩, fun pg' hpg' => ?_,
        fun j hj => ?_⟩
      · -- the node is linked for the first time
        obtain rfl := Option.some.inj (hpm.symm.trans hpg')
        obtain ⟨full, empty, L, hnd, hiff⟩ := I.lists pg hmem
        have hnot : i ∉ full ++ empty := fun hin => hi ((hiff i).mp hin).2
        rw [List.mem_append, not_or] at hnot
        have L' := L.addTail (n := i)
          (by rw [List.mem_cons, List.mem_map_of_injective PgNode.node_inj]; simp [hnot.1])
          (by rw [List.mem_cons, List.mem_map_of_injective PgNode.node_inj]; simp [hnot.2])
        rw [← hlinks] at L'
        refine ⟨full ++ [i], empty, L', L'.nodup, fun j => ?_⟩
        rw [List.append_assoc, List.mem_append, List.singleton_append, List.mem_cons, or_left_comm,
          ← List.mem_append, hiff, List.singleton_append, List.mem_cons]
        constructor
        · rintro (rfl | ⟨h1, h2⟩)
          · exact ⟨hipg, Or.inl rfl⟩
          · exact ⟨h1, Or.inr h2⟩
        · rintro ⟨h1, rfl | h2⟩
          · exact Or.inl rfl
          · exact Or.inr ⟨h1, h2⟩
      · obtain rfl := Option.some.inj (hpm.symm.trans hpg')
        exact I.nodup pg hmem
      · show (map.node j).pool.maxOrder ≠ 0
        rw [hnode]
        rcases List.mem_cons.mp hj with rfl | hj
        · rw [setSection_node_self, setMm_node_self]
          exact hmax
        · have hji : j ≠ i := fun e => hi (e ▸ hj)
          rw [setSection_node_of_ne _ hji, setMm_node_of_ne _ _ hji]
          exact I.used j hj

/-- **The step.** -/
theorem PgInv.call {o : PgOp} (I : PgInv s) (hok : PgOk s o) (h : pgCall thresh fuel s o = some s') :
    PgInv s' := by
  cases o with
  | init pg start stop pageSize => exact I.init hok h
  | store i => exact I.store hok h
  | setMap pg =>
    obtain rfl := Option.some.inj h
    exact .setMap hok.1 hok.2 I.used
  | add start stop pageSize => exact I.add hok h
  | alloc => exact I.alloc h
  | reserve size => exact I.reserve hok h
  | free page => exact I.free h

/-- **The run.** -/
theorem PgInv.of_reachable (h : (pgSystem thresh).Reachable PgOk s) : PgInv s := by
  refine h.invariant (fun s hs => ?_) (fun s o s' I hok hstep => ?_)
  · obtain ⟨hnone, hready, hasked⟩ := hs
    refine ⟨⟨fun pg hpg => ?_, fun i hi => ?_⟩, fun pg hpg => ?_, fun i hi => ?_⟩
    · rw [hnone] at hpg
      cases hpg
    · rw [hasked] at hi
      exact absurd hi List.not_mem_nil
    · rw [hnone] at hpg
      cases hpg
    · rw [hready] at hi
      exact absurd hi List.not_mem_nil
  · obtain ⟨fuel, hcall⟩ := hstep
    exact I.call hok hcall

/-- Every allowed call comes back. -/
theorem PgInv.returns (I : PgInv s) {o : PgOp} (hok : PgOk s o) (thresh : Nat) :
    ∃ fuel s', pgCall thresh fuel s o = some s' := by
  cases o with
  | init pg start stop pageSize => exact ⟨0, _, rfl⟩
  | store i =>
    obtain ⟨pg, hmem, -⟩ := hok
    exact ⟨0, _, Option.map_eq_some_iff.mpr ⟨pg, hmem, rfl⟩⟩
  | setMap pg => exact ⟨0, _, rfl⟩
  | add start stop pageSize =>
    obtain ⟨r, hr⟩ := pageMapAdd_returns start stop pageSize hok.2
    exact ⟨0, _, Option.map_eq_some_iff.mpr ⟨r, hr, rfl⟩⟩
  | alloc =>
    obtain ⟨fuel, st, hst⟩ : ∃ fuel st, pageAlloc fuel s.map = some st := by
      cases hmem : s.map.pageMem with
      | none => exact ⟨0, _, by rw [pageAlloc, hmem]⟩
      | some pg =>
        obtain ⟨full, empty, L, -⟩ := I.lists pg hmem
        obtain ⟨dry, rest, st, hst, -⟩ := pageAlloc_spec hmem L (Nat.lt_succ_self _)
        exact ⟨_, st, hst⟩
    exact ⟨fuel, _, Option.map_eq_some_iff.mpr ⟨st, hst, rfl⟩⟩
  | reserve size =>
    obtain ⟨st, hst⟩ : ∃ st, pageMapReserveChunk s.map size = some st := by
      cases hmem : s.map.pageMem with
      | none => exact ⟨_, by rw [pageMapReserveChunk, hmem]⟩
      | some pg => exact ⟨_, by simp only [pageMapReserveChunk, hmem, if_neg (hok pg hmem).1]; rfl⟩
    exact ⟨0, _, Option.map_eq_some_iff.mpr ⟨st, hst, rfl⟩⟩
  | free page =>
    obtain ⟨fuel, map, hmap⟩ : ∃ fuel map, pageFree thresh fuel s.map page = some map := by
      cases hmem : s.map.pageMem with
      | none => exact ⟨0, _, by rw [pageFree, hmem]⟩
      | some pg =>
        by_cases hpage : page = 0
        · exact ⟨0, s.map, by simp only [pageFree, hmem, if_pos hpage]⟩
        · obtain ⟨full, empty, L, -⟩ := I.lists pg hmem
          obtain ⟨s', full', empty', hs', -⟩ := pageFree_spec thresh hmem hpage L
            (Nat.lt_succ_self _)
          exact ⟨_, s', hs'⟩
    exact ⟨fuel, _, Option.map_eq_some_iff.mpr ⟨map, hmap, rfl⟩⟩

end Run

/-! ## 3. The lists of every run -/

/-- **The configured nodes are on the two lists**, each of them once, in every state of a run in
which an array is set only when its nodes are set up, and every call comes back. -/
theorem page_map_partition {thresh : Nat} {s : PgState} (h : (pgSystem thresh).Reachable PgOk s) :
    PgPartition s ∧ ∀ o, PgOk s o → ∃ fuel s', pgCall thresh fuel s o = some s' :=
  have I := PgInv.of_reachable h
  ⟨I.toPgPartition, fun _ hok => I.returns hok thresh⟩

/-- No page map, and a store that is zero. -/
def pgBlank : PgState := ⟨pageMapBlank, [], []⟩

theorem pgBlank_reachable {thresh : Nat} {ok : PgState → PgOp → Prop} :
    (pgSystem thresh).Reachable ok pgBlank := .init ⟨rfl, rfl, rfl⟩

theorem pgSystem_run {thresh : Nat} {ok : PgState → PgOp → Prop} (os : List PgOp) {s s' : PgState} :
    (pgSystem thresh).Reachable ok s → System.AllowedAll (pgCall thresh 0) ok s os →
      System.stepAll (pgCall thresh 0) s os = some s' → (pgSystem thresh).Reachable ok s' :=
  System.Reachable.stepAll_of (S := pgSystem thresh) (f := pgCall thresh 0)
    (fun _ _ _ h => ⟨0, h⟩) os

/-- A page map of one node, and another node that is stored behind it when there is a section for
it. -/
theorem page_map_partition_stored : ∃ s, (pgSystem 1).Reachable PgOk s ∧ s.ready = [1, 0] ∧
    PgPartition s ∧ ∀ o, PgOk s o → ∃ fuel s', pgCall 1 fuel s o = some s' := by
  let os : List PgOp := [.init [0] 0x4000 0x8000 0x1000, .store 1, .add 0x8000 0xC000 0x1000]
  have hready : (System.stepAll (pgCall 1 0) pgBlank os).map PgState.ready = some [1, 0] := by
    decide
  obtain ⟨s, hs, hr⟩ := Option.map_eq_some_iff.mp hready
  have hreach : (pgSystem 1).Reachable PgOk s := by
    refine pgSystem_run os pgBlank_reachable ⟨?_, fun s₁ h₁ => ⟨?_, fun s₂ h₂ => ⟨?_, ?_⟩⟩⟩ hs
    · exact ⟨by decide, ⟨⟨by decide, by decide⟩, by decide⟩, by decide, by decide⟩
    · obtain rfl := Option.some.inj h₁
      exact ⟨[0], by decide, by decide, by decide⟩
    · obtain rfl := Option.some.inj h₁
      rw [Option.mem_def, pgCall] at h₂
      obtain ⟨pg, -, rfl⟩ := Option.map_eq_some_iff.mp h₂
      refine ⟨⟨by decide, by decide⟩, fun h => ?_⟩
      exact absurd (Option.some.inj h) (by simp)
    · exact fun _ _ => trivial
  exact ⟨s, hreach, hr, page_map_partition hreach⟩

/-- The calls of the page map themselves, with arguments for which they are defined. -/
def PgDefined (s : PgState) : PgOp → Prop
  | .init .. => False
  | .store _ => False
  | .setMap pg => pg.Nodup ∧ pg ≠ []
  | .add start stop _ => SectionSize start stop ∧ s.map.pageMem ≠ some []
  | .alloc => True
  | .reserve _ => s.map.pageMem ≠ some []
  | .free _ => True

/-- **A node is linked twice**: by `page_map_set_map`, and when it is configured. -/
theorem page_map_links_twice :
    ¬ ∀ s, (pgSystem 1).Reachable PgDefined s → PgPartition s := by
  intro hall
  let os : List PgOp := [.setMap [0], .add 0x4000 0x8000 0x1000]
  have hlinks : (System.stepAll (pgCall 1 0) pgBlank os).map (fun s =>
      (s.map.pageMem, (s.map.links .full).next, (s.map.links (.node 0)).next)) =
        some (some [0], some (.node 0), some (.node 0)) := by
    decide
  obtain ⟨s, hs, heq⟩ := Option.map_eq_some_iff.mp hlinks
  obtain ⟨hmem, hfull, hnode⟩ : s.map.pageMem = some [0] ∧ (s.map.links .full).next = some (.node 0) ∧
      (s.map.links (.node 0)).next = some (.node 0) := by
    simpa only [Prod.mk.injEq] using heq
  have hreach : (pgSystem 1).Reachable PgDefined s := by
    refine pgSystem_run os pgBlank_reachable ⟨⟨by decide, by decide⟩, fun s₁ h₁ => ⟨?_, ?_⟩⟩ hs
    · obtain rfl := Option.some.inj h₁
      exact ⟨⟨by decide, by decide⟩, fun h => absurd (Option.some.inj h) (by simp)⟩
    · exact fun _ _ => trivial
  obtain ⟨full, empty, L, -, -⟩ := (hall s hreach).lists [0] hmem
  -- the list leads from its head to the node, and from there to the node again
  have hring := L.fst
  have hnext := hring.next_head
  rw [hfull] at hnext
  cases hl : full.map PgNode.node with
  | nil =>
    rw [hl] at hnext
    exact absurd (Option.some.inj hnext) (by simp)
  | cons x rest =>
    rw [hl] at hnext hring
    obtain rfl : PgNode.node 0 = x := Option.some.inj hnext
    rw [← List.nil_append (.node 0 :: rest)] at hring
    have hmid := hring.next_mid.2
    rw [List.nil_append] at hring
    rw [hnode] at hmid
    have hnd := (List.nodup_cons.mp (List.nodup_cons.mp hring.nodup).2).1
    cases rest with
    | nil => exact absurd (Option.some.inj hmid) (by simp)
    | cons y rest =>
      have hy : PgNode.node 0 = y := Option.some.inj hmid
      exact hnd (hy ▸ List.mem_cons_self)

end FlightOs
