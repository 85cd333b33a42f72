/-
# Sections that overlap

`page_map_add` compares a new section with those that are configured: whether it starts in one of
them, and whether it ends in one.  A section that lies inside of the new one is overlooked, unless
the two begin or end together, and then two pools manage the same pages.

* `pageMapHits_iff`: what the comparison sees.
* `PgOrdered.add`: the nodes in use come first, whatever is added.
* `pageMapAdd_iff`: in every state of a run, when a valid section is added exactly if it has no
  address in common with the others.
-/
import FlightOs.Lib.System
import FlightOs.Page.Map

namespace FlightOs

/-! ## 1. Sections -/

/-- The sections that the nodes have. -/
def PageMap.sections (s : PageMap) : List (Nat × Nat) :=
  ((s.pageMem.getD []).map fun i => ((s.node i).memStart, (s.node i).memEnd)).filter
    fun r => r.1 < r.2

/-- Two sections have an address in common. -/
def Shares (start stop : Nat) (r : Nat × Nat) : Prop :=
  ∃ x, (start ≤ x ∧ x < stop) ∧ r.1 ≤ x ∧ x < r.2

/-- A section lies inside of the new one, with something left on both sides. -/
def Encloses (start stop : Nat) (r : Nat × Nat) : Prop := start < r.1 ∧ r.2 < stop

/-- The two comparisons with the section of a node. -/
def PageMapHits (w : PageMapNode) (start stop : Nat) : Prop :=
  (w.memStart ≤ start ∧ start < w.memEnd) ∨ (stop ≤ w.memEnd ∧ w.memStart < stop)

section Sections

variable {s : PageMap} {node : Nat → PageMapNode} {w : PageMapNode} {start stop i : Nat}
  {cfg free : List Nat}

/-- **The comparison** overlooks the sections that are enclosed, and no others. -/
theorem pageMapHits_iff (h : start < stop) :
    PageMapHits w start stop ↔
      Shares start stop (w.memStart, w.memEnd) ∧ ¬ Encloses start stop (w.memStart, w.memEnd) := by
  unfold PageMapHits Encloses
  constructor
  · rintro (⟨h1, h2⟩ | ⟨h1, h2⟩)
    · exact ⟨⟨start, ⟨le_refl _, h⟩, h1, h2⟩, fun he => by simp only at he; omega⟩
    · refine ⟨⟨stop - 1, ⟨by omega, by omega⟩, ?_, ?_⟩, fun he => by simp only at he; omega⟩
      · simp only
        omega
      · simp only
        omega
  · rintro ⟨⟨x, ⟨h1, h2⟩, h3, h4⟩, hne⟩
    simp only at h3 h4 hne
    omega

variable (start stop free) in
/-- **The search**: an overlap with a node that is in use, or the first node that is not. -/
theorem pageMapSearch_eq (hcfg : ∀ j ∈ cfg, (node j).pool.maxOrder ≠ 0)
    (hi : (node i).pool.maxOrder = 0) :
    (pageMapSearch node start stop (cfg ++ i :: free) = .overlap ∧
      ∃ j ∈ cfg, PageMapHits (node j) start stop) ∨
    (pageMapSearch node start stop (cfg ++ i :: free) = .found i ∧
      ∀ j ∈ cfg, ¬ PageMapHits (node j) start stop) := by
  induction cfg with
  | nil =>
    refine Or.inr ⟨?_, fun j hj => absurd hj List.not_mem_nil⟩
    rw [List.nil_append, pageMapSearch, if_pos hi]
  | cons j cfg ih =>
    have hj : (node j).pool.maxOrder ≠ 0 := hcfg j List.mem_cons_self
    rw [List.cons_append, pageMapSearch, if_neg hj]
    by_cases h1 : (node j).memStart ≤ start ∧ start < (node j).memEnd
    · rw [if_pos h1]
      exact Or.inl ⟨rfl, j, List.mem_cons_self, Or.inl h1⟩
    rw [if_neg h1]
    by_cases h2 : stop ≤ (node j).memEnd ∧ (node j).memStart < stop
    · rw [if_pos h2]
      exact Or.inl ⟨rfl, j, List.mem_cons_self, Or.inr h2⟩
    rw [if_neg h2]
    rcases ih (fun l hl => hcfg l (List.mem_cons_of_mem j hl)) with ⟨heq, l, hl, hhit⟩ | ⟨heq, hno⟩
    · exact Or.inl ⟨heq, l, List.mem_cons_of_mem j hl, hhit⟩
    · refine Or.inr ⟨heq, fun l hl => ?_⟩
      rcases List.mem_cons.mp hl with rfl | hl
      · exact fun h => h.elim h1 h2
      · exact hno l hl

/-- An array without a node to take. -/
theorem pageMapSearch_full (hcfg : ∀ j ∈ cfg, (node j).pool.maxOrder ≠ 0) (i : Nat) :
    pageMapSearch node start stop cfg ≠ .found i := by
  induction cfg with
  | nil => exact fun h => by cases h
  | cons j cfg ih =>
    rw [pageMapSearch, if_neg (hcfg j List.mem_cons_self)]
    split_ifs
    · exact fun h => by cases h
    · exact fun h => by cases h
    · exact ih (fun l hl => hcfg l (List.mem_cons_of_mem j hl))

end Sections

/-! ## 2. The nodes in use -/

/-- A node as it is in a store that is zero. -/
structure PageMapNode.Blank (w : PageMapNode) : Prop where
  maxOrder : w.pool.maxOrder = 0
  memStart : w.memStart = 0
  memEnd : w.memEnd = 0

/-- An array of nodes that are all different, with those in use before the blank ones. -/
structure PgOrdered (node : Nat → PageMapNode) (pg : List Nat) : Prop where
  nodup : pg.Nodup
  ne_nil : pg ≠ []
  split : ∃ cfg free, pg = cfg ++ free ∧ (∀ i ∈ cfg, (node i).pool.maxOrder ≠ 0) ∧
    ∀ i ∈ free, (node i).Blank

/-- The array in use is in order. -/
def PageMapInv (s : PageMap) : Prop := ∀ pg, s.pageMem = some pg → PgOrdered s.node pg

section Ordered

variable {node node' : Nat → PageMapNode} {pg : List Nat} {i : Nat}

/-- **One more node in use**, the first of the blank ones. -/
theorem PgOrdered.use {cfg free : List Nat} (hnd : (cfg ++ i :: free).Nodup)
    (hcfg : ∀ j ∈ cfg, (node j).pool.maxOrder ≠ 0) (hfree : ∀ j ∈ i :: free, (node j).Blank)
    (hi : (node' i).pool.maxOrder ≠ 0) (hrest : ∀ j, j ≠ i → node' j = node j) :
    PgOrdered node' (cfg ++ i :: free) := by
  have hmid : i ∉ cfg ++ free := (List.nodup_middle.mp hnd).notMem
  rw [List.mem_append, not_or] at hmid
  refine ⟨hnd, by simp, cfg ++ [i], free, by simp, fun j hj => ?_, fun j hj => ?_⟩
  · rcases List.mem_append.mp hj with hj | hj
    · rw [hrest j (fun e => hmid.1 (e ▸ hj))]
      exact hcfg j hj
    · rw [List.mem_singleton.mp hj]
      exact hi
  · rw [hrest j (fun e => hmid.2 (e ▸ hj))]
    exact hfree j (List.mem_cons_of_mem i hj)

end Ordered

/-! ## 3. Runs -/

inductive PageMapOp
  | init (pg : List Nat) (start stop pageSize : Nat)
  | setMap (pg : List Nat)
  | add (start stop pageSize : Nat)

def pageMapCall (s : PageMap) : PageMapOp → Option PageMap
  | .init pg start stop pageSize => some (pageMapInit s pg start stop pageSize).1
  | .setMap pg => some (pageMapSetMap s pg)
  | .add start stop pageSize => (pageMapAdd s start stop pageSize).map Prod.fst

/-- The page map before any call. -/
def pageMapSystem : System PageMap PageMapOp := .ofFun (fun s => s.pageMem = none) pageMapCall

/-- A section for which `mm_init` is defined: its shifts are by less than the width of a word. -/
def SectionSize (start stop : Nat) : Prop := stop < 2 ^ 32 ∧ stop - start ≠ 1

/-- The store of a new map is zero, and a map that replaces another has its nodes in use first. -/
def PageMapOk (s : PageMap) : PageMapOp → Prop
  | .init pg start stop _ => s.pageMem = none ∧ pg.Nodup ∧ (∀ i ∈ pg, (s.node i).Blank) ∧
    SectionSize start stop ∧ stop ≠ start
  | .setMap pg => PgOrdered s.node pg
  | .add start stop _ => SectionSize start stop

section Run

variable {s s' : PageMap} {pg : List Nat} {start stop pageSize : Nat} {ret : Int}

theorem setMm_node (map : PageMap) (i : Nat) (mm : Mm) :
    (map.setMm i mm).node i = { map.node i with pool := mm.pool } := Function.update_self ..

theorem setMm_node_self (s : PageMap) (i : Nat) (mm : Mm) :
    ((s.setMm i mm).node i).pool = mm.pool := by
  simp [PageMap.setMm]

theorem setMm_node_of_ne (s : PageMap) {i j : Nat} (mm : Mm) (h : j ≠ i) :
    (s.setMm i mm).node j = s.node j := by
  simp [PageMap.setMm, h]

theorem setSection_node_self (s : PageMap) (i : Nat) :
    ((s.setSection i start stop).node i).pool = (s.node i).pool := by
  simp [PageMap.setSection]

theorem setSection_node_of_ne (s : PageMap) {i j : Nat} (h : j ≠ i) :
    (s.setSection i start stop).node j = s.node j := by
  simp [PageMap.setSection, h]

/-- A size that is rejected, or more than a byte. -/
theorem SectionSize.two_le (h : SectionSize start stop) (hpos : 0 < pageSize)
    (hle : pageSize ≤ stop - start) : 2 ≤ stop - start ∧ stop - start < 2 ^ 32 := by
  obtain ⟨h1, h2⟩ := h
  omega

/-- **A call of `page_map_add`** changes nothing, or takes the first blank node into use. -/
theorem PgOrdered.add (hpg : s.pageMem = some pg) (O : PgOrdered s.node pg)
    (hsz : SectionSize start stop) (h : pageMapAdd s start stop pageSize = some (s', ret)) :
    s'.pageMem = some pg ∧ PgOrdered s'.node pg := by
  obtain ⟨cfg, free, rfl, hcfg, hfree⟩ := O.split
  have hkeep : s = s' → s'.pageMem = some (cfg ++ free) ∧ PgOrdered s'.node (cfg ++ free) := by
    rintro rfl
    exact ⟨hpg, O⟩
  unfold pageMapAdd at h
  simp only [hpg, if_neg O.ne_nil] at h
  split_ifs at h with h1 h2 h3
  · exact hkeep (congrArg Prod.fst (Option.some.inj h))
  · exact hkeep (congrArg Prod.fst (Option.some.inj h))
  · exact hkeep (congrArg Prod.fst (Option.some.inj h))
  obtain ⟨h2s, hlt⟩ := hsz.two_le (Nat.pos_of_ne_zero h3) (not_lt.mp h2)
  cases free with
  | nil =>
    rw [List.append_nil] at *
    split at h
    · exact hkeep (congrArg Prod.fst (Option.some.inj h))
    · exact hkeep (congrArg Prod.fst (Option.some.inj h))
    next i hfound => exact absurd hfound (pageMapSearch_full hcfg i)
  | cons i free =>
    rcases pageMapSearch_eq start stop free hcfg
      (hfree i List.mem_cons_self).maxOrder with ⟨heq, -⟩ | ⟨heq, -⟩
    · rw [heq] at h
      exact hkeep (congrArg Prod.fst (Option.some.inj h))
    · simp only [heq] at h
      have hmax := mmInit_maxOrder_ne_zero ⟨(s.node i).pool, s.stat⟩ start pageSize h2s hlt
      generalize mmInit ⟨(s.node i).pool, s.stat⟩ start (stop - start) pageSize = r at h hmax
      have huse : PgOrdered (s.setMm i r.1).node (cfg ++ i :: free) :=
        .use O.nodup hcfg hfree (by rwa [setMm_node_self]) (fun j hj => setMm_node_of_ne s r.1 hj)
      split_ifs at h
      · obtain rfl := congrArg Prod.fst (Option.some.inj h)
        exact ⟨hpg, huse⟩
      · obtain rfl := congrArg Prod.fst (Option.some.inj h)
        refine ⟨hpg, .use O.nodup hcfg hfree ?_ (fun j hj => ?_)⟩
        · show (((s.setMm i r.1).setSection i start stop).node i).pool.maxOrder ≠ 0
          rwa [setSection_node_self, setMm_node_self]
        · show ((s.setMm i r.1).setSection i start stop).node j = s.node j
          rw [setSection_node_of_ne _ hj, setMm_node_of_ne s r.1 hj]

/-- **A call of `page_map_init`** on blank nodes takes the first one into use. -/
theorem PageMapInv.init (hnone : s.pageMem = none) (hnd : pg.Nodup)
    (hblank : ∀ i ∈ pg, (s.node i).Blank) (hsz : SectionSize start stop) (hne : stop ≠ start) :
    PageMapInv (pageMapInit s pg start stop pageSize).1 := by
  have hkeep : ∀ s' : PageMap, s'.pageMem = none → PageMapInv s' := by
    intro s' hs' pg' hpg'
    rw [hs'] at hpg'
    cases hpg'
  cases pg with
  | nil => exact hkeep s hnone
  | cons i pg =>
    simp only [pageMapInit]
    split_ifs with h1 h2
    · exact hkeep s hnone
    · exact hkeep _ hnone
    · intro pg' hpg'
      obtain rfl := Option.some.inj hpg'
      have h2s : 2 ≤ stop - start ∧ stop - start < 2 ^ 32 := by
        unfold SectionSize at hsz
        omega
      have hmax := mmInit_maxOrder_ne_zero ⟨(s.node i).pool, s.stat⟩ start pageSize h2s.1 h2s.2
      have hnone : ∀ j ∈ ([] : List Nat), (s.node j).pool.maxOrder ≠ 0 :=
        fun j hj => absurd hj List.not_mem_nil
      refine PgOrdered.use hnd hnone hblank ?_ (fun j hj => ?_)
      · show (((s.setMm i _).setSection i start stop).node i).pool.maxOrder ≠ 0
        rwa [setSection_node_self, setMm_node_self]
      · show ((s.setMm i _).setSection i start stop).node j = s.node j
        rw [setSection_node_of_ne _ hj, setMm_node_of_ne s _ hj]

/-- **The step.** -/
theorem PageMapInv.call {o : PageMapOp} (I : PageMapInv s) (ho : PageMapOk s o)
    (hstep : pageMapCall s o = some s') : PageMapInv s' := by
  cases o with
  | init pg start stop pageSize =>
    obtain rfl := Option.some.inj hstep
    exact .init ho.1 ho.2.1 ho.2.2.1 ho.2.2.2.1 ho.2.2.2.2
  | setMap pg =>
    obtain rfl := Option.some.inj hstep
    intro pg' hpg'
    obtain rfl := Option.some.inj hpg'
    exact ho
  | add start stop pageSize =>
    obtain ⟨r, hr, rfl⟩ := Option.map_eq_some_iff.mp hstep
    intro pg hpg
    cases hmem : s.pageMem with
    | none =>
      have hkeep : s = r.1 := by
        unfold pageMapAdd at hr
        simp only [hmem] at hr
        exact congrArg Prod.fst (Option.some.inj hr)
      rw [← hkeep, hmem] at hpg
      cases hpg
    | some pg' =>
      obtain ⟨hmem', O⟩ := PgOrdered.add hmem (I pg' hmem) ho hr
      obtain rfl := Option.some.inj (hmem'.symm.trans hpg)
      exact O

/-- **The run.** -/
theorem PageMapInv.of_reachable (h : pageMapSystem.Reachable PageMapOk s) : PageMapInv s := by
  refine h.invariant (fun s hs pg hpg => ?_) (fun s o s' I ho hstep => I.call ho hstep)
  have hnone : s.pageMem = none := hs
  rw [hnone] at hpg
  cases hpg

/-! ## 4. When a section is added -/

/-- A section that `page_map_add` has nothing against but an overlap. -/
structure SectionValid (s : PageMap) (start stop pageSize : Nat) : Prop where
  room : ∃ pg, s.pageMem = some pg ∧ ∃ i ∈ pg, (s.node i).pool.maxOrder = 0
  size : 0 < pageSize ∧ pageSize ≤ stop - start
  pool : ∀ mm, (mmInit mm start (stop - start) pageSize).2 = 0

/-- The section is added exactly if it has no address in common with another, and if it is not,
nothing changes. -/
def PageMapAddKept (s : PageMap) (start stop pageSize : Nat) : Prop :=
  ∃ s' ret, pageMapAdd s start stop pageSize = some (s', ret) ∧
    (ret = 0 ↔ ∀ r ∈ s.sections, ¬ Shares start stop r) ∧ (ret ≠ 0 → s' = s)

theorem mem_sections (hpg : s.pageMem = some pg) {r : Nat × Nat} :
    r ∈ s.sections ↔ (∃ i ∈ pg, ((s.node i).memStart, (s.node i).memEnd) = r) ∧ r.1 < r.2 := by
  rw [PageMap.sections, hpg, Option.getD_some, List.mem_filter, List.mem_map, decide_eq_true_iff]

/-- The nodes in use have all the sections. -/
theorem PgOrdered.hits_iff {cfg free : List Nat} (hpg : s.pageMem = some (cfg ++ free))
    (hfree : ∀ i ∈ free, (s.node i).Blank) (h : start < stop) :
    (∃ j ∈ cfg, PageMapHits (s.node j) start stop) ↔
      ∃ r ∈ s.sections, Shares start stop r ∧ ¬ Encloses start stop r := by
  constructor
  · rintro ⟨j, hj, hhit⟩
    rw [pageMapHits_iff h] at hhit
    obtain ⟨x, -, h1, h2⟩ := hhit.1
    refine ⟨_, (mem_sections hpg).mpr ⟨⟨j, List.mem_append_left free hj, rfl⟩, ?_⟩, hhit⟩
    exact Nat.lt_of_le_of_lt h1 h2
  · rintro ⟨r, hr, hsees⟩
    obtain ⟨⟨j, hj, rfl⟩, hlt⟩ := (mem_sections hpg).mp hr
    rcases List.mem_append.mp hj with hj | hj
    · exact ⟨j, hj, (pageMapHits_iff h).mpr hsees⟩
    · rw [(hfree j hj).memStart, (hfree j hj).memEnd] at hlt
      exact absurd hlt (lt_irrefl _)

/-- **A valid section** is added in every state of a run exactly if it has no address in common with
another, unless it encloses all those that it has one in common with. -/
theorem pageMapAdd_iff (h : pageMapSystem.Reachable PageMapOk s)
    (hv : SectionValid s start stop pageSize) :
    PageMapAddKept s start stop pageSize ↔
      ((∃ r ∈ s.sections, Shares start stop r) →
        ∃ r ∈ s.sections, Shares start stop r ∧ ¬ Encloses start stop r) := by
  obtain ⟨⟨pg, hpg, i₀, hi₀, h0⟩, ⟨hpos, hle⟩, hpool⟩ := hv
  have O := PageMapInv.of_reachable h pg hpg
  obtain ⟨cfg, free, rfl, hcfg, hfree⟩ := O.split
  have hlt : start < stop := by omega
  have hhits := PgOrdered.hits_iff hpg hfree hlt
  obtain ⟨i, free, rfl⟩ : ∃ i l, free = i :: l := by
    cases free with
    | nil => exact absurd h0 (hcfg i₀ (by simpa using hi₀))
    | cons i l => exact ⟨i, l, rfl⟩
  rcases pageMapSearch_eq start stop free hcfg (hfree i List.mem_cons_self).maxOrder with
    ⟨hsearch, hhit⟩ | ⟨hsearch, hno⟩
  · -- the overlap is reported
    obtain ⟨r, hr, hshares, henc⟩ := hhits.mp hhit
    have hcall : pageMapAdd s start stop pageSize = some (s, -(EINVAL : Int)) := by
      simp only [pageMapAdd, hpg, if_neg O.ne_nil, if_neg (not_lt.mpr hlt.le), if_neg (not_lt.mpr hle),
        if_neg hpos.ne', hsearch]
    refine iff_of_true ⟨s, _, hcall, iff_of_false (by decide) ?_, fun _ => rfl⟩
      (fun _ => ⟨r, hr, hshares, henc⟩)
    exact fun hall => hall r hr hshares
  · -- the section is added
    have hnone : ¬ ∃ r ∈ s.sections, Shares start stop r ∧ ¬ Encloses start stop r := by
      rw [← hhits]
      rintro ⟨j, hj, hhit⟩
      exact hno j hj hhit
    obtain ⟨s', hcall⟩ : ∃ s', pageMapAdd s start stop pageSize = some (s', 0) := by
      have hok := hpool ⟨(s.node i).pool, s.stat⟩
      simp only [pageMapAdd, hpg, if_neg O.ne_nil, if_neg (not_lt.mpr hlt.le), if_neg (not_lt.mpr hle),
        if_neg hpos.ne', hsearch, hok]
      exact ⟨_, rfl⟩
    constructor
    · rintro ⟨s₁, ret, heq, hiff, -⟩ ⟨r, hr, hshares⟩
      obtain ⟨rfl, rfl⟩ := Prod.mk.inj (Option.some.inj (hcall.symm.trans heq))
      exact absurd hshares (hiff.mp rfl r hr)
    · intro himp
      refine ⟨s', 0, hcall, iff_of_true rfl (fun r hr hshares => ?_), fun hne => absurd rfl hne⟩
      exact hnone (himp ⟨r, hr, hshares⟩)

end Run

/-- No page map, and a store that is zero. -/
def pageMapBlank : PageMap where
  pageMem := none
  node _ := ⟨⟨0, 0, 0, 0, 0, fun _ => 0, fun _ => false, fun _ => ⟨none, none⟩⟩, 0, 0⟩
  links _ := ⟨none, none⟩
  stat := ⟨0, 0, 0⟩

/-- A page map of two nodes, of which the first has the second 16 KiB. -/
def pageMapTwo : PageMap := (pageMapInit pageMapBlank [0, 1] 0x4000 0x8000 0x1000).1

theorem pageMapTwo_reachable : pageMapSystem.Reachable PageMapOk pageMapTwo := by
  have hinit : pageMapSystem.Reachable PageMapOk pageMapBlank := .init rfl
  have hok : PageMapOk pageMapBlank (.init [0, 1] 0x4000 0x8000 0x1000) :=
    ⟨rfl, by decide, fun _ _ => ⟨rfl, rfl, rfl⟩, ⟨by decide, by decide⟩, by decide⟩
  exact hinit.step hok rfl

/-- There is room for one more section, and `mm_init` takes one of 16 or 24 KiB. -/
theorem pageMapTwo_valid {start stop : Nat} (h : stop - start = 0x4000 ∨ stop - start = 0x6000) :
    SectionValid pageMapTwo start stop 0x1000 := by
  refine ⟨⟨[0, 1], rfl, 1, by simp, by decide⟩, ⟨by decide, by omega⟩, fun mm => ?_⟩
  rcases h with h | h
  · rw [h, mmInit]
    exact congrArg Prod.snd (if_neg (by decide))
  · rw [h, mmInit]
    exact congrArg Prod.snd (if_neg (by decide))

theorem pageMapAdd_iff_next :
    PageMapAddKept pageMapTwo 0x8000 0xC000 0x1000 ↔
      ((∃ r ∈ pageMapTwo.sections, Shares 0x8000 0xC000 r) →
        ∃ r ∈ pageMapTwo.sections, Shares 0x8000 0xC000 r ∧ ¬ Encloses 0x8000 0xC000 r) :=
  pageMapAdd_iff pageMapTwo_reachable (pageMapTwo_valid (by decide))

/-- **A section around another** is added. -/
theorem pageMapAdd_encloses : ¬ ∀ s, pageMapSystem.Reachable PageMapOk s →
    ∀ start stop pageSize, SectionValid s start stop pageSize →
      PageMapAddKept s start stop pageSize := by
  intro hall
  obtain ⟨s', ret, heq, hiff, -⟩ := hall pageMapTwo pageMapTwo_reachable 0x3000 0x9000 0x1000
    (pageMapTwo_valid (by decide))
  have hret : (pageMapAdd pageMapTwo 0x3000 0x9000 0x1000).map Prod.snd = some 0 := by decide
  have hsections : pageMapTwo.sections = [(0x4000, 0x8000)] := by decide
  rw [heq] at hret
  refine hiff.mp (Option.some.inj hret) (0x4000, 0x8000) ?_ ⟨0x4000, by decide, by decide⟩
  rw [hsections]
  exact List.mem_cons_self

end FlightOs
