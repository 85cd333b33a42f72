/-
# The page map of the boot memory

Each node of the page map is the one of a bank (`BankNode`), and the image keeps the block at the
start of its own bank.  `BootPages` says so.  It is kept

* by the calls of the page map that do not release that block (`BootPages.use`), and
* by the setup of one more node, for a bank that has no address in common with those there are
  (`BootPages.add`);

and it makes every page lie in a bank and outside of the image (`BootPages.page`).
-/
import FlightOs.Boot.Setup

namespace FlightOs

/-! ## 1. The node of a bank -/

/-- The node has the bank for its section, and a pool with blocks of a page. -/
structure BankNode (b : PhysBank) (w : PageMapNode) : Prop where
  memStart : w.memStart = b.baseAddr
  memEnd : w.memEnd = b.baseAddr + b.numBytes
  minOrder : w.pool.minOrder = 12
  maxOrder : w.pool.maxOrder ≠ 0

/-- A bank that the code takes for one: a page at least, and it ends before the last address. -/
structure BankFits (b : PhysBank) : Prop where
  page_le : pageSize ≤ b.numBytes
  fits : b.baseAddr + b.numBytes < 2 ^ 32

/-- Two banks without a common address. -/
def BanksApart (a b : PhysBank) : Prop :=
  a.baseAddr + a.numBytes ≤ b.baseAddr ∨ b.baseAddr + b.numBytes ≤ a.baseAddr

section Node

variable {b : PhysBank} {w w' : PageMapNode} {live live' : List (Nat × Nat)} {e : Nat × Nat}

theorem BankNode.same (h : BankNode b w) (hs : w.Same w') : BankNode b w' where
  memStart := hs.memStart.trans h.memStart
  memEnd := hs.memEnd.trans h.memEnd
  minOrder := hs.pool.minOrder.trans h.minOrder
  maxOrder := hs.pool.maxOrder ▸ h.maxOrder

theorem BankNode.pgSize_eq (h : BankNode b w) : pgSize w.pool = pageSize := by
  rw [pgSize, h.minOrder]
  rfl

/-- **`mm_init`** of a section of a page or more, with blocks of a page. -/
theorem mmInit_pages (mm : Mm) (base size : Nat) (hle : pageSize ≤ size) (hlt : size < 2 ^ 32) :
    (mmInit mm base size pageSize).2 = 0 ∧ (mmInit mm base size pageSize).1.pool.minOrder = 12 := by
  have hps : pageSize = 2 ^ 12 := rfl
  have hpos : 0 < size := by omega
  have hmax : ilog2 (rounddownPowOfTwo size) = Nat.log2 size := (ilog2_rounddown hpos hlt).1
  have h12 : 12 ≤ Nat.log2 size := (Nat.le_log2 (by omega)).mpr (hps ▸ hle)
  have hmin : ilog2 (roundupPowOfTwo pageSize) = 12 := by decide
  have hlnk : ¬ wshl 1 12 < sizeofMmBlkLnk := by decide
  have hnot : ¬ (Nat.log2 size < 12 ∧ wshl 1 (wsub (Nat.log2 size) 1) < sizeofMmBlkLnk) :=
    fun h => absurd h.1 (by omega)
  rw [mmInit]
  simp only [hmax, hmin, if_neg hlnk, if_neg hnot, if_neg (show ¬ Nat.log2 size < 12 by omega)]
  exact ⟨trivial, mmFree_same.minOrder⟩

/-- The size of a block that is held. -/
theorem PgPool.blockSize (h : PgPool w live) (he : e ∈ live) :
    mmBlockSize w.pool e.1 = 2 ^ mmReqOrder w.pool e.2 := by
  cases h with
  | @run A F stat start stop run => exact run.sized.live e he
  | null start stop base maxOrder taken exhausted full live =>
    rw [live] at he
    cases he

theorem PgPool.size_le (h : PgPool w live) (he : e ∈ live) (hsize : e.2 ≤ 2 ^ 31) :
    e.2 ≤ mmBlockSize w.pool e.1 := by
  rw [h.blockSize he]
  rcases Nat.eq_zero_or_pos e.2 with h0 | hpos
  · rw [h0]
    exact Nat.zero_le _
  · exact (ilog2_roundup_le_iff hpos hsize).mp (le_max_right _ _)

/-- It stays as long as the block is held. -/
theorem PgPool.blockSize_same (h : PgPool w live) (h' : PgPool w' live')
    (hmin : w'.pool.minOrder = w.pool.minOrder) (he : e ∈ live) (he' : e ∈ live') :
    mmBlockSize w'.pool e.1 = mmBlockSize w.pool e.1 := by
  rw [h.blockSize he, h'.blockSize he', mmReqOrder, mmReqOrder, hmin]

end Node

/-! ## 2. The calls of the page map -/

section Use

variable {cfg : List Nat} {s s' : PgHeld} {st : PageScan} {size : Nat → Nat} {fuel i : Nat} {o : PgUse}
  {e : Nat × Nat}

theorem mem_take_live (h : e ∈ s.live i) : e ∈ (s.take st size).live i := by
  unfold PgHeld.take
  split
  · exact h
  · dsimp only
    by_cases hi : i = st.asked.getLastD 0
    · subst hi
      rw [Function.update_self]
      exact List.mem_cons_of_mem _ h
    · rwa [Function.update_of_ne hi]

/-- A search takes from the nodes that it asks. -/
theorem take_live_of_notMem {dry rest : List Nat} (h : PgFound s.map size dry rest st)
    (hrest : ∀ i ∈ rest.take 1, i ∈ cfg) (hi : i ∉ cfg) : (s.take st size).live i = s.live i := by
  cases h with
  | none hpage hnode hasked => rw [PgHeld.take_none hpage]
  | @some st j a rest hpage hserves hnode hasked =>
    have hj : j ∈ cfg := hrest j List.mem_cons_self
    have hij : i ≠ j := fun heq => hi (heq ▸ hj)
    rw [PgHeld.take_some hpage hasked]
    exact Function.update_of_ne hij _ _

/-- What a call leaves as it is: the array, the sections, the blocks that it does not release, and
that nothing is held of a node that is not configured. -/
structure PgUseFrame (cfg : List Nat) (s : PgHeld) (o : PgUse) (s' : PgHeld) : Prop where
  pageMem : s'.map.pageMem = s.map.pageMem
  same : ∀ i, (s.map.node i).Same (s'.map.node i)
  live : ∀ i, ∀ e ∈ s.live i, o ≠ .free e.1 → e ∈ s'.live i
  unused : ∀ i, i ∉ cfg → s.live i = [] → s'.live i = []

theorem pgUse_frame (K : PgKept cfg s) (hok : PgUseOk cfg s o) (h : pgUse fuel s o = some s') :
    PgUseFrame cfg s o s' := by
  obtain ⟨pg, full, empty, hmem, L, hperm, -⟩ := K.lists
  cases o with
  | alloc =>
    obtain ⟨st, hst, rfl⟩ := Option.map_eq_some_iff.mp h
    obtain ⟨dry, rest, hS, hfound⟩ := pageAlloc_result hmem L hst
    have hrest : ∀ i ∈ rest.take 1, i ∈ cfg := fun i hi => hperm.mem_iff.mp
      (List.mem_append_left _ (hS.split ▸ List.mem_append_right _ (List.mem_of_mem_take hi)))
    refine ⟨?_, fun i => ?_, fun i e he _ => mem_take_live he,
      fun i hi h0 => (take_live_of_notMem hfound hrest hi).trans h0⟩
    · rw [PgHeld.take_map]
      exact hS.pageMem
    · rw [PgHeld.take_map]
      exact hfound.spec.2 i
  | reserve n =>
    obtain ⟨st, hst, rfl⟩ := Option.map_eq_some_iff.mp h
    obtain ⟨hne, hready⟩ := hok pg hmem
    simp only [pageMapReserveChunk, hmem, if_neg hne] at hst
    obtain ⟨dry, rest, heq, hdry, -, hpageMem, hfound⟩ :=
      @pageMapReserveFrom_spec s.map ⟨s.map, none, []⟩ pg n rfl rfl
    rw [Option.some.inj hst] at hpageMem hfound
    refine ⟨?_, fun i => ?_, fun i e he _ => mem_take_live he,
      fun i hi h0 => (take_live_of_notMem hfound (hready.asked heq hdry).2 hi).trans h0⟩
    · rw [PgHeld.take_map]
      exact hpageMem
    · rw [PgHeld.take_map]
      exact hfound.spec.2 i
  | free page =>
    obtain ⟨map, hmap, rfl⟩ := Option.map_eq_some_iff.mp h
    obtain ⟨i, hi, hpage⟩ := hok
    obtain ⟨d, hd, rfl⟩ := List.mem_map.mp hpage
    obtain ⟨-, -, h0, -⟩ := (K.pool i hi).held hd
    obtain ⟨hmem', full', empty', -, hF⟩ := pageFree_result hmem h0 L hmap
    refine ⟨hmem'.trans hmem.symm, hF.spec.2, fun j e he hne => ?_, fun j _ h0 => ?_⟩
    · refine List.mem_filter.mpr ⟨he, decide_eq_true fun heq => hne ?_⟩
      rw [heq]
    · show (s.live j).filter _ = []
      rw [h0]
      rfl

end Use

/-! ## 3. The nodes of the banks -/

/-- The nodes are those of the banks, in their order, and the image has the block of `reserved` bytes at
the start of its bank, which is the first. -/
structure BootPages (banks : List PhysBank) (img : PhysBank) (reserved : Nat) (s : PgHeld) : Prop where
  pageMem : s.map.pageMem = some (List.range banks.length)
  kept : PgKept (List.range banks.length) s
  nodes : ∀ i b, banks[i]? = some b → BankNode b (s.map.node i)
  unused : ∀ i, banks.length ≤ i → s.live i = []
  first : banks[0]? = some img
  image : (img.baseAddr, reserved) ∈ s.live 0

section Pages

variable {banks : List PhysBank} {img b : PhysBank} {reserved fuel : Nat} {s s' : PgHeld} {o : PgUse}
  {st : PageScan} {a : Nat}

theorem BootPages.node_of_mem (h : BootPages banks img reserved s) {i : Nat}
    (hi : i ∈ List.range banks.length) : ∃ b ∈ banks, BankNode b (s.map.node i) := by
  have hlt := List.mem_range.mp hi
  exact ⟨banks[i], List.getElem_mem hlt, h.nodes i _ (List.getElem?_eq_getElem hlt)⟩

theorem BootPages.zero_mem (h : BootPages banks img reserved s) : 0 ∈ List.range banks.length :=
  List.mem_range.mpr (List.getElem?_eq_some_iff.mp h.first).1

/-- **A call of the page map** that does not release the image. -/
theorem BootPages.use (h : BootPages banks img reserved s)
    (hok : PgUseOk (List.range banks.length) s o) (himg : o ≠ .free img.baseAddr)
    (hcall : pgUse fuel s o = some s') : BootPages banks img reserved s' := by
  have F := pgUse_frame h.kept hok hcall
  have hnot : ∀ i, banks.length ≤ i → i ∉ List.range banks.length := fun i hi hmem =>
    Nat.not_lt_of_le hi (List.mem_range.mp hmem)
  exact ⟨F.pageMem.trans h.pageMem, h.kept.step hok hcall, fun i b hb => (h.nodes i b hb).same (F.same i),
    fun i hi => F.unused i (hnot i hi) (h.unused i hi), h.first, F.live 0 _ h.image himg⟩

/-- **A page** is a page of a bank, and none of the image. -/
theorem BootPages.page (h : BootPages banks img reserved s) (hsize : reserved ≤ 2 ^ 31)
    (hst : pageAlloc fuel s.map = some st) (ha : st.page = some a) :
    (∃ b ∈ banks, b.baseAddr ≤ a ∧ a + pageSize ≤ b.baseAddr + b.numBytes) ∧
      (a + pageSize ≤ img.baseAddr ∨ img.baseAddr + reserved ≤ a) := by
  obtain ⟨i, hi, size, -, hpage, h1, h2, hapart⟩ := (h.kept.alloc hst).2.2 a ha
  obtain ⟨b, hb, hnode⟩ := h.node_of_mem hi
  rw [hnode.pgSize_eq] at hpage
  rw [hnode.memStart] at h1
  rw [hnode.memEnd] at h2
  refine ⟨⟨b, hb, h1, by omega⟩, ?_⟩
  have himg := (hapart 0 h.zero_mem _ h.image).2
  have hheld := (h.kept.pool 0 h.zero_mem).size_le h.image hsize
  dsimp only at himg hheld
  omega

/-! ## 4. One more node -/

theorem store_node_self (map : PageMap) (n : Nat) : ((map.store n).node n).pool.maxOrder = 0 := by
  simp [PageMap.store]

theorem store_node_of_ne (map : PageMap) {n i : Nat} (h : i ≠ n) :
    (map.store n).node i = map.node i := Function.update_of_ne h _ _

/-- The node that has been stored at the end of the array is that of the bank, and the others are as
they were. -/
structure StoredNode (map : PageMap) (b : PhysBank) (n : Nat) (map' : PageMap) : Prop where
  pageMem : map'.pageMem = some (List.range (n + 1))
  links : map'.links = listAddTail map.links (.node n) .full
  setUp : (map'.node n).SetUp
  node : BankNode b (map'.node n)
  other : ∀ i, i ≠ n → map'.node i = map.node i

/-- What `page_map_add` does with it. -/
theorem pageMapAdd_stored {map : PageMap} {n : Nat} (hb : BankFits b)
    (hmem : map.pageMem = some (List.range n)) (hused : ∀ i < n, (map.node i).pool.maxOrder ≠ 0)
    (hmiss : ∀ i < n, ¬ PageMapHits (map.node i) b.baseAddr (b.baseAddr + b.numBytes)) :
    ∃ map', pageMapAdd (map.store n) b.baseAddr (wadd b.baseAddr b.numBytes) pageSize = some (map', 0) ∧
      StoredNode map b n map' := by
  have hps : pageSize = 4096 := rfl
  have hfits := hb.fits
  have hpage := hb.page_le
  have hlen : b.baseAddr + b.numBytes - b.baseAddr = b.numBytes := Nat.add_sub_cancel_left ..
  have hmem' : (map.store n).pageMem = some (List.range n ++ [n]) := by
    simp [PageMap.store, hmem]
  have hold : ∀ i ∈ List.range n, (map.store n).node i = map.node i := fun i hi =>
    store_node_of_ne map (Nat.ne_of_lt (List.mem_range.mp hi))
  have hcfg : ∀ i ∈ List.range n, ((map.store n).node i).pool.maxOrder ≠ 0 := by
    intro i hi
    rw [hold i hi]
    exact hused i (List.mem_range.mp hi)
  -- the stored node is the first that is not configured, and no other has the section
  have hsearch : pageMapSearch (map.store n).node b.baseAddr (b.baseAddr + b.numBytes)
      (List.range n ++ [n]) = .found n := by
    rcases pageMapSearch_eq b.baseAddr (b.baseAddr + b.numBytes) [] hcfg (store_node_self map n) with
      ⟨-, i, hi, hhit⟩ | ⟨hfound, -⟩
    · rw [hold i hi] at hhit
      exact absurd hhit (hmiss i (List.mem_range.mp hi))
    · exact hfound
  obtain ⟨hret, hmin⟩ := mmInit_pages ⟨((map.store n).node n).pool, map.stat⟩ b.baseAddr b.numBytes hpage
    (by omega)
  have hmax : (mmInit ⟨((map.store n).node n).pool, map.stat⟩ b.baseAddr b.numBytes pageSize).1.pool.maxOrder
      ≠ 0 := mmInit_maxOrder_ne_zero _ _ _ (by omega) (by omega)
  obtain ⟨⟨mm, stat⟩, hinit⟩ : ∃ mm, mmInit ⟨((map.store n).node n).pool, map.stat⟩ b.baseAddr b.numBytes
      pageSize = (mm, 0) := ⟨_, Prod.ext rfl hret⟩
  rw [hinit] at hmin hmax
  have hstat : (map.store n).stat = map.stat := rfl
  have hne : List.range n ++ [n] ≠ [] := by simp
  obtain ⟨map', hmap⟩ : ∃ map' : PageMap, map' = { ((map.store n).setMm n ⟨mm, stat⟩).setSection n
    b.baseAddr (b.baseAddr + b.numBytes) with links := listAddTail map.links (.node n) .full } := ⟨_, rfl⟩
  have hself : map'.node n = ⟨mm, b.baseAddr, b.baseAddr + b.numBytes⟩ := by
    rw [hmap]
    simp [PageMap.setSection, PageMap.setMm]
  refine ⟨map', ?_, ⟨?_, by rw [hmap], ?_, ?_, fun i hi => ?_⟩⟩
  · rw [wadd_of_lt hfits, pageMapAdd, hmem']
    simp only [if_neg (show ¬ b.baseAddr + b.numBytes < b.baseAddr by omega), hlen,
      if_neg (Nat.not_lt.mpr hpage), if_neg (show pageSize ≠ 0 by omega), if_neg hne, hsearch, hstat,
      hinit]
    rw [hmap]
    rfl
  · rw [hmap, List.range_succ]
    exact hmem'
  · rw [hself]
    refine ⟨show b.baseAddr + 2 ≤ b.baseAddr + b.numBytes by omega, hfits,
      ⟨((map.store n).node n).pool, map.stat⟩, stat, pageSize, ?_⟩
    dsimp only
    rw [hlen]
    exact hinit
  · rw [hself]
    exact ⟨rfl, rfl, hmin, hmax⟩
  · rw [hmap]
    show (((map.store n).setMm n ⟨mm, stat⟩).setSection n _ _).node i = map.node i
    rw [setSection_node_of_ne _ hi, setMm_node_of_ne _ _ hi, store_node_of_ne _ hi]

/-- The nodes up to the new one. -/
theorem mem_range_succ_cases {n i : Nat} (h : i ∈ List.range (n + 1)) : i < n ∨ i = n :=
  Nat.lt_succ_iff_lt_or_eq.mp (List.mem_range.mp h)

/-- The page map with the new node. -/
theorem PgKept.stored {n : Nat} {map : PageMap} (K : PgKept (List.range n) s)
    (hS : StoredNode s.map b n map) (hlive : s.live n = [])
    (hclear : ∀ i < n, (s.map.node i).memEnd ≤ b.baseAddr ∨
      b.baseAddr + b.numBytes ≤ (s.map.node i).memStart) :
    PgKept (List.range (n + 1)) ⟨map, s.live⟩ := by
  have hother : ∀ i < n, map.node i = s.map.node i := fun i hi => hS.other i (Nat.ne_of_lt hi)
  have hmiss : ∀ i < n, (map.node i).memEnd ≤ (map.node n).memStart ∨
      (map.node n).memEnd ≤ (map.node i).memStart := by
    intro i hi
    rw [hother i hi, hS.node.memStart, hS.node.memEnd]
    exact hclear i hi
  refine ⟨⟨fun i hi => ?_, fun i hi j hj hij => ?_⟩, ?_⟩
  · rcases mem_range_succ_cases hi with hlt | rfl
    · show PgPool (map.node i) (s.live i)
      rw [hother i hlt]
      exact K.pool i (List.mem_range.mpr hlt)
    · show PgPool (map.node i) (s.live i)
      rw [hlive]
      exact hS.setUp.pgPool
  · rcases mem_range_succ_cases hi with hlt | rfl
    · rcases mem_range_succ_cases hj with hlt' | rfl
      · show (map.node i).memEnd ≤ (map.node j).memStart ∨ (map.node j).memEnd ≤ (map.node i).memStart
        rw [hother i hlt, hother j hlt']
        exact K.apart i (List.mem_range.mpr hlt) j (List.mem_range.mpr hlt') hij
      · exact hmiss i hlt
    · rcases mem_range_succ_cases hj with hlt' | rfl
      · exact (hmiss j hlt').symm
      · exact absurd rfl hij
  · obtain ⟨pg, full, empty, -, L, hperm, hempty⟩ := K.lists
    have hnot : n ∉ full ++ empty := fun hin =>
      Nat.lt_irrefl _ (List.mem_range.mp (hperm.mem_iff.mp hin))
    rw [List.mem_append, not_or] at hnot
    have L' := L.addTail (n := n)
      (by rw [List.mem_cons, List.mem_map_of_injective PgNode.node_inj]; simp [hnot.1])
      (by rw [List.mem_cons, List.mem_map_of_injective PgNode.node_inj]; simp [hnot.2])
    refine ⟨_, full ++ [n], empty, hS.pageMem, ?_, ?_, fun i hi => ?_⟩
    · rw [PageMap.Lists, hS.links]
      exact L'
    · rw [List.range_succ, List.append_assoc]
      refine (List.perm_append_comm.append_left full).trans ?_
      rw [← List.append_assoc]
      exact hperm.append_right _
    · have hne : i ≠ n := fun heq => hnot.2 (heq ▸ hi)
      show MmExhausted (map.node i).pool
      rw [hS.other i hne]
      exact hempty i hi

/-- **A node for one more bank.** -/
theorem BootPages.add (h : BootPages banks img reserved s) (hb : BankFits b)
    (hapart : ∀ c ∈ banks, BanksApart c b) :
    ∃ map, pageMapAdd (s.map.store banks.length) b.baseAddr (wadd b.baseAddr b.numBytes) pageSize =
        some (map, 0) ∧ BootPages (banks ++ [b]) img reserved ⟨map, s.live⟩ := by
  have hpage := hb.page_le
  have hnode : ∀ i < banks.length, ∃ c ∈ banks, BankNode c (s.map.node i) := fun i hi =>
    h.node_of_mem (List.mem_range.mpr hi)
  have hclear : ∀ i < banks.length, (s.map.node i).memEnd ≤ b.baseAddr ∨
      b.baseAddr + b.numBytes ≤ (s.map.node i).memStart := by
    intro i hi
    obtain ⟨c, hc, hcn⟩ := hnode i hi
    rw [hcn.memStart, hcn.memEnd]
    exact hapart c hc
  obtain ⟨map, hadd, hS⟩ := pageMapAdd_stored hb h.pageMem
    (fun i hi => by
      obtain ⟨c, -, hcn⟩ := hnode i hi
      exact hcn.maxOrder)
    (fun i hi => by
      have hcl := hclear i hi
      have hps : pageSize = 4096 := rfl
      rw [PageMapHits]
      omega)
  have hlen : (banks ++ [b]).length = banks.length + 1 := by
    rw [List.length_append, List.length_singleton]
  refine ⟨map, hadd, ⟨?_, ?_, fun i c hc => ?_, fun i hi => ?_, ?_, h.image⟩⟩
  · rw [hlen]
    exact hS.pageMem
  · rw [hlen]
    exact h.kept.stored hS (h.unused _ (Nat.le_refl _)) hclear
  · rcases Nat.lt_or_ge i banks.length with hlt | hge
    · rw [List.getElem?_append_left hlt] at hc
      show BankNode c (map.node i)
      rw [hS.other i (Nat.ne_of_lt hlt)]
      exact h.nodes i c hc
    · have hi : i = banks.length := by
        have hltlen := (List.getElem?_eq_some_iff.mp hc).1
        omega
      subst hi
      rw [List.getElem?_append_right hge, Nat.sub_self] at hc
      obtain rfl : b = c := Option.some.inj hc
      exact hS.node
  · exact h.unused i (by omega)
  · rw [List.getElem?_append_left (List.getElem?_eq_some_iff.mp h.first).1]
    exact h.first

end Pages

end FlightOs
