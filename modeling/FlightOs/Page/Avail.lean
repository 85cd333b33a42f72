/-
# The pages that are to be had

`page_alloc` searches the nodes of one list only: a node whose pool has refused a page is on the
other list, and `page_free` moves it back when the pool has a free block again.  That the pool of an
exhausted node has nothing to give is the invariant of a run, next to that of every pool
(`Mm/Run.lean`).

A free block at the base of a pool is on no list of the pool, and as long as anything else is
allocated it cannot be had; `mm_unallocated_blocks` counts it.

* `PgPool.serve`, `PgPool.release`: what a call makes of the pool of a node.
* `PgKept.step`: the step.
* `page_alloc_avail`: in every run, what is left when `page_alloc` returns no page, and where the
  pages lie.
-/
import FlightOs.Mm.Request
import FlightOs.Page.Partition

namespace FlightOs

/-! ## 1. The pool of a configured node -/

/-- The pool of a node with a section, of which the callers hold `live`.  With the null address for a
base `mm_init` leaves all of the pool allocated, for `mm_free` returns at once. -/
inductive PgPool (w : PageMapNode) (live : List (Nat × Nat)) : Prop
  | run {A : MmArea} {F : Finset Blk} {stat : MmStat} (start : w.memStart = A.base)
      (stop : w.memEnd = A.base + A.size) (run : MmRun A ⟨⟨w.pool, stat⟩, live⟩ F)
  | null (start : w.memStart = 0) (stop : 2 ≤ w.memEnd ∧ w.memEnd < 2 ^ 32)
      (base : w.pool.base = 0) (maxOrder : w.pool.maxOrder = Nat.log2 w.memEnd)
      (taken : mmBlkFree w.pool 0 = false) (exhausted : MmExhausted w.pool)
      (full : w.pool.allocBlks = w.pool.nBlks) (live : live = [])

/-- A node as `page_map_init` and `page_map_add` leave it: `mm_init` has made a pool of the section. -/
structure PageMapNode.SetUp (w : PageMapNode) : Prop where
  two_le : w.memStart + 2 ≤ w.memEnd
  fits : w.memEnd < 2 ^ 32
  pool : ∃ mm stat pageSize,
    mmInit mm w.memStart (w.memEnd - w.memStart) pageSize = (⟨w.pool, stat⟩, 0)

section Pool

variable {w : PageMapNode} {live : List (Nat × Nat)} {stat stat' : MmStat} {A : MmArea}
  {F : Finset Blk} {a size : Nat}

/-- The counters have no part in the invariant. -/
theorem MmRun.recount (h : MmRun A ⟨⟨w.pool, stat⟩, live⟩ F) (stat' : MmStat) :
    MmRun A ⟨⟨w.pool, stat'⟩, live⟩ F := ⟨h.inv, h.addrs, h.base_le, h.base, h.maxOrder⟩

/-- The one allocated block that `mm_init` starts from is all there is. -/
theorem mmInitPool_exhausted (p : MmPool) {maxOrder minOrder : Nat} (hmax : maxOrder < 32)
    (hle : minOrder ≤ maxOrder) : MmExhausted (mmInitPool p 0 maxOrder minOrder) ∧
      mmBlkFree (mmInitPool p 0 maxOrder minOrder) 0 = false := by
  have hn : 0 < mmNumBlocksTrackable maxOrder minOrder :=
    mmNumBlocksTrackable_eq hmax hle ▸ Nat.two_pow_pos _
  refine ⟨⟨hn.ne', fun k hk => mmInitLists_ring p.links hk⟩, ?_⟩
  have hidx : mmBlkIdx (mmInitPool p 0 maxOrder minOrder) 0 = 0 := by
    show wsub 0 0 / _ = 0
    rw [wsub_of_le (by norm_num) le_rfl, Nat.sub_self, Nat.zero_div]
  rw [mmBlkFree, hidx]
  exact if_pos (by omega)

theorem PageMapNode.SetUp.pgPool (h : w.SetUp) : PgPool w [] := by
  obtain ⟨hle, hfits, mm, stat, pageSize, hinit⟩ := h
  rcases Nat.eq_zero_or_pos w.memStart with h0 | hpos
  · rw [h0, Nat.sub_zero] at hinit
    obtain ⟨k, stat', hk3, hkle, hfree⟩ := mmInit_ok (by omega) hfits hinit
    rw [mmFree, if_pos rfl] at hfree
    have hpool : w.pool = mmInitPool mm.pool 0 (Nat.log2 w.memEnd) k := (congrArg Mm.pool hfree).symm
    have hlt : Nat.log2 w.memEnd < 32 := (Nat.log2_lt (by omega)).mpr hfits
    obtain ⟨hex, htaken⟩ := mmInitPool_exhausted mm.pool hlt hkle
    rw [← hpool] at hex htaken
    refine .null h0 ⟨by omega, hfits⟩ ?_ ?_ htaken hex ?_ rfl
    · rw [hpool]
      rfl
    · rw [hpool]
      rfl
    · rw [hpool]
      rfl
  · have hsize : 2 ≤ w.memEnd - w.memStart := Nat.le_sub_of_add_le' hle
    have hstop : w.memStart + (w.memEnd - w.memStart) = w.memEnd := by omega
    let A : MmArea := ⟨w.memStart, w.memEnd - w.memStart, pageSize, hpos, hsize, hstop.trans_lt hfits⟩
    have hrun := (MmRun.init (A := A) (s := ⟨⟨w.pool, stat⟩, []⟩) ⟨rfl, mm, hinit⟩).1
    exact .run (A := A) rfl hstop.symm hrun

/-- A pool lies in the section of its node. -/
theorem PgPool.range (h : PgPool w live) (ha : mmBlkAddrValid w.pool a = true) :
    w.memStart ≤ a ∧ a < w.memEnd := by
  cases h with
  | @run A F stat start stop run =>
    obtain ⟨h1, h2⟩ := (mmBlkAddrValid_iff run.inv.geom).mp ha
    have hbase : w.pool.base = A.base := run.base
    have hmax : w.pool.maxOrder = Nat.log2 A.size := run.maxOrder
    have hpow : 2 ^ Nat.log2 A.size ≤ A.size := Nat.log2_self_le (by have := A.size_ge; omega)
    rw [hmax] at h2
    dsimp only at h1 h2
    omega
  | null start stop base maxOrder =>
    have hpow : 2 ^ Nat.log2 w.memEnd ≤ w.memEnd := Nat.log2_self_le (by omega)
    have hlt : Nat.log2 w.memEnd < 32 := (Nat.log2_lt (by omega)).mpr stop.2
    rw [mmBlkAddrValid, base, maxOrder, wshl_one hlt, wadd_of_lt (by omega), Bool.and_eq_true,
      decide_eq_true_iff, decide_eq_true_iff] at ha
    omega

/-- What the size of a block that is held tells. -/
theorem MmRun.blockSize {s : MmState} (h : MmRun A s F) {e : Nat × Nat} (he : e ∈ s.live) :
    mmBlockSize s.mm.pool e.1 = 2 ^ s.order e := by
  rw [h.sized.live e he, h.order_eq he]
  rfl

/-- The section of a node holds the pool. -/
theorem MmRun.stop_le {s : MmState} (h : MmRun A s F) :
    s.mm.pool.base + 2 ^ s.mm.pool.maxOrder ≤ A.base + A.size := by
  rw [h.base, h.maxOrder]
  exact Nat.add_le_add_left (Nat.log2_self_le (by have := A.size_ge; omega)) _

/-- A block that is held lies in the section, and the pool knows of it. -/
theorem PgPool.held (h : PgPool w live) {e : Nat × Nat} (he : e ∈ live) :
    (w.memStart ≤ e.1 ∧ e.1 + mmBlockSize w.pool e.1 ≤ w.memEnd) ∧
      0 < mmBlockSize w.pool e.1 ∧ e.1 ≠ 0 ∧ mmAddrInPool w.pool e.1 = true := by
  cases h with
  | @run A F stat start stop run =>
    have hin := run.inside he
    have hsize := run.blockSize he
    have hle := run.stop_le
    have hbase : w.pool.base = A.base := run.base
    have hpos := A.base_pos
    dsimp only at hin hsize hle
    have hsize_pos : 0 < mmBlockSize w.pool e.1 := hsize ▸ Nat.two_pow_pos _
    refine ⟨by omega, hsize_pos, by omega, ?_⟩
    by_contra hnot
    rw [mmBlockSize, if_neg hnot] at hsize_pos
    exact absurd hsize_pos (Nat.lt_irrefl 0)
  | null start stop base maxOrder taken exhausted full live =>
    rw [live] at he
    cases he

/-- A page is a minimum block. -/
theorem MmInv.pageSize {mp : MmPool} {L : Finset Blk} (h : MmInv mp L F) :
    pgSize mp = 2 ^ mp.minOrder ∧ mmReqOrder mp (pgSize mp) = mp.minOrder ∧
      ilog2 (roundupPowOfTwo (pgSize mp)) ≤ mp.minOrder := by
  have hmin := h.geom.minOrder_le
  have hmax := h.geom.maxOrder_lt
  have hsize : pgSize mp = 2 ^ mp.minOrder := wshl_one (by omega)
  have hpow : 2 ^ mp.minOrder ≤ 2 ^ 31 := Nat.pow_le_pow_right (by norm_num) (by omega)
  have hlog : ilog2 (roundupPowOfTwo (pgSize mp)) ≤ mp.minOrder := by
    rw [hsize]
    exact (ilog2_roundup_le_iff (Nat.two_pow_pos _) hpow).mpr le_rfl
  exact ⟨hsize, max_eq_left hlog, hlog⟩

/-- A pool that refuses a page has nothing to give. -/
theorem PgPool.refused (h : PgPool w live)
    (hnone : (mmAlloc ⟨w.pool, stat⟩ (pgSize w.pool)).2 = none) : MmExhausted w.pool := by
  cases h with
  | @run A F stat' start stop run =>
    obtain ⟨hsize, hreq, hlog⟩ := run.inv.pageSize
    have hspec := mmAlloc_spec (run.recount stat).inv (pgSize w.pool)
    obtain ⟨mm', hm⟩ : ∃ mm', mmAlloc ⟨w.pool, stat⟩ (pgSize w.pool) = (mm', none) :=
      ⟨_, Prod.ext rfl hnone⟩
    dsimp only at hspec
    rw [hm] at hspec
    rcases hspec.2.full with h0 | hbig | ⟨hL, hF⟩
    · exact absurd (hsize.symm.trans h0) (Nat.two_pow_pos _).ne'
    · exact absurd (hlog.trans run.inv.geom.minOrder_le) (not_le.mpr hbig)
    · exact run.inv.exhausted hL
        (fun b hb => hF b hb (hreq.le.trans (run.inv.minOrder_le b (Or.inr hb))))
  | null start stop base maxOrder taken exhausted => exact exhausted

/-- **A pool that serves a request**: the new block lies in the section and has no byte in common with
the blocks that are held. -/
theorem PgPool.serve (h : PgPool w live) (hsome : (mmAlloc ⟨w.pool, stat⟩ size).2 = some a) :
    PgPool { w with pool := (mmAlloc ⟨w.pool, stat⟩ size).1.pool } ((a, size) :: live) ∧
      pgSize w.pool ≤ mmBlockSize (mmAlloc ⟨w.pool, stat⟩ size).1.pool a ∧
      a ∉ live.map Prod.fst ∧
      ∀ e ∈ live, a + mmBlockSize (mmAlloc ⟨w.pool, stat⟩ size).1.pool a ≤ e.1 ∨
        e.1 + mmBlockSize w.pool e.1 ≤ a := by
  cases h with
  | @run A F stat' start stop run =>
    obtain ⟨F', hrun, -⟩ := (run.recount stat).alloc size
    have hspec := mmAlloc_spec (run.recount stat).inv size
    obtain ⟨mm', hm⟩ : ∃ mm', mmAlloc ⟨w.pool, stat⟩ size = (mm', some a) :=
      ⟨_, Prod.ext rfl hsome⟩
    rw [mmStep] at hrun
    dsimp only at hrun hspec
    rw [hm] at hrun hspec ⊢
    dsimp only at hrun ⊢
    obtain ⟨c, F'', ha, hal⟩ := hspec
    have hpage : pgSize w.pool ≤ mmBlockSize mm'.pool a := by
      rw [run.inv.pageSize.1, ha, hal.blockSize]
      exact Nat.pow_le_pow_right (by norm_num) (le_max_left _ _)
    have hnew : (a, size) ∈ (a, size) :: live := List.mem_cons_self
    have hnd := List.nodup_cons.mp hrun.addrs
    refine ⟨.run start stop hrun, hpage, hnd.1, fun e he => ?_⟩
    have hne : a ≠ e.1 := fun heq => hnd.1 (List.mem_map.mpr ⟨e, he, heq.symm⟩)
    have hap := hrun.apart hnew (List.mem_cons_of_mem _ he) hne
    rw [← hrun.blockSize hnew, ← hrun.blockSize (List.mem_cons_of_mem _ he)] at hap
    have hold : mmBlockSize mm'.pool e.1 = mmBlockSize w.pool e.1 := by
      have hafter := hrun.sized.live e (List.mem_cons_of_mem _ he)
      have hbefore := run.sized.live e he
      rw [mmReqOrder, hal.same.minOrder] at hafter
      exact hafter.trans hbefore.symm
    rw [← hold]
    exact hap
  | null start stop base maxOrder taken exhausted =>
    rw [(mmAlloc_exhausted exhausted size).1] at hsome
    cases hsome

variable (stat) in
/-- **A pool that takes a block back** has a block that counts as unallocated. -/
theorem PgPool.release (h : PgPool w live) (ha : a ∈ live.map Prod.fst) :
    PgPool { w with pool := (mmFree ⟨w.pool, stat⟩ a).pool } (live.filter fun e => e.1 ≠ a) ∧
      0 < mmUnallocatedBlocks (mmFree ⟨w.pool, stat⟩ a).pool := by
  obtain ⟨e, he, rfl⟩ := List.mem_map.mp ha
  cases h with
  | @run A F stat' start stop run =>
    obtain ⟨F', hrun, -⟩ := (run.recount stat).free ⟨e, he, rfl⟩
    exact ⟨.run start stop hrun,
      Nat.zero_lt_of_lt ((run.recount stat).unallocated_lt ⟨e, he, rfl⟩)⟩
  | null start stop base maxOrder taken exhausted full live =>
    rw [live] at he
    cases he

/-- What a pool without blocks to be had has free is the block at its base. -/
theorem PgPool.unallocated (h : PgPool w live) (hex : MmExhausted w.pool) :
    mmUnallocatedBlocks w.pool = baseBlks w.pool := by
  cases h with
  | @run A F stat' start stop run =>
    have hbase : ∀ b ∈ F, ¬ b.off ≠ 0 := fun b hb => not_not.mpr
      ((run.inv.listEmpty_iff (run.inv.ord_le (Or.inr hb))).mp
        ((listEmpty_iff (hex.2 _ (run.inv.ord_le (Or.inr hb)))).mpr rfl) b hb rfl)
    have hall := run.inv.baseBlks_eq
    rw [Finset.filter_true_of_mem hbase] at hall
    exact run.inv.unallocated.trans hall.symm
  | null start stop base maxOrder taken exhausted full =>
    rw [mmUnallocatedBlocks, full, baseBlks, base, if_neg (Bool.eq_false_iff.mp taken)]
    unfold wsub
    omega

end Pool

/-! ## 2. Runs -/

/-- `PAGE_MAP_MOVE_NODE_AVAIL_THRESH`, as it is configured by default. -/
def pageMapMoveNodeAvailThresh : Nat := 1

/-- The page map, and the blocks that the callers hold of each node: address and requested size. -/
structure PgHeld where
  map : PageMap
  live : Nat → List (Nat × Nat)

inductive PgUse
  | alloc
  | reserve (size : Nat)
  | free (page : Nat)

/-- What a search has found goes to the caller; it comes from the node that was asked last. -/
def PgHeld.take (s : PgHeld) (st : PageScan) (size : Nat → Nat) : PgHeld :=
  match st.page with
  | none => ⟨st.map, s.live⟩
  | some a =>
    let i := st.asked.getLastD 0
    ⟨st.map, Function.update s.live i ((a, size i) :: s.live i)⟩

def pgUse (fuel : Nat) (s : PgHeld) : PgUse → Option PgHeld
  | .alloc => (pageAlloc fuel s.map).map fun st => s.take st fun i => pgSize (s.map.node i).pool
  | .reserve size => (pageMapReserveChunk s.map size).map fun st => s.take st fun _ => size
  | .free page => (pageFree pageMapMoveNodeAvailThresh fuel s.map page).map fun map =>
    ⟨map, fun i => (s.live i).filter fun e => e.1 ≠ page⟩

/-- The nodes `cfg` of the page map have sections without a common address, and are linked; nothing is
held. -/
structure PgConfigured (cfg : List Nat) (s : PgHeld) : Prop where
  pageMem : ∃ pg, s.map.pageMem = some pg ∧ cfg ⊆ pg
  lists : s.map.Lists cfg []
  setUp : ∀ i ∈ cfg, (s.map.node i).SetUp
  apart : ∀ i ∈ cfg, ∀ j ∈ cfg, i ≠ j → (s.map.node i).memEnd ≤ (s.map.node j).memStart ∨
    (s.map.node j).memEnd ≤ (s.map.node i).memStart
  live : ∀ i, s.live i = []

/-- The calls in any order, from a page map that is configured. -/
def pgUseSystem (cfg : List Nat) : System PgHeld PgUse where
  init := PgConfigured cfg
  step s o s' := ∃ fuel, pgUse fuel s o = some s'

/-- The page is one that a caller holds. -/
def PgHeld.IsLive (cfg : List Nat) (s : PgHeld) (page : Nat) : Prop :=
  ∃ i ∈ cfg, page ∈ (s.live i).map Prod.fst

/-- Pages are released that are live, and a chunk is looked for in configured nodes. -/
def PgUseOk (cfg : List Nat) (s : PgHeld) : PgUse → Prop
  | .alloc => True
  | .reserve size => ∀ pg, s.map.pageMem = some pg →
    pg ≠ [] ∧ (⟨s.map, cfg, []⟩ : PgState).ReadyFor size pg
  | .free page => s.IsLive cfg page

/-- The pools of the nodes, and the blocks that are held of them. -/
structure PgPools (cfg : List Nat) (node : Nat → PageMapNode) (live : Nat → List (Nat × Nat)) :
    Prop where
  pool : ∀ i ∈ cfg, PgPool (node i) (live i)
  apart : ∀ i ∈ cfg, ∀ j ∈ cfg, i ≠ j → (node i).memEnd ≤ (node j).memStart ∨
    (node j).memEnd ≤ (node i).memStart

/-- **The invariant of a run.**  An exhausted node has nothing to give. -/
structure PgKept (cfg : List Nat) (s : PgHeld) : Prop extends PgPools cfg s.map.node s.live where
  lists : ∃ pg full empty, s.map.pageMem = some pg ∧ s.map.Lists full empty ∧
    (full ++ empty).Perm cfg ∧ ∀ i ∈ empty, MmExhausted (s.map.node i).pool

/-- The block at `a` that a search has found is no smaller than a page, lies in the section of a
configured node, and has no byte in common with a block that is held. -/
def PgFresh (cfg : List Nat) (s : PgHeld) (st : PageScan) (a : Nat) : Prop :=
  ∃ i ∈ cfg, ∃ size, size = mmBlockSize (st.map.node i).pool a ∧
    pgSize (s.map.node i).pool ≤ size ∧
    (s.map.node i).memStart ≤ a ∧ a + size ≤ (s.map.node i).memEnd ∧
    ∀ j ∈ cfg, ∀ e ∈ s.live j, a ≠ e.1 ∧
      (a + size ≤ e.1 ∨ e.1 + mmBlockSize (s.map.node j).pool e.1 ≤ a)

section Run

variable {cfg : List Nat} {s s' : PgHeld} {map : PageMap} {live live' : Nat → List (Nat × Nat)}
  {st : PageScan} {dry rest : List Nat} {size : Nat → Nat} {a i j page : Nat} {mm : Mm}

/-- The pool of one node changes, and what is held of it. -/
theorem PgPools.set (P : PgPools cfg map.node live)
    (hi : PgPool { map.node i with pool := mm.pool } (live' i))
    (hne : ∀ j ∈ cfg, j ≠ i → live' j = live j) :
    PgPools cfg (map.setMm i mm).node live' := by
  have hsec : ∀ j, ((map.setMm i mm).node j).memStart = (map.node j).memStart ∧
      ((map.setMm i mm).node j).memEnd = (map.node j).memEnd := by
    intro j
    by_cases hj : j = i
    · rw [hj, setMm_node]
      exact ⟨rfl, rfl⟩
    · rw [setMm_node_of_ne map mm hj]
      exact ⟨rfl, rfl⟩
  refine ⟨fun j hj => ?_, fun j hj k hk hjk => ?_⟩
  · by_cases hji : j = i
    · rw [hji, setMm_node]
      exact hi
    · rw [setMm_node_of_ne map mm hji, hne j hj hji]
      exact P.pool j hj
  · rw [(hsec j).1, (hsec j).2, (hsec k).1, (hsec k).2]
    exact P.apart j hj k hk hjk

/-- An address in the pool of a node lies in its section. -/
theorem PgPool.inPool {w : PageMapNode} {l : List (Nat × Nat)} (h : PgPool w l)
    (hin : mmAddrInPool w.pool a = true) : w.memStart ≤ a ∧ a < w.memEnd := by
  refine h.range ?_
  unfold mmAddrInPool at hin
  split_ifs at hin with h1 h2
  simpa using h2

/-- The node that has a page is the one it came from. -/
theorem PgPools.owner (P : PgPools cfg map.node live) (hi : i ∈ cfg) (hj : j ∈ cfg)
    (hpage : page ∈ (live i).map Prod.fst) (hin : mmAddrInPool (map.node j).pool page = true) :
    j = i := by
  obtain ⟨e, he, rfl⟩ := List.mem_map.mp hpage
  obtain ⟨⟨h1, h2⟩, hpos, -⟩ := (P.pool i hi).held he
  have hsec := (P.pool j hj).inPool hin
  by_contra hne
  have := P.apart j hj i hi hne
  omega

/-- Two blocks of different nodes. -/
theorem PgPools.apart_held (P : PgPools cfg map.node live) (hi : i ∈ cfg) (hj : j ∈ cfg)
    (hij : i ≠ j) {n : Nat} (h1 : (map.node i).memStart ≤ a) (h2 : a + n ≤ (map.node i).memEnd)
    (hn : 0 < n) {e : Nat × Nat} (he : e ∈ live j) :
    a ≠ e.1 ∧ (a + n ≤ e.1 ∨ e.1 + mmBlockSize (map.node j).pool e.1 ≤ a) := by
  obtain ⟨⟨h3, h4⟩, hpos, -⟩ := (P.pool j hj).held he
  have := P.apart i hi j hj hij
  omega

theorem PgHeld.take_none (h : st.page = none) : s.take st size = ⟨st.map, s.live⟩ := by
  rw [PgHeld.take, h]

theorem PgHeld.take_some (h : st.page = some a) (hasked : st.asked = dry ++ [i]) :
    s.take st size = ⟨st.map, Function.update s.live i ((a, size i) :: s.live i)⟩ := by
  have hlast : st.asked.getLastD 0 = i := by
    rw [hasked]
    simp
  rw [PgHeld.take, h, hlast]

@[simp] theorem PgHeld.take_map : (s.take st size).map = st.map := by
  unfold PgHeld.take
  split <;> rfl

/-- **What a search does** with the pools of the nodes. -/
theorem PgPools.take (P : PgPools cfg s.map.node s.live) (h : PgFound s.map size dry rest st)
    (hrest : ∀ i ∈ rest.take 1, i ∈ cfg) :
    PgPools cfg (s.take st size).map.node (s.take st size).live ∧
      ∀ a, st.page = some a → PgFresh cfg s st a := by
  cases h with
  | none hpage hnode hasked =>
    rw [PgHeld.take_none hpage]
    refine ⟨?_, fun a ha => ?_⟩
    · show PgPools cfg st.map.node s.live
      rw [hnode]
      exact P
    · rw [hpage] at ha
      cases ha
  | @some st i a rest hpage hserves hnode hasked =>
    have hi : i ∈ cfg := hrest i List.mem_cons_self
    obtain ⟨hpool, hpage_le, hnew, hfresh⟩ := (P.pool i hi).serve hserves
    rw [PgHeld.take_some hpage hasked]
    refine ⟨?_, fun a' ha' => ?_⟩
    · show PgPools cfg st.map.node (Function.update s.live i ((a, size i) :: s.live i))
      rw [hnode]
      refine P.set ?_ (fun j _ hj => Function.update_of_ne hj _ _)
      rw [Function.update_self]
      exact hpool
    · obtain rfl : a = a' := Option.some.inj (hpage.symm.trans ha')
      obtain ⟨⟨h1, h2⟩, hpos, -⟩ := hpool.held List.mem_cons_self
      refine ⟨i, hi, _, rfl, ?_⟩
      rw [hnode, setMm_node]
      refine ⟨hpage_le, h1, h2, fun j hj e he => ?_⟩
      by_cases hij : i = j
      · subst hij
        exact ⟨fun heq => hnew (List.mem_map.mpr ⟨e, he, heq.symm⟩), hfresh e he⟩
      · exact P.apart_held hi hj hij h1 h2 hpos he

/-- A search that has found nothing has asked every node. -/
theorem PgFound.rest_nil (h : PgFound s.map size dry rest st) (hnone : st.page = Option.none) :
    rest = [] := by
  cases h with
  | none => rfl
  | some hpage =>
    rw [hnone] at hpage
    cases hpage

/-- A search leaves a node that has nothing to give as it is. -/
theorem PgFound.exhausted (h : PgFound s.map size dry rest st) (hex : MmExhausted (s.map.node j).pool) :
    MmExhausted (st.map.node j).pool := by
  cases h with
  | none hpage hnode hasked => rwa [hnode]
  | @some st i a rest hpage hserves hnode hasked =>
    have hne : j ≠ i := by
      rintro rfl
      have hnone : (mmAlloc (s.map.mm j) (size j)).2 = .none ∧ _ := mmAlloc_exhausted hex (size j)
      rw [hserves] at hnone
      cases hnone.1
    rwa [hnode, setMm_node_of_ne _ _ hne]

/-- The initial states. -/
theorem PgConfigured.kept (h : PgConfigured cfg s) : PgKept cfg s := by
  obtain ⟨⟨pg, hmem, -⟩, hlists, hsetUp, hapart, hlive⟩ := h
  refine ⟨⟨fun i hi => ?_, hapart⟩, pg, cfg, [], hmem, hlists, ?_, ?_⟩
  · rw [hlive i]
    exact (hsetUp i hi).pgPool
  · rw [List.append_nil]
  · exact fun i hi => absurd hi List.not_mem_nil

/-- **A call of `page_alloc`.** -/
theorem PgKept.alloc {fuel : Nat} (K : PgKept cfg s) (h : pageAlloc fuel s.map = some st) :
    PgKept cfg (s.take st fun i => pgSize (s.map.node i).pool) ∧
      (st.page = none → ∀ i ∈ cfg, MmExhausted (s.map.node i).pool) ∧
      ∀ a, st.page = some a → PgFresh cfg s st a := by
  obtain ⟨pg, full, empty, hmem, L, hperm, hempty⟩ := K.lists
  obtain ⟨dry, rest, hS, hfound⟩ := pageAlloc_result hmem L h
  have hfull : ∀ i ∈ full, i ∈ cfg := fun i hi => hperm.mem_iff.mp (List.mem_append_left _ hi)
  have hdry : ∀ i ∈ dry, MmExhausted (s.map.node i).pool := fun i hi =>
    (K.pool i (hfull i (hS.split ▸ List.mem_append_left _ hi))).refused (hS.refuses i hi)
  obtain ⟨hpools, hfresh⟩ := K.toPgPools.take hfound
    (fun i hi => hfull i (hS.split ▸ List.mem_append_right _ (List.mem_of_mem_take hi)))
  refine ⟨⟨hpools, pg, rest, empty ++ dry, ?_⟩, fun hnone i hi => ?_, hfresh⟩
  · rw [PgHeld.take_map]
    refine ⟨hS.pageMem.trans hmem, hS.lists, ?_, fun i hi => hfound.exhausted ?_⟩
    · refine List.Perm.trans ?_ hperm
      rw [hS.split, ← List.append_assoc, List.append_assoc dry]
      exact List.perm_append_comm
    · exact (List.mem_append.mp hi).elim (hempty i) (hdry i)
  · have hall : i ∈ dry ++ rest ++ empty := hS.split ▸ hperm.mem_iff.mpr hi
    rw [hfound.rest_nil hnone, List.append_nil] at hall
    exact (List.mem_append.mp hall).elim (hdry i) (hempty i)

/-- **A call of `page_map_reserve_chunk`.** -/
theorem PgKept.reserve {n : Nat} (K : PgKept cfg s) (hok : PgUseOk cfg s (.reserve n))
    (h : pageMapReserveChunk s.map n = some st) :
    PgKept cfg (s.take st fun _ => n) ∧ ∀ a, st.page = some a → PgFresh cfg s st a := by
  obtain ⟨pg, full, empty, hmem, L, hperm, hempty⟩ := K.lists
  obtain ⟨hne, hready⟩ := hok pg hmem
  simp only [pageMapReserveChunk, hmem, if_neg hne] at h
  let start : PageScan := ⟨s.map, none, []⟩
  have hstart : start.map.node = s.map.node ∧ start.page = none := ⟨rfl, rfl⟩
  obtain ⟨dry, rest, heq, hdry, hlinks, hpageMem, hfound⟩ :=
    pageMapReserveFrom_spec pg n hstart.1 hstart.2
  rw [Option.some.inj h] at hlinks hpageMem hfound
  obtain ⟨hpools, hfresh⟩ := K.toPgPools.take hfound (hready.asked heq hdry).2
  refine ⟨⟨hpools, pg, full, empty, ?_⟩, hfresh⟩
  rw [PgHeld.take_map]
  refine ⟨hpageMem.trans hmem, ?_, hperm, fun i hi => hfound.exhausted (hempty i hi)⟩
  rw [PageMap.Lists, hlinks]
  exact L

/-- **A call of `page_free`** with a page that is live. -/
theorem PgKept.free {fuel : Nat} (K : PgKept cfg s) (hlive : s.IsLive cfg page)
    (h : pageFree pageMapMoveNodeAvailThresh fuel s.map page = some map) :
    PgKept cfg ⟨map, fun i => (s.live i).filter fun e => e.1 ≠ page⟩ := by
  obtain ⟨pg, full, empty, hmem, L, hperm, hempty⟩ := K.lists
  obtain ⟨i, hi, hpage⟩ := hlive
  obtain ⟨e, he, rfl⟩ := List.mem_map.mp hpage
  obtain ⟨-, -, h0, hin⟩ := (K.pool i hi).held he
  obtain ⟨hmem', full', empty', L', hF⟩ := pageFree_result hmem h0 L h
  have hcfg : ∀ j, j ∈ full ++ empty → j ∈ cfg := fun j hj => hperm.mem_iff.mp hj
  have hnd := L.nodup
  obtain ⟨hpool, hpos⟩ := (K.pool i hi).release s.map.stat hpage
  -- the pool of the page is that of the node it came from, and the other nodes hold no such page
  have hfreed : PgPools cfg (s.map.freed i e.1).node fun i => (s.live i).filter fun d => d.1 ≠ e.1 := by
    refine K.toPgPools.set hpool (fun j hj hji => List.filter_eq_self.mpr fun d hd => ?_)
    have hd_in := (K.pool j hj).held hd
    have hne : d.1 ≠ e.1 := fun heq => hji (K.owner hi hj hpage (heq ▸ hd_in.2.2.2))
    simpa using hne
  have hkeep : ∀ j, j ≠ i → MmExhausted (s.map.node j).pool →
      MmExhausted ((s.map.freed i e.1).node j).pool := by
    intro j hj hex
    rwa [PageMap.freed, setMm_node_of_ne _ _ hj]
  generalize hnode : map.node = node at hF
  cases hF with
  | nowhere hnone =>
    rw [hnone i (hperm.mem_iff.mpr hi)] at hin
    cases hin
  | @moved i' hmem_i hhas havail =>
    obtain rfl := K.owner hi (hcfg i' (List.mem_append_right _ hmem_i)) hpage hhas
    refine ⟨hnode ▸ hfreed, pg, full ++ [i'], empty.erase i', hmem', L', ?_, fun j hj => ?_⟩
    · rw [List.append_assoc]
      exact ((List.perm_cons_erase hmem_i).symm.append_left full).trans hperm
    · have hj' := ((List.nodup_append.mp hnd).2.1.mem_erase_iff).mp hj
      show MmExhausted (map.node j).pool
      rw [hnode]
      exact hkeep j hj'.1 (hempty j hj'.2)
  | @kept i' hmem_i hhas hfew =>
    obtain rfl := K.owner hi (hcfg i' (List.mem_append_right _ hmem_i)) hpage hhas
    rw [PageMap.freed, setMm_node] at hfew
    exact absurd hfew (not_lt.mpr hpos)
  | @listed i' hmem_i hhas hnone =>
    obtain rfl := K.owner hi (hcfg i' (List.mem_append_left _ hmem_i)) hpage hhas
    refine ⟨hnode ▸ hfreed, pg, full, empty, hmem', L', hperm, fun j hj => ?_⟩
    show MmExhausted (map.node j).pool
    rw [hnode]
    exact hkeep j (fun heq => (List.nodup_append.mp hnd).2.2 i' hmem_i j hj heq.symm) (hempty j hj)

/-- **The step.** -/
theorem PgKept.step {o : PgUse} {fuel : Nat} (K : PgKept cfg s) (hok : PgUseOk cfg s o)
    (h : pgUse fuel s o = some s') : PgKept cfg s' := by
  cases o with
  | alloc =>
    obtain ⟨st, hst, rfl⟩ := Option.map_eq_some_iff.mp h
    exact (K.alloc hst).1
  | reserve n =>
    obtain ⟨st, hst, rfl⟩ := Option.map_eq_some_iff.mp h
    exact (K.reserve hok hst).1
  | free page =>
    obtain ⟨map, hmap, rfl⟩ := Option.map_eq_some_iff.mp h
    exact K.free hok hmap

/-- **The run.** -/
theorem PgKept.of_reachable (h : (pgUseSystem cfg).Reachable (PgUseOk cfg) s) : PgKept cfg s := by
  refine h.invariant (I := PgKept cfg) (fun s hs => PgConfigured.kept hs) (fun s o s' K hok hstep => ?_)
  obtain ⟨fuel, hcall⟩ := hstep
  exact K.step hok hcall

/-- Every allowed call comes back. -/
theorem PgKept.returns {o : PgUse} (K : PgKept cfg s) (hok : PgUseOk cfg s o) :
    ∃ fuel s', pgUse fuel s o = some s' := by
  obtain ⟨pg, full, empty, hmem, L, hperm, hempty⟩ := K.lists
  cases o with
  | alloc =>
    obtain ⟨dry, rest, st, hst, -⟩ := pageAlloc_spec hmem L (Nat.lt_succ_self _)
    exact ⟨_, _, Option.map_eq_some_iff.mpr ⟨st, hst, rfl⟩⟩
  | reserve n =>
    have hst : ∃ st, pageMapReserveChunk s.map n = some st := by
      simp only [pageMapReserveChunk, hmem, if_neg (hok pg hmem).1]
      exact ⟨_, rfl⟩
    obtain ⟨st, hst⟩ := hst
    exact ⟨0, _, Option.map_eq_some_iff.mpr ⟨st, hst, rfl⟩⟩
  | free page =>
    obtain ⟨i, hi, hpage⟩ := hok
    obtain ⟨e, he, rfl⟩ := List.mem_map.mp hpage
    obtain ⟨-, -, h0, -⟩ := (K.pool i hi).held he
    obtain ⟨map, full', empty', hmap, -⟩ := pageFree_spec pageMapMoveNodeAvailThresh hmem h0 L
      (Nat.lt_succ_self _)
    exact ⟨_, _, Option.map_eq_some_iff.mpr ⟨map, hmap, rfl⟩⟩

end Run

/-! ## 3. The pages of every run -/

/-- What the callers of the page map rely on. -/
structure PgAvail (cfg : List Nat) (s : PgHeld) : Prop where
  returns : ∀ o, PgUseOk cfg s o → ∃ fuel s', pgUse fuel s o = some s'
  null : ∀ fuel st, pageAlloc fuel s.map = some st → st.page = none → ∀ i ∈ cfg,
    (s.map.node i).pool.allocBlks ≠ 0 ∧
      mmUnallocatedBlocks (s.map.node i).pool = baseBlks (s.map.node i).pool
  page : ∀ fuel st a, pageAlloc fuel s.map = some st → st.page = some a → PgFresh cfg s st a
  chunk : ∀ n st a, PgUseOk cfg s (.reserve n) → pageMapReserveChunk s.map n = some st →
    st.page = some a → PgFresh cfg s st a

/-- **The pages that are to be had**, in every state of a run.  When `page_alloc` returns none, all
that the pools have free are the blocks at their bases. -/
theorem page_alloc_avail {cfg : List Nat} {s : PgHeld}
    (h : (pgUseSystem cfg).Reachable (PgUseOk cfg) s) : PgAvail cfg s := by
  have K := PgKept.of_reachable h
  refine ⟨fun o hok => K.returns hok, fun fuel st hst hnone i hi => ?_,
    fun fuel st a hst => (K.alloc hst).2.2 a, fun n st a hok hst => (K.reserve hok hst).2 a⟩
  have hex := (K.alloc hst).2.1 hnone i hi
  exact ⟨hex.1, (K.pool i hi).unallocated hex⟩

/-- A page map of one node, with sixteen bytes in two pages. -/
def pgHeldTwo : PgHeld := ⟨(pageMapInit pageMapBlank [0] 0x1000 0x1010 8).1, fun _ => []⟩

theorem pgHeldTwo_configured : PgConfigured [0] pgHeldTwo := by
  let r := mmInit ⟨(pageMapBlank.node 0).pool, pageMapBlank.stat⟩ 0x1000 (0x1010 - 0x1000) 8
  have hr : r.2 = 0 := by decide
  have hmap : pgHeldTwo.map =
      pageMapSetMap ((pageMapBlank.setMm 0 r.1).setSection 0 0x1000 0x1010) [0] := by
    show (pageMapInit pageMapBlank [0] 0x1000 0x1010 8).1 = _
    simp only [pageMapInit]
    rw [if_neg (by decide), if_neg (not_not.mpr hr)]
  have hnode : pgHeldTwo.map.node 0 = ⟨r.1.pool, 0x1000, 0x1010⟩ := by
    rw [hmap]
    rfl
  refine ⟨⟨[0], by rw [hmap]; rfl, fun i hi => hi⟩, ?_, fun i hi => ?_, ?_, fun i => rfl⟩
  · rw [hmap]
    exact pageMapSetMap_lists _ (List.nodup_singleton 0)
  · rw [List.mem_singleton.mp hi, hnode]
    have hpool : r = (⟨r.1.pool, r.1.stat⟩, 0) := Prod.ext rfl hr
    exact ⟨by decide, by decide, _, r.1.stat, 8, hpool⟩
  · intro i hi j hj hij
    exact absurd ((List.mem_singleton.mp hi).trans (List.mem_singleton.mp hj).symm) hij

/-- Both pages are taken, and the one at the base is released. -/
def pgBaseReleased : List PgUse := [.alloc, .alloc, .free 0x1000]

theorem pgBaseReleased_reachable {s : PgHeld}
    (hs : System.stepAll (pgUse 3) pgHeldTwo pgBaseReleased = some s) :
    (pgUseSystem [0]).Reachable (PgUseOk [0]) s := by
  have hlive : ((pgUse 3 pgHeldTwo .alloc).bind fun s => pgUse 3 s .alloc).map
      (fun s => (s.live 0).map Prod.fst) = some [0x1008, 0x1000] := by decide
  refine System.Reachable.stepAll_of (S := pgUseSystem [0]) (f := pgUse 3) (fun _ _ _ h => ⟨3, h⟩)
    pgBaseReleased (.init pgHeldTwo_configured) ?_ hs
  refine ⟨trivial, fun s₁ h₁ => ⟨trivial, fun s₂ h₂ => ⟨⟨0, List.mem_cons_self, ?_⟩, ?_⟩⟩⟩
  case refine_2 => exact fun _ _ => trivial
  rw [Option.mem_def] at h₁ h₂
  rw [h₁, Option.bind_some, h₂] at hlive
  have hpages : (s₂.live 0).map Prod.fst = [0x1008, 0x1000] := Option.some.inj hlive
  rw [hpages]
  decide

theorem page_alloc_avail_released : ∃ s,
    System.stepAll (pgUse 3) pgHeldTwo pgBaseReleased = some s ∧ PgAvail [0] s := by
  have hsome : (System.stepAll (pgUse 3) pgHeldTwo pgBaseReleased).isSome = true := by decide
  obtain ⟨s, hs⟩ := Option.isSome_iff_exists.mp hsome
  exact ⟨s, hs, page_alloc_avail (pgBaseReleased_reachable hs)⟩

/-- **The page at the base** counts as unallocated, and `page_alloc` returns none. -/
theorem page_alloc_base_lost : ¬ ∀ s, (pgUseSystem [0]).Reachable (PgUseOk [0]) s → ∀ fuel st,
    pageAlloc fuel s.map = some st → st.page = none → ∀ i ∈ [0],
      mmUnallocatedBlocks (s.map.node i).pool = 0 := by
  intro hall
  have hrun : (System.stepAll (pgUse 3) pgHeldTwo pgBaseReleased).bind (fun s =>
      (pageAlloc 3 s.map).map fun st => (st.page, mmUnallocatedBlocks (s.map.node 0).pool)) =
        some (none, 1) := by decide
  obtain ⟨s, hs, hcall⟩ := Option.bind_eq_some_iff.mp hrun
  obtain ⟨st, hst, heq⟩ := Option.map_eq_some_iff.mp hcall
  obtain ⟨hpage, hone⟩ := Prod.mk.inj heq
  have hzero := hall s (pgBaseReleased_reachable hs) 3 st hst hpage 0 List.mem_cons_self
  exact absurd (hone.symm.trans hzero) (by decide)

end FlightOs
