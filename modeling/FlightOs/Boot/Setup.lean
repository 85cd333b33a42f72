/-
# Setting up the boot memory: `arch/sparc/kernel/bootmem.c`

`bootmem_init` looks for the bank that the image lies in, and makes the first node of the page map of
it.  What comes before the end of the image is reserved.  Every other bank gets a node that lies in boot
memory, which is a chunk pool (`Chunk/Pool.lean`) over the nodes that are there already.

* A node is named by its place in the array.  The list of the nodes is the array up to its null entry,
  so the null entry is there as long as the list is not longer than `INIT_PAGE_MAP_MAX_ENTRIES`.
* `bug` is a `BUG`, or a null pointer that is followed.  `bootmem_alloc` has a BUG of its own, for want
  of memory: `outOfMemory`.  Where all nodes refuse, the source asks the node that is about to be set up
  as well, with what the memory holds for a pool.
* What the storage holds at first is arbitrary: that of the page map, and that of the chunk pool.

The addresses that are taken of the page map are noted by their nodes (`PgHeld`); nothing reads them.
-/
import FlightOs.Chunk.Bootmem
import FlightOs.Mmu.Break
import FlightOs.Page.Avail

namespace FlightOs

/-! ## 1. The configuration -/

/-- `struct sparc_physical_bank` -/
structure PhysBank where
  baseAddr : Nat
  numBytes : Nat
deriving DecidableEq

/-- The configuration of the kernel, the bounds of its image and the banks of the machine. -/
structure BootConfig where
  initPageMapMaxEntries : Nat
  mmBlockOrderMin : Nat
  mmBlockOrderMax : Nat
  /-- `CONFIG_SPARC_BOOTMEM_REQUEST_NEW_ON_DEMAND` -/
  requestNewOnDemand : Bool
  /-- `_start` -/
  imgStart : Nat
  /-- `_end` -/
  imgEnd : Nat
  spBanks : List PhysBank

/-- The storage of the page map and of the chunk pool. -/
structure BootStorage where
  map : PageMap
  hdr : Nat → ChunkHdr
  links : Links ChunkNode

/-- The page map and what is taken of it, the chunk pool, and `blocked` of `bootmem_alloc_internal`. -/
structure BootState where
  held : PgHeld
  phys : ChunkState
  blocked : Bool

inductive BootResult
  | done (s : BootState)
  | bug
  | outOfMemory

def sizeofPageMapNode : Nat := 20

def sizeofMmPool : Nat := 32

def sizeofListHead : Nat := 8

/-- `MM_BITMAP_LEN` -/
def mmBitmapLen (orderMax orderMin : Nat) : Nat := (mmNumBlocksTrackable orderMax orderMin + 31) / 32 + 1

/-! ## 2. Boot memory -/

/-- `bootmem_alloc`.  The page map is asked with what `chunk_alloc` needs for a new chunk; the pool has
a record of it if it has called `bootmem_alloc_internal`. -/
def bootAlloc (c : BootConfig) (s : BootState) (size : Nat) : BootResult :=
  if size = 0 then .done s
  else
    let want := chunkAllocSz s.phys.pool size
    match pageMapReserveChunk s.held.map want with
    | none => .bug
    | some st =>
      let region := if s.blocked then 0 else st.page.getD 0
      match pageMapGetChunkSize ((st.map.pageMem.getD []).length + 1) st.map region with
      | none => .bug
      | some real =>
        match chunkAlloc s.phys.pool size region real with
        | none => .bug
        | some (pool, ptr) =>
          let phys := ⟨pool, addBlock s.phys.live ptr size⟩
          if ptr = 0 then .outOfMemory
          else if pool.tier = s.phys.pool.tier then .done { s with phys }
          else .done ⟨s.held.take st fun _ => want, phys, s.blocked || !c.requestNewOnDemand⟩

def bootAllocAll (c : BootConfig) : List Nat → BootState → BootResult
  | [], s => .done s
  | size :: sizes, s =>
    match bootAlloc c s size with
    | .done s => bootAllocAll c sizes s
    | r => r

/-- What `bootmem_init_page_map_node` allocates: the node, its pool, and the three stores of the
pool. -/
def bootNodeSizes (c : BootConfig) : List Nat :=
  [sizeofPageMapNode, sizeofMmPool, sizeofListHead * (c.mmBlockOrderMax + 1),
    mmNumBlocksTrackable c.mmBlockOrderMax c.mmBlockOrderMin,
    mmBitmapLen c.mmBlockOrderMax c.mmBlockOrderMin * 4]

/-- A node at the end of the array, with a pool that is zero; the stores of the pool are not. -/
def PageMap.store (s : PageMap) (node : Nat) : PageMap :=
  let pool := { (s.node node).pool with base := 0, maxOrder := 0, minOrder := 0, nBlks := 0, allocBlks := 0 }
  { s with
    pageMem := s.pageMem.map fun pg => pg ++ [node]
    node := Function.update s.node node { s.node node with pool } }

def bootmemInitPageMapNode (c : BootConfig) (node : Nat) (s : BootState) : BootResult :=
  match bootAllocAll c (bootNodeSizes c) s with
  | .done s => .done { s with held := { s.held with map := s.held.map.store node } }
  | r => r

/-! ## 3. The banks -/

/-- The loop that looks for the bank with an address. -/
def bootFindBank (startPfn : Nat) : List PhysBank → Option PhysBank
  | [] => none
  | b :: bs =>
    if b.numBytes = 0 then none
    else if startPfn < b.baseAddr then bootFindBank startPfn bs
    else if startPfn < wadd b.baseAddr b.numBytes then some b
    else bootFindBank startPfn bs

/-- The loop that adds the remaining memory banks, with the next place in the array. -/
def bootAddBanks (c : BootConfig) (basePfn : Nat) : List PhysBank → Nat → BootState → BootResult
  | [], _, s => .done s
  | b :: bs, node, s =>
    -- this one has already been added
    if basePfn = b.baseAddr then bootAddBanks c basePfn bs node s
    -- `MEM_PAGE_NODE` takes the place of the null entry for one that can be used
    else if c.initPageMapMaxEntries < node then .done s
    else
      match bootmemInitPageMapNode c node s with
      | .done s =>
        match pageMapAdd s.held.map b.baseAddr (wadd b.baseAddr b.numBytes) pageSize with
        | none => .bug
        | some (map, ret) =>
          if ret = -(ENOMEM : Int) then .bug
          else bootAddBanks c basePfn bs (node + 1) { s with held := { s.held with map } }
      | r => r

/-- The first node, and the reservation of the image: `base_pfn` and the state. -/
def bootSetupImage (c : BootConfig) (m : BootStorage) : Option (Nat × BootState) :=
  let startImgPfn := pageAlign c.imgStart
  let startPfn := pageAlign c.imgEnd
  match bootFindBank startPfn c.spBanks with
  | none => none
  | some b =>
    let basePfn := if startImgPfn ≠ b.baseAddr then b.baseAddr else startImgPfn
    let endPfn := wadd b.baseAddr b.numBytes
    if wshl 1 c.mmBlockOrderMax < wsub endPfn basePfn then none
    else if pageSize < wshl 1 c.mmBlockOrderMin then none
    else
      match pageMapInit m.map [0] basePfn endPfn pageSize with
      | (map, ret) =>
        if ret ≠ 0 then none
        else
          let size := wsub startPfn basePfn
          match pageMapReserveChunk map size with
          | none => none
          | some st =>
            if st.page = none then none
            else
              let held := (⟨map, fun _ => []⟩ : PgHeld).take st fun _ => size
              some (basePfn, ⟨held, bootmemPool m.hdr m.links, false⟩)

/-- `bootmem_init` -/
def bootmemInit (c : BootConfig) (m : BootStorage) : BootResult :=
  match bootSetupImage c m with
  | none => .bug
  | some (basePfn, s) => bootAddBanks c basePfn c.spBanks 1 s

end FlightOs
