/-
# Loading the sections of an ELF file

The structures of `elf_loader.h`, `setup_elf_binary`, and the parts of `module_load_mem` and
`application_load_mem`, which are copies of each other but for where the image is and where the bytes
of a section go.

* The heap is its blocks (`BlockHeap`); `place` says at which address a block is.  A null pointer is
  `none`.
* The bytes that are copied or cleared are a list of writes, in order.  What is written to the blocks
  of the heap that hold the table of sections, its names and the common objects is not followed; nor
  is the terminating zero of a name, which `strcpy` writes one byte behind its block.
* `none` in the table of sections is an entry that was never written: `krealloc` does not clear what it
  adds.  The name in such an entry is whatever lies there.

The file is not among the memory that is written: it is read as it was.
-/
import FlightOs.Elf.File
import FlightOs.Errno
import FlightOs.Lib.BlockHeap
import FlightOs.Lib.Packing

namespace FlightOs

/-! ## 1. Binaries -/

/-- A section in memory; its name is a block with the string. -/
structure ElfSection where
  name : Option (Nat × List UInt8)
  addr : Nat
  size : Nat
  deriving DecidableEq, Repr

/-- An entry of a table that was cleared. -/
def ElfSection.zero : ElfSection := ⟨none, 0, 0⟩

structure ElfBinary where
  pa : Nat
  va : Nat
  base : Option Nat
  init : Option Nat
  exit : Option Nat
  align : Nat
  size : Nat
  /-- the block that the table of sections is in -/
  sec : Option Nat
  /-- the `num_sec` entries of the table -/
  secs : List (Option ElfSection)
  deriving DecidableEq, Repr

/-- `m` with another table of sections. -/
def ElfBinary.withTable (m : ElfBinary) (sec : Nat) (secs : List (Option ElfSection)) : ElfBinary :=
  { m with sec := some sec, secs := secs }

/-- `m` without its table of sections. -/
def ElfBinary.withoutTable (m : ElfBinary) : ElfBinary := { m with sec := none }

/-- `m` with other entries in its table. -/
def ElfBinary.withSecs (m : ElfBinary) (secs : List (Option ElfSection)) : ElfBinary :=
  { m with secs := secs }

/-- `m` with an entry of its table written. -/
def ElfBinary.setSection (m : ElfBinary) (k : Nat) (e : ElfSection) : ElfBinary :=
  m.withSecs (m.secs.set k (some e))

/-- What `setup_elf_binary` begins with. -/
def ElfBinary.start : ElfBinary where
  pa := 0
  va := 0
  base := none
  init := none
  exit := none
  align := 4
  size := 0
  sec := none
  secs := []

def setupElfSection (f : ElfFile) (m : ElfBinary) (i : Nat) : Option ElfBinary :=
  (elfGetSecByIdx f i).map fun shdr =>
    if shdr.alloc then
      { m with
        size := wadd m.size shdr.shSize
        align := if m.align < shdr.shAddralign then shdr.shAddralign else m.align }
    else m

/-- `setup_elf_binary`; `none` is its error. -/
def setupElfBinary (f : ElfFile) : Option ElfBinary :=
  (List.range f.ehdr.eShnum).foldlM (setupElfSection f) .start

/-- The loop of `find_elf_sec`; `none` is a `strcmp` with a name that is not there. -/
def findElfSecIn (name : List UInt8) : List (Option ElfSection) → Option (Option ElfSection)
  | [] => some none
  | e :: es =>
    match e.bind ElfSection.name with
    | none => none
    | some (_, str) => if str = name then some e else findElfSecIn name es

/-- `find_elf_sec` -/
def findElfSec (m : ElfBinary) (name : List UInt8) : Option (Option ElfSection) :=
  findElfSecIn name m.secs

/-- `find_elf_idx` -/
def findElfIdx (m : ElfBinary) (idx : Nat) : Option ElfSection := (m.secs[idx]?).join

/-- `ALIGN_PTR(x, a)` -/
def alignPtr (x a : Nat) : Nat :=
  let y := wadd x (a - 1)
  y - (y &&& (a - 1))

/-! ## 2. Writes -/

/-- Bytes written from an address on. -/
structure ElfWrite where
  dest : Nat
  bytes : List UInt8
  deriving DecidableEq, Repr

def ElfWrite.run (mem : Nat → UInt8) (w : ElfWrite) : Nat → UInt8 :=
  fun x => w.bytes.getD (wsub x w.dest) (mem x)

/-- The memory after the writes. -/
def ElfWrite.runAll (mem : Nat → UInt8) (ws : List ElfWrite) : Nat → UInt8 := ws.foldl ElfWrite.run mem

/-! ## 3. The sections -/

structure LoadState where
  heap : BlockHeap
  bin : ElfBinary
  writes : List ElfWrite

/-- Going on, unless there was a jump to the error label (`false`). -/
def onward (r : LoadState × Bool) (next : LoadState → LoadState × Bool) : LoadState × Bool :=
  match r with
  | (s, false) => (s, false)
  | (s, true) => next s

@[simp] theorem onward_true (s : LoadState) (next : LoadState → LoadState × Bool) :
    onward (s, true) next = next s := rfl

@[simp] theorem onward_false (s : LoadState) (next : LoadState → LoadState × Bool) :
    onward (s, false) next = (s, false) := rfl

/-- What is put where a section goes; the test of the type looks at one bit of it. -/
def sectionBytes (f : ElfFile) (sec : ElfShdr) : List UInt8 :=
  -- `sh_type & SHT_NOBITS`
  if sec.shType.testBit 3 then List.replicate sec.shSize 0
  else (List.range sec.shSize).map fun i => f.byte (sec.shOffset + i)

/-- One turn of the loop over the sections. -/
def loadSection (dest : ElfShdr → Nat → Nat) (f : ElfFile) (idx k va : Nat) (s : LoadState) :
    LoadState × Bool :=
  let sec := f.shdr idx
  match elfGetShstrtabStr f idx with
  | none => (s, false)
  | some src =>
    match s.heap.alloc src.length with
    | (heap, none) => ({ s with heap := heap }, false)
    | (heap, some name) =>
      ({ heap := heap
         bin := s.bin.setSection k ⟨some (name, src), va, sec.shSize⟩
         writes := s.writes ++ [⟨dest sec va, sectionBytes f sec⟩] }, true)

/-- The loop, with its index in the file, the one in the table, and the next address. -/
def loadLoop (dest : ElfShdr → Nat → Nat) (f : ElfFile) :
    Nat → Nat → Nat → Nat → LoadState → LoadState × Bool
  | 0, _, _, _, s => (s, true)
  | fuel + 1, idx, k, va, s =>
    let idx := elfFindShdrAllocIdx f (idx + 1)
    if idx = 0 then (s, true)
    else
      onward (loadSection dest f idx k va s) fun s =>
        if s.bin.secs.length < k + 1 then (s, false)
        else loadLoop dest f fuel idx (k + 1) (wadd va (f.shdr idx).shSize) s

/-- The loop over all sections, from the address of the image on. -/
def loadAll (dest : ElfShdr → Nat → Nat) (f : ElfFile) (s : LoadState) : LoadState × Bool :=
  loadLoop dest f f.ehdr.eShnum 0 0 s.bin.va s

/-! ## 4. The common objects -/

/-- One turn of the loop over the objects. -/
def loadObject (place : Nat → Nat) (k : Nat) (obj : List UInt8) (size : Nat) (s : LoadState) :
    LoadState × Bool :=
  match s.heap.alloc size with
  | (heap, none) => ({ s with heap := heap }, false)
  | (heap, some addr) =>
    match heap.alloc obj.length with
    | (heap, none) => ({ s with heap := heap }, false)
    | (heap, some name) =>
      ({ s with
          heap := heap
          bin := s.bin.setSection k ⟨some (name, obj), place addr, size⟩ }, true)

/-- The loop over the objects. -/
def loadObjects (place : Nat → Nat) (f : ElfFile) :
    Nat → List (List UInt8) → LoadState → LoadState × Bool
  | _, [], s => (s, true)
  | k, obj :: objs, s =>
    onward (loadObject place k obj (elfGetSymbolSize f obj) s) (loadObjects place f (k + 1) objs)

/-- The array of the names, and the objects by it. -/
def loadNamed (place : Nat → Nat) (f : ElfFile) (k : Nat) (objs : List (List UInt8)) (s : LoadState) :
    LoadState × Bool :=
  match s.heap.alloc (4 * objs.length % 2 ^ 32) with
  | (heap, none) => ({ s with heap := heap }, false)
  | (heap, some obj) =>
    onward (loadObjects place f k objs { s with heap := heap }) fun s =>
      ({ s with heap := s.heap.free (some obj) }, true)

/-- The part for the objects; where the table cannot be made larger, the old one is lost. -/
def loadCommon (place : Nat → Nat) (f : ElfFile) (objs : List (List UInt8)) (s : LoadState) :
    LoadState × Bool :=
  if objs = [] then (s, true)
  else
    match s.heap.realloc s.bin.sec (12 * (s.bin.secs.length + objs.length) % 2 ^ 32) with
    | (heap, none) => ({ s with heap := heap, bin := s.bin.withoutTable }, false)
    | (heap, some sec) =>
      loadNamed place f s.bin.secs.length objs
        { s with
          heap := heap
          bin := s.bin.withTable sec (s.bin.secs ++ List.replicate objs.length none) }

/-! ## 5. From the first address on -/

/-- The part from the table of sections on, once `va` and `base` are set. -/
def loadSections (dest : ElfShdr → Nat → Nat) (place : Nat → Nat) (f : ElfFile) (s : LoadState) :
    LoadState × Bool :=
  match s.heap.alloc (12 * elfGetNumAllocSections f) with
  | (heap, none) => ({ s with heap := heap, bin := s.bin.withoutTable }, false)
  | (heap, some sec) =>
    onward
      (loadAll dest f
        { s with
          heap := heap
          bin := s.bin.withTable sec (List.replicate (elfGetNumAllocSections f) (some ElfSection.zero)) })
      (loadCommon place f (elfGetCommonObjects f))

/-- `kfree(m->sec[i].name)` -/
def freeName (h : BlockHeap) : Option ElfSection → BlockHeap
  | none => h.fail
  | some e => h.free (e.name.map Prod.fst)

/-- What the error label and the unload functions do: the names, the table and the image are freed. -/
def freeBinary (h : BlockHeap) (m : ElfBinary) : BlockHeap :=
  let h := if m.sec.isSome then m.secs.foldl (fun h e => freeName (h.use m.sec) e) h else h
  (h.free m.sec).free m.base

/-- Behind the error label. -/
def loadReturn : LoadState × Bool → LoadState × Int
  | (s, true) => (s, 0)
  | (s, false) => ({ s with heap := freeBinary s.heap s.bin }, -ENOMEM)

/-! ## 6. The two loaders -/

/-- A section of a module is put where its address says. -/
def moduleDest (_ : ElfShdr) (va : Nat) : Nat := va

/-- A section of an application is put where the file says. -/
def applicationDest (sec : ElfShdr) (_ : Nat) : Nat := sec.shAddr

/-- `m` with an image. -/
def ElfBinary.withImage (m : ElfBinary) (base : Option Nat) (va : Nat) : ElfBinary :=
  { m with base := base, va := va, pa := va }

/-- The block for the image, and the address in it. -/
def loadBase (place : Nat → Nat) (s : LoadState) : LoadState × Bool :=
  match s.heap.alloc (wadd s.bin.size s.bin.align) with
  | (heap, none) => ({ s with heap := heap, bin := { s.bin with base := none } }, false)
  | (heap, some base) =>
    ({ s with heap := heap, bin := s.bin.withImage base (alignPtr (place base) s.bin.align) }, true)

/-- `module_load_mem` -/
def moduleLoadMem (place : Nat → Nat) (f : ElfFile) (s : LoadState) : LoadState × Int :=
  loadReturn (onward (loadBase place s) (loadSections moduleDest place f))

/-- `application_load_mem` -/
def applicationLoadMem (place : Nat → Nat) (f : ElfFile) (s : LoadState) : LoadState × Int :=
  loadReturn
    (if f.ehdr.eType = etRel then onward (loadBase place s) (loadSections applicationDest place f)
    else if f.ehdr.eType = etExec then
      loadSections applicationDest place f { s with bin := s.bin.withImage s.bin.base f.ehdr.eEntry }
    else (s, false))

end FlightOs
