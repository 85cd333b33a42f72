/-
# The page tables of the reference MMU: `srmmu.h` and `arch/sparc/mm/srmmu.c`

Three levels of tables map 32-bit virtual addresses.  An entry is a word: zero when invalid, a
descriptor that points to a table of the next level, or an entry proper that holds a physical
page.  The tables live in memory, and so do the two words that the code keeps next to each table
of level 2 and 3: a marker that remembers how far the table lies above the start of its buffer,
and a count of the entries in use.

The memory is one function from addresses to words, so that a store next to a table reaches
whatever lies there.  The allocator of a context is outside this code: its answers to the coming
calls are part of the state, zero being `NULL`, and `heap` holds the buffers that it handed out
and has not got back.  The addresses given to `free_page` are collected in `pages`.

`BUG()` stops the machine, and so does a read through a null context.  Running out of fuel stands
for a loop that does not end; only that of level 1 can.
Cache and TLB maintenance and the debug output are left out; nothing in the model reads them.
-/
import FlightOs.Errno
import FlightOs.Lib.Loop

namespace FlightOs

/-! ## 1. Entries -/

def srmmuSizeTblLvl2 : Nat := 64
def srmmuSizeTblLvl3 : Nat := 64

/-- `SRMMU_TBL_LVL_2_ALIGN`, a size in bytes. -/
def srmmuTblLvl2Align : Nat := 256
/-- `SRMMU_TBL_LVL_3_ALIGN`, a size in bytes. -/
def srmmuTblLvl3Align : Nat := 256

def srmmuSmallPageSize : Nat := 4096
def srmmuMediumPageSize : Nat := 262144
def srmmuLargePageSize : Nat := 16777216

def srmmuLvl1GetTblOffset (addr : Nat) : Nat := addr / 2 ^ 24 % 256
def srmmuLvl2GetTblOffset (addr : Nat) : Nat := addr / 2 ^ 18 % 64
def srmmuLvl3GetTblOffset (addr : Nat) : Nat := addr / 2 ^ 12 % 64

def srmmuPtd (addr : Nat) : Nat := wclr (addr / 2 ^ 4) 2 ||| 1
def srmmuPte (addr flags : Nat) : Nat := wclr (addr / 2 ^ 4) 8 ||| 2 ||| flags
def srmmuPtdToAddr (ptd : Nat) : Nat := wshl (wclr ptd 2) 4
def srmmuPteToAddr (pte : Nat) : Nat := wshl (wclr pte 8) 4

/-- `pte & SRMMU_ENTRY_TYPE_PT_ENTRY` -/
def isPtEntry (pte : Nat) : Bool := pte.testBit 1

/-! ## 2. Memory -/

/-- Why a call does not return. -/
inductive Halt
  | bug
  | trap
  | fuel
deriving DecidableEq

structure Srmmu where
  mem : Nat → Nat
  answers : List Nat
  heap : List (Nat × Nat)
  pages : List Nat

/-- A store of a word. -/
def Srmmu.write (s : Srmmu) (addr v : Nat) : Srmmu :=
  { s with mem := Function.update s.mem addr v }

/-- `ctx->alloc(size)` -/
def Srmmu.alloc (s : Srmmu) (size : Nat) : Srmmu × Nat :=
  match s.answers with
  | [] => (s, 0)
  | a :: as =>
    ({ s with answers := as, heap := if a = 0 then s.heap else (a, size) :: s.heap }, a)

/-- `ctx->free(addr)` -/
def Srmmu.free (s : Srmmu) (addr : Nat) : Srmmu :=
  { s with heap := s.heap.filter (fun b => b.1 ≠ addr) }

/-- `free_page(addr)` -/
def Srmmu.freePage (s : Srmmu) (addr : Nat) : Srmmu := { s with pages := s.pages ++ [addr] }

/-- `&tbl[i]` -/
def entryAddr (tbl i : Nat) : Nat := wadd tbl (4 * i)

/-- `tbl[i].pte` -/
def Srmmu.entry (s : Srmmu) (tbl i : Nat) : Nat := s.mem (entryAddr tbl i)

/-! ## 3. The words next to a table -/

def magicMarker : Nat := wclr 0xdeadda7a 10
def magic (offset : Nat) : Nat := offset % 1024 ||| magicMarker
def offsetFromMagic (x : Nat) : Nat := x % 1024
def isMagic (x : Nat) : Bool := wclr x 10 == magicMarker

def magicWords : Nat := 2

/-- Where the marker of a table lies; the count is in the word below it, or above it. -/
inductive Marker
  | below
  | above
  | missing

/-- The two tests for a marker, at `tbl[-1]` and at `tbl[tbl_size]`. -/
def mmuMarker (s : Srmmu) (tbl tblSize : Nat) : Marker :=
  if isMagic (s.mem (wsub tbl 4)) then .below
  else if isMagic (s.entry tbl tblSize) then .above
  else .missing

/-- The address of the count. -/
def mmuRefSlot (s : Srmmu) (tbl tblSize : Nat) : Except Halt Nat :=
  match mmuMarker s tbl tblSize with
  | .below => .ok (wsub tbl 8)
  | .above => .ok (entryAddr tbl (tblSize + 1))
  | .missing => .error .bug

def mmuIncRefCnt (s : Srmmu) (tbl tblSize : Nat) : Except Halt (Srmmu × Nat) :=
  match mmuRefSlot s tbl tblSize with
  | .error e => .error e
  | .ok ptd =>
    let cnt := wadd (s.mem ptd) 1
    .ok (s.write ptd cnt, cnt)

def mmuDecRefCnt (s : Srmmu) (tbl tblSize : Nat) : Except Halt (Srmmu × Nat) :=
  match mmuRefSlot s tbl tblSize with
  | .error e => .error e
  | .ok ptd =>
    let cnt := s.mem ptd
    if cnt = 0 then .error .bug
    else .ok (s.write ptd (cnt - 1), cnt - 1)

/-- The address of a new table, or zero. -/
def mmuAllocTbl (s : Srmmu) (tblSize : Nat) : Srmmu × Nat :=
  match s.alloc (2 * tblSize) with
  | (s, ptde) =>
    if ptde = 0 then (s, 0)
    else
      let tbl := walign ptde tblSize
      let offset := wsub tbl ptde
      -- `offset` is an `int`
      if magicWords < offset ∧ offset < 2 ^ 31 then
        ((s.write (wsub tbl 4) (magic offset)).write (wsub tbl 8) 0, tbl)
      else
        ((s.write (entryAddr tbl tblSize) (magic 0)).write (entryAddr tbl (tblSize + 1)) 0, tbl)

def mmuFreeTbl (s : Srmmu) (tbl tblSize : Nat) : Except Halt Srmmu :=
  match mmuMarker s tbl tblSize with
  | .below => .ok (s.free (wsub tbl (offsetFromMagic (s.mem (wsub tbl 4)))))
  | .above => .ok (s.free (wsub tbl (offsetFromMagic (s.entry tbl tblSize))))
  | .missing => .error .bug

/-- The loops of `mmu_set_lvl2_tbl_invalid` and `mmu_set_lvl3_tbl_invalid`. -/
def mmuSetTblInvalid (s : Srmmu) (tbl : Nat) : Nat → Srmmu
  | 0 => s
  | n + 1 => (mmuSetTblInvalid s tbl n).write (entryAddr tbl n) 0

/-! ## 4. Finding and making tables

A context is known by the address of its level 1 table. -/

/-- The address of the level 2 table for an address, or zero. -/
def mmuFindTblLvl2 (s : Srmmu) (lvl1 va : Nat) : Nat :=
  let pte := s.entry lvl1 (srmmuLvl1GetTblOffset va)
  if isPtEntry pte then 0
  else if pte = 0 then 0
  else srmmuPtdToAddr pte

/-- The address of the level 3 table for an address, or zero. -/
def mmuFindTblLvl3 (s : Srmmu) (lvl1 va : Nat) : Nat :=
  let lvl2 := mmuFindTblLvl2 s lvl1 va
  if lvl2 = 0 then 0
  else
    let pte := s.entry lvl2 (srmmuLvl2GetTblOffset va)
    if isPtEntry pte then 0
    else if pte = 0 then 0
    else srmmuPtdToAddr pte

/-- Zero, or a negated error number. -/
def mmuNeedLvl2Tbl (s : Srmmu) (lvl1 va : Nat) : Srmmu × Int :=
  let pte := s.entry lvl1 (srmmuLvl1GetTblOffset va)
  if isPtEntry pte then (s, -(EINVAL : Int))
  else if pte ≠ 0 then (s, 0)
  else
    match mmuAllocTbl s srmmuTblLvl2Align with
    | (s, ptde) =>
      if ptde = 0 then (s, -(ENOMEM : Int))
      else
        let s := mmuSetTblInvalid s ptde srmmuSizeTblLvl2
        (s.write (entryAddr lvl1 (srmmuLvl1GetTblOffset va)) (srmmuPtd ptde), 0)

/-- The part of `mmu_need_lvl3_tbl` after the level 2 table is there. -/
def mmuMakeLvl3Tbl (s : Srmmu) (lvl2 va : Nat) : Except Halt (Srmmu × Int) :=
  match mmuAllocTbl s srmmuTblLvl3Align with
  | (s, lvl3) =>
    if lvl3 = 0 then .ok (s, -(ENOMEM : Int))
    else
      let s := mmuSetTblInvalid s lvl3 srmmuSizeTblLvl3
      let s := s.write (entryAddr lvl2 (srmmuLvl2GetTblOffset va)) (srmmuPtd lvl3)
      match mmuIncRefCnt s lvl2 srmmuTblLvl2Align with
      | .error e => .error e
      | .ok (s, _) => .ok (s, 0)

/-- Zero, or a negated error number. -/
def mmuNeedLvl3Tbl (s : Srmmu) (lvl1 va : Nat) : Except Halt (Srmmu × Int) :=
  if mmuFindTblLvl3 s lvl1 va ≠ 0 then .ok (s, 0)
  else
    let lvl2 := mmuFindTblLvl2 s lvl1 va
    if lvl2 ≠ 0 then mmuMakeLvl3Tbl s lvl2 va
    else
      match mmuNeedLvl2Tbl s lvl1 va with
      | (s, ret) =>
        if ret ≠ 0 then .ok (s, ret) else mmuMakeLvl3Tbl s (mmuFindTblLvl2 s lvl1 va) va

/-! ## 5. Mapping -/

/-- The registered contexts: numbers, with the address of the level 1 table. -/
structure MmuCtxs where
  num : Nat
  used : List (Nat × Nat)
  free : List (Nat × Nat)

/-- The level 1 table of a context, or `none` for `NULL`. -/
def mmuFindCtx (c : MmuCtxs) (ctxNum : Nat) : Option Nat :=
  if c.num < ctxNum then none
  else ((c.used ++ c.free).find? (fun p => p.1 == ctxNum)).map Prod.snd

/-- `srmmu_do_large_mapping`, once the context is found. -/
def mapLarge (s : Srmmu) (lvl1 va pa perm : Nat) : Srmmu :=
  s.write (entryAddr lvl1 (srmmuLvl1GetTblOffset va)) (srmmuPte pa perm)

/-- Zero, or a negated error number. -/
def srmmuDoLargeMapping (s : Srmmu) (c : MmuCtxs) (ctxNum va pa perm : Nat) : Srmmu × Int :=
  if c.num < ctxNum then (s, -(EINVAL : Int))
  else
    match mmuFindCtx c ctxNum with
    | none => (s, -(ENOMEM : Int))
    | some lvl1 => (mapLarge s lvl1 va pa perm, 0)

/-- `srmmu_do_small_mapping`, once the context is found: zero, or a negated error number. -/
def mapSmall (s : Srmmu) (lvl1 va pa perm : Nat) : Except Halt (Srmmu × Int) :=
  match mmuNeedLvl3Tbl s lvl1 va with
  | .error e => .error e
  | .ok (s, ret) =>
    if ret ≠ 0 then .ok (s, ret)
    else
      let lvl3 := mmuFindTblLvl3 s lvl1 va
      let s := s.write (entryAddr lvl3 (srmmuLvl3GetTblOffset va)) (srmmuPte pa perm)
      match mmuIncRefCnt s lvl3 srmmuTblLvl3Align with
      | .error e => .error e
      | .ok (s, _) => .ok (s, 0)

/-- Zero, or a negated error number. -/
def srmmuDoSmallMapping (s : Srmmu) (c : MmuCtxs) (ctxNum va pa perm : Nat) :
    Except Halt (Srmmu × Int) :=
  if c.num < ctxNum then .ok (s, -(EINVAL : Int))
  else
    match mmuFindCtx c ctxNum with
    | none => .ok (s, -(ENOMEM : Int))
    | some lvl1 => mapSmall s lvl1 va pa perm

/-- The physical page of an address in a context's tables, or zero. -/
def getPaPage (s : Srmmu) (lvl1 va : Nat) : Nat :=
  let lvl3 := mmuFindTblLvl3 s lvl1 va
  if lvl3 = 0 then 0 else srmmuPteToAddr (s.entry lvl3 (srmmuLvl3GetTblOffset va))

def srmmuGetPaPage (s : Srmmu) (c : MmuCtxs) (ctxNum va : Nat) : Except Halt Nat :=
  match mmuFindCtx c ctxNum with
  | none => .error .trap
  | some lvl1 => .ok (getPaPage s lvl1 va)

/-! ## 6. Release

Each loop has a definition for its round, on the state and `va`.  The result of the loops of level
2 and 3 says whether the table still exists. -/

def releaseLvl3Round (lvl3 vaEnd : Nat) : Srmmu × Nat → Except Halt (Round (Srmmu × Nat) (Srmmu × Bool))
  | (s, va) =>
    if vaEnd ≤ va then .ok (.done (s, true))
    else
      let page := srmmuLvl3GetTblOffset va
      let pte := s.entry lvl3 page
      let next := wadd va srmmuSmallPageSize
      if pte = 0 then .ok (.next (s, next))
      else if isPtEntry pte then
        let s := s.freePage (srmmuPteToAddr pte)
        let s := s.write (entryAddr lvl3 page) 0
        match mmuDecRefCnt s lvl3 srmmuTblLvl3Align with
        | .error e => .error e
        | .ok (s, cnt) =>
          if cnt = 0 then
            match mmuFreeTbl s lvl3 srmmuTblLvl3Align with
            | .error e => .error e
            | .ok s => .ok (.done (s, false))
          else .ok (.next (s, next))
      else .ok (.next (s, next))

def srmmuReleaseLvl3Pages (s : Srmmu) (lvl1 va vaEnd : Nat) : Except Halt (Srmmu × Bool) :=
  let lvl3 := mmuFindTblLvl3 s lvl1 va
  if lvl3 = 0 then .ok (s, false)
  else
    let lim := walign (wadd va 1) srmmuMediumPageSize
    loop .fuel (releaseLvl3Round lvl3 (if lim < vaEnd then lim else vaEnd)) (srmmuSizeTblLvl3 + 1)
      (s, va)

/-- `ALIGN(va - span + 1, span)` -/
def realign (va span : Nat) : Nat := walign (wadd (wsub va span) 1) span

/-- The part of the round after a level 3 table was released. -/
def releaseLvl2Unlink (s : Srmmu) (lvl2 page next : Nat) :
    Except Halt (Round (Srmmu × Nat) (Srmmu × Bool)) :=
  let s := s.write (entryAddr lvl2 page) 0
  match mmuDecRefCnt s lvl2 srmmuTblLvl2Align with
  | .error e => .error e
  | .ok (s, cnt) =>
    if cnt = 0 then
      match mmuFreeTbl s lvl2 srmmuTblLvl2Align with
      | .error e => .error e
      | .ok s => .ok (.done (s, false))
    else .ok (.next (s, next))

def releaseLvl2Round (lvl1 lvl2 vaEnd : Nat) :
    Srmmu × Nat → Except Halt (Round (Srmmu × Nat) (Srmmu × Bool))
  | (s, va) =>
    if vaEnd ≤ va then .ok (.done (s, true))
    else
      let page := srmmuLvl2GetTblOffset va
      let next := wadd (realign va srmmuMediumPageSize) srmmuMediumPageSize
      if s.entry lvl2 page = 0 then .ok (.next (s, wadd va srmmuMediumPageSize))
      else
        match srmmuReleaseLvl3Pages s lvl1 va vaEnd with
        | .error e => .error e
        | .ok (s, true) => .ok (.next (s, next))
        | .ok (s, false) => releaseLvl2Unlink s lvl2 page next

def srmmuReleaseLvl2Pages (s : Srmmu) (lvl1 va vaEnd : Nat) : Except Halt (Srmmu × Bool) :=
  let lvl2 := mmuFindTblLvl2 s lvl1 va
  if lvl2 = 0 then .ok (s, false)
  else
    let lim := walign (wadd va 1) srmmuLargePageSize
    loop .fuel (releaseLvl2Round lvl1 lvl2 (if lim < vaEnd then lim else vaEnd))
      (srmmuSizeTblLvl2 + 1) (s, va)

def releaseLvl1Round (lvl1 vaEnd : Nat) : Srmmu × Nat → Except Halt (Round (Srmmu × Nat) Srmmu)
  | (s, va) =>
    if vaEnd ≤ va then .ok (.done s)
    else
      let page := srmmuLvl1GetTblOffset va
      let pte := s.entry lvl1 page
      let next := wadd (realign va srmmuLargePageSize) srmmuLargePageSize
      if isPtEntry pte then
        let s := s.freePage (srmmuPteToAddr pte)
        let s := s.write (entryAddr lvl1 page) 0
        .ok (.next (s, wadd va srmmuLargePageSize))
      else if pte = 0 then .ok (.next (s, wadd va srmmuLargePageSize))
      else
        match srmmuReleaseLvl2Pages s lvl1 va vaEnd with
        | .error e => .error e
        | .ok (s, true) => .ok (.next (s, next))
        | .ok (s, false) => .ok (.next (s.write (entryAddr lvl1 page) 0, next))

/-- The loop of `srmmu_release_lvl1_pages` need not end, so the fuel is a parameter. -/
def srmmuReleaseLvl1Pages (fuel : Nat) (s : Srmmu) (lvl1 va vaEnd : Nat) : Except Halt Srmmu :=
  loop .fuel (releaseLvl1Round lvl1 vaEnd) fuel (s, va)

def srmmuReleasePages (fuel : Nat) (s : Srmmu) (c : MmuCtxs) (ctxNum va vaEnd : Nat) :
    Except Halt Srmmu :=
  if vaEnd ≤ va then .ok s
  else
    match mmuFindCtx c ctxNum with
    | none => .error .trap
    | some lvl1 => srmmuReleaseLvl1Pages fuel s lvl1 va vaEnd

end FlightOs
