/-
# Unaligned memory accesses

The trap handler (`arch/sparc/kernel/unaligned_memory_access.c`) carries out the load or store the
CPU refuses.  The registers of the interrupted code are in memory: the globals and outs in the trap
frame, and the locals and ins, once the windows are flushed, in the stack frame of the interrupted
window.

This module has the code, and beside it what the instruction does to a CPU whose registers are not
in memory (`Cpu.exec`).  `Mna.Contract` compares the two.
-/
import FlightOs.Lib.Bytes

namespace FlightOs

/-! ## 1. The trap handler -/

/-- What the handler reads and writes: the memory, the locals and ins of the interrupted window in
the register file, and the statistics. -/
structure MnaState where
  mem : ByteMem 32
  window : Nat → BitVec 32
  mnaCnt : BitVec 32
  mnaPcLast : BitVec 32
  mnaAddrLast : BitVec 32

def ptregSz : BitVec 32 := 80
def uregFp : BitVec 32 := 14

/-- `&regs->psr`, `&regs->pc`, `&regs->npc`, `&regs->y` and `regs->u_regs` in `struct pt_regs`. -/
def ptPsr (regs : BitVec 32) : BitVec 32 := regs + 0
def ptPc (regs : BitVec 32) : BitVec 32 := regs + 4
def ptNpc (regs : BitVec 32) : BitVec 32 := regs + 8
def ptY (regs : BitVec 32) : BitVec 32 := regs + 12
def ptURegs (regs : BitVec 32) : BitVec 32 := regs + 16

/-- The windows are stored at their stack pointers.  That of the interrupted window is the end of
the trap frame, which `trap_setup` puts right below it; the other windows are not modelled. -/
def leonRegWinFlush (s : MnaState) (regs : BitVec 32) : MnaState :=
  { s with mem := s.mem.put (regs + ptregSz) (fun i => byteOf (s.window (i / 4)) (i % 4)) 64 }

def mnaCanHandle (insn : BitVec 32) : Int :=
  let op3 := (insn &&& 0x01F80000) >>> 19
  if op3 &&& 0x20 ≠ 0 then -1
  else if op3 = 0xf then -1
  else if op3 = 0x1f then -1
  else if op3 &&& 0x4 ≠ 0 then 0
  else 1

def mnaGetAccessSize (insn : BitVec 32) : Nat :=
  let insn := (insn &&& 0x00180000) >>> 19
  if insn = 0 then 4
  else if insn = 2 then 2
  else 8

/-- The offsets into the stack frame are those of `struct sparc_stackf`: the locals at 0, the ins at
`0x20`, `fp` at `0x38` and `callers_pc` at `0x3c`. -/
def getRegAddr (m : ByteMem 32) (regs : BitVec 32) (reg : Int) : BitVec 32 :=
  if reg = 0 then 0
  else if reg < 0xf then ptURegs regs + BitVec.ofInt 32 (4 * reg)
  else
    let sf := m.word (ptURegs regs + 4 * uregFp)
    let reg := reg - 16
    if reg < 8 then sf + BitVec.ofInt 32 (4 * reg)
    else
      let reg := reg - 8
      if reg < 6 then sf + 0x20 + BitVec.ofInt 32 (4 * reg)
      else if reg = 6 then m.word (sf + 0x38)
      else m.word (sf + 0x3c)

def getRegValue (m : ByteMem 32) (regs : BitVec 32) (reg : Int) : BitVec 32 :=
  let addr := getRegAddr m regs reg
  if addr = 0 then 0 else m.word addr

/-- The register numbers in the instruction, as the code takes them from it. -/
def mnaRd (insn : BitVec 32) : Nat := ((insn &&& 0x03E000000) >>> 25).toNat
def mnaRs1 (insn : BitVec 32) : Nat := ((insn &&& 0x00007C000) >>> 14).toNat
def mnaRs2 (insn : BitVec 32) : Nat := (insn &&& 0x0000201F).toNat

def mnaGetAddr (s : MnaState) (regs insn : BitVec 32) : BitVec 32 × MnaState :=
  let i := (insn &&& 0x00002000) >>> 13
  let rd := mnaRd insn
  let rs1 := mnaRs1 insn
  let rs2 := if i ≠ 0 then 0 else mnaRs2 insn
  let simm13 := ((insn &&& 0x00001FFF) <<< 19).sshiftRight 19
  let s := if 0xF < rd ∨ 0xF < rs1 ∨ 0xF < rs2 then leonRegWinFlush s regs else s
  if i ≠ 0 then (getRegValue s.mem regs rs1 + simm13, s)
  else (getRegValue s.mem regs rs1 + getRegValue s.mem regs rs2, s)

/-- A half-word is extended in a variable of the handler, and copied from there. -/
def mnaLoad (m : ByteMem 32) (dst src : BitVec 32) (size : Nat) (sign : BitVec 32) : ByteMem 32 :=
  if size = 2 then
    let hw := ((m src).setWidth 32 <<< 8) ||| (m (src + 1)).setWidth 32
    let hw := if sign ≠ 0 then (hw <<< 16).sshiftRight 16 else hw
    m.fill dst (byteOf hw) 4
  else m.copy dst src size

def mnaStore (m : ByteMem 32) (dst src : BitVec 32) (size : Nat) : ByteMem 32 :=
  m.copy dst (if size = 2 then src + 2 else src) size

/-- `mna_store` from `g0[2]`, a variable of the handler. -/
def mnaStoreG0 (m : ByteMem 32) (dst : BitVec 32) (g0 : Nat → BitVec 32) (size : Nat) :
    ByteMem 32 :=
  let skip := if size = 2 then 2 else 0
  m.fill dst (fun i => byteOf (g0 ((i + skip) / 4)) ((i + skip) % 4)) size

def mnaExit (m : ByteMem 32) (regs : BitVec 32) : ByteMem 32 :=
  let m := m.putWord (ptPc regs) (m.word (ptNpc regs))
  m.putWord (ptNpc regs) (m.word (ptNpc regs) + 4)

/-- `none` is the panic. -/
def kernelMnaTrap (s : MnaState) (regs insn : BitVec 32) : Option MnaState :=
  let type := mnaCanHandle insn
  if type < 0 then none
  else
    let size := mnaGetAccessSize insn
    let sign := if size = 2 then insn &&& 0x400000 else 0
    let (addr, s) := mnaGetAddr s regs insn
    let rd := mnaRd insn
    let m :=
      if type = 1 then mnaLoad s.mem (getRegAddr s.mem regs rd) addr size sign
      else if rd ≠ 0 then mnaStore s.mem addr (getRegAddr s.mem regs rd) size
      else
        mnaStoreG0 s.mem addr
          (fun i => if i = 1 ∧ size = 8 then getRegValue s.mem regs 1 else 0) size
    some
      { s with
        mem := mnaExit m regs
        mnaCnt := s.mnaCnt + 1
        mnaPcLast := s.mem.word (ptPc regs)
        mnaAddrLast := addr }

/-! ## 2. The instructions -/

/-- The loads and stores of half-words, words and double-words. -/
inductive MemOp
  | ld
  | ldd
  | lduh
  | ldsh
  | st
  | std
  | sth
  deriving DecidableEq, Repr

namespace MemOp

def op3 : MemOp → BitVec 6
  | ld => 0b000000
  | ldd => 0b000011
  | lduh => 0b000010
  | ldsh => 0b001010
  | st => 0b000100
  | std => 0b000111
  | sth => 0b000110

def size : MemOp → Nat
  | ld | st => 4
  | ldd | std => 8
  | lduh | ldsh | sth => 2

def isLoad : MemOp → Bool
  | ld | ldd | lduh | ldsh => true
  | st | std | sth => false

end MemOp

/-- The fields of the instruction word. -/
def insnRd (insn : BitVec 32) : Nat := (insn.extractLsb' 25 5).toNat
def insnRs1 (insn : BitVec 32) : Nat := (insn.extractLsb' 14 5).toNat
def insnRs2 (insn : BitVec 32) : Nat := (insn.extractLsb' 0 5).toNat
def insnI (insn : BitVec 32) : Bool := insn.getLsbD 13
def insnSimm13 (insn : BitVec 32) : BitVec 32 := (insn.extractLsb' 0 13).signExtend 32

/-- The word is a memory instruction, with the operation's code; the register of a double-word is
even. -/
structure MemOp.Encodes (op : MemOp) (insn : BitVec 32) : Prop where
  format : insn.extractLsb' 30 2 = 3
  op3 : insn.extractLsb' 19 6 = op.op3
  even : op.size = 8 → insnRd insn % 2 = 0

/-- What a trap keeps of the CPU, and loads again on its return. -/
structure Cpu where
  reg : Nat → BitVec 32
  mem : ByteMem 32
  psr : BitVec 32
  pc : BitVec 32
  npc : BitVec 32
  y : BitVec 32

namespace Cpu

/-- `%g0` is zero. -/
def read (c : Cpu) (r : Nat) : BitVec 32 := if r = 0 then 0 else c.reg r

/-- What is written to `%g0` is lost. -/
def write (c : Cpu) (r : Nat) (v : BitVec 32) : Cpu :=
  if r = 0 then c else { c with reg := Function.update c.reg r v }

/-- The effective address. -/
def address (c : Cpu) (insn : BitVec 32) : BitVec 32 :=
  c.read (insnRs1 insn) + if insnI insn then insnSimm13 insn else c.read (insnRs2 insn)

/-- The registers and the memory after an access at `a`. -/
def access (c : Cpu) (rd : Nat) (a : BitVec 32) : MemOp → Cpu
  | .ld => c.write rd (c.mem.word a)
  | .ldd => (c.write rd (c.mem.word a)).write (rd + 1) (c.mem.word (a + 4))
  | .lduh => c.write rd ((c.mem.half a).setWidth 32)
  | .ldsh => c.write rd ((c.mem.half a).signExtend 32)
  | .st => { c with mem := c.mem.put a (byteOf (c.read rd)) 4 }
  | .std => { c with mem := c.mem.put a (fun i => byteOf (c.read (rd + i / 4)) (i % 4)) 8 }
  | .sth => { c with mem := c.mem.put a (fun i => byteOf (c.read rd) (i + 2)) 2 }

def exec (c : Cpu) (op : MemOp) (insn : BitVec 32) : Cpu :=
  { c.access (insnRd insn) (c.address insn) op with
    pc := c.npc
    npc := c.npc + 4 }

end Cpu

/-! ## 3. The code's fields are those of the instruction -/

/-- A field taken with a mask and a shift. -/
theorem and_shiftRight_toNat (x : BitVec 32) {mask : BitVec 32} {lo len : Nat}
    (h : mask.toNat >>> lo = 2 ^ len - 1) :
    ((x &&& mask) >>> lo).toNat = (x.extractLsb' lo len).toNat := by
  rw [BitVec.toNat_ushiftRight, BitVec.toNat_and, Nat.shiftRight_and_distrib, h,
    Nat.and_two_pow_sub_one_eq_mod, BitVec.extractLsb'_toNat]

theorem mnaRd_eq (insn : BitVec 32) : mnaRd insn = insnRd insn := and_shiftRight_toNat insn rfl

theorem mnaRs1_eq (insn : BitVec 32) : mnaRs1 insn = insnRs1 insn := and_shiftRight_toNat insn rfl

/-- The mask has the bit of `i`, too, which is not set. -/
theorem mnaRs2_eq {insn : BitVec 32} (h : insnI insn = false) : mnaRs2 insn = insnRs2 insn := by
  have hbit : insn &&& 0x201F = insn &&& 0x1F := by
    apply BitVec.eq_of_getLsbD_eq
    intro i hi
    rw [BitVec.getLsbD_and, BitVec.getLsbD_and]
    by_cases h13 : i = 13
    · have hoff : insn.getLsbD 13 = false := h
      rw [h13, hoff, Bool.false_and, Bool.false_and]
    · have hmask : ∀ j < 32, j ≠ 13 →
          (0x201F : BitVec 32).getLsbD j = (0x1F : BitVec 32).getLsbD j := by decide
      rw [hmask i hi h13]
  have hfield : ((insn &&& 0x1F) >>> 0).toNat = insnRs2 insn := and_shiftRight_toNat insn rfl
  rw [mnaRs2, hbit, ← hfield, BitVec.ushiftRight_zero]

theorem insnI_iff (insn : BitVec 32) : (insn &&& 0x00002000) >>> 13 ≠ 0 ↔ insnI insn = true := by
  rw [show (0x00002000 : BitVec 32) = BitVec.twoPow 32 13 from by decide, BitVec.and_twoPow, insnI]
  cases insn.getLsbD 13 <;> decide

/-- Shifted to the top and back, a field is extended with its sign. -/
theorem shiftLeft_sshiftRight {k n : Nat} (y : BitVec k) (h : k + n = 32) (hk : 0 < k) :
    (y.setWidth 32 <<< n).sshiftRight n = y.signExtend 32 := by
  apply BitVec.eq_of_getLsbD_eq
  intro i hi
  rw [BitVec.getLsbD_sshiftRight, BitVec.getLsbD_signExtend]
  by_cases hlow : i < k
  · have hread : n + i < 32 := by omega
    rw [if_pos hread, if_pos hlow, BitVec.getLsbD_shiftLeft, Nat.add_sub_cancel_left,
      BitVec.getLsbD_setWidth]
    simp [hread, hi, Nat.not_le.mpr hi]
  · have htop : ¬ n + i < 32 := by omega
    have hmsb : (y.setWidth 32 <<< n).msb = y.msb := by
      rw [BitVec.msb_eq_getLsbD_last, BitVec.msb_eq_getLsbD_last, BitVec.getLsbD_shiftLeft,
        BitVec.getLsbD_setWidth, show 32 - 1 - n = k - 1 by omega]
      have hlast : ¬ 31 < n := by omega
      have hwidth : k - 1 < 32 := by omega
      simp [hlast, hwidth]
    rw [if_neg htop, if_neg hlow, hmsb]
    simp [hi, Nat.not_le.mpr hi]

theorem simm13_eq (insn : BitVec 32) :
    ((insn &&& 0x00001FFF) <<< 19).sshiftRight 19 = insnSimm13 insn := by
  have hfield : insn &&& 0x00001FFF = (insn.extractLsb' 0 13).setWidth 32 := by
    apply BitVec.eq_of_toNat_eq
    have h : ((insn &&& 0x1FFF) >>> 0).toNat = (insn.extractLsb' 0 13).toNat :=
      and_shiftRight_toNat insn rfl
    rw [BitVec.toNat_setWidth_of_le (by decide), ← h, BitVec.ushiftRight_zero]
  rw [hfield]
  exact shiftLeft_sshiftRight _ rfl (by decide)

theorem op3_eq {op : MemOp} {insn : BitVec 32} (h : op.Encodes insn) :
    (insn &&& 0x01F80000) >>> 19 = op.op3.setWidth 32 := by
  apply BitVec.eq_of_toNat_eq
  rw [and_shiftRight_toNat insn (rfl : _ = 2 ^ 6 - 1), h.op3,
    BitVec.toNat_setWidth_of_le (by decide)]

theorem size_bits_eq {op : MemOp} {insn : BitVec 32} (h : op.Encodes insn) :
    (insn &&& 0x00180000) >>> 19 = (op.op3.extractLsb' 0 2).setWidth 32 := by
  apply BitVec.eq_of_toNat_eq
  rw [and_shiftRight_toNat insn (rfl : _ = 2 ^ 2 - 1), ← h.op3,
    BitVec.toNat_setWidth_of_le (by decide), BitVec.extractLsb'_toNat, BitVec.extractLsb'_toNat,
    BitVec.extractLsb'_toNat, Nat.shiftRight_zero]
  omega

theorem mnaCanHandle_eq {op : MemOp} {insn : BitVec 32} (h : op.Encodes insn) :
    mnaCanHandle insn = if op.isLoad then 1 else 0 := by
  simp only [mnaCanHandle, op3_eq h]
  cases op <;> rfl

theorem mnaGetAccessSize_eq {op : MemOp} {insn : BitVec 32} (h : op.Encodes insn) :
    mnaGetAccessSize insn = op.size := by
  simp only [mnaGetAccessSize, size_bits_eq h]
  cases op <;> rfl

theorem sign_iff {op : MemOp} {insn : BitVec 32} (h : op.Encodes insn) :
    insn &&& 0x400000 ≠ 0 ↔ op.op3.getLsbD 3 = true := by
  have hbit : insn.getLsbD 22 = op.op3.getLsbD 3 := by
    rw [← h.op3, BitVec.getLsbD_extractLsb']
    simp
  rw [show (0x400000 : BitVec 32) = BitVec.twoPow 32 22 from by decide, BitVec.and_twoPow, hbit]
  cases op.op3.getLsbD 3 <;> decide

theorem half_eq (x y : BitVec 8) :
    (x.setWidth 32 <<< 8) ||| y.setWidth 32 = (x ++ y).setWidth 32 := by
  apply BitVec.eq_of_getLsbD_eq
  intro i hi
  rw [BitVec.getLsbD_or, BitVec.getLsbD_shiftLeft, BitVec.getLsbD_setWidth, BitVec.getLsbD_setWidth,
    BitVec.getLsbD_setWidth, BitVec.getLsbD_append]
  by_cases hlow : i < 8
  · simp [hlow, hi]
  · have hy : y.getLsbD i = false := BitVec.getLsbD_of_ge y i (Nat.not_lt.mp hlow)
    have hsub : i - 8 < 32 := by omega
    simp [hlow, hi, hy, hsub]

end FlightOs
