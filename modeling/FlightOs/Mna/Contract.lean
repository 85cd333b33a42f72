/-
# The emulated access

Register 0 to 31 of the interrupted code are found in memory one behind the other: the trap frame
(`struct pt_regs`) ends with the globals and the outs, and the stack frame behind it starts with the
locals and the ins.  So the access can be compared with what the instruction does to a CPU, which is
what the frames show (`Shows`).

`mna_trap_right`: the handler does what the instruction does, if the instruction names neither `%i6`
nor `%i7`, does not load into `%g0`, and its access leaves alone the place of the registers in
memory.  For `%i6` and `%i7` the code takes the values in the frame where it takes the addresses of
the others (`mna_reads_through_fp`), and a load into `%g0` writes to address 0.
-/
import FlightOs.Mna.Unaligned

namespace FlightOs

/-! ## 1. Where the registers are -/

/-- `%r1`, …, `%r31` stand behind one another: the end of the trap frame is the start of the
window's stack frame. -/
def regSlot (regs : BitVec 32) (r : Nat) : BitVec 32 := ptURegs regs + BitVec.ofNat 32 (4 * r)

/-- The bytes of `psr`, `pc`, `npc` and `y`, and those of the registers. -/
def InFrames (regs a : BitVec 32) : Prop :=
  (a - regs).toNat < 16 ∨ (20 ≤ (a - regs).toNat ∧ (a - regs).toNat < 144)

instance decidableInFrames (regs a : BitVec 32) : Decidable (InFrames regs a) :=
  inferInstanceAs (Decidable (_ ∨ _))

/-- The CPU as the memory shows it. -/
def cpuOf (m : ByteMem 32) (regs : BitVec 32) : Cpu where
  reg r := m.word (regSlot regs r)
  mem := m
  psr := m.word (ptPsr regs)
  pc := m.word (ptPc regs)
  npc := m.word (ptNpc regs)
  y := m.word (ptY regs)

/-- What the trap entry has left: the stack pointer of the interrupted code, which is the end of the
trap frame, and its window in the stack frame there. -/
structure MnaState.Saved (s : MnaState) (regs : BitVec 32) : Prop where
  fp : s.mem.word (ptURegs regs + 4 * uregFp) = regs + ptregSz
  fits : regs.toNat + 144 ≤ 2 ^ 32
  window : ∀ i < 64, s.mem (regs + ptregSz + BitVec.ofNat 32 i) = byteOf (s.window (i / 4)) (i % 4)

/-- The memory shows the CPU: the registers, the program counters, `%psr` and `%y` in the frames, and
the memory elsewhere. -/
structure Shows (m : ByteMem 32) (regs : BitVec 32) (c : Cpu) : Prop where
  reg : ∀ r, 0 < r → r < 32 → m.word (regSlot regs r) = c.reg r
  psr : m.word (ptPsr regs) = c.psr
  pc : m.word (ptPc regs) = c.pc
  npc : m.word (ptNpc regs) = c.npc
  y : m.word (ptY regs) = c.y
  mem : ∀ a, ¬ InFrames regs a → m a = c.mem a

section Contract

variable {s : MnaState} {m : ByteMem 32} {c : Cpu} {regs insn a v : BitVec 32} {op : MemOp}
  {f : Nat → BitVec 8} {r n : Nat}

theorem cpuOf_shows (m : ByteMem 32) (regs : BitVec 32) : Shows m regs (cpuOf m regs) :=
  ⟨fun _ _ _ => rfl, rfl, rfl, rfl, rfl, fun _ _ => rfl⟩

/-! ## 2. Writing to a register, and elsewhere -/

/-- The first four words of the trap frame: `psr`, `pc`, `npc` and `y`. -/
def ptWord (regs : BitVec 32) (k : Nat) : BitVec 32 := regs + BitVec.ofNat 32 (4 * k)

theorem ptPc_eq : ptPc regs = ptWord regs 1 := rfl

theorem ptNpc_eq : ptNpc regs = ptWord regs 2 := rfl

theorem word_ptWord_of_slot {k : Nat} (hk : k < 4) (h0 : 0 < r) (hr : r < 32) :
    (m.putWord (regSlot regs r) v).word (ptWord regs k) = m.word (ptWord regs k) := by
  apply ByteMem.word_put_of_apart
  intro i hi
  unfold regSlot ptWord ptURegs
  bv_omega

theorem word_ptWord_of_ne {j k : Nat} (hj : j < 4) (hk : k < 4) (h : j ≠ k) :
    (m.putWord (ptWord regs j) v).word (ptWord regs k) = m.word (ptWord regs k) := by
  apply ByteMem.word_put_of_apart
  intro i hi
  unfold ptWord
  bv_omega

theorem word_slot_of_ptWord {k : Nat} (hk : k < 4) (h0 : 0 < r) (hr : r < 32) :
    (m.putWord (ptWord regs k) v).word (regSlot regs r) = m.word (regSlot regs r) := by
  apply ByteMem.word_put_of_apart
  intro i hi
  unfold regSlot ptWord ptURegs
  bv_omega

theorem Shows.write (h : Shows m regs c) (h0 : 0 < r) (hr : r < 32) :
    Shows (m.putWord (regSlot regs r) v) regs (c.write r v) := by
  have hc : c.write r v = { c with reg := Function.update c.reg r v } := if_neg (by omega)
  have hpt : ∀ k < 4, (m.putWord (regSlot regs r) v).word (ptWord regs k) = m.word (ptWord regs k) :=
    fun k hk => word_ptWord_of_slot hk h0 hr
  rw [hc]
  refine ⟨fun q hq0 hq => ?_, (hpt 0 (by decide)).trans h.psr, (hpt 1 (by decide)).trans h.pc,
    (hpt 2 (by decide)).trans h.npc, (hpt 3 (by decide)).trans h.y, fun a ha => ?_⟩
  · by_cases hqr : q = r
    · subst hqr
      exact (ByteMem.word_putWord (by decide)).trans (Function.update_self q v c.reg).symm
    · refine Eq.trans ?_ ((h.reg q hq0 hq).trans (Function.update_of_ne hqr v c.reg).symm)
      apply ByteMem.word_put_of_apart
      intro i hi
      unfold regSlot
      bv_omega
  · refine (ByteMem.put_of_le ?_).trans (h.mem a ha)
    unfold InFrames at ha
    unfold regSlot ptURegs
    bv_omega

theorem inFrames_slot {i : Nat} (h0 : 0 < r) (hr : 4 * r + i < 128) :
    InFrames regs (regSlot regs r + BitVec.ofNat 32 i) := by
  unfold InFrames regSlot ptURegs
  bv_omega

theorem inFrames_ptWord {i k : Nat} (hk : k < 4) (hi : i < 4) :
    InFrames regs (ptWord regs k + BitVec.ofNat 32 i) := by
  unfold InFrames ptWord
  bv_omega

/-- Outside the frames nothing is written to a register. -/
theorem Shows.store (h : Shows m regs c) (ha : ∀ i < n, ¬ InFrames regs (a + BitVec.ofNat 32 i)) :
    Shows (m.put a f n) regs { c with mem := c.mem.put a f n } := by
  have hframes : ∀ x, InFrames regs x → m.put a f n x = m x := by
    intro x hx
    apply ByteMem.put_of_le
    by_contra hlt
    apply ha _ (Nat.not_le.mp hlt)
    rwa [BitVec.ofNat_toNat, BitVec.setWidth_eq, BitVec.add_comm, BitVec.sub_add_cancel]
  have hpt : ∀ k < 4, (m.put a f n).word (ptWord regs k) = m.word (ptWord regs k) := fun k hk =>
    ByteMem.word_congr fun i hi => hframes _ (inFrames_ptWord hk hi)
  refine ⟨fun r h0 hr => ?_, (hpt 0 (by decide)).trans h.psr, (hpt 1 (by decide)).trans h.pc,
    (hpt 2 (by decide)).trans h.npc, (hpt 3 (by decide)).trans h.y, fun x hx => ?_⟩
  · rw [← h.reg r h0 hr]
    exact ByteMem.word_congr fun i hi => hframes _ (inFrames_slot h0 (by omega))
  · exact ByteMem.put_congr (h.mem x hx)

/-- The program counters are moved on. -/
theorem Shows.exit (h : Shows m regs c) :
    Shows (mnaExit m regs) regs { c with pc := c.npc, npc := c.npc + 4 } := by
  have hnpc : (m.putWord (ptWord regs 1) c.npc).word (ptWord regs 2) = c.npc :=
    (word_ptWord_of_ne (by decide) (by decide) (by decide)).trans h.npc
  have hexit : mnaExit m regs =
      (m.putWord (ptWord regs 1) c.npc).putWord (ptWord regs 2) (c.npc + 4) := by
    have hold : m.word (ptWord regs 2) = c.npc := h.npc
    rw [mnaExit, ptPc_eq, ptNpc_eq, hold, hnpc]
  have hpt : ∀ k < 4, k ≠ 1 → k ≠ 2 → ((m.putWord (ptWord regs 1) c.npc).putWord (ptWord regs 2)
      (c.npc + 4)).word (ptWord regs k) = m.word (ptWord regs k) := fun k hk h1 h2 =>
    (word_ptWord_of_ne (by decide) hk h2.symm).trans (word_ptWord_of_ne (by decide) hk h1.symm)
  have hpc : ((m.putWord (ptWord regs 1) c.npc).putWord (ptWord regs 2) (c.npc + 4)).word
      (ptWord regs 1) = c.npc := by
    rw [word_ptWord_of_ne (by decide) (by decide) (by decide), ByteMem.word_putWord (by decide)]
  rw [hexit]
  refine ⟨fun r h0 hr => ?_, (hpt 0 (by decide) (by decide) (by decide)).trans h.psr, hpc,
    ByteMem.word_putWord (w := 32) (by decide),
    (hpt 3 (by decide) (by decide) (by decide)).trans h.y, fun x hx => ?_⟩
  · exact (word_slot_of_ptWord (by decide) h0 hr).trans
      ((word_slot_of_ptWord (by decide) h0 hr).trans (h.reg r h0 hr))
  · unfold InFrames at hx
    refine ((ByteMem.put_of_le ?_).trans (ByteMem.put_of_le ?_)).trans (h.mem x hx)
    · unfold ptWord
      bv_omega
    · unfold ptWord
      bv_omega

/-! ## 3. The operands -/

theorem MnaState.Saved.flush (h : s.Saved regs) : leonRegWinFlush s regs = s := by
  unfold leonRegWinFlush
  rw [ByteMem.put_same h.window]

theorem MnaState.Saved.slot_ne_zero (h : s.Saved regs) (hr : r < 32) : regSlot regs r ≠ 0 := by
  have := h.fits
  unfold regSlot ptURegs
  bv_omega

theorem ofInt_index (r k : Nat) : BitVec.ofInt 32 (4 * ((r : Int) - k)) =
    BitVec.ofNat 32 (4 * r) - BitVec.ofNat 32 (4 * k) := by
  have hsplit : 4 * ((r : Int) - k) = ((4 * r : Nat) : Int) + -((4 * k : Nat) : Int) := by omega
  rw [hsplit, BitVec.ofInt_add, BitVec.ofInt_neg, BitVec.ofInt_natCast, BitVec.ofInt_natCast,
    BitVec.sub_eq_add_neg]

/-- `%o7` is taken for the local before the first, which is where it is. -/
theorem MnaState.Saved.getRegAddr_eq (h : s.Saved regs) (h0 : 0 < r) (hr : r < 30) :
    getRegAddr s.mem regs r = regSlot regs r := by
  have hlocals : BitVec.ofInt 32 (4 * ((r : Int) - 16)) = BitVec.ofNat 32 (4 * r) - 64 :=
    ofInt_index r 16
  have hins : BitVec.ofInt 32 (4 * ((r : Int) - 16 - 8)) = BitVec.ofNat 32 (4 * r) - 96 := by
    rw [Int.sub_sub]
    exact ofInt_index r 24
  simp only [getRegAddr, h.fp, hlocals, hins]
  rw [if_neg (by omega)]
  by_cases hout : (r : Int) < 0xf
  · rw [if_pos hout]
    exact congrArg _ (BitVec.ofInt_natCast 32 (4 * r))
  · rw [if_neg hout]
    unfold regSlot ptURegs ptregSz
    by_cases hlocal : (r : Int) - 16 < 8
    · rw [if_pos hlocal]
      bv_omega
    · rw [if_neg hlocal, if_pos (by omega)]
      bv_omega

theorem MnaState.Saved.getRegValue_eq (h : s.Saved regs) (hr : r < 30) :
    getRegValue s.mem regs r = (cpuOf s.mem regs).read r := by
  rcases Nat.eq_zero_or_pos r with rfl | h0
  · rfl
  · simp only [getRegValue, h.getRegAddr_eq h0 hr]
    rw [if_neg (h.slot_ne_zero (by omega)), Cpu.read, if_neg (by omega)]
    rfl

/-- The instruction names neither `%i6` nor `%i7`, and a load does not name `%g0`. -/
structure MemOp.OperandsOk (op : MemOp) (insn : BitVec 32) : Prop where
  rs1 : insnRs1 insn < 30
  rs2 : insnI insn = false → insnRs2 insn < 30
  rd : insnRd insn < 30
  load : op.isLoad = true → insnRd insn ≠ 0

theorem MnaState.Saved.getAddr_eq (h : s.Saved regs) (ho : op.OperandsOk insn) :
    mnaGetAddr s regs insn = ((cpuOf s.mem regs).address insn, s) := by
  have hflush : ∀ p : Prop, ∀ [Decidable p], (if p then leonRegWinFlush s regs else s) = s := by
    intro p _
    rw [h.flush, ite_self]
  simp only [mnaGetAddr, hflush, simm13_eq, mnaRs1_eq, h.getRegValue_eq ho.rs1, insnI_iff]
  unfold Cpu.address
  cases hi : insnI insn with
  | true => simp
  | false => simp [mnaRs2_eq hi, h.getRegValue_eq (ho.rs2 hi)]

/-! ## 4. The access -/

/-- A load does not overwrite what it has yet to read, and a store leaves the frames alone. -/
structure MemOp.Clear (op : MemOp) (regs insn a : BitVec 32) : Prop where
  load : op.isLoad = true → op.size ≠ 2 →
    (regSlot regs (insnRd insn) - a).toNat = 0 ∨
      op.size ≤ (regSlot regs (insnRd insn) - a).toNat
  store : op.isLoad = false → ∀ i < op.size, ¬ InFrames regs (a + BitVec.ofNat 32 i)

/-- A copy that overwrites nothing it has yet to read. -/
theorem copy_of_clear {dst src : BitVec 32} (hn : n ≤ 8)
    (h : (dst - src).toNat = 0 ∨ n ≤ (dst - src).toNat) :
    m.copy dst src n = m.put dst (fun i => m (src + BitVec.ofNat 32 i)) n := by
  apply ByteMem.copy_eq_put (by omega)
  intro i j hij hj heq
  bv_omega

theorem mnaLoad_half {dst src sign : BitVec 32} : mnaLoad m dst src 2 sign =
    m.putWord dst (if sign ≠ 0 then (m.half src).signExtend 32 else (m.half src).setWidth 32) := by
  simp only [mnaLoad, if_pos, half_eq]
  rw [ByteMem.fill_eq_put (by decide),
    ← shiftLeft_sshiftRight (m.half src) (rfl : 16 + 16 = 32) (by decide)]
  rfl

theorem mnaLoad_word {dst src sign : BitVec 32}
    (h : (dst - src).toNat = 0 ∨ 4 ≤ (dst - src).toNat) :
    mnaLoad m dst src 4 sign = m.putWord dst (m.word src) := by
  rw [mnaLoad, if_neg (by decide), copy_of_clear (by decide) h]
  exact ByteMem.put_bytes fun i hi => (ByteMem.byteOf_word hi).symm

theorem mnaLoad_double {dst src sign : BitVec 32}
    (h : (dst - src).toNat = 0 ∨ 8 ≤ (dst - src).toNat) :
    mnaLoad m dst src 8 sign =
      (m.putWord dst (m.word src)).putWord (dst + 4) (m.word (src + 4)) := by
  rw [mnaLoad, if_neg (by decide), copy_of_clear (by decide) h,
    ByteMem.put_add (k := 4) (n := 4) (by decide)]
  rw [ByteMem.put_bytes fun i hi => (ByteMem.byteOf_word hi).symm]
  refine ByteMem.put_bytes fun i hi => ?_
  rw [ByteMem.byteOf_word hi, BitVec.ofNat_add, ← BitVec.add_assoc]
  rfl

/-- What a load leaves. -/
theorem Shows.load (h : Shows m regs c) (hc : c.mem = m) (ho : op.OperandsOk insn)
    (hload : op.isLoad = true) (hclear : op.Clear regs insn a) {sign : BitVec 32}
    (hsign : op.size = 2 → (sign ≠ 0 ↔ op.op3.getLsbD 3 = true)) :
    Shows (mnaLoad m (regSlot regs (insnRd insn)) a op.size sign) regs
      (c.access (insnRd insn) a op) := by
  have h0 : 0 < insnRd insn := Nat.pos_of_ne_zero (ho.load hload)
  have hr : insnRd insn < 32 := Nat.lt_of_lt_of_le ho.rd (by decide)
  cases op with
  | ld =>
    rw [MemOp.size, mnaLoad_word (hclear.load rfl (by decide)), ← hc]
    exact (hc ▸ h).write h0 hr
  | ldd =>
    have hslot : regSlot regs (insnRd insn + 1) = regSlot regs (insnRd insn) + 4 := by
      unfold regSlot
      bv_omega
    have hpair := (h.write (v := m.word a) h0 hr).write (r := insnRd insn + 1) (v := m.word (a + 4))
      (by omega) (by have := ho.rd; omega)
    rw [hslot] at hpair
    rw [MemOp.size, mnaLoad_double (hclear.load rfl (by decide)), Cpu.access, hc]
    exact hpair
  | lduh =>
    rw [MemOp.size, mnaLoad_half, if_neg (fun hne => by cases (hsign rfl).mp hne), Cpu.access, hc]
    exact h.write h0 hr
  | ldsh =>
    rw [MemOp.size, mnaLoad_half, if_pos ((hsign rfl).mpr rfl), Cpu.access, hc]
    exact h.write h0 hr
  | st | std | sth => cases hload

/-- How many bytes of the register a store leaves out. -/
def MemOp.skip (op : MemOp) : Nat := if op.size = 2 then 2 else 0

theorem Cpu.access_store (c : Cpu) (rd : Nat) (hstore : op.isLoad = false) :
    c.access rd a op = { c with
      mem := c.mem.put a
        (fun i => byteOf (c.read (rd + (i + op.skip) / 4)) ((i + op.skip) % 4)) op.size } := by
  have hbytes : ∀ {f g : Nat → BitVec 8} {n : Nat}, (∀ i < n, f i = g i) →
      { c with mem := c.mem.put a f n } = { c with mem := c.mem.put a g n } := by
    intro f g n h
    rw [ByteMem.put_ext h]
  cases op with
  | ld | ldd | lduh | ldsh => cases hstore
  | st =>
    refine hbytes fun i hi => ?_
    change _ = byteOf (c.read (rd + i / 4)) (i % 4)
    rw [Nat.div_eq_of_lt hi, Nat.mod_eq_of_lt hi, Nat.add_zero]
  | std => exact hbytes fun i _ => rfl
  | sth =>
    refine hbytes fun i hi => ?_
    have h4 : i + 2 < 4 := by omega
    change _ = byteOf (c.read (rd + (i + 2) / 4)) ((i + 2) % 4)
    rw [Nat.div_eq_of_lt h4, Nat.mod_eq_of_lt h4]
    rfl

theorem slot_byte {i : Nat} : m (regSlot regs r + BitVec.ofNat 32 i) =
    byteOf (m.word (regSlot regs (r + i / 4))) (i % 4) := by
  rw [ByteMem.byteOf_word (Nat.mod_lt i (by decide))]
  apply congrArg
  unfold regSlot
  rw [BitVec.add_assoc, BitVec.add_assoc, ← BitVec.ofNat_add, ← BitVec.ofNat_add]
  have : 4 * r + i = 4 * (r + i / 4) + i % 4 := by omega
  rw [this]

/-- What a store takes from its register. -/
theorem mnaStore_eq (hr : r < 30)
    (hclear : ∀ i < op.size, ¬ InFrames regs (a + BitVec.ofNat 32 i)) (h0 : 0 < r) :
    mnaStore m a (regSlot regs r) op.size =
      m.put a (fun i => byteOf (m.word (regSlot regs (r + (i + op.skip) / 4))) ((i + op.skip) % 4))
        op.size := by
  have hsrc : (if op.size = 2 then regSlot regs r + 2 else regSlot regs r) =
      regSlot regs r + BitVec.ofNat 32 op.skip := by
    unfold MemOp.skip
    by_cases h2 : op.size = 2
    · rw [if_pos h2, if_pos h2]
      rfl
    · rw [if_neg h2, if_neg h2]
      exact (BitVec.add_zero _).symm
  have hsize : op.skip + op.size ≤ 8 := by cases op <;> decide
  rw [mnaStore, hsrc, ByteMem.copy_eq_put (by omega)]
  · refine ByteMem.put_ext fun i hi => ?_
    rw [BitVec.add_assoc, ← BitVec.ofNat_add, slot_byte (m := m), Nat.add_comm op.skip i]
  · intro i j hij hj heq
    apply hclear i (by omega)
    rw [heq, BitVec.add_assoc, ← BitVec.ofNat_add]
    exact inFrames_slot h0 (by omega)

/-- The registers `%g0` and `%g1` as a store takes them from `g0`. -/
theorem MnaState.Saved.mnaStoreG0_eq (h : s.Saved regs) :
    mnaStoreG0 s.mem a (fun i => if i = 1 ∧ op.size = 8 then getRegValue s.mem regs 1 else 0)
        op.size =
      s.mem.put a
        (fun i => byteOf ((cpuOf s.mem regs).read (0 + (i + op.skip) / 4)) ((i + op.skip) % 4))
        op.size := by
  have h1 : getRegValue s.mem regs 1 = (cpuOf s.mem regs).read 1 := h.getRegValue_eq (by decide)
  have hsize : op.size ≤ 8 ∧ (op.size ≠ 8 → op.skip + op.size ≤ 4) := by cases op <;> decide
  have hskip : op.size = 8 → op.skip = 0 := by cases op <;> decide
  rw [mnaStoreG0, ByteMem.fill_eq_put (by omega)]
  refine ByteMem.put_ext fun i hi => ?_
  have hword : (if (i + op.skip) / 4 = 1 ∧ op.size = 8 then getRegValue s.mem regs 1 else 0) =
      (cpuOf s.mem regs).read (0 + (i + op.skip) / 4) := by
    by_cases hpair : (i + op.skip) / 4 = 1 ∧ op.size = 8
    · rw [if_pos hpair, hpair.1, h1]
    · have hzero : (i + op.skip) / 4 = 0 := by
        by_cases h8 : op.size = 8
        · have := hskip h8
          omega
        · have := hsize.2 h8
          omega
      rw [if_neg hpair, hzero]
      rfl
  exact congrArg (byteOf · _) hword

/-- What a store leaves. -/
theorem MnaState.Saved.store (h : s.Saved regs) (ho : op.OperandsOk insn)
    (hstore : op.isLoad = false) (hclear : op.Clear regs insn a) :
    Shows
      (if insnRd insn ≠ 0 then mnaStore s.mem a (getRegAddr s.mem regs (insnRd insn)) op.size
      else mnaStoreG0 s.mem a (fun i => if i = 1 ∧ op.size = 8 then getRegValue s.mem regs 1 else 0)
        op.size) regs
      ((cpuOf s.mem regs).access (insnRd insn) a op) := by
  rw [Cpu.access_store _ _ hstore]
  by_cases h0 : insnRd insn = 0
  · rw [if_neg (fun hne => hne h0), h.mnaStoreG0_eq, h0]
    exact (cpuOf_shows s.mem regs).store (hclear.store hstore)
  · have hpos := Nat.pos_of_ne_zero h0
    have hread : ∀ k, (cpuOf s.mem regs).read (insnRd insn + k) =
        s.mem.word (regSlot regs (insnRd insn + k)) := fun k => if_neg (by omega)
    rw [if_pos h0, h.getRegAddr_eq hpos ho.rd, mnaStore_eq ho.rd (hclear.store hstore) hpos]
    simp only [hread]
    exact (cpuOf_shows s.mem regs).store (hclear.store hstore)

@[simp] theorem Cpu.write_npc (c : Cpu) (r : Nat) (v : BitVec 32) : (c.write r v).npc = c.npc := by
  unfold Cpu.write
  split <;> rfl

theorem Cpu.access_npc (c : Cpu) (rd : Nat) (a : BitVec 32) (op : MemOp) :
    (c.access rd a op).npc = c.npc := by
  cases op <;> simp [Cpu.access]

theorem Cpu.exec_eq (c : Cpu) (op : MemOp) (insn : BitVec 32) :
    c.exec op insn = { c.access (insnRd insn) (c.address insn) op with
      pc := (c.access (insnRd insn) (c.address insn) op).npc
      npc := (c.access (insnRd insn) (c.address insn) op).npc + 4 } := by
  rw [Cpu.exec, Cpu.access_npc]

/-- The trap does to the CPU in the frames what the instruction does. -/
theorem MnaState.Saved.trap (h : s.Saved regs) (henc : op.Encodes insn) (ho : op.OperandsOk insn)
    (hclear : op.Clear regs insn ((cpuOf s.mem regs).address insn)) :
    ∃ s', kernelMnaTrap s regs insn = some s' ∧
      Shows s'.mem regs ((cpuOf s.mem regs).exec op insn) := by
  rw [Cpu.exec_eq]
  simp only [kernelMnaTrap, mnaCanHandle_eq henc, mnaGetAccessSize_eq henc, h.getAddr_eq ho,
    mnaRd_eq]
  cases hload : op.isLoad with
  | true =>
    have h0 := Nat.pos_of_ne_zero (ho.load hload)
    refine ⟨_, rfl, Shows.exit ?_⟩
    have hsign : op.size = 2 →
        ((if op.size = 2 then insn &&& 0x400000 else 0) ≠ 0 ↔ op.op3.getLsbD 3 = true) := by
      intro h2
      rw [if_pos h2]
      exact sign_iff henc
    have hshows := (cpuOf_shows s.mem regs).load rfl ho hload hclear hsign
    rw [← h.getRegAddr_eq h0 ho.rd] at hshows
    exact hshows
  | false => exact ⟨_, rfl, Shows.exit (h.store ho hload hclear)⟩

/-! ## 5. The contract -/

/-- The handler returns, and has done what the instruction does. -/
def MnaRight (s : MnaState) (regs insn : BitVec 32) (op : MemOp) : Prop :=
  ∃ s', kernelMnaTrap s regs insn = some s' ∧
    Shows s'.mem regs ((cpuOf s.mem regs).exec op insn)

end Contract

/-- A trap frame at `0x10000000`, a frame pointer, and a byte in the caller's frame. -/
def mnaMachine : MnaState where
  mem :=
    let zero : ByteMem 32 := fun _ => 0
    ((zero.putWord 0x10000048 0x10000050).putWord 0x10000088 0x20000000).putWord 0x20000011
      0xAB000000
  window i := if i = 14 then 0x20000000 else 0
  mnaCnt := 0
  mnaPcLast := 0
  mnaAddrLast := 0

theorem mnaMachine_saved : mnaMachine.Saved 0x10000000 where
  fp := by decide
  fits := by decide
  window := by decide

end FlightOs
