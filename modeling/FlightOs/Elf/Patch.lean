/-
# What a relocation writes

`apply_relocate_add` (`arch/sparc/kernel/module.c`), on the memory.  A relocation patches a field of
the word at its location, which the processor decodes when it comes to the instruction.

`apply_relocate_add_iff`: the field decodes to the target, and a target that no field decodes to is
refused, if and only if the displacement, for the two types that have it in words, is a number of
words that fits into the field, and the immediate operand of 13 bits, of which ten are patched, has
no bits above them.  Nothing is refused on that account.
-/
import FlightOs.Elf.Relocate
import FlightOs.Lib.Bytes

namespace FlightOs

/-! ## 1. The code -/

/-- The cases of the `switch`. -/
inductive SparcReloc
  | disp32
  | word
  | wdisp30
  | wdisp22
  | hi22
  | lo10
  deriving DecidableEq, Repr

/-- `ELF_R_TYPE(rel->r_info) & 0xff`: `R_SPARC_DISP32`, `R_SPARC_32` and `R_SPARC_UA32`, and so on. -/
def ElfRela.sparcReloc (rel : ElfRela) : Option SparcReloc :=
  let type := rel.rInfo % 2 ^ 8
  if type = 6 then some .disp32
  else if type = 3 ∨ type = 23 then some .word
  else if type = 7 then some .wdisp30
  else if type = 8 then some .wdisp22
  else if type = 9 then some .hi22
  else if type = 12 then some .lo10
  else none

/-- `(w & ~((1 << k) - 1)) | (v & ((1 << k) - 1))` -/
def patchField (w v : BitVec 32) (k : Nat) : BitVec 32 :=
  (w &&& ~~~((1#32 <<< k) - 1)) ||| (v &&& ((1#32 <<< k) - 1))

/-- What is written over the word `w` at `loc`, where `rsym` is the address of the symbol with the
addend. -/
def relocWord (kind : SparcReloc) (loc rsym w : BitVec 32) : BitVec 32 :=
  match kind with
  | .disp32 => rsym - loc
  | .word => rsym
  | .wdisp30 => patchField w ((rsym - loc) >>> 2) 30
  | .wdisp22 => patchField w ((rsym - loc) >>> 2) 22
  | .hi22 => patchField w (rsym >>> 10) 22
  | .lo10 => patchField w rsym 10

def ENOEXEC : Nat := 8

/-- `loc8`, and the address of the symbol with the addend. -/
def ElfRela.loc (rel : ElfRela) (text : ElfSection) : BitVec 32 :=
  BitVec.ofNat 32 (text.addr + rel.rOffset)

def ElfRela.target (rel : ElfRela) (sym : BitVec 32) : BitVec 32 :=
  sym + BitVec.ofNat 32 rel.rAddend

/-- `apply_relocate_add`; `none` is the null pointer where the binary has no such section.  Where the
location is no address of a word, the trap handler carries out the accesses. -/
def applyRelocateAddMem (mem : ByteMem 32) (m : ElfBinary) (rel : ElfRela) (sym : BitVec 32)
    (secName : List UInt8) : Option (Int × ByteMem 32) :=
  if sym = 0 then some (-EINVAL, mem)
  else
    match findElfSec m secName with
    | some (some text) =>
      let loc := rel.loc text
      match rel.sparcReloc with
      | some kind => some (0, mem.putWord loc (relocWord kind loc (rel.target sym) (mem.word loc)))
      | none => some (-ENOEXEC, mem)
    | _ => none

/-- The entries that `module_relocate` applies are those that come to the `switch`. -/
theorem applyRelocateAdd_apply {m : ElfBinary} {rel : ElfRela} {sym : BitVec 32}
    {secName : List UInt8} {a : Applied}
    (h : applyRelocateAdd m rel sym.toNat secName = .apply a) :
    ∃ text : ElfSection, a = ⟨rel, sym.toNat, text.addr⟩ ∧ sym ≠ 0 ∧
      findElfSec m secName = some (some text) := by
  unfold applyRelocateAdd at h
  split at h
  case isTrue => cases h
  case isFalse hsym =>
    split at h
    case h_1 text hsec =>
      cases h
      exact ⟨text, rfl, fun h0 => hsym (by rw [h0]; rfl), hsec⟩
    case h_2 => cases h

/-! ## 2. What the processor makes of it -/

/-- The low bits of the word that are patched. -/
def SparcReloc.width : SparcReloc → Nat
  | .disp32 => 32
  | .word => 32
  | .wdisp30 => 30
  | .wdisp22 => 22
  | .hi22 => 22
  | .lo10 => 10

/-- The address in a word at `loc`: of a pointer, of the target of a call or a branch, whose
displacement is in words, or the part of it that `sethi` or an immediate operand has, which is a
number of 13 bits with a sign. -/
def SparcReloc.decode (kind : SparcReloc) (loc w : BitVec 32) : BitVec 32 :=
  match kind with
  | .disp32 => loc + w
  | .word => w
  | .wdisp30 => loc + (w.setWidth 30).signExtend 32 <<< 2
  | .wdisp22 => loc + (w.setWidth 22).signExtend 32 <<< 2
  | .hi22 => (w.setWidth 22).setWidth 32 <<< 10
  | .lo10 => (w.setWidth 13).signExtend 32

/-- The part of an address that the word is for. -/
def SparcReloc.part (kind : SparcReloc) (target : BitVec 32) : BitVec 32 :=
  match kind with
  | .hi22 => target &&& ~~~0x3ff#32
  | .lo10 => target &&& 0x3ff#32
  | _ => target

/-- There is a word that has the target. -/
def SparcReloc.Represents (kind : SparcReloc) (loc target : BitVec 32) : Prop :=
  ∃ w, kind.decode loc w = kind.part target

/-- A displacement in words is a number of words, which a field of 22 bits has room for or not; and an
immediate operand has nothing above the ten bits, in the word `w` that is patched. -/
def SparcReloc.Fits (kind : SparcReloc) (loc target w : BitVec 32) : Prop :=
  match kind with
  | .wdisp30 => 4 ∣ (target - loc).toInt
  | .wdisp22 => 4 ∣ (target - loc).toInt ∧ -2 ^ 23 ≤ (target - loc).toInt ∧
      (target - loc).toInt < 2 ^ 23
  | .lo10 => w &&& 0x1c00#32 = 0#32
  | _ => True

section Field

variable {w v : BitVec 32} {k : Nat}

theorem getLsbD_lowMask {i : Nat} (hk : k < 32) :
    (1#32 <<< k - 1).getLsbD i = decide (i < k) := by
  have hmask : 1#32 <<< k - 1 = BitVec.ofNat 32 (2 ^ k - 1) := by
    have hlt : 2 ^ k < 2 ^ 32 := Nat.pow_lt_pow_right (by decide) hk
    have hpos := Nat.two_pow_pos k
    apply BitVec.eq_of_toNat_eq
    rw [BitVec.toNat_sub, BitVec.toNat_shiftLeft, BitVec.toNat_ofNat, BitVec.toNat_ofNat,
      Nat.shiftLeft_eq, Nat.mod_eq_of_lt (show 1 < 2 ^ 32 by norm_num), Nat.one_mul,
      Nat.mod_eq_of_lt hlt]
    change (2 ^ 32 - 1 + 2 ^ k) % 2 ^ 32 = (2 ^ k - 1) % 2 ^ 32
    omega
  rw [hmask, BitVec.getLsbD_ofNat, Nat.testBit_two_pow_sub_one]
  by_cases h : i < k
  · simp [h, Nat.lt_trans h hk]
  · simp [h]

theorem getLsbD_patchField {i : Nat} (hk : k < 32) (hi : i < 32) :
    (patchField w v k).getLsbD i = if i < k then v.getLsbD i else w.getLsbD i := by
  simp only [patchField, BitVec.getLsbD_or, BitVec.getLsbD_and, BitVec.getLsbD_not,
    getLsbD_lowMask hk, hi, decide_true, Bool.true_and]
  by_cases h : i < k <;> simp [h]

/-- The field has the low bits of the value. -/
theorem setWidth_patchField (hk : k < 32) : (patchField w v k).setWidth k = v.setWidth k := by
  ext i hi
  simp only [BitVec.getElem_setWidth]
  rw [getLsbD_patchField hk (by omega), if_pos hi]

/-- The bits outside the field are those of the word. -/
theorem ushiftRight_patchField (hk : k < 32) : patchField w v k >>> k = w >>> k := by
  ext i hi
  simp only [BitVec.getElem_ushiftRight]
  by_cases h : k + i < 32
  · rw [getLsbD_patchField hk h, if_neg (by omega)]
  · rw [BitVec.getLsbD_of_ge _ _ (by omega), BitVec.getLsbD_of_ge _ _ (by omega)]

end Field

/-! ## 3. Each type -/

section Decode

variable {kind : SparcReloc} {loc target d w : BitVec 32}

theorem disp30_eq_iff : ((d >>> 2).setWidth 30).signExtend 32 <<< 2 = d ↔ 4 ∣ d.toInt := by
  have hd := d.isLt
  rw [← BitVec.toNat_inj, BitVec.toInt_eq_toNat_cond]
  simp only [BitVec.toNat_shiftLeft, BitVec.toNat_signExtend, BitVec.toNat_setWidth,
    BitVec.toNat_ushiftRight, BitVec.msb_eq_decide, Nat.shiftLeft_eq, Nat.shiftRight_eq_div_pow,
    decide_eq_true_eq]
  split_ifs <;> omega

theorem disp22_eq_iff : ((d >>> 2).setWidth 22).signExtend 32 <<< 2 = d ↔
    4 ∣ d.toInt ∧ -2 ^ 23 ≤ d.toInt ∧ d.toInt < 2 ^ 23 := by
  have hd := d.isLt
  rw [← BitVec.toNat_inj, BitVec.toInt_eq_toNat_cond]
  simp only [BitVec.toNat_shiftLeft, BitVec.toNat_signExtend, BitVec.toNat_setWidth,
    BitVec.toNat_ushiftRight, BitVec.msb_eq_decide, Nat.shiftLeft_eq, Nat.shiftRight_eq_div_pow,
    decide_eq_true_eq]
  split_ifs <;> omega

/-- A displacement leads to the target if it is the distance. -/
theorem add_eq_target_iff : loc + d = target ↔ d = target - loc := by
  rw [BitVec.eq_sub_iff_add_eq, BitVec.add_comm]

theorem sethi_eq : ((target >>> 10).setWidth 22).setWidth 32 <<< 10 = target &&& ~~~0x3ff#32 := by
  have hmask : 0x3ff#32 = 1#32 <<< 10 - 1 := by decide
  rw [hmask]
  ext i hi
  simp only [BitVec.getElem_shiftLeft, BitVec.getElem_and, BitVec.getElem_not]
  rw [← BitVec.getLsbD_eq_getElem (x := 1#32 <<< 10 - 1), getLsbD_lowMask (by decide)]
  by_cases h : i < 10
  · simp [h]
  · simp [h, show i - 10 < 22 by omega, show 10 + (i - 10) = i by omega,
      BitVec.getLsbD_eq_getElem hi]

/-- The operand has the low bits of the target, and those of the old word above them. -/
theorem operand_eq_iff : ((patchField w target 10).setWidth 13).signExtend 32 =
    target &&& 0x3ff#32 ↔ w &&& 0x1c00#32 = 0#32 := by
  have hlow : ∀ i < 32, (0x3ff#32).getLsbD i = decide (i < 10) := by decide
  have hhigh : ∀ i < 32, (0x1c00#32).getLsbD i = decide (10 ≤ i ∧ i < 13) := by decide
  have hfield : ∀ i < 13, ((patchField w target 10).setWidth 13).getLsbD i =
      if i < 10 then target.getLsbD i else w.getLsbD i := by
    intro i hi
    rw [BitVec.getLsbD_setWidth, getLsbD_patchField (by decide) (by omega)]
    simp [hi]
  have hbit : ∀ i < 32, (((patchField w target 10).setWidth 13).signExtend 32).getLsbD i =
      if i < 10 then target.getLsbD i else if i < 13 then w.getLsbD i else w.getLsbD 12 := by
    intro i hi
    rw [BitVec.getLsbD_signExtend, BitVec.msb_eq_getLsbD_last, hfield 12 (by decide)]
    by_cases h13 : i < 13
    · rw [hfield i h13]
      simp [h13, hi]
    · simp [h13, hi, show ¬ i < 10 by omega]
  constructor
  · intro h
    apply BitVec.eq_of_getLsbD_eq
    intro i hi
    rw [BitVec.getLsbD_and, hhigh i hi]
    by_cases hmid : 10 ≤ i ∧ i < 13
    · have hi' := congrArg (·.getLsbD i) h
      rw [hbit i hi, BitVec.getLsbD_and, hlow i hi, if_neg (by omega), if_pos hmid.2,
        decide_eq_false (by omega), Bool.and_false] at hi'
      rw [hi', Bool.false_and, BitVec.getLsbD_zero]
    · simp [hmid]
  · intro h
    have hzero : ∀ i, 10 ≤ i → i < 13 → w.getLsbD i = false := by
      intro i h10 h13
      have hi' := congrArg (·.getLsbD i) h
      simpa [hhigh i (by omega), h10, h13] using hi'
    apply BitVec.eq_of_getLsbD_eq
    intro i hi
    rw [hbit i hi, BitVec.getLsbD_and, hlow i hi]
    by_cases h10 : i < 10
    · simp [h10]
    · by_cases h13 : i < 13
      · simp [h10, h13, hzero i (by omega) h13]
      · rw [if_neg h10, if_neg h13, hzero 12 (by decide) (by decide)]
        simp [h10]

/-- **What is written** decodes to the target if that fits. -/
theorem decode_relocWord_iff :
    kind.decode loc (relocWord kind loc target w) = kind.part target ↔ kind.Fits loc target w := by
  cases kind with
  | disp32 => exact iff_of_true (add_eq_target_iff.mpr rfl) trivial
  | word => exact iff_of_true rfl trivial
  | wdisp30 =>
    rw [SparcReloc.decode, relocWord, setWidth_patchField (by decide)]
    exact add_eq_target_iff.trans disp30_eq_iff
  | wdisp22 =>
    rw [SparcReloc.decode, relocWord, setWidth_patchField (by decide)]
    exact add_eq_target_iff.trans disp22_eq_iff
  | hi22 =>
    rw [SparcReloc.decode, relocWord, setWidth_patchField (by decide)]
    exact iff_of_true sethi_eq trivial
  | lo10 => exact operand_eq_iff

/-- The bits that are not patched. -/
theorem relocWord_outside : relocWord kind loc target w >>> kind.width = w >>> kind.width := by
  cases kind with
  | disp32 => rw [SparcReloc.width, BitVec.ushiftRight_eq_zero le_rfl, BitVec.ushiftRight_eq_zero le_rfl]
  | word => rw [SparcReloc.width, BitVec.ushiftRight_eq_zero le_rfl, BitVec.ushiftRight_eq_zero le_rfl]
  | wdisp30 => exact ushiftRight_patchField (by decide)
  | wdisp22 => exact ushiftRight_patchField (by decide)
  | hi22 => exact ushiftRight_patchField (by decide)
  | lo10 => exact ushiftRight_patchField (by decide)

/-- The two parts of an address. -/
theorem part_add_part : SparcReloc.hi22.part target + SparcReloc.lo10.part target = target := by
  have hdisj : (target &&& ~~~0x3ff#32) &&& (target &&& 0x3ff#32) = 0#32 := by
    ext i hi
    simp only [BitVec.getElem_and, BitVec.getElem_not, BitVec.getElem_zero]
    cases target[i] <;> cases (0x3ff#32)[i] <;> rfl
  rw [SparcReloc.part, SparcReloc.part, BitVec.add_eq_or_of_and_eq_zero _ _ hdisj]
  ext i hi
  simp only [BitVec.getElem_or, BitVec.getElem_and, BitVec.getElem_not]
  cases target[i] <;> cases (0x3ff#32)[i] <;> rfl

end Decode

/-! ## 4. The law -/

section Law

variable {mem : ByteMem 32} {m : ElfBinary} {rel : ElfRela} {sym : BitVec 32}
  {secName : List UInt8} {text : ElfSection}

/-- What a relocation is for, where the location is in the section at `text`. -/
structure RelocLaw (mem : ByteMem 32) (m : ElfBinary) (rel : ElfRela) (sym : BitVec 32)
    (secName : List UInt8) (text : ElfSection) : Prop where
  /-- The word that is patched has the target, and is otherwise as it was. -/
  applied : ∀ mem', applyRelocateAddMem mem m rel sym secName = some (0, mem') →
    ∃ kind, rel.sparcReloc = some kind ∧
      kind.decode (rel.loc text) (mem'.word (rel.loc text)) = kind.part (rel.target sym) ∧
      mem'.word (rel.loc text) >>> kind.width = mem.word (rel.loc text) >>> kind.width ∧
      ∀ x, 4 ≤ (x - rel.loc text).toNat → mem' x = mem x
  /-- Two instructions with the two parts of one target: the memory is the one that another
  relocation has left. -/
  combined : ∀ mem₀ rel₀ sym₀ secName₀ text₀ mem', rel₀.sparcReloc = some .hi22 →
    rel.sparcReloc = some .lo10 → rel₀.target sym₀ = rel.target sym →
    findElfSec m secName₀ = some (some text₀) →
    4 ≤ (rel₀.loc text₀ - rel.loc text).toNat → 4 ≤ (rel.loc text - rel₀.loc text₀).toNat →
    applyRelocateAddMem mem₀ m rel₀ sym₀ secName₀ = some (0, mem) →
    applyRelocateAddMem mem m rel sym secName = some (0, mem') →
    SparcReloc.hi22.decode (rel₀.loc text₀) (mem'.word (rel₀.loc text₀)) +
      SparcReloc.lo10.decode (rel.loc text) (mem'.word (rel.loc text)) = rel.target sym
  /-- A target that no word has is refused. -/
  refused : ∀ kind mem', rel.sparcReloc = some kind →
    ¬ kind.Represents (rel.loc text) (rel.target sym) →
    applyRelocateAddMem mem m rel sym secName ≠ some (0, mem')

/-- **What the code does** with a type it has. -/
theorem applyRelocateAddMem_ok {mem' : ByteMem 32}
    (hsec : findElfSec m secName = some (some text)) :
    applyRelocateAddMem mem m rel sym secName = some (0, mem') ↔
      sym ≠ 0 ∧ ∃ kind, rel.sparcReloc = some kind ∧ mem' = mem.putWord (rel.loc text)
        (relocWord kind (rel.loc text) (rel.target sym) (mem.word (rel.loc text))) := by
  rw [applyRelocateAddMem]
  by_cases h0 : sym = 0
  · rw [if_pos h0]
    exact iff_of_false (fun h => absurd (Prod.mk.inj (Option.some.inj h)).1 (by decide))
      fun h => h.1 h0
  · rw [if_neg h0, hsec]
    dsimp only
    cases hkind : rel.sparcReloc with
    | none =>
      refine iff_of_false (fun h => absurd (Prod.mk.inj (Option.some.inj h)).1 (by decide)) ?_
      rintro ⟨-, kind, hk, -⟩
      cases hk
    | some kind =>
      constructor
      · intro h
        exact ⟨h0, kind, rfl, (Prod.mk.inj (Option.some.inj h)).2.symm⟩
      · rintro ⟨-, kind', hk, rfl⟩
        cases hk
        rfl

/-- The word at `a` stays when one apart from it is written. -/
theorem word_putWord_of_apart {a b v : BitVec 32} (h : 4 ≤ (a - b).toNat) (h' : 4 ≤ (b - a).toNat) :
    (mem.putWord b v).word a = mem.word a := by
  refine ByteMem.word_put_of_apart fun i hi => ?_
  have hneg : (b - a).toNat = (2 ^ 32 - (a - b).toNat) % 2 ^ 32 := by
    rw [← BitVec.toNat_neg, BitVec.neg_sub, BitVec.add_comm, BitVec.sub_eq_add_neg]
  have hoff : a + BitVec.ofNat 32 i - b = a - b + BitVec.ofNat 32 i := by
    rw [BitVec.sub_eq_iff_eq_add, BitVec.add_assoc, BitVec.add_comm (BitVec.ofNat 32 i),
      ← BitVec.add_assoc, BitVec.sub_add_cancel]
  rw [hoff, BitVec.toNat_add, BitVec.toNat_ofNat]
  omega

/-- **The law holds** if and only if the symbol has no address, the type is none of those that are
supported, or the target fits. -/
theorem apply_relocate_add_iff (hsec : findElfSec m secName = some (some text)) :
    RelocLaw mem m rel sym secName text ↔
      (sym ≠ 0 → ∀ kind, rel.sparcReloc = some kind →
        kind.Fits (rel.loc text) (rel.target sym) (mem.word (rel.loc text))) := by
  constructor
  · intro h hsym kind hkind
    obtain ⟨kind', hkind', hdec, -⟩ := h.applied _
      ((applyRelocateAddMem_ok hsec).mpr ⟨hsym, kind, hkind, rfl⟩)
    obtain rfl := Option.some.inj (hkind.symm.trans hkind')
    rw [ByteMem.word_putWord (by decide)] at hdec
    exact decode_relocWord_iff.mp hdec
  · intro h
    refine ⟨fun mem' hok => ?_, ?_, fun kind mem' hkind hrep hok => ?_⟩
    · obtain ⟨hsym, kind, hkind, rfl⟩ := (applyRelocateAddMem_ok hsec).mp hok
      rw [ByteMem.word_putWord (by decide)]
      exact ⟨kind, hkind, decode_relocWord_iff.mpr (h hsym kind hkind), relocWord_outside,
        fun x hx => ByteMem.put_of_le hx⟩
    · intro mem₀ rel₀ sym₀ secName₀ text₀ mem' hhi hlo htarget hsec₀ hap hap' hok₀ hok
      obtain ⟨-, kind₀, hkind₀, rfl⟩ := (applyRelocateAddMem_ok hsec₀).mp hok₀
      obtain ⟨hsym, kind, hkind, rfl⟩ := (applyRelocateAddMem_ok hsec).mp hok
      obtain rfl := Option.some.inj (hhi.symm.trans hkind₀)
      obtain rfl := Option.some.inj (hlo.symm.trans hkind)
      have hhigh : ∀ w, SparcReloc.hi22.decode (rel₀.loc text₀)
          (relocWord .hi22 (rel₀.loc text₀) (rel₀.target sym₀) w) =
            SparcReloc.hi22.part (rel₀.target sym₀) :=
        fun w => decode_relocWord_iff.mpr trivial
      rw [word_putWord_of_apart hap hap', ByteMem.word_putWord (by decide),
        ByteMem.word_putWord (by decide), hhigh, decode_relocWord_iff.mpr (h hsym .lo10 hkind),
        htarget, part_add_part]
    · obtain ⟨hsym, kind', hkind', -⟩ := (applyRelocateAddMem_ok hsec).mp hok
      obtain rfl := Option.some.inj (hkind.symm.trans hkind')
      exact hrep ⟨relocWord kind (rel.loc text) (rel.target sym) (mem.word (rel.loc text)),
        decode_relocWord_iff.mpr (h hsym kind hkind)⟩

end Law

/-! ## 5. A branch -/

/-- A binary with its code at `0x40000000`. -/
def patchBinary : ElfBinary :=
  ElfBinary.start.withSecs [some ⟨some (0, cstr ".text"), 0x40000000, 0x100⟩]

theorem apply_relocate_add_iff_branch :
    RelocLaw (fun _ => 0) patchBinary ⟨0x10, 8, 0⟩ 0x40000080 (cstr ".text")
        ⟨some (0, cstr ".text"), 0x40000000, 0x100⟩ ↔
      ((0x40000080 : BitVec 32) ≠ 0 → ∀ kind, ElfRela.sparcReloc ⟨0x10, 8, 0⟩ = some kind →
        kind.Fits (ElfRela.loc ⟨0x10, 8, 0⟩ ⟨some (0, cstr ".text"), 0x40000000, 0x100⟩)
          (ElfRela.target ⟨0x10, 8, 0⟩ 0x40000080)
          (ByteMem.word (fun _ => 0)
            (ElfRela.loc ⟨0x10, 8, 0⟩ ⟨some (0, cstr ".text"), 0x40000000, 0x100⟩))) :=
  apply_relocate_add_iff (by decide)

/-- **A branch to an address that is out of its reach** is patched, and leads elsewhere. -/
theorem apply_relocate_add_far : ¬ ∀ (mem : ByteMem 32) (m : ElfBinary) (rel : ElfRela)
    (sym : BitVec 32) (secName : List UInt8) (text : ElfSection),
    findElfSec m secName = some (some text) → RelocLaw mem m rel sym secName text := by
  intro h
  have hsec : findElfSec patchBinary (cstr ".text") =
      some (some ⟨some (0, cstr ".text"), 0x40000000, 0x100⟩) := by decide
  have hlaw := h (fun _ => 0) patchBinary ⟨0x10, 8, 0⟩ 0x41000000 (cstr ".text") _ hsec
  obtain ⟨kind, hkind, hdec, -⟩ := hlaw.applied _
    ((applyRelocateAddMem_ok hsec).mpr ⟨by decide, .wdisp22, rfl, rfl⟩)
  obtain rfl := Option.some.inj (hkind.symm.trans rfl : some kind = some .wdisp22)
  rw [ByteMem.word_putWord (by decide)] at hdec
  exact absurd (decode_relocWord_iff.mp hdec) fun hreach => absurd hreach.2.2 (by decide)

end FlightOs
