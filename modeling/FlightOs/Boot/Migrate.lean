/-
# Moving the stack

`stack_migrate` (`arch/sparc/kernel/stack.c`) copies the stack that is in use into a new area and
makes the frames in the copy point to one another; `save_stack_trace`
(`arch/sparc/kernel/stacktrace.c`) finds the frames.

* `stackAdjust_word`, `stackAdjust_of_apart`: what the loop over the frames writes.
* `stackMigrate_moves`: the copy has the bytes of the stack, its frames are those of the stack at
  the new place, and the walk up the new stack goes on with what is at the top of the new area.

The memory is that after the register windows are flushed.
-/
import FlightOs.Errno
import FlightOs.Str.Memmove

namespace FlightOs

/-! ## 1. The frames -/

/-- `sf->fp` of a `struct sparc_stackf`, behind `locals` and `ins`. -/
def stackfFp (m : ByteMem 32) (sf : BitVec 32) : BitVec 32 := m.word (sf + 56)

/-- `stack_valid`, with `STACK_ALIGN` -/
def stackValid (sp : BitVec 32) : Bool := decide (¬(sp &&& (8 - 1) ≠ 0 ∨ sp = 0))

/-- The loop of `save_stack_trace`, with room for so many more entries. -/
def saveStackTraceLoop (m : ByteMem 32) : Nat → BitVec 32 → List (BitVec 32)
  | 0, _ => []
  | n + 1, sp =>
    sp :: if stackValid (stackfFp m sp) then saveStackTraceLoop m n (stackfFp m sp) else []

/-- `save_stack_trace`: the frames -/
def saveStackTrace (m : ByteMem 32) (n : Nat) (sp : BitVec 32) : List (BitVec 32) :=
  if stackValid sp then saveStackTraceLoop m n sp else []

/-! ## 2. The move -/

/-- `stack->fp = (char *) stack + stackf_sz; stack = stack->fp`, for all frames but the top one. -/
def stackAdjust (m : ByteMem 32) : List (BitVec 32) → BitVec 32 → ByteMem 32
  | [], _ => m
  | f :: fs, stack =>
    let stackfSz := stackfFp m f - f
    let m := m.putWord (stack + 56) (stack + stackfSz)
    stackAdjust m fs (stackfFp m stack)

/-- What is returned, the memory, and the register `%fp`. -/
structure MigrateResult where
  ret : Int
  mem : ByteMem 32
  fp : BitVec 32

/-- `stack_migrate`, in a function whose registers are `spReg` and `fpReg`. Without a frame,
`frames[x.nr_entries - 1]` is not in the array. -/
def stackMigrate (m : ByteMem 32) (spReg fpReg sp stackTopNew : BitVec 32) :
    Option MigrateResult :=
  if stackTopNew = 0 then some { ret := -EINVAL, mem := m, fp := fpReg }
  else
    let sp := if sp = 0 then spReg else sp
    let frames := saveStackTrace m 30 sp
    match frames.head?, frames.getLast? with
    | some stackBot, some stackTop =>
      let stackSz := stackTop - stackBot
      let spNew := stackTopNew - stackSz
      -- `memcpy` is `memmove`
      match memmove m spNew stackBot stackSz.toNat with
      | none => none
      | some (m, _) =>
        let m := stackAdjust m frames.dropLast spNew
        some { ret := 0, mem := m, fp := stackfFp m spNew }
    | _, _ => none

/-! ## 3. The trace -/

section Trace

variable {m m' : ByteMem 32} {n : Nat} {sp f g : BitVec 32} {fs gs : List (BitVec 32)}

theorem stackValid_iff : stackValid sp = true ↔ sp.toNat % 8 = 0 ∧ sp ≠ 0 := by
  have h : sp &&& (8 - 1) = 0 ↔ sp.toNat % 8 = 0 := by
    rw [← BitVec.toNat_inj, BitVec.toNat_and]
    exact Eq.congr_left (Nat.and_two_pow_sub_one_eq_mod sp.toNat 3)
  rw [stackValid, decide_eq_true_iff, not_or, not_not, h]

/-- Each frame but the last has the next one for its frame pointer. -/
def FramesLinked (m : ByteMem 32) (fs : List (BitVec 32)) : Prop :=
  fs.IsChain fun f g => stackfFp m f = g

theorem saveStackTraceLoop_linked : FramesLinked m (saveStackTraceLoop m n sp) := by
  induction n generalizing sp with
  | zero => exact .nil
  | succ n ih =>
    rw [saveStackTraceLoop]
    split_ifs
    · cases n with
      | zero => exact .singleton _
      | succ n =>
        have hrest : FramesLinked m (saveStackTraceLoop m (n + 1) (stackfFp m sp)) := ih
        rw [saveStackTraceLoop] at hrest ⊢
        exact .cons_cons rfl hrest
    · exact .singleton _

theorem saveStackTraceLoop_valid (hsp : stackValid sp = true) :
    ∀ f ∈ saveStackTraceLoop m n sp, stackValid f = true := by
  induction n generalizing sp with
  | zero => exact fun f hf => absurd hf List.not_mem_nil
  | succ n ih =>
    rw [saveStackTraceLoop, List.forall_mem_cons]
    refine ⟨hsp, ?_⟩
    split_ifs with hfp
    · exact ih hfp
    · exact fun f hf => absurd hf List.not_mem_nil

/-- The frames of a trace are linked, and each is at a valid address. -/
theorem saveStackTrace_linked : FramesLinked m (saveStackTrace m n sp) ∧
    ∀ f ∈ saveStackTrace m n sp, stackValid f = true := by
  rw [saveStackTrace]
  split_ifs with hsp
  · exact ⟨saveStackTraceLoop_linked, saveStackTraceLoop_valid hsp⟩
  · exact ⟨.nil, fun f hf => absurd hf List.not_mem_nil⟩

/-- A walk over linked frames goes through them, and on from the last one. -/
theorem saveStackTraceLoop_of_linked (hl : FramesLinked m (f :: fs ++ [g]))
    (hv : ∀ x ∈ fs ++ [g], stackValid x = true) :
    saveStackTraceLoop m ((f :: fs).length + n) f = f :: fs ++ saveStackTraceLoop m n g := by
  induction fs generalizing f with
  | nil =>
    have hlink : stackfFp m f = g := by simpa [FramesLinked] using hl
    rw [List.length_singleton, Nat.add_comm, saveStackTraceLoop, hlink,
      if_pos (hv g (List.mem_singleton_self g))]
    rfl
  | cons h fs ih =>
    rw [FramesLinked, List.cons_append, List.cons_append, List.isChain_cons_cons] at hl
    rw [List.cons_append, List.forall_mem_cons] at hv
    rw [List.length_cons, Nat.add_right_comm, saveStackTraceLoop, hl.1, if_pos hv.1,
      ih hl.2 hv.2]
    rfl

end Trace

/-! ## 4. The loop over the frames -/

section Adjust

variable {m : ByteMem 32} {f g δ : BitVec 32} {fs : List (BitVec 32)}

/-- No byte of the frame pointer of `f` is one of that of `g`. -/
def FpApart (f g : BitVec 32) : Prop := ∀ i < 4, 4 ≤ (f + 56 + BitVec.ofNat 32 i - (g + 56)).toNat

theorem stackfFp_putWord (v : BitVec 32) : stackfFp (m.putWord (f + 56) v) f = v :=
  ByteMem.word_putWord (by decide)

theorem stackfFp_putWord_of_apart {v : BitVec 32} (h : FpApart f g) :
    stackfFp (m.putWord (g + 56) v) f = stackfFp m f :=
  ByteMem.word_put_of_apart h

theorem stackAdjust_cons (h : stackfFp m f = g) : stackAdjust m (f :: fs) (f + δ) =
    stackAdjust (m.putWord (f + δ + 56) (g + δ)) fs (g + δ) := by
  have hnext : f + δ + (g - f) = g + δ := by bv_omega
  rw [stackAdjust, h, hnext, stackfFp_putWord]

/-- The frame pointer of the last frame is not part of the links. -/
theorem FramesLinked.congr {m' : ByteMem 32} (hl : FramesLinked m (f :: fs))
    (h : ∀ a ∈ (f :: fs).dropLast, stackfFp m' a = stackfFp m a) : FramesLinked m' (f :: fs) := by
  induction fs generalizing f with
  | nil => exact .singleton f
  | cons g fs ih =>
    rw [FramesLinked, List.isChain_cons_cons] at hl ⊢
    rw [List.dropLast_cons_cons, List.forall_mem_cons] at h
    exact ⟨h.1.trans hl.1, ih hl.2 h.2⟩

/-- The loop reads the old stack, of which it writes nothing. -/
structure Readable (fs : List (BitVec 32)) (δ : BitVec 32) : Prop where
  apart : ∀ a ∈ fs, ∀ b ∈ fs, FpApart a (b + δ)

theorem Readable.tail (h : Readable (f :: fs) δ) : Readable fs δ :=
  ⟨fun a ha b hb => h.apart a (List.mem_cons_of_mem f ha) b (List.mem_cons_of_mem f hb)⟩

/-- A step of the loop leaves the links of the frames ahead as they are. -/
theorem FramesLinked.step (hl : FramesLinked m (g :: fs)) (hr : Readable (f :: (g :: fs).dropLast) δ)
    (v : BitVec 32) : FramesLinked (m.putWord (f + δ + 56) v) (g :: fs) :=
  hl.congr fun a ha => stackfFp_putWord_of_apart <|
    hr.apart a (List.mem_cons_of_mem f ha) f List.mem_cons_self

/-- Only the frame pointers at the new place are written. -/
theorem stackAdjust_of_apart (hl : FramesLinked m (f :: fs)) (hr : Readable (f :: fs).dropLast δ)
    {x : BitVec 32} (hx : ∀ a ∈ (f :: fs).dropLast, 4 ≤ (x - (a + δ + 56)).toNat) :
    stackAdjust m (f :: fs).dropLast (f + δ) x = m x := by
  induction fs generalizing m f with
  | nil => rfl
  | cons g fs ih =>
    rw [FramesLinked, List.isChain_cons_cons] at hl
    rw [List.dropLast_cons_cons] at hr hx ⊢
    rw [List.forall_mem_cons] at hx
    rw [stackAdjust_cons hl.1, ih (FramesLinked.step hl.2 hr _) hr.tail hx.2]
    exact ByteMem.put_of_le hx.1

/-- The frames at the new place are linked as those at the old one are. -/
theorem stackAdjust_linked (hl : FramesLinked m (f :: fs)) (hr : Readable (f :: fs).dropLast δ)
    (hup : (f :: fs).dropLast.Pairwise fun a b => FpApart (a + δ) (b + δ)) :
    FramesLinked (stackAdjust m (f :: fs).dropLast (f + δ)) ((f :: fs).map (· + δ)) := by
  induction fs generalizing m f with
  | nil => exact .singleton _
  | cons g fs ih =>
    rw [FramesLinked, List.isChain_cons_cons] at hl
    rw [List.dropLast_cons_cons] at hr hup ⊢
    rw [List.pairwise_cons] at hup
    have hnext := FramesLinked.step hl.2 hr (g + δ)
    rw [stackAdjust_cons hl.1]
    refine .cons_cons ?_ (ih hnext hr.tail hup.2)
    have hkeep : stackfFp (stackAdjust (m.putWord (f + δ + 56) (g + δ)) (g :: fs).dropLast (g + δ))
        (f + δ) = stackfFp (m.putWord (f + δ + 56) (g + δ)) (f + δ) :=
      ByteMem.word_congr fun i hi =>
        stackAdjust_of_apart hnext hr.tail fun a ha => hup.1 a ha i hi
    rw [hkeep, stackfFp_putWord]

end Adjust

/-! ## 5. The new stack -/

section Moved

variable {m : ByteMem 32} {spReg fpReg sp bot last top : BitVec 32} {mid : List (BitVec 32)}

/-- The frame pointer of a frame is below the next frame. -/
def Ascending (fs : List (BitVec 32)) : Prop := fs.IsChain fun f g => f.toNat + 60 ≤ g.toNat

/-- The new area is a place for the stack: it holds it, is apart from it, and has a valid end. -/
structure StackArea (bot last top : BitVec 32) : Prop where
  fits : last.toNat - bot.toNat < top.toNat
  apart : top.toNat ≤ bot.toNat ∨ last.toNat + (last.toNat - bot.toNat) ≤ top.toNat
  aligned : top.toNat % 8 = 0

/-- The stack that is left in the memory `m'`: nothing is changed outside the new area, in it are
the bytes of the old stack but for the frame pointers, and its frames are the old ones. -/
structure StackMoved (m m' : ByteMem 32) (fs : List (BitVec 32)) (bot last top : BitVec 32) :
    Prop where
  outside : ∀ x : BitVec 32,
    x.toNat + (last.toNat - bot.toNat) < top.toNat ∨ top.toNat ≤ x.toNat → m' x = m x
  copied : ∀ x : BitVec 32, bot.toNat ≤ x.toNat → x.toNat < last.toNat →
    (∀ f ∈ fs, 4 ≤ (x - (f + 56)).toNat) → m' (x + (top - last)) = m x
  walk : ∀ n, saveStackTrace m' (fs.length + n) (bot + (top - last)) =
    fs.map (· + (top - last)) ++ saveStackTraceLoop m' n top

theorem Ascending.pairwise (hup : Ascending (bot :: mid ++ [last])) :
    (bot :: mid).Pairwise (fun f g => f.toNat + 60 ≤ g.toNat) ∧
      ∀ f ∈ bot :: mid, bot.toNat ≤ f.toNat ∧ f.toNat + 60 ≤ last.toNat := by
  have htrans : IsTrans (BitVec 32) (fun f g => f.toNat + 60 ≤ g.toNat) :=
    ⟨fun a b c hab hbc => by omega⟩
  obtain ⟨hfs, -, hlast⟩ := List.pairwise_append.mp (List.isChain_iff_pairwise.mp hup)
  refine ⟨hfs, fun f hf => ⟨?_, hlast f hf last (List.mem_singleton_self last)⟩⟩
  obtain rfl | hf := List.mem_cons.mp hf
  · exact Nat.le_refl _
  · have := (List.pairwise_cons.mp hfs).1 f hf
    omega

/-- A distance between addresses, counted up to the end of the memory and on from its start. -/
theorem le_toNat_sub {x y : BitVec 32} {k : Nat} (h : y.toNat + k ≤ x.toNat ∨
    x.toNat < y.toNat ∧ y.toNat + k ≤ 2 ^ 32 + x.toNat) : k ≤ (x - y).toNat := by
  have hx := x.isLt
  have hy := y.isLt
  rw [BitVec.toNat_sub]
  omega

theorem toNat_fpByte {f : BitVec 32} (h : f.toNat + 60 ≤ last.toNat) {i : Nat} (hi : i < 4) :
    (f + 56 + BitVec.ofNat 32 i).toNat = f.toNat + 56 + i := by
  have hlast := last.isLt
  rw [BitVec.toNat_add, BitVec.toNat_add, BitVec.toNat_ofNat, show (56 : BitVec 32).toNat = 56 from rfl]
  omega

/-- Where an address of the stack is in the new area. -/
theorem StackArea.toNat_moved (ha : StackArea bot last top) {x : BitVec 32} (h₁ : bot.toNat ≤ x.toNat)
    (h₂ : x.toNat ≤ last.toNat) : (x + (top - last)).toNat = x.toNat + top.toNat - last.toNat := by
  have hfits := ha.fits
  have htop := top.isLt
  rw [BitVec.toNat_add, BitVec.toNat_sub]
  omega

theorem StackArea.toNat_movedFp (ha : StackArea bot last top) {f : BitVec 32}
    (h₁ : bot.toNat ≤ f.toNat) (h₂ : f.toNat + 60 ≤ last.toNat) :
    (f + (top - last) + 56).toNat = f.toNat + top.toNat - last.toNat + 56 := by
  have hmoved := ha.toNat_moved h₁ (by omega)
  have htop := top.isLt
  rw [BitVec.toNat_add, hmoved, show (56 : BitVec 32).toNat = 56 from rfl]
  omega

theorem toNat_stackSz (hle : bot.toNat ≤ last.toNat) :
    (last - bot).toNat = last.toNat - bot.toNat := by
  have hlast := last.isLt
  rw [BitVec.toNat_sub]
  omega

theorem StackArea.readable (ha : StackArea bot last top)
    {fs : List (BitVec 32)} (hin : ∀ f ∈ fs, bot.toNat ≤ f.toNat ∧ f.toNat + 60 ≤ last.toNat) :
    Readable fs (top - last) := by
  refine ⟨fun a hma b hmb i hi => ?_⟩
  obtain ⟨ha₁, ha₂⟩ := hin a hma
  obtain ⟨hb₁, hb₂⟩ := hin b hmb
  have hfits := ha.fits
  have hapart := ha.apart
  have htop := top.isLt
  apply le_toNat_sub
  rw [toNat_fpByte ha₂ hi, ha.toNat_movedFp hb₁ hb₂]
  omega

theorem fpApart_of_lt {f g : BitVec 32} (δ : BitVec 32) (h : f.toNat + 60 ≤ g.toNat)
    (hg : g.toNat + 60 < 2 ^ 32) : FpApart (f + δ) (g + δ) := by
  intro i hi
  bv_omega

theorem StackArea.le_outside (ha : StackArea bot last top) (hle : bot.toNat ≤ last.toNat) {x : BitVec 32}
    (hx : x.toNat + (last.toNat - bot.toNat) < top.toNat ∨ top.toNat ≤ x.toNat) :
    (last - bot).toNat ≤ (x - (bot + (top - last))).toNat := by
  have hfits := ha.fits
  have htop := top.isLt
  apply le_toNat_sub
  rw [toNat_stackSz hle, ha.toNat_moved (Nat.le_refl _) hle]
  omega

theorem StackArea.fp_outside (ha : StackArea bot last top) {f x : BitVec 32}
    (h₁ : bot.toNat ≤ f.toNat) (h₂ : f.toNat + 60 ≤ last.toNat)
    (hx : x.toNat + (last.toNat - bot.toNat) < top.toNat ∨ top.toNat ≤ x.toNat) :
    4 ≤ (x - (f + (top - last) + 56)).toNat := by
  have hfits := ha.fits
  have htop := top.isLt
  apply le_toNat_sub
  rw [ha.toNat_movedFp h₁ h₂]
  omega

theorem StackArea.valid (ha : StackArea bot last top) {f : BitVec 32}
    (hf : bot.toNat ≤ f.toNat ∧ f.toNat ≤ last.toNat) (hvf : stackValid f = true)
    (hvl : stackValid last = true) : stackValid (f + (top - last)) = true := by
  have hfits := ha.fits
  have haligned := ha.aligned
  have hmoved := ha.toNat_moved hf.1 hf.2
  rw [stackValid_iff] at hvf hvl ⊢
  have hf₈ := hvf.1
  have hl₈ := hvl.1
  constructor
  · rw [hmoved]
    omega
  · intro hzero
    rw [hzero, show (0 : BitVec 32).toNat = 0 from rfl] at hmoved
    omega

/-- The bytes of the stack at the new place. -/
def stackCopy (m : ByteMem 32) (bot last top : BitVec 32) : ByteMem 32 :=
  m.put (bot + (top - last)) (fun i => m (bot + BitVec.ofNat 32 i)) (last - bot).toNat

theorem stackCopy_at {x : BitVec 32} (h₁ : bot.toNat ≤ x.toNat) (h₂ : x.toNat < last.toNat) :
    stackCopy m bot last top (x + (top - last)) = m x := by
  have hsrc : bot + BitVec.ofNat 32 (x - bot).toNat = x := by
    rw [BitVec.ofNat_toNat, BitVec.setWidth_eq]
    bv_omega
  have hdst : x + (top - last) = bot + (top - last) + BitVec.ofNat 32 (x - bot).toNat := by
    rw [BitVec.ofNat_toNat, BitVec.setWidth_eq]
    bv_omega
  rw [stackCopy, hdst, ByteMem.put_at (by bv_omega) (by bv_omega), hsrc]

theorem StackArea.word_apart (ha : StackArea bot last top) {f : BitVec 32} (h₁ : bot.toNat ≤ f.toNat)
    (h₂ : f.toNat + 60 ≤ last.toNat) {i : Nat} (hi : i < 4) :
    (last - bot).toNat ≤ (f + 56 + BitVec.ofNat 32 i - (bot + (top - last))).toNat := by
  have hfits := ha.fits
  have hapart := ha.apart
  have htop := top.isLt
  have hle : bot.toNat ≤ last.toNat := by omega
  apply le_toNat_sub
  rw [toNat_fpByte h₂ hi, toNat_stackSz hle, ha.toNat_moved (Nat.le_refl _) hle]
  omega

theorem StackArea.linked (ha : StackArea bot last top) (hl : FramesLinked m (bot :: mid ++ [last]))
    (hin : ∀ f ∈ bot :: mid, bot.toNat ≤ f.toNat ∧ f.toNat + 60 ≤ last.toNat) :
    FramesLinked (stackCopy m bot last top) (bot :: mid ++ [last]) := by
  have hdrop : (bot :: (mid ++ [last])).dropLast = bot :: mid := by
    rw [← List.cons_append, List.dropLast_concat]
  rw [List.cons_append] at hl ⊢
  refine hl.congr fun f hf => ?_
  rw [hdrop] at hf
  exact ByteMem.word_put_of_apart fun i hi => ha.word_apart (hin f hf).1 (hin f hf).2 hi

theorem stackMigrate_of_trace
    (ht : saveStackTrace m 30 (if sp = 0 then spReg else sp) = bot :: mid ++ [last])
    (hup : Ascending (bot :: mid ++ [last])) (ha : StackArea bot last top) :
    stackMigrate m spReg fpReg sp top = some
      { ret := 0
        mem := stackAdjust (stackCopy m bot last top) (bot :: mid) (bot + (top - last))
        fp := stackfFp (stackAdjust (stackCopy m bot last top) (bot :: mid) (bot + (top - last)))
          (bot + (top - last)) } := by
  obtain ⟨-, hin⟩ := hup.pairwise
  obtain ⟨hbot, hle⟩ := hin bot List.mem_cons_self
  have hfits := ha.fits
  have htop : top ≠ 0 := by rintro rfl; simp at hfits
  have hplace : top - (last - bot) = bot + (top - last) := by bv_omega
  have hnew : (bot + (top - last)).toNat + (last - bot).toNat ≤ 2 ^ 32 := by bv_omega
  have hold : bot.toNat + (last - bot).toNat ≤ 2 ^ 32 := by bv_omega
  unfold stackMigrate
  rw [if_neg htop]
  dsimp only
  rw [ht, List.getLast?_concat, List.dropLast_concat]
  dsimp only [List.cons_append, List.head?_cons]
  rw [hplace, memmove_spec hnew hold]
  rfl

/-- **The stack is moved.** -/
theorem stackMigrate_moves
    (ht : saveStackTrace m 30 (if sp = 0 then spReg else sp) = bot :: mid ++ [last])
    (hup : Ascending (bot :: mid ++ [last])) (ha : StackArea bot last top) :
    ∃ m', stackMigrate m spReg fpReg sp top =
        some { ret := 0, mem := m', fp := mid.headD last + (top - last) } ∧
      StackMoved m m' (bot :: mid) bot last top := by
  obtain ⟨hpair, hin⟩ := hup.pairwise
  have hl : FramesLinked (stackCopy m bot last top) (bot :: (mid ++ [last])) :=
    ha.linked (ht ▸ saveStackTrace_linked.1) hin
  have hv : ∀ f ∈ bot :: mid ++ [last], stackValid f = true := ht ▸ saveStackTrace_linked.2
  have hdrop : (bot :: (mid ++ [last])).dropLast = bot :: mid := by
    rw [← List.cons_append, List.dropLast_concat]
  have hr : Readable (bot :: (mid ++ [last])).dropLast (top - last) := hdrop ▸ ha.readable hin
  have hnew : (bot :: mid).Pairwise fun f g => FpApart (f + (top - last)) (g + (top - last)) :=
    hpair.imp_of_mem fun hf hg h =>
      fpApart_of_lt (top - last) h (Nat.lt_of_le_of_lt (hin _ hg).2 last.isLt)
  have hlinked := stackAdjust_linked hl hr (hdrop ▸ hnew)
  have hkeep := fun x => stackAdjust_of_apart hl hr (x := x)
  rw [hdrop] at hlinked hkeep
  generalize hm' : stackAdjust (stackCopy m bot last top) (bot :: mid) (bot + (top - last)) = m'
    at hlinked hkeep
  refine ⟨m', ?_, ?_, ?_, ?_⟩
  · have hfp : stackfFp m' (bot + (top - last)) = mid.headD last + (top - last) := by
      cases mid with
      | nil => exact (List.isChain_cons_cons.mp hlinked).1
      | cons g mid => exact (List.isChain_cons_cons.mp hlinked).1
    rw [stackMigrate_of_trace ht hup ha, hm', hfp]
  · intro x hx
    rw [hkeep x fun a hmem => ?_]
    · refine ByteMem.put_of_le ?_
      obtain ⟨-, hbot⟩ := hin bot List.mem_cons_self
      exact ha.le_outside (by omega) hx
    · obtain ⟨ha₁, ha₂⟩ := hin a hmem
      exact ha.fp_outside ha₁ ha₂ hx
  · intro x hx₁ hx₂ hx
    rw [hkeep (x + (top - last)) fun a hmem => ?_]
    · exact stackCopy_at hx₁ hx₂
    · rw [show x + (top - last) - (a + (top - last) + 56) = x - (a + 56) by bv_omega]
      exact hx a hmem
  · intro n
    have hvalid : ∀ f ∈ (bot :: (mid ++ [last])).map (· + (top - last)), stackValid f = true := by
      intro f hf
      obtain ⟨g, hg, rfl⟩ := List.mem_map.mp hf
      refine ha.valid ?_ (hv g hg) (hv last (List.mem_append_right _ (List.mem_singleton_self last)))
      rw [← List.cons_append, List.mem_append] at hg
      obtain hg | hg := hg
      · obtain ⟨hg₁, hg₂⟩ := hin g hg
        omega
      · obtain rfl := List.mem_singleton.mp hg
        obtain ⟨-, hbot⟩ := hin bot List.mem_cons_self
        omega
    rw [List.map_cons, List.map_append, List.map_singleton] at hlinked hvalid
    rw [saveStackTrace, if_pos (hvalid _ List.mem_cons_self)]
    have hwalk := saveStackTraceLoop_of_linked hlinked
      (fun x hx => hvalid x (List.mem_cons_of_mem _ hx)) (n := n)
    rw [List.map_cons, List.length_cons]
    rwa [show last + (top - last) = top by bv_omega, List.length_cons, List.length_map] at hwalk

end Moved

/-- Three frames, from `0x1000` on. -/
def stackSample : ByteMem 32 := fun x =>
  if x = 0x103a ∨ x = 0x109a then 0x10 else if x = 0x103b then 0x60
  else if x = 0x109b then 0xc0 else 0

theorem stackMigrate_moves_sample :
    ∃ m', stackMigrate stackSample 0x1000 0x1060 0 0x2000 =
        some { ret := 0, mem := m', fp := 0x1060 + (0x2000 - 0x10c0) } ∧
      StackMoved stackSample m' [0x1000, 0x1060] 0x1000 0x10c0 0x2000 :=
  @stackMigrate_moves stackSample 0x1000 0x1060 0 0x1000 0x10c0 0x2000 [0x1060] (by rfl)
    (by simp [Ascending]) ⟨by decide, by decide, by decide⟩

end FlightOs
