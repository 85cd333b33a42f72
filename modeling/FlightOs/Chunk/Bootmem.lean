/-
# The boot memory

Boot memory (`arch/sparc/kernel/bootmem.c`) is a chunk pool over the page map.  Where new memory is
not requested on demand, `bootmem_alloc_internal` asks the page map once, and never again; but the
pool hands a region back when its last buffer is freed, and then has none.

`bootmem_returns_iff`: what boot memory could serve once, it can serve again, if and only if the
page map has not been asked yet, or the pool has a chunk with room.  `bootmem_drained`: once the
page map has been asked and all buffers are freed, each while it was the youngest, nothing can be
served.
-/
import FlightOs.Chunk.Contract

namespace FlightOs

/-! ## 1. The wrapper -/

/-- The pool and its buffers, and `blocked` of `bootmem_alloc_internal`. -/
structure BootmemState where
  phys : ChunkState
  blocked : Bool

/-- What `bootmem_alloc_internal` returns, where the page map would return `region`. -/
def BootmemState.answer (s : BootmemState) (region : Nat) : Nat := if s.blocked then 0 else region

/-- `none` is the BUG.  The pool has called `bootmem_alloc_internal` if there is a record of it. -/
def bootmemAlloc (s : BootmemState) (size region real : Nat) : Option (BootmemState × Nat) :=
  if size = 0 then some (s, 0)
  else
    match chunkAlloc s.phys.pool size (s.answer region) real with
    | none => none
    | some (pool, ptr) =>
      if ptr = 0 then none
      else
        some (⟨⟨pool, addBlock s.phys.live ptr size⟩,
          s.blocked || decide (pool.tier ≠ s.phys.pool.tier)⟩, ptr)

def bootmemFree (s : BootmemState) (ptr : Nat) : Option BootmemState :=
  (chunkFree s.phys.pool ptr).map fun pool => { s with phys := ⟨pool, dropBlock s.phys.live ptr⟩ }

/-! ## 2. Its runs -/

/-- With an allocation comes what the page map would return, and the size of that. -/
inductive BootmemOp
  | alloc (size region real : Nat)
  | free (ptr : Nat)

def bootmemCall (s : BootmemState) : BootmemOp → Option BootmemState
  | .alloc size region real => (bootmemAlloc s size region real).map Prod.fst
  | .free ptr => bootmemFree s ptr

/-- The call of the pool. -/
def BootmemState.op (s : BootmemState) : BootmemOp → ChunkOp
  | .alloc size region real => .alloc size (s.answer region) real
  | .free ptr => .free ptr

def BootmemOk (s : BootmemState) (o : BootmemOp) : Prop := ChunkOk s.phys (s.op o)

/-- `chunk_pool_init` in `bootmem_init`. -/
def bootmemPool (hdr : Nat → ChunkHdr) (links : Links ChunkNode) : ChunkState :=
  ⟨chunkPoolInit hdr links 8 true true, []⟩

def bootmemSystem : System BootmemState BootmemOp :=
  .ofFun (fun s => ∃ hdr links, s = ⟨bootmemPool hdr links, false⟩) bootmemCall

/-- A chunk that is searched has room. -/
def BootmemState.HasRoom (s : BootmemState) (size : Nat) : Prop :=
  chunkFindFrom s.phys.pool (chunkAllocSz s.phys.pool size) chunkFuel
    (s.phys.pool.links .full).next ≠ some 0

section Pool

variable {Y S : Prop} {s : ChunkPool} {live : List (Nat × Nat)} {fl em : List Nat}
  {size region real : Nat}

/-- A chunk with room serves the call, whatever the higher tier would answer. -/
theorem ChunkInv.alloc_room (I : ChunkInv Y S 0 s live fl em) (ha : PoolAlign s.align)
    (h0 : size ≠ 0) (hfits : size + (chunkHeader + (s.align + s.align)) ≤ 2 ^ 32)
    (hroom : chunkFindFrom s (chunkAllocSz s size) chunkFuel (s.links .full).next ≠ some 0) :
    ∃ s' p, chunkAlloc s size region real = some (s', p) ∧ p ≠ 0 := by
  rcases I.search (chunkAllocSz s size) with ⟨hnone, -⟩ | ⟨c, hc, hc0, hfit, hfind⟩
  · exact absurd hnone hroom
  · obtain ⟨j, rfl⟩ : ∃ j, c = j + 1 := ⟨c - 1, by omega⟩
    obtain ⟨hdvd, hle⟩ := chunkAllocSz_spec ha.pos hfits
    obtain ⟨s₁, -, -, m, hsplit, hm, -, -, hp, -⟩ :=
      I.split ha.pos ha.dvd (Or.inl rfl) hc hdvd (Nat.pos_of_ne_zero h0) hle hfit
    refine ⟨s₁, (s₁.hdr m).mem, ?_, hp⟩
    rw [chunkAlloc, if_neg (by simp [I.supplied]), if_neg h0]
    simp only [hfind, chunkAllocFrom, hsplit, if_neg hm]

theorem chunkGrabNew_ne_zero (s : ChunkPool) (hn : region ≠ 0)
    (hsz : size ≤ s.regionSize size real) : (chunkGrabNew s size region real).2 ≠ 0 := by
  rw [chunkGrabNew_eq, if_neg hn, if_neg (fun h => Nat.not_lt.mpr hsz h.2)]
  exact hn

/-- Without such a chunk the higher tier is asked, and the call is served if its answer is large
enough. -/
theorem ChunkInv.alloc_asks (I : ChunkInv Y S 0 s live fl em) (ha : PoolAlign s.align)
    (h0 : size ≠ 0) (hT : TierAnswers s region (s.regionSize (chunkAllocSz s size) real))
    (hF : AllocFits s size region (s.regionSize (chunkAllocSz s size) real))
    (hnone : chunkFindFrom s (chunkAllocSz s size) chunkFuel (s.links .full).next = some 0) :
    ∃ s' p, chunkAlloc s size region real = some (s', p) ∧ s'.tier ≠ s.tier ∧
      (p ≠ 0 ↔ region ≠ 0 ∧ chunkAllocSz s size ≤ s.regionSize (chunkAllocSz s size) real) := by
  obtain ⟨hdvd, hle⟩ := chunkAllocSz_spec ha.pos hF.1
  have htier := chunkGrabNew_tier s (chunkAllocSz s size) region real
  have hcall : chunkAlloc s size region real =
      if (chunkGrabNew s (chunkAllocSz s size) region real).2 = 0 then
        some ((chunkGrabNew s (chunkAllocSz s size) region real).1, 0)
      else chunkAllocFrom (chunkGrabNew s (chunkAllocSz s size) region real).1
        (chunkGrabNew s (chunkAllocSz s size) region real).2 (chunkAllocSz s size) := by
    rw [chunkAlloc, if_neg (by simp [I.supplied]), if_neg h0]
    simp only [hnone]
  rw [hcall]
  rcases I.grab ha.pos (by omega) hT with ⟨s', hgrab, -, -⟩ | ⟨hr, hsz, s', hgrab, hal, I', hfree⟩
  · rw [hgrab] at htier
    refine ⟨s', 0, by rw [hgrab]; exact if_pos rfl, fun h => by rw [h] at htier; omega, ?_⟩
    refine ⟨fun h => absurd rfl h, fun h => ?_⟩
    have hne : (chunkGrabNew s (chunkAllocSz s size) region real).2 ≠ 0 :=
      chunkGrabNew_ne_zero s h.1 h.2
    rw [hgrab] at hne
    exact absurd rfl hne
  · rw [hgrab] at htier ⊢
    have hroom := hF.2 hr hsz
    obtain ⟨s₁, -, -, m, hsplit, hm, -, htier', hp, -⟩ :=
      I'.split (hal ▸ ha.pos) (hal ▸ ha.dvd) (Or.inr rfl) (by simp) (hal ▸ hdvd)
        (Nat.pos_of_ne_zero h0) (hal ▸ hle) (n := chunkAllocSz s size) (by omega)
    refine ⟨s₁, (s₁.hdr m).mem, ?_, ?_, fun _ => ⟨hr, hsz⟩, fun _ => hp⟩
    · simp only [if_neg hr, chunkAllocFrom, hsplit, if_neg hm]
    · rw [htier']
      intro h
      simp only at htier
      rw [h] at htier
      omega

/-- A pool whose higher tier has not been asked has no chunk. -/
theorem ChunkInv.unasked (I : ChunkInv Y S 0 s live fl em) (ha : 0 < s.align) (h : s.tier = [])
    (n : Nat) : chunkFindFrom s n chunkFuel (s.links .full).next = some 0 := by
  rcases I.search n with ⟨hnone, -⟩ | ⟨c, hc, -⟩
  · exact hnone
  · obtain ⟨t, ht, htop, -⟩ := I.tree.rooted ha c (mem_chunkSet.mpr (Or.inl hc))
    have hheld := (I.held (t, (s.hdr t).size)).mpr ⟨ht, htop, rfl⟩
    rw [h] at hheld
    cases hheld

end Pool

/-! ## 3. What holds all along -/

structure BootmemRun (Y : Prop) (s : BootmemState) : Prop where
  run : ChunkRun Y False 8 s.phys
  fresh : s.blocked = false → ∃ hdr links, s.phys = bootmemPool hdr links

theorem poolAlign_eight : PoolAlign 8 := poolAlign_pow (k := 3) (by decide) (by decide)

section Run

variable {Y : Prop} {s s' s₀ : BootmemState} {o : BootmemOp} {size region real : Nat}

theorem BootmemRun.init {hdr : Nat → ChunkHdr} {links : Links ChunkNode} :
    BootmemRun Y ⟨bootmemPool hdr links, false⟩ := by
  have hinit : (chunkSystem 8 true).init (bootmemPool hdr links) := ⟨hdr, links, rfl⟩
  exact ⟨.init hinit, fun _ => ⟨hdr, links, rfl⟩⟩

/-- A fresh pool asks. -/
theorem BootmemRun.asks (h : BootmemRun Y s) (hb : s.blocked = false) :
    ¬ s.HasRoom size := by
  obtain ⟨hdr, links, hphys⟩ := h.fresh hb
  obtain ⟨-, fl, em, I⟩ := h.run
  intro hroom
  apply hroom
  rw [hphys] at I ⊢
  exact I.unasked (Nat.succ_pos 7) rfl _

/-- What an allocation comes to. -/
theorem BootmemRun.alloc_iff (h : BootmemRun Y s) (h0 : size ≠ 0)
    (hok : BootmemOk s (.alloc size region real)) :
    (bootmemAlloc s size region real).isSome ↔
      s.HasRoom size ∨ s.answer region ≠ 0 ∧ chunkAllocSz s.phys.pool size ≤
        s.phys.pool.regionSize (chunkAllocSz s.phys.pool size) real := by
  obtain ⟨hal, fl, em, I⟩ := h.run
  have ha : PoolAlign s.phys.pool.align := hal ▸ poolAlign_eight
  have hserved : ∀ {pool : ChunkPool} {p : Nat},
      chunkAlloc s.phys.pool size (s.answer region) real = some (pool, p) →
      ((bootmemAlloc s size region real).isSome ↔ p ≠ 0) := by
    intro pool p heq
    rw [bootmemAlloc, if_neg h0, heq]
    by_cases hp : p = 0 <;> simp [hp]
  by_cases hroom : s.HasRoom size
  · obtain ⟨pool, p, heq, hp⟩ : ∃ pool p,
        chunkAlloc s.phys.pool size (s.answer region) real = some (pool, p) ∧ p ≠ 0 :=
      I.alloc_room ha h0 hok.2.1 hroom
    rw [hserved heq]
    exact ⟨fun _ => .inl hroom, fun _ => hp⟩
  · obtain ⟨pool, p, heq, -, hp⟩ := I.alloc_asks ha h0 hok.1.2 hok.2 (not_not.mp hroom)
    rw [hserved heq, hp]
    exact ⟨.inr, fun h => h.resolve_left hroom⟩

/-- **The step.** -/
theorem BootmemRun.call (h : BootmemRun Y s) (ho : BootmemOk s o)
    (hY : Y → ChunkStacked s.phys (s.op o)) (hstep : bootmemCall s o = some s') :
    BootmemRun Y s' ∧ (s'.blocked = false → s.blocked = false) := by
  obtain ⟨t, hcall, hrun⟩ := h.run.call poolAlign_eight ho hY False.elim
  cases o with
  | alloc size region real =>
    obtain ⟨⟨s₁, ptr⟩, halloc, rfl⟩ := Option.map_eq_some_iff.mp hstep
    by_cases h0 : size = 0
    · rw [bootmemAlloc, if_pos h0] at halloc
      cases halloc
      exact ⟨h, id⟩
    obtain ⟨⟨pool, p⟩, heq, ht⟩ := Option.map_eq_some_iff.mp hcall
    rw [bootmemAlloc, if_neg h0, heq] at halloc
    by_cases hp : p = 0
    · simp [hp] at halloc
    · simp only [if_neg hp, Option.some.injEq, Prod.mk.injEq] at halloc
      obtain ⟨rfl, rfl⟩ := halloc
      subst ht
      have hkept : (s.blocked || decide (pool.tier ≠ s.phys.pool.tier)) = false →
          s.blocked = false := fun hb => (Bool.or_eq_false_iff.mp hb).1
      refine ⟨⟨hrun, fun hb => ?_⟩, hkept⟩
      -- the pool was fresh, so it has asked
      obtain ⟨hal, fl, em, I⟩ := h.run
      obtain ⟨pool', p', heq', htier, -⟩ := I.alloc_asks (hal ▸ poolAlign_eight) h0 ho.1.2 ho.2
        (not_not.mp (h.asks (hkept hb)))
      obtain ⟨rfl, -⟩ := Prod.mk.inj (Option.some.inj (heq.symm.trans heq'))
      exact absurd (of_decide_eq_false (Bool.or_eq_false_iff.mp hb).2) (not_not.mpr htier)
  | free ptr =>
    obtain ⟨pool, hfree, rfl⟩ := Option.map_eq_some_iff.mp hstep
    have ht : (⟨pool, dropBlock s.phys.live ptr⟩ : ChunkState) = t := by
      have hcall' : (chunkFree s.phys.pool ptr).map
          (fun pool => (⟨pool, dropBlock s.phys.live ptr⟩ : ChunkState)) = some t := hcall
      rw [hfree] at hcall'
      exact Option.some.inj hcall'
    refine ⟨⟨ht ▸ hrun, fun hb => ?_⟩, id⟩
    -- there is nothing to free yet
    obtain ⟨hdr, links, hphys⟩ := h.fresh hb
    obtain rfl : ptr = 0 := by
      rcases ho.1 with h0 | ⟨e, he, -⟩
      · exact h0
      · rw [hphys] at he
        cases he
    refine ⟨hdr, links, ?_⟩
    have hnull : ∀ p : ChunkPool, chunkFree p 0 = some p := fun p => rfl
    rw [hnull] at hfree
    obtain rfl := Option.some.inj hfree
    simp only [hphys]
    rfl

/-- **The run.** -/
theorem BootmemRun.of_reachable
    (h : bootmemSystem.Reachable
      (fun s o => BootmemOk s o ∧ (Y → ChunkStacked s.phys (s.op o))) s) : BootmemRun Y s := by
  refine h.invariant (fun s hs => ?_) (fun s o s' hs ho hstep => (hs.call ho.1 ho.2 hstep).1)
  obtain ⟨hdr, links, rfl⟩ := hs
  exact BootmemRun.init

/-- A later state of a run. -/
theorem BootmemRun.later (h₀ : BootmemRun False s₀)
    (h : (System.ofFun (· = s₀) bootmemCall).Reachable BootmemOk s) :
    BootmemRun False s ∧ (s.blocked = false → s₀.blocked = false) := by
  refine h.invariant (I := fun s => BootmemRun False s ∧ (s.blocked = false → s₀.blocked = false))
    (fun s hs => ?_) (fun s o s' hs ho hstep => ?_)
  · obtain rfl : s = s₀ := hs
    exact ⟨h₀, id⟩
  · obtain ⟨hrun, hkept⟩ := hs.1.call ho False.elim hstep
    exact ⟨hrun, fun hb => hs.2 (hkept hb)⟩

end Run

/-! ## 4. The contract -/

/-- **What boot memory could serve it can serve again**, if and only if the page map has not been
asked yet, or a chunk has room. -/
theorem bootmem_returns_iff {s₀ s : BootmemState} (h₀ : bootmemSystem.Reachable BootmemOk s₀)
    (h : (System.ofFun (· = s₀) bootmemCall).Reachable BootmemOk s) {size region real : Nat}
    (hpos : size ≠ 0) (hok : BootmemOk s₀ (.alloc size region real))
    (hserved : (bootmemAlloc s₀ size region real).isSome) :
    (bootmemAlloc s size region real).isSome ↔ s.blocked = false ∨ s.HasRoom size := by
  have hrun₀ : BootmemRun False s₀ := .of_reachable (h₀.mono (fun _ _ => trivial)
    fun s o _ ho => ⟨ho, False.elim⟩)
  obtain ⟨hrun, hkept⟩ := hrun₀.later h
  have hserved₀ := (hrun₀.alloc_iff hpos hok).mp hserved
  cases hb : s.blocked with
  | true =>
    have hnone : s.answer region = 0 := if_pos hb
    have hok' : BootmemOk s (.alloc size region real) := by
      refine ⟨⟨hok.1.1, fun hr => absurd hnone hr⟩, ?_, fun hr => absurd hnone hr⟩
      rw [hrun.run.align, ← hrun₀.run.align]
      exact hok.2.1
    rw [hrun.alloc_iff hpos hok']
    simp [hnone]
  | false =>
    have hb₀ := hkept hb
    obtain ⟨hdr₀, links₀, hphys₀⟩ := hrun₀.fresh hb₀
    obtain ⟨hdr, links, hphys⟩ := hrun.fresh hb
    have hanswer : s.answer region = s₀.answer region := by
      rw [BootmemState.answer, BootmemState.answer, hb, hb₀]
    have hok' : BootmemOk s (.alloc size region real) := by
      have hok₀ : ChunkOk s₀.phys (.alloc size (s₀.answer region) real) := hok
      rw [hphys₀] at hok₀
      change ChunkOk s.phys (.alloc size (s.answer region) real)
      rw [hanswer, hphys]
      exact hok₀
    have hgrants := hserved₀.resolve_left (hrun₀.asks hb₀)
    rw [hrun.alloc_iff hpos hok']
    refine iff_of_true (.inr ?_) (.inl rfl)
    rw [hanswer, hphys]
    rw [hphys₀] at hgrants
    exact hgrants

/-- Where each buffer is freed while it is the youngest, there is nothing left to serve a call with:
the region has been handed back. -/
theorem bootmem_drained {s : BootmemState}
    (h : bootmemSystem.Reachable (fun s o => BootmemOk s o ∧ ChunkStacked s.phys (s.op o)) s)
    (hnone : s.phys.live = []) (hasked : s.blocked = true) (size region real : Nat)
    (hpos : size ≠ 0) (hfits : size + 52 ≤ 2 ^ 32) : bootmemAlloc s size region real = none := by
  have hrun : BootmemRun True s := .of_reachable (h.mono (fun _ _ => trivial)
    fun s o _ ho => ⟨ho.1, fun _ => ho.2⟩)
  have hnull : s.answer region = 0 := if_pos hasked
  have hok : BootmemOk s (.alloc size region real) := by
    refine ⟨⟨by omega, fun hr => absurd hnull hr⟩, ?_, fun hr => absurd hnull hr⟩
    rw [hrun.run.align]
    exact hfits
  have hroom : ¬ s.HasRoom size := by
    have hempty : (s.phys.pool.links .full).next = some .full :=
      beq_iff_eq.mp (hrun.run.returned hnone).1
    rw [BootmemState.HasRoom, hempty]
    exact not_not.mpr rfl
  have hiff := hrun.alloc_iff hpos hok
  rw [hnull] at hiff
  simpa [hroom] using hiff

/-- Boot memory behind `bootmem_init`, in storage that is zero. -/
def bootmemStart : BootmemState := ⟨chunkStart8 true, false⟩

instance decidableBootmemOk (s : BootmemState) (o : BootmemOp) : Decidable (BootmemOk s o) :=
  inferInstanceAs (Decidable (ChunkOk _ _))

theorem bootmemStart_reachable {ok : BootmemState → BootmemOp → Prop} :
    bootmemSystem.Reachable ok bootmemStart := .init ⟨_, _, rfl⟩

/-- Two buffers, the older one freed first, which keeps the region in the pool. -/
theorem bootmem_returns_iff_older : ∃ s, System.stepAll bootmemCall bootmemStart
    [.alloc 8 0x1000 4096, .alloc 8 0 0, .free 0x1050, .free 0x1088] = some s ∧ s.phys.live = [] ∧
      ((bootmemAlloc s 8 0x1000 4096).isSome ↔ s.blocked = false ∨ s.HasRoom 8) := by
  have hrun : (System.stepAll bootmemCall bootmemStart
      [.alloc 8 0x1000 4096, .alloc 8 0 0, .free 0x1050, .free 0x1088]).map
      (fun s => s.phys.live) = some [] := by decide
  obtain ⟨s, hs, hlive⟩ := Option.map_eq_some_iff.mp hrun
  exact ⟨s, hs, hlive, bootmem_returns_iff bootmemStart_reachable
    (System.Reachable.stepAll _ (.init rfl) (by decide) hs) (by decide) (by decide)
    (by decide)⟩

/-- **Boot memory does not survive being drained.**  A buffer is allocated and freed. -/
theorem bootmem_drained_stops :
    ¬ ∀ s₀ s : BootmemState, bootmemSystem.Reachable BootmemOk s₀ →
      (System.ofFun (· = s₀) bootmemCall).Reachable BootmemOk s → s.phys.live = [] →
      ∀ size region real, BootmemOk s₀ (.alloc size region real) →
        (bootmemAlloc s₀ size region real).isSome → (bootmemAlloc s size region real).isSome := by
  intro h
  have hrun : (System.stepAll bootmemCall bootmemStart [.alloc 100 0x1000 4096, .free 0x1050]).map
      (fun s => (s.phys.live, (bootmemAlloc s 100 0x1000 4096).isSome)) = some ([], false) := by
    decide
  obtain ⟨s, hs, hobs⟩ := Option.map_eq_some_iff.mp hrun
  obtain ⟨hlive, hnone⟩ := Prod.mk.inj hobs
  have hserved := h bootmemStart s bootmemStart_reachable
    (System.Reachable.stepAll _ (.init rfl) (by decide) hs) hlive 100 0x1000 4096
    (by decide) (by decide)
  rw [hnone] at hserved
  cases hserved

end FlightOs
