/-
# Runs of a chunk pool

A run starts behind `chunk_pool_init` and is made of calls of `chunk_alloc` and `chunk_free` in any
order, where buffers are freed that are live.  What the higher tier answers comes with each call.

`ChunkRun` is what holds all along, and `ChunkRun.call` is its step: under the conditions
`ChunkFits` every call returns.
-/
import FlightOs.Chunk.Free
import FlightOs.Lib.System

namespace FlightOs

/-! ## 1. The system -/

/-- The pool and the buffers that callers hold: their addresses and the sizes asked for. -/
structure ChunkState where
  pool : ChunkPool
  live : List (Nat × Nat)

inductive ChunkOp
  /-- a call of `chunk_alloc`, and what the higher tier would answer -/
  | alloc (size region real : Nat)
  | free (addr : Nat)

def chunkCall (s : ChunkState) : ChunkOp → Option ChunkState
  | .alloc size region real =>
    (chunkAlloc s.pool size region real).map (fun r => ⟨r.1, addBlock s.live r.2 size⟩)
  | .free addr => (chunkFree s.pool addr).map (fun pool => ⟨pool, dropBlock s.live addr⟩)

def chunkSystem (align : Nat) (hasRealSize : Bool) : System ChunkState ChunkOp :=
  .ofFun (fun s => ∃ hdr links, s = ⟨chunkPoolInit hdr links align true hasRealSize, []⟩) chunkCall

/-- What callers and the higher tier promise. -/
def ChunkLegal (s : ChunkState) : ChunkOp → Prop
  | .alloc size region real =>
    size < 2 ^ 32 ∧ TierAnswers s.pool region (s.pool.regionSize (chunkAllocSz s.pool size) real)
  | .free addr => addr = 0 ∨ ∃ e ∈ s.live, e.1 = addr

/-- What the code does not look at. -/
def ChunkFits (s : ChunkState) : ChunkOp → Prop
  | .alloc size region real =>
    AllocFits s.pool size region (s.pool.regionSize (chunkAllocSz s.pool size) real)
  | .free addr => addr ≠ 0 → FreeFits s.pool addr

def ChunkOk (s : ChunkState) (o : ChunkOp) : Prop := ChunkLegal s o ∧ ChunkFits s o

/-- Only youngest children are freed. -/
def ChunkStacked (s : ChunkState) : ChunkOp → Prop
  | .alloc _ _ _ => True
  | .free addr => addr ≠ 0 → FreesYoungest s.pool addr

/-- No exhausted chunk gets memory back. -/
def ChunkUnexhausted (s : ChunkState) : ChunkOp → Prop
  | .alloc _ _ _ => True
  | .free addr => addr ≠ 0 → FreeSorted s.pool addr

section Decidable

instance (s : ChunkPool) (region sz : Nat) : Decidable (TierAnswers s region sz) :=
  inferInstanceAs (Decidable (_ → _ ∧ ∀ e ∈ tierHeld s.tier, _ ∧ _))

instance (s : ChunkPool) (size region sz : Nat) : Decidable (AllocFits s size region sz) :=
  inferInstanceAs (Decidable (_ ∧ _))

instance (s : ChunkPool) (addr : Nat) : Decidable (FreesYoungest s addr) :=
  inferInstanceAs (Decidable (_ = _))

instance (s : ChunkPool) (addr : Nat) : Decidable (FreesLast s addr) :=
  inferInstanceAs (Decidable (_ ∧ _))

instance (s : ChunkPool) (addr : Nat) : Decidable (FreeFits s addr) :=
  inferInstanceAs (Decidable (_ → _))

instance (s : ChunkPool) (addr : Nat) : Decidable (FreeSorted s addr) :=
  inferInstanceAs (Decidable (_ → _))

variable (s : ChunkState)

instance : ∀ o, Decidable (ChunkLegal s o)
  | .alloc _ _ _ => inferInstanceAs (Decidable (_ ∧ _))
  | .free _ => inferInstanceAs (Decidable (_ ∨ _))

instance : ∀ o, Decidable (ChunkFits s o)
  | .alloc _ _ _ => inferInstanceAs (Decidable (AllocFits _ _ _ _))
  | .free _ => inferInstanceAs (Decidable (_ → _))

instance (o : ChunkOp) : Decidable (ChunkOk s o) := inferInstanceAs (Decidable (_ ∧ _))

instance : ∀ o, Decidable (ChunkStacked s o)
  | .alloc _ _ _ => isTrue trivial
  | .free _ => inferInstanceAs (Decidable (_ → _))

instance : ∀ o, Decidable (ChunkUnexhausted s o)
  | .alloc _ _ _ => isTrue trivial
  | .free _ => inferInstanceAs (Decidable (_ → _))

end Decidable

/-! ## 2. What holds all along -/

/-- An alignment that a pool can work with: a power of two from eight on. -/
structure PoolAlign (a : Nat) : Prop where
  pos : 0 < a
  dvd : a ∣ 2 ^ 32
  header : ¬ a ∣ chunkHeader

theorem poolAlign_pow {k : Nat} (h : 3 ≤ k) (h' : k < 32) : PoolAlign (2 ^ k) := by
  refine ⟨Nat.two_pow_pos k, Nat.pow_dvd_pow 2 h'.le, fun hd => ?_⟩
  have h8 : 2 ^ 3 ∣ chunkHeader := (Nat.pow_dvd_pow 2 h).trans hd
  exact absurd h8 (by decide)

structure ChunkRun (Y S : Prop) (a : Nat) (s : ChunkState) : Prop where
  align : s.pool.align = a
  inv : ∃ fl em, ChunkInv Y S 0 s.pool s.live fl em

section Run

variable {Y S : Prop} {a : Nat} {hasRealSize : Bool} {s : ChunkState} {o : ChunkOp}

/-- A new pool has no chunks. -/
theorem chunkPoolInit_lists {hdr : Nat → ChunkHdr} {links : Links ChunkNode} {hasAlloc : Bool} :
    ListPair (chunkPoolInit hdr links a hasAlloc hasRealSize).links .chunk .full .empty [] [] := by
  refine ⟨(initListHead_ring links _).congr (fun x hx => ?_), initListHead_ring _ _, by simp⟩
  rw [List.mem_singleton.mp hx]
  have hne : ChunkNode.full ≠ .empty := by decide
  exact initListHead_frame _ hne

theorem ChunkRun.init (h : (chunkSystem a hasRealSize).init s) : ChunkRun Y S a s := by
  obtain ⟨hdr, links, rfl⟩ := h
  refine ⟨rfl, [], [], ⟨rfl, chunkPoolInit_lists, ?_, ⟨List.nodup_nil, .refl _⟩, ?_, ?_, ?_,
    List.nodup_nil, ?_, ?_, ?_⟩⟩
  · constructor <;> intro c hc <;> exact absurd hc (by simp)
  · intro e
    refine ⟨fun he => absurd he (List.not_mem_nil), fun h => absurd h.1 (by simp)⟩
  · exact fun c hc => absurd hc (by simp)
  · exact fun c hc => absurd hc (by simp)
  · exact fun e he => absurd he List.not_mem_nil
  · exact fun _ c hc => absurd hc (by simp)
  · exact fun _ c hc => absurd hc List.not_mem_nil

/-- **The step.**  A call in order returns, and leaves the pool in order. -/
theorem ChunkRun.call (h : ChunkRun Y S a s) (ha : PoolAlign a) (ho : ChunkOk s o)
    (hY : Y → ChunkStacked s o) (hS : S → ChunkUnexhausted s o) :
    ∃ s', chunkCall s o = some s' ∧ ChunkRun Y S a s' := by
  obtain ⟨rfl, fl, em, I⟩ := h
  cases o with
  | alloc size region real =>
    obtain ⟨pool, p, fl', em', heq, hal, I'⟩ := I.alloc ha.pos ha.dvd ho.1.2 ho.2
    exact ⟨_, by rw [chunkCall, heq]; rfl, hal, fl', em', I'⟩
  | free addr =>
    obtain ⟨pool, fl', em', heq, hal, I'⟩ := I.free ha.pos ha.dvd ha.header ho.1 ho.2 hY hS
    exact ⟨_, by rw [chunkCall, heq]; rfl, hal, fl', em', I'⟩

/-- **The run.** -/
theorem ChunkRun.of_reachable (ha : PoolAlign a) (h : (chunkSystem a hasRealSize).Reachable
    (fun s o => ChunkOk s o ∧ (Y → ChunkStacked s o) ∧ (S → ChunkUnexhausted s o)) s) :
    ChunkRun Y S a s := by
  refine h.invariant (fun s hs => ChunkRun.init hs) (fun s o s' hs ho hstep => ?_)
  obtain ⟨s'', heq, hrun⟩ := hs.call ha ho.1 ho.2.1 ho.2.2
  obtain rfl : s'' = s' := Option.some.inj (heq.symm.trans hstep)
  exact hrun

end Run

/-! ## 3. A pool to start with -/

/-- A pool behind `chunk_pool_init` in storage that is zero. -/
def chunkStart8 (hasRealSize : Bool) : ChunkState :=
  ⟨chunkPoolInit (fun _ => ⟨0, 0, 0, 0, 0, 0, 0⟩) (fun _ => ⟨none, none⟩) 8 true hasRealSize, []⟩

theorem chunkStart8_reachable {hasRealSize : Bool} {ok : ChunkState → ChunkOp → Prop} :
    (chunkSystem (2 ^ 3) hasRealSize).Reachable ok (chunkStart8 hasRealSize) :=
  .init ⟨_, _, rfl⟩

end FlightOs
