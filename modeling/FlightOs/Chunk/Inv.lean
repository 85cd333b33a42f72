/-
# What holds of a chunk pool

`ChunkInv` ties the tree of chunks to the lists of the pool, to the calls of the higher tier and
to the buffers that are live:

* every chunk is on exactly one of the two lists;
* the regions are what the higher tier has given and not got back;
* a live buffer is all the memory of a chunk without children, behind its header.

Two more properties hold of some runs only and are switched on by the parameters `Y` and `S`: that
all chunks but the regions are live (`Y`), and that no chunk on `empty` has room for another one
(`S`).  The parameter `r` is a region that has no child yet, between the two halves of
`chunk_alloc`.
-/
import FlightOs.Chunk.Tree
import FlightOs.Lib.Blocks

namespace FlightOs

/-! ## 1. The higher tier -/

/-- The regions that the higher tier has given and not got back. -/
def tierHeld : List TierCall → List (Nat × Nat)
  | [] => []
  | .alloc _ r sz :: l => addBlock (tierHeld l) r sz
  | .free r :: l => dropBlock (tierHeld l) r

/-- The addresses of all regions that it has given. -/
def tierObtained : List TierCall → List Nat
  | [] => []
  | .alloc _ r _ :: l => if r = 0 then tierObtained l else r :: tierObtained l
  | .free _ :: l => tierObtained l

/-- The addresses that it has got back. -/
def tierReturned : List TierCall → List Nat
  | [] => []
  | .alloc _ _ _ :: l => tierReturned l
  | .free r :: l => r :: tierReturned l

/-- Every region that was given has been got back once, or is still held. -/
structure TierBalanced (l : List TierCall) : Prop where
  keys : ((tierHeld l).map Prod.fst).Nodup
  perm : (tierObtained l).Perm (tierReturned l ++ (tierHeld l).map Prod.fst)

theorem TierBalanced.alloc {l : List TierCall} {want r sz : Nat} (h : TierBalanced l)
    (hr : r ≠ 0 → ∀ e ∈ tierHeld l, e.1 ≠ r) : TierBalanced (.alloc want r sz :: l) := by
  by_cases hr0 : r = 0
  · subst hr0
    exact ⟨h.keys, h.perm⟩
  · have hheld : tierHeld (.alloc want r sz :: l) = (r, sz) :: tierHeld l := if_neg hr0
    have hobt : tierObtained (.alloc want r sz :: l) = r :: tierObtained l := if_neg hr0
    constructor
    · rw [hheld, List.map_cons, List.nodup_cons]
      refine ⟨fun hmem => ?_, h.keys⟩
      obtain ⟨e, he, heq⟩ := List.mem_map.mp hmem
      exact hr hr0 e he heq
    · rw [hheld, hobt, List.map_cons]
      exact (h.perm.cons r).trans List.perm_middle.symm

theorem TierBalanced.free {l : List TierCall} {r : Nat} (h : TierBalanced l)
    (hr : r ∈ (tierHeld l).map Prod.fst) : TierBalanced (.free r :: l) := by
  constructor
  · exact dropBlock_map_nodup h.keys
  · have hp := perm_dropBlock h.keys hr
    calc tierObtained l
        _ |>.Perm (tierReturned l ++ (tierHeld l).map Prod.fst) := h.perm
        _ |>.Perm (tierReturned l ++ r :: (dropBlock (tierHeld l) r).map Prod.fst) :=
          hp.append_left _
        _ |>.Perm (r :: tierReturned l ++ (dropBlock (tierHeld l) r).map Prod.fst) :=
          List.perm_middle

/-! ## 2. The invariant -/

/-- The chunks that are on a list. -/
def chunkSet (fl em : List Nat) : Finset Nat := (fl ++ em).toFinset

@[simp] theorem mem_chunkSet {fl em : List Nat} {c : Nat} :
    c ∈ chunkSet fl em ↔ c ∈ fl ∨ c ∈ em := by
  rw [chunkSet, List.mem_toFinset, List.mem_append]

/-- A buffer begins behind the header of `c`. -/
def ChunkLive (a : Nat) (live : List (Nat × Nat)) (c : Nat) : Prop :=
  ∃ e ∈ live, e.1 = chunkStart a c

structure ChunkInv (Y S : Prop) (r : Nat) (s : ChunkPool) (live : List (Nat × Nat))
    (fl em : List Nat) : Prop where
  supplied : s.hasAlloc = true
  lists : ListPair s.links .chunk .full .empty fl em
  tree : ChunkTree s.align s.hdr (chunkSet fl em)
  calls : TierBalanced s.tier
  held : ∀ e, e ∈ tierHeld s.tier ↔
    e.1 ∈ chunkSet fl em ∧ (s.hdr e.1).parent = 0 ∧ e.2 = (s.hdr e.1).size
  regions : ∀ c ∈ chunkSet fl em, (s.hdr c).parent = 0 → (s.hdr c).child = 0 → c = r
  room : ∀ c ∈ chunkSet fl em, ¬ ChunkLive s.align live c →
    (s.hdr c).free = c + (s.hdr c).size - (s.hdr c).mem
  keys : (live.map Prod.fst).Nodup
  buffers : ∀ e ∈ live, ∃ c ∈ chunkSet fl em, (s.hdr c).parent ≠ 0 ∧ (s.hdr c).child = 0 ∧
    (s.hdr c).free = 0 ∧ e.1 = chunkStart s.align c ∧ e.1 + e.2 ≤ c + (s.hdr c).size
  allLive : Y → ∀ c ∈ chunkSet fl em, (s.hdr c).parent ≠ 0 → ChunkLive s.align live c
  sorted : S → ∀ c ∈ em, c ≠ r → (s.hdr c).free ≤ chunkHeader + s.align

section Sets

variable {fl em : List Nat} {c : Nat}

theorem chunkSet_swap : chunkSet fl em = chunkSet em fl := by
  ext x
  rw [mem_chunkSet, mem_chunkSet, or_comm]

theorem chunkSet_concat : chunkSet (fl ++ [c]) em = insert c (chunkSet fl em) := by
  ext x
  simp only [mem_chunkSet, List.mem_append, List.mem_singleton, Finset.mem_insert]
  tauto

/-- Moving within a list. -/
theorem chunkSet_rotate (hc : c ∈ fl) : chunkSet (fl.erase c ++ [c]) em = chunkSet fl em := by
  have hset : ∀ x, x ∈ fl.erase c ++ [c] ↔ x ∈ fl := by
    intro x
    rw [(List.perm_cons_erase hc).mem_iff (a := x)]
    simp only [List.mem_append, List.mem_cons, List.not_mem_nil, or_false]
    exact or_comm
  ext x
  rw [mem_chunkSet, mem_chunkSet, hset]

/-- Moving from the second list to the first. -/
theorem chunkSet_across (hc : c ∈ em) : chunkSet (fl ++ [c]) (em.erase c) = chunkSet fl em := by
  ext x
  rw [mem_chunkSet, mem_chunkSet, (List.perm_cons_erase hc).mem_iff (a := x)]
  simp only [List.mem_append, List.mem_cons, List.not_mem_nil, or_false]
  tauto

theorem chunkSet_erase (hnd : (fl ++ em).Nodup) (hc : c ∈ fl) :
    chunkSet (fl.erase c) em = (chunkSet fl em).erase c := by
  obtain ⟨hfl, -, hne⟩ := List.nodup_append.mp hnd
  ext x
  rw [mem_chunkSet, Finset.mem_erase, mem_chunkSet, hfl.mem_erase_iff]
  constructor
  · rintro (⟨h1, h2⟩ | h2)
    · exact ⟨h1, Or.inl h2⟩
    · exact ⟨fun e => hne c hc x h2 e.symm, Or.inr h2⟩
  · rintro ⟨h1, h2 | h2⟩
    · exact Or.inl ⟨h1, h2⟩
    · exact Or.inr h2

/-- Deleting from either list. -/
theorem listDel_chunk {m : Links ChunkNode} (L : ListPair m .chunk .full .empty fl em)
    (hc : c ∈ chunkSet fl em) : ∃ fl' em',
      ListPair (listDel m (.chunk c)) .chunk .full .empty fl' em' ∧
      chunkSet fl' em' = (chunkSet fl em).erase c ∧ ∀ d ∈ em', d ∈ em := by
  have hinj : Function.Injective ChunkNode.chunk := fun x y h => ChunkNode.chunk.inj h
  rcases mem_chunkSet.mp hc with h | h
  · exact ⟨_, _, L.del hinj h, chunkSet_erase L.nodup h, fun _ hd => hd⟩
  · refine ⟨_, _, (L.symm.del hinj h).symm, ?_, fun _ hd => List.mem_of_mem_erase hd⟩
    rw [chunkSet_swap, chunkSet_erase L.symm.nodup h, chunkSet_swap]

/-- Moving from either list to the end of the first. -/
theorem listMoveTail_chunk {m : Links ChunkNode} (L : ListPair m .chunk .full .empty fl em)
    (hc : c ∈ chunkSet fl em) : ∃ fl' em',
      ListPair (listMoveTail m (.chunk c) .full) .chunk .full .empty fl' em' ∧
      chunkSet fl' em' = chunkSet fl em ∧ ∀ d ∈ em', d ∈ em ∧ d ≠ c := by
  have hinj : Function.Injective ChunkNode.chunk := fun x y h => ChunkNode.chunk.inj h
  obtain ⟨-, hem, hne⟩ := List.nodup_append.mp L.nodup
  rcases mem_chunkSet.mp hc with h | h
  · exact ⟨_, _, L.moveTail hinj h, chunkSet_rotate h, fun d hd => ⟨hd, (hne c h d hd).symm⟩⟩
  · exact ⟨_, _, (L.symm.moveAcross hinj h).symm, chunkSet_across h,
      fun d hd => (hem.mem_erase_iff.mp hd).symm⟩

end Sets

/-! ## 3. What it says of single chunks -/

section Inv

variable {Y S : Prop} {r : Nat} {s : ChunkPool} {live : List (Nat × Nat)} {fl em : List Nat}
  {c d : Nat}

namespace ChunkInv

/-- What the list of live buffers says about a chunk. -/
theorem of_live (I : ChunkInv Y S r s live fl em) (ha : 0 < s.align) (hc : c ∈ chunkSet fl em)
    (h : ChunkLive s.align live c) :
    (s.hdr c).parent ≠ 0 ∧ (s.hdr c).child = 0 ∧ (s.hdr c).free = 0 := by
  obtain ⟨e, he, hec⟩ := h
  obtain ⟨d, hd, h1, h2, h3, h4, -⟩ := I.buffers e he
  obtain rfl := I.tree.start_inj ha hc hd (hec.symm.trans h4)
  exact ⟨h1, h2, h3⟩

/-- What a live buffer says about its chunk. -/
theorem of_buffer (I : ChunkInv Y S r s live fl em) (ha : 0 < s.align) {e : Nat × Nat}
    (he : e ∈ live) : ∃ c ∈ chunkSet fl em, ChunkLive s.align live c ∧
      e.1 = chunkStart s.align c ∧ s.align ∣ c ∧ c < e.1 ∧
      e.1 + e.2 ≤ c + (s.hdr c).size := by
  obtain ⟨c, hc, h1, -, -, h4, h5⟩ := I.buffers e he
  have h6 := (I.tree.start ha hc).2.1
  have hh : chunkHeader = 36 := rfl
  exact ⟨c, hc, ⟨e, he, h4⟩, h4, (I.tree.inside c hc h1).2.1, by omega, h5⟩

/-- What is live after a buffer has been dropped. -/
theorem live_drop (I : ChunkInv Y S r s live fl em) (ha : 0 < s.align) (hc : c ∈ chunkSet fl em)
    (hd : d ∈ chunkSet fl em) (hne : d ≠ c) (h : ChunkLive s.align live d) :
    ChunkLive s.align (dropBlock live (chunkStart s.align c)) d := by
  obtain ⟨e, he, hed⟩ := h
  refine ⟨e, mem_dropBlock.mpr ⟨he, fun heq => hne ?_⟩, hed⟩
  exact I.tree.start_inj ha hd hc (hed.symm.trans heq)

theorem length_lt (I : ChunkInv Y S r s live fl em) : fl.length < chunkFuel := by
  have hnd : fl.Nodup := (List.nodup_append.mp I.lists.nodup).1
  have hsub : fl ⊆ List.range' 1 (2 ^ 32 - 1) := by
    intro c hc
    have hmem : c ∈ chunkSet fl em := mem_chunkSet.mpr (Or.inl hc)
    have h1 := I.tree.pos c hmem
    have h2 := I.tree.bound c hmem
    rw [List.mem_range'_1]
    omega
  have hlen := (List.subperm_of_subset hnd hsub).length_le
  rw [List.length_range'] at hlen
  have hfuel : chunkFuel = 2 ^ 32 := rfl
  omega

end ChunkInv

end Inv

end FlightOs
