/-
# The invariant of the heap

Between calls a heap is more than laid out: the last chunk is known, the counter holds the bytes
on the free list, no chunk is on its way from one use to another, and no two neighbours are both
free.  `HeapInv` is all of this; what a call does to the live blocks is said with `liveOf`.

* `HeapInv.findFreeChunk`: the search of the free list ends, at the first chunk that fits.
* `Bounded`, `Grants`: what is asked of `kernel_sbrk`.
-/
import FlightOs.Kmem.Split
import Mathlib.Data.List.Chain
import Mathlib.Data.List.Perm.Subperm

namespace FlightOs

/-! ## 1. Live chunks -/

def liveOf (cs : List Chunk) : List Chunk := cs.filter (fun c => c.use = .live)

section LiveOf

variable {cs xs ys : List Chunk} {c : Chunk} {x : Nat}

@[simp] theorem liveOf_nil : liveOf [] = [] := rfl

@[simp] theorem liveOf_append : liveOf (xs ++ ys) = liveOf xs ++ liveOf ys := List.filter_append ..

@[simp] theorem liveOf_cons_live (h : c.use = .live) : liveOf (c :: cs) = c :: liveOf cs :=
  List.filter_cons_of_pos (by simpa using h)

@[simp] theorem liveOf_cons_ne (h : c.use ≠ .live) : liveOf (c :: cs) = liveOf cs :=
  List.filter_cons_of_neg (by simpa using h)

theorem mem_liveOf : c ∈ liveOf cs ↔ c ∈ cs ∧ c.use = .live := by simp [liveOf]

theorem liveByte_iff : LiveByte cs x ↔ ∃ c ∈ liveOf cs, c.addr + 32 ≤ x ∧ x < c.stop := by
  simp only [LiveByte, mem_liveOf, and_assoc]

end LiveOf

/-! ## 2. The invariant -/

/-- Neighbours are not both free. -/
def Apart (c d : Chunk) : Prop := ¬ (c.use = .free ∧ d.use = .free)

structure HeapInv (gap : Prop) (h : KmemHeap) (cs : List Chunk) (fl : List Nat) : Prop
    extends Layout gap h cs fl where
  last : h.last = lastAddr Chunk.addr 0 cs
  avail : h.availBytes = freeBytes cs
  settled : ∀ c ∈ cs, c.use = .root ∨ c.use = .live ∨ c.use = .free
  coalesced : cs.IsChain Apart

/-- Positive increments that are granted keep the break in its range. -/
def Bounded (allow : Nat → Nat → Bool) : Prop :=
  ∀ brk n, brk ≤ vmallocEnd → n < 2 ^ 31 → allow brk n = true → brk + walign n 8 ≤ vmallocEnd

/-- Negative increments are granted. -/
def Grants (allow : Nat → Nat → Bool) : Prop := ∀ brk n, 2 ^ 31 ≤ n → allow brk n = true

theorem freeSize_le (c : Chunk) : c.freeSize ≤ c.size := by
  unfold Chunk.freeSize
  split
  · exact le_refl _
  · exact Nat.zero_le _

/-- The free bytes fit between the ends of the heap. -/
theorem Tiled.freeBytes_le {gap : Prop} {b e : Nat} {cs : List Chunk}
    (h : Tiled gap Chunk.addr Chunk.stop b cs e) : b + freeBytes cs + 32 * cs.length ≤ e := by
  induction cs generalizing b with
  | nil =>
    have := h.le
    simpa using this
  | cons c cs ih =>
    have h1 := h.1.le
    have h2 := ih h.2.2
    have h3 := freeSize_le c
    unfold Chunk.stop at h2
    rw [freeBytes_cons, List.length_cons]
    omega

namespace Layout

variable {gap : Prop} {h h' : KmemHeap} {cs pre post : List Chunk} {fl : List Nat} {c : Chunk}
  {a s n : Nat}

theorem freeBytes_lt (L : Layout gap h cs fl) : freeBytes cs + 32 * cs.length < 2 ^ 29 := by
  have h1 := L.tiled.freeBytes_le
  have h2 := L.brk.2
  have h3 := L.low
  unfold vmallocEnd at h2
  unfold vmallocStart at h3
  omega

/-- The free list is shorter than any search for a chunk can get. -/
theorem length_lt (L : Layout gap h cs fl) : fl.length < kmemFuel := by
  have hsub : fl ⊆ cs.map Chunk.addr := by
    intro a ha
    obtain ⟨c, hc, hca, -⟩ := (L.listed a).mp ha
    exact List.mem_map.mpr ⟨c, hc, hca⟩
  have hnd : fl.Nodup := (List.nodup_cons.mp L.ring.nodup).2
  have hlen := (List.subperm_of_subset hnd hsub).length_le
  have hfree := L.freeBytes_lt
  rw [List.length_map] at hlen
  unfold kmemFuel
  omega

/-- The chunk of a member of the free list. -/
theorem split_at_free (L : Layout gap h cs fl) (ha : a ∈ fl) :
    ∃ pre post, cs = pre ++ ⟨a, (h.hdr a).size, .free⟩ :: post := by
  obtain ⟨c, hc, rfl, hu⟩ := (L.listed a).mp ha
  obtain ⟨pre, post, rfl⟩ := List.append_of_mem hc
  refine ⟨pre, post, ?_⟩
  have hsize : (h.hdr c.addr).size = c.size := by
    rw [L.header_eq]
    rfl
  rw [hsize, ← hu]

end Layout

/-! ## 3. The search -/

theorem kmemFindFrom_eq {h : KmemHeap} {size : Nat} : ∀ {xs : List Nat} {p n : Nat},
    Path h.links p xs h.init → h.init ∉ xs → xs.length < n →
    kmemFindFrom h size n (h.links p).next =
      some ((xs.find? (fun a => size ≤ (h.hdr a).size)).getD 0)
  | _, _, 0, _, _, hn => absurd hn (Nat.not_lt_zero _)
  | [], _, _ + 1, hp, _, _ => by
    rw [hp.1, kmemFindFrom, if_pos rfl]
    rfl
  | x :: xs, _, n + 1, hp, hno, hn => by
    have hx : x ≠ h.init := fun e => hno (e ▸ List.mem_cons_self)
    rw [hp.1, kmemFindFrom, if_neg hx]
    by_cases hfit : size ≤ (h.hdr x).size
    · rw [if_neg (not_lt.mpr hfit), List.find?_cons_of_pos (by simpa using hfit)]
      rfl
    · rw [if_pos (not_le.mp hfit), List.find?_cons_of_neg (by simpa using hfit)]
      exact kmemFindFrom_eq hp.2.2 (fun e => hno (List.mem_cons_of_mem _ e))
        (Nat.lt_of_succ_lt_succ hn)

/-- **The search ends**: with a chunk of the free list that is large enough, taken off the list,
or because there is none. -/
theorem Layout.findFreeChunk {gap : Prop} {h : KmemHeap} {cs : List Chunk} {fl : List Nat}
    (L : Layout gap h cs fl) (size : Nat) :
    (kmemFindFreeChunk h size = some (h, 0) ∧ ∀ a ∈ fl, (h.hdr a).size < size) ∨
    ∃ a ∈ fl, a ≠ 0 ∧ size ≤ (h.hdr a).size ∧
      kmemFindFreeChunk h size = some ({ h with links := listDelInit h.links a }, a) := by
  unfold kmemFindFreeChunk
  rw [kmemFindFrom_eq L.ring.path L.notMem_init L.length_lt]
  by_cases hempty : listEmpty h.links h.init = true
  · rw [if_pos hempty]
    have hnil := (listEmpty_iff L.ring).mp hempty
    exact Or.inl ⟨rfl, fun a ha => absurd (hnil ▸ ha) List.not_mem_nil⟩
  · rw [if_neg hempty]
    cases hfind : fl.find? (fun a => size ≤ (h.hdr a).size) with
    | none =>
      rw [List.find?_eq_none] at hfind
      exact Or.inl ⟨rfl, fun a ha => not_le.mp (by simpa using hfind a ha)⟩
    | some a =>
      have hmem := List.mem_of_find?_eq_some hfind
      have hfit : size ≤ (h.hdr a).size := by simpa using List.find?_some hfind
      obtain ⟨c, hc, hca, -⟩ := (L.listed a).mp hmem
      have ha : a ≠ 0 := hca ▸ (L.range hc).1.ne'
      refine Or.inr ⟨a, hmem, ha, hfit, ?_⟩
      cases a with
      | zero => exact absurd rfl ha
      | succ a => rfl

end FlightOs
