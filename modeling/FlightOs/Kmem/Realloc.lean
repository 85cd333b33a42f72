/-
# Clearing and reallocation

`kcalloc` and `krealloc` are made of `kmalloc`, `kfree` and a loop over the bytes of a block.  The
loops touch nothing but the block they fill, and no list of the heap looks at the bytes of a
block, so both calls keep what their parts keep.
-/
import FlightOs.Kmem.Release

namespace FlightOs

/-! ## 1. The loops -/

theorem kcallocClear_eq (bytes : Nat → Nat) (dst n x : Nat) :
    kcallocClear bytes dst n x = if dst ≤ x ∧ x < dst + n then 0 else bytes x := by
  induction n with
  | zero =>
    rw [if_neg (by omega)]
    rfl
  | succ n ih =>
    rw [kcallocClear]
    by_cases hx : x = dst + n
    · rw [hx, Function.update_self, if_pos (by omega)]
    · rw [Function.update_of_ne hx, ih]
      exact if_congr (by omega) rfl rfl

/-- Where the two blocks are apart, the copy is what the source was before. -/
theorem kreallocCopy_eq (bytes : Nat → Nat) {dst src n : Nat}
    (hap : dst + n ≤ src ∨ src + n ≤ dst) (x : Nat) :
    kreallocCopy bytes dst src n x =
      if dst ≤ x ∧ x < dst + n then bytes (src + (x - dst)) else bytes x := by
  induction n generalizing x with
  | zero =>
    rw [if_neg (by omega)]
    rfl
  | succ n ih =>
    have hap' : dst + n ≤ src ∨ src + n ≤ dst := by omega
    rw [kreallocCopy]
    by_cases hx : x = dst + n
    · rw [hx, Function.update_self, ih hap', if_neg (by omega), if_pos (by omega),
        Nat.add_sub_cancel_left]
    · rw [Function.update_of_ne hx, ih hap']
      exact if_congr (by omega) rfl rfl

section Realloc

variable {gap : Prop} {h h' : KmemHeap} {cs pre post : List Chunk} {fl : List Nat}
  {c d : Chunk} {a s t n x size : Nat} {allow : Nat → Nat → Bool} {cfg : KmemConfig}

/-- The invariant says nothing about the bytes of the blocks. -/
theorem HeapInv.withBytes (I : HeapInv gap h cs fl) (bytes : Nat → Nat) :
    HeapInv gap { h with bytes := bytes } cs fl :=
  ⟨I.toLayout.congr rfl rfl (fun _ _ => rfl) rfl, I.last, I.avail, I.settled, I.coalesced⟩

/-- A live chunk is listed once, as every chunk. -/
theorem Layout.nodup (L : Layout gap h cs fl) : cs.Nodup := by
  refine L.tiled.pairwise.imp (fun {c d} hlt => ?_)
  rintro rfl
  unfold Chunk.stop at hlt
  omega

theorem Layout.liveOf_nodup (L : Layout gap h cs fl) : (liveOf cs).Nodup := L.nodup.filter _

/-- Where a live chunk stands. -/
theorem split_live (hc : ⟨a, s, .live⟩ ∈ liveOf cs) :
    ∃ pre post, cs = pre ++ ⟨a, s, .live⟩ :: post :=
  List.append_of_mem (mem_liveOf.mp hc).1

/-! ## 2. `kcalloc` -/

/-- **`kcalloc`** fails as `kmalloc` does, or clears the new block. -/
theorem HeapInv.kcalloc (I : HeapInv gap h cs fl) (hb : Bounded allow) {nmemb : Nat}
    (hlen : nmemb * size % 2 ^ 32 = n) (hpos : 0 < n) (hfits : SizeFits h n) :
    kcalloc h allow nmemb size = some ({ h with allocFail := 1 }, 0) ∨
    ∃ h' k, kcalloc h allow nmemb size = some (h', k + 32) ∧ Allocates gap h h' cs k n ∧
      ∀ i < n, h'.bytes (k + 32 + i) = 0 := by
  have hbytes : ∀ (h₁ : KmemHeap) (k : Nat), FlightOs.kmalloc h allow n = some (h₁, k) →
      FlightOs.kcalloc h allow nmemb size =
        if k ≠ 0 then some ({ h₁ with bytes := kcallocClear h₁.bytes k n }, k) else some (h₁, k) := by
    intro h₁ k hk
    simp only [FlightOs.kcalloc, hlen, hk]
  rcases I.kmalloc hb hpos hfits with hfail | ⟨h₁, k, hk, cs', fl', t, I₁, hperm, hle, hinit, hkept⟩
  · left
    rw [hbytes _ _ hfail, if_neg (by simp)]
  · right
    refine ⟨_, k, (hbytes _ _ hk).trans (if_pos (by omega)),
      ⟨cs', fl', t, I₁.withBytes _, hperm, hle, hinit, fun x hx => ?_⟩, fun i hi => ?_⟩
    · obtain ⟨c, hc, hx⟩ := liveByte_iff.mp hx
      have hnew : ⟨k, t, .live⟩ ∈ liveOf cs' := hperm.mem_iff.mpr List.mem_cons_self
      have hold : c ∈ liveOf cs' := hperm.mem_iff.mpr (List.mem_cons_of_mem _ hc)
      have hne : c ≠ ⟨k, t, .live⟩ := by
        rintro rfl
        exact (List.nodup_cons.mp (hperm.nodup_iff.mp I₁.liveOf_nodup)).1 hc
      have hap : c.addr + 32 + c.size ≤ k ∨ k + 32 + t ≤ c.addr :=
        I₁.apart (mem_liveOf.mp hold).1 (mem_liveOf.mp hnew).1 hne
      unfold Chunk.stop at hx
      exact (kcallocClear_eq ..).trans ((if_neg (by omega)).trans (hkept x (liveByte_iff.mpr ⟨c, hc, hx⟩)))
    · exact (kcallocClear_eq ..).trans (if_pos (by omega))

/-! ## 3. `krealloc` -/

/-- The checks of `krealloc` let every live block through. -/
theorem HeapInv.krealloc_eq (I : HeapInv gap h cs fl) (hc : ⟨a, s, .live⟩ ∈ liveOf cs) :
    krealloc cfg h allow (a + 32) size =
      match FlightOs.kmalloc h allow size with
      | none => none
      | some (h₁, new) =>
        if new = 0 then some (h₁, 0)
        else
          let len := if size < (h₁.hdr a).size then size else (h₁.hdr a).size
          let h₂ := { h₁ with bytes := kreallocCopy h₁.bytes new (a + 32) len }
          some (kfree cfg h₂ allow (a + 32), new) := by
  obtain ⟨pre, post, rfl⟩ := split_live hc
  have hbounds : h.init ≤ a ∧ a + 32 + s ≤ h.brk := I.bounds (c := ⟨a, s, .live⟩) (by simp)
  have hrange : 0 < a ∧ a + 32 + s < 2 ^ 29 := I.range (c := ⟨a, s, .live⟩) (by simp)
  have hk : wsub (a + 32) kmemHeader = a := by
    unfold kmemHeader
    rw [wsub_of_le (by omega) (by omega), Nat.add_sub_cancel]
  have hdata : (h.hdr a).data = a + 32 := by
    rw [I.header_eq]
    rfl
  have hrun := krealloc.eq_def cfg h allow (a + 32) size
  rw [if_neg (by omega), if_neg (by omega), if_neg (by omega), hk, if_neg (by simp [hdata])] at hrun
  exact hrun

variable (cfg) in
/-- **`krealloc` of a live block** fails and leaves the heap as it is, or there is a new block, the
old one is gone, and as much as fits of its bytes has been copied. -/
theorem HeapInv.krealloc (I : HeapInv gap h cs fl) (hb : Bounded allow)
    (hallow : gap ∨ Grants allow) (hpos : 0 < size) (hfits : SizeFits h size)
    (hc : ⟨a, s, .live⟩ ∈ liveOf cs) :
    FlightOs.krealloc cfg h allow (a + 32) size = some ({ h with allocFail := 1 }, 0) ∨
    ∃ h' k t cs' fl', FlightOs.krealloc cfg h allow (a + 32) size = some (h', k + 32) ∧
      HeapInv gap h' cs' fl' ∧ (⟨a, s, .live⟩ :: liveOf cs').Perm (⟨k, t, .live⟩ :: liveOf cs) ∧
      size ≤ t ∧ h'.init = h.init ∧
      (∀ i < min s size, h'.bytes (k + 32 + i) = h.bytes (a + 32 + i)) ∧
      ∀ c ∈ liveOf cs, c ≠ ⟨a, s, .live⟩ → ∀ x, c.addr + 32 ≤ x → x < c.stop →
        h'.bytes x = h.bytes x := by
  rw [I.krealloc_eq hc]
  rcases I.kmalloc hb hpos hfits with hfail | ⟨h₁, k, hk, cs₁, fl₁, t, I₁, hperm, hle, hinit, hkept⟩
  · left
    rw [hfail]
    rfl
  · right
    have hold : ∀ c ∈ liveOf cs, c ∈ liveOf cs₁ := fun c hc =>
      hperm.mem_iff.mpr (List.mem_cons_of_mem _ hc)
    have hnew : ⟨k, t, .live⟩ ∈ liveOf cs₁ := hperm.mem_iff.mpr List.mem_cons_self
    have hnd := List.nodup_cons.mp (hperm.nodup_iff.mp I₁.liveOf_nodup)
    have hap : ∀ c ∈ liveOf cs, c.addr + 32 + c.size ≤ k ∨ k + 32 + t ≤ c.addr := by
      intro c hc
      refine I₁.apart (d := ⟨k, t, .live⟩) (mem_liveOf.mp (hold c hc)).1 (mem_liveOf.mp hnew).1 ?_
      rintro rfl
      exact hnd.1 hc
    have hself := hap _ hc
    obtain ⟨pre, post, hcs₁⟩ := split_live (hold _ hc)
    have hsize : (h₁.hdr a).size = s := by
      subst hcs₁
      rw [I₁.header_eq]
      rfl
    have hlen : (if size < s then size else s) = min s size := by
      split <;> omega
    rw [hk]
    simp only [if_neg (by omega : ¬ k + 32 = 0), hsize, hlen]
    have hcopy : ∀ x, kreallocCopy h₁.bytes (k + 32) (a + 32) (min s size) x =
        if k + 32 ≤ x ∧ x < k + 32 + min s size then h₁.bytes (a + 32 + (x - (k + 32)))
        else h₁.bytes x := kreallocCopy_eq _ (by simp only at hself; omega)
    have I₂ := I₁.withBytes (kreallocCopy h₁.bytes (k + 32) (a + 32) (min s size))
    rw [hcs₁] at I₂
    obtain ⟨cs', fl', I', hlive, hinit', hbytes⟩ := I₂.kfreeChunk cfg hallow
    have hrest : (⟨a, s, .live⟩ :: liveOf cs').Perm (liveOf cs₁) := by
      rw [hlive, hcs₁, liveOf_append, liveOf_append, liveOf_cons_live rfl]
      exact List.perm_middle.symm
    have hmem : ∀ c ∈ liveOf cs₁, c ≠ ⟨a, s, .live⟩ → ∀ x, c.addr + 32 ≤ x → x < c.stop →
        LiveByte (pre ++ post) x := by
      intro c hc hne x h1 h2
      rw [liveByte_iff, ← hlive]
      exact ⟨c, (List.mem_cons.mp (hrest.mem_iff.mpr hc)).resolve_left hne, h1, h2⟩
    refine ⟨_, k, t, cs', fl', by rw [I₂.kfree_eq], I', hrest.trans hperm, hle, hinit'.trans hinit,
      fun i hi => ?_, fun c hc' hne x h1 h2 => ?_⟩
    · have hin : LiveByte (pre ++ post) (k + 32 + i) := by
        refine hmem _ hnew ?_ _ (by simp) (by unfold Chunk.stop; simp only; omega)
        rintro he
        exact hnd.1 (he ▸ hc)
      refine (hbytes _ hin).trans ((hcopy _).trans ((if_pos (by omega)).trans ?_))
      rw [Nat.add_sub_cancel_left]
      refine hkept _ (liveByte_iff.mpr ⟨_, hc, by simp, ?_⟩)
      unfold Chunk.stop
      simp only
      omega
    · have hk' := hap c hc'
      have h2' := h2
      unfold Chunk.stop at h2'
      refine (hbytes x (hmem c (hold c hc') hne x h1 h2)).trans ((hcopy x).trans ?_)
      rw [if_neg (by omega)]
      exact hkept x (liveByte_iff.mpr ⟨c, hc', h1, h2⟩)

end Realloc

end FlightOs
