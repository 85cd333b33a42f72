/-
# The tree of chunks

The headers of a pool form a forest: the regions are its roots, and the children of a chunk lie
one behind the other, from the end of its header to where its own free memory begins.
`ChunkTree a hdr D` says so for the chunks `D`, from the fields alone.

What makes the allocator safe is one field of it, `apart`: apart from what it has given to its
children, every chunk has its own memory (`ChunkOwn`), and no two chunks share a byte.  A split
and a merge move memory between two neighbours of the tree, and leave the rest alone.

* `ChunkTree.grow`, `ChunkTree.drop`: a region comes, an empty one goes.
* `ChunkTree.split`, `ChunkTree.merge`: a child comes, the youngest one goes.
* `ChunkTree.rooted`: every chunk lies in a region.
-/
import FlightOs.Chunk.Pool
import Mathlib.Data.Finset.Card
import Mathlib.Tactic.Ring
import Mathlib.Order.Interval.Finset.Nat

namespace FlightOs

/-- Where the memory of a chunk begins, behind its header. -/
def chunkStart (a c : Nat) : Nat := walign (wadd c chunkHeader) a

/-- The memory that a chunk itself uses: its header, and what its children have left. -/
def ChunkOwn (a : Nat) (hdr : Nat → ChunkHdr) (c x : Nat) : Prop :=
  (c ≤ x ∧ x < chunkStart a c) ∨ ((hdr c).mem ≤ x ∧ x < c + (hdr c).size)

def chunkKids (hdr : Nat → ChunkHdr) (D : Finset Nat) (p : Nat) : Finset Nat :=
  D.filter (fun c => (hdr c).parent = p)

structure ChunkTree (a : Nat) (hdr : Nat → ChunkHdr) (D : Finset Nat) : Prop where
  pos : ∀ c ∈ D, 0 < c
  bound : ∀ c ∈ D, c + (hdr c).size < 2 ^ 32
  room : ∀ c ∈ D, chunkHeader + a ≤ (hdr c).size
  start_le : ∀ c ∈ D, chunkStart a c ≤ (hdr c).mem
  mem_le : ∀ c ∈ D, (hdr c).mem ≤ c + (hdr c).size
  aligned : ∀ c ∈ D, a ∣ (hdr c).mem
  inside : ∀ c ∈ D, (hdr c).parent ≠ 0 → (hdr c).parent ∈ D ∧ a ∣ c ∧
    chunkStart a (hdr c).parent ≤ c ∧ c + (hdr c).size ≤ (hdr (hdr c).parent).mem
  youngest : ∀ c ∈ D, (hdr c).child ≠ 0 → (hdr c).child ∈ D ∧ (hdr (hdr c).child).parent = c ∧
    (hdr c).child + (hdr (hdr c).child).size = (hdr c).mem
  childless : ∀ c ∈ D, (hdr c).child = 0 → (hdr c).mem = chunkStart a c
  older : ∀ c ∈ D, (hdr c).parent ≠ 0 → (hdr c).sibling ≠ 0 → (hdr c).sibling ∈ D ∧
    (hdr (hdr c).sibling).parent = (hdr c).parent ∧
    (hdr c).sibling + (hdr (hdr c).sibling).size = c
  oldest : ∀ c ∈ D, (hdr c).parent ≠ 0 → (hdr c).sibling = 0 → c = chunkStart a (hdr c).parent
  siblings : ∀ c ∈ D, ∀ d ∈ D, c ≠ d → (hdr c).parent ≠ 0 → (hdr c).parent = (hdr d).parent →
    c + (hdr c).size ≤ d ∨ d + (hdr d).size ≤ c
  refcnt : ∀ c ∈ D, (hdr c).refcnt =
    (chunkKids hdr D c).card + if (hdr c).parent = 0 then 0 else 1
  apart : ∀ c ∈ D, ∀ d ∈ D, c ≠ d → ∀ x, ChunkOwn a hdr c x → ¬ ChunkOwn a hdr d x

section Tree

variable {a c d p n f : Nat} {hdr hdr' : Nat → ChunkHdr} {D : Finset Nat}

theorem mem_chunkKids : c ∈ chunkKids hdr D p ↔ c ∈ D ∧ (hdr c).parent = p := by
  rw [chunkKids, Finset.mem_filter]

/-! ## 1. Places -/

theorem chunkStart_spec (ha : 0 < a) (h : c + (chunkHeader + a) < 2 ^ 32) :
    a ∣ chunkStart a c ∧ c + chunkHeader ≤ chunkStart a c ∧
      chunkStart a c < c + (chunkHeader + a) := by
  have hw : wadd c chunkHeader = c + chunkHeader := wadd_of_lt (by omega)
  obtain ⟨h1, h2, h3⟩ := walign_spec (x := c + chunkHeader) ha (by omega)
  rw [chunkStart, hw]
  exact ⟨h1, h2, by omega⟩

namespace ChunkTree

theorem start (T : ChunkTree a hdr D) (ha : 0 < a) (hc : c ∈ D) :
    a ∣ chunkStart a c ∧ c + chunkHeader ≤ chunkStart a c ∧
      chunkStart a c < c + (chunkHeader + a) := by
  have h1 := T.bound c hc
  have h2 := T.room c hc
  exact chunkStart_spec ha (by omega)

theorem own_header (T : ChunkTree a hdr D) (ha : 0 < a) (hc : c ∈ D) {x : Nat} (h1 : c ≤ x)
    (h2 : x < c + chunkHeader) : ChunkOwn a hdr c x :=
  Or.inl ⟨h1, h2.trans_le (T.start ha hc).2.1⟩

/-- Two chunks have different buffers. -/
theorem start_inj (T : ChunkTree a hdr D) (ha : 0 < a) (hc : c ∈ D) (hd : d ∈ D)
    (h : chunkStart a c = chunkStart a d) : c = d := by
  by_contra hne
  have h1 := (T.start ha hc).2.1
  have h2 := (T.start ha hd).2.1
  have hh : chunkHeader = 36 := rfl
  exact T.apart c hc d hd hne (chunkStart a c - 1) (Or.inl ⟨by omega, by omega⟩)
    (Or.inl ⟨by omega, by omega⟩)

theorem own_bounds (T : ChunkTree a hdr D) (hc : c ∈ D) {x : Nat} (h : ChunkOwn a hdr c x)
    (ha : 0 < a) : c ≤ x ∧ x < c + (hdr c).size := by
  have h1 := (T.start ha hc).2.1
  have h2 := T.start_le c hc
  have h3 := T.mem_le c hc
  rcases h with h | h
  · exact ⟨h.1, by omega⟩
  · exact ⟨by omega, h.2⟩

/-- A place in the free memory of a chunk is not the address of another one. -/
theorem notMem_of_own (T : ChunkTree a hdr D) (ha : 0 < a) (hc : c ∈ D) {x : Nat} (hx : c ≠ x)
    (h : ChunkOwn a hdr c x) : x ∉ D := by
  intro hmem
  exact T.apart c hc x hmem hx x h
    (T.own_header ha hmem (Nat.le_refl x) (Nat.lt_add_of_pos_right (by decide)))

theorem parent_lt (T : ChunkTree a hdr D) (ha : 0 < a) (hc : c ∈ D) (hp : (hdr c).parent ≠ 0) :
    (hdr c).parent < c := by
  obtain ⟨hmem, -, hstart, -⟩ := T.inside c hc hp
  have h := (T.start ha hmem).2.1
  have hh : chunkHeader = 36 := rfl
  omega

/-- Every chunk lies in a region. -/
theorem rooted (T : ChunkTree a hdr D) (ha : 0 < a) : ∀ c ∈ D, ∃ t ∈ D, (hdr t).parent = 0 ∧
    t ≤ c ∧ c + (hdr c).size ≤ t + (hdr t).size := by
  intro c
  induction c using Nat.strong_induction_on with
  | _ c ih =>
    intro hc
    by_cases hp : (hdr c).parent = 0
    · exact ⟨c, hc, hp, Nat.le_refl _, Nat.le_refl _⟩
    · have hlt := T.parent_lt ha hc hp
      obtain ⟨hmem, -, -, hstop⟩ := T.inside c hc hp
      obtain ⟨t, ht, htop, hle, hend⟩ := ih _ hlt hmem
      have hmle := T.mem_le _ hmem
      exact ⟨t, ht, htop, by omega, by omega⟩

/-- A chunk without a youngest child has none. -/
theorem kids_of_childless (T : ChunkTree a hdr D) (hc : c ∈ D) (h0 : (hdr c).child = 0) :
    chunkKids hdr D c = ∅ := by
  refine Finset.eq_empty_of_forall_notMem (fun d hd => ?_)
  obtain ⟨hdD, hdp⟩ := mem_chunkKids.mp hd
  obtain ⟨-, -, hstart, hstop⟩ := T.inside d hdD (hdp ▸ (T.pos c hc).ne')
  have hmem := T.childless c hc h0
  have hroom := T.room d hdD
  rw [hdp] at hstart hstop
  have hh : chunkHeader = 36 := rfl
  omega

theorem child_of_kids (T : ChunkTree a hdr D) (hc : c ∈ D) (h0 : chunkKids hdr D c = ∅) :
    (hdr c).child = 0 := by
  by_contra hne
  obtain ⟨hmem, hpar, -⟩ := T.youngest c hc hne
  exact Finset.notMem_empty _ (h0 ▸ mem_chunkKids.mpr ⟨hmem, hpar⟩)

/-- The references never come near to the end of their range. -/
theorem refcnt_lt (T : ChunkTree a hdr D) (hc : c ∈ D) : (hdr c).refcnt + 1 < 2 ^ 32 := by
  have hsub : chunkKids hdr D c ⊆ (Finset.Ico 1 (2 ^ 32 - (chunkHeader + a))) := by
    intro d hd
    obtain ⟨hdD, -⟩ := mem_chunkKids.mp hd
    have h1 := T.pos d hdD
    have h2 := T.bound d hdD
    have h3 := T.room d hdD
    rw [Finset.mem_Ico]
    omega
  have hcard := Finset.card_le_card hsub
  rw [Nat.card_Ico] at hcard
  have href := T.refcnt c hc
  have hh : chunkHeader = 36 := rfl
  split at href <;> omega

/-- Only the free bytes of a header may be rewritten without harm. -/
theorem congr (T : ChunkTree a hdr D) (h : ∀ c ∈ D, ∃ f, hdr' c = { hdr c with free := f }) :
    ChunkTree a hdr' D := by
  have hmem : ∀ c ∈ D, (hdr' c).mem = (hdr c).mem := by
    intro c hc
    obtain ⟨f, hf⟩ := h c hc
    rw [hf]
  have hsize : ∀ c ∈ D, (hdr' c).size = (hdr c).size := by
    intro c hc
    obtain ⟨f, hf⟩ := h c hc
    rw [hf]
  have href : ∀ c ∈ D, (hdr' c).refcnt = (hdr c).refcnt := by
    intro c hc
    obtain ⟨f, hf⟩ := h c hc
    rw [hf]
  have hpar : ∀ c ∈ D, (hdr' c).parent = (hdr c).parent := by
    intro c hc
    obtain ⟨f, hf⟩ := h c hc
    rw [hf]
  have hchild : ∀ c ∈ D, (hdr' c).child = (hdr c).child := by
    intro c hc
    obtain ⟨f, hf⟩ := h c hc
    rw [hf]
  have hsib : ∀ c ∈ D, (hdr' c).sibling = (hdr c).sibling := by
    intro c hc
    obtain ⟨f, hf⟩ := h c hc
    rw [hf]
  have hkids : ∀ p, chunkKids hdr' D p = chunkKids hdr D p :=
    fun p => Finset.filter_congr (fun c hc => by rw [hpar c hc])
  have hown : ∀ c ∈ D, ∀ x, ChunkOwn a hdr' c x ↔ ChunkOwn a hdr c x := by
    intro c hc x
    rw [ChunkOwn, ChunkOwn, hmem c hc, hsize c hc]
  refine ⟨T.pos, ?_, ?_, ?_, ?_, ?_, ?_, ?_, ?_, ?_, ?_, ?_, ?_, ?_⟩
  · exact fun c hc => hsize c hc ▸ T.bound c hc
  · exact fun c hc => hsize c hc ▸ T.room c hc
  · exact fun c hc => hmem c hc ▸ T.start_le c hc
  · exact fun c hc => hmem c hc ▸ hsize c hc ▸ T.mem_le c hc
  · exact fun c hc => hmem c hc ▸ T.aligned c hc
  · intro c hc hp
    rw [hpar c hc] at hp ⊢
    have hin := T.inside c hc hp
    rwa [hsize c hc, hmem _ hin.1]
  · intro c hc hp
    rw [hchild c hc] at hp ⊢
    have hin := T.youngest c hc hp
    rwa [hpar _ hin.1, hsize _ hin.1, hmem c hc]
  · intro c hc hp
    rw [hchild c hc] at hp
    rw [hmem c hc, T.childless c hc hp]
  · intro c hc hp hs
    rw [hpar c hc] at hp ⊢
    rw [hsib c hc] at hs ⊢
    have hin := T.older c hc hp hs
    rwa [hpar _ hin.1, hsize _ hin.1]
  · intro c hc hp hs
    rw [hpar c hc] at hp ⊢
    exact T.oldest c hc hp (hsib c hc ▸ hs)
  · intro c hc d hd hne hp heq
    rw [hpar c hc] at hp heq
    rw [hpar d hd] at heq
    rw [hsize c hc, hsize d hd]
    exact T.siblings c hc d hd hne hp heq
  · intro c hc
    rw [href c hc, hkids, hpar c hc, T.refcnt c hc]
  · intro c hc d hd hne x h1 h2
    exact T.apart c hc d hd hne x ((hown c hc x).mp h1) ((hown d hd x).mp h2)

/-! ## 2. Regions -/

/-- **A region comes.** -/
theorem grow (T : ChunkTree a hdr D) (ha : 0 < a) {sz : Nat} (hc : c ∉ D) (hpos : 0 < c)
    (hbound : c + sz < 2 ^ 32) (hroom : chunkHeader + a ≤ sz)
    (hself : hdr' c = ⟨chunkStart a c, sz, f, 0, 0, 0, 0⟩) (hrest : ∀ d ∈ D, hdr' d = hdr d)
    (hfree : ∀ d ∈ D, ∀ x, ChunkOwn a hdr d x → ¬ (c ≤ x ∧ x < c + sz)) :
    ChunkTree a hdr' (insert c D) := by
  obtain ⟨hdvd, hhead, hlt⟩ := chunkStart_spec (a := a) (c := c) ha (by omega)
  have hkids : ∀ p ≠ 0, chunkKids hdr' (insert c D) p = chunkKids hdr D p := by
    intro p hp
    rw [chunkKids, Finset.filter_insert, hself, if_neg hp.symm]
    exact Finset.filter_congr (fun d hd => by rw [hrest d hd])
  have hne : ∀ d ∈ D, d ≠ c := fun d hd e => hc (e ▸ hd)
  have hown : ∀ x, ChunkOwn a hdr' c x → c ≤ x ∧ x < c + sz := by
    intro x hx
    rw [ChunkOwn, hself] at hx
    simp only at hx
    omega
  refine ⟨?_, ?_, ?_, ?_, ?_, ?_, ?_, ?_, ?_, ?_, ?_, ?_, ?_, ?_⟩
  all_goals
    intro d hmem
    rcases Finset.mem_insert.mp hmem with rfl | hd
  · exact hpos
  · exact T.pos d hd
  · rwa [hself]
  · exact hrest d hd ▸ T.bound d hd
  · rwa [hself]
  · exact hrest d hd ▸ T.room d hd
  · rw [hself]
  · exact hrest d hd ▸ T.start_le d hd
  · rw [hself]
    simp only
    omega
  · exact hrest d hd ▸ T.mem_le d hd
  · rwa [hself]
  · exact hrest d hd ▸ T.aligned d hd
  · exact fun h => absurd (by rw [hself]) h
  · intro hp
    rw [hrest d hd] at hp ⊢
    obtain ⟨h1, h2⟩ := T.inside d hd hp
    rw [hrest _ h1]
    exact ⟨Finset.mem_insert_of_mem h1, h2⟩
  · exact fun h => absurd (by rw [hself]) h
  · intro hp
    rw [hrest d hd] at hp ⊢
    obtain ⟨h1, h2⟩ := T.youngest d hd hp
    rw [hrest _ h1]
    exact ⟨Finset.mem_insert_of_mem h1, h2⟩
  · exact fun _ => by rw [hself]
  · exact hrest d hd ▸ T.childless d hd
  · exact fun h => absurd (by rw [hself]) h
  · intro hp hs
    rw [hrest d hd] at hp hs ⊢
    obtain ⟨h1, h2⟩ := T.older d hd hp hs
    rw [hrest _ h1]
    exact ⟨Finset.mem_insert_of_mem h1, h2⟩
  · exact fun h => absurd (by rw [hself]) h
  · exact hrest d hd ▸ T.oldest d hd
  · exact fun _ _ _ h => absurd (by rw [hself]) h
  · intro e he hde hp heq
    rcases Finset.mem_insert.mp he with rfl | he
    · exact absurd (heq.trans (by rw [hself])) hp
    · rw [hrest d hd, hrest e he] at *
      exact T.siblings d hd e he hde hp heq
  · rw [hkids _ hpos.ne', hself]
    simp only [if_true, Nat.add_zero]
    refine (Finset.card_eq_zero.mpr (Finset.eq_empty_of_forall_notMem (fun e he => ?_))).symm
    obtain ⟨heD, hep⟩ := mem_chunkKids.mp he
    exact hc (hep ▸ (T.inside e heD (hep ▸ hpos.ne')).1)
  · rw [hkids _ (T.pos d hd).ne', hrest d hd]
    exact T.refcnt d hd
  · intro e he hde x h1 h2
    rcases Finset.mem_insert.mp he with rfl | he
    · exact hde rfl
    · rw [ChunkOwn, hrest e he] at h2
      exact hfree e he x h2 (hown x h1)
  · intro e he hde x h1 h2
    rw [ChunkOwn, hrest d hd] at h1
    rcases Finset.mem_insert.mp he with rfl | he
    · exact hfree d hd x h1 (hown x h2)
    · rw [ChunkOwn, hrest e he] at h2
      exact T.apart d hd e he hde x h1 h2

/-- **An empty region goes.** -/
theorem drop (T : ChunkTree a hdr D) (htop : (hdr c).parent = 0) (h0 : chunkKids hdr D c = ∅) :
    ChunkTree a hdr (D.erase c) := by
  have hsub : ∀ {d}, d ∈ D.erase c → d ∈ D := fun hd => Finset.mem_of_mem_erase hd
  have hkid : ∀ d ∈ D, (hdr d).parent ≠ c := fun d hd e =>
    Finset.notMem_empty d (h0 ▸ mem_chunkKids.mpr ⟨hd, e⟩)
  have hmem : ∀ d ∈ D, (hdr d).parent ≠ 0 → d ∈ D.erase c := fun d hd hp =>
    Finset.mem_erase.mpr ⟨fun e => hp (e ▸ htop), hd⟩
  refine ⟨fun d hd => T.pos d (hsub hd), fun d hd => T.bound d (hsub hd),
    fun d hd => T.room d (hsub hd), fun d hd => T.start_le d (hsub hd),
    fun d hd => T.mem_le d (hsub hd), fun d hd => T.aligned d (hsub hd), ?_, ?_,
    fun d hd => T.childless d (hsub hd), ?_, fun d hd => T.oldest d (hsub hd),
    fun d hd e he => T.siblings d (hsub hd) e (hsub he), ?_,
    fun d hd e he => T.apart d (hsub hd) e (hsub he)⟩
  · intro d hd hp
    obtain ⟨h1, h2⟩ := T.inside d (hsub hd) hp
    exact ⟨Finset.mem_erase.mpr ⟨hkid d (hsub hd), h1⟩, h2⟩
  · intro d hd hp
    obtain ⟨h1, h2, h3⟩ := T.youngest d (hsub hd) hp
    exact ⟨hmem _ h1 (by rw [h2]; exact (T.pos d (hsub hd)).ne'), h2, h3⟩
  · intro d hd hp hs
    obtain ⟨h1, h2, h3⟩ := T.older d (hsub hd) hp hs
    exact ⟨hmem _ h1 (by rwa [h2]), h2, h3⟩
  · intro d hd
    rw [T.refcnt d (hsub hd)]
    have hkeep : chunkKids hdr (D.erase c) d = chunkKids hdr D d := by
      rw [chunkKids, Finset.filter_erase, Finset.erase_eq_of_notMem]
      · rfl
      · rw [Finset.mem_filter, htop]
        exact fun h => (T.pos d (hsub hd)).ne h.2
    rw [hkeep]

/-! ## 3. Children -/

/-- **A child comes**, at the beginning of the free memory of its parent. -/
theorem split (T : ChunkTree a hdr D) (ha : 0 < a) (hc : c ∈ D) {m g : Nat}
    (hm : (hdr c).mem = m) (hdvd : a ∣ n) (hn : chunkHeader + a ≤ n)
    (hroom : m + n ≤ c + (hdr c).size)
    (hnew : hdr' m = ⟨chunkStart a m, n, g, 1, c, 0, (hdr c).child⟩)
    (hself : hdr' c = { hdr c with
      mem := m + n, free := f, refcnt := (hdr c).refcnt + 1, child := m })
    (hrest : ∀ d ∈ D, d ≠ c → hdr' d = hdr d) : ChunkTree a hdr' (insert m D) := by
  have hb := T.bound c hc
  have hh : chunkHeader = 36 := rfl
  have hcm : c < m := by
    have h1 := (T.start ha hc).2.1
    have h2 := T.start_le c hc
    omega
  have hmD : m ∉ D := by
    refine T.notMem_of_own ha hc hcm.ne (Or.inr ⟨hm.le, ?_⟩)
    omega
  have hmdvd : a ∣ m := hm ▸ T.aligned c hc
  obtain ⟨hdvd', hhead, hlt⟩ := chunkStart_spec (a := a) (c := m) ha (by omega)
  have hc0 := T.pos c hc
  have hpar : ∀ d ∈ D, (hdr' d).parent = (hdr d).parent := by
    intro d hd
    by_cases hdc : d = c
    · rw [hdc, hself]
    · rw [hrest d hd hdc]
  have hsize : ∀ d ∈ D, (hdr' d).size = (hdr d).size := by
    intro d hd
    by_cases hdc : d = c
    · rw [hdc, hself]
    · rw [hrest d hd hdc]
  have hsib : ∀ d ∈ D, (hdr' d).sibling = (hdr d).sibling := by
    intro d hd
    by_cases hdc : d = c
    · rw [hdc, hself]
    · rw [hrest d hd hdc]
  have hmem : ∀ d ∈ D, (hdr d).mem ≤ (hdr' d).mem ∧ (d ≠ c → (hdr' d).mem = (hdr d).mem) := by
    intro d hd
    by_cases hdc : d = c
    · subst hdc
      rw [hself]
      exact ⟨hm.le.trans (Nat.le_add_right m n), fun h => absurd rfl h⟩
    · rw [hrest d hd hdc]
      exact ⟨Nat.le_refl _, fun _ => rfl⟩
  have hkids : ∀ p, chunkKids hdr' (insert m D) p =
      if c = p then insert m (chunkKids hdr D p) else chunkKids hdr D p := by
    intro p
    rw [chunkKids, Finset.filter_insert, hnew]
    have hD : D.filter (fun d => (hdr' d).parent = p) = chunkKids hdr D p :=
      Finset.filter_congr (fun d hd => by rw [hpar d hd])
    rw [hD]
  have hownm : ∀ x, ChunkOwn a hdr' m x → ChunkOwn a hdr c x ∧ x < m + n := by
    intro x hx
    rw [ChunkOwn, hnew] at hx
    simp only at hx
    exact ⟨Or.inr (by omega), by omega⟩
  have hown : ∀ d ∈ D, ∀ x, ChunkOwn a hdr' d x →
      ChunkOwn a hdr d x ∧ (d = c → x < m ∨ m + n ≤ x) := by
    intro d hd x hx
    by_cases hdc : d = c
    · subst hdc
      rw [ChunkOwn, hself] at hx
      have hst := T.start_le d hd
      simp only at hx
      refine ⟨hx.imp_right (fun h => by omega), fun _ => by omega⟩
    · rw [ChunkOwn, hrest d hd hdc] at hx
      exact ⟨hx, fun h => absurd h hdc⟩
  refine ⟨?_, ?_, ?_, ?_, ?_, ?_, ?_, ?_, ?_, ?_, ?_, ?_, ?_, ?_⟩
  all_goals
    intro d hin
    rcases Finset.mem_insert.mp hin with rfl | hd
  · omega
  · exact T.pos d hd
  · rw [hnew]
    simp only
    omega
  · exact hsize d hd ▸ T.bound d hd
  · rwa [hnew]
  · exact hsize d hd ▸ T.room d hd
  · rw [hnew]
  · exact (T.start_le d hd).trans (hmem d hd).1
  · rw [hnew]
    simp only
    omega
  · by_cases hdc : d = c
    · rw [hdc, hself]
      exact hroom
    · rw [hsize d hd, (hmem d hd).2 hdc]
      exact T.mem_le d hd
  · rwa [hnew]
  · by_cases hdc : d = c
    · rw [hdc, hself]
      exact Nat.dvd_add hmdvd hdvd
    · rw [(hmem d hd).2 hdc]
      exact T.aligned d hd
  · intro _
    rw [hnew]
    simp only
    rw [hself]
    exact ⟨Finset.mem_insert_of_mem hc, hmdvd, hm ▸ T.start_le c hc, Nat.le_refl _⟩
  · intro hp
    rw [hpar d hd] at hp ⊢
    obtain ⟨h1, h2, h3, h4⟩ := T.inside d hd hp
    rw [hsize d hd]
    exact ⟨Finset.mem_insert_of_mem h1, h2, h3, h4.trans (hmem _ h1).1⟩
  · exact fun h => absurd (by rw [hnew]) h
  · intro hp
    by_cases hdc : d = c
    · subst hdc
      rw [hself]
      simp only
      rw [hnew]
      exact ⟨Finset.mem_insert_self _ _, rfl, rfl⟩
    · rw [hrest d hd hdc] at hp ⊢
      obtain ⟨h1, h2, h3⟩ := T.youngest d hd hp
      rw [hpar _ h1, hsize _ h1]
      exact ⟨Finset.mem_insert_of_mem h1, h2, h3⟩
  · exact fun _ => by rw [hnew]
  · intro h0
    by_cases hdc : d = c
    · rw [hdc, hself] at h0
      exact absurd h0 (by simp only; omega)
    · rw [hrest d hd hdc] at h0 ⊢
      exact T.childless d hd h0
  · intro _ hs
    rw [hnew] at hs ⊢
    simp only at hs ⊢
    obtain ⟨h1, h2, h3⟩ := T.youngest c hc hs
    rw [hpar _ h1, hsize _ h1]
    exact ⟨Finset.mem_insert_of_mem h1, h2, h3.trans hm⟩
  · intro hp hs
    rw [hpar d hd] at hp ⊢
    rw [hsib d hd] at hs ⊢
    obtain ⟨h1, h2, h3⟩ := T.older d hd hp hs
    rw [hpar _ h1, hsize _ h1]
    exact ⟨Finset.mem_insert_of_mem h1, h2, h3⟩
  · intro _ hs
    rw [hnew] at hs ⊢
    exact hm.symm.trans (T.childless c hc hs)
  · intro hp hs
    rw [hpar d hd] at hp ⊢
    exact T.oldest d hd hp (hsib d hd ▸ hs)
  · intro e he hde hp heq
    rcases Finset.mem_insert.mp he with rfl | he
    · exact absurd rfl hde
    · rw [hnew, hpar e he] at heq
      have h4 := (T.inside e he (heq ▸ hc0.ne')).2.2.2
      rw [← heq] at h4
      rw [hsize e he]
      exact Or.inr (h4.trans hm.le)
  · intro e he hde hp heq
    rcases Finset.mem_insert.mp he with rfl | he
    · rw [hnew, hpar d hd] at heq
      have h4 := (T.inside d hd (heq ▸ hc0.ne')).2.2.2
      rw [heq] at h4
      rw [hsize d hd]
      exact Or.inl (h4.trans hm.le)
    · rw [hpar d hd] at hp heq
      rw [hpar e he] at heq
      rw [hsize d hd, hsize e he]
      exact T.siblings d hd e he hde hp heq
  · rw [hkids, if_neg hcm.ne, hnew]
    simp only [if_neg hc0.ne']
    have hnone : chunkKids hdr D d = ∅ := by
      refine Finset.eq_empty_of_forall_notMem (fun e he => ?_)
      obtain ⟨heD, hep⟩ := mem_chunkKids.mp he
      exact hmD (hep ▸ (T.inside e heD (hep ▸ by omega)).1)
    rw [hnone, Finset.card_empty]
  · have href := T.refcnt d hd
    rw [hkids, hpar d hd]
    by_cases hdc : d = c
    · subst hdc
      have hnk : m ∉ chunkKids hdr D d := fun h => hmD (mem_chunkKids.mp h).1
      rw [if_pos rfl, hself, Finset.card_insert_of_notMem hnk]
      simp only
      omega
    · rw [if_neg (Ne.symm hdc), hrest d hd hdc, href]
  · intro e he hde x h1 h2
    rcases Finset.mem_insert.mp he with rfl | he
    · exact absurd rfl hde
    · obtain ⟨h3, h4⟩ := hownm x h1
      obtain ⟨h5, h6⟩ := hown e he x h2
      by_cases hec : e = c
      · rw [ChunkOwn, hnew] at h1
        have h7 := h6 hec
        simp only at h1
        omega
      · exact T.apart c hc e he (Ne.symm hec) x h3 h5
  · intro e he hde x h1 h2
    obtain ⟨h5, h6⟩ := hown d hd x h1
    rcases Finset.mem_insert.mp he with rfl | he
    · obtain ⟨h3, h4⟩ := hownm x h2
      by_cases hdc : d = c
      · rw [ChunkOwn, hnew] at h2
        have h7 := h6 hdc
        simp only at h2
        omega
      · exact T.apart d hd c hc hdc x h5 h3
    · exact T.apart d hd e he hde x h5 (hown e he x h2).1

/-- A chunk without children uses all its memory itself. -/
theorem own_of_childless (T : ChunkTree a hdr D) (hc : c ∈ D) (h0 : (hdr c).child = 0) {x : Nat}
    (h1 : c ≤ x) (h2 : x < c + (hdr c).size) : ChunkOwn a hdr c x := by
  rw [ChunkOwn, T.childless c hc h0]
  omega

/-- **The youngest child goes**, and its memory is the parent's again. -/
theorem merge (T : ChunkTree a hdr D) (hc : c ∈ D) (hp : (hdr c).parent = p) (hp0 : p ≠ 0)
    (hy : (hdr p).child = c) (hleaf : (hdr c).child = 0)
    (hself : hdr' p = { hdr p with
      mem := c, free := f, refcnt := (hdr p).refcnt - 1, child := (hdr c).sibling })
    (hrest : ∀ d ∈ D, d ≠ c → d ≠ p → hdr' d = hdr d) : ChunkTree a hdr' (D.erase c) := by
  obtain ⟨hpD, hdvd, hstart, hstop⟩ := T.inside c hc (hp ▸ hp0)
  rw [hp] at hpD hstart hstop
  have hend : c + (hdr c).size = (hdr p).mem := by
    have h := (T.youngest p hpD (hy ▸ (T.pos c hc).ne')).2.2
    rwa [hy] at h
  have hroom := T.room c hc
  have hh : chunkHeader = 36 := rfl
  have hnone := T.kids_of_childless hc hleaf
  have hkid : ∀ d ∈ D, (hdr d).parent ≠ c := fun d hd e =>
    Finset.notMem_empty d (hnone ▸ mem_chunkKids.mpr ⟨hd, e⟩)
  have hpc : p ≠ c := fun e => hkid c hc (hp.trans e)
  have hpar : ∀ d ∈ D, d ≠ c → (hdr' d).parent = (hdr d).parent := by
    intro d hd hdc
    by_cases hdp : d = p
    · rw [hdp, hself]
    · rw [hrest d hd hdc hdp]
  have hsize : ∀ d ∈ D, d ≠ c → (hdr' d).size = (hdr d).size := by
    intro d hd hdc
    by_cases hdp : d = p
    · rw [hdp, hself]
    · rw [hrest d hd hdc hdp]
  have hsib : ∀ d ∈ D, d ≠ c → (hdr' d).sibling = (hdr d).sibling := by
    intro d hd hdc
    by_cases hdp : d = p
    · rw [hdp, hself]
    · rw [hrest d hd hdc hdp]
  -- the other children of the parent lie before the youngest
  have hbefore : ∀ d ∈ D, d ≠ c → (hdr d).parent = p → d + (hdr d).size ≤ c := by
    intro d hd hdc hdp
    have h4 := (T.inside d hd (hdp ▸ hp0)).2.2.2
    have hroomd := T.room d hd
    rw [hdp] at h4
    rcases T.siblings d hd c hc hdc (hdp ▸ hp0) (hdp.trans hp.symm) with h | h
    · exact h
    · omega
  have hown : ∀ d ∈ D, d ≠ c → ∀ x, ChunkOwn a hdr' d x →
      ChunkOwn a hdr d x ∨ d = p ∧ ChunkOwn a hdr c x := by
    intro d hd hdc x hx
    by_cases hdp : d = p
    · subst hdp
      rw [ChunkOwn, hself] at hx
      simp only at hx
      by_cases hlow : x < (hdr d).mem ∧ c ≤ x
      · exact Or.inr ⟨rfl, T.own_of_childless hc hleaf hlow.2 (by omega)⟩
      · exact Or.inl (hx.imp_right (fun h => by omega))
    · rw [ChunkOwn, hrest d hd hdc hdp] at hx
      exact Or.inl hx
  have hmem : ∀ d ∈ D, d ≠ p → d ≠ c → (hdr' d).mem = (hdr d).mem := by
    intro d hd hdp hdc
    rw [hrest d hd hdc hdp]
  refine ⟨?_, ?_, ?_, ?_, ?_, ?_, ?_, ?_, ?_, ?_, ?_, ?_, ?_, ?_⟩
  all_goals
    intro d hin
    obtain ⟨hdc, hd⟩ := Finset.mem_erase.mp hin
  · exact T.pos d hd
  · exact hsize d hd hdc ▸ T.bound d hd
  · exact hsize d hd hdc ▸ T.room d hd
  · by_cases hdp : d = p
    · rw [hdp, hself]
      exact hstart
    · rw [hmem d hd hdp hdc]
      exact T.start_le d hd
  · by_cases hdp : d = p
    · have hle := T.mem_le p hpD
      rw [hdp, hself]
      simp only
      omega
    · rw [hsize d hd hdc, hmem d hd hdp hdc]
      exact T.mem_le d hd
  · by_cases hdp : d = p
    · rw [hdp, hself]
      exact hdvd
    · rw [hmem d hd hdp hdc]
      exact T.aligned d hd
  · intro hq
    rw [hpar d hd hdc] at hq ⊢
    obtain ⟨h1, h2, h3, h4⟩ := T.inside d hd hq
    rw [hsize d hd hdc]
    refine ⟨Finset.mem_erase.mpr ⟨hkid d hd, h1⟩, h2, h3, ?_⟩
    by_cases hqp : (hdr d).parent = p
    · rw [hqp, hself]
      exact hbefore d hd hdc hqp
    · rw [hmem _ h1 hqp (hkid d hd)]
      exact h4
  · intro hq
    by_cases hdp : d = p
    · subst hdp
      rw [hself] at hq ⊢
      simp only at hq ⊢
      obtain ⟨h1, h2, h3⟩ := T.older c hc (hp ▸ hp0) hq
      have hne : (hdr c).sibling ≠ c := by
        intro e
        rw [e] at h3
        omega
      rw [hpar _ h1 hne, hsize _ h1 hne]
      exact ⟨Finset.mem_erase.mpr ⟨hne, h1⟩, h2.trans hp, h3⟩
    · rw [hrest d hd hdc hdp] at hq ⊢
      obtain ⟨h1, h2, h3⟩ := T.youngest d hd hq
      have hne : (hdr d).child ≠ c := fun e => hdp (by rw [← hp, ← e, h2])
      rw [hpar _ h1 hne, hsize _ h1 hne]
      exact ⟨Finset.mem_erase.mpr ⟨hne, h1⟩, h2, h3⟩
  · intro hq
    by_cases hdp : d = p
    · rw [hdp, hself] at hq ⊢
      exact hp ▸ T.oldest c hc (hp ▸ hp0) hq
    · rw [hrest d hd hdc hdp] at hq ⊢
      exact T.childless d hd hq
  · intro hq hs
    rw [hpar d hd hdc] at hq ⊢
    rw [hsib d hd hdc] at hs ⊢
    obtain ⟨h1, h2, h3⟩ := T.older d hd hq hs
    have hne : (hdr d).sibling ≠ c := by
      intro e
      rw [e] at h2 h3
      have h4 := (T.inside d hd hq).2.2.2
      have hroomd := T.room d hd
      rw [← h2, hp] at h4
      omega
    rw [hpar _ h1 hne, hsize _ h1 hne]
    exact ⟨Finset.mem_erase.mpr ⟨hne, h1⟩, h2, h3⟩
  · intro hq hs
    rw [hpar d hd hdc] at hq ⊢
    exact T.oldest d hd hq (hsib d hd hdc ▸ hs)
  · intro e he hde hq heq
    obtain ⟨hec, he⟩ := Finset.mem_erase.mp he
    rw [hpar d hd hdc] at hq heq
    rw [hpar e he hec] at heq
    rw [hsize d hd hdc, hsize e he hec]
    exact T.siblings d hd e he hde hq heq
  · have href := T.refcnt d hd
    have hD : chunkKids hdr' (D.erase c) d = (chunkKids hdr D d).erase c := by
      rw [chunkKids, chunkKids, ← Finset.filter_erase]
      refine Finset.filter_congr (fun e he => ?_)
      obtain ⟨hec, he⟩ := Finset.mem_erase.mp he
      rw [hpar e he hec]
    rw [hD, hpar d hd hdc]
    by_cases hdp : d = p
    · subst hdp
      have hk : c ∈ chunkKids hdr D d := mem_chunkKids.mpr ⟨hc, hp⟩
      have hcard := Finset.card_pos.mpr ⟨c, hk⟩
      rw [Finset.card_erase_of_mem hk, hself]
      simp only
      omega
    · have hk : c ∉ chunkKids hdr D d := fun h => hdp ((mem_chunkKids.mp h).2.symm.trans hp)
      rw [Finset.erase_eq_of_notMem hk, hrest d hd hdc hdp, href]
  · intro e he hde x h1 h2
    obtain ⟨hec, he⟩ := Finset.mem_erase.mp he
    rcases hown d hd hdc x h1 with h1 | ⟨rfl, h1⟩
    · rcases hown e he hec x h2 with h2 | ⟨rfl, h2⟩
      · exact T.apart d hd e he hde x h1 h2
      · exact T.apart d hd c hc hdc x h1 h2
    · rcases hown e he hec x h2 with h2 | ⟨rfl, h2⟩
      · exact T.apart c hc e he (Ne.symm hec) x h1 h2
      · exact hde rfl

end ChunkTree

end Tree

end FlightOs
