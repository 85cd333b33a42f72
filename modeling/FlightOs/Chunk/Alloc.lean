/-
# `chunk_alloc` keeps the invariant

* `chunkGrabNew_eq`, `chunkSplit_eq`: what the two halves of the function write.
* `ChunkInv.search`: the search of `full` ends, at the first chunk with room.
* `ChunkInv.grab`, `ChunkInv.split`: the two halves keep the invariant.
* `ChunkInv.alloc`: so does the whole, and it returns, if the size fits (`AllocFits`) and the
  higher tier gives regions that are apart (`TierAnswers`).
-/
import FlightOs.Chunk.Inv

namespace FlightOs

/-- What the higher tier may answer: nothing, or a region apart from those that it has given. -/
def TierAnswers (s : ChunkPool) (region sz : Nat) : Prop :=
  region ≠ 0 → region + sz < 2 ^ 32 ∧
    ∀ e ∈ tierHeld s.tier, e.1 ≠ region ∧ (e.1 + e.2 ≤ region ∨ region + sz ≤ e.1)

/-- The size of the chunk does not wrap, and a region has room for it behind a header. -/
def AllocFits (s : ChunkPool) (size region sz : Nat) : Prop :=
  size + (chunkHeader + (s.align + s.align)) ≤ 2 ^ 32 ∧
    (region ≠ 0 → chunkAllocSz s size ≤ sz →
      chunkStart s.align region + chunkAllocSz s size ≤ region + sz)

section Alloc

variable {Y S : Prop} {r : Nat} {s : ChunkPool} {live : List (Nat × Nat)} {fl em : List Nat}
  {c n size region real : Nat}

/-! ## 1. What is written -/

theorem chunkGrabNew_eq (s : ChunkPool) (size region real : Nat) :
    chunkGrabNew s size region real =
      if region = 0 then
        ({ s with tier := .alloc size region (s.regionSize size real) :: s.tier }, 0)
      else if s.hasRealSize = true ∧ s.regionSize size real < size then
        ({ s with
          hdr := Function.update s.hdr region
            { s.hdr region with size := s.regionSize size real }
          tier := .free region :: .alloc size region (s.regionSize size real) :: s.tier }, 0)
      else
        ({ s with
          hdr := Function.update s.hdr region ⟨chunkStart s.align region,
            s.regionSize size real,
            wsub (wadd region (s.regionSize size real)) (chunkStart s.align region), 0, 0, 0, 0⟩
          links := listAddTail s.links (.chunk region) .full
          tier := .alloc size region (s.regionSize size real) :: s.tier }, region) := by
  simp only [chunkGrabNew, chunkSetup, ChunkPool.set, chunkAlign, chunkStart,
    Function.update_self, Function.update_idem]
  rfl

/-- The region is recorded first of all. -/
theorem chunkGrabNew_tier (s : ChunkPool) (size region real : Nat) :
    s.tier.length < (chunkGrabNew s size region real).1.tier.length := by
  rw [chunkGrabNew_eq]
  split
  · exact Nat.lt_succ_self _
  · split
    · exact Nat.lt_succ_of_lt (Nat.lt_succ_self _)
    · exact Nat.lt_succ_self _

/-- The header of a new child. -/
def childHdr (s : ChunkPool) (c n : Nat) : ChunkHdr :=
  ⟨chunkStart s.align (s.hdr c).mem, n, 0, 1, c, 0, (s.hdr c).child⟩

/-- The header of its parent. -/
def splitHdr (s : ChunkPool) (c n : Nat) : ChunkHdr :=
  { s.hdr c with
    mem := walign (wadd (s.hdr c).mem n) s.align
    free := wsub (wadd c (s.hdr c).size) (walign (wadd (s.hdr c).mem n) s.align)
    refcnt := wadd (s.hdr c).refcnt 1
    child := (s.hdr c).mem }

theorem chunkSplit_eq (h : n ≤ (s.hdr c).free) (hne : c ≠ (s.hdr c).mem) :
    chunkSplit s c n =
      (chunkClassify { s with
        hdr := Function.update (Function.update s.hdr (s.hdr c).mem (childHdr s c n)) c
          (splitHdr s c n)
        links := listAddTail s.links (.chunk (s.hdr c).mem) .empty } c, (s.hdr c).mem) := by
  rw [chunkSplit, if_neg (not_lt.mpr h)]
  simp only [chunkSetup, ChunkPool.set, chunkAlign, chunkStart, childHdr, splitHdr,
    Function.update_self, Function.update_idem, Function.update_of_ne hne]

theorem chunkFindFrom_eq {n : Nat} : ∀ {l : List Nat} {k : Nat} {x : ChunkNode},
    Path s.links x (l.map .chunk) .full → l.length < k →
    chunkFindFrom s n k (s.links x).next = some ((l.find? (fun c => n ≤ (s.hdr c).free)).getD 0)
  | [], k + 1, x, hp, _ => by
    rw [hp.1]
    rfl
  | c :: l, k + 1, x, hp, hk => by
    obtain ⟨hnext, -, hrest⟩ := hp
    rw [hnext, chunkFindFrom]
    by_cases hfit : n ≤ (s.hdr c).free
    · rw [if_pos hfit, List.find?_cons_of_pos (by simpa using hfit)]
      rfl
    · rw [if_neg hfit, List.find?_cons_of_neg (by simpa using hfit)]
      exact chunkFindFrom_eq hrest (Nat.lt_of_succ_lt_succ hk)

/-! ## 2. The size -/

theorem chunkAllocSz_spec (ha : 0 < s.align)
    (h : size + (chunkHeader + (s.align + s.align)) ≤ 2 ^ 32) :
    s.align ∣ chunkAllocSz s size ∧ size + (chunkHeader + s.align) ≤ chunkAllocSz s size := by
  have hh : chunkHeader = 36 := rfl
  have hw : wadd (wadd size s.align) chunkHeader = size + s.align + chunkHeader := by
    rw [wadd_of_lt (a := size) (by omega), wadd_of_lt (by omega)]
  obtain ⟨h1, h2, -⟩ := walign_spec (x := size + s.align + chunkHeader) ha (by omega)
  rw [chunkAllocSz, chunkAlign, hw]
  exact ⟨h1, by omega⟩

namespace ChunkInv

/-! ## 3. The two halves -/

/-- The search ends, at the first chunk with room. -/
theorem search (I : ChunkInv Y S r s live fl em) (n : Nat) :
    (chunkFindFrom s n chunkFuel (s.links .full).next = some 0 ∧
      ∀ c ∈ fl, (s.hdr c).free < n) ∨
    ∃ c ∈ fl, c ≠ 0 ∧ n ≤ (s.hdr c).free ∧
      chunkFindFrom s n chunkFuel (s.links .full).next = some c := by
  rw [chunkFindFrom_eq I.lists.fst.path I.length_lt]
  cases hfind : fl.find? (fun c => n ≤ (s.hdr c).free) with
  | none =>
    rw [List.find?_eq_none] at hfind
    exact Or.inl ⟨rfl, fun c hc => not_le.mp (by simpa using hfind c hc)⟩
  | some c =>
    have hmem := List.mem_of_find?_eq_some hfind
    have hfit : n ≤ (s.hdr c).free := by simpa using List.find?_some hfind
    exact Or.inr ⟨c, hmem, (I.tree.pos c (mem_chunkSet.mpr (Or.inl hmem))).ne', hfit, rfl⟩

/-- A place that the higher tier has not given holds no chunk. -/
theorem apart_of_answers (I : ChunkInv Y S r s live fl em) (ha : 0 < s.align)
    (hr : region ≠ 0) {sz : Nat} (hT : TierAnswers s region sz) {d : Nat}
    (hd : d ∈ chunkSet fl em) :
    d ≠ region ∧ (d + (s.hdr d).size ≤ region ∨ region + sz ≤ d) := by
  obtain ⟨t, ht, htop, hle, hend⟩ := I.tree.rooted ha d hd
  have hroom := I.tree.room d hd
  have hh : chunkHeader = 36 := rfl
  obtain ⟨h1, h2⟩ := (hT hr).2 _ ((I.held (t, (s.hdr t).size)).mpr ⟨ht, htop, rfl⟩)
  simp only at h1 h2
  omega

/-- A call of the higher tier that gives nothing, or nothing that is kept. -/
theorem withTier (I : ChunkInv Y S r s live fl em) {hdr : Nat → ChunkHdr} {tier : List TierCall}
    (hhdr : ∀ c ∈ chunkSet fl em, hdr c = s.hdr c) (hcalls : TierBalanced tier)
    (hheld : tierHeld tier = tierHeld s.tier) :
    ChunkInv Y S r { s with hdr := hdr, tier := tier } live fl em := by
  refine ⟨I.supplied, I.lists, I.tree.congr (fun c hc => ⟨(s.hdr c).free, hhdr c hc⟩), hcalls, ?_, ?_, ?_,
    I.keys, ?_, ?_, ?_⟩
  · intro e
    simp only [hheld]
    rw [I.held e]
    exact and_congr_right (fun he => by rw [hhdr _ he])
  · intro c hc
    simp only [hhdr c hc]
    exact I.regions c hc
  · intro c hc
    simp only [hhdr c hc]
    exact I.room c hc
  · intro e he
    obtain ⟨c, hc, h⟩ := I.buffers e he
    exact ⟨c, hc, by simpa only [hhdr c hc] using h⟩
  · intro hY c hc
    simp only [hhdr c hc]
    exact I.allLive hY c hc
  · intro hS c hc
    simp only [hhdr c (mem_chunkSet.mpr (Or.inr hc))]
    exact I.sorted hS c hc

/-- **The region** that the higher tier gives is one more chunk; or there is none, and nothing has
changed. -/
theorem grab (I : ChunkInv Y S 0 s live fl em) (ha : 0 < s.align)
    (hn : chunkHeader + s.align ≤ n) (hT : TierAnswers s region (s.regionSize n real)) :
    (∃ s', chunkGrabNew s n region real = (s', 0) ∧ s'.align = s.align ∧
      ChunkInv Y S 0 s' live fl em) ∨
    region ≠ 0 ∧ n ≤ s.regionSize n real ∧ ∃ s', chunkGrabNew s n region real = (s', region) ∧
      s'.align = s.align ∧ ChunkInv Y S region s' live (fl ++ [region]) em ∧
      (s'.hdr region).free = region + s.regionSize n real - chunkStart s.align region := by
  rw [chunkGrabNew_eq]
  by_cases hr : region = 0
  · subst hr
    rw [if_pos rfl]
    refine Or.inl ⟨_, rfl, rfl, I.withTier (fun _ _ => rfl) ?_ rfl⟩
    exact I.calls.alloc (fun h => absurd rfl h)
  have hcalls : TierBalanced (.alloc n region (s.regionSize n real) :: s.tier) :=
    I.calls.alloc (fun _ e he => ((hT hr).2 e he).1)
  have hheld : tierHeld (.alloc n region (s.regionSize n real) :: s.tier) =
      (region, s.regionSize n real) :: tierHeld s.tier := if_neg hr
  have hapart := fun {d} => I.apart_of_answers ha hr hT (d := d)
  rw [if_neg hr]
  by_cases hsmall : s.hasRealSize = true ∧ s.regionSize n real < n
  · rw [if_pos hsmall]
    refine Or.inl ⟨_, rfl, rfl, I.withTier (fun c hc => ?_) ?_ ?_⟩
    · exact Function.update_of_ne (hapart hc).1 _ _
    · exact hcalls.free (by rw [hheld]; exact List.mem_cons_self)
    · rw [tierHeld, hheld, dropBlock, List.filter_cons_of_neg (by simp)]
      exact dropBlock_of_forall (fun e he => ((hT hr).2 e he).1)
  · rw [if_neg hsmall]
    have hsz : n ≤ s.regionSize n real := by
      by_contra hlt
      refine hsmall ⟨?_, not_le.mp hlt⟩
      by_contra hno
      rw [ChunkPool.regionSize, if_neg hno] at hlt
      exact hlt (Nat.le_refl n)
    obtain ⟨hbound, -⟩ := hT hr
    obtain ⟨-, hhead, hlt⟩ := chunkStart_spec (a := s.align) (c := region) ha (by omega)
    have hfree : wsub (wadd region (s.regionSize n real)) (chunkStart s.align region) =
        region + s.regionSize n real - chunkStart s.align region := by
      rw [wadd_of_lt hbound, wsub_of_le hbound (by omega)]
    have hnot : region ∉ chunkSet fl em := fun hmem => (hapart hmem).1 rfl
    have hrest : ∀ d ∈ chunkSet fl em, ∀ v, Function.update s.hdr region v d = s.hdr d :=
      fun d hd v => Function.update_of_ne (hapart hd).1 _ _
    have hnode : ∀ l : List Nat, (∀ x ∈ l, x ∈ chunkSet fl em) → ∀ h : ChunkNode,
        (∀ x, h ≠ .chunk x) → ChunkNode.chunk region ∉ h :: l.map .chunk := by
      intro l hl h hne hmem
      rcases List.mem_cons.mp hmem with heq | hmem
      · exact hne region heq.symm
      · obtain ⟨x, hx, heq⟩ := List.mem_map.mp hmem
        exact hnot (ChunkNode.chunk.inj heq ▸ hl x hx)
    refine Or.inr ⟨hr, hsz, _, rfl, rfl, ?_, ?_⟩
    · refine ⟨I.supplied, ?_, ?_, hcalls, ?_, ?_, ?_, I.keys, ?_, ?_, ?_⟩
      · refine I.lists.addTail (hnode fl (fun x hx => mem_chunkSet.mpr (Or.inl hx)) _ ?_)
          (hnode em (fun x hx => mem_chunkSet.mpr (Or.inr hx)) _ ?_) <;> simp
      · rw [chunkSet_concat]
        refine I.tree.grow ha hnot (Nat.pos_of_ne_zero hr) hbound (by omega)
          (Function.update_self _ _ _) (fun d hd => hrest d hd _) ?_
        intro d hd x hx hin
        have h1 := I.tree.own_bounds hd hx ha
        have h2 := (hapart hd).2
        omega
      · intro e
        rw [hheld, List.mem_cons, chunkSet_concat, Finset.mem_insert, I.held e]
        by_cases he : e.1 = region
        · simp only [he, hnot, false_and, or_false, true_and, Function.update_self]
          exact ⟨fun h => by rw [h], fun h => Prod.ext he h⟩
        · have hne : e ≠ (region, s.regionSize n real) := fun h => he (by rw [h])
          simp only [he, hne, false_or]
          exact and_congr_right (fun h => by rw [hrest _ h])
      · rw [chunkSet_concat]
        intro c hc hp h0
        rcases Finset.mem_insert.mp hc with rfl | hc
        · rfl
        · simp only [hrest c hc] at hp h0
          exact absurd (I.regions c hc hp h0) (I.tree.pos c hc).ne'
      · rw [chunkSet_concat]
        intro c hc hl
        rcases Finset.mem_insert.mp hc with rfl | hc
        · simp only [Function.update_self]
          exact hfree
        · simp only [hrest c hc]
          exact I.room c hc hl
      · intro e he
        obtain ⟨c, hc, h⟩ := I.buffers e he
        refine ⟨c, by rw [chunkSet_concat]; exact Finset.mem_insert_of_mem hc, ?_⟩
        simp only [hrest c hc]
        exact h
      · rw [chunkSet_concat]
        intro hY c hc hp
        rcases Finset.mem_insert.mp hc with rfl | hc
        · exact absurd (by simp only [Function.update_self]) hp
        · simp only [hrest c hc] at hp
          exact I.allLive hY c hc hp
      · intro hS c hc _
        have hmem : c ∈ chunkSet fl em := mem_chunkSet.mpr (Or.inr hc)
        simp only [hrest c hmem]
        exact I.sorted hS c hc (I.tree.pos c hmem).ne'
    · simp only [Function.update_self]
      exact hfree

end ChunkInv

/-- Sorting a chunk moves it to the end of a list, to `empty` only if it has little room. -/
theorem chunkClassify_spec (L : ListPair s.links .chunk .full .empty fl em) (hc : c ∈ fl)
    (hw : chunkHeader + s.align < 2 ^ 32) : ∃ links fl' em',
      chunkClassify s c = { s with links := links } ∧
      ListPair links .chunk .full .empty fl' em' ∧ chunkSet fl' em' = chunkSet fl em ∧
      ∀ d ∈ em', d ∈ em ∨ d = c ∧ (s.hdr c).free ≤ chunkHeader + s.align := by
  have hinj : Function.Injective ChunkNode.chunk := fun x y h => ChunkNode.chunk.inj h
  rw [chunkClassify, wadd_of_lt hw]
  by_cases hfree : (s.hdr c).free ≤ chunkHeader + s.align
  · rw [if_pos hfree]
    refine ⟨_, _, _, rfl, L.moveAcross hinj hc, ?_, fun d hd => ?_⟩
    · rw [chunkSet_swap, chunkSet_across hc, chunkSet_swap]
    · rcases List.mem_append.mp hd with hd | hd
      · exact Or.inl hd
      · exact Or.inr ⟨List.mem_singleton.mp hd, hfree⟩
  · rw [if_neg hfree]
    exact ⟨_, _, _, rfl, L.moveTail hinj hc, chunkSet_rotate hc, fun d hd => Or.inl hd⟩

namespace ChunkInv

/-- **The split**: one more buffer, at the beginning of the free memory of `c`. -/
theorem split (I : ChunkInv Y S r s live fl em) (ha : 0 < s.align) (ha' : s.align ∣ 2 ^ 32)
    (hr : r = 0 ∨ r = c) (hc : c ∈ fl) (hdvd : s.align ∣ n) (hsize : 0 < size)
    (hn : size + (chunkHeader + s.align) ≤ n) (hfit : n ≤ (s.hdr c).free) :
    ∃ s' fl' em' m, chunkSplit s c n = (s', m) ∧ m ≠ 0 ∧ s'.align = s.align ∧ s'.tier = s.tier ∧
      (s'.hdr m).mem ≠ 0 ∧ ChunkInv Y S 0 s' (((s'.hdr m).mem, size) :: live) fl' em' := by
  have hcD : c ∈ chunkSet fl em := mem_chunkSet.mpr (Or.inl hc)
  have hh : chunkHeader = 36 := rfl
  have hdead : ¬ ChunkLive s.align live c := by
    intro h
    have h0 := (I.of_live ha hcD h).2.2
    omega
  have hfree := I.room c hcD hdead
  have hb := I.tree.bound c hcD
  obtain ⟨m, hm⟩ : ∃ m, (s.hdr c).mem = m := ⟨_, rfl⟩
  have hroom : m + n ≤ c + (s.hdr c).size := by omega
  have hcm : c < m := by
    have h1 := (I.tree.start ha hcD).2.1
    have h2 := I.tree.start_le c hcD
    omega
  have hmD : m ∉ chunkSet fl em :=
    I.tree.notMem_of_own ha hcD hcm.ne (Or.inr ⟨hm.le, by omega⟩)
  have hmdvd : s.align ∣ m := hm ▸ I.tree.aligned c hcD
  obtain ⟨-, hhead, hlt⟩ := chunkStart_spec (a := s.align) (c := m) ha (by omega)
  have halign : walign (wadd (s.hdr c).mem n) s.align = m + n := by
    rw [hm, wadd_of_lt (by omega)]
    exact walign_of_dvd_of_lt ha (by omega) (Nat.dvd_add hmdvd hdvd) ha'
  have hself : splitHdr s c n = { s.hdr c with
      mem := m + n
      free := c + (s.hdr c).size - (m + n)
      refcnt := (s.hdr c).refcnt + 1
      child := m } := by
    rw [splitHdr, halign, wadd_of_lt hb, wsub_of_le hb hroom,
      wadd_of_lt (I.tree.refcnt_lt hcD), hm]
  have hnew : childHdr s c n = ⟨chunkStart s.align m, n, 0, 1, c, 0, (s.hdr c).child⟩ := by
    rw [childHdr, hm]
  have hinj : Function.Injective ChunkNode.chunk := fun x y h => ChunkNode.chunk.inj h
  have hnode : ∀ l : List Nat, (∀ x ∈ l, x ∈ chunkSet fl em) → ∀ h : ChunkNode,
      (∀ x, h ≠ .chunk x) → ChunkNode.chunk m ∉ h :: l.map .chunk := by
    intro l hl h hne hmem
    rcases List.mem_cons.mp hmem with heq | hmem
    · exact hne m heq.symm
    · exact hmD (hl m ((List.mem_map_of_injective hinj).mp hmem))
  have L₁ := (I.lists.symm.addTail
    (hnode em (fun x hx => mem_chunkSet.mpr (Or.inr hx)) .empty (by simp))
    (hnode fl (fun x hx => mem_chunkSet.mpr (Or.inl hx)) .full (by simp))).symm
  obtain ⟨s₁, hs₁⟩ : ∃ s₁ : ChunkPool, s₁ = { s with
      hdr := Function.update (Function.update s.hdr m (childHdr s c n)) c (splitHdr s c n)
      links := listAddTail s.links (.chunk m) .empty } := ⟨_, rfl⟩
  have hsplit : chunkSplit s c n = (chunkClassify s₁ c, m) := by
    rw [chunkSplit_eq hfit (by omega), hs₁, hm]
  have hhdrc : s₁.hdr c = splitHdr s c n := by
    rw [hs₁]
    exact Function.update_self _ _ _
  have hhdrm : s₁.hdr m = childHdr s c n := by
    rw [hs₁]
    exact (Function.update_of_ne hcm.ne' _ _).trans (Function.update_self _ _ _)
  have hhdr : ∀ d ∈ chunkSet fl em, d ≠ c → s₁.hdr d = s.hdr d := by
    intro d hd hdc
    rw [hs₁]
    exact (Function.update_of_ne hdc _ _).trans
      (Function.update_of_ne (fun e : d = m => hmD (e ▸ hd)) _ _)
  have halign₁ : s₁.align = s.align := by rw [hs₁]
  have htier₁ : s₁.tier = s.tier := by rw [hs₁]
  have hlinks₁ : s₁.links = listAddTail s.links (.chunk m) .empty := by rw [hs₁]
  obtain ⟨links, fl', em', hcl, L', hset, hem⟩ :=
    chunkClassify_spec (s := s₁) (c := c) (hlinks₁ ▸ L₁) hc (by rw [halign₁]; omega)
  have hD : chunkSet fl' em' = insert m (chunkSet fl em) := by
    rw [hset, chunkSet_swap, chunkSet_concat, chunkSet_swap]
  have hT : ChunkTree s.align s₁.hdr (insert m (chunkSet fl em)) :=
    I.tree.split ha hcD hm hdvd (by omega) hroom (hhdrm.trans hnew) (hhdrc.trans hself) hhdr
  have hlive : ∀ d, ChunkLive s.align live d →
      ChunkLive s.align ((chunkStart s.align m, size) :: live) d := by
    rintro d ⟨e, he, hed⟩
    exact ⟨e, List.mem_cons_of_mem _ he, hed⟩
  have hmem : (s₁.hdr m).mem = chunkStart s.align m := by rw [hhdrm, hnew]
  have hparent : ∀ d ∈ chunkSet fl em, (s₁.hdr d).parent = (s.hdr d).parent ∧
      (s₁.hdr d).size = (s.hdr d).size := by
    intro d hd
    by_cases hdc : d = c
    · rw [hdc, hhdrc, hself]
      exact ⟨rfl, rfl⟩
    · rw [hhdr d hd hdc]
      exact ⟨rfl, rfl⟩
  refine ⟨_, fl', em', m, hsplit, by omega, ?_, ?_, ?_, ?_⟩
  · rw [hcl]
    exact halign₁
  · rw [hcl]
    exact htier₁
  · rw [hcl]
    simp only [hmem]
    omega
  rw [hcl]
  simp only [hmem]
  refine ⟨?_, L', ?_, ?_, ?_, ?_, ?_, ?_, ?_, ?_, ?_⟩
  · rw [hs₁]
    exact I.supplied
  · simp only [hD, halign₁]
    exact hT
  · simp only [htier₁]
    exact I.calls
  · intro e
    simp only [htier₁, hD, Finset.mem_insert]
    rw [I.held e]
    constructor
    · rintro ⟨h1, h2, h3⟩
      rw [(hparent _ h1).1, (hparent _ h1).2]
      exact ⟨Or.inr h1, h2, h3⟩
    · rintro ⟨h1 | h1, h2, h3⟩
      · rw [h1, hhdrm, hnew] at h2
        exact absurd h2 (I.tree.pos c hcD).ne'
      · rw [(hparent _ h1).1] at h2
        rw [(hparent _ h1).2] at h3
        exact ⟨h1, h2, h3⟩
  · simp only [hD, Finset.mem_insert]
    rintro d (rfl | hd) hp h0
    · rw [hhdrm, hnew] at hp
      exact absurd hp (I.tree.pos c hcD).ne'
    · by_cases hdc : d = c
      · rw [hdc, hhdrc, hself] at h0
        exact absurd h0 (by simp only; omega)
      · rw [hhdr d hd hdc] at hp h0
        have hdr' := I.regions d hd hp h0
        exact hdr'.trans (hr.resolve_right (fun e => hdc (hdr'.trans e)))
  · simp only [hD, halign₁, Finset.mem_insert]
    rintro d (rfl | hd) hl
    · exact absurd ⟨_, List.mem_cons_self, rfl⟩ hl
    · by_cases hdc : d = c
      · rw [hdc, hhdrc, hself]
      · rw [hhdr d hd hdc]
        exact I.room d hd (fun h => hl (hlive d h))
  · rw [List.map_cons, List.nodup_cons]
    refine ⟨fun hk => ?_, I.keys⟩
    obtain ⟨e, he, heq⟩ := List.mem_map.mp hk
    obtain ⟨d, hd, -, -, -, hed, -⟩ := I.buffers e he
    have hdm : d = m := hT.start_inj ha (Finset.mem_insert_of_mem hd) (Finset.mem_insert_self _ _)
      (hed.symm.trans heq)
    exact hmD (hdm ▸ hd)
  · simp only [hD, halign₁]
    intro e he
    rcases List.mem_cons.mp he with rfl | he
    · refine ⟨m, Finset.mem_insert_self _ _, ?_⟩
      rw [hhdrm, hnew]
      exact ⟨(I.tree.pos c hcD).ne', rfl, rfl, rfl, by simp only; omega⟩
    · obtain ⟨d, hd, h1, h2, h3, h4, h5⟩ := I.buffers e he
      have hdc : d ≠ c := by
        rintro rfl
        omega
      refine ⟨d, Finset.mem_insert_of_mem hd, ?_⟩
      rw [hhdr d hd hdc]
      exact ⟨h1, h2, h3, h4, h5⟩
  · simp only [hD, halign₁, Finset.mem_insert]
    rintro hY d (rfl | hd) hp
    · exact ⟨_, List.mem_cons_self, rfl⟩
    · rw [(hparent d hd).1] at hp
      exact hlive d (I.allLive hY d hd hp)
  · simp only [halign₁]
    intro hS d hd _
    rcases hem d hd with hd | ⟨rfl, hle⟩
    · rcases List.mem_append.mp hd with hd | hd
      · have hdc : d ≠ c := by
          rintro rfl
          exact (List.nodup_append.mp I.lists.nodup).2.2 d hc d hd rfl
        have hdD : d ∈ chunkSet fl em := mem_chunkSet.mpr (Or.inr hd)
        have hdr : d ≠ r := by
          rintro rfl
          exact hr.elim (I.tree.pos d hdD).ne' hdc
        rw [hhdr d hdD hdc]
        exact I.sorted hS d hd hdr
      · rw [List.mem_singleton.mp hd, hhdrm, hnew]
        exact Nat.zero_le _
    · rw [halign₁] at hle
      exact hle

/-! ## 4. The call -/

/-- **`chunk_alloc`** returns, with one more buffer or with none. -/
theorem alloc (I : ChunkInv Y S 0 s live fl em) (ha : 0 < s.align) (ha' : s.align ∣ 2 ^ 32)
    (hT : TierAnswers s region (s.regionSize (chunkAllocSz s size) real))
    (hF : AllocFits s size region (s.regionSize (chunkAllocSz s size) real)) :
    ∃ s' p fl' em', chunkAlloc s size region real = some (s', p) ∧ s'.align = s.align ∧
      ChunkInv Y S 0 s' (addBlock live p size) fl' em' := by
  have hkeep : ∃ s' p fl' em', some (s, 0) = some (s', p) ∧ s'.align = s.align ∧
      ChunkInv Y S 0 s' (addBlock live p size) fl' em' := ⟨s, 0, fl, em, rfl, rfl, I⟩
  rw [chunkAlloc]
  rw [if_neg (by simp [I.supplied])]
  by_cases h0 : size = 0
  · rw [if_pos h0]
    exact hkeep
  rw [if_neg h0]
  obtain ⟨hdvd, hle⟩ := chunkAllocSz_spec ha hF.1
  have hfrom : ∀ {t : ChunkPool} {r c : Nat} {fl : List Nat}, t.align = s.align →
      ChunkInv Y S r t live fl em → r = 0 ∨ r = c → c ∈ fl →
      chunkAllocSz s size ≤ (t.hdr c).free →
      ∃ s' p fl' em', chunkAllocFrom t c (chunkAllocSz s size) = some (s', p) ∧
        s'.align = s.align ∧ ChunkInv Y S 0 s' (addBlock live p size) fl' em' := by
    intro t r c fl hta I hr hc hfit
    obtain ⟨s', fl', em', m, hsplit, hm, hal, -, hp, I'⟩ :=
      I.split (hta ▸ ha) (hta ▸ ha') hr hc (hta ▸ hdvd) (Nat.pos_of_ne_zero h0) (hta ▸ hle) hfit
    refine ⟨s', (s'.hdr m).mem, fl', em', ?_, hal.trans hta, ?_⟩
    · rw [chunkAllocFrom, hsplit]
      exact if_neg hm
    · rw [addBlock, if_neg hp]
      exact I'
  rcases I.search (chunkAllocSz s size) with ⟨hfind, -⟩ | ⟨c, hc, hc0, hfit, hfind⟩
  · simp only [hfind]
    rcases I.grab ha (by omega) hT with
      ⟨s', hgrab, hal, I'⟩ | ⟨hr, hsz, s', hgrab, hal, I', hfree⟩
    · rw [hgrab]
      exact ⟨s', 0, fl, em, if_pos rfl, hal, I'⟩
    · rw [hgrab]
      simp only [if_neg hr]
      have hroom := hF.2 hr hsz
      exact hfrom hal I' (Or.inr rfl) (by simp) (by omega)
  · simp only [hfind]
    obtain ⟨k, rfl⟩ : ∃ k, c = k + 1 := ⟨c - 1, by omega⟩
    exact hfrom rfl I (Or.inl rfl) hc hfit

end ChunkInv

end Alloc

end FlightOs
