/-
# Releasing pages

What the three loops of the release do to a well-formed tree, each for a range `[c, e)` of page
numbers.

* `Good.releaseLvl3Loop`, `Good.releaseLvl2Loop`: the loops within one table.  The table is kept,
  or it is empty at the end and its buffer has gone back (`Left`).
* `Good.releaseLvl1Loop`: the whole walk.  It ends unless it gets into the topmost region, where
  the next address wraps to zero; and it releases exactly the pages that it meets (`Visited`).

The walk advances by the span of an entry.  Where an entry leads to a table the code realigns the
address, where the entry is invalid, or a large page, it does not; so pages at lower offsets of
the following spans are passed over.  `Hit` of `Lib/Walk.lean` is what is met.
-/
import FlightOs.Lib.Walk
import FlightOs.Srmmu.Map

namespace FlightOs

/-! ## 1. Tables after a release -/

namespace PgTree

/-- A section has a table. -/
def hasLeaf (A : PgTree) (q : Nat) : Bool := (A.tbl (.lvl3 q)).isSome

/-- A region has a table. -/
def hasMid (A : PgTree) (r : Nat) : Bool := (A.tbl (.lvl2 r)).isSome

/-- What releasing a small page gives back. -/
def smallLog (A : PgTree) (p : Nat) : List Nat :=
  if A.page p = 0 then [] else [srmmuPteToAddr (A.page p)]

theorem smallLog_of_zero {A : PgTree} {p : Nat} (h : A.page p = 0) : A.smallLog p = [] := if_pos h

theorem smallLog_of_ne {A : PgTree} {p : Nat} (h : A.page p ≠ 0) :
    A.smallLog p = [srmmuPteToAddr (A.page p)] := if_neg h

theorem smallLog_congr {A A' : PgTree} {p : Nat} (h : A.page p = A'.page p) :
    A.smallLog p = A'.smallLog p := by
  rw [smallLog, smallLog, h]

theorem hasLeaf_iff {A : PgTree} {q : Nat} : A.hasLeaf q = true ↔ A.tbl (.lvl3 q) ≠ none :=
  Option.isSome_iff_ne_none

theorem hasMid_iff {A : PgTree} {r : Nat} : A.hasMid r = true ↔ A.tbl (.lvl2 r) ≠ none :=
  Option.isSome_iff_ne_none

theorem page_of_not_hasLeaf {A : PgTree} {p : Nat} (h : ¬ A.hasLeaf (p / 64) = true) :
    A.page p = 0 := page_of_none (not_not.mp (mt hasLeaf_iff.mpr h))

end PgTree

/-- A tree whose table `k` is empty and has been given back, while the entry that leads to it is
still there. -/
structure Loose (ex : Prop) (s : Srmmu) (lvl1 : Nat) (A : PgTree) (k : TblKey) : Prop where
  rep : Rep s lvl1 (A.setTbl k none)
  shape : Shape ex A
  owned : ex → Owned s (A.setTbl k none)
  counted : ∀ q U, .lvl3 q ≠ k → A.tbl (.lvl3 q) = some U → 0 < A.cnt (.lvl3 q)
  empty : usedOf (A.ent k) = 0
  was : A.tbl k ≠ none

theorem Loose.page_eq_zero {ex : Prop} {s : Srmmu} {lvl1 q p : Nat} {A : PgTree}
    (h : Loose ex s lvl1 A (.lvl3 q)) (hp : p / 64 = q) : A.page p = 0 := by
  obtain ⟨U, hU⟩ := Option.ne_none_iff_exists'.mp h.was
  rw [PgTree.page_of_some (hp.symm ▸ hU), hp]
  exact usedOf_eq_zero_iff.mp h.empty _ (Nat.mod_lt _ (by norm_num))

/-- What a loop over the table `k` leaves behind, by its result. -/
inductive Left (ex : Prop) (s : Srmmu) (lvl1 : Nat) (A : PgTree) (k : TblKey) : Bool → Prop
  | kept : Good ex s lvl1 A → Left ex s lvl1 A k true
  | dropped : Loose ex s lvl1 A k → Left ex s lvl1 A k false

theorem Left.shape {ex : Prop} {s : Srmmu} {lvl1 : Nat} {A : PgTree} {k : TblKey} {b : Bool}
    (h : Left ex s lvl1 A k b) : Shape ex A := by
  cases h with
  | kept h => exact h.shape
  | dropped h => exact h.shape

/-- The pages of `hit` are gone and `log` has been given back; everything else is as before. -/
structure Swept (s s' : Srmmu) (A A' : PgTree) (hit : Nat → Prop) (log : List Nat) : Prop where
  top : A'.top = A.top
  mids : ∀ r, A'.tbl (.lvl2 r) = A.tbl (.lvl2 r)
  gone : ∀ p, hit p → A'.page p = 0
  page : ∀ p, ¬ hit p → A'.page p = A.page p
  pages : s'.pages = s.pages ++ log

namespace Swept

variable {s s₁ s' : Srmmu} {A A₁ A' : PgTree} {hit hit₁ hit₂ : Nat → Prop} {log log₁ log₂ : List Nat}

theorem refl (h : ∀ p, hit p → A.page p = 0) : Swept s s A A hit [] :=
  ⟨rfl, fun _ => rfl, h, fun _ _ => rfl, (List.append_nil _).symm⟩

theorem trans (h₁ : Swept s s₁ A A₁ hit₁ log₁) (h₂ : Swept s₁ s' A₁ A' hit₂ log₂)
    (hhit : ∀ p, hit p → hit₁ p ∨ hit₂ p ∨ A.page p = 0)
    (hsub : ∀ p, hit₁ p ∨ hit₂ p → hit p ∨ A.page p = 0) (hlog : log = log₁ ++ log₂) :
    Swept s s' A A' hit log := by
  -- a page that the second part does not touch keeps what the first part left
  have hkeep : ∀ p, A₁.page p = 0 → A'.page p = 0 := by
    intro p hp
    by_cases h2 : hit₂ p
    · exact h₂.gone p h2
    · rw [h₂.page p h2, hp]
  have hzero : ∀ p, A.page p = 0 → A'.page p = 0 := by
    intro p hp
    refine hkeep p ?_
    by_cases h1 : hit₁ p
    · exact h₁.gone p h1
    · rw [h₁.page p h1, hp]
  refine ⟨h₂.top.trans h₁.top, fun r => (h₂.mids r).trans (h₁.mids r), fun p hp => ?_,
    fun p hp => ?_, by rw [h₂.pages, h₁.pages, List.append_assoc, hlog]⟩
  · rcases hhit p hp with h1 | h2 | h0
    · exact hkeep p (h₁.gone p h1)
    · exact h₂.gone p h2
    · exact hzero p h0
  · by_cases h0 : A.page p = 0
    · rw [h0]
      exact hzero p h0
    · have hno : ¬ (hit₁ p ∨ hit₂ p) := fun e => (hsub p e).elim hp h0
      rw [h₂.page p (fun e => hno (Or.inr e)), h₁.page p (fun e => hno (Or.inl e))]

/-- Pages that are not mapped may be counted in or out. -/
theorem widen (h : Swept s s' A A' hit₁ log₁) (hhit : ∀ p, (hit p ↔ hit₁ p) ∨ A.page p = 0)
    (hlog : log = log₁) : Swept s s' A A' hit log := by
  have hzero : ∀ p, A.page p = 0 → A'.page p = 0 := by
    intro p hp
    by_cases h1 : hit₁ p
    · exact h.gone p h1
    · rw [h.page p h1, hp]
  refine ⟨h.top, h.mids, fun p hp => ?_, fun p hp => ?_, hlog ▸ h.pages⟩
  · rcases hhit p with hiff | h0
    · exact h.gone p (hiff.mp hp)
    · exact hzero p h0
  · rcases hhit p with hiff | h0
    · exact h.page p (fun e => hp (hiff.mpr e))
    · rw [h0, hzero p h0]

end Swept

/-- A page that is mapped has an entry. -/
theorem Shape.isPtEntry_page {ex : Prop} {A : PgTree} (h : Shape ex A) {p : Nat}
    (hp : A.page p ≠ 0) : isPtEntry (A.page p) = true := by
  cases hU : A.tbl (.lvl3 (p / 64)) with
  | none => exact absurd (PgTree.page_of_none hU) hp
  | some U =>
    rw [PgTree.page_of_some hU] at hp ⊢
    exact (h.leaf _ U hU _ (Nat.mod_lt _ (by norm_num))).resolve_left hp

theorem Owned.unlink {s : Srmmu} {lvl1 B T : Nat} {A : PgTree} {k : TblKey} (h : Owned s A)
    (hrep : Rep s lvl1 A) (hk : A.tbl k = some T) (hB : (B, 512) ∈ s.heap) (h1 : B + 8 ≤ T)
    (h2 : T < B + 256) : Owned (s.free B) (A.setTbl k none) := by
  intro b hb
  obtain ⟨hb, hne⟩ := List.mem_filter.mp hb
  obtain ⟨k', T', hk', h3, h4⟩ := h b hb
  refine ⟨k', T', ?_, h3, h4⟩
  have hkk : k' ≠ k := by
    rintro rfl
    -- one table lies in one buffer
    obtain rfl : T' = T := Option.some.inj (hk'.symm.trans hk)
    have hap := hrep.heap.apart b hb (B, 512) hB
      (fun e => by simp only [e] at hne; simp at hne)
    have hsize := (hrep.heap.bound b hb).2.2
    simp only at hap
    omega
  simp only [PgTree.setTbl]
  rw [Function.update_of_ne hkk, hk']

/-! ## 2. Level 3 -/

section Leaf

variable {ex : Prop} {s : Srmmu} {lvl1 q c e U : Nat} {A : PgTree}

/-- One page: it is cleared and uncounted, and the table goes with the last of them. -/
theorem Good.clearPage (h : Good ex s lvl1 A) {p : Nat} (hU : A.tbl (.lvl3 (p / 64)) = some U)
    (hp : A.page p ≠ 0) :
    ∃ s₁ cnt, mmuDecRefCnt ((s.freePage (srmmuPteToAddr (A.page p))).write
        (entryAddr U (p % 64)) 0) U 256 = .ok (s₁, cnt) ∧
      s₁.pages = s.pages ++ A.smallLog p ∧
      ((cnt ≠ 0 ∧ Good ex s₁ lvl1 (A.clearPage p)) ∨
        (cnt = 0 ∧ ∃ s₂, mmuFreeTbl s₁ U 256 = .ok s₂ ∧ s₂.pages = s₁.pages ∧
          Loose ex s₂ lvl1 (A.clearPage p) (.lvl3 (p / 64)))) := by
  have hne : A.ent (.lvl3 (p / 64)) (p % 64) ≠ 0 := PgTree.page_of_some hU ▸ hp
  have hshape := h.shape.clearPage hne
  have hpos := h.counted _ U hU
  have hrep : Rep (s.freePage (srmmuPteToAddr (A.page p))) lvl1 A := h.rep.congr rfl rfl
  have hset := hrep.setEnt (i := p % 64) 0 hU (Nat.mod_lt _ (by norm_num))
  obtain ⟨s₁, hdec, hrep, hheap, hpages⟩ :=
    hset.decRefCnt (k := .lvl3 (p / 64)) (n := 256) hU hpos
  have hrep₁ : Rep s₁ lvl1 (A.clearPage p) := hrep
  have htbl : ∀ k, (A.clearPage p).tbl k = A.tbl k := fun _ => rfl
  have hother : ∀ q U', q ≠ p / 64 → A.tbl (.lvl3 q) = some U' →
      0 < (A.clearPage p).cnt (.lvl3 q) := by
    intro q U' hq hU'
    rw [(A.clearPage_leaf q).2.1, if_neg hq]
    exact h.counted q U' hU'
  have hcnt : (A.clearPage p).cnt (.lvl3 (p / 64)) = A.cnt (.lvl3 (p / 64)) - 1 := by
    rw [(A.clearPage_leaf _).2.1, if_pos rfl]
  have hown : ex → Owned s₁ (A.clearPage p) := fun hx => (h.owned hx).congr hheap (fun _ _ hk => hk)
  refine ⟨s₁, _, hdec, ?_, ?_⟩
  · rw [hpages, PgTree.smallLog_of_ne hp]
    rfl
  · by_cases h0 : A.cnt (.lvl3 (p / 64)) - 1 = 0
    · right
      obtain ⟨B, hfree, hrep₂, hB, h1, h2⟩ := hrep₁.freeTbl (k := .lvl3 (p / 64)) (n := 256) hU
      refine ⟨h0, s₁.free B, hfree, rfl, hrep₂, hshape, fun hx => (hown hx).unlink hrep₁ hU hB h1 h2,
        fun q U' hq => hother q U' (fun e => hq (e ▸ rfl)), ?_, ?_⟩
      · obtain ⟨-, hle, -⟩ := hshape.cnt3 (p / 64) U hU
        rw [hcnt, h0] at hle
        exact Nat.le_zero.mp hle
      · rw [htbl, hU]
        exact Option.some_ne_none U
    · left
      refine ⟨h0, hrep₁, hshape, fun q U' hU' => ?_, hown⟩
      by_cases hq : q = p / 64
      · rw [hq, hcnt]
        exact Nat.pos_of_ne_zero h0
      · exact hother q U' hq hU'

theorem PgTree.page_clearPage {p : Nat} (p' : Nat) :
    (A.clearPage p).page p' = if p' = p then 0 else A.page p' := by
  obtain ⟨htbl, -, hent⟩ := A.clearPage_leaf (p := p) (p' / 64)
  by_cases h : p' = p
  · subst h
    rw [if_pos rfl]
    cases hU : A.tbl (.lvl3 (p' / 64)) with
    | none => exact page_of_none (htbl.trans hU)
    | some U => rw [page_of_some (htbl.trans hU), hent, if_pos ⟨rfl, rfl⟩]
  · rw [if_neg h]
    refine page_congr htbl ((hent _).trans (if_neg ?_))
    rintro ⟨h1, h2⟩
    omega

section Round

variable {s s₁ s₂ : Srmmu} {U vaEnd va cnt : Nat}

theorem releaseLvl3Round_end (h : vaEnd ≤ va) :
    releaseLvl3Round U vaEnd (s, va) = .ok (.done (s, true)) := by
  unfold releaseLvl3Round
  exact if_pos h

theorem releaseLvl3Round_skip (h : va < vaEnd) (h0 : s.entry U (srmmuLvl3GetTblOffset va) = 0) :
    releaseLvl3Round U vaEnd (s, va) = .ok (.next (s, wadd va srmmuSmallPageSize)) := by
  unfold releaseLvl3Round
  exact (if_neg (not_le.mpr h)).trans (if_pos h0)

theorem releaseLvl3Round_clear {pte : Nat} (h : va < vaEnd)
    (hpte : s.entry U (srmmuLvl3GetTblOffset va) = pte) (hpt : isPtEntry pte = true)
    (hdec : mmuDecRefCnt ((s.freePage (srmmuPteToAddr pte)).write
      (entryAddr U (srmmuLvl3GetTblOffset va)) 0) U srmmuTblLvl3Align = .ok (s₁, cnt))
    (hcnt : cnt ≠ 0) :
    releaseLvl3Round U vaEnd (s, va) = .ok (.next (s₁, wadd va srmmuSmallPageSize)) := by
  unfold releaseLvl3Round
  simp only [if_neg (not_le.mpr h), hpte, if_neg (ne_zero_of_isPtEntry hpt), if_pos hpt, hdec,
    if_neg hcnt]

theorem releaseLvl3Round_last {pte : Nat} (h : va < vaEnd)
    (hpte : s.entry U (srmmuLvl3GetTblOffset va) = pte) (hpt : isPtEntry pte = true)
    (hdec : mmuDecRefCnt ((s.freePage (srmmuPteToAddr pte)).write
      (entryAddr U (srmmuLvl3GetTblOffset va)) 0) U srmmuTblLvl3Align = .ok (s₁, 0))
    (hfree : mmuFreeTbl s₁ U srmmuTblLvl3Align = .ok s₂) :
    releaseLvl3Round U vaEnd (s, va) = .ok (.done (s₂, false)) := by
  unfold releaseLvl3Round
  simp only [if_neg (not_le.mpr h), hpte, if_neg (ne_zero_of_isPtEntry hpt), if_pos hpt, hdec,
    if_true, hfree]

end Round

/-- **The loop of `srmmu_release_lvl3_pages`.** -/
theorem Good.releaseLvl3Loop (hq : q < 2 ^ 14 - 64) (he : e ≤ 64 * (q + 1)) :
    ∀ {n c : Nat} {s : Srmmu} {A : PgTree}, Good ex s lvl1 A → A.tbl (.lvl3 q) = some U →
      64 * q ≤ c → e - c < n →
      ∃ s' b A', loop .fuel (releaseLvl3Round U (4096 * e)) n (s, 4096 * c) = .ok (s', b) ∧
        Left ex s' lvl1 A' (.lvl3 q) b ∧
        Swept s s' A A' (fun p => c ≤ p ∧ p < e) (gather c e A.smallLog) ∧ A'.tbl = A.tbl ∧
        ∀ r, A'.ent (.lvl2 r) = A.ent (.lvl2 r)
  | 0, c, s, A, h, hU, hc, hn => absurd hn (Nat.not_lt_zero _)
  | n + 1, c, s, A, h, hU, hc, hn => by
    by_cases hce : e ≤ c
    · rw [loop_done (releaseLvl3Round_end (Nat.mul_le_mul_left 4096 hce)), gather_of_le hce]
      exact ⟨s, true, A, rfl, .kept h, Swept.refl (fun p hp => by omega), rfl, fun _ => rfl⟩
    have hlt : 4096 * c < 4096 * e := by omega
    have hcq : c / 64 = q := by omega
    have hnext : wadd (4096 * c) srmmuSmallPageSize = 4096 * (c + 1) := by
      rw [srmmuSmallPageSize, wadd_of_lt (by omega)]
      ring
    have hoff : srmmuLvl3GetTblOffset (4096 * c) = c % 64 := by
      rw [srmmuLvl3GetTblOffset]
      omega
    have hentry : s.entry U (srmmuLvl3GetTblOffset (4096 * c)) = A.page c := by
      rw [hoff, PgTree.page_of_some (hcq.symm ▸ hU), hcq]
      exact h.rep.entry_eq hU (Nat.mod_lt _ (by norm_num))
    have hsplit : gather c e A.smallLog = A.smallLog c ++ gather (c + 1) e A.smallLog :=
      gather_succ (not_le.mp hce)
    by_cases hp : A.page c = 0
    · obtain ⟨s', b, A', hloop, hleft, hsw, htbl, hent⟩ :=
        h.releaseLvl3Loop hq he (n := n) (c := c + 1) hU (by omega) (by omega)
      rw [loop_next (releaseLvl3Round_skip hlt (hentry.trans hp)), hnext]
      refine ⟨s', b, A', hloop, hleft, hsw.widen (fun p => ?_) ?_, htbl, hent⟩
      · by_cases hpc : p = c
        · exact Or.inr (hpc ▸ hp)
        · left
          omega
      · rw [hsplit, PgTree.smallLog_of_zero hp, List.nil_append]
    · obtain ⟨s₁, cnt, hdec, hpages, hcase⟩ := h.clearPage (hcq.symm ▸ hU) hp
      rw [← hoff] at hdec
      have hpt := h.shape.isPtEntry_page hp
      have hclear : Swept s s₁ A (A.clearPage c) (fun p => p = c) (A.smallLog c) :=
        ⟨rfl, fun _ => rfl, fun p hpc => (PgTree.page_clearPage p).trans (if_pos hpc),
          fun p hpc => (PgTree.page_clearPage p).trans (if_neg hpc), hpages⟩
      rcases hcase with ⟨hcnt, hgood⟩ | ⟨rfl, s₂, hfree, hp₂, hloose⟩
      · obtain ⟨s', b, A', hloop, hleft, hsw, htbl, hent⟩ :=
          hgood.releaseLvl3Loop hq he (n := n) (c := c + 1) hU (by omega) (by omega)
        rw [loop_next (releaseLvl3Round_clear hlt hentry hpt hdec hcnt), hnext]
        refine ⟨s', b, A', hloop, hleft, hclear.trans hsw (fun p hp => ?_) (fun p hp => ?_) ?_,
          htbl, fun r => (hent r).trans (A.clearPage_mid r).2.2.2⟩
        · omega
        · omega
        · rw [hsplit]
          congr 1
          refine gather_congr (fun p h1 _ => ?_)
          exact PgTree.smallLog_congr ((PgTree.page_clearPage p).trans (if_neg (by omega))).symm
      · rw [loop_done (releaseLvl3Round_last hlt hentry hpt hdec hfree)]
        -- the rest of the table is empty, so that nothing is left out by ending here
        have hrest : ∀ p, p ≠ c → p / 64 = q → A.page p = 0 := by
          intro p hpc hpq
          have hz := hloose.page_eq_zero (hpq.trans hcq.symm)
          rwa [PgTree.page_clearPage, if_neg hpc] at hz
        refine ⟨s₂, false, A.clearPage c, rfl, .dropped (hcq ▸ hloose),
          Swept.widen ⟨rfl, fun _ => rfl, hclear.gone, hclear.page, hp₂.trans hclear.pages⟩
            (fun p => ?_) ?_, rfl, fun r => (A.clearPage_mid r).2.2.2⟩
        · by_cases hpc : p = c
          · left
            omega
          · by_cases hpr : c ≤ p ∧ p < e
            · exact Or.inr (hrest p hpc (by omega))
            · left
              omega
        · rw [hsplit, gather_eq_nil, List.append_nil]
          exact fun p h1 h2 => PgTree.smallLog_of_zero (hrest p (by omega) (by omega))

/-- **`srmmu_release_lvl3_pages`**, for a section that has a table. -/
theorem Good.releaseLvl3Pages (h : Good ex s lvl1 A) (hq : c / 64 < 2 ^ 14 - 64)
    (hleaf : A.hasLeaf (c / 64) = true) :
    ∃ s' b A', srmmuReleaseLvl3Pages s lvl1 (4096 * c) (4096 * e) = .ok (s', b) ∧
      Left ex s' lvl1 A' (.lvl3 (c / 64)) b ∧
      Swept s s' A A' (fun p => c ≤ p ∧ p < e ∧ p / 64 = c / 64)
        (gather c (min e (64 * (c / 64 + 1))) A.smallLog) ∧
      A'.tbl = A.tbl ∧ ∀ r, A'.ent (.lvl2 r) = A.ent (.lvl2 r) := by
  obtain ⟨U, hU⟩ := Option.ne_none_iff_exists'.mp (PgTree.hasLeaf_iff.mp hleaf)
  have hdiv : 4096 * c / 2 ^ 18 = c / 64 := by omega
  have hfind : mmuFindTblLvl3 s lvl1 (4096 * c) = U :=
    h.rep.findLeaf h.shape (by omega) (hdiv.symm ▸ hU)
  have hU0 : U ≠ 0 := by
    have := h.rep.bounds hU
    omega
  have hlim : walign (wadd (4096 * c) 1) srmmuMediumPageSize = 4096 * (64 * (c / 64 + 1)) := by
    rw [srmmuMediumPageSize, walign, wadd_of_lt (a := 4096 * c) (by omega), wadd_of_lt (by omega)]
    omega
  have hend : (if 4096 * (64 * (c / 64 + 1)) < 4096 * e then 4096 * (64 * (c / 64 + 1))
      else 4096 * e) = 4096 * min e (64 * (c / 64 + 1)) := by
    split <;> omega
  obtain ⟨s', b, A', hloop, hleft, hsw, htbl, hent⟩ :=
    h.releaseLvl3Loop hq (e := min e (64 * (c / 64 + 1))) (n := 65) (c := c) (by omega) hU
      (by omega) (by omega)
  refine ⟨s', b, A', ?_, hleft, hsw.widen (fun p => Or.inl ?_) rfl, htbl, hent⟩
  · unfold srmmuReleaseLvl3Pages
    simp only [hfind, if_neg hU0, hlim, hend, srmmuSizeTblLvl3]
    exact hloop
  · omega

end Leaf

/-! ## 3. Level 2 -/

/-- The realigned address. -/
theorem realign_eq {va : Nat} (hva : va < 2 ^ 32) :
    realign va srmmuMediumPageSize = va / 2 ^ 18 * 2 ^ 18 ∧
      realign va srmmuLargePageSize = va / 2 ^ 24 * 2 ^ 24 := by
  constructor
  · rw [realign, srmmuMediumPageSize]
    unfold walign wadd wsub
    omega
  · rw [realign, srmmuLargePageSize]
    unfold walign wadd wsub
    omega

section Mid

variable {ex : Prop} {s : Srmmu} {lvl1 r c e T : Nat} {A : PgTree}

theorem PgTree.page_dropLeaf {q : Nat} (hz : ∀ p, p / 64 = q → A.page p = 0) (p : Nat) :
    (A.dropLeaf q).page p = A.page p := by
  obtain ⟨htbl, -, hent⟩ := A.dropLeaf_leaf (q := q) (p / 64)
  by_cases h : p / 64 = q
  · rw [hz p h]
    exact page_of_none (htbl.trans (if_pos h))
  · exact page_congr (htbl.trans (if_neg h)) (by rw [hent])

/-- The entry of a section is in use while the section has a table. -/
theorem Good.midEntry (h : Good ex s lvl1 A) (hcr : c / 4096 = r) (hT : A.tbl (.lvl2 r) = some T) :
    s.entry T (srmmuLvl2GetTblOffset (4096 * c)) = A.ent (.lvl2 r) (c / 64 % 64) ∧
      (A.ent (.lvl2 r) (c / 64 % 64) ≠ 0 ↔ A.hasLeaf (c / 64) = true) := by
  have hoff : srmmuLvl2GetTblOffset (4096 * c) = c / 64 % 64 := by
    rw [srmmuLvl2GetTblOffset]
    omega
  have hr : c / 64 / 64 = r := by omega
  rw [hoff, h.rep.entry_eq hT (Nat.mod_lt _ (by norm_num)), PgTree.hasLeaf_iff]
  refine ⟨rfl, ?_, ?_⟩
  · intro hne hnone
    refine hne ?_
    rw [← hr]
    exact h.shape.midNone _ (by rw [hr, hT]; exact Option.some_ne_none T) hnone
  · intro hleaf
    obtain ⟨U, hU⟩ := Option.ne_none_iff_exists'.mp hleaf
    rw [← hr, (h.shape.midTbl _ U hU).2]
    exact (srmmuPtd_spec (h.rep.tbl _ U hU).aligned (h.rep.lt hU)).2.1

/-- The table of an emptied section is unlinked, and the table of level 2 goes with the last of
them. -/
theorem Loose.dropLeaf {q : Nat} (h : Loose ex s lvl1 A (.lvl3 q))
    (hne : A.ent (.lvl2 (q / 64)) (q % 64) ≠ 0) (hT : A.tbl (.lvl2 (q / 64)) = some T) :
    ∃ s₁ cnt, mmuDecRefCnt (s.write (entryAddr T (q % 64)) 0) T 256 = .ok (s₁, cnt) ∧
      s₁.pages = s.pages ∧
      ((cnt ≠ 0 ∧ Good ex s₁ lvl1 (A.dropLeaf q) ∧
          0 < usedOf ((A.dropLeaf q).ent (.lvl2 (q / 64)))) ∨
        (cnt = 0 ∧ ∃ s₂, mmuFreeTbl s₁ T 256 = .ok s₂ ∧ s₂.pages = s₁.pages ∧
          Loose ex s₂ lvl1 (A.dropLeaf q) (.lvl2 (q / 64)))) := by
  have hpos : 0 < A.cnt (.lvl2 (q / 64)) := by
    rw [h.shape.cnt2 _ T hT, usedOf_pos_iff]
    exact ⟨q % 64, Nat.mod_lt _ (by norm_num), hne⟩
  have htbl : ∀ k, (A.dropLeaf q).tbl k = (A.setTbl (.lvl3 q) none).tbl k := fun _ => rfl
  have hT' : (A.setTbl (.lvl3 q) none).tbl (.lvl2 (q / 64)) = some T := by
    rw [← htbl, (A.dropLeaf_mid _).1, hT]
  have hset := h.rep.setEnt (i := q % 64) 0 hT' (Nat.mod_lt _ (by norm_num))
  obtain ⟨s₁, hdec, hrep, hheap, hpages⟩ :=
    hset.decRefCnt (k := .lvl2 (q / 64)) (n := 256) hT' hpos
  have hrep₁ : Rep s₁ lvl1 (A.dropLeaf q) := hrep
  have hshape := h.shape.dropLeaf hne
  have hcounted : (A.dropLeaf q).Counted := by
    intro q' U' hU'
    obtain ⟨htbl', hcnt', -⟩ := A.dropLeaf_leaf (q := q) q'
    rw [htbl'] at hU'
    split at hU'
    next => cases hU'
    next hq =>
      rw [hcnt']
      exact h.counted q' U' (fun e => hq (TblKey.lvl3.inj e)) hU'
  have hown : ex → Owned s₁ (A.dropLeaf q) := fun hx =>
    (h.owned hx).congr hheap (fun _ _ hk => hk)
  have hcnt : usedOf ((A.dropLeaf q).ent (.lvl2 (q / 64))) = A.cnt (.lvl2 (q / 64)) - 1 := by
    rw [← hshape.cnt2 _ T hT', (A.dropLeaf_mid _).2.1, if_pos rfl]
  refine ⟨s₁, _, hdec, hpages, ?_⟩
  by_cases h0 : A.cnt (.lvl2 (q / 64)) - 1 = 0
  · right
    obtain ⟨B, hfree, hrep₂, hB, h1, h2⟩ := hrep₁.freeTbl (k := .lvl2 (q / 64)) (n := 256) hT'
    refine ⟨h0, s₁.free B, hfree, rfl, hrep₂, hshape,
      fun hx => (hown hx).unlink hrep₁ hT' hB h1 h2, fun q' U' _ => hcounted q' U',
      hcnt.trans h0, ?_⟩
    rw [htbl, hT']
    exact Option.some_ne_none T
  · exact Or.inl ⟨h0, ⟨hrep₁, hshape, hcounted, hown⟩, hcnt.symm ▸ Nat.pos_of_ne_zero h0⟩

section Round

variable {s₁ s₂ s₃ : Srmmu} {vaEnd va cnt : Nat}

theorem releaseLvl2Round_end (h : vaEnd ≤ va) :
    releaseLvl2Round lvl1 T vaEnd (s, va) = .ok (.done (s, true)) := by
  unfold releaseLvl2Round
  exact if_pos h

theorem releaseLvl2Round_skip (h : va < vaEnd) (h0 : s.entry T (srmmuLvl2GetTblOffset va) = 0) :
    releaseLvl2Round lvl1 T vaEnd (s, va) =
      .ok (.next (s, wadd va srmmuMediumPageSize)) := by
  unfold releaseLvl2Round
  exact (if_neg (not_le.mpr h)).trans (if_pos h0)

theorem releaseLvl2Round_kept (h : va < vaEnd) (h0 : s.entry T (srmmuLvl2GetTblOffset va) ≠ 0)
    (hrel : srmmuReleaseLvl3Pages s lvl1 va vaEnd = .ok (s₁, true)) :
    releaseLvl2Round lvl1 T vaEnd (s, va) =
      .ok (.next (s₁, wadd (realign va srmmuMediumPageSize) srmmuMediumPageSize)) := by
  unfold releaseLvl2Round
  simp only [if_neg (not_le.mpr h), if_neg h0, hrel]

theorem releaseLvl2Unlink_next {page next : Nat}
    (hdec : mmuDecRefCnt (s₁.write (entryAddr T page) 0) T srmmuTblLvl2Align = .ok (s₂, cnt))
    (hcnt : cnt ≠ 0) : releaseLvl2Unlink s₁ T page next = .ok (.next (s₂, next)) := by
  unfold releaseLvl2Unlink
  simp only [hdec, if_neg hcnt]

theorem releaseLvl2Unlink_last {page next : Nat}
    (hdec : mmuDecRefCnt (s₁.write (entryAddr T page) 0) T srmmuTblLvl2Align = .ok (s₂, 0))
    (hfree : mmuFreeTbl s₂ T srmmuTblLvl2Align = .ok s₃) :
    releaseLvl2Unlink s₁ T page next = .ok (.done (s₃, false)) := by
  unfold releaseLvl2Unlink
  simp only [hdec, if_true, hfree]

theorem releaseLvl2Round_unlink (h : va < vaEnd) (h0 : s.entry T (srmmuLvl2GetTblOffset va) ≠ 0)
    (hrel : srmmuReleaseLvl3Pages s lvl1 va vaEnd = .ok (s₁, false)) :
    releaseLvl2Round lvl1 T vaEnd (s, va) =
      releaseLvl2Unlink s₁ T (srmmuLvl2GetTblOffset va)
        (wadd (realign va srmmuMediumPageSize) srmmuMediumPageSize) := by
  unfold releaseLvl2Round
  simp only [if_neg (not_le.mpr h), if_neg h0, hrel]

end Round

/-- An empty table of level 2 has no pages below it. -/
theorem Loose.not_hasLeaf (h : Loose ex s lvl1 A (.lvl2 r)) {q : Nat} (hq : q / 64 = r) :
    A.tbl (.lvl3 q) = none := by
  by_contra hne
  obtain ⟨U, hU⟩ := Option.ne_none_iff_exists'.mp hne
  have hU' : (A.setTbl (.lvl2 r) none).tbl (.lvl3 q) = some U := by
    simp [PgTree.setTbl, hU]
  have hptd := (srmmuPtd_spec (h.rep.tbl _ U hU').aligned (h.rep.lt hU')).2.1
  rw [← (h.shape.midTbl q U hU).2, hq] at hptd
  exact hptd (usedOf_eq_zero_iff.mp h.empty _ (Nat.mod_lt _ (by norm_num)))

theorem Loose.page_eq_zero' (h : Loose ex s lvl1 A (.lvl2 r)) {p : Nat} (hp : p / 4096 = r) :
    A.page p = 0 := PgTree.page_of_none (h.not_hasLeaf (by omega))

/-- A round over a section that has a table. -/
theorem Good.releaseLvl2Section (h : Good ex s lvl1 A) (hcr' : c / 4096 = r) (hr : r ≤ 254)
    (hce : c < e) (hT : A.tbl (.lvl2 r) = some T) (hleaf : A.hasLeaf (c / 64) = true) :
    ∃ s₁ A₁,
      Swept s s₁ A A₁ (fun p => c ≤ p ∧ p < e ∧ p / 64 = c / 64)
        (gather c (min e (64 * (c / 64 + 1))) A.smallLog) ∧
      (∀ q, q ≠ c / 64 → A₁.tbl (.lvl3 q) = A.tbl (.lvl3 q)) ∧
      ((releaseLvl2Round lvl1 T (4096 * e) (s, 4096 * c) =
            .ok (.next (s₁, 4096 * (64 * (c / 64 + 1)))) ∧ Good ex s₁ lvl1 A₁ ∧
          (0 < usedOf (A.ent (.lvl2 r)) → 0 < usedOf (A₁.ent (.lvl2 r)))) ∨
        (releaseLvl2Round lvl1 T (4096 * e) (s, 4096 * c) = .ok (.done (s₁, false)) ∧
          Loose ex s₁ lvl1 A₁ (.lvl2 r))) := by
  have hlt : 4096 * c < 4096 * e := by omega
  have hcr : c / 64 / 64 = r := by omega
  have hoff : srmmuLvl2GetTblOffset (4096 * c) = c / 64 % 64 := by
    rw [srmmuLvl2GetTblOffset]
    omega
  have hnext : wadd (realign (4096 * c) srmmuMediumPageSize) srmmuMediumPageSize =
      4096 * (64 * (c / 64 + 1)) := by
    rw [(realign_eq (by omega)).1, srmmuMediumPageSize, wadd_of_lt (by omega)]
    omega
  obtain ⟨hentry, hne⟩ := h.midEntry hcr' hT
  have hne := hne.mpr hleaf
  have h0 : s.entry T (srmmuLvl2GetTblOffset (4096 * c)) ≠ 0 := hentry.symm ▸ hne
  obtain ⟨s₁, b, A₁, hrel, hleft, hsw, htbl, hent⟩ :=
    h.releaseLvl3Pages (e := e) (by omega) hleaf
  have hT₁ : A₁.tbl (.lvl2 (c / 64 / 64)) = some T := by
    rw [htbl, hcr, hT]
  cases hleft with
  | kept hgood =>
    refine ⟨s₁, A₁, hsw, fun q _ => by rw [htbl], Or.inl ⟨?_, hgood, fun hu => ?_⟩⟩
    · rw [releaseLvl2Round_kept hlt h0 hrel, hnext]
    · rwa [hent]
  | dropped hloose =>
    obtain ⟨s₂, cnt, hdec, hpages, hcase⟩ := hloose.dropLeaf (by rwa [hent, hcr]) hT₁
    rw [← hoff] at hdec
    have hpage := PgTree.page_dropLeaf (fun p => hloose.page_eq_zero (p := p))
    have hsw₂ : Swept s s₂ A (A₁.dropLeaf (c / 64)) (fun p => c ≤ p ∧ p < e ∧ p / 64 = c / 64)
        (gather c (min e (64 * (c / 64 + 1))) A.smallLog) :=
      ⟨hsw.top, fun r => ((A₁.dropLeaf_mid r).1).trans (hsw.mids r),
        fun p hp => (hpage p).trans (hsw.gone p hp), fun p hp => (hpage p).trans (hsw.page p hp),
        hpages.trans hsw.pages⟩
    have hother : ∀ q, q ≠ c / 64 → (A₁.dropLeaf (c / 64)).tbl (.lvl3 q) = A.tbl (.lvl3 q) := by
      intro q hq
      rw [(A₁.dropLeaf_leaf q).1, if_neg hq, htbl]
    rcases hcase with ⟨hcnt, hgood, hused⟩ | ⟨rfl, s₃, hfree, hp₃, hloose₃⟩
    · refine ⟨s₂, A₁.dropLeaf (c / 64), hsw₂, hother, Or.inl ⟨?_, hgood, fun _ => hcr ▸ hused⟩⟩
      rw [releaseLvl2Round_unlink hlt h0 hrel, releaseLvl2Unlink_next hdec hcnt, hnext]
    · refine ⟨s₃, A₁.dropLeaf (c / 64), ⟨hsw₂.top, hsw₂.mids, hsw₂.gone, hsw₂.page,
        hp₃.trans hsw₂.pages⟩, hother, Or.inr ⟨?_, hcr ▸ hloose₃⟩⟩
      rw [releaseLvl2Round_unlink hlt h0 hrel, releaseLvl2Unlink_last hdec hfree]

/-- The pages that the walk from `c` meets within a region. -/
def PgTree.HitLeaf (A : PgTree) (c e p : Nat) : Prop := Hit 64 (fun q => A.hasLeaf q = true) c e p

instance : Decidable (A.HitLeaf c e p) := inferInstanceAs (Decidable (Hit _ _ _ _ _))

/-- What the walk gives back there. -/
def PgTree.leafLog (A : PgTree) (c e p : Nat) : List Nat :=
  if A.HitLeaf c e p then A.smallLog p else []

theorem PgTree.leafLog_of_zero {p : Nat} (h : A.page p = 0) : A.leafLog c e p = [] := by
  rw [leafLog, smallLog_of_zero h, ite_self]

/-- Passing over a section without a table. -/
theorem PgTree.hitLeaf_skip (h : ¬ A.hasLeaf (c / 64) = true) (p : Nat) :
    (A.HitLeaf c e p ↔ A.HitLeaf (c + 64) e p) ∨ A.page p = 0 := by
  by_cases hp : c + 64 ≤ p
  · exact Or.inl (hit_skip (by norm_num) h hp)
  · by_cases hhit : A.HitLeaf c e p
    · right
      have hq : p / 64 = c / 64 := Hit.div_eq (by norm_num) hhit h (not_le.mp hp)
      exact page_of_not_hasLeaf (hq ▸ h)
    · exact Or.inl ⟨fun hh => absurd hh hhit, fun hh => absurd hh.1 hp⟩

theorem PgTree.leafLog_skip (h : ¬ A.hasLeaf (c / 64) = true) :
    gather c e (A.leafLog c e) = gather (c + 64) e (A.leafLog (c + 64) e) := by
  have hcongr : ∀ p, A.leafLog c e p = A.leafLog (c + 64) e p := by
    intro p
    rcases hitLeaf_skip (e := e) h p with hiff | h0
    · simp only [leafLog, hiff]
    · rw [leafLog_of_zero h0, leafLog_of_zero h0]
  rw [gather_drop (Nat.le_add_right c 64) (fun p _ h2 _ => ?_)]
  · exact gather_congr (fun p _ _ => hcongr p)
  · rw [hcongr, leafLog, if_neg (fun hh => absurd hh.1 (not_le.mpr h2))]

/-- Releasing the section that the walk starts in, and what follows. -/
theorem PgTree.leafLog_section {A₁ : PgTree} (h : A.hasLeaf (c / 64) = true)
    (hpage : ∀ p, p / 64 ≠ c / 64 → A₁.page p = A.page p) :
    gather c e (A.leafLog c e) = gather c (min e (64 * (c / 64 + 1))) A.smallLog ++
      gather (64 * (c / 64 + 1)) e (A₁.leafLog (64 * (c / 64 + 1)) e) := by
  rw [gather_split_min (64 * (c / 64 + 1)) (by omega)]
  congr 1
  · refine gather_congr (fun p h1 h2 => if_pos ?_)
    exact (hit_of_holds h).mpr ⟨h1, by omega⟩
  · refine gather_congr (fun p h1 h2 => ?_)
    have hA : A.HitLeaf c e p := (hit_of_holds h).mpr ⟨by omega, h2⟩
    have hA₁ : A₁.HitLeaf (64 * (c / 64 + 1)) e p :=
      (hit_of_aligned (Nat.mul_mod_right 64 _)).mpr ⟨h1, h2⟩
    rw [leafLog, leafLog, if_pos hA, if_pos hA₁, smallLog_congr (hpage p (by omega))]

/-- **The loop of `srmmu_release_lvl2_pages`.** -/
theorem Good.releaseLvl2Loop (hr : r ≤ 254) (he : e ≤ 4096 * (r + 1)) :
    ∀ {n c : Nat} {s : Srmmu} {A : PgTree}, Good ex s lvl1 A → A.tbl (.lvl2 r) = some T →
      4096 * r ≤ c → 64 * (r + 1) - c / 64 < n →
      ∃ s' b A', loop .fuel (releaseLvl2Round lvl1 T (4096 * e)) n (s, 4096 * c) = .ok (s', b) ∧
        Left ex s' lvl1 A' (.lvl2 r) b ∧
        Swept s s' A A' (A.HitLeaf c e) (gather c e (A.leafLog c e)) ∧
        (∀ q, q / 64 ≠ r → A'.tbl (.lvl3 q) = A.tbl (.lvl3 q)) ∧
        (b = true → 0 < usedOf (A.ent (.lvl2 r)) → 0 < usedOf (A'.ent (.lvl2 r)))
  | 0, c, s, A, h, hT, hc, hn => absurd hn (Nat.not_lt_zero _)
  | n + 1, c, s, A, h, hT, hc, hn => by
    by_cases hce : e ≤ c
    · rw [loop_done (releaseLvl2Round_end (Nat.mul_le_mul_left 4096 hce)), gather_of_le hce]
      refine ⟨s, true, A, rfl, .kept h, Swept.refl (fun p hp => ?_), fun _ _ => rfl,
        fun _ hu => hu⟩
      exact absurd (hp.1.trans_lt hp.2.1) (not_lt.mpr hce)
    have hlt : 4096 * c < 4096 * e := by omega
    have hcr : c / 4096 = r := by omega
    by_cases hleaf : A.hasLeaf (c / 64) = true
    · obtain ⟨s₁, A₁, hsw, htbl, hcase⟩ :=
        h.releaseLvl2Section (e := e) hcr hr (not_le.mp hce) hT hleaf
      have hpage : ∀ p, p / 64 ≠ c / 64 → A₁.page p = A.page p :=
        fun p hp => hsw.page p (fun hh => hp hh.2.2)
      have hlog := A.leafLog_section (e := e) hleaf hpage
      rcases hcase with ⟨hround, hgood, hused⟩ | ⟨hround, hloose⟩
      · obtain ⟨s', b, A', hloop, hleft, hsw', htbl', hused'⟩ :=
          hgood.releaseLvl2Loop hr he (n := n) (c := 64 * (c / 64 + 1))
            ((hsw.mids _).trans hT) (by omega) (by omega)
        rw [loop_next hround]
        refine ⟨s', b, A', hloop, hleft, hsw.trans hsw' (fun p hp => ?_) (fun p hp => ?_) hlog,
          fun q hq => ?_, fun hb hu => hused' hb (hused hu)⟩
        · -- everything from `c` on is met
          have hp' : A₁.HitLeaf (64 * (c / 64 + 1)) e p ↔ 64 * (c / 64 + 1) ≤ p ∧ p < e :=
            hit_of_aligned (Nat.mul_mod_right 64 _)
          have := hp.1
          have := hp.2.1
          rw [hp']
          omega
        · have hp' : A₁.HitLeaf (64 * (c / 64 + 1)) e p ↔ 64 * (c / 64 + 1) ≤ p ∧ p < e :=
            hit_of_aligned (Nat.mul_mod_right 64 _)
          have hA : A.HitLeaf c e p ↔ c ≤ p ∧ p < e := hit_of_holds hleaf
          rw [hp'] at hp
          rw [hA]
          omega
        · rw [htbl' q hq, htbl q (by omega)]
      · rw [loop_done hround]
        -- the rest of the region is empty, so that nothing is left out by ending here
        have hrest : ∀ p, p / 4096 = r → p / 64 ≠ c / 64 → A.page p = 0 := by
          intro p hpr hpc
          rw [← hpage p hpc]
          exact hloose.page_eq_zero' hpr
        refine ⟨s₁, false, A₁, rfl, .dropped hloose, hsw.widen (fun p => ?_) ?_,
          fun q hq => htbl q (by omega), fun hb => absurd hb (by decide)⟩
        · have hA : A.HitLeaf c e p ↔ c ≤ p ∧ p < e := hit_of_holds hleaf
          by_cases hpc : p / 64 = c / 64
          · left
            rw [hA]
            omega
          · by_cases hpe : c ≤ p ∧ p < e
            · exact Or.inr (hrest p (by omega) hpc)
            · left
              rw [hA]
              omega
        · have hnil : gather (64 * (c / 64 + 1)) e (A₁.leafLog (64 * (c / 64 + 1)) e) = [] := by
            refine gather_eq_nil (fun p h1 h2 => PgTree.leafLog_of_zero ?_)
            rw [hpage p (by omega)]
            exact hrest p (by omega) (by omega)
          rw [hlog, hnil, List.append_nil]
    · have hnext : wadd (4096 * c) srmmuMediumPageSize = 4096 * (c + 64) := by
        rw [srmmuMediumPageSize, wadd_of_lt (by omega)]
        ring
      obtain ⟨hentry, hne⟩ := h.midEntry hcr hT
      have h0 := hentry.trans (not_not.mp (mt hne.mp hleaf))
      obtain ⟨s', b, A', hloop, hleft, hsw, htbl, hused⟩ :=
        h.releaseLvl2Loop hr he (n := n) (c := c + 64) hT (by omega) (by omega)
      rw [loop_next (releaseLvl2Round_skip hlt h0), hnext]
      exact ⟨s', b, A', hloop, hleft, hsw.widen (A.hitLeaf_skip hleaf) (A.leafLog_skip hleaf), htbl,
        hused⟩

/-- **`srmmu_release_lvl2_pages`**, for a region that has a table. -/
theorem Good.releaseLvl2Pages (h : Good ex s lvl1 A) (hcr : c / 4096 = r) (hr : r ≤ 254)
    (hmid : A.hasMid r = true) :
    ∃ s' b A', srmmuReleaseLvl2Pages s lvl1 (4096 * c) (4096 * e) = .ok (s', b) ∧
      Left ex s' lvl1 A' (.lvl2 r) b ∧
      Swept s s' A A' (fun p => A.HitLeaf c e p ∧ p / 4096 = r)
        (gather (4096 * r) (4096 * (r + 1)) (A.leafLog c e)) ∧
      (∀ q, q / 64 ≠ r → A'.tbl (.lvl3 q) = A.tbl (.lvl3 q)) ∧
      (b = true → 0 < usedOf (A.ent (.lvl2 r)) → 0 < usedOf (A'.ent (.lvl2 r))) := by
  obtain ⟨T, hT⟩ := Option.ne_none_iff_exists'.mp (PgTree.hasMid_iff.mp hmid)
  have hdiv : 4096 * c / 2 ^ 24 = r := by omega
  have hfind : mmuFindTblLvl2 s lvl1 (4096 * c) = T := by
    rw [h.findTblLvl2 (by omega), hdiv, hT]
    rfl
  have hT0 : T ≠ 0 := by
    have := h.rep.bounds hT
    omega
  have hlim : walign (wadd (4096 * c) 1) srmmuLargePageSize = 4096 * (4096 * (r + 1)) := by
    rw [srmmuLargePageSize, walign, wadd_of_lt (a := 4096 * c) (by omega), wadd_of_lt (by omega)]
    omega
  have hend : (if 4096 * (4096 * (r + 1)) < 4096 * e then 4096 * (4096 * (r + 1)) else 4096 * e) =
      4096 * min e (4096 * (r + 1)) := by
    split <;> omega
  obtain ⟨s', b, A', hloop, hleft, hsw, htbl, hused⟩ :=
    h.releaseLvl2Loop hr (e := min e (4096 * (r + 1))) (n := 65) (c := c) (by omega) hT
      (by omega) (by omega)
  have hhit : ∀ p, A.HitLeaf c (min e (4096 * (r + 1))) p ↔ A.HitLeaf c e p ∧ p / 4096 = r := by
    intro p
    simp only [PgTree.HitLeaf, Hit]
    omega
  refine ⟨s', b, A', ?_, hleft, hsw.widen (fun p => Or.inl (hhit p).symm) ?_, htbl, hused⟩
  · unfold srmmuReleaseLvl2Pages
    simp only [hfind, if_neg hT0, hlim, hend, srmmuSizeTblLvl2]
    exact hloop
  · -- before `c` nothing is met, and from the end of the range on neither
    rw [gather_clip (a := c) (b := min e (4096 * (r + 1))) (by omega) (by omega)]
    · refine gather_congr (fun p h1 h2 => ?_)
      have hp : A.HitLeaf c (min e (4096 * (r + 1))) p ↔ A.HitLeaf c e p :=
        (hhit p).trans (and_iff_left (by omega))
      simp only [PgTree.leafLog, hp]
    · intro p _ _ hp
      refine if_neg (fun hh => hp ?_)
      have := hh.1
      have := hh.2.1
      omega

end Mid

end FlightOs
