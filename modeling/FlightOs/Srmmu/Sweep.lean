/-
# The walk over the regions

The loop of `srmmu_release_lvl1_pages`, on a well-formed tree and a range `[c, e)` of pages.

* `Good.sweepRegion`: one region, `RegionSwept`.
* `Good.releaseLvl1Pages`: the walk ends when it stays below the topmost region, and releases what
  it meets: the small pages of `Visited`, and the large pages of the regions of `Reached`.
* `Good.releaseLvl1Pages_diverges`: a walk that gets into the topmost region with a page left to
  do goes round for ever.
-/
import FlightOs.Srmmu.Release

namespace FlightOs

namespace PgTree

/-- The page at which the walk from `c` enters a region. -/
def regionEntry (A : PgTree) (c r : Nat) : Nat := enter 4096 (fun r => A.hasMid r = true) c r

/-- The walk gets to a region. -/
def Reached (A : PgTree) (c e r : Nat) : Prop := c / 4096 ≤ r ∧ A.regionEntry c r < e

/-- The walk meets a small page. -/
def Visited (A : PgTree) (c e p : Nat) : Prop :=
  c / 4096 ≤ p / 4096 ∧ A.HitLeaf (A.regionEntry c (p / 4096)) e p

instance (A : PgTree) (c e r : Nat) : Decidable (A.Reached c e r) :=
  inferInstanceAs (Decidable (_ ∧ _))

instance (A : PgTree) (c e p : Nat) : Decidable (A.Visited c e p) :=
  inferInstanceAs (Decidable (_ ∧ _))

/-- What the walk gives back in a region. -/
def regionLog (A : PgTree) (c e r : Nat) : List Nat :=
  if A.large r ≠ 0 then if A.Reached c e r then [srmmuPteToAddr (A.large r)] else []
  else gather (4096 * r) (4096 * (r + 1)) (fun p => if A.Visited c e p then A.smallLog p else [])

/-- Some section of a region has a table. -/
def HasLeaves (A : PgTree) (r : Nat) : Prop := ∃ q, q / 64 = r ∧ A.hasLeaf q = true

variable {A A' : PgTree} {c e p r : Nat}

theorem regionEntry_self : A.regionEntry c (c / 4096) = c := enter_self

theorem visited_first (h : p / 4096 = c / 4096) : A.Visited c e p ↔ A.HitLeaf c e p := by
  rw [Visited, h, regionEntry_self]
  exact and_iff_right (le_refl _)

/-- Where the walk has come to the end of the range it meets nothing. -/
theorem not_visited_of_le (h : e ≤ c) : ¬ A.Visited c e p := by
  intro hv
  have h1 : c ≤ A.regionEntry c (p / 4096) := le_of_enter (by norm_num) hv.1
  exact absurd (hv.2.1.trans_lt hv.2.2.1) (not_lt.mpr (h.trans h1))

theorem not_reached_of_le (h : e ≤ c) : ¬ A.Reached c e r := by
  intro hr
  have h1 : c ≤ A.regionEntry c r := le_of_enter (by norm_num) hr.1
  exact absurd hr.2 (not_lt.mpr (h.trans h1))

theorem regionLog_of_le (h : e ≤ c) : A.regionLog c e r = [] := by
  rw [regionLog, if_neg (not_reached_of_le h), gather_eq_nil, ite_self]
  exact fun p _ _ => if_neg (not_visited_of_le h)

/-- Two walks that enter a region at the same page, over the same tables there, meet the same. -/
theorem visited_congr {c' : Nat} (h1 : c / 4096 ≤ p / 4096) (h2 : c' / 4096 ≤ p / 4096)
    (hent : A'.regionEntry c' (p / 4096) = A.regionEntry c (p / 4096))
    (hleaf : ∀ q, q / 64 = p / 4096 → A'.hasLeaf q = A.hasLeaf q) :
    A'.Visited c' e p ↔ A.Visited c e p := by
  have hle : 4096 * (p / 4096) ≤ A.regionEntry c (p / 4096) := le_enter
  have hhit : A'.HitLeaf (A.regionEntry c (p / 4096)) e p ↔
      A.HitLeaf (A.regionEntry c (p / 4096)) e p := by
    refine Hit.congr (fun q hq1 hq2 => ?_)
    rw [hleaf q (by omega)]
  rw [Visited, Visited, hent, hhit]
  exact ⟨fun h => ⟨h1, h.2⟩, fun h => ⟨h2, h.2⟩⟩

end PgTree

/-- What one round of the walk does. -/
structure RegionSwept (s s' : Srmmu) (A A' : PgTree) (c e : Nat) : Prop where
  gone : ∀ p, p / 4096 = c / 4096 → A.HitLeaf c e p → A'.page p = 0
  page : ∀ p, p / 4096 = c / 4096 → ¬ A.HitLeaf c e p → A'.page p = A.page p
  other : ∀ p, p / 4096 ≠ c / 4096 → A'.page p = A.page p
  leaf : ∀ q, q / 64 ≠ c / 4096 → A'.hasLeaf q = A.hasLeaf q
  mid : ∀ r, r ≠ c / 4096 → A'.hasMid r = A.hasMid r
  midGone : A'.hasMid (c / 4096) = true → A.hasMid (c / 4096) = true
  large : ∀ r, A'.large r = if r = c / 4096 then 0 else A.large r
  pages : s'.pages = s.pages ++ A.regionLog c e (c / 4096)
  kept : ∀ r, A'.hasMid r = true → A.HasLeaves r → A'.HasLeaves r

section Round

variable {ex : Prop} {s s₁ : Srmmu} {lvl1 vaEnd va c e r : Nat} {A : PgTree}

theorem releaseLvl1Round_end (h : vaEnd ≤ va) :
    releaseLvl1Round lvl1 vaEnd (s, va) = .ok (.done s) := by
  unfold releaseLvl1Round
  exact if_pos h

theorem releaseLvl1Round_large {pte : Nat} (h : va < vaEnd)
    (hpte : s.entry lvl1 (srmmuLvl1GetTblOffset va) = pte) (hpt : isPtEntry pte = true) :
    releaseLvl1Round lvl1 vaEnd (s, va) =
      .ok (.next ((s.freePage (srmmuPteToAddr pte)).write
        (entryAddr lvl1 (srmmuLvl1GetTblOffset va)) 0, wadd va srmmuLargePageSize)) := by
  unfold releaseLvl1Round
  simp only [if_neg (not_le.mpr h), hpte, if_pos hpt]

theorem releaseLvl1Round_skip (h : va < vaEnd)
    (h0 : s.entry lvl1 (srmmuLvl1GetTblOffset va) = 0) :
    releaseLvl1Round lvl1 vaEnd (s, va) = .ok (.next (s, wadd va srmmuLargePageSize)) := by
  unfold releaseLvl1Round
  simp only [if_neg (not_le.mpr h), h0]
  rfl

theorem releaseLvl1Round_table {b : Bool} {pte : Nat} (h : va < vaEnd)
    (hpte : s.entry lvl1 (srmmuLvl1GetTblOffset va) = pte) (hpt : isPtEntry pte = false)
    (h0 : pte ≠ 0) (hrel : srmmuReleaseLvl2Pages s lvl1 va vaEnd = .ok (s₁, b)) :
    releaseLvl1Round lvl1 vaEnd (s, va) =
      .ok (.next (if b then s₁ else s₁.write (entryAddr lvl1 (srmmuLvl1GetTblOffset va)) 0,
        wadd (realign va srmmuLargePageSize) srmmuLargePageSize)) := by
  unfold releaseLvl1Round
  simp only [if_neg (not_le.mpr h), hpte, hpt, Bool.false_eq_true, if_false, if_neg h0, hrel]
  cases b <;> rfl

/-- An entry of level 1 that is an entry proper is a large page. -/
theorem Good.topEntry (h : Good ex s lvl1 A) (hc : c < 2 ^ 20) :
    s.entry lvl1 (srmmuLvl1GetTblOffset (4096 * c)) = A.top (c / 4096) := by
  have hoff : srmmuLvl1GetTblOffset (4096 * c) = c / 4096 := by
    rw [srmmuLvl1GetTblOffset]
    omega
  rw [hoff, h.rep.entry_top (by omega)]

/-- Taking a large page out. -/
theorem Good.dropLarge (h : Good ex s lvl1 A) (hr : r < 256) (hpt : isPtEntry (A.top r) = true) :
    Good ex ((s.freePage (srmmuPteToAddr (A.top r))).write (entryAddr lvl1 r) 0) lvl1
      (A.setTop r 0) := by
  have hnone : A.tbl (.lvl2 r) = none := by
    by_contra hne
    obtain ⟨T, hT⟩ := Option.ne_none_iff_exists'.mp hne
    have := (h.shape.top_ne hT (h.rep.tbl _ T hT).aligned (h.rep.lt hT)).1
    rw [hpt] at this
    cases this
  have hrep : Rep (s.freePage (srmmuPteToAddr (A.top r))) lvl1 A := h.rep.congr rfl rfl
  refine ⟨hrep.setTop 0 hr, ?_,
    h.counted, fun hx => (h.owned hx).congr rfl (fun _ _ hk => hk)⟩
  obtain ⟨h1, h2, h3, h4, h5, h6, h7, h8⟩ := h.shape
  refine ⟨h1, fun r' T hT => ?_, fun r' hr' hT => ?_, h4, h5, h6, h7, h8⟩
  · have hne : r' ≠ r := by
      rintro rfl
      rw [PgTree.setTop] at hT
      rw [hnone] at hT
      cases hT
    simp only [PgTree.setTop]
    rw [Function.update_of_ne hne]
    exact h2 r' T hT
  · simp only [PgTree.setTop, Function.update_apply]
    split
    next => exact Or.inl rfl
    next => exact h3 r' hr' hT

/-- The entries of a level 2 table in use are the sections that have a table. -/
theorem Good.used_pos_iff (h : Good ex s lvl1 A) (hmid : A.hasMid r = true) :
    0 < usedOf (A.ent (.lvl2 r)) ↔ A.HasLeaves r := by
  obtain ⟨T, hT⟩ := Option.ne_none_iff_exists'.mp (PgTree.hasMid_iff.mp hmid)
  rw [usedOf_pos_iff]
  constructor
  · rintro ⟨i, hi, hne⟩
    have hdiv : 64 * (64 * r + i) / 64 = 64 * r + i := Nat.mul_div_cancel_left _ (by norm_num)
    have hentry := (h.midEntry (c := 64 * (64 * r + i)) (by omega) hT).2
    rw [hdiv, Nat.mul_add_mod, Nat.mod_eq_of_lt hi] at hentry
    exact ⟨64 * r + i, by omega, hentry.mp hne⟩
  · rintro ⟨q, rfl, hq⟩
    have hentry := (h.midEntry (c := 64 * q) (by omega) hT).2
    rw [Nat.mul_div_cancel_left q (by norm_num)] at hentry
    exact ⟨q % 64, Nat.mod_lt _ (by norm_num), hentry.mpr hq⟩

/-- After an entry that is no table the walk keeps its offset. -/
theorem RegionSwept.entry_skip {A' : PgTree} {s' : Srmmu} (h : RegionSwept s s' A A' c e)
    (hmid : A.hasMid (c / 4096) = false) :
    A'.regionEntry (c + 4096) r = A.regionEntry c r := by
  have hno : ¬ A.hasMid (c / 4096) = true := by
    rw [hmid]
    decide
  have hskip := enter_skip (n := 4096) (P := fun r => A.hasMid r = true) (r := r) (by norm_num) hno
  refine (enter_congr (fun r' hr' _ => ?_)).trans hskip.symm
  rw [h.mid r' (by omega)]

/-- After a table it is aligned. -/
theorem RegionSwept.entry_table {A' : PgTree} (hmid : A.hasMid (c / 4096) = true)
    (hr : c / 4096 < r) : A'.regionEntry (4096 * (c / 4096 + 1)) r = A.regionEntry c r := by
  rw [PgTree.regionEntry, PgTree.regionEntry, enter_after hmid hr,
    enter_aligned (Nat.mul_mod_right 4096 _)]

/-- **A round of the walk.** -/
theorem Good.sweepRegion (h : Good ex s lvl1 A) (hr : c / 4096 ≤ 254) (hce : c < e) :
    ∃ s₁ A₁ c', releaseLvl1Round lvl1 (4096 * e) (s, 4096 * c) = .ok (.next (s₁, 4096 * c')) ∧
      Good ex s₁ lvl1 A₁ ∧ RegionSwept s s₁ A A₁ c e ∧ c' / 4096 = c / 4096 + 1 ∧
      ∀ r, c / 4096 < r → A₁.regionEntry c' r = A.regionEntry c r := by
  have hlt : 4096 * c < 4096 * e := by omega
  have htop := h.topEntry (c := c) (by omega)
  have hoff : srmmuLvl1GetTblOffset (4096 * c) = c / 4096 := by
    rw [srmmuLvl1GetTblOffset]
    omega
  have hnext : wadd (4096 * c) srmmuLargePageSize = 4096 * (c + 4096) := by
    rw [srmmuLargePageSize, wadd_of_lt (by omega)]
    ring
  cases hT : A.tbl (.lvl2 (c / 4096)) with
  | some T =>
    have hmid : A.hasMid (c / 4096) = true := by
      rw [PgTree.hasMid, hT]
      rfl
    obtain ⟨hpt, hne, -⟩ := h.shape.top_ne hT (h.rep.tbl _ T hT).aligned (h.rep.lt hT)
    have hlarge : A.large (c / 4096) = 0 := if_neg (by rw [hpt]; exact Bool.false_ne_true)
    have hnext' : wadd (realign (4096 * c) srmmuLargePageSize) srmmuLargePageSize =
        4096 * (4096 * (c / 4096 + 1)) := by
      rw [(realign_eq (by omega)).2, srmmuLargePageSize, wadd_of_lt (by omega)]
      omega
    obtain ⟨s₁, b, A₁, hrel, hleft, hsw, htbl, hused⟩ :=
      h.releaseLvl2Pages (e := e) rfl hr hmid
    have hround := releaseLvl1Round_table hlt htop hpt hne hrel
    rw [hnext', hoff] at hround
    have hlog : A.regionLog c e (c / 4096) =
        gather (4096 * (c / 4096)) (4096 * (c / 4096 + 1)) (A.leafLog c e) := by
      rw [PgTree.regionLog, if_neg (not_not.mpr hlarge)]
      refine gather_congr (fun p h1 h2 => ?_)
      simp only [PgTree.leafLog, PgTree.visited_first (show p / 4096 = c / 4096 by omega)]
    have hlarge₁ : ∀ r, A₁.large r = if r = c / 4096 then 0 else A.large r := by
      intro r
      rw [PgTree.large_congr (congrFun hsw.top r)]
      split
      next hrr => rw [hrr, hlarge]
      next => rfl
    have hleaf : ∀ q, q / 64 ≠ c / 4096 → A₁.hasLeaf q = A.hasLeaf q := by
      intro q hq
      rw [PgTree.hasLeaf, PgTree.hasLeaf, htbl q hq]
    have hmid₁ : ∀ r, A₁.hasMid r = A.hasMid r := by
      intro r
      rw [PgTree.hasMid, PgTree.hasMid, hsw.mids r]
    have hother : ∀ r, r ≠ c / 4096 → A.HasLeaves r → A₁.HasLeaves r := by
      rintro r hrr ⟨q, rfl, hq⟩
      exact ⟨q, rfl, (hleaf q hrr).trans hq⟩
    cases hleft with
    | kept hgood =>
      refine ⟨s₁, A₁, 4096 * (c / 4096 + 1), hround, hgood, ⟨fun p hp hh => hsw.gone p ⟨hh, hp⟩,
        fun p _ hh => hsw.page p (fun e' => hh e'.1), fun p hp => hsw.page p (fun e' => hp e'.2),
        hleaf, fun r _ => hmid₁ r, fun hm => (hmid₁ _).symm.trans hm, hlarge₁, ?_,
        fun r hm hu => ?_⟩, by omega, fun r hr => RegionSwept.entry_table hmid hr⟩
      · rw [hlog, hsw.pages]
      · by_cases hrr : r = c / 4096
        · subst hrr
          exact (hgood.used_pos_iff hm).mp (hused rfl ((h.used_pos_iff hmid).mpr hu))
        · exact hother r hrr hu
    | dropped hloose =>
      have hm := A₁.dropMid_mid (r := c / 4096)
      have hl := A₁.dropMid_leaf (r := c / 4096)
      have hpage : ∀ p, (A₁.dropMid (c / 4096)).page p = A₁.page p := fun p =>
        PgTree.page_congr (hl _).1 (by rw [(hl _).2.2])
      have hgood : Good ex (s₁.write (entryAddr lvl1 (c / 4096)) 0) lvl1
          (A₁.dropMid (c / 4096)) :=
        ⟨hloose.rep.setTop 0 (by omega), hloose.shape.dropMid (fun q hq => hloose.not_hasLeaf hq),
          fun q U hU => hloose.counted q U (by rintro ⟨⟩) hU,
          fun hx => (hloose.owned hx).congr rfl (fun _ _ hk => hk)⟩
      have hgone : (A₁.dropMid (c / 4096)).hasMid (c / 4096) = false := by
        rw [PgTree.hasMid, (hm _).1, if_pos rfl]
        rfl
      refine ⟨_, A₁.dropMid (c / 4096), 4096 * (c / 4096 + 1), hround, hgood,
        ⟨fun p hp hh => (hpage p).trans (hsw.gone p ⟨hh, hp⟩),
        fun p _ hh => (hpage p).trans (hsw.page p (fun e' => hh e'.1)),
        fun p hp => (hpage p).trans (hsw.page p (fun e' => hp e'.2)), fun q hq => ?_,
        fun r hrr => ?_, fun hm' => ?_, fun r => ?_, ?_, fun r hm' hu => ?_⟩, by omega,
        fun r hr => RegionSwept.entry_table hmid hr⟩
      · rw [PgTree.hasLeaf, (hl q).1]
        exact hleaf q hq
      · rw [PgTree.hasMid, (hm r).1, if_neg hrr]
        exact hmid₁ r
      · rw [hgone] at hm'
        cases hm'
      · rw [PgTree.large, (hm r).2.2.1]
        split
        next hrr => rfl
        next hrr => exact (hlarge₁ r).trans (if_neg hrr)
      · rw [hlog, ← hsw.pages]
        rfl
      · have hrr : r ≠ c / 4096 := by
          rintro rfl
          rw [hgone] at hm'
          cases hm'
        obtain ⟨q, hq, hq'⟩ := hother r hrr hu
        refine ⟨q, hq, ?_⟩
        rw [PgTree.hasLeaf, (hl q).1]
        exact hq'
  | none =>
    have hmid : A.hasMid (c / 4096) = false := by
      rw [PgTree.hasMid, hT]
      rfl
    have hpage : ∀ p, p / 4096 = c / 4096 → A.page p = 0 := by
      intro p hp
      refine PgTree.page_of_none ?_
      by_contra hne
      obtain ⟨U, hU⟩ := Option.ne_none_iff_exists'.mp hne
      have hq : p / 64 / 64 = c / 4096 := by omega
      exact (h.shape.midTbl _ U hU).1 (hq ▸ hT)
    rcases h.shape.topNone _ (by omega) hT with h0 | hpt
    · have hlarge : A.large (c / 4096) = 0 := by
        rw [PgTree.large, h0]
        rfl
      have hsw : RegionSwept s s A A c e := by
        refine ⟨fun p hp _ => hpage p hp, fun _ _ _ => rfl, fun _ _ => rfl, fun _ _ => rfl,
          fun _ _ => rfl, id, fun r => ?_, ?_, fun _ _ hu => hu⟩
        · split
          next hrr => rw [hrr, hlarge]
          next => rfl
        · rw [PgTree.regionLog, if_neg (not_not.mpr hlarge), gather_eq_nil, List.append_nil]
          intro p h1 h2
          rw [PgTree.smallLog_of_zero (hpage p (by omega)), ite_self]
      refine ⟨s, A, c + 4096, ?_, h, hsw, by omega, fun r _ => hsw.entry_skip hmid⟩
      rw [releaseLvl1Round_skip hlt (htop.trans h0), hnext]
    · have hlarge : A.large (c / 4096) = A.top (c / 4096) := if_pos hpt
      have hne := ne_zero_of_isPtEntry hpt
      have hreached : A.Reached c e (c / 4096) := by
        refine ⟨le_refl _, ?_⟩
        rwa [PgTree.regionEntry_self]
      have hsw : RegionSwept s ((s.freePage (srmmuPteToAddr (A.top (c / 4096)))).write
          (entryAddr lvl1 (c / 4096)) 0) A (A.setTop (c / 4096) 0) c e := by
        refine ⟨fun p hp _ => hpage p hp, fun _ _ _ => rfl, fun _ _ => rfl, fun _ _ => rfl,
          fun _ _ => rfl, id, fun r => ?_, ?_, fun _ _ hu => hu⟩
        · simp only [PgTree.large, PgTree.setTop, Function.update_apply]
          split
          next => rfl
          next => rfl
        · rw [PgTree.regionLog, if_pos (hlarge.symm ▸ hne), if_pos hreached, hlarge]
          rfl
      refine ⟨_, A.setTop (c / 4096) 0, c + 4096, ?_, h.dropLarge (by omega) hpt, hsw, by omega,
        fun r _ => hsw.entry_skip hmid⟩
      rw [releaseLvl1Round_large hlt htop hpt, hnext, hoff]

/-- A round in the topmost region leads back to the bottom. -/
theorem Good.sweepTop (h : Good ex s lvl1 A) (hc : c / 4096 = 255) (hce : c < e) :
    ∃ s₁ A₁ c', releaseLvl1Round lvl1 (4096 * e) (s, 4096 * c) = .ok (.next (s₁, 4096 * c')) ∧
      Good ex s₁ lvl1 A₁ ∧ c' < 2 ^ 20 ∧ A₁.regionEntry c' 255 < e := by
  have hlt : 4096 * c < 4096 * e := by omega
  have htop := h.topEntry (c := c) (by omega)
  have hoff : srmmuLvl1GetTblOffset (4096 * c) = c / 4096 := by
    rw [srmmuLvl1GetTblOffset]
    omega
  have hnext : wadd (4096 * c) srmmuLargePageSize = 4096 * (c % 4096) := by
    rw [srmmuLargePageSize, wadd]
    omega
  have hback : ∀ A' : PgTree, A'.regionEntry (c % 4096) 255 < e := fun A' =>
    lt_of_le_of_lt enter_le (by omega)
  cases hT : A.tbl (.lvl2 (c / 4096)) with
  | some T =>
    obtain ⟨hpt, hne, -⟩ := h.shape.top_ne hT (h.rep.tbl _ T hT).aligned (h.rep.lt hT)
    have hdiv : 4096 * c / 2 ^ 24 = c / 4096 := by omega
    have hfind : mmuFindTblLvl2 s lvl1 (4096 * c) = T := by
      rw [h.findTblLvl2 (by omega), hdiv, hT]
      rfl
    have hT0 : T ≠ 0 := by
      have := h.rep.bounds hT
      omega
    -- the end of the region is not representable, and so nothing is released
    have hlim : walign (wadd (4096 * c) 1) srmmuLargePageSize = 0 := by
      rw [srmmuLargePageSize, walign, wadd_of_lt (a := 4096 * c) (by omega), wadd]
      omega
    have hrel : srmmuReleaseLvl2Pages s lvl1 (4096 * c) (4096 * e) = .ok (s, true) := by
      unfold srmmuReleaseLvl2Pages
      simp only [hfind, if_neg hT0, hlim, if_pos (show 0 < 4096 * e by omega)]
      exact loop_done (releaseLvl2Round_end (Nat.zero_le _)) _
    have hnext' : wadd (realign (4096 * c) srmmuLargePageSize) srmmuLargePageSize = 4096 * 0 := by
      rw [(realign_eq (by omega)).2, srmmuLargePageSize, wadd]
      omega
    refine ⟨s, A, 0, ?_, h, by norm_num, lt_of_le_of_lt enter_le (by omega)⟩
    rw [releaseLvl1Round_table hlt htop hpt hne hrel, hnext']
    rfl
  | none =>
    rcases h.shape.topNone _ (by omega) hT with h0 | hpt
    · refine ⟨s, A, c % 4096, ?_, h, by omega, hback A⟩
      rw [releaseLvl1Round_skip hlt (htop.trans h0), hnext]
    · refine ⟨_, A.setTop (c / 4096) 0, c % 4096, ?_, h.dropLarge (by omega) hpt, by omega,
        hback _⟩
      rw [releaseLvl1Round_large hlt htop hpt, hnext, hoff]

end Round

/-- What the walk does. -/
structure Released (s s' : Srmmu) (A A' : PgTree) (c e : Nat) : Prop where
  gone : ∀ p, A.Visited c e p → A'.page p = 0
  page : ∀ p, ¬ A.Visited c e p → A'.page p = A.page p
  large : ∀ r < 256, A'.large r = if A.Reached c e r then 0 else A.large r
  pages : s'.pages = s.pages ++ gather (c / 4096) 256 (A.regionLog c e)
  mid : ∀ r, A'.hasMid r = true → A.hasMid r = true
  kept : ∀ r, A'.hasMid r = true → A.HasLeaves r → A'.HasLeaves r

section Walk

variable {ex : Prop} {lvl1 e : Nat}

/-- A round, and the rest of the walk. -/
theorem RegionSwept.trans {s s₁ s' : Srmmu} {A A₁ A' : PgTree} {c c' : Nat}
    (h : RegionSwept s s₁ A A₁ c e) (h' : Released s₁ s' A₁ A' c' e)
    (hc' : c' / 4096 = c / 4096 + 1)
    (hent : ∀ r, c / 4096 < r → A₁.regionEntry c' r = A.regionEntry c r) (hce : c < e)
    (hc : c / 4096 < 256) : Released s s' A A' c e := by
  have hvis : ∀ p, c / 4096 < p / 4096 → (A₁.Visited c' e p ↔ A.Visited c e p) := fun p hp =>
    PgTree.visited_congr hp.le (by omega) (hent _ hp) (fun q hq => h.leaf q (by omega))
  have hno : ∀ p, p / 4096 ≤ c / 4096 → ¬ A₁.Visited c' e p := fun p hp hv => by
    have := hv.1
    omega
  have hreach : ∀ r, c / 4096 < r → (A₁.Reached c' e r ↔ A.Reached c e r) := by
    intro r hr
    rw [PgTree.Reached, PgTree.Reached, hent r hr]
    omega
  have hmid : ∀ r, A₁.hasMid r = true → A.hasMid r = true := by
    intro r hm
    by_cases hr : r = c / 4096
    · rw [hr] at hm ⊢
      exact h.midGone hm
    · rwa [← h.mid r hr]
  refine ⟨fun p hv => ?_, fun p hv => ?_, fun r hr => ?_, ?_,
    fun r hm => hmid r (h'.mid r hm), fun r hm hu => h'.kept r hm (h.kept r (h'.mid r hm) hu)⟩
  · rcases Nat.eq_or_lt_of_le hv.1 with he | hlt
    · rw [h'.page p (hno p he.ge)]
      exact h.gone p he.symm ((PgTree.visited_first he.symm).mp hv)
    · exact h'.gone p ((hvis p hlt).mpr hv)
  · rcases Nat.lt_trichotomy (p / 4096) (c / 4096) with hlt | he | hgt
    · rw [h'.page p (hno p hlt.le), h.other p hlt.ne]
    · rw [h'.page p (hno p he.le), h.page p he (fun hh => hv ((PgTree.visited_first he).mpr hh))]
    · rw [h'.page p (fun hh => hv ((hvis p hgt).mp hh)), h.other p hgt.ne']
  · rw [h'.large r hr, h.large r]
    rcases Nat.lt_trichotomy r (c / 4096) with hlt | he | hgt
    · rw [if_neg (fun hh => absurd hh.1 (by omega)), if_neg hlt.ne,
        if_neg (fun hh => absurd hh.1 (by omega))]
    · have hreached : A.Reached c e r := by
        refine ⟨he.ge, ?_⟩
        rwa [he, PgTree.regionEntry_self]
      rw [if_pos he, if_pos hreached, ite_self]
    · rw [if_neg hgt.ne']
      simp only [hreach r hgt]
  · rw [h'.pages, h.pages, gather_succ hc, hc', List.append_assoc]
    congr 2
    refine gather_congr (fun r h1 _ => ?_)
    have hlarge : A₁.large r = A.large r := (h.large r).trans (if_neg (by omega))
    simp only [PgTree.regionLog, hlarge, hreach r h1]
    congr 1
    refine gather_congr (fun p h2 h3 => ?_)
    have hp : c / 4096 < p / 4096 := by omega
    simp only [hvis p hp, PgTree.smallLog_congr (h.other p hp.ne')]

/-- **`srmmu_release_lvl1_pages`**, when the walk ends. -/
theorem Good.releaseLvl1Pages (he : e < 2 ^ 20) {n c : Nat} {s : Srmmu} {A : PgTree}
    (h : Good ex s lvl1 A) (hend : e ≤ A.regionEntry c 255) (hn : 256 - c / 4096 < n) :
    ∃ s' A', srmmuReleaseLvl1Pages n s lvl1 (4096 * c) (4096 * e) = .ok s' ∧
      Good ex s' lvl1 A' ∧ Released s s' A A' c e := by
  induction n generalizing c s A with
  | zero => exact absurd hn (Nat.not_lt_zero _)
  | succ n ih =>
    by_cases hce : e ≤ c
    · refine ⟨s, A, loop_done (releaseLvl1Round_end (Nat.mul_le_mul_left 4096 hce)) n, h,
        fun p hv => absurd hv (PgTree.not_visited_of_le hce), fun _ _ => rfl, fun r _ => ?_, ?_,
        fun _ => id, fun _ _ => id⟩
      · rw [if_neg (PgTree.not_reached_of_le hce)]
      · rw [gather_eq_nil (fun r _ _ => PgTree.regionLog_of_le hce), List.append_nil]
    · have hc : c / 4096 ≤ 254 := by
        by_contra hlt
        have h255 : c / 4096 = 255 := by omega
        rw [← h255, PgTree.regionEntry_self] at hend
        exact hce hend
      obtain ⟨s₁, A₁, c', hround, hgood, hsw, hc', hent⟩ := h.sweepRegion hc (not_le.mp hce)
      obtain ⟨s', A', hrel, hgood', hreleased⟩ :=
        ih (c := c') hgood ((hent 255 (by omega)).symm ▸ hend) (by omega)
      refine ⟨s', A', ?_, hgood', hsw.trans hreleased hc' hent (not_le.mp hce) (by omega)⟩
      exact (loop_next hround n).trans hrel

/-- A walk that gets into the topmost region does not end. -/
theorem Good.releaseLvl1Pages_diverges {s : Srmmu} {A : PgTree} {c : Nat} (h : Good ex s lvl1 A)
    (he : e < 2 ^ 20) (hc : c < 2 ^ 20) (hend : A.regionEntry c 255 < e) (n : Nat) :
    srmmuReleaseLvl1Pages n s lvl1 (4096 * c) (4096 * e) = .error .fuel := by
  refine loop_diverges (I := fun x => ∃ A c, Good ex x.1 lvl1 A ∧ x.2 = 4096 * c ∧
    c < 2 ^ 20 ∧ A.regionEntry c 255 < e) ?_ ⟨A, c, h, rfl, hc, hend⟩
  rintro ⟨s, va⟩ ⟨A, c, h, hva, hc, hend⟩
  simp only at h hva
  subst hva
  have hce : c < e := lt_of_le_of_lt (le_of_enter (by norm_num) (by omega)) hend
  by_cases h255 : c / 4096 = 255
  · obtain ⟨s₁, A₁, c', hround, hgood, hc', hend'⟩ := h.sweepTop h255 hce
    exact ⟨_, hround, A₁, c', hgood, rfl, hc', hend'⟩
  · obtain ⟨s₁, A₁, c', hround, hgood, -, hc', hent⟩ := h.sweepRegion (by omega) hce
    exact ⟨_, hround, A₁, c', hgood, rfl, by omega, (hent 255 (by omega)).symm ▸ hend⟩

end Walk

end FlightOs
