/-
# Well-formed page tables

`Shape ex A`: the entries of a tree and its tables fit together.  An entry of level 1 is the
descriptor of the region's table, or an entry for a large page, or invalid; an entry of level 2 is
the descriptor of the section's table or invalid; the count of a level 2 table is the number of its
entries in use, and that of a level 3 table is at least that.  The parameter `ex` stands for the
runs in which no count drifts: there the counts of level 3 are exact as well, and every buffer that
was not given back belongs to a table of the tree.

`Good ex s lvl1 A` adds that the memory holds the tree.  The lookups of the code are read off the
tree here, and the changes that mapping and release make to a tree are shown to keep its shape.
-/
import FlightOs.Srmmu.Tree
import Mathlib.Data.Finset.Card
import Mathlib.Order.Interval.Finset.Nat

namespace FlightOs

/-! ## 1. Entries in use -/

/-- The number of entries in use. -/
def usedOf (E : Nat → Nat) : Nat := ((Finset.range 64).filter (fun i => E i ≠ 0)).card

theorem usedOf_congr {E E' : Nat → Nat} (h : ∀ i < 64, E i = E' i) : usedOf E = usedOf E' := by
  rw [usedOf, usedOf]
  congr 1
  refine Finset.filter_congr (fun i hi => ?_)
  rw [h i (Finset.mem_range.mp hi)]

theorem usedOf_le (E : Nat → Nat) : usedOf E ≤ 64 := by
  have := Finset.card_filter_le (Finset.range 64) (fun i => E i ≠ 0)
  rwa [Finset.card_range] at this

theorem usedOf_eq_zero_iff {E : Nat → Nat} : usedOf E = 0 ↔ ∀ i < 64, E i = 0 := by
  rw [usedOf, Finset.card_eq_zero, Finset.filter_eq_empty_iff]
  simp

theorem usedOf_pos_iff {E : Nat → Nat} : 0 < usedOf E ↔ ∃ i < 64, E i ≠ 0 := by
  rw [Nat.pos_iff_ne_zero, Ne, usedOf_eq_zero_iff]
  push Not
  rfl

/-- Putting a free entry to use. -/
theorem usedOf_set {E E' : Nat → Nat} {i v : Nat} (hi : i < 64) (h0 : E i = 0) (hv : v ≠ 0)
    (h : ∀ j, E' j = if j = i then v else E j) : usedOf E' = usedOf E + 1 := by
  have hset : (Finset.range 64).filter (fun j => E' j ≠ 0) =
      insert i ((Finset.range 64).filter (fun j => E j ≠ 0)) := by
    ext j
    by_cases hj : j = i
    · subst hj
      simp [h, hv, hi]
    · simp [h, hj]
  rw [usedOf, hset, Finset.card_insert_of_notMem (by simp [h0]), usedOf]

/-- Overwriting an entry in use. -/
theorem usedOf_reset {E E' : Nat → Nat} {i v : Nat} (h0 : E i ≠ 0) (hv : v ≠ 0)
    (h : ∀ j, E' j = if j = i then v else E j) : usedOf E' = usedOf E := by
  rw [usedOf, usedOf]
  congr 1
  refine Finset.filter_congr (fun j _ => ?_)
  by_cases hj : j = i
  · subst hj
    simp [h, hv, h0]
  · simp [h, hj]

/-- Clearing an entry in use. -/
theorem usedOf_clear {E E' : Nat → Nat} {i : Nat} (hi : i < 64) (h0 : E i ≠ 0)
    (h : ∀ j, E' j = if j = i then 0 else E j) : usedOf E' + 1 = usedOf E := by
  refine (usedOf_set (E := E') hi (by rw [h, if_pos rfl]) h0 (fun j => ?_)).symm
  by_cases hj : j = i
  · rw [if_pos hj, hj]
  · rw [if_neg hj, h, if_neg hj]

/-! ## 2. The shape of a tree -/

structure Shape (ex : Prop) (A : PgTree) : Prop where
  range : ∀ r T, A.tbl (.lvl2 r) = some T → r < 256
  topTbl : ∀ r T, A.tbl (.lvl2 r) = some T → A.top r = srmmuPtd T
  topNone : ∀ r < 256, A.tbl (.lvl2 r) = none → A.top r = 0 ∨ isPtEntry (A.top r) = true
  midTbl : ∀ q U, A.tbl (.lvl3 q) = some U →
    A.tbl (.lvl2 (q / 64)) ≠ none ∧ A.ent (.lvl2 (q / 64)) (q % 64) = srmmuPtd U
  midNone : ∀ q, A.tbl (.lvl2 (q / 64)) ≠ none → A.tbl (.lvl3 q) = none →
    A.ent (.lvl2 (q / 64)) (q % 64) = 0
  leaf : ∀ q U, A.tbl (.lvl3 q) = some U → ∀ i < 64,
    A.ent (.lvl3 q) i = 0 ∨ isPtEntry (A.ent (.lvl3 q) i) = true
  cnt2 : ∀ r T, A.tbl (.lvl2 r) = some T → A.cnt (.lvl2 r) = usedOf (A.ent (.lvl2 r))
  cnt3 : ∀ q U, A.tbl (.lvl3 q) = some U → A.cnt (.lvl3 q) < 2 ^ 32 ∧
    usedOf (A.ent (.lvl3 q)) ≤ A.cnt (.lvl3 q) ∧ (ex → A.cnt (.lvl3 q) = usedOf (A.ent (.lvl3 q)))

/-- Every buffer that was not given back belongs to a table of the tree. -/
def Owned (s : Srmmu) (A : PgTree) : Prop :=
  ∀ b ∈ s.heap, ∃ k T, A.tbl k = some T ∧ b.1 + 8 ≤ T ∧ T < b.1 + 256

/-- No level 3 table has a count of zero. -/
def PgTree.Counted (A : PgTree) : Prop :=
  ∀ q U, A.tbl (.lvl3 q) = some U → 0 < A.cnt (.lvl3 q)

/-- The memory holds a well-formed tree. -/
structure Good (ex : Prop) (s : Srmmu) (lvl1 : Nat) (A : PgTree) : Prop where
  rep : Rep s lvl1 A
  shape : Shape ex A
  counted : A.Counted
  owned : ex → Owned s A

namespace PgTree

/-- The entry of a small page, zero where no table holds one. -/
def page (A : PgTree) (p : Nat) : Nat :=
  match A.tbl (.lvl3 (p / 64)) with
  | none => 0
  | some _ => A.ent (.lvl3 (p / 64)) (p % 64)

/-- The entry of a large page, zero where level 1 holds none. -/
def large (A : PgTree) (r : Nat) : Nat := if isPtEntry (A.top r) then A.top r else 0

theorem page_of_none {A : PgTree} {p : Nat} (h : A.tbl (.lvl3 (p / 64)) = none) : A.page p = 0 := by
  rw [page, h]

theorem page_of_some {A : PgTree} {p U : Nat} (h : A.tbl (.lvl3 (p / 64)) = some U) :
    A.page p = A.ent (.lvl3 (p / 64)) (p % 64) := by
  rw [page, h]

end PgTree

/-! ## 3. Lookups -/

section Lookup

variable {ex : Prop} {s : Srmmu} {lvl1 : Nat} {A : PgTree} {va : Nat}

theorem Shape.top_ne (h : Shape ex A) {r T : Nat} (hr : A.tbl (.lvl2 r) = some T) (a : 256 ∣ T)
    (b : T < 2 ^ 32) : isPtEntry (A.top r) = false ∧ A.top r ≠ 0 ∧ srmmuPtdToAddr (A.top r) = T := by
  rw [h.topTbl r T hr]
  exact srmmuPtd_spec a b

theorem Rep.lt (h : Rep s lvl1 A) {k : TblKey} {T : Nat} (hk : A.tbl k = some T) : T < 2 ^ 32 := by
  have := h.bounds hk
  omega

/-- The lookup of a level 2 table that an entry of level 1 leads to. -/
theorem Rep.findTblLvl2 (h : Rep s lvl1 A) {T : Nat} (hva : va < 2 ^ 32)
    (hT : A.tbl (.lvl2 (va / 2 ^ 24)) = some T) (htop : A.top (va / 2 ^ 24) = srmmuPtd T) :
    mmuFindTblLvl2 s lvl1 va = T := by
  have hr : va / 2 ^ 24 < 256 := by omega
  have hoff : srmmuLvl1GetTblOffset va = va / 2 ^ 24 := Nat.mod_eq_of_lt hr
  obtain ⟨h1, h2, h3⟩ := srmmuPtd_spec (h.tbl _ T hT).aligned (h.lt hT)
  rw [mmuFindTblLvl2, hoff, h.entry_top hr, htop]
  simp [h1, h2, h3]

theorem Good.findTblLvl2 (h : Good ex s lvl1 A) (hva : va < 2 ^ 32) :
    mmuFindTblLvl2 s lvl1 va = (A.tbl (.lvl2 (va / 2 ^ 24))).getD 0 := by
  have hr : va / 2 ^ 24 < 256 := by omega
  cases hT : A.tbl (.lvl2 (va / 2 ^ 24)) with
  | some T => exact h.rep.findTblLvl2 hva hT (h.shape.topTbl _ T hT)
  | none =>
    have hoff : srmmuLvl1GetTblOffset va = va / 2 ^ 24 := Nat.mod_eq_of_lt hr
    rw [mmuFindTblLvl2, hoff, h.rep.entry_top hr]
    rcases h.shape.topNone _ hr hT with h0 | hpt
    · rw [h0]
      rfl
    · exact if_pos hpt

/-- The lookup of a level 3 table that an entry of level 2 leads to. -/
theorem Rep.findTblLvl3 (h : Rep s lvl1 A) {T U : Nat} (hva : va < 2 ^ 32)
    (hT : A.tbl (.lvl2 (va / 2 ^ 24)) = some T) (htop : A.top (va / 2 ^ 24) = srmmuPtd T)
    (hU : A.tbl (.lvl3 (va / 2 ^ 18)) = some U)
    (hmid : A.ent (.lvl2 (va / 2 ^ 24)) (va / 2 ^ 18 % 64) = srmmuPtd U) :
    mmuFindTblLvl3 s lvl1 va = U := by
  have hT0 : T ≠ 0 := by
    have := h.bounds hT
    omega
  obtain ⟨h1, h2, h3⟩ := srmmuPtd_spec (h.tbl _ U hU).aligned (h.lt hU)
  have hent : s.entry T (srmmuLvl2GetTblOffset va) = srmmuPtd U :=
    (h.entry_eq hT (Nat.mod_lt _ (by norm_num))).trans hmid
  simp only [mmuFindTblLvl3, h.findTblLvl2 hva hT htop, hent, h1, h2, h3, if_neg hT0, if_false,
    Bool.false_eq_true]

/-- A level 3 table is found, also while its count is still zero. -/
theorem Rep.findLeaf (h : Rep s lvl1 A) (hs : Shape ex A) {U : Nat} (hva : va < 2 ^ 32)
    (hU : A.tbl (.lvl3 (va / 2 ^ 18)) = some U) : mmuFindTblLvl3 s lvl1 va = U := by
  have hq : va / 2 ^ 18 / 64 = va / 2 ^ 24 := by omega
  obtain ⟨hne, hmid⟩ := hs.midTbl _ U hU
  rw [hq] at hne hmid
  obtain ⟨T, hT⟩ := Option.ne_none_iff_exists'.mp hne
  exact h.findTblLvl3 hva hT (hs.topTbl _ T hT) hU hmid

theorem Good.findTblLvl3 (h : Good ex s lvl1 A) (hva : va < 2 ^ 32) :
    mmuFindTblLvl3 s lvl1 va = (A.tbl (.lvl3 (va / 2 ^ 18))).getD 0 := by
  have hq : va / 2 ^ 18 / 64 = va / 2 ^ 24 := by omega
  cases hU : A.tbl (.lvl3 (va / 2 ^ 18)) with
  | some U => exact h.rep.findLeaf h.shape hva hU
  | none =>
    rw [mmuFindTblLvl3, h.findTblLvl2 hva]
    cases hT : A.tbl (.lvl2 (va / 2 ^ 24)) with
    | none => simp
    | some T =>
      have hT0 : T ≠ 0 := by
        have := h.rep.bounds hT
        omega
      have hmid := h.shape.midNone (va / 2 ^ 18) (by rw [hq, hT]; simp) hU
      rw [hq] at hmid
      have hent : s.entry T (srmmuLvl2GetTblOffset va) = 0 :=
        (h.rep.entry_eq hT (Nat.mod_lt _ (by norm_num))).trans hmid
      simp only [Option.getD_some, Option.getD_none, if_neg hT0, hent]
      rfl

/-- **What `srmmu_get_pa_page` reads.** -/
theorem Good.getPaPage (h : Good ex s lvl1 A) (hva : va < 2 ^ 32) :
    getPaPage s lvl1 va = srmmuPteToAddr (A.page (va / 2 ^ 12)) := by
  have hq : va / 2 ^ 12 / 64 = va / 2 ^ 18 := by omega
  rw [FlightOs.getPaPage, h.findTblLvl3 hva]
  cases hU : A.tbl (.lvl3 (va / 2 ^ 18)) with
  | none =>
    rw [PgTree.page_of_none (hq ▸ hU)]
    rfl
  | some U =>
    have hU0 : U ≠ 0 := by
      have := h.rep.bounds hU
      omega
    rw [PgTree.page_of_some (hq ▸ hU), hq]
    simp only [Option.getD_some, if_neg hU0]
    exact congrArg srmmuPteToAddr (h.rep.entry_eq hU (Nat.mod_lt _ (by norm_num)))

end Lookup

/-! ## 4. Changes made by a mapping -/

namespace PgTree

/-- A new table of level 2, linked. -/
def addMid (A : PgTree) (r T : Nat) : PgTree := (A.addTbl (.lvl2 r) T).setTop r (srmmuPtd T)

/-- A new table of level 3, linked and counted. -/
def addLeaf (A : PgTree) (q U : Nat) : PgTree :=
  ((A.addTbl (.lvl3 q) U).setEnt (.lvl2 (q / 64)) (q % 64) (srmmuPtd U)).setCnt (.lvl2 (q / 64))
    (A.cnt (.lvl2 (q / 64)) + 1)

/-- An entry for a small page, counted. -/
def putPage (A : PgTree) (p v : Nat) : PgTree :=
  (A.setEnt (.lvl3 (p / 64)) (p % 64) v).setCnt (.lvl3 (p / 64)) (A.cnt (.lvl3 (p / 64)) + 1)

/-- An entry for a large page, in the place of whatever the region had. -/
def putLarge (A : PgTree) (r v : Nat) : PgTree :=
  { A.setTop r v with
    tbl := fun
      | .lvl2 r' => if r' = r then none else A.tbl (.lvl2 r')
      | .lvl3 q => if q / 64 = r then none else A.tbl (.lvl3 q) }

/-- A small page released from a table that stays. -/
def clearPage (A : PgTree) (p : Nat) : PgTree :=
  (A.setEnt (.lvl3 (p / 64)) (p % 64) 0).setCnt (.lvl3 (p / 64)) (A.cnt (.lvl3 (p / 64)) - 1)

/-- A table of level 3 taken out. -/
def dropLeaf (A : PgTree) (q : Nat) : PgTree :=
  ((A.setTbl (.lvl3 q) none).setEnt (.lvl2 (q / 64)) (q % 64) 0).setCnt (.lvl2 (q / 64))
    (A.cnt (.lvl2 (q / 64)) - 1)

/-- A table of level 2 taken out. -/
def dropMid (A : PgTree) (r : Nat) : PgTree := (A.setTbl (.lvl2 r) none).setTop r 0

variable {A : PgTree} {r q p v T U : Nat}

/-! ### What each change does at level 2 and at level 3 -/

theorem addMid_mid (r' : Nat) :
    (A.addMid r T).tbl (.lvl2 r') = (if r' = r then some T else A.tbl (.lvl2 r')) ∧
    (A.addMid r T).cnt (.lvl2 r') = (if r' = r then 0 else A.cnt (.lvl2 r')) ∧
    (A.addMid r T).top r' = (if r' = r then srmmuPtd T else A.top r') ∧
    ∀ i, (A.addMid r T).ent (.lvl2 r') i = if r' = r then 0 else A.ent (.lvl2 r') i := by
  simp only [addMid, addTbl, setTop, Function.update_apply, TblKey.lvl2.injEq, true_and]
  split <;> simp

theorem addMid_leaf (q : Nat) : (A.addMid r T).tbl (.lvl3 q) = A.tbl (.lvl3 q) ∧
    (A.addMid r T).cnt (.lvl3 q) = A.cnt (.lvl3 q) ∧
    (A.addMid r T).ent (.lvl3 q) = A.ent (.lvl3 q) := by
  simp [addMid, addTbl, setTop]

theorem addLeaf_mid (r : Nat) : (A.addLeaf q U).tbl (.lvl2 r) = A.tbl (.lvl2 r) ∧
    (A.addLeaf q U).cnt (.lvl2 r) =
      (if r = q / 64 then A.cnt (.lvl2 r) + 1 else A.cnt (.lvl2 r)) ∧
    (A.addLeaf q U).top r = A.top r ∧
    ∀ i, (A.addLeaf q U).ent (.lvl2 r) i =
      if r = q / 64 ∧ i = q % 64 then srmmuPtd U else A.ent (.lvl2 r) i := by
  simp only [addLeaf, addTbl, setEnt, setCnt, Function.update_apply]
  grind

theorem addLeaf_leaf (q' : Nat) :
    (A.addLeaf q U).tbl (.lvl3 q') = (if q' = q then some U else A.tbl (.lvl3 q')) ∧
    (A.addLeaf q U).cnt (.lvl3 q') = (if q' = q then 0 else A.cnt (.lvl3 q')) ∧
    ∀ i, (A.addLeaf q U).ent (.lvl3 q') i = if q' = q then 0 else A.ent (.lvl3 q') i := by
  by_cases h : q' = q
  · subst h
    simp [addLeaf, addTbl, setEnt, setCnt]
  · simp [addLeaf, addTbl, setEnt, setCnt, h]

theorem putPage_mid (r : Nat) : (A.putPage p v).tbl (.lvl2 r) = A.tbl (.lvl2 r) ∧
    (A.putPage p v).cnt (.lvl2 r) = A.cnt (.lvl2 r) ∧
    (A.putPage p v).top r = A.top r ∧
    (A.putPage p v).ent (.lvl2 r) = A.ent (.lvl2 r) := by
  simp [putPage, setEnt, setCnt]

theorem putPage_leaf (q : Nat) : (A.putPage p v).tbl (.lvl3 q) = A.tbl (.lvl3 q) ∧
    (A.putPage p v).cnt (.lvl3 q) =
      (if q = p / 64 then A.cnt (.lvl3 q) + 1 else A.cnt (.lvl3 q)) ∧
    ∀ i, (A.putPage p v).ent (.lvl3 q) i =
      if q = p / 64 ∧ i = p % 64 then v else A.ent (.lvl3 q) i := by
  simp only [putPage, setEnt, setCnt, Function.update_apply]
  grind

theorem clearPage_mid (r : Nat) : (A.clearPage p).tbl (.lvl2 r) = A.tbl (.lvl2 r) ∧
    (A.clearPage p).cnt (.lvl2 r) = A.cnt (.lvl2 r) ∧
    (A.clearPage p).top r = A.top r ∧
    (A.clearPage p).ent (.lvl2 r) = A.ent (.lvl2 r) := by
  simp [clearPage, setEnt, setCnt]

theorem clearPage_leaf (q : Nat) : (A.clearPage p).tbl (.lvl3 q) = A.tbl (.lvl3 q) ∧
    (A.clearPage p).cnt (.lvl3 q) =
      (if q = p / 64 then A.cnt (.lvl3 q) - 1 else A.cnt (.lvl3 q)) ∧
    ∀ i, (A.clearPage p).ent (.lvl3 q) i =
      if q = p / 64 ∧ i = p % 64 then 0 else A.ent (.lvl3 q) i := by
  simp only [clearPage, setEnt, setCnt, Function.update_apply]
  grind

theorem dropLeaf_mid (r : Nat) : (A.dropLeaf q).tbl (.lvl2 r) = A.tbl (.lvl2 r) ∧
    (A.dropLeaf q).cnt (.lvl2 r) =
      (if r = q / 64 then A.cnt (.lvl2 r) - 1 else A.cnt (.lvl2 r)) ∧
    (A.dropLeaf q).top r = A.top r ∧
    ∀ i, (A.dropLeaf q).ent (.lvl2 r) i =
      if r = q / 64 ∧ i = q % 64 then 0 else A.ent (.lvl2 r) i := by
  simp only [dropLeaf, setTbl, setEnt, setCnt, Function.update_apply]
  grind

theorem dropLeaf_leaf (q' : Nat) :
    (A.dropLeaf q).tbl (.lvl3 q') = (if q' = q then none else A.tbl (.lvl3 q')) ∧
    (A.dropLeaf q).cnt (.lvl3 q') = A.cnt (.lvl3 q') ∧
    (A.dropLeaf q).ent (.lvl3 q') = A.ent (.lvl3 q') := by
  by_cases h : q' = q
  · subst h
    simp [dropLeaf, setTbl, setEnt, setCnt]
  · simp [dropLeaf, setTbl, setEnt, setCnt, h]

theorem dropMid_mid (r' : Nat) :
    (A.dropMid r).tbl (.lvl2 r') = (if r' = r then none else A.tbl (.lvl2 r')) ∧
    (A.dropMid r).cnt (.lvl2 r') = A.cnt (.lvl2 r') ∧
    (A.dropMid r).top r' = (if r' = r then 0 else A.top r') ∧
    (A.dropMid r).ent (.lvl2 r') = A.ent (.lvl2 r') := by
  simp [dropMid, setTbl, setTop, Function.update_apply]

theorem dropMid_leaf (q : Nat) : (A.dropMid r).tbl (.lvl3 q) = A.tbl (.lvl3 q) ∧
    (A.dropMid r).cnt (.lvl3 q) = A.cnt (.lvl3 q) ∧
    (A.dropMid r).ent (.lvl3 q) = A.ent (.lvl3 q) := by
  simp [dropMid, setTbl, setTop]

end PgTree

/-! ### Each change keeps the shape -/

section Keep

variable {ex : Prop} {A : PgTree} {r q p v T U : Nat}

theorem Shape.addMid (h : Shape ex A) (hr : r < 256) (hnone : A.tbl (.lvl2 r) = none) :
    Shape ex (A.addMid r T) := by
  have hm := A.addMid_mid (r := r) (T := T)
  have hl := A.addMid_leaf (r := r) (T := T)
  obtain ⟨h1, h2, h3, h4, h5, h6, h7, h8⟩ := h
  constructor
  case cnt2 =>
    intro r' T' hT'
    by_cases e : r' = r
    · rw [(hm r').2.1, if_pos e, eq_comm, usedOf_eq_zero_iff]
      intro i _
      rw [(hm r').2.2.2, if_pos e]
    · have hent : usedOf ((A.addMid r T).ent (.lvl2 r')) = usedOf (A.ent (.lvl2 r')) :=
        usedOf_congr (fun i _ => by rw [(hm r').2.2.2, if_neg e])
      rw [(hm r').2.1, if_neg e, hent]
      exact h7 r' T' (by rwa [(hm r').1, if_neg e] at hT')
  all_goals grind

theorem Shape.addLeaf (h : Shape ex A) (hmid : A.tbl (.lvl2 (q / 64)) ≠ none)
    (hnone : A.tbl (.lvl3 q) = none) (hU : srmmuPtd U ≠ 0) : Shape ex (A.addLeaf q U) := by
  have h0 := h.midNone q hmid hnone
  have hm := A.addLeaf_mid (q := q) (U := U)
  have hl := A.addLeaf_leaf (q := q) (U := U)
  obtain ⟨h1, h2, h3, h4, h5, h6, h7, h8⟩ := h
  constructor
  case cnt2 =>
    intro r T' hT'
    have hcnt := h7 r T' ((hm r).1 ▸ hT')
    by_cases e : r = q / 64
    · subst e
      rw [(hm _).2.1, if_pos rfl, hcnt]
      refine (usedOf_set (Nat.mod_lt q (by norm_num)) h0 hU (fun j => ?_)).symm
      rw [(hm _).2.2.2]
      simp
    · rw [(hm r).2.1, if_neg e, hcnt]
      exact usedOf_congr (fun i _ => by rw [(hm r).2.2.2, if_neg (fun e' => e e'.1)])
  case cnt3 =>
    intro q' U' hU'
    by_cases e : q' = q
    · have hz : usedOf ((A.addLeaf q U).ent (.lvl3 q')) = 0 :=
        usedOf_eq_zero_iff.mpr (fun i _ => by rw [(hl q').2.2, if_pos e])
      rw [(hl q').2.1, if_pos e, hz]
      exact ⟨by norm_num, le_rfl, fun _ => rfl⟩
    · have hent : usedOf ((A.addLeaf q U).ent (.lvl3 q')) = usedOf (A.ent (.lvl3 q')) :=
        usedOf_congr (fun i _ => by rw [(hl q').2.2, if_neg e])
      rw [(hl q').2.1, if_neg e, hent]
      exact h8 q' U' (by rwa [(hl q').1, if_neg e] at hU')
  all_goals grind

theorem Shape.putPage (h : Shape ex A) (hU : A.tbl (.lvl3 (p / 64)) = some U)
    (hcnt : A.cnt (.lvl3 (p / 64)) + 1 < 2 ^ 32) (hv : isPtEntry v = true)
    (hex : ex → A.ent (.lvl3 (p / 64)) (p % 64) = 0) : Shape ex (A.putPage p v) := by
  have hm := A.putPage_mid (p := p) (v := v)
  have hl := A.putPage_leaf (p := p) (v := v)
  have hv0 := ne_zero_of_isPtEntry hv
  have hp : p % 64 < 64 := Nat.mod_lt p (by norm_num)
  have h8 := h.cnt3
  constructor
  case cnt3 =>
    intro q U' hU'
    obtain ⟨hlt, hle, heq⟩ := h8 q U' ((hl q).1 ▸ hU')
    by_cases e : q = p / 64
    · subst e
      have hupd : ∀ j, (A.putPage p v).ent (.lvl3 (p / 64)) j =
          if j = p % 64 then v else A.ent (.lvl3 (p / 64)) j := by
        intro j
        rw [(hl _).2.2]
        simp
      rw [(hl _).2.1, if_pos rfl]
      by_cases h0 : A.ent (.lvl3 (p / 64)) (p % 64) = 0
      · rw [usedOf_set hp h0 hv0 hupd]
        exact ⟨hcnt, by omega, fun hx => by rw [heq hx]⟩
      · rw [usedOf_reset h0 hv0 hupd]
        exact ⟨hcnt, by omega, fun hx => absurd (hex hx) h0⟩
    · have hent : usedOf ((A.putPage p v).ent (.lvl3 q)) = usedOf (A.ent (.lvl3 q)) :=
        usedOf_congr (fun i _ => by rw [(hl q).2.2, if_neg (fun e' => e e'.1)])
      rw [(hl q).2.1, if_neg e, hent]
      exact ⟨hlt, hle, heq⟩
  all_goals
    obtain ⟨h1, h2, h3, h4, h5, h6, h7, -⟩ := h
    grind

/-- A large page may take the place of a whole subtree. -/
theorem Shape.putLarge (h : Shape ex A) (hv : isPtEntry v = true) :
    Shape ex (A.putLarge r v) := by
  obtain ⟨h1, h2, h3, h4, h5, h6, h7, h8⟩ := h
  constructor <;> simp only [PgTree.putLarge, PgTree.setTop, Function.update_apply] <;> grind

theorem Shape.clearPage (h : Shape ex A) (hne : A.ent (.lvl3 (p / 64)) (p % 64) ≠ 0) :
    Shape ex (A.clearPage p) := by
  have hm := A.clearPage_mid (p := p)
  have hl := A.clearPage_leaf (p := p)
  have hp : p % 64 < 64 := Nat.mod_lt p (by norm_num)
  have h8 := h.cnt3
  constructor
  case cnt3 =>
    intro q U hU
    obtain ⟨hlt, hle, heq⟩ := h8 q U ((hl q).1 ▸ hU)
    by_cases e : q = p / 64
    · subst e
      have hupd : usedOf ((A.clearPage p).ent (.lvl3 (p / 64))) + 1 =
          usedOf (A.ent (.lvl3 (p / 64))) :=
        usedOf_clear hp hne (fun j => by rw [(hl _).2.2]; simp)
      rw [(hl _).2.1, if_pos rfl]
      exact ⟨by omega, by omega, fun hx => by rw [heq hx]; omega⟩
    · have hent : usedOf ((A.clearPage p).ent (.lvl3 q)) = usedOf (A.ent (.lvl3 q)) :=
        usedOf_congr (fun i _ => by rw [(hl q).2.2, if_neg (fun e' => e e'.1)])
      rw [(hl q).2.1, if_neg e, hent]
      exact ⟨hlt, hle, heq⟩
  all_goals
    obtain ⟨h1, h2, h3, h4, h5, h6, h7, -⟩ := h
    grind

theorem Shape.dropLeaf (h : Shape ex A) (hne : A.ent (.lvl2 (q / 64)) (q % 64) ≠ 0) :
    Shape ex (A.dropLeaf q) := by
  have hm := A.dropLeaf_mid (q := q)
  have hl := A.dropLeaf_leaf (q := q)
  have h7 := h.cnt2
  constructor
  case cnt2 =>
    intro r T hT
    have hcnt := h7 r T ((hm r).1 ▸ hT)
    by_cases e : r = q / 64
    · subst e
      have hupd : usedOf ((A.dropLeaf q).ent (.lvl2 (q / 64))) + 1 =
          usedOf (A.ent (.lvl2 (q / 64))) :=
        usedOf_clear (Nat.mod_lt q (by norm_num)) hne (fun j => by rw [(hm _).2.2.2]; simp)
      rw [(hm _).2.1, if_pos rfl, hcnt]
      omega
    · rw [(hm r).2.1, if_neg e, hcnt]
      exact usedOf_congr (fun i _ => by rw [(hm r).2.2.2, if_neg (fun e' => e e'.1)])
  all_goals
    obtain ⟨h1, h2, h3, h4, h5, h6, -, h8⟩ := h
    grind

theorem Shape.dropMid (h : Shape ex A) (hnone : ∀ q, q / 64 = r → A.tbl (.lvl3 q) = none) :
    Shape ex (A.dropMid r) := by
  have hm := A.dropMid_mid (r := r)
  have hl := A.dropMid_leaf (r := r)
  obtain ⟨h1, h2, h3, h4, h5, h6, h7, h8⟩ := h
  constructor <;> grind

end Keep

end FlightOs
