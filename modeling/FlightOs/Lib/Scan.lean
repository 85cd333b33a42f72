/-
# Scans of a list

Three ways to go through a list once, and what is left of the loop when it is over.

* A scan that keeps the first of the greatest elements (`firstMax`): `firstMax_iff` is what it returns.
* One that leaves out some numbers, and starts with a least key (`bestBelow`): `bestBelow_iff`.
* A scan that stops at the first element that does not pass, where it may depend on those before it
  whether one does: every element passes in its turn (`AllInTurn`), or there is a first that does not
  (`FirstInTurn`).
-/
import Mathlib.Order.Lattice
import Mathlib.Tactic.Common

namespace FlightOs

variable {α β : Type}

/-! ## 1. The first of the greatest -/

section Greatest

variable [LinearOrder β] (key : α → β)

/-- The first of the elements with the greatest key. -/
def firstMax (a : α) (L : List α) : α := L.foldl (fun m x => if key m < key x then x else m) a

theorem firstMax_cons (a x : α) (L : List α) :
    firstMax key a (x :: L) = firstMax key (if key a < key x then x else a) L := rfl

/-- **The first of the greatest** is an element that those before are less than, and those behind not
greater. -/
theorem firstMax_spec (a : α) (L : List α) :
    ∃ pre post, a :: L = pre ++ firstMax key a L :: post ∧
      (∀ x ∈ pre, key x < key (firstMax key a L)) ∧ ∀ x ∈ post, key x ≤ key (firstMax key a L) := by
  induction L generalizing a with
  | nil => exact ⟨[], [], rfl, by simp, by simp⟩
  | cons x L ih =>
    rw [firstMax_cons]
    by_cases hlt : key a < key x
    · rw [if_pos hlt]
      obtain ⟨pre, post, heq, hpre, hpost⟩ := ih x
      refine ⟨a :: pre, post, congrArg (a :: ·) heq, ?_, hpost⟩
      refine List.forall_mem_cons.mpr ⟨?_, hpre⟩
      -- `x` is the result, or less than it
      rcases List.mem_append.mp (heq ▸ List.mem_cons_self : x ∈ pre ++ _ :: post) with hx | hx
      · exact lt_trans hlt (hpre x hx)
      · rcases List.mem_cons.mp hx with hx | hx
        · rwa [← hx]
        · exact lt_of_lt_of_le hlt (hpost x hx)
    · rw [if_neg hlt]
      obtain ⟨pre, post, heq, hpre, hpost⟩ := ih a
      cases pre with
      | nil =>
        obtain ⟨ha, hL⟩ := List.cons_eq_cons.mp heq
        refine ⟨[], x :: L, congrArg (· :: x :: L) ha, by simp, ?_⟩
        rw [← ha] at hpost ⊢
        rw [hL]
        exact List.forall_mem_cons.mpr ⟨not_lt.mp hlt, hpost⟩
      | cons y pre =>
        obtain ⟨hy, hL⟩ := List.cons_eq_cons.mp heq
        obtain ⟨ha, hpre⟩ := List.forall_mem_cons.mp hpre
        rw [← hy] at ha
        refine ⟨a :: x :: pre, post, congrArg (a :: x :: ·) hL, ?_, hpost⟩
        refine List.forall_mem_cons.mpr ⟨ha, List.forall_mem_cons.mpr ⟨?_, hpre⟩⟩
        exact lt_of_le_of_lt (not_lt.mp hlt) ha

theorem firstMax_mem (a : α) (L : List α) : firstMax key a L ∈ a :: L := by
  obtain ⟨pre, post, heq, -⟩ := firstMax_spec key a L
  rw [heq]
  exact List.mem_append_right _ List.mem_cons_self

theorem le_firstMax (a : α) (L : List α) : ∀ x ∈ a :: L, key x ≤ key (firstMax key a L) := by
  obtain ⟨pre, post, heq, hpre, hpost⟩ := firstMax_spec key a L
  intro x hx
  rcases List.mem_append.mp (heq ▸ hx) with hx | hx
  · exact le_of_lt (hpre x hx)
  · rcases List.mem_cons.mp hx with hx | hx
    · rw [← hx]
    · exact hpost x hx

variable {key}

/-- There is one such element. -/
theorem firstMax_unique {m m' : α} {pre post pre' post' : List α}
    (heq : pre ++ m :: post = pre' ++ m' :: post')
    (hpre : ∀ x ∈ pre, key x < key m) (hpost : ∀ x ∈ post, key x ≤ key m)
    (hpre' : ∀ x ∈ pre', key x < key m') (hpost' : ∀ x ∈ post', key x ≤ key m') : m = m' := by
  rcases List.append_eq_append_iff.mp heq with ⟨as, rfl, hrest⟩ | ⟨bs, rfl, hrest⟩
  · cases as with
    | nil => exact (List.cons_eq_cons.mp hrest).1
    | cons x as =>
      obtain ⟨rfl, rfl⟩ := List.cons_eq_cons.mp hrest
      exact absurd (hpre' m (by simp)) (not_lt.mpr (hpost m' (by simp)))
  · cases bs with
    | nil => exact (List.cons_eq_cons.mp hrest).1.symm
    | cons x bs =>
      obtain ⟨rfl, rfl⟩ := List.cons_eq_cons.mp hrest
      exact absurd (hpre m' (by simp)) (not_lt.mpr (hpost' m (by simp)))

theorem firstMax_iff {a m : α} {L : List α} : firstMax key a L = m ↔
    ∃ pre post, a :: L = pre ++ m :: post ∧ (∀ x ∈ pre, key x < key m) ∧
      ∀ x ∈ post, key x ≤ key m := by
  constructor
  · rintro rfl
    exact firstMax_spec key a L
  · rintro ⟨pre, post, heq, hpre, hpost⟩
    obtain ⟨pre', post', heq', hpre', hpost'⟩ := firstMax_spec key a L
    exact firstMax_unique (heq'.symm.trans heq) hpre' hpost' hpre hpost

end Greatest

/-! ## 2. The best of those that are allowed -/

section Best

variable [LinearOrder β] (full : Nat → Prop) [DecidablePred full] (key : Nat → β) (least : β)

/-- The first number with the greatest key of those below `n` that are allowed, if the key is more than
the least one; and the key. -/
def bestBelow (n : Nat) : Option Nat × β :=
  (List.range n).foldl (fun best i =>
    if full i then best else if best.2 < key i then (some i, key i) else best) (none, least)

theorem bestBelow_succ (n : Nat) : bestBelow full key least (n + 1) =
    if full n then bestBelow full key least n
    else if (bestBelow full key least n).2 < key n then (some n, key n)
    else bestBelow full key least n := by
  rw [bestBelow, List.range_succ, List.foldl_append, List.foldl_cons, List.foldl_nil]
  rfl

variable {full key least}

/-- No key is greater; and there is nothing yet, or the first number with this key. -/
theorem bestBelow_spec (n : Nat) :
    (∀ i < n, ¬ full i → key i ≤ (bestBelow full key least n).2) ∧
      (bestBelow full key least n = (none, least) ∨
        ∃ c < n, bestBelow full key least n = (some c, key c) ∧ least < key c ∧ ¬ full c ∧
          ∀ i < c, ¬ full i → key i < key c) := by
  induction n with
  | zero => exact ⟨fun i hi => absurd hi (Nat.not_lt_zero i), .inl rfl⟩
  | succ n ih =>
    rw [bestBelow_succ]
    obtain ⟨hmax, hbest⟩ := ih
    -- what was found is kept
    have hkeep : (bestBelow full key least n = (none, least) ∨
        ∃ c < n + 1, bestBelow full key least n = (some c, key c) ∧ least < key c ∧ ¬ full c ∧
          ∀ i < c, ¬ full i → key i < key c) :=
      hbest.imp_right fun ⟨c, hc, h⟩ => ⟨c, Nat.lt_succ_of_lt hc, h⟩
    by_cases hfull : full n
    · rw [if_pos hfull]
      refine ⟨fun i hi hroom => ?_, hkeep⟩
      rcases Nat.lt_succ_iff_lt_or_eq.mp hi with hi | rfl
      · exact hmax i hi hroom
      · exact absurd hfull hroom
    rw [if_neg hfull]
    by_cases hmore : (bestBelow full key least n).2 < key n
    · rw [if_pos hmore]
      have hleast : least ≤ (bestBelow full key least n).2 := by
        rcases hbest with h | ⟨c, -, h, hlt, -⟩
        · rw [h]
        · rw [h]
          exact le_of_lt hlt
      refine ⟨fun i hi hroom => ?_, .inr ⟨n, Nat.lt_succ_self n, rfl, lt_of_le_of_lt hleast hmore, hfull,
        fun i hi hroom => lt_of_le_of_lt (hmax i hi hroom) hmore⟩⟩
      rcases Nat.lt_succ_iff_lt_or_eq.mp hi with hi | rfl
      · exact le_of_lt (lt_of_le_of_lt (hmax i hi hroom) hmore)
      · exact le_refl _
    · rw [if_neg hmore]
      refine ⟨fun i hi hroom => ?_, hkeep⟩
      rcases Nat.lt_succ_iff_lt_or_eq.mp hi with hi | rfl
      · exact hmax i hi hroom
      · exact not_lt.mp hmore

/-- **The number that is found** is the first of those with the greatest key. -/
theorem bestBelow_iff {n c : Nat} : (bestBelow full key least n).1 = some c ↔
    (c < n ∧ least < key c ∧ ¬ full c) ∧
      ∀ i < n, ¬ full i → key i ≤ key c ∧ (i < c → key i < key c) := by
  obtain ⟨hmax, hbest⟩ := @bestBelow_spec β _ full _ key least n
  constructor
  · intro h
    rcases hbest with hnone | ⟨d, hd, hsome, hleast, hroom, hfirst⟩
    · rw [hnone] at h
      cases h
    · rw [hsome] at h hmax
      obtain rfl := Option.some.inj h
      exact ⟨⟨hd, hleast, hroom⟩, fun i hi hi' => ⟨hmax i hi hi', fun hlt => hfirst i hlt hi'⟩⟩
  · rintro ⟨⟨hc, hleast, hroom⟩, hmost⟩
    have hle := hmax c hc hroom
    rcases hbest with hnone | ⟨d, hd, hsome, -, hdroom, hfirst⟩
    · rw [hnone] at hle
      exact absurd hleast (not_lt.mpr hle)
    · rw [hsome] at hle ⊢
      -- both are the first ones
      rcases Nat.lt_trichotomy d c with hlt | rfl | hlt
      · exact absurd ((hmost d hd hdroom).2 hlt) (not_lt.mpr hle)
      · rfl
      · exact absurd (hfirst c hlt hroom) (not_lt.mpr (hmost d hd hdroom).1)

end Best

/-! ## 3. One after the other -/

section Turn

variable {P : List α → α → Prop} {a : α} {L : List α}

/-- Every element passes, behind those before it. -/
def AllInTurn (P : List α → α → Prop) (L : List α) : Prop :=
  ∀ pre a post, L = pre ++ a :: post → P pre a

theorem allInTurn_nil : AllInTurn P [] := fun pre a post h =>
  absurd h (List.append_ne_nil_of_right_ne_nil pre (List.cons_ne_nil a post)).symm

theorem allInTurn_cons : AllInTurn P (a :: L) ↔ P [] a ∧ AllInTurn (fun pre => P (a :: pre)) L := by
  constructor
  · exact fun h => ⟨h [] a L rfl, fun pre b post heq => h (a :: pre) b post (congrArg (a :: ·) heq)⟩
  · rintro ⟨hfirst, hrest⟩ pre b post heq
    cases pre with
    | nil =>
      obtain ⟨rfl, rfl⟩ := List.cons_eq_cons.mp heq
      exact hfirst
    | cons c pre =>
      obtain ⟨rfl, hL⟩ := List.cons_eq_cons.mp heq
      exact hrest pre b post hL

/-- There is an element that is the first to be come to and to have a property, behind those that
passed. -/
def FirstInTurn (P Q : List α → α → Prop) (L : List α) : Prop :=
  ∃ pre a post, L = pre ++ a :: post ∧ AllInTurn P pre ∧ Q pre a

theorem firstInTurn_nil {Q : List α → α → Prop} : ¬ FirstInTurn P Q [] := by
  rintro ⟨pre, a, post, h, -⟩
  exact absurd h (List.append_ne_nil_of_right_ne_nil pre (List.cons_ne_nil a post)).symm

theorem firstInTurn_cons {Q : List α → α → Prop} : FirstInTurn P Q (a :: L) ↔
    Q [] a ∨ P [] a ∧ FirstInTurn (fun pre => P (a :: pre)) (fun pre => Q (a :: pre)) L := by
  constructor
  · rintro ⟨pre, b, post, heq, hpre, hb⟩
    cases pre with
    | nil =>
      obtain ⟨rfl, rfl⟩ := List.cons_eq_cons.mp heq
      exact .inl hb
    | cons c pre =>
      obtain ⟨rfl, hL⟩ := List.cons_eq_cons.mp heq
      obtain ⟨hfirst, hpre⟩ := allInTurn_cons.mp hpre
      exact .inr ⟨hfirst, pre, b, post, hL, hpre, hb⟩
  · rintro (h | ⟨hfirst, pre, b, post, heq, hpre, hb⟩)
    · exact ⟨[], a, L, rfl, allInTurn_nil, h⟩
    · exact ⟨a :: pre, b, post, congrArg (a :: ·) heq, allInTurn_cons.mpr ⟨hfirst, hpre⟩, hb⟩

end Turn

end FlightOs
