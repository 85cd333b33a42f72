/-
# Walks in strides

A walk over the numbers from `c` on, in spans of a fixed size.  Where a span holds something the
walk steps on to the start of the next span; where it holds nothing the walk adds the size, so
that it keeps the offset within a span that it began with.  `enter P c r` is the number at which
the walk that begins at `c` enters the span `r`, when `P` says which spans hold something, and
`Hit n P c e p` says that the walk from `c` up to `e` meets the number `p`.

`gather lo hi G` collects, in order, what `G` yields at the numbers from `lo` up to `hi`.
-/
import Mathlib.Data.List.Range
import Mathlib.Tactic.Common

namespace FlightOs

/-! ## 1. Where a walk enters a span -/

section Enter

variable {n : Nat} {P Q : Nat → Prop} [DecidablePred P] [DecidablePred Q] {c r : Nat}

/-- The number at which the walk from `c`, in spans of `n` numbers, enters the span `r`. -/
def enter (n : Nat) (P : Nat → Prop) [DecidablePred P] (c r : Nat) : Nat :=
  if ∃ r' < r, c / n ≤ r' ∧ P r' then n * r else n * r + c % n

theorem enter_of_exists (h : ∃ r' < r, c / n ≤ r' ∧ P r') : enter n P c r = n * r := if_pos h

theorem enter_of_not (h : ¬ ∃ r' < r, c / n ≤ r' ∧ P r') : enter n P c r = n * r + c % n :=
  if_neg h

theorem le_enter : n * r ≤ enter n P c r := by
  unfold enter
  split
  · exact Nat.le_refl _
  · exact Nat.le_add_right _ _

theorem enter_le : enter n P c r ≤ n * r + c % n := by
  unfold enter
  split
  · exact Nat.le_add_right _ _
  · exact Nat.le_refl _

/-- A walk is at its start when it enters the first span. -/
theorem enter_self : enter n P c (c / n) = c := by
  rw [enter_of_not, Nat.div_add_mod]
  rintro ⟨r', h1, h2, -⟩
  exact absurd h1 (not_lt.mpr h2)

/-- A walk that starts aligned stays aligned. -/
theorem enter_aligned (h : c % n = 0) : enter n P c r = n * r := by
  unfold enter
  rw [h, Nat.add_zero, ite_self]

/-- Only the spans on the way count. -/
theorem enter_congr (h : ∀ r', c / n ≤ r' → r' < r → (P r' ↔ Q r')) :
    enter n P c r = enter n Q c r := by
  have hiff : (∃ r' < r, c / n ≤ r' ∧ P r') ↔ ∃ r' < r, c / n ≤ r' ∧ Q r' := by
    refine exists_congr (fun r' => and_congr_right (fun h1 => and_congr_right (fun h2 => ?_)))
    exact h r' h2 h1
  unfold enter
  simp only [hiff]

/-- After a span that holds nothing the offset is kept. -/
theorem enter_skip (hn : 0 < n) (h : ¬ P (c / n)) :
    enter n P c r = enter n P (c + n) r := by
  have hdiv : (c + n) / n = c / n + 1 := Nat.add_div_right c hn
  have hmod : (c + n) % n = c % n := Nat.add_mod_right c n
  have hiff : (∃ r' < r, c / n ≤ r' ∧ P r') ↔ ∃ r' < r, (c + n) / n ≤ r' ∧ P r' := by
    rw [hdiv]
    constructor
    · rintro ⟨r', h1, h2, h3⟩
      rcases Nat.eq_or_lt_of_le h2 with rfl | hlt
      · exact absurd h3 h
      · exact ⟨r', h1, hlt, h3⟩
    · rintro ⟨r', h1, h2, h3⟩
      exact ⟨r', h1, Nat.le_of_succ_le h2, h3⟩
  unfold enter
  rw [hmod]
  simp only [hiff]

/-- After a span that holds something the walk is aligned. -/
theorem enter_after (h : P (c / n)) (hr : c / n < r) : enter n P c r = n * r :=
  enter_of_exists ⟨c / n, hr, Nat.le_refl _, h⟩

/-- The walk never goes back. -/
theorem le_of_enter (hn : 0 < n) (h : c / n ≤ r) : c ≤ enter n P c r := by
  have hc := Nat.div_add_mod c n
  rcases Nat.eq_or_lt_of_le h with rfl | hlt
  · exact enter_self.ge
  · have hmul : n * (c / n + 1) ≤ n * r := Nat.mul_le_mul_left n hlt
    have hmod := Nat.mod_lt c hn
    rw [Nat.mul_add, Nat.mul_one] at hmul
    exact le_trans (by omega) le_enter

end Enter

/-! ## 2. What a walk meets -/

section Hit

variable {n : Nat} {P Q : Nat → Prop} [DecidablePred P] [DecidablePred Q] {c e p : Nat}

/-- The walk from `c` up to `e` meets `p`: it enters the span of `p` no later than at `p`. -/
def Hit (n : Nat) (P : Nat → Prop) [DecidablePred P] (c e p : Nat) : Prop :=
  c ≤ p ∧ p < e ∧ enter n P c (p / n) ≤ p

instance : Decidable (Hit n P c e p) := inferInstanceAs (Decidable (_ ∧ _ ∧ _))

theorem Hit.congr (h : ∀ r, c / n ≤ r → r < p / n → (P r ↔ Q r)) :
    Hit n P c e p ↔ Hit n Q c e p := by
  rw [Hit, Hit, enter_congr h]

/-- A walk that starts aligned meets everything. -/
theorem hit_of_aligned (h : c % n = 0) : Hit n P c e p ↔ c ≤ p ∧ p < e := by
  rw [Hit, enter_aligned h]
  exact ⟨fun hh => ⟨hh.1, hh.2.1⟩, fun hh => ⟨hh.1, hh.2, Nat.mul_div_le p n⟩⟩

/-- So does a walk that starts in a span that holds something. -/
theorem hit_of_holds (h : P (c / n)) : Hit n P c e p ↔ c ≤ p ∧ p < e := by
  refine ⟨fun hh => ⟨hh.1, hh.2.1⟩, fun hh => ⟨hh.1, hh.2, ?_⟩⟩
  rcases Nat.eq_or_lt_of_le (Nat.div_le_div_right (c := n) hh.1) with he | hlt
  · rw [← he, enter_self]
    exact hh.1
  · rw [enter_after h hlt]
    exact Nat.mul_div_le p n

/-- A walk that starts in a span that holds nothing goes on at the same offset. -/
theorem hit_skip (hn : 0 < n) (h : ¬ P (c / n)) (hp : c + n ≤ p) :
    Hit n P c e p ↔ Hit n P (c + n) e p := by
  rw [Hit, Hit, enter_skip hn h]
  exact and_congr_left (fun _ => ⟨fun _ => hp, fun _ => (Nat.le_add_right c n).trans hp⟩)

/-- Before that it meets only the span that holds nothing. -/
theorem Hit.div_eq (hn : 0 < n) (hh : Hit n P c e p) (h : ¬ P (c / n)) (hp : p < c + n) :
    p / n = c / n := by
  obtain ⟨hcp, -, hent⟩ := hh
  have hle : p / n ≤ c / n + 1 := by
    rw [← Nat.add_div_right c hn]
    exact Nat.div_le_div_right hp.le
  rcases Nat.eq_or_lt_of_le (Nat.div_le_div_right (c := n) hcp) with he | hlt
  · exact he.symm
  · have hnext : p / n = (c + n) / n := by
      rw [Nat.add_div_right c hn]
      omega
    rw [enter_skip hn h, hnext, enter_self] at hent
    exact absurd hent (not_le.mpr hp)

end Hit

/-! ## 3. Collecting -/

section Gather

variable {α : Type} {lo mid hi : Nat} {G H : Nat → List α}

def gather (lo hi : Nat) (G : Nat → List α) : List α := (List.range' lo (hi - lo)).flatMap G

theorem gather_of_le (h : hi ≤ lo) : gather lo hi G = [] := by
  rw [gather, Nat.sub_eq_zero_of_le h]
  rfl

theorem gather_succ (h : lo < hi) : gather lo hi G = G lo ++ gather (lo + 1) hi G := by
  obtain ⟨k, hk⟩ : ∃ k, hi - lo = k + 1 := ⟨hi - lo - 1, by omega⟩
  have hk' : hi - (lo + 1) = k := by omega
  rw [gather, hk, List.range'_succ, List.flatMap_cons, gather, hk']

theorem gather_split (h1 : lo ≤ mid) (h2 : mid ≤ hi) :
    gather lo hi G = gather lo mid G ++ gather mid hi G := by
  have hsum : hi - lo = (mid - lo) + (hi - mid) := by omega
  have hmid : lo + (mid - lo) = mid := by omega
  rw [gather, gather, gather, hsum, ← List.range'_append_1, hmid, List.flatMap_append]

/-- Block by block. -/
theorem gather_blocks (k n : Nat) :
    gather 0 n (fun r => gather (k * r) (k * (r + 1)) G) = gather 0 (k * n) G := by
  induction n with
  | zero => rw [Nat.mul_zero, gather_of_le (Nat.le_refl 0), gather_of_le (Nat.le_refl 0)]
  | succ n ih =>
    have hk : k * n ≤ k * (n + 1) := Nat.mul_le_mul_left k (Nat.le_succ n)
    rw [gather_split (Nat.zero_le n) (Nat.le_succ n), ih, gather_succ (Nat.lt_succ_self n),
      gather_of_le (Nat.le_refl _), List.append_nil, ← gather_split (Nat.zero_le _) hk]

/-- A split that need not be in the range. -/
theorem gather_split_min (mid : Nat) (h : lo ≤ mid) :
    gather lo hi G = gather lo (min hi mid) G ++ gather mid hi G := by
  rcases Nat.le_total hi mid with hle | hle
  · rw [Nat.min_eq_left hle, gather_of_le hle, List.append_nil]
  · rw [Nat.min_eq_right hle]
    exact gather_split h hle

theorem gather_congr (h : ∀ p, lo ≤ p → p < hi → G p = H p) : gather lo hi G = gather lo hi H := by
  rw [gather, gather, List.flatMap_congr]
  intro p hp
  rw [List.mem_range'_1] at hp
  exact h p hp.1 (by omega)

theorem gather_eq_nil (h : ∀ p, lo ≤ p → p < hi → G p = []) : gather lo hi G = [] := by
  rw [gather, List.flatMap_eq_nil_iff]
  intro p hp
  rw [List.mem_range'_1] at hp
  exact h p hp.1 (by omega)

/-- A prefix that yields nothing may be left out, also one that runs past the end. -/
theorem gather_drop (h1 : lo ≤ mid) (h : ∀ p, lo ≤ p → p < mid → p < hi → G p = []) :
    gather lo hi G = gather mid hi G := by
  by_cases h2 : mid ≤ hi
  · rw [gather_split h1 h2, gather_eq_nil (fun p hp hp' => h p hp hp' (hp'.trans_le h2)),
      List.nil_append]
  · rw [gather_of_le (not_le.mp h2).le]
    exact gather_eq_nil (fun p hp hp' => h p hp (hp'.trans (not_le.mp h2)) hp')

/-- Only the part of the range that yields something counts. -/
theorem gather_clip {a b : Nat} (h1 : lo ≤ a) (h2 : b ≤ hi)
    (h : ∀ p, lo ≤ p → p < hi → ¬ (a ≤ p ∧ p < b) → G p = []) : gather lo hi G = gather a b G := by
  rw [gather_drop h1 (fun p hlo hp hhi => h p hlo hhi (fun hh => absurd hh.1 (not_le.mpr hp)))]
  have htail : ∀ p, a ≤ p → b ≤ p → p < hi → G p = [] := fun p hap hbp hp =>
    h p (h1.trans hap) hp (fun hh => absurd hh.2 (not_lt.mpr hbp))
  rcases Nat.lt_or_ge b a with hba | hab
  · rw [gather_of_le hba.le]
    exact gather_eq_nil (fun p hap hp => htail p hap (hba.le.trans hap) hp)
  · rw [gather_split hab h2, gather_eq_nil (fun p hbp hp => htail p (hab.trans hbp) hbp hp),
      List.append_nil]

end Gather

end FlightOs
