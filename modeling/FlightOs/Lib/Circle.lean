/-
# Walks that end

A walk goes from state to state as long as the relation `r` has a next one.  Where there are
finitely many states to come to, it ends if and only if it comes to none that leads back to itself
(`acc_iff_not_circles`).

A loop with fuel returns, for some fuel, if and only if the walk that it goes along ends
(`returns_iff_acc`).
-/
import Mathlib.Data.Fintype.Card
import Mathlib.Data.Set.Finite.Basic
import Mathlib.Logic.Relation

namespace FlightOs

open Relation

variable {σ τ ρ : Type} {r : σ → σ → Prop} {s t : σ}

/-! ## 1. Circles -/

/-- From `s`, the walk comes to a state that leads back to itself. -/
def Circles (r : σ → σ → Prop) (s : σ) : Prop := ∃ t, ReflTransGen r s t ∧ TransGen r t t

/-- A walk that circles goes on, and still does so. -/
theorem Circles.next (h : Circles r s) : ∃ s', r s s' ∧ Circles r s' := by
  obtain ⟨t, hst, ht⟩ := h
  rcases hst.cases_head with rfl | ⟨s', hstep, hrest⟩
  · obtain ⟨s', hstep, hback⟩ := TransGen.head'_iff.mp ht
    exact ⟨s', hstep, s, hback, ht⟩
  · exact ⟨s', hstep, t, hrest, ht⟩

/-- A walk that ends does not circle. -/
theorem not_circles_of_acc (h : Acc (Function.swap r) s) : ¬ Circles r s := by
  induction h with
  | intro s _ ih =>
    intro hs
    obtain ⟨s', hstep, hs'⟩ := hs.next
    exact ih s' hstep hs'

/-- Among finitely many states, a walk that does not circle ends. -/
theorem acc_of_not_circles (hfin : {t | ReflTransGen r s t}.Finite) (h : ¬ Circles r s) :
    Acc (Function.swap r) s := by
  have : Finite {t | ReflTransGen r s t} := hfin
  -- the order in which the walk comes to the states
  let before : {t | ReflTransGen r s t} → {t | ReflTransGen r s t} → Prop :=
    fun t u => TransGen r u.1 t.1
  have htrans : IsTrans _ before := ⟨fun _ _ _ htu huv => huv.trans htu⟩
  have hirrefl : Std.Irrefl before := ⟨fun t ht => h ⟨t.1, t.2, ht⟩⟩
  have hwf : WellFounded before := Finite.wellFounded_of_trans_of_irrefl before
  have hacc : ∀ t : {t | ReflTransGen r s t}, Acc (Function.swap r) t.1 := by
    intro t
    induction t using hwf.induction with
    | h t ih => exact ⟨_, fun u hu => ih ⟨u, t.2.tail hu⟩ (.single hu)⟩
  exact hacc ⟨s, .refl⟩

/-- **A walk among finitely many states** ends, if and only if it does not circle. -/
theorem acc_iff_not_circles (hfin : {t | ReflTransGen r s t}.Finite) :
    Acc (Function.swap r) s ↔ ¬ Circles r s :=
  ⟨not_circles_of_acc, acc_of_not_circles hfin⟩

/-- A walk that goes up does not circle. -/
theorem not_circles_of_lt {m : σ → Nat} (h : ∀ t u, r t u → m t < m u) : ¬ Circles r s := by
  rintro ⟨t, -, ht⟩
  have hup : ∀ u, TransGen r t u → m t < m u := by
    intro u hu
    induction hu with
    | single hstep => exact h _ _ hstep
    | tail _ hstep ih => exact Nat.lt_trans ih (h _ _ hstep)
  exact Nat.lt_irrefl _ (hup t ht)

/-! ## 2. Loops with fuel -/

/-- **A loop returns**, for some fuel, if and only if its walk ends.  Each round returns where the
walk has ended, and goes on where the walk does. -/
theorem returns_iff_acc (run : Nat → τ → Option ρ) (key : τ → σ) (I : τ → Prop)
    (hnone : ∀ x, run 0 x = none) (hdet : ∀ s t t', r s t → r s t' → t = t')
    (hround : ∀ x, I x → ((∀ t, ¬ r (key x) t) ∧ ∀ n, (run (n + 1) x).isSome) ∨
      ∃ y, I y ∧ r (key x) (key y) ∧ ∀ n, run (n + 1) x = run n y) {x : τ} (hx : I x) :
    (∃ n a, run n x = some a) ↔ Acc (Function.swap r) (key x) := by
  constructor
  · rintro ⟨n, a, hn⟩
    induction n generalizing x with
    | zero =>
      rw [hnone] at hn
      cases hn
    | succ n ih =>
      rcases hround x hx with ⟨hstop, -⟩ | ⟨y, hy, hstep, heq⟩
      · exact ⟨_, fun t ht => absurd ht (hstop t)⟩
      · rw [heq] at hn
        refine ⟨_, fun t ht => ?_⟩
        rw [hdet _ _ _ ht hstep]
        exact ih hy hn
  · intro h
    generalize hs : key x = s at h
    induction h generalizing x with
    | intro s _ ih =>
      subst hs
      rcases hround x hx with ⟨-, hsome⟩ | ⟨y, hy, hstep, heq⟩
      · exact ⟨1, Option.isSome_iff_exists.mp (hsome 0)⟩
      · obtain ⟨n, a, hn⟩ := ih (key y) hstep hy rfl
        exact ⟨n + 1, a, (heq n).trans hn⟩

end FlightOs
