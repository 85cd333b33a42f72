/-
# Tilings

A list of intervals that lie one behind the other, from `b` to `e`.  In a tight tiling each one
starts where the last one has stopped; in one with gaps (`gap`) it may start later.  In both the
intervals are apart, and in order.
-/
import Mathlib.Data.List.Pairwise
import Mathlib.Order.Nat

namespace FlightOs

variable {ι : Type}

/-- From `a` on to `b`. -/
def Meets (gap : Prop) (a b : Nat) : Prop := a = b ∨ gap ∧ a ≤ b

/-- The intervals from `start` to `stop` fill the numbers from `b` to `e`. -/
def Tiled (gap : Prop) (start stop : ι → Nat) : Nat → List ι → Nat → Prop
  | b, [], e => Meets gap b e
  | b, c :: cs, e => Meets gap b (start c) ∧ start c ≤ stop c ∧ Tiled gap start stop (stop c) cs e

section Tiling

variable {gap : Prop} {start stop : ι → Nat} {a b e m : Nat} {c d : ι} {cs xs ys : List ι}

theorem Meets.le (h : Meets gap a b) : a ≤ b := h.elim le_of_eq And.right

theorem Meets.refl : Meets gap a a := Or.inl rfl

theorem Meets.trans (h : Meets gap a b) (h' : Meets gap b m) : Meets gap a m := by
  rcases h with rfl | ⟨hg, hle⟩
  · exact h'
  · exact Or.inr ⟨hg, hle.trans h'.le⟩

theorem Tiled.le (h : Tiled gap start stop b cs e) : b ≤ e := by
  induction cs generalizing b with
  | nil => exact h.le
  | cons c cs ih => exact h.1.le.trans (h.2.1.trans (ih h.2.2))

theorem Tiled.meets (h : Meets gap a b) (h' : Tiled gap start stop b cs e) :
    Tiled gap start stop a cs e := by
  cases cs with
  | nil => exact h.trans h'
  | cons c cs => exact ⟨h.trans h'.1, h'.2⟩

theorem tiled_append : Tiled gap start stop b (xs ++ ys) e ↔
    ∃ m, Tiled gap start stop b xs m ∧ Tiled gap start stop m ys e := by
  induction xs generalizing b with
  | nil => exact ⟨fun h => ⟨b, Meets.refl, h⟩, fun ⟨m, hb, h⟩ => Tiled.meets hb h⟩
  | cons c cs ih =>
    constructor
    · rintro ⟨h1, h2, h3⟩
      obtain ⟨m, h4, h5⟩ := ih.mp h3
      exact ⟨m, ⟨h1, h2, h4⟩, h5⟩
    · rintro ⟨m, ⟨h1, h2, h4⟩, h5⟩
      exact ⟨h1, h2, ih.mpr ⟨m, h4, h5⟩⟩

theorem tiled_mid : Tiled gap start stop b (xs ++ c :: ys) e ↔
    ∃ m, Tiled gap start stop b xs m ∧ Meets gap m (start c) ∧ start c ≤ stop c ∧
      Tiled gap start stop (stop c) ys e := tiled_append

/-- Every interval lies between the ends. -/
theorem Tiled.bounds (h : Tiled gap start stop b cs e) (hc : c ∈ cs) :
    b ≤ start c ∧ start c ≤ stop c ∧ stop c ≤ e := by
  obtain ⟨xs, ys, rfl⟩ := List.append_of_mem hc
  obtain ⟨m, h1, h2, h3, h4⟩ := tiled_mid.mp h
  exact ⟨h1.le.trans h2.le, h3, h4.le⟩

/-- The intervals before and behind a given one. -/
theorem Tiled.around (h : Tiled gap start stop b (xs ++ c :: ys) e) :
    (∀ d ∈ xs, stop d ≤ start c) ∧ ∀ d ∈ ys, stop c ≤ start d := by
  obtain ⟨m, h1, h2, -, h4⟩ := tiled_mid.mp h
  exact ⟨fun d hd => (h1.bounds hd).2.2.trans h2.le, fun d hd => (h4.bounds hd).1⟩

theorem Tiled.pairwise (h : Tiled gap start stop b cs e) :
    cs.Pairwise (fun c d => stop c ≤ start d) := by
  induction cs generalizing b with
  | nil => exact List.Pairwise.nil
  | cons c cs ih => exact List.Pairwise.cons (fun d hd => (h.2.2.bounds hd).1) (ih h.2.2)

/-- The intervals by where they start. -/
theorem Tiled.map {stop' : Nat → Nat} (h : Tiled gap start stop b cs e)
    (hs : ∀ c ∈ cs, stop' (start c) = stop c) : Tiled gap id stop' b (cs.map start) e := by
  induction cs generalizing b with
  | nil => exact h
  | cons c cs ih =>
    have hc := hs c List.mem_cons_self
    refine ⟨h.1, hc ▸ h.2.1, ?_⟩
    rw [hc]
    exact ih h.2.2 (fun d hd => hs d (List.mem_cons_of_mem _ hd))

/-- Two of the intervals are the same or apart. -/
theorem Tiled.apart (h : Tiled gap start stop b cs e) (hc : c ∈ cs) (hd : d ∈ cs) (hne : c ≠ d) :
    stop c ≤ start d ∨ stop d ≤ start c := by
  have hor := h.pairwise.imp (S := fun c d => stop c ≤ start d ∨ stop d ≤ start c) Or.inl
  have : Std.Symm (fun c d => stop c ≤ start d ∨ stop d ≤ start c) := ⟨fun _ _ => Or.symm⟩
  exact hor.forall hc hd hne

end Tiling

end FlightOs
