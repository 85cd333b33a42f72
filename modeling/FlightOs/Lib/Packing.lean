/-
# Pieces put one behind the other

Pieces of given sizes are put in place from an address on, each one where the last one ends
(`packed`).  They tile their range (`tiled_packed`), so they are apart, and each one begins at the sum
of the sizes before it (`mem_packed_iff`).

Where addresses are words, the next address wraps (`wpacked`).  As long as every piece lies between two
addresses above zero, nothing wraps (`wpacked_inside`).
-/
import FlightOs.Lib.Tiling
import FlightOs.Lib.Word
import Mathlib.Tactic.Common
import Mathlib.Algebra.BigOperators.Group.List.Basic

namespace FlightOs

section Packing

variable {α : Type} (size : α → Nat)

/-- The pieces with their addresses, from `a` on. -/
def packed : Nat → List α → List (α × Nat)
  | _, [] => []
  | a, x :: xs => (x, a) :: packed (a + size x) xs

/-- The same with addresses that are words. -/
def wpacked : Nat → List α → List (α × Nat)
  | _, [] => []
  | a, x :: xs => (x, a) :: wpacked (wadd a (size x)) xs

/-- The sum of the sizes. -/
def total (xs : List α) : Nat := (xs.map size).sum

variable {size} {a b e : Nat} {x : α} {xs ys : List α}

@[simp] theorem total_nil : total size ([] : List α) = 0 := rfl

@[simp] theorem total_cons : total size (x :: xs) = size x + total size xs := by
  rw [total, List.map_cons, List.sum_cons, total]

/-- **The pieces tile their range.** -/
theorem tiled_packed : ∀ (xs : List α) (a : Nat),
    Tiled False Prod.snd (fun p => p.2 + size p.1) a (packed size a xs) (a + total size xs)
  | [], _ => Meets.refl
  | x :: xs, a => by
    refine ⟨Meets.refl, Nat.le_add_right a (size x), ?_⟩
    rw [total_cons, ← Nat.add_assoc]
    exact tiled_packed xs (a + size x)

theorem packed_bounds (h : (x, b) ∈ packed size a xs) :
    a ≤ b ∧ b + size x ≤ a + total size xs :=
  ⟨((tiled_packed xs a).bounds h).1, ((tiled_packed xs a).bounds h).2.2⟩

theorem packed_map_fst : ∀ (xs : List α) (a : Nat), (packed size a xs).map Prod.fst = xs
  | [], _ => rfl
  | x :: xs, a => congrArg (x :: ·) (packed_map_fst xs (a + size x))

theorem wpacked_map_fst : ∀ (xs : List α) (a : Nat), (wpacked size a xs).map Prod.fst = xs
  | [], _ => rfl
  | x :: xs, a => congrArg (x :: ·) (wpacked_map_fst xs (wadd a (size x)))

/-- Where a piece begins. -/
theorem mem_packed_iff : (x, b) ∈ packed size a xs ↔
    ∃ pre post, xs = pre ++ x :: post ∧ b = a + total size pre := by
  induction xs generalizing a with
  | nil => simp [packed]
  | cons y xs ih =>
    rw [packed, List.mem_cons, Prod.mk.injEq, ih]
    constructor
    · rintro (⟨rfl, rfl⟩ | ⟨pre, post, rfl, rfl⟩)
      · exact ⟨[], xs, rfl, rfl⟩
      · exact ⟨y :: pre, post, rfl, by rw [total_cons, Nat.add_assoc]⟩
    · rintro ⟨pre, post, heq, rfl⟩
      cases pre with
      | nil =>
        obtain ⟨rfl, rfl⟩ := List.cons_eq_cons.mp heq
        exact .inl ⟨rfl, rfl⟩
      | cons z pre =>
        obtain ⟨rfl, rfl⟩ := List.cons_eq_cons.mp heq
        exact .inr ⟨pre, post, rfl, by rw [total_cons, Nat.add_assoc]⟩

/-- What holds of every piece and its place holds of each split of the pieces. -/
theorem forall_packed_iff {P : α → Nat → Prop} :
    (∀ p ∈ packed size a xs, P p.1 p.2) ↔
      ∀ pre x post, xs = pre ++ x :: post → P x (a + total size pre) := by
  constructor
  · intro h pre x post heq
    exact h (x, a + total size pre) (mem_packed_iff.mpr ⟨pre, post, heq, rfl⟩)
  · rintro h ⟨x, b⟩ hp
    obtain ⟨pre, post, heq, rfl⟩ := mem_packed_iff.mp hp
    exact h pre x post heq

/-- Where the range does not wrap, no address does. -/
theorem wpacked_eq : ∀ (xs : List α) {a : Nat}, a + total size xs < 2 ^ 32 →
    wpacked size a xs = packed size a xs
  | [], _, _ => rfl
  | x :: xs, a, h => by
    rw [total_cons] at h
    rw [wpacked, packed, wadd_of_lt (by omega), wpacked_eq xs (by omega)]

/-- **Pieces that all lie in a range** are packed there, without wrapping. -/
theorem wpacked_inside : ∀ (xs : List α) {a b e : Nat}, 0 < b → e ≤ 2 ^ 32 →
    (∀ p ∈ wpacked size a xs, b ≤ p.2 ∧ p.2 + size p.1 ≤ e) →
    wpacked size a xs = packed size a xs ∧ (xs ≠ [] → a + total size xs ≤ e)
  | [], _, _, _, _, _, _ => ⟨rfl, fun h => absurd rfl h⟩
  | x :: xs, a, b, e, hb, he, h => by
    obtain ⟨hfirst, hend⟩ := h (x, a) List.mem_cons_self
    dsimp only at hfirst hend
    have hrest : ∀ p ∈ wpacked size (wadd a (size x)) xs, b ≤ p.2 ∧ p.2 + size p.1 ≤ e :=
      fun p hp => h p (List.mem_cons_of_mem _ hp)
    rw [wpacked, packed, total_cons]
    cases xs with
    | nil => exact ⟨rfl, fun _ => by rwa [total_nil]⟩
    | cons y xs =>
      -- a piece that follows does not begin at zero
      have hnext : wadd a (size x) = a + size x := by
        have hpos := (hrest (y, wadd a (size x)) List.mem_cons_self).1
        dsimp only at hpos
        unfold wadd at hpos ⊢
        rcases Nat.lt_or_ge (a + size x) (2 ^ 32) with hlt | hge
        · rw [Nat.add_comm (size x) a, Nat.mod_eq_of_lt hlt]
        · rw [show size x + a = 2 ^ 32 by omega, Nat.mod_self] at hpos
          omega
      rw [hnext] at hrest ⊢
      obtain ⟨heq, hle⟩ := wpacked_inside (y :: xs) hb he hrest
      rw [heq]
      refine ⟨rfl, fun _ => ?_⟩
      have := hle (List.cons_ne_nil y xs)
      omega

end Packing

end FlightOs
