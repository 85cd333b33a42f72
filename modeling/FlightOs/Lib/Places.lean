/-
# Things in places

Several places have a list of things each.  `Placed` says that no thing is in two places, or twice
in one.  It is kept when things are taken from one place to another (`Placed.move`), and when a new
thing comes to a place (`Placed.add`).  Where the places are listed, all things are a `flatMap`, and
`flatMap_change` says what a change at one place makes of it.  `slots` are places for one thing
each, which are filled and cleared.
-/
import Mathlib.Tactic.Common
import Mathlib.Data.List.Nodup
import Mathlib.Data.List.Perm.Basic
import Mathlib.Logic.Function.Basic

namespace FlightOs

section Places

variable {ι α : Type} {f g : ι → List α}

/-- Each thing is in one place at most, and once. -/
structure Placed (f : ι → List α) : Prop where
  nodup : ∀ p, (f p).Nodup
  apart : ∀ {p r t}, t ∈ f p → t ∈ f r → p = r

/-- The things `X` are taken from the place `p` to the place `r`. -/
theorem Placed.move {p r : ι} {X : List α} (h : Placed f) (hne : p ≠ r)
    (hfrom : (X ++ g p).Perm (f p)) (hto : (g r).Perm (f r ++ X))
    (hother : ∀ i, i ≠ p → i ≠ r → g i = f i) : Placed g := by
  have hX : ∀ t ∈ X, t ∈ f p := fun t ht => hfrom.subset (List.mem_append_left _ ht)
  have hXg : (X ++ g p).Nodup := hfrom.nodup_iff.mpr (h.nodup p)
  -- where a thing was, and whether it has been taken along
  have hold : ∀ {i t}, t ∈ g i → (t ∈ f i ∧ t ∉ X) ∨ (i = r ∧ t ∈ X) := by
    intro i t ht
    by_cases hip : i = p
    · subst hip
      exact .inl ⟨hfrom.subset (List.mem_append_right _ ht),
        fun htX => (List.nodup_append.mp hXg).2.2 t htX t ht rfl⟩
    by_cases hip' : i = r
    · subst hip'
      rcases List.mem_append.mp (hto.subset ht) with h1 | h1
      · exact .inl ⟨h1, fun htX => hne (h.apart (hX t htX) h1)⟩
      · exact .inr ⟨rfl, h1⟩
    · rw [hother i hip hip'] at ht
      exact .inl ⟨ht, fun htX => hip (h.apart ht (hX t htX))⟩
  refine ⟨fun i => ?_, fun {i j t} hi hj => ?_⟩
  · by_cases hip : i = p
    · subst hip
      exact (List.nodup_append.mp hXg).2.1
    by_cases hip' : i = r
    · subst hip'
      refine hto.nodup_iff.mpr (List.nodup_append.mpr
        ⟨h.nodup _, (List.nodup_append.mp hXg).1, ?_⟩)
      rintro t ht u hu rfl
      exact hne (h.apart (hX t hu) ht)
    · rw [hother i hip hip']
      exact h.nodup i
  · rcases hold hi with ⟨h1, hnX⟩ | ⟨rfl, hX1⟩
    · rcases hold hj with ⟨h2, -⟩ | ⟨-, hX2⟩
      · exact h.apart h1 h2
      · exact absurd hX2 hnX
    · rcases hold hj with ⟨-, hnX⟩ | ⟨rfl, -⟩
      · exact absurd hX1 hnX
      · rfl

/-- A thing that is nowhere comes to the place `p`. -/
theorem Placed.add {p : ι} {t : α} (h : Placed f) (hnew : ∀ i, t ∉ f i)
    (hto : (g p).Perm (t :: f p)) (hother : ∀ i, i ≠ p → g i = f i) : Placed g := by
  have hold : ∀ {i u}, u ∈ g i → u ∈ f i ∨ (i = p ∧ u = t) := by
    intro i u hu
    by_cases hip : i = p
    · subst hip
      rcases List.mem_cons.mp (hto.subset hu) with h1 | h1
      · exact .inr ⟨rfl, h1⟩
      · exact .inl h1
    · exact .inl (hother i hip ▸ hu)
  refine ⟨fun i => ?_, fun {i j u} hi hj => ?_⟩
  · by_cases hip : i = p
    · subst hip
      exact hto.nodup_iff.mpr (List.nodup_cons.mpr ⟨hnew _, h.nodup _⟩)
    · rw [hother i hip]
      exact h.nodup i
  · rcases hold hi with h1 | ⟨rfl, rfl⟩
    · rcases hold hj with h2 | ⟨-, rfl⟩
      · exact h.apart h1 h2
      · exact absurd h1 (hnew i)
    · rcases hold hj with h2 | ⟨rfl, -⟩
      · exact absurd h2 (hnew j)
      · rfl

/-- The order within the places does not matter. -/
theorem Placed.perm (h : Placed f) (hperm : ∀ i, (g i).Perm (f i)) : Placed g where
  nodup i := (hperm i).nodup_iff.mpr (h.nodup i)
  apart hi hj := h.apart ((hperm _).subset hi) ((hperm _).subset hj)

end Places

section Lists

variable {ι α : Type} [DecidableEq ι] {L : List ι} {p : ι} {f g : ι → List α}

/-- What one place of several has, and the others. -/
theorem flatMap_split (hp : p ∈ L) : (L.flatMap f).Perm (f p ++ (L.erase p).flatMap f) := by
  have h := (List.perm_cons_erase hp).flatMap_right f
  rwa [List.flatMap_cons] at h

/-- A change at one place. -/
theorem flatMap_change (hL : L.Nodup) (hp : p ∈ L) (h : ∀ q ∈ L, q ≠ p → g q = f q) :
    (L.flatMap g).Perm (g p ++ (L.erase p).flatMap f) := by
  have hrest : (L.erase p).flatMap g = (L.erase p).flatMap f :=
    List.flatMap_congr fun q hq => h q (List.mem_of_mem_erase hq) (hL.mem_erase_iff.mp hq).1
  rw [← hrest]
  exact flatMap_split hp

/-- Where nothing is in two places, a thing says which place it is in. -/
theorem flatMap_apart {q : ι} {x : α} (hL : L.Nodup) (h : (L.flatMap f).Nodup) (hp : p ∈ L)
    (hq : q ∈ L) (hxp : x ∈ f p) (hxq : x ∈ f q) : q = p := by
  by_contra hne
  have hnodup := (flatMap_split hp).nodup_iff.mp h
  have hother : q ∈ L.erase p := hL.mem_erase_iff.mpr ⟨hne, hq⟩
  exact (List.nodup_append.mp hnodup).2.2 x hxp x (List.mem_flatMap.mpr ⟨q, hother, hxq⟩) rfl

end Lists

section Slots

variable {α β : Type}

/-- The things in the first `n` slots, each with what `g` makes of its slot and it. -/
def slots (n : Nat) (g : Nat → α → β) (f : Nat → Option α) : List β :=
  (List.range n).flatMap fun i => (f i).toList.map (g i)

variable {n i : Nat} {g : Nat → α → β} {f : Nat → Option α} {a : α}

theorem mem_slots {b : β} : b ∈ slots n g f ↔ ∃ i < n, ∃ a, f i = some a ∧ g i a = b := by
  simp only [slots, List.mem_flatMap, List.mem_range, List.mem_map, Option.mem_toList]

theorem slots_fill (hi : i < n) (hn : f i = none) :
    (slots n g (Function.update f i (some a))).Perm (g i a :: slots n g f) := by
  have hmem : i ∈ List.range n := List.mem_range.mpr hi
  have hnew := flatMap_change (f := fun j => (f j).toList.map (g j))
    (g := fun j => (Function.update f i (some a) j).toList.map (g j)) List.nodup_range hmem
    (fun j _ hne => by rw [Function.update_of_ne hne])
  have hold := flatMap_split (f := fun j => (f j).toList.map (g j)) hmem
  rw [Function.update_self] at hnew
  rw [hn] at hold
  exact hnew.trans (hold.symm.cons _)

theorem slots_clear (hi : i < n) (ha : f i = some a) :
    (slots n g f).Perm (g i a :: slots n g (Function.update f i none)) := by
  have h := slots_fill (g := g) (f := Function.update f i none) (a := a) hi
    (Function.update_self ..)
  rwa [Function.update_idem, ← ha, Function.update_eq_self] at h

end Slots

end FlightOs
