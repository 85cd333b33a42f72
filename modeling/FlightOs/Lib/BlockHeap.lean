/-
# A heap as its blocks

A heap seen from the code that asks it for blocks and gives them back.  Which requests are granted is
not up to that code: `answers` says it, request by request, so a statement about every heap is one about
every point of failure.  A block is the number of the request that was granted it.

A block that is freed while it is not allocated, or read then, is a `fault`, and stays one.  So "no
fault" is "nothing is freed twice and nothing is read after it was freed", and "the same blocks are
allocated as before" is "every block allocated since was freed once".
-/
import Mathlib.Data.List.Perm.Basic
import Mathlib.Data.List.Nodup
import Mathlib.Tactic.Common

namespace FlightOs

structure BlockHeap where
  answers : Nat → Bool
  /-- requests so far -/
  count : Nat
  live : List Nat
  fault : Bool
  nodup : live.Nodup
  below : ∀ b ∈ live, b < count

namespace BlockHeap

/-- A heap without blocks. -/
def empty (answers : Nat → Bool) : BlockHeap where
  answers := answers
  count := 0
  live := []
  fault := false
  nodup := List.nodup_nil
  below := fun _ hb => absurd hb List.not_mem_nil

def grant (h : BlockHeap) : BlockHeap where
  answers := h.answers
  count := h.count + 1
  live := h.count :: h.live
  fault := h.fault
  nodup := List.nodup_cons.mpr ⟨fun hmem => Nat.lt_irrefl _ (h.below _ hmem), h.nodup⟩
  below := by
    intro b hb
    rcases List.mem_cons.mp hb with rfl | hb
    · exact Nat.lt_succ_self _
    · exact Nat.lt_succ_of_lt (h.below b hb)

def refuse (h : BlockHeap) : BlockHeap :=
  { h with count := h.count + 1, below := fun b hb => Nat.lt_succ_of_lt (h.below b hb) }

/-- A block of a size; there is none of size 0. -/
def alloc (h : BlockHeap) (size : Nat) : BlockHeap × Option Nat :=
  if size = 0 then (h, none)
  else if h.answers h.count then (h.grant, some h.count)
  else (h.refuse, none)

/-- Something has gone wrong. -/
def fail (h : BlockHeap) : BlockHeap := { h with fault := true }

def drop (h : BlockHeap) (b : Nat) : BlockHeap :=
  { h with
    live := h.live.erase b
    nodup := h.nodup.erase b
    below := fun c hc => h.below c (List.mem_of_mem_erase hc) }

/-- Freeing a pointer; the null pointer is none. -/
def free (h : BlockHeap) : Option Nat → BlockHeap
  | none => h
  | some b => if b ∈ h.live then h.drop b else h.fail

/-- Reading what a pointer points at. -/
def use (h : BlockHeap) : Option Nat → BlockHeap
  | none => h.fail
  | some b => if b ∈ h.live then h else h.fail

def freeAll (h : BlockHeap) (ps : List (Option Nat)) : BlockHeap := ps.foldl free h

/-- A block of another size, instead of the one there is. -/
def realloc (h : BlockHeap) (p : Option Nat) (size : Nat) : BlockHeap × Option Nat :=
  match h.alloc size with
  | (h, none) => (h, none)
  | (h, some b) => (h.free p, some b)

variable {h : BlockHeap} {p q : Option Nat} {b c n : Nat} {bs rest : List Nat}

/-! ## 1. Requests -/

/-- A request that is granted. -/
def Grants (h : BlockHeap) (size : Nat) : Prop := size ≠ 0 ∧ h.answers h.count = true

instance (h : BlockHeap) (size : Nat) : Decidable (h.Grants size) :=
  inferInstanceAs (Decidable (_ ∧ _))

@[simp] theorem grant_live : h.grant.live = h.count :: h.live := rfl
@[simp] theorem grant_fault : h.grant.fault = h.fault := rfl
@[simp] theorem grant_count : h.grant.count = h.count + 1 := rfl
@[simp] theorem grant_answers : h.grant.answers = h.answers := rfl

theorem alloc_of_grants (hg : h.Grants n) : h.alloc n = (h.grant, some h.count) := by
  rw [alloc, if_neg hg.1, if_pos hg.2]

theorem alloc_of_not_grants (hg : ¬ h.Grants n) : (h.alloc n).2 = none := by
  unfold alloc
  split
  · rfl
  · next h0 =>
    rw [if_neg (fun ha => hg ⟨h0, ha⟩)]

/-- What a request leaves, whether granted or not. -/
theorem alloc_cases (h : BlockHeap) (n : Nat) :
    h.Grants n ∧ h.alloc n = (h.grant, some h.count) ∨
      ¬ h.Grants n ∧ ∃ h', h.alloc n = (h', none) ∧ h'.live = h.live ∧ h'.fault = h.fault := by
  by_cases hg : h.Grants n
  · exact .inl ⟨hg, alloc_of_grants hg⟩
  · refine .inr ⟨hg, (h.alloc n).1, Prod.ext rfl (alloc_of_not_grants hg), ?_⟩
    unfold alloc
    split
    · exact ⟨rfl, rfl⟩
    · split
      · next h0 ha => exact absurd ⟨h0, ha⟩ hg
      · exact ⟨rfl, rfl⟩

/-- All of these requests are granted, one after the other. -/
def GrantsAll (h : BlockHeap) : List Nat → Prop
  | [] => True
  | n :: ns => h.Grants n ∧ h.grant.GrantsAll ns

/-- The heap after some requests that were granted. -/
def grantMany (h : BlockHeap) : Nat → BlockHeap
  | 0 => h
  | n + 1 => h.grant.grantMany n

theorem grantsAll_cons {ns : List Nat} :
    h.GrantsAll (n :: ns) ↔ h.Grants n ∧ h.grant.GrantsAll ns := Iff.rfl

/-! ## 2. Freeing -/

@[simp] theorem free_none : h.free none = h := rfl

theorem free_some : h.free (some b) = if b ∈ h.live then h.drop b else h.fail := rfl

theorem use_some : h.use (some b) = if b ∈ h.live then h else h.fail := rfl

theorem free_of_mem (hb : b ∈ h.live) : h.free (some b) = h.drop b := if_pos hb

theorem free_of_not_mem (hb : b ∉ h.live) : h.free (some b) = h.fail := if_neg hb

theorem use_of_mem (hb : b ∈ h.live) : h.use (some b) = h := if_pos hb

@[simp] theorem drop_live : (h.drop b).live = h.live.erase b := rfl
@[simp] theorem drop_fault : (h.drop b).fault = h.fault := rfl
@[simp] theorem fail_live : h.fail.live = h.live := rfl
@[simp] theorem fail_fault : h.fail.fault = true := rfl

/-- What is not allocated does not become so by freeing. -/
theorem not_mem_free (hb : b ∉ h.live) (p : Option Nat) : b ∉ (h.free p).live := by
  cases p with
  | none => exact hb
  | some c =>
    rw [free_some]
    split
    · exact fun hmem => hb (List.mem_of_mem_erase hmem)
    · exact hb

theorem not_mem_use (hb : b ∉ h.live) (p : Option Nat) : b ∉ (h.use p).live := by
  cases p with
  | none => exact hb
  | some c =>
    rw [use_some]
    split
    · exact hb
    · exact hb

/-- A block that was freed is not allocated. -/
theorem not_mem_free_self : b ∉ (h.free (some b)).live := by
  rw [free_some]
  split
  · exact h.nodup.not_mem_erase
  · assumption

/-- **A block that is freed again is a fault.** -/
theorem free_fault_of_not_mem (hb : b ∉ h.live) : (h.free (some b)).fault = true := by
  rw [free_of_not_mem hb, fail_fault]

/-! ## 3. Giving back what one has -/

/-- The heap has these blocks, those of others, and nothing has gone wrong. -/
def Owns (h : BlockHeap) (bs rest : List Nat) : Prop := h.live.Perm (bs ++ rest) ∧ h.fault = false

theorem Owns.perm {cs : List Nat} (ho : h.Owns bs rest) (hp : bs.Perm cs) : h.Owns cs rest :=
  ⟨ho.1.trans (hp.append_right rest), ho.2⟩

theorem Owns.grant (ho : h.Owns bs rest) : h.grant.Owns (h.count :: bs) rest :=
  ⟨ho.1.cons h.count, ho.2⟩

theorem Owns.grantMany (ho : h.Owns bs rest) (n : Nat) :
    (h.grantMany n).Owns (List.range' h.count n ++ bs) rest := by
  induction n generalizing h bs with
  | zero => exact ho
  | succ n ih =>
    refine (ih ho.grant).perm ?_
    rw [List.range'_succ]
    exact List.perm_middle

theorem Owns.mem (ho : h.Owns bs rest) (hb : b ∈ bs) : b ∈ h.live :=
  ho.1.mem_iff.mpr (List.mem_append_left rest hb)

theorem Owns.use (ho : h.Owns bs rest) (hb : b ∈ bs) : h.use (some b) = h := use_of_mem (ho.mem hb)

/-- **Freeing the first of one's blocks.** -/
theorem Owns.free (ho : h.Owns (b :: bs) rest) : (h.free (some b)).Owns bs rest := by
  rw [free_of_mem (ho.mem List.mem_cons_self)]
  refine ⟨?_, ho.2⟩
  have hp := ho.1.erase b
  rwa [List.cons_append, List.erase_cons_head] at hp

/-- **Freeing several of one's blocks**; null pointers among them do not matter. -/
theorem Owns.freeAll {ps : List (Option Nat)} (ho : h.Owns (ps.filterMap id ++ bs) rest) :
    (h.freeAll ps).Owns bs rest := by
  induction ps generalizing h with
  | nil => exact ho
  | cons p ps ih =>
    cases p with
    | none => exact ih ho
    | some b => exact ih (Owns.free ho)

/-- A block that is granted is one's own. -/
theorem Owns.alloc (ho : h.Owns bs rest) {h' : BlockHeap} (heq : h.alloc n = (h', some c)) :
    h'.Owns (c :: bs) rest := by
  rcases alloc_cases h n with ⟨-, ha⟩ | ⟨-, h₁, ha, -⟩
  · rw [ha] at heq
    obtain ⟨rfl, hc⟩ := Prod.mk.inj heq
    obtain rfl := Option.some.inj hc
    exact ho.grant
  · rw [ha] at heq
    exact absurd (Prod.mk.inj heq).2 (Option.some_ne_none c).symm

/-- There is nothing to free for a null pointer. -/
theorem realloc_none : h.realloc none n = h.alloc n := by
  unfold realloc
  rcases h.alloc n with ⟨h', p⟩
  cases p with
  | none => rfl
  | some b => rfl

/-- A block of another size takes the place of the old one. -/
theorem Owns.realloc (ho : h.Owns (b :: bs) rest) {h' : BlockHeap}
    (heq : h.realloc (some b) n = (h', some c)) : h'.Owns (c :: bs) rest := by
  unfold BlockHeap.realloc at heq
  rcases alloc_cases h n with ⟨-, ha⟩ | ⟨-, h₁, ha, -⟩
  · rw [ha] at heq
    obtain ⟨rfl, hc⟩ := Prod.mk.inj heq
    obtain rfl := Option.some.inj hc
    exact Owns.free (ho.grant.perm (List.Perm.swap b h.count bs))
  · rw [ha] at heq
    exact absurd (Prod.mk.inj heq).2 (Option.some_ne_none c).symm

end BlockHeap

end FlightOs
