/-
# Chains of records

A doubly linked list without an anchor: each item has a record somewhere in memory, and the
record holds the addresses of the records before and after it.  What else a record holds is
fixed by its item, so a chain is given by the list of its items alone.

`Chained addr mk hdr p cs n`: the memory `hdr` holds the records of `cs`, the first one after `p`
and the last one before `n`.  A store to the record of an item is seen in the list by
`chained_mid`; `Chained.reprev` and `Chained.renext` are for the stores to its neighbours.
-/
import Mathlib.Data.List.Basic

namespace FlightOs

variable {ι α β : Type}

/-- The address of the first item, or what comes after an empty list. -/
def firstAddr (addr : ι → α) : List ι → α → α
  | [], n => n
  | c :: _, _ => addr c

/-- The address of the last item, or what comes before an empty list. -/
def lastAddr (addr : ι → α) : α → List ι → α
  | p, [] => p
  | _, c :: cs => lastAddr addr (addr c) cs

/-- The records of the items, linked in order. -/
def Chained (addr : ι → α) (mk : ι → α → α → β) (hdr : α → β) : α → List ι → α → Prop
  | _, [], _ => True
  | p, c :: cs, n =>
    hdr (addr c) = mk c p (firstAddr addr cs n) ∧ Chained addr mk hdr (addr c) cs n

section Chain

variable {addr : ι → α} {mk : ι → α → α → β} {hdr hdr' : α → β} {p p' n n' : α} {c : ι}
  {xs ys cs : List ι}

@[simp] theorem firstAddr_nil : firstAddr addr [] n = n := rfl

@[simp] theorem firstAddr_cons : firstAddr addr (c :: cs) n = addr c := rfl

@[simp] theorem lastAddr_nil : lastAddr addr p [] = p := rfl

@[simp] theorem lastAddr_cons : lastAddr addr p (c :: cs) = lastAddr addr (addr c) cs := rfl

theorem firstAddr_append : firstAddr addr (xs ++ ys) n = firstAddr addr xs (firstAddr addr ys n) := by
  cases xs with
  | nil => rfl
  | cons c cs => rfl

theorem lastAddr_append : lastAddr addr p (xs ++ ys) = lastAddr addr (lastAddr addr p xs) ys := by
  induction xs generalizing p with
  | nil => rfl
  | cons c cs ih => exact ih

@[simp] theorem lastAddr_concat : lastAddr addr p (xs ++ [c]) = addr c := by
  rw [lastAddr_append]
  rfl

theorem chained_append : Chained addr mk hdr p (xs ++ ys) n ↔
    Chained addr mk hdr p xs (firstAddr addr ys n) ∧ Chained addr mk hdr (lastAddr addr p xs) ys n := by
  induction xs generalizing p with
  | nil => exact (and_iff_right trivial).symm
  | cons c cs ih =>
    simp only [List.cons_append, Chained, lastAddr_cons, ih, firstAddr_append, and_assoc]

/-- The record of an item in the middle. -/
theorem chained_mid : Chained addr mk hdr p (xs ++ c :: ys) n ↔
    Chained addr mk hdr p xs (addr c) ∧
      hdr (addr c) = mk c (lastAddr addr p xs) (firstAddr addr ys n) ∧
      Chained addr mk hdr (addr c) ys n := chained_append

/-- A chain reads the records of its items only. -/
theorem Chained.congr (h : Chained addr mk hdr p cs n)
    (hc : ∀ c ∈ cs, hdr' (addr c) = hdr (addr c)) : Chained addr mk hdr' p cs n := by
  induction cs generalizing p with
  | nil => trivial
  | cons c cs ih =>
    refine ⟨(hc c List.mem_cons_self).trans h.1, ih h.2 (fun d hd => ?_)⟩
    exact hc d (List.mem_cons_of_mem _ hd)

/-- The first item gets another one before it. -/
theorem Chained.reprev (h : Chained addr mk hdr p (c :: cs) n)
    (hfirst : hdr' (addr c) = mk c p' (firstAddr addr cs n))
    (hc : ∀ d ∈ cs, hdr' (addr d) = hdr (addr d)) : Chained addr mk hdr' p' (c :: cs) n :=
  ⟨hfirst, h.2.congr hc⟩

/-- The last item gets another one after it. -/
theorem Chained.renext (h : Chained addr mk hdr p (xs ++ [c]) n)
    (hlast : hdr' (addr c) = mk c (lastAddr addr p xs) n')
    (hc : ∀ d ∈ xs, hdr' (addr d) = hdr (addr d)) : Chained addr mk hdr' p (xs ++ [c]) n' :=
  chained_mid.mpr ⟨(chained_mid.mp h).1.congr hc, hlast, trivial⟩

/-- A chain of items is a chain of their addresses, with as much of the records as these show. -/
theorem Chained.map {γ : Type} {m : α → α → α → γ} {f : β → γ}
    (h : Chained addr mk hdr p cs n) (hf : ∀ c p n, f (mk c p n) = m (addr c) p n) :
    Chained id m (f ∘ hdr) p (cs.map addr) n := by
  induction cs generalizing p with
  | nil => trivial
  | cons c cs ih =>
    refine ⟨?_, ih h.2⟩
    have hfirst : firstAddr id (cs.map addr) n = firstAddr addr cs n := by cases cs <;> rfl
    rw [Function.comp_apply, hfirst, id_eq, h.1, hf]

/-- Where a record shows what comes next, the first address determines the whole chain. -/
theorem Chained.unique {m : α → α → α → β} {ks js : List α}
    (h : Chained id m hdr p ks n) (h' : Chained id m hdr p' js n)
    (hm : ∀ {k q r q' r'}, m k q r = m k q' r' → r = r') (hk : n ∉ ks) (hj : n ∉ js)
    (hfirst : firstAddr id ks n = firstAddr id js n) : ks = js := by
  induction ks generalizing p p' js with
  | nil =>
    cases js with
    | nil => rfl
    | cons j js =>
      obtain rfl : n = j := hfirst
      exact absurd List.mem_cons_self hj
  | cons k ks ih =>
    cases js with
    | nil =>
      obtain rfl : k = n := hfirst
      exact absurd List.mem_cons_self hk
    | cons j js =>
      obtain rfl : k = j := hfirst
      rw [ih h.2 h'.2 (fun e => hk (List.mem_cons_of_mem _ e)) (fun e => hj (List.mem_cons_of_mem _ e))
        (hm (h.1.symm.trans h'.1))]

/-- The record of any item. -/
theorem Chained.record (h : Chained addr mk hdr p cs n) (hc : c ∈ cs) :
    ∃ q r, hdr (addr c) = mk c q r := by
  obtain ⟨xs, ys, rfl⟩ := List.append_of_mem hc
  exact ⟨_, _, (chained_mid.mp h).2.1⟩

end Chain

end FlightOs
