/-
# Rings of links: circular doubly linked lists threaded through their members

A ring is a memory of nodes, each with a `next` and a `prev` pointer, in which an anchor
and a list of members point at each other in a circle.  Kernels thread such rings through
the objects they track, so no memory is ever allocated for the list itself, and the anchor
of an empty ring points at itself.

* `Path m a l b`: starting at `a`, the pointers of the memory `m` visit exactly the nodes of
  `l`, in order, and arrive at `b`; every step can be walked backwards.
* `Ring m a xs`: the path from `a` through `xs` closes at `a`, and no node occurs twice.

The three edits below (`Ring.pushFront`, `Ring.pushBack`, `Ring.unlink`) are stated
POINTWISE: they ask what the new memory holds at each node of the ring, and not how it was
written.  An implementation is free in the order of its four stores.  `Ring.congr` is the
frame rule: a ring reads its own nodes and nothing else.
-/
import Mathlib.Data.List.Basic
import Mathlib.Data.List.Nodup
import Mathlib.Logic.Function.Basic

namespace FlightOs

/-- The two pointers of a node; `none` is the null pointer. -/
structure Link (α : Type) where
  next : Option α
  prev : Option α
deriving DecidableEq

attribute [ext] Link

/-- A memory of links: one node at each address. -/
abbrev Links (α : Type) := α → Link α

variable {α : Type}

/-! ## 1. Paths -/

/-- The pointers lead from `a` through the nodes of the list to `b`, and back. -/
def Path (m : Links α) : α → List α → α → Prop
  | a, [], b => (m a).next = some b ∧ (m b).prev = some a
  | a, x :: l, b => (m a).next = some x ∧ (m x).prev = some a ∧ Path m x l b

@[simp] theorem path_nil {m : Links α} {a b : α} :
    Path m a [] b ↔ (m a).next = some b ∧ (m b).prev = some a := Iff.rfl

@[simp] theorem path_cons {m : Links α} {a b x : α} {l : List α} :
    Path m a (x :: l) b ↔ (m a).next = some x ∧ (m x).prev = some a ∧ Path m x l b := Iff.rfl

/-- A path reads the forward pointer of every node but its end, and the backward pointer of
every node but its start. -/
theorem Path.congr {m m' : Links α} {b : α} : ∀ {l : List α} {a : α}, Path m a l b →
    (∀ x ∈ a :: l, (m' x).next = (m x).next) → (∀ x ∈ l ++ [b], (m' x).prev = (m x).prev) →
    Path m' a l b
  | [], a, h, hn, hp => by
    rw [path_nil, hn a (by simp), hp b (by simp)]
    exact h
  | x :: l, a, h, hn, hp => by
    obtain ⟨h1, h2, h3⟩ := h
    refine ⟨(hn a (by simp)).trans h1, (hp x (by simp)).trans h2, h3.congr ?_ ?_⟩
    · exact fun y hy => hn y (List.mem_cons_of_mem _ hy)
    · exact fun y hy => hp y (by simp only [List.cons_append, List.mem_cons]; exact Or.inr hy)

/-- Every forward pointer on a path is answered by a backward pointer. -/
theorem Path.next_prev {m : Links α} {b : α} : ∀ {l : List α} {a x : α}, Path m a l b →
    x ∈ a :: l → ∃ y ∈ l ++ [b], (m x).next = some y ∧ (m y).prev = some x
  | [], a, x, h, hx => by
    rw [List.mem_singleton] at hx
    subst hx
    exact ⟨b, by simp, h.1, h.2⟩
  | z :: l, a, x, h, hx => by
    obtain ⟨h1, h2, h3⟩ := h
    rcases List.mem_cons.mp hx with rfl | hx
    · exact ⟨z, by simp, h1, h2⟩
    · obtain ⟨y, hy, hxy⟩ := h3.next_prev hx
      exact ⟨y, by simp only [List.cons_append, List.mem_cons]; exact Or.inr hy, hxy⟩

/-- Every backward pointer on a path answers a forward pointer. -/
theorem Path.prev_next {m : Links α} {b : α} : ∀ {l : List α} {a y : α}, Path m a l b →
    y ∈ l ++ [b] → ∃ x ∈ a :: l, (m y).prev = some x ∧ (m x).next = some y
  | [], a, y, h, hy => by
    simp only [List.nil_append, List.mem_singleton] at hy
    subst hy
    exact ⟨a, by simp, h.2, h.1⟩
  | z :: l, a, y, h, hy => by
    obtain ⟨h1, h2, h3⟩ := h
    simp only [List.cons_append, List.mem_cons] at hy
    rcases hy with rfl | hy
    · exact ⟨a, by simp, h2, h1⟩
    · obtain ⟨x, hx, hxy⟩ := h3.prev_next hy
      exact ⟨x, List.mem_cons_of_mem _ hx, hxy⟩

/-- A path through a node is a path to it and one from it. -/
theorem path_append_cons {m : Links α} {b x : α} {l' : List α} : ∀ {l : List α} {a : α},
    Path m a (l ++ x :: l') b ↔ Path m a l x ∧ Path m x l' b
  | [], a => by
    rw [List.nil_append, path_cons, path_nil, and_assoc]
  | y :: l, a => by
    rw [List.cons_append, path_cons, path_cons, path_append_cons, and_assoc, and_assoc]

/-- A path whose nodes are renamed. -/
theorem Path.map {m m' : Links α} {b : α} {r : α → α} : ∀ {l : List α} {a : α}, Path m a l b →
    (∀ x ∈ a :: l, (m' (r x)).next = (m x).next.map r) →
    (∀ x ∈ l ++ [b], (m' (r x)).prev = (m x).prev.map r) → Path m' (r a) (l.map r) (r b)
  | [], a, h, hn, hp => by
    rw [List.map_nil, path_nil, hn a (by simp), hp b (by simp), h.1, h.2]
    exact ⟨rfl, rfl⟩
  | x :: l, a, h, hn, hp => by
    obtain ⟨h1, h2, h3⟩ := h
    refine ⟨?_, ?_, h3.map ?_ ?_⟩
    · rw [hn a (by simp), h1]
      rfl
    · rw [hp x (by simp), h2]
      rfl
    · exact fun y hy => hn y (List.mem_cons_of_mem _ hy)
    · exact fun y hy => hp y (by simp only [List.cons_append, List.mem_cons]; exact Or.inr hy)

/-! ## 2. Rings -/

/-- A ring: the path from the anchor through the members comes back to the anchor, and no
node occurs twice. -/
structure Ring (m : Links α) (a : α) (xs : List α) : Prop where
  path : Path m a xs a
  nodup : (a :: xs).Nodup

/-- The frame rule: a ring depends on its own nodes only. -/
theorem Ring.congr {m m' : Links α} {a : α} {xs : List α} (h : Ring m a xs)
    (hm : ∀ x ∈ a :: xs, m' x = m x) : Ring m' a xs := by
  refine ⟨h.path.congr (fun x hx => by rw [hm x hx]) (fun x hx => ?_), h.nodup⟩
  rw [hm x]
  simp only [List.mem_append, List.mem_singleton] at hx
  rcases hx with hx | rfl
  · exact List.mem_cons_of_mem _ hx
  · exact List.mem_cons_self

theorem Ring.notMem {m : Links α} {a : α} {xs : List α} (h : Ring m a xs) : a ∉ xs :=
  (List.nodup_cons.mp h.nodup).1

/-- A ring can be entered at each of its nodes. -/
theorem Ring.rotate {m : Links α} {a b : α} {l l' : List α} (h : Ring m a (l ++ b :: l')) :
    Ring m b (l' ++ a :: l) := by
  obtain ⟨hto, hfrom⟩ := path_append_cons.mp h.path
  refine ⟨path_append_cons.mpr ⟨hfrom, hto⟩, ?_⟩
  have hperm : (b :: (l' ++ a :: l)).Perm (a :: (l ++ b :: l')) := by
    have hswap : (b :: l' ++ a :: l).Perm (a :: l ++ b :: l') := List.perm_append_comm
    exact hswap
  exact hperm.nodup_iff.mpr h.nodup

/-- A node that points at itself both ways is an empty ring. -/
theorem ring_nil_iff {m : Links α} {a : α} :
    Ring m a [] ↔ (m a).next = some a ∧ (m a).prev = some a :=
  ⟨fun h => h.path, fun h => ⟨h, List.nodup_singleton a⟩⟩

/-- The anchor points at the first member. -/
theorem Ring.next_cons {m : Links α} {a x : α} {xs : List α} (h : Ring m a (x :: xs)) :
    (m a).next = some x := h.path.1

/-- The anchor points at itself exactly when the ring is empty. -/
theorem Ring.next_self_iff {m : Links α} {a : α} {xs : List α} (h : Ring m a xs) :
    (m a).next = some a ↔ xs = [] := by
  cases xs with
  | nil => simp [h.path.1]
  | cons x l =>
    rw [h.next_cons]
    have hne : x ≠ a := fun e => h.notMem (e ▸ List.mem_cons_self)
    simp [hne]

/-- No node of a ring holds a null pointer. -/
theorem Ring.ne_none {m : Links α} {a x : α} {xs : List α} (h : Ring m a xs)
    (hx : x ∈ a :: xs) : (m x).next ≠ none ∧ (m x).prev ≠ none := by
  constructor
  · obtain ⟨y, -, hy, -⟩ := h.path.next_prev hx
    simp [hy]
  · have hx' : x ∈ xs ++ [a] := by
      simp only [List.mem_append, List.mem_singleton]
      rcases List.mem_cons.mp hx with h | h
      · exact Or.inr h
      · exact Or.inl h
    obtain ⟨y, -, hy, -⟩ := h.path.prev_next hx'
    simp [hy]

/-- On a ring, the neighbours of a member are the nodes that point at it. -/
theorem Ring.next_eq_some_iff {m : Links α} {a n x : α} {xs : List α} (h : Ring m a xs)
    (hn : n ∈ a :: xs) (hx : x ∈ a :: xs) : (m x).next = some n ↔ (m n).prev = some x := by
  constructor
  · intro e
    obtain ⟨y, -, hy, hyx⟩ := h.path.next_prev hx
    rw [← Option.some.inj (hy.symm.trans e)]
    exact hyx
  · intro e
    have hn' : n ∈ xs ++ [a] := by
      simp only [List.mem_append, List.mem_singleton]
      exact (List.mem_cons.mp hn).symm
    obtain ⟨y, -, hy, hyn⟩ := h.path.prev_next hn'
    rw [← Option.some.inj (hy.symm.trans e)]
    exact hyn

/-- Two rings on one anchor have the same members: the memory determines the list. -/
theorem Path.unique {m : Links α} {b : α} : ∀ {l l' : List α} {a : α}, Path m a l b →
    Path m a l' b → b ∉ l → b ∉ l' → l = l'
  | [], [], _, _, _, _, _ => rfl
  | [], y :: l', a, h, h', _, hb' => by
    have hy : b = y := Option.some.inj (h.1.symm.trans h'.1)
    exact absurd (hy ▸ List.mem_cons_self) hb'
  | x :: l, [], a, h, h', hb, _ => by
    have hx : x = b := Option.some.inj (h.1.symm.trans h'.1)
    exact absurd (hx ▸ List.mem_cons_self) hb
  | x :: l, y :: l', a, h, h', hb, hb' => by
    have hxy : x = y := Option.some.inj (h.1.symm.trans h'.1)
    subst hxy
    rw [h.2.2.unique h'.2.2 (fun e => hb (List.mem_cons_of_mem _ e))
      (fun e => hb' (List.mem_cons_of_mem _ e))]

theorem Ring.unique {m : Links α} {a : α} {xs ys : List α} (h : Ring m a xs)
    (h' : Ring m a ys) : xs = ys :=
  h.path.unique h'.path h.notMem h'.notMem

/-! ## 3. Linking a node in -/

/-- **A node linked in directly after the anchor.** -/
theorem Ring.pushFront [DecidableEq α] {m m' : Links α} {a n : α} {xs : List α} (h : Ring m a xs)
    (hn : n ∉ a :: xs)
    (han : (m' a).next = some n) (hna : (m' n).prev = some a)
    (hnn : (m' n).next = (m a).next)
    (hnext : ∀ x ∈ xs, (m' x).next = (m x).next)
    (hprev : ∀ x ∈ a :: xs, (m' x).prev = if (m a).next = some x then some n else (m x).prev) :
    Ring m' a (n :: xs) := by
  have hna' : n ≠ a := fun e => hn (e ▸ List.mem_cons_self)
  have hnx : n ∉ xs := fun e => hn (List.mem_cons_of_mem _ e)
  refine ⟨?_, ?_⟩
  · cases xs with
    | nil =>
      have h1 : (m a).next = some a := h.path.1
      refine ⟨han, hna, hnn.trans h1, ?_⟩
      rw [hprev a (by simp), if_pos h1]
    | cons y l =>
      have h1 : (m a).next = some y := h.next_cons
      refine ⟨han, hna, hnn.trans h1, ?_, ?_⟩
      · rw [hprev y (by simp), if_pos h1]
      · refine h.path.2.2.congr (fun x hx => hnext x hx) (fun x hx => ?_)
        -- only the first member's backward pointer moved
        have hxy : x ≠ y := by
          rintro rfl
          have hnd := (List.nodup_cons.mp h.nodup)
          simp only [List.mem_append, List.mem_singleton] at hx
          rcases hx with hx | rfl
          · exact (List.nodup_cons.mp hnd.2).1 hx
          · exact hnd.1 List.mem_cons_self
        have hxm : x ∈ a :: y :: l := by
          simp only [List.mem_append, List.mem_singleton] at hx
          rcases hx with hx | rfl <;> simp [*]
        rw [hprev x hxm, h1, if_neg (fun e => hxy (Option.some.inj e).symm)]
  · rw [List.nodup_cons, List.mem_cons, not_or]
    exact ⟨⟨fun e => hna' e.symm, h.notMem⟩,
      List.nodup_cons.mpr ⟨hnx, (List.nodup_cons.mp h.nodup).2⟩⟩

/-- Extending a path at its end. -/
theorem Path.pushBack [DecidableEq α] {m m' : Links α} {b n : α} : ∀ {l : List α} {a : α}, Path m a l b →
    (a :: l).Nodup → b ∉ l → (m' n).next = some b → (m' b).prev = some n →
    (m' n).prev = (m b).prev →
    (∀ x ∈ a :: l, (m' x).next = if (m b).prev = some x then some n else (m x).next) →
    (∀ x ∈ l, (m' x).prev = (m x).prev) → Path m' a (l ++ [n]) b
  | [], a, h, _, _, hnb, hbn, hnp, hnext, _ => by
    refine ⟨?_, hnp.trans h.2, hnb, hbn⟩
    rw [hnext a (by simp), if_pos h.2]
  | x :: l, a, h, hnd, hb, hnb, hbn, hnp, hnext, hprev => by
    obtain ⟨h1, h2, h3⟩ := h
    have hnd' := List.nodup_cons.mp hnd
    -- the last node of the path is not its first
    have hane : (m b).prev ≠ some a := by
      intro e
      obtain ⟨y, hy, hpy, -⟩ := h3.prev_next (y := b) (by simp)
      have hay : a = y := Option.some.inj (e.symm.trans hpy)
      exact hnd'.1 (hay ▸ hy)
    refine ⟨?_, (hprev x (by simp)).trans h2, h3.pushBack hnd'.2
      (fun e => hb (List.mem_cons_of_mem _ e)) hnb hbn hnp
      (fun y hy => hnext y (List.mem_cons_of_mem _ hy))
      (fun y hy => hprev y (List.mem_cons_of_mem _ hy))⟩
    rw [hnext a (by simp), if_neg hane, h1]

/-- **A node linked in directly before the anchor.** -/
theorem Ring.pushBack [DecidableEq α] {m m' : Links α} {a n : α} {xs : List α} (h : Ring m a xs)
    (hn : n ∉ a :: xs)
    (hnb : (m' n).next = some a) (hbn : (m' a).prev = some n)
    (hnp : (m' n).prev = (m a).prev)
    (hnext : ∀ x ∈ a :: xs, (m' x).next = if (m a).prev = some x then some n else (m x).next)
    (hprev : ∀ x ∈ xs, (m' x).prev = (m x).prev) :
    Ring m' a (xs ++ [n]) := by
  refine ⟨h.path.pushBack h.nodup h.notMem hnb hbn hnp hnext hprev, ?_⟩
  rw [← List.cons_append]
  exact List.Nodup.append h.nodup (List.nodup_singleton n) (List.disjoint_singleton.mpr hn)

/-! ## 4. Unlinking a node -/

/-- A path that avoids `n` keeps its pointers when only the pointers at `n` are redirected. -/
theorem Path.congr_avoid [DecidableEq α] {m m' : Links α} {n b : α} {l : List α} {a : α}
    (h : Path m a l b) (hl : n ∉ l) (ha : n ≠ a) (hb : n ≠ b)
    (hnext : ∀ x ∈ a :: l, (m' x).next = if (m x).next = some n then (m n).next else (m x).next)
    (hprev : ∀ x ∈ l ++ [b],
      (m' x).prev = if (m x).prev = some n then (m n).prev else (m x).prev) :
    Path m' a l b := by
  refine h.congr (fun x hx => ?_) (fun x hx => ?_)
  · obtain ⟨y, hy, hxy, -⟩ := h.next_prev hx
    have hyn : y ≠ n := by
      rintro rfl
      simp only [List.mem_append, List.mem_singleton] at hy
      exact hy.elim hl hb
    rw [hnext x hx, if_neg (by rw [hxy]; exact fun e => hyn (Option.some.inj e))]
  · obtain ⟨y, hy, hxy, -⟩ := h.prev_next hx
    have hyn : y ≠ n := by
      rintro rfl
      exact (List.mem_cons.mp hy).elim ha hl
    rw [hprev x hx, if_neg (by rw [hxy]; exact fun e => hyn (Option.some.inj e))]

/-- A path closes over an inner node when its two neighbours are pointed past it. -/
theorem Path.unlink [DecidableEq α] {m m' : Links α} {n b : α} {l₂ : List α} :
    ∀ {l₁ : List α} {a : α}, Path m a (l₁ ++ n :: l₂) b →
    n ≠ a → n ≠ b → n ∉ l₁ → n ∉ l₂ →
    (∀ x ∈ a :: (l₁ ++ l₂),
      (m' x).next = if (m x).next = some n then (m n).next else (m x).next) →
    (∀ x ∈ l₁ ++ l₂ ++ [b],
      (m' x).prev = if (m x).prev = some n then (m n).prev else (m x).prev) →
    Path m' a (l₁ ++ l₂) b
  | [], a, h, ha, hb, _, h2, hnext, hprev => by
    obtain ⟨h1, h1', h3⟩ := h
    cases l₂ with
    | nil =>
      refine ⟨?_, ?_⟩
      · rw [hnext a (by simp), if_pos h1]; exact h3.1
      · rw [hprev b (by simp), if_pos h3.2]; exact h1'
    | cons y l =>
      obtain ⟨h4, h5, h6⟩ := h3
      refine ⟨?_, ?_, h6.congr_avoid (fun e => h2 (List.mem_cons_of_mem _ e))
        (fun e => h2 (e ▸ List.mem_cons_self)) hb
        (fun x hx => hnext x (by simp only [List.nil_append]; exact List.mem_cons_of_mem _ hx))
        (fun x hx => hprev x (by
          simp only [List.nil_append, List.cons_append]; exact List.mem_cons_of_mem _ hx))⟩
      · rw [hnext a (by simp), if_pos h1]; exact h4
      · rw [hprev y (by simp), if_pos h5]; exact h1'
  | x :: l, a, h, ha, hb, h1, h2, hnext, hprev => by
    obtain ⟨h3, h4, h5⟩ := h
    have hxn : x ≠ n := fun e => h1 (e ▸ List.mem_cons_self)
    refine ⟨?_, ?_, h5.unlink (fun e => hxn e.symm) hb
      (fun e => h1 (List.mem_cons_of_mem _ e)) h2
      (fun y hy => hnext y (List.mem_cons_of_mem _ hy))
      (fun y hy => hprev y (by simp only [List.cons_append]; exact List.mem_cons_of_mem _ hy))⟩
    · rw [hnext a (by simp), if_neg (by rw [h3]; exact fun e => hxn (Option.some.inj e)), h3]
    · rw [hprev x (by simp), if_neg (by rw [h4]; exact fun e => ha (Option.some.inj e).symm), h4]

/-- **A member unlinked.**  Every node of the ring that pointed at `n` now points where `n`
pointed. -/
theorem Ring.unlink [DecidableEq α] {m m' : Links α} {a n : α} {l₁ l₂ : List α}
    (h : Ring m a (l₁ ++ n :: l₂))
    (hnext : ∀ x ∈ a :: (l₁ ++ l₂),
      (m' x).next = if (m x).next = some n then (m n).next else (m x).next)
    (hprev : ∀ x ∈ a :: (l₁ ++ l₂),
      (m' x).prev = if (m x).prev = some n then (m n).prev else (m x).prev) :
    Ring m' a (l₁ ++ l₂) := by
  have hnd : (l₁ ++ n :: l₂).Nodup := (List.nodup_cons.mp h.nodup).2
  have hn : n ∉ l₁ ++ l₂ := by
    rw [List.nodup_middle] at hnd
    exact (List.nodup_cons.mp hnd).1
  have hna : n ≠ a := fun e => h.notMem (e ▸ by simp)
  refine ⟨h.path.unlink hna hna (fun e => hn (List.mem_append_left _ e))
    (fun e => hn (List.mem_append_right _ e)) hnext (fun x hx => hprev x ?_), ?_⟩
  · simp only [List.mem_append, List.mem_cons, List.not_mem_nil, or_false] at hx ⊢
    tauto
  · refine h.nodup.sublist ?_
    exact ((List.sublist_cons_self n l₂).append_left l₁).cons_cons a

end FlightOs
