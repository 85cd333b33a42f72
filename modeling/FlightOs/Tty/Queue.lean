/-
# The queue of `queue.h`

A queue in an array of a power of two of places.  The indices wrap by a mask, and one place stays unused:
`head` is where the next item is put, `tail` where the next one is taken, and the queue is empty where they
are equal.

`QueueHolds q k items` says that the queue, of `2 ^ k` places, has these items, from the tail on.  Of it the
numbers of used and of free places are known (`queueUsed_eq`, `queueLeft_eq`), and what a `put` and a `get`
leave.
-/
import FlightOs.Lib.Rotation
import FlightOs.Lib.Word
import Mathlib.Logic.Function.Basic

namespace FlightOs

/-- `QUEUE_DECLARE` -/
structure MaskedQueue (α : Type) where
  head : Nat
  tail : Nat
  wrap : Nat
  data : Nat → α

section Queue

variable {α : Type}

/-- `QUEUE_INIT`, over an array -/
def queueInit (k : Nat) (data : Nat → α) : MaskedQueue α := ⟨0, 0, 2 ^ k - 1, data⟩

def queueLeft (q : MaskedQueue α) : Nat := wsub (wsub q.tail q.head) 1 &&& q.wrap

def queueUsed (q : MaskedQueue α) : Nat := wsub q.head q.tail &&& q.wrap

/-- `queue_get`; `none` is its error. -/
def queueGet (q : MaskedQueue α) : Option (α × MaskedQueue α) :=
  if queueUsed q = 0 then none
  else some (q.data q.tail, { q with tail := wadd q.tail 1 &&& q.wrap })

/-- `queue_put`, and whether the item was put. -/
def queuePut (q : MaskedQueue α) (item : α) : MaskedQueue α × Bool :=
  if queueLeft q = 0 then (q, false)
  else ({ q with data := Function.update q.data q.head item, head := wadd q.head 1 &&& q.wrap }, true)

/-- The queue has these items. -/
structure QueueHolds (q : MaskedQueue α) (k : Nat) (items : List α) : Prop where
  wrap : q.wrap = 2 ^ k - 1
  head : q.head = circle (2 ^ k) q.tail items.length
  tail : q.tail < 2 ^ k
  room : items.length < 2 ^ k
  items : items = (arc (2 ^ k) q.tail 0 items.length).map q.data

variable {q q' : MaskedQueue α} {k : Nat} {items : List α} {item : α}

theorem queueInit_holds (k : Nat) (data : Nat → α) : QueueHolds (queueInit k data) k [] where
  wrap := rfl
  head := (circle_zero (Nat.two_pow_pos k)).symm
  tail := Nat.two_pow_pos k
  room := Nat.two_pow_pos k
  items := rfl

theorem wsub_modEq (a b : Nat) : wsub a b + b ≡ a [MOD 2 ^ 32] := by
  rw [Nat.ModEq, wsub]
  omega

/-- **A difference, masked**, is what makes up the difference on the circle. -/
theorem wsub_mask (hk : k ≤ 32) {a b c : Nat} (hc : c < 2 ^ k) (h : c + b ≡ a [MOD 2 ^ k]) :
    wsub a b &&& (2 ^ k - 1) = c := by
  have hsub : wsub a b ≡ c [MOD 2 ^ k] :=
    Nat.ModEq.add_right_cancel' b (((wsub_modEq a b).of_dvd (Nat.pow_dvd_pow 2 hk)).trans h.symm)
  rw [Nat.and_two_pow_sub_one_eq_mod]
  exact (Nat.mod_eq_of_modEq hsub hc)

/-- An index goes on by a step. -/
theorem wadd_mask (hk : k ≤ 32) (a : Nat) : wadd a 1 &&& (2 ^ k - 1) = circle (2 ^ k) a 1 := by
  rw [Nat.and_two_pow_sub_one_eq_mod, wadd, Nat.mod_mod_of_dvd _ (Nat.pow_dvd_pow 2 hk), circle,
    Nat.add_comm]

namespace QueueHolds

theorem head_modEq (h : QueueHolds q k items) : q.tail + items.length ≡ q.head [MOD 2 ^ k] := by
  rw [h.head]
  exact (Nat.mod_modEq _ _).symm

/-- The number of items. -/
theorem queueUsed_eq (h : QueueHolds q k items) (hk : k ≤ 32) : queueUsed q = items.length := by
  rw [queueUsed, h.wrap]
  refine wsub_mask hk h.room ?_
  rw [Nat.add_comm]
  exact h.head_modEq

/-- The number of free places. -/
theorem queueLeft_eq (h : QueueHolds q k items) (hk : k ≤ 32) :
    queueLeft q = 2 ^ k - 1 - items.length := by
  have hroom := h.room
  rw [queueLeft, h.wrap]
  refine wsub_mask hk (by omega) (Nat.ModEq.add_right_cancel' q.head ?_)
  -- from the head on, the free places and the unused one lead to the tail
  calc 2 ^ k - 1 - items.length + 1 + q.head
      ≡ 2 ^ k - 1 - items.length + 1 + (q.tail + items.length) [MOD 2 ^ k] :=
        Nat.ModEq.add_left _ h.head_modEq.symm
    _ = q.tail + 2 ^ k := by omega
    _ ≡ q.tail [MOD 2 ^ k] := Nat.add_mod_right _ _
    _ ≡ wsub q.tail q.head + q.head [MOD 2 ^ k] :=
        ((wsub_modEq q.tail q.head).of_dvd (Nat.pow_dvd_pow 2 hk)).symm

/-- **Putting an item** where there is a free place. -/
theorem put (h : QueueHolds q k items) (hk : k ≤ 32) (hleft : queueLeft q ≠ 0) (item : α) :
    QueueHolds (queuePut q item).1 k (items ++ [item]) := by
  have hroom := h.room
  rw [h.queueLeft_eq hk] at hleft
  rw [queuePut, if_neg (by rw [h.queueLeft_eq hk]; exact hleft)]
  have hlen : items.length + 1 < 2 ^ k := by omega
  refine ⟨h.wrap, ?_, h.tail, by rw [List.length_append]; exact hlen, ?_⟩
  · dsimp only
    rw [h.wrap, wadd_mask hk, h.head, circle_circle, List.length_append, List.length_singleton]
  · dsimp only
    rw [List.length_append, List.length_singleton, arc_succ_right, List.map_append, List.map_singleton,
      Nat.zero_add, ← h.head, Function.update_self]
    refine congrArg (· ++ [item]) (h.items.trans (List.map_congr_left fun i hi => ?_))
    obtain ⟨j, hj, rfl⟩ := mem_arc.mp hi
    refine (Function.update_of_ne ?_ _ _).symm
    rw [h.head, Nat.zero_add]
    intro heq
    exact absurd ((circle_inj (by omega) hroom).mp heq) (by omega)

/-- There is a free place less. -/
theorem put_left (h : QueueHolds q k items) (hk : k ≤ 32) (hleft : queueLeft q ≠ 0) (item : α) :
    queueLeft (queuePut q item).1 + 1 = queueLeft q := by
  rw [(h.put hk hleft item).queueLeft_eq hk, h.queueLeft_eq hk, List.length_append, List.length_singleton]
  rw [h.queueLeft_eq hk] at hleft
  omega

/-- **Taking an item** where there is one. -/
theorem get (h : QueueHolds q k (item :: items)) (hk : k ≤ 32) :
    ∃ q', queueGet q = some (item, q') ∧ QueueHolds q' k items := by
  have hroom := h.room
  have hused : queueUsed q ≠ 0 := by
    rw [h.queueUsed_eq hk]
    exact Nat.succ_ne_zero _
  have hitems := h.items
  rw [List.length_cons, arc_succ_left, List.map_cons, circle_zero h.tail] at hitems
  obtain ⟨hitem, hrest⟩ := List.cons_eq_cons.mp hitems
  rw [queueGet, if_neg hused, ← hitem]
  refine ⟨_, rfl, h.wrap, ?_, ?_, Nat.lt_of_succ_lt hroom, ?_⟩
  · dsimp only
    rw [h.wrap, wadd_mask hk, circle_circle, Nat.add_comm 1]
    exact h.head
  · dsimp only
    rw [h.wrap, wadd_mask hk]
    exact circle_lt (Nat.two_pow_pos k)
  · dsimp only
    rw [h.wrap, wadd_mask hk, arc_circle]
    exact hrest

/-- There is a free place more. -/
theorem get_left (h : QueueHolds q k (item :: items)) (hk : k ≤ 32) (h' : QueueHolds q' k items) :
    queueLeft q ≤ queueLeft q' := by
  rw [h.queueLeft_eq hk, h'.queueLeft_eq hk, List.length_cons]
  omega

/-- Nothing is taken where there is nothing. -/
theorem get_nil (h : QueueHolds q k ([] : List α)) (hk : k ≤ 32) : queueGet q = none := by
  rw [queueGet, h.queueUsed_eq hk]
  exact if_pos rfl

end QueueHolds

end Queue

end FlightOs
