/-
# The linked lists of `include/list.h`

`struct list_head` is a pair of pointers embedded in the object it links, and a list is a
ring of them around a head that is no member.  The functions are modelled as stores into a
memory of links (`Lib/Ring.lean`), in the order of the source's stores.  A store through a
null pointer traps on the machine and leaves the memory of the model as it was; none of the
lemmas below is about one.

Each operation has one lemma for the ring it edits and one frame lemma for everything else.
-/
import FlightOs.Lib.Ring

namespace FlightOs

variable {α : Type} [DecidableEq α]

/-! ## 1. The operations -/

/-- `p->next = v` -/
def setNext (m : Links α) (p v : Option α) : Links α := fun x =>
  if p = some x then { m x with next := v } else m x

/-- `p->prev = v` -/
def setPrev (m : Links α) (p v : Option α) : Links α := fun x =>
  if p = some x then { m x with prev := v } else m x

/-- `__list_add` -/
def rawListAdd (m : Links α) (new : α) (prev next : Option α) : Links α :=
  let m := setPrev m next (some new)
  let m := setNext m (some new) next
  let m := setPrev m (some new) prev
  setNext m prev (some new)

def listAdd (m : Links α) (new head : α) : Links α :=
  rawListAdd m new (some head) (m head).next

def listAddTail (m : Links α) (new head : α) : Links α :=
  rawListAdd m new (m head).prev (some head)

def initListHead (m : Links α) (list : α) : Links α :=
  let m := setNext m (some list) (some list)
  setPrev m (some list) (some list)

/-- `__list_del` -/
def rawListDel (m : Links α) (prev next : Option α) : Links α :=
  let m := setPrev m next prev
  setNext m prev next

def listDel (m : Links α) (entry : α) : Links α :=
  let m := rawListDel m (m entry).prev (m entry).next
  let m := setNext m (some entry) none
  setPrev m (some entry) none

def listDelInit (m : Links α) (entry : α) : Links α :=
  let m := rawListDel m (m entry).prev (m entry).next
  initListHead m entry

def listMoveTail (m : Links α) (entry head : α) : Links α :=
  listAddTail (rawListDel m (m entry).prev (m entry).next) entry head

/-- `list_replace` -/
def listReplace (m : Links α) (old new : α) : Links α :=
  let m := setNext m (some new) (m old).next
  let m := setPrev m (m new).next (some new)
  let m := setPrev m (some new) (m old).prev
  setNext m (m new).prev (some new)

/-- `list_swap`; the entry before the second one is known before that is taken out. -/
def listSwap (m : Links α) (entry₁ entry₂ : α) : Links α :=
  let pos := (m entry₂).prev
  let m := listDel m entry₂
  let m := listReplace m entry₁ entry₂
  let pos := if pos = some entry₁ then some entry₂ else pos
  match pos with
  | none => m
  | some pos => listAdd m entry₁ pos

def listEmpty (m : Links α) (head : α) : Bool := (m head).next == some head

/-! ## 2. The stores -/

@[simp] theorem setNext_next (m : Links α) (p v : Option α) (x : α) :
    (setNext m p v x).next = if p = some x then v else (m x).next := by
  unfold setNext; split <;> rfl

@[simp] theorem setNext_prev (m : Links α) (p v : Option α) (x : α) :
    (setNext m p v x).prev = (m x).prev := by
  unfold setNext; split <;> rfl

@[simp] theorem setPrev_prev (m : Links α) (p v : Option α) (x : α) :
    (setPrev m p v x).prev = if p = some x then v else (m x).prev := by
  unfold setPrev; split <;> rfl

@[simp] theorem setPrev_next (m : Links α) (p v : Option α) (x : α) :
    (setPrev m p v x).next = (m x).next := by
  unfold setPrev; split <;> rfl

/-! ## 3. Linking in -/

/-- `list_add` puts the new entry first. -/
theorem listAdd_ring {m : Links α} {head new : α} {xs : List α} (h : Ring m head xs)
    (hn : new ∉ head :: xs) : Ring (listAdd m new head) head (new :: xs) := by
  have hne : head ≠ new := fun e => hn (e ▸ List.mem_cons_self)
  have hnx : ∀ x ∈ head :: xs, new ≠ x := fun x hx e => hn (e ▸ hx)
  refine h.pushFront hn ?_ ?_ ?_ (fun x hx => ?_) (fun x hx => ?_)
  · simp [listAdd, rawListAdd]
  · simp [listAdd, rawListAdd]
  · simp [listAdd, rawListAdd, hne]
  · have hhx : head ≠ x := fun e => h.notMem (e ▸ hx)
    simp [listAdd, rawListAdd, hhx, hnx x (List.mem_cons_of_mem _ hx)]
  · simp [listAdd, rawListAdd, hnx x hx]

/-- `list_add` writes the new entry, the head and the entry that was first. -/
theorem listAdd_frame {m : Links α} {head new : α} {xs : List α} (h : Ring m head xs) {x : α}
    (hx : x ∉ head :: xs) (hxn : x ≠ new) : listAdd m new head x = m x := by
  obtain ⟨y, hy, hyn, -⟩ := h.path.next_prev (List.mem_cons_self)
  have hyx : (m head).next ≠ some x := by
    rw [hyn]
    rintro e
    rw [Option.some.inj e, List.mem_append, List.mem_singleton] at hy
    exact hx (hy.elim (List.mem_cons_of_mem _) (fun e => e ▸ List.mem_cons_self))
  have hhx : head ≠ x := fun e => hx (e ▸ List.mem_cons_self)
  refine Link.ext ?_ ?_
  · simp [listAdd, rawListAdd, hhx, hxn.symm]
  · simp [listAdd, rawListAdd, hyx, hxn.symm]

/-- `list_add_tail` puts the new entry last. -/
theorem listAddTail_ring {m : Links α} {head new : α} {xs : List α} (h : Ring m head xs)
    (hn : new ∉ head :: xs) : Ring (listAddTail m new head) head (xs ++ [new]) := by
  have hne : head ≠ new := fun e => hn (e ▸ List.mem_cons_self)
  have hnx : ∀ x ∈ head :: xs, new ≠ x := fun x hx e => hn (e ▸ hx)
  obtain ⟨y, hy, hyp, -⟩ := h.path.prev_next (y := head) (by simp)
  have hyn : y ≠ new := fun e => hn (e ▸ hy)
  refine h.pushBack hn ?_ ?_ ?_ (fun x hx => ?_) (fun x hx => ?_)
  · simp [listAddTail, rawListAdd, hyp, hyn]
  · simp [listAddTail, rawListAdd, hne.symm]
  · simp [listAddTail, rawListAdd]
  · simp [listAddTail, rawListAdd, hnx x hx]
  · have hhx : head ≠ x := fun e => h.notMem (e ▸ hx)
    simp [listAddTail, rawListAdd, hhx, hnx x (List.mem_cons_of_mem _ hx)]

/-- `list_add_tail` writes the new entry, the head and the entry that was last. -/
theorem listAddTail_frame {m : Links α} {head new : α} {xs : List α} (h : Ring m head xs)
    {x : α} (hx : x ∉ head :: xs) (hxn : x ≠ new) : listAddTail m new head x = m x := by
  obtain ⟨y, hy, hyp, -⟩ := h.path.prev_next (y := head) (by simp)
  have hyx : (m head).prev ≠ some x := by
    rw [hyp]
    rintro e
    exact hx (Option.some.inj e ▸ hy)
  have hhx : head ≠ x := fun e => hx (e ▸ List.mem_cons_self)
  refine Link.ext ?_ ?_
  · simp [listAddTail, rawListAdd, hyx, hxn.symm]
  · simp [listAddTail, rawListAdd, hhx, hxn.symm]

/-- `INIT_LIST_HEAD` makes an empty list. -/
theorem initListHead_ring (m : Links α) (list : α) : Ring (initListHead m list) list [] := by
  rw [ring_nil_iff]
  simp [initListHead]

theorem initListHead_frame (m : Links α) {list x : α} (hx : x ≠ list) :
    initListHead m list x = m x :=
  Link.ext (by simp [initListHead, hx.symm]) (by simp [initListHead, hx.symm])

/-! ## 4. Unlinking -/

theorem rawListDel_next (m : Links α) (prev next : Option α) (x : α) :
    (rawListDel m prev next x).next = if prev = some x then next else (m x).next := by
  simp [rawListDel]

theorem rawListDel_prev (m : Links α) (prev next : Option α) (x : α) :
    (rawListDel m prev next x).prev = if next = some x then prev else (m x).prev := by
  simp [rawListDel]

/-- A memory that agrees with `__list_del` on a ring has unlinked the entry from it. -/
theorem unlink_ring_of_agree {m m' : Links α} {head n : α} {xs : List α} (h : Ring m head xs)
    (hn : n ∈ xs)
    (hm : ∀ x ∈ head :: xs, x ≠ n → m' x = rawListDel m (m n).prev (m n).next x) :
    Ring m' head (xs.erase n) := by
  obtain ⟨l₁, l₂, hl, rfl, he⟩ := List.exists_erase_eq hn
  rw [he]
  have hnd : n ∉ l₁ ++ l₂ := by
    have := (List.nodup_cons.mp h.nodup).2
    rw [List.nodup_middle] at this
    exact (List.nodup_cons.mp this).1
  have hmem : ∀ x ∈ head :: (l₁ ++ l₂), x ∈ head :: (l₁ ++ n :: l₂) ∧ x ≠ n := by
    intro x hx
    constructor
    · simp only [List.mem_cons, List.mem_append] at hx ⊢
      tauto
    · rintro rfl
      rcases List.mem_cons.mp hx with e | e
      · exact h.notMem (e ▸ by simp)
      · exact hnd e
  have hnm : n ∈ head :: (l₁ ++ n :: l₂) := by simp
  refine h.unlink (fun x hx => ?_) (fun x hx => ?_)
  · obtain ⟨hxm, hxn⟩ := hmem x hx
    rw [hm x hxm hxn, rawListDel_next]
    simp only [h.next_eq_some_iff hnm hxm]
  · obtain ⟨hxm, hxn⟩ := hmem x hx
    rw [hm x hxm hxn, rawListDel_prev]
    simp only [h.next_eq_some_iff hxm hnm]

/-- Away from the entry's ring, `__list_del` writes nothing. -/
theorem rawListDel_frame {m : Links α} {head n x : α} {xs : List α} (h : Ring m head xs)
    (hn : n ∈ head :: xs) (hx : x ∉ head :: xs) :
    rawListDel m (m n).prev (m n).next x = m x := by
  have hn' : n ∈ xs ++ [head] := by
    simp only [List.mem_append, List.mem_singleton]
    exact (List.mem_cons.mp hn).symm
  obtain ⟨y, hy, hyn, -⟩ := h.path.next_prev hn
  obtain ⟨z, hz, hzn, -⟩ := h.path.prev_next hn'
  have hyx : y ≠ x := by
    rintro rfl
    simp only [List.mem_append, List.mem_singleton] at hy
    exact hx (hy.elim (List.mem_cons_of_mem _) (fun e => e ▸ List.mem_cons_self))
  have hzx : z ≠ x := fun e => hx (e ▸ hz)
  refine Link.ext ?_ ?_
  · rw [rawListDel_next, hzn, if_neg (fun e => hzx (Option.some.inj e))]
  · rw [rawListDel_prev, hyn, if_neg (fun e => hyx (Option.some.inj e))]

theorem listDel_of_ne (m : Links α) {n x : α} (hx : x ≠ n) :
    listDel m n x = rawListDel m (m n).prev (m n).next x :=
  Link.ext (by simp [listDel, hx.symm]) (by simp [listDel, hx.symm])

theorem listDelInit_of_ne (m : Links α) {n x : α} (hx : x ≠ n) :
    listDelInit m n x = rawListDel m (m n).prev (m n).next x :=
  initListHead_frame _ hx

/-- `list_del` takes the entry out of its list. -/
theorem listDel_ring {m : Links α} {head n : α} {xs : List α} (h : Ring m head xs)
    (hn : n ∈ xs) : Ring (listDel m n) head (xs.erase n) :=
  unlink_ring_of_agree h hn (fun _ _ hx => listDel_of_ne m hx)

/-- `list_del` writes the entry and its two neighbours. -/
theorem listDel_frame {m : Links α} {head n x : α} {xs : List α} (h : Ring m head xs)
    (hn : n ∈ head :: xs) (hx : x ∉ head :: xs) : listDel m n x = m x := by
  rw [listDel_of_ne m (by rintro rfl; exact hx hn), rawListDel_frame h hn hx]

/-- `list_del_init` takes the entry out of its list... -/
theorem listDelInit_ring {m : Links α} {head n : α} {xs : List α} (h : Ring m head xs)
    (hn : n ∈ xs) : Ring (listDelInit m n) head (xs.erase n) :=
  unlink_ring_of_agree h hn (fun _ _ hx => listDelInit_of_ne m hx)

/-- `__list_del` takes the entry out of its list, and leaves the entry's own links. -/
theorem rawListDel_ring {m : Links α} {head n : α} {xs : List α} (h : Ring m head xs)
    (hn : n ∈ xs) : Ring (rawListDel m (m n).prev (m n).next) head (xs.erase n) :=
  unlink_ring_of_agree h hn (fun _ _ _ => rfl)

/-- `list_empty` on a list. -/
theorem listEmpty_iff {m : Links α} {head : α} {xs : List α} (h : Ring m head xs) :
    listEmpty m head = true ↔ xs = [] := by
  rw [listEmpty, beq_iff_eq, h.next_self_iff]

/-! ## 5. Replacing and swapping -/

theorem listReplace_next (m : Links α) (old new x : α) (h : (m old).next ≠ some old) :
    (listReplace m old new x).next =
      if (m old).prev = some x then some new else if new = x then (m old).next else (m x).next := by
  simp [listReplace, h]

theorem listReplace_prev (m : Links α) (old new x : α) (h : (m old).next ≠ some old) :
    (listReplace m old new x).prev =
      if new = x then (m old).prev else if (m old).next = some x then some new else (m x).prev := by
  simp [listReplace, h]

/-- `list_replace` on the anchor of a ring puts the new entry in its place. -/
theorem listReplace_ring {m : Links α} {old new : α} {xs : List α} (h : Ring m old xs)
    (hn : new ∉ old :: xs) : Ring (listReplace m old new) new xs := by
  have hne : new ≠ old := fun e => hn (e ▸ List.mem_cons_self)
  by_cases hxs : xs = []
  · subst hxs
    have hnext : (m old).next = some old := h.path.1
    rw [ring_nil_iff]
    simp [listReplace, hnext]
  have hself : (m old).next ≠ some old := fun e => hxs (h.next_self_iff.mp e)
  have hmem : ∀ {x}, x ∈ xs ++ [old] ↔ x ∈ old :: xs := by
    intro x
    rw [List.mem_append, List.mem_singleton, List.mem_cons, or_comm]
  -- the old entry is renamed
  let r : α → α := fun x => if x = old then new else x
  have hold : r old = new := if_pos rfl
  have hr : ∀ {x}, x ≠ old → r x = x := fun hx => if_neg hx
  have hmap : xs.map r = xs :=
    (List.map_congr_left fun x hx => hr fun e => h.notMem (e ▸ hx)).trans (List.map_id _)
  have hpath : Path (listReplace m old new) (r old) (xs.map r) (r old) := by
    refine h.path.map (fun x hx => ?_) (fun x hx => ?_)
    · obtain ⟨y, hy, hxy, -⟩ := h.path.next_prev hx
      have hback := h.next_eq_some_iff List.mem_cons_self hx
      by_cases hxo : x = old
      · subst hxo
        have hyo : y ≠ x := fun e => hself (e ▸ hxy)
        obtain ⟨z, hz, hzx, -⟩ := h.path.prev_next (hmem.mpr List.mem_cons_self)
        have hzn : z ≠ new := fun e => hn (e ▸ hz)
        rw [hold, listReplace_next _ _ _ _ hself, hzx, if_neg fun e => hzn (Option.some.inj e),
          if_pos rfl, hxy, Option.map_some, hr hyo]
      · have hxn : new ≠ x := fun e => hn (e ▸ hx)
        rw [hr hxo, listReplace_next _ _ _ _ hself, if_neg hxn]
        by_cases hlast : (m x).next = some old
        · rw [if_pos (hback.mp hlast), hlast, Option.map_some, hold]
        · have hyo : y ≠ old := fun e => hlast (e ▸ hxy)
          rw [if_neg fun e => hlast (hback.mpr e), hxy, Option.map_some, hr hyo]
    · obtain ⟨y, hy, hxy, -⟩ := h.path.prev_next hx
      have hx := hmem.mp hx
      have hback := h.next_eq_some_iff hx List.mem_cons_self
      by_cases hxo : x = old
      · subst hxo
        have hyo : y ≠ x := fun e => hself (hback.mpr (e ▸ hxy))
        rw [hold, listReplace_prev _ _ _ _ hself, if_pos rfl, hxy, Option.map_some, hr hyo]
      · have hxn : new ≠ x := fun e => hn (e ▸ hx)
        rw [hr hxo, listReplace_prev _ _ _ _ hself, if_neg hxn]
        by_cases hfirst : (m old).next = some x
        · rw [if_pos hfirst, hback.mp hfirst, Option.map_some, hold]
        · have hyo : y ≠ old := fun e => hfirst (hback.mpr (e ▸ hxy))
          rw [if_neg hfirst, hxy, Option.map_some, hr hyo]
  rw [hmap, hold] at hpath
  exact ⟨hpath, List.nodup_cons.mpr ⟨fun e => hn (List.mem_cons_of_mem _ e), h.nodup.of_cons⟩⟩

/-- `list_swap` on an entry and the one after it. -/
theorem listSwap_ring {m : Links α} {a b : α} {xs : List α} (h : Ring m a (b :: xs)) :
    Ring (listSwap m a b) b (a :: xs) := by
  have hprev : (m b).prev = some a := h.path.2.1
  have hdel := listDel_ring h List.mem_cons_self
  rw [List.erase_cons_head] at hdel
  have hnodup := List.nodup_cons.mp h.nodup
  have hb : b ∉ a :: xs := by
    rw [List.mem_cons, not_or]
    exact ⟨fun e => hnodup.1 (e ▸ List.mem_cons_self), (List.nodup_cons.mp hnodup.2).1⟩
  have ha : a ∉ b :: xs := hnodup.1
  have hreplace := listReplace_ring hdel hb
  rw [listSwap, hprev, if_pos rfl]
  exact listAdd_ring hreplace ha

/-- Two entries that follow each other on a list. -/
theorem listSwap_entries {m : Links α} {head a b : α} {pre rest : List α}
    (h : Ring m head (pre ++ a :: b :: rest)) :
    Ring (listSwap m a b) head (pre ++ b :: a :: rest) := by
  have hswap := listSwap_ring (h.rotate : Ring m a (b :: rest ++ head :: pre))
  exact (hswap.rotate (l := a :: rest) : Ring _ head (pre ++ b :: a :: rest))

/-- The last entry and the head: it becomes the first one. -/
theorem listSwap_head {m : Links α} {head a : α} {pre : List α} (h : Ring m head (pre ++ [a])) :
    Ring (listSwap m a head) head (a :: pre) :=
  listSwap_ring (h.rotate : Ring m a (head :: pre))

end FlightOs
