/-
# Registering interrupt handlers

A handler is registered with an element of the pool, which is moved to the line of its interrupt: one of
16 lines of the primary table or of 32 lines of the extended one (`arch/sparc/kernel/irq.c`).  It is
taken off the line, and its element goes back to the pool, when the handler is deregistered with the
same arguments.

The checks of the interrupt number and the lines do not fit together:
* both registration functions accept the first number behind the lines of the primary table, and the
  one for the extended table accepts 16 more than there are lines where its lines have the numbers of
  the interrupts (LEON3, LEON4);
* where they do not (LEON2), only the registration takes the number of the interrupt to that of the
  line.  `eirl_deregister_handler` looks at another line.

`irl_registry_iff`: the elements are conserved, no line is touched that does not exist, and exactly the
handlers that were registered with the same arguments are deregistered, if and only if no call of a run
is one of these.
-/
import FlightOs.Irq.Queue
import FlightOs.Irq.Rate
import FlightOs.Lib.Places

namespace FlightOs

/-! ## 1. The tables -/

/-- The LEON4 is treated like the LEON3. -/
inductive LeonModel
  | leon2
  | leon3
  deriving DecidableEq, Repr

inductive IrqTable
  | primary
  | extended
  deriving DecidableEq, Repr

def irlPoolSize : Nat := 64

def IrqTable.size : IrqTable → Nat
  | .primary => irlSize
  | .extended => eirlSize

/-- `LEON_REAL_EIRQ`; the lines of the LEON2 are counted from 0. -/
def LeonModel.realEirq : LeonModel → Nat → Nat
  | .leon2, x => x - irlSize
  | .leon3, x => x

/-- `struct irl_vector_elem`.  The handler 0 is the null pointer; an element that goes back to the pool
gets the priority -1, which is none. -/
structure IrlElem where
  handler : Nat
  priority : Option IsrExecPriority
  data : Nat
  irq : Nat
  deriving DecidableEq, Repr

/-- What the interrupt controller is told. -/
inductive IrqControl
  | enable (irq cpu : Nat)
  | disable (irq cpu : Nat)
  deriving DecidableEq, Repr

/-- The pool and the lines, with their elements by place in `irl_pool`; `irq_cpu_affinity`, none for
`CPU_AFFINITY_NONE`; and the number of the interrupt that each element was registered for. -/
structure IrlTables where
  elems : Nat → IrlElem
  pool : List Nat
  vector : IrqTable → Nat → List Nat
  affinity : Nat → Option Nat
  control : List IrqControl
  given : Nat → Nat

/-- The arguments of a call, and the processor that makes it. -/
structure IrlCall where
  irq : Nat
  handler : Nat
  data : Nat
  cpu : Nat
  deriving DecidableEq, Repr

def IrlTables.setLine (s : IrlTables) (t : IrqTable) (i : Nat) (line : List Nat) : IrlTables :=
  { s with vector := Function.update s.vector t (Function.update (s.vector t) i line) }

/-- The interrupt is enabled for the processor that has been set for it, or for this one. -/
def IrlTables.enable (leon : LeonModel) (s : IrlTables) (irq cpu : Nat) : IrlTables :=
  match leon, s.affinity irq with
  | .leon2, _ => { s with control := s.control ++ [.enable irq 0] }
  | .leon3, some cpu' => { s with control := s.control ++ [.enable irq cpu'] }
  | .leon3, none =>
    { s with
      affinity := Function.update s.affinity irq (some cpu)
      control := s.control ++ [.enable irq cpu] }

/-- The two functions to register a handler: what they refuse, and the line they move the element to.
There is no result if the line does not exist. -/
def registerHandler (leon : LeonModel) (t : IrqTable) (refused : Bool) (index : Nat) (s : IrlTables)
    (priority : IsrExecPriority) (c : IrlCall) : Option (Int × IrlTables) :=
  match s.pool with
  | [] => some (-ENOMEM, s)
  | p :: pool =>
    if refused then some (-EINVAL, s)
    else if c.handler = 0 then some (-EINVAL, s)
    else if index < t.size then
      let s' := { s with
        elems := Function.update s.elems p ⟨c.handler, some priority, c.data, index⟩
        pool := pool
        given := Function.update s.given p c.irq }
      some (0, (s'.setLine t index (s.vector t index ++ [p])).enable leon c.irq c.cpu)
    else none

/-- `irl_register_handler` -/
def irlRegisterHandler (leon : LeonModel) (s : IrlTables) (priority : IsrExecPriority) (c : IrlCall) :
    Option (Int × IrlTables) :=
  registerHandler leon .primary (decide (c.irq > irlSize)) c.irq s priority c

/-- `eirl_register_handler` -/
def eirlRegisterHandler (leon : LeonModel) (s : IrlTables) (priority : IsrExecPriority) (c : IrlCall) :
    Option (Int × IrlTables) :=
  registerHandler leon .extended (decide (c.irq > irlSize + eirlSize) || decide (c.irq < irlSize))
    (leon.realEirq c.irq) s priority c

/-- The turn of an element of the line, in the functions to deregister a handler. -/
def deregisterElem (t : IrqTable) (i : Nat) (c : IrlCall) (s : IrlTables) (p : Nat) : IrlTables :=
  if (s.elems p).handler = c.handler ∧ (s.elems p).data = c.data then
    let s' := { s with
      elems := Function.update s.elems p { s.elems p with handler := 0, data := 0, priority := none }
      pool := s.pool ++ [p] }.setLine t i ((s.vector t i).erase p)
    if s'.vector t i = [] then { s' with control := s'.control ++ [.disable c.irq c.cpu] } else s'
  else s

/-- The two functions to deregister a handler: what they refuse.  The element after the current one is
known before its turn. -/
def deregisterHandler (t : IrqTable) (refused : Bool) (s : IrlTables) (c : IrlCall) :
    Option (Int × IrlTables) :=
  if refused then some (-EINVAL, s)
  else if c.irq < t.size then
    some (0, (s.vector t c.irq).foldl (deregisterElem t c.irq c) s)
  else none

/-- `irl_deregister_handler` -/
def irlDeregisterHandler (s : IrlTables) (c : IrlCall) : Option (Int × IrlTables) :=
  deregisterHandler .primary (decide (c.irq > 0xf)) s c

/-- `eirl_deregister_handler` -/
def eirlDeregisterHandler (s : IrlTables) (c : IrlCall) : Option (Int × IrlTables) :=
  deregisterHandler .extended (decide (c.irq > 0x1f) || decide (c.irq < 0x10)) s c

inductive IrlOp
  | register (t : IrqTable) (priority : IsrExecPriority) (c : IrlCall)
  | deregister (t : IrqTable) (c : IrlCall)
  deriving DecidableEq, Repr

def irlStep (leon : LeonModel) (s : IrlTables) : IrlOp → Option (Int × IrlTables)
  | .register .primary priority c => irlRegisterHandler leon s priority c
  | .register .extended priority c => eirlRegisterHandler leon s priority c
  | .deregister .primary c => irlDeregisterHandler s c
  | .deregister .extended c => eirlDeregisterHandler s c

/-- `irq_dispatch_init` -/
def irlInit : IrlTables where
  elems := fun _ => ⟨0, some .now, 0, 0⟩
  pool := List.range irlPoolSize
  vector := fun _ _ => []
  affinity := fun _ => none
  control := []
  given := fun _ => 0

/-! ## 2. The registry -/

/-- A handler that is registered. -/
structure Registration where
  table : IrqTable
  irq : Nat
  handler : Nat
  data : Nat
  priority : Option IsrExecPriority
  deriving DecidableEq, Repr

/-- The registration is one with these arguments. -/
def Registration.Matches (t : IrqTable) (c : IrlCall) (e : Registration) : Prop :=
  e.table = t ∧ e.irq = c.irq ∧ e.handler = c.handler ∧ e.data = c.data

instance (t : IrqTable) (c : IrlCall) (e : Registration) : Decidable (e.Matches t c) :=
  inferInstanceAs (Decidable (_ ∧ _ ∧ _ ∧ _))

/-- The lines of both tables. -/
def irlLines : List (IrqTable × Nat) :=
  (List.range irlSize).map (IrqTable.primary, ·) ++ (List.range eirlSize).map (IrqTable.extended, ·)

def IrlTables.entry (s : IrlTables) (t : IrqTable) (p : Nat) : Registration :=
  ⟨t, s.given p, (s.elems p).handler, (s.elems p).data, (s.elems p).priority⟩

/-- The handlers that are registered: what the tables are there for. -/
def IrlTables.registered (s : IrlTables) : List Registration :=
  irlLines.flatMap fun l => (s.vector l.1 l.2).map (s.entry l.1)

/-- Each element is in the pool or on a line, once. -/
def IrlTables.Conserved (s : IrlTables) : Prop :=
  (s.pool ++ irlLines.flatMap fun l => s.vector l.1 l.2).Perm (List.range irlPoolSize)

/-- What a call does to the registered handlers. -/
def RegistryStep (s s' : IrlTables) (ret : Int) : IrlOp → Prop
  | .register t priority c =>
    s'.registered.Perm
      (if ret = 0 then ⟨t, c.irq, c.handler, c.data, some priority⟩ :: s.registered else s.registered)
  | .deregister t c => s'.registered.Perm (s.registered.filter fun e => ¬ e.Matches t c)

/-- **A call is right**: it touches no line that does not exist, no element is lost, and the handlers
that are registered are what they should be. -/
def IrlRight (leon : LeonModel) (s : IrlTables) (o : IrlOp) : Prop :=
  ∃ ret s', irlStep leon s o = some (ret, s') ∧ s'.Conserved ∧ RegistryStep s s' ret o

/-- **The calls that are right.**  A handler is registered for a line that exists.  On the LEON2, nothing
is registered with the arguments of a call to deregister an extended interrupt; nor for the interrupt
whose line is the one that it looks at. -/
def IrlFits (leon : LeonModel) (s : IrlTables) : IrlOp → Prop
  | .register .primary _ c => s.pool ≠ [] → c.handler ≠ 0 → c.irq ≠ irlSize
  | .register .extended _ c =>
    s.pool ≠ [] → c.handler ≠ 0 → c.irq ≤ irlSize + eirlSize → leon.realEirq c.irq < eirlSize
  | .deregister .primary _ => True
  | .deregister .extended c =>
    leon = .leon2 → ∀ e ∈ s.registered, e.table = .extended → e.handler = c.handler →
      e.data = c.data → e.irq ≠ c.irq ∧ (irlSize ≤ c.irq → e.irq ≠ c.irq + irlSize)

instance (leon : LeonModel) (s : IrlTables) : ∀ o, Decidable (IrlFits leon s o)
  | .register .primary _ _ => inferInstanceAs (Decidable (_ → _))
  | .register .extended _ _ => inferInstanceAs (Decidable (_ → _))
  | .deregister .primary _ => isTrue trivial
  | .deregister .extended _ => inferInstanceAs (Decidable (_ → _))

/-! ## 3. Lines -/

section Lines

theorem mem_irlLines {t : IrqTable} {i : Nat} : (t, i) ∈ irlLines ↔ i < t.size := by
  cases t with
  | primary => simp [irlLines, IrqTable.size]
  | extended => simp [irlLines, IrqTable.size]

theorem irlLines_nodup : irlLines.Nodup := by decide

variable {leon : LeonModel} {s s' : IrlTables} {t : IrqTable} {i p : Nat}

@[simp] theorem IrlTables.enable_elems (s : IrlTables) (irq cpu : Nat) :
    (s.enable leon irq cpu).elems = s.elems := by
  unfold IrlTables.enable
  split <;> rfl

@[simp] theorem IrlTables.enable_pool (s : IrlTables) (irq cpu : Nat) :
    (s.enable leon irq cpu).pool = s.pool := by
  unfold IrlTables.enable
  split <;> rfl

@[simp] theorem IrlTables.enable_vector (s : IrlTables) (irq cpu : Nat) :
    (s.enable leon irq cpu).vector = s.vector := by
  unfold IrlTables.enable
  split <;> rfl

@[simp] theorem IrlTables.enable_given (s : IrlTables) (irq cpu : Nat) :
    (s.enable leon irq cpu).given = s.given := by
  unfold IrlTables.enable
  split <;> rfl

theorem IrlTables.setLine_self (s : IrlTables) (t : IrqTable) (i : Nat) (line : List Nat) :
    (s.setLine t i line).vector t i = line := by
  simp only [IrlTables.setLine, Function.update_self]

theorem IrlTables.setLine_other {t' : IrqTable} {i' : Nat} (line : List Nat) (h : (t', i') ≠ (t, i)) :
    (s.setLine t i line).vector t' i' = s.vector t' i' := by
  simp only [IrlTables.setLine]
  by_cases ht : t' = t
  · subst ht
    have hi : i' ≠ i := fun hi => h (by rw [hi])
    rw [Function.update_self, Function.update_of_ne hi]
  · rw [Function.update_of_ne ht]

/-- Nothing is in two places. -/
theorem IrlTables.Conserved.nodup (h : s.Conserved) :
    (s.pool ++ irlLines.flatMap fun l => s.vector l.1 l.2).Nodup :=
  h.nodup_iff.mpr List.nodup_range

theorem IrlTables.Conserved.line_nodup (h : s.Conserved) (hi : i < t.size) : (s.vector t i).Nodup :=
  (List.nodup_flatMap.mp h.nodup.of_append_right).1 (t, i) (mem_irlLines.mpr hi)

theorem IrlTables.Conserved.pool_apart (h : s.Conserved) (hp : p ∈ s.pool) (hi : i < t.size) :
    p ∉ s.vector t i := fun hmem =>
  (List.nodup_append.mp h.nodup).2.2 p hp p
    (List.mem_flatMap.mpr ⟨(t, i), mem_irlLines.mpr hi, hmem⟩) rfl

theorem IrlTables.Conserved.line_apart (h : s.Conserved) {t' : IrqTable} {i' : Nat} (hi : i < t.size)
    (hi' : i' < t'.size) (hp : p ∈ s.vector t i) (hp' : p ∈ s.vector t' i') : (t', i') = (t, i) :=
  flatMap_apart irlLines_nodup h.nodup.of_append_right (mem_irlLines.mpr hi) (mem_irlLines.mpr hi') hp hp'

theorem mem_registered {e : Registration} :
    e ∈ s.registered ↔ ∃ t i, i < t.size ∧ ∃ p ∈ s.vector t i, s.entry t p = e := by
  simp only [IrlTables.registered, List.mem_flatMap, List.mem_map, Prod.exists, mem_irlLines]

end Lines

/-! ## 4. Registering -/

section Registering

variable {leon : LeonModel} {s s' : IrlTables} {t : IrqTable} {i p : Nat} {c : IrlCall}
  {priority : IsrExecPriority} {refused : Bool} {ret : Int}

/-- The line of an interrupt. -/
def lineOf (leon : LeonModel) : IrqTable → Nat → Nat
  | .primary, irq => irq
  | .extended, irq => leon.realEirq irq

/-- What holds in every run: nothing is lost, and the elements are on the lines of the interrupts that
they were registered for. -/
structure IrlInv (leon : LeonModel) (s : IrlTables) : Prop where
  conserved : s.Conserved
  range : ∀ {t i p}, p ∈ s.vector t i → i < t.size
  line : ∀ {t i p}, p ∈ s.vector t i → i = lineOf leon t (s.given p)
  given : ∀ {i p}, p ∈ s.vector .extended i → irlSize ≤ s.given p

theorem irlInit_inv (leon : LeonModel) : IrlInv leon irlInit where
  conserved := by
    have hlines : (irlLines.flatMap fun l => irlInit.vector l.1 l.2) = [] :=
      List.flatMap_eq_nil_iff.mpr fun _ _ => rfl
    rw [IrlTables.Conserved, hlines, List.append_nil]
    exact List.Perm.refl _
  range h := by cases h
  line h := by cases h
  given h := by cases h

/-- What `registerHandler` can do. -/
theorem registerHandler_cases (leon : LeonModel) (t : IrqTable) (refused : Bool) (i : Nat)
    (s : IrlTables) (priority : IsrExecPriority) (c : IrlCall) :
    (s.pool = [] ∨ refused = true ∨ c.handler = 0) ∧
        (∃ ret, ret ≠ 0 ∧ registerHandler leon t refused i s priority c = some (ret, s)) ∨
      s.pool ≠ [] ∧ refused = false ∧ c.handler ≠ 0 ∧
        ((t.size ≤ i ∧ registerHandler leon t refused i s priority c = none) ∨
          i < t.size ∧ ∃ p pool, s.pool = p :: pool ∧
            registerHandler leon t refused i s priority c = some (0,
              ({ s with
                elems := Function.update s.elems p ⟨c.handler, some priority, c.data, i⟩
                pool := pool
                given := Function.update s.given p c.irq }.setLine t i (s.vector t i ++ [p])).enable
                  leon c.irq c.cpu)) := by
  unfold registerHandler
  cases hpool : s.pool with
  | nil => exact .inl ⟨.inl rfl, _, by decide, rfl⟩
  | cons p pool =>
    cases refused with
    | true => exact .inl ⟨.inr (.inl rfl), _, by decide, if_pos rfl⟩
    | false =>
      by_cases hnull : c.handler = 0
      · exact .inl ⟨.inr (.inr hnull), -EINVAL, by decide, by simp [hnull]⟩
      refine .inr ⟨List.cons_ne_nil _ _, rfl, hnull, ?_⟩
      by_cases hi : i < t.size
      · exact .inr ⟨hi, p, pool, rfl, by simp [hnull, hi]⟩
      · exact .inl ⟨Nat.le_of_not_lt hi, by simp [hnull, hi]⟩

/-- The element at the head of the pool has been filled and moved to a line. -/
structure Registered (t : IrqTable) (i p irq : Nat) (e : IrlElem) (s s' : IrlTables) : Prop where
  pool : s.pool = p :: s'.pool
  line : s'.vector t i = s.vector t i ++ [p]
  other : ∀ {t' i'}, (t', i') ≠ (t, i) → s'.vector t' i' = s.vector t' i'
  elems : s'.elems = Function.update s.elems p e
  given : s'.given = Function.update s.given p irq

theorem registered_of_register {pool : List Nat} (hpool : s.pool = p :: pool) (e : IrlElem)
    (irq cpu : Nat) :
    Registered t i p irq e s
      (({ s with
        elems := Function.update s.elems p e
        pool := pool
        given := Function.update s.given p irq }.setLine t i (s.vector t i ++ [p])).enable leon irq cpu) where
  pool := by rw [IrlTables.enable_pool]; exact hpool
  line := by rw [IrlTables.enable_vector, IrlTables.setLine_self]
  other h := by rw [IrlTables.enable_vector, IrlTables.setLine_other _ h]
  elems := IrlTables.enable_elems _ _ _
  given := IrlTables.enable_given _ _ _

variable {irq : Nat} {e : IrlElem}

theorem Registered.mem_pool (h : Registered t i p irq e s s') : p ∈ s.pool := by
  rw [h.pool]
  exact List.mem_cons_self

theorem Registered.conserved (h : Registered t i p irq e s s') (hs : s.Conserved) (hi : i < t.size) :
    s'.Conserved := by
  have hold := flatMap_split (f := fun l => s.vector l.1 l.2) (mem_irlLines.mpr hi)
  have hnew := flatMap_change (f := fun l => s.vector l.1 l.2) (g := fun l => s'.vector l.1 l.2)
    irlLines_nodup (mem_irlLines.mpr hi) fun q _ hq => h.other hq
  dsimp only at hold hnew
  rw [h.line] at hnew
  refine List.Perm.trans ?_ hs
  rw [h.pool]
  refine (hnew.append_left _).trans (List.Perm.trans ?_ (hold.symm.append_left (p :: s'.pool)))
  rw [List.append_assoc, List.singleton_append, List.cons_append]
  exact (List.perm_middle.append_left _).trans List.perm_middle

/-- An element that is on a line already is as it was. -/
theorem Registered.entry (h : Registered t i p irq e s s') (hs : s.Conserved) {t' : IrqTable}
    {i' q : Nat} (hi : i' < t'.size) (hq : q ∈ s.vector t' i') : s'.entry t' q = s.entry t' q := by
  have hne : q ≠ p := fun heq => hs.pool_apart h.mem_pool hi (heq ▸ hq)
  rw [IrlTables.entry, IrlTables.entry, h.elems, h.given, Function.update_of_ne hne,
    Function.update_of_ne hne]

theorem Registered.registered (h : Registered t i p irq e s s') (hs : s.Conserved) (hi : i < t.size) :
    s'.registered.Perm (⟨t, irq, e.handler, e.data, e.priority⟩ :: s.registered) := by
  have hmap : ∀ {t' i'}, i' < t'.size →
      (s.vector t' i').map (s'.entry t') = (s.vector t' i').map (s.entry t') :=
    fun hi => List.map_congr_left fun q hq => h.entry hs hi hq
  have hold := flatMap_split (f := fun l => (s.vector l.1 l.2).map (s.entry l.1))
    (mem_irlLines.mpr hi)
  have hnew := flatMap_change (f := fun l => (s.vector l.1 l.2).map (s.entry l.1))
    (g := fun l => (s'.vector l.1 l.2).map (s'.entry l.1)) irlLines_nodup (mem_irlLines.mpr hi)
    fun q hq hne => by rw [h.other hne, hmap (mem_irlLines.mp hq)]
  have hentry : s'.entry t p = ⟨t, irq, e.handler, e.data, e.priority⟩ := by
    rw [IrlTables.entry, h.elems, h.given, Function.update_self, Function.update_self]
  dsimp only at hold hnew
  rw [h.line, List.map_append, hmap hi, List.map_singleton, hentry, List.append_assoc,
    List.singleton_append] at hnew
  exact hnew.trans (List.perm_middle.trans (hold.symm.cons _))

theorem Registered.inv (h : Registered t i p irq e s s') (hs : IrlInv leon s) (hi : i < t.size)
    (hline : i = lineOf leon t irq) (hgiven : t = .extended → irlSize ≤ irq) : IrlInv leon s' := by
  -- an element of a line is the new one, or was there before
  have hmem : ∀ {t' i' q}, q ∈ s'.vector t' i' →
      (q = p ∧ t' = t ∧ i' = i) ∨ (q ≠ p ∧ q ∈ s.vector t' i') := by
    intro t' i' q hq
    have hbefore : q ∈ s.vector t' i' → q ≠ p ∧ q ∈ s.vector t' i' := fun hq =>
      ⟨fun heq => hs.conserved.pool_apart h.mem_pool (hs.range hq) (heq ▸ hq), hq⟩
    by_cases hl : (t', i') = (t, i)
    · obtain ⟨rfl, rfl⟩ := Prod.mk.inj hl
      rw [h.line] at hq
      rcases List.mem_append.mp hq with hq | hq
      · exact .inr (hbefore hq)
      · exact .inl ⟨List.mem_singleton.mp hq, rfl, rfl⟩
    · exact .inr (hbefore (h.other hl ▸ hq))
  refine ⟨h.conserved hs.conserved hi, fun hq => ?_, fun hq => ?_, fun hq => ?_⟩
  · rcases hmem hq with ⟨-, rfl, rfl⟩ | ⟨-, hq⟩
    · exact hi
    · exact hs.range hq
  · rcases hmem hq with ⟨rfl, rfl, rfl⟩ | ⟨hne, hq⟩
    · rw [h.given, Function.update_self]
      exact hline
    · rw [h.given, Function.update_of_ne hne]
      exact hs.line hq
  · rcases hmem hq with ⟨rfl, rfl, rfl⟩ | ⟨hne, hq⟩
    · rw [h.given, Function.update_self]
      exact hgiven rfl
    · rw [h.given, Function.update_of_ne hne]
      exact hs.given hq

/-- **Registering a handler** is right if the line exists. -/
theorem registerHandler_right (hs : IrlInv leon s) (hline : refused = false → i = lineOf leon t c.irq)
    (hgiven : refused = false → t = .extended → irlSize ≤ c.irq) :
    ((∃ ret s', registerHandler leon t refused i s priority c = some (ret, s') ∧ s'.Conserved ∧
        RegistryStep s s' ret (.register t priority c)) ↔
      (s.pool ≠ [] → refused = false → c.handler ≠ 0 → i < t.size)) ∧
    ∀ ret s', registerHandler leon t refused i s priority c = some (ret, s') → IrlInv leon s' := by
  rcases registerHandler_cases leon t refused i s priority c with
    ⟨hrefused, ret, hret, heq⟩ | ⟨hpool, hok, hnull, ⟨hi, heq⟩ | ⟨hi, p, pool, hcons, heq⟩⟩
  · rw [heq]
    refine ⟨iff_of_true ⟨ret, s, rfl, hs.conserved, ?_⟩ ?_, fun _ _ h => ?_⟩
    · rw [RegistryStep, if_neg hret]
    · intro hpool hok hnull
      rcases hrefused with h | h | h
      · exact absurd h hpool
      · exact absurd (h.symm.trans hok) (by decide)
      · exact absurd h hnull
    · exact (Prod.mk.inj (Option.some.inj h)).2 ▸ hs
  · rw [heq]
    refine ⟨iff_of_false ?_ fun h => ?_, fun _ _ h => by cases h⟩
    · rintro ⟨_, _, h, -⟩
      cases h
    · exact absurd (h hpool hok hnull) (Nat.not_lt.mpr hi)
  · rw [heq]
    have hreg := @registered_of_register leon s t i p pool hcons
      ⟨c.handler, some priority, c.data, i⟩ c.irq c.cpu
    refine ⟨iff_of_true ⟨0, _, rfl, hreg.conserved hs.conserved hi, ?_⟩ fun _ _ _ => hi, fun _ _ h => ?_⟩
    · rw [RegistryStep, if_pos rfl]
      exact hreg.registered hs.conserved hi
    · rw [← (Prod.mk.inj (Option.some.inj h)).2]
      exact hreg.inv hs hi (hline hok) (hgiven hok)

end Registering

/-! ## 5. Deregistering -/

section Deregistering

variable {leon : LeonModel} {s s' : IrlTables} {t : IrqTable} {i p : Nat} {c : IrlCall}
  {X X' : List Nat}

/-- The elements `X` have been taken from a line to the pool. -/
structure Deregistered (t : IrqTable) (i : Nat) (X : List Nat) (s s' : IrlTables) : Prop where
  pool : s'.pool = s.pool ++ X
  line : s'.vector t i = (s.vector t i).filter (· ∉ X)
  other : ∀ {t' i'}, (t', i') ≠ (t, i) → s'.vector t' i' = s.vector t' i'
  elems : ∀ {q}, q ∉ X → s'.elems q = s.elems q
  given : s'.given = s.given

theorem Deregistered.refl (s : IrlTables) : Deregistered t i [] s s where
  pool := (List.append_nil _).symm
  line := (List.filter_eq_self.mpr fun _ _ => decide_eq_true List.not_mem_nil).symm
  other _ := rfl
  elems _ := rfl
  given := rfl

theorem Deregistered.trans {s₁ : IrlTables} (h : Deregistered t i X s s₁)
    (h' : Deregistered t i X' s₁ s') : Deregistered t i (X ++ X') s s' where
  pool := by rw [h'.pool, h.pool, List.append_assoc]
  line := by
    rw [h'.line, h.line, List.filter_filter]
    refine List.filter_congr fun q _ => ?_
    rw [← Bool.decide_and]
    refine decide_eq_decide.mpr ?_
    rw [List.mem_append, not_or]
    exact and_comm
  other hne := (h'.other hne).trans (h.other hne)
  elems hq := by
    rw [List.mem_append, not_or] at hq
    rw [h'.elems hq.2, h.elems hq.1]
  given := h'.given.trans h.given

/-- The handler of the element, and its argument, are those of the call. -/
def IrlTables.hit (s : IrlTables) (c : IrlCall) (p : Nat) : Bool :=
  decide ((s.elems p).handler = c.handler) && decide ((s.elems p).data = c.data)

theorem deregisterElem_hit (hp : s.hit c p = true) (hline : (s.vector t i).Nodup) :
    Deregistered t i [p] s (deregisterElem t i c s p) := by
  rw [IrlTables.hit, Bool.and_eq_true, decide_eq_true_eq, decide_eq_true_eq] at hp
  rw [deregisterElem, if_pos hp]
  have hmoved : Deregistered t i [p] s ({ s with
      elems := Function.update s.elems p { s.elems p with handler := 0, data := 0, priority := none }
      pool := s.pool ++ [p] }.setLine t i ((s.vector t i).erase p)) := by
    refine ⟨rfl, ?_, fun hne => IrlTables.setLine_other _ hne, fun hq => ?_, rfl⟩
    · rw [IrlTables.setLine_self, hline.erase_eq_filter]
      refine List.filter_congr fun q _ => ?_
      simp [bne, beq_eq_decide]
    · exact Function.update_of_ne (fun heq => hq (List.mem_singleton.mpr heq)) _ _
  dsimp only
  split
  · exact ⟨hmoved.pool, hmoved.line, hmoved.other, hmoved.elems, hmoved.given⟩
  · exact hmoved

theorem deregisterElem_miss (hp : s.hit c p = false) : deregisterElem t i c s p = s := by
  refine if_neg fun h => ?_
  rw [IrlTables.hit, decide_eq_true h.1, decide_eq_true h.2] at hp
  cases hp

/-- **The loop over a line** takes the elements off it that are hit. -/
theorem foldl_deregisterElem (L : List Nat) : ∀ {s : IrlTables}, L.Nodup → (s.vector t i).Nodup →
    Deregistered t i (L.filter (s.hit c)) s (L.foldl (deregisterElem t i c) s) := by
  induction L with
  | nil => exact fun _ _ => .refl _
  | cons p L ih =>
    intro s hL hline
    obtain ⟨hp, hL⟩ := List.nodup_cons.mp hL
    rw [List.foldl_cons]
    cases hhit : s.hit c p with
    | true =>
      have hturn := deregisterElem_hit (t := t) (i := i) hhit hline
      have hsame : L.filter ((deregisterElem t i c s p).hit c) = L.filter (s.hit c) := by
        refine List.filter_congr fun q hq => ?_
        have hne : q ∉ [p] := fun hmem => hp (List.mem_singleton.mp hmem ▸ hq)
        rw [IrlTables.hit, IrlTables.hit, hturn.elems hne]
      have hrest := ih (s := deregisterElem t i c s p) hL (hturn.line ▸ hline.filter _)
      rw [hsame] at hrest
      rw [List.filter_cons_of_pos hhit]
      exact hturn.trans hrest
    | false =>
      rw [deregisterElem_miss hhit, List.filter_cons_of_neg (by rw [hhit]; decide)]
      exact ih hL hline

theorem deregistered_line (hline : (s.vector t i).Nodup) :
    Deregistered t i ((s.vector t i).filter (s.hit c)) s
      ((s.vector t i).foldl (deregisterElem t i c) s) :=
  foldl_deregisterElem _ hline hline

theorem Deregistered.conserved (h : Deregistered t i ((s.vector t i).filter (s.hit c)) s s')
    (hs : s.Conserved) (hi : i < t.size) : s'.Conserved := by
  have hold := flatMap_split (f := fun l => s.vector l.1 l.2) (mem_irlLines.mpr hi)
  have hnew := flatMap_change (f := fun l => s.vector l.1 l.2) (g := fun l => s'.vector l.1 l.2)
    irlLines_nodup (mem_irlLines.mpr hi) fun q _ hq => h.other hq
  have hkept : (s.vector t i).filter (· ∉ (s.vector t i).filter (s.hit c)) =
      (s.vector t i).filter fun q => !s.hit c q := by
    refine List.filter_congr fun q hq => ?_
    cases hhit : s.hit c q <;> simp [List.mem_filter, hq, hhit]
  dsimp only at hold hnew
  rw [h.line, hkept] at hnew
  refine List.Perm.trans ?_ hs
  rw [h.pool, List.append_assoc]
  refine List.Perm.append_left _ ((hnew.append_left _).trans ?_)
  rw [← List.append_assoc]
  exact ((List.filter_append_perm (s.hit c) (s.vector t i)).append_right _).trans hold.symm

theorem Deregistered.mem (h : Deregistered t i X s s') {t' : IrqTable} {i' q : Nat}
    (hq : q ∈ s'.vector t' i') : q ∈ s.vector t' i' := by
  by_cases hl : (t', i') = (t, i)
  · obtain ⟨rfl, rfl⟩ := Prod.mk.inj hl
    rw [h.line] at hq
    exact List.mem_of_mem_filter hq
  · exact h.other hl ▸ hq

theorem Deregistered.inv (h : Deregistered t i ((s.vector t i).filter (s.hit c)) s s')
    (hs : IrlInv leon s) (hi : i < t.size) : IrlInv leon s' where
  conserved := h.conserved hs.conserved hi
  range hq := hs.range (h.mem hq)
  line hq := by
    rw [h.given]
    exact hs.line (h.mem hq)
  given hq := by
    rw [h.given]
    exact hs.given (h.mem hq)

/-- The registrations that a line has, with the handler and the argument of a call. -/
def Registration.OnLine (leon : LeonModel) (t : IrqTable) (i : Nat) (c : IrlCall) (e : Registration) :
    Prop :=
  e.table = t ∧ lineOf leon t e.irq = i ∧ e.handler = c.handler ∧ e.data = c.data

instance (leon : LeonModel) (t : IrqTable) (i : Nat) (c : IrlCall) (e : Registration) :
    Decidable (e.OnLine leon t i c) :=
  inferInstanceAs (Decidable (_ ∧ _ ∧ _ ∧ _))

/-- **What is deregistered**: what is on the line. -/
theorem Deregistered.registered (h : Deregistered t i ((s.vector t i).filter (s.hit c)) s s')
    (hs : IrlInv leon s) (hi : i < t.size) :
    s'.registered = s.registered.filter fun e => ¬ e.OnLine leon t i c := by
  rw [IrlTables.registered, IrlTables.registered, List.filter_flatMap]
  refine List.flatMap_congr fun l hl => ?_
  obtain ⟨t', i'⟩ := l
  have hi' := mem_irlLines.mp hl
  dsimp only
  rw [List.filter_map]
  have hkept : ∀ q ∈ s.vector t' i', q ∉ (s.vector t i).filter (s.hit c) →
      s'.entry t' q = s.entry t' q := fun q _ hq => by
    rw [IrlTables.entry, IrlTables.entry, h.elems hq, h.given]
  by_cases heq : (t', i') = (t, i)
  · obtain ⟨rfl, rfl⟩ := Prod.mk.inj heq
    have hfilter : ∀ q ∈ s.vector t' i', (decide (q ∉ (s.vector t' i').filter (s.hit c))) =
        ((fun e => decide ¬ Registration.OnLine leon t' i' c e) ∘ s.entry t') q := by
      intro q hq
      refine decide_eq_decide.mpr (not_congr ?_)
      rw [List.mem_filter, IrlTables.hit, Bool.and_eq_true, decide_eq_true_eq, decide_eq_true_eq]
      exact ⟨fun hmem => ⟨rfl, (hs.line hq).symm, hmem.2⟩, fun hon => ⟨hq, hon.2.2⟩⟩
    rw [h.line, List.filter_congr hfilter]
    refine List.map_congr_left fun q hq => hkept q (List.mem_of_mem_filter hq) ?_
    have hq' := List.mem_filter.mp hq
    rw [← hfilter q hq'.1] at hq'
    exact of_decide_eq_true hq'.2
  · have hoff : ∀ q ∈ s.vector t' i',
        ((fun e => decide ¬ Registration.OnLine leon t i c e) ∘ s.entry t') q = true := by
      intro q hq
      refine decide_eq_true fun hon => heq ?_
      obtain ⟨ht, hline, -⟩ := hon
      obtain rfl : t' = t := ht
      rw [← hline]
      exact congrArg _ (hs.line hq)
    rw [h.other heq, List.filter_eq_self.mpr hoff]
    refine List.map_congr_left fun q hq => hkept q hq fun hmem => heq ?_
    exact hs.conserved.line_apart hi hi' (List.mem_of_mem_filter hmem) hq

/-- Two ways to filter a list leave the same if they agree on what is in it. -/
theorem filter_perm_filter {α : Type} {L : List α} {f g : α → Bool} :
    (L.filter f).Perm (L.filter g) ↔ ∀ e ∈ L, (f e = true ↔ g e = true) := by
  constructor
  · intro h e he
    exact ⟨fun hf => (List.mem_filter.mp (h.subset (List.mem_filter.mpr ⟨he, hf⟩))).2,
      fun hg => (List.mem_filter.mp (h.symm.subset (List.mem_filter.mpr ⟨he, hg⟩))).2⟩
  · intro h
    rw [List.filter_congr fun e he => Bool.eq_iff_iff.mpr (h e he)]

/-- **A call** leaves the registrations that are not on the line, or all if it is refused. -/
theorem deregisterHandler_registered {refused : Bool} (hs : IrlInv leon s)
    (hrange : refused = false → c.irq < t.size) :
    ∃ ret s', deregisterHandler t refused s c = some (ret, s') ∧ IrlInv leon s' ∧
      s'.registered =
        s.registered.filter fun e => ¬ (refused = false ∧ e.OnLine leon t c.irq c) := by
  cases refused with
  | true =>
    refine ⟨_, s, if_pos rfl, hs, (List.filter_eq_self.mpr fun e _ => decide_eq_true ?_).symm⟩
    exact fun h => absurd h.1 (by decide)
  | false =>
    have hi := hrange rfl
    have hloop := deregistered_line (c := c) (hs.conserved.line_nodup hi)
    refine ⟨0, (s.vector t c.irq).foldl (deregisterElem t c.irq c) s, ?_, hloop.inv hs hi, ?_⟩
    · rw [deregisterHandler, if_neg (by decide), if_pos hi]
    · rw [hloop.registered hs hi]
      refine List.filter_congr fun e _ => decide_eq_decide.mpr (not_congr ?_)
      exact (and_iff_right rfl).symm

/-- **Deregistering a handler** is right if what is on the line is what was registered with the same
arguments. -/
theorem deregisterHandler_right {refused : Bool} (hs : IrlInv leon s)
    (hrange : refused = false → c.irq < t.size) :
    ((∃ ret s', deregisterHandler t refused s c = some (ret, s') ∧ s'.Conserved ∧
        RegistryStep s s' ret (.deregister t c)) ↔
      ∀ e ∈ s.registered, (refused = false ∧ e.OnLine leon t c.irq c) ↔ e.Matches t c) ∧
    ∀ ret s', deregisterHandler t refused s c = some (ret, s') → IrlInv leon s' := by
  obtain ⟨ret, s', heq, hinv, hregistered⟩ := deregisterHandler_registered hs hrange
  have hstep : RegistryStep s s' ret (.deregister t c) ↔
      ∀ e ∈ s.registered, (refused = false ∧ e.OnLine leon t c.irq c) ↔ e.Matches t c := by
    rw [RegistryStep, hregistered, filter_perm_filter]
    refine forall_congr' fun e => forall_congr' fun _ => ?_
    rw [decide_eq_true_eq, decide_eq_true_eq, not_iff_not]
  constructor
  · rw [← hstep]
    constructor
    · rintro ⟨ret₁, s₁, h₁, -, hstep₁⟩
      obtain ⟨rfl, rfl⟩ := Prod.mk.inj (Option.some.inj (heq.symm.trans h₁))
      exact hstep₁
    · exact fun h => ⟨ret, s', heq, hinv.conserved, h⟩
  · intro ret₁ s₁ h
    exact (Prod.mk.inj (Option.some.inj (heq.symm.trans h))).2 ▸ hinv

end Deregistering

/-! ## 6. Runs -/

section Runs

variable {leon : LeonModel} {s : IrlTables}

/-- The interrupt of a registration, and its line. -/
theorem IrlInv.registered (hs : IrlInv leon s) {e : Registration} (he : e ∈ s.registered) :
    lineOf leon e.table e.irq < e.table.size ∧ (e.table = .extended → irlSize ≤ e.irq) := by
  obtain ⟨t, i, hi, p, hp, rfl⟩ := mem_registered.mp he
  refine ⟨?_, fun ht => ?_⟩
  · have hline := hs.line hp
    exact lt_of_eq_of_lt hline.symm hi
  · obtain rfl : t = .extended := ht
    exact hs.given hp

/-- The line that is looked at on the LEON2 is never that of the interrupt. -/
theorem leon2_lines {irq irq' : Nat} (hlt : lineOf .leon2 .extended irq < IrqTable.extended.size)
    (hle : irlSize ≤ irq) :
    (((irq' < eirlSize ∧ irlSize ≤ irq') ∧ lineOf .leon2 .extended irq = irq') ↔ irq = irq') ↔
      irq ≠ irq' ∧ (irlSize ≤ irq' → irq ≠ irq' + irlSize) := by
  simp only [lineOf, LeonModel.realEirq, IrqTable.size, irlSize, eirlSize] at hlt hle ⊢
  omega

/-- **One call**: it is right if, and only if, it fits. -/
theorem irlStep_right (hs : IrlInv leon s) (o : IrlOp) : (IrlRight leon s o ↔ IrlFits leon s o) ∧
    ∀ ret s', irlStep leon s o = some (ret, s') → IrlInv leon s' := by
  cases o with
  | register t priority c =>
    cases t with
    | primary =>
      obtain ⟨hright, hinv⟩ := @registerHandler_right leon s .primary c.irq c priority
        (decide (c.irq > irlSize)) hs (fun _ => rfl) (fun _ h => by cases h)
      refine ⟨hright.trans ?_, hinv⟩
      rw [IrlFits, decide_eq_false_iff_not, Nat.not_lt]
      refine forall_congr' fun _ => ⟨fun h hnull heq => ?_, fun h hle hnull => ?_⟩
      · exact absurd (h (Nat.le_of_eq heq) hnull) (Nat.not_lt.mpr (Nat.le_of_eq heq.symm))
      · exact Nat.lt_of_le_of_ne hle (h hnull)
    | extended =>
      have hok : (decide (c.irq > irlSize + eirlSize) || decide (c.irq < irlSize)) = false ↔
          c.irq ≤ irlSize + eirlSize ∧ irlSize ≤ c.irq := by
        rw [Bool.or_eq_false_iff, decide_eq_false_iff_not, decide_eq_false_iff_not, Nat.not_lt,
          Nat.not_lt]
      obtain ⟨hright, hinv⟩ := @registerHandler_right leon s .extended (leon.realEirq c.irq) c priority
        (decide (c.irq > irlSize + eirlSize) || decide (c.irq < irlSize)) hs (fun _ => rfl)
        (fun h _ => (hok.mp h).2)
      refine ⟨hright.trans ?_, hinv⟩
      rw [IrlFits, hok]
      refine forall_congr' fun _ => ⟨fun h hnull hle => ?_, fun h hle hnull => h hnull hle.1⟩
      by_cases hge : irlSize ≤ c.irq
      · exact h ⟨hle, hge⟩ hnull
      · have hreal : leon.realEirq c.irq ≤ c.irq := by
          cases leon with
          | leon2 => exact Nat.sub_le _ _
          | leon3 => exact Nat.le_refl _
        have hlt : irlSize < eirlSize := by decide
        exact Nat.lt_of_le_of_lt hreal (Nat.lt_trans (Nat.lt_of_not_le hge) hlt)
  | deregister t c =>
    cases t with
    | primary =>
      obtain ⟨hright, hinv⟩ := @deregisterHandler_right leon s .primary c (decide (c.irq > 0xf)) hs
        fun h => Nat.lt_succ_of_le (Nat.le_of_not_lt (of_decide_eq_false h))
      refine ⟨hright.trans (iff_of_true (fun e he => ?_) trivial), hinv⟩
      refine ⟨fun h => h.2, fun h => ⟨?_, h⟩⟩
      obtain ⟨hlt, -⟩ := hs.registered he
      obtain ⟨ht, hirq, -⟩ := h
      rw [ht] at hlt
      rw [← hirq]
      exact decide_eq_false (Nat.not_lt.mpr (Nat.le_of_lt_succ hlt))
    | extended =>
      have hok : (decide (c.irq > 0x1f) || decide (c.irq < 0x10)) = false ↔
          c.irq < eirlSize ∧ irlSize ≤ c.irq := by
        rw [Bool.or_eq_false_iff, decide_eq_false_iff_not, decide_eq_false_iff_not, Nat.not_lt,
          Nat.not_lt]
        exact and_congr Nat.lt_succ_iff.symm Iff.rfl
      obtain ⟨hright, hinv⟩ := @deregisterHandler_right leon s .extended c
        (decide (c.irq > 0x1f) || decide (c.irq < 0x10)) hs fun h => (hok.mp h).1
      refine ⟨hright.trans ?_, hinv⟩
      rw [hok, IrlFits]
      cases leon with
      | leon2 =>
        refine Iff.trans ?_ (forall_prop_of_true rfl).symm
        refine forall_congr' fun e => forall_congr' fun he => ?_
        obtain ⟨hlt, hle⟩ := hs.registered he
        by_cases hargs : e.table = .extended ∧ e.handler = c.handler ∧ e.data = c.data
        · obtain ⟨ht, hhandler, hdata⟩ := hargs
          rw [ht] at hlt
          simp only [Registration.OnLine, Registration.Matches, ht, hhandler, hdata, true_and,
            and_true, forall_const]
          exact leon2_lines hlt (hle ht)
        · refine iff_of_true ⟨fun h => ?_, fun h => ?_⟩ fun ht hhandler hdata => ?_
          · exact absurd ⟨h.2.1, h.2.2.2⟩ hargs
          · exact absurd ⟨h.1, h.2.2⟩ hargs
          · exact absurd ⟨ht, hhandler, hdata⟩ hargs
      | leon3 =>
        refine iff_of_true (fun e he => ?_) fun h => by cases h
        refine ⟨fun h => h.2, fun h => ⟨?_, h⟩⟩
        obtain ⟨hlt, hle⟩ := hs.registered he
        obtain ⟨ht, hirq, -⟩ := h
        rw [ht] at hlt
        rw [← hirq]
        exact ⟨hlt, hle ht⟩

end Runs

/-- **The registry of interrupt handlers.**  In every run from the start, all calls are right if and only
if they all fit. -/
theorem irl_registry_iff (leon : LeonModel) (ops : List IrlOp) :
    System.AllowedAll (fun s o => (irlStep leon s o).map Prod.snd) (IrlRight leon) irlInit ops ↔
      System.AllowedAll (fun s o => (irlStep leon s o).map Prod.snd) (IrlFits leon) irlInit ops := by
  refine System.allowedAll_iff (I := IrlInv leon) (fun s o hs => (irlStep_right hs o).1) ?_ ops
    (irlInit_inv leon)
  intro s o s' hs h
  obtain ⟨⟨ret, s₁⟩, h₁, rfl⟩ := Option.map_eq_some_iff.mp h
  exact (irlStep_right hs o).2 ret s₁ h₁

/-- **No line 32** of the extended table: the interrupt 32 is accepted on the LEON3. -/
theorem irl_registry_overruns : ¬ ∀ (leon : LeonModel) (ops : List IrlOp),
    System.AllowedAll (fun s o => (irlStep leon s o).map Prod.snd) (IrlRight leon) irlInit ops := by
  intro h
  obtain ⟨⟨_, _, hstep, -⟩, -⟩ := h .leon3 [.register .extended .now ⟨32, 1, 0, 0⟩]
  have hnone : irlStep .leon3 irlInit (.register .extended .now ⟨32, 1, 0, 0⟩) = none := rfl
  cases hnone.symm.trans hstep

/-- On the LEON2 a handler stays registered, and the one of another interrupt is deregistered. -/
example : ((System.stepAll (fun s o => (irlStep .leon2 s o).map Prod.snd) irlInit
    [.register .extended .now ⟨20, 1, 0, 0⟩, .register .extended .now ⟨36, 1, 0, 0⟩,
      .deregister .extended ⟨20, 1, 0, 0⟩]).map IrlTables.registered) =
    some [⟨.extended, 20, 1, 0, some .now⟩] := by decide

end FlightOs
