/-
# Deferred interrupt handlers

A handler that is registered with a lower priority is not called by the dispatcher
(`arch/sparc/kernel/irq.c`), but copied into an element of the queue pool, which is put at the tail
of the queue.  `leon_irq_queue_execute` goes through the queue, calls the handlers and gives the
elements back to the pool.

`irq_queue_conserved_iff`: the elements are all in the pool or in the queue, and nothing that has been
queued is lost, in every state of a run if and only if no handler called from the queue asks to be
queued again.  The element of a handler that does is taken off the queue, and the handler is copied
into another one from the pool; the first is in no list any more.
-/
import FlightOs.Errno
import FlightOs.Lib.System
import Mathlib.Data.List.Perm.Basic
import Mathlib.Logic.Function.Basic

namespace FlightOs

/-! ## 1. The queue -/

inductive IsrExecPriority
  | now
  | later
  deriving DecidableEq, Repr

/-- `struct irl_vector_elem`; the handler 0 is the null pointer. -/
structure IrlVectorElem where
  handler : Nat
  priority : IsrExecPriority
  data : Nat
  irq : Nat
  deriving DecidableEq, Repr

def irlQueueSize : Nat := 64

/-- The queue and the pool, with their elements by place in `irl_queue_pool`; what the handlers act
on; and the invocations that have been queued by interrupts, and those that are finished. -/
structure IrqQueue (ω : Type) where
  elems : Nat → IrlVectorElem
  pool : List Nat
  queue : List Nat
  env : ω
  queued : List IrlVectorElem
  finished : List IrlVectorElem

/-- What a handler returns, and what it does. -/
abbrev IrqHandlers (ω : Type) := ω → Nat → Nat → Nat → Int × ω

section Operations

variable {ω : Type} (call : IrqHandlers ω)

/-- `leon_irq_queue` -/
def leonIrqQueue (s : IrqQueue ω) (e : IrlVectorElem) : Int × IrqQueue ω :=
  match s.pool with
  | [] => (-EBUSY, s)
  | q :: pool =>
    (0, { s with elems := Function.update s.elems q e, pool := pool, queue := s.queue ++ [q] })

/-- The loop over the handlers of a line, in `leon_irq_dispatch` and `leon_eirq_dispatch`: the
deferred ones are called if there is no room in the queue. -/
def dispatchHandlers (irq : Nat) : IrqQueue ω → List IrlVectorElem → IrqQueue ω
  | s, [] => s
  | s, e :: line =>
    if e.priority = .now then
      dispatchHandlers irq { s with env := (call s.env e.handler irq e.data).2 } line
    else
      let r := leonIrqQueue s e
      if r.1 < 0 then
        dispatchHandlers irq { r.2 with env := (call s.env e.handler irq e.data).2 } line
      else dispatchHandlers irq { r.2 with queued := e :: s.queued } line

/-- The turn of an element that has been taken off the queue. -/
def executeElem (s : IrqQueue ω) (q : Nat) : IrqQueue ω :=
  let e := s.elems q
  if e.handler ≠ 0 then
    let r := call s.env e.handler e.irq e.data
    if r.1 = 0 then (leonIrqQueue { s with env := r.2 } e).2
    else { s with env := r.2, pool := s.pool ++ [q], finished := e :: s.finished }
  else { s with pool := s.pool ++ [q] }

/-- The loop of `leon_irq_queue_execute`.  The element after the current one is known before its
turn: behind the last one the loop is over, whatever has been queued since. -/
def executeQueue : Nat → IrqQueue ω → Option (IrqQueue ω)
  | 0, _ => none
  | n + 1, s =>
    match s.queue with
    | [] => some s
    | q :: rest =>
      let s' := executeElem call { s with queue := rest } q
      if rest = [] then some s' else executeQueue n s'

/-- `leon_irq_queue_execute`: each turn takes an element off the queue, or off the pool. -/
def leonIrqQueueExecute (s : IrqQueue ω) : IrqQueue ω :=
  (executeQueue call (2 * s.queue.length + s.pool.length + 1) s).getD s

end Operations

/-! ## 2. Runs -/

/-- A handler that has been registered; `irl_register_handler` rejects the null pointer. -/
structure IrlHandler where
  elem : IrlVectorElem
  handler_ne : elem.handler ≠ 0

/-- An interrupt on a line with its handlers, or the execution of the queue. -/
inductive IrqOp
  | dispatch (irq : Nat) (line : List IrlHandler)
  | execute

section Runs

variable {ω : Type} (call : IrqHandlers ω)

def irqStep (s : IrqQueue ω) : IrqOp → IrqQueue ω
  | .dispatch irq line => dispatchHandlers call irq s (line.map IrlHandler.elem)
  | .execute => leonIrqQueueExecute call s

/-- The queue at the start: all elements are in the pool. -/
def irqQueueInit (env : ω) : IrqQueue ω where
  elems := fun _ => ⟨0, .now, 0, 0⟩
  pool := List.range irlQueueSize
  queue := []
  env := env
  queued := []
  finished := []

/-- Each element is in the pool or in the queue, once; and what has been queued is in the queue, or
has been called and is finished. -/
def IrqQueue.Conserved (s : IrqQueue ω) : Prop :=
  (s.pool ++ s.queue).Perm (List.range irlQueueSize) ∧
    s.queued.Perm (s.finished ++ s.queue.map s.elems)

instance (s : IrqQueue ω) : Decidable s.Conserved := inferInstanceAs (Decidable (_ ∧ _))

/-- None of the handlers, called one after the other, asks to be queued again. -/
def NoneAgain : ω → List IrlVectorElem → Prop
  | _, [] => True
  | env, e :: es =>
    (call env e.handler e.irq e.data).1 ≠ 0 ∧ NoneAgain (call env e.handler e.irq e.data).2 es

instance decidableNoneAgain : ∀ env es, Decidable (NoneAgain call env es)
  | _, [] => isTrue trivial
  | env, e :: es =>
    have := decidableNoneAgain (call env e.handler e.irq e.data).2 es
    inferInstanceAs (Decidable (_ ∧ _))

/-- Where the queue is executed, none of its handlers asks to be queued again. -/
def IrqNoneAgain (s : IrqQueue ω) : IrqOp → Prop
  | .dispatch _ _ => True
  | .execute => NoneAgain call s.env (s.queue.map s.elems)

instance (s : IrqQueue ω) : ∀ o, Decidable (IrqNoneAgain call s o)
  | .dispatch .. => isTrue trivial
  | .execute => decidableNoneAgain call s.env _

end Runs

/-! ## 3. Queueing -/

section Queueing

variable {ω : Type} {call : IrqHandlers ω} {s : IrqQueue ω} {e : IrlVectorElem}

/-- What holds in every run without requests to be queued again. -/
structure IrqQueue.Inv (s : IrqQueue ω) : Prop where
  conserved : s.Conserved
  handlers : ∀ q ∈ s.queue, (s.elems q).handler ≠ 0

theorem IrqQueue.Inv.nodup (h : s.Inv) : (s.pool ++ s.queue).Nodup :=
  h.conserved.1.nodup_iff.mpr List.nodup_range

theorem irqQueueInit_inv (env : ω) : (irqQueueInit env).Inv where
  conserved := ⟨by simp [irqQueueInit], .refl _⟩
  handlers q hq := by cases hq

/-- What `leon_irq_queue` can do. -/
theorem leonIrqQueue_cases (s : IrqQueue ω) (e : IrlVectorElem) :
    (s.pool = [] ∧ leonIrqQueue s e = (-(EBUSY : Int), s)) ∨
      ∃ q pool, s.pool = q :: pool ∧ leonIrqQueue s e =
        (0, { s with
          elems := Function.update s.elems q e
          pool := pool
          queue := s.queue ++ [q] }) := by
  cases h : s.pool with
  | nil => exact .inl ⟨rfl, by rw [leonIrqQueue, h]⟩
  | cons q pool => exact .inr ⟨q, pool, rfl, by rw [leonIrqQueue, h]⟩

/-- The handlers act on what is not the queue. -/
theorem IrqQueue.Inv.env (h : s.Inv) (env : ω) : { s with env := env }.Inv := ⟨h.conserved, h.handlers⟩

/-- An element of the pool that is filled and put at the tail. -/
theorem IrqQueue.Inv.queue (h : s.Inv) {q : Nat} {pool : List Nat} (hpool : s.pool = q :: pool)
    (he : e.handler ≠ 0) :
    { s with
      elems := Function.update s.elems q e
      pool := pool
      queue := s.queue ++ [q]
      queued := e :: s.queued }.Inv := by
  have hnot : q ∉ s.queue := by
    have hnodup := h.nodup
    rw [hpool, List.cons_append] at hnodup
    exact fun hq => (List.nodup_cons.mp hnodup).1 (List.mem_append_right _ hq)
  have hmap : (s.queue ++ [q]).map (Function.update s.elems q e) = s.queue.map s.elems ++ [e] := by
    rw [List.map_append, List.map_singleton, Function.update_self]
    congr 1
    exact List.map_congr_left fun x hx =>
      Function.update_of_ne (ne_of_mem_of_not_mem hx hnot) _ _
  refine ⟨⟨?_, ?_⟩, fun x hx => ?_⟩
  · have hperm := h.conserved.1
    rw [hpool, List.cons_append] at hperm
    refine List.Perm.trans ?_ hperm
    rw [← List.append_assoc]
    exact List.perm_append_singleton q _
  · dsimp only
    rw [hmap, ← List.append_assoc]
    exact (h.conserved.2.cons e).trans (List.perm_append_singleton e _).symm
  · dsimp only
    rcases List.mem_append.mp hx with hx | hx
    · rw [Function.update_of_ne (ne_of_mem_of_not_mem hx hnot)]
      exact h.handlers x hx
    · rw [List.mem_singleton.mp hx, Function.update_self]
      exact he

/-- **An interrupt** queues its deferred handlers, or calls them. -/
theorem IrqQueue.Inv.dispatch (irq : Nat) : ∀ (line : List IrlVectorElem) {s : IrqQueue ω}, s.Inv →
    (∀ e ∈ line, e.handler ≠ 0) → (dispatchHandlers call irq s line).Inv
  | [], _, h, _ => h
  | e :: line, s, h, hline => by
    have hrest : ∀ e ∈ line, e.handler ≠ 0 := fun x hx => hline x (List.mem_cons_of_mem _ hx)
    unfold dispatchHandlers
    by_cases hnow : e.priority = .now
    · rw [if_pos hnow]
      exact IrqQueue.Inv.dispatch irq line (h.env _) hrest
    · rw [if_neg hnow]
      rcases leonIrqQueue_cases s e with ⟨-, heq⟩ | ⟨q, pool, hpool, heq⟩
      · have hneg : -(EBUSY : Int) < 0 := by decide
        simp only [heq, if_pos hneg]
        exact IrqQueue.Inv.dispatch irq line (h.env _) hrest
      · simp only [heq, Int.lt_irrefl, if_false]
        exact IrqQueue.Inv.dispatch irq line (h.queue hpool (hline e (List.mem_cons_self ..))) hrest

end Queueing

/-! ## 4. Executing the queue -/

section Executing

variable {ω : Type} {call : IrqHandlers ω} {s : IrqQueue ω}

/-- How many elements are in one of the lists. -/
def IrqQueue.linked (s : IrqQueue ω) : Nat := s.pool.length + s.queue.length

theorem IrqQueue.Conserved.linked (h : s.Conserved) : s.linked = irlQueueSize := by
  have hlen := h.1.length_eq
  rwa [List.length_append, List.length_range] at hlen

/-- The turn of an element whose handler does not ask again: it goes back to the pool. -/
theorem executeElem_done {q : Nat} (hq : (s.elems q).handler ≠ 0)
    (hret : (call s.env (s.elems q).handler (s.elems q).irq (s.elems q).data).1 ≠ 0) :
    executeElem call s q =
      { s with
        env := (call s.env (s.elems q).handler (s.elems q).irq (s.elems q).data).2
        pool := s.pool ++ [q]
        finished := s.elems q :: s.finished } := by
  simp only [executeElem, if_pos hq, if_neg hret]

/-- The turn of an element whose handler asks again: it is in no list any more, and another one joins
the queue if the pool has one. -/
theorem executeElem_again {q : Nat} (hq : (s.elems q).handler ≠ 0)
    (hret : (call s.env (s.elems q).handler (s.elems q).irq (s.elems q).data).1 = 0) :
    (s.pool = [] ∧ (executeElem call s q).pool = [] ∧ (executeElem call s q).queue = s.queue ∧
        (executeElem call s q).elems = s.elems) ∨
      ∃ p pool, s.pool = p :: pool ∧ (executeElem call s q).pool = pool ∧
        (executeElem call s q).queue = s.queue ++ [p] ∧
        (executeElem call s q).elems = Function.update s.elems p (s.elems q) := by
  simp only [executeElem, if_pos hq, if_pos hret]
  cases hpool : s.pool with
  | nil => exact .inl ⟨rfl, by simp [leonIrqQueue]⟩
  | cons p pool => exact .inr ⟨p, pool, rfl, by simp [leonIrqQueue]⟩

/-- How far the loop can still go: a turn takes an element off the queue, or off the pool. -/
def IrqQueue.turns (s : IrqQueue ω) : Nat := 2 * s.queue.length + s.pool.length

/-- **One turn**: the loop comes closer to its end; and if some handler asks to be queued again, then
the elements get less, or the handler is still to come. -/
structure ExecuteTurn (call : IrqHandlers ω) (s s' : IrqQueue ω) : Prop where
  turns : s'.turns < s.turns
  linked : s'.linked ≤ s.linked
  handlers : ∀ q ∈ s'.queue, (s'.elems q).handler ≠ 0
  again : ¬ NoneAgain call s.env (s.queue.map s.elems) →
    s'.linked < s.linked ∨ ¬ NoneAgain call s'.env (s'.queue.map s'.elems)

variable {q : Nat} {rest : List Nat}

theorem executeTurn_done (hqueue : s.queue = q :: rest)
    (hhandlers : ∀ q ∈ s.queue, (s.elems q).handler ≠ 0)
    (hret : (call s.env (s.elems q).handler (s.elems q).irq (s.elems q).data).1 ≠ 0) :
    ExecuteTurn call s (executeElem call { s with queue := rest } q) := by
  rw [hqueue] at hhandlers
  rw [executeElem_done (s := { s with queue := rest }) (hhandlers q (List.mem_cons_self ..)) hret]
  refine ⟨?_, ?_, fun x hx => hhandlers x (List.mem_cons_of_mem _ hx), fun hnot => .inr fun hn => ?_⟩
  · simp only [IrqQueue.turns, hqueue, List.length_append, List.length_cons, List.length_nil]
    omega
  · simp only [IrqQueue.linked, hqueue, List.length_append, List.length_cons, List.length_nil]
    omega
  · refine hnot ?_
    rw [hqueue, List.map_cons]
    exact ⟨hret, hn⟩

/-- The element of a handler that asks again is lost. -/
theorem executeTurn_again (hqueue : s.queue = q :: rest)
    (hhandlers : ∀ q ∈ s.queue, (s.elems q).handler ≠ 0)
    (hret : (call s.env (s.elems q).handler (s.elems q).irq (s.elems q).data).1 = 0) :
    ExecuteTurn call s (executeElem call { s with queue := rest } q) ∧
      (executeElem call { s with queue := rest } q).linked < s.linked := by
  rw [hqueue] at hhandlers
  have hq := hhandlers q (List.mem_cons_self ..)
  have hrest : ∀ x ∈ rest, (s.elems x).handler ≠ 0 :=
    fun x hx => hhandlers x (List.mem_cons_of_mem _ hx)
  have hturn := @executeElem_again ω call { s with queue := rest } q hq hret
  generalize executeElem call { s with queue := rest } q = s' at hturn ⊢
  rcases hturn with ⟨hnil, hpool', hqueue', helems'⟩ | ⟨p, pool, hpool, hpool', hqueue', helems'⟩
  · have hless : s'.linked < s.linked := by
      simp only [IrqQueue.linked, hpool', hqueue', hqueue, List.length_cons, List.length_nil]
      omega
    refine ⟨⟨?_, Nat.le_of_lt hless, ?_, fun _ => .inl hless⟩, hless⟩
    · simp only [IrqQueue.turns, hpool', hqueue', hqueue, List.length_cons, List.length_nil]
      omega
    · rw [hqueue', helems']
      exact hrest
  · dsimp only at hpool hqueue' helems'
    have hless : s'.linked < s.linked := by
      simp only [IrqQueue.linked, hpool', hqueue', hqueue, hpool, List.length_append,
        List.length_cons, List.length_nil]
      omega
    refine ⟨⟨?_, Nat.le_of_lt hless, fun x hx => ?_, fun _ => .inl hless⟩, hless⟩
    · simp only [IrqQueue.turns, hpool', hqueue', hqueue, hpool, List.length_append,
        List.length_cons, List.length_nil]
      omega
    · rw [helems']
      by_cases hxp : x = p
      · rw [hxp, Function.update_self]
        exact hq
      · rw [hqueue'] at hx
        rw [Function.update_of_ne hxp]
        exact hrest x ((List.mem_append.mp hx).resolve_right fun h => hxp (List.mem_singleton.mp h))

theorem executeTurn (hqueue : s.queue = q :: rest)
    (hhandlers : ∀ q ∈ s.queue, (s.elems q).handler ≠ 0) :
    ExecuteTurn call s (executeElem call { s with queue := rest } q) := by
  by_cases hret : (call s.env (s.elems q).handler (s.elems q).irq (s.elems q).data).1 = 0
  · exact (executeTurn_again hqueue hhandlers hret).1
  · exact executeTurn_done hqueue hhandlers hret

theorem executeQueue_cons (h : s.queue = q :: rest) (n : Nat) :
    executeQueue call (n + 1) s =
      if rest = [] then some (executeElem call { s with queue := rest } q)
      else executeQueue call n (executeElem call { s with queue := rest } q) := by
  simp only [executeQueue, h]

/-- Only one turn is left: if the elements do not get less, the handler does not ask again. -/
theorem executeTurn_last (hqueue : s.queue = [q])
    (hhandlers : ∀ q ∈ s.queue, (s.elems q).handler ≠ 0)
    (hagain : ¬ NoneAgain call s.env (s.queue.map s.elems)) :
    (executeElem call { s with queue := [] } q).linked < s.linked := by
  refine (executeTurn_again hqueue hhandlers ?_).2
  by_contra hret
  refine hagain ?_
  rw [hqueue, List.map_singleton]
  exact ⟨hret, trivial⟩

/-- **The execution ends**, and no element comes up that was in no list; if a handler asks to be queued
again, then one gets lost. -/
theorem executeQueue_linked : ∀ (n : Nat) (s : IrqQueue ω), s.turns < n →
    (∀ q ∈ s.queue, (s.elems q).handler ≠ 0) →
    ∃ s', executeQueue call n s = some s' ∧ s'.linked ≤ s.linked ∧
      (¬ NoneAgain call s.env (s.queue.map s.elems) → s'.linked < s.linked)
  | 0, _, h, _ => absurd h (Nat.not_lt_zero _)
  | n + 1, s, h, hhandlers => by
    cases hqueue : s.queue with
    | nil =>
      refine ⟨s, by simp only [executeQueue, hqueue], Nat.le_refl _, fun hagain => ?_⟩
      exact absurd trivial hagain
    | cons q rest =>
      have hturn : ExecuteTurn call s (executeElem call { s with queue := rest } q) :=
        executeTurn hqueue hhandlers
      rw [executeQueue_cons hqueue, ← hqueue]
      by_cases hlast : rest = []
      · subst hlast
        rw [if_pos rfl]
        exact ⟨_, rfl, hturn.linked, executeTurn_last hqueue hhandlers⟩
      · rw [if_neg hlast]
        obtain ⟨s', heq, hle, hless⟩ := executeQueue_linked n _
          (Nat.lt_of_lt_of_le hturn.turns (Nat.le_of_lt_succ h)) hturn.handlers
        refine ⟨s', heq, Nat.le_trans hle hturn.linked, fun hagain => ?_⟩
        rcases hturn.again hagain with hless' | hagain'
        · exact Nat.lt_of_le_of_lt hle hless'
        · exact Nat.lt_of_lt_of_le (hless hagain') hturn.linked

/-- An element that goes back to the pool with its handler finished. -/
theorem IrqQueue.Inv.turn (h : s.Inv) (hqueue : s.queue = q :: rest)
    (hret : (call s.env (s.elems q).handler (s.elems q).irq (s.elems q).data).1 ≠ 0) :
    (executeElem call { s with queue := rest } q).Inv := by
  have hhandlers := h.handlers
  have hperm := h.conserved.1
  have hkept := h.conserved.2
  rw [hqueue] at hhandlers hperm hkept
  rw [executeElem_done (s := { s with queue := rest }) (hhandlers q (List.mem_cons_self ..)) hret]
  refine ⟨⟨?_, ?_⟩, fun x hx => hhandlers x (List.mem_cons_of_mem _ hx)⟩
  · dsimp only
    rwa [List.append_assoc, List.singleton_append]
  · exact hkept.trans List.perm_middle

/-- Where no handler asks to be queued again, everything is kept. -/
theorem IrqQueue.Inv.executeQueue : ∀ (n : Nat) {s s' : IrqQueue ω}, s.Inv →
    NoneAgain call s.env (s.queue.map s.elems) → FlightOs.executeQueue call n s = some s' → s'.Inv
  | 0, _, _, _, _, heq => by cases heq
  | n + 1, s, s', h, hnone, heq => by
    cases hqueue : s.queue with
    | nil =>
      simp only [FlightOs.executeQueue, hqueue, Option.some.injEq] at heq
      exact heq ▸ h
    | cons q rest =>
      rw [hqueue, List.map_cons] at hnone
      have hturn := h.turn hqueue hnone.1
      rw [executeQueue_cons hqueue] at heq
      by_cases hlast : rest = []
      · rw [if_pos hlast] at heq
        exact Option.some.inj heq ▸ hturn
      · rw [if_neg hlast] at heq
        refine IrqQueue.Inv.executeQueue n hturn ?_ heq
        have hq : (s.elems q).handler ≠ 0 := h.handlers q (by rw [hqueue]; exact List.mem_cons_self ..)
        rw [executeElem_done (s := { s with queue := rest }) hq hnone.1]
        exact hnone.2

/-- **One step**: everything is kept if and only if no handler of the queue asks to be queued again. -/
theorem IrqQueue.Inv.step_iff (h : s.Inv) (o : IrqOp) :
    ((irqStep call s o).Conserved ↔ IrqNoneAgain call s o) ∧
      (IrqNoneAgain call s o → (irqStep call s o).Inv) := by
  cases o with
  | dispatch irq line =>
    have hdispatch : (irqStep call s (.dispatch irq line)).Inv := by
      refine IrqQueue.Inv.dispatch irq _ h fun e he => ?_
      obtain ⟨hd, -, rfl⟩ := List.mem_map.mp he
      exact hd.handler_ne
    exact ⟨iff_of_true hdispatch.conserved trivial, fun _ => hdispatch⟩
  | execute =>
    obtain ⟨s', heq, -, hless⟩ := @executeQueue_linked ω call _ s (Nat.lt_succ_self _) h.handlers
    have hstep : irqStep call s .execute = s' := by
      rw [irqStep, leonIrqQueueExecute]
      exact congrArg (Option.getD · s) heq
    rw [hstep]
    have hinv : NoneAgain call s.env (s.queue.map s.elems) → s'.Inv :=
      fun hnone => h.executeQueue _ hnone heq
    refine ⟨⟨fun hkept => ?_, fun hnone => (hinv hnone).conserved⟩, hinv⟩
    by_contra hagain
    have hlost := hless hagain
    rw [hkept.linked, h.conserved.linked] at hlost
    exact Nat.lt_irrefl _ hlost

end Executing

/-- **The deferred interrupt queue.**  In every run each element is in the pool or in the queue, and
nothing that has been queued is lost, if and only if no handler that is called from the queue asks to
be queued again. -/
theorem irq_queue_conserved_iff {ω : Type} (call : IrqHandlers ω) (env : ω) (ops : List IrqOp) :
    Along (irqStep call) IrqQueue.Conserved (irqQueueInit env) ops ↔
      StepsMeet (irqStep call) (IrqNoneAgain call) (irqQueueInit env) ops :=
  along_iff_stepsMeet (fun _ h => h.conserved) (fun _ o h => (h.step_iff o).1)
    (fun _ o h => (h.step_iff o).2) ops (irqQueueInit_inv env)

/-- **An element is lost.**  A deferred handler is queued, and asks to be queued again. -/
theorem irq_queue_loses_element :
    ¬ ∀ (call : IrqHandlers Unit) (ops : List IrqOp),
      Along (irqStep call) IrqQueue.Conserved (irqQueueInit ()) ops := by
  intro h
  have hkept := Along.stop _ (h (fun _ _ _ _ => (0, ()))
    [.dispatch 3 [⟨⟨1, .later, 0, 3⟩, by decide⟩], .execute])
  exact absurd hkept.linked (by decide)

end FlightOs
