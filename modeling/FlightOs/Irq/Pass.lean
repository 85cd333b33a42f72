/-
# One pass over the deferred handlers

`leon_irq_queue_execute` goes through the queue once.  Where a handler returns 0, it is queued again: a
copy of its element joins the queue at the tail, behind the ones that are still to come.  The loop knows
the element after the current one before it calls the handler, so the copy is left for the next pass if
the handler was the last one.  The copies of all others are reached in the same pass, and their handlers
called a second time.

`irq_pass_once_iff`: the pass ends in any case.  It calls each handler once and leaves those that ask to
be queued again, if and only if none of them but the last one does.
-/
import FlightOs.Irq.Queue

namespace FlightOs

/-! ## 1. The calls -/

/-- What is called. -/
structure IrqRequest where
  handler : Nat
  irq : Nat
  data : Nat
  deriving DecidableEq, Repr

def IrlVectorElem.request (e : IrlVectorElem) : IrqRequest := ⟨e.handler, e.irq, e.data⟩

/-- The calls so far, and which of them asked to be queued again. -/
abbrev IrqLog := List (IrqRequest × Bool)

section Logging

variable {ω : Type} (call : IrqHandlers ω)

/-- The handlers, with a log of their calls. -/
def loggedCall : IrqHandlers (ω × IrqLog) := fun env handler irq data =>
  let r := call env.1 handler irq data
  (r.1, r.2, env.2 ++ [(⟨handler, irq, data⟩, decide (r.1 = 0))])

/-- Nothing has been called yet. -/
def IrqQueue.logged (s : IrqQueue ω) : IrqQueue (ω × IrqLog) where
  elems := s.elems
  pool := s.pool
  queue := s.queue
  env := (s.env, [])
  queued := s.queued
  finished := s.finished

/-- What is in the queue. -/
def IrqQueue.waiting (s : IrqQueue ω) : List IrqRequest := s.queue.map fun q => (s.elems q).request

/-- **One pass** ends; it calls everything that was in the queue once, unless the handler is the null
pointer; and leaves in the queue what asked for it. -/
def IrqPassOnce (s : IrqQueue ω) : Prop :=
  ∃ s', executeQueue (loggedCall call) (2 * s.queue.length + s.pool.length + 1) s.logged = some s' ∧
    (s'.env.2.map Prod.fst).Perm (s.waiting.filter (·.handler ≠ 0)) ∧
    s'.waiting.Perm ((s'.env.2.filter Prod.snd).map Prod.fst)

/-- The handler of an element asks to be queued again. -/
def AsksAgain (env : ω) (e : IrlVectorElem) : Prop :=
  e.handler ≠ 0 ∧ (call env e.handler e.irq e.data).1 = 0

instance (env : ω) (e : IrlVectorElem) : Decidable (AsksAgain call env e) :=
  inferInstanceAs (Decidable (_ ∧ _))

/-- What the handlers act on, after the turn of an element. -/
def envAfter (env : ω) (e : IrlVectorElem) : ω :=
  if e.handler ≠ 0 then (call env e.handler e.irq e.data).2 else env

/-- None of the handlers asks to be queued again but the last one, and that one only if there is room:
an element that has gone back to the pool before, or one that was there. -/
def OnlyLastAgain : Bool → ω → List IrlVectorElem → Prop
  | _, _, [] => True
  | room, env, [e] => AsksAgain call env e → room = true
  | _, env, e :: es => ¬ AsksAgain call env e ∧ OnlyLastAgain true (envAfter call env e) es

instance decidableOnlyLastAgain : ∀ room env es, Decidable (OnlyLastAgain call room env es)
  | _, _, [] => isTrue trivial
  | _, _, [_] => inferInstanceAs (Decidable (_ → _))
  | _, env, e :: e' :: es =>
    have := decidableOnlyLastAgain true (envAfter call env e) (e' :: es)
    inferInstanceAs (Decidable (_ ∧ _))

end Logging

/-! ## 2. A turn -/

section Turns

variable {ω : Type} {call : IrqHandlers ω} {s : IrqQueue ω} {q : Nat}

/-- The null pointer is not called. -/
theorem executeElem_null (hq : (s.elems q).handler = 0) :
    executeElem call s q = { s with pool := s.pool ++ [q] } := by
  simp only [executeElem, hq, ne_eq, not_true_eq_false, if_false]

/-- A handler that asks to be queued again. -/
theorem executeElem_asks (hasks : AsksAgain call s.env (s.elems q)) :
    executeElem call s q =
      (leonIrqQueue { s with env := envAfter call s.env (s.elems q) } (s.elems q)).2 := by
  simp only [executeElem, envAfter, if_pos hasks.1, if_pos hasks.2]

/-- A handler that does not. -/
theorem executeElem_asks_not (hq : (s.elems q).handler ≠ 0)
    (hasks : ¬ AsksAgain call s.env (s.elems q)) :
    executeElem call s q =
      { s with
        env := envAfter call s.env (s.elems q)
        pool := s.pool ++ [q]
        finished := s.elems q :: s.finished } := by
  rw [executeElem_done hq fun hret => hasks ⟨hq, hret⟩, envAfter, if_pos hq]

/-- A turn takes its element off the queue, and puts one into the queue or the pool at most. -/
theorem executeElem_turns (s : IrqQueue ω) (q : Nat) : (executeElem call s q).turns ≤ s.turns + 1 := by
  by_cases hq : (s.elems q).handler = 0
  · rw [executeElem_null hq]
    simp only [IrqQueue.turns, List.length_append, List.length_singleton]
    exact Nat.le_refl _
  by_cases hasks : AsksAgain call s.env (s.elems q)
  · rw [executeElem_asks hasks]
    rcases leonIrqQueue_cases { s with env := envAfter call s.env (s.elems q) } (s.elems q) with
      ⟨-, heq⟩ | ⟨p, pool, hpool, heq⟩
    · rw [heq]
      exact Nat.le_succ _
    · rw [heq]
      dsimp only at hpool
      simp only [IrqQueue.turns, hpool, List.length_append, List.length_cons, List.length_nil]
      omega
  · rw [executeElem_asks_not hq hasks]
    simp only [IrqQueue.turns, List.length_append, List.length_singleton]
    exact Nat.le_refl _

/-- **The pass ends**, whatever the handlers return. -/
theorem executeQueue_ends (n : Nat) : ∀ s : IrqQueue ω, s.turns < n →
    ∃ s', executeQueue call n s = some s' := by
  induction n with
  | zero => exact fun _ h => absurd h (Nat.not_lt_zero _)
  | succ n ih =>
    intro s h
    cases hqueue : s.queue with
    | nil => exact ⟨s, by simp only [executeQueue, hqueue]⟩
    | cons q rest =>
      rw [executeQueue_cons hqueue]
      by_cases hlast : rest = []
      · exact ⟨_, if_pos hlast⟩
      · rw [if_neg hlast]
        refine ih _ (Nat.lt_of_le_of_lt (executeElem_turns _ q) ?_)
        simp only [IrqQueue.turns, hqueue, List.length_cons] at h ⊢
        omega

end Turns

/-! ## 3. The log of a pass -/

section Logs

variable {ω : Type} {call : IrqHandlers ω} {s s' : IrqQueue (ω × IrqLog)} {q : Nat} {rest : List Nat}

theorem envAfter_logged {env : ω × IrqLog} {e : IrlVectorElem} (he : e.handler ≠ 0) :
    envAfter (loggedCall call) env e =
      (envAfter call env.1 e, env.2 ++ [(e.request, decide (AsksAgain call env.1 e))]) := by
  have hdecide : decide (AsksAgain call env.1 e) =
      decide ((call env.1 e.handler e.irq e.data).1 = 0) :=
    decide_eq_decide.mpr ⟨And.right, fun hret => ⟨he, hret⟩⟩
  rw [envAfter, envAfter, if_pos he, if_pos he, hdecide]
  rfl

/-- Without the log. -/
def IrqQueue.unlogged (s : IrqQueue (ω × IrqLog)) : IrqQueue ω where
  elems := s.elems
  pool := s.pool
  queue := s.queue
  env := s.env.1
  queued := s.queued
  finished := s.finished

theorem executeElem_unlogged (s : IrqQueue (ω × IrqLog)) (q : Nat) :
    (executeElem (loggedCall call) s q).unlogged = executeElem call s.unlogged q := by
  by_cases hq : (s.elems q).handler = 0
  · rw [executeElem_null hq, executeElem_null (s := s.unlogged) hq]
    rfl
  by_cases hasks : AsksAgain call s.env.1 (s.elems q)
  · rw [executeElem_asks hasks, executeElem_asks (s := s.unlogged) hasks, envAfter_logged hq]
    cases hpool : s.pool with
    | nil => simp only [leonIrqQueue, IrqQueue.unlogged, hpool]
    | cons p pool => simp only [leonIrqQueue, IrqQueue.unlogged, hpool]
  · rw [executeElem_asks_not hq hasks, executeElem_asks_not (s := s.unlogged) hq hasks,
      envAfter_logged hq]
    rfl

/-- **The log is only kept**: the pass is the same without it. -/
theorem executeQueue_unlogged (n : Nat) : ∀ s : IrqQueue (ω × IrqLog),
    (executeQueue (loggedCall call) n s).map IrqQueue.unlogged = executeQueue call n s.unlogged := by
  induction n with
  | zero => exact fun _ => rfl
  | succ n ih =>
    intro s
    cases hqueue : s.queue with
    | nil =>
      have hqueue' : s.unlogged.queue = [] := hqueue
      simp only [executeQueue, hqueue, hqueue', Option.map_some]
    | cons q rest =>
      have hqueue' : s.unlogged.queue = q :: rest := hqueue
      have hturn := @executeElem_unlogged ω call { s with queue := rest } q
      rw [executeQueue_cons hqueue, executeQueue_cons hqueue']
      by_cases hlast : rest = []
      · rw [if_pos hlast, if_pos hlast, Option.map_some, hturn]
        rfl
      · rw [if_neg hlast, if_neg hlast, ih, hturn]
        rfl

/-- What a turn, or the rest of a pass, does to the log and to the queue: an element that joins the
queue was called, and asked for it. -/
structure LogGrows (waits : Nat) (s s' : IrqQueue (ω × IrqLog)) (Z : IrqLog) : Prop where
  log : s'.env.2 = s.env.2 ++ Z
  queue : s'.queue.length ≤ waits + (Z.filter Prod.snd).length

theorem LogGrows.trans {n : Nat} {s₁ s₂ : IrqQueue (ω × IrqLog)} {Z Z' : IrqLog}
    (h : LogGrows n s s₁ Z) (h' : LogGrows 0 s₁ s₂ Z') : LogGrows 0 s s₂ (Z ++ Z') where
  log := by rw [h'.log, h.log, List.append_assoc]
  queue := by
    rw [List.filter_append, List.length_append]
    exact Nat.le_trans h'.queue (Nat.add_le_add_left (Nat.le_add_left _ _) 0)

/-- A turn takes nothing off the queue behind its element. -/
theorem executeElem_grows (s : IrqQueue (ω × IrqLog)) (q : Nat) :
    s.queue.length ≤ (executeElem (loggedCall call) s q).queue.length ∧
      ∃ Z, LogGrows s.queue.length s (executeElem (loggedCall call) s q) Z ∧
        (AsksAgain call s.env.1 (s.elems q) → Z = [((s.elems q).request, true)]) := by
  by_cases hq : (s.elems q).handler = 0
  · rw [executeElem_null hq]
    refine ⟨Nat.le_refl _, [], ⟨(List.append_nil _).symm, Nat.le_refl _⟩, ?_⟩
    exact fun hasks => absurd hq hasks.1
  by_cases hasks : AsksAgain call s.env.1 (s.elems q)
  · rw [executeElem_asks hasks, envAfter_logged hq, decide_eq_true hasks]
    rcases leonIrqQueue_cases { s with
        env := (envAfter call s.env.1 (s.elems q), s.env.2 ++ [((s.elems q).request, true)]) }
        (s.elems q) with ⟨-, heq⟩ | ⟨p, pool, -, heq⟩
    · rw [heq]
      exact ⟨Nat.le_refl _, _, ⟨rfl, Nat.le_succ _⟩, fun _ => rfl⟩
    · rw [heq]
      refine ⟨?_, _, ⟨rfl, ?_⟩, fun _ => rfl⟩
      · dsimp only
        rw [List.length_append]
        exact Nat.le_add_right _ _
      · dsimp only
        rw [List.length_append]
        exact Nat.le_refl _
  · rw [executeElem_asks_not hq hasks, envAfter_logged hq]
    exact ⟨Nat.le_refl _, _, ⟨rfl, Nat.le_add_right _ _⟩, fun h => absurd h hasks⟩

/-- **The rest of a pass** leaves no more in the queue than the handlers that asked for it. -/
theorem executeQueue_grows (n : Nat) : ∀ {s : IrqQueue (ω × IrqLog)}, s.queue ≠ [] →
    executeQueue (loggedCall call) n s = some s' → ∃ Z, LogGrows 0 s s' Z := by
  induction n with
  | zero => exact fun _ h => by cases h
  | succ n ih =>
    intro s hne h
    cases hqueue : s.queue with
    | nil => exact absurd hqueue hne
    | cons q rest =>
      rw [executeQueue_cons hqueue] at h
      obtain ⟨hlen, Z, hZ, -⟩ := @executeElem_grows ω call { s with queue := rest } q
      dsimp only at hlen hZ
      by_cases hlast : rest = []
      · rw [if_pos hlast] at h
        subst hlast
        exact ⟨Z, Option.some.inj h ▸ hZ.log, Option.some.inj h ▸ hZ.queue⟩
      · rw [if_neg hlast] at h
        have hne' : (executeElem (loggedCall call) { s with queue := rest } q).queue ≠ [] := by
          intro hnil
          rw [hnil] at hlen
          exact hlast (List.eq_nil_of_length_eq_zero (Nat.le_zero.mp hlen))
        obtain ⟨Z', hZ'⟩ := ih hne' h
        have hs : LogGrows rest.length s
            (executeElem (loggedCall call) { s with queue := rest } q) Z := ⟨hZ.log, hZ.queue⟩
        exact ⟨Z ++ Z', hs.trans hZ'⟩

/-! ## 4. A pass -/

/-- A pass calls what is in the queue, and leaves what asks for it. -/
def PassFrom (s s' : IrqQueue (ω × IrqLog)) : Prop :=
  ∃ Z : IrqLog, s'.env.2 = s.env.2 ++ Z ∧
    (Z.map Prod.fst).Perm (s.waiting.filter (·.handler ≠ 0)) ∧
    s'.waiting.Perm ((Z.filter Prod.snd).map Prod.fst)

theorem IrqQueue.waiting_cons (hqueue : s.queue = q :: rest) :
    s.waiting = (s.elems q).request :: { s with queue := rest }.waiting := by
  rw [IrqQueue.waiting, hqueue, List.map_cons]
  rfl

/-- A handler that is not the last one and asks to be queued again: there are more calls that ask for it
than elements in the queue at the end. -/
theorem passFrom_asks {n : Nat} (hne : rest ≠ []) (hasks : AsksAgain call s.env.1 (s.elems q))
    (h : executeQueue (loggedCall call) n (executeElem (loggedCall call) { s with queue := rest } q) =
      some s') : ¬ PassFrom s s' := by
  rintro ⟨Z, hlog, -, hleft⟩
  obtain ⟨hlen, Z₀, hZ₀, hone⟩ := @executeElem_grows ω call { s with queue := rest } q
  have hne' : (executeElem (loggedCall call) { s with queue := rest } q).queue ≠ [] := by
    intro hnil
    rw [hnil] at hlen
    exact hne (List.eq_nil_of_length_eq_zero (Nat.le_zero.mp hlen))
  obtain ⟨Z₁, hZ₁⟩ := executeQueue_grows n hne' h
  have hZ : Z = Z₀ ++ Z₁ := by
    refine List.append_cancel_left (hlog.symm.trans ?_)
    rw [hZ₁.log, hZ₀.log, List.append_assoc]
  have hcount := hleft.length_eq
  rw [hZ, hone hasks, IrqQueue.waiting, List.length_map, List.length_map] at hcount
  have hmore := hZ₁.queue
  rw [hcount, Nat.zero_add] at hmore
  exact absurd hmore (Nat.not_succ_le_self _)

/-- A turn that calls nothing. -/
theorem passFrom_null (hqueue : s.queue = q :: rest) (hq : (s.elems q).handler = 0) (pool : List Nat) :
    PassFrom { s with queue := rest, pool := pool } s' ↔ PassFrom s s' := by
  have hwaiting : s.waiting.filter (·.handler ≠ 0) =
      { s with queue := rest, pool := pool }.waiting.filter (·.handler ≠ 0) := by
    rw [IrqQueue.waiting_cons hqueue, List.filter_cons_of_neg]
    · rfl
    · exact fun h => of_decide_eq_true h hq
  rw [PassFrom, PassFrom, hwaiting]

/-- A turn whose call does not ask to be queued again. -/
theorem passFrom_done {env : ω} {pool : List Nat} {finished : List IrlVectorElem}
    (hqueue : s.queue = q :: rest) (hq : (s.elems q).handler ≠ 0)
    (hgrows : ∃ Z, s'.env.2 = (s.env.2 ++ [((s.elems q).request, false)]) ++ Z) :
    PassFrom { s with
      queue := rest
      env := (env, s.env.2 ++ [((s.elems q).request, false)])
      pool := pool
      finished := finished } s' ↔ PassFrom s s' := by
  have hwaiting : s.waiting.filter (·.handler ≠ 0) = (s.elems q).request ::
      { s with queue := rest }.waiting.filter (·.handler ≠ 0) := by
    rw [IrqQueue.waiting_cons hqueue, List.filter_cons_of_pos]
    exact decide_eq_true hq
  rw [PassFrom, PassFrom, hwaiting]
  constructor
  · rintro ⟨Z, hlog, hcalls, hleft⟩
    refine ⟨((s.elems q).request, false) :: Z, ?_, hcalls.cons _, hleft⟩
    rw [hlog, List.append_assoc, List.singleton_append]
  · rintro ⟨Z, hlog, hcalls, hleft⟩
    obtain ⟨Z₁, hlog₁⟩ := hgrows
    rw [List.append_assoc, List.singleton_append] at hlog₁
    obtain rfl := List.append_cancel_left (hlog.symm.trans hlog₁)
    refine ⟨Z₁, ?_, hcalls.cons_inv, hleft⟩
    rw [hlog₁, List.append_assoc, List.singleton_append]

/-- The last turn. -/
theorem passFrom_last (hqueue : s.queue = [q]) :
    PassFrom s (executeElem (loggedCall call) { s with queue := [] } q) ↔
      (AsksAgain call s.env.1 (s.elems q) → (!s.pool.isEmpty) = true) := by
  have hwaiting : s.waiting = [(s.elems q).request] := IrqQueue.waiting_cons hqueue
  rw [PassFrom, hwaiting]
  by_cases hq : (s.elems q).handler = 0
  · rw [executeElem_null (s := { s with queue := [] }) hq]
    refine iff_of_true ⟨[], (List.append_nil _).symm, ?_, List.Perm.refl _⟩ fun hasks => absurd hq hasks.1
    rw [List.filter_cons_of_neg]
    · exact List.Perm.refl _
    · exact fun h => of_decide_eq_true h hq
  have hcalled : [(s.elems q).request].filter (·.handler ≠ 0) = [(s.elems q).request] :=
    List.filter_cons_of_pos (decide_eq_true hq)
  rw [hcalled]
  by_cases hasks : AsksAgain call s.env.1 (s.elems q)
  · rw [executeElem_asks hasks, envAfter_logged hq, decide_eq_true hasks]
    rcases leonIrqQueue_cases { s with
        queue := []
        env := (envAfter call s.env.1 (s.elems q), s.env.2 ++ [((s.elems q).request, true)]) }
        (s.elems q) with ⟨hpool, heq⟩ | ⟨p, pool, hpool, heq⟩
    · rw [heq]
      dsimp only at hpool
      refine iff_of_false ?_ fun h => ?_
      · rintro ⟨Z, hlog, -, hleft⟩
        obtain rfl := List.append_cancel_left hlog
        exact absurd hleft.length_eq (by simp [IrqQueue.waiting])
      · rw [hpool] at h
        exact absurd (h hasks) (by decide)
    · rw [heq]
      dsimp only at hpool
      refine iff_of_true ⟨[((s.elems q).request, true)], rfl, List.Perm.refl _, ?_⟩ fun _ => ?_
      · simp [IrqQueue.waiting]
      · rw [hpool]
        rfl
  · rw [executeElem_asks_not (s := { s with queue := [] }) hq hasks, envAfter_logged hq,
      decide_eq_false hasks]
    exact iff_of_true ⟨[((s.elems q).request, false)], rfl, List.Perm.refl _, List.Perm.refl _⟩
      fun h => absurd h hasks

/-- **A pass**, turn by turn. -/
theorem passFrom_iff (n : Nat) : ∀ {s : IrqQueue (ω × IrqLog)},
    executeQueue (loggedCall call) n s = some s' →
    (PassFrom s s' ↔ OnlyLastAgain call (!s.pool.isEmpty) s.env.1 (s.queue.map s.elems)) := by
  induction n with
  | zero => exact fun h => by cases h
  | succ n ih =>
    intro s h
    cases hqueue : s.queue with
    | nil =>
      simp only [executeQueue, hqueue, Option.some.injEq] at h
      subst h
      refine iff_of_true ⟨[], (List.append_nil _).symm, ?_, ?_⟩ trivial
      all_goals
        rw [IrqQueue.waiting, hqueue]
        exact List.Perm.refl _
    | cons q rest =>
      rw [executeQueue_cons hqueue] at h
      by_cases hlast : rest = []
      · rw [if_pos hlast] at h
        subst hlast
        rw [← Option.some.inj h]
        exact passFrom_last hqueue
      rw [if_neg hlast] at h
      obtain ⟨r, rest', hrest⟩ := List.exists_cons_of_ne_nil hlast
      have hcond : OnlyLastAgain call (!s.pool.isEmpty) s.env.1 ((q :: rest).map s.elems) ↔
          ¬ AsksAgain call s.env.1 (s.elems q) ∧
            OnlyLastAgain call true (envAfter call s.env.1 (s.elems q)) (rest.map s.elems) := by
        rw [hrest]
        exact Iff.rfl
      have hroom : (!(s.pool ++ [q]).isEmpty) = true := by cases s.pool <;> rfl
      rw [hcond]
      by_cases hq : (s.elems q).handler = 0
      · rw [executeElem_null (s := { s with queue := rest }) hq] at h
        have henv : envAfter call s.env.1 (s.elems q) = s.env.1 := if_neg (not_not.mpr hq)
        rw [← passFrom_null hqueue hq (s.pool ++ [q]), ih h, hroom, henv]
        exact (and_iff_right fun hasks => hasks.1 hq).symm
      by_cases hasks : AsksAgain call s.env.1 (s.elems q)
      · exact iff_of_false (passFrom_asks hlast hasks h) fun hnone => hnone.1 hasks
      · rw [executeElem_asks_not (s := { s with queue := rest }) hq hasks, envAfter_logged hq,
          decide_eq_false hasks] at h
        obtain ⟨Z, hZ⟩ := executeQueue_grows n hlast h
        rw [← passFrom_done hqueue hq ⟨Z, hZ.log⟩, ih h, hroom]
        exact (and_iff_right hasks).symm

end Logs

/-- **The deferred handlers.**  A pass over the queue calls each handler in it once and leaves those that
ask to be queued again for the next one, if and only if none of them but the last one asks. -/
theorem irq_pass_once_iff {ω : Type} (call : IrqHandlers ω) (s : IrqQueue ω) :
    IrqPassOnce call s ↔ OnlyLastAgain call (!s.pool.isEmpty) s.env (s.queue.map s.elems) := by
  obtain ⟨s', h⟩ := @executeQueue_ends _ (loggedCall call) _ s.logged (Nat.lt_succ_self _)
  have hiff := passFrom_iff _ h
  refine Iff.trans ⟨fun ⟨s₁, h₁, hcalls, hleft⟩ => ?_, fun ⟨Z, hlog, hcalls, hleft⟩ => ?_⟩ hiff
  · obtain rfl := Option.some.inj (h.symm.trans h₁)
    exact ⟨s'.env.2, rfl, hcalls, hleft⟩
  · obtain rfl : s'.env.2 = Z := hlog
    exact ⟨s', h, hcalls, hleft⟩

/-- Two handlers are queued; the first one asks to be queued again. -/
def irqQueueTwo : IrqQueue Unit where
  elems := fun q => ⟨q + 1, .later, 0, 3⟩
  pool := [2]
  queue := [0, 1]
  env := ()
  queued := []
  finished := []

/-- **It is called twice**, and not left for the next pass. -/
theorem irq_pass_repeats : ¬ ∀ (call : IrqHandlers Unit) (s : IrqQueue Unit), IrqPassOnce call s := by
  intro h
  obtain ⟨s', h, hcalls, -⟩ := h (fun _ handler _ _ => (if handler = 1 then 0 else 1, ())) irqQueueTwo
  obtain rfl := Option.some.inj (h.symm.trans rfl)
  exact absurd hcalls (by decide)

end FlightOs
