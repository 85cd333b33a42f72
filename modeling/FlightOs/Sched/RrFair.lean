/-
# Taking turns

Picks on one CPU, when each picked task uses up its slice and is then back in state `RUN`
(`RrTurn`).  A pick moves the tasks in front that are spent to the end; the task it picks stays
where it is, and will be moved by the next pick.  So from one pick to the next the runnable tasks
of the CPU rotate by one, once those in front are spent and the others are not
(`RrSettled`).

A spent task behind one that is ready breaks this: it is moved and refilled together with tasks
that had their turn after it got spent, and stays behind them.  It takes a pick for each of the
other runnable tasks, at most, until that is over.

* `rrTurn_runnables`: what one turn does to the runnable tasks in their order.
* `rr_takes_turns`: `n` picks in a row are of different tasks, for `n` runnable tasks, from a
  settled queue on, or from the `n`-th on.
-/
import FlightOs.Sched.RoundRobin

namespace FlightOs

variable {tick : Int} {cpu : Nat}

/-! ## 1. One turn -/

/-- A pick on the CPU, after which the task `t` it picked runs from `now` to `stop`. -/
def RrTurn (tick : Int) (cpu : Nat) (q : Queues) (t : Nat) (q' : Queues) : Prop :=
  ∃ fuel now stop q₁, rrPickNext tick fuel q cpu now = some (some t, q₁) ∧
    q' = q₁.setTask t (schedUpdateRuntime { q₁.task t with execStart := now } stop) ∧
    (q'.task t).runtime ≤ 2 * tick

/-- Turns one after the other. -/
inductive RrTurns (tick : Int) (cpu : Nat) : Queues → List Nat → Queues → Prop
  | nil (q : Queues) : RrTurns tick cpu q [] q
  | cons {q q₁ q₂ : Queues} {t : Nat} {ts : List Nat} :
    RrTurn tick cpu q t q₁ → RrTurns tick cpu q₁ ts q₂ → RrTurns tick cpu q (t :: ts) q₂

/-- The tasks the CPU could run, in the order of the queue. -/
def rrRunnables (cpu : Nat) (q : Queues) : List Nat :=
  (q.tq 0).run.filter fun u => rrRunnable cpu (q.task u)

/-- A run queue has each task once, and a slice is more than two ticks. -/
structure RrQueueOk (tick : Int) (cpu : Nat) (q : Queues) : Prop where
  nodup : (q.tq 0).run.Nodup
  wcet : ∀ t ∈ (q.tq 0).run, rrRunnable cpu (q.task t) = true → 2 * tick < (q.task t).attr.wcet

theorem RrQueueOk.refills {q : Queues} (h : RrQueueOk tick cpu q) : RrRefills tick cpu q :=
  fun t ht hs => h.wcet t ht ((rrRunnable_iff tick).mpr (.inr hs))

theorem rrRunnable_refill (tsk : TaskStruct) : rrRunnable cpu tsk.refill = rrRunnable cpu tsk := rfl

theorem rrRunnable_refillAll (τ : Nat → TaskStruct) (X : List Nat) (u : Nat) :
    rrRunnable cpu (refillAll τ X u) = rrRunnable cpu (τ u) := by
  unfold refillAll
  split
  · exact rrRunnable_refill _
  · rfl

theorem refillAll_attr (τ : Nat → TaskStruct) (X : List Nat) (u : Nat) :
    (refillAll τ X u).attr = (τ u).attr := by
  unfold refillAll
  split <;> rfl

/-- The tasks and the queue a turn leaves. -/
theorem rrTurn_spec {q q' : Queues} {t : Nat} (hq : RrQueueOk tick cpu q)
    (h : RrTurn tick cpu q t q') :
    rrPicked tick cpu q.task (q.tq 0).run = some t ∧
      (q'.tq 0).run = rrQueue tick cpu q.task (q.tq 0).run ∧
      rrSpent tick cpu (q'.task t) = true ∧ (q'.task t).attr = (q.task t).attr ∧
      ∀ u ≠ t, q'.task u = refillAll q.task (rrMoved tick cpu q.task (q.tq 0).run) u := by
  obtain ⟨fuel, now, stop, q₁, hpick, rfl, hrt⟩ := h
  obtain ⟨hpicked, rfl⟩ := Prod.mk.inj (rrPickNext_some hq.nodup hq.refills hpick)
  have htask := rrAfter_task_picked hpicked.symm
  obtain ⟨hmem, hready⟩ := rrPicked_some hpicked.symm
  have hrun := (rrRunnable_iff tick).mpr (hready.imp id rrMoved_spent)
  refine ⟨hpicked.symm, rrAfter_run q, ?_, ?_, ?_⟩
  · rw [Queues.setTask_task_self] at hrt ⊢
    have hcpu : ∀ u, (refillAll q.task (rrMoved tick cpu q.task (q.tq 0).run) u).onCpu =
        (q.task u).onCpu := by
      intro u
      unfold refillAll
      split <;> rfl
    simp only [rrSpent, rrRunnable, onCpuOf, Bool.and_eq_true, Bool.or_eq_true,
      decide_eq_true_eq] at hrun ⊢
    refine ⟨⟨?_, ?_⟩, hrt⟩
    · simpa [schedUpdateRuntime, htask, hcpu] using hrun.1
    · simp [schedUpdateRuntime, htask]
  · rw [Queues.setTask_task_self]
    simp [schedUpdateRuntime, htask, refillAll_attr]
  · intro u hu
    rw [Queues.setTask_task_other _ _ hu]
    exact rrAfter_task_other fun heq => hu (Option.some.inj (hpicked.trans heq)).symm

/-- What is runnable stays so. -/
theorem rrTurn_runnable {q q' : Queues} {t : Nat} (hq : RrQueueOk tick cpu q)
    (h : RrTurn tick cpu q t q') (u : Nat) :
    rrRunnable cpu (q'.task u) = rrRunnable cpu (q.task u) := by
  obtain ⟨hpicked, -, hspent, -, hother⟩ := rrTurn_spec hq h
  by_cases hu : u = t
  · subst hu
    obtain ⟨-, hready⟩ := rrPicked_some hpicked
    rw [(rrRunnable_iff tick).mpr (hready.imp id rrMoved_spent), (rrRunnable_iff tick).mpr (.inr hspent)]
  · rw [hother u hu, rrRunnable_refillAll]

theorem rrTurn_ok {q q' : Queues} {t : Nat} (hq : RrQueueOk tick cpu q)
    (h : RrTurn tick cpu q t q') : RrQueueOk tick cpu q' := by
  obtain ⟨-, hrun, -, hattr, hother⟩ := rrTurn_spec hq h
  have hperm := rrQueue_perm tick cpu q.task (q.tq 0).run
  refine ⟨?_, ?_⟩
  · rw [hrun]
    exact (List.nodup_append.mp (hperm.nodup_iff.mpr hq.nodup)).2.1
  · intro u hu hrunnable
    rw [rrTurn_runnable hq h] at hrunnable
    have hmem : u ∈ (q.tq 0).run := hperm.subset (List.mem_append_right _ (hrun ▸ hu))
    have hu' : (q'.task u).attr = (q.task u).attr := by
      by_cases hut : u = t
      · rw [hut, hattr]
      · rw [hother u hut, refillAll_attr]
    rw [hu']
    exact hq.wcet u hmem hrunnable

/-- **One turn.**  The spent tasks in front go to the end with new runtime.  The task picked is the
first one then in front, and is spent when the turn is over. -/
theorem rrTurn_runnables {q q' : Queues} {t : Nat} (hq : RrQueueOk tick cpu q)
    (h : RrTurn tick cpu q t q') :
    ∃ X Y, rrRunnables cpu q = X ++ Y ∧ (∀ x ∈ X, rrSpent tick cpu (q.task x) = true) ∧
      rrSpent tick cpu (q'.task t) = true ∧
      (∀ x ∈ X, x ≠ t → rrReady tick cpu (q'.task x) = true) ∧
      ((∃ Y', Y = t :: Y' ∧ rrReady tick cpu (q.task t) = true ∧
          rrRunnables cpu q' = t :: Y' ++ X ∧
          ∀ u ∈ Y', q'.task u = q.task u) ∨
        (Y = [] ∧ ∃ X', X = t :: X' ∧ rrRunnables cpu q' = t :: X')) := by
  obtain ⟨hpicked, hrun, hspent, -, hother⟩ := rrTurn_spec hq h
  have hrunnable : ∀ u, rrRunnable cpu (q'.task u) = rrRunnable cpu (q.task u) :=
    rrTurn_runnable hq h
  have hsplit := rrBefore_append_rrFrom tick cpu q.task (q.tq 0).run
  have hX : (rrBefore tick cpu q.task (q.tq 0).run).filter (fun u => rrRunnable cpu (q.task u)) =
      rrMoved tick cpu q.task (q.tq 0).run := by
    refine List.filter_congr fun u hu => ?_
    have hnot := rrBefore_not_ready hu
    rw [Bool.eq_iff_iff, rrRunnable_iff tick, hnot]
    simp
  have hkept : (rrKept tick cpu q.task (q.tq 0).run).filter
      (fun u => rrRunnable cpu (q.task u)) = [] := by
    rw [List.filter_eq_nil_iff]
    intro u hu hrun'
    have hpassed := (List.mem_filter.mp hu).2
    simp only [rrPassed, Bool.and_eq_true, Bool.not_eq_true'] at hpassed
    rcases (rrRunnable_iff tick).mp hrun' with h1 | h1
    · rw [hpassed.1.1] at h1
      cases h1
    · rw [hpassed.1.2] at h1
      cases h1
  have hmoved : (rrMoved tick cpu q.task (q.tq 0).run).filter
      (fun u => rrRunnable cpu (q.task u)) = rrMoved tick cpu q.task (q.tq 0).run :=
    List.filter_eq_self.mpr fun u hu => (rrRunnable_iff tick).mpr (.inr (rrMoved_spent hu))
  have hafter : rrRunnables cpu q' = (rrFrom tick cpu q.task (q.tq 0).run).filter
      (fun u => rrRunnable cpu (q.task u)) ++ rrMoved tick cpu q.task (q.tq 0).run := by
    unfold rrRunnables
    rw [hrun, List.filter_congr fun u _ => hrunnable u, rrQueue, List.filter_append, hkept,
      List.filter_append, hmoved, List.nil_append]
  refine ⟨rrMoved tick cpu q.task (q.tq 0).run, (rrFrom tick cpu q.task (q.tq 0).run).filter
    (fun u => rrRunnable cpu (q.task u)), ?_, fun x hx => rrMoved_spent hx, hspent, ?_, ?_⟩
  · rw [← hX, ← List.filter_append, hsplit]
    rfl
  · intro x hx hxt
    rw [hother x hxt, refillAll_self hx]
    exact rrReady_refill (rrMoved_spent hx) (hq.refills x (rrMoved_subset _ hx) (rrMoved_spent hx))
  · cases hB : rrFrom tick cpu q.task (q.tq 0).run with
    | cons f B =>
      left
      have hf : f = t := by
        rw [rrPicked, hB] at hpicked
        exact Option.some.inj hpicked
      subst hf
      have hready := rrFrom_head_ready hB
      refine ⟨B.filter (fun u => rrRunnable cpu (q.task u)), ?_, hready, ?_, ?_⟩
      · rw [List.filter_cons, if_pos ((rrRunnable_iff tick).mpr (.inl hready))]
      · rw [hafter, hB, List.filter_cons, if_pos ((rrRunnable_iff tick).mpr (.inl hready))]
      · intro u hu
        have hnodup := hq.nodup
        rw [← hsplit, hB, List.nodup_append] at hnodup
        have huB : u ∈ B := (List.mem_filter.mp hu).1
        have huf : u ≠ f := fun heq => (List.nodup_cons.mp hnodup.2.1).1 (heq ▸ huB)
        have humoved : u ∉ rrMoved tick cpu q.task (q.tq 0).run := fun hum =>
          hnodup.2.2 u (List.mem_of_mem_filter hum) u (List.mem_cons_of_mem _ huB) rfl
        rw [hother u huf, refillAll_other humoved]
    | nil =>
      right
      rw [rrPicked, hB] at hpicked
      obtain ⟨X', hX'⟩ := List.head?_eq_some_iff.mp hpicked
      refine ⟨rfl, X', hX', ?_⟩
      rw [hafter, hB, hX']
      rfl

/-! ## 2. The order of the runnable tasks -/

/-- **The condition.**  No runnable task that is spent stands behind one that is ready. -/
def RrSettled (tick : Int) (cpu : Nat) (q : Queues) : Prop :=
  (q.tq 0).run.Pairwise fun u v =>
    rrReady tick cpu (q.task u) = true → rrSpent tick cpu (q.task v) = false

instance decidableRrSettled (tick : Int) (cpu : Nat) (q : Queues) :
    Decidable (RrSettled tick cpu q) :=
  inferInstanceAs (Decidable ((q.tq 0).run.Pairwise fun u v =>
    rrReady tick cpu (q.task u) = true → rrSpent tick cpu (q.task v) = false))

/-- The runnable tasks are `s`, which is spent, then `U`, then `V`, which are all ready. -/
structure RrOrder (tick : Int) (cpu : Nat) (q : Queues) (s : Nat) (U V : List Nat) : Prop where
  runnables : rrRunnables cpu q = s :: U ++ V
  spent : rrSpent tick cpu (q.task s) = true
  ready : ∀ v ∈ V, rrReady tick cpu (q.task v) = true

theorem rrReady_not_spent {tsk : TaskStruct} (h : rrReady tick cpu tsk = true) :
    rrSpent tick cpu tsk = false := by
  rcases hs : rrSpent tick cpu tsk with _ | _
  · rfl
  · rw [rrSpent_not_ready hs] at h
    cases h

theorem rrRunnables_nodup {q : Queues} (hq : RrQueueOk tick cpu q) : (rrRunnables cpu q).Nodup :=
  hq.nodup.filter _

/-- Whether a queue is settled depends on the runnable tasks. -/
theorem rrSettled_iff {q : Queues} :
    RrSettled tick cpu q ↔ (rrRunnables cpu q).Pairwise fun u v =>
      rrReady tick cpu (q.task u) = true → rrSpent tick cpu (q.task v) = false := by
  rw [rrRunnables, List.pairwise_filter]
  refine List.Pairwise.iff fun u v => ⟨fun h _ _ => h, fun h hu => ?_⟩
  rcases hv : rrSpent tick cpu (q.task v) with _ | _
  · rfl
  · rw [h ((rrRunnable_iff tick).mpr (.inl hu)) ((rrRunnable_iff tick).mpr (.inr hv)) hu] at hv
    cases hv

theorem RrOrder.settled {q : Queues} {s : Nat} {V : List Nat} (h : RrOrder tick cpu q s [] V) :
    RrSettled tick cpu q := by
  rw [rrSettled_iff, h.runnables, List.singleton_append, List.pairwise_cons]
  refine ⟨fun v _ hs => ?_, List.pairwise_of_forall_mem_list fun _ _ v hv _ => ?_⟩
  · rw [rrSpent_not_ready h.spent] at hs
    cases hs
  · exact rrReady_not_spent (h.ready v hv)

/-- One task between the spent one and the ready ones is in its place, whichever it is. -/
theorem RrOrder.settled_one {q : Queues} {s u : Nat} {V : List Nat}
    (h : RrOrder tick cpu q s [u] V) : RrSettled tick cpu q := by
  rw [rrSettled_iff, h.runnables, List.cons_append, List.singleton_append, List.pairwise_cons,
    List.pairwise_cons]
  refine ⟨fun v _ hs => ?_, fun v hv _ => rrReady_not_spent (h.ready v hv),
    List.pairwise_of_forall_mem_list fun _ _ v hv _ => rrReady_not_spent (h.ready v hv)⟩
  rw [rrSpent_not_ready h.spent] at hs
  cases hs

/-- What a turn does to a settled queue. -/
theorem RrSettled.turn {q q' : Queues} {t : Nat} (hq : RrQueueOk tick cpu q)
    (hs : RrSettled tick cpu q) (h : RrTurn tick cpu q t q') :
    ∃ V, RrOrder tick cpu q' t [] V ∧ (rrRunnables cpu q').length = (rrRunnables cpu q).length := by
  have hnodup := rrRunnables_nodup hq
  obtain ⟨X, Y, hXY, hX, hspent, hXready, hcase⟩ := rrTurn_runnables hq h
  rw [hXY] at hnodup
  rcases hcase with ⟨Y', rfl, hready, hE, hsame⟩ | ⟨rfl, X', rfl, hE⟩
  · refine ⟨Y' ++ X, ⟨hE, hspent, fun v hv => ?_⟩, ?_⟩
    · rcases List.mem_append.mp hv with hv | hv
      · rw [hsame v hv]
        have hpair := rrSettled_iff.mp hs
        rw [hXY] at hpair
        have hnot := (List.pairwise_cons.mp (List.pairwise_append.mp hpair).2.1).1 v hv hready
        have hmem : v ∈ rrRunnables cpu q := by
          rw [hXY]
          exact List.mem_append_right _ (List.mem_cons_of_mem _ hv)
        have hrun := (List.mem_filter.mp hmem).2
        rcases (rrRunnable_iff tick).mp hrun with h1 | h1
        · exact h1
        · rw [hnot] at h1
          cases h1
      · refine hXready v hv ?_
        rintro rfl
        exact (List.nodup_append.mp hnodup).2.2 v hv v List.mem_cons_self rfl
    · rw [hE, hXY]
      simp only [List.length_append, List.length_cons]
      omega
  · rw [List.append_nil] at hXY hnodup
    refine ⟨X', ⟨hE, hspent, fun v hv => ?_⟩, by rw [hE, hXY]⟩
    refine hXready v (List.mem_cons_of_mem _ hv) ?_
    rintro rfl
    exact (List.nodup_cons.mp hnodup).1 hv

/-- **Rotation.**  The task behind the one that is spent is next, and that one goes to the end. -/
theorem RrOrder.rotate {q q' : Queues} {s t f : Nat} {V : List Nat} (hq : RrQueueOk tick cpu q)
    (ho : RrOrder tick cpu q s [] (f :: V)) (h : RrTurn tick cpu q t q') :
    t = f ∧ RrOrder tick cpu q' f [] (V ++ [s]) := by
  have hnodup := rrRunnables_nodup hq
  obtain ⟨X, Y, hXY, hX, hspent, hXready, hcase⟩ := rrTurn_runnables hq h
  have hE := ho.runnables
  have hf : rrSpent tick cpu (q.task f) = false :=
    rrReady_not_spent (ho.ready f List.mem_cons_self)
  rw [hXY] at hE hnodup
  match X, hE with
  | [], hE =>
    obtain rfl : Y = s :: f :: V := hE
    rcases hcase with ⟨Y', hY, hready, -⟩ | ⟨hnil, -⟩
    · obtain ⟨rfl, -⟩ := List.cons.inj hY
      rw [rrSpent_not_ready ho.spent] at hready
      cases hready
    · cases hnil
  | x :: [], hE =>
    obtain ⟨rfl, rfl⟩ : x = s ∧ Y = f :: V := List.cons.inj hE
    rcases hcase with ⟨Y', hY, hready, hE', hsame⟩ | ⟨hnil, -⟩
    · obtain ⟨rfl, rfl⟩ := List.cons.inj hY
      refine ⟨rfl, ⟨hE', hspent, fun v hv => ?_⟩⟩
      rcases List.mem_append.mp hv with hv | hv
      · rw [hsame v hv]
        exact ho.ready v (List.mem_cons_of_mem _ hv)
      · refine hXready v hv ?_
        rintro rfl
        obtain rfl := List.mem_singleton.mp hv
        rw [ho.spent] at hf
        cases hf
    · cases hnil
  | x :: y :: X, hE =>
    obtain ⟨-, hyf, -⟩ : x = s ∧ y = f ∧ X ++ Y = V := by
      have h1 := List.cons.inj hE
      exact ⟨h1.1, List.cons.inj h1.2⟩
    have hy := hX y (by simp)
    rw [hyf, hf] at hy
    cases hy

/-- A turn brings the unsettled part down. -/
theorem RrOrder.progress {q q' : Queues} {s t : Nat} {U V : List Nat} (hq : RrQueueOk tick cpu q)
    (ho : RrOrder tick cpu q s U V) (h : RrTurn tick cpu q t q') :
    RrSettled tick cpu q' ∨ ∃ U' V', RrOrder tick cpu q' t U' V' ∧ U'.length < U.length := by
  have hnodup := rrRunnables_nodup hq
  obtain ⟨X, Y, hXY, hX, hspent, hXready, hcase⟩ := rrTurn_runnables hq h
  have hE := ho.runnables
  rw [hXY] at hE hnodup
  rcases hcase with ⟨Y', rfl, hready, hE', hsame⟩ | ⟨rfl, X', rfl, hE'⟩
  · have hXt : ∀ x ∈ X, x ≠ t := by
      rintro x hx rfl
      exact (List.nodup_append.mp hnodup).2.2 x hx x List.mem_cons_self rfl
    match X, hE with
    | [], hE =>
      obtain ⟨rfl, -⟩ := List.cons.inj hE
      rw [rrSpent_not_ready ho.spent] at hready
      cases hready
    | x :: X, hE =>
      have hUV : X ++ t :: Y' = U ++ V := (List.cons.inj hE).2
      rcases List.append_eq_append_iff.mp hUV with ⟨W, hU, hW⟩ | ⟨W, hU, hV⟩
      · match W, hW with
        | [], hW =>
          left
          have hV : t :: Y' = V := hW
          refine RrOrder.settled (s := t) (V := Y' ++ x :: X) ⟨hE', hspent, fun v hv => ?_⟩
          rcases List.mem_append.mp hv with hv | hv
          · rw [hsame v hv]
            exact ho.ready v (hV ▸ List.mem_cons_of_mem _ hv)
          · exact hXready v hv (hXt v hv)
        | w :: W, hW =>
          right
          obtain ⟨rfl, rfl⟩ : t = w ∧ Y' = W ++ V := List.cons.inj hW
          refine ⟨W, V ++ x :: X, ⟨?_, hspent, fun v hv => ?_⟩, ?_⟩
          · rw [hE']
            simp
          · rcases List.mem_append.mp hv with hv | hv
            · rw [hsame v (List.mem_append_right _ hv)]
              exact ho.ready v hv
            · exact hXready v hv (hXt v hv)
          · rw [hU]
            simp only [List.length_append, List.length_cons]
            omega
      · left
        match W, hV with
        | [], hV =>
          refine RrOrder.settled (s := t) (V := Y' ++ x :: X) ⟨hE', hspent, fun v hv => ?_⟩
          rcases List.mem_append.mp hv with hv | hv
          · rw [hsame v hv]
            exact ho.ready v (hV ▸ List.mem_cons_of_mem _ hv)
          · exact hXready v hv (hXt v hv)
        | w :: W, hV =>
          -- a spent task among those that are ready
          have hw : rrSpent tick cpu (q.task w) = true :=
            hX w (List.mem_cons_of_mem _ (hU ▸ by simp))
          have hw' := rrReady_not_spent (ho.ready w (hV ▸ by simp))
          rw [hw] at hw'
          cases hw'
  · left
    refine RrOrder.settled (s := t) (V := X') ⟨hE', hspent, fun v hv => ?_⟩
    refine hXready v (List.mem_cons_of_mem _ hv) ?_
    rintro rfl
    rw [List.append_nil] at hnodup
    exact (List.nodup_cons.mp hnodup).1 hv

/-! ## 3. Picks in a row -/

theorem RrTurns.ok {q q' : Queues} {ts : List Nat} (hq : RrQueueOk tick cpu q)
    (h : RrTurns tick cpu q ts q') : RrQueueOk tick cpu q' := by
  induction h with
  | nil => exact hq
  | cons h1 _ ih => exact ih (rrTurn_ok hq h1)

theorem RrTurns.split : ∀ {a w : List Nat} {q q' : Queues}, RrTurns tick cpu q (a ++ w) q' →
    ∃ q₁, RrTurns tick cpu q a q₁ ∧ RrTurns tick cpu q₁ w q'
  | [], _, q, _, h => ⟨q, .nil q, h⟩
  | _ :: _, _, _, _, .cons h1 h2 =>
    let ⟨q₁, ha, hw⟩ := RrTurns.split h2
    ⟨q₁, .cons h1 ha, hw⟩

/-- Picks with one spent task in front go along the queue. -/
theorem RrOrder.picks : ∀ {w : List Nat} {q q' : Queues} {s : Nat} {V : List Nat},
    RrQueueOk tick cpu q → RrOrder tick cpu q s [] V → RrTurns tick cpu q w q' →
      w.length ≤ V.length → w <+: V
  | [], _, _, _, _, _, _, _, _ => List.nil_prefix
  | t :: w, q, q', s, [], _, _, _, hlen => absurd hlen (Nat.not_succ_le_zero _)
  | t :: w, q, q', s, f :: V, hq, ho, .cons h1 h2, hlen => by
    obtain ⟨rfl, ho'⟩ := ho.rotate hq h1
    have hlen' : w.length ≤ V.length := Nat.le_of_succ_le_succ hlen
    have hpre := RrOrder.picks (rrTurn_ok hq h1) ho' h2
      (Nat.le_trans hlen' (by simp))
    have hV : w <+: V := List.prefix_of_prefix_length_le hpre (List.prefix_append V [s]) hlen'
    exact (List.prefix_cons_inj t).mpr hV

/-- Picks from a settled queue on. -/
theorem RrSettled.picks {w : List Nat} {q q' : Queues} (hq : RrQueueOk tick cpu q)
    (hs : RrSettled tick cpu q) (h : RrTurns tick cpu q w q')
    (hlen : w.length ≤ (rrRunnables cpu q).length) : w.Nodup := by
  cases h with
  | nil => exact List.nodup_nil
  | @cons _ q₁ _ t w h1 h2 =>
    obtain ⟨V, ho, hcount⟩ := hs.turn hq h1
    have hq₁ := rrTurn_ok hq h1
    have hnodup := rrRunnables_nodup hq₁
    have hE : rrRunnables cpu q₁ = t :: V := ho.runnables
    rw [← hcount, hE, List.length_cons, List.length_cons] at hlen
    have hpre := ho.picks hq₁ h2 (Nat.le_of_succ_le_succ hlen)
    rw [hE] at hnodup
    exact hnodup.sublist (hpre.sublist.cons_cons t)

theorem RrSettled.turns {q q' : Queues} {ts : List Nat} (hq : RrQueueOk tick cpu q)
    (hs : RrSettled tick cpu q) (h : RrTurns tick cpu q ts q') : RrSettled tick cpu q' := by
  induction h with
  | nil => exact hs
  | cons h1 _ ih =>
    obtain ⟨V, ho, -⟩ := hs.turn hq h1
    exact ih (rrTurn_ok hq h1) ho.settled

/-- The unsettled part is gone when all its tasks but one have had a turn. -/
theorem RrOrder.turns : ∀ {ts : List Nat} {q q' : Queues} {s : Nat} {U V : List Nat},
    RrQueueOk tick cpu q → RrOrder tick cpu q s U V → RrTurns tick cpu q ts q' →
      U.length ≤ ts.length + 1 → RrSettled tick cpu q'
  | ts, q, q', s, [], V, hq, ho, h, _ => ho.settled.turns hq h
  | ts, q, q', s, [u], V, hq, ho, h, _ => ho.settled_one.turns hq h
  | [], _, _, _, _ :: _ :: _, _, _, _, _, hlen =>
    absurd (Nat.le_of_succ_le_succ hlen) (Nat.not_succ_le_zero _)
  | t :: ts, q, q', s, u :: v :: U, V, hq, ho, .cons h1 h2, hlen => by
    have hq₁ := rrTurn_ok hq h1
    rcases ho.progress hq h1 with hs | ⟨U', V', ho', hlt⟩
    · exact hs.turns hq₁ h2
    · refine RrOrder.turns hq₁ ho' h2 ?_
      simp only [List.length_cons] at hlt hlen
      omega

/-- The queue is settled when there have been as many turns as there are other runnable tasks. -/
theorem RrTurns.settled {q q' : Queues} {ts : List Nat} (hq : RrQueueOk tick cpu q)
    (h : RrTurns tick cpu q ts q') (hlen : (rrRunnables cpu q).length ≤ ts.length + 1)
    (hts : ts ≠ []) : RrSettled tick cpu q' := by
  cases h with
  | nil => exact absurd rfl hts
  | @cons _ q₁ _ t ts h1 h2 =>
    have hq₁ := rrTurn_ok hq h1
    obtain ⟨X, Y, hXY, -, hspent, hXready, hcase⟩ := rrTurn_runnables hq h1
    have hnodup := rrRunnables_nodup hq
    rw [hXY] at hnodup
    rw [hXY, List.length_append, List.length_cons] at hlen
    rcases hcase with ⟨Y', rfl, -, hE, -⟩ | ⟨rfl, X', rfl, hE⟩
    · have ho : RrOrder tick cpu q₁ t Y' X := by
        refine ⟨hE, hspent, fun x hx => hXready x hx ?_⟩
        rintro rfl
        exact (List.nodup_append.mp hnodup).2.2 x hx x List.mem_cons_self rfl
      refine ho.turns hq₁ h2 ?_
      rw [List.length_cons] at hlen
      omega
    · have ho : RrOrder tick cpu q₁ t [] X' := by
        refine ⟨hE, hspent, fun x hx => hXready x (List.mem_cons_of_mem _ hx) ?_⟩
        rintro rfl
        rw [List.append_nil] at hnodup
        exact (List.nodup_cons.mp hnodup).1 hx
      exact ho.settled.turns hq₁ h2

/-- The number of runnable tasks stays the same. -/
theorem RrTurns.length {q q' : Queues} {ts : List Nat} (hq : RrQueueOk tick cpu q)
    (h : RrTurns tick cpu q ts q') : (rrRunnables cpu q').length = (rrRunnables cpu q).length := by
  induction h with
  | nil => rfl
  | cons h1 _ ih =>
    rw [ih (rrTurn_ok hq h1)]
    obtain ⟨X, Y, hXY, -, -, -, hcase⟩ := rrTurn_runnables hq h1
    rcases hcase with ⟨Y', rfl, -, hE, -⟩ | ⟨rfl, X', rfl, hE⟩
    · rw [hXY, hE]
      simp only [List.length_append, List.length_cons]
      omega
    · rw [hXY, hE, List.append_nil]

/-- **The tasks take turns.**  In a row of picks of tasks that use up their slices, `n` consecutive
ones, for `n` runnable tasks, are of different tasks: from the first on when no spent task stands
behind a ready one, and in any case from the `n`-th on. -/
theorem rr_takes_turns (tick : Int) (cpu : Nat) {q q' : Queues} {a w b : List Nat}
    (hq : RrQueueOk tick cpu q) (h : RrTurns tick cpu q (a ++ w ++ b) q')
    (hw : w.length = (rrRunnables cpu q).length)
    (hwhen : RrSettled tick cpu q ∨ (rrRunnables cpu q).length ≤ a.length + 1) : w.Nodup := by
  obtain ⟨q₂, haw, -⟩ := h.split
  obtain ⟨q₁, ha, hw'⟩ := haw.split
  have hlen : w.length ≤ (rrRunnables cpu q₁).length := by rw [ha.length hq, hw]
  rcases hwhen with hs | hlate
  · exact (hs.turns hq ha).picks (ha.ok hq) hw' hlen
  · cases a with
    | nil =>
      -- a window of one pick
      have hone : w.length ≤ 1 := by rwa [← hw, List.length_nil] at hlate
      match w, hone with
      | [], _ => exact List.nodup_nil
      | [t], _ => exact List.nodup_singleton t
    | cons t a =>
      exact (ha.settled hq hlate (List.cons_ne_nil t a)).picks (ha.ok hq) hw' hlen

/-- Two tasks with runtime left. -/
def rrTwoReady : Queues := rrQueuesOf [rrTaskOf .run none 16 16, rrTaskOf .run none 16 16]

theorem rr_takes_turns_two : ∃ q', RrTurns 1 0 rrTwoReady [0, 1] q' ∧ [0, 1].Nodup := by
  have h : ∃ q', RrTurns 1 0 rrTwoReady [0, 1] q' :=
    ⟨_, .cons ⟨4, 0, 16, _, rfl, rfl, by decide⟩ (.cons ⟨4, 16, 32, _, rfl, rfl, by decide⟩
      (.nil _))⟩
  obtain ⟨q', hq'⟩ := h
  exact ⟨q', hq', rr_takes_turns 1 0 (a := []) (b := []) ⟨by decide, by decide⟩ hq' rfl
    (.inl (by decide))⟩

/-- A task with runtime left, and one behind it that is spent. -/
def rrSpentBehind : Queues := rrQueuesOf [rrTaskOf .run none 16 16, rrTaskOf .run none 0 16]

/-- **A task is passed over.**  The spent task is moved behind the one that has just had its turn,
which is picked again. -/
theorem rr_takes_turns_passed_over :
    ¬ ∀ (tick : Int) (cpu : Nat) (q q' : Queues) (a w b : List Nat), RrQueueOk tick cpu q →
      RrTurns tick cpu q (a ++ w ++ b) q' → w.length = (rrRunnables cpu q).length → w.Nodup := by
  intro h
  have hrun : ∃ q', RrTurns 1 0 rrSpentBehind [0, 0] q' :=
    ⟨_, .cons ⟨4, 0, 16, _, rfl, rfl, by decide⟩ (.cons ⟨4, 16, 32, _, rfl, rfl, by decide⟩
      (.nil _))⟩
  obtain ⟨q', hq'⟩ := hrun
  have hnodup := h 1 0 rrSpentBehind q' [] [0, 0] [] ⟨by decide, by decide⟩ hq' rfl
  exact absurd hnodup (by decide)

end FlightOs
