/-
# The round robin scheduler

All CPUs share one run queue (`kernel/sched/rr.c`).  `rr_pick_next` goes through it and picks the
first task for its CPU that is in state `RUN` and has more than two ticks left.  On its way it moves
the tasks for its CPU that have less, with their runtime set anew, to the end of the queue, and the
dead tasks of its CPU to its dead list.

An entry moved to the end is met again if the loop gets there.  `rrPickNext_eq` says what comes out
in terms of the queue as it was: the part before the first task with runtime left (`takeWhile`) and
the part from there (`dropWhile`).  It needs a runtime of more than two ticks for a task that is
moved, since otherwise the loop need not end.
-/
import FlightOs.Sched.Task
import FlightOs.Errno
import FlightOs.Lib.SafeIter
import Mathlib.Data.List.Nodup
import Mathlib.Data.List.TakeWhile

namespace FlightOs

/-! ## 1. The code -/

/-- What the loop of `rr_pick_next` works on: the tasks, the dead list of the CPU and `next`. -/
structure RrScan where
  task : Nat → TaskStruct
  dead : List Nat
  next : Option Nat

/-- The body of the loop in `rr_pick_next`. -/
def rrPickTurn (tick : Int) (cpu : Nat) (st : RrScan) (_ : List Nat) (t : Nat) (_ : List Nat) :
    Turn RrScan :=
  let tsk := st.task t
  if tsk.onCpu ≠ some cpu ∧ tsk.onCpu ≠ none then ⟨st, .stay, false⟩
  else if tsk.state = .run then
    if tsk.runtime ≤ 2 * tick then
      -- reset runtime and queue up at the end
      ⟨{ st with
          task := Function.update st.task t { tsk with runtime := tsk.attr.wcet }
          next := some t }, .tail, false⟩
    else ⟨{ st with next := some t }, .stay, true⟩
  else if tsk.state = .dead ∧ tsk.onCpu = some cpu then
    ⟨{ st with dead := st.dead ++ [t] }, .out, false⟩
  else ⟨st, .stay, false⟩

/-- `rr_pick_next`. -/
def rrPickNext (tick : Int) (fuel : Nat) (q : Queues) (cpu : Nat) (_now : Int) :
    Option (Option Nat × Queues) :=
  if (q.tq 0).run = [] then some (none, q)
  else
    match safeFor (rrPickTurn tick cpu) fuel ⟨q.task, (q.tq cpu).dead, none⟩ [] (q.tq 0).run with
    | none => none
    | some (st, run) =>
      let q := { q with task := st.task }
      let q := q.setTq cpu { q.tq cpu with dead := st.dead }
      let q := q.setTq 0 { q.tq 0 with run := run }
      match st.next with
      | none => some (none, q)
      | some t => some (some t, q.setTask t { q.task t with state := .busy })

/-- `rr_wake`. -/
def rrWake (tick : Int) (q : Queues) (t : Nat) (_now : Int) : Int × Queues :=
  if (q.task t).attr.policy ≠ .rr then (-EINVAL, q)
  else if t ∉ (q.tq 0).wake then (-EINVAL, q)
  else
    let tsk := q.task t
    let wcet := (tsk.attr.priority : Int) * (tick * 16)
    let q := q.setTask t { tsk with
      attr := { tsk.attr with wcet := wcet }
      runtime := wcet
      state := .run }
    (0, q.setTq 0 { q.tq 0 with wake := (q.tq 0).wake.erase t, run := t :: (q.tq 0).run })

/-- `rr_enqueue`. -/
def rrEnqueue (q : Queues) (t : Nat) : Int × Queues :=
  (0, q.setTq 0 { q.tq 0 with wake := (q.tq 0).wake ++ [t] })

/-- `rr_check_sched_attr`, which adjusts the attributes it is given. -/
def rrCheckSchedAttr (attr : SchedAttr) : Int × SchedAttr :=
  if attr.policy ≠ .rr then (-EINVAL, attr)
  else if attr.priority = 0 then (0, { attr with priority := 1 })
  else (0, attr)

def rrTimesliceNs (tsk : TaskStruct) : Int := tsk.runtime

/-- `rr_task_ready_ns`: round robin tasks are always ready. -/
def rrTaskReadyNs (_ : Queues) (_cpu : Nat) (_now : Int) : Int := 0

/-! ## 2. The tasks of a CPU -/

/-- A task that may run on the CPU. -/
def onCpuOf (cpu : Nat) (tsk : TaskStruct) : Bool :=
  decide (tsk.onCpu = some cpu) || decide (tsk.onCpu = none)

/-- A task the CPU could run. -/
def rrRunnable (cpu : Nat) (tsk : TaskStruct) : Bool :=
  onCpuOf cpu tsk && decide (tsk.state = .run)

/-- A task the CPU can run as it is. -/
def rrReady (tick : Int) (cpu : Nat) (tsk : TaskStruct) : Bool :=
  rrRunnable cpu tsk && decide (2 * tick < tsk.runtime)

/-- A task that has to be given new runtime. -/
def rrSpent (tick : Int) (cpu : Nat) (tsk : TaskStruct) : Bool :=
  rrRunnable cpu tsk && decide (tsk.runtime ≤ 2 * tick)

/-- A task for the dead list of the CPU. -/
def rrGone (cpu : Nat) (tsk : TaskStruct) : Bool :=
  decide (tsk.onCpu = some cpu) && decide (tsk.state = .dead)

/-- A task the loop goes past. -/
def rrPassed (tick : Int) (cpu : Nat) (tsk : TaskStruct) : Bool :=
  !rrReady tick cpu tsk && !rrSpent tick cpu tsk && !rrGone cpu tsk

def TaskStruct.refill (tsk : TaskStruct) : TaskStruct := { tsk with runtime := tsk.attr.wcet }

/-- The tasks, with those of a list given new runtime. -/
def refillAll (τ : Nat → TaskStruct) (X : List Nat) : Nat → TaskStruct :=
  fun u => if u ∈ X then (τ u).refill else τ u

section Turn

variable {tick : Int} {cpu t : Nat} {st : RrScan} {P R : List Nat}

theorem rrPickTurn_ready (h : rrReady tick cpu (st.task t)) :
    rrPickTurn tick cpu st P t R = ⟨{ st with next := some t }, .stay, true⟩ := by
  simp only [rrReady, rrRunnable, onCpuOf, Bool.and_eq_true, Bool.or_eq_true,
    decide_eq_true_eq] at h
  obtain ⟨⟨hcpu, hrun⟩, hrt⟩ := h
  unfold rrPickTurn
  dsimp only
  rw [if_neg (by tauto), if_pos hrun, if_neg (by omega)]

theorem rrPickTurn_spent (h : rrSpent tick cpu (st.task t)) :
    rrPickTurn tick cpu st P t R =
      ⟨{ st with task := Function.update st.task t (st.task t).refill, next := some t },
        .tail, false⟩ := by
  simp only [rrSpent, rrRunnable, onCpuOf, Bool.and_eq_true, Bool.or_eq_true,
    decide_eq_true_eq] at h
  obtain ⟨⟨hcpu, hrun⟩, hrt⟩ := h
  unfold rrPickTurn
  dsimp only
  rw [if_neg (by tauto), if_pos hrun, if_pos hrt]
  rfl

theorem rrPickTurn_gone (h : rrGone cpu (st.task t)) :
    rrPickTurn tick cpu st P t R = ⟨{ st with dead := st.dead ++ [t] }, .out, false⟩ := by
  simp only [rrGone, Bool.and_eq_true, decide_eq_true_eq] at h
  obtain ⟨hcpu, hdead⟩ := h
  unfold rrPickTurn
  dsimp only
  rw [if_neg (by tauto), if_neg (by simp [hdead]), if_pos ⟨hdead, hcpu⟩]

theorem rrPickTurn_passed (h : rrPassed tick cpu (st.task t)) :
    rrPickTurn tick cpu st P t R = ⟨st, .stay, false⟩ := by
  simp only [rrPassed, rrReady, rrSpent, rrGone, rrRunnable, onCpuOf, Bool.and_eq_true,
    Bool.not_eq_true', Bool.and_eq_false_iff, Bool.or_eq_false_iff, decide_eq_false_iff_not] at h
  unfold rrPickTurn
  dsimp only
  split
  case isTrue => rfl
  case isFalse hcpu =>
    have hrun : (st.task t).state ≠ .run := by
      intro hrun
      have hle : ¬ (st.task t).runtime ≤ 2 * tick → 2 * tick < (st.task t).runtime := by omega
      tauto
    rw [if_neg hrun, if_neg (by tauto)]

end Turn

/-! ## 3. What comes out -/

theorem rrSpent_not_ready {tick : Int} {cpu : Nat} {tsk : TaskStruct}
    (h : rrSpent tick cpu tsk = true) : rrReady tick cpu tsk = false := by
  simp only [rrSpent, rrReady, Bool.and_eq_true, decide_eq_true_eq, Bool.and_eq_false_iff,
    decide_eq_false_iff_not] at h ⊢
  right
  omega

theorem rrGone_not_runnable {cpu : Nat} {tsk : TaskStruct} (h : rrGone cpu tsk = true) :
    rrRunnable cpu tsk = false := by
  simp only [rrGone, rrRunnable, Bool.and_eq_true, decide_eq_true_eq, Bool.and_eq_false_iff,
    decide_eq_false_iff_not] at h ⊢
  right
  simp [h.2]

/-- A task with new runtime is ready, if that is more than two ticks. -/
theorem rrReady_refill {tick : Int} {cpu : Nat} {tsk : TaskStruct}
    (h : rrSpent tick cpu tsk = true) (hwcet : 2 * tick < tsk.attr.wcet) :
    rrReady tick cpu tsk.refill = true := by
  simp only [rrSpent, rrReady, Bool.and_eq_true, decide_eq_true_eq] at h ⊢
  exact ⟨h.1, hwcet⟩

@[simp] theorem refillAll_nil (τ : Nat → TaskStruct) : refillAll τ [] = τ := by
  funext u
  simp [refillAll]

theorem refillAll_other {τ : Nat → TaskStruct} {X : List Nat} {u : Nat} (h : u ∉ X) :
    refillAll τ X u = τ u := if_neg h

theorem refillAll_self {τ : Nat → TaskStruct} {X : List Nat} {u : Nat} (h : u ∈ X) :
    refillAll τ X u = (τ u).refill := if_pos h

theorem refillAll_concat {τ : Nat → TaskStruct} {X : List Nat} {t : Nat} :
    Function.update (refillAll τ X) t (τ t).refill = refillAll τ (X ++ [t]) := by
  funext u
  rw [Function.update_apply]
  by_cases hu : u = t
  · subst hu
    simp [refillAll]
  · simp [refillAll, hu]

section Scan

variable (tick : Int) (cpu : Nat) (τ : Nat → TaskStruct)

/-- The queue up to the first task that can run as it is. -/
def rrBefore (L : List Nat) : List Nat := L.takeWhile fun u => !rrReady tick cpu (τ u)

/-- The queue from the first task that can run as it is. -/
def rrFrom (L : List Nat) : List Nat := L.dropWhile fun u => !rrReady tick cpu (τ u)

/-- The tasks that are moved to the end of the queue. -/
def rrMoved (L : List Nat) : List Nat :=
  (rrBefore tick cpu τ L).filter fun u => rrSpent tick cpu (τ u)

/-- The tasks that are moved to the dead list. -/
def rrBuried (L : List Nat) : List Nat := (rrBefore tick cpu τ L).filter fun u => rrGone cpu (τ u)

/-- The tasks that are left where they are, before the first that can run. -/
def rrKept (L : List Nat) : List Nat :=
  (rrBefore tick cpu τ L).filter fun u => rrPassed tick cpu (τ u)

/-- The task that is picked: the first that can run as it is, or else the first that was moved. -/
def rrPicked (L : List Nat) : Option Nat :=
  (rrFrom tick cpu τ L).head? <|> (rrMoved tick cpu τ L).head?

/-- The run queue that is left. -/
def rrQueue (L : List Nat) : List Nat :=
  rrKept tick cpu τ L ++ (rrFrom tick cpu τ L ++ rrMoved tick cpu τ L)

end Scan

variable {tick : Int} {cpu : Nat} {τ : Nat → TaskStruct}

theorem rrBefore_append_rrFrom (tick : Int) (cpu : Nat) (τ : Nat → TaskStruct) (L : List Nat) :
    rrBefore tick cpu τ L ++ rrFrom tick cpu τ L = L :=
  List.takeWhile_append_dropWhile

theorem rrBefore_not_ready {L : List Nat} {u : Nat} (h : u ∈ rrBefore tick cpu τ L) :
    rrReady tick cpu (τ u) = false := by
  simpa using List.mem_takeWhile_imp h

theorem rrFrom_head_ready {L B : List Nat} {f : Nat} (h : rrFrom tick cpu τ L = f :: B) :
    rrReady tick cpu (τ f) = true := by
  have hne : L.dropWhile (fun u => !rrReady tick cpu (τ u)) ≠ [] := by
    change rrFrom tick cpu τ L ≠ []
    simp [h]
  have hhead := List.head_dropWhile_not (fun u => !rrReady tick cpu (τ u)) hne
  have heq : (L.dropWhile (fun u => !rrReady tick cpu (τ u))).head hne = f := by
    have : (rrFrom tick cpu τ L).head? = some f := by simp [h]
    exact Option.some.inj ((List.head?_eq_some_head hne).symm.trans this)
  simpa [heq] using hhead

section Cons

variable {b : Nat} {B : List Nat}

theorem rrFrom_ready (h : rrReady tick cpu (τ b) = true) :
    rrBefore tick cpu τ (b :: B) = [] ∧ rrFrom tick cpu τ (b :: B) = b :: B := by
  simp [rrBefore, rrFrom, h]

theorem rrBefore_cons (h : rrReady tick cpu (τ b) = false) :
    rrBefore tick cpu τ (b :: B) = b :: rrBefore tick cpu τ B ∧
      rrFrom tick cpu τ (b :: B) = rrFrom tick cpu τ B := by
  simp [rrBefore, rrFrom, h]

end Cons

/-- **The loop.**  It has passed `P`, moved `X` and come to `B`. -/
theorem rrPickTurn_loop :
    ∀ (B P X D : List Nat) (n : Nat), B.length + 2 ≤ n → (B ++ X).Nodup →
      (∀ x ∈ X, rrReady tick cpu (τ x).refill = true) →
      (∀ b ∈ B, rrSpent tick cpu (τ b) = true → 2 * tick < (τ b).attr.wcet) →
      safeFor (rrPickTurn tick cpu) n ⟨refillAll τ X, D, X.getLast?⟩ P (B ++ X) =
        some (⟨refillAll τ (X ++ rrMoved tick cpu τ B), D ++ rrBuried tick cpu τ B,
          (rrFrom tick cpu τ B).head? <|> (X ++ rrMoved tick cpu τ B).head?⟩,
          P ++ (rrKept tick cpu τ B ++ (rrFrom tick cpu τ B ++ (X ++ rrMoved tick cpu τ B)))) := by
  intro B
  induction B with
  | nil =>
    intro P X D n hn _ hX _
    obtain ⟨n, rfl⟩ := Nat.exists_eq_add_of_le' (Nat.le_trans (Nat.le_add_left 2 _) hn)
    cases X with
    | nil => simp [rrMoved, rrBuried, rrKept, rrBefore, rrFrom]
    | cons x X =>
      have hx : rrReady tick cpu (refillAll τ (x :: X) x) = true := by
        rw [refillAll_self List.mem_cons_self]
        exact hX x List.mem_cons_self
      rw [List.nil_append, safeFor_stop (by rw [rrPickTurn_ready hx]), rrPickTurn_ready hx]
      simp [rrMoved, rrBuried, rrKept, rrBefore, rrFrom]
  | cons b B ih =>
    intro P X D n hn hnodup hX hwcet
    obtain ⟨n, rfl⟩ := Nat.exists_eq_add_of_le' (Nat.le_trans (Nat.le_add_left 1 _) hn)
    have hn' : B.length + 2 ≤ n := by
      rw [List.length_cons] at hn
      omega
    have hbX : b ∉ B ++ X := (List.nodup_cons.mp hnodup).1
    have hrest : (B ++ X).Nodup := (List.nodup_cons.mp hnodup).2
    have hb : refillAll τ X b = τ b :=
      refillAll_other fun h => hbX (List.mem_append_right _ h)
    have hwcet' : ∀ c ∈ B, rrSpent tick cpu (τ c) = true → 2 * tick < (τ c).attr.wcet :=
      fun c hc => hwcet c (List.mem_cons_of_mem _ hc)
    rw [List.cons_append]
    rcases hready : rrReady tick cpu (τ b) with _ | _
    · -- the loop goes on
      obtain ⟨hbefore, hfrom⟩ := rrBefore_cons (B := B) hready
      rcases hspent : rrSpent tick cpu (τ b) with _ | _
      · have hmoved : rrMoved tick cpu τ (b :: B) = rrMoved tick cpu τ B := by
          simp [rrMoved, hbefore, hspent]
        rcases hgone : rrGone cpu (τ b) with _ | _
        · -- past the task
          have hpassed : rrPassed tick cpu (τ b) = true := by simp [rrPassed, hready, hspent, hgone]
          have hburied : rrBuried tick cpu τ (b :: B) = rrBuried tick cpu τ B := by
            simp [rrBuried, hbefore, hgone]
          have hkept : rrKept tick cpu τ (b :: B) = b :: rrKept tick cpu τ B := by
            simp [rrKept, hbefore, hpassed]
          have hturn : rrPickTurn tick cpu ⟨refillAll τ X, D, X.getLast?⟩ P b (B ++ X) = _ :=
            rrPickTurn_passed (show rrPassed tick cpu (refillAll τ X b) = true from hb.symm ▸ hpassed)
          rw [safeFor_next (by rw [hturn]), hturn, Relink.after_stay,
            ih (P ++ [b]) X D n hn' hrest hX hwcet', hmoved, hburied, hkept, hfrom]
          simp
        · -- a dead task is unlinked
          have hpassed : rrPassed tick cpu (τ b) = false := by simp [rrPassed, hgone]
          have hburied : rrBuried tick cpu τ (b :: B) = b :: rrBuried tick cpu τ B := by
            simp [rrBuried, hbefore, hgone]
          have hkept : rrKept tick cpu τ (b :: B) = rrKept tick cpu τ B := by
            simp [rrKept, hbefore, hpassed]
          have hturn : rrPickTurn tick cpu ⟨refillAll τ X, D, X.getLast?⟩ P b (B ++ X) = _ :=
            rrPickTurn_gone (show rrGone cpu (refillAll τ X b) = true from hb.symm ▸ hgone)
          rw [safeFor_next (by rw [hturn]), hturn, Relink.after_out,
            ih P X (D ++ [b]) n hn' hrest hX hwcet', hmoved, hburied, hkept, hfrom]
          simp
      · -- the task gets new runtime and goes to the end
        have hgone : rrGone cpu (τ b) = false := by
          rcases hg : rrGone cpu (τ b) with _ | _
          · rfl
          · have := rrGone_not_runnable hg
            simp [rrSpent, this] at hspent
        have hpassed : rrPassed tick cpu (τ b) = false := by simp [rrPassed, hspent]
        have hburied : rrBuried tick cpu τ (b :: B) = rrBuried tick cpu τ B := by
          simp [rrBuried, hbefore, hgone]
        have hkept : rrKept tick cpu τ (b :: B) = rrKept tick cpu τ B := by
          simp [rrKept, hbefore, hpassed]
        have hmoved : rrMoved tick cpu τ (b :: B) = b :: rrMoved tick cpu τ B := by
          simp [rrMoved, hbefore, hspent]
        have hturn : rrPickTurn tick cpu ⟨refillAll τ X, D, X.getLast?⟩ P b (B ++ X) = _ :=
          rrPickTurn_spent (show rrSpent tick cpu (refillAll τ X b) = true from hb.symm ▸ hspent)
        have htask : Function.update (refillAll τ X) b (refillAll τ X b).refill =
            refillAll τ (X ++ [b]) := by
          rw [hb]
          exact refillAll_concat
        have hX' : ∀ x ∈ X ++ [b], rrReady tick cpu (τ x).refill = true := by
          intro x hx
          rcases List.mem_append.mp hx with hx | hx
          · exact hX x hx
          · rw [List.mem_singleton.mp hx]
            exact rrReady_refill hspent (hwcet b List.mem_cons_self hspent)
        rw [safeFor_next (by rw [hturn]), hturn]
        dsimp only
        rw [htask]
        match hR : B ++ X with
        | [] =>
          -- the end of the list has been fetched already
          obtain ⟨rfl, rfl⟩ := List.append_eq_nil_iff.mp hR
          obtain ⟨n, rfl⟩ := Nat.exists_eq_add_of_le' (Nat.le_trans (Nat.le_add_left 1 _) hn')
          simp only [Relink.after, safeFor_nil, hmoved, hburied, hkept, hfrom]
          simp [rrMoved, rrBuried, rrKept, rrBefore, rrFrom]
        | r :: R =>
          have hperm : (B ++ (X ++ [b])).Nodup := by
            rw [← List.append_assoc]
            exact (List.perm_append_singleton b (B ++ X)).nodup_iff.mpr hnodup
          have hih := ih P (X ++ [b]) D n hn' hperm hX' hwcet'
          rw [← List.append_assoc, hR, List.getLast?_concat] at hih
          simp only [Relink.after]
          rw [hih, hmoved, hburied, hkept, hfrom]
          simp
    · -- the loop breaks off
      obtain ⟨hbefore, hfrom⟩ := rrFrom_ready (B := B) hready
      have hturn : rrPickTurn tick cpu ⟨refillAll τ X, D, X.getLast?⟩ P b (B ++ X) = _ :=
        rrPickTurn_ready (show rrReady tick cpu (refillAll τ X b) = true from hb.symm ▸ hready)
      rw [safeFor_stop (by rw [hturn]), hturn]
      simp [rrMoved, rrBuried, rrKept, hbefore, hfrom]

/-- The state a pick leaves before the picked task is marked. -/
def rrScanned (tick : Int) (cpu : Nat) (q : Queues) : Queues :=
  let L := (q.tq 0).run
  let q₁ := { q with task := refillAll q.task (rrMoved tick cpu q.task L) }
  let q₂ := q₁.setTq cpu { q₁.tq cpu with dead := (q.tq cpu).dead ++ rrBuried tick cpu q.task L }
  q₂.setTq 0 { q₂.tq 0 with run := rrQueue tick cpu q.task L }

/-- The state a pick leaves. -/
def rrAfter (tick : Int) (cpu : Nat) (q : Queues) : Queues :=
  match rrPicked tick cpu q.task (q.tq 0).run with
  | none => rrScanned tick cpu q
  | some t =>
    (rrScanned tick cpu q).setTask t { (rrScanned tick cpu q).task t with state := .busy }

/-- The tasks that have to be moved would have more than two ticks then. -/
def RrRefills (tick : Int) (cpu : Nat) (q : Queues) : Prop :=
  ∀ t ∈ (q.tq 0).run, rrSpent tick cpu (q.task t) = true → 2 * tick < (q.task t).attr.wcet

theorem rrAfter_nil {q : Queues} (h : (q.tq 0).run = []) : rrAfter tick cpu q = q := by
  have hscan : rrScanned tick cpu q = q := by
    have hmoved : rrMoved tick cpu q.task [] = [] := rfl
    have hburied : rrBuried tick cpu q.task [] = [] := rfl
    have hqueue : rrQueue tick cpu q.task [] = [] := rfl
    unfold rrScanned
    simp only [h, hmoved, hburied, hqueue, refillAll_nil, List.append_nil]
    have h1 : q.setTq cpu { q.tq cpu with dead := (q.tq cpu).dead } = q := by
      simp [Queues.setTq]
    have h2 : q.setTq 0 { q.tq 0 with run := [] } = q := by
      rw [← h]
      simp [Queues.setTq]
    rw [h1, h2]
  have hpicked : rrPicked tick cpu q.task (q.tq 0).run = none := by
    rw [h]
    rfl
  rw [rrAfter, hpicked, hscan]

/-- **`rr_pick_next` ends**, and this is what it does. -/
theorem rrPickNext_eq {q : Queues} (hnodup : (q.tq 0).run.Nodup) (hwcet : RrRefills tick cpu q)
    (now : Int) {fuel : Nat} (hfuel : (q.tq 0).run.length + 2 ≤ fuel) :
    rrPickNext tick fuel q cpu now =
      some (rrPicked tick cpu q.task (q.tq 0).run, rrAfter tick cpu q) := by
  unfold rrPickNext
  split
  case isTrue hnil =>
    have hpicked : rrPicked tick cpu q.task (q.tq 0).run = none := by
      rw [hnil]
      rfl
    rw [hpicked, rrAfter_nil hnil]
  case isFalse =>
    have hloop := rrPickTurn_loop (τ := q.task) (q.tq 0).run [] [] (q.tq cpu).dead fuel hfuel
      (by simpa using hnodup) (fun x hx => by cases hx) hwcet
    rw [List.append_nil, refillAll_nil, List.getLast?_nil] at hloop
    rw [hloop]
    simp only [List.nil_append]
    unfold rrAfter
    change (match rrPicked tick cpu q.task (q.tq 0).run with
      | none => some (none, rrScanned tick cpu q)
      | some t => some (some t,
        (rrScanned tick cpu q).setTask t { (rrScanned tick cpu q).task t with state := .busy })) = _
    split <;> rename_i heq <;> rw [heq]

theorem rrPickNext_mono {q : Queues} {now : Int} {fuel : Nat} {r : Option Nat × Queues}
    (h : rrPickNext tick fuel q cpu now = some r) (k : Nat) :
    rrPickNext tick (fuel + k) q cpu now = some r := by
  unfold rrPickNext at h ⊢
  split
  case isTrue hnil => rwa [if_pos hnil] at h
  case isFalse hnil =>
    rw [if_neg hnil] at h
    match hloop : safeFor (rrPickTurn tick cpu) fuel ⟨q.task, (q.tq cpu).dead, none⟩ []
        (q.tq 0).run with
    | none =>
      rw [hloop] at h
      cases h
    | some st =>
      rw [hloop] at h
      rw [safeFor_mono hloop k]
      exact h

/-- Whenever `rr_pick_next` returns, this is what it has done. -/
theorem rrPickNext_some {q : Queues} (hnodup : (q.tq 0).run.Nodup) (hwcet : RrRefills tick cpu q)
    {now : Int} {fuel : Nat} {r : Option Nat × Queues}
    (h : rrPickNext tick fuel q cpu now = some r) :
    r = (rrPicked tick cpu q.task (q.tq 0).run, rrAfter tick cpu q) := by
  have h1 := rrPickNext_mono h ((q.tq 0).run.length + 2)
  rw [rrPickNext_eq hnodup hwcet now (Nat.le_add_left _ fuel)] at h1
  exact (Option.some.inj h1).symm

/-! ## 4. The pick and the queue -/

theorem rrMoved_subset (L : List Nat) : rrMoved tick cpu τ L ⊆ L := fun _ hu =>
  (List.takeWhile_prefix _).subset (List.mem_of_mem_filter hu)

theorem rrMoved_spent {L : List Nat} {u : Nat} (h : u ∈ rrMoved tick cpu τ L) :
    rrSpent tick cpu (τ u) = true := (List.mem_filter.mp h).2

/-- The picked task is runnable, and it is ready or moved. -/
theorem rrPicked_some {L : List Nat} {t : Nat} (h : rrPicked tick cpu τ L = some t) :
    t ∈ L ∧ (rrReady tick cpu (τ t) = true ∨ t ∈ rrMoved tick cpu τ L) := by
  unfold rrPicked at h
  match hB : rrFrom tick cpu τ L with
  | f :: B =>
    rw [hB] at h
    obtain rfl : f = t := Option.some.inj h
    refine ⟨?_, .inl (rrFrom_head_ready hB)⟩
    rw [← rrBefore_append_rrFrom tick cpu τ L, hB]
    simp
  | [] =>
    rw [hB] at h
    have hmem : t ∈ rrMoved tick cpu τ L := List.mem_of_head? h
    exact ⟨rrMoved_subset L hmem, .inr hmem⟩

theorem rrRunnable_iff (tick : Int) {tsk : TaskStruct} :
    rrRunnable cpu tsk = true ↔ rrReady tick cpu tsk = true ∨ rrSpent tick cpu tsk = true := by
  simp only [rrReady, rrSpent, Bool.and_eq_true, decide_eq_true_eq]
  have := Int.lt_or_le (2 * tick) tsk.runtime
  tauto

/-- A task is picked exactly when one is runnable. -/
theorem rrPicked_isSome_iff (L : List Nat) :
    (rrPicked tick cpu τ L).isSome ↔ ∃ t ∈ L, rrRunnable cpu (τ t) = true := by
  constructor
  · intro h
    obtain ⟨t, ht⟩ := Option.isSome_iff_exists.mp h
    obtain ⟨hmem, hready⟩ := rrPicked_some ht
    exact ⟨t, hmem, (rrRunnable_iff tick).mpr (hready.imp id rrMoved_spent)⟩
  · rintro ⟨t, hmem, hrun⟩
    unfold rrPicked
    match hB : rrFrom tick cpu τ L with
    | f :: B => rfl
    | [] =>
      have hbefore : rrBefore tick cpu τ L = L := by
        have h := rrBefore_append_rrFrom tick cpu τ L
        rwa [hB, List.append_nil] at h
      have hready := rrBefore_not_ready (hbefore.symm ▸ hmem)
      have hspent : rrSpent tick cpu (τ t) = true := by
        rcases (rrRunnable_iff tick).mp hrun with h | h
        · rw [hready] at h
          cases h
        · exact h
      have hmoved : t ∈ rrMoved tick cpu τ L := by
        rw [rrMoved, hbefore]
        exact List.mem_filter.mpr ⟨hmem, hspent⟩
      rw [List.head?_nil]
      rcases hX : rrMoved tick cpu τ L with _ | ⟨x, X⟩
      · rw [hX] at hmoved
        cases hmoved
      · rfl

/-- The three kinds of tasks before the first that is ready. -/
theorem rrBefore_perm (tick : Int) (cpu : Nat) (τ : Nat → TaskStruct) (L : List Nat) :
    (rrKept tick cpu τ L ++ (rrMoved tick cpu τ L ++ rrBuried tick cpu τ L)).Perm
      (rrBefore tick cpu τ L) := by
  have hnot : ∀ u ∈ rrBefore tick cpu τ L, rrReady tick cpu (τ u) = false :=
    fun u hu => rrBefore_not_ready hu
  unfold rrKept rrMoved rrBuried
  revert hnot
  generalize rrBefore tick cpu τ L = A
  induction A with
  | nil => intro _; exact List.Perm.refl _
  | cons a A ih =>
    intro hnot
    have ha := hnot a List.mem_cons_self
    have ih := ih fun u hu => hnot u (List.mem_cons_of_mem _ hu)
    rcases hspent : rrSpent tick cpu (τ a) with _ | _
    · rcases hgone : rrGone cpu (τ a) with _ | _
      · simpa [rrPassed, ha, hspent, hgone] using ih
      · simp only [List.filter_cons, rrPassed, ha, hspent, hgone]
        refine List.Perm.trans ?_ (ih.cons a)
        rw [← List.append_assoc, ← List.append_assoc]
        exact List.perm_middle
    · have hgone : rrGone cpu (τ a) = false := by
        rcases hg : rrGone cpu (τ a) with _ | _
        · rfl
        · have := rrGone_not_runnable hg
          simp [rrSpent, this] at hspent
      simp only [List.filter_cons, rrPassed, ha, hspent, hgone]
      exact List.perm_middle.trans (ih.cons a)

/-- **The queue** loses exactly the tasks that are moved to the dead list. -/
theorem rrQueue_perm (tick : Int) (cpu : Nat) (τ : Nat → TaskStruct) (L : List Nat) :
    (rrBuried tick cpu τ L ++ rrQueue tick cpu τ L).Perm L := by
  have h := (rrBefore_perm tick cpu τ L).append_right
    (rrFrom tick cpu τ L)
  rw [rrBefore_append_rrFrom] at h
  refine List.perm_iff_count.mpr fun u => ?_
  have hcount := h.count_eq u
  simp only [rrQueue, List.count_append] at hcount ⊢
  omega

theorem rrBuried_dead {L : List Nat} {u : Nat} (h : u ∈ rrBuried tick cpu τ L) :
    (τ u).state = .dead := by
  have hgone := (List.mem_filter.mp h).2
  simp only [rrGone, Bool.and_eq_true, decide_eq_true_eq] at hgone
  exact hgone.2

/-- The tasks that are not dead stay on the queue, in some order. -/
theorem rrQueue_live_perm (L : List Nat) :
    ((rrQueue tick cpu τ L).filter fun u => decide ((τ u).state ≠ .dead)).Perm
      (L.filter fun u => decide ((τ u).state ≠ .dead)) := by
  have h := (rrQueue_perm tick cpu τ L).filter
    fun u => decide ((τ u).state ≠ .dead)
  have hburied : (rrBuried tick cpu τ L).filter (fun u => decide ((τ u).state ≠ .dead)) = [] := by
    rw [List.filter_eq_nil_iff]
    intro u hu
    simp [rrBuried_dead hu]
  rwa [List.filter_append, hburied, List.nil_append] at h

theorem refillAll_state (τ : Nat → TaskStruct) (X : List Nat) (u : Nat) :
    (refillAll τ X u).state = (τ u).state := by
  unfold refillAll
  split <;> rfl

theorem rrScanned_task (q : Queues) :
    (rrScanned tick cpu q).task = refillAll q.task (rrMoved tick cpu q.task (q.tq 0).run) := rfl

theorem rrAfter_run (q : Queues) :
    ((rrAfter tick cpu q).tq 0).run = rrQueue tick cpu q.task (q.tq 0).run := by
  unfold rrAfter
  split <;> simp [rrScanned]

/-- The picked task is marked. -/
theorem rrAfter_task_picked {q : Queues} {t : Nat}
    (h : rrPicked tick cpu q.task (q.tq 0).run = some t) :
    (rrAfter tick cpu q).task t =
      { refillAll q.task (rrMoved tick cpu q.task (q.tq 0).run) t with state := .busy } := by
  unfold rrAfter
  rw [h]
  simp [rrScanned_task]

/-- The others keep their state. -/
theorem rrAfter_task_other {q : Queues} {u : Nat}
    (h : rrPicked tick cpu q.task (q.tq 0).run ≠ some u) :
    (rrAfter tick cpu q).task u = refillAll q.task (rrMoved tick cpu q.task (q.tq 0).run) u := by
  unfold rrAfter
  split
  case h_1 => rfl
  case h_2 t ht =>
    have hut : u ≠ t := fun heq => h (heq ▸ ht)
    rw [Queues.setTask_task_other _ _ hut, rrScanned_task]

theorem rrPicked_runtime {q : Queues} (hwcet : RrRefills tick cpu q) {t : Nat}
    (h : rrPicked tick cpu q.task (q.tq 0).run = some t) :
    2 * tick < (refillAll q.task (rrMoved tick cpu q.task (q.tq 0).run) t).runtime := by
  obtain ⟨hmem, hready⟩ := rrPicked_some h
  by_cases hmoved : t ∈ rrMoved tick cpu q.task (q.tq 0).run
  · rw [refillAll_self hmoved]
    exact hwcet t hmem (rrMoved_spent hmoved)
  · rw [refillAll_other hmoved]
    have hrt := hready.resolve_right hmoved
    simp only [rrReady, Bool.and_eq_true, decide_eq_true_eq] at hrt
    exact hrt.2

/-- **Round robin selection.**  `rr_pick_next` ends.  It returns a task exactly when a task for the
CPU is in state `RUN`; that task alone is marked `BUSY`, with more than two ticks left, and the
tasks that are not dead stay on the queue. -/
theorem rr_pick_next_selects (tick : Int) (q : Queues) (cpu : Nat) (now : Int)
    (hnodup : (q.tq 0).run.Nodup) (hwcet : ∀ t ∈ (q.tq 0).run, 2 * tick < (q.task t).attr.wcet) :
    ∃ n, ∀ fuel ≥ n, ∃ next q', rrPickNext tick fuel q cpu now = some (next, q') ∧
      (next.isSome ↔ ∃ t ∈ (q.tq 0).run, onCpuOf cpu (q.task t) ∧ (q.task t).state = .run) ∧
      (∀ t ∈ next, (t ∈ (q.tq 0).run ∧ onCpuOf cpu (q.task t) ∧ (q.task t).state = .run) ∧
        (q'.task t).state = .busy ∧ 2 * tick < (q'.task t).runtime) ∧
      (∀ u, u ∉ next → (q'.task u).state = (q.task u).state) ∧
      ((q'.tq 0).run.filter fun u => decide ((q.task u).state ≠ .dead)).Perm
        ((q.tq 0).run.filter fun u => decide ((q.task u).state ≠ .dead)) := by
  have hrefills : RrRefills tick cpu q := fun t ht _ => hwcet t ht
  refine ⟨(q.tq 0).run.length + 2, fun fuel hfuel =>
    ⟨_, _, rrPickNext_eq hnodup hrefills now hfuel, ?_, ?_, ?_, ?_⟩⟩
  · rw [rrPicked_isSome_iff]
    simp [rrRunnable]
  · intro t ht
    obtain ⟨hmem, hready⟩ := rrPicked_some ht
    have hrun := (rrRunnable_iff tick).mpr (hready.imp id rrMoved_spent)
    simp only [rrRunnable, Bool.and_eq_true, decide_eq_true_eq] at hrun
    rw [rrAfter_task_picked ht]
    exact ⟨⟨hmem, hrun⟩, rfl, rrPicked_runtime hrefills ht⟩
  · intro u hu
    rw [rrAfter_task_other hu, refillAll_state]
  · rw [rrAfter_run]
    exact rrQueue_live_perm (q.tq 0).run

/-- A task of the round robin scheduler. -/
def rrTaskOf (state : TaskState) (onCpu : Option Nat) (runtime wcet : Int) : TaskStruct where
  state := state
  onCpu := onCpu
  sched := some .rr
  attr := ⟨.rr, 1, 0, wcet, 0⟩
  runtime := runtime
  wakeup := 0
  deadline := 0
  wakeupFirst := 0
  execStart := 0
  execStop := 0
  total := 0
  slices := 0
  runOnce := false
  noClean := false

/-- Tasks `0`, `1`, ... on the run queue. -/
def rrQueuesOf (tasks : List TaskStruct) : Queues where
  task := fun u => tasks.getD u (rrTaskOf .new none 0 0)
  tq := fun cpu => ⟨[], if cpu = 0 then List.range tasks.length else [], [], []⟩
  freed := []

/-- A task of another CPU, one that is spent, a dead one, and one that is ready. -/
def rrMixed : Queues :=
  rrQueuesOf [rrTaskOf .run (some 1) 0 16, rrTaskOf .run none 0 16, rrTaskOf .dead (some 0) 0 16,
    rrTaskOf .run (some 0) 9 16]

theorem rr_pick_next_selects_mixed :
    ∃ n, ∀ fuel ≥ n, ∃ next q', rrPickNext 1 fuel rrMixed 0 0 = some (next, q') ∧ next.isSome := by
  obtain ⟨n, hn⟩ := rr_pick_next_selects 1 rrMixed 0 0 (by decide) (by decide)
  refine ⟨n, fun fuel hfuel => ?_⟩
  obtain ⟨next, q', hpick, hsome, -⟩ := hn fuel hfuel
  exact ⟨next, q', hpick, hsome.mpr ⟨3, by decide, by decide, by decide⟩⟩

end FlightOs
