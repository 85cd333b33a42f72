/-
# The first activation of a task

A task that is woken has its full run time, and its wakeup and its deadline lie ahead.  Three places look
at multiples of the tick: `edf_check_sched_attr` asks for one tick of run time, `edf_pick_next` wakes a
task up to two ticks early, and `schedule_edf_can_execute` asks for more than two ticks of what is left.
A task of at most two ticks is accepted, and judged unable to execute as soon as it is met in state
`RUN`: then it is reinitialised without having run, which traps.

* `edf_first_activation_iff`: for which run times the task is judged able to execute.
* `edf_first_activation_traps`: a run that ends in the trap.
-/
import FlightOs.Sched.EdfPick
import FlightOs.Sched.Wake

namespace FlightOs

/-! ## 1. The trap -/

/-- A task whose reinitialisation traps. -/
def EdfTraps (tick now : Int) (tsk : TaskStruct) : Prop :=
  tsk.state = .run ∧ ∃ e, edfRefresh tick tsk now = .error e

/-- The times of a task, which are those of its current period. -/
structure SamePeriod (tsk tsk' : TaskStruct) : Prop where
  wakeup : tsk'.wakeup = tsk.wakeup
  deadline : tsk'.deadline = tsk.deadline
  runtime : tsk'.runtime = tsk.runtime

theorem SamePeriod.refl (tsk : TaskStruct) : SamePeriod tsk tsk := ⟨rfl, rfl, rfl⟩

theorem SamePeriod.trans {tsk tsk' tsk'' : TaskStruct} (h : SamePeriod tsk tsk')
    (h' : SamePeriod tsk' tsk'') : SamePeriod tsk tsk'' :=
  ⟨h'.wakeup.trans h.wakeup, h'.deadline.trans h.deadline, h'.runtime.trans h.runtime⟩

section Turn

variable {tick now : Int} {this : Option Nat} {st : EdfScan} {P R : List Nat} {t : Nat}

theorem SamePeriod.canExecute {tsk tsk' : TaskStruct} (h : SamePeriod tsk tsk') :
    scheduleEdfCanExecute tick tsk' now = scheduleEdfCanExecute tick tsk now := by
  unfold scheduleEdfCanExecute
  rw [h.deadline, h.runtime]

/-- A task that can execute does not trap. -/
theorem not_edfTraps {tsk : TaskStruct} (hexec : scheduleEdfCanExecute tick tsk now = true) :
    ¬ EdfTraps tick now tsk := by
  rintro ⟨-, e, he⟩
  rw [edfRefresh, if_pos hexec] at he
  cases he

/-- A reinitialised task is not in state `RUN`. -/
theorem edfRefresh_tail {tsk tsk' : TaskStruct} (h : edfRefresh tick tsk now = .ok (tsk', .tail)) :
    tsk'.state ≠ .run := by
  unfold edfRefresh at h
  split at h
  · cases h
  split at h
  · cases h
  rename_i renewed hreinit
  obtain rfl : renewed = tsk' := (Prod.mk.inj (Except.ok.inj h)).1
  unfold scheduleEdfReinitTask at hreinit
  dsimp only at hreinit
  split at hreinit
  · cases hreinit
  split at hreinit
  · cases hreinit
  split at hreinit
  · cases hreinit
    exact TaskState.noConfusion
  · cases hreinit
    exact TaskState.noConfusion

/-- **A turn** stops at a task that traps; otherwise the other tasks stay as they are, and a task that
is met again is not in state `RUN`. -/
theorem edfPickTurn_trap (tick now : Int) (this : Option Nat) (st : EdfScan) (P : List Nat) (t : Nat)
    (R : List Nat) :
    let r := edfPickTurn tick now this st P t R
    (r.stop = true ∧ r.state.task = st.task ∧ EdfTraps tick now (st.task t)) ∨
      (r.stop = false ∧ r.state.trapped = st.trapped ∧
        (∀ u, u ≠ t → r.state.task u = st.task u) ∧
        (r.link = .tail → (r.state.task t).state ≠ .run)) := by
  have hset : ∀ (st : EdfScan) (tsk : TaskStruct) (u : Nat), u ≠ t →
      (st.set t tsk).task u = st.task u := fun st tsk u hu => by simp [EdfScan.set, hu]
  have hself : ∀ (st : EdfScan) (tsk : TaskStruct), (st.set t tsk).task t = tsk :=
    fun st tsk => by simp [EdfScan.set]
  simp only [edfPickTurn]
  split
  · exact .inr ⟨rfl, rfl, fun _ _ => rfl, fun h => Relink.noConfusion h⟩
  split
  case isTrue hrun =>
    split
    case h_1 e he => exact .inl ⟨rfl, rfl, hrun, e, he⟩
    case h_2 tsk link hok =>
      have htail : link = .tail → ((st.set t tsk).task t).state ≠ .run := by
        rintro rfl
        rw [hself]
        exact edfRefresh_tail hok
      split
      · exact .inr ⟨rfl, rfl, hset st tsk, htail⟩
      split
      · refine .inr ⟨rfl, rfl, fun u hu => ?_, fun h => Relink.noConfusion h⟩
        rw [hset _ _ u hu, hset _ _ u hu]
      · exact .inr ⟨rfl, rfl, hset st tsk, htail⟩
  case isFalse =>
  split
  · split
    · exact .inr ⟨rfl, rfl, hset _ _, fun h => Relink.noConfusion h⟩
    split
    · exact .inr ⟨rfl, rfl, hset _ _, fun h => Relink.noConfusion h⟩
    · exact .inr ⟨rfl, rfl, hset _ _, fun h => Relink.noConfusion h⟩
  split
  · split
    · exact .inr ⟨rfl, rfl, fun _ _ => rfl, fun h => Relink.noConfusion h⟩
    · exact .inr ⟨rfl, rfl, fun _ _ => rfl, fun h => Relink.noConfusion h⟩
  · exact .inr ⟨rfl, rfl, fun _ _ => rfl, fun h => Relink.noConfusion h⟩

/-- **A task that can execute** is not reinitialised in its turn. -/
theorem edfPickTurn_stays (hexec : scheduleEdfCanExecute tick (st.task t) now = true) :
    SamePeriod (st.task t) ((edfPickTurn tick now this st P t R).state.task t) := by
  have hset : ∀ (st : EdfScan) (tsk : TaskStruct), (st.set t tsk).task t = tsk :=
    fun st tsk => by simp [EdfScan.set]
  have hstate : ∀ (st : EdfScan) (tsk : TaskStruct) (state : TaskState), SamePeriod (st.task t) tsk →
      SamePeriod (st.task t) ((st.set t { tsk with state := state }).task t) := by
    intro st tsk state h
    rw [hset]
    exact ⟨h.wakeup, h.deadline, h.runtime⟩
  simp only [edfPickTurn]
  split
  · exact .refl _
  split
  · simp only [edfRefresh, if_pos hexec, EdfScan.set_same]
    split
    · exact .refl _
    split
    · exact hstate st _ .run (.refl _)
    · exact .refl _
  split
  · split
    · exact hstate st _ .run (.refl _)
    split
    · exact hstate st _ .run (.refl _)
    · exact hstate st _ .run (.refl _)
  split
  · split
    · exact .refl _
    · exact .refl _
  · exact .refl _

end Turn

/-! ## 2. A call of `edf_pick_next` -/

section Pick

variable {tick now : Int} {this : Option Nat} {cpu t : Nat} {q : Queues}

/-- What holds in the loop: the task has its times, and the tasks that come up are as they were, or not
in state `RUN`. -/
structure EdfMeets (q : Queues) (cpu t : Nat) (st : EdfScan) (P R : List Nat) : Prop where
  trapped : st.trapped = false
  stays : SamePeriod (q.task t) (st.task t)
  nodup : (P ++ R).Nodup
  subset : P ++ R ⊆ (q.tq cpu).run
  todo : ∀ u ∈ R, (st.task u).state = .run → st.task u = q.task u

/-- What holds when it is over. -/
def EdfMet (tick now : Int) (q : Queues) (cpu t : Nat) (st : EdfScan) : Prop :=
  SamePeriod (q.task t) (st.task t) ∧
    (st.trapped = true → ∃ u ∈ (q.tq cpu).run, u ≠ t ∧ EdfTraps tick now (q.task u))

theorem EdfMeets.next {st : EdfScan} {P R : List Nat} {u : Nat} (hm : EdfMeets q cpu t st P (u :: R))
    (hexec : scheduleEdfCanExecute tick (q.task t) now = true)
    (hgo : (edfPickTurn tick now this st P u R).stop = false) :
    let r := edfPickTurn tick now this st P u R
    EdfMeets q cpu t r.state (r.link.after P u R).1 (r.link.after P u R).2 := by
  rcases edfPickTurn_trap tick now this st P u R with ⟨hstop, -⟩ | ⟨-, htrapped, hother, htail⟩
  · rw [hgo] at hstop
    cases hstop
  have huR : u ∉ R := (List.nodup_cons.mp (List.nodup_append.mp hm.nodup).2.1).1
  have hR : ∀ v ∈ R, ((edfPickTurn tick now this st P u R).state.task v).state = .run →
      (edfPickTurn tick now this st P u R).state.task v = q.task v := by
    intro v hv
    rw [hother v fun heq => huR (heq ▸ hv)]
    exact hm.todo v (List.mem_cons_of_mem _ hv)
  obtain ⟨-, hR'⟩ := Relink.after_forall (fun v (_ : v ∈ P) => trivial) hR (fun _ => trivial)
    (fun hlink hrun => absurd hrun (htail hlink))
  refine ⟨htrapped.trans hm.trapped, ?_, Relink.after_nodup _ hm.nodup,
    fun v hv => hm.subset (Relink.after_subset _ P u R hv), hR'⟩
  by_cases htu : t = u
  · subst htu
    exact hm.stays.trans (edfPickTurn_stays (hm.stays.canExecute.trans hexec))
  · rw [hother t htu]
    exact hm.stays

theorem EdfMeets.stop {st : EdfScan} {P R : List Nat} {u : Nat} (hm : EdfMeets q cpu t st P (u :: R))
    (hexec : scheduleEdfCanExecute tick (q.task t) now = true)
    (hstop : (edfPickTurn tick now this st P u R).stop = true) :
    EdfMet tick now q cpu t (edfPickTurn tick now this st P u R).state := by
  rcases edfPickTurn_trap tick now this st P u R with ⟨-, hsame, htraps⟩ | ⟨hgo, -⟩
  · have htodo := hm.todo u List.mem_cons_self htraps.1
    have hmem : u ∈ (q.tq cpu).run := hm.subset (List.mem_append_right _ List.mem_cons_self)
    rw [htodo] at htraps
    refine ⟨hsame ▸ hm.stays, fun _ => ⟨u, hmem, ?_, htraps⟩⟩
    rintro rfl
    exact not_edfTraps hexec htraps
  · rw [hgo] at hstop
    cases hstop

/-- **A task that can execute** keeps its times in a call of `edf_pick_next`, and if the call traps it
does so because of another task. -/
theorem edfPickNext_stays (hnodup : (q.tq cpu).run.Nodup)
    (hexec : scheduleEdfCanExecute tick (q.task t) now = true) :
    (∀ next q', edfPickNext tick q cpu now this = .ok (next, q') →
      SamePeriod (q.task t) (q'.task t)) ∧
    (edfPickNext tick q cpu now this = .error .trap →
      ∃ u ∈ (q.tq cpu).run, u ≠ t ∧ EdfTraps tick now (q.task u)) := by
  unfold edfPickNext
  split
  · refine ⟨fun next q' h => ?_, fun h => by cases h⟩
    cases h
    exact .refl _
  split
  · exact ⟨fun next q' h => (by cases h), fun h => by cases h⟩
  rename_i st run hloop
  have hmet : EdfMet tick now q cpu t st := safeFor_inv (I := EdfMeets q cpu t)
    (Q := fun st _ => EdfMet tick now q cpu t st)
    (fun s P hm => ⟨hm.stays, fun h => by rw [hm.trapped] at h; cases h⟩)
    (fun s P u R hm hstop => hm.stop hexec hstop) (fun s P u R hm hgo => hm.next hexec hgo)
    ⟨rfl, .refl _, by simpa using hnodup, by simp, fun _ _ _ => rfl⟩ hloop
  split
  · rename_i htrapped
    exact ⟨fun next q' h => (by cases h), fun _ => hmet.2 htrapped⟩
  dsimp only
  split
  · exact ⟨fun next q' h => (by cases h), fun h => by cases h⟩
  rename_i first rest
  split
  · refine ⟨fun next q' h => ?_, fun h => by cases h⟩
    obtain ⟨-, rfl⟩ := Prod.mk.inj (Except.ok.inj h)
    by_cases hfirst : t = first
    · subst hfirst
      simp only [Queues.setTask, Function.update_self]
      exact ⟨hmet.1.wakeup, hmet.1.deadline, hmet.1.runtime⟩
    · simpa [Queues.setTask, hfirst] using hmet.1
  · refine ⟨fun next q' h => ?_, fun h => by cases h⟩
    obtain ⟨-, rfl⟩ := Prod.mk.inj (Except.ok.inj h)
    exact hmet.1

end Pick

/-! ## 3. The first activation -/

/-- The task `t`, with the times of `woken`, is judged able to execute from its wakeup until two ticks
before its deadline: no call of `edf_pick_next` reinitialises it, or traps because of it.  Its state, the
other tasks and the queues are arbitrary. -/
def EdfActivates (tick : Int) (t : Nat) (woken : TaskStruct) : Prop :=
  ∀ (q : Queues) (cpu : Nat) (now : Int) (this : Option Nat), (q.tq cpu).run.Nodup →
    SamePeriod woken (q.task t) → woken.wakeup ≤ now → 2 * tick < woken.deadline - now →
    scheduleEdfCanExecute tick (q.task t) now = true ∧
      (∀ next q', edfPickNext tick q cpu now this = .ok (next, q') →
        SamePeriod (q.task t) (q'.task t)) ∧
      (edfPickNext tick q cpu now this = .error .trap →
        ∃ u ∈ (q.tq cpu).run, u ≠ t ∧ EdfTraps tick now (q.task u))

section Activation

variable {tick now : Int} {q q' : Queues} {t : Nat}

/-- What `edf_wake` makes of the times of a task. -/
theorem edfWake_times (hwake : edfWake tick q t now = .ok (0, q')) :
    (q'.task t).runtime = (q.task t).attr.wcet ∧
      (q'.task t).deadline = (q'.task t).wakeup + (q.task t).attr.deadlineRel := by
  have hfails : ∀ q₁ : Queues, (.ok (-EINVAL, q₁) : Except SchedError (Int × Queues)) ≠ .ok (0, q') :=
    fun q₁ h => absurd (congrArg Prod.fst (Except.ok.inj h)) (by decide : (-EINVAL : Int) ≠ 0)
  unfold edfWake at hwake
  dsimp only at hwake
  split at hwake
  · exact absurd hwake (hfails _)
  split at hwake
  · exact absurd hwake (hfails _)
  split at hwake
  · exact absurd hwake (hfails _)
  split at hwake
  · exact absurd hwake (hfails _)
  split at hwake
  · cases hwake
  · cases hwake
    exact ⟨by simp, by simp⟩

/-- **The first activation** is granted to a woken task if, and only if, its run time is more than two
ticks, or there is no time left between its wakeup and two ticks before its deadline. -/
theorem edf_first_activation_iff (htick : 0 < tick) (hwake : edfWake tick q t now = .ok (0, q')) :
    EdfActivates tick t (q'.task t) ↔
      2 * tick % 2 ^ 32 < (q.task t).attr.wcet ∨ (q.task t).attr.deadlineRel ≤ 2 * tick := by
  obtain ⟨hruntime, hdeadline⟩ := edfWake_times hwake
  have hmod : 2 * tick % 2 ^ 32 ≤ 2 * tick := by omega
  constructor
  · intro hact
    by_contra hcond
    obtain ⟨hshort, hwindow⟩ := not_or.mp hcond
    -- at its wakeup, with no other task in the queue
    obtain ⟨hexec, -⟩ := hact { q' with tq := fun _ => ⟨[], [t], [], []⟩ } 0 (q'.task t).wakeup none
      (List.nodup_singleton t) (.refl _) le_rfl (by linarith)
    dsimp only at hexec
    rw [scheduleEdfCanExecute, hruntime, if_pos (not_lt.mp hshort)] at hexec
    cases hexec
  · intro hcond p cpu time this hnodup hstays hdue hleft
    have hshort : 2 * tick % 2 ^ 32 < (q.task t).attr.wcet :=
      hcond.resolve_right fun hwindow => by linarith
    have hexec : scheduleEdfCanExecute tick (p.task t) time = true := by
      rw [hstays.canExecute, scheduleEdfCanExecute, hruntime, if_neg (not_le.mpr hshort),
        if_neg (by linarith)]
    exact ⟨hexec, edfPickNext_stays hnodup hexec⟩

end Activation

/-- A task of 10 in 20, and one of two ticks or more in 50. -/
def edfFirst (wcet : Int) : Queues where
  task u := if u = 0 then edfTaskWith 10 20 100 else edfTaskWith wcet 50 200
  tq _ := ⟨[0, 1], [], [], []⟩
  freed := []

theorem edf_first_activation_three : ∃ q', edfWake 1 (edfFirst 3) 1 0 = .ok (0, q') ∧
    EdfActivates 1 1 (q'.task 1) := by
  refine ⟨_, rfl, ?_⟩
  exact (edf_first_activation_iff (q := edfFirst 3) (by decide) rfl).mpr (.inl (by decide))

/-- **A task of two ticks** passes the check; the first pick wakes it behind the other one, and the next
one, long before its deadline, finds that it cannot execute, and traps. -/
theorem edf_first_activation_traps :
    (edfCheckSchedAttr 1 ((edfFirst 2).task 1).attr).1 = 0 ∧
    (∃ q₁ q₂ q₃, edfWake 1 (edfFirst 2) 0 0 = .ok (0, q₁) ∧ edfWake 1 q₁ 1 0 = .ok (0, q₂) ∧
      ((q₂.task 1).wakeup = 322 ∧ (q₂.task 1).deadline = 372) ∧
      edfPickNext 1 q₂ 0 322 none = .ok (some 0, q₃) ∧
      edfPickNext 1 q₃ 0 330 (some 0) = .error .trap) ∧
    ¬ ∀ (tick : Int) (q : Queues) (t : Nat) (now : Int) (q' : Queues), 0 < tick →
      (edfCheckSchedAttr tick (q.task t).attr).1 = 0 → edfWake tick q t now = .ok (0, q') →
      EdfActivates tick t (q'.task t) := by
  refine ⟨by decide, ⟨_, _, _, rfl, rfl, by decide, rfl, rfl⟩, fun h => ?_⟩
  have hact := h 1 (edfFirst 2) 1 0 _ (by decide) (by decide) rfl
  obtain ⟨hexec, -⟩ := hact { edfFirst 2 with
    task := fun _ => { (edfFirst 2).task 1 with wakeup := 201, deadline := 251, runtime := 2 } } 0 201
    none (by decide) ⟨rfl, rfl, rfl⟩ (by decide) (by decide)
  exact absurd hexec (by decide)

end FlightOs
