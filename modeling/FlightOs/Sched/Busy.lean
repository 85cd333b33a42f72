/-
# The task that is busy

Each scheduler marks the task it picks `BUSY`, and `schedule` resets only the one that was running.
A task that is picked but whose slice is not longer than a tick is passed over by the loop of
`schedule`, and keeps the mark.  This happens to a task that is woken with a runtime of a single
tick, which `edf_check_sched_attr` accepts, and to a task that runs only once, is through with its
runtime, and is made head of the queue again.  `EdfFit` leaves both out.

A task of the earliest deadline first scheduler in state `IDLE` has all its runtime, and one in state
`RUN` has been woken, so that its wakeup is at most two ticks ahead (`EdfKept`); the clock does not
go back.  With `EdfFit` every task the loop of `edf_pick_next` has passed is then good to be picked
(`EdfDone`).

* `edfPickTurn_done`, `edfPickNext_busy`: one turn, and a pick.
* `schedPick_busy`: what is picked has more than a tick, and is the only one marked.
* `SchedInv.call`: a call of `schedule`, and `schedule_strands_none`: a run.
-/
import FlightOs.Sched.EdfPick
import FlightOs.Sched.Core

namespace FlightOs

variable {tick now D : Int} {cpu : Nat}

/-! ## 1. One turn -/

/-- A task of the earliest deadline first scheduler between two calls. -/
def EdfKept (tick last : Int) (tsk : TaskStruct) : Prop :=
  (tsk.state = .idle → tsk.runtime = tsk.attr.wcet) ∧
    (tsk.state = .run ∨ tsk.state = .busy → tsk.wakeup - last ≤ 2 * tick)

/-- The deadline of a task, and that of its next period if it begins in this call, is `D` at the
latest. -/
def EdfBelow (tick now D : Int) (tsk : TaskStruct) : Prop :=
  tsk.deadline ≤ D ∧ (edfSpent tick now tsk → ¬ tsk.runOnce →
    tsk.wakeup + tsk.attr.period + tsk.attr.deadlineRel ≤ D)

/-- A task that is woken in this call, or at once in its next period, has more than a tick; and so
has one that runs only once, cannot execute any more, and does not have the latest deadline. -/
def EdfFit (tick now D : Int) (tsk : TaskStruct) : Prop :=
  (edfWakes tick now tsk → tick < tsk.attr.wcet) ∧
    (edfSpent tick now tsk →
      if tsk.runOnce then tsk.wakeup ≤ now → tsk.deadline < D → tick < tsk.runtime
      else tsk.wakeup + tsk.attr.period - now ≤ 2 * tick → tick < tsk.attr.wcet)

/-- A task the iterator has not met. -/
structure EdfTodo (tick now D : Int) (tsk : TaskStruct) : Prop where
  busy : tsk.state ≠ .busy
  kept : EdfKept tick now tsk
  fit : EdfFit tick now D tsk
  below : EdfBelow tick now D tsk

/-- A task the iterator has passed. -/
structure EdfDone (tick now D : Int) (tsk : TaskStruct) : Prop where
  busy : tsk.state ≠ .busy
  kept : EdfKept tick now tsk
  runtime : tsk.state = .run → tick < tsk.runtime
  below : tsk.deadline ≤ D

theorem scheduleEdfCanExecute_runtime (htick : 0 ≤ tick) (hsmall : tick < 2 ^ 31)
    {tsk : TaskStruct} (h : scheduleEdfCanExecute tick tsk now = true) : tick < tsk.runtime := by
  have hmod : (2 * tick) % 2 ^ 32 = 2 * tick := Int.emod_eq_of_lt (by omega) (by omega)
  simp only [scheduleEdfCanExecute, hmod] at h
  by_cases hle : tsk.runtime ≤ 2 * tick
  · rw [if_pos hle] at h
    cases h
  · omega

/-- A task that is neither `RUN` nor `IDLE` needs nothing. -/
theorem EdfDone.of_state {tsk : TaskStruct} (hbusy : tsk.state ≠ .busy) (hrun : tsk.state ≠ .run)
    (hidle : tsk.state ≠ .idle) (hbelow : tsk.deadline ≤ D) : EdfDone tick now D tsk :=
  ⟨hbusy, ⟨fun h => absurd h hidle, fun h => h.elim (absurd · hrun) (absurd · hbusy)⟩,
    fun h => absurd h hrun, hbelow⟩

theorem EdfTodo.of_state {tsk : TaskStruct} (hbusy : tsk.state ≠ .busy) (hrun : tsk.state ≠ .run)
    (hidle : tsk.state ≠ .idle) (hbelow : tsk.deadline ≤ D) : EdfTodo tick now D tsk :=
  ⟨hbusy, (EdfDone.of_state hbusy hrun hidle hbelow).kept,
    ⟨fun h => absurd (edfWakes_iff.mp h).1 hidle, fun h => absurd (edfSpent_iff.mp h).1.1 hrun⟩,
    ⟨hbelow, fun h => absurd (edfSpent_iff.mp h).1.1 hrun⟩⟩

/-- A task at the beginning of a period. -/
theorem EdfDone.of_idle {tsk : TaskStruct} (hidle : tsk.state = .idle)
    (hfull : tsk.runtime = tsk.attr.wcet) (hbelow : tsk.deadline ≤ D) : EdfDone tick now D tsk :=
  ⟨by simp [hidle], ⟨fun _ => hfull, by simp [hidle]⟩, by simp [hidle], hbelow⟩

theorem EdfTodo.of_idle {tsk : TaskStruct} (hidle : tsk.state = .idle)
    (hfull : tsk.runtime = tsk.attr.wcet)
    (hwcet : tsk.wakeup - now ≤ 2 * tick → tick < tsk.attr.wcet) (hbelow : tsk.deadline ≤ D) :
    EdfTodo tick now D tsk := by
  have hnot : ¬ edfSpent tick now tsk = true := by
    intro h
    have hrun := (edfSpent_iff.mp h).1.1
    simp [hidle] at hrun
  exact ⟨by simp [hidle], ⟨fun _ => hfull, by simp [hidle]⟩,
    ⟨fun h => hwcet (edfWakes_iff.mp h).2, fun h => absurd h hnot⟩,
    ⟨hbelow, fun h => absurd h hnot⟩⟩

/-- A task that is woken, or goes on. -/
theorem EdfDone.of_run {tsk : TaskStruct} (hnear : tsk.wakeup - now ≤ 2 * tick)
    (hruntime : tick < tsk.runtime) (hbelow : tsk.deadline ≤ D) :
    EdfDone tick now D { tsk with state := .run } :=
  ⟨by simp, ⟨by simp, fun _ => hnear⟩, fun _ => hruntime, hbelow⟩

/-- The next period of a task, or its end if it runs only once. -/
theorem edfRefresh_spent (htick : 0 ≤ tick) {tsk : TaskStruct}
    (hexec : ¬ scheduleEdfCanExecute tick tsk now = true)
    (hspent : edfSpent tick now tsk = true) (hfit : EdfFit tick now D tsk)
    (hbelow : EdfBelow tick now D tsk) :
    (∃ e, edfRefresh tick tsk now = .error e) ∨
      ∃ tsk', edfRefresh tick tsk now = .ok (tsk', .tail) ∧ EdfTodo tick now D tsk' ∧
        EdfDone tick now D tsk' ∧
        (tsk'.wakeup ≤ now → tsk'.deadline < D → tick < tsk'.runtime) := by
  have hfit := hfit.2 hspent
  simp only [edfRefresh, if_neg hexec, scheduleEdfReinitTask]
  by_cases hfull : tsk.runtime = tsk.attr.wcet
  · rw [if_pos hfull]
    exact .inl ⟨_, rfl⟩
  rw [if_neg hfull]
  by_cases hlate : tsk.wakeup + tsk.attr.period < now
  · rw [if_pos hlate]
    exact .inl ⟨_, rfl⟩
  rw [if_neg hlate]
  right
  split
  case h_1 _ _ herr => split at herr <;> cases herr
  case h_2 _ tsk' hok =>
    refine ⟨tsk', rfl, ?_⟩
    split at hok
    case isTrue honce =>
      cases hok
      rw [if_pos honce] at hfit
      exact ⟨EdfTodo.of_state (by simp) (by simp) (by simp) hbelow.1,
        EdfDone.of_state (by simp) (by simp) (by simp) hbelow.1, hfit⟩
    case isFalse honce =>
      cases hok
      rw [if_neg honce] at hfit
      have hnext := hbelow.2 hspent honce
      refine ⟨EdfTodo.of_idle rfl rfl hfit hnext, EdfDone.of_idle rfl rfl hnext,
        fun hdue _ => hfit ?_⟩
      dsimp only at hdue
      omega

/-- **One turn** of the loop in `edf_pick_next`, for a task it has not met. -/
theorem edfPickTurn_done (htick : 0 ≤ tick) (hsmall : tick < 2 ^ 31) (this : Option Nat)
    {st : EdfScan} {P R : List Nat} {t : Nat} (h : EdfTodo tick now D (st.task t))
    (hqueue : ∀ u ∈ P ++ t :: R, (st.task u).deadline ≤ D) :
    let r := edfPickTurn tick now this st P t R
    (r.stop = true ∧ r.state.trapped = true) ∨
      (r.stop = false ∧ r.state.trapped = st.trapped ∧
        (∀ u, u ≠ t → r.state.task u = st.task u) ∧
        (r.link ≠ .out → EdfDone tick now D (r.state.task t)) ∧
        (r.link = .tail → EdfTodo tick now D (r.state.task t))) := by
  obtain ⟨hbusy, ⟨hidle, hnear⟩, hfit, hbelow⟩ := h
  have hset : ∀ (st : EdfScan) (tsk : TaskStruct) (u : Nat), u ≠ t →
      (st.set t tsk).task u = st.task u := fun st tsk u hu => by simp [EdfScan.set, hu]
  have hself : ∀ (st : EdfScan) (tsk : TaskStruct), (st.set t tsk).task t = tsk :=
    fun st tsk => by simp [EdfScan.set]
  have hhead : ∀ (tsk : TaskStruct) (l : Relink), tsk.deadline ≤ D →
      ((st.set t tsk).task (((l.after P t R).1 ++ (l.after P t R).2).headD t)).deadline ≤ D := by
    intro tsk l htsk
    have hall : ∀ u ∈ P ++ t :: R, ((st.set t tsk).task u).deadline ≤ D := by
      intro u hu
      by_cases hut : u = t
      · rw [hut, hself]
        exact htsk
      · rw [hset _ _ u hut]
        exact hqueue u hu
    have hsub := l.after_subset P t R
    generalize (l.after P t R).1 ++ (l.after P t R).2 = L at hsub ⊢
    cases L with
    | nil => exact hall t (by simp)
    | cons f L => exact hall f (hsub List.mem_cons_self)
  simp only [edfPickTurn]
  split
  case isTrue hfar =>
    -- not yet
    refine .inr ⟨rfl, rfl, fun _ _ => rfl, fun _ => ?_, fun h => by cases h⟩
    refine ⟨hbusy, ⟨hidle, hnear⟩, fun hrun => ?_, hbelow.1⟩
    have := hnear (.inl hrun)
    omega
  case isFalse hnotfar =>
  split
  case isTrue hrun =>
    have hwake := hnear (.inl hrun)
    by_cases hexec : scheduleEdfCanExecute tick (st.task t) now = true
    case pos =>
      -- it can go on
      have hruntime := scheduleEdfCanExecute_runtime htick hsmall hexec
      have hdone : EdfDone tick now D (st.task t) :=
        ⟨hbusy, ⟨hidle, hnear⟩, fun _ => hruntime, hbelow.1⟩
      simp only [edfRefresh, if_pos hexec, EdfScan.set_same]
      split
      · exact .inr ⟨rfl, rfl, fun _ _ => rfl, fun _ => hdone, fun h => by cases h⟩
      split
      · refine .inr ⟨rfl, rfl, hset _ _, fun _ => ?_, fun h => by cases h⟩
        rw [hself]
        exact EdfDone.of_run hwake hruntime hbelow.1
      · exact .inr ⟨rfl, rfl, fun _ _ => rfl, fun _ => hdone, fun h => by cases h⟩
    case neg =>
      have hsp : edfSpent tick now (st.task t) = true :=
        edfSpent_iff.mpr ⟨⟨hrun, hwake⟩, by simpa using hexec⟩
      rcases edfRefresh_spent htick hexec hsp hfit hbelow with
        ⟨e, he⟩ | ⟨tsk, htsk, htodo, hdone, hruntime⟩
      · rw [he]
        exact .inl ⟨rfl, rfl⟩
      · rw [htsk]
        dsimp only
        have htail : EdfDone tick now D ((st.set t tsk).task t) ∧
            EdfTodo tick now D ((st.set t tsk).task t) := by
          rw [hself]
          exact ⟨hdone, htodo⟩
        split
        · exact .inr ⟨rfl, rfl, hset _ _, fun _ => htail.1, fun _ => htail.2⟩
        case isFalse hdue =>
        split
        case isTrue hlt =>
          -- the head of the queue has a later deadline
          have hlater := lt_of_lt_of_le hlt (hhead tsk .tail hdone.below)
          refine .inr ⟨rfl, rfl, fun u hu => ?_, fun _ => ?_, fun h => by cases h⟩
          · rw [hset _ _ u hu, hset _ _ u hu]
          · rw [hself]
            exact EdfDone.of_run (by omega) (hruntime (not_lt.mp hdue) hlater) hdone.below
        case isFalse => exact .inr ⟨rfl, rfl, hset _ _, fun _ => htail.1, fun _ => htail.2⟩
  case isFalse hnotrun =>
  split
  case isTrue hidle' =>
    -- it is woken
    have hwcet := hfit.1 (edfWakes_iff.mpr ⟨hidle', not_lt.mp hnotfar⟩)
    have hdone : EdfDone tick now D { st.task t with state := .run } :=
      EdfDone.of_run (not_lt.mp hnotfar) (by rw [hidle hidle']; exact hwcet) hbelow.1
    split
    · refine .inr ⟨rfl, rfl, hset _ _, fun _ => ?_, fun h => by cases h⟩
      rw [hself]
      exact hdone
    split
    · refine .inr ⟨rfl, rfl, hset _ _, fun _ => ?_, fun h => by cases h⟩
      rw [hself]
      exact hdone
    · refine .inr ⟨rfl, rfl, hset _ _, fun _ => ?_, fun h => by cases h⟩
      rw [hself]
      exact hdone
  case isFalse hnotidle =>
  have hdone : EdfDone tick now D (st.task t) :=
    EdfDone.of_state hbusy hnotrun hnotidle hbelow.1
  split
  case isTrue hdead =>
    split
    · exact .inr ⟨rfl, rfl, fun _ _ => rfl, fun _ => hdone, fun h => by cases h⟩
    · exact .inr ⟨rfl, rfl, fun _ _ => rfl, fun h => absurd rfl h, fun h => by cases h⟩
  case isFalse => exact .inr ⟨rfl, rfl, fun _ _ => rfl, fun _ => hdone, fun h => by cases h⟩

/-! ## 2. A pick -/

/-- What a pick of one scheduler leaves of its run queue. -/
structure EdfPicked (tick now : Int) (cpu : Nat) (q : Queues) (next : Option Nat) (q' : Queues) :
    Prop where
  frame : ∀ u, u ∉ (q.tq cpu).run → q'.task u = q.task u
  nodup : (q'.tq cpu).run.Nodup
  subset : (q'.tq cpu).run ⊆ (q.tq cpu).run
  kept : ∀ t ∈ (q'.tq cpu).run, EdfKept tick now (q'.task t)
  busy : ∀ t ∈ (q'.tq cpu).run, (q'.task t).state = .busy ↔ next = some t
  picked : ∀ t, next = some t → t ∈ (q'.tq cpu).run ∧ tick < (q'.task t).runtime

/-- What holds in the loop of `edf_pick_next`. -/
structure EdfLoop (tick now D : Int) (cpu : Nat) (q : Queues) (st : EdfScan) (P R : List Nat) :
    Prop where
  frame : ∀ u, u ∉ (q.tq cpu).run → st.task u = q.task u
  nodup : (P ++ R).Nodup
  subset : P ++ R ⊆ (q.tq cpu).run
  done : ∀ t ∈ P, EdfDone tick now D (st.task t)
  todo : ∀ t ∈ R, EdfTodo tick now D (st.task t)

theorem EdfLoop.deadline {q : Queues} {st : EdfScan} {P R : List Nat}
    (h : EdfLoop tick now D cpu q st P R) : ∀ u ∈ P ++ R, (st.task u).deadline ≤ D := by
  intro u hu
  rcases List.mem_append.mp hu with h1 | h1
  · exact (h.done u h1).below
  · exact (h.todo u h1).below.1

theorem EdfLoop.next (htick : 0 ≤ tick) (hsmall : tick < 2 ^ 31) {this : Option Nat} {q : Queues}
    {st : EdfScan} {P R : List Nat} {t : Nat} (h : EdfLoop tick now D cpu q st P (t :: R))
    (hgo : (edfPickTurn tick now this st P t R).stop = false) :
    let r := edfPickTurn tick now this st P t R
    EdfLoop tick now D cpu q r.state (r.link.after P t R).1 (r.link.after P t R).2 := by
  have hturn := edfPickTurn_done htick hsmall this (P := P) (R := R)
    (h.todo t List.mem_cons_self) h.deadline
  rcases hturn with ⟨hstop, -⟩ | ⟨-, -, hother, hdone, htodo⟩
  · rw [hgo] at hstop
    cases hstop
  have htP : t ∉ P := fun hP => (List.nodup_append.mp h.nodup).2.2 t hP t List.mem_cons_self rfl
  have htR : t ∉ R := (List.nodup_cons.mp (List.nodup_append.mp h.nodup).2.1).1
  have hmem : t ∈ (q.tq cpu).run := h.subset (List.mem_append_right _ List.mem_cons_self)
  have hP : ∀ u ∈ P, EdfDone tick now D ((edfPickTurn tick now this st P t R).state.task u) := by
    intro u hu
    rw [hother u fun heq => htP (heq ▸ hu)]
    exact h.done u hu
  have hR : ∀ u ∈ R, EdfTodo tick now D ((edfPickTurn tick now this st P t R).state.task u) := by
    intro u hu
    rw [hother u fun heq => htR (heq ▸ hu)]
    exact h.todo u (List.mem_cons_of_mem _ hu)
  obtain ⟨hP', hR'⟩ := Relink.after_forall hP hR hdone htodo
  refine ⟨fun u hu => ?_, Relink.after_nodup _ h.nodup,
    fun u hu => h.subset (Relink.after_subset _ P t R hu), hP', hR'⟩
  rw [hother u fun heq => hu (heq ▸ hmem)]
  exact h.frame u hu

/-- **A pick** of the earliest deadline first scheduler. -/
theorem edfPickNext_busy (htick : 0 ≤ tick) (hsmall : tick < 2 ^ 31) {this : Option Nat}
    {q q' : Queues} {next : Option Nat} (hnodup : (q.tq cpu).run.Nodup)
    (htodo : ∀ t ∈ (q.tq cpu).run, EdfTodo tick now D (q.task t))
    (h : edfPickNext tick q cpu now this = .ok (next, q')) :
    EdfPicked tick now cpu q next q' := by
  unfold edfPickNext at h
  split at h
  case isTrue hnil =>
    cases h
    refine ⟨fun _ _ => rfl, hnodup, List.Subset.refl _, ?_, ?_, nofun⟩
    · simp [hnil]
    · simp [hnil]
  case isFalse =>
  split at h
  case h_1 => cases h
  case h_2 st run hloop =>
    have hinv := safeFor_inv (I := EdfLoop tick now D cpu q)
      (Q := fun st run => st.trapped = true ∨ EdfLoop tick now D cpu q st run [])
      (fun s P hI => .inr hI)
      (fun s P t R hI hs => by
        rcases edfPickTurn_done htick hsmall this (P := P) (R := R)
          (hI.todo t List.mem_cons_self) hI.deadline with ⟨-, htrap⟩ | ⟨hgo, -⟩
        · exact .inl htrap
        · rw [hs] at hgo
          cases hgo)
      (fun s P t R hI hs => hI.next htick hsmall hs)
      ⟨fun _ _ => rfl, by simpa using hnodup, by simp, fun t ht => absurd ht List.not_mem_nil,
        htodo⟩ hloop
    split at h
    case isTrue => cases h
    case isFalse hnot =>
    have hI := hinv.resolve_left hnot
    have hrun := hI.subset
    have hnd := hI.nodup
    rw [List.append_nil] at hrun hnd
    match run, hI, hrun, hnd with
    | [], _, _, _ => cases h
    | first :: L, hI, hrun, hnd =>
      dsimp only at h
      have hfirst := hI.done first List.mem_cons_self
      split at h
      case isTrue hstate =>
        -- the head is marked
        cases h
        rw [Queues.setTq_task] at hstate
        have htask : ∀ u, u ≠ first → Function.update st.task first
            { st.task first with state := .busy } u = st.task u := fun u hu => by simp [hu]
        have hmarked : Function.update st.task first
            { st.task first with state := .busy } first =
              { st.task first with state := .busy } := by simp
        refine ⟨fun u hu => ?_, by simpa using hnd, by simpa using hrun, ?_, ?_, ?_⟩
        · have hne : u ≠ first := fun heq => hu (heq ▸ hrun List.mem_cons_self)
          exact (htask u hne).trans (hI.frame u hu)
        · intro t ht
          simp only [Queues.setTask_tq, Queues.setTq_tq_self] at ht
          simp only [Queues.setTask, Queues.setTq_task]
          by_cases hne : t = first
          · subst hne
            rw [hmarked]
            exact ⟨by simp, fun _ => hfirst.kept.2 (.inl hstate)⟩
          · rw [htask t hne]
            exact (hI.done t ht).kept
        · intro t ht
          simp only [Queues.setTask_tq, Queues.setTq_tq_self] at ht
          simp only [Queues.setTask, Queues.setTq_task]
          by_cases hne : t = first
          · subst hne
            simp
          · rw [htask t hne]
            simp [(hI.done t ht).busy, Ne.symm hne]
        · intro t ht
          cases ht
          simp only [Queues.setTask_tq, Queues.setTq_tq_self, Queues.setTask_task_self]
          exact ⟨List.mem_cons_self, hfirst.runtime hstate⟩
      case isFalse =>
        cases h
        refine ⟨hI.frame, by simpa using hnd, by simpa using hrun, ?_, ?_, nofun⟩
        · intro t ht
          rw [Queues.setTq_tq_self] at ht
          exact (hI.done t ht).kept
        · intro t ht
          rw [Queues.setTq_tq_self] at ht
          simp [(hI.done t ht).busy]

/-! ## 3. A call -/

/-- The tasks a CPU has to look after. -/
def schedAssigned (k : Kernel) (cpu : Nat) (t : Nat) : Prop :=
  t ∈ (k.tq .edf cpu).run ∨ (t ∈ (k.tq .rr 0).run ∧ onCpuOf cpu (k.task t) = true)

/-- The queues of a CPU, and what they hold; `last` is the last reading of the clock. -/
structure SchedKept (tick last : Int) (cpu : Nat) (k : Kernel) : Prop where
  nodup : (k.tq .edf cpu).run.Nodup
  rrNodup : (k.tq .rr 0).run.Nodup
  apart : ∀ t ∈ (k.tq .edf cpu).run, t ∉ (k.tq .rr 0).run
  kept : ∀ t ∈ (k.tq .edf cpu).run, EdfKept tick last (k.task t)
  slice : ∀ t ∈ (k.tq .rr 0).run, 2 * tick < (k.task t).attr.wcet

/-- One task at most is marked, and it is the one that runs. -/
structure SchedInv (tick last : Int) (cpu : Nat) (k : Kernel) : Prop extends
    SchedKept tick last cpu k where
  busy : ∀ t, schedAssigned k cpu t → (k.task t).state = .busy → k.current cpu = some t
  awake : ∀ t ∈ (k.tq .edf cpu).run, k.current cpu = some t → (k.task t).state ≠ .idle

/-- The tasks as the call of `schedule` finds them, the one that was running being accounted for. -/
def schedAccounted (k : Kernel) (cpu : Nat) (now : Int) : Kernel :=
  match k.current cpu with
  | none => k
  | some cur => k.setTask cur (schedUpdateRuntime (k.task cur) now)

/-- The tasks of the earliest deadline first scheduler are fit for a pick at the time `now`. -/
def EdfAllFit (tick : Int) (k : Kernel) (cpu : Nat) (now : Int) : Prop :=
  ∃ D, ∀ t ∈ (k.tq .edf cpu).run, EdfBelow tick now D (k.task t) ∧ EdfFit tick now D (k.task t)

/-- They are so for a call of `schedule`. -/
def SchedFit (tick : Int) (k : Kernel) (cpu : Nat) (now : Int) : Prop :=
  EdfAllFit tick (schedAccounted k cpu now) cpu now

theorem schedAccounted_tq (k : Kernel) (cpu : Nat) (now : Int) :
    (schedAccounted k cpu now).tq = k.tq := by
  unfold schedAccounted
  split <;> rfl

/-- A task that was not running is left alone, and the one that was is no longer marked. -/
theorem schedAccounted_task (k : Kernel) (cpu : Nat) (now : Int) (t : Nat) :
    ((schedAccounted k cpu now).task t = k.task t ∧ k.current cpu ≠ some t) ∨
      ((schedAccounted k cpu now).task t = schedUpdateRuntime (k.task t) now ∧
        k.current cpu = some t) := by
  unfold schedAccounted
  rcases h : k.current cpu with _ | cur
  · exact .inl ⟨rfl, nofun⟩
  by_cases ht : t = cur
  · subst ht
    exact .inr ⟨by simp [Kernel.setTask], rfl⟩
  · exact .inl ⟨by simp [Kernel.setTask, ht], fun heq => ht (Option.some.inj heq).symm⟩

theorem schedUpdateRuntime_state {tsk : TaskStruct} :
    (schedUpdateRuntime tsk now).state = if tsk.state = .busy then .run else tsk.state := rfl

/-- **The task that was running is accounted for**: nothing is marked then. -/
theorem SchedInv.accounted {last : Int} {k : Kernel} (h : SchedInv tick last cpu k)
    (hclock : last ≤ now) :
    SchedKept tick now cpu (schedAccounted k cpu now) ∧
      ∀ t, schedAssigned (schedAccounted k cpu now) cpu t →
        ((schedAccounted k cpu now).task t).state ≠ .busy := by
  have hattr : ∀ t, ((schedAccounted k cpu now).task t).attr = (k.task t).attr ∧
      ((schedAccounted k cpu now).task t).onCpu = (k.task t).onCpu := by
    intro t
    rcases schedAccounted_task k cpu now t with ⟨h1, -⟩ | ⟨h1, -⟩
    · rw [h1]
      exact ⟨rfl, rfl⟩
    · rw [h1]
      exact ⟨rfl, rfl⟩
  refine ⟨⟨?_, ?_, ?_, ?_, ?_⟩, ?_⟩
  · rw [schedAccounted_tq]
    exact h.nodup
  · rw [schedAccounted_tq]
    exact h.rrNodup
  · rw [schedAccounted_tq]
    exact h.apart
  · rw [schedAccounted_tq]
    intro t ht
    obtain ⟨hidle, hnear⟩ := h.kept t ht
    rcases schedAccounted_task k cpu now t with ⟨h1, -⟩ | ⟨h1, hcur⟩
    · rw [h1]
      exact ⟨hidle, fun hs => by have := hnear hs; omega⟩
    · -- the task that was running was not asleep
      have hawake := h.awake t ht hcur
      have hwakeup : (schedUpdateRuntime (k.task t) now).wakeup = (k.task t).wakeup := rfl
      rw [h1]
      refine ⟨fun hs => ?_, fun hs => ?_⟩
      · rw [schedUpdateRuntime_state] at hs
        split at hs
        · cases hs
        · exact absurd hs hawake
      · have hold : (k.task t).state = .run ∨ (k.task t).state = .busy := by
          rw [schedUpdateRuntime_state] at hs
          split at hs
          case isTrue hb => exact .inr hb
          case isFalse => exact hs
        have := hnear hold
        omega
  · rw [schedAccounted_tq]
    intro t ht
    rw [(hattr t).1]
    exact h.slice t ht
  · intro t ht
    have hcpu : onCpuOf cpu ((schedAccounted k cpu now).task t) = onCpuOf cpu (k.task t) := by
      simp only [onCpuOf, (hattr t).2]
    have ht' : schedAssigned k cpu t := by
      unfold schedAssigned at ht ⊢
      rwa [schedAccounted_tq, hcpu] at ht
    rcases schedAccounted_task k cpu now t with ⟨h1, hcur⟩ | ⟨h1, -⟩
    · rw [h1]
      exact fun hb => hcur (h.busy t ht' hb)
    · rw [h1, schedUpdateRuntime_state]
      split <;> simp_all

/-- What a pick leaves: `next` alone is marked, and has more than a tick. -/
structure SchedPicked (tick now : Int) (cpu : Nat) (next : Option Nat) (k : Kernel) : Prop extends
    SchedKept tick now cpu k where
  busy : ∀ u, schedAssigned k cpu u → ((k.task u).state = .busy ↔ next = some u)
  picked : ∀ t, next = some t → schedAssigned k cpu t ∧ tick < (k.task t).runtime

@[simp] theorem Kernel.withQueues_task (k : Kernel) (p : SchedPolicy) (q : Queues) :
    (k.withQueues p q).task = q.task := rfl

@[simp] theorem Kernel.withQueues_tq_self (k : Kernel) (p : SchedPolicy) (q : Queues) :
    (k.withQueues p q).tq p = q.tq := by
  simp [Kernel.withQueues]

theorem Kernel.withQueues_tq_other (k : Kernel) {p r : SchedPolicy} (q : Queues) (h : r ≠ p) :
    (k.withQueues p q).tq r = k.tq r := by
  simp [Kernel.withQueues, h]

theorem EdfPicked.kernel {k : Kernel} {next : Option Nat} {q : Queues}
    (hk : SchedKept tick now cpu k)
    (hbusy : ∀ t, schedAssigned k cpu t → (k.task t).state ≠ .busy)
    (h : EdfPicked tick now cpu (k.queues .edf) next q) :
    SchedPicked tick now cpu next (k.withQueues .edf q) := by
  have hrr : (k.withQueues .edf q).tq .rr = k.tq .rr :=
    Kernel.withQueues_tq_other k q (by simp)
  -- the tasks of the other scheduler are left alone
  have hsame : ∀ t ∈ (k.tq .rr 0).run, q.task t = k.task t := fun t ht =>
    h.frame t fun hedf => hk.apart t hedf ht
  refine ⟨⟨?_, ?_, ?_, ?_, ?_⟩, ?_, ?_⟩
  · simpa using h.nodup
  · rw [hrr]
    exact hk.rrNodup
  · rw [hrr]
    simp only [Kernel.withQueues_tq_self]
    exact fun t ht => hk.apart t (h.subset ht)
  · simpa using h.kept
  · rw [hrr]
    intro t ht
    rw [Kernel.withQueues_task, hsame t ht]
    exact hk.slice t ht
  · intro u hu
    rw [Kernel.withQueues_task]
    unfold schedAssigned at hu
    rw [hrr, Kernel.withQueues_tq_self, Kernel.withQueues_task] at hu
    rcases hu with hu | ⟨hu, hcpu⟩
    · exact h.busy u hu
    · rw [hsame u hu] at hcpu ⊢
      refine iff_of_false (hbusy u (.inr ⟨hu, hcpu⟩)) fun hnext => ?_
      exact hk.apart u (h.subset (h.picked u hnext).1) hu
  · intro t ht
    obtain ⟨hmem, hruntime⟩ := h.picked t ht
    exact ⟨.inl (by simpa using hmem), hruntime⟩

/-- **A pick** of the round robin scheduler. -/
theorem rrPickNext_busy (htick : 0 ≤ tick) {fuel : Nat} {k : Kernel} {next : Option Nat}
    {q : Queues} (hk : SchedKept tick now cpu k)
    (hbusy : ∀ t, schedAssigned k cpu t → (k.task t).state ≠ .busy)
    (h : rrPickNext tick fuel (k.queues .rr) cpu now = some (next, q)) :
    SchedPicked tick now cpu next (k.withQueues .rr q) := by
  have hrefills : RrRefills tick cpu (k.queues .rr) := fun t ht _ => hk.slice t ht
  obtain ⟨hnext, rfl⟩ := Prod.mk.inj (rrPickNext_some hk.rrNodup hrefills h)
  have hedf : (k.withQueues .rr (rrAfter tick cpu (k.queues .rr))).tq .edf = k.tq .edf :=
    Kernel.withQueues_tq_other k _ (by simp)
  have hrun : ((k.withQueues .rr (rrAfter tick cpu (k.queues .rr))).tq .rr 0).run =
      rrQueue tick cpu k.task (k.tq .rr 0).run := by
    rw [Kernel.withQueues_tq_self, rrAfter_run]
    rfl
  have hperm := rrQueue_perm tick cpu k.task (k.tq .rr 0).run
  have hsub : rrQueue tick cpu k.task (k.tq .rr 0).run ⊆ (k.tq .rr 0).run := fun u hu =>
    hperm.subset (List.mem_append_right _ hu)
  have hpicked : ∀ t, next = some t → rrPicked tick cpu k.task (k.tq .rr 0).run = some t :=
    fun t ht => hnext.symm.trans ht
  have htask : ∀ u, next ≠ some u → (rrAfter tick cpu (k.queues .rr)).task u =
      refillAll k.task (rrMoved tick cpu k.task (k.tq .rr 0).run) u := fun u hu =>
    rrAfter_task_other fun heq => hu (hnext.trans heq)
  have hmarked : ∀ t, next = some t → (rrAfter tick cpu (k.queues .rr)).task t =
      { refillAll k.task (rrMoved tick cpu k.task (k.tq .rr 0).run) t with state := .busy } :=
    fun t ht => rrAfter_task_picked (hpicked t ht)
  have hother : ∀ u, u ∉ (k.tq .rr 0).run →
      (rrAfter tick cpu (k.queues .rr)).task u = k.task u := by
    intro u hu
    rw [htask u fun heq => hu (rrPicked_some (hpicked u heq)).1,
      refillAll_other fun hm => hu (rrMoved_subset _ hm)]
  have hattr : ∀ u, ((rrAfter tick cpu (k.queues .rr)).task u).attr = (k.task u).attr ∧
      ((rrAfter tick cpu (k.queues .rr)).task u).onCpu = (k.task u).onCpu := by
    intro u
    have hrefill : ∀ X, (refillAll k.task X u).attr = (k.task u).attr ∧
        (refillAll k.task X u).onCpu = (k.task u).onCpu := by
      intro X
      unfold refillAll
      split <;> exact ⟨rfl, rfl⟩
    by_cases hu : next = some u
    · rw [hmarked u hu]
      exact hrefill _
    · rw [htask u hu]
      exact hrefill _
  refine ⟨⟨?_, ?_, ?_, ?_, ?_⟩, ?_, ?_⟩
  · rw [hedf]
    exact hk.nodup
  · rw [hrun]
    exact (List.nodup_append.mp (hperm.nodup_iff.mpr hk.rrNodup)).2.1
  · rw [hedf, hrun]
    exact fun t ht hm => hk.apart t ht (hsub hm)
  · rw [hedf]
    intro t ht
    rw [Kernel.withQueues_task, hother t (hk.apart t ht)]
    exact hk.kept t ht
  · rw [hrun]
    intro t ht
    rw [Kernel.withQueues_task, (hattr t).1]
    exact hk.slice t (hsub ht)
  · intro u hu
    have hu' : schedAssigned k cpu u := by
      unfold schedAssigned at hu ⊢
      rw [hedf, hrun] at hu
      refine hu.imp id fun ⟨h1, h2⟩ => ⟨hsub h1, ?_⟩
      simpa only [Kernel.withQueues_task, onCpuOf, (hattr u).2] using h2
    rw [Kernel.withQueues_task]
    by_cases hnu : next = some u
    · rw [hmarked u hnu]
      simp [hnu]
    · rw [htask u hnu, refillAll_state]
      exact iff_of_false (hbusy u hu') hnu
  · intro t ht
    obtain ⟨hmem, hready⟩ := rrPicked_some (hpicked t ht)
    have hrunnable := (rrRunnable_iff tick).mpr (hready.imp id rrMoved_spent)
    simp only [rrRunnable, Bool.and_eq_true, decide_eq_true_eq] at hrunnable
    have hqueue : t ∈ rrQueue tick cpu k.task (k.tq .rr 0).run := by
      rcases List.mem_append.mp (hperm.mem_iff.mpr hmem) with h1 | h1
      · have hdead := rrBuried_dead h1
        rw [hrunnable.2] at hdead
        cases hdead
      · exact h1
    refine ⟨.inr ⟨hrun ▸ hqueue, ?_⟩, ?_⟩
    · rw [Kernel.withQueues_task]
      simpa only [onCpuOf, (hattr t).2] using hrunnable.1
    · have hruntime := rrPicked_runtime hrefills (hpicked t ht)
      rw [Kernel.withQueues_task, hmarked t ht]
      have hle : tick ≤ 2 * tick := by omega
      exact lt_of_le_of_lt hle hruntime

/-- **What is picked**, from the first scheduler that has something to run. -/
theorem schedPick_busy (htick : 0 ≤ tick) (hsmall : tick < 2 ^ 31) {fuel : Nat} {k k' : Kernel}
    {next : Option Nat} (hk : SchedKept tick now cpu k)
    (hbusy : ∀ t, schedAssigned k cpu t → (k.task t).state ≠ .busy)
    (hfit : EdfAllFit tick k cpu now)
    (h : schedPick tick fuel cpu now kernelSchedulers k = .ok (next, k')) :
    SchedPicked tick now cpu next k' := by
  obtain ⟨D, hfit⟩ := hfit
  have htodo : ∀ t ∈ ((k.queues .edf).tq cpu).run, EdfTodo tick now D ((k.queues .edf).task t) :=
    fun t ht => ⟨hbusy t (.inl ht), hk.kept t ht, (hfit t ht).2, (hfit t ht).1⟩
  rw [kernelSchedulers, schedPick] at h
  split at h
  case h_1 => cases h
  case h_2 t q hpick =>
    cases h
    exact (edfPickNext_busy htick hsmall hk.nodup htodo hpick).kernel hk hbusy
  case h_3 q hpick =>
    have hedf := (edfPickNext_busy htick hsmall hk.nodup htodo hpick).kernel hk hbusy
    have hbusy' : ∀ t, schedAssigned (k.withQueues .edf q) cpu t →
        ((k.withQueues .edf q).task t).state ≠ .busy := by
      intro t ht hb
      have hnone := (hedf.busy t ht).mp hb
      cases hnone
    rw [schedPick] at h
    split at h
    case h_1 => cases h
    case h_2 t q₂ hpick₂ =>
      cases h
      exact rrPickNext_busy htick hedf.toSchedKept hbusy' (schedRr_pick hpick₂)
    case h_3 q₂ hpick₂ =>
      cases h
      exact rrPickNext_busy htick hedf.toSchedKept hbusy' (schedRr_pick hpick₂)

/-- **`sched_find_next_task`** finds a task that can execute for more than a tick. -/
theorem schedFindNextTask_busy (htick : 0 ≤ tick) (hsmall : tick < 0x7fffffff) {fuel : Nat}
    {k k' : Kernel} {t : Nat} {slice : Int} (hk : SchedKept tick now cpu k)
    (hbusy : ∀ t, schedAssigned k cpu t → (k.task t).state ≠ .busy)
    (hfit : EdfAllFit tick k cpu now)
    (h : schedFindNextTask tick fuel kernelSchedulers k cpu now = .ok (t, slice, k')) :
    SchedPicked tick now cpu (some t) k' ∧ tick < slice := by
  obtain ⟨hpick, rfl⟩ := schedFindNextTask_ok htick h
  have hpicked := schedPick_busy htick (by omega) hk hbusy hfit hpick
  exact ⟨hpicked, lt_min (hpicked.picked t rfl).2
    (edfTaskReadyNs_tick htick hsmall (k'.queues .edf) cpu now)⟩

/-- The task that has been picked is switched to. -/
theorem SchedPicked.switch {t : Nat} {k : Kernel} (h : SchedPicked tick now cpu (some t) k) :
    let k' := { k.setTask t { k.task t with execStart := now } with
      current := Function.update k.current cpu (some t) }
    SchedInv tick now cpu k' ∧ schedAssigned k' cpu t ∧
      ∀ u, schedAssigned k' cpu u → ((k'.task u).state = .busy ↔ u = t) := by
  intro k'
  have htask : ∀ u, k'.task u = k.task u ∨
      k'.task u = { k.task u with execStart := now } := by
    intro u
    by_cases hu : u = t
    · subst hu
      exact .inr (by simp [k', Kernel.setTask])
    · exact .inl (by simp [k', Kernel.setTask, hu])
  have hstate : ∀ u, (k'.task u).state = (k.task u).state := fun u => by
    rcases htask u with h1 | h1 <;> rw [h1]
  have hcurrent : k'.current cpu = some t := by simp [k']
  have hassigned : ∀ u, schedAssigned k' cpu u ↔ schedAssigned k cpu u := by
    intro u
    have hcpu : onCpuOf cpu (k'.task u) = onCpuOf cpu (k.task u) := by
      rcases htask u with h1 | h1
      · rw [h1]
      · rw [h1]
        rfl
    simp only [schedAssigned, hcpu]
    rfl
  have hbusy : ∀ u, schedAssigned k' cpu u → ((k'.task u).state = .busy ↔ u = t) := by
    intro u hu
    rw [hstate, h.busy u ((hassigned u).mp hu)]
    exact ⟨fun heq => (Option.some.inj heq).symm, fun heq => congrArg some heq.symm⟩
  refine ⟨⟨⟨h.nodup, h.rrNodup, h.apart, fun u hu => ?_, fun u hu => ?_⟩, fun u hu hb => ?_,
    fun u hu hcur => ?_⟩, (hassigned t).mpr (h.picked t rfl).1, hbusy⟩
  · rcases htask u with h1 | h1
    · rw [h1]
      exact h.kept u hu
    · rw [h1]
      exact h.kept u hu
  · rcases htask u with h1 | h1
    · rw [h1]
      exact h.slice u hu
    · rw [h1]
      exact h.slice u hu
  · rw [hcurrent, (hbusy u hu).mp hb]
  · -- the task that runs is marked
    rw [hcurrent] at hcur
    have hb := (hbusy u (.inl hu)).mpr (Option.some.inj hcur).symm
    simp [hb]

/-- **A call of `schedule`** marks the task it selects, and no other. -/
theorem SchedInv.call (htick : 0 ≤ tick) (hsmall : tick < 0x7fffffff) {last : Int} {fuel : Nat}
    {nows : List Int} {k k' : Kernel} {out : Scheduled} (h : SchedInv tick last cpu k)
    (hclock : last ≤ now) (hfit : SchedFit tick k cpu now)
    (hcall : schedule tick fuel kernelSchedulers k cpu (now :: nows) = .ok (some out, k')) :
    SchedInv tick now cpu k' ∧ schedAssigned k' cpu out.next ∧
      ∀ t, schedAssigned k' cpu t → ((k'.task t).state = .busy ↔ t = out.next) := by
  obtain ⟨hkept, hbusy⟩ := h.accounted hclock
  unfold schedule at hcall
  split at hcall
  case isTrue => cases hcall
  split at hcall
  case h_1 => cases hcall
  case h_2 _ _ _ hnil => cases hnil
  case h_3 cur now' nows' hcur hnows =>
    cases hnows
    have haccounted : k.setTask cur (schedUpdateRuntime (k.task cur) now) =
        schedAccounted k cpu now := by
      rw [schedAccounted, hcur]
    simp only [haccounted] at hcall
    split at hcall
    case h_1 => cases hcall
    case h_2 t slice now' k₁ hloop =>
      cases hcall
      rw [scheduleLoop] at hloop
      split at hloop
      case h_1 => cases hloop
      case h_2 t' slice' k₂ hfind =>
        obtain ⟨hpicked, hslice⟩ := schedFindNextTask_busy htick hsmall hkept hbusy hfit hfind
        rw [if_pos hslice] at hloop
        cases hloop
        exact hpicked.switch

/-! ## 4. A run -/

/-- A task of the earliest deadline first scheduler that has been woken. -/
structure EdfWoken (tick : Int) (tsk : TaskStruct) : Prop where
  accepted : ∃ tsk₀, (edfCheckSchedAttr tick tsk₀.attr).1 = 0 ∧
    tsk.attr = (edfSetPeriod tsk₀).attr ∧ tsk.runOnce = (edfSetPeriod tsk₀).runOnce
  idle : tsk.state = .idle
  full : tsk.runtime = tsk.attr.wcet

/-- A task of the round robin scheduler that has been woken. -/
structure RrWoken (tick : Int) (tsk : TaskStruct) : Prop where
  accepted : ∃ attr, (rrCheckSchedAttr attr).1 = 0 ∧
    tsk.attr = { (rrCheckSchedAttr attr).2 with
      wcet := ((rrCheckSchedAttr attr).2.priority : Int) * (tick * 16) }
  run : tsk.state = .run
  full : tsk.runtime = tsk.attr.wcet

/-- Tasks that have been accepted and woken; what runs on the CPU is its first thread, which is not
a task of the earliest deadline first scheduler. -/
structure SchedWoken (tick : Int) (cpu : Nat) (k : Kernel) : Prop where
  nodup : (k.tq .edf cpu).run.Nodup
  rrNodup : (k.tq .rr 0).run.Nodup
  apart : ∀ t ∈ (k.tq .edf cpu).run, t ∉ (k.tq .rr 0).run
  edf : ∀ t ∈ (k.tq .edf cpu).run, EdfWoken tick (k.task t)
  rr : ∀ t ∈ (k.tq .rr 0).run, RrWoken tick (k.task t)
  boot : ∀ t ∈ (k.tq .edf cpu).run, k.current cpu ≠ some t

/-- The states after calls of `schedule` on one CPU, with tasks fit for each; the clock does not go
back, and `last` is not before any of its readings. -/
inductive SchedReach (tick : Int) (cpu : Nat) (k₀ : Kernel) : Int → Kernel → Prop
  | start (last : Int) : SchedReach tick cpu k₀ last k₀
  | call {last last' now : Int} {nows : List Int} {fuel : Nat} {k k' : Kernel} {out : Scheduled} :
    SchedReach tick cpu k₀ last k → last ≤ now → (∀ n ∈ now :: nows, n ≤ last') →
      SchedFit tick k cpu now →
      schedule tick fuel kernelSchedulers k cpu (now :: nows) = .ok (some out, k') →
      SchedReach tick cpu k₀ last' k'

theorem RrWoken.slice (htick : 0 < tick) {tsk : TaskStruct} (h : RrWoken tick tsk) :
    2 * tick < tsk.attr.wcet := by
  obtain ⟨attr, hok, hattr⟩ := h.accepted
  have hprio : 0 < (rrCheckSchedAttr attr).2.priority := by
    unfold rrCheckSchedAttr at hok ⊢
    split at hok
    case isTrue => exact absurd hok (show ¬ (-(EINVAL : Int)) = 0 by decide)
    case isFalse hrr =>
      rw [if_neg hrr]
      split
      case isTrue => exact Nat.one_pos
      case isFalse hne => exact Nat.pos_of_ne_zero hne
  rw [hattr]
  have hle : (1 : Int) * (tick * 16) ≤
      ((rrCheckSchedAttr attr).2.priority : Int) * (tick * 16) :=
    Int.mul_le_mul_of_nonneg_right (by omega) (by omega)
  dsimp only
  omega

theorem SchedWoken.inv (htick : 0 < tick) {k : Kernel} (h : SchedWoken tick cpu k) (last : Int) :
    SchedInv tick last cpu k where
  nodup := h.nodup
  rrNodup := h.rrNodup
  apart := h.apart
  kept t ht := ⟨fun _ => (h.edf t ht).full, by simp [(h.edf t ht).idle]⟩
  slice t ht := (h.rr t ht).slice htick
  busy t ht hb := by
    rcases ht with ht | ⟨ht, -⟩
    · simp [(h.edf t ht).idle] at hb
    · simp [(h.rr t ht).run] at hb
  awake t ht hcur := absurd hcur (h.boot t ht)

theorem SchedInv.later {last last' : Int} {k : Kernel} (h : SchedInv tick last cpu k)
    (hle : last ≤ last') : SchedInv tick last' cpu k := by
  refine ⟨⟨h.nodup, h.rrNodup, h.apart, fun t ht => ?_, h.slice⟩, h.busy, h.awake⟩
  obtain ⟨hidle, hnear⟩ := h.kept t ht
  exact ⟨hidle, fun hs => by have := hnear hs; omega⟩

theorem SchedReach.inv (htick : 0 < tick) (hsmall : tick < 0x7fffffff) {k₀ k : Kernel} {last : Int}
    (h₀ : SchedWoken tick cpu k₀) (h : SchedReach tick cpu k₀ last k) :
    SchedInv tick last cpu k := by
  induction h with
  | start last => exact h₀.inv htick last
  | call _ hclock hlast hfit hcall ih =>
    exact (ih.call htick.le hsmall hclock hfit hcall).1.later (hlast _ List.mem_cons_self)

/-- **No task is stranded.**  After each call of `schedule` exactly one task of the CPU is in state
`BUSY`, and it is the one selected to run. -/
theorem schedule_strands_none (tick : Nat) (htick : 0 < tick) (hsmall : tick < 0x7fffffff)
    (cpu : Nat) (k₀ k k' : Kernel) (last now : Int) (nows : List Int) (fuel : Nat)
    (out : Scheduled) (h₀ : SchedWoken tick cpu k₀) (hrun : SchedReach tick cpu k₀ last k)
    (hclock : last ≤ now) (hfit : SchedFit tick k cpu now)
    (hcall : schedule tick fuel kernelSchedulers k cpu (now :: nows) = .ok (some out, k')) :
    schedAssigned k' cpu out.next ∧
      ∀ t, schedAssigned k' cpu t → ((k'.task t).state = .busy ↔ t = out.next) := by
  have htick' : (0 : Int) < tick := by omega
  have hsmall' : (tick : Int) < 0x7fffffff := by omega
  exact ((hrun.inv htick' hsmall' h₀).call htick'.le hsmall' hclock hfit hcall).2

instance (tick now D : Int) (tsk : TaskStruct) : Decidable (EdfFit tick now D tsk) :=
  inferInstanceAs (Decidable (_ ∧ _))

instance (tick now D : Int) (tsk : TaskStruct) : Decidable (EdfBelow tick now D tsk) :=
  inferInstanceAs (Decidable (_ ∧ _))

/-- The first thread of a CPU and a task of the earliest deadline first scheduler. -/
def kernelOf (tsk : TaskStruct) : Kernel where
  task u := if u = 0 then rrTaskOf .run (some 0) 16 16 else tsk
  tq p cpu := if cpu = 0 then ⟨[], if p = .rr then [0] else if p = .edf then [1] else [], [], []⟩
    else ⟨[], [], [], []⟩
  freed := []
  current _ := some 0
  enabled _ := true

theorem kernelOf_woken {tsk : TaskStruct} (h : EdfWoken 1 tsk) : SchedWoken 1 0 (kernelOf tsk) where
  nodup := by simp [kernelOf]
  rrNodup := by simp [kernelOf]
  apart := by simp [kernelOf]
  edf t ht := by
    obtain rfl : t = 1 := by simpa [kernelOf] using ht
    exact h
  rr t ht := by
    obtain rfl : t = 0 := by simpa [kernelOf] using ht
    exact ⟨⟨⟨.rr, 1, 0, 16, 0⟩, by decide, rfl⟩, rfl, rfl⟩
  boot := by simp [kernelOf]

/-- A task of two ticks, that wakes up at 5. -/
def edfTwoTicks : TaskStruct :=
  { edfTaskOf .idle 5 2 with attr := ⟨.edf, 0, 100, 2, 10⟩, deadline := 15 }

/-- A task of a single tick. -/
def edfOneTick : TaskStruct :=
  { edfTaskOf .idle 5 1 with attr := ⟨.edf, 0, 100, 1, 10⟩, deadline := 15 }

theorem schedule_strands_none_two : ∃ out k',
    schedule ((1 : Nat) : Int) 9 kernelSchedulers (kernelOf edfTwoTicks) 0 [5] = .ok (some out, k') ∧
      schedAssigned k' 0 out.next ∧
      ∀ t, schedAssigned k' 0 t → ((k'.task t).state = .busy ↔ t = out.next) :=
  ⟨_, _, rfl, schedule_strands_none 1 (by decide) (by decide) 0 (kernelOf edfTwoTicks)
    (kernelOf edfTwoTicks) _ 0 5 [] 9 _
    (kernelOf_woken ⟨⟨edfTwoTicks, by decide, rfl, rfl⟩, rfl, rfl⟩) (.start 0) (by decide)
    ⟨15, by decide⟩ rfl⟩

/-- **A task with a runtime of a single tick** is picked, and passed over because its slice is not
longer than a tick; another is selected, and both are `BUSY`. -/
theorem schedule_strands_one : SchedWoken 1 0 (kernelOf edfOneTick) ∧ ∃ out k',
    schedule 1 9 kernelSchedulers (kernelOf edfOneTick) 0 [5, 6] = .ok (some out, k') ∧
      out.next = 0 ∧ schedAssigned k' 0 1 ∧ (k'.task 0).state = .busy ∧
      (k'.task 1).state = .busy :=
  ⟨kernelOf_woken ⟨⟨edfOneTick, by decide, rfl, rfl⟩, rfl, rfl⟩, _, _, rfl, rfl,
    .inl (by decide), rfl, rfl⟩

end FlightOs
