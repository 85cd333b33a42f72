/-
# Which task has the earliest deadline

`edf_pick_next` keeps a running minimum at the head of the run queue, and gives the earliest deadline as
long as what is at the head can run itself.  A head that is asleep spoils it: a task in state `RUN` is
compared with the head's next deadline, and if that is earlier, the task stays behind and may not be
picked; one that is just woken goes to the head in any case.  So does one that is woken ahead of its
time, and what is at the head in the end is picked without a look at its wakeup.  Last, a task that runs
only once is taken off the queue when it is met again, unless it is the current one.

* `EdfPickOk`: none of these happens.
* `EdfOver.due`: the tasks that are due when the loop is over.
* `edfPickOk_of_first`: a head that can run itself.
* `edf_pick_next_earliest_iff`: when the earliest deadline is picked.
-/
import FlightOs.Sched.EdfVisits

namespace FlightOs

/-! ## 1. What is asked -/

section Pick

variable {tick now : Int} {cpu : Nat} {this : Option Nat} {q q' : Queues}

/-- A task is in state `RUN` with its wakeup time reached, or was when it was picked. -/
def EdfDue (q : Queues) (now : Int) (t : Nat) : Prop :=
  ((q.task t).state = .run ∨ (q.task t).state = .busy) ∧ (q.task t).wakeup ≤ now

/-- What is asked of `edf_pick_next`: nothing is picked if and only if no task is due, and what is
picked has the earliest deadline. -/
def EdfPicksEarliest (tick : Int) (q : Queues) (cpu : Nat) (now : Int) (this : Option Nat) : Prop :=
  ∃ next q', edfPickNext tick q cpu now this = .ok (next, q') ∧
    (next = none ↔ ∀ u ∈ (q.tq cpu).run, ¬ EdfDue q' now u) ∧
    (∀ t, next = some t → t ∈ (q.tq cpu).run ∧ EdfDue q' now t ∧
      ∀ u ∈ (q.tq cpu).run, EdfDue q' now u → (q'.task t).deadline ≤ (q'.task u).deadline) ∧
    (∀ u ∈ (q.tq cpu).run, (q'.task u).state = .busy ↔ next = some u) ∧
    (q'.tq cpu).run.Perm (q.tq cpu).run

/-- A visit is heard: the task bids for the head, and the first task that stays in place does not hide
it. -/
def EdfHeard (tick : Int) (q : Queues) (cpu : Nat) (now : Int) (e : EdfVisit) : Prop :=
  (edfContest tick now q.task).Heard (edfVisits tick now q.task (q.tq cpu).run) e

instance (tick : Int) (q : Queues) (cpu : Nat) (now : Int) (e : EdfVisit) :
    Decidable (EdfHeard tick q cpu now e) :=
  inferInstanceAs (Decidable (Contest.Heard _ _ _))

/-- **When the earliest deadline is picked.** -/
structure EdfPickOk (tick : Int) (q : Queues) (cpu : Nat) (now : Int) (this : Option Nat) : Prop where
  /-- No task that runs only once is taken off the queue. -/
  kept : ∀ t ∈ edfAgain tick now q.task (q.tq cpu).run, edfKept this q.task t = true
  /-- No task is hidden that has an earlier deadline than those that are heard. -/
  shown : ∀ u ∈ (q.tq cpu).run, EdfEligible tick now q.task (q.tq cpu).run u →
    ∃ e ∈ edfVisits tick now q.task (q.tq cpu).run, EdfHeard tick q cpu now e ∧
      EdfEligible tick now q.task (q.tq cpu).run e.task ∧
      (edfNext tick now (q.task e.task)).deadline ≤ (edfNext tick now (q.task u)).deadline
  /-- No task that is woken ahead of its time is before those whose time has come. -/
  early : ∀ e ∈ edfVisits tick now q.task (q.tq cpu).run, EdfHeard tick q cpu now e →
    now < (edfNext tick now (q.task e.task)).wakeup →
    ∃ m ∈ edfVisits tick now q.task (q.tq cpu).run, EdfHeard tick q cpu now m ∧
      EdfEligible tick now q.task (q.tq cpu).run m.task ∧
      (edfContest tick now q.task).Before (edfVisits tick now q.task (q.tq cpu).run) m e
  /-- No task in state `RUN` is left at the head before its time. -/
  asleep : (∃ e ∈ edfVisits tick now q.task (q.tq cpu).run, EdfHeard tick q cpu now e) ∨
    ∀ l ∈ (edfVisits tick now q.task (q.tq cpu).run).head?,
      (edfContest tick now q.task).up l = false

/-- When nothing is picked, what is asked is that no task is due. -/
theorem edfPicksEarliest_none (h : edfPickNext tick q cpu now this = .ok (none, q'))
    (hbusy : ∀ u ∈ (q.tq cpu).run, (q'.task u).state ≠ .busy)
    (hperm : (q'.tq cpu).run.Perm (q.tq cpu).run) :
    EdfPicksEarliest tick q cpu now this ↔
      ∀ u ∈ (q.tq cpu).run, ¬ ((q'.task u).state = .run ∧ (q'.task u).wakeup ≤ now) := by
  have hdue : ∀ u ∈ (q.tq cpu).run, (EdfDue q' now u ↔
      (q'.task u).state = .run ∧ (q'.task u).wakeup ≤ now) := fun u hu => by
    simp [EdfDue, hbusy u hu]
  constructor
  · rintro ⟨next, q₁, hres, hnone, -⟩
    rw [h] at hres
    cases hres
    exact fun u hu hd => hnone.mp rfl u hu ((hdue u hu).mpr hd)
  · intro hnot
    refine ⟨none, _, h, ⟨fun _ u hu hd => hnot u hu ((hdue u hu).mp hd), fun _ => rfl⟩, ?_, ?_, hperm⟩
    · intro t ht
      cases ht
    · intro u hu
      simp [hbusy u hu]

/-- When a task is picked, what is asked is that its time has come, and that it has the earliest
deadline of those that are due. -/
theorem edfPicksEarliest_some {m : Nat} (hm : m ∈ (q.tq cpu).run) (hrun : (q'.task m).state = .run)
    (h : edfPickNext tick q cpu now this =
      .ok (some m, q'.setTask m { q'.task m with state := .busy }))
    (hbusy : ∀ u ∈ (q.tq cpu).run, (q'.task u).state ≠ .busy)
    (hperm : (q'.tq cpu).run.Perm (q.tq cpu).run) :
    EdfPicksEarliest tick q cpu now this ↔ (q'.task m).wakeup ≤ now ∧
      ∀ u ∈ (q.tq cpu).run, (q'.task u).state = .run ∧ (q'.task u).wakeup ≤ now →
        (q'.task m).deadline ≤ (q'.task u).deadline := by
  have hdeadline : ∀ u, ((q'.setTask m { q'.task m with state := .busy }).task u).deadline =
      (q'.task u).deadline := by
    intro u
    by_cases hu : u = m
    · subst hu
      simp
    · rw [Queues.setTask_task_other _ _ hu]
  have hdue : ∀ u ∈ (q.tq cpu).run,
      (EdfDue (q'.setTask m { q'.task m with state := .busy }) now u ↔
        (q'.task u).state = .run ∧ (q'.task u).wakeup ≤ now) := by
    intro u hu
    by_cases hum : u = m
    · subst hum
      simp [EdfDue, hrun]
    · rw [EdfDue, Queues.setTask_task_other _ _ hum]
      simp [hbusy u hu]
  constructor
  · rintro ⟨next, q₁, hres, -, hsome, -⟩
    rw [h] at hres
    cases hres
    obtain ⟨-, hd, hmin⟩ := hsome m rfl
    refine ⟨((hdue m hm).mp hd).2, fun u hu hu' => ?_⟩
    have h1 := hmin u hu ((hdue u hu).mpr hu')
    rwa [hdeadline, hdeadline] at h1
  · rintro ⟨htime, hmin⟩
    have hmdue := (hdue m hm).mpr ⟨hrun, htime⟩
    refine ⟨some m, _, h, ⟨nofun, fun hnot => absurd hmdue (hnot m hm)⟩, ?_, ?_, hperm⟩
    · intro t ht
      cases ht
      refine ⟨hm, hmdue, fun u hu hu' => ?_⟩
      rw [hdeadline, hdeadline]
      exact hmin u hu ((hdue u hu).mp hu')
    · intro u hu
      by_cases hum : u = m
      · subst hum
        simp
      · rw [Queues.setTask_task_other _ _ hum]
        simp [hbusy u hu, Ne.symm hum]

/-! ## 2. The tasks in the end -/

section Done

variable {τ : Nat → TaskStruct} {run : List Nat} {st : EdfScan} {Q : List EdfVisit} {u : Nat}

/-- All tasks are in the queue, if none is taken off. -/
theorem EdfOver.perm (hover : EdfOver tick now τ this run st Q) :
    (Q.map (·.task) ++ edfUnmet tick now τ run).Perm run ↔
      ∀ t ∈ edfAgain tick now τ run, edfKept this τ t = true := by
  have hmap : (Q.map (·.task) ++ edfUnmet tick now τ run).Perm
      ((run.filter fun u => !edfLeaves tick now τ run u) ++
        ((edfAgain tick now τ run).filter (edfKept this τ) ++ edfUnmet tick now τ run)) := by
    have h := (hover.placed.map (·.task)).append_right (edfUnmet tick now τ run)
    simpa [List.map_map, Function.comp_def] using h
  have hsplit : (run.filter fun u => !edfLeaves tick now τ run u).length +
      ((edfAgain tick now τ run).length + (edfUnmet tick now τ run).length) = run.length := by
    have hperm := (List.filter_append_perm (edfLeaves tick now τ run) run).length_eq
    have hmoved : (edfAgain tick now τ run).length + (edfUnmet tick now τ run).length =
        (run.filter (edfLeaves tick now τ run)).length := by
      unfold edfAgain edfUnmet
      split <;> simp
    rw [List.length_append] at hperm
    omega
  constructor
  · intro hperm
    have h1 := (hmap.symm.trans hperm).length_eq
    rw [List.length_append, List.length_append] at h1
    have h2 : ((edfAgain tick now τ run).filter (edfKept this τ)).length =
        (edfAgain tick now τ run).length := by omega
    exact List.filter_eq_self.mp (List.filter_sublist.eq_of_length h2)
  · intro hall
    rw [List.filter_eq_self.mpr hall] at hmap
    refine hmap.trans ?_
    have hmoved : edfAgain tick now τ run ++ edfUnmet tick now τ run =
        run.filter (edfLeaves tick now τ run) := by
      unfold edfAgain edfUnmet
      split <;> simp
    rw [hmoved]
    exact List.perm_append_comm.trans (List.filter_append_perm _ run)

/-- What becomes of a task: it is placed when it is first met, or when it is met again, or it is not met
again. -/
theorem EdfOver.cases (hover : EdfOver tick now τ this run st Q)
    (hall : ∀ t ∈ edfAgain tick now τ run, edfKept this τ t = true) (hu : u ∈ run) :
    (edfLeaves tick now τ run u = false ∧ st.task u = edfAfter tick now τ ⟨u, false⟩) ∨
    (edfLeaves tick now τ run u = true ∧ u ∈ edfAgain tick now τ run ∧
      st.task u = edfAfter tick now τ ⟨u, true⟩) ∨
    (edfLeaves tick now τ run u = true ∧ u ∉ edfAgain tick now τ run ∧
      st.task u = edfNext tick now (τ u)) := by
  by_cases hl : edfLeaves tick now τ run u = true
  case neg =>
    rw [Bool.not_eq_true] at hl
    have hplaced : (⟨u, false⟩ : EdfVisit) ∈ Q := by
      refine hover.placed.mem_iff.mpr (List.mem_append_left _ ?_)
      exact List.mem_map_of_mem (List.mem_filter.mpr ⟨hu, by simp [hl]⟩)
    exact .inl ⟨hl, hover.stands.passed ⟨u, false⟩ hplaced⟩
  case pos =>
    right
    have hmem : u ∈ run.filter (edfLeaves tick now τ run) := List.mem_filter.mpr ⟨hu, hl⟩
    by_cases hlone : run.filter (edfLeaves tick now τ run) = run.getLast?.toList
    · obtain ⟨hagain, hunmet⟩ := edfAgain_of_eq hlone
      exact .inr ⟨hl, by simp [hagain], hover.stands.moved u (hunmet ▸ hmem)⟩
    · obtain ⟨hagain, -⟩ := edfAgain_of_ne hlone
      have hmem' : u ∈ edfAgain tick now τ run := hagain ▸ hmem
      have hplaced : (⟨u, true⟩ : EdfVisit) ∈ Q := by
        refine hover.placed.mem_iff.mpr (List.mem_append_right _ ?_)
        exact List.mem_map_of_mem (List.mem_filter.mpr ⟨hmem', hall u hmem'⟩)
      exact .inl ⟨hl, hmem', hover.stands.passed ⟨u, true⟩ hplaced⟩

theorem EdfOver.deadline (hover : EdfOver tick now τ this run st Q)
    (hall : ∀ t ∈ edfAgain tick now τ run, edfKept this τ t = true) (hu : u ∈ run) :
    (st.task u).deadline = (edfNext tick now (τ u)).deadline := by
  rcases hover.cases hall hu with ⟨-, h⟩ | ⟨-, -, h⟩ | ⟨-, -, h⟩
  · rw [h, edfAfter_deadline]
    rfl
  · rw [h, edfAfter_deadline]
    rfl
  · rw [h]

theorem EdfOver.wakeup (hover : EdfOver tick now τ this run st Q)
    (hall : ∀ t ∈ edfAgain tick now τ run, edfKept this τ t = true) (hu : u ∈ run) :
    (st.task u).wakeup = (edfNext tick now (τ u)).wakeup := by
  rcases hover.cases hall hu with ⟨-, h⟩ | ⟨-, -, h⟩ | ⟨-, -, h⟩
  · rw [h, edfAfter_wakeup]
  · rw [h, edfAfter_wakeup]
  · rw [h]

theorem EdfOver.not_busy (hover : EdfOver tick now τ this run st Q)
    (hall : ∀ t ∈ edfAgain tick now τ run, edfKept this τ t = true)
    (hstate : (τ u).state = .run ∨ (τ u).state = .idle) (hu : u ∈ run) :
    (st.task u).state ≠ .busy := by
  have hnext : (edfNext tick now (τ u)).state ≠ .busy := by
    unfold edfNext edfRenewed
    split
    · split <;> simp
    · rcases hstate with h | h <;> simp [h]
  have hafter : ∀ again, (edfAfter tick now τ ⟨u, again⟩).state ≠ .busy := by
    intro again
    unfold edfAfter
    split
    · simp
    · exact hnext
  rcases hover.cases hall hu with ⟨-, h⟩ | ⟨-, -, h⟩ | ⟨-, -, h⟩
  · rw [h]
    exact hafter false
  · rw [h]
    exact hafter true
  · rw [h]
    exact hnext

/-- **The tasks that are due in the end.** -/
theorem EdfOver.due (hover : EdfOver tick now τ this run st Q)
    (hall : ∀ t ∈ edfAgain tick now τ run, edfKept this τ t = true) (htick : 0 ≤ tick) (hu : u ∈ run) :
    ((st.task u).state = .run ∧ (st.task u).wakeup ≤ now) ↔ EdfEligible tick now τ run u := by
  rw [hover.wakeup hall hu, EdfEligible, and_comm]
  refine and_congr_right fun hdue => ?_
  by_cases hspent : edfSpent tick now (τ u) = true
  case neg =>
    rw [if_neg hspent]
    rw [Bool.not_eq_true] at hspent
    rw [edfNext_not_spent hspent] at hdue
    have hl : edfLeaves tick now τ run u = false := by simp [edfLeaves, hspent]
    rcases hover.cases hall hu with ⟨-, h⟩ | ⟨h, -⟩ | ⟨h, -⟩
    · rw [h, edfAfter_state, edfContest_bids_first hspent, Bool.or_eq_true]
      refine ⟨fun hb => hb.elim id fun hup => .inl ?_, .inl⟩
      have hrun : (τ u).state = .run := by
        have h1 : (edfNext tick now (τ u)).state = .run := of_decide_eq_true hup
        rwa [edfNext_not_spent hspent] at h1
      exact edfReady_of_run htick hspent hrun hdue
    · rw [h] at hl
      cases hl
    · rw [h] at hl
      cases hl
  case pos =>
    rw [if_pos hspent]
    have hnotrun : (edfNext tick now (τ u)).state ≠ .run := by
      rw [edfNext_of_spent hspent]
      exact edfRenewed_state _
    rcases hover.cases hall hu with ⟨hl, h⟩ | ⟨hl, hmem, h⟩ | ⟨hl, hmem, h⟩
    · -- it has risen
      have hrises : EdfRises tick now τ run u := by
        by_contra hnot
        rw [edfLeaves_iff.mpr ⟨hspent, hnot⟩] at hl
        cases hl
      rw [h, edfAfter_state]
      exact iff_of_true (.inl hrises.2.1.bids) (.inl hrises)
    · -- it has been met again
      rw [h, edfAfter_state]
      have hup : (edfContest tick now τ).up ⟨u, true⟩ = false := decide_eq_false hnotrun
      rw [hup, or_iff_left (by simp), or_iff_right (edfLeaves_iff.mp hl).2, and_iff_right hmem]
      rfl
    · rw [h]
      refine iff_of_false hnotrun ?_
      rintro (hrises | ⟨hmem', -⟩)
      · exact (edfLeaves_iff.mp hl).2 hrises
      · exact hmem hmem'

end Done

/-! ## 3. The pick -/

/-- What `edf_pick_next` returns when its loop is over. -/
theorem edfPickNext_eq {st : EdfScan} {first : Nat} {rest : List Nat} (hne : (q.tq cpu).run ≠ [])
    (hloop : safeFor (edfPickTurn tick now this) (2 * (q.tq cpu).run.length + 1)
      ⟨q.task, q.freed, false⟩ [] (q.tq cpu).run = some (st, first :: rest))
    (hcalm : st.trapped = false)
    (hq' : q' = { q with task := st.task, freed := st.freed }.setTq cpu
      { q.tq cpu with run := first :: rest }) :
    edfPickNext tick q cpu now this =
      if (q'.task first).state = .run then
        .ok (some first, q'.setTask first { q'.task first with state := .busy })
      else .ok (none, q') := by
  subst hq'
  rw [edfPickNext, if_neg hne, hloop]
  dsimp only
  rw [if_neg (by simp [hcalm])]

/-- Nothing is heard, and the first task that stays in place is not in state `RUN`: no task is picked. -/
theorem edfPickOk_of_unheard
    (hkept : ∀ t ∈ edfAgain tick now q.task (q.tq cpu).run, edfKept this q.task t = true)
    (hnone : ∀ e, ¬ EdfHeard tick q cpu now e)
    (hup : ∀ l ∈ (edfVisits tick now q.task (q.tq cpu).run).head?,
      (edfContest tick now q.task).up l = false) :
    EdfPickOk tick q cpu now this ↔
      ∀ u ∈ (q.tq cpu).run, ¬ EdfEligible tick now q.task (q.tq cpu).run u := by
  constructor
  · intro hok u hu helig
    obtain ⟨e, -, he, -⟩ := hok.shown u hu helig
    exact hnone e he
  · intro hnot
    exact ⟨hkept, fun u hu helig => absurd helig (hnot u hu), fun e _ he => absurd he (hnone e),
      .inr hup⟩

/-- The first of the tasks with the earliest deadline that are heard is picked. -/
theorem edfPickOk_of_heard {m : EdfVisit}
    (hkept : ∀ t ∈ edfAgain tick now q.task (q.tq cpu).run, edfKept this q.task t = true)
    (hm : EdfHeard tick q cpu now m)
    (hfirst : ∀ b, EdfHeard tick q cpu now b → b = m ∨
      (edfContest tick now q.task).Before (edfVisits tick now q.task (q.tq cpu).run) m b)
    (hdue : (edfNext tick now (q.task m.task)).wakeup ≤ now →
      EdfEligible tick now q.task (q.tq cpu).run m.task) :
    EdfPickOk tick q cpu now this ↔ (edfNext tick now (q.task m.task)).wakeup ≤ now ∧
      ∀ u ∈ (q.tq cpu).run, EdfEligible tick now q.task (q.tq cpu).run u →
        (edfNext tick now (q.task m.task)).deadline ≤ (edfNext tick now (q.task u)).deadline := by
  constructor
  · intro hok
    refine ⟨?_, fun u hu helig => ?_⟩
    · -- it is not woken ahead of its time
      by_contra hearly
      obtain ⟨m', -, hm', -, hbefore⟩ := hok.early m hm.mem hm (not_le.mp hearly)
      rcases hfirst m' hm' with rfl | h
      · exact hbefore.asymm hbefore
      · exact hbefore.asymm h
    · obtain ⟨e, -, he, -, hle⟩ := hok.shown u hu helig
      refine le_trans ?_ hle
      rcases hfirst e he with rfl | h
      · exact le_refl _
      · exact h.le
  · rintro ⟨htime, hmin⟩
    refine ⟨hkept, fun u hu helig => ⟨m, hm.mem, hm, hdue htime, hmin u hu helig⟩, ?_,
      .inl ⟨m, hm.mem, hm⟩⟩
    intro e _ he hearly
    refine ⟨m, hm.mem, hm, hdue htime, (hfirst e he).resolve_left ?_⟩
    rintro rfl
    exact absurd htime (not_le.mpr hearly)

theorem edfVisits_nodup {τ : Nat → TaskStruct} {run : List Nat} (hnd : run.Nodup) :
    (edfVisits tick now τ run).Nodup := by
  refine List.nodup_append.mpr ⟨edfFirstVisits_nodup hnd, ?_, ?_⟩
  · refine List.Nodup.map (fun _ _ h => (EdfVisit.mk.inj h).1) ?_
    unfold edfAgain
    split
    · exact List.nodup_nil
    · exact hnd.filter _
  · rintro e he e' he' rfl
    obtain ⟨u, -, rfl⟩ := List.mem_map.mp he'
    cases (mem_edfFirstVisits he).2

theorem edfAgain_spent {τ : Nat → TaskStruct} {run : List Nat} {t : Nat}
    (h : t ∈ edfAgain tick now τ run) : edfSpent tick now (τ t) = true := by
  unfold edfAgain at h
  split at h
  · cases h
  · exact (edfLeaves_iff.mp (List.mem_filter.mp h).2).1

theorem edfUnmet_spent {τ : Nat → TaskStruct} {run : List Nat} {t : Nat}
    (h : t ∈ edfUnmet tick now τ run) : edfSpent tick now (τ t) = true := by
  unfold edfUnmet at h
  split at h
  · exact (edfLeaves_iff.mp (List.mem_filter.mp h).2).1
  · cases h

theorem mem_edfAgain {τ : Nat → TaskStruct} {run : List Nat} {t : Nat}
    (h : t ∈ edfAgain tick now τ run) : t ∈ run := by
  unfold edfAgain at h
  split at h
  · cases h
  · exact List.mem_of_mem_filter h

theorem mem_edfVisits {τ : Nat → TaskStruct} {run : List Nat} {e : EdfVisit}
    (h : e ∈ edfVisits tick now τ run) : e.task ∈ run := by
  rcases List.mem_append.mp h with h | h
  · exact (mem_edfFirstVisits h).1
  · obtain ⟨t, ht, rfl⟩ := List.mem_map.mp h
    exact mem_edfAgain ht

/-- A task in state `RUN` whose time has come bids for the head. -/
theorem EdfEligible.bids {τ : Nat → TaskStruct} {run : List Nat} {e : EdfVisit}
    (helig : EdfEligible tick now τ run e.task) (he : e ∈ edfVisits tick now τ run)
    (hup : (edfContest tick now τ).up e = true) : (edfContest tick now τ).bids e = true := by
  have hrun : (edfNext tick now (τ e.task)).state = .run := of_decide_eq_true hup
  have hspent : edfSpent tick now (τ e.task) = false := by
    rw [← Bool.not_eq_true]
    intro hspent
    rw [edfNext_of_spent hspent] at hrun
    exact edfRenewed_state _ hrun
  have hcan := helig.2
  rw [if_neg (by simp [hspent])] at hcan
  rcases List.mem_append.mp he with he | he
  · obtain ⟨t, again⟩ := e
    obtain rfl : again = false := (mem_edfFirstVisits he).2
    rw [edfContest_bids_first hspent, Bool.or_eq_true]
    exact hcan
  · obtain ⟨t, ht, rfl⟩ := List.mem_map.mp he
    rw [edfAgain_spent ht] at hspent
    cases hspent

/-- **A head that can run itself.**  The earliest deadline is picked if the first task of the queue can
go on or is woken, no task is woken ahead of its time, and none that runs only once is through. -/
theorem edfPickOk_of_first {t : Nat} {rest : List Nat} (hrun : (q.tq cpu).run = t :: rest)
    (hfirst : edfReady tick now (q.task t) = true ∨ edfWakes tick now (q.task t) = true)
    (hearly : ∀ u ∈ (q.tq cpu).run, edfWakes tick now (edfNext tick now (q.task u)) = true →
      (edfNext tick now (q.task u)).wakeup ≤ now)
    (honce : ∀ u ∈ (q.tq cpu).run, edfSpent tick now (q.task u) = true →
      (q.task u).runOnce = false) :
    EdfPickOk tick q cpu now this := by
  have hspent : edfSpent tick now (q.task t) = false := by
    rw [← Bool.not_eq_true]
    intro h
    rw [edfSpent_not_ready h, edfSpent_not_wakes h] at hfirst
    simp at hfirst
  have hbids : (edfContest tick now q.task).bids ⟨t, false⟩ = true := by
    rw [edfContest_bids_first hspent, Bool.or_eq_true]
    exact hfirst
  have hvisits : edfFirstVisits tick now q.task (q.tq cpu).run =
      (q.tq cpu).run.map (EdfVisit.mk · false) := by
    have hlead : edfLeads tick now q.task (q.tq cpu).run t = true := by simp [edfLeads, hspent]
    have hdrop : (q.tq cpu).run.dropWhile (fun u => !edfLeads tick now q.task (q.tq cpu).run u) =
        (q.tq cpu).run := by
      nth_rewrite 2 [hrun]
      rw [List.dropWhile_cons_of_neg (by simp [hlead]), hrun]
    rw [edfFirstVisits, hdrop]
  have hhead : (edfVisits tick now q.task (q.tq cpu).run).head? = some ⟨t, false⟩ := by
    rw [edfVisits, hvisits]
    nth_rewrite 1 [hrun]
    rfl
  have hheard : ∀ e ∈ edfVisits tick now q.task (q.tq cpu).run,
      (edfContest tick now q.task).bids e = true → EdfHeard tick q cpu now e := by
    intro e he hb
    refine ⟨⟨he, hb⟩, fun l hl => .inl ?_⟩
    rw [hhead] at hl
    cases hl
    exact hbids
  have hmem : ∀ u ∈ (q.tq cpu).run, (⟨u, false⟩ : EdfVisit) ∈
      edfVisits tick now q.task (q.tq cpu).run := by
    intro u hu
    refine List.mem_append_left _ ?_
    rw [hvisits]
    exact List.mem_map_of_mem hu
  refine ⟨fun u hu => ?_, fun u hu helig => ?_, fun e he hbid hlate => ?_, .inl ?_⟩
  · have hspent' := edfAgain_spent hu
    simp [edfKept, honce u (mem_edfAgain hu) hspent']
  · -- a task that is due is heard
    have hcan := helig.2
    by_cases hs : edfSpent tick now (q.task u) = true
    · rw [if_pos hs] at hcan
      rcases hcan with hrises | ⟨hagain, hwakes⟩
      · exact ⟨_, hmem u hu, hheard _ (hmem u hu) hrises.2.1.bids, helig, le_refl _⟩
      · have hmem' : (⟨u, true⟩ : EdfVisit) ∈ edfVisits tick now q.task (q.tq cpu).run :=
          List.mem_append_right _ (List.mem_map_of_mem hagain)
        exact ⟨_, hmem', hheard _ hmem' hwakes, helig, le_refl _⟩
    · rw [if_neg hs, ← Bool.or_eq_true] at hcan
      rw [Bool.not_eq_true] at hs
      have hb := (edfContest_bids_first hs).trans hcan
      exact ⟨_, hmem u hu, hheard _ (hmem u hu) hb, helig, le_refl _⟩
  · -- none is woken ahead of its time
    have hu := mem_edfVisits he
    have hb := hbid.bids
    obtain ⟨u, again⟩ := e
    have hnot : ¬ edfWakes tick now (edfNext tick now (q.task u)) = true :=
      fun h => absurd (hearly u hu h) (not_le.mpr hlate)
    cases again with
    | true => exact absurd hb hnot
    | false =>
      by_cases hs : edfSpent tick now (q.task u) = true
      · rw [edfContest_bids_spent hs, edfStarts, hs, Bool.true_and] at hb
        rw [edfNext_of_spent hs] at hlate
        exact absurd (of_decide_eq_true hb) (not_le.mpr hlate)
      · rw [Bool.not_eq_true] at hs
        rw [edfNext_not_spent hs] at hlate hnot
        rw [edfContest_bids_first hs, Bool.or_eq_true, or_iff_left hnot] at hb
        exact absurd (edfReady_iff.mp hb).1.2 (not_le.mpr hlate)
  · have ht : t ∈ (q.tq cpu).run := by
      rw [hrun]
      exact List.mem_cons_self
    exact ⟨_, hmem t ht, hheard _ (hmem t ht) hbids⟩

/-- If a task is taken off the queue, the queue is no permutation of what it was. -/
theorem EdfOver.not_earliest {st : EdfScan} {Q : List EdfVisit} (hne : (q.tq cpu).run ≠ [])
    (hloop : safeFor (edfPickTurn tick now this) (2 * (q.tq cpu).run.length + 1)
      ⟨q.task, q.freed, false⟩ [] (q.tq cpu).run =
        some (st, Q.map (·.task) ++ edfUnmet tick now q.task (q.tq cpu).run))
    (hover : EdfOver tick now q.task this (q.tq cpu).run st Q)
    (hkept : ¬ ∀ t ∈ edfAgain tick now q.task (q.tq cpu).run, edfKept this q.task t = true) :
    ¬ EdfPicksEarliest tick q cpu now this := by
  rintro ⟨next, q₁, hres, -, -, -, hperm⟩
  refine hkept (hover.perm.mp ?_)
  rcases hQ : Q.map (·.task) ++ edfUnmet tick now q.task (q.tq cpu).run with _ | ⟨first, rest⟩
  · rw [hQ] at hloop
    simp [edfPickNext, hne, hloop, hover.stands.calm] at hres
  · rw [hQ] at hloop
    rw [edfPickNext_eq hne hloop hover.stands.calm rfl] at hres
    split at hres <;> cases hres <;> simpa using hperm

/-- What `edf_pick_next` leaves when no task is taken off: the queues `q'` with `first` at the head,
which is picked if it is in state `RUN`. -/
structure EdfLeft (tick : Int) (q : Queues) (cpu : Nat) (now : Int) (this : Option Nat) (q' : Queues)
    (first : Nat) : Prop where
  result : edfPickNext tick q cpu now this =
    if (q'.task first).state = .run then
      .ok (some first, q'.setTask first { q'.task first with state := .busy })
    else .ok (none, q')
  perm : (q'.tq cpu).run.Perm (q.tq cpu).run
  not_busy : ∀ u ∈ (q.tq cpu).run, (q'.task u).state ≠ .busy
  due : ∀ u ∈ (q.tq cpu).run, ((q'.task u).state = .run ∧ (q'.task u).wakeup ≤ now) ↔
    EdfEligible tick now q.task (q.tq cpu).run u
  wakeup : ∀ u ∈ (q.tq cpu).run, (q'.task u).wakeup = (edfNext tick now (q.task u)).wakeup
  deadline : ∀ u ∈ (q.tq cpu).run, (q'.task u).deadline = (edfNext tick now (q.task u)).deadline
  head : match (edfContest tick now q.task).front (edfVisits tick now q.task (q.tq cpu).run) with
    | none => (q'.task first).state ≠ .run
    | some m => m.task = first ∧ ((q'.task first).state = .run ↔
        (edfContest tick now q.task).bids m = true ∨ (edfContest tick now q.task).up m = true)

theorem EdfOver.left {st : EdfScan} {Q : List EdfVisit} (htick : 0 ≤ tick)
    (hne : (q.tq cpu).run ≠ [])
    (hstate : ∀ t ∈ (q.tq cpu).run, (q.task t).state = .run ∨ (q.task t).state = .idle)
    (hloop : safeFor (edfPickTurn tick now this) (2 * (q.tq cpu).run.length + 1)
      ⟨q.task, q.freed, false⟩ [] (q.tq cpu).run =
        some (st, Q.map (·.task) ++ edfUnmet tick now q.task (q.tq cpu).run))
    (hover : EdfOver tick now q.task this (q.tq cpu).run st Q)
    (hhead : Q.head? =
      (edfContest tick now q.task).front (edfVisits tick now q.task (q.tq cpu).run))
    (hkept : ∀ t ∈ edfAgain tick now q.task (q.tq cpu).run, edfKept this q.task t = true) :
    ∃ q' first, EdfLeft tick q cpu now this q' first := by
  have hperm := hover.perm.mpr hkept
  rcases hQ : Q.map (·.task) ++ edfUnmet tick now q.task (q.tq cpu).run with _ | ⟨first, rest⟩
  · rw [hQ] at hperm
    exact absurd hperm.nil_eq.symm hne
  rw [hQ] at hloop hperm
  refine ⟨{ q with task := st.task, freed := st.freed }.setTq cpu
    { q.tq cpu with run := first :: rest }, first, edfPickNext_eq hne hloop hover.stands.calm rfl,
    by simpa using hperm, fun u hu => hover.not_busy hkept (hstate u hu) hu,
    fun u hu => hover.due hkept htick hu, fun u hu => hover.wakeup hkept hu,
    fun u hu => hover.deadline hkept hu, ?_⟩
  rw [← hhead]
  cases Q with
  | nil =>
    -- a single task, in its next period
    have hmem : first ∈ edfUnmet tick now q.task (q.tq cpu).run := by
      have h : edfUnmet tick now q.task (q.tq cpu).run = first :: rest := hQ
      rw [h]
      exact List.mem_cons_self
    change (st.task first).state ≠ .run
    rw [hover.stands.moved first hmem, edfNext_of_spent (edfUnmet_spent hmem)]
    exact edfRenewed_state _
  | cons m Q =>
    obtain ⟨rfl, -⟩ := List.cons_eq_cons.mp hQ
    refine ⟨rfl, ?_⟩
    change (st.task m.task).state = .run ↔ _
    rw [hover.stands.passed m List.mem_cons_self, edfAfter_state]

section Left

variable {first : Nat}

/-- When nothing is picked, what is asked is that no task is due. -/
theorem EdfLeft.earliest_none (h : EdfLeft tick q cpu now this q' first)
    (hrun : (q'.task first).state ≠ .run) : EdfPicksEarliest tick q cpu now this ↔
      ∀ u ∈ (q.tq cpu).run, ¬ EdfEligible tick now q.task (q.tq cpu).run u := by
  have hres := h.result
  rw [if_neg hrun] at hres
  rw [edfPicksEarliest_none hres h.not_busy h.perm]
  exact forall₂_congr fun u hu => not_congr (h.due u hu)

/-- When a task is picked, what is asked is that its time has come, and that it has the earliest
deadline of those that are due. -/
theorem EdfLeft.earliest_some (h : EdfLeft tick q cpu now this q' first)
    (hmem : first ∈ (q.tq cpu).run) (hrun : (q'.task first).state = .run) :
    EdfPicksEarliest tick q cpu now this ↔ (edfNext tick now (q.task first)).wakeup ≤ now ∧
      ∀ u ∈ (q.tq cpu).run, EdfEligible tick now q.task (q.tq cpu).run u →
        (edfNext tick now (q.task first)).deadline ≤ (edfNext tick now (q.task u)).deadline := by
  have hres := h.result
  rw [if_pos hrun] at hres
  rw [edfPicksEarliest_some hmem hrun hres h.not_busy h.perm, h.wakeup first hmem,
    h.deadline first hmem]
  refine and_congr_right fun _ => forall₂_congr fun u hu => ?_
  rw [h.due u hu, h.deadline u hu]

end Left

/-- **When `edf_pick_next` picks the earliest deadline.** -/
theorem edf_pick_next_earliest_iff (tick : Nat) (q : Queues) (cpu : Nat) (now : Int)
    (this : Option Nat) (hnd : (q.tq cpu).run.Nodup)
    (hstate : ∀ t ∈ (q.tq cpu).run, (q.task t).state = .run ∨ (q.task t).state = .idle)
    (htrap : EdfNoTrap tick q cpu now) :
    EdfPicksEarliest tick q cpu now this ↔ EdfPickOk tick q cpu now this := by
  have htick : (0 : Int) ≤ tick := Int.natCast_nonneg tick
  by_cases hne : (q.tq cpu).run = []
  case pos =>
    -- an empty queue
    have hvisits : edfVisits tick now q.task (q.tq cpu).run = [] := by
      simp [hne, edfVisits, edfFirstVisits, edfAgain]
    refine iff_of_true ⟨none, q, by simp [edfPickNext, hne], by simp [hne]⟩ ⟨?_, ?_, ?_, ?_⟩
    · simp [hne, edfAgain]
    · simp [hne]
    · simp [hvisits]
    · simp [hvisits]
  obtain ⟨st, Q, hloop, hover, hhead⟩ := edfPick_loop this htick hnd hne
    (fun u hu => ⟨hstate u hu, htrap u hu⟩) q.freed
  by_cases hkept : ∀ t ∈ edfAgain tick now q.task (q.tq cpu).run, edfKept this q.task t = true
  case neg => exact iff_of_false (hover.not_earliest hne hloop hkept) fun hok => hkept hok.kept
  obtain ⟨q', first, hleft⟩ := hover.left htick hne hstate hloop (hhead hkept) hkept
  have hfirst := hleft.head
  cases hV : edfVisits tick now q.task (q.tq cpu).run with
  | nil =>
    have hunheard : ∀ e, ¬ EdfHeard tick q cpu now e := by
      intro e he
      have h := he.mem
      rw [hV] at h
      cases h
    rw [hV] at hfirst
    rw [hleft.earliest_none hfirst, edfPickOk_of_unheard hkept hunheard (by simp [hV])]
  | cons l E =>
    have hndV : (edfVisits tick now q.task (q.tq cpu).run).Nodup := edfVisits_nodup hnd
    rw [hV] at hfirst hndV
    have hspec := Contest.first_spec (c := edfContest tick now q.task) l E hndV
    have hmemV := Contest.first_mem (c := edfContest tick now q.task) l E
    rw [← hV] at hspec hmemV
    obtain ⟨htask, hrun⟩ := hfirst
    revert hspec hmemV htask hrun
    generalize (edfContest tick now q.task).first l E = m
    rintro hspec hmemV rfl hrun
    have hmrun := mem_edfVisits hmemV
    rcases hspec with ⟨rfl, hunheard⟩ | ⟨hheard, hbefore⟩
    · have hbids : ¬ (edfContest tick now q.task).bids m = true := by
        refine fun hb => hunheard m ⟨⟨hmemV, hb⟩, fun l hl => ?_⟩
        rw [hV] at hl
        cases hl
        exact .inl hb
      by_cases hup : (edfContest tick now q.task).up m = true
      · -- a task in state `RUN` is picked before its time
        have hrunning := hrun.mpr (.inr hup)
        refine iff_of_false (fun hearliest => ?_) fun hok => ?_
        · have htime := ((hleft.earliest_some hmrun hrunning).mp hearliest).1
          rw [← hleft.wakeup m.task hmrun] at htime
          exact hbids (((hleft.due m.task hmrun).mp ⟨hrunning, htime⟩).bids hmemV hup)
        · rcases hok.asleep with ⟨e, -, he⟩ | hall
          · exact hunheard e he
          · rw [hall m (by rw [hV]; rfl)] at hup
            cases hup
      · -- the first task stays at the head, and is asleep
        have hasleep : ∀ l ∈ (edfVisits tick now q.task (q.tq cpu).run).head?,
            (edfContest tick now q.task).up l = false := by
          intro l hl
          rw [hV] at hl
          cases hl
          exact Bool.not_eq_true _ ▸ hup
        rw [hleft.earliest_none (fun h => (hrun.mp h).elim hbids hup),
          edfPickOk_of_unheard hkept hunheard hasleep]
    · -- a task that is heard is at the head
      have hrunning := hrun.mpr (.inl hheard.bids)
      have hdue : (edfNext tick now (q.task m.task)).wakeup ≤ now →
          EdfEligible tick now q.task (q.tq cpu).run m.task := by
        intro htime
        rw [← hleft.wakeup m.task hmrun] at htime
        exact (hleft.due m.task hmrun).mp ⟨hrunning, htime⟩
      rw [hleft.earliest_some hmrun hrunning, edfPickOk_of_heard hkept hheard hbefore hdue]

end Pick

/-! ## 4. Two queues -/

instance (tick : Int) (q : Queues) (cpu : Nat) (now : Int) : Decidable (EdfNoTrap tick q cpu now) :=
  inferInstanceAs (Decidable (∀ t ∈ (q.tq cpu).run, _ → _))

/-- A periodic task of 20 in 100, to be done after 60. -/
def edfTaskOf (state : TaskState) (wakeup runtime : Int) : TaskStruct where
  state := state
  onCpu := some 0
  sched := some .edf
  attr := ⟨.edf, 0, 100, 20, 60⟩
  runtime := runtime
  wakeup := wakeup
  deadline := wakeup + 60
  wakeupFirst := 0
  execStart := 0
  execStop := 0
  total := 0
  slices := 0
  runOnce := false
  noClean := false

/-- Tasks in the run queue of the first CPU. -/
def edfQueuesOf (tasks : List TaskStruct) : Queues where
  task := fun u => tasks.getD u (edfTaskOf .new 0 0)
  tq := fun cpu => ⟨[], if cpu = 0 then List.range tasks.length else [], [], []⟩
  freed := []

/-- One that is through with its period, the next of which begins at once; one that is asleep, one that
goes on, one that is woken; and the current one, which runs only once and is through. -/
def edfMixed : Queues :=
  edfQueuesOf [edfTaskOf .run (-50) 1, edfTaskOf .idle 150 20, edfTaskOf .run 40 9,
    edfTaskOf .idle 49 20, { edfTaskOf .run 0 1 with runOnce := true }]

/-- The one that goes on has to be done by 100, the one that is asleep by 90. -/
def edfOverslept : Queues :=
  edfQueuesOf [{ edfTaskOf .idle 70 5 with attr := ⟨.edf, 0, 100, 5, 20⟩, deadline := 90 },
    edfTaskOf .run 40 9]

theorem edf_pick_next_earliest_mixed :
    EdfPicksEarliest ((1 : Nat) : Int) edfMixed 0 50 (some 4) :=
  (edf_pick_next_earliest_iff 1 edfMixed 0 50 (some 4) (by decide) (by decide) (by decide)).mpr
    ⟨by decide, by decide, by decide, by decide⟩

/-- **A sleeping head hides the task that is due**: nothing is picked. -/
theorem edf_pick_next_oversleeps :
    (edfOverslept.tq 0).run.Nodup ∧
      (∀ t ∈ (edfOverslept.tq 0).run,
        (edfOverslept.task t).state = .run ∨ (edfOverslept.task t).state = .idle) ∧
      EdfNoTrap 1 edfOverslept 0 50 ∧ ¬ EdfPicksEarliest 1 edfOverslept 0 50 none := by
  refine ⟨by decide, by decide, by decide, ?_⟩
  rintro ⟨next, q', hres, hnone, -⟩
  have hrun : (edfPickNext 1 edfOverslept 0 50 none).map (fun r => (r.1, (r.2.task 1).state,
      (r.2.task 1).wakeup)) = .ok (none, .run, 40) := by decide
  rw [hres] at hrun
  injection hrun with hrun
  simp only [Prod.mk.injEq] at hrun
  obtain ⟨h1, h2, h3⟩ := hrun
  exact hnone.mp h1 1 (by decide) ⟨.inl h2, by rw [h3]; decide⟩

end FlightOs
