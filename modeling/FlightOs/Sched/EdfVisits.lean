/-
# The order in which `edf_pick_next` meets the tasks

The loop of `edf_pick_next` goes through the run queue, and keeps the task to pick at its head: each task
it meets that can run is moved there when its deadline is before that of the head.

A task that is through with its period (`edfSpent`) is moved to the tail, with its next one or, if it
runs only once, in state `DEAD`, and is met again there.  But if its next period begins at once, or it
runs only once and its time has come, it is compared with the head first: with a task that the loop has
not come to yet, if nothing has stayed in place before.

So the tasks are met in the order of the queue, and those that were moved to the tail once more
(`edfVisits`).  What each of them asks for depends on its own times only (`edfContest`), and which one is
at the head in the end is a matter of contests in general.

* `edfPickTurn_spent`, `edfPickTurn_visit`: what one turn of the loop does.
* `edfPick_lead`, `edfPick_first`, `edfPick_again`: the loop until a task stays in place, the rest of
  the queue, and the tasks that are met again.
* `edfPick_loop`: the whole loop.
-/
import FlightOs.Sched.Edf
import FlightOs.Lib.Front
import Mathlib.Data.List.TakeWhile

namespace FlightOs

/-! ## 1. Kinds of tasks -/

/-- A task that is woken; this can be up to two ticks ahead of its time. -/
def edfWakes (tick now : Int) (tsk : TaskStruct) : Bool :=
  decide (tsk.state = .idle) && decide (tsk.wakeup - now ≤ 2 * tick)

/-- A task that can go on. -/
def edfReady (tick now : Int) (tsk : TaskStruct) : Bool :=
  decide (tsk.state = .run) && decide (tsk.wakeup ≤ now) && scheduleEdfCanExecute tick tsk now

/-- A task that is through with its period. -/
def edfSpent (tick now : Int) (tsk : TaskStruct) : Bool :=
  decide (tsk.state = .run) && decide (tsk.wakeup - now ≤ 2 * tick) &&
    !scheduleEdfCanExecute tick tsk now

/-- The next period of a task; one that runs only once has none. -/
def edfRenewed (tsk : TaskStruct) : TaskStruct :=
  if tsk.runOnce then { tsk with state := .dead }
  else { tsk with
    state := .idle
    wakeup := tsk.wakeup + tsk.attr.period
    deadline := tsk.wakeup + tsk.attr.period + tsk.attr.deadlineRel
    runtime := tsk.attr.wcet
    slices := tsk.slices + 1 }

/-- A task with its period looked after. -/
def edfNext (tick now : Int) (tsk : TaskStruct) : TaskStruct :=
  if edfSpent tick now tsk then edfRenewed tsk else tsk

/-- A task that is through with its period, and the next one begins at once, or there is none. -/
def edfStarts (tick now : Int) (tsk : TaskStruct) : Bool :=
  edfSpent tick now tsk && decide ((edfRenewed tsk).wakeup ≤ now)

/-- The reinitialisation of a task does not trap. -/
def EdfCalm (tick now : Int) (tsk : TaskStruct) : Prop :=
  edfSpent tick now tsk →
    tsk.runtime ≠ tsk.attr.wcet ∧ now ≤ tsk.wakeup + tsk.attr.period

/-- No reinitialisation traps. -/
def EdfNoTrap (tick : Int) (q : Queues) (cpu : Nat) (now : Int) : Prop :=
  ∀ t ∈ (q.tq cpu).run, EdfCalm tick now (q.task t)

section Kinds

variable {tick now : Int} {tsk : TaskStruct}

theorem edfWakes_iff :
    edfWakes tick now tsk = true ↔ tsk.state = .idle ∧ tsk.wakeup - now ≤ 2 * tick := by
  simp [edfWakes]

theorem edfReady_iff : edfReady tick now tsk = true ↔
    (tsk.state = .run ∧ tsk.wakeup ≤ now) ∧ scheduleEdfCanExecute tick tsk now = true := by
  simp [edfReady]

theorem edfSpent_iff : edfSpent tick now tsk = true ↔
    (tsk.state = .run ∧ tsk.wakeup - now ≤ 2 * tick) ∧
      scheduleEdfCanExecute tick tsk now = false := by
  simp [edfSpent]

theorem edfReady_not_wakes (h : edfReady tick now tsk = true) : edfWakes tick now tsk = false := by
  have h1 := edfReady_iff.mp h
  rw [← Bool.not_eq_true, edfWakes_iff]
  rintro ⟨h2, -⟩
  simp [h1.1.1] at h2

theorem edfSpent_not_ready (h : edfSpent tick now tsk = true) : edfReady tick now tsk = false := by
  rw [← Bool.not_eq_true, edfReady_iff]
  rintro ⟨-, h2⟩
  simp [(edfSpent_iff.mp h).2] at h2

theorem edfSpent_not_wakes (h : edfSpent tick now tsk = true) : edfWakes tick now tsk = false := by
  rw [← Bool.not_eq_true, edfWakes_iff]
  rintro ⟨h2, -⟩
  simp [(edfSpent_iff.mp h).1.1] at h2

theorem edfNext_of_spent (h : edfSpent tick now tsk = true) :
    edfNext tick now tsk = edfRenewed tsk := if_pos h

theorem edfNext_not_spent (h : edfSpent tick now tsk = false) : edfNext tick now tsk = tsk :=
  if_neg (by simp [h])

theorem edfStarts_not_spent (h : edfSpent tick now tsk = false) : edfStarts tick now tsk = false := by
  simp [edfStarts, h]

theorem edfRenewed_state (tsk : TaskStruct) : (edfRenewed tsk).state ≠ .run := by
  unfold edfRenewed
  split <;> simp

/-- A task in state `RUN` whose time has come can go on, or is through with its period. -/
theorem edfReady_of_run (htick : 0 ≤ tick) (hspent : edfSpent tick now tsk = false)
    (hrun : tsk.state = .run) (hdue : tsk.wakeup ≤ now) : edfReady tick now tsk = true := by
  refine edfReady_iff.mpr ⟨⟨hrun, hdue⟩, ?_⟩
  rw [← Bool.not_eq_false]
  intro hexec
  rw [edfSpent_iff.mpr ⟨⟨hrun, by omega⟩, hexec⟩] at hspent
  cases hspent

/-- A task with its period looked after is not through with it. -/
theorem edfNext_fresh : edfSpent tick now (edfNext tick now tsk) = false := by
  by_cases h : edfSpent tick now tsk = true
  · rw [edfNext_of_spent h, ← Bool.not_eq_true, edfSpent_iff]
    exact fun h1 => edfRenewed_state tsk h1.1.1
  · rw [Bool.not_eq_true] at h
    rwa [edfNext_not_spent h]

end Kinds

/-! ## 2. The visits -/

/-- A task is met, for the first time or again. -/
structure EdfVisit where
  task : Nat
  again : Bool
  deriving DecidableEq, Repr

section Visits

variable (tick now : Int) (τ : Nat → TaskStruct) (run : List Nat)

/-- What a task asks for when it is met.  It bids if it is compared with the head: because it can go
on, is woken, or its next period begins at once. -/
def edfContest : Contest EdfVisit Int where
  bids e := if e.again then edfWakes tick now (edfNext tick now (τ e.task))
    else edfReady tick now (τ e.task) || edfWakes tick now (τ e.task) || edfStarts tick now (τ e.task)
  wakes e := edfWakes tick now (if e.again then edfNext tick now (τ e.task) else τ e.task)
  up e := decide ((edfNext tick now (τ e.task)).state = .run)
  key e := (edfNext tick now (τ e.task)).deadline
  bids_of_wakes := by
    rintro ⟨t, again⟩ h
    cases again
    · have h' : edfWakes tick now (τ t) = true := h
      simp [h']
    · exact h

/-- The deadline that a task is compared with as long as nothing has stayed in place: that of the
task behind it, or that of the first task, which is at the tail by then. -/
def edfBehind (t : Nat) : Int :=
  match run[run.idxOf t + 1]? with
  | some u => (τ u).deadline
  | none => (edfNext tick now (τ (run.headD t))).deadline

/-- The task stays in place, even if nothing has before. -/
def edfLeads (t : Nat) : Bool :=
  !edfSpent tick now (τ t) ||
    edfStarts tick now (τ t) && decide ((edfNext tick now (τ t)).deadline < edfBehind tick now τ run t)

/-- The first visits, from that of the first task that stays in place. -/
def edfFirstVisits : List EdfVisit :=
  (run.dropWhile fun t => !edfLeads tick now τ run t).map (EdfVisit.mk · false)

/-- A task that is through with its period goes to the head at once: it is heard, and has the least
deadline so far. -/
def EdfRises (t : Nat) : Prop :=
  edfSpent tick now (τ t) = true ∧
    (edfContest tick now τ).Heard (edfFirstVisits tick now τ run) ⟨t, false⟩ ∧
    ∀ b ∈ edfFirstVisits tick now τ run,
      (edfContest tick now τ).Heard (edfFirstVisits tick now τ run) b →
      (edfFirstVisits tick now τ run).idxOf b < (edfFirstVisits tick now τ run).idxOf ⟨t, false⟩ →
        (edfContest tick now τ).key ⟨t, false⟩ < (edfContest tick now τ).key b

instance (t : Nat) : Decidable (EdfRises tick now τ run t) :=
  inferInstanceAs (Decidable (_ ∧ _))

/-- A task is moved to the tail. -/
def edfLeaves (t : Nat) : Bool := edfSpent tick now (τ t) && !decide (EdfRises tick now τ run t)

/-- The tasks that are met again: those moved to the tail, unless it is only the last one. -/
def edfAgain : List Nat :=
  if run.filter (edfLeaves tick now τ run) = run.getLast?.toList then []
  else run.filter (edfLeaves tick now τ run)

/-- The one that is not. -/
def edfUnmet : List Nat :=
  if run.filter (edfLeaves tick now τ run) = run.getLast?.toList then
    run.filter (edfLeaves tick now τ run)
  else []

/-- All visits, from that of the first task that stays in place. -/
def edfVisits : List EdfVisit :=
  edfFirstVisits tick now τ run ++ (edfAgain tick now τ run).map (EdfVisit.mk · true)

/-- The task can run in the end, and its time has come. -/
def EdfEligible (t : Nat) : Prop :=
  (edfNext tick now (τ t)).wakeup ≤ now ∧
    if edfSpent tick now (τ t) = true then
      EdfRises tick now τ run t ∨
        t ∈ edfAgain tick now τ run ∧ edfWakes tick now (edfNext tick now (τ t)) = true
    else edfReady tick now (τ t) = true ∨ edfWakes tick now (τ t) = true

instance (t : Nat) : Decidable (EdfEligible tick now τ run t) :=
  inferInstanceAs (Decidable (_ ∧ _))

/-- What a task is after a visit, when it stays in place. -/
def edfAfter (e : EdfVisit) : TaskStruct :=
  if (edfContest tick now τ).bids e then { edfNext tick now (τ e.task) with state := .run }
  else edfNext tick now (τ e.task)

end Visits

section Contest

variable {tick now : Int} {τ : Nat → TaskStruct} {run : List Nat} {t : Nat} {e : EdfVisit}

theorem edfContest_bids_spent (h : edfSpent tick now (τ t) = true) :
    (edfContest tick now τ).bids ⟨t, false⟩ = edfStarts tick now (τ t) := by
  simp [edfContest, edfSpent_not_ready h, edfSpent_not_wakes h]

theorem edfContest_bids_first (h : edfSpent tick now (τ t) = false) :
    (edfContest tick now τ).bids ⟨t, false⟩ =
      (edfReady tick now (τ t) || edfWakes tick now (τ t)) := by
  simp [edfContest, edfStarts_not_spent h]

theorem edfContest_wakes_spent (h : edfSpent tick now (τ t) = true) :
    (edfContest tick now τ).wakes ⟨t, false⟩ = false := edfSpent_not_wakes h

theorem edfAfter_state :
    (edfAfter tick now τ e).state = .run ↔
      (edfContest tick now τ).bids e = true ∨ (edfContest tick now τ).up e = true := by
  unfold edfAfter
  split
  case isTrue h => simp [h]
  case isFalse h =>
    rw [or_iff_right h]
    exact decide_eq_true_iff.symm

@[simp] theorem edfAfter_deadline :
    (edfAfter tick now τ e).deadline = (edfContest tick now τ).key e := by
  unfold edfAfter
  split <;> rfl

@[simp] theorem edfAfter_wakeup :
    (edfAfter tick now τ e).wakeup = (edfNext tick now (τ e.task)).wakeup := by
  unfold edfAfter
  split <;> rfl

end Contest

/-! ## 3. One turn -/

section Turn

variable {tick now : Int} {this : Option Nat} {st : EdfScan} {R : List Nat} {t : Nat}

theorem EdfScan.set_same (st : EdfScan) (t : Nat) : st.set t (st.task t) = st := by
  simp [EdfScan.set]

theorem EdfScan.set_set (st : EdfScan) (t : Nat) (tsk tsk' : TaskStruct) :
    (st.set t tsk).set t tsk' = st.set t tsk' := by
  simp [EdfScan.set]

@[simp] theorem EdfScan.set_task (st : EdfScan) (t : Nat) (tsk : TaskStruct) :
    (st.set t tsk).task t = tsk := Function.update_self ..

theorem EdfScan.set_task_other (st : EdfScan) (tsk : TaskStruct) {t u : Nat} (h : u ≠ t) :
    (st.set t tsk).task u = st.task u := Function.update_of_ne h ..

theorem scheduleEdfReinitTask_ok {tsk : TaskStruct} (htrap : tsk.runtime ≠ tsk.attr.wcet)
    (hlate : now ≤ tsk.wakeup + tsk.attr.period) :
    scheduleEdfReinitTask tsk now = .ok (edfRenewed tsk) := by
  unfold scheduleEdfReinitTask edfRenewed
  rw [if_neg htrap]
  dsimp only
  rw [if_neg (not_lt.mpr hlate)]
  split <;> rfl

/-- **A task that is through with its period** goes to the tail, or to the head if its time has come
and its deadline is before that of the task that is there. -/
theorem edfPickTurn_spent (this : Option Nat) (P R : List Nat)
    (h : edfSpent tick now (st.task t) = true) (hcalm : EdfCalm tick now (st.task t)) :
    let tsk := edfRenewed (st.task t)
    let first := ((Relink.tail.after P t R).1 ++ (Relink.tail.after P t R).2).headD t
    edfPickTurn tick now this st P t R =
      if edfStarts tick now (st.task t) = true ∧ tsk.deadline < ((st.set t tsk).task first).deadline
      then ⟨st.set t { tsk with state := .run }, .head, false⟩ else ⟨st.set t tsk, .tail, false⟩ := by
  obtain ⟨⟨hrun, hnear⟩, hexec⟩ := edfSpent_iff.mp h
  obtain ⟨htrap, hlate⟩ := hcalm h
  have hrefresh : edfRefresh tick (st.task t) now = .ok (edfRenewed (st.task t), .tail) := by
    simp [edfRefresh, hexec, scheduleEdfReinitTask_ok htrap hlate]
  have hstarts : edfStarts tick now (st.task t) = true ↔ ¬ now < (edfRenewed (st.task t)).wakeup := by
    simp [edfStarts, h]
  simp only [edfPickTurn, if_neg (not_lt.mpr hnear), if_pos hrun, hrefresh, EdfScan.set_set]
  by_cases hnow : now < (edfRenewed (st.task t)).wakeup
  · rw [if_pos hnow, if_neg (fun hc => hstarts.mp hc.1 hnow)]
  rw [if_neg hnow]
  split
  case isTrue hlt => rw [if_pos ⟨hstarts.mpr hnow, hlt⟩]
  case isFalse hle => rw [if_neg (fun hc => hle hc.2)]

/-- A task that is not due stays behind. -/
theorem edfPickTurn_stay (P : List Nat) (hstate : (st.task t).state = .run ∨ (st.task t).state = .idle)
    (hspent : edfSpent tick now (st.task t) = false) (hready : edfReady tick now (st.task t) = false)
    (hwakes : edfWakes tick now (st.task t) = false) :
    edfPickTurn tick now this st P t R = ⟨st, .stay, false⟩ := by
  by_cases hfar : 2 * tick < (st.task t).wakeup - now
  · simp only [edfPickTurn, if_pos hfar]
  have hidle : (st.task t).state ≠ .idle := by
    intro hidle
    rw [edfWakes_iff.mpr ⟨hidle, not_lt.mp hfar⟩] at hwakes
    cases hwakes
  have hrun := hstate.resolve_right hidle
  have hexec : scheduleEdfCanExecute tick (st.task t) now = true := by
    rw [← Bool.not_eq_false]
    intro hexec
    rw [edfSpent_iff.mpr ⟨⟨hrun, not_lt.mp hfar⟩, hexec⟩] at hspent
    cases hspent
  have hdue : now < (st.task t).wakeup := by
    by_contra hdue
    rw [edfReady_iff.mpr ⟨⟨hrun, not_lt.mp hdue⟩, hexec⟩] at hready
    cases hready
  have hrefresh : edfRefresh tick (st.task t) now = .ok (st.task t, .stay) := by
    simp [edfRefresh, hexec]
  simp only [edfPickTurn, if_neg hfar, if_pos hrun, hrefresh, EdfScan.set_same, if_pos hdue]

/-- A task that can go on is compared with the head. -/
theorem edfPickTurn_ready (P : List Nat) (htick : 0 ≤ tick) (h : edfReady tick now (st.task t) = true) :
    edfPickTurn tick now this st P t R =
      ⟨st, if (st.task t).deadline < (st.task ((P ++ t :: R).headD t)).deadline then .head
        else .stay, false⟩ := by
  obtain ⟨⟨hrun, hdue⟩, hexec⟩ := edfReady_iff.mp h
  have hrefresh : edfRefresh tick (st.task t) now = .ok (st.task t, .stay) := by
    simp [edfRefresh, hexec]
  have hset : (st.task t) = { st.task t with state := .run } := by rw [← hrun]
  simp only [edfPickTurn, if_neg (show ¬ 2 * tick < (st.task t).wakeup - now by omega),
    if_pos hrun, hrefresh, EdfScan.set_same, Relink.after_stay, List.append_assoc,
    List.singleton_append, if_neg (not_lt.mpr hdue)]
  rw [← hset, EdfScan.set_same]
  split <;> rfl

/-- A task that is woken is compared with the head. -/
theorem edfPickTurn_wakes (P : List Nat) (h : edfWakes tick now (st.task t) = true) :
    edfPickTurn tick now this st P t R =
      (let st' := st.set t { st.task t with state := .run }
      let first := st'.task ((P ++ t :: R).headD t)
      ⟨st', if first.state ≠ .run ∨ (st.task t).deadline < first.deadline then .head else .stay,
        false⟩) := by
  obtain ⟨hidle, hdue⟩ := edfWakes_iff.mp h
  simp only [edfPickTurn, if_neg (not_lt.mpr hdue),
    if_neg (show (st.task t).state ≠ .run by simp [hidle]), if_pos hidle]
  split
  case isTrue hnot => rw [if_pos (.inl hnot)]
  case isFalse hrun =>
    split
    case isTrue hlt => rw [if_pos (.inr hlt)]
    case isFalse hle => rw [if_neg (not_or.mpr ⟨hrun, hle⟩)]

/-- A task in state `DEAD` stays if it is the current one, and is taken off the queue otherwise. -/
theorem edfPickTurn_dead (this : Option Nat) (P R : List Nat) (hdead : (st.task t).state = .dead)
    (hnear : (st.task t).wakeup - now ≤ 2 * tick) :
    edfPickTurn tick now this st P t R =
      if this = some t then ⟨st, .stay, false⟩
      else ⟨{ st with freed := st.freed ++ [t] }, .out, false⟩ := by
  simp [edfPickTurn, not_lt.mpr hnear, hdead]

/-- The entry goes to the head, or stays behind, as `Contest.place` has it. -/
theorem Contest.place_link {c : Contest EdfVisit Int} {P : List EdfVisit} {e : EdfVisit}
    (R : List Nat) (p : Prop) [Decidable p] (hp : p ↔ ∃ h ∈ P.head?, c.goes e h = true) :
    (if p then Relink.head else Relink.stay).after (P.map (·.task)) e.task R =
      ((c.place P e).map (·.task), R) := by
  cases P with
  | nil =>
    rw [if_neg (fun h => by simpa using hp.mp h)]
    rfl
  | cons h P =>
    by_cases hgo : c.goes e h = true
    · rw [if_pos (hp.mpr ⟨h, rfl, hgo⟩)]
      simp [Contest.place, hgo]
    · rw [if_neg (fun hh => by
        obtain ⟨h', h1, h2⟩ := hp.mp hh
        cases h1
        exact hgo h2)]
      simp [Contest.place, hgo]

/-- **A task that is met**, and not through with its period, bids for the head if it can go on or is
woken.  Of the tasks before it, the first one is looked at. -/
theorem edfPickTurn_visit (this : Option Nat) (R : List Nat) (htick : 0 ≤ tick)
    {c : Contest EdfVisit Int} {P : List EdfVisit} {e : EdfVisit}
    (hstate : (st.task e.task).state = .run ∨ (st.task e.task).state = .idle)
    (hspent : edfSpent tick now (st.task e.task) = false)
    (hbids : c.bids e = (edfReady tick now (st.task e.task) || edfWakes tick now (st.task e.task)))
    (hwakes : c.wakes e = edfWakes tick now (st.task e.task))
    (hkey : c.key e = (st.task e.task).deadline)
    (hfirst : ∀ h ∈ P, h.task ≠ e.task ∧
      ((st.task h.task).state = .run ↔ c.bids h = true ∨ c.up h = true) ∧
      (st.task h.task).deadline = c.key h) :
    ∃ link, edfPickTurn tick now this st (P.map (·.task)) e.task R =
        ⟨st.set e.task (if c.bids e then { st.task e.task with state := .run } else st.task e.task),
          link, false⟩ ∧
      link.after (P.map (·.task)) e.task R = ((c.place P e).map (·.task), R) := by
  by_cases hready : edfReady tick now (st.task e.task) = true
  · -- a task that can go on
    have hnot := edfReady_not_wakes hready
    have hb : c.bids e = true := by rw [hbids, hready, Bool.true_or]
    have hsame : { st.task e.task with state := .run } = st.task e.task := by
      rw [← (edfReady_iff.mp hready).1.1]
    rw [if_pos hb, hsame, EdfScan.set_same]
    refine ⟨_, edfPickTurn_ready _ htick hready, Contest.place_link R _ ?_⟩
    cases P with
    | nil => simp
    | cons h P =>
      obtain ⟨-, -, hd⟩ := hfirst h List.mem_cons_self
      simp [Contest.goes, hb, hwakes, hnot, hkey, hd]
  rw [Bool.not_eq_true] at hready
  by_cases hwake : edfWakes tick now (st.task e.task) = true
  · -- a task that is woken
    have hb : c.bids e = true := by rw [hbids, hwake, Bool.or_true]
    rw [if_pos hb]
    refine ⟨_, edfPickTurn_wakes _ hwake, Contest.place_link R _ ?_⟩
    cases P with
    | nil => simp
    | cons h P =>
      obtain ⟨hne, hs, hd⟩ := hfirst h List.mem_cons_self
      simp [Contest.goes, hb, hwakes, hwake, hkey, EdfScan.set_task_other _ _ hne, hs, hd]
  · -- not compared
    rw [Bool.not_eq_true] at hwake
    have hb : c.bids e = false := by rw [hbids, hready, hwake, Bool.or_false]
    rw [if_neg (by simp [hb]), EdfScan.set_same]
    refine ⟨.stay, edfPickTurn_stay _ hstate hspent hready hwake, ?_⟩
    refine Contest.place_link R False ⟨False.elim, ?_⟩
    rintro ⟨h, -, hgo⟩
    simp [Contest.goes, hb] at hgo

end Turn

/-! ## 4. The loop -/

section Loop

variable {tick now : Int} {this : Option Nat} {τ : Nat → TaskStruct} {run : List Nat}
  {st : EdfScan} {P : List EdfVisit} {B X : List Nat} {t : Nat} {h : EdfVisit}

/-- What `edf_pick_next` takes for granted of a task. -/
def EdfSound (tick now : Int) (tsk : TaskStruct) : Prop :=
  (tsk.state = .run ∨ tsk.state = .idle) ∧ EdfCalm tick now tsk

/-- Where the loop stands: behind the visits `P`, the tasks `B` have not been met yet, and `X` have been
moved to the tail. -/
structure EdfStands (tick now : Int) (τ : Nat → TaskStruct) (st : EdfScan) (P : List EdfVisit)
    (B X : List Nat) : Prop where
  distinct : (P.map (·.task) ++ (B ++ X)).Nodup
  passed : ∀ e ∈ P, st.task e.task = edfAfter tick now τ e
  before : ∀ u ∈ B, st.task u = τ u
  moved : ∀ u ∈ X, st.task u = edfNext tick now (τ u)
  calm : st.trapped = false

/-- The next task is none of the others. -/
theorem EdfStands.next_apart (hat : EdfStands tick now τ st P (t :: B) X) :
    (∀ e ∈ P, e.task ≠ t) ∧ t ∉ B ∧ t ∉ X := by
  obtain ⟨-, hBX, hdisj⟩ := List.nodup_append.mp hat.distinct
  obtain ⟨ht, -⟩ := List.nodup_cons.mp hBX
  obtain ⟨htB, htX⟩ := not_or.mp fun h => ht (List.mem_append.mpr h)
  refine ⟨fun e he heq => ?_, htB, htX⟩
  exact hdisj e.task (List.mem_map_of_mem he) t List.mem_cons_self heq

/-- A task that was moved to the tail is none of the others. -/
theorem EdfStands.again_apart (hat : EdfStands tick now τ st P [] (t :: X)) :
    (∀ e ∈ P, e.task ≠ t) ∧ t ∉ X := by
  obtain ⟨-, hX, hdisj⟩ := List.nodup_append.mp hat.distinct
  refine ⟨fun e he heq => ?_, (List.nodup_cons.mp hX).1⟩
  exact hdisj e.task (List.mem_map_of_mem he) t List.mem_cons_self heq

/-- The next task is left out. -/
theorem EdfStands.skip (hat : EdfStands tick now τ st P (t :: B) X) : EdfStands tick now τ st P B X where
  distinct := hat.distinct.sublist
    (List.Sublist.append (List.Sublist.refl _) (List.sublist_cons_self t (B ++ X)))
  passed := hat.passed
  before := fun u hu => hat.before u (List.mem_cons_of_mem _ hu)
  moved := hat.moved
  calm := hat.calm

/-- A task that was moved to the tail is taken off the queue. -/
theorem EdfStands.drop (hat : EdfStands tick now τ st P [] (t :: X)) (freed : List Nat) :
    EdfStands tick now τ { st with freed := freed } P [] X where
  distinct := hat.distinct.sublist
    (List.Sublist.append (List.Sublist.refl _) (List.sublist_cons_self t X))
  passed := hat.passed
  before := hat.before
  moved := fun u hu => hat.moved u (List.mem_cons_of_mem _ hu)
  calm := hat.calm

/-- A task in none of the three places makes no difference. -/
theorem EdfStands.set_apart (hat : EdfStands tick now τ st P B X) (hP : ∀ e ∈ P, e.task ≠ t)
    (hB : t ∉ B) (hX : t ∉ X) (tsk : TaskStruct) : EdfStands tick now τ (st.set t tsk) P B X where
  distinct := hat.distinct
  passed := fun e he => by
    rw [EdfScan.set_task_other _ _ (hP e he)]
    exact hat.passed e he
  before := fun u hu => by
    rw [EdfScan.set_task_other _ _ (ne_of_mem_of_not_mem hu hB)]
    exact hat.before u hu
  moved := fun u hu => by
    rw [EdfScan.set_task_other _ _ (ne_of_mem_of_not_mem hu hX)]
    exact hat.moved u hu
  calm := hat.calm

/-- A task in none of the three places has been met. -/
theorem EdfStands.pass {e : EdfVisit} {P' : List EdfVisit} (hat : EdfStands tick now τ st P B X)
    (hP : ∀ e' ∈ P, e'.task ≠ e.task) (hB : e.task ∉ B) (hX : e.task ∉ X)
    (hafter : st.task e.task = edfAfter tick now τ e) (hP' : P'.Perm (P ++ [e])) :
    EdfStands tick now τ st P' B X where
  distinct := by
    have hperm := (hP'.map (·.task)).append_right (B ++ X)
    refine hperm.nodup_iff.mpr ?_
    have hnot : e.task ∉ P.map (·.task) ++ (B ++ X) := by
      rintro h
      rcases List.mem_append.mp h with h | h
      · obtain ⟨e', he', heq⟩ := List.mem_map.mp h
        exact hP e' he' heq
      · exact (List.mem_append.mp h).elim hB hX
    rw [List.map_append, List.map_cons, List.map_nil, List.append_assoc]
    exact List.perm_middle.nodup_iff.mpr (List.nodup_cons.mpr ⟨hnot, hat.distinct⟩)
  passed := fun e' he' => by
    rcases List.mem_append.mp (hP'.mem_iff.mp he') with h | h
    · exact hat.passed e' h
    · rw [List.mem_singleton.mp h]
      exact hafter
  before := hat.before
  moved := hat.moved
  calm := hat.calm

/-- The next task is met, and stays in place. -/
theorem EdfStands.place (hat : EdfStands tick now τ st P (t :: B) X) {P' : List EdfVisit}
    (hP : P'.Perm (P ++ [⟨t, false⟩])) :
    EdfStands tick now τ (st.set t (edfAfter tick now τ ⟨t, false⟩)) P' B X := by
  obtain ⟨hne, htB, htX⟩ := hat.next_apart
  exact (hat.skip.set_apart hne htB htX _).pass hne htB htX (EdfScan.set_task ..) hP

/-- A task that was moved to the tail is met again, and stays in place. -/
theorem EdfStands.place_again (hat : EdfStands tick now τ st P [] (t :: X)) {P' : List EdfVisit}
    (hP : P'.Perm (P ++ [⟨t, true⟩])) :
    EdfStands tick now τ (st.set t (edfAfter tick now τ ⟨t, true⟩)) P' [] X := by
  obtain ⟨hne, htX⟩ := hat.again_apart
  have hnil : t ∉ ([] : List Nat) := List.not_mem_nil
  exact ((hat.drop st.freed).set_apart hne hnil htX _).pass hne hnil htX (EdfScan.set_task ..) hP

/-- The next task is moved to the tail. -/
theorem EdfStands.move (hat : EdfStands tick now τ st P (t :: B) X) :
    EdfStands tick now τ (st.set t (edfNext tick now (τ t))) P B (X ++ [t]) := by
  obtain ⟨hne, htB, htX⟩ := hat.next_apart
  have hrest := hat.skip.set_apart hne htB htX (edfNext tick now (τ t))
  refine ⟨?_, hrest.passed, hrest.before, fun u hu => ?_, hat.calm⟩
  · refine (List.Perm.append_left _ ?_).nodup_iff.mpr hat.distinct
    rw [← List.append_assoc]
    exact List.perm_append_singleton t (B ++ X)
  · rcases List.mem_append.mp hu with hu | hu
    · exact hrest.moved u hu
    · rw [List.mem_singleton.mp hu, EdfScan.set_task]

/-! ### One turn, where the loop stands -/

theorem edfContest_goes_spent (hspent : edfSpent tick now (τ t) = true) :
    (edfContest tick now τ).goes ⟨t, false⟩ h = true ↔ edfStarts tick now (τ t) = true ∧
      (edfRenewed (τ t)).deadline < (edfContest tick now τ).key h := by
  have hkey : (edfContest tick now τ).key ⟨t, false⟩ = (edfRenewed (τ t)).deadline := by
    simp [edfContest, edfNext_of_spent hspent]
  simp [Contest.goes, edfContest_bids_spent hspent, edfContest_wakes_spent hspent, hkey]

/-- A task that rises is in state `RUN` with its next period. -/
theorem edfAfter_starts (h : edfStarts tick now (τ t) = true) :
    { edfRenewed (τ t) with state := .run } = edfAfter tick now τ ⟨t, false⟩ := by
  have hspent : edfSpent tick now (τ t) = true := by
    simp only [edfStarts, Bool.and_eq_true] at h
    exact h.1
  rw [edfAfter, edfContest_bids_spent hspent, if_pos h, edfNext_of_spent hspent]

/-- What is known of the tasks that have been passed. -/
theorem EdfStands.heads (hat : EdfStands tick now τ st P (t :: B) X) : ∀ e ∈ P, e.task ≠ t ∧
    ((st.task e.task).state = .run ↔
      (edfContest tick now τ).bids e = true ∨ (edfContest tick now τ).up e = true) ∧
    (st.task e.task).deadline = (edfContest tick now τ).key e := by
  intro e he
  rw [hat.passed e he]
  exact ⟨hat.next_apart.1 e he, edfAfter_state, edfAfter_deadline⟩

/-- **A task that is not through with its period** is placed. -/
theorem EdfStands.turn_fresh (this : Option Nat) (htick : 0 ≤ tick)
    (hat : EdfStands tick now τ st P (t :: B) X) (hsound : EdfSound tick now (τ t))
    (hspent : edfSpent tick now (τ t) = false) :
    ∃ link, edfPickTurn tick now this st (P.map (·.task)) t (B ++ X) =
        ⟨st.set t (edfAfter tick now τ ⟨t, false⟩), link, false⟩ ∧
      link.after (P.map (·.task)) t (B ++ X) =
        (((edfContest tick now τ).place P ⟨t, false⟩).map (·.task), B ++ X) := by
  have ht : st.task t = τ t := hat.before t List.mem_cons_self
  have hnext := edfNext_not_spent hspent
  have hvisit := edfPickTurn_visit (c := edfContest tick now τ) (e := ⟨t, false⟩) this (B ++ X) htick
    (ht ▸ hsound.1) (ht ▸ hspent) (ht ▸ edfContest_bids_first hspent) (by rw [ht]; rfl)
    (by rw [ht]; exact congrArg TaskStruct.deadline hnext) hat.heads
  rw [ht] at hvisit
  rw [edfAfter, hnext]
  exact hvisit

/-- **A task that is through with its period**, behind a front: it is placed if it goes to the front,
and moved to the tail otherwise. -/
theorem EdfStands.turn_spent (this : Option Nat)
    (hat : EdfStands tick now τ st (h :: P) (t :: B) X) (hsound : EdfSound tick now (τ t))
    (hspent : edfSpent tick now (τ t) = true) :
    edfPickTurn tick now this st ((h :: P).map (·.task)) t (B ++ X) =
      if (edfContest tick now τ).goes ⟨t, false⟩ h = true then
        ⟨st.set t (edfAfter tick now τ ⟨t, false⟩), .head, false⟩
      else ⟨st.set t (edfNext tick now (τ t)), .tail, false⟩ := by
  have ht : st.task t = τ t := hat.before t List.mem_cons_self
  have hfirst : ∀ R, ((Relink.tail.after ((h :: P).map (·.task)) t R).1 ++
      (Relink.tail.after ((h :: P).map (·.task)) t R).2).headD t = h.task := by
    intro R
    cases R <;> rfl
  obtain ⟨hne, -, hd⟩ := hat.heads h List.mem_cons_self
  have hturn := edfPickTurn_spent this ((h :: P).map (·.task)) (B ++ X) (ht ▸ hspent)
    (ht ▸ hsound.2)
  simp only [ht, hfirst, EdfScan.set_task_other _ _ hne, hd] at hturn
  rw [hturn, edfNext_of_spent hspent]
  by_cases hgo : (edfContest tick now τ).goes ⟨t, false⟩ h = true
  · have hgo' := (edfContest_goes_spent hspent).mp hgo
    rw [if_pos hgo', if_pos hgo, edfAfter_starts hgo'.1]
  · rw [if_neg hgo, if_neg (fun h => hgo ((edfContest_goes_spent hspent).mpr h))]

/-- **A task that stays in place**, behind a front, is placed. -/
theorem EdfStands.turn_stays (this : Option Nat) (htick : 0 ≤ tick)
    (hat : EdfStands tick now τ st (h :: P) (t :: B) X) (hsound : EdfSound tick now (τ t))
    (hgo : edfSpent tick now (τ t) = true → (edfContest tick now τ).goes ⟨t, false⟩ h = true) :
    ∃ link, edfPickTurn tick now this st ((h :: P).map (·.task)) t (B ++ X) =
        ⟨st.set t (edfAfter tick now τ ⟨t, false⟩), link, false⟩ ∧
      link.after ((h :: P).map (·.task)) t (B ++ X) =
        (((edfContest tick now τ).place (h :: P) ⟨t, false⟩).map (·.task), B ++ X) := by
  by_cases hspent : edfSpent tick now (τ t) = true
  · refine ⟨.head, ?_, by simp [Contest.place, hgo hspent]⟩
    rw [hat.turn_spent this hsound hspent, if_pos (hgo hspent)]
  · exact hat.turn_fresh this htick hsound (Bool.not_eq_true _ ▸ hspent)

/-- The task it is compared with when nothing has stayed in place. -/
theorem EdfStands.behind (hat : EdfStands tick now τ st [] (t :: B) X) (hrun : run = X ++ t :: B) :
    ((st.set t (edfNext tick now (τ t))).task (((Relink.tail.after [] t (B ++ X)).1 ++
      (Relink.tail.after [] t (B ++ X)).2).headD t)).deadline = edfBehind tick now τ run t := by
  obtain ⟨-, htB, htX⟩ := hat.next_apart
  have hidx : run[run.idxOf t + 1]? = B.head? := by
    rw [hrun, List.idxOf_append_of_notMem htX, List.idxOf_cons_self]
    cases B <;> simp
  rw [edfBehind, hidx]
  cases B with
  | cons b B =>
    have hb : b ≠ t := fun h => htB (h ▸ List.mem_cons_self)
    have hbτ := hat.before b (by simp)
    simp [Relink.after, EdfScan.set_task_other _ _ hb, hbτ]
  | nil =>
    cases X with
    | nil => simp [Relink.after, hrun]
    | cons x X =>
      have hx : x ≠ t := fun h => htX (h ▸ List.mem_cons_self)
      have hxτ := hat.moved x List.mem_cons_self
      simp [Relink.after, EdfScan.set_task_other _ _ hx, hxτ, hrun]

/-- **Nothing has stayed in place**, and the task is through with its period: it is placed if it leads,
and moved to the tail otherwise. -/
theorem EdfStands.turn_lead (this : Option Nat) (hat : EdfStands tick now τ st [] (t :: B) X)
    (hrun : run = X ++ t :: B) (hsound : EdfSound tick now (τ t))
    (hspent : edfSpent tick now (τ t) = true) :
    edfPickTurn tick now this st [] t (B ++ X) =
      if edfLeads tick now τ run t = true then
        ⟨st.set t (edfAfter tick now τ ⟨t, false⟩), .head, false⟩
      else ⟨st.set t (edfNext tick now (τ t)), .tail, false⟩ := by
  have ht : st.task t = τ t := hat.before t List.mem_cons_self
  have hbehind := hat.behind hrun
  rw [edfNext_of_spent hspent] at hbehind ⊢
  have hturn := edfPickTurn_spent this [] (B ++ X) (ht ▸ hspent) (ht ▸ hsound.2)
  simp only [ht, hbehind] at hturn
  rw [hturn]
  have hleads : edfLeads tick now τ run t = true ↔ edfStarts tick now (τ t) = true ∧
      (edfRenewed (τ t)).deadline < edfBehind tick now τ run t := by
    simp [edfLeads, hspent, edfNext_of_spent hspent]
  by_cases hl : edfLeads tick now τ run t = true
  · rw [if_pos hl, if_pos (hleads.mp hl), edfAfter_starts (hleads.mp hl).1]
  · rw [if_neg hl, if_neg (fun h => hl (hleads.mpr h))]

/-- **The task that leads** is placed. -/
theorem EdfStands.turn_leads (this : Option Nat) (htick : 0 ≤ tick)
    (hat : EdfStands tick now τ st [] (t :: B) X) (hrun : run = X ++ t :: B)
    (hsound : EdfSound tick now (τ t)) (hl : edfLeads tick now τ run t = true) :
    ∃ link, edfPickTurn tick now this st [] t (B ++ X) =
        ⟨st.set t (edfAfter tick now τ ⟨t, false⟩), link, false⟩ ∧
      link.after [] t (B ++ X) = ([t], B ++ X) := by
  by_cases hspent : edfSpent tick now (τ t) = true
  · refine ⟨.head, ?_, rfl⟩
    rw [hat.turn_lead this hrun hsound hspent, if_pos hl]
  · rw [Bool.not_eq_true] at hspent
    simpa only [List.map_nil, List.map_cons, Contest.place] using hat.turn_fresh this htick hsound hspent

/-! ### Which tasks are moved -/

theorem edfFirstVisits_nodup (hnd : run.Nodup) : (edfFirstVisits tick now τ run).Nodup :=
  (hnd.sublist (List.dropWhile_sublist _)).map fun _ _ h => (EdfVisit.mk.inj h).1

theorem mem_edfFirstVisits {e : EdfVisit} (h : e ∈ edfFirstVisits tick now τ run) :
    e.task ∈ run ∧ e.again = false := by
  obtain ⟨t, ht, rfl⟩ := List.mem_map.mp h
  exact ⟨(List.dropWhile_sublist _).subset ht, rfl⟩

theorem edfLeaves_iff : edfLeaves tick now τ run t = true ↔
    edfSpent tick now (τ t) = true ∧ ¬ EdfRises tick now τ run t := by
  simp [edfLeaves]

/-- Behind the first task that stays in place, one that is through with its period is moved to the tail
if it does not go to the front. -/
theorem edfLeaves_behind {l : EdfVisit} {A E : List EdfVisit} (hnd : run.Nodup)
    (hV : edfFirstVisits tick now τ run = l :: (A ++ ⟨t, false⟩ :: E)) :
    edfLeaves tick now τ run t = true ↔ edfSpent tick now (τ t) = true ∧
      ¬ (edfContest tick now τ).goes ⟨t, false⟩ ((edfContest tick now τ).first l A) = true := by
  have hndV : (edfFirstVisits tick now τ run).Nodup := edfFirstVisits_nodup hnd
  rw [hV] at hndV
  rw [edfLeaves_iff, EdfRises, hV, Contest.goes_first_iff hndV]
  refine and_congr_right fun hspent => not_congr ?_
  rw [and_iff_right hspent]
  refine and_congr_right fun _ => ⟨fun h b hb => h b hb.mem hb, fun h b _ hb => h b hb⟩

section Lead

variable {C : List Nat}

/-- As long as no task leads, none has been visited. -/
theorem edfFirstVisits_of_not_leads (hrun : run = C ++ B)
    (hC : ∀ u ∈ C, edfLeads tick now τ run u = false) : edfFirstVisits tick now τ run =
      (B.dropWhile fun t => !edfLeads tick now τ run t).map (EdfVisit.mk · false) := by
  have hdrop : run.dropWhile (fun t => !edfLeads tick now τ run t) =
      B.dropWhile fun t => !edfLeads tick now τ run t := by
    nth_rewrite 2 [hrun]
    exact List.dropWhile_append_of_pos fun u hu => by simp [hC u hu]
  rw [edfFirstVisits, hdrop]

theorem edfLeaves_of_not_leads (hnd : run.Nodup) (hrun : run = C ++ B)
    (hC : ∀ u ∈ C, edfLeads tick now τ run u = false) :
    ∀ u ∈ C, edfLeaves tick now τ run u = true := by
  intro u hu
  have hspent : edfSpent tick now (τ u) = true := by
    have h := hC u hu
    simp only [edfLeads, Bool.or_eq_false_iff, Bool.not_eq_false'] at h
    exact h.1
  refine edfLeaves_iff.mpr ⟨hspent, fun hrises => ?_⟩
  have hmem := hrises.2.1.mem
  rw [edfFirstVisits_of_not_leads hrun hC] at hmem
  obtain ⟨v, hv, heq⟩ := List.mem_map.mp hmem
  obtain rfl : v = u := (EdfVisit.mk.inj heq).1
  have hB := (List.dropWhile_sublist _).subset hv
  rw [hrun] at hnd
  exact (List.nodup_append.mp hnd).2.2 v hu v hB rfl

/-- The task that leads is not moved. -/
theorem edfLeads_stays {E : List EdfVisit}
    (hV : edfFirstVisits tick now τ run = ⟨t, false⟩ :: E) (hl : edfLeads tick now τ run t = true) :
    edfLeaves tick now τ run t = false := by
  rw [← Bool.not_eq_true, edfLeaves_iff]
  rintro ⟨hspent, hnot⟩
  have hstarts : edfStarts tick now (τ t) = true := by
    simp only [edfLeads, hspent, Bool.not_true, Bool.false_or, Bool.and_eq_true] at hl
    exact hl.1
  have hbids : (edfContest tick now τ).bids ⟨t, false⟩ = true := by
    rw [edfContest_bids_spent hspent, hstarts]
  refine hnot ⟨hspent, ⟨⟨?_, hbids⟩, ?_⟩, fun b _ _ hlt => ?_⟩
  · rw [hV]
    exact List.mem_cons_self
  · intro l hl
    rw [hV] at hl
    cases hl
    exact .inl hbids
  · rw [hV, List.idxOf_cons_self] at hlt
    exact absurd hlt (Nat.not_lt_zero _)

/-- If the last task stays, or others have been moved, all tasks that have been moved are met again. -/
theorem edfAgain_of_ne (h : run.filter (edfLeaves tick now τ run) ≠ run.getLast?.toList) :
    edfAgain tick now τ run = run.filter (edfLeaves tick now τ run) ∧
      edfUnmet tick now τ run = [] := ⟨if_neg h, if_neg h⟩

theorem edfAgain_of_eq (h : run.filter (edfLeaves tick now τ run) = run.getLast?.toList) :
    edfAgain tick now τ run = [] ∧
      edfUnmet tick now τ run = run.filter (edfLeaves tick now τ run) := ⟨if_pos h, if_pos h⟩

theorem filter_ne_last_of_stays (hrun : run = C ++ [t])
    (ht : edfLeaves tick now τ run t = false) :
    run.filter (edfLeaves tick now τ run) ≠ run.getLast?.toList := by
  intro h
  have hlast : run.getLast?.toList = [t] := by simp [hrun]
  have hmem : t ∈ run.filter (edfLeaves tick now τ run) := by
    rw [h, hlast]
    exact List.mem_singleton_self t
  rw [(List.mem_filter.mp hmem).2] at ht
  cases ht

end Lead

/-! ### The rest of the queue -/

theorem safeFor_turn {st' : EdfScan} {link : Relink} {Q R : List Nat} (n : Nat)
    (h : edfPickTurn tick now this st Q t R = ⟨st', link, false⟩) :
    safeFor (edfPickTurn tick now this) (n + 1) st Q (t :: R) =
      safeFor (edfPickTurn tick now this) n st' (link.after Q t R).1 (link.after Q t R).2 := by
  rw [safeFor_next (by rw [h]), h]

/-- A task that is moved to the tail goes behind the tasks that are left. -/
theorem safeFor_moved {st' : EdfScan} {Q R : List Nat} (n : Nat) (hR : R ≠ [])
    (h : edfPickTurn tick now this st Q t R = ⟨st', .tail, false⟩) :
    safeFor (edfPickTurn tick now this) (n + 1) st Q (t :: R) =
      safeFor (edfPickTurn tick now this) n st' Q (R ++ [t]) := by
  rw [safeFor_turn n h]
  cases R with
  | nil => exact absurd rfl hR
  | cons r R => rfl

/-- A task that is moved to the tail, and is the last one, is not met again. -/
theorem safeFor_moved_last {st' : EdfScan} {Q : List Nat} (n : Nat)
    (h : edfPickTurn tick now this st Q t [] = ⟨st', .tail, false⟩) :
    safeFor (edfPickTurn tick now this) (n + 1) st Q [t] =
      safeFor (edfPickTurn tick now this) n st' (Q ++ [t]) [] :=
  safeFor_turn n h

/-- What is left to do when all tasks have been met once: the head is `first`, and the tasks that were
moved are behind the others. -/
def EdfMetOnce (tick now : Int) (τ : Nat → TaskStruct) (this : Option Nat) (run : List Nat)
    (settled : List EdfVisit) (first : Option EdfVisit) (n : Nat)
    (result : Option (EdfScan × List Nat)) : Prop :=
  ∃ st P, result = safeFor (edfPickTurn tick now this) n st
      (P.map (·.task) ++ edfUnmet tick now τ run) (edfAgain tick now τ run) ∧
    EdfStands tick now τ st P [] (edfAgain tick now τ run ++ edfUnmet tick now τ run) ∧
    P.Perm settled ∧ P.head? = first

/-- All tasks have been met, and those that were moved are met again. -/
theorem EdfStands.met_once (this : Option Nat) (hat : EdfStands tick now τ st P [] X) (n : Nat)
    (hX : run.filter (edfLeaves tick now τ run) = X) (hlast : X ≠ run.getLast?.toList) :
    EdfMetOnce tick now τ this run P P.head? n
      (safeFor (edfPickTurn tick now this) n st (P.map (·.task)) X) := by
  obtain ⟨hagain, hunmet⟩ := edfAgain_of_ne (hX.symm ▸ hlast)
  rw [hX] at hagain
  refine ⟨st, P, ?_, ?_, List.Perm.refl P, rfl⟩
  · rw [hagain, hunmet, List.append_nil]
  · rw [hagain, hunmet, List.append_nil]
    exact hat

/-- All tasks have been met, and the last one is the only one that was moved: it is not met again. -/
theorem EdfStands.met_alone (this : Option Nat) (hat : EdfStands tick now τ st P [] [t]) (n : Nat)
    (ht : run.filter (edfLeaves tick now τ run) = [t]) (hlast : run.getLast? = some t) :
    EdfMetOnce tick now τ this run P P.head? n
      (safeFor (edfPickTurn tick now this) n st (P.map (·.task) ++ [t]) []) := by
  have hlone : run.filter (edfLeaves tick now τ run) = run.getLast?.toList := by
    rw [ht, hlast, Option.toList_some]
  obtain ⟨hagain, hunmet⟩ := edfAgain_of_eq hlone
  rw [ht] at hunmet
  refine ⟨st, P, ?_, ?_, List.Perm.refl P, rfl⟩
  · rw [hagain, hunmet]
  · rw [hagain, hunmet, List.nil_append]
    exact hat

/-- **Behind the first task that stays in place**, `l`: the tasks `C` have been met, and `h` is at the
head. -/
theorem edfPick_first (this : Option Nat) (htick : 0 ≤ tick) (hnd : run.Nodup) {l : EdfVisit}
    (B C : List Nat) (A : List EdfVisit) (h : EdfVisit) (P : List EdfVisit) (n : Nat) (st : EdfScan)
    (hrun : run = C ++ B)
    (hV : edfFirstVisits tick now τ run = l :: (A ++ B.map (EdfVisit.mk · false)))
    (hh : h = (edfContest tick now τ).first l A)
    (hlast : B = [] → run.filter (edfLeaves tick now τ run) ≠ run.getLast?.toList)
    (hsound : ∀ u ∈ B, EdfSound tick now (τ u))
    (hat : EdfStands tick now τ st (h :: P) B (C.filter (edfLeaves tick now τ run))) :
    EdfMetOnce tick now τ this run
      (h :: P ++ (B.filter fun u => !edfLeaves tick now τ run u).map (EdfVisit.mk · false))
      ((edfContest tick now τ).front (edfFirstVisits tick now τ run)) n
      (safeFor (edfPickTurn tick now this) (n + B.length) st ((h :: P).map (·.task))
        (B ++ C.filter (edfLeaves tick now τ run))) := by
  induction B generalizing C A h P st with
  | nil =>
    have hC : run = C := by rw [hrun, List.append_nil]
    have hfront : (edfContest tick now τ).front (edfFirstVisits tick now τ run) = some h := by
      simp [hV, Contest.front, hh]
    rw [← hC] at hat ⊢
    rw [hfront]
    simpa using hat.met_once this n rfl (hlast rfl)
  | cons t B ih =>
    have ht := hsound t List.mem_cons_self
    have hsound' : ∀ u ∈ B, EdfSound tick now (τ u) := fun u hu => hsound u (List.mem_cons_of_mem _ hu)
    have hrun' : run = (C ++ [t]) ++ B := by rw [hrun, List.append_assoc, List.singleton_append]
    have hV' : edfFirstVisits tick now τ run =
        l :: ((A ++ [⟨t, false⟩]) ++ B.map (EdfVisit.mk · false)) := by
      rw [hV, List.map_cons, List.append_assoc, List.singleton_append]
    have hleaves := edfLeaves_behind hnd (hV.trans (by rw [List.map_cons]))
    rw [← hh] at hleaves
    have hfirst := Contest.first_snoc (c := edfContest tick now τ) l ⟨t, false⟩ A
    rw [← hh] at hfirst
    rw [List.length_cons, ← Nat.add_assoc, List.cons_append (a := t)]
    by_cases hl : edfLeaves tick now τ run t = true
    case pos =>
      obtain ⟨hspent, hstays⟩ := hleaves.mp hl
      have hturn := hat.turn_spent this ht hspent
      rw [if_neg hstays] at hturn
      rw [if_neg hstays] at hfirst
      have hfilter : (C ++ [t]).filter (edfLeaves tick now τ run) =
          C.filter (edfLeaves tick now τ run) ++ [t] := by simp [hl]
      have hmove := hat.move
      by_cases hBX : B ++ C.filter (edfLeaves tick now τ run) = []
      · -- the last task is moved, and no other one was
        rw [hBX] at hturn ⊢
        obtain ⟨rfl, hX⟩ := List.append_eq_nil_iff.mp hBX
        have hleft : run.filter (edfLeaves tick now τ run) = [t] := by
          nth_rewrite 2 [hrun]
          rw [hfilter, hX, List.nil_append]
        have hfront : (edfContest tick now τ).front (edfFirstVisits tick now τ run) = some h := by
          rw [hV', Contest.front, List.map_nil, List.append_nil, hfirst]
        rw [hX, List.nil_append] at hmove
        rw [safeFor_moved_last _ hturn, hfront]
        simpa [hl] using hmove.met_alone this n hleft (by simp [hrun])
      · -- it goes to the tail
        have hlast' : B = [] → run.filter (edfLeaves tick now τ run) ≠ run.getLast?.toList := by
          rintro rfl hone
          have hleft : run.filter (edfLeaves tick now τ run) =
              C.filter (edfLeaves tick now τ run) ++ [t] := by
            nth_rewrite 2 [hrun]
            exact hfilter
          have hend : run.getLast?.toList = [t] := by simp [hrun]
          rw [hleft, hend, List.append_left_eq_self] at hone
          exact hBX (by rw [hone, List.append_nil])
        have hmet := ih (C ++ [t]) (A ++ [⟨t, false⟩]) h P _ hrun' hV' hfirst.symm hlast' hsound'
          (hfilter ▸ hmove)
        rw [safeFor_moved _ hBX hturn, List.append_assoc, ← hfilter]
        simpa [hl] using hmet
    case neg =>
      -- it is placed
      rw [Bool.not_eq_true] at hl
      have hfilter : (C ++ [t]).filter (edfLeaves tick now τ run) =
          C.filter (edfLeaves tick now τ run) := by simp [hl]
      have hlast' : B = [] → run.filter (edfLeaves tick now τ run) ≠ run.getLast?.toList := by
        rintro rfl
        exact filter_ne_last_of_stays hrun hl
      have hperm := Contest.place_perm (c := edfContest tick now τ) (h :: P) ⟨t, false⟩
      have hgo : edfSpent tick now (τ t) = true →
          (edfContest tick now τ).goes ⟨t, false⟩ h = true := by
        intro hspent
        by_contra hnot
        rw [hleaves.mpr ⟨hspent, hnot⟩] at hl
        cases hl
      obtain ⟨link, hturn, hafter⟩ := hat.turn_stays this htick ht hgo
      have hnext := safeFor_turn (n + B.length) hturn
      have hplace := hat.place hperm
      have hhead := Contest.head?_place (c := edfContest tick now τ) (h :: P) ⟨t, false⟩
      rw [hafter] at hnext
      obtain ⟨P', hP'⟩ := List.head?_eq_some_iff.mp hhead
      rw [hP'] at hnext hplace hperm
      have hmet := ih (C ++ [t]) (A ++ [⟨t, false⟩]) _ P' _ hrun' hV' hfirst.symm hlast' hsound'
        (hfilter.symm ▸ hplace)
      rw [hfilter, ← hnext] at hmet
      obtain ⟨st', Q, hres, hat', hQ, hfront⟩ := hmet
      refine ⟨st', Q, hres, hat', hQ.trans ?_, hfront⟩
      refine (hperm.append_right _).trans ?_
      simp [hl]

/-- **Before anything has stayed in place**: the tasks `C` have been moved to the tail. -/
theorem edfPick_lead (this : Option Nat) (htick : 0 ≤ tick) (hnd : run.Nodup) (B C : List Nat) (n : Nat)
    (st : EdfScan) (hrun : run = C ++ B) (hC : ∀ u ∈ C, edfLeads tick now τ run u = false)
    (hlast : B = [] → C ≠ run.getLast?.toList) (hsound : ∀ u ∈ B, EdfSound tick now (τ u))
    (hat : EdfStands tick now τ st [] B C) :
    EdfMetOnce tick now τ this run
      ((B.filter fun u => !edfLeaves tick now τ run u).map (EdfVisit.mk · false))
      ((edfContest tick now τ).front (edfFirstVisits tick now τ run)) n
      (safeFor (edfPickTurn tick now this) (n + B.length) st [] (B ++ C)) := by
  have hleave := edfLeaves_of_not_leads hnd hrun hC
  have hfilter : C.filter (edfLeaves tick now τ run) = C := List.filter_eq_self.mpr hleave
  have hvisits := edfFirstVisits_of_not_leads hrun hC
  induction B generalizing C n st with
  | nil =>
    have hleft : run.filter (edfLeaves tick now τ run) = C := by
      nth_rewrite 2 [hrun]
      rw [List.append_nil, hfilter]
    rw [hvisits]
    exact hat.met_once this n hleft (hlast rfl)
  | cons t B ih =>
    have ht := hsound t List.mem_cons_self
    have hsound' : ∀ u ∈ B, EdfSound tick now (τ u) := fun u hu => hsound u (List.mem_cons_of_mem _ hu)
    have hrun' : run = (C ++ [t]) ++ B := by rw [hrun, List.append_assoc, List.singleton_append]
    rw [List.length_cons, ← Nat.add_assoc, List.cons_append (a := t)]
    by_cases hl : edfLeads tick now τ run t = true
    case pos =>
      -- it stays in place
      have hV : edfFirstVisits tick now τ run = ⟨t, false⟩ :: ([] ++ B.map (EdfVisit.mk · false)) := by
        rw [hvisits, List.dropWhile_cons_of_neg (by simp [hl])]
        rfl
      have hstays := edfLeads_stays hV hl
      have hfilter' : (C ++ [t]).filter (edfLeaves tick now τ run) = C := by
        simp [hstays, hfilter]
      have hlast' : B = [] → run.filter (edfLeaves tick now τ run) ≠ run.getLast?.toList := by
        rintro rfl
        exact filter_ne_last_of_stays hrun hstays
      obtain ⟨link, hturn, hafter⟩ := hat.turn_leads this htick hrun ht hl
      have hnext := safeFor_turn (n + B.length) hturn
      rw [hafter] at hnext
      have hplace : EdfStands tick now τ _ [⟨t, false⟩] B C := hat.place (List.Perm.refl _)
      have hmet := edfPick_first this htick hnd B (C ++ [t]) [] ⟨t, false⟩ [] n _ hrun' hV rfl hlast'
        hsound' (hfilter'.symm ▸ hplace)
      rw [hfilter'] at hmet
      simp only [List.map_cons, List.map_nil] at hmet
      rw [← hnext] at hmet
      simpa [hstays] using hmet
    case neg =>
      -- it is moved to the tail
      rw [Bool.not_eq_true] at hl
      have hspent : edfSpent tick now (τ t) = true := by
        simp only [edfLeads, Bool.or_eq_false_iff, Bool.not_eq_false'] at hl
        exact hl.1
      have hC' : ∀ u ∈ C ++ [t], edfLeads tick now τ run u = false := by
        intro u hu
        rcases List.mem_append.mp hu with hu | hu
        · exact hC u hu
        · rw [List.mem_singleton.mp hu]
          exact hl
      have hleave' := edfLeaves_of_not_leads hnd hrun' hC'
      have hfilter' : (C ++ [t]).filter (edfLeaves tick now τ run) = C ++ [t] :=
        List.filter_eq_self.mpr hleave'
      have hvisits' := edfFirstVisits_of_not_leads hrun' hC'
      have htleaves : edfLeaves tick now τ run t = true := hleave' t (by simp)
      have hturn := hat.turn_lead this hrun ht hspent
      rw [if_neg (by simp [hl])] at hturn
      have hmove := hat.move
      by_cases hBC : B ++ C = []
      · -- a single task
        rw [hBC] at hturn ⊢
        obtain ⟨rfl, rfl⟩ := List.append_eq_nil_iff.mp hBC
        have hone : run = [t] := hrun
        have hleft : run.filter (edfLeaves tick now τ run) = [t] := by
          nth_rewrite 2 [hone]
          exact hfilter'
        have hfront : (edfContest tick now τ).front (edfFirstVisits tick now τ run) = none := by
          rw [hvisits']
          rfl
        rw [safeFor_moved_last _ hturn, hfront]
        simpa [htleaves] using hmove.met_alone this n hleft (by rw [hone]; rfl)
      · have hlast' : B = [] → C ++ [t] ≠ run.getLast?.toList := by
          rintro rfl hone
          rw [hrun] at hone
          exact hBC (by simpa using hone)
        have hmet := ih (C ++ [t]) n _ hrun' hC' hlast' hsound' hmove hleave' hfilter' hvisits'
        rw [safeFor_moved _ hBC hturn, List.append_assoc]
        simpa [htleaves] using hmet

/-! ### The tasks that are met again -/

/-- The task is not taken off the queue. -/
def edfKept (this : Option Nat) (τ : Nat → TaskStruct) (t : Nat) : Bool :=
  !(τ t).runOnce || decide (this = some t)

/-- A task that is met again, and kept, is placed. -/
theorem EdfStands.turn_again (this : Option Nat) (htick : 0 ≤ tick)
    (hat : EdfStands tick now τ st P [] (t :: X))
    (hspent : edfSpent tick now (τ t) = true) (hkept : edfKept this τ t = true) :
    ∃ link, edfPickTurn tick now this st (P.map (·.task)) t X =
        ⟨st.set t (edfAfter tick now τ ⟨t, true⟩), link, false⟩ ∧
      link.after (P.map (·.task)) t X =
        (((edfContest tick now τ).place P ⟨t, true⟩).map (·.task), X) := by
  have ht : st.task t = edfRenewed (τ t) := by
    rw [hat.moved t List.mem_cons_self, edfNext_of_spent hspent]
  have hnext : edfNext tick now (τ t) = edfRenewed (τ t) := edfNext_of_spent hspent
  have hnotrun := edfRenewed_state (τ t)
  have hready : edfReady tick now (edfRenewed (τ t)) = false := by
    rw [← Bool.not_eq_true, edfReady_iff]
    exact fun h => hnotrun h.1.1
  have hbids : (edfContest tick now τ).bids ⟨t, true⟩ = edfWakes tick now (edfRenewed (τ t)) :=
    congrArg (edfWakes tick now) hnext
  by_cases honce : (τ t).runOnce = true
  case pos =>
    -- the current task, in state `DEAD`
    have hthis : this = some t := by simpa [edfKept, honce] using hkept
    have hdead : edfRenewed (τ t) = { τ t with state := .dead } := if_pos honce
    have hnot : (edfContest tick now τ).bids ⟨t, true⟩ = false := by
      rw [hbids, hdead, ← Bool.not_eq_true, edfWakes_iff]
      simp
    have hsame : st.set t (edfAfter tick now τ ⟨t, true⟩) = st := by
      rw [edfAfter, if_neg (by simp [hnot]), hnext, ← ht, EdfScan.set_same]
    refine ⟨.stay, ?_, ?_⟩
    · have hnear : (st.task t).wakeup - now ≤ 2 * tick := by
        rw [ht, hdead]
        exact (edfSpent_iff.mp hspent).1.2
      rw [edfPickTurn_dead this _ X (by rw [ht, hdead]) hnear, if_pos hthis, hsame]
    · refine Contest.place_link (e := ⟨t, true⟩) X False ⟨False.elim, ?_⟩
      rintro ⟨h, -, hgo⟩
      simp [Contest.goes, hnot] at hgo
  case neg =>
    have hidle : (edfRenewed (τ t)).state = .idle := by
      simp [edfRenewed, honce]
    have hvisit := edfPickTurn_visit (c := edfContest tick now τ) (e := ⟨t, true⟩) (P := P) this X htick
      (.inr (by rw [ht, hidle])) (by rw [ht, ← hnext]; exact edfNext_fresh)
      (by rw [ht, hready, Bool.false_or]; exact hbids) (by rw [ht]; exact hbids)
      (by rw [ht]; exact congrArg TaskStruct.deadline hnext)
      (fun e he => ⟨hat.again_apart.1 e he, by
        rw [hat.passed e he]
        exact ⟨edfAfter_state, edfAfter_deadline⟩⟩)
    rw [ht] at hvisit
    rw [edfAfter, hnext]
    exact hvisit

/-- **The tasks that are met again** are placed, or taken off the queue. -/
theorem edfPick_again (this : Option Nat) (htick : 0 ≤ tick) (n : Nat) (hn : X.length < n)
    (hspent : ∀ u ∈ X, edfSpent tick now (τ u) = true) (hat : EdfStands tick now τ st P [] X) :
    ∃ st', safeFor (edfPickTurn tick now this) n st (P.map (·.task)) X =
        some (st', (((X.filter (edfKept this τ)).map (EdfVisit.mk · true)).foldl
          (edfContest tick now τ).place P).map (·.task)) ∧
      EdfStands tick now τ st' (((X.filter (edfKept this τ)).map (EdfVisit.mk · true)).foldl
        (edfContest tick now τ).place P) [] [] := by
  induction X generalizing n st P with
  | nil =>
    cases n with
    | zero => exact absurd hn (Nat.not_lt_zero _)
    | succ n => exact ⟨st, rfl, hat⟩
  | cons t X ih =>
    cases n with
    | zero => exact absurd hn (Nat.not_lt_zero _)
    | succ n =>
    have ht := hspent t List.mem_cons_self
    have hspent' : ∀ u ∈ X, edfSpent tick now (τ u) = true :=
      fun u hu => hspent u (List.mem_cons_of_mem _ hu)
    have hn' : X.length < n := Nat.lt_of_succ_lt_succ hn
    by_cases hkept : edfKept this τ t = true
    case pos =>
      obtain ⟨link, hturn, hafter⟩ := hat.turn_again this htick ht hkept
      rw [safeFor_turn n hturn, hafter, List.filter_cons_of_pos hkept, List.map_cons, List.foldl_cons]
      exact ih n hn' hspent' (hat.place_again (Contest.place_perm P _))
    case neg =>
      have hnot : (τ t).runOnce = true ∧ this ≠ some t := by
        simpa [edfKept] using hkept
      have htask : st.task t = { τ t with state := .dead } := by
        rw [hat.moved t List.mem_cons_self, edfNext_of_spent ht, edfRenewed, if_pos hnot.1]
      have hdead : (st.task t).state = .dead := by rw [htask]
      have hnear : (st.task t).wakeup - now ≤ 2 * tick := by
        rw [htask]
        exact (edfSpent_iff.mp ht).1.2
      have hturn := edfPickTurn_dead this (P.map (·.task)) X hdead hnear
      rw [if_neg hnot.2] at hturn
      rw [safeFor_turn n hturn, List.filter_cons_of_neg hkept]
      exact ih n hn' hspent' (hat.drop _)

/-- The loop is over: the visits `Q` after which a task stays in the queue have been placed. -/
structure EdfOver (tick now : Int) (τ : Nat → TaskStruct) (this : Option Nat) (run : List Nat)
    (st : EdfScan) (Q : List EdfVisit) : Prop where
  stands : EdfStands tick now τ st Q [] (edfUnmet tick now τ run)
  placed : Q.Perm ((run.filter fun u => !edfLeaves tick now τ run u).map (EdfVisit.mk · false) ++
    ((edfAgain tick now τ run).filter (edfKept this τ)).map (EdfVisit.mk · true))

/-- **The loop of `edf_pick_next`.** -/
theorem edfPick_loop (this : Option Nat) (htick : 0 ≤ tick) (hnd : run.Nodup) (hne : run ≠ [])
    (hsound : ∀ u ∈ run, EdfSound tick now (τ u)) (freed : List Nat) :
    ∃ st Q, safeFor (edfPickTurn tick now this) (2 * run.length + 1) ⟨τ, freed, false⟩ [] run =
        some (st, Q.map (·.task) ++ edfUnmet tick now τ run) ∧
      EdfOver tick now τ this run st Q ∧
      ((∀ t ∈ edfAgain tick now τ run, edfKept this τ t = true) →
        Q.head? = (edfContest tick now τ).front (edfVisits tick now τ run)) := by
  have hstart : EdfStands tick now τ ⟨τ, freed, false⟩ [] run [] :=
    ⟨by simpa using hnd, fun e he => absurd he List.not_mem_nil, fun _ _ => rfl,
      fun u hu => absurd hu List.not_mem_nil, rfl⟩
  obtain ⟨st, P, hres, hat, hP, hhead⟩ := edfPick_lead this htick hnd run [] (run.length + 1)
    ⟨τ, freed, false⟩ rfl (fun u hu => absurd hu List.not_mem_nil) (fun h => absurd h hne) hsound hstart
  have hfuel : 2 * run.length + 1 = run.length + 1 + run.length := by omega
  rw [hfuel]
  rw [List.append_nil] at hres
  rw [hres]
  by_cases hlone : run.filter (edfLeaves tick now τ run) = run.getLast?.toList
  · obtain ⟨hagain, -⟩ := edfAgain_of_eq hlone
    rw [hagain] at hat ⊢
    rw [List.nil_append] at hat
    refine ⟨st, P, rfl, ⟨hat, by simpa [hagain] using hP⟩, fun _ => ?_⟩
    rw [hhead, edfVisits, hagain]
    simp
  · obtain ⟨hagain, hunmet⟩ := edfAgain_of_ne hlone
    rw [hunmet, List.append_nil] at hat ⊢
    have hspent : ∀ u ∈ edfAgain tick now τ run, edfSpent tick now (τ u) = true := by
      intro u hu
      rw [hagain] at hu
      exact (edfLeaves_iff.mp (List.mem_filter.mp hu).2).1
    have hlen : (edfAgain tick now τ run).length < run.length + 1 := by
      rw [hagain]
      exact Nat.lt_succ_of_le (List.length_filter_le _ _)
    obtain ⟨st', hres', hat'⟩ := edfPick_again this htick (run.length + 1) hlen hspent hat
    refine ⟨st', (((edfAgain tick now τ run).filter (edfKept this τ)).map (EdfVisit.mk · true)).foldl
      (edfContest tick now τ).place P, ?_, ⟨?_, ?_⟩, fun hall => ?_⟩
    · rw [hres', List.append_nil]
    · rw [hunmet]
      exact hat'
    · exact (Contest.foldl_place_perm _ P).trans (hP.append_right _)
    · rw [Contest.head?_foldl_place _ hhead, edfVisits, List.filter_eq_self.mpr hall]

end Loop

end FlightOs
