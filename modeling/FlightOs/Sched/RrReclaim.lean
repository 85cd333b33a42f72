/-
# Dead tasks

A dead task goes from the run queue to the dead list of its CPU when `rr_pick_next` comes past it,
then to the clean list, and then to `kthread_free`.  The last two steps are those of the cleanup
thread of the CPU, which yields before each round: it frees the tasks on the clean list and moves
those on the dead list there.

The state has the position of each cleanup thread and a log of what happens to dead tasks, with an
entry for each dead task that `rr_pick_next` comes past on a CPU that may run it.  An unpinned one
is left where it is, on every CPU (`RrPinned` is the condition that there is none).

* `rr_reclaims`: every dead task in the log is on its way, in one place, and is freed once, after a
  yield; two rounds of the cleanup thread get it there.
-/
import FlightOs.Sched.RoundRobin
import FlightOs.Lib.Places
import FlightOs.Lib.System
import Mathlib.Tactic.Linarith
import Mathlib.Data.List.GetD

namespace FlightOs

/-! ## 1. The cleanup thread -/

/-- The first loop of `rr_cleanup`. -/
def rrFreeClean (q : Queues) (cpu : Nat) : Option Queues :=
  match safeFor (fun freed _ t _ => ⟨freed ++ [t], .out, false⟩) ((q.tq cpu).clean.length + 1)
      q.freed [] (q.tq cpu).clean with
  | none => none
  | some (freed, clean) =>
    some ({ q with freed := freed }.setTq cpu { q.tq cpu with clean := clean })

/-- The second loop of `rr_cleanup`. -/
def rrCollectDead (q : Queues) (cpu : Nat) : Option Queues :=
  match safeFor (fun clean _ t _ => ⟨clean ++ [t], .out, false⟩) ((q.tq cpu).dead.length + 1)
      (q.tq cpu).clean [] (q.tq cpu).dead with
  | none => none
  | some (clean, dead) => some (q.setTq cpu { q.tq cpu with dead := dead, clean := clean })

theorem foldl_concat (L : List Nat) : ∀ A : List Nat, L.foldl (fun A t => A ++ [t]) A = A ++ L := by
  induction L with
  | nil => intro A; exact (List.append_nil A).symm
  | cons t L ih =>
    intro A
    rw [List.foldl_cons, ih]
    simp

/-- A loop that takes all entries to another list. -/
theorem safeFor_take (A L : List Nat) :
    safeFor (fun A _ t _ => ⟨A ++ [t], .out, false⟩) (L.length + 1) A [] L = some (A ++ L, []) := by
  rw [← foldl_concat L A]
  exact safeFor_drain (fun _ _ _ _ => rfl) (Nat.lt_succ_self _)

theorem rrFreeClean_eq (q : Queues) (cpu : Nat) :
    rrFreeClean q cpu = some ({ q with freed := q.freed ++ (q.tq cpu).clean }.setTq cpu
      { q.tq cpu with clean := [] }) := by
  rw [rrFreeClean, safeFor_take]

theorem rrCollectDead_eq (q : Queues) (cpu : Nat) :
    rrCollectDead q cpu = some (q.setTq cpu
      { q.tq cpu with dead := [], clean := (q.tq cpu).clean ++ (q.tq cpu).dead }) := by
  rw [rrCollectDead, safeFor_take]

/-! ## 2. Runs -/

/-- What happens to dead tasks. -/
inductive RrEvent
  | passed (t cpu : Nat)
  | yielded (cpu : Nat)
  | collected (t cpu : Nat)
  | freed (t cpu : Nat)
  deriving DecidableEq, Repr

/-- `yielded` tells that the cleanup thread of the CPU is back from its yield. -/
structure RrState where
  q : Queues
  yielded : Nat → Bool
  log : List RrEvent

inductive RrOp
  | pick (cpu fuel : Nat) (now : Int)
  | yield (cpu : Nat)
  | cleanup (cpu : Nat)
  | enqueue (t : Nat)
  | wake (t : Nat) (now : Int)
  | set (t : Nat) (state : TaskState) (runtime : Int)

/-- The dead tasks that `rr_pick_next` comes past on a CPU that may run them. -/
def rrPassedDead (tick : Int) (cpu : Nat) (q : Queues) : List Nat :=
  (rrBefore tick cpu q.task (q.tq 0).run).filter fun t =>
    onCpuOf cpu (q.task t) && decide ((q.task t).state = .dead)

/-- One step: a pick, the yield or the rest of a round of a cleanup thread, a task that is enqueued
or woken, or one whose state and runtime change as it runs or ends. -/
def rrStep (tick : Int) (s : RrState) : RrOp → Option RrState
  | .pick cpu fuel now =>
    match rrPickNext tick fuel s.q cpu now with
    | none => none
    | some (_, q) => some { s with
        q := q
        log := s.log ++ (rrPassedDead tick cpu s.q).map fun t => .passed t cpu }
  | .yield cpu =>
    if s.yielded cpu then none
    else some { s with
      yielded := Function.update s.yielded cpu true
      log := s.log ++ [.yielded cpu] }
  | .cleanup cpu =>
    if s.yielded cpu then
      match (rrFreeClean s.q cpu).bind fun q => rrCollectDead q cpu with
      | none => none
      | some q => some {
          q := q
          yielded := Function.update s.yielded cpu false
          log := s.log ++ ((s.q.tq cpu).clean.map (fun t => .freed t cpu) ++
            (s.q.tq cpu).dead.map fun t => .collected t cpu) }
    else none
  | .enqueue t => some { s with q := (rrEnqueue s.q t).2 }
  | .wake t now => some { s with q := (rrWake tick s.q t now).2 }
  | .set t state runtime =>
    some { s with q := s.q.setTask t { s.q.task t with state := state, runtime := runtime } }

/-- The places of a task. -/
inductive RrPlace
  | wake
  | run
  | dead (cpu : Nat)
  | clean (cpu : Nat)
  | freed
  deriving DecidableEq

def rrPlaces (q : Queues) : RrPlace → List Nat
  | .wake => (q.tq 0).wake
  | .run => (q.tq 0).run
  | .dead cpu => (q.tq cpu).dead
  | .clean cpu => (q.tq cpu).clean
  | .freed => q.freed

/-- Any queues to begin with, each task in one place; nothing has been freed, and the cleanup
threads have not yet yielded.  The tasks on the run queue have been given their slices by
`rr_wake`. -/
structure RrStart (tick : Int) (s : RrState) : Prop where
  placed : Placed (rrPlaces s.q)
  dead : ∀ cpu, (s.q.tq cpu).dead = [] ∧ (s.q.tq cpu).clean = []
  freed : s.q.freed = []
  yielded : ∀ cpu, s.yielded cpu = false
  log : s.log = []
  wake : ∀ t ∈ (s.q.tq 0).wake, (s.q.task t).attr.priority ≠ 0
  run : ∀ t ∈ (s.q.tq 0).run, 2 * tick < (s.q.task t).attr.wcet

def rrSystem (tick : Int) : System RrState RrOp := .ofFun (RrStart tick) (rrStep tick)

/-- What the callers see to: `kthread_wake_up` enqueues new tasks, with attributes that
`rr_check_sched_attr` has passed. -/
def RrLegal (s : RrState) : RrOp → Prop
  | .enqueue t => (∀ p, t ∉ rrPlaces s.q p) ∧ (s.q.task t).attr.priority ≠ 0
  | _ => True

/-- **The condition.**  No dead task that `rr_pick_next` comes past is unpinned. -/
def RrPinned (tick : Int) (s : RrState) : RrOp → Prop
  | .pick cpu _ _ => ∀ t ∈ rrPassedDead tick cpu s.q, (s.q.task t).onCpu ≠ none
  | _ => True

instance decidableRrPinned (tick : Int) (s : RrState) : ∀ op, Decidable (RrPinned tick s op)
  | .pick cpu _ _ =>
    inferInstanceAs (Decidable (∀ t ∈ rrPassedDead tick cpu s.q, (s.q.task t).onCpu ≠ none))
  | .yield _ => isTrue trivial
  | .cleanup _ => isTrue trivial
  | .enqueue _ => isTrue trivial
  | .wake _ _ => isTrue trivial
  | .set _ _ _ => isTrue trivial

/-- Every task that is freed has been put on the clean list before, and the cleanup thread has
yielded in between. -/
def FreedAfterYield (log : List RrEvent) : Prop :=
  ∀ a b t cpu, log = a ++ .freed t cpu :: b →
    ∃ c d, a = c ++ .yielded cpu :: d ∧ .collected t cpu ∈ c

/-- **Reclaimed.**  Each task is in one place of the wake, run, dead and clean lists and those
freed; a dead task that `rr_pick_next` came past is on one of the last three; and what was freed was
freed after a yield. -/
structure RrReclaimed (s : RrState) : Prop where
  placed : Placed (rrPlaces s.q)
  passed : ∀ t cpu, .passed t cpu ∈ s.log →
    t ∈ (s.q.tq cpu).dead ∨ t ∈ (s.q.tq cpu).clean ∨ t ∈ s.q.freed
  freed : (s.log.filterMap fun | .freed t _ => some t | _ => none) = s.q.freed
  yields : FreedAfterYield s.log

/-! ## 3. The log -/

theorem FreedAfterYield.append {log new : List RrEvent} (h : FreedAfterYield log)
    (hnew : ∀ a b t cpu, new = a ++ .freed t cpu :: b →
      ∃ c d, log = c ++ .yielded cpu :: d ∧ .collected t cpu ∈ c) :
    FreedAfterYield (log ++ new) := by
  intro a b t cpu heq
  rcases List.append_eq_append_iff.mp heq with ⟨e, rfl, he⟩ | ⟨e, rfl, he⟩
  · obtain ⟨c, d, rfl, hc⟩ := hnew e b t cpu he
    exact ⟨c, d ++ e, by simp, hc⟩
  · match e, he with
    | [], he =>
      obtain ⟨c, d, hlog, hc⟩ := hnew [] b t cpu he.symm
      rw [List.append_nil] at hlog
      exact ⟨c, d, hlog, hc⟩
    | x :: e, he =>
      obtain ⟨rfl, -⟩ := List.cons.inj he
      exact h a e t cpu rfl

/-- A stretch of the log in which nothing is freed. -/
theorem FreedAfterYield.quiet {log new : List RrEvent} (h : FreedAfterYield log)
    (hnew : ∀ t cpu, .freed t cpu ∉ new) : FreedAfterYield (log ++ new) :=
  h.append fun a _ t cpu heq => absurd (heq ▸ List.mem_append_right a List.mem_cons_self)
    (hnew t cpu)

/-- The tasks freed in a stretch of the log. -/
def freedIn (log : List RrEvent) : List Nat :=
  log.filterMap fun | .freed t _ => some t | _ => none

theorem freedIn_append (log new : List RrEvent) :
    freedIn (log ++ new) = freedIn log ++ freedIn new := List.filterMap_append

theorem freedIn_passed (L : List Nat) (cpu : Nat) :
    freedIn (L.map fun t => .passed t cpu) = [] := by
  simp [freedIn, List.filterMap_map]

theorem freedIn_collected (L : List Nat) (cpu : Nat) :
    freedIn (L.map fun t => .collected t cpu) = [] := by
  simp [freedIn, List.filterMap_map]

theorem freedIn_freed (L : List Nat) (cpu : Nat) :
    freedIn (L.map fun t => .freed t cpu) = L := by
  simp [freedIn, List.filterMap_map]

/-- The task was put on the clean list of the CPU, and then its cleanup thread has yielded. -/
def YieldedSince (log : List RrEvent) (t cpu : Nat) : Prop :=
  ∃ c d, log = c ++ .yielded cpu :: d ∧ .collected t cpu ∈ c

theorem YieldedSince.append {log : List RrEvent} {t cpu : Nat} (h : YieldedSince log t cpu)
    (new : List RrEvent) : YieldedSince (log ++ new) t cpu := by
  obtain ⟨c, d, rfl, hc⟩ := h
  exact ⟨c, d ++ new, by simp, hc⟩

/-! ## 4. The invariant -/

structure RrInv (tick : Int) (s : RrState) : Prop where
  placed : Placed (rrPlaces s.q)
  passed : ∀ t cpu, .passed t cpu ∈ s.log →
    t ∈ (s.q.tq cpu).dead ∨ t ∈ (s.q.tq cpu).clean ∨ t ∈ s.q.freed
  freed : freedIn s.log = s.q.freed
  yields : FreedAfterYield s.log
  cleaned : ∀ cpu, ∀ t ∈ (s.q.tq cpu).clean, .collected t cpu ∈ s.log ∧
    (s.yielded cpu = true → YieldedSince s.log t cpu)
  wake : ∀ t ∈ (s.q.tq 0).wake, (s.q.task t).attr.priority ≠ 0
  run : ∀ t ∈ (s.q.tq 0).run, 2 * tick < (s.q.task t).attr.wcet

theorem RrInv.reclaimed {tick : Int} {s : RrState} (h : RrInv tick s) : RrReclaimed s :=
  ⟨h.placed, h.passed, h.freed, h.yields⟩

theorem RrStart.inv {tick : Int} {s : RrState} (h : RrStart tick s) : RrInv tick s where
  placed := h.placed
  passed t cpu ht := by
    rw [h.log] at ht
    cases ht
  freed := by
    rw [h.log, h.freed]
    rfl
  yields a _ t cpu heq := by
    rw [h.log] at heq
    exact absurd heq (by simp)
  cleaned cpu t ht := by
    rw [(h.dead cpu).2] at ht
    cases ht
  wake := h.wake
  run := h.run

variable {tick : Int} {cpu : Nat}

theorem rrAfter_attr (q : Queues) (u : Nat) :
    ((rrAfter tick cpu q).task u).attr = (q.task u).attr := by
  by_cases h : rrPicked tick cpu q.task (q.tq 0).run = some u
  · rw [rrAfter_task_picked h]
    unfold refillAll
    split <;> rfl
  · rw [rrAfter_task_other h]
    unfold refillAll
    split <;> rfl

/-- What a pick does to the lists. -/
theorem rrAfter_places (tick : Int) (cpu : Nat) (q : Queues) (p : RrPlace) :
    rrPlaces (rrAfter tick cpu q) p =
      if p = .run then rrQueue tick cpu q.task (q.tq 0).run
      else if p = .dead cpu then (q.tq cpu).dead ++ rrBuried tick cpu q.task (q.tq 0).run
      else rrPlaces q p := by
  have hscan : ∀ p, rrPlaces (rrAfter tick cpu q) p = rrPlaces (rrScanned tick cpu q) p := by
    intro p
    unfold rrAfter
    split
    · rfl
    · cases p <;> rfl
  rw [hscan]
  cases p with
  | run => simp [rrPlaces, rrScanned]
  | wake =>
    rw [if_neg (by decide), if_neg (by simp)]
    simp only [rrPlaces, rrScanned, Queues.setTq, Function.update_apply]
    by_cases h : 0 = cpu
    · subst h
      simp
    · simp [h]
  | dead c =>
    rw [if_neg (by simp)]
    simp only [rrPlaces, rrScanned, Queues.setTq, Function.update_apply, RrPlace.dead.injEq]
    split <;> split <;> simp_all
  | clean c =>
    rw [if_neg (by simp), if_neg (by simp)]
    simp only [rrPlaces, rrScanned, Queues.setTq, Function.update_apply]
    split <;> split <;> simp_all
  | freed => rfl

theorem rrAfter_dead (q : Queues) (c : Nat) :
    ((rrAfter tick cpu q).tq c).dead =
      if c = cpu then (q.tq cpu).dead ++ rrBuried tick cpu q.task (q.tq 0).run
      else (q.tq c).dead := by
  have h := rrAfter_places tick cpu q (.dead c)
  simpa [rrPlaces] using h

theorem rrAfter_clean (q : Queues) (c : Nat) :
    ((rrAfter tick cpu q).tq c).clean = (q.tq c).clean :=
  (rrAfter_places tick cpu q (.clean c)).trans (by simp [rrPlaces])

theorem rrAfter_freed (q : Queues) : (rrAfter tick cpu q).freed = q.freed :=
  (rrAfter_places tick cpu q .freed).trans (by simp [rrPlaces])

theorem rrPassedDead_buried {q : Queues} {t : Nat} (ht : t ∈ rrPassedDead tick cpu q)
    (hpinned : (q.task t).onCpu ≠ none) : t ∈ rrBuried tick cpu q.task (q.tq 0).run := by
  obtain ⟨hmem, hdead⟩ := List.mem_filter.mp ht
  simp only [onCpuOf, Bool.and_eq_true, Bool.or_eq_true, decide_eq_true_eq] at hdead
  refine List.mem_filter.mpr ⟨hmem, ?_⟩
  simp only [rrGone, Bool.and_eq_true, decide_eq_true_eq]
  exact ⟨hdead.1.resolve_right hpinned, hdead.2⟩

/-- **A pick** takes the dead tasks it comes past to the dead list. -/
theorem RrInv.pick {s s' : RrState} {fuel : Nat} {now : Int} (h : RrInv tick s)
    (hpinned : RrPinned tick s (.pick cpu fuel now))
    (hstep : rrStep tick s (.pick cpu fuel now) = some s') : RrInv tick s' := by
  have hnodup : (s.q.tq 0).run.Nodup := h.placed.nodup .run
  have hrefills : RrRefills tick cpu s.q := fun t ht _ => h.run t ht
  simp only [rrStep] at hstep
  split at hstep
  case h_1 => cases hstep
  case h_2 next q' hpick =>
    cases hstep
    obtain ⟨-, rfl⟩ := Prod.mk.inj (rrPickNext_some hnodup hrefills hpick)
    have hplace := rrAfter_places tick cpu s.q
    have hrun : ((rrAfter tick cpu s.q).tq 0).run = rrQueue tick cpu s.q.task (s.q.tq 0).run :=
      rrAfter_run s.q
    refine ⟨?_, ?_, ?_, ?_, ?_, ?_, ?_⟩
    · refine h.placed.move (p := .run) (r := .dead cpu) (by simp)
        (X := rrBuried tick cpu s.q.task (s.q.tq 0).run) ?_ ?_ ?_
      · rw [hplace, if_pos rfl]
        exact rrQueue_perm tick cpu s.q.task (s.q.tq 0).run
      · rw [hplace, if_neg (by simp), if_pos rfl]
        exact List.Perm.refl _
      · intro p hp hp'
        rw [hplace, if_neg hp, if_neg hp']
    · intro t c ht
      rw [rrAfter_dead, rrAfter_clean, rrAfter_freed]
      rcases List.mem_append.mp ht with ht | ht
      · rcases h.passed t c ht with h1 | h1
        · left
          split
          case isTrue hc => exact List.mem_append_left _ (hc ▸ h1)
          case isFalse => exact h1
        · exact .inr h1
      · obtain ⟨u, hu, heq⟩ := List.mem_map.mp ht
        obtain ⟨rfl, rfl⟩ := RrEvent.passed.inj heq
        left
        rw [if_pos rfl]
        exact List.mem_append_right _ (rrPassedDead_buried hu (hpinned u hu))
    · rw [freedIn_append, freedIn_passed, List.append_nil, h.freed, rrAfter_freed]
    · exact h.yields.quiet fun t c hmem => by simp at hmem
    · intro c t ht
      rw [rrAfter_clean] at ht
      obtain ⟨h1, h2⟩ := h.cleaned c t ht
      exact ⟨List.mem_append_left _ h1, fun hy => (h2 hy).append _⟩
    · intro t ht
      rw [rrAfter_attr]
      have hwake : ((rrAfter tick cpu s.q).tq 0).wake = (s.q.tq 0).wake :=
        (hplace .wake).trans (by simp [rrPlaces])
      exact h.wake t (hwake ▸ ht)
    · intro t ht
      rw [rrAfter_attr]
      refine h.run t ((rrQueue_perm tick cpu s.q.task
        (s.q.tq 0).run).subset (List.mem_append_right _ ?_))
      exact hrun ▸ ht

/-- **The yield** of a cleanup thread. -/
theorem RrInv.yield {s s' : RrState} (h : RrInv tick s)
    (hstep : rrStep tick s (.yield cpu) = some s') : RrInv tick s' := by
  simp only [rrStep] at hstep
  split at hstep
  case isTrue => cases hstep
  case isFalse =>
    cases hstep
    refine ⟨h.placed, ?_, ?_, ?_, ?_, h.wake, h.run⟩
    · intro t c ht
      refine h.passed t c ?_
      simpa using ht
    · rw [freedIn_append, h.freed]
      exact List.append_nil _
    · exact h.yields.quiet fun t c hmem => by simp at hmem
    · intro c t ht
      obtain ⟨h1, h2⟩ := h.cleaned c t ht
      refine ⟨List.mem_append_left _ h1, fun hy => ?_⟩
      by_cases hc : c = cpu
      · subst hc
        exact ⟨s.log, [], rfl, h1⟩
      · refine (h2 ?_).append _
        simpa [hc] using hy

/-- The tasks on the clean list are freed. -/
theorem rrFreeClean_placed {q : Queues} (h : Placed (rrPlaces q)) (cpu : Nat) :
    Placed (rrPlaces ({ q with freed := q.freed ++ (q.tq cpu).clean }.setTq cpu
      { q.tq cpu with clean := [] })) := by
  refine h.move (p := .clean cpu) (r := .freed) (X := (q.tq cpu).clean) (by simp) ?_ ?_ ?_
  · simp [rrPlaces, Queues.setTq]
  · exact List.Perm.refl _
  · intro p hp hp'
    cases p with
    | freed => exact absurd rfl hp'
    | clean c =>
      have hc : c ≠ cpu := fun heq => hp (heq ▸ rfl)
      simp [rrPlaces, Queues.setTq, hc]
    | wake =>
      simp only [rrPlaces, Queues.setTq, Function.update_apply]
      split <;> simp_all
    | run =>
      simp only [rrPlaces, Queues.setTq, Function.update_apply]
      split <;> simp_all
    | dead c =>
      simp only [rrPlaces, Queues.setTq, Function.update_apply]
      split <;> simp_all

/-- The tasks on the dead list go to the clean list. -/
theorem rrCollectDead_placed {q : Queues} (h : Placed (rrPlaces q)) (cpu : Nat) :
    Placed (rrPlaces (q.setTq cpu
      { q.tq cpu with dead := [], clean := (q.tq cpu).clean ++ (q.tq cpu).dead })) := by
  refine h.move (p := .dead cpu) (r := .clean cpu) (X := (q.tq cpu).dead) (by simp) ?_ ?_ ?_
  · simp [rrPlaces, Queues.setTq]
  · simp [rrPlaces, Queues.setTq]
  · intro p hp hp'
    cases p with
    | freed => rfl
    | clean c =>
      have hc : c ≠ cpu := fun heq => hp' (heq ▸ rfl)
      simp [rrPlaces, Queues.setTq, hc]
    | dead c =>
      have hc : c ≠ cpu := fun heq => hp (heq ▸ rfl)
      simp [rrPlaces, Queues.setTq, hc]
    | wake =>
      simp only [rrPlaces, Queues.setTq, Function.update_apply]
      split <;> simp_all
    | run =>
      simp only [rrPlaces, Queues.setTq, Function.update_apply]
      split <;> simp_all

/-- The state after a round. -/
def rrCleaned (q : Queues) (cpu : Nat) : Queues :=
  { q with freed := q.freed ++ (q.tq cpu).clean }.setTq cpu
    { q.tq cpu with dead := [], clean := (q.tq cpu).dead }

/-- What a round of the cleanup thread does to the lists. -/
theorem rrCleanup_eq (q : Queues) (cpu : Nat) :
    (rrFreeClean q cpu).bind (fun q => rrCollectDead q cpu) =
      some (rrCleaned q cpu) := by
  rw [rrFreeClean_eq, Option.bind_some, rrCollectDead_eq]
  simp [Queues.setTq, rrCleaned]

theorem rrCleaned_tq (q : Queues) (cpu c : Nat) :
    (rrCleaned q cpu).tq c =
      { q.tq c with
        dead := if c = cpu then [] else (q.tq c).dead
        clean := if c = cpu then (q.tq cpu).dead else (q.tq c).clean } := by
  simp only [rrCleaned, Queues.setTq, Function.update_apply]
  split
  case isTrue hc => simp [hc]
  case isFalse => rfl

theorem rrCleaned_placed {q : Queues} (h : Placed (rrPlaces q)) (cpu : Nat) :
    Placed (rrPlaces (rrCleaned q cpu)) := by
  have h1 := rrCollectDead_placed (rrFreeClean_placed h cpu) cpu
  simpa [Queues.setTq, rrCleaned] using h1

/-- **The rest of a round** of a cleanup thread. -/
theorem RrInv.cleanup {s s' : RrState} (h : RrInv tick s)
    (hstep : rrStep tick s (.cleanup cpu) = some s') : RrInv tick s' := by
  simp only [rrStep] at hstep
  split at hstep
  case isFalse => cases hstep
  case isTrue hyielded =>
    rw [rrCleanup_eq] at hstep
    cases hstep
    refine ⟨?_, ?_, ?_, ?_, ?_, ?_, ?_⟩
    · exact rrCleaned_placed h.placed cpu
    · intro t c ht
      have hold : .passed t c ∈ s.log := by simpa using ht
      simp only [rrCleaned_tq]
      by_cases hc : c = cpu
      · subst hc
        simp only [if_true]
        rcases h.passed t c hold with h1 | h1 | h1
        · exact .inr (.inl h1)
        · exact .inr (.inr (List.mem_append_right _ h1))
        · exact .inr (.inr (List.mem_append_left _ h1))
      · simp only [hc, if_false]
        rcases h.passed t c hold with h1 | h1 | h1
        · exact .inl h1
        · exact .inr (.inl h1)
        · exact .inr (.inr (List.mem_append_left _ h1))
    · rw [freedIn_append, freedIn_append, freedIn_freed, freedIn_collected, List.append_nil,
        h.freed]
      rfl
    · refine h.yields.append fun a b t c heq => ?_
      have hmem : RrEvent.freed t c ∈ (s.q.tq cpu).clean.map (fun t => RrEvent.freed t cpu) ++
          (s.q.tq cpu).dead.map fun t => RrEvent.collected t cpu :=
        heq ▸ List.mem_append_right a List.mem_cons_self
      rcases List.mem_append.mp hmem with hmem | hmem
      · obtain ⟨u, hu, hu'⟩ := List.mem_map.mp hmem
        obtain ⟨rfl, rfl⟩ := RrEvent.freed.inj hu'
        exact (h.cleaned _ u hu).2 hyielded
      · obtain ⟨u, -, hu'⟩ := List.mem_map.mp hmem
        cases hu'
    · intro c t ht
      simp only [rrCleaned_tq] at ht
      by_cases hc : c = cpu
      · subst hc
        rw [if_pos rfl] at ht
        refine ⟨?_, fun hy => ?_⟩
        · exact List.mem_append_right _ (List.mem_append_right _ (List.mem_map.mpr ⟨t, ht, rfl⟩))
        · simp at hy
      · rw [if_neg hc] at ht
        obtain ⟨h1, h2⟩ := h.cleaned c t ht
        refine ⟨List.mem_append_left _ h1, fun hy => (h2 ?_).append _⟩
        simpa [hc] using hy
    · intro t ht
      simp only [rrCleaned_tq] at ht
      exact h.wake t ht
    · intro t ht
      simp only [rrCleaned_tq] at ht
      exact h.run t ht

/-- **A new task** comes to the wake list. -/
theorem RrInv.enqueue {s s' : RrState} {t : Nat} (h : RrInv tick s)
    (hlegal : RrLegal s (.enqueue t)) (hstep : rrStep tick s (.enqueue t) = some s') :
    RrInv tick s' := by
  cases hstep
  have htq : ∀ c, ((rrEnqueue s.q t).2.tq c).run = (s.q.tq c).run ∧
      ((rrEnqueue s.q t).2.tq c).dead = (s.q.tq c).dead ∧
      ((rrEnqueue s.q t).2.tq c).clean = (s.q.tq c).clean := by
    intro c
    simp only [rrEnqueue, Queues.setTq, Function.update_apply]
    split <;> simp_all
  have hwake : ((rrEnqueue s.q t).2.tq 0).wake = (s.q.tq 0).wake ++ [t] := by
    simp [rrEnqueue, Queues.setTq]
  refine ⟨?_, ?_, h.freed, h.yields, ?_, ?_, ?_⟩
  · refine h.placed.add (p := .wake) (t := t) hlegal.1 ?_ ?_
    · change (((rrEnqueue s.q t).2.tq 0).wake).Perm (t :: (s.q.tq 0).wake)
      rw [hwake]
      exact List.perm_append_singleton t _
    · intro p hp
      cases p with
      | wake => exact absurd rfl hp
      | run => exact (htq 0).1
      | dead c => exact (htq c).2.1
      | clean c => exact (htq c).2.2
      | freed => rfl
  · intro u c hu
    rw [(htq c).2.1, (htq c).2.2]
    exact h.passed u c hu
  · intro c u hu
    rw [(htq c).2.2] at hu
    exact h.cleaned c u hu
  · intro u hu
    rw [hwake, List.mem_append, List.mem_singleton] at hu
    rcases hu with hu | rfl
    · exact h.wake u hu
    · exact hlegal.2
  · intro u hu
    rw [(htq 0).1] at hu
    exact h.run u hu

/-- **A task that is woken** goes to the run queue, with a slice of more than two ticks. -/
theorem RrInv.wakeUp {s s' : RrState} {t : Nat} {now : Int} (htick : 0 < tick) (h : RrInv tick s)
    (hstep : rrStep tick s (.wake t now) = some s') : RrInv tick s' := by
  cases hstep
  rcases hcase : rrWake tick s.q t now with ⟨ret, q⟩
  unfold rrWake at hcase
  split at hcase
  case isTrue =>
    cases hcase
    exact ⟨h.placed, h.passed, h.freed, h.yields, h.cleaned, h.wake, h.run⟩
  split at hcase
  case isTrue =>
    cases hcase
    exact ⟨h.placed, h.passed, h.freed, h.yields, h.cleaned, h.wake, h.run⟩
  case isFalse hmem =>
    have hmem := not_not.mp hmem
    have hrun : t ∉ (s.q.tq 0).run := fun hr => by
      have := h.placed.apart (p := .wake) (r := .run) hmem hr
      cases this
    obtain ⟨-, rfl⟩ := Prod.mk.inj hcase
    refine ⟨?_, ?_, h.freed, h.yields, ?_, ?_, ?_⟩
    · refine h.placed.move (p := .wake) (r := .run) (X := [t]) (by simp) ?_ ?_ ?_
      · simpa [rrPlaces, Queues.setTq] using (List.perm_cons_erase hmem).symm
      · simpa [rrPlaces, Queues.setTq] using (List.perm_append_singleton t (s.q.tq 0).run).symm
      · intro p hp hp'
        cases p with
        | wake => exact absurd rfl hp
        | run => exact absurd rfl hp'
        | freed => rfl
        | dead c =>
          simp only [rrPlaces, Queues.setTq, Queues.setTask, Function.update_apply]
          split <;> simp_all
        | clean c =>
          simp only [rrPlaces, Queues.setTq, Queues.setTask, Function.update_apply]
          split <;> simp_all
    · intro u c hu
      have hpass := h.passed u c hu
      simp only [Queues.setTq, Queues.setTask, Function.update_apply]
      split <;> simp_all
    · intro c u hu
      refine h.cleaned c u ?_
      simp only [Queues.setTq, Queues.setTask, Function.update_apply] at hu
      split at hu <;> simp_all
    · intro u hu
      have hu' : u ∈ (s.q.tq 0).wake.erase t := by
        simpa [Queues.setTq] using hu
      have hut : u ≠ t := (((h.placed.nodup .wake).mem_erase_iff).mp hu').1
      rw [Queues.setTq_task, Queues.setTask_task_other _ _ hut]
      exact h.wake u (List.mem_of_mem_erase hu')
    · intro u hu
      have hu' : u = t ∨ u ∈ (s.q.tq 0).run := by
        simpa [Queues.setTq] using hu
      rcases hu' with rfl | hu'
      · rw [Queues.setTq_task, Queues.setTask_task_self]
        have hprio := h.wake u hmem
        have hpos : (1 : Int) ≤ (s.q.task u).attr.priority := by omega
        nlinarith
      · have hut : u ≠ t := fun heq => hrun (heq ▸ hu')
        rw [Queues.setTq_task, Queues.setTask_task_other _ _ hut]
        exact h.run u hu'

/-- **A task runs or ends.** -/
theorem RrInv.setState {s s' : RrState} {t : Nat} {state : TaskState} {runtime : Int}
    (h : RrInv tick s) (hstep : rrStep tick s (.set t state runtime) = some s') :
    RrInv tick s' := by
  cases hstep
  have hattr : ∀ u, ((s.q.setTask t { s.q.task t with state := state, runtime := runtime }).task
      u).attr = (s.q.task u).attr := by
    intro u
    by_cases hu : u = t
    · subst hu
      simp
    · rw [Queues.setTask_task_other _ _ hu]
  refine ⟨h.placed, h.passed, h.freed, h.yields, h.cleaned, ?_, ?_⟩
  · intro u hu
    rw [hattr]
    exact h.wake u hu
  · intro u hu
    rw [hattr]
    exact h.run u hu

theorem RrInv.step (htick : 0 < tick) {s s' : RrState} {op : RrOp} (h : RrInv tick s)
    (hlegal : RrLegal s op) (hpinned : RrPinned tick s op) (hstep : rrStep tick s op = some s') :
    RrInv tick s' := by
  cases op with
  | pick cpu fuel now => exact h.pick hpinned hstep
  | yield cpu => exact h.yield hstep
  | cleanup cpu => exact h.cleanup hstep
  | enqueue t => exact h.enqueue hlegal hstep
  | wake t now => exact h.wakeUp htick hstep
  | set t state runtime => exact h.setState hstep

/-! ## 5. On the way to being freed -/

/-- How many rounds of its cleanup thread a task is away from being freed, at most. -/
def RoundsLeft (s : RrState) (t cpu : Nat) : Nat → Prop
  | 0 => t ∈ s.q.freed
  | 1 => t ∈ (s.q.tq cpu).clean ∨ t ∈ s.q.freed
  | _ => t ∈ (s.q.tq cpu).dead ∨ t ∈ (s.q.tq cpu).clean ∨ t ∈ s.q.freed

def isCleanup (cpu : Nat) : RrOp → Bool
  | .cleanup c => decide (c = cpu)
  | _ => false

/-- A step does not take a task back. -/
theorem RoundsLeft.mono {s s' : RrState} {t c k : Nat} (h : RoundsLeft s t c k)
    (hdead : (s.q.tq c).dead ⊆ (s'.q.tq c).dead) (hclean : (s.q.tq c).clean ⊆ (s'.q.tq c).clean)
    (hfreed : s.q.freed ⊆ s'.q.freed) : RoundsLeft s' t c k :=
  match k, h with
  | 0, h => hfreed h
  | 1, h => h.imp (fun h => hclean h) (fun h => hfreed h)
  | _ + 2, h => h.imp (fun h => hdead h) (Or.imp (fun h => hclean h) (fun h => hfreed h))

theorem RoundsLeft.step {s s' : RrState} {op : RrOp} {t c k : Nat} (hinv : RrInv tick s)
    (hstep : rrStep tick s op = some s') (h : RoundsLeft s t c k) :
    RoundsLeft s' t c (if isCleanup c op then k - 1 else k) := by
  cases op with
  | pick cpu fuel now =>
    have hrefills : RrRefills tick cpu s.q := fun t ht _ => hinv.run t ht
    simp only [rrStep] at hstep
    split at hstep
    case h_1 => cases hstep
    case h_2 next q' hpick =>
      cases hstep
      obtain ⟨-, rfl⟩ := Prod.mk.inj (rrPickNext_some (hinv.placed.nodup .run) hrefills hpick)
      refine h.mono ?_ ?_ ?_
      · rw [rrAfter_dead]
        split
        case isTrue hc =>
          rw [hc]
          exact List.subset_append_left _ _
        case isFalse => exact List.Subset.refl _
      · rw [rrAfter_clean]
        exact List.Subset.refl _
      · rw [rrAfter_freed]
        exact List.Subset.refl _
  | yield cpu =>
    simp only [rrStep] at hstep
    split at hstep
    · cases hstep
    · cases hstep
      exact h.mono (fun _ hu => hu) (fun _ hu => hu) (fun _ hu => hu)
  | cleanup cpu =>
    simp only [rrStep] at hstep
    split at hstep
    case isFalse => cases hstep
    case isTrue =>
      rw [rrCleanup_eq] at hstep
      cases hstep
      have hfreed : s.q.freed ⊆ (rrCleaned s.q cpu).freed := List.subset_append_left _ _
      by_cases hc : cpu = c
      · subst hc
        have hclean : (s.q.tq cpu).clean ⊆ (rrCleaned s.q cpu).freed :=
          List.subset_append_right _ _
        have hdead : ((rrCleaned s.q cpu).tq cpu).clean = (s.q.tq cpu).dead := by
          simp [rrCleaned_tq]
        simp only [isCleanup, decide_true, if_true]
        match k, h with
        | 0, h => exact hfreed h
        | 1, h => exact h.elim (fun h => hclean h) (fun h => hfreed h)
        | 2, h =>
          rcases h with h | h | h
          · exact .inl (hdead ▸ h)
          · exact .inr (hclean h)
          · exact .inr (hfreed h)
        | k + 3, h =>
          rcases h with h | h | h
          · exact .inr (.inl (hdead ▸ h))
          · exact .inr (.inr (hclean h))
          · exact .inr (.inr (hfreed h))
      · have hc' : c ≠ cpu := fun heq => hc heq.symm
        simp only [isCleanup, hc, decide_false, Bool.false_eq_true, if_false]
        refine h.mono ?_ ?_ hfreed
        · simp [rrCleaned_tq, hc']
        · simp [rrCleaned_tq, hc']
  | enqueue u =>
    cases hstep
    refine h.mono ?_ ?_ (fun _ hu => hu)
    · simp only [rrEnqueue, Queues.setTq, Function.update_apply]
      split <;> simp_all
    · simp only [rrEnqueue, Queues.setTq, Function.update_apply]
      split <;> simp_all
  | wake u now =>
    cases hstep
    refine h.mono ?_ ?_ ?_
    · unfold rrWake
      split <;> [skip; split] <;> simp only [Queues.setTq, Queues.setTask, Function.update_apply,
        List.Subset.refl]
      split <;> simp_all
    · unfold rrWake
      split <;> [skip; split] <;> simp only [Queues.setTq, Queues.setTask, Function.update_apply,
        List.Subset.refl]
      split <;> simp_all
    · unfold rrWake
      split <;> [skip; split] <;> exact List.Subset.refl _
  | set u state runtime =>
    cases hstep
    exact h.mono (fun _ hu => hu) (fun _ hu => hu) (fun _ hu => hu)

/-- What a run brings a task to. -/
theorem RoundsLeft.run (htick : 0 < tick) {c t : Nat} :
    ∀ {os : List RrOp} {s s' : RrState} {k : Nat},
    RrInv tick s → System.AllowedAll (rrStep tick) (fun s op => RrLegal s op ∧ RrPinned tick s op)
      s os → System.stepAll (rrStep tick) s os = some s' → RoundsLeft s t c k →
      k ≤ os.countP (isCleanup c) → t ∈ s'.q.freed
  | [], _, _, k, _, _, heq, h, hk => by
    cases heq
    obtain rfl : k = 0 := by simpa using hk
    exact h
  | op :: os, s, s', k, hinv, hall, heq, h, hk => by
    obtain ⟨s₁, h1, h2⟩ := Option.bind_eq_some_iff.mp heq
    refine RoundsLeft.run htick (hinv.step htick hall.1.1 hall.1.2 h1) (hall.2 s₁ h1) h2
      (h.step hinv h1) ?_
    rw [List.countP_cons] at hk
    split at hk
    · rename_i hclean
      rw [if_pos hclean]
      omega
    · rename_i hclean
      rw [if_neg hclean]
      omega

/-- **Dead tasks are reclaimed**, in a run in which no unpinned task is among the dead ones that
`rr_pick_next` comes past: each is on its way, in one place, and is freed at most once, after a
yield.  Two rounds of the cleanup thread take it from the dead list to being freed. -/
theorem rr_reclaims {tick : Int} (htick : 0 < tick) {s : RrState}
    (h : (rrSystem tick).Reachable (fun s op => RrLegal s op ∧ RrPinned tick s op) s) :
    RrReclaimed s ∧ ∀ os s' t cpu,
      System.AllowedAll (rrStep tick) (fun s op => RrLegal s op ∧ RrPinned tick s op) s os →
      System.stepAll (rrStep tick) s os = some s' → t ∈ (s.q.tq cpu).dead →
      2 ≤ os.countP (isCleanup cpu) → t ∈ s'.q.freed := by
  have hinv : RrInv tick s := System.Reachable.invariant (I := RrInv tick)
    (fun _ (hs : RrStart tick _) => hs.inv)
    (fun _ _ _ hI hok hstep => hI.step htick hok.1 hok.2 hstep) h
  refine ⟨hinv.reclaimed, fun os s' t cpu hall heq hdead hcount => ?_⟩
  exact RoundsLeft.run htick (k := 2) hinv hall heq (.inl hdead) hcount

/-! ## 6. A run queue with a dead task -/

/-- Tasks on the run queue, nothing anywhere else. -/
def rrStateOf (tasks : List TaskStruct) : RrState := ⟨rrQueuesOf tasks, fun _ => false, []⟩

theorem rrStateOf_start {tick : Int} {tasks : List TaskStruct}
    (hwcet : ∀ tsk ∈ tasks, 2 * tick < tsk.attr.wcet) : RrStart tick (rrStateOf tasks) where
  placed := by
    have hnil : ∀ p, p ≠ .run → rrPlaces (rrQueuesOf tasks) p = [] := by
      intro p hp
      cases p <;> first | rfl | exact absurd rfl hp
    have hrun : rrPlaces (rrQueuesOf tasks) .run = List.range tasks.length := rfl
    have honly : ∀ {p t}, t ∈ rrPlaces (rrQueuesOf tasks) p → p = .run := by
      intro p t ht
      by_contra hp
      rw [hnil p hp] at ht
      cases ht
    refine ⟨fun p => ?_, fun hp hp' => (honly hp).trans (honly hp').symm⟩
    by_cases hp : p = .run
    · subst hp
      exact hrun ▸ List.nodup_range
    · rw [show rrPlaces (rrStateOf tasks).q p = [] from hnil p hp]
      exact List.nodup_nil
  dead _ := ⟨rfl, rfl⟩
  freed := rfl
  yielded _ := rfl
  log := rfl
  wake _ ht := by cases ht
  run t ht := by
    have hlt : t < tasks.length := List.mem_range.mp ht
    change 2 * tick < (tasks.getD t _).attr.wcet
    rw [List.getD_eq_getElem _ _ hlt]
    exact hwcet _ (List.getElem_mem hlt)

/-- A dead task of the CPU `0`, and one that is ready. -/
def rrDeadPinned : RrState := rrStateOf [rrTaskOf .dead (some 0) 0 16, rrTaskOf .run none 16 16]

theorem rr_reclaims_pinned : ∃ s s', (rrSystem 1).Reachable
      (fun s op => RrLegal s op ∧ RrPinned 1 s op) s ∧ (s.q.tq 0).dead = [0] ∧
    System.stepAll (rrStep 1) s [.yield 0, .cleanup 0, .yield 0, .cleanup 0] = some s' ∧
    0 ∈ s'.q.freed := by
  have hreach : ∃ s, rrStep 1 rrDeadPinned (.pick 0 4 0) = some s ∧ (s.q.tq 0).dead = [0] ∧
      ∃ s', System.stepAll (rrStep 1) s [.yield 0, .cleanup 0, .yield 0, .cleanup 0] = some s' :=
    ⟨_, rfl, by decide, _, rfl⟩
  obtain ⟨s, hs, hdead, s', hs'⟩ := hreach
  have hr : (rrSystem 1).Reachable (fun s op => RrLegal s op ∧ RrPinned 1 s op) s :=
    .step (o := .pick 0 4 0) (.init (rrStateOf_start (by decide))) ⟨trivial, by decide⟩ hs
  refine ⟨s, s', hr, hdead, hs', (rr_reclaims (by decide) hr).2 _ s' 0 0 ?_ hs' (by simp [hdead])
    (by decide)⟩
  exact ⟨⟨trivial, trivial⟩, fun _ _ => ⟨⟨trivial, trivial⟩, fun _ _ => ⟨⟨trivial, trivial⟩,
    fun _ _ => ⟨⟨trivial, trivial⟩, fun _ _ => trivial⟩⟩⟩⟩

/-- A dead task that is not pinned. -/
def rrDeadUnpinned : RrState := rrStateOf [rrTaskOf .dead none 0 16, rrTaskOf .run none 16 16]

/-- **An unpinned dead task stays on the run queue.** -/
theorem rr_reclaims_unpinned :
    ¬ ∀ (tick : Int) (s : RrState), 0 < tick → (rrSystem tick).Reachable RrLegal s →
      RrReclaimed s := by
  intro h
  have hrun : ∃ s, rrStep 1 rrDeadUnpinned (.pick 0 4 0) = some s ∧ s.log = [.passed 0 0] ∧
      0 ∉ (s.q.tq 0).dead ∧ 0 ∉ (s.q.tq 0).clean ∧ 0 ∉ s.q.freed :=
    ⟨_, rfl, by decide, by decide, by decide, by decide⟩
  obtain ⟨s, hs, hlog, hdead, hclean, hfreed⟩ := hrun
  have hr : (rrSystem 1).Reachable RrLegal s :=
    .step (o := .pick 0 4 0) (.init (rrStateOf_start (by decide))) trivial hs
  rcases (h 1 s (by decide) hr).passed 0 0 (by simp [hlog]) with h1 | h1 | h1
  · exact hdead h1
  · exact hclean h1
  · exact hfreed h1

end FlightOs
