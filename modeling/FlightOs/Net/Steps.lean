/-
# The pool of a task's steps

`pt_create` allocates all steps of a task as one block, the pool, and every step is linked into one
of three lists from then on: to do, done (newest first) or free.  Here a step is known by its place
in the pool, so that it can be said where each of them is, and what an entry that is used again
still holds.  `PtSteps.task` forgets the places and gives the task of `Net/Task.lean`.

* `PtSteps.Pooled`: each entry of the pool is in one of the lists, once.
* `pt_rewind_restores_iff`: rewinding brings back what has been executed, in order, as long as
  `pt_del_all_pending` is called with nothing pending only.  It is documented to move the pending
  steps to the free list, but marks them done.
* `pt_op_info_freed_once_iff`: an op info is freed once, by `pt_destroy`, unless `pt_add_step`
  overwrites it.  A deleted step keeps its op info on the free list, and the step that takes the
  entry next does not free it.
-/
import FlightOs.Net.Task
import FlightOs.Lib.SafeIter
import FlightOs.Lib.System
import Mathlib.Logic.Function.Basic

namespace FlightOs

/-- The steps of a task: the pool and the lists of places in it. -/
structure PtSteps where
  pool : Nat → ProcStep
  todo : List Nat
  done : List Nat
  free : List Nat

namespace PtSteps

/-! ## 1. The operations -/

/-- `pt_create`, of `k` steps: the pool is zeroed and linked into the free list in order. -/
def ptCreate (k : Nat) : PtSteps where
  pool := fun _ => ⟨0, 0⟩
  todo := []
  done := []
  free := List.range k

def ptAddStep (t : PtSteps) (opCode opInfo : Nat) : Int × PtSteps :=
  if opCode = 0 then (-EINVAL, t)
  else
    match t.free with
    | [] => (-ENOMEM, t)
    | s :: free =>
      (0, { t with
        pool := Function.update t.pool s ⟨opCode, opInfo⟩
        todo := t.todo ++ [s]
        free := free })

def ptGetPendStepOpCode (t : PtSteps) : Nat :=
  match t.todo with
  | [] => 0
  | s :: _ => (t.pool s).opCode

def ptNextPendStepDone (t : PtSteps) : Int × PtSteps :=
  match t.todo with
  | [] => (-1, t)
  | s :: todo => (0, { t with todo := todo, done := s :: t.done })

def ptDelPendStep (t : PtSteps) : Int × PtSteps :=
  match t.todo with
  | [] => (-1, t)
  | s :: todo => (0, { t with todo := todo, free := t.free ++ [s] })

def ptDelLastStepDone (t : PtSteps) : Int × PtSteps :=
  match t.done with
  | [] => (-1, t)
  | s :: done => (0, { t with done := done, free := t.free ++ [s] })

/-- The loop of `pt_del_all_pending`, for at most `n` rounds. -/
def delAllPending : Nat → PtSteps → PtSteps
  | 0, t => t
  | n + 1, t =>
    if t.ptGetPendStepOpCode = 0 then t else delAllPending n t.ptNextPendStepDone.2

/-- `pt_del_all_pending`: every round takes a step off the list of those to do. -/
def ptDelAllPending (t : PtSteps) : PtSteps := delAllPending t.todo.length t

/-- The turn of a done step: `list_move` puts it at the head of the list of those to do. -/
def rewindTurn (todo _ : List Nat) (s : Nat) (_ : List Nat) : Turn (List Nat) :=
  ⟨s :: todo, .out, false⟩

def ptRewindStepsDone (t : PtSteps) : PtSteps :=
  if t.done = [] then t
  else
    match safeFor rewindTurn (t.done.length + 1) t.todo [] t.done with
    | some (todo, done) => { t with todo := todo, done := done }
    | none => t

/-- `pt_destroy`: the op infos that are passed to `kfree`, before the pool and the task itself. -/
def ptDestroy (t : PtSteps) : List Nat :=
  t.todo.map (fun s => (t.pool s).opInfo) ++ t.done.map (fun s => (t.pool s).opInfo) ++
    t.free.map fun s => (t.pool s).opInfo

/-- The task as the network sees it: steps without their places. -/
def task (t : PtSteps) (u : ProcTask) : ProcTask :=
  { u with todo := t.todo.map t.pool, done := t.done.map t.pool, free := t.free.map t.pool }

/-- Each entry of the pool is in one of the lists, once. -/
def Pooled (k : Nat) (t : PtSteps) : Prop := (t.todo ++ t.done ++ t.free).Perm (List.range k)

instance (k : Nat) (t : PtSteps) : Decidable (t.Pooled k) :=
  inferInstanceAs (Decidable (List.Perm _ _))

/-! ## 2. What the operations do -/

section Operations

variable {k opCode opInfo : Nat} {t : PtSteps}

theorem ptRewindStepsDone_eq (t : PtSteps) :
    t.ptRewindStepsDone = { t with todo := t.done.reverse ++ t.todo, done := [] } := by
  unfold ptRewindStepsDone
  by_cases h : t.done = []
  · rw [if_pos h, h, List.reverse_nil, List.nil_append, ← h]
  · have hloop : safeFor rewindTurn (t.done.length + 1) t.todo [] t.done =
        some (t.done.foldl (fun todo s => s :: todo) t.todo, []) :=
      safeFor_drain (fun _ _ _ _ => rfl) (Nat.lt_succ_self _)
    rw [if_neg h, hloop]
    simp

/-- What `pt_add_step` can do. -/
theorem ptAddStep_cases (t : PtSteps) (opCode opInfo : Nat) :
    (∃ r : Int, r ≠ 0 ∧ t.ptAddStep opCode opInfo = (r, t) ∧ (opCode = 0 ∨ t.free = [])) ∨
      ∃ s free, opCode ≠ 0 ∧ t.free = s :: free ∧ t.ptAddStep opCode opInfo =
        (0, { t with
          pool := Function.update t.pool s ⟨opCode, opInfo⟩
          todo := t.todo ++ [s]
          free := free }) := by
  unfold ptAddStep
  by_cases h : opCode = 0
  · exact .inl ⟨-EINVAL, by decide, if_pos h, .inl h⟩
  · rw [if_neg h]
    cases hfree : t.free with
    | nil => exact .inl ⟨-ENOMEM, by decide, rfl, .inr rfl⟩
    | cons s free => exact .inr ⟨s, free, h, rfl, rfl⟩

/-- The loop of `pt_del_all_pending`, when no pending step has the op code 0. -/
theorem delAllPending_eq : ∀ (todo : List Nat) (t : PtSteps), t.todo = todo →
    (∀ s ∈ todo, (t.pool s).opCode ≠ 0) →
    delAllPending todo.length t = { t with todo := [], done := todo.reverse ++ t.done }
  | [], t, h, _ => by
    rw [List.length_nil, delAllPending, List.reverse_nil, List.nil_append, ← h]
  | s :: todo, t, h, hcode => by
    have hop : t.ptGetPendStepOpCode ≠ 0 := by
      rw [ptGetPendStepOpCode, h]
      exact hcode s (List.mem_cons_self ..)
    have hdone : t.ptNextPendStepDone.2 = { t with todo := todo, done := s :: t.done } := by
      rw [ptNextPendStepDone, h]
    rw [List.length_cons, delAllPending, if_neg hop, hdone,
      delAllPending_eq todo { t with todo := todo, done := s :: t.done } rfl
        (fun u hu => hcode u (List.mem_cons_of_mem _ hu))]
    simp

theorem ptDelAllPending_eq (h : ∀ s ∈ t.todo, (t.pool s).opCode ≠ 0) :
    t.ptDelAllPending = { t with todo := [], done := t.todo.reverse ++ t.done } :=
  delAllPending_eq t.todo t rfl h

theorem ptDelAllPending_nil (h : t.todo = []) : t.ptDelAllPending = t := by
  rw [ptDelAllPending, h]
  rfl

end Operations

/-! ## 3. The task the network sees -/

section Task

variable {opCode opInfo : Nat} {t : PtSteps} (u : ProcTask)

/-- Writing an entry that is in none of the lists changes no step. -/
theorem map_update {l : List Nat} {s : Nat} (pool : Nat → ProcStep) (p : ProcStep) (h : s ∉ l) :
    l.map (Function.update pool s p) = l.map pool :=
  List.map_congr_left fun _ hx => Function.update_of_ne (ne_of_mem_of_not_mem hx h) _ _

theorem Pooled.nodup {k : Nat} (h : t.Pooled k) : (t.todo ++ t.done ++ t.free).Nodup :=
  h.nodup_iff.mpr List.nodup_range

/-- The entry that `pt_add_step` takes is in none of the lists any more. -/
theorem Pooled.taken {k s : Nat} {free : List Nat} (h : t.Pooled k) (hfree : t.free = s :: free) :
    s ∉ t.todo ∧ s ∉ t.done ∧ s ∉ free := by
  have hnodup := h.nodup
  rw [hfree, List.nodup_append] at hnodup
  obtain ⟨-, hcons, hdisj⟩ := hnodup
  exact ⟨fun hs => hdisj s (List.mem_append_left _ hs) s (List.mem_cons_self ..) rfl,
    fun hs => hdisj s (List.mem_append_right _ hs) s (List.mem_cons_self ..) rfl,
    (List.nodup_cons.mp hcons).1⟩

theorem ptCreate_task (k data size type seq : Nat) :
    (ptCreate k).task (FlightOs.ptCreate data size k type seq) =
      FlightOs.ptCreate data size k type seq := by
  simp [task, ptCreate, FlightOs.ptCreate, List.map_const']

theorem ptAddStep_task {k : Nat} (h : t.Pooled k) (opCode opInfo : Nat) :
    FlightOs.ptAddStep (t.task u) opCode opInfo =
      ((t.ptAddStep opCode opInfo).1, (t.ptAddStep opCode opInfo).2.task u) := by
  by_cases hop : opCode = 0
  · simp [FlightOs.ptAddStep, ptAddStep, hop]
  · cases hfree : t.free with
    | nil => simp [FlightOs.ptAddStep, ptAddStep, hop, hfree, task]
    | cons s free =>
      obtain ⟨htodo, hdone, hrest⟩ := h.taken hfree
      simp [FlightOs.ptAddStep, ptAddStep, hop, hfree, task, map_update, htodo, hdone, hrest]

theorem ptGetPendStepOpCode_task (t : PtSteps) :
    FlightOs.ptGetPendStepOpCode (t.task u) = t.ptGetPendStepOpCode := by
  cases h : t.todo <;> simp [FlightOs.ptGetPendStepOpCode, ptGetPendStepOpCode, task, h]

theorem ptNextPendStepDone_task (t : PtSteps) :
    FlightOs.ptNextPendStepDone (t.task u) = t.ptNextPendStepDone.2.task u := by
  cases h : t.todo <;> simp [FlightOs.ptNextPendStepDone, ptNextPendStepDone, task, h]

theorem ptDelPendStep_task (t : PtSteps) :
    FlightOs.ptDelPendStep (t.task u) = t.ptDelPendStep.2.task u := by
  cases h : t.todo <;> simp [FlightOs.ptDelPendStep, ptDelPendStep, task, h]

theorem delAllPending_task : ∀ (n : Nat) (t : PtSteps),
    FlightOs.delAllPending n (t.task u) = (delAllPending n t).task u
  | 0, _ => rfl
  | n + 1, t => by
    rw [FlightOs.delAllPending, delAllPending, ptGetPendStepOpCode_task]
    by_cases h : t.ptGetPendStepOpCode = 0
    · rw [if_pos h, if_pos h]
    · rw [if_neg h, if_neg h, ptNextPendStepDone_task, delAllPending_task n]

theorem ptDelAllPending_task (t : PtSteps) :
    FlightOs.ptDelAllPending (t.task u) = t.ptDelAllPending.task u := by
  rw [FlightOs.ptDelAllPending, ptDelAllPending, ← delAllPending_task]
  simp [task]

end Task

/-- The op info of the entry that `pt_add_step` takes next. -/
def nextInfo (t : PtSteps) : Nat :=
  match t.free with
  | [] => 0
  | s :: _ => (t.pool s).opInfo

end PtSteps

/-! ## 4. The life of a task -/

/-- What is done with the steps of a task. -/
inductive PtOp
  | add (opCode opInfo : Nat)
  | done
  | delPend
  | delLastDone
  | delAll
  | rewind
  deriving DecidableEq, Repr

/-- A task with its history: the steps executed and not rewound, with their places and in the order
they have been executed in, the op infos that have been accepted, and those overwritten since. -/
structure PtLife where
  steps : PtSteps
  executed : List (Nat × ProcStep)
  accepted : List Nat
  overwritten : List Nat

def PtLife.step (l : PtLife) : PtOp → PtLife
  | .add opCode opInfo =>
    let r := l.steps.ptAddStep opCode opInfo
    if r.1 = 0 then
      { l with
        steps := r.2
        accepted := opInfo :: l.accepted
        overwritten := l.steps.nextInfo :: l.overwritten }
    else { l with steps := r.2 }
  | .done =>
    { l with
      steps := l.steps.ptNextPendStepDone.2
      executed := l.executed ++ (l.steps.todo.take 1).map fun s => (s, l.steps.pool s) }
  | .delPend => { l with steps := l.steps.ptDelPendStep.2 }
  | .delLastDone =>
    { l with steps := l.steps.ptDelLastStepDone.2, executed := l.executed.dropLast }
  | .delAll => { l with steps := l.steps.ptDelAllPending }
  | .rewind => { l with steps := l.steps.ptRewindStepsDone, executed := [] }

/-- A task of `k` steps at the start of its life. -/
def PtLife.create (k : Nat) : PtLife := ⟨PtSteps.ptCreate k, [], [], []⟩

/-- Rewinding puts what has been executed in front of what is to do, as it was. -/
def PtLife.Rewinds (l : PtLife) : Prop :=
  l.steps.ptRewindStepsDone.todo = l.executed.map Prod.fst ++ l.steps.todo ∧
    ∀ e ∈ l.executed, l.steps.ptRewindStepsDone.pool e.1 = e.2

instance (l : PtLife) : Decidable l.Rewinds := inferInstanceAs (Decidable (_ ∧ _))

/-- `pt_del_all_pending` is called with nothing pending only. -/
def PtLife.DeletesNone (l : PtLife) (o : PtOp) : Prop := o = .delAll → l.steps.todo = []

instance (l : PtLife) (o : PtOp) : Decidable (l.DeletesNone o) :=
  inferInstanceAs (Decidable (_ → _))

/-- `pt_add_step` takes entries that hold no op info only. -/
def PtLife.TakesEmpty (l : PtLife) : PtOp → Prop
  | .add opCode _ => opCode ≠ 0 → l.steps.nextInfo = 0
  | _ => True

instance (l : PtLife) (o : PtOp) : Decidable (l.TakesEmpty o) := by
  cases o <;> unfold PtLife.TakesEmpty <;> infer_instance

/-! ## 5. The pool in every run -/

/-- What holds of the steps in every run: the pool is whole, and the steps have op codes. -/
structure PtSteps.Valid (k : Nat) (t : PtSteps) : Prop where
  pooled : t.Pooled k
  codes : ∀ s ∈ t.todo ++ t.done, (t.pool s).opCode ≠ 0

theorem PtSteps.Valid.create (k : Nat) : (PtSteps.ptCreate k).Valid k where
  pooled := .refl _
  codes s hs := by cases hs

section Valid

variable {k : Nat} {t t' : PtSteps}

/-- The entries have moved between the lists, none of them to a list of steps. -/
theorem PtSteps.Valid.moved (h : t.Valid k) (hpool : t'.pool = t.pool)
    (hperm : (t'.todo ++ t'.done ++ t'.free).Perm (t.todo ++ t.done ++ t.free))
    (hsub : t'.todo ++ t'.done ⊆ t.todo ++ t.done) : t'.Valid k where
  pooled := hperm.trans h.pooled
  codes s hs := by
    rw [hpool]
    exact h.codes s (hsub hs)

theorem PtSteps.Valid.add (h : t.Valid k) (opCode opInfo : Nat) :
    (t.ptAddStep opCode opInfo).2.Valid k := by
  rcases t.ptAddStep_cases opCode opInfo with ⟨r, -, heq, -⟩ | ⟨s, free, hop, hfree, heq⟩
  · rw [heq]
    exact h
  · obtain ⟨htodo, hdone, hrest⟩ := h.pooled.taken hfree
    rw [heq]
    constructor
    · have hperm := h.pooled
      rw [PtSteps.Pooled, hfree] at hperm
      refine List.Perm.trans ?_ hperm
      simp only [List.append_assoc, List.singleton_append]
      exact List.perm_middle.symm.append_left _
    · intro x hx
      dsimp only at hx ⊢
      by_cases hxs : x = s
      · rw [hxs, Function.update_self]
        exact hop
      · rw [Function.update_of_ne hxs]
        refine h.codes x ?_
        simp only [List.mem_append, List.mem_singleton] at hx ⊢
        tauto

theorem PtSteps.Valid.done (h : t.Valid k) : t.ptNextPendStepDone.2.Valid k := by
  cases htodo : t.todo with
  | nil => simpa [ptNextPendStepDone, htodo] using h
  | cons s todo =>
    refine h.moved (by simp [ptNextPendStepDone, htodo]) ?_ ?_
    · simp only [ptNextPendStepDone, htodo, List.cons_append]
      exact (List.perm_middle).append_right _
    · simp only [ptNextPendStepDone, htodo]
      exact (List.perm_middle).subset

theorem PtSteps.Valid.delPend (h : t.Valid k) : t.ptDelPendStep.2.Valid k := by
  cases htodo : t.todo with
  | nil => simpa [ptDelPendStep, htodo] using h
  | cons s todo =>
    refine h.moved (by simp [ptDelPendStep, htodo]) ?_ ?_
    · simp only [ptDelPendStep, htodo, ← List.append_assoc]
      exact List.perm_append_singleton s _
    · simp only [ptDelPendStep, htodo]
      exact List.subset_cons_self s _

theorem PtSteps.Valid.delLastDone (h : t.Valid k) : t.ptDelLastStepDone.2.Valid k := by
  cases hdone : t.done with
  | nil => simpa [ptDelLastStepDone, hdone] using h
  | cons s done =>
    refine h.moved (by simp [ptDelLastStepDone, hdone]) ?_ ?_
    · simp only [ptDelLastStepDone, hdone, ← List.append_assoc]
      exact (List.perm_append_singleton s _).trans (List.perm_middle.symm.append_right _)
    · simp only [ptDelLastStepDone, hdone]
      exact List.append_subset.mpr ⟨List.subset_append_left _ _,
        List.Subset.trans (List.subset_cons_self s _) (List.subset_append_right _ _)⟩

theorem PtSteps.Valid.delAll_eq (h : t.Valid k) :
    t.ptDelAllPending = { t with todo := [], done := t.todo.reverse ++ t.done } :=
  ptDelAllPending_eq fun s hs => h.codes s (List.mem_append_left _ hs)

theorem PtSteps.Valid.delAll (h : t.Valid k) : t.ptDelAllPending.Valid k := by
  rw [h.delAll_eq]
  refine h.moved rfl ?_ ?_
  · exact ((List.reverse_perm _).append_right _).append_right _
  · exact ((List.reverse_perm _).append_right _).subset

theorem PtSteps.Valid.rewind (h : t.Valid k) : t.ptRewindStepsDone.Valid k := by
  rw [ptRewindStepsDone_eq]
  have hperm : (t.done.reverse ++ t.todo ++ []).Perm (t.todo ++ t.done) := by
    rw [List.append_nil]
    exact ((List.reverse_perm _).append_right _).trans List.perm_append_comm
  exact h.moved rfl (hperm.append_right _) hperm.subset

end Valid

/-- **Each entry of the pool is in one list**, whatever is done. -/
theorem PtLife.valid_step {k : Nat} (l : PtLife) (o : PtOp) (h : l.steps.Valid k) :
    (l.step o).steps.Valid k := by
  cases o with
  | add opCode opInfo =>
    unfold PtLife.step
    dsimp only
    split
    · exact h.add opCode opInfo
    · exact h.add opCode opInfo
  | done => exact h.done
  | delPend => exact h.delPend
  | delLastDone => exact h.delLastDone
  | delAll => exact h.delAll
  | rewind => exact h.rewind

/-! ## 6. What rewinding restores -/

/-- The list of the steps done is the history of what has been executed, backwards. -/
structure PtLife.History (k : Nat) (l : PtLife) : Prop where
  valid : l.steps.Valid k
  done : l.steps.done = (l.executed.map Prod.fst).reverse
  kept : ∀ e ∈ l.executed, l.steps.pool e.1 = e.2

section History

variable {k : Nat} {l : PtLife}

theorem PtLife.History.create (k : Nat) : (PtLife.create k).History k where
  valid := .create k
  done := rfl
  kept e he := by cases he

theorem PtLife.History.rewinds (h : l.History k) : l.Rewinds := by
  rw [PtLife.Rewinds, PtSteps.ptRewindStepsDone_eq]
  refine ⟨?_, h.kept⟩
  dsimp only
  rw [h.done, List.reverse_reverse]

theorem PtLife.History.add (h : l.History k) (opCode opInfo : Nat) :
    (l.step (.add opCode opInfo)).History k := by
  have hvalid := l.valid_step (.add opCode opInfo) h.valid
  rcases l.steps.ptAddStep_cases opCode opInfo with ⟨r, hr, heq, -⟩ | ⟨s, free, hop, hfree, heq⟩
  · have hstep : l.step (.add opCode opInfo) = l := by
      rw [PtLife.step, heq]
      exact if_neg hr
    rw [hstep]
    exact h
  · have hstep : l.step (.add opCode opInfo) =
        { l with
          steps := (l.steps.ptAddStep opCode opInfo).2
          accepted := opInfo :: l.accepted
          overwritten := l.steps.nextInfo :: l.overwritten } := by
      rw [PtLife.step, heq]
      exact if_pos rfl
    rw [hstep] at hvalid ⊢
    refine ⟨hvalid, ?_, fun e he => ?_⟩
    · rw [heq]
      exact h.done
    · -- an entry that has been executed is not the one taken
      have hne : e.1 ≠ s := by
        intro hes
        refine (h.valid.pooled.taken hfree).2.1 ?_
        rw [h.done, List.mem_reverse, ← hes]
        exact List.mem_map_of_mem he
      rw [heq]
      exact (Function.update_of_ne hne _ _).trans (h.kept e he)

theorem PtLife.History.executeDone (h : l.History k) : (l.step .done).History k := by
  refine ⟨l.valid_step .done h.valid, ?_, ?_⟩
  · cases htodo : l.steps.todo with
    | nil => simpa [PtLife.step, PtSteps.ptNextPendStepDone, htodo] using h.done
    | cons s todo => simp [PtLife.step, PtSteps.ptNextPendStepDone, htodo, h.done]
  · cases htodo : l.steps.todo with
    | nil => simpa [PtLife.step, PtSteps.ptNextPendStepDone, htodo] using h.kept
    | cons s todo =>
      intro e he
      simp only [PtLife.step, htodo, List.take_succ_cons, List.take_zero, List.map_cons,
        List.map_nil, List.mem_append, List.mem_singleton] at he
      simp only [PtLife.step, PtSteps.ptNextPendStepDone, htodo]
      rcases he with he | rfl
      · exact h.kept e he
      · rfl

theorem PtLife.History.delPend (h : l.History k) : (l.step .delPend).History k := by
  refine ⟨l.valid_step .delPend h.valid, ?_, ?_⟩
  · cases htodo : l.steps.todo <;>
      simpa [PtLife.step, PtSteps.ptDelPendStep, htodo] using h.done
  · cases htodo : l.steps.todo <;>
      simpa [PtLife.step, PtSteps.ptDelPendStep, htodo] using h.kept

theorem PtLife.History.delLastDone (h : l.History k) : (l.step .delLastDone).History k := by
  have hdone : (l.step .delLastDone).steps.done = l.steps.done.tail := by
    cases h : l.steps.done <;> simp [PtLife.step, PtSteps.ptDelLastStepDone, h]
  have hpool : (l.step .delLastDone).steps.pool = l.steps.pool := by
    cases h : l.steps.done <;> simp [PtLife.step, PtSteps.ptDelLastStepDone, h]
  refine ⟨l.valid_step .delLastDone h.valid, ?_, fun e he => ?_⟩
  · rw [hdone, h.done, List.tail_reverse, ← List.map_dropLast]
    rfl
  · rw [hpool]
    exact h.kept e (List.dropLast_subset _ he)

theorem PtLife.History.rewind (h : l.History k) : (l.step .rewind).History k := by
  refine ⟨l.valid_step .rewind h.valid, ?_, fun e he => by cases he⟩
  change l.steps.ptRewindStepsDone.done = _
  rw [PtSteps.ptRewindStepsDone_eq]
  rfl

/-- With steps pending, they are marked done and come back. -/
theorem PtLife.History.rewinds_delAll_iff (h : l.History k) :
    (l.step .delAll).Rewinds ↔ l.steps.todo = [] := by
  have hdel : (l.step .delAll).steps =
      { l.steps with todo := [], done := l.steps.todo.reverse ++ l.steps.done } := h.valid.delAll_eq
  rw [PtLife.Rewinds, PtSteps.ptRewindStepsDone_eq, hdel]
  dsimp only
  rw [h.done, List.reverse_append, List.reverse_reverse, List.reverse_reverse,
    List.append_assoc]
  constructor
  · rintro ⟨htodo, -⟩
    simpa using List.append_cancel_left htodo
  · intro htodo
    rw [htodo]
    exact ⟨rfl, h.kept⟩

theorem PtLife.History.delAll (h : l.History k) (htodo : l.steps.todo = []) :
    (l.step .delAll).History k := by
  have hstep : l.step .delAll = l := by
    rw [PtLife.step, PtSteps.ptDelAllPending_nil htodo]
  rw [hstep]
  exact h

theorem PtLife.History.step (h : l.History k) (o : PtOp) (hok : l.DeletesNone o) :
    (l.step o).History k := by
  cases o with
  | add opCode opInfo => exact h.add opCode opInfo
  | done => exact h.executeDone
  | delPend => exact h.delPend
  | delLastDone => exact h.delLastDone
  | delAll => exact h.delAll (hok rfl)
  | rewind => exact h.rewind

theorem PtLife.History.rewinds_step_iff (h : l.History k) (o : PtOp) :
    (l.step o).Rewinds ↔ l.DeletesNone o := by
  by_cases ho : o = .delAll
  · subst ho
    rw [h.rewinds_delAll_iff]
    exact ⟨fun htodo _ => htodo, fun hok => hok rfl⟩
  · exact iff_of_true (h.step o fun heq => absurd heq ho).rewinds fun heq => absurd heq ho

end History

/-- **The pool of a task.**  In every run each entry of the pool is in one of the lists, once; and
rewinding restores what has been executed in every state of the run if and only if
`pt_del_all_pending` is called with nothing pending only. -/
theorem pt_rewind_restores_iff (k : Nat) (ops : List PtOp) :
    Along PtLife.step (fun l => l.steps.Pooled k) (.create k) ops ∧
      (Along PtLife.step PtLife.Rewinds (.create k) ops ↔
        StepsMeet PtLife.step PtLife.DeletesNone (.create k) ops) := by
  constructor
  · exact Along.mono (fun l h => h.pooled)
      (Along.invariant (I := fun l => l.steps.Valid k) PtLife.valid_step ops (.create k))
  · exact along_iff_stepsMeet (fun l h => h.rewinds) (fun l o h => h.rewinds_step_iff o)
      (fun l o h hok => h.step o hok) ops (PtLife.History.create k)

/-- **A deleted step comes back.**  One step is added and all pending ones are deleted. -/
theorem pt_del_all_comes_back :
    ¬ ∀ (k : Nat) (ops : List PtOp),
      Along PtLife.step (fun l => l.steps.Pooled k ∧ l.Rewinds) (.create k) ops :=
  fun h => absurd (h 1 [.add 5 0, .delAll]) (by decide)

/-! ## 7. Who frees the op infos -/

section OpInfo

variable {k p : Nat} {t t' : PtSteps} {l : PtLife}

/-- What `pt_destroy` frees depends on the entries that are in the lists only. -/
theorem PtSteps.ptDestroy_eq (t : PtSteps) :
    t.ptDestroy = (t.todo ++ t.done ++ t.free).map fun s => (t.pool s).opInfo := by
  simp [ptDestroy]

theorem PtSteps.count_ptDestroy_moved (hpool : t'.pool = t.pool)
    (hperm : (t'.todo ++ t'.done ++ t'.free).Perm (t.todo ++ t.done ++ t.free)) :
    t'.ptDestroy.count p = t.ptDestroy.count p := by
  rw [PtSteps.ptDestroy_eq, PtSteps.ptDestroy_eq, hpool]
  exact (hperm.map _).count_eq p

/-- A step that takes an entry: its op info comes, the one the entry held goes. -/
theorem PtSteps.Pooled.count_ptDestroy_add (h : t.Pooled k) {s : Nat} {free : List Nat}
    (hfree : t.free = s :: free) (opCode opInfo : Nat) :
    (PtSteps.ptDestroy { t with
        pool := Function.update t.pool s ⟨opCode, opInfo⟩
        todo := t.todo ++ [s]
        free := free }).count p =
      (opInfo :: ((t.todo ++ t.done ++ free).map fun x => (t.pool x).opInfo)).count p := by
  obtain ⟨htodo, hdone, hrest⟩ := h.taken hfree
  have hsame : ((t.todo ++ t.done ++ free).map fun x =>
      (Function.update t.pool s ⟨opCode, opInfo⟩ x).opInfo) =
      (t.todo ++ t.done ++ free).map fun x => (t.pool x).opInfo := by
    refine List.map_congr_left fun x hx => ?_
    have hne : x ≠ s := by
      rintro rfl
      simp only [List.mem_append] at hx
      tauto
    rw [Function.update_of_ne hne]
  rw [PtSteps.ptDestroy_eq, ← hsame]
  dsimp only
  have hperm : (t.todo ++ [s] ++ t.done ++ free).Perm (s :: (t.todo ++ t.done ++ free)) := by
    simp only [List.append_assoc, List.singleton_append]
    exact List.perm_middle
  rw [(hperm.map _).count_eq p, List.map_cons, Function.update_self]

/-- **The account of the op infos.**  What has been accepted is still held, or overwritten. -/
structure PtLife.Account (k : Nat) (l : PtLife) : Prop where
  valid : l.steps.Valid k
  count : ∀ p, p ≠ 0 →
    l.accepted.count p = l.steps.ptDestroy.count p + l.overwritten.count p

theorem PtLife.Account.create (k : Nat) : (PtLife.create k).Account k where
  valid := .create k
  count p hp := by
    have hzero : p ∉ (PtLife.create k).steps.ptDestroy := by
      simp [PtLife.create, PtSteps.ptCreate, PtSteps.ptDestroy]
      tauto
    rw [List.count_eq_zero.mpr hzero]
    rfl

theorem PtLife.Account.add (h : l.Account k) (opCode opInfo : Nat) :
    (l.step (.add opCode opInfo)).Account k := by
  refine ⟨l.valid_step (.add opCode opInfo) h.valid, fun p hp => ?_⟩
  rcases l.steps.ptAddStep_cases opCode opInfo with ⟨r, hr, heq, -⟩ | ⟨s, free, hop, hfree, heq⟩
  · have hstep : l.step (.add opCode opInfo) = l := by
      rw [PtLife.step, heq]
      exact if_neg hr
    rw [hstep]
    exact h.count p hp
  · have hstep : l.step (.add opCode opInfo) =
        { l with
          steps := (l.steps.ptAddStep opCode opInfo).2
          accepted := opInfo :: l.accepted
          overwritten := l.steps.nextInfo :: l.overwritten } := by
      rw [PtLife.step, heq]
      exact if_pos rfl
    have hnext : l.steps.nextInfo = (l.steps.pool s).opInfo := by
      rw [PtSteps.nextInfo, hfree]
    have hheld : l.steps.ptDestroy.count p =
        ((l.steps.pool s).opInfo :: (l.steps.todo ++ l.steps.done ++ free).map fun x =>
          (l.steps.pool x).opInfo).count p := by
      rw [PtSteps.ptDestroy_eq, hfree, ← List.map_cons (f := fun x => (l.steps.pool x).opInfo)]
      exact (List.perm_middle.map _).count_eq p
    have hcount := h.count p hp
    rw [hstep, heq]
    dsimp only
    rw [h.valid.pooled.count_ptDestroy_add hfree, hnext]
    simp only [List.count_cons] at hheld ⊢
    omega

/-- The other operations move entries between the lists. -/
theorem PtLife.Account.moved {o : PtOp} (h : l.Account k)
    (hpool : (l.step o).steps.pool = l.steps.pool) (haccepted : (l.step o).accepted = l.accepted)
    (hover : (l.step o).overwritten = l.overwritten) : (l.step o).Account k := by
  have hvalid := l.valid_step o h.valid
  refine ⟨hvalid, fun p hp => ?_⟩
  rw [haccepted, hover, h.count p hp,
    PtSteps.count_ptDestroy_moved hpool (hvalid.pooled.trans h.valid.pooled.symm)]

theorem PtLife.Account.step (l : PtLife) (o : PtOp) (h : l.Account k) : (l.step o).Account k := by
  cases o with
  | add opCode opInfo => exact h.add opCode opInfo
  | done =>
    refine h.moved ?_ rfl rfl
    cases htodo : l.steps.todo <;> simp [PtLife.step, PtSteps.ptNextPendStepDone, htodo]
  | delPend =>
    refine h.moved ?_ rfl rfl
    cases htodo : l.steps.todo <;> simp [PtLife.step, PtSteps.ptDelPendStep, htodo]
  | delLastDone =>
    refine h.moved ?_ rfl rfl
    cases hdone : l.steps.done <;> simp [PtLife.step, PtSteps.ptDelLastStepDone, hdone]
  | delAll =>
    refine h.moved ?_ rfl rfl
    change l.steps.ptDelAllPending.pool = _
    rw [h.valid.delAll_eq]
  | rewind =>
    refine h.moved ?_ rfl rfl
    change l.steps.ptRewindStepsDone.pool = _
    rw [PtSteps.ptRewindStepsDone_eq]

/-- What a step overwrites. -/
theorem PtLife.overwritten_step_iff (l : PtLife) (o : PtOp) :
    (∀ p ∈ (l.step o).overwritten, p = 0) ↔ (∀ p ∈ l.overwritten, p = 0) ∧ l.TakesEmpty o := by
  cases o with
  | add opCode opInfo =>
    rcases l.steps.ptAddStep_cases opCode opInfo with ⟨r, hr, heq, hwhy⟩ | ⟨s, free, hop, -, heq⟩
    · have hnext : opCode ≠ 0 → l.steps.nextInfo = 0 := by
        intro hop
        rcases hwhy with hzero | hfree
        · exact absurd hzero hop
        · rw [PtSteps.nextInfo, hfree]
      simp only [PtLife.step, heq, if_neg hr, PtLife.TakesEmpty]
      tauto
    · simp only [PtLife.step, heq, if_true, PtLife.TakesEmpty, List.forall_mem_cons]
      tauto
  | _ => simp [PtLife.step, PtLife.TakesEmpty]

theorem PtLife.overwritten_iff : ∀ (ops : List PtOp) (l : PtLife),
    (∀ p ∈ (ops.foldl PtLife.step l).overwritten, p = 0) ↔
      (∀ p ∈ l.overwritten, p = 0) ∧ StepsMeet PtLife.step PtLife.TakesEmpty l ops
  | [], l => by simp [StepsMeet]
  | o :: ops, l => by
    rw [List.foldl_cons, PtLife.overwritten_iff ops, PtLife.overwritten_step_iff, StepsMeet,
      and_assoc]

end OpInfo

/-- A task at the end of a run. -/
def ptLife (k : Nat) (ops : List PtOp) : PtLife := ops.foldl PtLife.step (.create k)

theorem ptLife_account (k : Nat) (ops : List PtOp) : (ptLife k ops).Account k :=
  Along.stop ops (Along.invariant (I := PtLife.Account k) PtLife.Account.step ops (.create k))

/-- **Who frees the op infos.**  If no op info has been accepted twice, `pt_destroy` frees each of
them once if and only if no step has taken an entry that held one. -/
theorem pt_op_info_freed_once_iff (k : Nat) (ops : List PtOp)
    (honce : ∀ p ∈ (ptLife k ops).accepted, p ≠ 0 → (ptLife k ops).accepted.count p = 1) :
    (∀ p ∈ (ptLife k ops).accepted, p ≠ 0 → (ptLife k ops).steps.ptDestroy.count p = 1) ↔
      StepsMeet PtLife.step PtLife.TakesEmpty (.create k) ops := by
  have hover : (∀ p ∈ (ptLife k ops).overwritten, p = 0) ↔ _ :=
    PtLife.overwritten_iff ops (.create k)
  have hcount := (ptLife_account k ops).count
  constructor
  · intro hfreed
    refine (hover.mp fun p hp => ?_).2
    by_contra hne
    have hlost : 0 < (ptLife k ops).overwritten.count p := List.count_pos_iff.mpr hp
    have haccepted : p ∈ (ptLife k ops).accepted := by
      refine List.count_pos_iff.mp ?_
      rw [hcount p hne]
      exact Nat.lt_of_lt_of_le hlost (Nat.le_add_left _ _)
    have h₁ := honce p haccepted hne
    have h₂ := hfreed p haccepted hne
    have h₃ := hcount p hne
    omega
  · intro hmeet p hp hne
    have hlost : p ∉ (ptLife k ops).overwritten :=
      fun hmem => hne (hover.mpr ⟨fun q hq => (by cases hq), hmeet⟩ p hmem)
    rw [← honce p hp hne, hcount p hne, List.count_eq_zero.mpr hlost, Nat.add_zero]

theorem pt_op_info_freed_once_two :
    (∀ p ∈ (ptLife 2 [.add 5 40, .delPend, .add 6 41]).accepted, p ≠ 0 →
        (ptLife 2 [.add 5 40, .delPend, .add 6 41]).steps.ptDestroy.count p = 1) ↔
      StepsMeet PtLife.step PtLife.TakesEmpty (.create 2) [.add 5 40, .delPend, .add 6 41] :=
  pt_op_info_freed_once_iff 2 [.add 5 40, .delPend, .add 6 41] (by decide)

/-- **An op info leaks.**  The pool has one entry; its step is deleted and another one added. -/
theorem pt_op_info_leaks :
    ¬ ∀ (k : Nat) (ops : List PtOp),
      (∀ p ∈ (ptLife k ops).accepted, p ≠ 0 → (ptLife k ops).accepted.count p = 1) →
      ∀ p ∈ (ptLife k ops).accepted, p ≠ 0 → (ptLife k ops).steps.ptDestroy.count p = 1 :=
  fun h => absurd (h 1 [.add 5 40, .delPend, .add 6 41] (by decide)) (by decide)

end FlightOs
