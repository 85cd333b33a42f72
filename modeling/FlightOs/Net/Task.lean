/-
# Processing tasks

A processing task (`lib/data_proc_task.c`) carries a data buffer through a processing network.
Its steps, each an op code with some information for the op function, stand in three lists: the
ones still to do, the ones done (newest first) and the unused ones.  The op code 0 is no step's:
`pt_add_step` rejects it, and `pt_get_pend_step_op_code` returns it when nothing is left to do.
-/
import FlightOs.Errno
import Mathlib.Tactic.Common

namespace FlightOs

structure ProcStep where
  opCode : Nat
  opInfo : Nat
  deriving DecidableEq, Repr

structure ProcTask where
  data : Nat
  size : Nat
  nmemb : Nat
  todo : List ProcStep
  done : List ProcStep
  free : List ProcStep
  type : Nat
  seq : Nat
  deriving DecidableEq, Repr

/-- `pt_create`, when its allocations succeed: all steps are unused. -/
def ptCreate (data size steps type seq : Nat) : ProcTask where
  data := data
  size := if data = 0 then 0 else size
  nmemb := 0
  todo := []
  done := []
  free := List.replicate steps ⟨0, 0⟩
  type := type
  seq := seq

def ptAddStep (t : ProcTask) (opCode opInfo : Nat) : Int × ProcTask :=
  if opCode = 0 then (-EINVAL, t)
  else
    match t.free with
    | [] => (-ENOMEM, t)
    | _ :: free => (0, { t with free := free, todo := t.todo ++ [⟨opCode, opInfo⟩] })

def ptGetPendStepOpCode (t : ProcTask) : Nat :=
  match t.todo with
  | [] => 0
  | s :: _ => s.opCode

/-- `pt_next_pend_step_done`; no caller looks at its return value. -/
def ptNextPendStepDone (t : ProcTask) : ProcTask :=
  match t.todo with
  | [] => t
  | s :: todo => { t with todo := todo, done := s :: t.done }

/-- `pt_del_pend_step`; no caller looks at its return value. -/
def ptDelPendStep (t : ProcTask) : ProcTask :=
  match t.todo with
  | [] => t
  | s :: todo => { t with todo := todo, free := t.free ++ [s] }

/-- The loop of `pt_del_all_pending`, for at most `n` rounds. -/
def delAllPending : Nat → ProcTask → ProcTask
  | 0, t => t
  | n + 1, t =>
    if ptGetPendStepOpCode t = 0 then t else delAllPending n (ptNextPendStepDone t)

/-- `pt_del_all_pending`: every round takes a step off the list of those to do. -/
def ptDelAllPending (t : ProcTask) : ProcTask := delAllPending t.todo.length t

def ptSetNmemb (t : ProcTask) (nmemb : Nat) : ProcTask := { t with nmemb := nmemb }

theorem ptNextPendStepDone_todo (t : ProcTask) : (ptNextPendStepDone t).todo = t.todo.tail := by
  unfold ptNextPendStepDone
  split <;> simp_all

theorem ptGetPendStepOpCode_nil {t : ProcTask} (h : t.todo = []) : ptGetPendStepOpCode t = 0 := by
  simp [ptGetPendStepOpCode, h]

theorem delAllPending_pend : ∀ (n : Nat) (t : ProcTask), t.todo.length ≤ n →
    ptGetPendStepOpCode (delAllPending n t) = 0
  | 0, t, h => ptGetPendStepOpCode_nil (List.length_eq_zero_iff.mp (Nat.le_zero.mp h))
  | n + 1, t, h => by
    unfold delAllPending
    split
    · assumption
    · refine delAllPending_pend n _ ?_
      rw [ptNextPendStepDone_todo, List.length_tail]
      omega

/-- The loop has gone on until nothing is pending. -/
@[simp] theorem ptDelAllPending_pend (t : ProcTask) :
    ptGetPendStepOpCode (ptDelAllPending t) = 0 :=
  delAllPending_pend _ t (Nat.le_refl _)

end FlightOs
