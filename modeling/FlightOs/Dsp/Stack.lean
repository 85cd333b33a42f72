/-
# The stacking kernel: `kernel/stack/xen_stack.c`

A kernel runs on a Xentium and gets its tasks from the driver, one with each message.  This one adds
up the data of `stackframes` tasks: it detaches the first ones and keeps them in its permanent
storage, which has room for `TASKS_MAX` references; when the last one of a group comes, it adds the
data of those kept to its data, hands them back without elements and steps, each with a message of
its own that is answered by the driver, and at last the task itself.

* The end of the references in the storage is found by their first `NULL`.  Where there is none, the
  kernel reads past its storage (`none`).
* The storage stays when `main` returns, which the driver starts again with the next task.
* A command location that is `NULL`, which `main` gives up on, is left out: the driver sends none.
* Data buffers are known by their addresses, and different ones do not overlap.

A group comes back as it is meant to (`stack_group`): each word of the last task is the sum of those
of all tasks of the group.
-/
import FlightOs.Net.Xentium
import Mathlib.Data.BitVec
import Mathlib.Algebra.BigOperators.Group.List.Basic

namespace FlightOs

/-- track at most 4 tasks across calls to this kernel -/
def STACK_TASKS_MAX : Nat := 4

def STACK_OP_CODE : Nat := 0x1fedbeef

/-- `pt_get_pend_step_op_info`; 0 is `NULL`. -/
def ptGetPendStepOpInfo (t : ProcTask) : Nat :=
  match t.todo with
  | [] => 0
  | s :: _ => s.opInfo

/-- What the kernel works on in the memory of the host: the tasks, and the words of their data. -/
structure StackMem where
  task : Nat → ProcTask
  word : Nat → Nat → BitVec 32

/-- Where the kernel is when it waits for the driver to take a task back. -/
structure StackMop where
  m : XenMsgData
  t : Nat
  i : Nat
  tracked : Nat

/-- The permanent storage, and the loop that hands the tasks back. -/
structure StackKernel where
  data : Option (List (Option Nat))
  mop : Option StackMop

/-- What is at a place of the storage. -/
def stackRef (tasks : List (Option Nat)) (i : Nat) : Option Nat := tasks[i]?.join

/-! ## 1. The kernel -/

/-- `while (tasks[tracked]) tracked++`. -/
def stackTracked (tasks : List (Option Nat)) : Option Nat := tasks.findIdx? Option.isNone

def stackSetWord (w : Nat → Nat → BitVec 32) (p j : Nat) (v : BitVec 32) : Nat → Nat → BitVec 32 :=
  Function.update w p (Function.update (w p) j v)

/-- `p[j] += pp[j]`, for the elements of a task. -/
def stackAdd (n p pp : Nat) (w : Nat → Nat → BitVec 32) : Nat → Nat → BitVec 32 :=
  (List.range n).foldl (fun w j => stackSetWord w p j (w p j + w pp j)) w

/-- A task of the storage is stacked, and left without elements and steps. -/
def stackTask (n p : Nat) (mem : StackMem) (t : Nat) : StackMem where
  task := Function.update mem.task t (ptDelAllPending (ptSetNmemb (mem.task t) 0))
  word := stackAdd n p (mem.task t).data mem.word

def stackRound (tasks : List (Option Nat)) (n p : Nat) (mem : StackMem) (i : Nat) : StackMem :=
  match stackRef tasks i with
  | none => mem
  | some t => stackTask n p mem t

/-- The head of the loop that hands the tasks back, and what comes behind the loop. -/
def stackMopUp (tasks : List (Option Nat)) (mop : StackMop) : StackKernel × XenMsgData :=
  if mop.i < mop.tracked then
    (⟨some tasks, some mop⟩, { mop.m with t := stackRef tasks mop.i, cmd := .attach })
  else (⟨some tasks, none⟩, { mop.m with t := some mop.t, cmd := .success })

section Kernel

variable (frames : Nat → BitVec 32)

/-- `process_task`, up to the message that it sends first, or that is sent for it; `frames` has
the `stackframes` of an op info. -/
def stackProcessTask (k : StackKernel) (mem : StackMem) (m : XenMsgData) :
    Option (StackKernel × StackMem × XenMsgData) :=
  match k.data with
  | none => some (k, mem, { m with cmd := .destroy })
  | some tasks =>
    match stackTracked tasks with
    | none => none
    | some tracked =>
      match m.t with
      | none => some (k, mem, { m with cmd := .destroy })
      | some t =>
        let opInfo := ptGetPendStepOpInfo (mem.task t)
        if opInfo = 0 then some (k, mem, { m with cmd := .destroy })
        else if STACK_TASKS_MAX < (frames opInfo).toNat then
          some (k, mem, { m with cmd := .destroy })
        -- the difference is unsigned
        else if tracked < (frames opInfo - 1).toNat then
          some (⟨some (tasks.set tracked (some t)), none⟩, mem, { m with cmd := .detach })
        else
          let n := (mem.task t).nmemb
          let p := (mem.task t).data
          let mem := (List.range tracked).foldl (stackRound tasks n p) mem
          let r := stackMopUp tasks ⟨m, t, 0, tracked⟩
          some (r.1, mem, r.2)

/-- `main`, from a command to the message that answers it. -/
def stackMain (k : StackKernel) (mem : StackMem) (m : XenMsgData) :
    Option (StackKernel × StackMem × XenMsgData) :=
  match k.mop with
  | some mop =>
    -- the response is not looked at
    let r := stackMopUp ((k.data.getD []).set mop.i none) { mop with i := mop.i + 1 }
    some (r.1, mem, r.2)
  | none => if m.cmd = .exit then some (k, mem, m) else stackProcessTask frames k mem m

/-- The answers to a list of commands. -/
def stackRun : StackKernel → StackMem → List XenMsgData →
    Option (StackKernel × StackMem × List XenMsgData)
  | k, mem, [] => some (k, mem, [])
  | k, mem, m :: ms =>
    (stackMain frames k mem m).bind fun r =>
      (stackRun r.1 r.2.1 ms).map fun r' => (r'.1, r'.2.1, r.2.2 :: r'.2.2)

end Kernel

/-! ## 2. The storage -/

/-- A storage with the tasks `kept`, from the place `i` on. -/
def stackStorage (i : Nat) (kept : List Nat) : List (Option Nat) :=
  List.replicate i none ++ (kept.map some ++
    List.replicate (STACK_TASKS_MAX - i - kept.length) none)

/-- What the kernel has: the tasks of a group that is not complete, or those it still has to hand
back, and then the task that it is to answer for. -/
inductive StackHolds : StackKernel → List Nat → Option Nat → Prop
  | collects (kept : List Nat) : kept.length < STACK_TASKS_MAX →
      StackHolds ⟨some (stackStorage 0 kept), none⟩ kept none
  | handsBack (mop : StackMop) {a : Nat} {rest : List Nat} :
      mop.tracked = mop.i + rest.length + 1 → mop.tracked < STACK_TASKS_MAX →
      StackHolds ⟨some (stackStorage mop.i (a :: rest)), some mop⟩ (a :: rest) (some mop.t)

/-- The kernel as it is loaded first: its storage is zeroed. -/
def stackLoaded : StackKernel := ⟨some (List.replicate STACK_TASKS_MAX none), none⟩

theorem stackLoaded_holds : StackHolds stackLoaded [] none :=
  .collects [] (by decide)

section Storage

variable {kept rest : List Nat} {a t i : Nat}

theorem stackTracked_storage (h : kept.length < STACK_TASKS_MAX) :
    stackTracked (stackStorage 0 kept) = some kept.length := by
  unfold stackTracked stackStorage
  rw [List.replicate_zero, List.nil_append, List.findIdx?_append]
  have hkept : (kept.map some).findIdx? Option.isNone = none := by
    rw [List.findIdx?_eq_none_iff]
    simp
  obtain ⟨n, hn⟩ : ∃ n, STACK_TASKS_MAX - 0 - kept.length = n + 1 :=
    ⟨STACK_TASKS_MAX - 0 - kept.length - 1, by omega⟩
  rw [hkept, hn, List.replicate_succ]
  simp [List.findIdx?_cons]

theorem stackStorage_set (h : kept.length < STACK_TASKS_MAX) :
    (stackStorage 0 kept).set kept.length (some t) = stackStorage 0 (kept ++ [t]) := by
  obtain ⟨n, hn⟩ : ∃ n, STACK_TASKS_MAX - 0 - kept.length = n + 1 :=
    ⟨STACK_TASKS_MAX - 0 - kept.length - 1, by omega⟩
  have hn' : STACK_TASKS_MAX - 0 - (kept ++ [t]).length = n := by
    rw [List.length_append, List.length_singleton]
    omega
  unfold stackStorage
  rw [hn, hn', List.replicate_succ]
  simp

theorem stackRef_storage (j : Nat) : stackRef (stackStorage 0 kept) j = kept[j]? := by
  unfold stackRef stackStorage
  rw [List.replicate_zero, List.nil_append]
  rcases Nat.lt_or_ge j kept.length with hj | hj
  · rw [List.getElem?_append_left (by simpa using hj)]
    simp [hj]
  · rw [List.getElem?_append_right (by simpa using hj), List.getElem?_eq_none hj,
      List.getElem?_replicate]
    split <;> rfl

/-- The place that is looked at next has the first task that is left. -/
theorem stackRef_head : stackRef (stackStorage i (a :: rest)) i = some a := by
  unfold stackRef stackStorage
  rw [List.getElem?_append_right (by simp)]
  simp

theorem stackMopUp_next (mop : StackMop) (a : Nat) (rest : List Nat) (h : mop.i < mop.tracked) :
    stackMopUp (stackStorage mop.i (a :: rest)) mop =
      (⟨some (stackStorage mop.i (a :: rest)), some mop⟩,
        { mop.m with t := some a, cmd := .attach }) := by
  rw [stackMopUp, if_pos h, stackRef_head]

theorem stackStorage_clear :
    (stackStorage i (a :: rest)).set i none = stackStorage (i + 1) rest := by
  have hn : STACK_TASKS_MAX - i - (a :: rest).length = STACK_TASKS_MAX - (i + 1) - rest.length := by
    rw [List.length_cons]
    omega
  have hrep : List.replicate (i + 1) (none : Option Nat) = List.replicate i none ++ [none] := by
    rw [List.replicate_succ']
  unfold stackStorage
  rw [hn, hrep]
  simp

theorem stackStorage_nil (h : i ≤ STACK_TASKS_MAX) :
    stackStorage i [] = stackStorage 0 [] := by
  have hn : STACK_TASKS_MAX = i + (STACK_TASKS_MAX - i) := by omega
  unfold stackStorage
  simp only [List.map_nil, List.nil_append, List.length_nil, Nat.sub_zero, List.replicate_zero]
  conv_rhs => rw [hn]
  rw [List.replicate_add]

/-- The rounds go over the tasks of the storage. -/
theorem stackRounds (n p : Nat) (mem : StackMem) :
    (List.range kept.length).foldl (stackRound (stackStorage 0 kept) n p) mem =
      kept.foldl (stackTask n p) mem := by
  induction kept using List.reverseRecOn with
  | nil => rfl
  | append_singleton kept t ih =>
    have hsame : ∀ mem : StackMem, ∀ j ∈ List.range kept.length,
        stackRound (stackStorage 0 (kept ++ [t])) n p mem j =
          stackRound (stackStorage 0 kept) n p mem j := by
      intro mem j hj
      unfold stackRound
      rw [stackRef_storage, stackRef_storage,
        List.getElem?_append_left (List.mem_range.mp hj)]
    have hlast : ∀ mem : StackMem,
        stackRound (stackStorage 0 (kept ++ [t])) n p mem kept.length = stackTask n p mem t := by
      intro mem
      unfold stackRound
      rw [stackRef_storage]
      simp
    rw [List.length_append, List.length_singleton, List.range_succ, List.foldl_append,
      List.foldl_append, List.foldl_cons, List.foldl_nil, List.foldl_cons, List.foldl_nil, hlast,
      List.foldl_ext _ _ _ hsame, ih]

end Storage

/-! ## 3. What a command comes to -/

/-- The tasks `kept` are stacked onto the task `t`. -/
def stackAll (mem : StackMem) (t : Nat) (kept : List Nat) : StackMem :=
  kept.foldl (stackTask (mem.task t).nmemb (mem.task t).data) mem

/-- **What the kernel is for.**  A task is kept, or those kept come back one by one, and then the
task; what is no task for the kernel goes back at once. -/
inductive StackSpec (mem : StackMem) (m : XenMsgData) : List Nat → Option Nat →
    List Nat → Option Nat → StackMem → XenMsgData → Prop
  | exit {kept : List Nat} : m.cmd = .exit → StackSpec mem m kept none kept none mem m
  | destroy {kept : List Nat} : m.cmd ≠ .exit →
      StackSpec mem m kept none kept none mem { m with cmd := .destroy }
  | detach {kept : List Nat} {t : Nat} : m.cmd ≠ .exit → m.t = some t →
      StackSpec mem m kept none (kept ++ [t]) none mem { m with cmd := .detach }
  | alone {t : Nat} : m.cmd ≠ .exit → m.t = some t →
      StackSpec mem m [] none [] none mem { m with t := some t, cmd := .success }
  | stack {a : Nat} {rest : List Nat} {t : Nat} : m.cmd ≠ .exit → m.t = some t →
      StackSpec mem m (a :: rest) none (a :: rest) (some t) (stackAll mem t (a :: rest))
        { m with t := some a, cmd := .attach }
  | next {a b : Nat} {rest : List Nat} {t : Nat} {m' : XenMsgData} :
      StackSpec mem m (a :: b :: rest) (some t) (b :: rest) (some t) mem
        { m' with t := some b, cmd := .attach }
  | last {a t : Nat} {m' : XenMsgData} :
      StackSpec mem m [a] (some t) [] none mem { m' with t := some t, cmd := .success }

section Command

variable {frames : Nat → BitVec 32} {k : StackKernel} {mem : StackMem} {m : XenMsgData}
  {kept rest : List Nat} {own : Option Nat} {t : Nat}

/-- The task of a message asks for a group of one task at least. -/
def StackFrames (frames : Nat → BitVec 32) (mem : StackMem) (m : XenMsgData) : Prop :=
  ∀ t ∈ m.t, ptGetPendStepOpInfo (mem.task t) ≠ 0 → frames (ptGetPendStepOpInfo (mem.task t)) ≠ 0

/-- A group that is not complete has room for one more task. -/
theorem lt_frames {f : BitVec 32} {n : Nat} (hf : f ≠ 0) (hmax : ¬ STACK_TASKS_MAX < f.toNat)
    (h : n < (f - 1).toNat) : n + 1 < STACK_TASKS_MAX := by
  have hmax : f.toNat ≤ 4 := Nat.le_of_not_lt hmax
  have hpos : 1 ≤ f.toNat := by
    refine Nat.one_le_iff_ne_zero.mpr (fun hzero => hf ?_)
    exact BitVec.eq_of_toNat_eq hzero
  have hsub : (f - 1).toNat = f.toNat - 1 := by
    bv_omega
  show n + 1 < 4
  omega

theorem stackProcessTask_spec (h : kept.length < STACK_TASKS_MAX) (hcmd : m.cmd ≠ .exit)
    (hf : StackFrames frames mem m) :
    ∃ k' mem' m' kept' own',
      stackProcessTask frames ⟨some (stackStorage 0 kept), none⟩ mem m = some (k', mem', m') ∧
        StackHolds k' kept' own' ∧ StackSpec mem m kept none kept' own' mem' m' := by
  have hdestroy : ∃ k' mem' m' kept' own',
      some (StackKernel.mk (some (stackStorage 0 kept)) none, mem, { m with cmd := .destroy }) =
          some (k', mem', m') ∧
        StackHolds k' kept' own' ∧ StackSpec mem m kept none kept' own' mem' m' :=
    ⟨_, _, _, _, _, rfl, .collects _ h, .destroy hcmd⟩
  unfold stackProcessTask
  simp only [stackTracked_storage h]
  split
  case h_1 => exact hdestroy
  case h_2 t ht =>
    split
    case isTrue => exact hdestroy
    case isFalse hinfo =>
      split
      case isTrue => exact hdestroy
      case isFalse hmax =>
        split
        case isTrue hlt =>
          rw [stackStorage_set h]
          refine ⟨_, _, _, _, _, rfl, .collects _ ?_, .detach hcmd ht⟩
          rw [List.length_append, List.length_singleton]
          exact lt_frames (hf t ht hinfo) hmax hlt
        case isFalse =>
          rw [stackRounds]
          cases kept with
          | nil => exact ⟨_, _, _, _, _, rfl, .collects _ h, .alone hcmd ht⟩
          | cons a rest =>
            have hmop : stackMopUp (stackStorage 0 (a :: rest)) ⟨m, t, 0, (a :: rest).length⟩ = _ :=
              stackMopUp_next ⟨m, t, 0, (a :: rest).length⟩ a rest (Nat.succ_pos _)
            simp only [hmop]
            refine ⟨_, _, _, a :: rest, some t, rfl, ?_, .stack hcmd ht⟩
            have htracked : (a :: rest).length = 0 + rest.length + 1 := by
              rw [List.length_cons, Nat.zero_add]
            exact .handsBack ⟨m, t, 0, (a :: rest).length⟩ htracked h

/-- **The kernel does what it is for**, and does not read past its storage. -/
theorem StackHolds.main (h : StackHolds k kept own) (hf : StackFrames frames mem m) :
    ∃ k' mem' m' kept' own', stackMain frames k mem m = some (k', mem', m') ∧
      StackHolds k' kept' own' ∧ StackSpec mem m kept own kept' own' mem' m' := by
  cases h with
  | collects _ h =>
    unfold stackMain
    simp only
    split
    case isTrue hcmd => exact ⟨_, _, _, _, _, rfl, .collects _ h, .exit hcmd⟩
    case isFalse hcmd => exact stackProcessTask_spec h hcmd hf
  | @handsBack mop a rest htracked hmax =>
    unfold stackMain
    simp only [Option.getD_some, stackStorage_clear]
    cases rest with
    | nil =>
      have hlast : ¬ mop.i + 1 < mop.tracked := by
        rw [htracked]
        simp
      have hi : mop.i + 1 ≤ STACK_TASKS_MAX := by
        simp only [List.length_nil] at htracked
        omega
      simp only [stackMopUp, hlast, if_false, stackStorage_nil hi]
      exact ⟨_, _, _, _, _, rfl, .collects [] (by decide), .last⟩
    | cons b rest =>
      have hnext : mop.i + 1 < mop.tracked := by
        rw [htracked, List.length_cons]
        omega
      have hmop := stackMopUp_next { mop with i := mop.i + 1 } b rest hnext
      simp only at hmop
      rw [hmop]
      refine ⟨_, _, _, _, _, rfl, StackHolds.handsBack { mop with i := mop.i + 1 } ?_ hmax, .next⟩
      show mop.tracked = mop.i + 1 + rest.length + 1
      rw [htracked, List.length_cons]
      omega

end Command

/-! ## 4. The data -/

section Data

variable {mem : StackMem} {w : Nat → Nat → BitVec 32} {n p pp q j t u : Nat} {kept : List Nat}

theorem delAllPending_data : ∀ (n : Nat) (t : ProcTask), (delAllPending n t).data = t.data
  | 0, _ => rfl
  | n + 1, t => by
    unfold delAllPending
    split
    · rfl
    · rw [delAllPending_data n]
      unfold ptNextPendStepDone
      split <;> rfl

theorem delAllPending_nmemb : ∀ (n : Nat) (t : ProcTask), (delAllPending n t).nmemb = t.nmemb
  | 0, _ => rfl
  | n + 1, t => by
    unfold delAllPending
    split
    · rfl
    · rw [delAllPending_nmemb n]
      unfold ptNextPendStepDone
      split <;> rfl

@[simp] theorem stackSetWord_apply (v : BitVec 32) (i : Nat) :
    stackSetWord w p j v q i = if q = p ∧ i = j then v else w q i := by
  unfold stackSetWord
  by_cases hq : q = p
  · subst hq
    simp [Function.update_apply]
  · simp [hq]

/-- The elements of one buffer are added to those of another one. -/
theorem stackAdd_eq (h : pp ≠ p) : stackAdd n p pp w =
    fun q j => if q = p ∧ j < n then w p j + w pp j else w q j := by
  induction n with
  | zero =>
    funext q j
    simp [stackAdd]
  | succ n ih =>
    have hsucc : stackAdd (n + 1) p pp w =
        stackSetWord (stackAdd n p pp w) p n (stackAdd n p pp w p n + stackAdd n p pp w pp n) := by
      unfold stackAdd
      rw [List.range_succ, List.foldl_append]
      rfl
    rw [hsucc, ih]
    funext q j
    rw [stackSetWord_apply]
    by_cases hq : q = p
    · subst hq
      rcases Nat.lt_trichotomy j n with hj | rfl | hj
      · simp [hj, Nat.lt_succ_of_lt hj, Nat.ne_of_lt hj]
      · simp [h]
      · simp [Nat.not_lt.mpr (Nat.le_of_lt hj), Nat.ne_of_gt hj,
          Nat.not_lt.mpr (Nat.succ_le_of_lt hj)]
    · simp [hq]

/-- What is left of a task that has been stacked. -/
theorem stackTask_task : (stackTask n p mem t).task =
    Function.update mem.task t (ptDelAllPending (ptSetNmemb (mem.task t) 0)) := rfl

theorem stackTask_data : ((stackTask n p mem t).task u).data = (mem.task u).data := by
  rw [stackTask_task, Function.update_apply]
  split
  case isTrue hu =>
    subst hu
    exact delAllPending_data _ _
  case isFalse => rfl

/-- **The data of the tasks kept** are added up. -/
theorem stackAll_word (hne : ∀ u ∈ kept, (mem.task u).data ≠ p) :
    (kept.foldl (stackTask n p) mem).word q j =
      if q = p ∧ j < n then mem.word p j + (kept.map fun u => mem.word (mem.task u).data j).sum
      else mem.word q j := by
  induction kept generalizing mem with
  | nil =>
    by_cases hq : q = p
    · simp [hq]
    · simp [hq]
  | cons a kept ih =>
    have ha : (mem.task a).data ≠ p := hne a List.mem_cons_self
    have hword : (stackTask n p mem a).word =
        fun q j => if q = p ∧ j < n then mem.word p j + mem.word (mem.task a).data j
          else mem.word q j := stackAdd_eq ha
    have hne' : ∀ u ∈ kept, ((stackTask n p mem a).task u).data ≠ p := by
      intro u hu
      rw [stackTask_data]
      exact hne u (List.mem_cons_of_mem a hu)
    have hkept : (kept.map fun u =>
        (stackTask n p mem a).word ((stackTask n p mem a).task u).data j) =
          kept.map fun u => mem.word (mem.task u).data j := by
      refine List.map_congr_left (fun u hu => ?_)
      have hu : (mem.task u).data ≠ p := hne u (List.mem_cons_of_mem a hu)
      rw [stackTask_data, hword]
      simp [hu]
    rw [List.foldl_cons, ih hne', hkept, hword, List.map_cons, List.sum_cons]
    split
    case isTrue hj =>
      simp only [hj.2, true_and, if_true]
      exact BitVec.add_assoc ..
    case isFalse hj => simp [hj]

theorem stackAll_task_other (hu : u ∉ kept) :
    (kept.foldl (stackTask n p) mem).task u = mem.task u := by
  induction kept generalizing mem with
  | nil => rfl
  | cons a kept ih =>
    obtain ⟨hne, hu⟩ := not_or.mp (mt List.mem_cons.mpr hu)
    rw [List.foldl_cons, ih hu, stackTask_task, Function.update_of_ne hne]

/-- A task without elements and without a step. -/
structure StackEmptied (c : ProcTask) : Prop where
  nmemb : c.nmemb = 0
  pend : ptGetPendStepOpCode c = 0

theorem stackTask_emptied (hu : u = t ∨ StackEmptied (mem.task u)) :
    StackEmptied ((stackTask n p mem t).task u) := by
  rw [stackTask_task, Function.update_apply]
  split
  case isTrue => exact ⟨delAllPending_nmemb _ _, ptDelAllPending_pend _⟩
  case isFalse hne => exact hu.resolve_left hne

theorem stackAll_emptied (hu : u ∈ kept ∨ StackEmptied (mem.task u)) :
    StackEmptied ((kept.foldl (stackTask n p) mem).task u) := by
  induction kept generalizing mem with
  | nil => exact hu.resolve_left List.not_mem_nil
  | cons a kept ih =>
    refine ih ?_
    rcases hu with hu | hu
    · rcases List.mem_cons.mp hu with hu | hu
      · exact Or.inr (stackTask_emptied (Or.inl hu))
      · exact Or.inl hu
    · exact Or.inr (stackTask_emptied (Or.inr hu))

end Data

/-! ## 5. A group -/

/-- The task asks for a group of `f` tasks. -/
def StackAsks (frames : Nat → BitVec 32) (mem : StackMem) (f t : Nat) : Prop :=
  ptGetPendStepOpInfo (mem.task t) ≠ 0 ∧ (frames (ptGetPendStepOpInfo (mem.task t))).toNat = f

/-- What becomes of the memory when the tasks `us` are stacked onto the task `t`: its elements are
the sums, those of `us` are left empty, and all else stays. -/
structure StackGroup (mem mem' : StackMem) (us : List Nat) (t : Nat) : Prop where
  sum : ∀ j < (mem.task t).nmemb, mem'.word (mem.task t).data j =
    mem.word (mem.task t).data j + (us.map fun u => mem.word (mem.task u).data j).sum
  emptied : ∀ u ∈ us, StackEmptied (mem'.task u)
  words : ∀ q j, q ≠ (mem.task t).data ∨ (mem.task t).nmemb ≤ j → mem'.word q j = mem.word q j
  tasks : ∀ u ∉ us, mem'.task u = mem.task u

theorem stackAll_group {mem : StackMem} {us : List Nat} {t : Nat}
    (hne : ∀ u ∈ us, (mem.task u).data ≠ (mem.task t).data) :
    StackGroup mem (stackAll mem t us) us t where
  sum := fun j hj => by
    rw [stackAll, stackAll_word hne]
    simp [hj]
  emptied := fun u hu => stackAll_emptied (Or.inl hu)
  words := fun q j hq => by
    have hno : ¬ (q = (mem.task t).data ∧ j < (mem.task t).nmemb) := by
      rintro ⟨rfl, hj⟩
      exact absurd hj (Nat.not_lt.mpr (hq.resolve_left (fun h => h rfl)))
    rw [stackAll, stackAll_word hne, if_neg hno]
  tasks := fun u hu => stackAll_task_other hu

section Group

variable {frames : Nat → BitVec 32} {k k₁ : StackKernel} {mem mem₁ : StackMem} {m : XenMsgData}
  {ms rs as : List XenMsgData} {kept us rest : List Nat} {a f t : Nat}

theorem stackRun_append (h : stackRun frames k mem ms = some (k₁, mem₁, as)) :
    stackRun frames k mem (ms ++ rs) =
      (stackRun frames k₁ mem₁ rs).map fun r => (r.1, r.2.1, as ++ r.2.2) := by
  induction ms generalizing k mem as with
  | nil =>
    obtain ⟨rfl, rfl, rfl⟩ : k = k₁ ∧ mem = mem₁ ∧ [] = as := by simpa [stackRun] using h
    simp
  | cons m ms ih =>
    rw [stackRun] at h
    obtain ⟨r, hr, h⟩ := Option.bind_eq_some_iff.mp h
    obtain ⟨r', hr', h⟩ := Option.map_eq_some_iff.mp h
    obtain ⟨rfl, rfl, rfl⟩ : r'.1 = k₁ ∧ r'.2.1 = mem₁ ∧ r.2.2 :: r'.2.2 = as := by simpa using h
    rw [List.cons_append, stackRun, hr, Option.bind_some, ih hr', Option.map_map]
    rfl

/-- A task of a group that is not complete is kept. -/
theorem stackMain_detach (kept : List Nat) (hcmd : m.cmd ≠ .exit) (ht : m.t = some t)
    (hask : StackAsks frames mem f t) (hf : f ≤ STACK_TASKS_MAX) (h : kept.length + 1 < f) :
    stackMain frames ⟨some (stackStorage 0 kept), none⟩ mem m =
      some (⟨some (stackStorage 0 (kept ++ [t])), none⟩, mem, { m with cmd := .detach }) := by
  obtain ⟨hinfo, hfr⟩ := hask
  have hkept : kept.length < STACK_TASKS_MAX := by omega
  have hsub : (frames (ptGetPendStepOpInfo (mem.task t)) - 1).toNat = f - 1 := by
    bv_omega
  have hlt : kept.length < f - 1 := by omega
  unfold stackMain stackProcessTask
  simp only [hcmd, if_false, stackTracked_storage hkept]
  rw [ht]
  simp only [hinfo, if_false, hfr, Nat.not_lt.mpr hf, hsub, hlt, if_true, stackStorage_set hkept]

/-- The last task of a group gets the data of the others. -/
theorem stackMain_stack (kept : List Nat) (hcmd : m.cmd ≠ .exit) (ht : m.t = some t)
    (hask : StackAsks frames mem f t) (hf : f ≤ STACK_TASKS_MAX) (h : f = kept.length + 1) :
    stackMain frames ⟨some (stackStorage 0 kept), none⟩ mem m =
      some ((stackMopUp (stackStorage 0 kept) ⟨m, t, 0, kept.length⟩).1, stackAll mem t kept,
        (stackMopUp (stackStorage 0 kept) ⟨m, t, 0, kept.length⟩).2) := by
  obtain ⟨hinfo, hfr⟩ := hask
  have hkept : kept.length < STACK_TASKS_MAX := by omega
  have hsub : (frames (ptGetPendStepOpInfo (mem.task t)) - 1).toNat = f - 1 := by
    bv_omega
  have hlt : ¬ kept.length < f - 1 := by omega
  unfold stackMain stackProcessTask
  simp only [hcmd, if_false, stackTracked_storage hkept]
  split
  case h_1 hnone => 
    rw [ht] at hnone
    cases hnone
  case h_2 t' ht' =>
    obtain rfl : t = t' := Option.some.inj (ht.symm.trans ht')
    simp only [hinfo, if_false, hfr, Nat.not_lt.mpr hf, hsub, hlt, stackRounds]
    rfl

/-- The messages that a group has been answered with. -/
def stackSays (cmd : XenCmd) (us : List Nat) : List (XenCmd × Option Nat) :=
  us.map fun u => (cmd, some u)

def xenSaid (as : List XenMsgData) : List (XenCmd × Option Nat) := as.map fun a => (a.cmd, a.t)

/-- The first tasks of a group are detached, one after the other. -/
theorem stackRun_detach (kept : List Nat) (hf : f ≤ STACK_TASKS_MAX)
    (hms : ms.map (·.t) = us.map some) (hcmd : ∀ m ∈ ms, m.cmd ≠ .exit) (hask : ∀ u ∈ us, StackAsks frames mem f u)
    (h : kept.length + us.length < f) :
    ∃ as, stackRun frames ⟨some (stackStorage 0 kept), none⟩ mem ms =
      some (⟨some (stackStorage 0 (kept ++ us)), none⟩, mem, as) ∧
        xenSaid as = stackSays .detach us := by
  induction us generalizing kept ms with
  | nil =>
    obtain rfl : ms = [] := by simpa using hms
    exact ⟨[], by simp [stackRun], rfl⟩
  | cons u us ih =>
    obtain ⟨m, ms, rfl, hm, hms⟩ := List.map_eq_cons_iff.mp hms
    rw [List.length_cons] at h
    have hdetach := stackMain_detach kept (hcmd m List.mem_cons_self) hm
      (hask u List.mem_cons_self) hf (by omega)
    obtain ⟨as, hrun, has⟩ := ih (kept ++ [u]) hms
      (fun m hm => hcmd m (List.mem_cons_of_mem _ hm))
      (fun v hv => hask v (List.mem_cons_of_mem _ hv))
      (by rw [List.length_append, List.length_singleton]; omega)
    refine ⟨{ m with cmd := .detach } :: as, ?_, ?_⟩
    · rw [stackRun, hdetach, Option.bind_some, hrun, List.append_assoc]
      rfl
    · exact congrArg₂ List.cons (Prod.ext rfl hm) has

/-- The tasks kept are handed back, and then the last one. -/
theorem stackRun_mopUp (frames : Nat → BitVec 32) (mem : StackMem) (mop : StackMop) (a : Nat)
    (rest : List Nat) (hlen : rs.length = rest.length + 1)
    (htracked : mop.tracked = mop.i + rest.length + 1) (hmax : mop.tracked < STACK_TASKS_MAX) :
    ∃ as, stackRun frames ⟨some (stackStorage mop.i (a :: rest)), some mop⟩ mem rs =
      some (stackLoaded, mem, as) ∧
        xenSaid as = stackSays .attach rest ++ [(.success, some mop.t)] := by
  induction rest generalizing a mop rs with
  | nil =>
    obtain ⟨r, rfl⟩ := List.length_eq_one_iff.mp hlen
    have hlast : ¬ mop.i + 1 < mop.tracked := by
      rw [htracked]
      simp
    have hi : mop.i + 1 ≤ STACK_TASKS_MAX := by
      simp only [List.length_nil] at htracked
      omega
    refine ⟨[{ mop.m with t := some mop.t, cmd := .success }], ?_, rfl⟩
    simp only [stackRun, stackMain, Option.getD_some, stackStorage_clear, stackMopUp, hlast,
      if_false, stackStorage_nil hi, Option.bind_some, Option.map_some]
    rfl
  | cons b rest ih =>
    obtain ⟨r, rs, rfl⟩ := List.exists_cons_of_length_eq_add_one hlen
    have hnext : mop.i + 1 < mop.tracked := by
      rw [htracked, List.length_cons]
      omega
    have hmop := stackMopUp_next { mop with i := mop.i + 1 } b rest hnext
    obtain ⟨as, hrun, has⟩ := ih { mop with i := mop.i + 1 } b (by simpa using hlen)
      (by simp only [List.length_cons] at htracked ⊢; omega) hmax
    simp only at hmop hrun has
    refine ⟨{ mop.m with t := some b, cmd := .attach } :: as, ?_, congrArg (List.cons _) has⟩
    simp only [stackRun, stackMain, Option.getD_some, stackStorage_clear, hmop, Option.bind_some,
      hrun, Option.map_some]

/-- **A group comes back.**  The tasks of a group, given to the kernel one after the other when it
has none, are all detached but the last one, which gets the sum of their data; they are attached
again in their order, without elements and steps, before the last one has its success. -/
theorem stack_group (hms : ms.map (·.t) = (us ++ [t]).map some) (hcmd : ∀ m ∈ ms, m.cmd ≠ .exit)
    (hrs : rs.length = us.length) (hmax : us.length < STACK_TASKS_MAX)
    (hask : ∀ u ∈ us ++ [t], StackAsks frames mem (us.length + 1) u)
    (hne : ∀ u ∈ us, (mem.task u).data ≠ (mem.task t).data) :
    ∃ mem' as, stackRun frames stackLoaded mem (ms ++ rs) = some (stackLoaded, mem', as) ∧
      xenSaid as = stackSays .detach us ++ (stackSays .attach us ++ [(.success, some t)]) ∧
      StackGroup mem mem' us t := by
  rw [List.map_append] at hms
  obtain ⟨ms₁, ms₂, rfl, hms₁, hms₂⟩ := List.map_eq_append_iff.mp hms
  obtain ⟨m, rfl, hm⟩ : ∃ m, ms₂ = [m] ∧ m.t = some t := by
    obtain ⟨m, tl, rfl, hm, htl⟩ := List.map_eq_cons_iff.mp hms₂
    exact ⟨m, by simpa using htl, hm⟩
  obtain ⟨as₁, hrun₁, has₁⟩ := stackRun_detach [] hmax hms₁
    (fun m hm => hcmd m (List.mem_append_left _ hm))
    (fun u hu => hask u (List.mem_append_left _ hu)) (by simp)
  have hstack := stackMain_stack us (hcmd m (by simp)) hm (hask t (by simp)) hmax rfl
  have hgroup := stackAll_group hne
  obtain ⟨as₂, hrun₂, has₂⟩ : ∃ as₂, stackRun frames ⟨some (stackStorage 0 us), none⟩ mem
      (m :: rs) = some (stackLoaded, stackAll mem t us, as₂) ∧
        xenSaid as₂ = stackSays .attach us ++ [(.success, some t)] := by
    rw [stackRun, hstack, Option.bind_some]
    cases us with
    | nil =>
      obtain rfl : rs = [] := List.length_eq_zero_iff.mp hrs
      exact ⟨_, rfl, rfl⟩
    | cons a rest =>
      have hmop := stackMopUp_next ⟨m, t, 0, (a :: rest).length⟩ a rest (Nat.succ_pos _)
      obtain ⟨as₂, hrun₂, has₂⟩ := stackRun_mopUp frames (stackAll mem t (a :: rest))
        ⟨m, t, 0, (a :: rest).length⟩ a rest hrs (by simp) hmax
      simp only at hmop hrun₂
      refine ⟨{ m with t := some a, cmd := .attach } :: as₂, ?_, congrArg (List.cons _) has₂⟩
      simp only [hmop, hrun₂, Option.map_some]
  refine ⟨stackAll mem t us, as₁ ++ as₂, ?_, ?_, hgroup⟩
  · have hrun : stackRun frames stackLoaded mem (ms₁ ++ (m :: rs)) = _ := stackRun_append hrun₁
    rw [List.append_assoc, List.singleton_append, hrun, List.nil_append, hrun₂]
    rfl
  · rw [xenSaid, List.map_append]
    exact congrArg₂ (· ++ ·) has₁ has₂

end Group

/-- **A group of no task.**  Where three tasks are kept, a task that asks for it takes the last
place of the storage, since the difference wraps around; with the next task, whatever it is, the kernel
reads past its storage. -/
theorem stack_overruns {frames : Nat → BitVec 32} {mem : StackMem} {m : XenMsgData}
    {kept : List Nat} {t : Nat} (hfull : kept.length + 1 = STACK_TASKS_MAX) (hcmd : m.cmd ≠ .exit)
    (ht : m.t = some t) (hask : StackAsks frames mem 0 t) :
    ∃ k, stackMain frames ⟨some (stackStorage 0 kept), none⟩ mem m =
        some (k, mem, { m with cmd := .detach }) ∧
      ∀ mem' m', m'.cmd ≠ .exit → stackMain frames k mem' m' = none := by
  obtain ⟨hinfo, hfr⟩ := hask
  have hkept : kept.length < STACK_TASKS_MAX := by omega
  have hlt : kept.length < (frames (ptGetPendStepOpInfo (mem.task t)) - 1).toNat := by
    have hmax : STACK_TASKS_MAX = 4 := rfl
    bv_omega
  refine ⟨⟨some (stackStorage 0 (kept ++ [t])), none⟩, ?_, fun mem' m' hcmd' => ?_⟩
  · unfold stackMain stackProcessTask
    simp only [hcmd, if_false, stackTracked_storage hkept]
    rw [ht]
    simp only [hinfo, if_false, hfr, Nat.not_lt_zero, hlt, if_true, stackStorage_set hkept]
  · have hnone : stackTracked (stackStorage 0 (kept ++ [t])) = none := by
      have hlen : STACK_TASKS_MAX - 0 - (kept ++ [t]).length = 0 := by
        rw [List.length_append, List.length_singleton]
        omega
      unfold stackTracked stackStorage
      rw [hlen, List.findIdx?_eq_none_iff]
      intro x hx
      have hmem : x ∈ (kept ++ [t]).map some := by simpa using hx
      obtain ⟨a, -, rfl⟩ := List.mem_map.mp hmem
      rfl
    unfold stackMain stackProcessTask
    simp only [hcmd', if_false, hnone]

/-- Two tasks of one element each, which ask for a group of two. -/
def stackPair : StackMem where
  task u := { ptCreate u 4 1 0 0 with nmemb := 1, todo := [⟨STACK_OP_CODE, 9⟩] }
  word p _ := BitVec.ofNat 32 p

theorem stack_group_pair : ∃ mem' as, stackRun (fun _ => 2) stackLoaded stackPair
      ([⟨some 16, .success, 0, 0, 0⟩, ⟨some 32, .detach, 0, 0, 0⟩] ++
        [⟨some 16, .attach, 0, 0, 0⟩]) = some (stackLoaded, mem', as) ∧
    xenSaid as = stackSays .detach [16] ++ (stackSays .attach [16] ++ [(.success, some 32)]) ∧
    StackGroup stackPair mem' [16] 32 :=
  stack_group rfl (by decide) rfl (by decide) (by simp [StackAsks, stackPair, ptGetPendStepOpInfo])
    (by decide)

end FlightOs
