/-
# What becomes of a task in a processing network

A task that was entered is on one tracker of the network, or has been left to an op function, or
has been destroyed: `PnState.places` counts it once.  While a call has a task in hand, the task is
in none of these places, so the invariant `PnInv hand` has the list of the tasks in hand: `get`
takes one into the hand, and `put`, `destroy` and `leave` each let one go.

The return codes of the op functions all end with one of these.  But `pt_track_put` rejects a
task whose pending step is not one for the tracker; `pn_eval_task_status` does not look at that
when it puts a task back that is to be rescheduled, and an op function that has edited the steps
of such a task gets it lost (`PutsBack` is the condition that it does not happen).
-/
import FlightOs.Net.Network
import FlightOs.Lib.Places
import FlightOs.Lib.System

namespace FlightOs

variable {ω : Type}

/-! ## 1. Places and hands -/

namespace PnState

/-- The trackers of a network. -/
def trackers (s : PnState ω) : List Nat := s.input :: s.output :: s.nodes

/-- The tasks on the trackers. -/
def tracked (s : PnState ω) : List Nat := s.trackers.flatMap fun p => (s.tracker p).tasks

/-- Where tasks can be. -/
def places (s : PnState ω) : List Nat := s.tracked ++ (s.detached ++ s.destroyed)

end PnState

/-- **Conservation.**  Each task entered is in one place, and no other task is in any. -/
def Conserved (s : PnState ω) : Prop :=
  ∀ t, s.places.count t = if t ∈ s.entered then 1 else 0

/-- The invariant of a network, while the tasks of `hand` are in the hands of a call. -/
structure PnInv (hand : List Nat) (s : PnState ω) : Prop where
  distinct : s.trackers.Nodup
  outCode : (s.tracker s.output).opCode = PN_OP_NODE_OUT
  places : (hand ++ s.places).Perm s.entered
  once : s.entered.Nodup

theorem PnInv.conserved {s : PnState ω} (h : PnInv [] s) : Conserved s := by
  intro t
  have hcount : s.places.count t = s.entered.count t := h.places.count_eq t
  rw [hcount]
  split
  case isTrue ht => exact List.count_eq_one_of_mem h.once ht
  case isFalse ht => exact List.count_eq_zero_of_not_mem ht

/-! ## 2. Into the hand and out of it -/

theorem setTracker_same (s : PnState ω) (p : Nat) (pt : ProcTracker ω) :
    (s.setTracker p pt).tracker p = pt := by
  simp [PnState.setTracker]

theorem setTracker_other (s : PnState ω) (p : Nat) {q : Nat} (pt : ProcTracker ω) (h : q ≠ p) :
    (s.setTracker p pt).tracker q = s.tracker q := by
  simp [PnState.setTracker, h]

theorem setTracker_tracked {s : PnState ω} {p : Nat} (pt : ProcTracker ω)
    (hs : s.trackers.Nodup) (hp : p ∈ s.trackers) :
    (s.setTracker p pt).tracked.Perm
      (pt.tasks ++ (s.trackers.erase p).flatMap fun q => (s.tracker q).tasks) := by
  have h := flatMap_change (f := fun q => (s.tracker q).tasks)
    (g := fun q => ((s.setTracker p pt).tracker q).tasks) hs hp
    (fun q _ hq => congrArg ProcTracker.tasks (setTracker_other s p pt hq))
  rwa [setTracker_same] at h

theorem PnInv.setTracker_outCode {hand : List Nat} {s : PnState ω} (h : PnInv hand s) {p : Nat}
    {pt : ProcTracker ω} (hpt : pt.opCode = (s.tracker p).opCode) :
    ((s.setTracker p pt).tracker s.output).opCode = PN_OP_NODE_OUT := by
  change (Function.update s.tracker p pt s.output).opCode = PN_OP_NODE_OUT
  rw [Function.update_apply]
  split
  case isTrue heq => rw [hpt, ← heq, h.outCode]
  case isFalse => exact h.outCode

/-- A task in hand is put on a tracker. -/
theorem PnInv.put {hand : List Nat} {t p : Nat} {s : PnState ω} (h : PnInv (t :: hand) s)
    (hp : p ∈ s.trackers) : PnInv hand (s.setTracker p ((s.tracker p).put t)) where
  distinct := h.distinct
  outCode := h.setTracker_outCode rfl
  places := by
    have h1 := setTracker_tracked ((s.tracker p).put t) h.distinct hp
    have h2 := flatMap_split (f := fun q => (s.tracker q).tasks) hp
    have h3 : (s.setTracker p ((s.tracker p).put t)).tracked.Perm (t :: s.tracked) := by
      rw [ProcTracker.put_tasks, List.append_assoc, List.singleton_append] at h1
      exact h1.trans (List.perm_middle.trans (h2.symm.cons t))
    have h4 : (hand ++ (s.setTracker p ((s.tracker p).put t)).places).Perm
        (hand ++ t :: s.places) := (h3.append_right _).append_left hand
    exact h4.trans (List.perm_middle.trans h.places)
  once := h.once

/-- The first task of a tracker is taken into the hand. -/
theorem PnInv.get {hand : List Nat} {t p : Nat} {R : List Nat} {s : PnState ω} (h : PnInv hand s)
    (hp : p ∈ s.trackers) (ht : (s.tracker p).tasks = t :: R) :
    PnInv (t :: hand) (s.setTracker p (s.tracker p).drop) where
  distinct := h.distinct
  outCode := h.setTracker_outCode rfl
  places := by
    have h1 := setTracker_tracked (s.tracker p).drop h.distinct hp
    have h2 := flatMap_split (f := fun q => (s.tracker q).tasks) hp
    have h3 : (t :: (s.setTracker p (s.tracker p).drop).tracked).Perm s.tracked := by
      rw [ProcTracker.drop_tasks, ht, List.tail_cons] at h1
      simp only [ht, List.cons_append] at h2
      exact (h1.cons t).trans h2.symm
    have h4 : (hand ++ t :: (s.setTracker p (s.tracker p).drop).places).Perm
        (hand ++ s.places) := (h3.append_right _).append_left hand
    exact List.perm_middle.symm.trans (h4.trans h.places)
  once := h.once

theorem PnInv.destroy {hand : List Nat} {t : Nat} {s : PnState ω} (h : PnInv (t :: hand) s) :
    PnInv hand (ptDestroy s t) where
  distinct := h.distinct
  outCode := h.outCode
  places := by
    have h1 : (ptDestroy s t).places.Perm (t :: s.places) := by
      have h2 : (ptDestroy s t).places = s.places ++ [t] := by
        simp [ptDestroy, PnState.places, PnState.tracked, PnState.trackers]
      rw [h2]
      exact List.perm_append_singleton t s.places
    exact (h1.append_left hand).trans (List.perm_middle.trans h.places)
  once := h.once

theorem PnInv.leave {hand : List Nat} {t : Nat} {s : PnState ω} (h : PnInv (t :: hand) s) :
    PnInv hand (leave s t) where
  distinct := h.distinct
  outCode := h.outCode
  places := by
    have h1 : (FlightOs.leave s t).places.Perm (t :: s.places) := by
      have h2 : (FlightOs.leave s t).places = s.tracked ++ (s.detached ++ t :: s.destroyed) := by
        simp [FlightOs.leave, PnState.places, PnState.tracked, PnState.trackers]
      rw [h2]
      refine (List.Perm.append_left _ List.perm_middle).trans ?_
      exact List.perm_middle
    exact (h1.append_left hand).trans (List.perm_middle.trans h.places)
  once := h.once

/-- The contents of the tasks and what the op functions remember do not matter. -/
theorem PnInv.congr {hand : List Nat} {s s' : PnState ω} (h : PnInv hand s)
    (htracker : s'.tracker = s.tracker) (htrackers : s'.trackers = s.trackers)
    (hout : s'.output = s.output) (hdetached : s'.detached = s.detached)
    (hdestroyed : s'.destroyed = s.destroyed) (hentered : s'.entered = s.entered) :
    PnInv hand s' where
  distinct := htrackers ▸ h.distinct
  outCode := by rw [htracker, hout, h.outCode]
  places := by
    have h1 : s'.places = s.places := by
      rw [PnState.places, PnState.places, PnState.tracked, PnState.tracked, htracker, htrackers,
        hdetached, hdestroyed]
    rw [h1, hentered]
    exact h.places
  once := hentered ▸ h.once

theorem PnInv.setTask {hand : List Nat} {s : PnState ω} (h : PnInv hand s) (t : Nat)
    (c : ProcTask) : PnInv hand (s.setTask t c) := h.congr rfl rfl rfl rfl rfl rfl

theorem PnInv.opCalled {hand : List Nat} {s : PnState ω} (h : PnInv hand s) (t : Nat)
    (a : OpAnswer ω) : PnInv hand (opCalled s t a) := h.congr rfl rfl rfl rfl rfl rfl

/-- The order of the nodes does not matter. -/
theorem PnInv.reorder {hand nodes : List Nat} {s : PnState ω} (h : PnInv hand s)
    (hperm : nodes.Perm s.nodes) : PnInv hand { s with nodes := nodes } where
  distinct := (((hperm.cons s.output).cons s.input).nodup_iff).mpr h.distinct
  outCode := h.outCode
  places := by
    have h1 := ((hperm.cons s.output).cons s.input).flatMap_right fun p => (s.tracker p).tasks
    have h2 : (PnState.places { s with nodes := nodes }).Perm s.places := h1.append_right _
    exact (h2.append_left hand).trans h.places
  once := h.once

/-! ## 3. What the calls keep -/

/-- The tasks on the nodes ask for what the nodes are for. -/
def Asks (s : PnState ω) : Prop :=
  ∀ p ∈ s.nodes, ∀ t ∈ (s.tracker p).tasks, ptGetPendStepOpCode (s.task t) = (s.tracker p).opCode

/-- The nodes are the same ones, though in another order, and their tasks still ask for them. -/
structure PnKeeps (s s' : PnState ω) : Prop where
  nodes : s'.nodes.Perm s.nodes
  opCode : ∀ p ∈ s.nodes, (s'.tracker p).opCode = (s.tracker p).opCode
  asks : Asks s → Asks s'

section Keeps

variable {hand nodes : List Nat} {s s' s'' : PnState ω} {p t : Nat}

theorem PnKeeps.refl (s : PnState ω) : PnKeeps s s := ⟨List.Perm.refl _, fun _ _ => rfl, id⟩

theorem PnKeeps.trans (h : PnKeeps s s') (h' : PnKeeps s' s'') : PnKeeps s s'' :=
  ⟨h'.nodes.trans h.nodes, fun p hp => (h'.opCode p (h.nodes.mem_iff.mpr hp)).trans (h.opCode p hp),
    fun ha => h'.asks (h.asks ha)⟩

/-- What has become of the tasks and what the op functions remember do not matter, nor does the
order of the nodes. -/
theorem PnKeeps.congr (hnodes : s'.nodes.Perm s.nodes) (htracker : s'.tracker = s.tracker)
    (htask : s'.task = s.task) : PnKeeps s s' := by
  refine ⟨hnodes, fun p _ => by rw [htracker], fun ha p hp t ht => ?_⟩
  rw [htracker] at ht ⊢
  rw [htask]
  exact ha p (hnodes.mem_iff.mp hp) t ht

/-- The tracker `p`, if it is a node, has only tasks that ask for it. -/
theorem PnKeeps.setTracker {pt : ProcTracker ω}
    (hpt : p ∈ s.nodes → pt.opCode = (s.tracker p).opCode ∧ ∀ t ∈ pt.tasks,
      t ∈ (s.tracker p).tasks ∨ ptGetPendStepOpCode (s.task t) = (s.tracker p).opCode) :
    PnKeeps s (s.setTracker p pt) := by
  have hsame : ∀ q ∈ s.nodes, ((s.setTracker p pt).tracker q).opCode = (s.tracker q).opCode := by
    intro q hq
    by_cases hqp : q = p
    · rw [hqp, setTracker_same, (hpt (hqp ▸ hq)).1]
    · rw [setTracker_other s p pt hqp]
  refine ⟨List.Perm.refl _, hsame, fun ha q hq t ht => ?_⟩
  have hmem : q ∈ s.nodes := hq
  rw [hsame q hmem]
  by_cases hqp : q = p
  · subst hqp
    rw [setTracker_same] at ht
    exact ((hpt hmem).2 t ht).elim (ha q hmem t) id
  · rw [setTracker_other s p pt hqp] at ht
    exact ha q hmem t ht

theorem PnKeeps.put (hask : p ∈ s.nodes → ptGetPendStepOpCode (s.task t) = (s.tracker p).opCode) :
    PnKeeps s (s.setTracker p ((s.tracker p).put t)) := by
  refine .setTracker (fun hp => ⟨rfl, fun u hu => ?_⟩)
  rw [ProcTracker.put_tasks, List.mem_append, List.mem_singleton] at hu
  rcases hu with hu | rfl
  · exact .inl hu
  · exact .inr (hask hp)

theorem PnKeeps.drop : PnKeeps s (s.setTracker p (s.tracker p).drop) :=
  .setTracker (fun _ => ⟨rfl, fun _ hu => .inl (List.mem_of_mem_tail hu)⟩)

theorem PnKeeps.setTask (hno : ∀ p ∈ s.nodes, t ∉ (s.tracker p).tasks) (c : ProcTask) :
    PnKeeps s (s.setTask t c) := by
  refine ⟨List.Perm.refl _, fun _ _ => rfl, fun ha p hp u hu => ?_⟩
  have hne : u ≠ t := by
    rintro rfl
    exact hno p hp hu
  have hsame : (s.setTask t c).task u = s.task u := Function.update_of_ne hne _ _
  rw [hsame]
  exact ha p hp u hu

/-- A task in hand is on no tracker. -/
theorem PnInv.notMem_tracked (h : PnInv (t :: hand) s) : t ∉ s.tracked := by
  have hnd : (t :: (hand ++ s.places)).Nodup := h.places.nodup_iff.mpr h.once
  exact fun hmem => (List.nodup_cons.mp hnd).1
    (List.mem_append_right _ (List.mem_append_left _ hmem))

theorem notMem_of_notMem_tracked (h : t ∉ s.tracked) : ∀ p ∈ s.nodes, t ∉ (s.tracker p).tasks :=
  fun p hp ht => h (List.mem_flatMap.mpr
    ⟨p, List.mem_cons_of_mem _ (List.mem_cons_of_mem _ hp), ht⟩)

theorem PnInv.keeps_setTask (h : PnInv (t :: hand) s) (c : ProcTask) : PnKeeps s (s.setTask t c) :=
  .setTask (notMem_of_notMem_tracked h.notMem_tracked) c

end Keeps

/-! ## 4. Where tasks go -/

theorem ptTrackGet_none {s s' : PnState ω} {p : Nat} (h : ptTrackGet s p = (none, s')) :
    s' = s ∧ (s.tracker p).tasks = [] := by
  unfold ptTrackGet at h
  split at h
  case h_1 hnil => exact ⟨(Prod.mk.inj h).2.symm, hnil⟩
  case h_2 => cases (Prod.mk.inj h).1

theorem ptTrackGet_some {s s' : PnState ω} {p t : Nat} (h : ptTrackGet s p = (some t, s')) :
    s' = s.setTracker p (s.tracker p).drop ∧ ∃ R, (s.tracker p).tasks = t :: R := by
  unfold ptTrackGet at h
  split at h
  case h_1 => cases (Prod.mk.inj h).1
  case h_2 u R hcons =>
    obtain ⟨h1, h2⟩ := Prod.mk.inj h
    exact ⟨h2.symm, R, Option.some.inj h1 ▸ hcons⟩

theorem PnInv.trackGet {hand : List Nat} {s s' : PnState ω} {p t : Nat} (h : PnInv hand s)
    (hp : p ∈ s.trackers) (hget : ptTrackGet s p = (some t, s')) : PnInv (t :: hand) s' := by
  obtain ⟨rfl, R, hR⟩ := ptTrackGet_some hget
  exact h.get hp hR

/-- A tracker takes a task that asks for its op. -/
theorem ptTrackPut_ask {s : PnState ω} {p t : Nat}
    (h : ptGetPendStepOpCode (s.task t) = (s.tracker p).opCode) :
    ptTrackPut s p t = (0, s.setTracker p ((s.tracker p).put t)) := by
  rw [ptTrackPut, if_neg (not_not_intro h)]

/-- The tracker found is a node for the op code. -/
theorem pnTrackerFor_some {s : PnState ω} {guess : Option Nat} {op p : Nat}
    (hguess : ∀ q ∈ guess, q ∈ s.nodes) (h : pnTrackerFor s guess op = some p) :
    p ∈ s.nodes ∧ (s.tracker p).opCode = op := by
  have hfind : pnFindTracker s op = some p → p ∈ s.nodes ∧ (s.tracker p).opCode = op := by
    intro hf
    have hcode := List.find?_some hf
    exact ⟨List.mem_of_find?_eq_some hf, of_decide_eq_true hcode⟩
  unfold pnTrackerFor at h
  split at h
  case h_1 q =>
    split at h
    case isTrue hcode => exact Option.some.inj h ▸ ⟨hguess q rfl, hcode⟩
    case isFalse => exact hfind h
  case h_2 => exact hfind h

theorem node_mem_trackers {s : PnState ω} {p : Nat} (h : p ∈ s.nodes) : p ∈ s.trackers :=
  List.mem_cons_of_mem _ (List.mem_cons_of_mem _ h)

theorem output_mem_trackers (s : PnState ω) : s.output ∈ s.trackers :=
  List.mem_cons_of_mem _ List.mem_cons_self

theorem input_mem_trackers (s : PnState ω) : s.input ∈ s.trackers := List.mem_cons_self

theorem head_mem_nodes (s : PnState ω) : ∀ q ∈ s.nodes.head?, q ∈ s.nodes :=
  fun _ hq => List.mem_of_head? hq

/-- **A task on its way.**  It gets to the output, to the node for its op, or is destroyed. -/
theorem PnInv.toNextNode {hand : List Nat} {s : PnState ω} {t : Nat} (h : PnInv (t :: hand) s) :
    PnInv hand (pnTaskToNextNode s t).2 ∧ (pnTaskToNextNode s t).2.trackers = s.trackers ∧
      PnKeeps s (pnTaskToNextNode s t).2 := by
  unfold pnTaskToNextNode
  simp only
  split
  case isTrue hop =>
    have hask := hop.trans h.outCode.symm
    rw [ptTrackPut_ask hask]
    exact ⟨h.put (output_mem_trackers s), rfl, .put fun _ => hask⟩
  case isFalse =>
    split
    case h_1 => exact ⟨h.destroy, rfl, .congr (List.Perm.refl _) rfl rfl⟩
    case h_2 p hp =>
      obtain ⟨hmem, hcode⟩ := pnTrackerFor_some (head_mem_nodes s) hp
      rw [ptTrackPut_ask hcode.symm]
      exact ⟨h.put (node_mem_trackers hmem), rfl, .put fun _ => hcode.symm⟩

/-- **Each return code** lets the task go, provided that a task to be put back asks for the op of
the tracker it is put back on. -/
theorem PnInv.evalTaskStatus {hand : List Nat} {s : PnState ω} {p t : Nat} {ret : Int}
    (h : PnInv (t :: hand) s) (hp : p ∈ s.trackers)
    (hback : ret = PN_TASK_RESCHED ∨ ret = PN_TASK_SORTSEQ →
      ptGetPendStepOpCode (s.task t) = (s.tracker p).opCode) :
    PnInv hand (pnEvalTaskStatus s p t ret).2 ∧
      (pnEvalTaskStatus s p t ret).2.trackers = s.trackers ∧
      PnKeeps s (pnEvalTaskStatus s p t ret).2 := by
  have hnext : ∀ c, PnInv hand (pnTaskToNextNode (s.setTask t c) t).2 ∧
      (pnTaskToNextNode (s.setTask t c) t).2.trackers = s.trackers ∧
      PnKeeps s (pnTaskToNextNode (s.setTask t c) t).2 := by
    intro c
    obtain ⟨h1, h2, h3⟩ := (h.setTask t c).toNextNode
    exact ⟨h1, h2, (h.keeps_setTask c).trans h3⟩
  unfold pnEvalTaskStatus
  split
  case isTrue => exact hnext _
  split
  case isTrue => exact hnext _
  split
  case isTrue => exact ⟨h.leave, rfl, .congr (List.Perm.refl _) rfl rfl⟩
  split
  case isTrue hret =>
    rw [ptTrackPut_ask (hback (.inl hret))]
    exact ⟨h.put hp, rfl, .put fun _ => hback (.inl hret)⟩
  split
  case isTrue hret =>
    rw [ptTrackPut_ask (hback (.inr hret))]
    exact ⟨h.put hp, rfl, .put fun _ => hback (.inr hret)⟩
  split
  case isTrue => exact hnext _
  exact ⟨h.destroy, rfl, .congr (List.Perm.refl _) rfl rfl⟩

end FlightOs
