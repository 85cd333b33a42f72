/-
# Runs of a processing network

A network is built by `pn_create`, `pn_create_output_node` and `pn_add_node`, and then takes tasks
in and works them off.  Nobody enters a task that is on a tracker or has been destroyed.

* `pnProcessInputs_total`, `pnProcessOutputs_total`, `pnGetNextPendingTracker_total`: these come to
  an end whatever the op functions do, the first without running into its `BUG_ON`.
* `pn_conserves`: tasks are conserved in a run, as long as an op function that wants its task
  rescheduled leaves it with a step for the node that put it there.
-/
import FlightOs.Net.Conserve

namespace FlightOs

variable {ω : Type}

/-! ## 1. Each call keeps the invariant -/

/-- A detached task is taken into the hand. -/
theorem perm_take_detached {hand : List Nat} {s : PnState ω} {t : Nat} (ht : t ∈ s.detached) :
    (t :: hand ++ (s.tracked ++ (s.detached.erase t ++ s.destroyed))).Perm (hand ++ s.places) := by
  have h1 : s.detached.Perm (t :: s.detached.erase t) := List.perm_cons_erase ht
  have h2 : s.places.Perm (t :: (s.tracked ++ (s.detached.erase t ++ s.destroyed))) :=
    ((h1.append_right s.destroyed).append_left s.tracked).trans List.perm_middle
  exact List.perm_middle.symm.trans (h2.symm.append_left hand)

theorem PnInv.inputTask {hand : List Nat} {s : PnState ω} (h : PnInv hand s) {t : Nat}
    (c : ProcTask) (hhand : t ∉ hand) (htracked : t ∉ s.tracked) (hdestroyed : t ∉ s.destroyed) :
    PnInv hand (pnInputTask s t c) ∧ PnKeeps s (pnInputTask s t c) := by
  have htaken : PnInv (t :: hand) { s.setTask t c with
      entered := s.entered.insert t, detached := s.detached.erase t } := by
    refine ⟨h.distinct, h.outCode, ?_, h.once.insert⟩
    have hmem : t ∈ s.detached ↔ t ∈ s.entered := by
      have h1 : t ∈ hand ++ s.places ↔ t ∈ s.entered := h.places.mem_iff
      simpa [PnState.places, hhand, htracked, hdestroyed] using h1
    by_cases ht : t ∈ s.detached
    · rw [List.insert_of_mem (hmem.mp ht)]
      exact (perm_take_detached ht).trans h.places
    · rw [List.insert_of_not_mem (fun hent => ht (hmem.mpr hent)), List.erase_of_not_mem ht]
      exact List.Perm.cons t h.places
  refine ⟨htaken.put (input_mem_trackers _), ?_⟩
  have hkeeps : PnKeeps s { s.setTask t c with
      entered := s.entered.insert t, detached := s.detached.erase t } :=
    (PnKeeps.setTask (notMem_of_notMem_tracked htracked) c).trans
      (.congr (List.Perm.refl _) rfl rfl)
  refine hkeeps.trans (.put fun hnode => ?_)
  exact absurd (List.mem_cons_of_mem _ hnode) (List.nodup_cons.mp h.distinct).1

theorem drop_length_lt {s : PnState ω} {p t : Nat} {R : List Nat}
    (h : (s.tracker p).tasks = t :: R) :
    ((s.setTracker p (s.tracker p).drop).tracker p).tasks.length < (s.tracker p).tasks.length := by
  rw [setTracker_same, ProcTracker.drop_tasks, h]
  exact Nat.lt_succ_self _

/-- A round of `pn_process_inputs` puts the task it gets on a node, or destroys it. -/
theorem processInputsRound_spec {hand : List Nat} {s : PnState ω} {guess : Option Nat}
    (h : PnInv hand s) (hguess : ∀ q ∈ guess, q ∈ s.nodes) :
    (∃ st', processInputsRound (s, guess) = .ok (.next st') ∧
      ((PnInv hand st'.1 ∧ PnKeeps s st'.1) ∧ ∀ q ∈ st'.2, q ∈ st'.1.nodes) ∧
      (st'.1.tracker st'.1.input).tasks.length < (s.tracker s.input).tasks.length) ∨
    ∃ s', processInputsRound (s, guess) = .ok (.done s') ∧ PnInv hand s' ∧ PnKeeps s s' := by
  unfold processInputsRound
  dsimp only
  split
  case h_1 s' hget =>
    obtain ⟨rfl, -⟩ := ptTrackGet_none hget
    exact .inr ⟨s', rfl, h, .refl _⟩
  case h_2 t s' hget =>
    refine .inl ?_
    have hinv := h.trackGet (input_mem_trackers s) hget
    obtain ⟨rfl, R, hR⟩ := ptTrackGet_some hget
    have hlen := drop_length_lt hR
    split
    case h_1 =>
      have hkeeps : PnKeeps s (ptDestroy (s.setTracker s.input (s.tracker s.input).drop) t) :=
        PnKeeps.drop.trans (.congr (List.Perm.refl _) rfl rfl)
      exact ⟨_, rfl, ⟨⟨hinv.destroy, hkeeps⟩, head_mem_nodes _⟩, hlen⟩
    case h_2 p hp =>
      obtain ⟨hmem, hcode⟩ := pnTrackerFor_some
        (s := s.setTracker s.input (s.tracker s.input).drop) hguess hp
      have hne : s.input ≠ p := by
        rintro rfl
        exact (List.nodup_cons.mp h.distinct).1 (List.mem_cons_of_mem _ hmem)
      rw [ptTrackPut_ask hcode.symm]
      refine ⟨_, rfl, ⟨⟨hinv.put (node_mem_trackers hmem), ?_⟩, ?_⟩, ?_⟩
      · exact PnKeeps.drop.trans (.put fun _ => hcode.symm)
      · intro q hq
        exact Option.mem_some_iff.mp hq ▸ hmem
      · have hsame := setTracker_other (s.setTracker s.input (s.tracker s.input).drop) p
          (((s.setTracker s.input (s.tracker s.input).drop).tracker p).put t) hne
        exact lt_of_eq_of_lt (congrArg (fun pt => pt.tasks.length) hsame) hlen

/-- **`pn_process_inputs` ends**, and its `BUG_ON` is not reached. -/
theorem pnProcessInputs_total {hand : List Nat} {s : PnState ω} (h : PnInv hand s) :
    ∃ r, pnProcessInputs s = .ok r ∧ PnInv hand r.2 ∧ PnKeeps s r.2 := by
  unfold pnProcessInputs
  split
  case isTrue => exact ⟨_, rfl, h, .refl s⟩
  case isFalse =>
    obtain ⟨s', hs', hinv⟩ : ∃ s', loop .outOfFuel processInputsRound
        ((s.tracker s.input).tasks.length + 1) (s, s.nodes.head?) = .ok s' ∧
          PnInv hand s' ∧ PnKeeps s s' := by
      refine loop_total
        (I := fun st => (PnInv hand st.1 ∧ PnKeeps s st.1) ∧ ∀ q ∈ st.2, q ∈ st.1.nodes)
        (fun st => (st.1.tracker st.1.input).tasks.length) (fun st hst => ?_)
        ⟨⟨h, .refl s⟩, head_mem_nodes s⟩ (Nat.lt_succ_self _)
      rcases processInputsRound_spec hst.1.1 hst.2 with
        ⟨st', hr, ⟨⟨hi, hk⟩, hg⟩, hlt⟩ | ⟨s', hr, hi, hk⟩
      · exact .inl ⟨st', hr, ⟨⟨hi, hst.1.2.trans hk⟩, hg⟩, hlt⟩
      · exact .inr ⟨s', hr, hi, hst.1.2.trans hk⟩
    rw [hs']
    exact ⟨_, rfl, hinv⟩

/-- A round of `pn_process_outputs` has its task destroyed or left to the op function. -/
theorem processOutputsRound_spec {hand : List Nat} {n : Nat} {s : PnState ω} (h : PnInv hand s) :
    (∃ st', processOutputsRound (n, s) = .ok (.next st') ∧ (PnInv hand st'.2 ∧ PnKeeps s st'.2) ∧
      (st'.2.tracker st'.2.output).tasks.length < (s.tracker s.output).tasks.length) ∨
    ∃ r, processOutputsRound (n, s) = .ok (.done r) ∧ PnInv hand r.2 ∧ PnKeeps s r.2 := by
  unfold processOutputsRound
  dsimp only
  split
  case h_1 s' hget =>
    obtain ⟨rfl, -⟩ := ptTrackGet_none hget
    exact .inr ⟨_, rfl, h, .refl _⟩
  case h_2 t s' hget =>
    have hinv := h.trackGet (output_mem_trackers s) hget
    obtain ⟨rfl, R, hR⟩ := ptTrackGet_some hget
    have hlen := drop_length_lt hR
    refine .inl ⟨_, rfl, ⟨?_, ?_⟩, ?_⟩
    · dsimp only
      split
      · exact (hinv.opCalled t _).destroy
      · exact (hinv.opCalled t _).leave
    · have hkeeps := PnKeeps.drop.trans (hinv.keeps_setTask
        (opCall (s.setTracker s.output (s.tracker s.output).drop) s.output PN_OP_NODE_OUT t).task)
      dsimp only
      split
      all_goals exact hkeeps.trans (.congr (List.Perm.refl _) rfl rfl)
    · dsimp only
      split <;> exact hlen

/-- **`pn_process_outputs` ends.** -/
theorem pnProcessOutputs_total {hand : List Nat} {s : PnState ω} (h : PnInv hand s) :
    ∃ r, pnProcessOutputs s = .ok r ∧ PnInv hand r.2 ∧ PnKeeps s r.2 := by
  refine loop_total (I := fun st => PnInv hand st.2 ∧ PnKeeps s st.2)
    (fun st => (st.2.tracker st.2.output).tasks.length) (fun st hst => ?_) ⟨h, .refl s⟩
    (Nat.lt_succ_self _)
  rcases processOutputsRound_spec (n := st.1) hst.1 with ⟨st', hr, ⟨hi, hk⟩, hlt⟩ | ⟨r, hr, hi, hk⟩
  · exact .inl ⟨st', hr, ⟨hi, hst.2.trans hk⟩, hlt⟩
  · exact .inr ⟨r, hr, hi, hst.2.trans hk⟩

theorem pnQueueCriticalTrackers_total (s : PnState ω) :
    ∃ nodes, pnQueueCriticalTrackers s = .ok { s with nodes := nodes } ∧ nodes.Perm s.nodes := by
  obtain ⟨⟨⟨⟩, nodes⟩, hr, hperm⟩ : ∃ r : Unit × List Nat,
      safeFor (criticalTurn s) (s.nodes.length + 1) () [] s.nodes = some r ∧ r.2.Perm s.nodes :=
    safeFor_rule (I := fun _ P R => (P ++ R).Perm s.nodes) (Q := fun _ L => L.Perm s.nodes)
      (fun _ R => R.length) (fun _ P hP => by rwa [List.append_nil] at hP)
      (fun _ _ _ _ _ hstop => by
        unfold criticalTurn at hstop
        split at hstop <;> cases hstop)
      (fun _ P t R hI _ => by
        unfold criticalTurn
        split
        · exact ⟨(Relink.after_perm (by simp) P t R).trans hI, Nat.lt_succ_self _⟩
        · exact ⟨(Relink.after_perm (by simp) P t R).trans hI, Nat.lt_succ_self _⟩)
      (List.Perm.refl _) (Nat.lt_succ_self _)
  refine ⟨nodes, ?_, hperm⟩
  unfold pnQueueCriticalTrackers
  rw [hr]

/-- What the loop over the nodes has found when it is over, and how far it has counted before. -/
theorem pendingTracker_total (s : PnState ω) (L : List Nat) :
    ∃ c found nodes, safeFor (pendingTrackerTurn s) (s.n + 3) (0, none) [] L =
      some ((c, found), nodes) ∧ nodes.Perm L ∧ ∀ p ∈ found, p ∈ nodes := by
  obtain ⟨⟨⟨c, found⟩, nodes⟩, hr, hperm, hfound⟩ : ∃ r : (Nat × Option Nat) × List Nat,
      safeFor (pendingTrackerTurn s) (s.n + 3) (0, none) [] L = some r ∧
        r.2.Perm L ∧ ∀ p ∈ r.1.2, p ∈ r.2 := by
    refine safeFor_rule
      (I := fun (st : Nat × Option Nat) P R => (P ++ R).Perm L ∧ st.2 = none ∧ st.1 ≤ s.n + 1)
      (Q := fun st nodes => nodes.Perm L ∧ ∀ p ∈ st.2, p ∈ nodes)
      (fun st _ => s.n + 2 - st.1) ?_ ?_ ?_ ⟨?_, rfl, Nat.zero_le _⟩ (Nat.lt_succ_self _)
    · rintro st P ⟨hP, hnone, -⟩
      rw [List.append_nil] at hP
      refine ⟨hP, fun p hp => ?_⟩
      rw [hnone] at hp
      cases hp
    · rintro st P t R ⟨hP, -, -⟩ hstop
      unfold pendingTrackerTurn at hstop ⊢
      split
      case isTrue =>
        exact ⟨(Relink.after_perm (by simp) P t R).trans hP, fun p hp => by cases hp⟩
      case isFalse hcnt =>
        rw [if_neg hcnt] at hstop
        have htail := Relink.after_perm (l := .tail) (by simp) P t R
        split
        case isTrue =>
          refine ⟨htail.trans hP, fun p hp => ?_⟩
          obtain rfl := Option.mem_some_iff.mp hp
          exact htail.mem_iff.mpr (by simp)
        case isFalse hpend =>
          rw [if_neg hpend] at hstop
          cases hstop
    · rintro st P t R ⟨hP, hnone, hle⟩ hstop
      unfold pendingTrackerTurn at hstop ⊢
      split
      case isTrue hcnt =>
        rw [if_pos hcnt] at hstop
        cases hstop
      case isFalse hcnt =>
        rw [if_neg hcnt] at hstop
        split
        case isTrue hpend =>
          rw [if_pos hpend] at hstop
          cases hstop
        case isFalse =>
          refine ⟨⟨(Relink.after_perm (by simp) P t R).trans hP, rfl, ?_⟩, ?_⟩
          · exact Nat.succ_le_succ (Nat.le_of_not_lt hcnt)
          · dsimp only
            omega
    · exact List.Perm.refl L
  exact ⟨c, found, nodes, hr, hperm, hfound⟩

/-- **`pn_get_next_pending_tracker` ends** with the nodes in another order, and finds a node. -/
theorem pnGetNextPendingTracker_total (s : PnState ω) :
    ∃ found nodes, pnGetNextPendingTracker s = .ok (found, { s with nodes := nodes }) ∧
      nodes.Perm s.nodes ∧ ∀ p ∈ found, p ∈ nodes := by
  unfold pnGetNextPendingTracker
  split
  case isTrue => exact ⟨none, s.nodes, rfl, List.Perm.refl _, fun p hp => by cases hp⟩
  case isFalse =>
    obtain ⟨nodes, hcrit, hperm⟩ := pnQueueCriticalTrackers_total s
    obtain ⟨c, found, nodes', hr, hperm', hfound⟩ :=
      pendingTracker_total { s with nodes := nodes } nodes
    refine ⟨found, nodes', ?_, hperm'.trans hperm, hfound⟩
    simp only [hcrit, bind, Except.bind, hr]

/-! ## 2. Tasks that are put back -/

/-- **The condition.**  If the op function that `pn_process_next` is about to call wants its task
rescheduled, then it leaves the task with a pending step for the tracker it comes from. -/
def PutsBack (p : Nat) (s : PnState ω) : Prop :=
  match ptTrackGet s p with
  | (none, _) => True
  | (some t, s) =>
    let a := opCall s p (ptGetPendStepOpCode (s.task t)) t
    a.ret = PN_TASK_RESCHED ∨ a.ret = PN_TASK_SORTSEQ →
      ptGetPendStepOpCode a.task = (s.tracker p).opCode

instance decidablePutsBack (p : Nat) (s : PnState ω) : Decidable (PutsBack p s) := by
  unfold PutsBack
  exact match ptTrackGet s p with
  | (none, _) => isTrue trivial
  | (some _, _) => inferInstance

/-- A round of `pn_process_next` keeps the invariant. -/
theorem processNextRound_spec {p n : Nat} {s : PnState ω}
    {r : Round (Nat × PnState ω) (Nat × PnState ω)}
    (h : PnInv [] s) (hp : p ∈ s.trackers) (hback : PutsBack p s)
    (hround : processNextRound p (n, s) = .ok r) :
    match r with
    | .next st => PnInv [] st.2 ∧ p ∈ st.2.trackers
    | .done st => PnInv [] st.2 := by
  unfold processNextRound at hround
  unfold PutsBack at hback
  rcases hget : ptTrackGet s p with ⟨_ | t, s'⟩
  · rw [hget] at hround
    cases hround
    exact (ptTrackGet_none hget).1 ▸ h
  · rw [hget] at hround hback
    have hinv := h.trackGet hp hget
    obtain ⟨rfl, R, hR⟩ := ptTrackGet_some hget
    dsimp only at hround hback
    generalize opCall _ p _ t = a at hround hback
    have hcalled := hinv.opCalled t a
    split at hround
    case isTrue =>
      split at hround
      case isTrue =>
        cases hround
        exact ⟨hcalled.destroy, hp⟩
      case isFalse => cases hround
    case isFalse =>
      have hpend : ptGetPendStepOpCode ((opCalled (s.setTracker p (s.tracker p).drop) t a).task t) =
          ptGetPendStepOpCode a.task := by
        simp [opCalled, PnState.setTask]
      obtain ⟨hstatus, htrackers, -⟩ := hcalled.evalTaskStatus hp
        (fun hret : a.ret = PN_TASK_RESCHED ∨ a.ret = PN_TASK_SORTSEQ =>
          hpend.trans (hback hret))
      split at hround
      case h_1 s₁ heq =>
        cases hround
        rw [heq] at hstatus htrackers
        exact ⟨hstatus, htrackers ▸ hp⟩
      case h_2 s₁ heq =>
        cases hround
        rw [heq] at hstatus
        exact hstatus

/-! ## 3. Runs -/

inductive PnCall
  | inputTask (t : Nat) (c : ProcTask)
  | processInputs
  | processNext (fuel : Nat)
  | processOutputs

/-- A call, when it returns. -/
def pnCall (s : PnState ω) : PnCall → Option (PnState ω)
  | .inputTask t c => some (pnInputTask s t c)
  | .processInputs => (pnProcessInputs s).toOption.map Prod.snd
  | .processNext fuel => (pnProcessNext fuel s).toOption.map Prod.snd
  | .processOutputs => (pnProcessOutputs s).toOption.map Prod.snd

/-- The networks that can be built; their trackers are new ones. -/
inductive PnBuilt : PnState ω → Prop
  | create (tracker : Nat → ProcTracker ω) {input output : Nat} (mem : ω) :
    input ≠ output → PnBuilt (pnCreate tracker input output mem)
  | outputNode {s : PnState ω} {p : Nat} (op : OpFunc ω) :
    PnBuilt s → p ∉ s.trackers → PnBuilt (pnCreateOutputNode s p op).2
  | addNode {s : PnState ω} {p : Nat} :
    PnBuilt s → p ∉ s.trackers → (s.tracker p).tasks = [] → PnBuilt (pnAddNode s p).2

/-- A network from when it is built. -/
def pnSystem (ω : Type) : System (PnState ω) PnCall := .ofFun PnBuilt pnCall

/-- What is promised of the callers: a task is entered when no tracker has it, and while it has
not been destroyed. -/
def PnLegal (s : PnState ω) : PnCall → Prop
  | .inputTask t _ => t ∉ s.tracked ∧ t ∉ s.destroyed
  | _ => True

/-- The op functions that a call of `pn_process_next` calls meet the condition. -/
def PnPutsBack (s : PnState ω) : PnCall → Prop
  | .processNext fuel =>
    match pnGetNextPendingTracker s with
    | .ok (some p, s) =>
      AllRounds (processNextRound p) (fun st => PutsBack p st.2) fuel (0, s)
    | _ => True
  | _ => True

instance decidablePnLegal (s : PnState ω) : ∀ c, Decidable (PnLegal s c)
  | .inputTask t _ => inferInstanceAs (Decidable (t ∉ s.tracked ∧ t ∉ s.destroyed))
  | .processInputs => isTrue trivial
  | .processNext _ => isTrue trivial
  | .processOutputs => isTrue trivial

instance decidablePnPutsBack (s : PnState ω) : ∀ c, Decidable (PnPutsBack s c)
  | .inputTask _ _ => isTrue trivial
  | .processInputs => isTrue trivial
  | .processNext fuel => by
    unfold PnPutsBack
    exact match pnGetNextPendingTracker s with
    | .ok (some _, _) => inferInstance
    | .ok (none, _) => isTrue trivial
    | .error _ => isTrue trivial
  | .processOutputs => isTrue trivial

/-- A network no task has been entered into. -/
structure PnEmpty (s : PnState ω) : Prop where
  distinct : s.trackers.Nodup
  outCode : (s.tracker s.output).opCode = PN_OP_NODE_OUT
  tasks : ∀ p ∈ s.trackers, (s.tracker p).tasks = []
  entered : s.entered = []
  detached : s.detached = []
  destroyed : s.destroyed = []

theorem PnEmpty.inv {s : PnState ω} (h : PnEmpty s) : PnInv [] s where
  distinct := h.distinct
  outCode := h.outCode
  places := by
    have htracked : s.tracked = [] := List.flatMap_eq_nil_iff.mpr h.tasks
    rw [PnState.places, htracked, h.detached, h.destroyed, h.entered]
    exact List.Perm.refl _
  once := h.entered ▸ List.nodup_nil

theorem PnBuilt.empty {s : PnState ω} (h : PnBuilt s) : PnEmpty s := by
  induction h with
  | @create tracker input output mem hne =>
    refine ⟨by simp [PnState.trackers, pnCreate, hne], ?_, ?_, rfl, rfl, rfl⟩
    · simp [pnCreate, ptTrackCreate]
    · intro p hp
      simp only [PnState.trackers, pnCreate, List.mem_cons, List.not_mem_nil, or_false] at hp
      rcases hp with rfl | rfl <;> simp [pnCreate, ptTrackCreate, hne]
  | @outputNode s p op _ hp ih =>
    have hne : ∀ q ∈ s.trackers, q ≠ p := fun q hq heq => hp (heq ▸ hq)
    have hdistinct := ih.distinct
    simp only [PnState.trackers, List.nodup_cons, List.mem_cons, not_or] at hdistinct hp
    refine ⟨?_, ?_, ?_, ih.entered, ih.detached, ?_⟩
    · simp only [PnState.trackers, pnCreateOutputNode, PnState.setTracker, List.nodup_cons,
        List.mem_cons, not_or]
      exact ⟨⟨Ne.symm hp.1, hdistinct.1.2⟩, hp.2.2, hdistinct.2.2⟩
    · simp [pnCreateOutputNode, PnState.setTracker, ptTrackCreate]
    · intro q hq
      change (Function.update s.tracker p (ptTrackCreate op PN_OP_NODE_OUT 1) q).tasks = []
      rw [Function.update_apply]
      split
      case isTrue => rfl
      case isFalse hqp =>
        refine ih.tasks q ?_
        change q ∈ s.input :: p :: s.nodes at hq
        simp only [List.mem_cons, hqp, false_or] at hq
        simp only [PnState.trackers, List.mem_cons]
        exact hq.elim Or.inl (fun h => .inr (.inr h))
    · change s.destroyed ++ (s.tracker s.output).tasks = []
      rw [ih.destroyed, ih.tasks _ (output_mem_trackers s)]
      rfl
  | @addNode s p _ hp htasks ih =>
    unfold pnAddNode
    split
    case isTrue => exact ih
    split
    case isTrue => exact ih
    have htrackers : s.input :: s.output :: (s.nodes ++ [p]) = s.trackers ++ [p] := rfl
    refine ⟨?_, ih.outCode, ?_, ih.entered, ih.detached, ih.destroyed⟩
    · change (s.input :: s.output :: (s.nodes ++ [p])).Nodup
      rw [htrackers]
      exact List.nodup_append.mpr ⟨ih.distinct, List.nodup_singleton p, by
        rintro q hq r hr rfl
        exact hp (List.mem_singleton.mp hr ▸ hq)⟩
    · intro q hq
      change q ∈ s.input :: s.output :: (s.nodes ++ [p]) at hq
      rw [htrackers, List.mem_append, List.mem_singleton] at hq
      rcases hq with hq | rfl
      · exact ih.tasks q hq
      · exact htasks

/-- **One call.** -/
theorem pnCall_keeps {s s' : PnState ω} {c : PnCall} (h : PnInv [] s) (hlegal : PnLegal s c)
    (hback : PnPutsBack s c) (hcall : pnCall s c = some s') : PnInv [] s' := by
  cases c with
  | inputTask t c =>
    cases hcall
    exact (h.inputTask c List.not_mem_nil hlegal.1 hlegal.2).1
  | processInputs =>
    obtain ⟨r, hr, hinv, -⟩ := pnProcessInputs_total h
    rw [pnCall, hr] at hcall
    cases hcall
    exact hinv
  | processNext fuel =>
    obtain ⟨found, nodes, hfound, hperm, hmem⟩ := pnGetNextPendingTracker_total s
    rw [pnCall, pnProcessNext, hfound] at hcall
    rw [PnPutsBack, hfound] at hback
    have hinv := h.reorder hperm
    match found with
    | none =>
      cases hcall
      exact hinv
    | some p =>
      obtain ⟨st, hst, rfl⟩ := Option.map_eq_some_iff.mp hcall
      have hloop : loop .outOfFuel (processNextRound p) fuel (0, { s with nodes := nodes }) =
          .ok st := by
        revert hst
        change Except.toOption (loop _ _ _ _) = some st → _
        cases loop PnError.outOfFuel (processNextRound p) fuel (0, { s with nodes := nodes }) with
        | ok a =>
          intro hst
          cases hst
          rfl
        | error => intro hst; cases hst
      have hp : p ∈ PnState.trackers { s with nodes := nodes } := node_mem_trackers (hmem p rfl)
      exact loop_partial (I := fun st => PnInv [] st.2 ∧ p ∈ st.2.trackers)
        (Q := fun st => PnInv [] st.2)
        (fun _ _ hI hok hr => processNextRound_spec hI.1 hI.2 hok hr)
        (fun _ _ hI hok hr => processNextRound_spec hI.1 hI.2 hok hr) ⟨hinv, hp⟩ hback hloop
  | processOutputs =>
    obtain ⟨r, hr, hinv, -⟩ := pnProcessOutputs_total h
    rw [pnCall, hr] at hcall
    cases hcall
    exact hinv

/-- **Tasks are conserved.**  In a run in which every op function that wants its task rescheduled
leaves it with a pending step for its node, each task entered is at each moment between two calls
in one place: the input, one node, the output, with an op function, or destroyed. -/
theorem pn_conserves {s : PnState ω}
    (h : (pnSystem ω).Reachable (fun s c => PnLegal s c ∧ PnPutsBack s c) s) : Conserved s := by
  refine (System.Reachable.invariant (I := PnInv []) ?_ ?_ h).conserved
  · intro s hs
    exact hs.empty.inv
  · intro s c s' hI hok hstep
    exact pnCall_keeps hI hok.1 hok.2 hstep

/-! ## 4. A network with one node -/

/-- A network with a node for the op code 1. -/
def pnOneNode (op : OpFunc Unit) : PnState Unit :=
  (pnAddNode (pnCreate (fun _ => ptTrackCreate op 1 1) 0 1 ()) 2).2

theorem pnOneNode_built (op : OpFunc Unit) : PnBuilt (pnOneNode op) :=
  .addNode (.create _ () (by decide)) (by simp [PnState.trackers, pnCreate])
    (by simp [pnCreate, ptTrackCreate])

/-- A task with one step. -/
def pnOneStep : ProcTask := (ptAddStep (ptCreate 0 0 1 0 0) 1 0).2

/-- An op function that is through with its step and passes the task on. -/
def opSuccess : OpFunc Unit := fun _ _ m c => ⟨m, c, false, PN_TASK_SUCCESS⟩

/-- An op function that gives up its step and wants the task rescheduled. -/
def opGivesUp : OpFunc Unit := fun _ _ m c => ⟨m, ptDelPendStep c, false, PN_TASK_RESCHED⟩

/-- A task goes in, through the node and out. -/
def pnPass : List PnCall :=
  [.inputTask 7 pnOneStep, .processInputs, .processNext 3, .processOutputs]

theorem pn_conserves_pass :
    ∃ s, System.stepAll pnCall (pnOneNode opSuccess) pnPass = some s ∧ s.destroyed = [7] ∧
      Conserved s := by
  refine ⟨_, rfl, by decide, pn_conserves ?_⟩
  exact System.Reachable.stepAll pnPass (.init (pnOneNode_built opSuccess)) (by decide) rfl

/-- **A task is lost.**  Its op function gives up the pending step and wants it rescheduled; the
tracker rejects it, and then it is nowhere. -/
theorem pn_conserves_lost :
    ¬ ∀ s, (pnSystem Unit).Reachable PnLegal s → Conserved s := by
  intro h
  have hrun : ∃ s, System.stepAll pnCall (pnOneNode opGivesUp)
      [.inputTask 7 pnOneStep, .processInputs, .processNext 3] = some s ∧ s.entered = [7] ∧
      s.places = [] := ⟨_, rfl, by decide, by decide⟩
  obtain ⟨s, hs, hentered, hplaces⟩ := hrun
  have hreach : (pnSystem Unit).Reachable PnLegal s :=
    System.Reachable.stepAll _ (.init (pnOneNode_built opGivesUp)) (by decide) hs
  have hlost := h s hreach 7
  rw [hentered, hplaces] at hlost
  exact absurd hlost (by decide)

end FlightOs
