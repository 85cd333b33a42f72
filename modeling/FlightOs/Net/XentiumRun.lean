/-
# What becomes of a task on a Xentium

A task that has been taken out of a tracker is on one of the Xentiums, which is a hand of `PnInv`.
The kernel gives it back with its answer, or keeps it; the next one is taken out of the tracker of
the Xentium, whose tasks all ask for the kernel that runs there (`Asks`).

`xen_load_task` takes a task out of a tracker before it looks for a kernel, and does not put it back
where there is none.  There is one for every node, except in the middle of `xentium_kernel_add`,
when the node is in the network and the kernel is not known yet.
-/
import FlightOs.Net.Xentium
import FlightOs.Net.Contract

namespace FlightOs

variable {ω : Type}

/-! ## 1. The invariant -/

/-- The tasks on the Xentiums. -/
def xenHeld (x : Xen ω) : List Nat := slots XENTIUMS (fun _ t => t) x.held

/-- **Conservation.**  Each task entered is on one Xentium, or in one place of the network. -/
def XenConserved (x : Xen ω) : Prop :=
  ∀ t, (xenHeld x ++ x.pn.places).count t = if t ∈ x.pn.entered then 1 else 0

/-- Every node has a kernel that can be loaded, or it is about to get one. -/
def XenKnows (x : Xen ω) : Prop :=
  ∀ p ∈ x.pn.nodes, (∃ k ∈ x.kernels, k.opCode = (x.pn.tracker p).opCode ∧ k.inUse = false) ∨
    x.adding = some (x.pn.tracker p).opCode

structure XenInv (x : Xen ω) : Prop where
  inv : PnInv (xenHeld x) x.pn
  asks : Asks x.pn
  node : ∀ i p, x.pt i = some p → p ∈ x.pn.nodes
  idle : ∀ i, x.pt i = none → x.held i = none ∧ x.msg i = none
  knows : XenKnows x

theorem PnInv.perm {hand hand' : List Nat} {s : PnState ω} (h : PnInv hand s)
    (hp : hand'.Perm hand) : PnInv hand' s :=
  ⟨h.distinct, h.outCode, (hp.append_right _).trans h.places, h.once⟩

theorem XenInv.conserved {x : Xen ω} (X : XenInv x) : XenConserved x := by
  intro t
  have hcount : (xenHeld x ++ x.pn.places).count t = x.pn.entered.count t :=
    X.inv.places.count_eq t
  rw [hcount]
  split
  case isTrue ht => exact List.count_eq_one_of_mem X.inv.once ht
  case isFalse ht => exact List.count_eq_zero_of_not_mem ht

section Steps

variable {x : Xen ω} {pn : PnState ω} {i p t : Nat} {T : List Nat} {m : XenMsgData}

theorem XenKnows.keeps (K : XenKnows x) (hk : PnKeeps x.pn pn) : XenKnows { x with pn } := by
  intro p hp
  have hp' := hk.nodes.mem_iff.mp hp
  have hcode : (pn.tracker p).opCode = (x.pn.tracker p).opCode := hk.opCode p hp'
  simp only [hcode]
  exact K p hp'

/-- The network changes, and the Xentiums do not. -/
theorem XenInv.setNet (X : XenInv x) (hinv : PnInv (xenHeld x) pn) (hk : PnKeeps x.pn pn) :
    XenInv { x with pn } where
  inv := hinv
  asks := hk.asks X.asks
  node := fun i p hp => hk.nodes.mem_iff.mpr (X.node i p hp)
  idle := X.idle
  knows := X.knows.keeps hk

/-- A Xentium gets a message without a task. -/
theorem XenInv.setCmd (X : XenInv x) (hp : x.pt i ≠ none) : XenInv (xenSetCmd x i m) where
  inv := X.inv
  asks := X.asks
  node := X.node
  idle := fun j hj => by
    have hne : j ≠ i := by
      rintro rfl
      exact hp hj
    exact ⟨(X.idle j hj).1, (Function.update_of_ne hne _ _).trans (X.idle j hj).2⟩
  knows := X.knows

/-- A Xentium without a task is unused from then on. -/
theorem XenInv.freeMsg (X : XenInv x) (hheld : x.held i = none) : XenInv (xenFreeMsg x i) where
  inv := X.inv
  asks := X.asks
  node := fun j p hp => by
    have hp : Function.update x.pt i none j = some p := hp
    rw [Function.update_apply] at hp
    split at hp
    · cases hp
    · exact X.node j p hp
  idle := fun j hj => by
    by_cases hji : j = i
    · subst hji
      exact ⟨hheld, Function.update_self ..⟩
    · have hj : Function.update x.pt i none j = none := hj
      rw [Function.update_of_ne hji] at hj
      exact ⟨(X.idle j hj).1, (Function.update_of_ne hji _ _).trans (X.idle j hj).2⟩
  knows := X.knows

/-- **A task goes to a Xentium** from the tracker that the Xentium is loaded with. -/
theorem XenInv.handTask (X : XenInv x) (hi : i < XENTIUMS) (hheld : x.held i = none)
    (hp : p ∈ x.pn.nodes) (htasks : (x.pn.tracker p).tasks = t :: T) :
    XenInv (xenHandTask (xenSetTracker { x with pn := x.pn.setTracker p (x.pn.tracker p).drop } i
      (some p)) i m t) where
  inv := (X.inv.get (node_mem_trackers hp) htasks).perm (slots_fill hi hheld)
  asks := PnKeeps.drop.asks X.asks
  node := fun j q hq => by
    have hq : Function.update x.pt i (some p) j = some q := hq
    rw [Function.update_apply] at hq
    split at hq
    · exact Option.some.inj hq ▸ hp
    · exact X.node j q hq
  idle := fun j hj => by
    have hj : Function.update x.pt i (some p) j = none := hj
    have hji : j ≠ i := by
      rintro rfl
      rw [Function.update_self] at hj
      cases hj
    rw [Function.update_of_ne hji] at hj
    exact ⟨(Function.update_of_ne hji _ _).trans (X.idle j hj).1,
      (Function.update_of_ne hji _ _).trans (X.idle j hj).2⟩
  knows := X.knows.keeps PnKeeps.drop

/-- A task comes back from a Xentium, into the hand of the driver. -/
theorem XenInv.takeBack (X : XenInv x) (hi : i < XENTIUMS) (hheld : x.held i = some t) :
    PnInv (t :: xenHeld { x with held := Function.update x.held i none }) x.pn :=
  X.inv.perm (slots_clear (g := fun _ u => u) hi hheld).symm

/-- The driver has let go of a task that came back. -/
theorem XenInv.clear (X : XenInv x)
    (hinv : PnInv (xenHeld { x with held := Function.update x.held i none }) pn)
    (hk : PnKeeps x.pn pn) : XenInv { x with pn, held := Function.update x.held i none } where
  inv := hinv
  asks := hk.asks X.asks
  node := fun i p hp => hk.nodes.mem_iff.mpr (X.node i p hp)
  idle := fun j hj => by
    refine ⟨?_, (X.idle j hj).2⟩
    show Function.update x.held i none j = none
    rw [Function.update_apply]
    split
    · rfl
    · exact (X.idle j hj).1
  knows := X.knows.keeps hk

/-! ## 2. Loading a task -/

theorem xenGetIdxUnused_some (h : xenGetIdxUnused x = some i) : i < XENTIUMS ∧ x.pt i = none := by
  have hfree := List.find?_some (p := fun i => (x.pt i).isNone) h
  exact ⟨List.mem_range.mp (List.mem_of_find?_eq_some h), Option.isNone_iff_eq_none.mp hfree⟩

/-- A node has a kernel, when none is being added. -/
theorem XenInv.kernel (X : XenInv x) (hadd : x.adding = none) (hp : p ∈ x.pn.nodes) :
    ∃ k, xenGetKernelIdxWithOpCode x (x.pn.tracker p).opCode = .ok k := by
  obtain ⟨k, hk, hcode, hfree⟩ := (X.knows p hp).resolve_right
    (by simp [hadd])
  have hsome : (x.kernels.findIdx?
      (fun k => decide (k.opCode = (x.pn.tracker p).opCode) && !k.inUse)).isSome := by
    rw [List.findIdx?_isSome, List.any_eq_true]
    exact ⟨k, hk, by simp [hcode, hfree]⟩
  obtain ⟨n, hn⟩ := Option.isSome_iff_exists.mp hsome
  refine ⟨n, ?_⟩
  rw [xenGetKernelIdxWithOpCode, hn]

theorem XenInv.loadTask (X : XenInv x) (mem : Bool) (hadd : x.adding = none)
    (hp : p ∈ x.pn.nodes) :
    XenInv (xenLoadTask x p mem).2 ∧ (xenLoadTask x p mem).2.adding = none := by
  unfold xenLoadTask
  split
  case h_1 => exact ⟨X, hadd⟩
  case h_2 i hi =>
    obtain ⟨hi, hpt⟩ := xenGetIdxUnused_some hi
    split
    case isTrue => exact ⟨X, hadd⟩
    case isFalse =>
      split
      case h_1 pn hget =>
        obtain ⟨rfl, -⟩ := ptTrackGet_none hget
        exact ⟨X, hadd⟩
      case h_2 t pn hget =>
        obtain ⟨rfl, T, htasks⟩ := ptTrackGet_some hget
        have hask : ptGetPendStepOpCode (x.pn.task t) = (x.pn.tracker p).opCode :=
          X.asks p hp t (htasks ▸ List.mem_cons_self)
        obtain ⟨k, hk⟩ := X.kernel hadd hp
        have hfound : xenGetKernelIdxWithOpCode x (ptGetPendStepOpCode
            ((x.pn.setTracker p (x.pn.tracker p).drop).task t)) = .ok k :=
          (congrArg (xenGetKernelIdxWithOpCode x) hask).trans hk
        rw [hfound]
        exact ⟨X.handTask hi (X.idle i hpt).1 hp htasks, hadd⟩

/-- **Scheduling** keeps the invariant, and comes to an end. -/
theorem XenInv.scheduleFrom (mem : Bool) : ∀ (n : Nat) {x : Xen ω}, XenInv x → x.adding = none →
    ∃ x', xentiumScheduleFrom mem n x = .ok x' ∧ XenInv x' ∧ x'.adding = none
  | 0, x, X, hadd => ⟨x, rfl, X, hadd⟩
  | n + 1, x, X, hadd => by
    obtain ⟨found, nodes, hnext, hperm, hmem⟩ := pnGetNextPendingTracker_total x.pn
    have X₁ : XenInv { x with pn := { x.pn with nodes } } :=
      X.setNet (X.inv.reorder hperm) (.congr hperm rfl rfl)
    rw [xentiumScheduleFrom, hnext]
    match found with
    | none => exact ⟨_, rfl, X₁, hadd⟩
    | some p =>
      simp only
      split
      case isTrue => exact XenInv.scheduleFrom mem n X₁ hadd
      case isFalse =>
        obtain ⟨X₂, hadd₂⟩ := X₁.loadTask mem hadd (hmem p rfl)
        exact ⟨_, rfl, ⟨X₂.inv, X₂.asks, X₂.node, X₂.idle, X₂.knows⟩, hadd₂⟩

theorem XenInv.scheduleNext (X : XenInv x) (mem : Bool) (hadd : x.adding = none) :
    ∃ x', xentiumScheduleNextInternal mem x = .ok x' ∧ XenInv x' ∧ x'.adding = none :=
  XenInv.scheduleFrom mem XENTIUMS X hadd

/-! ## 3. Interrupts -/

theorem xenSetTracker_self (hp : x.pt i = some p) : xenSetTracker x i (some p) = x := by
  rw [xenSetTracker, ← hp, Function.update_eq_self]

/-- **An answer for the task on a Xentium**: the task goes on, and the Xentium gets the next one of
its tracker, or a command to exit, or is unused. -/
theorem XenInv.handleCmds (X : XenInv x) {ret : Int} (hi : i < XENTIUMS) (hheld : x.held i = some t)
    (hm : m.t = some t)
    (hback : ret = PN_TASK_RESCHED ∨ ret = PN_TASK_SORTSEQ → ∀ p, x.pt i = some p →
      ptGetPendStepOpCode (x.pn.task t) = (x.pn.tracker p).opCode) :
    XenInv (xenHandleCmds x i m ret) ∧ (xenHandleCmds x i m ret).adding = x.adding := by
  obtain ⟨p, hp⟩ : ∃ p, x.pt i = some p := by
    refine Option.ne_none_iff_exists'.mp (fun hnone => ?_)
    rw [(X.idle i hnone).1] at hheld
    cases hheld
  have hnode := X.node i p hp
  have heval : xenEvalTaskStatus x.pn (x.pt i) m.t ret = pnEvalTaskStatus x.pn p t ret := by
    rw [hp, hm]
    rfl
  obtain ⟨hinv, -, hk⟩ := (X.takeBack hi hheld).evalTaskStatus (node_mem_trackers hnode)
    (fun hret : ret = PN_TASK_RESCHED ∨ ret = PN_TASK_SORTSEQ => hback hret p hp)
  have X₁ := X.clear hinv hk
  have hnone : Function.update x.held i none i = none := Function.update_self ..
  have hp₁ : x.pt i ≠ none := by
    rw [hp]
    exact Option.some_ne_none p
  unfold xenHandleCmds
  rw [heval]
  generalize pnEvalTaskStatus x.pn p t ret = r at X₁ hk
  simp only
  split
  case isTrue => exact ⟨X₁.freeMsg hnone, rfl⟩
  case isFalse =>
    split
    case isTrue => exact ⟨X₁.setCmd hp₁, rfl⟩
    case isFalse =>
      rw [hp]
      simp only
      split
      case h_1 pn hget =>
        obtain ⟨rfl, -⟩ := ptTrackGet_none hget
        exact ⟨X₁.setCmd hp₁, rfl⟩
      case h_2 u pn hget =>
        obtain ⟨rfl, T, htasks⟩ := ptTrackGet_some hget
        have X₂ := X₁.handTask (m := m) hi hnone (hk.nodes.mem_iff.mpr hnode) htasks
        rw [xenSetTracker_self] at X₂
        · exact ⟨X₂, rfl⟩
        · exact hp

/-- A task that a kernel has kept comes back. -/
theorem PnInv.takeBack {hand : List Nat} {s : PnState ω} (h : PnInv hand s) (ht : t ∈ s.detached) :
    PnInv (t :: hand) (xenTakeBack s (some t)) :=
  ⟨h.distinct, h.outCode, (perm_take_detached ht).trans h.places, h.once⟩

theorem XenInv.attach (X : XenInv x) (hp : x.pt i ≠ none) (ht : t ∈ x.pn.detached)
    (hm : m.t = some t) : XenInv (xenSetCmd { x with
      pn := (xenEvalTaskStatus (xenTakeBack x.pn m.t) (x.pt i) m.t PN_TASK_SUCCESS).2 } i m) := by
  obtain ⟨p, hp'⟩ := Option.ne_none_iff_exists'.mp hp
  have heval : xenEvalTaskStatus (xenTakeBack x.pn m.t) (x.pt i) m.t PN_TASK_SUCCESS =
      pnEvalTaskStatus (xenTakeBack x.pn (some t)) p t PN_TASK_SUCCESS := by
    rw [hp', hm]
    rfl
  obtain ⟨hinv, -, hk⟩ := (X.inv.takeBack ht).evalTaskStatus (p := p)
    (node_mem_trackers (X.node i p hp'))
    (fun hret : PN_TASK_SUCCESS = PN_TASK_RESCHED ∨ PN_TASK_SUCCESS = PN_TASK_SORTSEQ =>
      absurd hret (by decide))
  have hk₀ : PnKeeps x.pn (xenTakeBack x.pn (some t)) := .congr (List.Perm.refl _) rfl rfl
  rw [heval]
  exact (X.setNet hinv (hk₀.trans hk)).setCmd hp

/-- A task that is on a Xentium or with a kernel is on no tracker. -/
theorem XenInv.notMem_tracked (X : XenInv x) (ht : t ∈ xenHeld x ∨ t ∈ x.pn.detached) :
    t ∉ x.pn.tracked := by
  have hnd : (xenHeld x ++ (x.pn.tracked ++ (x.pn.detached ++ x.pn.destroyed))).Nodup :=
    X.inv.places.nodup_iff.mpr X.inv.once
  obtain ⟨-, hnet, hap⟩ := List.nodup_append.mp hnd
  intro hmem
  rcases ht with ht | ht
  · exact hap t ht t (List.mem_append_left _ hmem) rfl
  · exact (List.nodup_append.mp hnet).2.2 t hmem t (List.mem_append_left _ ht) rfl

/-- The contents of a task that is on no tracker. -/
theorem XenInv.setTask (X : XenInv x) (ht : t ∈ xenHeld x ∨ t ∈ x.pn.detached) (c : ProcTask) :
    XenInv { x with pn := x.pn.setTask t c } :=
  X.setNet (X.inv.setTask t c) (.setTask (notMem_of_notMem_tracked (X.notMem_tracked ht)) c)

theorem mem_xenHeld (hi : i < XENTIUMS) (hheld : x.held i = some t) : t ∈ xenHeld x :=
  mem_slots.mpr ⟨i, hi, t, hheld, rfl⟩

end Steps

/-! ## 4. Answers -/

/-- The answers with which a kernel is done with its task. -/
def XenCmd.isStatus : XenCmd → Bool
  | .success | .stop | .detach | .resched | .sortseq | .destroy => true
  | _ => false

/-- A Xentium that has a message answers it.  It speaks of its task, or of one that has been kept by
a kernel. -/
structure XenAnswers (x : Xen ω) (i : Nat) (m : XenMsgData) : Prop where
  xentium : i < XENTIUMS
  asked : x.msg i ≠ none
  status : m.cmd.isStatus = true → ∃ t, x.held i = some t ∧ m.t = some t
  attach : m.cmd = .attach → ∃ t ∈ x.pn.detached, m.t = some t
  dataRealloc : m.cmd = .dataRealloc →
    ∃ t, (x.held i = some t ∨ t ∈ x.pn.detached) ∧ m.t = some t

/-- A task that is to be put back on its tracker asks for it; a kernel that exits has no task. -/
structure XenLetsGo (x : Xen ω) (i : Nat) (m : XenMsgData) : Prop where
  back : m.cmd = .resched ∨ m.cmd = .sortseq → ∀ t ∈ m.t, ∀ p ∈ x.pt i,
    ptGetPendStepOpCode (x.pn.task t) = (x.pn.tracker p).opCode
  exit : m.cmd = .exit → x.held i = none

section Answers

variable {x : Xen ω} {i p t : Nat} {m : XenMsgData}

theorem XenInv.irqCmd (X : XenInv x) (A : XenAnswers x i m) (L : XenLetsGo x i m) (answer : Nat) :
    XenInv (xenIrqCmd x i m answer) ∧ (xenIrqCmd x i m answer).adding = x.adding := by
  have hi := A.xentium
  have hpt : x.pt i ≠ none := fun h => A.asked (X.idle i h).2
  have hcmds : ∀ ret : Int, m.cmd.isStatus = true →
      (ret = PN_TASK_RESCHED ∨ ret = PN_TASK_SORTSEQ → m.cmd = .resched ∨ m.cmd = .sortseq) →
      XenInv (xenHandleCmds x i m ret) ∧ (xenHandleCmds x i m ret).adding = x.adding := by
    intro ret hstatus hret
    obtain ⟨t, hheld, hm⟩ := A.status hstatus
    exact X.handleCmds hi hheld hm (fun h p hp => L.back (hret h) t hm p hp)
  unfold xenIrqCmd
  cases hcmd : m.cmd with
  | success => exact hcmds _ (by rw [hcmd]; rfl) (fun h => absurd h (by decide))
  | stop => exact hcmds _ (by rw [hcmd]; rfl) (fun h => absurd h (by decide))
  | detach => exact hcmds _ (by rw [hcmd]; rfl) (fun h => absurd h (by decide))
  | resched => exact hcmds _ (by rw [hcmd]; rfl) (fun _ => Or.inl hcmd)
  | sortseq => exact hcmds _ (by rw [hcmd]; rfl) (fun _ => Or.inr hcmd)
  | destroy => exact hcmds _ (by rw [hcmd]; rfl) (fun h => absurd h (by decide))
  | attach =>
    obtain ⟨t, ht, hm⟩ := A.attach hcmd
    exact ⟨X.attach hpt ht hm, rfl⟩
  | dataRealloc =>
    obtain ⟨t, ht, hm⟩ := A.dataRealloc hcmd
    simp only [hm]
    exact ⟨(X.setTask (ht.imp_left (mem_xenHeld hi)) _).setCmd hpt, rfl⟩
  | kzalloc => exact ⟨X.setCmd hpt, rfl⟩
  | kmalloc => exact ⟨X.setCmd hpt, rfl⟩
  | kfree => exact ⟨X.setCmd hpt, rfl⟩
  | exit =>
    have hheld := L.exit hcmd
    have hsame : Function.update x.held i none = x.held := by
      rw [← hheld, Function.update_eq_self]
    simp only [hsame]
    exact ⟨X.freeMsg hheld, rfl⟩
  | unknown => exact ⟨X, rfl⟩

/-- **The interrupt.** -/
theorem XenInv.irqHandler (X : XenInv x) (A : XenAnswers x i m) (L : XenLetsGo x i m)
    (mem : Bool) (answer : Nat) (hadd : x.adding = none) :
    ∃ x', xenIrqHandler x i (some m) mem answer = .ok x' ∧ XenInv x' := by
  obtain ⟨X₁, hadd₁⟩ := X.irqCmd A L answer
  obtain ⟨x', hx', X', -⟩ := X₁.scheduleNext mem (hadd₁.trans hadd)
  exact ⟨x', hx', X'⟩

/-! ## 5. The calls -/

theorem XenInv.inputTask (X : XenInv x) {c : ProcTask} {mem : Bool} (hheld : t ∉ xenHeld x)
    (htracked : t ∉ x.pn.tracked) (hdestroyed : t ∉ x.pn.destroyed) (hadd : x.adding = none) :
    ∃ x', xentiumInputTask x t c mem = .ok x' ∧ XenInv x' := by
  obtain ⟨hinv, hk⟩ := X.inv.inputTask c hheld htracked hdestroyed
  obtain ⟨r, hr, hinv', hk'⟩ := pnProcessInputs_total hinv
  have X₁ := X.setNet hinv' (hk.trans hk')
  obtain ⟨x', hx', X', -⟩ := X₁.scheduleNext mem hadd
  refine ⟨x', ?_, X'⟩
  rw [xentiumInputTask, hr]
  exact hx'

theorem XenInv.outputTasks (X : XenInv x) : ∃ x', xentiumOutputTasks x = .ok x' ∧ XenInv x' := by
  obtain ⟨r, hr, hinv, hk⟩ := pnProcessOutputs_total X.inv
  refine ⟨_, ?_, X.setNet hinv hk⟩
  rw [xentiumOutputTasks, hr]

/-- The old output node is destroyed with its tasks. -/
theorem PnInv.createOutputNode {hand : List Nat} {s : PnState ω} (h : PnInv hand s)
    (hp : p ∉ s.trackers) (op : OpFunc ω) : PnInv hand (pnCreateOutputNode s p op).2 := by
  have hne : ∀ q ∈ s.trackers, q ≠ p := fun q hq e => hp (e ▸ hq)
  have hin : s.input ≠ p := hne _ (input_mem_trackers s)
  have hnodes : ∀ q ∈ s.nodes, q ≠ p := fun q hq => hne q (node_mem_trackers hq)
  have hd := h.distinct
  simp only [PnState.trackers, List.nodup_cons, List.mem_cons, not_or] at hd
  have htracked : ((pnCreateOutputNode s p op).2.tracked ++ (s.tracker s.output).tasks).Perm
      s.tracked := by
    have hrest : (s.nodes.flatMap fun q => ((s.setTracker p
        (ptTrackCreate op PN_OP_NODE_OUT 1)).tracker q).tasks) =
        s.nodes.flatMap fun q => (s.tracker q).tasks :=
      List.flatMap_congr fun q hq => by rw [setTracker_other s p _ (hnodes q hq)]
    have hold : s.tracked = (s.tracker s.input).tasks ++ ((s.tracker s.output).tasks ++
        s.nodes.flatMap fun q => (s.tracker q).tasks) := rfl
    have hnew : (pnCreateOutputNode s p op).2.tracked = (s.tracker s.input).tasks ++
        s.nodes.flatMap fun q => (s.tracker q).tasks := by
      show ((s.setTracker p (ptTrackCreate op PN_OP_NODE_OUT 1)).tracker s.input).tasks ++
        (((s.setTracker p (ptTrackCreate op PN_OP_NODE_OUT 1)).tracker p).tasks ++
          (s.nodes.flatMap fun q => ((s.setTracker p
            (ptTrackCreate op PN_OP_NODE_OUT 1)).tracker q).tasks)) = _
      rw [setTracker_other s p _ hin, setTracker_same, hrest]
      rfl
    rw [hold, hnew, List.append_assoc]
    exact List.perm_append_comm.append_left _
  refine ⟨?_, ?_, ?_, h.once⟩
  · show (s.input :: p :: s.nodes).Nodup
    simp only [List.nodup_cons, List.mem_cons, not_or]
    exact ⟨⟨hin, hd.1.2⟩, fun hmem => hnodes p hmem rfl, hd.2.2⟩
  · exact congrArg ProcTracker.opCode (setTracker_same s p _)
  · refine List.Perm.trans (List.Perm.append_left _ ?_) h.places
    show ((pnCreateOutputNode s p op).2.tracked ++
      (s.detached ++ (s.destroyed ++ (s.tracker s.output).tasks))).Perm
        (s.tracked ++ (s.detached ++ s.destroyed))
    refine List.Perm.trans ?_ (htracked.append_right _)
    rw [List.append_assoc, ← List.append_assoc s.detached]
    exact List.perm_append_comm.append_left _

theorem XenInv.configOutputNode (X : XenInv x) (hp : p ∉ x.pn.trackers) (op : OpFunc ω) :
    XenInv (xentiumConfigOutputNode x p op) := by
  have hno : p ∉ x.pn.nodes := fun h => hp (node_mem_trackers h)
  have hk : PnKeeps x.pn (x.pn.setTracker p (ptTrackCreate op PN_OP_NODE_OUT 1)) :=
    .setTracker fun h => absurd h hno
  exact X.setNet (X.inv.createOutputNode hp op) (hk.trans (.congr (List.Perm.refl _) rfl rfl))

/-- A new node, without a task. -/
theorem PnInv.addNode {hand : List Nat} {s : PnState ω} {pt : ProcTracker ω} {n : Nat}
    (h : PnInv hand s) (hp : p ∉ s.trackers) (hpt : pt.tasks = []) :
    PnInv hand { s.setTracker p pt with nodes := s.nodes ++ [p], n := n } := by
  have hne : ∀ q ∈ s.trackers, q ≠ p := fun q hq e => hp (e ▸ hq)
  refine ⟨?_, ?_, ?_, h.once⟩
  · show (s.trackers ++ [p]).Nodup
    refine List.nodup_append.mpr ⟨h.distinct, List.nodup_singleton p, ?_⟩
    rintro q hq r hr rfl
    exact hne q hq (List.mem_singleton.mp hr)
  · exact (congrArg ProcTracker.opCode
      (setTracker_other s p pt (hne _ (output_mem_trackers s)))).trans h.outCode
  · have hnew : ((s.trackers ++ [p]).flatMap fun q => ((s.setTracker p pt).tracker q).tasks) =
        s.tracked := by
      have hold : (s.trackers.flatMap fun q => ((s.setTracker p pt).tracker q).tasks) = s.tracked :=
        List.flatMap_congr fun q hq => by rw [setTracker_other s p pt (hne q hq)]
      rw [List.flatMap_append, hold, List.flatMap_singleton, setTracker_same, hpt, List.append_nil]
    refine List.Perm.trans (List.Perm.append_left _ ?_) h.places
    exact List.Perm.of_eq (congrArg (· ++ (s.detached ++ s.destroyed)) hnew)

theorem XenInv.kernelAddNode (X : XenInv x) (hp : p ∉ x.pn.trackers) (hadd : x.adding = none)
    (opCode critBufLvl : Nat) : XenInv (xentiumKernelAddNode x p opCode critBufLvl) := by
  have hno : ∀ q ∈ x.pn.nodes, q ≠ p := fun q hq e => hp (e ▸ node_mem_trackers hq)
  unfold xentiumKernelAddNode
  simp only
  split
  case h_1 pn heq =>
    unfold pnAddNode at heq
    split at heq
    · cases (Prod.mk.inj heq).1
    split at heq
    · cases (Prod.mk.inj heq).1
    obtain ⟨-, rfl⟩ := Prod.mk.inj heq
    refine ⟨X.inv.addNode hp rfl, fun q hq t ht => ?_, fun i q hq => ?_, X.idle, fun q hq => ?_⟩
    · rcases List.mem_append.mp hq with hq | hq
      · have hsame := setTracker_other x.pn p
          (ptTrackCreate opXenScheduleKernel opCode critBufLvl) (hno q hq)
        simp only [hsame] at ht ⊢
        exact X.asks q hq t ht
      · rw [List.mem_singleton.mp hq] at ht
        simp only [setTracker_same] at ht
        cases ht
    · exact List.mem_append_left _ (X.node i q hq)
    · rcases List.mem_append.mp hq with hq | hq
      · have hsame := setTracker_other x.pn p
          (ptTrackCreate opXenScheduleKernel opCode critBufLvl) (hno q hq)
        simp only [hsame]
        exact Or.inl ((X.knows q hq).resolve_right (by simp [hadd]))
      · rw [List.mem_singleton.mp hq]
        simp only [setTracker_same]
        exact Or.inr rfl
  case h_2 => exact X

theorem XenInv.kernelAddKernel (X : XenInv x) : XenInv (xentiumKernelAddKernel x) := by
  unfold xentiumKernelAddKernel
  split
  case h_1 => exact X
  case h_2 opCode hadd =>
    refine ⟨X.inv, X.asks, X.node, X.idle, fun p hp => Or.inl ?_⟩
    rcases X.knows p hp with ⟨k, hk, hcode⟩ | hcode
    · exact ⟨k, List.mem_append_left _ hk, hcode⟩
    · rw [hadd] at hcode
      exact ⟨_, List.mem_append_right _ (List.mem_singleton_self _), Option.some.inj hcode, rfl⟩

end Answers

/-! ## 6. Runs -/

inductive XenOp (ω : Type)
  | irq (i : Nat) (m : Option XenMsgData) (mem : Bool) (answer : Nat)
  | scheduleNext (mem : Bool)
  | inputTask (t : Nat) (c : ProcTask) (mem : Bool)
  | outputTasks
  | configOutputNode (p : Nat) (op : OpFunc ω)
  | kernelAddNode (p opCode critBufLvl : Nat)
  | kernelAddKernel
  /-- a Xentium, or whoever has kept the task, changes its contents -/
  | edit (t : Nat) (c : ProcTask)

def xenStep (x : Xen ω) : XenOp ω → Option (Xen ω)
  | .irq i m mem answer => (xenIrqHandler x i m mem answer).toOption
  | .scheduleNext mem => (xentiumScheduleNextInternal mem x).toOption
  | .inputTask t c mem => (xentiumInputTask x t c mem).toOption
  | .outputTasks => (xentiumOutputTasks x).toOption
  | .configOutputNode p op => some (xentiumConfigOutputNode x p op)
  | .kernelAddNode p opCode critBufLvl => some (xentiumKernelAddNode x p opCode critBufLvl)
  | .kernelAddKernel => some (xentiumKernelAddKernel x)
  | .edit t c => some { x with pn := x.pn.setTask t c }

/-- The driver behind `xentium_init`. -/
def xentiumInit (pn : PnState ω) : Xen ω :=
  ⟨pn, [], false, fun _ => none, fun _ => none, fun _ => none, none⟩

def xenSystem (ω : Type) : System (Xen ω) (XenOp ω) :=
  .ofFun (fun x => ∃ tracker input output mem, input ≠ output ∧
    x = xentiumInit (pnCreate tracker input output mem)) xenStep

/-- What is promised: Xentiums answer what they have been asked, nobody enters a task that the
network has, new trackers are new, and kernels are added one after the other. -/
def XenValid (x : Xen ω) : XenOp ω → Prop
  | .irq i m _ _ => ∀ m' ∈ m, XenAnswers x i m'
  | .inputTask t _ _ => t ∉ xenHeld x ∧ t ∉ x.pn.tracked ∧ t ∉ x.pn.destroyed
  | .configOutputNode p _ => p ∉ x.pn.trackers
  | .kernelAddNode p _ _ => p ∉ x.pn.trackers ∧ x.adding = none
  | .edit t _ => t ∈ xenHeld x ∨ t ∈ x.pn.detached
  | .scheduleNext _ | .outputTasks | .kernelAddKernel => True

/-- Nothing is loaded in the middle of `xentium_kernel_add`, and kernels let go of their tasks. -/
def XenSafe (x : Xen ω) : XenOp ω → Prop
  | .irq i m _ _ => ∀ m' ∈ m, XenLetsGo x i m' ∧ x.adding = none
  | .scheduleNext _ | .inputTask _ _ _ => x.adding = none
  | _ => True

section Runs

variable {x x' : Xen ω} {o : XenOp ω}

theorem XenInv.init (tracker : Nat → ProcTracker ω) {input output : Nat} (mem : ω)
    (hne : input ≠ output) : XenInv (xentiumInit (pnCreate tracker input output mem)) where
  inv := (PnBuilt.create tracker mem hne).empty.inv
  asks := fun _ hp => absurd hp List.not_mem_nil
  node := fun _ p hp => absurd hp (Option.some_ne_none p).symm
  idle := fun _ _ => ⟨rfl, rfl⟩
  knows := fun _ hp => absurd hp List.not_mem_nil

/-- **The step** comes to an end, and keeps the invariant. -/
theorem XenInv.step (X : XenInv x) (hv : XenValid x o) (hs : XenSafe x o) :
    ∃ x', xenStep x o = some x' ∧ XenInv x' := by
  have hok : ∀ {e : Except PnError (Xen ω)}, (∃ x', e = .ok x' ∧ XenInv x') →
      ∃ x', e.toOption = some x' ∧ XenInv x' := by
    rintro e ⟨x', rfl, X'⟩
    exact ⟨x', rfl, X'⟩
  cases o with
  | irq i m mem answer =>
    cases m with
    | none => exact ⟨x, rfl, X⟩
    | some m => exact hok (X.irqHandler (hv m rfl) (hs m rfl).1 mem answer (hs m rfl).2)
  | scheduleNext mem =>
    obtain ⟨x', hx', X', -⟩ := X.scheduleNext mem hs
    exact hok ⟨x', hx', X'⟩
  | inputTask t c mem => exact hok (X.inputTask hv.1 hv.2.1 hv.2.2 hs)
  | outputTasks => exact hok X.outputTasks
  | configOutputNode p op => exact ⟨_, rfl, X.configOutputNode hv op⟩
  | kernelAddNode p opCode critBufLvl => exact ⟨_, rfl, X.kernelAddNode hv.1 hv.2 opCode critBufLvl⟩
  | kernelAddKernel => exact ⟨_, rfl, X.kernelAddKernel⟩
  | edit t c => exact ⟨_, rfl, X.setTask hv c⟩

/-- **No task is lost** in a run in which nothing is loaded in the middle of `xentium_kernel_add`,
and kernels let go of their tasks. -/
theorem xen_conserves (h : (xenSystem ω).Reachable (fun x o => XenValid x o ∧ XenSafe x o) x) :
    XenConserved x := by
  have hinv : XenInv x := by
    refine h.invariant (fun x hx => ?_) (fun x o x' X ho hstep => ?_)
    · obtain ⟨tracker, input, output, mem, hne, rfl⟩ := hx
      exact XenInv.init tracker mem hne
    · obtain ⟨x₁, hx₁, X₁⟩ := X.step ho.1 ho.2
      exact Option.some.inj (hx₁.symm.trans hstep) ▸ X₁
  exact hinv.conserved

end Runs

/-- The driver with an empty network. -/
def xenStart : Xen Unit := xentiumInit (pnCreate (fun _ => ptTrackCreate opSuccess 1 1) 0 1 ())

theorem xenStart_init : (xenSystem Unit).init xenStart := ⟨_, 0, 1, (), by decide, rfl⟩

/-- A message that says what has become of the task. -/
def xenAnswer (t : Nat) (cmd : XenCmd) : XenMsgData := ⟨some t, cmd, 0, 0, 0⟩

/-- A kernel is added, gets a task and is done with it. -/
theorem xen_conserves_pass : ∃ x, System.stepAll xenStep xenStart
      [.kernelAddNode 2 1 1, .kernelAddKernel, .inputTask 7 pnOneStep true,
        .irq 0 (some (xenAnswer 7 .success)) true 0] = some x ∧
      (x.pn.tracker 1).tasks = [7] ∧ XenConserved x := by
  have hrun : (System.stepAll xenStep xenStart
      [.kernelAddNode 2 1 1, .kernelAddKernel, .inputTask 7 pnOneStep true,
        .irq 0 (some (xenAnswer 7 .success)) true 0]).map
        (fun x => (x.pn.tracker 1).tasks) = some [7] := by decide
  obtain ⟨x, hx, htasks⟩ := Option.map_eq_some_iff.mp hrun
  have hloaded : (System.stepAll xenStep xenStart
      [.kernelAddNode 2 1 1, .kernelAddKernel, .inputTask 7 pnOneStep true]).map
        (fun x => (x.held 0, (x.msg 0).isSome, x.adding)) = some (some 7, true, none) := by
    decide
  have hallowed : System.AllowedAll xenStep (fun x o => XenValid x o ∧ XenSafe x o) xenStart
      [.kernelAddNode 2 1 1, .kernelAddKernel, .inputTask 7 pnOneStep true,
        .irq 0 (some (xenAnswer 7 .success)) true 0] := by
    refine ⟨⟨⟨by decide, rfl⟩, trivial⟩, fun x₁ h₁ => ⟨⟨trivial, trivial⟩, fun x₂ h₂ => ⟨?_,
      fun x₃ h₃ => ⟨?_, fun _ _ => trivial⟩⟩⟩⟩
    · cases h₁
      cases h₂
      exact ⟨⟨by decide, by decide, by decide⟩, rfl⟩
    · rw [System.stepAll, h₁, Option.bind_some, System.stepAll, h₂, Option.bind_some,
        System.stepAll, h₃] at hloaded
      obtain ⟨hheld, hloaded⟩ := Prod.mk.inj (Option.some.inj hloaded)
      obtain ⟨hmsg, hadd⟩ := Prod.mk.inj hloaded
      have A : XenAnswers x₃ 0 (xenAnswer 7 .success) :=
        ⟨by decide, Option.isSome_iff_ne_none.mp hmsg, fun _ => ⟨7, hheld, rfl⟩,
          fun h => absurd h (by decide), fun h => absurd h (by decide)⟩
      have L : XenLetsGo x₃ 0 (xenAnswer 7 .success) :=
        ⟨fun h => absurd h (by decide), fun h => absurd h (by decide)⟩
      refine ⟨fun m hm => ?_, fun m hm => ?_⟩
      · cases hm
        exact A
      · cases hm
        exact ⟨L, hadd⟩
  exact ⟨x, hx, htasks, xen_conserves
    (System.Reachable.stepAll _ (.init xenStart_init) hallowed hx)⟩

/-- A task for the op codes 1 and 2. -/
def pnTwoSteps : ProcTask := (ptAddStep (ptAddStep (ptCreate 0 0 2 0 0) 1 0).2 2 0).2

/-- **A task is lost.**  It is done with its first step when the node for its second step is in the
network, and the kernel is not known yet. -/
theorem xen_conserves_lost : ¬ ∀ x, (xenSystem Unit).Reachable XenValid x → XenConserved x := by
  intro hall
  have hrun : (System.stepAll xenStep xenStart
      [.kernelAddNode 2 1 1, .kernelAddKernel, .inputTask 7 pnTwoSteps true, .kernelAddNode 3 2 1,
        .irq 0 (some (xenAnswer 7 .success)) true 0]).map
        (fun x => (x.pn.entered, xenHeld x, x.pn.places)) = some ([7], [], []) := by
    decide
  obtain ⟨x, hx, hobs⟩ := Option.map_eq_some_iff.mp hrun
  obtain ⟨hentered, hobs⟩ := Prod.mk.inj hobs
  obtain ⟨hheld, hplaces⟩ := Prod.mk.inj hobs
  have hloaded : (System.stepAll xenStep xenStart
      [.kernelAddNode 2 1 1, .kernelAddKernel, .inputTask 7 pnTwoSteps true,
        .kernelAddNode 3 2 1]).map
        (fun x => (x.held 0, (x.msg 0).isSome)) = some (some 7, true) := by
    decide
  have hnew : (System.stepAll xenStep xenStart
      [.kernelAddNode 2 1 1, .kernelAddKernel, .inputTask 7 pnTwoSteps true]).map
        (fun x => (x.pn.trackers, x.adding)) = some ([0, 1, 2], none) := by
    decide
  have hallowed : System.AllowedAll xenStep XenValid xenStart
      [.kernelAddNode 2 1 1, .kernelAddKernel, .inputTask 7 pnTwoSteps true, .kernelAddNode 3 2 1,
        .irq 0 (some (xenAnswer 7 .success)) true 0] := by
    refine ⟨⟨by decide, rfl⟩, fun x₁ h₁ => ⟨trivial, fun x₂ h₂ => ⟨?_, fun x₃ h₃ => ⟨?_,
      fun x₄ h₄ => ⟨?_, fun _ _ => trivial⟩⟩⟩⟩⟩
    · cases h₁
      cases h₂
      exact ⟨by decide, by decide, by decide⟩
    · rw [System.stepAll, h₁, Option.bind_some, System.stepAll, h₂, Option.bind_some,
        System.stepAll, h₃] at hnew
      obtain ⟨htrackers, hadd⟩ := Prod.mk.inj (Option.some.inj hnew)
      refine ⟨?_, hadd⟩
      have htrackers : x₃.pn.trackers = [0, 1, 2] := htrackers
      rw [htrackers]
      decide
    · rw [System.stepAll, h₁, Option.bind_some, System.stepAll, h₂, Option.bind_some,
        System.stepAll, h₃, Option.bind_some, System.stepAll, h₄] at hloaded
      obtain ⟨hheld, hmsg⟩ := Prod.mk.inj (Option.some.inj hloaded)
      intro m hm
      cases hm
      exact ⟨by decide, Option.isSome_iff_ne_none.mp hmsg, fun _ => ⟨7, hheld, rfl⟩,
          fun h => absurd h (by decide), fun h => absurd h (by decide)⟩
  have hlost := hall x (System.Reachable.stepAll _ (.init xenStart_init) hallowed hx) 7
  rw [hheld, hplaces, hentered] at hlost
  exact absurd hlost (by decide)

end FlightOs
