/-
# The stacking kernel and the driver

The driver is promised that a Xentium answers for the task that it has, and hands back only tasks
that it was left with (`XenAnswers`, `XenLetsGo`).  Here the Xentium with the node `q` runs the
stacking kernel; the driver's calls, the interrupts of other kernels, the steps of this one and the
interrupts for its messages come in any order.  Other kernels keep the promise, and nobody speaks of
a task that this kernel keeps.

* A message is in the mailbox from the step of the kernel to its interrupt.
* `StackStage` has the tasks that the kernel owes the driver.  The one that is being detached is in
  its storage before the driver has left it, and one that is being attached until the response.
* `XenApart` is what no step of another party does to them and to the Xentium of the kernel.

In every interleaving the kernel keeps the promise and does not read past its storage, and no task
is lost (`stack_conserves`).
-/
import FlightOs.Dsp.Stack
import FlightOs.Net.XentiumRun

namespace FlightOs

variable {ω : Type}

/-! ## 1. What the others leave alone -/

/-- The tasks `T`, where they are detached, stay so, and keep their contents. -/
def PnLeaves (T : List Nat) (s s' : PnState ω) : Prop :=
  ∀ t ∈ T, t ∈ s.detached → t ∈ s'.detached ∧ s'.task t = s.task t

section Leaves

variable {T hand : List Nat} {s s' s'' : PnState ω} {p t : Nat} {ret : Int}

theorem PnLeaves.refl (T : List Nat) (s : PnState ω) : PnLeaves T s s := fun _ _ ht => ⟨ht, rfl⟩

theorem PnLeaves.trans (h : PnLeaves T s s') (h' : PnLeaves T s' s'') : PnLeaves T s s'' := by
  intro t ht hdet
  obtain ⟨hdet', heq⟩ := h t ht hdet
  obtain ⟨hdet'', heq'⟩ := h' t ht hdet'
  exact ⟨hdet'', heq'.trans heq⟩

theorem PnLeaves.congr (hdetached : s'.detached = s.detached) (htask : s'.task = s.task) :
    PnLeaves T s s' := by
  intro t _ hdet
  rw [hdetached, htask]
  exact ⟨hdet, rfl⟩

/-- The contents of another task. -/
theorem PnLeaves.setTask (ht : t ∈ s.detached → t ∉ T) (c : ProcTask) :
    PnLeaves T s (s.setTask t c) := by
  intro u hu hdet
  have hne : u ≠ t := by
    rintro rfl
    exact ht hdet hu
  exact ⟨hdet, Function.update_of_ne hne _ _⟩

theorem PnLeaves.leave : PnLeaves T s (leave s t) :=
  fun _ _ hdet => ⟨List.mem_append_left _ hdet, rfl⟩

/-- A task in hand is not detached. -/
theorem PnInv.notMem_detached (h : PnInv (t :: hand) s) : t ∉ s.detached := by
  have hnd : (t :: (hand ++ s.places)).Nodup := h.places.nodup_iff.mpr h.once
  exact fun hmem => (List.nodup_cons.mp hnd).1
    (List.mem_append_right _ (List.mem_append_right _ (List.mem_append_left _ hmem)))

theorem ptTrackPut_leaves : PnLeaves T s (ptTrackPut s p t).2 := by
  unfold ptTrackPut
  split
  · exact .refl T s
  · exact .congr rfl rfl

theorem pnTaskToNextNode_leaves : PnLeaves T s (pnTaskToNextNode s t).2 := by
  unfold pnTaskToNextNode
  simp only
  split
  · exact ptTrackPut_leaves
  · split
    · exact .congr rfl rfl
    · exact ptTrackPut_leaves

theorem PnInv.evalTaskStatus_leaves (h : PnInv (t :: hand) s) :
    PnLeaves T s (pnEvalTaskStatus s p t ret).2 := by
  have hset : ∀ c, PnLeaves T s (s.setTask t c) :=
    .setTask fun hdet => absurd hdet h.notMem_detached
  unfold pnEvalTaskStatus
  split
  · exact (hset _).trans pnTaskToNextNode_leaves
  split
  · exact (hset _).trans pnTaskToNextNode_leaves
  split
  · exact .leave
  split
  · exact ptTrackPut_leaves
  split
  · exact ptTrackPut_leaves
  split
  · exact (hset _).trans pnTaskToNextNode_leaves
  · exact .congr rfl rfl

theorem ptTrackGet_leaves {r : Option Nat} (h : ptTrackGet s p = (r, s')) : PnLeaves T s s' := by
  cases r with
  | none =>
    obtain ⟨rfl, -⟩ := ptTrackGet_none h
    exact .refl T s'
  | some t =>
    obtain ⟨rfl, -⟩ := ptTrackGet_some h
    exact .congr rfl rfl

/-- The tasks on their way through the input are on no list but those of the trackers. -/
theorem processInputsRound_leaves {st st' : PnState ω × Option Nat}
    (h : processInputsRound st = .ok (.next st')) : PnLeaves T st.1 st'.1 := by
  unfold processInputsRound at h
  split at h
  case h_1 => cases h
  case h_2 t s₁ hget =>
    have hget := ptTrackGet_leaves (T := T) hget
    split at h
    case h_1 =>
      cases h
      exact hget.trans (.congr rfl rfl)
    case h_2 p hp =>
      split at h
      case h_1 s₂ hput =>
        cases h
        have hleaves : PnLeaves T s₁ (ptTrackPut s₁ p t).2 := ptTrackPut_leaves
        rw [hput] at hleaves
        exact hget.trans hleaves
      case h_2 => cases h

theorem pnProcessInputs_leaves {r : Int × PnState ω} (h : pnProcessInputs s = .ok r) :
    PnLeaves T s r.2 := by
  unfold pnProcessInputs at h
  split at h
  case isTrue =>
    cases h
    exact .refl T s
  case isFalse =>
    cases hloop : loop .outOfFuel processInputsRound ((s.tracker s.input).tasks.length + 1)
        (s, s.nodes.head?) with
    | error e =>
      rw [hloop] at h
      cases h
    | ok s₁ =>
      rw [hloop] at h
      cases h
      refine loop_post (I := fun st => PnLeaves T s st.1) (Q := fun s₁ => PnLeaves T s s₁)
        (fun st st' hI hr => hI.trans (processInputsRound_leaves hr)) (fun st s₂ hI hr => ?_)
        (.refl T s) hloop
      unfold processInputsRound at hr
      split at hr
      case h_1 s₃ hget =>
        cases hr
        exact hI.trans (ptTrackGet_leaves hget)
      case h_2 =>
        split at hr
        · cases hr
        · split at hr <;> cases hr

/-- The op function of the output gets a task that was on its tracker. -/
theorem pnProcessOutputs_leaves {r : Nat × PnState ω} (hinv : PnInv hand s)
    (h : pnProcessOutputs s = .ok r) : PnLeaves T s r.2 := by
  refine (loop_post (I := fun st => PnInv hand st.2 ∧ PnLeaves T s st.2)
    (Q := fun r => PnLeaves T s r.2) (fun st st' hI hr => ?_) (fun st a hI hr => ?_)
    ⟨hinv, .refl T s⟩ h)
  · obtain ⟨hinv₁, hleaves⟩ := hI
    rcases processOutputsRound_spec (n := st.1) hinv₁ with ⟨st₁, hr₁, ⟨hinv₂, -⟩, -⟩ | ⟨r₁, hr₁, -⟩
    · have hst : st₁ = st' := by
        rw [hr₁] at hr
        cases hr
        rfl
      subst hst
      refine ⟨hinv₂, hleaves.trans ?_⟩
      unfold processOutputsRound at hr
      split at hr
      case h_1 => cases hr
      case h_2 t s₁ hget =>
        have hinhand := hinv₁.trackGet (output_mem_trackers _) hget
        have hcalled : ∀ c, PnLeaves T st.2 (s₁.setTask t c) := fun c =>
          (ptTrackGet_leaves hget).trans
            (.setTask (fun hdet => absurd hdet hinhand.notMem_detached) c)
        cases hr
        simp only
        split
        · exact (hcalled _).trans (.congr rfl rfl)
        · exact (hcalled _).trans .leave
    · rw [hr₁] at hr
      cases hr
  · unfold processOutputsRound at hr
    split at hr
    case h_1 s₁ hget =>
      cases hr
      exact hI.2.trans (ptTrackGet_leaves hget)
    case h_2 => cases hr

end Leaves

/-! ## 2. The Xentium of the kernel -/

/-- A Xentium has got a task, or the command to exit. -/
def XenGiven (x : Xen ω) (i : Nat) : Prop :=
  i < XENTIUMS ∧ ∃ m, x.msg i = some m ∧
    (m.cmd = .exit ∧ x.held i = none ∨ m.cmd ≠ .exit ∧ ∃ t, m.t = some t ∧ x.held i = some t)

/-- The Xentium with the node `q` is left alone, and so are the tasks `T`; where there is none, one
may get the node with a task. -/
structure XenApart (q : Nat) (T : List Nat) (x x' : Xen ω) : Prop where
  leaves : PnLeaves T x.pn x'.pn
  busy : ∀ i, x.pt i = some q →
    x'.pt i = some q ∧ x'.msg i = x.msg i ∧ x'.held i = x.held i
  given : ∀ i, x'.pt i = some q → x.pt i = some q ∨
    (∀ j, x.pt j ≠ some q) ∧ XenGiven x' i ∧ ∀ j, x'.pt j = some q → j = i

section Apart

variable {q i p t : Nat} {T : List Nat} {x x' x'' : Xen ω} {pn : PnState ω} {m : XenMsgData}

theorem XenApart.net (h : PnLeaves T x.pn pn) : XenApart q T x { x with pn } :=
  ⟨h, fun _ hi => ⟨hi, rfl, rfl⟩, fun _ hi => .inl hi⟩

theorem XenApart.trans (h : XenApart q T x x') (h' : XenApart q T x' x'') :
    XenApart q T x x'' where
  leaves := h.leaves.trans h'.leaves
  busy := fun i hi => by
    obtain ⟨hi₁, hm₁, hh₁⟩ := h.busy i hi
    obtain ⟨hi₂, hm₂, hh₂⟩ := h'.busy i hi₁
    exact ⟨hi₂, hm₂.trans hm₁, hh₂.trans hh₁⟩
  given := fun i hi => by
    rcases h'.given i hi with hi₁ | ⟨hnone, hnew⟩
    · rcases h.given i hi₁ with hi₀ | ⟨hnone, ⟨hlt, m, hm, hcmd⟩, honly⟩
      · exact .inl hi₀
      · obtain ⟨-, hm₂, hh₂⟩ := h'.busy i hi₁
        refine .inr ⟨hnone, ⟨hlt, m, hm₂.trans hm, ?_⟩, fun j hj => ?_⟩
        · rw [hh₂]
          exact hcmd
        · rcases h'.given j hj with hj₁ | ⟨hnone₁, -⟩
          · exact honly j hj₁
          · exact absurd hi₁ (hnone₁ i)
    · exact .inr ⟨fun j hj => hnone j (h.busy j hj).1, hnew⟩

/-- What happens to another Xentium, which does not get the node. -/
theorem XenApart.other (hne : x.pt i ≠ some q) (hleaves : PnLeaves T x.pn x'.pn)
    (hpt : x'.pt i ≠ some q) (hsame : ∀ j, j ≠ i → x'.pt j = x.pt j ∧ x'.msg j = x.msg j ∧
      x'.held j = x.held j) : XenApart q T x x' where
  leaves := hleaves
  busy := fun j hj => by
    have hji : j ≠ i := by
      rintro rfl
      exact hne hj
    obtain ⟨hp, hm, hh⟩ := hsame j hji
    exact ⟨hp.trans hj, hm, hh⟩
  given := fun j hj => by
    have hji : j ≠ i := by
      rintro rfl
      exact hpt hj
    exact .inl ((hsame j hji).1.symm.trans hj)

/-- A free Xentium is loaded with a node that is on none. -/
theorem XenApart.loadTask {mem : Bool} (hsmall : ∀ j, x.pt j = some q → j < XENTIUMS)
    (hfree : xenNodeIsProcessing x p = false) : XenApart q T x (xenLoadTask x p mem).2 := by
  unfold xenLoadTask
  split
  case h_1 => exact .net (.refl T _)
  case h_2 i hi =>
    obtain ⟨hlt, hpt⟩ := xenGetIdxUnused_some hi
    split
    case isTrue => exact .net (.refl T _)
    case isFalse =>
      split
      case h_1 pn hget => exact .net (ptTrackGet_leaves hget)
      case h_2 t pn hget =>
        split
        case h_1 => exact .net (ptTrackGet_leaves hget)
        case h_2 =>
          have hne : x.pt i ≠ some q := by
            rw [hpt]
            exact (Option.some_ne_none q).symm
          have hsame : ∀ j, j ≠ i →
              Function.update x.pt i (some p) j = x.pt j ∧
              Function.update x.msg i (some { xenNewMsg with t := some t }) j = x.msg j ∧
              Function.update x.held i (some t) j = x.held j :=
            fun j hj => ⟨Function.update_of_ne hj _ _, Function.update_of_ne hj _ _,
              Function.update_of_ne hj _ _⟩
          by_cases hpq : p = q
          · subst hpq
            have hnone : ∀ j, x.pt j ≠ some p := by
              intro j hj
              have hany : xenNodeIsProcessing x p = true :=
                List.any_eq_true.mpr ⟨j, List.mem_range.mpr (hsmall j hj), by simp [hj]⟩
              rw [hfree] at hany
              cases hany
            refine ⟨ptTrackGet_leaves hget, fun j hj => absurd hj (hnone j), fun j hj => .inr ?_⟩
            have honly : ∀ j, Function.update x.pt i (some p) j = some p → j = i := by
              intro j hj
              by_contra hji
              rw [Function.update_of_ne hji] at hj
              exact hnone j hj
            obtain rfl := honly j hj
            refine ⟨hnone, ⟨hlt, _, Function.update_self .., .inr ⟨?_, t, rfl, ?_⟩⟩, honly⟩
            · exact fun h => XenCmd.noConfusion h
            · exact Function.update_self ..
          · refine .other hne (ptTrackGet_leaves hget) ?_ hsame
            show Function.update x.pt i (some p) i ≠ some q
            rw [Function.update_self]
            exact fun h => hpq (Option.some.inj h)

theorem XenApart.scheduleFrom {mem : Bool} {n : Nat} {x x' : Xen ω}
    (hsmall : ∀ j, x.pt j = some q → j < XENTIUMS) (h : xentiumScheduleFrom mem n x = .ok x') :
    XenApart q T x x' := by
  induction n generalizing x with
  | zero =>
    cases h
    exact .net (.refl T _)
  | succ n ih =>
    obtain ⟨found, nodes, hnext, -, -⟩ := pnGetNextPendingTracker_total x.pn
    have hnet : XenApart q T x { x with pn := { x.pn with nodes } } := .net (.congr rfl rfl)
    rw [xentiumScheduleFrom, hnext] at h
    cases found with
    | none =>
      cases h
      exact hnet
    | some p =>
      simp only at h
      split at h
      case isTrue => exact hnet.trans (ih hsmall h)
      case isFalse hfree =>
        cases h
        have hload : XenApart q T { x with pn := { x.pn with nodes } }
            (xenLoadTask { x with pn := { x.pn with nodes } } p mem).2 :=
          .loadTask hsmall (Bool.eq_false_iff.mpr hfree)
        exact hnet.trans ⟨hload.leaves, hload.busy, hload.given⟩

theorem xenEvalTaskStatus_leaves {ret : Int} (hinv : ∀ u ∈ m.t, ∃ hand, PnInv (u :: hand) pn) :
    PnLeaves T pn (xenEvalTaskStatus pn (x.pt i) m.t ret).2 := by
  unfold xenEvalTaskStatus
  split
  case h_1 p u hp hu =>
    obtain ⟨hand, hinv⟩ := hinv u hu
    exact hinv.evalTaskStatus_leaves
  case h_2 => exact .refl T pn

/-- What an answer comes to for the Xentium that has given it: it is freed, has to exit, or has the
next task. -/
theorem xenHandleCmds_cases (ret : Int) :
    ∃ pn, (∀ T : List Nat, PnLeaves T (xenEvalTaskStatus x.pn (x.pt i) m.t ret).2 pn) ∧
      (xenHandleCmds x i m ret = xenFreeMsg { x with pn, held := Function.update x.held i none } i ∨
        (∃ m' : XenMsgData, m'.cmd = .exit ∧ xenHandleCmds x i m ret =
          xenSetCmd { x with pn, held := Function.update x.held i none } i m') ∨
        ∃ t, xenHandleCmds x i m ret =
          xenHandTask { x with pn, held := Function.update x.held i none } i m t) := by
  unfold xenHandleCmds
  simp only
  split
  case isTrue => exact ⟨_, fun T => .refl T _, .inl rfl⟩
  case isFalse =>
    split
    case isTrue => exact ⟨_, fun T => .refl T _, .inr (.inl ⟨_, rfl, rfl⟩)⟩
    case isFalse =>
      split
      case h_1 => exact ⟨_, fun T => .refl T _, .inr (.inl ⟨_, rfl, rfl⟩)⟩
      case h_2 p _ =>
        split
        case h_1 pn hget => exact ⟨pn, fun T => ptTrackGet_leaves hget, .inr (.inl ⟨_, rfl, rfl⟩)⟩
        case h_2 t pn hget => exact ⟨pn, fun T => ptTrackGet_leaves hget, .inr (.inr ⟨t, rfl⟩)⟩

/-- The answer of another kernel. -/
theorem XenApart.handleCmds {ret : Int} (hne : x.pt i ≠ some q)
    (hinv : ∀ u ∈ m.t, ∃ hand, PnInv (u :: hand) x.pn) :
    XenApart q T x (xenHandleCmds x i m ret) := by
  have heval : PnLeaves T x.pn (xenEvalTaskStatus x.pn (x.pt i) m.t ret).2 :=
    xenEvalTaskStatus_leaves hinv
  obtain ⟨pn, hpn, hcases⟩ := xenHandleCmds_cases (x := x) (i := i) (m := m) ret
  have hleaves := heval.trans (hpn T)
  have hheld : ∀ {r : Option Nat} {j : Nat}, j ≠ i →
      Function.update (Function.update x.held i none) i r j = x.held j := fun hj =>
    (Function.update_of_ne hj _ _).trans (Function.update_of_ne hj _ _)
  rcases hcases with h | ⟨m', -, h⟩ | ⟨t, h⟩
  · rw [h]
    refine .other hne hleaves ?_ (fun j hj => ⟨Function.update_of_ne hj _ _,
      Function.update_of_ne hj _ _, Function.update_of_ne hj _ _⟩)
    show Function.update x.pt i none i ≠ some q
    rw [Function.update_self]
    exact (Option.some_ne_none q).symm
  · rw [h]
    exact .other hne hleaves hne (fun j hj => ⟨rfl, Function.update_of_ne hj _ _,
      Function.update_of_ne hj _ _⟩)
  · rw [h]
    exact .other hne hleaves hne (fun j hj => ⟨rfl, Function.update_of_ne hj _ _, hheld hj⟩)

/-- A message for another Xentium. -/
theorem XenApart.setCmd (hne : x.pt i ≠ some q) : XenApart q T x (xenSetCmd x i m) :=
  .other hne (.refl T x.pn) hne (fun _ hj => ⟨rfl, Function.update_of_ne hj _ _, rfl⟩)

theorem xenTakeBack_leaves (ht : t ∉ T) : PnLeaves T pn (xenTakeBack pn (some t)) := by
  intro u hu hdet
  have hne : u ≠ t := by
    rintro rfl
    exact ht hu
  exact ⟨(List.mem_erase_of_ne hne).mpr hdet, rfl⟩

/-- An interrupt of another kernel, which does not speak of the tasks `T`. -/
theorem XenApart.irqCmd (X : XenInv x) (A : XenAnswers x i m) (hne : x.pt i ≠ some q)
    (hT : ∀ u ∈ m.t, u ∉ T) (answer : Nat) : XenApart q T x (xenIrqCmd x i m answer) := by
  have hcmds : ∀ ret : Int, m.cmd.isStatus = true → XenApart q T x (xenHandleCmds x i m ret) := by
    intro ret hstatus
    obtain ⟨t, hheld, hm⟩ := A.status hstatus
    refine .handleCmds hne (fun u hu => ?_)
    obtain rfl : t = u := Option.some.inj (hm.symm.trans hu)
    exact ⟨_, X.takeBack A.xentium hheld⟩
  unfold xenIrqCmd
  cases hcmd : m.cmd with
  | success => exact hcmds _ (by rw [hcmd]; rfl)
  | stop => exact hcmds _ (by rw [hcmd]; rfl)
  | detach => exact hcmds _ (by rw [hcmd]; rfl)
  | resched => exact hcmds _ (by rw [hcmd]; rfl)
  | sortseq => exact hcmds _ (by rw [hcmd]; rfl)
  | destroy => exact hcmds _ (by rw [hcmd]; rfl)
  | attach =>
    obtain ⟨t, ht, hm⟩ := A.attach hcmd
    have hback : PnLeaves T x.pn (xenTakeBack x.pn m.t) := by
      rw [hm]
      exact xenTakeBack_leaves (hT t hm)
    have heval : PnLeaves T (xenTakeBack x.pn m.t)
        (xenEvalTaskStatus (xenTakeBack x.pn m.t) (x.pt i) m.t PN_TASK_SUCCESS).2 := by
      refine xenEvalTaskStatus_leaves (fun u hu => ?_)
      rw [hu]
      obtain rfl : t = u := Option.some.inj (hm.symm.trans hu)
      exact ⟨_, X.inv.takeBack ht⟩
    exact (XenApart.net (hback.trans heval)).trans (.setCmd hne)
  | dataRealloc =>
    obtain ⟨t, ht, hm⟩ := A.dataRealloc hcmd
    simp only [hm]
    exact (XenApart.net (.setTask (fun _ => hT t hm) _)).trans (.setCmd hne)
  | kzalloc => exact .setCmd hne
  | kmalloc => exact .setCmd hne
  | kfree => exact .setCmd hne
  | exit =>
    refine .other hne (.refl T x.pn) ?_ (fun j hj => ⟨Function.update_of_ne hj _ _,
      Function.update_of_ne hj _ _, Function.update_of_ne hj _ _⟩)
    show Function.update x.pt i none i ≠ some q
    rw [Function.update_self]
    exact (Option.some_ne_none q).symm
  | unknown => exact .net (.refl T x.pn)

theorem XenApart.small (h : XenApart q T x x') (hsmall : ∀ j, x.pt j = some q → j < XENTIUMS) :
    ∀ j, x'.pt j = some q → j < XENTIUMS := by
  intro j hj
  rcases h.given j hj with hj | ⟨-, ⟨hlt, -⟩, -⟩
  · exact hsmall j hj
  · exact hlt

theorem ok_of_toOption {α : Type} {e : Except PnError α} {a : α} (h : e.toOption = some a) :
    e = .ok a := by
  cases e with
  | error _ => cases h
  | ok b => exact congrArg _ (Option.some.inj h)

/-- What the other parties may do: an interrupt is one of another kernel, nobody speaks of the tasks
`T`, and the node `q` is the one of this kernel. -/
def StackApart (q : Nat) (T : List Nat) (x : Xen ω) : XenOp ω → Prop
  | .irq i m _ _ => x.pt i ≠ some q ∧ ∀ m' ∈ m, ∀ u ∈ m'.t, u ∉ T
  | .inputTask t _ _ => t ∉ T
  | .edit t _ => t ∉ T
  | .kernelAddNode p opCode _ => p = q ↔ opCode = STACK_OP_CODE
  | _ => True

/-- **A step of another party** leaves the tasks `T` and the Xentium of the kernel alone. -/
theorem XenApart.step {o : XenOp ω} (X : XenInv x) (hv : XenValid x o) (hapart : StackApart q T x o)
    (hsmall : ∀ j, x.pt j = some q → j < XENTIUMS) (h : xenStep x o = some x') :
    XenApart q T x x' := by
  cases o with
  | irq i m mem answer =>
    cases m with
    | none =>
      obtain rfl : x = x' := Option.some.inj h
      exact .net (.refl T x.pn)
    | some m =>
      have hcmd := XenApart.irqCmd (T := T) X (hv m rfl) hapart.1 (hapart.2 m rfl) answer
      exact hcmd.trans (.scheduleFrom (hcmd.small hsmall) (ok_of_toOption h))
  | scheduleNext mem => exact .scheduleFrom hsmall (ok_of_toOption h)
  | inputTask t c mem =>
    have hT : t ∉ T := hapart
    have hin : PnLeaves T x.pn (pnInputTask x.pn t c) := by
      intro u hu hdet
      have hne : u ≠ t := by
        rintro rfl
        exact hT hu
      exact ⟨(List.mem_erase_of_ne hne).mpr hdet, Function.update_of_ne hne _ _⟩
    have h := ok_of_toOption h
    unfold xentiumInputTask at h
    split at h
    case h_1 => cases h
    case h_2 n pn hpn =>
      have hnet : XenApart q T x { x with pn } := .net (hin.trans (pnProcessInputs_leaves hpn))
      exact hnet.trans (.scheduleFrom hsmall h)
  | outputTasks =>
    have h := ok_of_toOption h
    unfold xentiumOutputTasks at h
    split at h
    case h_1 => cases h
    case h_2 n pn hpn =>
      cases h
      exact .net (pnProcessOutputs_leaves X.inv hpn)
  | configOutputNode p op =>
    cases h
    exact .net (.congr rfl rfl)
  | kernelAddNode p opCode critBufLvl =>
    cases h
    unfold xentiumKernelAddNode
    simp only
    split
    case h_1 pn heq =>
      unfold pnAddNode at heq
      split at heq
      · cases (Prod.mk.inj heq).1
      split at heq
      · cases (Prod.mk.inj heq).1
      obtain ⟨-, rfl⟩ := Prod.mk.inj heq
      exact ⟨.congr rfl rfl, fun _ hi => ⟨hi, rfl, rfl⟩, fun _ hi => .inl hi⟩
    case h_2 => exact .net (.refl T x.pn)
  | kernelAddKernel =>
    cases h
    unfold xentiumKernelAddKernel
    split
    · exact .net (.refl T x.pn)
    · exact ⟨.refl T x.pn, fun _ hi => ⟨hi, rfl, rfl⟩, fun _ hi => .inl hi⟩
  | edit t c =>
    cases h
    exact .net (.setTask (fun _ => hapart) c)

end Apart

/-! ## 3. The system -/

/-- The driver, the kernel, the words of the data, and the mailbox of the kernel's Xentium. -/
structure StackSys (ω : Type) where
  x : Xen ω
  k : StackKernel
  word : Nat → Nat → BitVec 32
  mail : Option (Nat × XenMsgData)

def StackSys.mem (s : StackSys ω) : StackMem := ⟨s.x.pn.task, s.word⟩

def xenRetask (x : Xen ω) (task : Nat → ProcTask) : Xen ω := { x with pn := { x.pn with task } }

inductive StackOp (ω : Type)
  /-- a call of the driver, an interrupt of another kernel, or its work on a task -/
  | driver (o : XenOp ω)
  /-- the same for the data -/
  | data (word : Nat → Nat → BitVec 32)
  /-- the kernel takes its command, up to the message that it sends -/
  | kernel (i : Nat)
  /-- the interrupt for this message -/
  | answer (mem : Bool)

def stackStep (frames : Nat → BitVec 32) (s : StackSys ω) : StackOp ω → Option (StackSys ω)
  | .driver o => (xenStep s.x o).map fun x => { s with x }
  | .data word => some { s with word }
  | .kernel i =>
    (s.x.msg i).bind fun m => (stackMain frames s.k s.mem m).map fun r =>
      ⟨xenRetask s.x r.2.1.task, r.1, r.2.1.word, some (i, r.2.2)⟩
  | .answer mem =>
    s.mail.bind fun r => (xenIrqHandler s.x r.1 (some r.2) mem 0).toOption.map fun x =>
      { s with x, mail := none }

/-- The tasks that the kernel has been left with, and has not handed back. -/
def StackSys.owed (s : StackSys ω) : List Nat :=
  let kept := (s.k.data.getD []).filterMap id
  match s.k.mop, s.mail with
  | some _, none => kept.tail
  | none, some (_, m) => if m.cmd = .detach then kept.dropLast else kept
  | _, _ => kept

def stackSystem (frames : Nat → BitVec 32) : System (StackSys ω) (StackOp ω) :=
  .ofFun (fun s => (xenSystem ω).init s.x ∧ s.k = stackLoaded ∧ s.mail = none) (stackStep frames)

/-- What is promised: the other parties do what the driver may rely on, and leave the kernel alone,
which takes a command when it has answered the last one; each of its tasks asks for a group. -/
def StackValid (q : Nat) (frames : Nat → BitVec 32) (s : StackSys ω) : StackOp ω → Prop
  | .driver o => XenValid s.x o ∧ XenSafe s.x o ∧ StackApart q s.owed s.x o
  | .data _ => True
  | .kernel i => s.x.pt i = some q ∧ s.mail = none ∧ ∀ m ∈ s.x.msg i, StackFrames frames s.mem m
  | .answer _ => s.x.adding = none

/-! ## 4. What the kernel owes -/

/-- The kernel runs on the Xentium, and has a command. -/
structure StackOn (q : Nat) (x : Xen ω) (i : Nat) : Prop where
  small : i < XENTIUMS
  node : x.pt i = some q
  asked : x.msg i ≠ none

/-- **The stages** of the kernel and the tasks that it owes: it waits for a task, has a message in
the mailbox, or waits for the response to an attached task. -/
inductive StackStage (q : Nat) (s : StackSys ω) : List Nat → Prop
  | waits {kept : List Nat} : StackHolds s.k kept none → s.mail = none →
      (∀ i, s.x.pt i = some q → XenGiven s.x i) → StackStage q s kept
  | exits {kept : List Nat} {i : Nat} {m : XenMsgData} : StackHolds s.k kept none →
      s.mail = some (i, m) → StackOn q s.x i → m.cmd = .exit → s.x.held i = none →
      StackStage q s kept
  | reports {kept : List Nat} {i t : Nat} {m : XenMsgData} : StackHolds s.k kept none →
      s.mail = some (i, m) → StackOn q s.x i → m.cmd = .success ∨ m.cmd = .destroy →
      m.t = some t → s.x.held i = some t → StackStage q s kept
  | detaches {kept : List Nat} {i t : Nat} {m : XenMsgData} : StackHolds s.k (kept ++ [t]) none →
      s.mail = some (i, m) → StackOn q s.x i → m.cmd = .detach → m.t = some t →
      s.x.held i = some t → StackStage q s kept
  | attaches {a : Nat} {rest : List Nat} {i t : Nat} {m : XenMsgData} :
      StackHolds s.k (a :: rest) (some t) → s.mail = some (i, m) → StackOn q s.x i →
      m.cmd = .attach → m.t = some a → s.x.held i = some t →
      (∀ u ∈ a :: rest, StackEmptied (s.x.pn.task u)) → StackStage q s (a :: rest)
  | attached {a : Nat} {rest : List Nat} {i t : Nat} :
      StackHolds s.k (a :: rest) (some t) → s.mail = none → StackOn q s.x i →
      s.x.held i = some t → (∀ u ∈ rest, StackEmptied (s.x.pn.task u)) → StackStage q s rest

/-- The invariant: the tasks owed are detached, and the kernel runs on one Xentium at most. -/
structure StackInv (q : Nat) (s : StackSys ω) (T : List Nat) : Prop where
  inv : XenInv s.x
  small : ∀ i, s.x.pt i = some q → i < XENTIUMS
  single : ∀ i j, s.x.pt i = some q → s.x.pt j = some q → i = j
  stage : StackStage q s T
  once : T.Nodup
  detached : ∀ t ∈ T, t ∈ s.x.pn.detached

section Stage

variable {q i t : Nat} {T kept : List Nat} {s : StackSys ω} {x' : Xen ω} {m : XenMsgData}
  {own : Option Nat}

theorem stackStorage_refs (i : Nat) : (stackStorage i kept).filterMap id = kept := by
  unfold stackStorage
  simp [List.filterMap_append, List.filterMap_map]

theorem StackHolds.collects_refs {k : StackKernel} (h : StackHolds k kept none) :
    k.mop = none ∧ (k.data.getD []).filterMap id = kept := by
  cases h with
  | collects => exact ⟨rfl, stackStorage_refs 0⟩

theorem StackHolds.handsBack_refs {k : StackKernel} (h : StackHolds k kept (some t)) :
    (∃ mop, k.mop = some mop) ∧ (k.data.getD []).filterMap id = kept := by
  cases h with
  | handsBack mop => exact ⟨⟨mop, rfl⟩, stackStorage_refs mop.i⟩

theorem StackStage.owed (h : StackStage q s T) : s.owed = T := by
  unfold StackSys.owed
  cases h with
  | waits hk hmail =>
    obtain ⟨hmop, hrefs⟩ := hk.collects_refs
    rw [hmop, hmail, hrefs]
  | exits hk hmail _ hcmd =>
    obtain ⟨hmop, hrefs⟩ := hk.collects_refs
    rw [hmop, hmail, hrefs]
    simp [hcmd]
  | reports hk hmail _ hcmd =>
    obtain ⟨hmop, hrefs⟩ := hk.collects_refs
    rw [hmop, hmail, hrefs]
    rcases hcmd with hcmd | hcmd
    · simp [hcmd]
    · simp [hcmd]
  | detaches hk hmail _ hcmd =>
    obtain ⟨hmop, hrefs⟩ := hk.collects_refs
    rw [hmop, hmail, hrefs]
    simp [hcmd]
  | attaches hk hmail =>
    obtain ⟨⟨mop, hmop⟩, hrefs⟩ := hk.handsBack_refs
    rw [hmop, hmail, hrefs]
  | attached hk hmail =>
    obtain ⟨⟨mop, hmop⟩, hrefs⟩ := hk.handsBack_refs
    rw [hmop, hmail, hrefs]
    rfl

/-- **The promise** of the driver is kept by each message in the mailbox. -/
theorem StackInv.answers (I : StackInv q s T) (hmail : s.mail = some (i, m)) :
    XenAnswers s.x i m ∧ XenLetsGo s.x i m := by
  have hsame : ∀ {j : Nat} {m' : XenMsgData}, s.mail = some (j, m') → i = j ∧ m = m' := by
    intro j m' h
    exact Prod.mk.inj (Option.some.inj (hmail.symm.trans h))
  cases I.stage with
  | waits _ h =>
    rw [h] at hmail
    cases hmail
  | exits _ h hon hcmd hheld =>
    obtain ⟨rfl, rfl⟩ := hsame h
    exact ⟨⟨hon.small, hon.asked, by simp [hcmd, XenCmd.isStatus], by simp [hcmd], by simp [hcmd]⟩,
      ⟨by simp [hcmd], fun _ => hheld⟩⟩
  | @reports _ _ t _ _ h hon hcmd hm hheld =>
    obtain ⟨rfl, rfl⟩ := hsame h
    refine ⟨⟨hon.small, hon.asked, fun _ => ⟨t, hheld, hm⟩, ?_, ?_⟩, ⟨?_, ?_⟩⟩
    all_goals
      rcases hcmd with hcmd | hcmd
      · simp [hcmd]
      · simp [hcmd]
  | @detaches _ _ t _ _ h hon hcmd hm hheld =>
    obtain ⟨rfl, rfl⟩ := hsame h
    exact ⟨⟨hon.small, hon.asked, fun _ => ⟨t, hheld, hm⟩, by simp [hcmd], by simp [hcmd]⟩,
      ⟨by simp [hcmd], by simp [hcmd]⟩⟩
  | @attaches a _ _ _ _ _ h hon hcmd hm =>
    obtain ⟨rfl, rfl⟩ := hsame h
    exact ⟨⟨hon.small, hon.asked, by simp [hcmd, XenCmd.isStatus],
      fun _ => ⟨a, I.detached a List.mem_cons_self, hm⟩, by simp [hcmd]⟩,
      ⟨by simp [hcmd], by simp [hcmd]⟩⟩
  | attached _ h =>
    rw [h] at hmail
    cases hmail

/-- A step that leaves the kernel alone. -/
theorem StackInv.apart (I : StackInv q s T) (X' : XenInv x') (h : XenApart q T s.x x') :
    StackInv q { s with x := x' } T := by
  have hon : ∀ {j : Nat}, StackOn q s.x j → StackOn q x' j := by
    intro j hj
    obtain ⟨hp, hm, -⟩ := h.busy j hj.node
    exact ⟨hj.small, hp, by rw [hm]; exact hj.asked⟩
  have hheld : ∀ {j : Nat}, StackOn q s.x j → x'.held j = s.x.held j :=
    fun hj => (h.busy _ hj.node).2.2
  have hleft : ∀ u ∈ T, u ∈ x'.pn.detached ∧ x'.pn.task u = s.x.pn.task u :=
    fun u hu => h.leaves u hu (I.detached u hu)
  refine ⟨X', h.small I.small, fun i j hi hj => ?_, ?_, I.once, fun u hu => (hleft u hu).1⟩
  · rcases h.given i hi with hi₀ | ⟨hnone, -, honly⟩
    · rcases h.given j hj with hj₀ | ⟨hnone, -⟩
      · exact I.single i j hi₀ hj₀
      · exact absurd hi₀ (hnone i)
    · exact (honly j hj).symm
  · cases I.stage with
    | waits hk hmail hgiven =>
      refine .waits hk hmail (fun j hj => ?_)
      rcases h.given j hj with hj₀ | ⟨-, hnew, -⟩
      · obtain ⟨hlt, m, hm, hcmd⟩ := hgiven j hj₀
        obtain ⟨-, hmsg, hh⟩ := h.busy j hj₀
        refine ⟨hlt, m, hmsg.trans hm, ?_⟩
        rw [hh]
        exact hcmd
      · exact hnew
    | exits hk hmail hj hcmd hno => exact .exits hk hmail (hon hj) hcmd ((hheld hj).trans hno)
    | reports hk hmail hj hcmd hm ht =>
      exact .reports hk hmail (hon hj) hcmd hm ((hheld hj).trans ht)
    | detaches hk hmail hj hcmd hm ht =>
      exact .detaches hk hmail (hon hj) hcmd hm ((hheld hj).trans ht)
    | attaches hk hmail hj hcmd hm ht hempty =>
      refine .attaches hk hmail (hon hj) hcmd hm ((hheld hj).trans ht) (fun u hu => ?_)
      show StackEmptied (x'.pn.task u)
      rw [(hleft u hu).2]
      exact hempty u hu
    | attached hk hmail hj ht hempty =>
      refine .attached hk hmail (hon hj) ((hheld hj).trans ht) (fun u hu => ?_)
      show StackEmptied (x'.pn.task u)
      rw [(hleft u hu).2]
      exact hempty u hu

/-! ## 5. The kernel's steps -/

/-- The contents of tasks that are on a Xentium or with a kernel. -/
theorem XenInv.retask {x : Xen ω} {task : Nat → ProcTask} (X : XenInv x)
    (h : ∀ t, t ∉ x.pn.detached → task t = x.pn.task t) : XenInv (xenRetask x task) := by
  refine X.setNet (X.inv.congr rfl rfl rfl rfl rfl rfl)
    ⟨List.Perm.refl _, fun _ _ => rfl, fun ha p hp t ht => ?_⟩
  have hdet : t ∉ x.pn.detached := fun hdet => X.notMem_tracked (.inr hdet)
    (List.mem_flatMap.mpr ⟨p, node_mem_trackers hp, ht⟩)
  show ptGetPendStepOpCode (task t) = _
  rw [h t hdet]
  exact ha p hp t ht

/-- **A step of the kernel.**  It does not read past its storage, and what it leaves in the mailbox
is for the task that it has, or for one that it owes. -/
theorem StackInv.kernel {frames : Nat → BitVec 32} (I : StackInv q s T) (hnode : s.x.pt i = some q)
    (hmail : s.mail = none) (hm : s.x.msg i = some m) (hf : StackFrames frames s.mem m) :
    ∃ r T', stackMain frames s.k s.mem m = some r ∧
      StackInv q ⟨xenRetask s.x r.2.1.task, r.1, r.2.1.word, some (i, r.2.2)⟩ T' := by
  have hon : StackOn q s.x i :=
    ⟨I.small i hnode, hnode, by rw [hm]; exact Option.some_ne_none m⟩
  -- nothing but tasks that are owed is changed
  have hinv : ∀ {r : StackKernel × StackMem × XenMsgData} {T' : List Nat},
      (∀ u, u ∉ T → r.2.1.task u = s.x.pn.task u) → T'.Nodup → (∀ u ∈ T', u ∈ s.x.pn.detached) →
      StackStage q ⟨xenRetask s.x r.2.1.task, r.1, r.2.1.word, some (i, r.2.2)⟩ T' →
        StackInv q ⟨xenRetask s.x r.2.1.task, r.1, r.2.1.word, some (i, r.2.2)⟩ T' := by
    intro r T' htask hnd hdet hstage
    exact ⟨I.inv.retask (fun u hu => htask u (fun hT => hu (I.detached u hT))), I.small, I.single,
      hstage, hnd, hdet⟩
  have hon' : ∀ {r : StackKernel × StackMem × XenMsgData},
      StackOn q (xenRetask s.x r.2.1.task) i := ⟨hon.small, hon.node, hon.asked⟩
  cases I.stage with
  | waits hk _ hgiven =>
    obtain ⟨-, m₀, hm₀, hcmd⟩ := hgiven i hnode
    obtain rfl : m₀ = m := Option.some.inj (hm₀.symm.trans hm)
    obtain ⟨k', mem', m', kept', own', hmain, hk', hspec⟩ := hk.main hf
    refine ⟨(k', mem', m'), ?_⟩
    cases hspec with
    | exit hexit =>
      have hheld : s.x.held i = none := (hcmd.resolve_right (fun h => h.1 hexit)).2
      exact ⟨T, hmain, hinv (fun _ _ => rfl) I.once I.detached (.exits hk' rfl hon' hexit hheld)⟩
    | destroy hne =>
      obtain ⟨t, ht, hheld⟩ := (hcmd.resolve_left (fun h => hne h.1)).2
      exact ⟨T, hmain, hinv (fun _ _ => rfl) I.once I.detached
        (.reports hk' rfl hon' (.inr rfl) ht hheld)⟩
    | detach hne ht =>
      obtain ⟨t, ht', hheld⟩ := (hcmd.resolve_left (fun h => hne h.1)).2
      rw [ht'] at ht
      cases ht
      exact ⟨T, hmain, hinv (fun _ _ => rfl) I.once I.detached
        (.detaches hk' rfl hon' rfl ht' hheld)⟩
    | alone hne ht =>
      obtain ⟨t, ht', hheld⟩ := (hcmd.resolve_left (fun h => hne h.1)).2
      rw [ht'] at ht
      cases ht
      exact ⟨[], hmain, hinv (fun _ _ => rfl) I.once I.detached
        (.reports hk' rfl hon' (.inl rfl) rfl hheld)⟩
    | @stack a rest t hne ht =>
      obtain ⟨t, ht', hheld⟩ := (hcmd.resolve_left (fun h => hne h.1)).2
      rw [ht'] at ht
      cases ht
      exact ⟨a :: rest, hmain, hinv (fun u hu => stackAll_task_other hu) I.once I.detached
        (.attaches hk' rfl hon' rfl rfl hheld (fun u hu => stackAll_emptied (.inl hu)))⟩
  | @attached a rest i₀ t hk _ hon₀ hheld hempty =>
    obtain rfl : i₀ = i := I.single i₀ i hon₀.node hnode
    obtain ⟨k', mem', m', kept', own', hmain, hk', hspec⟩ := hk.main hf
    refine ⟨(k', mem', m'), ?_⟩
    cases hspec with
    | @next _ b rest _ m₁ =>
      exact ⟨b :: rest, hmain, hinv (fun _ _ => rfl) I.once I.detached
        (.attaches hk' rfl hon' rfl rfl hheld hempty)⟩
    | last =>
      exact ⟨[], hmain, hinv (fun _ _ => rfl) I.once I.detached
        (.reports hk' rfl hon' (.inl rfl) rfl hheld)⟩
  | exits _ h =>
    rw [h] at hmail
    cases hmail
  | reports _ h =>
    rw [h] at hmail
    cases hmail
  | detaches _ h =>
    rw [h] at hmail
    cases hmail
  | attaches _ h =>
    rw [h] at hmail
    cases hmail

/-- What the Xentium has when its task has been answered for. -/
theorem xenHandleCmds_given {x : Xen ω} (ret : Int) (hsmall : i < XENTIUMS)
    (hsingle : ∀ j, x.pt j = some q → j = i) (hcmd : m.cmd ≠ .exit) :
    (∀ T : List Nat, PnLeaves T (xenEvalTaskStatus x.pn (x.pt i) m.t ret).2
      (xenHandleCmds x i m ret).pn) ∧
      ∀ j, (xenHandleCmds x i m ret).pt j = some q →
        j = i ∧ XenGiven (xenHandleCmds x i m ret) j := by
  obtain ⟨pn, hpn, hcases⟩ := xenHandleCmds_cases (x := x) (i := i) (m := m) ret
  rcases hcases with h | ⟨m', hm', h⟩ | ⟨t, h⟩
  · rw [h]
    refine ⟨hpn, fun j hj => ?_⟩
    have hj : Function.update x.pt i none j = some q := hj
    rw [Function.update_apply] at hj
    split at hj
    · cases hj
    · rename_i hji
      exact absurd (hsingle j hj) hji
  · rw [h]
    refine ⟨hpn, fun j hj => ?_⟩
    obtain rfl := hsingle j hj
    exact ⟨rfl, hsmall, m', Function.update_self .., .inl ⟨hm', Function.update_self ..⟩⟩
  · rw [h]
    refine ⟨hpn, fun j hj => ?_⟩
    obtain rfl := hsingle j hj
    exact ⟨rfl, hsmall, _, Function.update_self .., .inr ⟨hcmd, t, rfl, Function.update_self ..⟩⟩

/-- **The interrupt** for the message in the mailbox, up to the scheduling of the next task. -/
theorem StackInv.irqCmd (I : StackInv q s T) (hmail : s.mail = some (i, m)) :
    ∃ T', StackInv q { s with x := xenIrqCmd s.x i m 0, mail := none } T' := by
  obtain ⟨A, L⟩ := I.answers hmail
  have X₁ := (I.inv.irqCmd A L 0).1
  have hsame : ∀ {j : Nat} {m' : XenMsgData}, s.mail = some (j, m') → i = j ∧ m = m' := by
    intro j m' h
    exact Prod.mk.inj (Option.some.inj (hmail.symm.trans h))
  -- a message that is an answer for the task of the Xentium
  have hstatus : ∀ {ret : Int} {T' : List Nat}, XenInv (xenHandleCmds s.x i m ret) →
      StackOn q s.x i → m.cmd ≠ .exit → StackHolds s.k T' none → T'.Nodup →
      (∀ u ∈ T', u ∈ (xenEvalTaskStatus s.x.pn (s.x.pt i) m.t ret).2.detached) →
      StackInv q { s with x := xenHandleCmds s.x i m ret, mail := none } T' := by
    intro ret T' X' hon hcmd hk hnd hdet
    obtain ⟨hleaves, hgiven⟩ := xenHandleCmds_given ret hon.small
      (fun j hj => I.single j i hj hon.node) hcmd
    exact ⟨X', fun j hj => (hgiven j hj).1 ▸ hon.small,
      fun j l hj hl => (hgiven j hj).1.trans (hgiven l hl).1.symm,
      .waits hk rfl (fun j hj => (hgiven j hj).2), hnd,
      fun u hu => (hleaves T' u hu (hdet u hu)).1⟩
  -- what is owed is left alone when the task of the Xentium is evaluated
  have hleaves : ∀ {ret : Int} {t : Nat}, StackOn q s.x i → s.x.held i = some t → m.t = some t →
      PnLeaves T s.x.pn (xenEvalTaskStatus s.x.pn (s.x.pt i) m.t ret).2 := by
    intro ret t hon hheld hm
    refine xenEvalTaskStatus_leaves (fun u hu => ?_)
    obtain rfl : t = u := Option.some.inj (hm.symm.trans hu)
    exact ⟨_, I.inv.takeBack hon.small hheld⟩
  cases I.stage with
  | waits _ h =>
    rw [h] at hmail
    cases hmail
  | attached _ h =>
    rw [h] at hmail
    cases hmail
  | exits hk h hon hcmd hheld =>
    obtain ⟨rfl, rfl⟩ := hsame h
    have hcall : xenIrqCmd s.x i m 0 =
        { xenFreeMsg s.x i with held := Function.update s.x.held i none } := by
      rw [xenIrqCmd, hcmd]
    rw [hcall] at X₁ ⊢
    have hno : ∀ j, Function.update s.x.pt i none j ≠ some q := by
      intro j hj
      rw [Function.update_apply] at hj
      split at hj
      · cases hj
      · rename_i hji
        exact hji (I.single j i hj hon.node)
    exact ⟨T, X₁, fun j hj => absurd hj (hno j), fun j _ hj => absurd hj (hno j),
      .waits hk rfl (fun j hj => absurd hj (hno j)), I.once, I.detached⟩
  | reports hk h hon hcmd hm hheld =>
    obtain ⟨rfl, rfl⟩ := hsame h
    rcases hcmd with hcmd | hcmd
    · have hcall : xenIrqCmd s.x i m 0 = xenHandleCmds s.x i m PN_TASK_SUCCESS := by
        rw [xenIrqCmd, hcmd]
      rw [hcall] at X₁ ⊢
      exact ⟨T, hstatus X₁ hon (by simp [hcmd]) hk I.once
        (fun u hu => (hleaves hon hheld hm u hu (I.detached u hu)).1)⟩
    · have hcall : xenIrqCmd s.x i m 0 = xenHandleCmds s.x i m PN_TASK_DESTROY := by
        rw [xenIrqCmd, hcmd]
      rw [hcall] at X₁ ⊢
      exact ⟨T, hstatus X₁ hon (by simp [hcmd]) hk I.once
        (fun u hu => (hleaves hon hheld hm u hu (I.detached u hu)).1)⟩
  | @detaches _ _ t _ hk h hon hcmd hm hheld =>
    obtain ⟨rfl, rfl⟩ := hsame h
    have hcall : xenIrqCmd s.x i m 0 = xenHandleCmds s.x i m PN_TASK_DETACH := by
      rw [xenIrqCmd, hcmd]
    have heval : (xenEvalTaskStatus s.x.pn (s.x.pt i) m.t PN_TASK_DETACH).2.detached =
        s.x.pn.detached ++ [t] := by
      rw [hon.node, hm]
      rfl
    have hnot : t ∉ T := fun ht =>
      (I.inv.takeBack hon.small hheld).notMem_detached (I.detached t ht)
    rw [hcall] at X₁ ⊢
    refine ⟨T ++ [t], hstatus X₁ hon (by simp [hcmd]) hk ?_ (fun u hu => ?_)⟩
    · exact List.nodup_append.mpr ⟨I.once, List.nodup_singleton t, fun u hu v hv =>
        fun huv => hnot (List.mem_singleton.mp hv ▸ huv ▸ hu)⟩
    · rw [heval]
      rcases List.mem_append.mp hu with hu | hu
      · exact List.mem_append_left _ (I.detached u hu)
      · exact List.mem_append_right _ hu
  | @attaches a rest _ t _ hk h hon hcmd hm hheld hempty =>
    obtain ⟨rfl, rfl⟩ := hsame h
    obtain ⟨hnot, hnd⟩ := List.nodup_cons.mp I.once
    have ha : a ∈ s.x.pn.detached := I.detached a List.mem_cons_self
    have hcall : xenIrqCmd s.x i m 0 = xenSetCmd { s.x with pn :=
        (xenEvalTaskStatus (xenTakeBack s.x.pn m.t) (s.x.pt i) m.t PN_TASK_SUCCESS).2 } i m := by
      rw [xenIrqCmd, hcmd]
    have hback : PnLeaves rest s.x.pn (xenTakeBack s.x.pn m.t) := by
      rw [hm]
      exact xenTakeBack_leaves hnot
    have heval : PnLeaves rest (xenTakeBack s.x.pn m.t)
        (xenEvalTaskStatus (xenTakeBack s.x.pn m.t) (s.x.pt i) m.t PN_TASK_SUCCESS).2 := by
      refine xenEvalTaskStatus_leaves (fun u hu => ?_)
      rw [hu]
      obtain rfl : a = u := Option.some.inj (hm.symm.trans hu)
      exact ⟨_, I.inv.inv.takeBack ha⟩
    have hleft := hback.trans heval
    have hdet : ∀ u ∈ rest, u ∈ s.x.pn.detached := fun u hu =>
      I.detached u (List.mem_cons_of_mem a hu)
    rw [hcall] at X₁ ⊢
    refine ⟨rest, X₁, I.small, I.single, ?_, hnd, fun u hu => (hleft u hu (hdet u hu)).1⟩
    refine .attached hk rfl ⟨hon.small, hon.node, ?_⟩ hheld (fun u hu => ?_)
    · show Function.update s.x.msg i (some m) i ≠ none
      rw [Function.update_self]
      exact Option.some_ne_none m
    · have hsame := (hleft u hu (hdet u hu)).2
      show StackEmptied ((xenEvalTaskStatus (xenTakeBack s.x.pn m.t) (s.x.pt i) m.t
        PN_TASK_SUCCESS).2.task u)
      rw [hsame]
      exact hempty u (List.mem_cons_of_mem a hu)

end Stage

/-! ## 6. Runs -/

/-- What holds in every interleaving: no task is lost, the kernel does not read past its storage
when it takes a command, the message in the mailbox is what the driver may rely on, and a task that
is handed back has no elements and no step. -/
structure StackSafe (q : Nat) (frames : Nat → BitVec 32) (s : StackSys ω) : Prop where
  conserved : XenConserved s.x
  inside : ∀ i m, s.x.pt i = some q → s.mail = none → s.x.msg i = some m →
    StackFrames frames s.mem m → (stackMain frames s.k s.mem m).isSome
  answers : ∀ i m, s.mail = some (i, m) → XenAnswers s.x i m ∧ XenLetsGo s.x i m
  emptied : ∀ i m, s.mail = some (i, m) → m.cmd = .attach →
    ∃ t ∈ s.x.pn.detached, m.t = some t ∧ StackEmptied (s.x.pn.task t)

section Runs

variable {q : Nat} {frames : Nat → BitVec 32} {T : List Nat} {s s' : StackSys ω} {o : StackOp ω}

theorem StackInv.safe (I : StackInv q s T) : StackSafe q frames s where
  conserved := I.inv.conserved
  inside := fun i m hnode hmail hm hf => by
    obtain ⟨r, T', hr, -⟩ := I.kernel hnode hmail hm hf
    rw [hr]
    rfl
  answers := fun i m hmail => I.answers hmail
  emptied := fun i m hmail hcmd => by
    obtain ⟨t, ht, hm⟩ := (I.answers hmail).1.attach hcmd
    refine ⟨t, ht, hm, ?_⟩
    have hsame : ∀ {j : Nat} {m' : XenMsgData}, s.mail = some (j, m') → i = j ∧ m = m' := by
      intro j m' h
      exact Prod.mk.inj (Option.some.inj (hmail.symm.trans h))
    cases I.stage with
    | waits _ h =>
      rw [h] at hmail
      cases hmail
    | attached _ h =>
      rw [h] at hmail
      cases hmail
    | exits _ h _ hcmd' =>
      obtain ⟨rfl, rfl⟩ := hsame h
      simp [hcmd] at hcmd'
    | reports _ h _ hcmd' =>
      obtain ⟨rfl, rfl⟩ := hsame h
      simp [hcmd] at hcmd'
    | detaches _ h _ hcmd' =>
      obtain ⟨rfl, rfl⟩ := hsame h
      simp [hcmd] at hcmd'
    | attaches _ h _ _ hm' _ hempty =>
      obtain ⟨rfl, rfl⟩ := hsame h
      obtain rfl := Option.some.inj (hm.symm.trans hm')
      exact hempty _ List.mem_cons_self

theorem StackInv.init (h : (stackSystem (ω := ω) frames).init s) : StackInv q s [] := by
  obtain ⟨⟨tracker, input, output, mem, hne, hx⟩, hk, hmail⟩ := h
  have X : XenInv s.x := by
    rw [hx]
    exact XenInv.init tracker mem hne
  have hno : ∀ i, s.x.pt i ≠ some q := by
    intro i hi
    rw [hx] at hi
    cases hi
  refine ⟨X, fun i hi => absurd hi (hno i), fun i _ hi => absurd hi (hno i), ?_,
    List.nodup_nil, fun t ht => absurd ht List.not_mem_nil⟩
  refine .waits ?_ hmail (fun i hi => absurd hi (hno i))
  rw [hk]
  exact stackLoaded_holds

/-- **The step**, of whichever party. -/
theorem StackInv.step (I : StackInv q s T) (hv : StackValid q frames s o)
    (h : stackStep frames s o = some s') : ∃ T', StackInv q s' T' := by
  cases o with
  | driver o =>
    obtain ⟨x', hx', rfl⟩ := Option.map_eq_some_iff.mp h
    obtain ⟨hvalid, hsafe, hapart⟩ := hv
    rw [I.stage.owed] at hapart
    obtain ⟨x₁, hx₁, X₁⟩ := I.inv.step hvalid hsafe
    obtain rfl : x₁ = x' := Option.some.inj (hx₁.symm.trans hx')
    exact ⟨T, I.apart X₁ (.step I.inv hvalid hapart I.small hx')⟩
  | data word =>
    cases h
    refine ⟨T, I.inv, I.small, I.single, ?_, I.once, I.detached⟩
    cases I.stage with
    | waits hk hmail hgiven => exact .waits hk hmail hgiven
    | exits hk hmail hon hcmd hno => exact .exits hk hmail hon hcmd hno
    | reports hk hmail hon hcmd hm ht => exact .reports hk hmail hon hcmd hm ht
    | detaches hk hmail hon hcmd hm ht => exact .detaches hk hmail hon hcmd hm ht
    | attaches hk hmail hon hcmd hm ht hempty => exact .attaches hk hmail hon hcmd hm ht hempty
    | attached hk hmail hon ht hempty => exact .attached hk hmail hon ht hempty
  | kernel i =>
    obtain ⟨hnode, hmail, hf⟩ := hv
    obtain ⟨m, hm, h⟩ := Option.bind_eq_some_iff.mp h
    obtain ⟨r, hr, rfl⟩ := Option.map_eq_some_iff.mp h
    obtain ⟨r', T', hr', I'⟩ := I.kernel hnode hmail hm (hf m hm)
    obtain rfl : r' = r := Option.some.inj (hr'.symm.trans hr)
    exact ⟨T', I'⟩
  | answer mem =>
    obtain ⟨⟨i, m⟩, hmail, h⟩ := Option.bind_eq_some_iff.mp h
    obtain ⟨x', hx', rfl⟩ := Option.map_eq_some_iff.mp h
    obtain ⟨A, L⟩ := I.answers hmail
    have hadd : (xenIrqCmd s.x i m 0).adding = none := (I.inv.irqCmd A L 0).2.trans hv
    obtain ⟨T', I₁⟩ := I.irqCmd hmail
    obtain ⟨x₁, hx₁, X₁, -⟩ := I₁.inv.scheduleNext mem hadd
    obtain rfl : x₁ = x' := Except.ok.inj (hx₁.symm.trans (ok_of_toOption hx'))
    exact ⟨T', I₁.apart X₁ (.scheduleFrom I₁.small hx₁)⟩

/-- **The kernel and the driver.**  In every interleaving of the driver, the stacking kernel and the
other kernels, no task is lost, and the kernel does what the driver relies on. -/
theorem stack_conserves (h : (stackSystem frames).Reachable (StackValid q frames) s) :
    StackSafe q frames s := by
  obtain ⟨T, I⟩ : ∃ T, StackInv q s T := by
    refine h.invariant (I := fun s => ∃ T, StackInv q s T) (fun s hs => ⟨[], StackInv.init hs⟩)
      (fun s o s' hI hv hstep => ?_)
    obtain ⟨T, I⟩ := hI
    exact I.step hv hstep
  exact I.safe

end Runs

/-- The driver with an empty network, and the kernel as it is loaded first. -/
def stackStart : StackSys Unit := ⟨xenStart, stackLoaded, fun _ _ => 0, none⟩

/-- A task that asks for a group. -/
def stackOneStep : ProcTask := (ptAddStep (ptCreate 0 0 1 0 0) STACK_OP_CODE 9).2

/-- The kernel is added, gets a task and keeps it. -/
def stackPass : List (StackOp Unit) :=
  [.driver (.kernelAddNode 2 STACK_OP_CODE 1), .driver .kernelAddKernel,
    .driver (.inputTask 7 stackOneStep true), .kernel 0, .answer true]

theorem stack_conserves_pass : ∃ s, System.stepAll (stackStep fun _ => 2) stackStart stackPass =
    some s ∧ s.owed = [7] ∧ StackSafe 2 (fun _ => 2) s := by
  have hrun : (System.stepAll (stackStep fun _ => 2) stackStart stackPass).map StackSys.owed =
      some [7] := by
    decide
  obtain ⟨s, hs, howed⟩ := Option.map_eq_some_iff.mp hrun
  -- the kernel has the task
  have hloaded : (System.stepAll (stackStep fun _ => 2) stackStart (stackPass.take 3)).map
      (fun s => (s.x.pt 0, s.mail.isNone)) = some (some 2, true) := by
    decide
  have hanswered : (System.stepAll (stackStep fun _ => 2) stackStart (stackPass.take 4)).map
      (fun s => s.x.adding) = some none := by
    decide
  have hallowed : System.AllowedAll (stackStep fun _ => 2) (StackValid 2 fun _ => 2) stackStart
      stackPass := by
    refine ⟨⟨⟨by decide, rfl⟩, trivial, by simp [StackApart]⟩, fun s₁ h₁ =>
      ⟨⟨trivial, trivial, trivial⟩, fun s₂ h₂ => ⟨?_, fun s₃ h₃ => ⟨?_, fun s₄ h₄ => ⟨?_, fun _ _ => trivial⟩⟩⟩⟩⟩
    · cases h₁
      cases h₂
      exact ⟨⟨by decide, by decide, by decide⟩, rfl, List.not_mem_nil⟩
    · have h₀ : System.stepAll (stackStep fun _ => 2) stackStart (stackPass.take 3) = some s₃ := by
        show System.stepAll _ stackStart [_, _, _] = _
        rw [System.stepAll, h₁, Option.bind_some, System.stepAll, h₂, Option.bind_some,
          System.stepAll, h₃]
        rfl
      rw [h₀] at hloaded
      obtain ⟨hnode, hmail⟩ := Prod.mk.inj (Option.some.inj hloaded)
      exact ⟨hnode, Option.isNone_iff_eq_none.mp hmail,
        fun _ _ _ _ _ => (by decide : (2 : BitVec 32) ≠ 0)⟩
    · have h₀ : System.stepAll (stackStep fun _ => 2) stackStart (stackPass.take 4) = some s₄ := by
        show System.stepAll _ stackStart [_, _, _, _] = _
        rw [System.stepAll, h₁, Option.bind_some, System.stepAll, h₂, Option.bind_some,
          System.stepAll, h₃, Option.bind_some, System.stepAll, h₄]
        rfl
      rw [h₀] at hanswered
      exact Option.some.inj hanswered
  exact ⟨s, hs, howed, stack_conserves (System.Reachable.stepAll _
    (.init ⟨xenStart_init, rfl, rfl⟩) hallowed hs)⟩

end FlightOs
