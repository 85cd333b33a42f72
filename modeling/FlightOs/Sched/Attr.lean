/-
# The attributes of queued tasks

A task in a queue should have the scheduler of that queue and attributes its check lets pass: the
schedulers divide by them.  Nothing in `sched_set_attr` looks at the queues, it copies the attributes
before they are checked, and its error path takes the scheduler away, from a task that may be
queued, or through a pointer that may be `NULL`.  And `edf_enqueue` gives a task without a period one
that is equal to its deadline, which the check does not let pass.

`AttrOpOk` says of a call that it does none of this; `schedule` never does.  For that, a call keeps
the attributes and the scheduler of each task, and puts no task into a queue (`KernelKept`).

* `schedule_kept`: what `schedule` keeps.
* `AttrInv.setAttr`, `AttrInv.wakeUp`: the two other calls; `edfSetPeriod_fails` is why a task that
  runs only once must not be enqueued.
* `sched_attr_admissible`: every run.
-/
import FlightOs.Sched.Wake

namespace FlightOs

/-! ## 1. What is kept -/

/-- The attributes and the scheduler of a task are kept, and it is not new if it was not. -/
structure TaskKept (tsk tsk' : TaskStruct) : Prop where
  attr : tsk'.attr = tsk.attr
  sched : tsk'.sched = tsk.sched
  new : tsk'.state = .new → tsk.state = .new

theorem TaskKept.refl (tsk : TaskStruct) : TaskKept tsk tsk := ⟨rfl, rfl, id⟩

theorem TaskKept.trans {a b c : TaskStruct} (h : TaskKept a b) (h' : TaskKept b c) : TaskKept a c :=
  ⟨h'.attr.trans h.attr, h'.sched.trans h.sched, fun hn => h.new (h'.new hn)⟩

/-- A change of one task that keeps it. -/
theorem TaskKept.update {τ τ' : Nat → TaskStruct} {t : Nat} {tsk : TaskStruct}
    (h : ∀ u, TaskKept (τ u) (τ' u)) (ht : TaskKept (τ' t) tsk) (u : Nat) :
    TaskKept (τ u) (Function.update τ' t tsk u) := by
  rw [Function.update_apply]
  split
  case isTrue hu => exact (h u).trans (hu ▸ ht)
  case isFalse => exact h u

/-- A task is in a queue of a scheduler. -/
def Queues.Holds (q : Queues) (t : Nat) : Prop :=
  ∃ cpu, t ∈ (q.tq cpu).wake ∨ t ∈ (q.tq cpu).run ∨ t ∈ (q.tq cpu).dead ∨ t ∈ (q.tq cpu).clean

structure QueuesKept (q q' : Queues) : Prop where
  task : ∀ u, TaskKept (q.task u) (q'.task u)
  holds : ∀ u, q'.Holds u → q.Holds u

theorem QueuesKept.refl (q : Queues) : QueuesKept q q := ⟨fun _ => .refl _, fun _ => id⟩

/-- A task is linked in a queue of the scheduler. -/
def Linked (k : Kernel) (p : SchedPolicy) (t : Nat) : Prop := (k.queues p).Holds t

structure KernelKept (k k' : Kernel) : Prop where
  task : ∀ u, TaskKept (k.task u) (k'.task u)
  linked : ∀ p t, Linked k' p t → Linked k p t

theorem KernelKept.refl (k : Kernel) : KernelKept k k := ⟨fun _ => .refl _, fun _ _ => id⟩

theorem KernelKept.trans {a b c : Kernel} (h : KernelKept a b) (h' : KernelKept b c) :
    KernelKept a c :=
  ⟨fun u => (h.task u).trans (h'.task u), fun p t hl => h.linked p t (h'.linked p t hl)⟩

theorem linked_withQueues {k : Kernel} {p r : SchedPolicy} {q : Queues} {t : Nat} :
    Linked (k.withQueues p q) r t ↔ if r = p then q.Holds t else Linked k r t := by
  by_cases h : r = p
  · subst h
    simp [Linked, Queues.Holds, Kernel.queues, Kernel.withQueues]
  · simp [Linked, Queues.Holds, Kernel.queues, Kernel.withQueues, h]

theorem QueuesKept.kernel {k : Kernel} {p : SchedPolicy} {q : Queues}
    (h : QueuesKept (k.queues p) q) : KernelKept k (k.withQueues p q) := by
  refine ⟨h.task, fun r t hl => ?_⟩
  rw [linked_withQueues] at hl
  split at hl
  case isTrue hr => exact hr ▸ h.holds t hl
  case isFalse => exact hl

/-- A change of one task that keeps it. -/
theorem KernelKept.setTask {k : Kernel} {t : Nat} {tsk : TaskStruct}
    (h : TaskKept (k.task t) tsk) : KernelKept k (k.setTask t tsk) :=
  ⟨TaskKept.update (fun _ => .refl _) h, fun _ _ => id⟩

/-! ## 2. `schedule` -/

section Schedule

variable {tick now : Int} {cpu : Nat}

theorem scheduleEdfReinitTask_kept {tsk tsk' : TaskStruct}
    (h : scheduleEdfReinitTask tsk now = .ok tsk') : TaskKept tsk tsk' := by
  unfold scheduleEdfReinitTask at h
  split at h
  · cases h
  dsimp only at h
  split at h
  · cases h
  split at h
  · cases h
    exact ⟨rfl, rfl, nofun⟩
  · cases h
    exact ⟨rfl, rfl, nofun⟩

theorem edfRefresh_kept {tsk tsk' : TaskStruct} {link : Relink}
    (h : edfRefresh tick tsk now = .ok (tsk', link)) : TaskKept tsk tsk' := by
  unfold edfRefresh at h
  split at h
  · cases h
    exact .refl _
  split at h
  · cases h
  case h_2 hok =>
    cases h
    exact scheduleEdfReinitTask_kept hok

theorem edfPickTurn_kept {this : Option Nat} {τ : Nat → TaskStruct} {st : EdfScan} {P R : List Nat}
    {t : Nat} (h : ∀ u, TaskKept (τ u) (st.task u)) (u : Nat) :
    TaskKept (τ u) ((edfPickTurn tick now this st P t R).state.task u) := by
  have hrun : ∀ tsk : TaskStruct, TaskKept tsk { tsk with state := .run } :=
    fun tsk => ⟨rfl, rfl, nofun⟩
  unfold edfPickTurn
  dsimp only
  split
  · exact h u
  split
  · split
    case h_1 => exact h u
    case h_2 tsk link hok =>
      have hset := TaskKept.update h (edfRefresh_kept hok)
      split
      · exact hset u
      split
      · refine TaskKept.update hset ?_ u
        simp only [Function.update_self]
        exact hrun tsk
      · exact hset u
  split
  · have hset := TaskKept.update h (hrun (st.task t))
    split
    · exact hset u
    split
    · exact hset u
    · exact hset u
  split
  · split
    · exact h u
    · exact h u
  · exact h u

theorem edfPickNext_kept {this : Option Nat} {q q' : Queues} {next : Option Nat}
    (h : edfPickNext tick q cpu now this = .ok (next, q')) : QueuesKept q q' := by
  unfold edfPickNext at h
  split at h
  · cases h
    exact .refl q
  split at h
  case h_1 => cases h
  case h_2 st run hloop =>
    have hinv := safeFor_inv
      (I := fun st P R => (∀ u, TaskKept (q.task u) (st.task u)) ∧ P ++ R ⊆ (q.tq cpu).run)
      (Q := fun st run => (∀ u, TaskKept (q.task u) (st.task u)) ∧ run ⊆ (q.tq cpu).run)
      (fun s P hI => ⟨hI.1, by simpa using hI.2⟩)
      (fun s P t R hI _ => ⟨edfPickTurn_kept hI.1,
        fun u hu => hI.2 (Relink.after_subset _ P t R hu)⟩)
      (fun s P t R hI _ => ⟨edfPickTurn_kept hI.1,
        fun u hu => hI.2 (Relink.after_subset _ P t R hu)⟩)
      ⟨fun _ => .refl _, by simp⟩ hloop
    obtain ⟨hkept, hsub⟩ := hinv
    -- the queues after the loop
    have hholds : ∀ u, (({ q with task := st.task, freed := st.freed }.setTq cpu
        { q.tq cpu with run := run }) : Queues).Holds u → q.Holds u := by
      rintro u ⟨c, hc⟩
      by_cases hcpu : c = cpu
      · subst hcpu
        rw [Queues.setTq_tq_self] at hc
        exact ⟨c, hc.imp id fun h1 => h1.imp (fun h2 => hsub h2) id⟩
      · rw [Queues.setTq_tq_other _ _ hcpu] at hc
        exact ⟨c, hc⟩
    split at h
    · cases h
    dsimp only at h
    match run, hholds, h with
    | [], _, h => cases h
    | first :: L, hholds, h =>
      dsimp only at h
      split at h
      · cases h
        refine ⟨TaskKept.update hkept ?_, hholds⟩
        exact ⟨rfl, rfl, nofun⟩
      · cases h
        exact ⟨hkept, hholds⟩

theorem rrPickTurn_kept {q : Queues} {st : RrScan} {P R : List Nat} {t : Nat}
    (h : (∀ u, TaskKept (q.task u) (st.task u)) ∧ st.dead ⊆ (q.tq cpu).dead ++ (q.tq 0).run ∧
      P ++ t :: R ⊆ (q.tq 0).run) :
    let r := rrPickTurn tick cpu st P t R
    (∀ u, TaskKept (q.task u) (r.state.task u)) ∧
      r.state.dead ⊆ (q.tq cpu).dead ++ (q.tq 0).run ∧
      (r.link.after P t R).1 ++ (r.link.after P t R).2 ⊆ (q.tq 0).run := by
  obtain ⟨htask, hdead, hsub⟩ := h
  refine ⟨?_, ?_, fun u hu => hsub (Relink.after_subset _ P t R hu)⟩
  · unfold rrPickTurn
    dsimp only
    split
    · exact htask
    split
    · split
      · exact TaskKept.update htask ⟨rfl, rfl, id⟩
      · exact htask
    split
    · exact htask
    · exact htask
  · unfold rrPickTurn
    dsimp only
    split
    · exact hdead
    split
    · split
      · exact hdead
      · exact hdead
    split
    · intro u hu
      rcases List.mem_append.mp hu with h1 | h1
      · exact hdead h1
      · rw [List.mem_singleton.mp h1]
        exact List.mem_append_right _ (hsub (List.mem_append_right _ List.mem_cons_self))
    · exact hdead

/-- The queues with the dead list of a CPU and the run queue put back. -/
def rrPut (q : Queues) (cpu : Nat) (dead run : List Nat) : Queues :=
  let q := q.setTq cpu { q.tq cpu with dead := dead }
  q.setTq 0 { q.tq 0 with run := run }

theorem rrPut_tq (q : Queues) (cpu : Nat) (dead run : List Nat) (c : Nat) :
    ((rrPut q cpu dead run).tq c).wake = (q.tq c).wake ∧
      ((rrPut q cpu dead run).tq c).run = (if c = 0 then run else (q.tq c).run) ∧
      ((rrPut q cpu dead run).tq c).dead = (if c = cpu then dead else (q.tq c).dead) ∧
      ((rrPut q cpu dead run).tq c).clean = (q.tq c).clean := by
  simp only [rrPut, Queues.setTq, Function.update_apply]
  by_cases hc : c = 0
  · subst hc
    by_cases hcpu : 0 = cpu
    · simp [hcpu]
    · simp [hcpu]
  · by_cases hcpu : c = cpu
    · subst hcpu
      simp [hc]
    · simp [hc, hcpu]

theorem rrPickNext_kept {fuel : Nat} {q q' : Queues} {next : Option Nat}
    (h : rrPickNext tick fuel q cpu now = some (next, q')) : QueuesKept q q' := by
  unfold rrPickNext at h
  split at h
  · cases h
    exact .refl q
  split at h
  case h_1 => cases h
  case h_2 st run hloop =>
    have hinv := safeFor_inv
      (I := fun st P R => (∀ u, TaskKept (q.task u) (st.task u)) ∧
        st.dead ⊆ (q.tq cpu).dead ++ (q.tq 0).run ∧ P ++ R ⊆ (q.tq 0).run)
      (Q := fun st run => (∀ u, TaskKept (q.task u) (st.task u)) ∧
        st.dead ⊆ (q.tq cpu).dead ++ (q.tq 0).run ∧ run ⊆ (q.tq 0).run)
      (fun s P hI => ⟨hI.1, hI.2.1, by simpa using hI.2.2⟩)
      (fun s P t R hI _ => rrPickTurn_kept hI) (fun s P t R hI _ => rrPickTurn_kept hI)
      ⟨fun _ => .refl _, List.subset_append_left _ _, by simp⟩ hloop
    obtain ⟨hkept, hdead, hsub⟩ := hinv
    have hholds : ∀ u, (rrPut { q with task := st.task } cpu st.dead run).Holds u → q.Holds u := by
      rintro u ⟨c, hc⟩
      obtain ⟨hwake, hrun, hdead', hclean⟩ := rrPut_tq { q with task := st.task } cpu st.dead run c
      rw [hwake, hrun, hdead', hclean] at hc
      rcases hc with h1 | h1 | h1 | h1
      · exact ⟨c, .inl h1⟩
      · split at h1
        · exact ⟨0, .inr (.inl (hsub h1))⟩
        · exact ⟨c, .inr (.inl h1)⟩
      · split at h1
        · rcases List.mem_append.mp (hdead h1) with h2 | h2
          · exact ⟨cpu, .inr (.inr (.inl h2))⟩
          · exact ⟨0, .inr (.inl h2)⟩
        · exact ⟨c, .inr (.inr (.inl h1))⟩
      · exact ⟨c, .inr (.inr (.inr h1))⟩
    dsimp only at h
    split at h
    · cases h
      exact ⟨hkept, hholds⟩
    · cases h
      refine ⟨TaskKept.update hkept ?_, hholds⟩
      exact ⟨rfl, rfl, nofun⟩

theorem pickNextTask_kept {fuel : Nat} {sched : Scheduler} (hsched : sched ∈ kernelSchedulers)
    {q q' : Queues} {this next : Option Nat}
    (h : sched.pickNextTask tick fuel q cpu now this = .ok (next, q')) : QueuesKept q q' := by
  simp only [kernelSchedulers, List.mem_cons, List.not_mem_nil, or_false] at hsched
  rcases hsched with rfl | rfl
  · exact edfPickNext_kept h
  · exact rrPickNext_kept (schedRr_pick h)

theorem schedPick_kept {fuel : Nat} : ∀ {scheds : List Scheduler} {k k' : Kernel}
    {next : Option Nat}, scheds ⊆ kernelSchedulers →
    schedPick tick fuel cpu now scheds k = .ok (next, k') → KernelKept k k'
  | [], _, _, _, _, h => by
    cases h
    exact .refl _
  | sched :: rest, k, k', next, hsub, h => by
    have hsched := hsub List.mem_cons_self
    rw [schedPick] at h
    split at h
    case h_1 => cases h
    case h_2 hpick =>
      cases h
      exact (pickNextTask_kept hsched hpick).kernel
    case h_3 hpick =>
      exact (pickNextTask_kept hsched hpick).kernel.trans
        (schedPick_kept (fun s hs => hsub (List.mem_cons_of_mem _ hs)) h)

theorem schedFindNextTask_kept {fuel : Nat} {k k' : Kernel} {t : Nat} {slice : Int}
    (h : schedFindNextTask tick fuel kernelSchedulers k cpu now = .ok (t, slice, k')) :
    KernelKept k k' := by
  unfold schedFindNextTask at h
  split at h
  case h_1 => cases h
  case h_2 => cases h
  case h_3 hpick =>
    split at h
    case h_1 => cases h
    split at h
    case h_1 => cases h
    case h_2 =>
      cases h
      exact schedPick_kept (List.Subset.refl _) hpick

theorem scheduleLoop_kept {fuel : Nat} : ∀ {nows : List Int} {k k' : Kernel} {t : Nat}
    {slice last : Int},
    scheduleLoop tick fuel kernelSchedulers cpu nows k = .ok (t, slice, last, k') →
      KernelKept k k'
  | [], _, _, _, _, _, h => by cases h
  | now :: nows, k, k', t, slice, last, h => by
    rw [scheduleLoop] at h
    split at h
    case h_1 => cases h
    case h_2 hfind =>
      have hkept := schedFindNextTask_kept hfind
      split at h
      case isTrue =>
        cases h
        exact hkept
      case isFalse => exact hkept.trans (scheduleLoop_kept h)

/-- **`schedule`** keeps the attributes and schedulers, and links no task. -/
theorem schedule_kept {fuel : Nat} {nows : List Int} {k k' : Kernel} {out : Option Scheduled}
    (h : schedule tick fuel kernelSchedulers k cpu nows = .ok (out, k')) : KernelKept k k' := by
  unfold schedule at h
  split at h
  case isTrue =>
    cases h
    exact .refl k
  split at h
  case h_1 =>
    cases h
    exact .refl k
  case h_2 => cases h
  case h_3 cur now nows _ =>
    dsimp only at h
    have haccounted : KernelKept k (k.setTask cur (schedUpdateRuntime (k.task cur) now)) := by
      refine KernelKept.setTask ⟨rfl, rfl, fun hnew => ?_⟩
      change (if (k.task cur).state = .busy then TaskState.run else (k.task cur).state) = .new
        at hnew
      split at hnew
      · cases hnew
      · exact hnew
    split at h
    case h_1 => cases h
    case h_2 t slice last k₁ hloop =>
      cases h
      have hkept := haccounted.trans (scheduleLoop_kept hloop)
      have hset : KernelKept k₁ (k₁.setTask t { k₁.task t with execStart := last }) :=
        KernelKept.setTask ⟨rfl, rfl, id⟩
      exact ⟨(hkept.trans hset).task, (hkept.trans hset).linked⟩

end Schedule

/-! ## 3. The other calls -/

/-- A queued task has the scheduler of the queue and passes its check, and is not new. -/
def AttrInv (tick : Int) (k : Kernel) : Prop :=
  ∀ p t, Linked k p t → (k.task t).sched = some p ∧
    (schedCheckAttr tick p (k.task t).attr).1 = 0 ∧ (k.task t).state ≠ .new

section Calls

variable {tick : Int} {fuel ncpus : Nat} {k k' : Kernel}

theorem AttrInv.kept (h : AttrInv tick k) (hkept : KernelKept k k') : AttrInv tick k' := by
  intro p t ht
  obtain ⟨hsched, hcheck, hnew⟩ := h p t (hkept.linked p t ht)
  have htask := hkept.task t
  rw [htask.sched, htask.attr]
  exact ⟨hsched, hcheck, fun hn => hnew (htask.new hn)⟩

/-- One task is changed, or linked: it is enough to look at this one. -/
theorem AttrInv.change (h : AttrInv tick k) {t : Nat}
    (hother : ∀ u, u ≠ t → k'.task u = k.task u)
    (hlinked : ∀ p u, u ≠ t → Linked k' p u → Linked k p u)
    (ht : ∀ p, Linked k' p t → (k'.task t).sched = some p ∧
      (schedCheckAttr tick p (k'.task t).attr).1 = 0 ∧ (k'.task t).state ≠ .new) :
    AttrInv tick k' := by
  intro p u hu
  by_cases hut : u = t
  · subst hut
    exact ht p hu
  · rw [hother u hut]
    exact h p u (hlinked p u hut hu)

@[simp] theorem Kernel.setTask_task_self (k : Kernel) (t : Nat) (tsk : TaskStruct) :
    (k.setTask t tsk).task t = tsk := by
  simp [Kernel.setTask]

theorem Kernel.setTask_task_other (k : Kernel) {t u : Nat} (tsk : TaskStruct) (h : u ≠ t) :
    (k.setTask t tsk).task u = k.task u := by
  simp [Kernel.setTask, h]

theorem Kernel.setTask_setTask (k : Kernel) (t : Nat) (a b : TaskStruct) :
    (k.setTask t a).setTask t b = k.setTask t b := by
  simp [Kernel.setTask]

theorem Kernel.setTask_same (k : Kernel) (t : Nat) : k.setTask t (k.task t) = k := by
  simp [Kernel.setTask]

theorem linked_setTask {t : Nat} {tsk : TaskStruct} {p : SchedPolicy} {u : Nat} :
    Linked (k.setTask t tsk) p u ↔ Linked k p u := Iff.rfl

theorem kernelSchedulers_find (p : SchedPolicy) :
    (kernelSchedulers.find? fun sched => decide (sched.policy = p)) =
      match p with
      | .edf => some schedEdf
      | .rr => some schedRr
      | .other => none := by
  cases p <;> rfl

/-- `sched_set_attr` with its loop over the schedulers written out. -/
theorem schedSetAttr_some (tick : Int) (k : Kernel) (t : Nat) (attr : SchedAttr) :
    schedSetAttr tick k (some t) (some attr) =
      if attr.policy = .other then .ok (-EINVAL, k.setTask t { k.task t with sched := none })
      else if (schedCheckAttr tick attr.policy attr).1 ≠ 0 then
        .ok (-EINVAL, k.setTask t { k.task t with attr := attr, sched := none })
      else .ok (0, k.setTask t { k.task t with attr := attr, sched := some attr.policy }) := by
  rw [schedSetAttr, kernelSchedulers_find]
  generalize attr.policy = p
  cases p with
  | rr => simp [schedRr, Kernel.setTask_setTask]
  | edf => simp [schedEdf, Kernel.setTask_setTask]
  | other => rfl

/-- **When `sched_set_attr` is harmless**: the task is there; if the call is going to fail, the task
has no scheduler and the attributes are those it has, as far as they are copied; otherwise it is in
no queue of another scheduler. -/
def SetAttrOk (tick : Int) (k : Kernel) : Option Nat → Option SchedAttr → Prop
  | none, _ => False
  | some t, none => (k.task t).sched = none
  | some t, some attr =>
    if attr.policy = .other then (k.task t).sched = none
    else if (schedCheckAttr tick attr.policy attr).1 ≠ 0 then
      (k.task t).sched = none ∧ attr = (k.task t).attr
    else ∀ p, Linked k p t → p = attr.policy

/-- A call that fails changes nothing then. -/
theorem SetAttrOk.fails {task : Option Nat} {attr : Option SchedAttr}
    (h : SetAttrOk tick k task attr) :
    ∃ r k', schedSetAttr tick k task attr = .ok (r, k') ∧ (r ≠ 0 → k' = k) := by
  have hnone : ∀ t, (k.task t).sched = none →
      k.setTask t { k.task t with sched := none } = k := by
    intro t ht
    have hsame : { k.task t with sched := none } = k.task t := by rw [← ht]
    rw [hsame, Kernel.setTask_same]
  match task, attr, h with
  | some t, none, h => exact ⟨_, _, rfl, fun _ => hnone t h⟩
  | some t, some attr, h =>
    rw [schedSetAttr_some]
    unfold SetAttrOk at h
    dsimp only at h
    split at h
    case isTrue hother =>
      rw [if_pos hother]
      exact ⟨_, _, rfl, fun _ => hnone t h⟩
    case isFalse hother =>
      rw [if_neg hother]
      split at h
      case isTrue hcheck =>
        obtain ⟨hsched, rfl⟩ := h
        rw [if_pos hcheck]
        exact ⟨_, _, rfl, fun _ => hnone t hsched⟩
      case isFalse hcheck =>
        rw [if_neg hcheck]
        exact ⟨_, _, rfl, fun hr => absurd rfl hr⟩

/-- **`sched_set_attr`** keeps the invariant. -/
theorem AttrInv.setAttr (h : AttrInv tick k) {task : Option Nat} {attr : Option SchedAttr} {r : Int}
    (hok : SetAttrOk tick k task attr) (hcall : schedSetAttr tick k task attr = .ok (r, k')) :
    AttrInv tick k' := by
  by_cases hr : r = 0
  case neg =>
    obtain ⟨r', k'', hcall', hsame⟩ := hok.fails
    rw [hcall'] at hcall
    cases hcall
    rw [hsame hr]
    exact h
  subst hr
  match task, attr, hok, hcall with
  | some t, none, _, hcall =>
    exact absurd (Prod.mk.inj (Except.ok.inj hcall)).1 (by decide)
  | some t, some attr, hok, hcall =>
    rw [schedSetAttr_some] at hcall
    unfold SetAttrOk at hok
    dsimp only at hok
    split at hcall
    · exact absurd (Prod.mk.inj (Except.ok.inj hcall)).1 (by decide)
    case isFalse hother =>
    rw [if_neg hother] at hok
    split at hcall
    · exact absurd (Prod.mk.inj (Except.ok.inj hcall)).1 (by decide)
    case isFalse hcheck =>
    rw [if_neg hcheck] at hok
    cases hcall
    refine h.change (t := t) (fun u hu => Kernel.setTask_task_other k _ hu) (fun _ _ _ => id) ?_
    intro p hp
    rw [linked_setTask] at hp
    obtain rfl := hok p hp
    rw [Kernel.setTask_task_self]
    exact ⟨rfl, not_not.mp hcheck, (h _ t hp).2.2⟩

end Calls

/-! ## 4. Waking a task -/

section Wake

variable {tick now : Int} {fuel ncpus : Nat} {q q' : Queues} {t : Nat} {r : Int}

theorem edfEnqueue_ok {wrap : Int → Int} (h : edfEnqueue wrap fuel ncpus q t = .ok (r, q')) :
    (r ≠ 0 ∧ q' = q.setTask t (edfSetPeriod (q.task t))) ∨
      (r = 0 ∧ ∃ cpu,
        edfSchedulable wrap fuel ncpus (q.setTask t (edfSetPeriod (q.task t))) t = .ok (some cpu) ∧
        q' = (q.setTask t { edfSetPeriod (q.task t) with onCpu := some cpu }).setTq cpu
          { q.tq cpu with wake := (q.tq cpu).wake ++ [t] }) := by
  unfold edfEnqueue at h
  dsimp only at h
  split at h
  case h_1 => cases h
  case h_2 =>
    cases h
    exact .inl ⟨by decide, rfl⟩
  case h_3 cpu hcpu =>
    cases h
    refine .inr ⟨rfl, cpu, hcpu, ?_⟩
    simp [Queues.setTask]

/-- Sorting the run queue adds no task to it. -/
theorem edfSortQueueByUrgency_subset {task : Nat → TaskStruct} {run run' : List Nat}
    (h : edfSortQueueByUrgency task now run = .ok run') : run' ⊆ run := by
  unfold edfSortQueueByUrgency at h
  split at h
  case h_1 => cases h
  case h_2 s hloop =>
    cases h
    exact safeFor_inv (I := fun _ P R => P ++ R ⊆ run) (Q := fun _ L => L ⊆ run)
      (fun s P hI => by simpa using hI)
      (fun s P t R hI _ u hu => hI (Relink.after_subset _ P t R hu))
      (fun s P t R hI _ u hu => hI (Relink.after_subset _ P t R hu)) (by simp) hloop

/-- **`edf_wake`** of a task on the wake queue of its CPU. -/
theorem edfWake_ok {cpu : Nat} (hpolicy : (q.task t).attr.policy = .edf)
    (hcpu : (q.task t).onCpu = some cpu) (hwake : t ∈ (q.tq cpu).wake)
    (h : edfWake tick q t now = .ok (r, q')) :
    (∀ u, u ≠ t → q'.task u = q.task u) ∧ (q'.task t).attr = (q.task t).attr ∧
      (q'.task t).sched = (q.task t).sched ∧ (q'.task t).state = .idle ∧
      ∀ u, q'.Holds u → q.Holds u := by
  unfold edfWake at h
  dsimp only at h
  rw [if_neg (not_not.mpr hpolicy), hcpu] at h
  dsimp only at h
  rw [if_neg (List.ne_nil_of_mem hwake), if_neg (not_not.mpr hwake)] at h
  split at h
  case h_1 => cases h
  case h_2 wakeup run hplace =>
    have hsub : run ⊆ (q.tq cpu).run := by
      split at hplace
      · cases hplace
        exact List.Subset.refl _
      split at hplace
      · cases hplace
      case h_2 hsort =>
        cases hplace
        exact edfSortQueueByUrgency_subset hsort
    cases h
    refine ⟨fun u hu => Queues.setTask_task_other _ _ hu, by simp, by simp, by simp, ?_⟩
    rintro u ⟨c, hc⟩
    by_cases hcc : c = cpu
    · subst hcc
      rw [Queues.setTq_tq_self] at hc
      rcases hc with h1 | h1 | h1
      · exact ⟨c, .inl (List.mem_of_mem_erase h1)⟩
      · rcases List.mem_append.mp h1 with h2 | h2
        · exact ⟨c, .inr (.inl (hsub h2))⟩
        · rw [List.mem_singleton.mp h2]
          exact ⟨c, .inl hwake⟩
      · exact ⟨c, .inr (.inr h1)⟩
    · rw [Queues.setTq_tq_other _ _ hcc] at hc
      exact ⟨c, hc⟩

/-- **`rr_wake`** of a task on the wake queue. -/
theorem rrWake_ok (hpolicy : (q.task t).attr.policy = .rr) (hwake : t ∈ (q.tq 0).wake) :
    let q' := (rrWake tick q t now).2
    (∀ u, u ≠ t → q'.task u = q.task u) ∧ (q'.task t).attr.policy = .rr ∧
      (q'.task t).sched = (q.task t).sched ∧ (q'.task t).state = .run ∧
      ∀ u, q'.Holds u → q.Holds u := by
  unfold rrWake
  rw [if_neg (not_not.mpr hpolicy), if_neg (not_not.mpr hwake)]
  refine ⟨fun u hu => Queues.setTask_task_other _ _ hu, by simpa using hpolicy, by simp, by simp, ?_⟩
  rintro u ⟨c, hc⟩
  by_cases hcc : c = 0
  · subst hcc
    rw [Queues.setTq_tq_self] at hc
    rcases hc with h1 | h1 | h1
    · exact ⟨0, .inl (List.mem_of_mem_erase h1)⟩
    · rcases List.mem_cons.mp h1 with h2 | h2
      · rw [h2]
        exact ⟨0, .inl hwake⟩
      · exact ⟨0, .inr (.inl h2)⟩
    · exact ⟨0, .inr (.inr h1)⟩
  · rw [Queues.setTq_tq_other _ _ hcc] at hc
    exact ⟨c, hc⟩

/-- A task is put at the end of a wake queue. -/
theorem holds_wake {cpu u : Nat} {tsk : TaskStruct}
    (h : ((q.setTask t tsk).setTq cpu { q.tq cpu with wake := (q.tq cpu).wake ++ [t] }).Holds u)
    (hu : u ≠ t) : q.Holds u := by
  obtain ⟨c, hc⟩ := h
  by_cases hcc : c = cpu
  · subst hcc
    rw [Queues.setTq_tq_self] at hc
    rcases hc with h1 | h1
    · rcases List.mem_append.mp h1 with h2 | h2
      · exact ⟨c, .inl h2⟩
      · exact absurd (List.mem_singleton.mp h2) hu
    · exact ⟨c, .inr h1⟩
  · rw [Queues.setTq_tq_other _ _ hcc] at hc
    exact ⟨c, hc⟩

end Wake

section WakeUp

variable {tick now : Int} {fuel ncpus : Nat} {k k' : Kernel} {t : Nat} {r : Int}

/-- **When `kthread_wake_up` is harmless**: a task that runs only once is not enqueued, be it that
its attributes do not pass, or that `edf_schedulable` finds no CPU for it. -/
def WakeUpOk (tick : Int) (fuel ncpus : Nat) (k : Kernel) : Option Nat → Prop
  | none => True
  | some t =>
    (k.task t).state = .new → (k.task t).sched = some .edf → (k.task t).attr.period = 0 →
      (edfCheckSchedAttr tick (k.task t).attr).1 = 0 →
      ∀ cpu, edfSchedulable ktimeWrap fuel ncpus
        ((k.queues .edf).setTask t (edfSetPeriod (k.task t))) t ≠ .ok (some cpu)

theorem edfCheckSchedAttr_attr (tick : Int) (attr : SchedAttr) :
    (edfCheckSchedAttr tick attr).2 = attr := by
  unfold edfCheckSchedAttr
  repeat' split
  all_goals rfl

theorem edfCheckSchedAttr_policy {attr : SchedAttr} (h : (edfCheckSchedAttr tick attr).1 = 0) :
    attr.policy = .edf := by
  by_contra hne
  rw [edfCheckSchedAttr, if_pos hne] at h
  exact absurd h (show ¬ (-(EINVAL : Int)) = 0 by decide)

theorem rrCheckSchedAttr_policy {attr : SchedAttr} (h : (rrCheckSchedAttr attr).1 = 0) :
    (rrCheckSchedAttr attr).2.policy = .rr := by
  unfold rrCheckSchedAttr at h ⊢
  split at h
  case isTrue => exact absurd h (show ¬ (-(EINVAL : Int)) = 0 by decide)
  case isFalse hrr =>
    rw [if_neg hrr]
    split
    · exact not_not.mp hrr
    · exact not_not.mp hrr

theorem rrCheckSchedAttr_of_policy {attr : SchedAttr} (h : attr.policy = .rr) :
    (rrCheckSchedAttr attr).1 = 0 := by
  unfold rrCheckSchedAttr
  rw [if_neg (not_not.mpr h)]
  split <;> rfl

/-- A task whose period is given keeps its attributes. -/
theorem edfSetPeriod_attr {tsk : TaskStruct} (h : tsk.attr.period ≠ 0) :
    (edfSetPeriod tsk).attr = tsk.attr := by
  rw [edfSetPeriod, if_neg h]

/-- A task that runs only once is given a period its check does not let pass. -/
theorem edfSetPeriod_fails (htick : 0 < tick) {tsk : TaskStruct} (h : tsk.attr.period = 0) :
    (edfCheckSchedAttr tick (edfSetPeriod tsk).attr).1 ≠ 0 := by
  intro hcheck
  rw [edfSetPeriod, if_pos h] at hcheck
  have hfails : (-(EINVAL : Int)) ≠ 0 := by decide
  unfold edfCheckSchedAttr at hcheck
  dsimp only at hcheck
  repeat' split at hcheck
  all_goals first | exact absurd hcheck hfails | omega

theorem edfSetPeriod_sched (tsk : TaskStruct) : (edfSetPeriod tsk).sched = tsk.sched := by
  unfold edfSetPeriod
  split <;> rfl

theorem schedEnqueue_edf (hsched : (k.task t).sched = some .edf) :
    schedEnqueue tick fuel ncpus k t =
      if (edfCheckSchedAttr tick (k.task t).attr).1 ≠ 0 then
        .ok ((edfCheckSchedAttr tick (k.task t).attr).1, k)
      else
        match edfEnqueue ktimeWrap fuel ncpus (k.queues .edf) t with
        | .error e => .error e
        | .ok (ret, q) => .ok (ret, k.withQueues .edf q) := by
  -- the check does not change the attributes
  have hsame : { k.task t with attr := (edfCheckSchedAttr tick (k.task t).attr).2 } = k.task t := by
    rw [edfCheckSchedAttr_attr]
  have henqueue := schedEnqueue.eq_def tick fuel ncpus k t
  rw [hsched] at henqueue
  dsimp only [schedCheckAttr] at henqueue
  rw [hsame, Kernel.setTask_same] at henqueue
  exact henqueue

theorem schedEnqueue_rr (hsched : (k.task t).sched = some .rr) :
    schedEnqueue tick fuel ncpus k t =
      (let k₁ := k.setTask t { k.task t with attr := (rrCheckSchedAttr (k.task t).attr).2 }
      if (rrCheckSchedAttr (k.task t).attr).1 ≠ 0 then
        .ok ((rrCheckSchedAttr (k.task t).attr).1, k₁)
      else .ok ((rrEnqueue (k₁.queues .rr) t).1,
        k₁.withQueues .rr (rrEnqueue (k₁.queues .rr) t).2)) := by
  rw [schedEnqueue, hsched]
  rfl

theorem schedWake_edf (hsched : (k.task t).sched = some .edf) :
    schedWake tick k t now =
      match edfWake tick (k.queues .edf) t now with
      | .error e => .error e
      | .ok (ret, q) => .ok (ret, k.withQueues .edf q) := by
  have hwake := schedWake.eq_def tick k t now
  rw [hsched] at hwake
  exact hwake

theorem schedWake_rr (hsched : (k.task t).sched = some .rr) :
    schedWake tick k t now = .ok ((rrWake tick (k.queues .rr) t now).1,
      k.withQueues .rr (rrWake tick (k.queues .rr) t now).2) := by
  rw [schedWake, hsched]

theorem Kernel.withQueues_queues (k : Kernel) (p : SchedPolicy) (q : Queues) :
    (k.withQueues p q).queues p = q := by
  simp [Kernel.queues, Kernel.withQueues]

theorem Kernel.withQueues_withQueues (k : Kernel) (p : SchedPolicy) (q q' : Queues) :
    (k.withQueues p q).withQueues p q' = k.withQueues p q' := by
  simp [Kernel.withQueues]

/-- What is left of `kthread_wake_up` for a new task. -/
theorem kthreadWakeUp_new (hnew : (k.task t).state = .new) :
    kthreadWakeUp tick fuel ncpus k (some t) now =
      match schedEnqueue tick fuel ncpus k t with
      | .error e => .error e
      | .ok (ret, k) =>
        if ret ≠ 0 then .ok (ret, k)
        else
          match schedWake tick k t now with
          | .error e => .error e
          | .ok (_, k) => .ok (0, k.setTask t { k.task t with wakeupFirst := now }) := by
  have hwake := kthreadWakeUp.eq_def tick fuel ncpus k (some t) now
  dsimp only at hwake
  rw [if_neg (not_not.mpr hnew)] at hwake
  exact hwake

/-- The queues of a scheduler are put back, with the new task changed and maybe linked. -/
theorem AttrInv.withQueues (h : AttrInv tick k) {p : SchedPolicy} {q : Queues}
    (hfree : ∀ p, ¬ Linked k p t) (hother : ∀ u, u ≠ t → q.task u = k.task u)
    (hholds : ∀ u, u ≠ t → q.Holds u → Linked k p u)
    (ht : q.Holds t → (q.task t).sched = some p ∧ (schedCheckAttr tick p (q.task t).attr).1 = 0 ∧
      (q.task t).state ≠ .new) : AttrInv tick (k.withQueues p q) := by
  refine h.change (t := t) hother (fun r u hu hl => ?_) fun r hl => ?_
  · rw [linked_withQueues] at hl
    split at hl
    case isTrue hr => exact hr ▸ hholds u hu hl
    case isFalse => exact hl
  · rw [linked_withQueues] at hl
    split at hl
    case isTrue hr =>
      subst hr
      exact ht hl
    case isFalse => exact absurd hl (hfree r)

/-- **A new task of the earliest deadline first scheduler** is woken. -/
theorem AttrInv.wakeUp_edf (h : AttrInv tick k) (hnew : (k.task t).state = .new)
    (hsched : (k.task t).sched = some .edf) (hok : WakeUpOk tick fuel ncpus k (some t))
    (hcall : kthreadWakeUp tick fuel ncpus k (some t) now = .ok (r, k')) : AttrInv tick k' := by
  have hfree : ∀ p, ¬ Linked k p t := fun p hl => (h p t hl).2.2 hnew
  rw [kthreadWakeUp_new hnew, schedEnqueue_edf hsched] at hcall
  by_cases hcheck : (edfCheckSchedAttr tick (k.task t).attr).1 = 0
  case neg =>
    rw [if_pos hcheck] at hcall
    dsimp only at hcall
    rw [if_pos hcheck] at hcall
    cases hcall
    exact h
  rw [if_neg (not_not.mpr hcheck)] at hcall
  rcases hq : edfEnqueue ktimeWrap fuel ncpus (k.queues .edf) t with e | ⟨ret, q⟩
  · rw [hq] at hcall
    cases hcall
  rw [hq] at hcall
  dsimp only at hcall
  rcases edfEnqueue_ok hq with ⟨hret, rfl⟩ | ⟨rfl, cpu, hcpu, hq'⟩
  · -- no CPU has been found
    rw [if_pos hret] at hcall
    cases hcall
    exact h.withQueues hfree (fun u hu => Queues.setTask_task_other (k.queues .edf) _ hu)
      (fun u _ hl => hl) fun hl => absurd hl (hfree .edf)
  · -- the task has a period, and is on the wake queue of the CPU
    rw [if_neg (by simp)] at hcall
    have hperiod : (k.task t).attr.period ≠ 0 := fun h0 => hok hnew hsched h0 hcheck cpu hcpu
    have htask : q.task t = { edfSetPeriod (k.task t) with onCpu := some cpu } := by
      rw [hq']
      simp [Kernel.queues]
    have hattr : (q.task t).attr = (k.task t).attr := by
      rw [htask]
      exact edfSetPeriod_attr hperiod
    have hsched' : (q.task t).sched = some .edf := by
      rw [htask]
      exact (edfSetPeriod_sched _).trans hsched
    have hwake : t ∈ (q.tq cpu).wake := by
      rw [hq']
      simp
    rw [schedWake_edf (k := k.withQueues .edf q) hsched', Kernel.withQueues_queues] at hcall
    rcases hw : edfWake tick q t now with e | ⟨ret', q₂⟩
    · rw [hw] at hcall
      cases hcall
    rw [hw] at hcall
    cases hcall
    rw [Kernel.withQueues_withQueues]
    obtain ⟨hother, hattr₂, hsched₂, hstate₂, hholds₂⟩ :=
      edfWake_ok (by rw [hattr]; exact edfCheckSchedAttr_policy hcheck) (by rw [htask]) hwake hw
    have hwoken : AttrInv tick (k.withQueues .edf q₂) := by
      refine h.withQueues hfree (fun u hu => ?_) (fun u hu hl => ?_) fun _ => ⟨?_, ?_, ?_⟩
      · rw [hother u hu, hq']
        simp [Queues.setTask, Kernel.queues, hu]
      · have hl' := hholds₂ u hl
        rw [hq'] at hl'
        exact holds_wake hl' hu
      · rw [hsched₂, hsched']
      · rw [hattr₂, hattr]
        exact hcheck
      · rw [hstate₂]
        simp
    exact hwoken.kept (KernelKept.setTask ⟨rfl, rfl, id⟩)

/-- **A new task of the round robin scheduler** is woken. -/
theorem AttrInv.wakeUp_rr (h : AttrInv tick k) (hnew : (k.task t).state = .new)
    (hsched : (k.task t).sched = some .rr)
    (hcall : kthreadWakeUp tick fuel ncpus k (some t) now = .ok (r, k')) : AttrInv tick k' := by
  have hfree : ∀ p, ¬ Linked k p t := fun p hl => (h p t hl).2.2 hnew
  rw [kthreadWakeUp_new hnew, schedEnqueue_rr hsched] at hcall
  -- the task with its attributes adjusted
  have hadjusted : AttrInv tick
      (k.setTask t { k.task t with attr := (rrCheckSchedAttr (k.task t).attr).2 }) :=
    h.change (fun u hu => Kernel.setTask_task_other k _ hu) (fun _ _ _ => id)
      fun p hl => absurd hl (hfree p)
  generalize hk₁ : k.setTask t { k.task t with attr := (rrCheckSchedAttr (k.task t).attr).2 } = k₁
    at hcall hadjusted
  dsimp only at hcall
  by_cases hcheck : (rrCheckSchedAttr (k.task t).attr).1 = 0
  case neg =>
    rw [if_pos hcheck] at hcall
    dsimp only at hcall
    rw [if_pos hcheck] at hcall
    cases hcall
    exact hadjusted
  rw [if_neg (not_not.mpr hcheck)] at hcall
  have htask : k₁.task t = { k.task t with attr := (rrCheckSchedAttr (k.task t).attr).2 } := by
    rw [← hk₁, Kernel.setTask_task_self]
  have hfree₁ : ∀ p, ¬ Linked k₁ p t := by
    rw [← hk₁]
    exact hfree
  have henqueued : (rrEnqueue (k₁.queues .rr) t).2 =
      (k₁.queues .rr).setTq 0
        { (k₁.queues .rr).tq 0 with wake := ((k₁.queues .rr).tq 0).wake ++ [t] } := rfl
  generalize hq : (rrEnqueue (k₁.queues .rr) t).2 = q at hcall henqueued
  have hqtask : q.task = k₁.task := by
    rw [henqueued]
    rfl
  have hqsched : (q.task t).sched = some .rr := by
    rw [hqtask, htask]
    exact hsched
  have hpolicy : (q.task t).attr.policy = .rr := by
    rw [hqtask, htask]
    exact rrCheckSchedAttr_policy hcheck
  have hwake : t ∈ (q.tq 0).wake := by
    rw [henqueued, Queues.setTq_tq_self]
    simp
  dsimp only at hcall
  rw [if_neg (show ¬ (rrEnqueue (k₁.queues .rr) t).1 ≠ 0 by simp [rrEnqueue]),
    schedWake_rr (k := k₁.withQueues .rr q) hqsched, Kernel.withQueues_queues] at hcall
  dsimp only at hcall
  cases hcall
  rw [Kernel.withQueues_withQueues]
  obtain ⟨hother, hpolicy₂, hsched₂, hstate₂, hholds₂⟩ :=
    @rrWake_ok tick now q t hpolicy hwake
  have hwoken : AttrInv tick (k₁.withQueues .rr (rrWake tick q t now).2) := by
    refine hadjusted.withQueues hfree₁ (fun u hu => ?_) (fun u hu hl => ?_) fun _ => ⟨?_, ?_, ?_⟩
    · rw [hother u hu, hqtask]
    · have hl' : (((k₁.queues .rr).setTask t (k₁.task t)).setTq 0
          { (k₁.queues .rr).tq 0 with wake := ((k₁.queues .rr).tq 0).wake ++ [t] }).Holds u := by
        have hq' := hholds₂ u hl
        rw [henqueued] at hq'
        simpa [Queues.setTask, Kernel.queues] using hq'
      exact holds_wake hl' hu
    · rw [hsched₂, hqsched]
    · exact rrCheckSchedAttr_of_policy hpolicy₂
    · rw [hstate₂]
      simp
  exact hwoken.kept (KernelKept.setTask ⟨rfl, rfl, id⟩)

/-- **`kthread_wake_up`** keeps the invariant. -/
theorem AttrInv.wakeUp (h : AttrInv tick k) {task : Option Nat} (hok : WakeUpOk tick fuel ncpus k task)
    (hcall : kthreadWakeUp tick fuel ncpus k task now = .ok (r, k')) : AttrInv tick k' := by
  match task, hok, hcall with
  | none, _, hcall =>
    cases hcall
    exact h
  | some t, hok, hcall =>
    by_cases hnew : (k.task t).state = .new
    case neg =>
      rw [kthreadWakeUp, if_pos hnew] at hcall
      cases hcall
      exact h
    match hsched : (k.task t).sched with
    | some .edf => exact h.wakeUp_edf hnew hsched hok hcall
    | some .rr => exact h.wakeUp_rr hnew hsched hcall
    | none =>
      have henqueue : schedEnqueue tick fuel ncpus k t = .ok (-EINVAL, k) := by
        rw [schedEnqueue, hsched]
      rw [kthreadWakeUp_new hnew, henqueue] at hcall
      cases hcall
      exact h
    | some .other =>
      -- no scheduler has this policy
      have henqueue : schedEnqueue tick fuel ncpus k t = .ok (-EINVAL, k) := by
        rw [schedEnqueue, hsched]
        simp [schedCheckAttr, EINVAL, Kernel.setTask]
      rw [kthreadWakeUp_new hnew, henqueue] at hcall
      cases hcall
      exact h

end WakeUp

/-! ## 5. Every run -/

/-- A call of the interface. -/
inductive AttrOp where
  | setAttr (task : Option Nat) (attr : Option SchedAttr)
  | wakeUp (task : Option Nat) (now : Int)
  | schedule (cpu : Nat) (nows : List Int)

section Run

variable (tick : Int) (ncpus : Nat)

/-- The state after a call. -/
def AttrOp.step (fuel : Nat) (k : Kernel) : AttrOp → Except SchedError Kernel
  | .setAttr task attr => (schedSetAttr tick k task attr).map Prod.snd
  | .wakeUp task now => (kthreadWakeUp tick fuel ncpus k task now).map Prod.snd
  | .schedule cpu nows =>
    (FlightOs.schedule tick fuel kernelSchedulers k cpu nows).map Prod.snd

/-- **When a call is harmless**; `schedule` always is. -/
def AttrOpOk (fuel : Nat) (k : Kernel) : AttrOp → Prop
  | .setAttr task attr => SetAttrOk tick k task attr
  | .wakeUp task _ => WakeUpOk tick fuel ncpus k task
  | .schedule _ _ => True

/-- The states reached by harmless calls. -/
inductive AttrReach (k₀ : Kernel) : Kernel → Prop
  | start : AttrReach k₀ k₀
  | call {fuel : Nat} {k k' : Kernel} {op : AttrOp} : AttrReach k₀ k →
    AttrOpOk tick ncpus fuel k op → op.step tick ncpus fuel k = .ok k' → AttrReach k₀ k'

end Run

/-- The state after the boot: nothing is queued, other than what `kthread_init_main` puts into the
run queue of the round robin scheduler. -/
def AttrBoot (k : Kernel) : Prop :=
  ∀ p t, Linked k p t → p = .rr ∧ (k.task t).sched = some .rr ∧ (k.task t).attr.policy = .rr ∧
    (k.task t).state = .run

/-- A queued task has the scheduler of the queue selected, and its attributes pass the check. -/
def AttrsAdmissible (tick : Int) (k : Kernel) : Prop :=
  ∀ p t, Linked k p t →
    (k.task t).sched = some p ∧ (schedCheckAttr tick p (k.task t).attr).1 = 0

/-- `sched_set_attr` returns, and if it fails, it leaves the attributes and the scheduler of every
task as they were. -/
def SetAttrAtomic (tick : Int) (k : Kernel) (task : Option Nat) (attr : Option SchedAttr) : Prop :=
  ∃ r k', schedSetAttr tick k task attr = .ok (r, k') ∧
    (r ≠ 0 → ∀ t, (k'.task t).attr = (k.task t).attr ∧ (k'.task t).sched = (k.task t).sched)

section Reach

variable {tick : Int} {fuel ncpus : Nat} {k₀ k k' : Kernel}

theorem AttrBoot.inv (h : AttrBoot k) : AttrInv tick k := by
  intro p t ht
  obtain ⟨rfl, hsched, hpolicy, hrun⟩ := h p t ht
  refine ⟨hsched, rrCheckSchedAttr_of_policy hpolicy, ?_⟩
  rw [hrun]
  decide

/-- A result without the value that is returned. -/
theorem ok_of_map_snd {α : Type} {x : Except SchedError (α × Kernel)}
    (h : x.map Prod.snd = .ok k) : ∃ r, x = .ok (r, k) := by
  match x, h with
  | .ok (r, _), h =>
    cases h
    exact ⟨r, rfl⟩

/-- **One call.** -/
theorem AttrInv.call (h : AttrInv tick k) {op : AttrOp} (hok : AttrOpOk tick ncpus fuel k op)
    (hstep : op.step tick ncpus fuel k = .ok k') : AttrInv tick k' := by
  cases op with
  | setAttr task attr =>
    obtain ⟨r, hcall⟩ := ok_of_map_snd hstep
    exact h.setAttr hok hcall
  | wakeUp task now =>
    obtain ⟨r, hcall⟩ := ok_of_map_snd hstep
    exact h.wakeUp hok hcall
  | schedule cpu nows =>
    obtain ⟨out, hcall⟩ := ok_of_map_snd hstep
    exact h.kept (schedule_kept hcall)

theorem AttrReach.inv (h₀ : AttrInv tick k₀) (h : AttrReach tick ncpus k₀ k) : AttrInv tick k := by
  induction h with
  | start => exact h₀
  | call _ hok hstep ih => exact ih.call hok hstep

end Reach

/-- **Queued tasks keep admissible attributes** in every run of harmless calls, and the calls of
`sched_set_attr` among them change nothing if they fail. -/
theorem sched_attr_admissible (tick : Int) (ncpus : Nat) (k₀ k : Kernel) (hboot : AttrBoot k₀)
    (hreach : AttrReach tick ncpus k₀ k) :
    AttrsAdmissible tick k ∧
      ∀ task attr, SetAttrOk tick k task attr → SetAttrAtomic tick k task attr := by
  have hinv : AttrInv tick k := hreach.inv hboot.inv
  refine ⟨fun p t ht => ?_, fun task attr hok => ?_⟩
  · obtain ⟨hsched, hcheck, _⟩ := hinv p t ht
    exact ⟨hsched, hcheck⟩
  · obtain ⟨r, k', hcall, hsame⟩ := hok.fails
    refine ⟨r, k', hcall, fun hr t => ?_⟩
    rw [hsame hr]
    exact ⟨rfl, rfl⟩

/-- A kernel with a new task, and nothing queued. -/
def kernelNew : Kernel where
  task _ := { rrTaskOf .new (some 0) 0 0 with sched := none }
  tq _ _ := ⟨[], [], [], []⟩
  freed := []
  current _ := some 0
  enabled _ := true

theorem kernelNew_boot : AttrBoot kernelNew := by
  rintro p t ⟨cpu, h⟩
  exact absurd h (by simp [Kernel.queues, kernelNew])

/-- What the task is given. -/
def attrRr : SchedAttr := ⟨.rr, 1, 0, 16, 0⟩

theorem sched_attr_admissible_rr : ∃ k₁ k₂ k₃,
    (AttrOp.setAttr (some 0) (some attrRr)).step 1 1 9 kernelNew = .ok k₁ ∧
      (AttrOp.wakeUp (some 0) 5).step 1 1 9 k₁ = .ok k₂ ∧
      (AttrOp.schedule 0 [5, 5]).step 1 1 9 k₂ = .ok k₃ ∧ Linked k₃ .rr 0 ∧
      AttrsAdmissible 1 k₃ ∧
      ∀ task attr, SetAttrOk 1 k₃ task attr → SetAttrAtomic 1 k₃ task attr := by
  refine ⟨_, _, _, rfl, rfl, rfl, ⟨0, .inr (.inl (by decide))⟩,
    sched_attr_admissible 1 1 kernelNew _ kernelNew_boot
      (@AttrReach.call 1 1 kernelNew 9 _ _ (.schedule 0 [5, 5])
        (@AttrReach.call 1 1 kernelNew 9 _ _ (.wakeUp (some 0) 5)
          (@AttrReach.call 1 1 kernelNew 9 _ _ (.setAttr (some 0) (some attrRr)) .start ?_ rfl)
          ?_ rfl) trivial rfl)⟩
  · exact fun p hl => absurd (kernelNew_boot p 0 hl).1 (by
      obtain ⟨cpu, h⟩ := hl
      exact absurd h (by simp [Kernel.queues, kernelNew]))
  · exact fun _ hsched => absurd hsched (by decide)

/-- **A queued task loses its scheduler** to a call with a policy no scheduler has; without a task,
the call writes through the `NULL` it is given. -/
theorem sched_attr_forgotten : AttrBoot kernelNew ∧ ∃ k₁ k₂ k₃,
    schedSetAttr 1 kernelNew (some 0) (some attrRr) = .ok (0, k₁) ∧
      kthreadWakeUp 1 9 1 k₁ (some 0) 5 = .ok (0, k₂) ∧
      schedSetAttr 1 k₂ (some 0) (some { attrRr with policy := .other }) = .ok (-EINVAL, k₃) ∧
      Linked k₃ .rr 0 ∧ (k₂.task 0).sched = some .rr ∧ (k₃.task 0).sched = none ∧
      ¬ AttrsAdmissible 1 k₃ ∧ schedSetAttr 1 k₃ none (some attrRr) = .error .null := by
  refine ⟨kernelNew_boot, _, _, _, rfl, rfl, rfl, ⟨0, .inr (.inl (by decide))⟩, rfl, rfl,
    fun h => ?_, rfl⟩
  exact absurd (h .rr 0 ⟨0, .inr (.inl (by decide))⟩).1 (by decide)

end FlightOs
