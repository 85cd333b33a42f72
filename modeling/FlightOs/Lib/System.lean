/-
# Systems and their runs

A system starts in one of its initial states and takes labelled steps.  `System.Reachable`
collects the states of all finite runs whose steps meet a condition `ok`, which may look at the
state before the step and at the label.  A property of every reachable state is proved once, by
`Reachable.invariant`: it holds at the start, and each allowed step keeps it.

Where the step is a total function of the state and the label, a run is a list of labels (`Along`,
`StepsMeet`): if exactly the steps that meet a condition keep a property, then it holds in every
state of a run if and only if every step of the run meets the condition (`along_iff_stepsMeet`).
Where the step is a partial function, a list of labels can be run (`stepAll`), and its end is
reachable if every step meets the condition when it is taken (`AllowedAll`, which can be decided).
-/
import Mathlib.Logic.Basic

namespace FlightOs

/-- Initial states, and what a step with a given label may lead to. -/
structure System (σ ο : Type) where
  init : σ → Prop
  step : σ → ο → σ → Prop

namespace System

variable {σ ο : Type} {S : System σ ο} {ok ok' : σ → ο → Prop}

/-- The states of the runs whose steps all meet `ok`. -/
inductive Reachable (S : System σ ο) (ok : σ → ο → Prop) : σ → Prop
  | init {s : σ} : S.init s → Reachable S ok s
  | step {s s' : σ} {o : ο} : Reachable S ok s → ok s o → S.step s o s' → Reachable S ok s'

/-- **The invariant rule.** -/
theorem Reachable.invariant {I : σ → Prop} (hinit : ∀ s, S.init s → I s)
    (hstep : ∀ s o s', I s → ok s o → S.step s o s' → I s') {s : σ} (h : S.Reachable ok s) :
    I s := by
  induction h with
  | init h => exact hinit _ h
  | step _ hok hs ih => exact hstep _ _ _ ih hok hs

/-- A run that meets a condition meets every weaker one, given what holds along it. -/
theorem Reachable.mono {I : σ → Prop} (hI : ∀ s, S.Reachable ok s → I s)
    (hok : ∀ s o, I s → ok s o → ok' s o) {s : σ} (h : S.Reachable ok s) :
    S.Reachable ok' s := by
  induction h with
  | init h => exact .init h
  | step hr ho hs ih => exact .step ih (hok _ _ (hI _ hr) ho) hs

/-- The system whose steps are those of a partial function. -/
def ofFun (init : σ → Prop) (f : σ → ο → Option σ) : System σ ο := ⟨init, fun s o s' => f s o = some s'⟩

/-- The end of a list of steps. -/
def stepAll (f : σ → ο → Option σ) : σ → List ο → Option σ
  | s, [] => some s
  | s, o :: os => (f s o).bind (fun s' => stepAll f s' os)

/-- Every step of a list meets the condition when it is taken. -/
def AllowedAll (f : σ → ο → Option σ) (ok : σ → ο → Prop) : σ → List ο → Prop
  | _, [] => True
  | s, o :: os => ok s o ∧ ∀ s' ∈ f s o, AllowedAll f ok s' os

instance decidableAllowedAll (f : σ → ο → Option σ) (ok : σ → ο → Prop)
    [∀ s o, Decidable (ok s o)] : ∀ s os, Decidable (AllowedAll f ok s os)
  | _, [] => isTrue trivial
  | s, o :: os =>
    match h : f s o with
    | none => decidable_of_iff (ok s o) (by simp [AllowedAll, h])
    | some s' =>
      have := decidableAllowedAll f ok s' os
      decidable_of_iff (ok s o ∧ AllowedAll f ok s' os) (by simp [AllowedAll, h])

/-- The end of a list of steps, each of which is one of the system. -/
theorem Reachable.stepAll_of {f : σ → ο → Option σ} (hf : ∀ s o s', f s o = some s' → S.step s o s') :
    ∀ (os : List ο) {s s' : σ}, S.Reachable ok s → AllowedAll f ok s os →
      System.stepAll f s os = some s' → S.Reachable ok s'
  | [], _, _, h, _, heq => Option.some.inj heq ▸ h
  | o :: os, s, s', h, hok, heq => by
    obtain ⟨s₁, h1, h2⟩ := Option.bind_eq_some_iff.mp heq
    exact Reachable.stepAll_of hf os (h.step hok.1 (hf _ _ _ h1)) (hok.2 s₁ h1) h2

theorem Reachable.stepAll {init : σ → Prop} {f : σ → ο → Option σ} (os : List ο) {s s' : σ} :
    (ofFun init f).Reachable ok s → AllowedAll f ok s os → System.stepAll f s os = some s' →
      (ofFun init f).Reachable ok s' :=
  Reachable.stepAll_of (fun _ _ _ h => h) os

/-- Two conditions that come to the same in the states of a run. -/
theorem allowedAll_iff {f : σ → ο → Option σ} {I : σ → Prop} (hiff : ∀ s o, I s → (ok s o ↔ ok' s o))
    (hstep : ∀ s o s', I s → f s o = some s' → I s') :
    ∀ (os : List ο) {s : σ}, I s → (AllowedAll f ok s os ↔ AllowedAll f ok' s os)
  | [], _, _ => Iff.rfl
  | o :: os, s, h =>
    and_congr (hiff s o h) (forall_congr' fun s' => forall_congr' fun hs' =>
      allowedAll_iff hiff hstep os (hstep s o s' h hs'))

end System

section Runs

variable {σ ο : Type} (f : σ → ο → σ)

/-- A property of every state of a run. -/
def Along (P : σ → Prop) : σ → List ο → Prop
  | s, [] => P s
  | s, o :: os => P s ∧ Along P (f s o) os

/-- Every step of a run meets a condition in the state it is taken in. -/
def StepsMeet (ok : σ → ο → Prop) : σ → List ο → Prop
  | _, [] => True
  | s, o :: os => ok s o ∧ StepsMeet ok (f s o) os

instance decidableAlong (P : σ → Prop) [DecidablePred P] : ∀ s os, Decidable (Along f P s os)
  | s, [] => inferInstanceAs (Decidable (P s))
  | s, o :: os =>
    have := decidableAlong P (f s o) os
    inferInstanceAs (Decidable (P s ∧ Along f P (f s o) os))

instance decidableStepsMeet (ok : σ → ο → Prop) [∀ s o, Decidable (ok s o)] :
    ∀ s os, Decidable (StepsMeet f ok s os)
  | _, [] => isTrue trivial
  | s, o :: os =>
    have := decidableStepsMeet ok (f s o) os
    inferInstanceAs (Decidable (ok s o ∧ StepsMeet f ok (f s o) os))

variable {f} {P I : σ → Prop} {ok : σ → ο → Prop}

theorem Along.start : ∀ {s : σ} {os : List ο}, Along f P s os → P s
  | _, [], h => h
  | _, _ :: _, h => h.1

theorem Along.stop : ∀ (os : List ο) {s : σ}, Along f P s os → P (os.foldl f s)
  | [], _, h => h
  | _ :: os, _, h => Along.stop os h.2

theorem Along.mono (h : ∀ s, I s → P s) : ∀ {s : σ} {os : List ο}, Along f I s os → Along f P s os
  | s, [], hs => h s hs
  | s, _ :: _, hs => ⟨h s hs.1, Along.mono h hs.2⟩

/-- What every step keeps holds along every run. -/
theorem Along.invariant (hstep : ∀ s o, I s → I (f s o)) :
    ∀ (os : List ο) {s : σ}, I s → Along f I s os
  | [], _, hI => hI
  | o :: os, s, hI => ⟨hI, Along.invariant hstep os (hstep s o hI)⟩

/-- What the steps that meet a condition keep holds along every run of such steps. -/
theorem StepsMeet.along (hstep : ∀ s o, I s → ok s o → I (f s o)) :
    ∀ (os : List ο) {s : σ}, I s → StepsMeet f ok s os → Along f I s os
  | [], _, hI, _ => hI
  | o :: os, s, hI, h => ⟨hI, StepsMeet.along hstep os (hstep s o hI h.1) h.2⟩

/-- Steps that meet a condition meet every weaker one, given what holds along them. -/
theorem StepsMeet.mono {ok' : σ → ο → Prop} (hok : ∀ s o, I s → ok s o → ok' s o)
    (hstep : ∀ s o, I s → ok s o → I (f s o)) :
    ∀ (os : List ο) {s : σ}, I s → StepsMeet f ok s os → StepsMeet f ok' s os
  | [], _, _, _ => trivial
  | o :: os, s, hI, h =>
    ⟨hok s o hI h.1, StepsMeet.mono hok hstep os (hstep s o hI h.1) h.2⟩

/-- **A property and the steps that keep it.** -/
theorem along_iff_stepsMeet (hI : ∀ s, I s → P s) (hiff : ∀ s o, I s → (P (f s o) ↔ ok s o))
    (hstep : ∀ s o, I s → ok s o → I (f s o)) :
    ∀ (os : List ο) {s : σ}, I s → (Along f P s os ↔ StepsMeet f ok s os)
  | [], s, h => ⟨fun _ => trivial, fun _ => hI s h⟩
  | o :: os, s, h => by
    constructor
    · rintro ⟨-, halong⟩
      have hok := (hiff s o h).mp halong.start
      exact ⟨hok, (along_iff_stepsMeet hI hiff hstep os (hstep s o h hok)).mp halong⟩
    · rintro ⟨hok, hmeet⟩
      exact ⟨hI s h, (along_iff_stepsMeet hI hiff hstep os (hstep s o h hok)).mpr hmeet⟩

end Runs

end FlightOs
