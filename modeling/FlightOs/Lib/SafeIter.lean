/-
# Iterating over a list whose entries move

A safe iterator fetches the entry after the current one before the body of the loop runs, so
that the body may take the current entry off the list, or link it again at either end.  The
list is kept in two parts: the entries the iterator has passed, and the rest, which starts with
the entry it stands at.  An entry moved to the tail joins the rest and will be met again; only
when it is the last one has the iterator already fetched the end of the list, and the loop is
over.

* `Relink.after`: where the entries stand when the body is through with one.
* `safeFor`: the loop, with fuel, since a body that always moves its entry to the tail never
  gets to the end.
* `safeFor_rule`: an invariant and a variant give that the loop ends, and what holds there.
* `safeFor_drain`: a loop that takes off everything.
-/
import Mathlib.Tactic.Common
import Mathlib.Data.List.Perm.Basic

namespace FlightOs

/-- What the body does with the entry it stands at. -/
inductive Relink
  | stay
  | head
  | tail
  | out
  deriving DecidableEq, Repr

/-- What the body leaves: its state, the entry's new place, and whether it breaks off. -/
structure Turn (σ : Type) where
  state : σ
  link : Relink
  stop : Bool

section SafeIter

variable {σ α : Type}

/-- The passed entries and the rest after the turn of `t`. -/
def Relink.after : Relink → List α → α → List α → List α × List α
  | .stay, P, t, R => (P ++ [t], R)
  | .head, P, t, R => (t :: P, R)
  | .tail, P, t, [] => (P ++ [t], [])
  | .tail, P, t, r :: R => (P, r :: R ++ [t])
  | .out, P, _, R => (P, R)

theorem Relink.after_perm {l : Relink} (h : l ≠ .out) (P : List α) (t : α) (R : List α) :
    ((l.after P t R).1 ++ (l.after P t R).2).Perm (P ++ t :: R) := by
  match l, R with
  | .stay, R => simp [Relink.after]
  | .head, R => exact List.perm_middle.symm
  | .tail, [] => simp [Relink.after]
  | .tail, r :: R =>
    refine List.Perm.append_left P ?_
    exact List.perm_append_comm
  | .out, _ => exact absurd rfl h

@[simp] theorem Relink.after_out (P : List α) (t : α) (R : List α) :
    Relink.out.after P t R = (P, R) := rfl

@[simp] theorem Relink.after_stay (P : List α) (t : α) (R : List α) :
    Relink.stay.after P t R = (P ++ [t], R) := rfl

@[simp] theorem Relink.after_head (P : List α) (t : α) (R : List α) :
    Relink.head.after P t R = (t :: P, R) := rfl

/-- Nothing new comes up in the turn of an entry. -/
theorem Relink.after_subset (l : Relink) (P : List α) (t : α) (R : List α) :
    (l.after P t R).1 ++ (l.after P t R).2 ⊆ P ++ t :: R := by
  by_cases h : l = .out
  · subst h
    intro x hx
    simp only [Relink.after_out, List.mem_append] at hx
    simp only [List.mem_append, List.mem_cons]
    tauto
  · exact (Relink.after_perm h P t R).subset

/-- The loop over `P ++ R`, of which `P` has been passed; the last entry leaves its queue. -/
def safeFor (body : σ → List α → α → List α → Turn σ) :
    Nat → σ → List α → List α → Option (σ × List α)
  | 0, _, _, _ => none
  | _ + 1, s, P, [] => some (s, P)
  | n + 1, s, P, t :: R =>
    let turn := body s P t R
    let queue := turn.link.after P t R
    if turn.stop then some (turn.state, queue.1 ++ queue.2)
    else safeFor body n turn.state queue.1 queue.2

variable {body : σ → List α → α → List α → Turn σ}

@[simp] theorem safeFor_nil (n : Nat) (s : σ) (P : List α) :
    safeFor body (n + 1) s P [] = some (s, P) := rfl

theorem safeFor_stop {s : σ} {P R : List α} {t : α} (h : (body s P t R).stop = true) (n : Nat) :
    safeFor body (n + 1) s P (t :: R) =
      some ((body s P t R).state,
        ((body s P t R).link.after P t R).1 ++ ((body s P t R).link.after P t R).2) := by
  simp only [safeFor, h, if_true]

theorem safeFor_next {s : σ} {P R : List α} {t : α} (h : (body s P t R).stop = false) (n : Nat) :
    safeFor body (n + 1) s P (t :: R) =
      safeFor body n (body s P t R).state ((body s P t R).link.after P t R).1
        ((body s P t R).link.after P t R).2 := by
  simp only [safeFor, h, Bool.false_eq_true, if_false]

/-- **The rule for a safe iterator.**  `I` holds whenever the iterator fetches an entry, `Q` when
the loop is over, and each turn that goes on brings the variant down. -/
theorem safeFor_rule {I : σ → List α → List α → Prop} {Q : σ → List α → Prop}
    (variant : σ → List α → Nat) (hnil : ∀ s P, I s P [] → Q s P)
    (hstop : ∀ s P t R, I s P (t :: R) → (body s P t R).stop = true →
      Q (body s P t R).state
        (((body s P t R).link.after P t R).1 ++ ((body s P t R).link.after P t R).2))
    (hnext : ∀ s P t R, I s P (t :: R) → (body s P t R).stop = false →
      I (body s P t R).state ((body s P t R).link.after P t R).1
          ((body s P t R).link.after P t R).2 ∧
        variant (body s P t R).state ((body s P t R).link.after P t R).2 < variant s (t :: R)) :
    ∀ {n : Nat} {s : σ} {P R : List α}, I s P R → variant s R < n →
      ∃ r, safeFor body n s P R = some r ∧ Q r.1 r.2 := by
  intro n
  induction n with
  | zero => intro s P R _ hlt; exact absurd hlt (Nat.not_lt_zero _)
  | succ n ih =>
    intro s P R hI hlt
    match R with
    | [] => exact ⟨(s, P), rfl, hnil s P hI⟩
    | t :: R =>
      match hs : (body s P t R).stop with
      | true => exact ⟨_, safeFor_stop hs n, hstop s P t R hI hs⟩
      | false =>
        obtain ⟨hI', hvar⟩ := hnext s P t R hI hs
        rw [safeFor_next hs]
        exact ih hI' (Nat.lt_of_lt_of_le hvar (Nat.le_of_lt_succ hlt))

/-- What holds of the passed entries and of the rest, when the turn of `t` keeps it so. -/
theorem Relink.after_forall {D T : α → Prop} {l : Relink} {P R : List α} {t : α}
    (hP : ∀ u ∈ P, D u) (hR : ∀ u ∈ R, T u) (ht : l ≠ .out → D t) (htail : l = .tail → T t) :
    (∀ u ∈ (l.after P t R).1, D u) ∧ ∀ u ∈ (l.after P t R).2, T u := by
  match l, R with
  | .stay, R =>
    refine ⟨fun u hu => ?_, hR⟩
    rcases List.mem_append.mp hu with h | h
    · exact hP u h
    · exact List.mem_singleton.mp h ▸ ht (by simp)
  | .head, R =>
    refine ⟨fun u hu => ?_, hR⟩
    rcases List.mem_cons.mp hu with h | h
    · exact h ▸ ht (by simp)
    · exact hP u h
  | .tail, [] =>
    refine ⟨fun u hu => ?_, hR⟩
    rcases List.mem_append.mp hu with h | h
    · exact hP u h
    · exact List.mem_singleton.mp h ▸ ht (by simp)
  | .tail, r :: R =>
    refine ⟨hP, fun u hu => ?_⟩
    rcases List.mem_append.mp hu with h | h
    · exact hR u h
    · exact List.mem_singleton.mp h ▸ htail rfl
  | .out, R => exact ⟨hP, hR⟩

theorem Relink.after_nodup (l : Relink) {P R : List α} {t : α} (h : (P ++ t :: R).Nodup) :
    ((l.after P t R).1 ++ (l.after P t R).2).Nodup := by
  by_cases hl : l = .out
  · subst hl
    exact h.sublist ((List.sublist_cons_self t R).append_left P)
  · exact (Relink.after_perm hl P t R).nodup_iff.mpr h

/-- **The rule for a safe iterator that returns.**  As `safeFor_rule`, without a variant. -/
theorem safeFor_inv {I : σ → List α → List α → Prop} {Q : σ → List α → Prop}
    (hnil : ∀ s P, I s P [] → Q s P)
    (hstop : ∀ s P t R, I s P (t :: R) → (body s P t R).stop = true →
      Q (body s P t R).state
        (((body s P t R).link.after P t R).1 ++ ((body s P t R).link.after P t R).2))
    (hnext : ∀ s P t R, I s P (t :: R) → (body s P t R).stop = false →
      I (body s P t R).state ((body s P t R).link.after P t R).1
        ((body s P t R).link.after P t R).2) :
    ∀ {n : Nat} {s : σ} {P R : List α} {r : σ × List α}, I s P R →
      safeFor body n s P R = some r → Q r.1 r.2
  | 0, _, _, _, _, _, h => by cases h
  | n + 1, s, P, [], r, hI, h => by
    cases h
    exact hnil s P hI
  | n + 1, s, P, t :: R, r, hI, h => by
    match hs : (body s P t R).stop with
    | true =>
      rw [safeFor_stop hs] at h
      cases h
      exact hstop s P t R hI hs
    | false =>
      rw [safeFor_next hs] at h
      exact safeFor_inv hnil hstop hnext (hnext s P t R hI hs) h

/-- More fuel changes nothing once the loop is over. -/
theorem safeFor_mono : ∀ {n : Nat} {s : σ} {P R : List α} {r : σ × List α},
    safeFor body n s P R = some r → ∀ k, safeFor body (n + k) s P R = some r
  | 0, _, _, _, _, h, _ => by cases h
  | n + 1, s, P, [], r, h, k => by
    rw [Nat.succ_add]
    exact h
  | n + 1, s, P, t :: R, r, h, k => by
    rw [Nat.succ_add]
    match hs : (body s P t R).stop with
    | true =>
      rw [safeFor_stop hs] at h ⊢
      exact h
    | false =>
      rw [safeFor_next hs] at h ⊢
      exact safeFor_mono h k

/-- A loop that takes every entry off the list. -/
theorem safeFor_drain {f : σ → α → σ} (h : ∀ s P t R, body s P t R = ⟨f s t, .out, false⟩) :
    ∀ {R : List α} {n : Nat} {s : σ} {P : List α}, R.length < n →
      safeFor body n s P R = some (R.foldl f s, P)
  | [], n + 1, s, P, _ => rfl
  | t :: R, n + 1, s, P, hlt => by
    rw [safeFor_next (by rw [h]), h, Relink.after_out]
    exact safeFor_drain h (Nat.lt_of_succ_lt_succ hlt)

end SafeIter

end FlightOs
