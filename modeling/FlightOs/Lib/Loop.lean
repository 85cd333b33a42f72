/-
# Loops that may not end

A loop repeats a round until the round ends it, or fails.  `loop` runs it with fuel; a loop that
does not end is one that runs out of fuel whatever the fuel.

* `loop_next`, `loop_done`: one round at a time, for proofs by induction on the fuel.
* `loop_unique`: how a loop ends does not depend on the fuel.
* `loop_diverges`: the rule for a loop whose rounds keep an invariant and never end.
* `loop_total`: the rule for a loop with an invariant and a variant, which ends.
* `loop_partial`: the rule for a loop that has ended, when every round it took met a condition
  (`AllRounds`).
-/
import Mathlib.Tactic.Common

namespace FlightOs

/-- What a round leads to: the next one, or the end. -/
inductive Round (σ α : Type)
  | next (s : σ)
  | done (a : α)

section Loop

variable {ε σ α : Type} {out : ε} {round : σ → Except ε (Round σ α)}

/-- At most `n` rounds, with the error `out` when they do not suffice. -/
def loop (out : ε) (round : σ → Except ε (Round σ α)) : Nat → σ → Except ε α
  | 0, _ => .error out
  | n + 1, s =>
    match round s with
    | .error e => .error e
    | .ok (.done a) => .ok a
    | .ok (.next s') => loop out round n s'

theorem loop_next {s s' : σ} (h : round s = .ok (.next s')) (n : Nat) :
    loop out round (n + 1) s = loop out round n s' := by
  rw [loop, h]

theorem loop_done {s : σ} {a : α} (h : round s = .ok (.done a)) (n : Nat) :
    loop out round (n + 1) s = .ok a := by
  rw [loop, h]

/-- More fuel changes nothing once the loop has ended. -/
theorem loop_mono : ∀ {n : Nat} {s : σ} {a : α}, loop out round n s = .ok a →
    ∀ k, loop out round (n + k) s = .ok a
  | 0, _, _, h, _ => by cases h
  | n + 1, s, a, h, k => by
    rw [Nat.succ_add]
    match hr : round s with
    | .error e =>
      rw [loop, hr] at h
      cases h
    | .ok (.done b) =>
      rw [loop_done hr] at h ⊢
      exact h
    | .ok (.next s') =>
      rw [loop_next hr] at h ⊢
      exact loop_mono h k

/-- A loop ends in one way only. -/
theorem loop_unique {n m : Nat} {s : σ} {a b : α} (ha : loop out round n s = .ok a)
    (hb : loop out round m s = .ok b) : a = b := by
  have h1 := loop_mono ha m
  have h2 := loop_mono hb n
  rw [Nat.add_comm, h1] at h2
  exact Except.ok.inj h2

/-- A loop whose rounds all lead to another one does not end. -/
theorem loop_diverges {I : σ → Prop}
    (hround : ∀ s, I s → ∃ s', round s = .ok (.next s') ∧ I s') :
    ∀ {n : Nat} {s : σ}, I s → loop out round n s = .error out
  | 0, _, _ => rfl
  | n + 1, s, hI => by
    obtain ⟨s', hs', hI'⟩ := hround s hI
    rw [loop_next hs']
    exact loop_diverges hround hI'

/-- A loop with an invariant and a variant ends. -/
theorem loop_total {I : σ → Prop} {Q : α → Prop} (variant : σ → Nat)
    (hround : ∀ s, I s → (∃ s', round s = .ok (.next s') ∧ I s' ∧ variant s' < variant s) ∨
      ∃ a, round s = .ok (.done a) ∧ Q a) :
    ∀ {n : Nat} {s : σ}, I s → variant s < n → ∃ a, loop out round n s = .ok a ∧ Q a
  | 0, _, _, hlt => absurd hlt (Nat.not_lt_zero _)
  | n + 1, s, hI, hlt => by
    rcases hround s hI with ⟨s', hs', hI', hvar⟩ | ⟨a, ha, hQ⟩
    · rw [loop_next hs']
      exact loop_total variant hround hI' (Nat.lt_of_lt_of_le hvar (Nat.le_of_lt_succ hlt))
    · exact ⟨a, loop_done ha n, hQ⟩

/-- The first `n` rounds all start in a state that meets the condition. -/
def AllRounds (round : σ → Except ε (Round σ α)) (ok : σ → Prop) : Nat → σ → Prop
  | 0, _ => True
  | n + 1, s => ok s ∧
    match round s with
    | .ok (.next s') => AllRounds round ok n s'
    | _ => True

instance decidableAllRounds (round : σ → Except ε (Round σ α)) (ok : σ → Prop)
    [DecidablePred ok] : ∀ n s, Decidable (AllRounds round ok n s)
  | 0, _ => isTrue trivial
  | n + 1, s =>
    match h : round s with
    | .ok (.next s') =>
      have := decidableAllRounds round ok n s'
      decidable_of_iff (ok s ∧ AllRounds round ok n s') (by simp [AllRounds, h])
    | .ok (.done _) => decidable_of_iff (ok s) (by simp [AllRounds, h])
    | .error _ => decidable_of_iff (ok s) (by simp [AllRounds, h])

/-- What holds at the end of a loop whose rounds met the condition. -/
theorem loop_partial {I : σ → Prop} {Q : α → Prop} {ok : σ → Prop}
    (hnext : ∀ s s', I s → ok s → round s = .ok (.next s') → I s')
    (hdone : ∀ s a, I s → ok s → round s = .ok (.done a) → Q a) :
    ∀ {n : Nat} {s : σ} {a : α}, I s → AllRounds round ok n s → loop out round n s = .ok a → Q a
  | 0, _, _, _, _, h => by cases h
  | n + 1, s, a, hI, hall, h => by
    obtain ⟨hok, hrest⟩ := hall
    match hr : round s with
    | .error e =>
      rw [loop, hr] at h
      cases h
    | .ok (.done b) =>
      rw [loop_done hr] at h
      exact Except.ok.inj h ▸ hdone s b hI hok hr
    | .ok (.next s') =>
      rw [loop_next hr] at h
      rw [hr] at hrest
      exact loop_partial hnext hdone (hnext s s' hI hok hr) hrest h

/-- What holds at the end of a loop, if it ends. -/
theorem loop_post {I : σ → Prop} {Q : α → Prop}
    (hnext : ∀ s s', I s → round s = .ok (.next s') → I s')
    (hdone : ∀ s a, I s → round s = .ok (.done a) → Q a) :
    ∀ {n : Nat} {s : σ} {a : α}, I s → loop out round n s = .ok a → Q a
  | 0, _, _, _, h => by cases h
  | n + 1, s, a, hI, h => by
    match hr : round s with
    | .error e =>
      rw [loop, hr] at h
      cases h
    | .ok (.done b) =>
      rw [loop_done hr] at h
      exact Except.ok.inj h ▸ hdone s b hI hr
    | .ok (.next s') =>
      rw [loop_next hr] at h
      exact loop_post hnext hdone (hnext s s' hI hr) h

end Loop

end FlightOs
