/-
# Going through a ring whose entries are moved away

`list_for_each_entry_safe` over a memory of links: the pointer to the entry after the current one
is read before the body runs, so that the body may take the current entry to another ring.  The
loop is over when it is back at the anchor, or when the body breaks off.

* `ringFor`: the loop, with fuel, since on a damaged ring it need not come back.
* `ringFor_rule`: an invariant on what is still to come gives that the loop ends, whatever the fuel
  beyond the number of the entries, and what holds there.
* `ringFor_mono`: a loop that has ended has its result with more fuel as well.
-/
import FlightOs.Lib.Ring

namespace FlightOs

variable {α σ : Type}

/-- On a path, an entry points at the one after it, and the last at the end. -/
theorem Path.next_append {m : Links α} {b x : α} {rest : List α} : ∀ {pre : List α} {a : α},
    Path m a (pre ++ x :: rest) b → (m x).next = some (rest.headD b)
  | [], _, h => by
    obtain ⟨-, -, hrest⟩ := h
    cases rest with
    | nil => exact hrest.1
    | cons y l => exact hrest.1
  | _ :: _, _, h => Path.next_append h.2.2

/-- The anchor points at the first entry. -/
theorem Ring.next_head {m : Links α} {a : α} {xs : List α} (h : Ring m a xs) :
    (m a).next = some (xs.headD a) := by
  cases xs with
  | nil => exact h.path.1
  | cons x l => exact h.path.1

/-- An entry of a ring is not the anchor, and points at what is still to come. -/
theorem Ring.next_mid {m : Links α} {a x : α} {pre rest : List α} (h : Ring m a (pre ++ x :: rest)) :
    x ≠ a ∧ (m x).next = some (rest.headD a) := by
  refine ⟨?_, h.path.next_append⟩
  rintro rfl
  exact h.notMem (List.mem_append_right pre List.mem_cons_self)

variable [DecidableEq α]

/-- The loop from an entry on, and whether the body has broken it off.  There is no result where a
null pointer is followed, where the body fails, and where the fuel does not suffice. -/
def ringFor (links : σ → Links α) (body : σ → α → Option (σ × Bool)) (head : α) :
    Nat → σ → Option α → Option (σ × Bool)
  | 0, _, _ => none
  | _ + 1, _, none => none
  | n + 1, s, some pos =>
    if pos = head then some (s, false)
    else
      match body s pos with
      | none => none
      | some (s', true) => some (s', true)
      | some (s', false) => ringFor links body head n s' (links s pos).next

variable {links : σ → Links α} {body : σ → α → Option (σ × Bool)} {head : α}

/-- More fuel does no harm. -/
theorem ringFor_mono {r : σ × Bool} : ∀ {n m : Nat} {s : σ} {pos : Option α},
    ringFor links body head n s pos = some r → n ≤ m → ringFor links body head m s pos = some r
  | 0, _, _, _, h, _ => by cases h
  | _ + 1, _, _, none, h, _ => by cases h
  | n + 1, 0, _, some _, _, hle => absurd hle (Nat.not_succ_le_zero n)
  | n + 1, m + 1, s, some pos, h, hle => by
    rw [ringFor] at h ⊢
    split at h
    case isTrue hpos => rwa [if_pos hpos]
    case isFalse hpos =>
      rw [if_neg hpos]
      split at h
      case h_1 => cases h
      case h_2 => exact h
      case h_3 => exact ringFor_mono h (Nat.le_of_succ_le_succ hle)

variable (links body head) in
/-- **The rule of the loop.**  `I` holds whenever it is at an entry, with that and those after it,
and `Q` when it is over. -/
theorem ringFor_rule (I : σ → List α → Prop) (Q : σ → Bool → Prop)
    (hnext : ∀ s x rest, I s (x :: rest) → x ≠ head ∧ (links s x).next = some (rest.headD head))
    (hend : ∀ s, I s [] → Q s false)
    (hbody : ∀ s x rest, I s (x :: rest) →
      ∃ s' stop, body s x = some (s', stop) ∧ if stop then Q s' true else I s' rest)
    {rest : List α} {s : σ} {fuel : Nat} (h : I s rest) (hfuel : rest.length < fuel) :
    ∃ s' stop, ringFor links body head fuel s (some (rest.headD head)) = some (s', stop) ∧
      Q s' stop := by
  induction rest generalizing s fuel with
  | nil =>
    obtain ⟨n, rfl⟩ := Nat.exists_eq_succ_of_ne_zero (Nat.ne_of_gt hfuel)
    exact ⟨s, false, by rw [ringFor, List.headD_nil, if_pos rfl], hend s h⟩
  | cons x rest ih =>
    obtain ⟨n, rfl⟩ := Nat.exists_eq_succ_of_ne_zero (Nat.ne_of_gt (Nat.zero_lt_of_lt hfuel))
    obtain ⟨hne, hx⟩ := hnext s x rest h
    obtain ⟨s', stop, hturn, hs'⟩ := hbody s x rest h
    rw [ringFor, List.headD_cons, if_neg hne, hturn, hx]
    cases stop with
    | true => exact ⟨s', true, rfl, hs'⟩
    | false => exact ih hs' (Nat.lt_of_succ_lt_succ hfuel)

variable (links body head) in
/-- **The rule of the loop with a variant.**  The body may link entries behind the one that comes next:
of what is still to come only the first stays. -/
theorem ringFor_total (I : σ → List α → Prop) (Q : σ → Prop) (variant : List α → Nat)
    (hnext : ∀ s x rest, I s (x :: rest) → x ≠ head ∧ (links s x).next = some (rest.headD head))
    (hend : ∀ s, I s [] → Q s)
    (hbody : ∀ s x rest, I s (x :: rest) → ∃ s' rest', body s x = some (s', false) ∧ I s' rest' ∧
      rest'.headD head = rest.headD head ∧ variant rest' < variant (x :: rest))
    {fuel : Nat} : ∀ {rest : List α} {s : σ}, I s rest → variant rest < fuel →
    ∃ s', ringFor links body head fuel s (some (rest.headD head)) = some (s', false) ∧ Q s' := by
  induction fuel with
  | zero => exact fun _ h => absurd h (Nat.not_lt_zero _)
  | succ n ih =>
    intro rest s h hfuel
    cases rest with
    | nil => exact ⟨s, by rw [ringFor, List.headD_nil, if_pos rfl], hend s h⟩
    | cons x rest =>
      obtain ⟨hne, hx⟩ := hnext s x rest h
      obtain ⟨s', rest', hturn, hs', hhead, hless⟩ := hbody s x rest h
      rw [ringFor, List.headD_cons, if_neg hne, hturn, hx, ← hhead]
      exact ih hs' (Nat.lt_of_lt_of_le hless (Nat.le_of_lt_succ hfuel))

end FlightOs
