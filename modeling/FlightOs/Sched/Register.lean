/-
# Registering schedulers

`sched_register` puts a scheduler at the tail of the list and sorts the list: it goes through it again
and again, and swaps an entry with the one after it where their priorities are the wrong way round, until
nothing is swapped.  The loop over the list has fetched the entry that comes next before that, so it
meets the swapped pair once more.

The entry after the last one is the head of the list, which is no scheduler: what stands in the memory
before it is taken for its priority.  Each call that registers a scheduler makes this comparison.  Where
the word is greater than the priority of the last scheduler, the head is swapped with it.  The last one
is the first one then; it goes down to the end again, and is swapped again.

`sched_register_iff`: only in runs that register nothing are schedulers compared with nothing but
schedulers; all else holds in a run if and only if none of these words is greater than the priority of a
scheduler on the list.
-/
import FlightOs.Errno
import FlightOs.ListHead
import FlightOs.Lib.Loop
import FlightOs.Lib.RingIter
import Mathlib.Data.List.Perm.Basic

namespace FlightOs

/-! ## 1. Inversions -/

section Inversions

variable {α : Type} {key : α → Nat}

/-- The pairs of a list that stand in ascending order. -/
def inversions (key : α → Nat) : List α → Nat
  | [] => 0
  | x :: xs => xs.countP (fun y => decide (key x < key y)) + inversions key xs

/-- A swap of two neighbours that ascend takes one away. -/
theorem inversions_swap {a b : α} (h : key a < key b) (pre rest : List α) :
    inversions key (pre ++ b :: a :: rest) < inversions key (pre ++ a :: b :: rest) := by
  induction pre with
  | nil =>
    have hba : ¬ key b < key a := Nat.lt_asymm h
    simp only [List.nil_append, inversions, List.countP_cons, decide_eq_true h,
      decide_eq_false hba]
    simp only [Bool.false_eq_true, if_false, if_true]
    omega
  | cons x pre ih =>
    have hswap : (pre ++ b :: a :: rest).Perm (pre ++ a :: b :: rest) :=
      (List.Perm.swap a b rest).append_left pre
    rw [List.cons_append, List.cons_append, inversions, inversions, hswap.countP_eq]
    exact Nat.add_lt_add_left ih _

end Inversions

/-! ## 2. The code -/

section Code

variable {α : Type} [DecidableEq α]

/-- The links; whether something has been swapped; and what has been compared. -/
structure SortState (α : Type) where
  links : Links α
  swap : Bool
  compared : List (α × α)

/-- The body of the inner loop.  Null is not a place to read a priority from. -/
def sortElem (key : α → Nat) (s : SortState α) (elem : α) : Option (SortState α × Bool) :=
  match (s.links elem).next with
  | none => none
  | some next =>
    let compared := s.compared ++ [(elem, next)]
    if key elem < key next then some (⟨listSwap s.links elem next, true, compared⟩, false)
    else some (⟨s.links, s.swap, compared⟩, false)

/-- A round of the outer loop: the inner loop takes so many steps at most. -/
def sortPass (key : α → Nat) (head : α) (steps : Nat) (s : SortState α) :
    Except Unit (Round (SortState α) (SortState α)) :=
  match ringFor SortState.links (sortElem key) head steps { s with swap := false } (s.links head).next with
  | none => .error ()
  | some (s', _) => if s'.swap then .ok (.next s') else .ok (.done s')

/-- The entries of a list of schedulers of type `σ`. -/
inductive SchedNode (σ : Type)
  | kernelSchedulers
  | sched (s : σ)
  deriving DecidableEq

variable {σ : Type} [DecidableEq σ]

/-- The priority of a scheduler; `word` stands where that of the head would be. -/
def SchedNode.priority (priority : σ → Nat) (word : Nat) : SchedNode σ → Nat
  | .kernelSchedulers => word
  | .sched s => priority s

/-- The first loop: whether the scheduler is on the list. -/
def schedOnList (steps : Nat) (m : Links (SchedNode σ)) (s : σ) : Option (Unit × Bool) :=
  ringFor (fun _ => m) (fun _ elem => some ((), decide (elem = .sched s))) .kernelSchedulers steps ()
    (m .kernelSchedulers).next

/-- `sched_register`, with what it compares; none of its loops takes more steps, or more passes. -/
def schedRegister (priority : σ → Nat) (steps passes : Nat) (m : Links (SchedNode σ))
    (sched : Option σ) (word : Nat) :
    Except Unit (Int × Links (SchedNode σ) × List (SchedNode σ × SchedNode σ)) :=
  match sched with
  | none => .ok (-EINVAL, m, [])
  | some s =>
    match schedOnList steps m s with
    | none => .error ()
    | some (_, true) => .ok (-EPERM, m, [])
    | some (_, false) =>
      match loop () (sortPass (SchedNode.priority priority word) .kernelSchedulers steps) passes
        ⟨listAddTail m (.sched s) .kernelSchedulers, false, []⟩ with
      | .error e => .error e
      | .ok t => .ok (0, t.links, t.compared)

end Code

/-! ## 3. A pass -/

section Passes

variable {α : Type} {key : α → Nat} {head : α} {L rest : List α} {s s' : SortState α} {m : Links α}
  {steps : Nat}

/-- The inner loop, with the entries that are still to come.  Where nothing has been swapped, the entries
up to the next one descend. -/
structure SortInv (key : α → Nat) (head : α) (L : List α) (m : Links α) (s : SortState α)
    (done rest : List α) : Prop where
  ring : Ring s.links head (done ++ rest)
  perm : (done ++ rest).Perm L
  less : (∀ x ∈ L, key head ≤ key x) → s.swap = true →
    inversions key (done ++ rest) < inversions key L
  kept : s.swap = false → done ++ rest = L ∧ s.links = m ∧
    (done ++ [rest.headD head]).Pairwise fun x y => key y ≤ key x
  last : rest = [] → L ≠ [] → ∃ x, (x, head) ∈ s.compared

/-- How far the inner loop can still go: it meets a pair that it swaps once more. -/
def sortSteps (key : α → Nat) (head : α) : List α → Nat
  | [] => 0
  | x :: rest => 2 * rest.length + 2 + if key x < key (rest.headD head) then 1 else 0

theorem sortSteps_le (key : α → Nat) (head : α) (rest : List α) :
    sortSteps key head rest ≤ 2 * rest.length + 1 := by
  cases rest with
  | nil => exact Nat.zero_le _
  | cons x rest =>
    rw [sortSteps, List.length_cons]
    split <;> omega

/-- An entry that stays where it is. -/
theorem SortInv.stay {done : List α} {x : α} (h : SortInv key head L m s done (x :: rest))
    (hle : ¬ key x < key (rest.headD head)) :
    SortInv key head L m ⟨s.links, s.swap, s.compared ++ [(x, rest.headD head)]⟩ (done ++ [x]) rest := by
  have hassoc : done ++ [x] ++ rest = done ++ x :: rest := by
    rw [List.append_assoc, List.singleton_append]
  refine ⟨hassoc ▸ h.ring, hassoc ▸ h.perm, hassoc ▸ h.less, fun hswap => ?_, fun hrest _ => ?_⟩
  · obtain ⟨hL, hm, hdesc⟩ := h.kept hswap
    refine ⟨hassoc ▸ hL, hm, ?_⟩
    rw [List.headD_cons] at hdesc
    refine List.pairwise_append.mpr ⟨hdesc, List.pairwise_singleton _ _, fun y hy z hz => ?_⟩
    rw [List.mem_singleton.mp hz]
    have hx := Nat.le_of_not_lt hle
    rcases List.mem_append.mp hy with hy | hy
    · exact Nat.le_trans hx ((List.pairwise_append.mp hdesc).2.2 y hy x List.mem_cons_self)
    · rwa [List.mem_singleton.mp hy]
  · subst hrest
    exact ⟨x, List.mem_append_right _ List.mem_cons_self⟩

variable [DecidableEq α]

variable (key) in
/-- The body, at an entry. -/
theorem sortElem_cases {done : List α} {x : α} (hring : Ring s.links head (done ++ x :: rest)) :
    ¬ key x < key (rest.headD head) ∧ sortElem key s x =
        some (⟨s.links, s.swap, s.compared ++ [(x, rest.headD head)]⟩, false) ∨
      key x < key (rest.headD head) ∧ sortElem key s x =
        some (⟨listSwap s.links x (rest.headD head), true, s.compared ++ [(x, rest.headD head)]⟩,
          false) := by
  have hnext := hring.next_mid.2
  by_cases hlt : key x < key (rest.headD head)
  · refine .inr ⟨hlt, ?_⟩
    simp only [sortElem, hnext, if_pos hlt]
  · refine .inl ⟨hlt, ?_⟩
    simp only [sortElem, hnext, if_neg hlt]

/-- An entry that is swapped with the next one. -/
theorem SortInv.swapped {done : List α} {x b : α} (h : SortInv key head L m s done (x :: b :: rest))
    (hlt : key x < key b) (compared : List (α × α)) :
    SortInv key head L m ⟨listSwap s.links x b, true, compared⟩ done (b :: x :: rest) := by
  refine ⟨listSwap_entries h.ring, ?_, fun hsmall _ => ?_, fun hswap => ?_, fun hnil => ?_⟩
  · exact ((List.Perm.swap x b rest).append_left done).trans h.perm
  · refine Nat.lt_of_lt_of_le (inversions_swap hlt done rest) ?_
    cases hswap : s.swap with
    | true => exact Nat.le_of_lt (h.less hsmall hswap)
    | false => rw [(h.kept hswap).1]
  · cases hswap
  · cases hnil

/-- The last entry, which is swapped with the head. -/
theorem SortInv.wrapped {done : List α} {x : α} (h : SortInv key head L m s done [x])
    (hlt : key x < key head) (compared : List (α × α)) :
    SortInv key head L m ⟨listSwap s.links x head, true, compared ++ [(x, head)]⟩ (x :: done) [] := by
  have hperm : (x :: done).Perm (done ++ [x]) := (List.perm_append_singleton x done).symm
  have hx : x ∈ L := h.perm.subset (List.mem_append_right _ List.mem_cons_self)
  refine ⟨?_, ?_, fun hsmall _ => ?_, fun hswap => ?_, fun _ _ => ?_⟩
  · rw [List.append_nil]
    exact listSwap_head h.ring
  · rw [List.append_nil]
    exact hperm.trans h.perm
  · exact absurd (hsmall x hx) (Nat.not_le.mpr hlt)
  · cases hswap
  · exact ⟨x, List.mem_append_right _ List.mem_cons_self⟩

variable (key) in
/-- **The inner loop** ends. -/
theorem sortElem_total (hring : Ring s.links head L) (hsteps : 2 * L.length + 1 < steps) :
    ∃ s' L', ringFor SortState.links (sortElem key) head steps { s with swap := false }
        (s.links head).next = some (s', false) ∧ SortInv key head L s.links s' L' [] := by
  have hstart : SortInv key head L s.links { s with swap := false } [] L := by
    refine ⟨hring, List.Perm.refl _, fun _ h => (by cases h), fun _ => ⟨rfl, rfl, ?_⟩, ?_⟩
    · exact List.pairwise_singleton _ _
    · exact fun hnil hne => absurd hnil hne
  have hbody : ∀ s₁ x rest, (∃ done, SortInv key head L s.links s₁ done (x :: rest)) →
      ∃ s₂ rest', sortElem key s₁ x = some (s₂, false) ∧
        (∃ done, SortInv key head L s.links s₂ done rest') ∧ rest'.headD head = rest.headD head ∧
        sortSteps key head rest' < sortSteps key head (x :: rest) := by
    rintro s₁ x rest ⟨done, h⟩
    rcases sortElem_cases key h.ring with ⟨hle, heq⟩ | ⟨hlt, heq⟩
    · refine ⟨_, rest, heq, ⟨_, h.stay hle⟩, rfl, ?_⟩
      rw [sortSteps, if_neg hle]
      exact Nat.lt_of_le_of_lt (sortSteps_le _ _ _) (Nat.lt_succ_self _)
    · cases rest with
      | nil =>
        refine ⟨_, [], heq, ⟨_, h.wrapped hlt _⟩, rfl, ?_⟩
        rw [sortSteps, sortSteps]
        exact Nat.add_pos_left (Nat.succ_pos _) _
      | cons b rest =>
        refine ⟨_, b :: x :: rest, heq, ⟨_, h.swapped hlt _⟩, rfl, ?_⟩
        rw [List.headD_cons] at hlt
        rw [sortSteps, sortSteps, List.headD_cons, List.headD_cons, if_pos hlt,
          if_neg (Nat.lt_asymm hlt)]
        exact Nat.lt_succ_self _
  have hnext : ∀ s₁ x rest, (∃ done, SortInv key head L s.links s₁ done (x :: rest)) →
      x ≠ head ∧ (s₁.links x).next = some (rest.headD head) := by
    rintro s₁ x rest ⟨done, h⟩
    exact h.ring.next_mid
  obtain ⟨s', h, L', hL'⟩ := ringFor_total SortState.links (sortElem key) head
    (fun s₁ rest => ∃ done, SortInv key head L s.links s₁ done rest)
    (fun s₁ => ∃ done, SortInv key head L s.links s₁ done []) (sortSteps key head) hnext
    (fun s₁ h => h) hbody ⟨[], hstart⟩ (Nat.lt_of_le_of_lt (sortSteps_le _ _ _) hsteps)
  exact ⟨s', L', hring.next_head ▸ h, hL'⟩

variable (key) in
/-- **A pass** over a list that is not empty: the next one has less to do, unless the head is in the way;
or nothing has been swapped, and the last one was compared with the head. -/
theorem sortPass_cases (hring : Ring s.links head L) (hL : L ≠ []) (hsteps : 2 * L.length + 1 < steps) :
    (∃ s' L', sortPass key head steps s = .ok (.next s') ∧ Ring s'.links head L' ∧ L'.Perm L ∧
      ((∀ x ∈ L, key head ≤ key x) → inversions key L' < inversions key L)) ∨
    ∃ s', sortPass key head steps s = .ok (.done s') ∧ s'.links = s.links ∧
      ((L ++ [head]).Pairwise fun x y => key y ≤ key x) ∧ ∃ x, (x, head) ∈ s'.compared := by
  obtain ⟨s', L', heq, h⟩ := sortElem_total key hring hsteps
  have hring' := h.ring
  have hperm := h.perm
  have hless := h.less
  have hkept := h.kept
  rw [List.append_nil] at hring' hperm hless hkept
  cases hswap : s'.swap with
  | true =>
    refine .inl ⟨s', L', ?_, hring', hperm, fun hsmall => hless hsmall hswap⟩
    rw [sortPass, heq]
    exact if_pos hswap
  | false =>
    obtain ⟨rfl, hlinks, hdesc⟩ := hkept hswap
    refine .inr ⟨s', ?_, hlinks, hdesc, h.last rfl hL⟩
    rw [sortPass, heq]
    exact if_neg (by rw [hswap]; decide)

/-- With fewer steps there is no other result. -/
theorem sortPass_steps (s : SortState α) {n : Nat} (hn : steps ≤ n) {r : Round (SortState α) (SortState α)}
    (h : sortPass key head steps s = .ok r) : sortPass key head n s = .ok r := by
  rw [sortPass] at h ⊢
  split at h
  case h_1 => cases h
  case h_2 heq => rwa [ringFor_mono heq hn]

/-- **The sorting ends** if nothing is less than what stands at the head. -/
theorem sort_total (hsmall : ∀ x ∈ L, key head ≤ key x) (hL : L ≠ [])
    (hsteps : 2 * L.length + 1 < steps) {passes : Nat} : ∀ {s : SortState α} {L' : List α},
    Ring s.links head L' → L'.Perm L → inversions key L' < passes →
    ∃ t, loop () (sortPass key head steps) passes s = .ok t := by
  induction passes with
  | zero => exact fun _ _ h => absurd h (Nat.not_lt_zero _)
  | succ n ih =>
    intro s L' hring hperm hless
    have hL' : L' ≠ [] := fun hnil => hL (hnil ▸ hperm).nil_eq.symm
    rcases sortPass_cases key hring hL' (hperm.length_eq ▸ hsteps) with
      ⟨s', L₁, heq, hring', hperm', hless'⟩ | ⟨s', heq, -⟩
    · rw [loop_next heq]
      refine ih hring' (hperm'.trans hperm) ?_
      exact Nat.lt_of_lt_of_le (hless' fun x hx => hsmall x (hperm.subset hx))
        (Nat.le_of_lt_succ hless)
    · exact ⟨s', loop_done heq n⟩

/-- **Where it ends**, the list is sorted, with what stands at the head behind it; and the two have been
compared. -/
theorem sort_post (hring : Ring s.links head L) (hL : L ≠ []) {passes : Nat} {t : SortState α}
    (h : loop () (sortPass key head steps) passes s = .ok t) :
    ∃ L', Ring t.links head L' ∧ L'.Perm L ∧ ((L' ++ [head]).Pairwise fun x y => key y ≤ key x) ∧
      ∃ x, (x, head) ∈ t.compared := by
  have hcases : ∀ {s₁ : SortState α} {L₁ : List α}, Ring s₁.links head L₁ → L₁.Perm L →
      ∀ {r}, sortPass key head steps s₁ = .ok r →
        (∃ s₂ L₂, r = .next s₂ ∧ Ring s₂.links head L₂ ∧ L₂.Perm L) ∨
        ∃ s₂, r = .done s₂ ∧ s₂.links = s₁.links ∧
          ((L₁ ++ [head]).Pairwise fun x y => key y ≤ key x) ∧ ∃ x, (x, head) ∈ s₂.compared := by
    intro s₁ L₁ hring₁ hperm₁ r hr
    have hL₁ : L₁ ≠ [] := fun hnil => hL (hnil ▸ hperm₁).nil_eq.symm
    have hmore := sortPass_steps s₁ (Nat.le_add_right steps (2 * L₁.length + 2)) hr
    have hsteps : 2 * L₁.length + 1 < steps + (2 * L₁.length + 2) :=
      Nat.lt_of_lt_of_le (Nat.lt_succ_self _) (Nat.le_add_left _ _)
    rcases sortPass_cases key hring₁ hL₁ hsteps with
      ⟨s₂, L₂, heq, hring₂, hperm₂, -⟩ | ⟨s₂, heq, hlinks, hdesc, hlast⟩
    · exact .inl ⟨s₂, L₂, Except.ok.inj (hmore.symm.trans heq), hring₂, hperm₂.trans hperm₁⟩
    · exact .inr ⟨s₂, Except.ok.inj (hmore.symm.trans heq), hlinks, hdesc, hlast⟩
  refine loop_post (I := fun s₁ : SortState α => ∃ L₁, Ring s₁.links head L₁ ∧ L₁.Perm L)
    (Q := fun t : SortState α => ∃ L', Ring t.links head L' ∧ L'.Perm L ∧
      ((L' ++ [head]).Pairwise fun x y => key y ≤ key x) ∧ ∃ x, (x, head) ∈ t.compared) ?_ ?_
    ⟨L, hring, List.Perm.refl _⟩ h
  · rintro s₁ s₂ ⟨L₁, hring₁, hperm₁⟩ hr
    rcases hcases hring₁ hperm₁ hr with ⟨s₃, L₃, heq, hring₃, hperm₃⟩ | ⟨s₃, heq, -⟩
    · cases heq
      exact ⟨L₃, hring₃, hperm₃⟩
    · cases heq
  · rintro s₁ t ⟨L₁, hring₁, hperm₁⟩ hr
    rcases hcases hring₁ hperm₁ hr with ⟨s₃, L₃, heq, -⟩ | ⟨s₃, heq, hlinks, hdesc, hlast⟩
    · cases heq
    · cases heq
      exact ⟨L₁, hlinks ▸ hring₁, hperm₁, hdesc, hlast⟩

end Passes

/-! ## 4. A call -/

section Lists

variable {σ : Type}

/-- The list has the schedulers `L`, each of them once and in descending priority. -/
def SchedList (priority : σ → Nat) (m : Links (SchedNode σ)) (L : List σ) : Prop :=
  ∃ xs : List σ, Ring m .kernelSchedulers (xs.map .sched) ∧ xs.Perm L ∧
    xs.Pairwise fun x y => priority y ≤ priority x

theorem sched_injective : Function.Injective (SchedNode.sched : σ → SchedNode σ) :=
  fun _ _ h => SchedNode.sched.inj h

theorem mem_map_sched {s : σ} {xs : List σ} : SchedNode.sched s ∈ xs.map .sched ↔ s ∈ xs :=
  List.mem_map_of_injective sched_injective

/-- A rearranged list of schedulers is one of schedulers. -/
theorem exists_map_sched {ys : List (SchedNode σ)} {xs : List σ} (h : ys.Perm (xs.map .sched)) :
    ∃ zs : List σ, ys = zs.map .sched ∧ zs.Perm xs := by
  have hall : ∀ {ys : List (SchedNode σ)}, (∀ y ∈ ys, ∃ x, y = .sched x) →
      ∃ zs : List σ, ys = zs.map .sched := by
    intro ys
    induction ys with
    | nil => exact fun _ => ⟨[], rfl⟩
    | cons y ys ih =>
      intro hys
      obtain ⟨x, rfl⟩ := hys y List.mem_cons_self
      obtain ⟨zs, rfl⟩ := ih fun z hz => hys z (List.mem_cons_of_mem _ hz)
      exact ⟨x :: zs, rfl⟩
  obtain ⟨zs, rfl⟩ := hall fun y hy => by
    obtain ⟨x, -, rfl⟩ := List.mem_map.mp (h.subset hy)
    exact ⟨x, rfl⟩
  exact ⟨zs, rfl, (List.map_perm_map_iff sched_injective).mp h⟩

end Lists

section Calls

variable {σ : Type} [DecidableEq σ] {priority : σ → Nat} {m m' : Links (SchedNode σ)} {L : List σ}
  {s : σ} {sched : Option σ} {steps passes word : Nat}

/-- The first loop finds a scheduler that is on the list. -/
theorem schedOnList_eq {xs : List σ} (hring : Ring m .kernelSchedulers (xs.map .sched))
    (hsteps : xs.length < steps) : schedOnList steps m s = some ((), decide (s ∈ xs)) := by
  let I : Unit → List (SchedNode σ) → Prop := fun _ rest =>
    ∃ done, xs.map SchedNode.sched = done ++ rest ∧ SchedNode.sched s ∉ done
  have hnext : ∀ u x rest, I u (x :: rest) →
      x ≠ .kernelSchedulers ∧ (m x).next = some (rest.headD .kernelSchedulers) := by
    rintro - x rest ⟨done, hxs, -⟩
    rw [hxs] at hring
    exact hring.next_mid
  have hend : ∀ u, I u [] → false = decide (s ∈ xs) := by
    rintro - ⟨done, hxs, hnot⟩
    rw [List.append_nil] at hxs
    rw [← hxs, mem_map_sched] at hnot
    exact (decide_eq_false hnot).symm
  have hbody : ∀ u x rest, I u (x :: rest) →
      ∃ u' stop, some ((), decide (x = SchedNode.sched s)) = some (u', stop) ∧
        if stop then true = decide (s ∈ xs) else I u' rest := by
    rintro - x rest ⟨done, hxs, hnot⟩
    refine ⟨(), decide (x = .sched s), rfl, ?_⟩
    by_cases hx : x = .sched s
    · rw [decide_eq_true hx, if_pos rfl]
      have hmem : SchedNode.sched s ∈ xs.map .sched := by
        rw [hxs, hx]
        exact List.mem_append_right _ List.mem_cons_self
      exact (decide_eq_true (mem_map_sched.mp hmem)).symm
    · rw [decide_eq_false hx, if_neg (by decide)]
      refine ⟨done ++ [x], by rw [hxs, List.append_assoc, List.singleton_append], ?_⟩
      rw [List.mem_append, List.mem_singleton, not_or]
      exact ⟨hnot, fun e => hx e.symm⟩
  have hlen : (xs.map (SchedNode.sched (σ := σ))).length < steps := by rwa [List.length_map]
  obtain ⟨u, stop, heq, hstop⟩ := ringFor_rule (fun _ : Unit => m)
    (fun _ elem => some ((), decide (elem = SchedNode.sched s))) .kernelSchedulers I
    (fun _ stop => stop = decide (s ∈ xs)) hnext hend hbody ⟨[], rfl, List.not_mem_nil⟩ hlen
  rw [schedOnList, hring.next_head, heq, hstop]

/-- The schedulers that are registered after a call. -/
def schedsAfter (L : List σ) : Option σ → List σ
  | none => L
  | some s => if s ∈ L then L else s :: L

/-- **What a call is to do**: it registers a scheduler that has not been registered, and changes nothing
else. -/
structure RegisterRight (priority : σ → Nat) (m : Links (SchedNode σ)) (L : List σ) (sched : Option σ)
    (ret : Int) (m' : Links (SchedNode σ)) : Prop where
  list : SchedList priority m' (schedsAfter L sched)
  accepted : ret = 0 ↔ ∃ s, sched = some s ∧ s ∉ L
  refused : ret ≠ 0 → m' = m

/-- The list that is to be sorted. -/
theorem SchedList.add (h : SchedList priority m L) (hs : s ∉ L) :
    ∃ xs : List σ, Ring (listAddTail m (.sched s) .kernelSchedulers) .kernelSchedulers
        (xs.map .sched) ∧ xs ≠ [] ∧ xs.Perm (s :: L) := by
  obtain ⟨xs, hring, hperm, -⟩ := h
  have hnot : s ∉ xs := fun hmem => hs (hperm.subset hmem)
  refine ⟨xs ++ [s], ?_, List.append_ne_nil_of_right_ne_nil _ (List.cons_ne_nil _ _), ?_⟩
  · rw [List.map_append, List.map_singleton]
    refine listAddTail_ring hring ?_
    rw [List.mem_cons, not_or, mem_map_sched]
    exact ⟨fun e => (by cases e), hnot⟩
  · exact (List.perm_append_singleton s xs).trans (hperm.cons s)

/-- What a call that has a result does; and what it has compared. -/
theorem schedRegister_ok (h : SchedList priority m L) {ret : Int}
    {compared : List (SchedNode σ × SchedNode σ)}
    (heq : schedRegister priority steps passes m sched word = .ok (ret, m', compared)) :
    RegisterRight priority m L sched ret m' ∧ ∀ s, sched = some s → s ∉ L →
      (∀ x ∈ s :: L, word ≤ priority x) ∧ ∃ x, (x, SchedNode.kernelSchedulers) ∈ compared := by
  cases sched with
  | none =>
    obtain ⟨rfl, hresult⟩ := Prod.mk.inj (Except.ok.inj heq)
    obtain ⟨rfl, -⟩ := Prod.mk.inj hresult
    refine ⟨⟨h, iff_of_false (by decide) ?_, fun _ => rfl⟩, fun s hs => (by cases hs)⟩
    rintro ⟨s, hs, -⟩
    cases hs
  | some s =>
    obtain ⟨xs, hring, hperm, -⟩ := id h
    have hfound : ∀ {r}, schedOnList steps m s = some r → r = ((), decide (s ∈ L)) := by
      intro r hr
      have hmore := ringFor_mono hr (Nat.le_add_right steps (xs.length + 1))
      have heq := schedOnList_eq (s := s) hring
        (Nat.lt_of_lt_of_le (Nat.lt_succ_self _) (Nat.le_add_left (xs.length + 1) steps))
      rw [decide_eq_decide.mpr hperm.mem_iff] at heq
      exact Option.some.inj (hmore.symm.trans heq)
    rw [schedRegister] at heq
    split at heq
    case h_1 => cases heq
    case h_2 hcheck =>
      have hs : s ∈ L := of_decide_eq_true (Prod.mk.inj (hfound hcheck)).2.symm
      obtain ⟨rfl, hresult⟩ := Prod.mk.inj (Except.ok.inj heq)
      obtain ⟨rfl, -⟩ := Prod.mk.inj hresult
      refine ⟨⟨?_, iff_of_false (by decide) ?_, fun _ => rfl⟩, fun s' hs' hnot => ?_⟩
      · rwa [schedsAfter, if_pos hs]
      · rintro ⟨s', hs', hnot⟩
        cases hs'
        exact hnot hs
      · cases hs'
        exact absurd hs hnot
    case h_3 hcheck =>
      have hs : s ∉ L := of_decide_eq_false (Prod.mk.inj (hfound hcheck)).2.symm
      obtain ⟨ys, hring', hne, hperm'⟩ := h.add hs
      split at heq
      case h_1 => cases heq
      case h_2 t hloop =>
        obtain ⟨rfl, hresult⟩ := Prod.mk.inj (Except.ok.inj heq)
        obtain ⟨rfl, rfl⟩ := Prod.mk.inj hresult
        have hne' : ys.map SchedNode.sched ≠ [] := fun hnil => hne (List.map_eq_nil_iff.mp hnil)
        obtain ⟨L', hringL, hpermL, hdesc, hlast⟩ := sort_post hring' hne' hloop
        obtain ⟨zs, rfl, hzs⟩ := exists_map_sched hpermL
        obtain ⟨hdesc, -, hbehind⟩ := List.pairwise_append.mp hdesc
        refine ⟨⟨?_, iff_of_true rfl ⟨s, rfl, hs⟩, fun hret => absurd rfl hret⟩, ?_⟩
        · rw [schedsAfter, if_neg hs]
          exact ⟨zs, hringL, hzs.trans hperm', List.pairwise_map.mp hdesc⟩
        · intro s' hs' _
          cases hs'
          refine ⟨fun x hx => ?_, hlast⟩
          have hmem : x ∈ zs := (hzs.trans hperm').symm.subset hx
          exact hbehind _ (List.mem_map_of_mem hmem) _ List.mem_cons_self

/-- **A call ends** if what stands at the head is not greater than any of the priorities. -/
theorem schedRegister_total (h : SchedList priority m L)
    (hsmall : ∀ s, sched = some s → s ∉ L → ∀ x ∈ s :: L, word ≤ priority x) :
    ∃ steps passes ret m' compared,
      schedRegister priority steps passes m sched word = .ok (ret, m', compared) := by
  cases sched with
  | none => exact ⟨0, 0, _, _, _, rfl⟩
  | some s =>
    obtain ⟨xs, hring, hperm, -⟩ := id h
    have hcheck : ∀ {steps}, xs.length < steps →
        schedOnList steps m s = some ((), decide (s ∈ L)) := by
      intro steps hsteps
      rw [schedOnList_eq hring hsteps, decide_eq_decide.mpr hperm.mem_iff]
    by_cases hs : s ∈ L
    · refine ⟨xs.length + 1, 0, -EPERM, m, [], ?_⟩
      simp only [schedRegister, hcheck (Nat.lt_succ_self _), decide_eq_true hs]
    · obtain ⟨ys, hring', hne, hperm'⟩ := h.add hs
      have hne' : ys.map SchedNode.sched ≠ [] := fun hnil => hne (List.map_eq_nil_iff.mp hnil)
      have hbelow : ∀ x ∈ ys.map SchedNode.sched,
          SchedNode.priority priority word .kernelSchedulers ≤ SchedNode.priority priority word x := by
        intro x hx
        obtain ⟨y, hy, rfl⟩ := List.mem_map.mp hx
        exact hsmall s rfl hs y (hperm'.subset hy)
      have hlong : xs.length < 2 * (ys.map SchedNode.sched).length + 2 := by
        rw [List.length_map, hperm'.length_eq, List.length_cons, hperm.length_eq]
        omega
      have hsteps : 2 * (ys.map SchedNode.sched).length + 1 <
          2 * (ys.map SchedNode.sched).length + 2 := Nat.lt_succ_self _
      let start : SortState (SchedNode σ) := ⟨listAddTail m (.sched s) .kernelSchedulers, false, []⟩
      have hstart : Ring start.links .kernelSchedulers (ys.map SchedNode.sched) := hring'
      have hpasses := Nat.lt_succ_self
        (inversions (SchedNode.priority priority word) (ys.map SchedNode.sched))
      obtain ⟨t, hloop⟩ := sort_total hbelow hne' hsteps hstart (List.Perm.refl _) hpasses
      refine ⟨2 * (ys.map SchedNode.sched).length + 2,
        inversions (SchedNode.priority priority word) (ys.map SchedNode.sched) + 1, 0, t.links,
        t.compared, ?_⟩
      simp only [schedRegister, hcheck hlong, decide_eq_false hs]
      rw [hloop]

end Calls

/-! ## 5. Runs -/

section Runs

variable {σ : Type} [DecidableEq σ] (priority : σ → Nat)

/-- The argument of a call, and the word that stands before the head of the list. -/
structure RegisterCall (σ : Type) where
  sched : Option σ
  word : Nat

/-- **A run**: every call ends and does what it is to do, and what it compares is as `C` says. -/
def RegisterRun (C : List σ → List (SchedNode σ × SchedNode σ) → Prop) :
    Links (SchedNode σ) → List σ → List (RegisterCall σ) → Prop
  | _, _, [] => True
  | m, L, c :: cs => ∃ steps passes ret m' compared,
      schedRegister priority steps passes m c.sched c.word = .ok (ret, m', compared) ∧
      RegisterRight priority m L c.sched ret m' ∧ C (schedsAfter L c.sched) compared ∧
      RegisterRun C m' (schedsAfter L c.sched) cs

/-- Only registered schedulers are compared. -/
def SchedsOnly (L : List σ) (compared : List (SchedNode σ × SchedNode σ)) : Prop :=
  ∀ p ∈ compared, ∃ s ∈ L, ∃ s' ∈ L, p = (.sched s, .sched s')

/-- Where a scheduler is registered, the word at the head is not greater than a priority on the list. -/
def WordsBelow : List σ → List (RegisterCall σ) → Prop
  | _, [] => True
  | L, c :: cs => (∀ s, c.sched = some s → s ∉ L → ∀ x ∈ s :: L, c.word ≤ priority x) ∧
      WordsBelow (schedsAfter L c.sched) cs

variable {priority} {m : Links (SchedNode σ)} {L : List σ}

theorem schedList_init (m : Links (SchedNode σ)) :
    SchedList priority (initListHead m .kernelSchedulers) [] :=
  ⟨[], initListHead_ring _ _, List.Perm.refl _, List.Pairwise.nil⟩

theorem registerRun_iff (calls : List (RegisterCall σ)) : ∀ {m : Links (SchedNode σ)} {L : List σ},
    SchedList priority m L →
    (RegisterRun priority (fun _ _ => True) m L calls ↔ WordsBelow priority L calls) := by
  induction calls with
  | nil => exact fun _ => Iff.rfl
  | cons c cs ih =>
    intro m L h
    constructor
    · rintro ⟨steps, passes, ret, m', compared, heq, hright, -, hrest⟩
      exact ⟨fun s hs hnot => ((schedRegister_ok h heq).2 s hs hnot).1, (ih hright.list).mp hrest⟩
    · rintro ⟨hbelow, hrest⟩
      obtain ⟨steps, passes, ret, m', compared, heq⟩ := schedRegister_total h hbelow
      have hright := (schedRegister_ok h heq).1
      exact ⟨steps, passes, ret, m', compared, heq, hright, trivial, (ih hright.list).mpr hrest⟩

/-- Where nothing is registered, the first call that registers a scheduler compares it with the head. -/
theorem registerRun_only (calls : List (RegisterCall σ)) : ∀ {m : Links (SchedNode σ)},
    SchedList priority m [] →
    (RegisterRun priority SchedsOnly m [] calls ↔ ∀ c ∈ calls, c.sched = none) := by
  induction calls with
  | nil => exact fun _ => iff_of_true trivial fun _ h => by cases h
  | cons c cs ih =>
    intro m h
    rw [List.forall_mem_cons]
    constructor
    · rintro ⟨steps, passes, ret, m', compared, heq, hright, honly, hrest⟩
      cases hsched : c.sched with
      | none =>
        have hlist := hright.list
        rw [hsched] at hlist hrest
        exact ⟨rfl, (ih hlist).mp hrest⟩
      | some s =>
        obtain ⟨x, hx⟩ := ((schedRegister_ok h heq).2 s hsched List.not_mem_nil).2
        obtain ⟨_, _, _, _, hpair⟩ := honly _ hx
        cases (Prod.mk.inj hpair).2
    · rintro ⟨hnone, hrest⟩
      have heq : schedRegister priority 0 0 m c.sched c.word = .ok (-EINVAL, m, []) := by
        rw [hnone]
        rfl
      have hright := (schedRegister_ok h heq).1
      have hsame : schedsAfter [] c.sched = [] := by
        rw [hnone]
        rfl
      refine ⟨0, 0, _, _, _, heq, hright, fun _ hp => (by cases hp), ?_⟩
      rw [hsame]
      exact (ih h).mpr hrest

/-- **Registering schedulers.**  Only in the runs that register nothing are schedulers compared with
nothing but schedulers.  All else holds in a run, each call ends and leaves the list with the registered
schedulers in descending priority, if and only if no word that is taken for the priority of the head is
greater than that of a scheduler on the list. -/
theorem sched_register_iff (priority : σ → Nat) (m : Links (SchedNode σ))
    (calls : List (RegisterCall σ)) :
    (RegisterRun priority SchedsOnly (initListHead m .kernelSchedulers) [] calls ↔
      ∀ c ∈ calls, c.sched = none) ∧
    (RegisterRun priority (fun _ _ => True) (initListHead m .kernelSchedulers) [] calls ↔
      WordsBelow priority [] calls) :=
  ⟨registerRun_only calls (schedList_init m), registerRun_iff calls (schedList_init m)⟩

/-- **The first scheduler** is compared with the head, also where the word there is 0. -/
theorem sched_register_reads_head : ¬ ∀ (priority : Unit → Nat) (m : Links (SchedNode Unit))
    (calls : List (RegisterCall Unit)),
    RegisterRun priority SchedsOnly (initListHead m .kernelSchedulers) [] calls := by
  intro h
  have hnone := (registerRun_only [⟨some (), 0⟩] (schedList_init _)).mp
    (h (fun _ => 1) (fun _ => ⟨none, none⟩) [⟨some (), 0⟩])
  cases hnone _ List.mem_cons_self

end Runs

end FlightOs
