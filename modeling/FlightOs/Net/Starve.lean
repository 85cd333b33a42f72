/-
# Which critical tracker is served

`pn_get_next_pending_tracker` first moves the critical trackers to the head of the queue, one by
one, which turns their order round, and then takes the first and moves it to the tail.  So the one
it returns is the LAST critical tracker of the queue, and it is the last one again when the next
call comes.  As long as it stays critical, no other tracker is served.

* `pnGetNextPendingTracker_critical`: a call, if there is a critical tracker.
* `pn_returned_again`: the tracker that has been returned is returned as long as it stays critical.
* `pn_serves_critical_iff`: when a critical tracker is served within as many calls as there are
  nodes.
-/
import FlightOs.Net.Contract

namespace FlightOs

variable {ω : Type}

/-! ## 1. A pass that moves entries to the head -/

/-- The entries of a kind end up at the head, in reverse order. -/
theorem safeFor_front {α : Type} {c : α → Bool} {body : Unit → List α → α → List α → Turn Unit}
    (hbody : ∀ P t R, body () P t R = ⟨(), if c t then .head else .stay, false⟩) :
    ∀ {R : List α} {n : Nat} {P : List α}, R.length < n →
      safeFor body n () P R =
        some ((), (R.filter c).reverse ++ P ++ R.filter fun t => !c t)
  | [], n + 1, P, _ => by simp
  | t :: R, n + 1, P, hlt => by
    rw [safeFor_next (by rw [hbody]), hbody]
    cases hc : c t with
    | true =>
      rw [if_pos rfl, Relink.after_head, safeFor_front hbody (Nat.lt_of_succ_lt_succ hlt)]
      simp [hc]
    | false =>
      rw [if_neg (by simp), Relink.after_stay, safeFor_front hbody (Nat.lt_of_succ_lt_succ hlt)]
      simp [hc]

/-! ## 2. A call -/

/-- The critical trackers, in the order of the queue. -/
def pnCritical (s : PnState ω) : List Nat :=
  s.nodes.filter fun p => ptTrackLevelCritical (s.tracker p)

/-- The others. -/
def pnUncritical (s : PnState ω) : List Nat :=
  s.nodes.filter fun p => !ptTrackLevelCritical (s.tracker p)

theorem pnQueueCriticalTrackers_eq (s : PnState ω) :
    pnQueueCriticalTrackers s =
      .ok { s with nodes := (pnCritical s).reverse ++ pnUncritical s } := by
  have hpass : safeFor (criticalTurn s) (s.nodes.length + 1) () [] s.nodes =
      some ((), (pnCritical s).reverse ++ [] ++ pnUncritical s) :=
    safeFor_front (fun P t R => by
      unfold criticalTurn
      split <;> rfl) (Nat.lt_succ_self _)
  rw [pnQueueCriticalTrackers, hpass, List.append_nil]

/-- A tracker with a level as `pt_track_create` accepts it has a task when it is critical. -/
theorem ProcTracker.pending_of_critical {pt : ProcTracker ω} (hlevel : 0 < pt.nTasksCrit)
    (hcrit : ptTrackLevelCritical pt = true) : ptTrackTasksPending pt = true := by
  have hle : pt.nTasksCrit ≤ pt.tasks.length := by
    have h := of_decide_eq_true hcrit
    rwa [pt.counted] at h
  cases htasks : pt.tasks with
  | nil =>
    rw [htasks] at hle
    exact absurd (Nat.lt_of_lt_of_le hlevel hle) (Nat.lt_irrefl 0)
  | cons t ts => simp [ptTrackTasksPending, htasks]

/-- **A call returns the last critical tracker** and leaves it at the tail. -/
theorem pnGetNextPendingTracker_critical {s : PnState ω} {xs : List Nat} {c : Nat}
    (hlevel : 0 < (s.tracker c).nTasksCrit) (hlast : pnCritical s = xs ++ [c]) :
    pnGetNextPendingTracker s =
      .ok (some c, { s with nodes := xs.reverse ++ pnUncritical s ++ [c] }) := by
  have hmem : c ∈ pnCritical s := hlast ▸ List.mem_append_right _ List.mem_cons_self
  obtain ⟨hnode, hcrit⟩ := List.mem_filter.mp hmem
  have hpending := ProcTracker.pending_of_critical hlevel hcrit
  have hqueue : (pnCritical s).reverse ++ pnUncritical s = c :: (xs.reverse ++ pnUncritical s) := by
    rw [hlast, List.reverse_append]
    rfl
  -- the first turn finds it
  have hturn : ∀ nodes R, pendingTrackerTurn { s with nodes := nodes } (0, none) [] c R =
      ⟨(1, some c), .tail, true⟩ := by
    intro nodes R
    rw [pendingTrackerTurn, if_neg (Nat.not_lt_zero _), if_pos hpending]
  have hafter : ∀ R : List Nat, (Relink.tail.after [] c R).1 ++ (Relink.tail.after [] c R).2 =
      R ++ [c] := by
    intro R
    cases R with
    | nil => rfl
    | cons r R => rfl
  rw [pnGetNextPendingTracker, if_neg (List.ne_nil_of_mem hnode), pnQueueCriticalTrackers_eq]
  simp only [bind, Except.bind, hqueue]
  rw [safeFor_stop (by rw [hturn]), hturn, hafter]

/-! ## 3. Calls with tasks coming and going in between -/

/-- What stands behind a tracker in the queue. -/
def pnBehind (s : PnState ω) (t : Nat) : List Nat := (s.nodes.dropWhile fun p => p != t).tail

/-- No critical tracker stands behind this one. -/
def PnLastCritical (s : PnState ω) (t : Nat) : Prop :=
  ∀ p ∈ pnBehind s t, ptTrackLevelCritical (s.tracker p) = false

instance (s : PnState ω) (t : Nat) : Decidable (PnLastCritical s t) :=
  inferInstanceAs (Decidable (∀ p ∈ pnBehind s t, _))

/-- Tasks have come and gone; the queue of the nodes and the critical levels are the same. -/
structure PnTasksMoved (s s' : PnState ω) : Prop where
  nodes : s'.nodes = s.nodes
  level : ∀ p, (s'.tracker p).nTasksCrit = (s.tracker p).nTasksCrit

/-- A network as `pn_add_node` builds it, of trackers from `pt_track_create`. -/
structure PnNodes (s : PnState ω) : Prop where
  nodup : s.nodes.Nodup
  level : ∀ p ∈ s.nodes, 0 < (s.tracker p).nTasksCrit

/-- A row of calls: `s i` is the state before the call `i`, `s' i` the one after it, and `found i`
is what it returns. -/
structure PnCalls (N : Nat) (s s' : Nat → PnState ω) (found : Nat → Option Nat) : Prop where
  call : ∀ i < N, pnGetNextPendingTracker (s i) = .ok (found i, s' i)
  between : ∀ i, i + 1 < N → PnTasksMoved (s' i) (s (i + 1))

/-- A tracker is critical before each call. -/
def PnStaysCritical (N : Nat) (s : Nat → PnState ω) (t : Nat) : Prop :=
  ∀ i < N, ptTrackLevelCritical ((s i).tracker t) = true

instance (N : Nat) (s : Nat → PnState ω) (t : Nat) : Decidable (PnStaysCritical N s t) :=
  inferInstanceAs (Decidable (∀ i < N, _))

/-- A tracker is returned by one of the calls. -/
def PnServed (N : Nat) (found : Nat → Option Nat) (t : Nat) : Prop := ∃ i < N, found i = some t

/-- The end of a list, seen from one of its entries. -/
theorem eq_nil_or_mem_of_concat {α : Type} {A B xs : List α} {t c : α}
    (h : A ++ t :: B = xs ++ [c]) : (B = [] ∧ c = t) ∨ c ∈ B := by
  rcases List.eq_nil_or_concat B with rfl | ⟨L, b, rfl⟩
  · exact .inl ⟨rfl, (List.singleton_inj.mp (List.append_inj' h rfl).2).symm⟩
  · rw [List.concat_eq_append, ← List.cons_append, ← List.append_assoc] at h
    have hb : b = c := List.singleton_inj.mp (List.append_inj' h rfl).2
    exact .inr (by simp [hb])

section Calls

variable {s s' : PnState ω} {t : Nat}

/-- A critical tracker of the queue, with what stands before and behind it. -/
theorem PnNodes.split (h : PnNodes s) (ht : t ∈ s.nodes) :
    ∃ pre, s.nodes = pre ++ t :: pnBehind s t ∧ t ∉ pnBehind s t := by
  obtain ⟨pre, post, hnodes⟩ := List.append_of_mem ht
  have hnodup := h.nodup
  rw [hnodes, List.nodup_append] at hnodup
  obtain ⟨-, hpost, hapart⟩ := hnodup
  have hpre : ∀ p ∈ pre, (p != t) = true := by
    intro p hp
    simp only [bne_iff_ne]
    exact hapart p hp t List.mem_cons_self
  have hbehind : pnBehind s t = post := by
    rw [pnBehind, hnodes, List.dropWhile_append_of_pos hpre, List.dropWhile_cons_of_neg (by simp)]
    rfl
  refine ⟨pre, ?_, ?_⟩
  · rw [hbehind, hnodes]
  · rw [hbehind]
    exact (List.nodup_cons.mp hpost).1

/-- The critical tracker that is last is returned. -/
theorem PnNodes.found (h : PnNodes s) (ht : t ∈ s.nodes)
    (hcrit : ptTrackLevelCritical (s.tracker t) = true) :
    ∃ c xs, pnCritical s = xs ++ [c] ∧ c ∈ s.nodes ∧ (c = t ↔ PnLastCritical s t) ∧
      pnGetNextPendingTracker s =
        .ok (some c, { s with nodes := xs.reverse ++ pnUncritical s ++ [c] }) := by
  obtain ⟨pre, hnodes, hnot⟩ := h.split ht
  have hsplit : pnCritical s = pre.filter (fun p => ptTrackLevelCritical (s.tracker p)) ++
      t :: (pnBehind s t).filter fun p => ptTrackLevelCritical (s.tracker p) := by
    have hfilter := congrArg (List.filter fun p => ptTrackLevelCritical (s.tracker p)) hnodes
    rwa [List.filter_append, List.filter_cons, if_pos hcrit] at hfilter
  -- the last of them
  obtain ⟨xs, c, hlast⟩ : ∃ xs c, pnCritical s = xs ++ [c] := by
    have hne : pnCritical s ≠ [] := by
      rw [hsplit]
      simp
    exact ⟨_, _, (List.dropLast_append_getLast hne).symm⟩
  have hc : c ∈ s.nodes :=
    List.mem_of_mem_filter (hlast ▸ List.mem_append_right xs List.mem_cons_self)
  refine ⟨c, xs, hlast, hc, ?_, pnGetNextPendingTracker_critical (h.level c hc) hlast⟩
  rw [hsplit] at hlast
  constructor
  · rintro rfl p hp
    rcases eq_nil_or_mem_of_concat hlast with ⟨hnil, -⟩ | hmem
    · simpa using (List.filter_eq_nil_iff.mp hnil) p hp
    · exact absurd (List.mem_of_mem_filter hmem) hnot
  · intro hbehind
    have hnil : ((pnBehind s t).filter fun p => ptTrackLevelCritical (s.tracker p)) = [] := by
      rw [List.filter_eq_nil_iff]
      intro p hp
      rw [hbehind p hp]
      exact Bool.false_ne_true
    rw [hnil] at hlast
    exact (List.singleton_inj.mp (List.append_inj' hlast rfl).2).symm

/-- A call keeps the nodes and the trackers. -/
theorem PnNodes.after (h : PnNodes s) {found : Option Nat} (ht : t ∈ s.nodes)
    (hcrit : ptTrackLevelCritical (s.tracker t) = true)
    (hcall : pnGetNextPendingTracker s = .ok (found, s')) :
    PnNodes s' ∧ t ∈ s'.nodes := by
  obtain ⟨c, xs, hlast, -, -, hcall'⟩ := h.found ht hcrit
  rw [hcall'] at hcall
  cases hcall
  -- the nodes in another order
  have hperm : (xs.reverse ++ pnUncritical s ++ [c]).Perm s.nodes := by
    have hparts : (pnCritical s ++ pnUncritical s).Perm s.nodes := List.filter_append_perm _ _
    refine List.Perm.trans ?_ hparts
    rw [hlast, List.append_assoc, List.append_assoc]
    exact (List.reverse_perm xs).append List.perm_append_comm
  exact ⟨⟨hperm.nodup_iff.mpr h.nodup, fun p hp => h.level p (hperm.mem_iff.mp hp)⟩,
    hperm.mem_iff.mpr ht⟩

theorem PnNodes.moved (h : PnNodes s) (hmoved : PnTasksMoved s s') : PnNodes s' :=
  ⟨hmoved.nodes ▸ h.nodup, fun p hp => by
    rw [hmoved.level]
    exact h.level p (hmoved.nodes ▸ hp)⟩

end Calls

section Rows

variable {N : Nat} {s s' : Nat → PnState ω} {found : Nat → Option Nat} {t : Nat}

theorem PnCalls.result (h : PnCalls N s s' found) {i : Nat} (hi : i < N) {r : Option Nat}
    {s₁ : PnState ω} (hcall : pnGetNextPendingTracker (s i) = .ok (r, s₁)) :
    found i = r ∧ s' i = s₁ :=
  Prod.mk.inj (Except.ok.inj ((h.call i hi).symm.trans hcall))

/-- The network is the same before each call. -/
theorem PnCalls.nodes (h : PnCalls N s s' found) (h₀ : PnNodes (s 0)) (ht : t ∈ (s 0).nodes)
    (hcrit : PnStaysCritical N s t) : ∀ i < N, PnNodes (s i) ∧ t ∈ (s i).nodes := by
  intro i
  induction i with
  | zero => exact fun _ => ⟨h₀, ht⟩
  | succ i ih =>
    intro hi
    have hi' := Nat.lt_of_succ_lt hi
    obtain ⟨hnodes, hmem⟩ := ih hi'
    obtain ⟨hnodes', hmem'⟩ := hnodes.after hmem (hcrit i hi') (h.call i hi')
    have hmoved := h.between i hi
    exact ⟨hnodes'.moved hmoved, hmoved.nodes ▸ hmem'⟩

/-- **The tracker that has been returned** is at the tail, and is returned again as long as it stays
critical. -/
theorem pn_returned_again (h : PnCalls N s s' found) (h₀ : PnNodes (s 0)) (ht : t ∈ (s 0).nodes)
    (hcrit : PnStaysCritical N s t) {i : Nat} (hfirst : found i = some t) :
    ∀ j, i + j < N → found (i + j) = some t := by
  intro j
  induction j with
  | zero => exact fun _ => hfirst
  | succ j ih =>
    intro hj
    have hj' : i + j < N := Nat.lt_of_succ_lt hj
    obtain ⟨hnodes, hmem⟩ := h.nodes h₀ ht hcrit (i + j) hj'
    obtain ⟨hnodes₁, hmem₁⟩ := h.nodes h₀ ht hcrit (i + j + 1) hj
    obtain ⟨c, xs, -, -, -, hcall⟩ := hnodes.found hmem (hcrit _ hj')
    obtain ⟨hfound, hafter⟩ := h.result hj' hcall
    obtain rfl : c = t := Option.some.inj (hfound.symm.trans (ih hj'))
    -- nothing stands behind it
    have hlast : PnLastCritical (s (i + j + 1)) c := by
      obtain ⟨pre, hsplit, hnot⟩ := hnodes₁.split hmem₁
      have htail : (s (i + j + 1)).nodes = xs.reverse ++ pnUncritical (s (i + j)) ++ [c] := by
        have hnodes' := (h.between (i + j) hj).nodes
        rwa [hafter] at hnodes'
      rcases eq_nil_or_mem_of_concat (hsplit.symm.trans htail) with ⟨hnil, -⟩ | hbehind
      · intro p hp
        rw [hnil] at hp
        cases hp
      · exact absurd hbehind hnot
    obtain ⟨c', xs', -, -, hiff, hcall'⟩ := hnodes₁.found hmem₁ (hcrit _ hj)
    obtain rfl : c' = c := hiff.mpr hlast
    exact (h.result hj hcall').1

end Rows

/-- **When a critical tracker is served.**  In a row of as many calls as there are nodes, a tracker
that is critical throughout is returned if and only if, before one of the calls, no critical tracker
stands behind it in the queue. -/
theorem pn_serves_critical_iff (s s' : Nat → PnState ω) (found : Nat → Option Nat) (t : Nat)
    (h₀ : PnNodes (s 0)) (hcalls : PnCalls (s 0).nodes.length s s' found) (ht : t ∈ (s 0).nodes)
    (hcrit : PnStaysCritical (s 0).nodes.length s t) :
    PnServed (s 0).nodes.length found t ↔
      ∃ i < (s 0).nodes.length, PnLastCritical (s i) t := by
  refine exists_congr fun i => and_congr_right fun hi => ?_
  obtain ⟨hnodes, hmem⟩ := hcalls.nodes h₀ ht hcrit i hi
  obtain ⟨c, xs, -, -, hiff, hcall⟩ := hnodes.found hmem (hcrit i hi)
  rw [(hcalls.result hi hcall).1, Option.some.injEq, hiff]

/-- A network with two nodes, of which the first has one task and the second as many as are said;
both are critical from one task on. -/
def pnTwoNodes (tasks : List Nat) : PnState Unit :=
  { pnCreate (fun p => { ptTrackCreate pnDummyOp (p + 1) 1 with
      tasks := if p = 2 then [7] else tasks
      nTasks := (if p = 2 then [7] else tasks).length
      counted := rfl }) 0 1 () with
    nodes := [2, 3]
    n := 2 }

theorem pnTwoNodes_nodes (tasks : List Nat) : PnNodes (pnTwoNodes tasks) where
  nodup := by
    change [2, 3].Nodup
    decide
  level p hp := by
    have hp' : p = 2 ∨ p = 3 := by simpa [pnTwoNodes] using hp
    rcases hp' with rfl | rfl
    · exact Nat.one_pos
    · exact Nat.one_pos

/-- The state before each call of a row, if nothing happens in between. -/
def pnCallRow (s : PnState Unit) : Nat → PnState Unit
  | 0 => s
  | i + 1 =>
    match pnGetNextPendingTracker (pnCallRow s i) with
    | .ok (_, s') => s'
    | .error _ => pnCallRow s i

/-- What the calls of the row return. -/
def pnCallFound (s : PnState Unit) (i : Nat) : Option Nat :=
  match pnGetNextPendingTracker (pnCallRow s i) with
  | .ok (found, _) => found
  | .error _ => none

theorem pnCallRow_calls (s : PnState Unit) (N : Nat) :
    PnCalls N (pnCallRow s) (fun i => pnCallRow s (i + 1)) (pnCallFound s) where
  call i _ := by
    cases h : pnGetNextPendingTracker (pnCallRow s i) with
    | ok r => simp only [pnCallRow, pnCallFound, h]
    | error e =>
      obtain ⟨found, nodes, hok, -⟩ := pnGetNextPendingTracker_total (pnCallRow s i)
      rw [hok] at h
      cases h
  between i _ := ⟨rfl, fun _ => rfl⟩

theorem pn_serves_critical_alone :
    PnServed 2 (pnCallFound (pnTwoNodes [])) 2 ↔
      ∃ i < 2, PnLastCritical (pnCallRow (pnTwoNodes []) i) 2 :=
  pn_serves_critical_iff (pnCallRow (pnTwoNodes [])) (fun i => pnCallRow (pnTwoNodes []) (i + 1))
    (pnCallFound (pnTwoNodes [])) 2 (pnTwoNodes_nodes []) (pnCallRow_calls _ 2) (by decide) (by decide)

/-- **A critical tracker starves.**  Two trackers are critical; both calls return the same one. -/
theorem pn_starves_critical :
    PnNodes (pnTwoNodes [8]) ∧ (pnTwoNodes [8]).nodes.length = 2 ∧ 2 ∈ (pnTwoNodes [8]).nodes ∧
      PnCalls 2 (pnCallRow (pnTwoNodes [8])) (fun i => pnCallRow (pnTwoNodes [8]) (i + 1))
        (pnCallFound (pnTwoNodes [8])) ∧
      PnStaysCritical 2 (pnCallRow (pnTwoNodes [8])) 2 ∧
      ¬ PnServed 2 (pnCallFound (pnTwoNodes [8])) 2 := by
  refine ⟨pnTwoNodes_nodes [8], by decide, by decide, pnCallRow_calls _ 2, by decide, ?_⟩
  rintro ⟨i, hi, hfound⟩
  match i, hi with
  | 0, _ => exact absurd hfound (by decide)
  | 1, _ => exact absurd hfound (by decide)

end FlightOs
