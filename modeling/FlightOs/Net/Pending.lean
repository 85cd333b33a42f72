/-
# The next tracker with tasks

`pn_get_next_pending_tracker` goes through its queue twice, and moves the nodes it meets: critical
trackers to the head, in a first pass, and then every node to the tail, until one is met that has a task.
A node that has been moved to the tail comes up again, so it is the count that ends the second pass; it
allows for one node more than there are.

`pn_next_pending`: what is returned is the first tracker with a task behind the first pass.
-/
import FlightOs.Net.Starve

namespace FlightOs

variable {ω : Type}

/-! ## 1. The second pass -/

section Pass

variable {s : PnState ω}

/-- **The nodes in front of the first one with a task** are moved behind it, one by one. -/
theorem pendingTracker_first {p : Nat} (hpending : ptTrackTasksPending (s.tracker p) = true)
    (A : List Nat) : ∀ {B : List Nat} {c n : Nat}, c + A.length ≤ s.n → A.length < n →
      (∀ a ∈ A, ptTrackTasksPending (s.tracker a) = false) →
      safeFor (pendingTrackerTurn s) n (c, none) [] (A ++ p :: B) =
        some ((c + A.length + 1, some p), B ++ A ++ [p]) := by
  induction A with
  | nil =>
    intro B c n hc hn _
    obtain ⟨n, rfl⟩ := Nat.exists_eq_succ_of_ne_zero (Nat.ne_of_gt hn)
    have hturn : pendingTrackerTurn s (c, none) [] p B = ⟨(c + 1, some p), .tail, true⟩ := by
      have hcnt : ¬ s.n < c := Nat.not_lt.mpr hc
      rw [pendingTrackerTurn, if_neg hcnt, if_pos hpending]
    rw [List.nil_append, safeFor_stop (by rw [hturn]), hturn]
    cases B with
    | nil => rfl
    | cons b B => simp [Relink.after]
  | cons a A ih =>
    intro B c n hc hn hA
    obtain ⟨n, rfl⟩ := Nat.exists_eq_succ_of_ne_zero (Nat.ne_of_gt (Nat.zero_lt_of_lt hn))
    obtain ⟨ha, hA⟩ := List.forall_mem_cons.mp hA
    rw [List.length_cons] at hc hn
    have hturn : pendingTrackerTurn s (c, none) [] a (A ++ p :: B) =
        ⟨(c + 1, none), .tail, false⟩ := by
      rw [pendingTrackerTurn, if_neg (by omega), ha]
      rfl
    have hafter : Relink.tail.after [] a (A ++ p :: B) = ([], A ++ p :: (B ++ [a])) := by
      cases A with
      | nil => rfl
      | cons b A => simp [Relink.after]
    rw [List.cons_append, safeFor_next (by rw [hturn]), hturn, hafter]
    dsimp only
    rw [ih (by omega) (Nat.lt_of_succ_lt_succ hn) hA]
    simp [Nat.add_assoc, Nat.add_comm 1]

/-- What is found has a task. -/
theorem pendingTracker_pending {n c : Nat} {L nodes : List Nat} {found : Option Nat}
    (h : safeFor (pendingTrackerTurn s) n (0, none) [] L = some ((c, found), nodes)) :
    ∀ p, found = some p → ptTrackTasksPending (s.tracker p) = true := by
  refine safeFor_inv (I := fun st _ _ => st.2 = none)
    (Q := fun st _ => ∀ p, st.2 = some p → ptTrackTasksPending (s.tracker p) = true) ?_ ?_ ?_ rfl h
  · intro st P hnone p hp
    rw [hnone] at hp
    cases hp
  · intro st P t R _ _ p
    unfold pendingTrackerTurn
    split
    · exact fun hp => by cases hp
    split
    · rename_i hpending
      intro hp
      rw [← Option.some.inj hp]
      exact hpending
    · exact fun hp => by cases hp
  · intro st P t R _ hgo
    unfold pendingTrackerTurn at hgo ⊢
    split
    · rfl
    split
    · rename_i hcnt hpending
      rw [if_neg hcnt, if_pos hpending] at hgo
      cases hgo
    · rfl

end Pass

/-! ## 2. A call -/

/-- What a call returns, and how it leaves the queue. -/
structure PnFinds (s : PnState ω) (found : Option Nat) (nodes : List Nat) : Prop where
  perm : nodes.Perm s.nodes
  isSome_iff : found.isSome = true ↔ ∃ p ∈ s.nodes, ptTrackTasksPending (s.tracker p) = true
  pending : ∀ p, found = some p → ptTrackTasksPending (s.tracker p) = true
  critical : ∀ p, found = some p → (∃ u ∈ s.nodes, ptTrackLevelCritical (s.tracker u) = true) →
    ptTrackLevelCritical (s.tracker p) = true
  last : ∀ p, found = some p → nodes.getLast? = some p

section Call

variable {s : PnState ω}

theorem pnCritical_perm (s : PnState ω) :
    ((pnCritical s).reverse ++ pnUncritical s).Perm s.nodes :=
  ((List.reverse_perm _).append_right _).trans (List.filter_append_perm _ s.nodes)

/-- The count of the nodes is kept by `pn_add_node`. -/
theorem pnAddNode_counted (hn : s.n = s.nodes.length) (p : Nat) :
    (pnAddNode s p).2.n = (pnAddNode s p).2.nodes.length := by
  unfold pnAddNode
  split
  · exact hn
  split
  · exact hn
  · simp [hn]

/-- If a tracker is critical, the first one with a task is. -/
theorem pnCritical_first (hlevel : ∀ p ∈ s.nodes, 0 < (s.tracker p).nTasksCrit) {A B : List Nat}
    {p : Nat} (hqueue : (pnCritical s).reverse ++ pnUncritical s = A ++ p :: B)
    (hA : ∀ a ∈ A, ptTrackTasksPending (s.tracker a) = false)
    (hcrit : ∃ u ∈ s.nodes, ptTrackLevelCritical (s.tracker u) = true) :
    ptTrackLevelCritical (s.tracker p) = true := by
  obtain ⟨u, hu, hucrit⟩ := hcrit
  have hmem : u ∈ (pnCritical s).reverse := List.mem_reverse.mpr (List.mem_filter.mpr ⟨hu, hucrit⟩)
  have hall : ∀ v ∈ (pnCritical s).reverse, ptTrackLevelCritical (s.tracker v) = true ∧
      ptTrackTasksPending (s.tracker v) = true := by
    intro v hv
    obtain ⟨hnode, hvcrit⟩ := List.mem_filter.mp (List.mem_reverse.mp hv)
    exact ⟨hvcrit, ProcTracker.pending_of_critical (hlevel v hnode) hvcrit⟩
  cases hrev : (pnCritical s).reverse with
  | nil =>
    rw [hrev] at hmem
    exact absurd hmem List.not_mem_nil
  | cons v rest =>
    obtain ⟨hvcrit, hvpending⟩ := hall v (hrev ▸ List.mem_cons_self)
    rw [hrev] at hqueue
    cases A with
    | nil =>
      rw [← (List.cons_eq_cons.mp hqueue).1]
      exact hvcrit
    | cons a A =>
      have ha := hA a List.mem_cons_self
      rw [← (List.cons_eq_cons.mp hqueue).1, hvpending] at ha
      cases ha

theorem pnGetNextPendingTracker_pending {s' : PnState ω} {found : Option Nat}
    (h : pnGetNextPendingTracker s = .ok (found, s')) :
    ∀ p, found = some p → ptTrackTasksPending (s.tracker p) = true := by
  rw [pnGetNextPendingTracker, pnQueueCriticalTrackers_eq] at h
  split at h
  · intro p hp
    rw [← (Prod.mk.inj (Except.ok.inj h)).1] at hp
    cases hp
  simp only [bind, Except.bind] at h
  split at h
  · cases h
  · rename_i c found' nodes hpass
    rw [← (Prod.mk.inj (Except.ok.inj h)).1]
    exact pendingTracker_pending hpass

/-- **The next tracker with tasks** is found if there is one, and is a critical one if there is one of
these; it is the last node then, and no node is lost. -/
theorem pn_next_pending (hlevel : ∀ p ∈ s.nodes, 0 < (s.tracker p).nTasksCrit)
    (hn : s.n = s.nodes.length) :
    ∃ found nodes, pnGetNextPendingTracker s = .ok (found, { s with nodes := nodes }) ∧
      PnFinds s found nodes := by
  have hperm := pnCritical_perm s
  obtain ⟨L, hL⟩ : ∃ L, (pnCritical s).reverse ++ pnUncritical s = L := ⟨_, rfl⟩
  rw [hL] at hperm
  have hfind : (∃ p ∈ s.nodes, ptTrackTasksPending (s.tracker p) = true) ↔
      ∃ p ∈ L, ptTrackTasksPending (s.tracker p) = true := by
    simp only [hperm.mem_iff]
  cases hfirst : L.find? fun p => ptTrackTasksPending (s.tracker p) with
  | some p =>
    obtain ⟨hpending, A, B, hqueue, hA⟩ := List.find?_eq_some_iff_append.mp hfirst
    simp only [Bool.not_eq_true'] at hA
    have hmem : p ∈ L := hqueue ▸ List.mem_append_right _ List.mem_cons_self
    have hlength := hperm.length_eq
    rw [hqueue, List.length_append, List.length_cons] at hlength
    refine ⟨some p, B ++ A ++ [p], ?_, ?_⟩
    · have hne : s.nodes ≠ [] := List.ne_nil_of_mem (hperm.mem_iff.mp hmem)
      rw [pnGetNextPendingTracker, if_neg hne, pnQueueCriticalTrackers_eq, hL, hqueue]
      have hpass := pendingTracker_first (s := { s with nodes := A ++ p :: B }) hpending A
        (B := B) (c := 0) (n := s.n + 3) (by dsimp only; omega) (by omega) hA
      simp only [bind, Except.bind, hpass]
    · refine ⟨?_, ?_, fun q hq => ?_, fun q hq hcrit => ?_, fun q hq => ?_⟩
      · refine List.Perm.trans ?_ (hqueue ▸ hperm)
        rw [List.append_assoc]
        exact List.perm_append_comm.trans (by simp)
      · exact iff_of_true rfl (hfind.mpr ⟨p, hmem, hpending⟩)
      · exact Option.some.inj hq ▸ hpending
      · rw [← Option.some.inj hq]
        exact pnCritical_first hlevel (hL.trans hqueue) hA hcrit
      · rw [← hq, List.getLast?_concat]
  | none =>
    have hnone : ¬ ∃ p ∈ L, ptTrackTasksPending (s.tracker p) = true := by
      rintro ⟨p, hp, hpending⟩
      exact List.find?_eq_none.mp hfirst p hp hpending
    obtain ⟨found, nodes, hcall, hnodes, hfound⟩ := pnGetNextPendingTracker_total s
    cases found with
    | none =>
      refine ⟨none, nodes, hcall, hnodes, ?_, fun p hp => ?_, fun p hp => ?_, fun p hp => ?_⟩
      · exact iff_of_false Bool.false_ne_true fun h => hnone (hfind.mp h)
      · cases hp
      · cases hp
      · cases hp
    | some p =>
      have hmem : p ∈ s.nodes := hnodes.mem_iff.mp (hfound p rfl)
      exact absurd (hfind.mp ⟨p, hmem, pnGetNextPendingTracker_pending hcall p rfl⟩) hnone

end Call

theorem pn_next_pending_two : ∃ found nodes,
    pnGetNextPendingTracker (pnTwoNodes [8]) = .ok (found, { pnTwoNodes [8] with nodes := nodes }) ∧
      PnFinds (pnTwoNodes [8]) found nodes :=
  pn_next_pending (pnTwoNodes_nodes [8]).level rfl

end FlightOs
