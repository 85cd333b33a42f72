/-
# Two lists that share their entries

A pool keeps its entries on two lists, those it searches and those it does not, and
`list_move_tail` takes an entry from either to the end of either.  `ListPair` says that the two
are proper rings with nothing in common; each operation has one lemma that gives both rings
behind it.

The entries are given by what embeds them: `e x` is the node of `x`.
-/
import FlightOs.ListHead

namespace FlightOs

variable {α β : Type}

/-- The rings at `h` and `k` hold the nodes of `xs` and `ys`. -/
structure ListPair (m : Links β) (e : α → β) (h k : β) (xs ys : List α) : Prop where
  fst : Ring m h (xs.map e)
  snd : Ring m k (ys.map e)
  apart : ∀ b ∈ h :: xs.map e, b ∉ k :: ys.map e

namespace ListPair

variable {m : Links β} {e : α → β} {h k : β} {xs ys : List α} {n : α}

theorem symm (L : ListPair m e h k xs ys) : ListPair m e k h ys xs :=
  ⟨L.snd, L.fst, fun b hb hb' => L.apart b hb' hb⟩

/-- No entry is twice on the lists. -/
theorem nodup (L : ListPair m e h k xs ys) : (xs ++ ys).Nodup := by
  refine List.nodup_append.mpr ⟨?_, ?_, ?_⟩
  · exact ((List.nodup_cons.mp L.fst.nodup).2).of_map e
  · exact ((List.nodup_cons.mp L.snd.nodup).2).of_map e
  · rintro x hx y hy rfl
    exact L.apart (e x) (List.mem_cons_of_mem _ (List.mem_map_of_mem hx))
      (List.mem_cons_of_mem _ (List.mem_map_of_mem hy))

/-- The lists at the heads are determined. -/
theorem unique (he : Function.Injective e) {xs' ys' : List α} (L : ListPair m e h k xs ys)
    (L' : ListPair m e h k xs' ys') : xs = xs' ∧ ys = ys' :=
  ⟨List.map_injective_iff.mpr he (L.fst.unique L'.fst),
    List.map_injective_iff.mpr he (L.snd.unique L'.snd)⟩

theorem notMem_heads (L : ListPair m e h k xs ys) (hn : n ∈ xs) : e n ≠ h ∧ e n ≠ k := by
  have hmem : e n ∈ xs.map e := List.mem_map_of_mem hn
  constructor
  · rintro heq
    exact L.fst.notMem (heq ▸ hmem)
  · rintro heq
    exact L.apart (e n) (List.mem_cons_of_mem _ hmem) (heq ▸ List.mem_cons_self)

/-! ## 1. Linking in -/

variable [DecidableEq β]

theorem addTail (L : ListPair m e h k xs ys) (hn : e n ∉ h :: xs.map e)
    (hn' : e n ∉ k :: ys.map e) : ListPair (listAddTail m (e n) h) e h k (xs ++ [n]) ys := by
  constructor
  · rw [List.map_append]
    exact listAddTail_ring L.fst hn
  · refine L.snd.congr (fun b hb => listAddTail_frame L.fst (fun hb' => L.apart b hb' hb) ?_)
    rintro rfl
    exact hn' hb
  · intro b hb
    rw [List.map_append, ← List.cons_append, List.mem_append] at hb
    rcases hb with hb | hb
    · exact L.apart b hb
    · rw [List.map_singleton, List.mem_singleton] at hb
      exact hb ▸ hn'

/-! ## 2. Unlinking -/

variable [DecidableEq α]

omit [DecidableEq β] in
theorem notMem_erase (he : Function.Injective e) (L : ListPair m e h k xs ys) (hn : n ∈ xs) :
    e n ∉ h :: (xs.erase n).map e ∧ e n ∉ k :: ys.map e := by
  have hnd : xs.Nodup := (List.nodup_append.mp L.nodup).1
  obtain ⟨hh, hk⟩ := L.notMem_heads hn
  constructor
  · rw [List.mem_cons, List.mem_map_of_injective he]
    exact not_or.mpr ⟨hh, fun hmem => (hnd.mem_erase_iff.mp hmem).1 rfl⟩
  · exact L.apart _ (List.mem_cons_of_mem _ (List.mem_map_of_mem hn))

/-- An edit that takes the node of `n` out of the first ring and leaves the second alone. -/
theorem erase (he : Function.Injective e) {m' : Links β} (L : ListPair m e h k xs ys)
    (hring : Ring m' h ((xs.map e).erase (e n)))
    (hframe : ∀ b, b ∉ h :: xs.map e → m' b = m b) : ListPair m' e h k (xs.erase n) ys := by
  rw [← List.map_erase he] at hring
  refine ⟨hring, L.snd.congr (fun b hb => hframe b (fun hb' => L.apart b hb' hb)), ?_⟩
  intro b hb
  refine L.apart b ?_
  rcases List.mem_cons.mp hb with rfl | hb
  · exact List.mem_cons_self
  · exact List.mem_cons_of_mem _ (List.map_subset e List.erase_subset hb)

theorem rawDel (he : Function.Injective e) (L : ListPair m e h k xs ys) (hn : n ∈ xs) :
    ListPair (rawListDel m (m (e n)).prev (m (e n)).next) e h k (xs.erase n) ys :=
  L.erase he (rawListDel_ring L.fst (List.mem_map_of_mem hn)) (fun _ hb =>
    rawListDel_frame L.fst (List.mem_cons_of_mem _ (List.mem_map_of_mem hn)) hb)

/-- `list_del` of an entry of the first list. -/
theorem del (he : Function.Injective e) (L : ListPair m e h k xs ys) (hn : n ∈ xs) :
    ListPair (listDel m (e n)) e h k (xs.erase n) ys :=
  L.erase he (listDel_ring L.fst (List.mem_map_of_mem hn)) (fun _ hb =>
    listDel_frame L.fst (List.mem_cons_of_mem _ (List.mem_map_of_mem hn)) hb)

/-! ## 3. Moving -/

/-- `list_move_tail` within the first list. -/
theorem moveTail (he : Function.Injective e) (L : ListPair m e h k xs ys) (hn : n ∈ xs) :
    ListPair (listMoveTail m (e n) h) e h k (xs.erase n ++ [n]) ys := by
  obtain ⟨h1, h2⟩ := L.notMem_erase he hn
  exact (L.rawDel he hn).addTail h1 h2

/-- `list_move_tail` of an entry of the first list to the second. -/
theorem moveAcross (he : Function.Injective e) (L : ListPair m e h k xs ys) (hn : n ∈ xs) :
    ListPair (listMoveTail m (e n) k) e h k (xs.erase n) (ys ++ [n]) := by
  obtain ⟨h1, h2⟩ := L.notMem_erase he hn
  exact ((L.rawDel he hn).symm.addTail h2 h1).symm

end ListPair

end FlightOs
