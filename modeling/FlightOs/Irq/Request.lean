/-
# Requesting and freeing interrupts

A driver has its handlers registered by `irq_request` and deregistered by `irq_free`
(`kernel/irq.c`), which leave it to the interrupt controller to choose the table.  A handler is
deregistered with the arguments it was requested with; what the table then looks at is its own matter.

* `irqRequest_cases`: a request is refused, moves an element to a line that does not exist, or adds one
  registration.
* `irqFree_registered`: what is freed is what is on the line that is looked at, with these arguments.
* `irqRequest_free`: of a request, nothing is left if and only if it was refused, or is freed with its
  own arguments where the line looked at is that of the interrupt (`LineFound`).
-/
import FlightOs.Irq.Registry

namespace FlightOs

/-- `irq_request`, with `enable_irq` of the controller. -/
def irqRequest (leon : LeonModel) (s : IrlTables) (priority : IsrExecPriority) (c : IrlCall) :
    Option (Int × IrlTables) :=
  if c.irq < irlSize then irlRegisterHandler leon s priority c
  else eirlRegisterHandler leon s priority c

/-- `irq_free`, with `disable_irq` of the controller, which does not return anything. -/
def irqFree (s : IrlTables) (c : IrlCall) : Option IrlTables :=
  (if c.irq > 0xf then eirlDeregisterHandler s c else irlDeregisterHandler s c).map Prod.snd

/-- The table that both look at. -/
def irqTable (irq : Nat) : IrqTable := if irq < irlSize then .primary else .extended

/-- A handler is registered for an interrupt, with this argument. -/
def IrlTables.Has (s : IrlTables) (irq handler data : Nat) : Prop :=
  ∃ e ∈ s.registered, e.irq = irq ∧ e.handler = handler ∧ e.data = data

instance (s : IrlTables) (irq handler data : Nat) : Decidable (s.Has irq handler data) :=
  inferInstanceAs (Decidable (∃ e ∈ s.registered, _))

/-- `irq_free` looks at the line that `irq_request` has used. -/
def LineFound (leon : LeonModel) (irq : Nat) : Prop :=
  irq < irlSize ∨ (leon = .leon3 ∧ irq < eirlSize)

instance (leon : LeonModel) (irq : Nat) : Decidable (LineFound leon irq) :=
  inferInstanceAs (Decidable (_ ∨ _))

section Request

variable {leon : LeonModel} {s s' : IrlTables} {c d : IrlCall} {priority : IsrExecPriority}

theorem lineFound_iff {irq : Nat} :
    LineFound leon irq ↔ irq < eirlSize ∧ lineOf leon (irqTable irq) irq = irq := by
  have hsize : irlSize < eirlSize := by decide
  by_cases hlow : irq < irlSize
  · rw [irqTable, if_pos hlow]
    exact iff_of_true (.inl hlow) ⟨Nat.lt_trans hlow hsize, rfl⟩
  · rw [irqTable, if_neg hlow, LineFound]
    cases leon with
    | leon2 =>
      refine iff_of_false (fun h => ?_) fun h => ?_
      · rcases h with h | h
        · exact hlow h
        · cases h.1
      · -- the line of the LEON2 is a lower one
        have hline : irq - irlSize = irq := h.2
        have hpos : 0 < irlSize := by decide
        omega
    | leon3 => exact ⟨fun h => ⟨(h.resolve_left hlow).2, rfl⟩, fun h => .inr ⟨rfl, h.1⟩⟩

/-- The line of an interrupt that is looked at exists. -/
theorem LineFound.exists {irq : Nat} (h : LineFound leon irq) :
    lineOf leon (irqTable irq) irq < (irqTable irq).size ∧ irq ≤ irlSize + eirlSize := by
  obtain ⟨hlt, hline⟩ := lineFound_iff.mp h
  refine ⟨?_, Nat.le_trans (Nat.le_of_lt hlt) (Nat.le_add_left _ _)⟩
  rw [hline, irqTable]
  split
  · assumption
  · exact hlt

/-- **What a request does.** -/
theorem irqRequest_cases (hs : IrlInv leon s) (priority : IsrExecPriority) (hnull : c.handler ≠ 0) :
    ((s.pool = [] ∨ irlSize + eirlSize < c.irq) ∧
      ∃ ret, ret ≠ 0 ∧ irqRequest leon s priority c = some (ret, s)) ∨
    (s.pool ≠ [] ∧ c.irq ≤ irlSize + eirlSize) ∧
      (((irqTable c.irq).size ≤ lineOf leon (irqTable c.irq) c.irq ∧
          irqRequest leon s priority c = none) ∨
        ∃ s', irqRequest leon s priority c = some (0, s') ∧ IrlInv leon s' ∧
          s'.registered.Perm
            (⟨irqTable c.irq, c.irq, c.handler, c.data, some priority⟩ :: s.registered)) := by
  have htable : ∃ refused, irqRequest leon s priority c = registerHandler leon (irqTable c.irq) refused
        (lineOf leon (irqTable c.irq) c.irq) s priority c ∧
      (refused = true ↔ irlSize + eirlSize < c.irq) := by
    rw [irqRequest, irqTable]
    split
    · rename_i hlow
      refine ⟨_, rfl, iff_of_false (fun h => ?_) (by omega)⟩
      exact absurd (of_decide_eq_true h) (by omega)
    · rename_i hhigh
      refine ⟨_, rfl, ?_⟩
      rw [Bool.or_eq_true, decide_eq_true_eq, decide_eq_true_eq]
      exact or_iff_left hhigh
  have hgiven : irqTable c.irq = .extended → irlSize ≤ c.irq := by
    rw [irqTable]
    split
    · exact fun h => by cases h
    · rename_i hhigh
      exact fun _ => Nat.le_of_not_lt hhigh
  obtain ⟨refused, heq, hrefused⟩ := htable
  rw [heq]
  rcases registerHandler_cases leon (irqTable c.irq) refused (lineOf leon (irqTable c.irq) c.irq) s
    priority c with ⟨hnot, hret⟩ | ⟨hpool, hok, -, hline⟩
  · left
    refine ⟨?_, hret⟩
    rcases hnot with h | h | h
    · exact .inl h
    · exact .inr (hrefused.mp h)
    · exact absurd h hnull
  · right
    refine ⟨⟨hpool, Nat.le_of_not_lt fun hlt => ?_⟩, ?_⟩
    · exact absurd (hok.symm.trans (hrefused.mpr hlt)) (by decide)
    · rcases hline with hnone | ⟨hi, p, pool, hcons, hsome⟩
      · exact .inl hnone
      · have hreg := @registered_of_register leon s (irqTable c.irq) (lineOf leon (irqTable c.irq) c.irq)
          p pool hcons ⟨c.handler, some priority, c.data, lineOf leon (irqTable c.irq) c.irq⟩ c.irq c.cpu
        exact .inr ⟨_, hsome, hreg.inv hs hi rfl hgiven, hreg.registered hs.conserved hi⟩

/-- **What is freed.** -/
theorem irqFree_registered (hs : IrlInv leon s) (c : IrlCall) :
    ∃ s', irqFree s c = some s' ∧ IrlInv leon s' ∧ s'.registered = s.registered.filter
      fun e => ¬ (c.irq < eirlSize ∧ e.OnLine leon (irqTable c.irq) c.irq c) := by
  have htable : ∃ refused, irqFree s c = (deregisterHandler (irqTable c.irq) refused s c).map Prod.snd ∧
      (refused = false ↔ c.irq < eirlSize) := by
    rw [irqFree, irqTable]
    by_cases hlow : c.irq < irlSize
    · rw [if_pos hlow, if_neg (Nat.not_lt.mpr (Nat.le_of_lt_succ hlow))]
      refine ⟨_, rfl, iff_of_true ?_ (Nat.lt_trans hlow (by decide))⟩
      exact decide_eq_false (Nat.not_lt.mpr (Nat.le_of_lt_succ hlow))
    · rw [if_neg hlow, if_pos (Nat.lt_of_not_le fun hle => hlow (Nat.lt_succ_of_le hle))]
      refine ⟨_, rfl, ?_⟩
      rw [Bool.or_eq_false_iff, decide_eq_false_iff_not, decide_eq_false_iff_not, Nat.not_lt]
      exact ⟨fun h => Nat.lt_succ_of_le h.1, fun h => ⟨Nat.le_of_lt_succ h, hlow⟩⟩
  obtain ⟨refused, heq, hrefused⟩ := htable
  have hrange : refused = false → c.irq < (irqTable c.irq).size := by
    intro h
    rw [irqTable]
    split
    · assumption
    · exact hrefused.mp h
  obtain ⟨ret, s', hsome, hinv, hregistered⟩ := deregisterHandler_registered hs hrange
  refine ⟨s', ?_, hinv, ?_⟩
  · rw [heq, hsome]
    rfl
  · rw [hregistered]
    refine List.filter_congr fun e _ => decide_eq_decide.mpr (not_congr ?_)
    rw [hrefused]

/-- What is freed was registered before. -/
theorem irqFree_has (hs : IrlInv leon s) (hfree : irqFree s c = some s') {irq handler data : Nat}
    (h : s'.Has irq handler data) : s.Has irq handler data := by
  obtain ⟨s₁, hfree₁, -, hregistered⟩ := irqFree_registered hs c
  obtain rfl := Option.some.inj (hfree.symm.trans hfree₁)
  obtain ⟨e, he, hargs⟩ := h
  rw [hregistered] at he
  exact ⟨e, List.mem_of_mem_filter he, hargs⟩

/-- **A request that is freed.**  Where nothing was registered with its arguments before, something is
left of it unless it is freed with the same ones, and its line is found. -/
theorem irqRequest_free {s₁ s₂ : IrlTables} (hnone : ¬ s.Has c.irq c.handler c.data)
    (hs₁ : IrlInv leon s₁)
    (hreg : s₁.registered.Perm
      (⟨irqTable c.irq, c.irq, c.handler, c.data, some priority⟩ :: s.registered))
    (hirq : d.irq = c.irq) (hfree : irqFree s₁ d = some s₂) :
    s₂.Has c.irq c.handler c.data ↔
      ¬ (LineFound leon c.irq ∧ d.handler = c.handler ∧ d.data = c.data) := by
  obtain ⟨s', hfree', -, hregistered⟩ := irqFree_registered hs₁ d
  obtain rfl := Option.some.inj (hfree.symm.trans hfree')
  rw [IrlTables.Has, hregistered, lineFound_iff, hirq]
  constructor
  · rintro ⟨e, he, hargs⟩ ⟨⟨hlt, hline⟩, hhandler, hdata⟩
    obtain ⟨hmem, hkept⟩ := List.mem_filter.mp he
    have hkept := of_decide_eq_true hkept
    rcases List.mem_cons.mp (hreg.subset hmem) with rfl | hold
    · exact hkept ⟨hlt, rfl, hline, hhandler.symm, hdata.symm⟩
    · exact hnone ⟨e, hold, hargs⟩
  · intro hnot
    refine ⟨_, List.mem_filter.mpr ⟨hreg.symm.subset List.mem_cons_self, decide_eq_true ?_⟩, rfl, rfl, rfl⟩
    rintro ⟨hlt, -, hline, hhandler, hdata⟩
    exact hnot ⟨⟨hlt, hline⟩, hhandler.symm, hdata.symm⟩

end Request

end FlightOs
