/-
# What comes to the front

Entries are met one after the other.  One that bids goes to the front if its key is less than the key
of the entry that is there.  The first entry is at the front from the beginning, whether it bids or
not.  If it does not, it still counts with its key; but if it is not up either, an entry that wakes
goes to the front in any case.

* `Contest.first`, `Contest.place`: what is at the front in the end, and where each entry is put.
* `Contest.Heard`: the bids that the first entry does not hide.
* `Contest.goes_first_iff`: an entry goes to the front if it is heard and has the least key so far.
* `Contest.first_spec`: at the front is the first of the heard entries with the least key, or the
  first entry of all if none is heard.
-/
import Mathlib.Order.Lattice
import Mathlib.Order.Nat
import Mathlib.Data.List.Induction
import Mathlib.Data.List.Nodup
import Mathlib.Tactic.Common

namespace FlightOs

/-- What is known of an entry; one that wakes bids. -/
structure Contest (α β : Type) where
  bids : α → Bool
  wakes : α → Bool
  up : α → Bool
  key : α → β
  bids_of_wakes : ∀ {a}, wakes a = true → bids a = true

namespace Contest

variable {α β : Type} [LinearOrder β] (c : Contest α β)

/-- The entry `b` goes to the front when `h` is there. -/
def goes (b h : α) : Bool :=
  c.bids b && (c.wakes b && !c.bids h && !c.up h || decide (c.key b < c.key h))

/-- What is at the front when the entries of a list have been met, behind `h`. -/
def first (h : α) (E : List α) : α := E.foldl (fun h b => if c.goes b h then b else h) h

/-- What is at the front after the entries of a list. -/
def front : List α → Option α
  | [] => none
  | l :: E => some (c.first l E)

/-- Where an entry that is met is put. -/
def place : List α → α → List α
  | [], e => [e]
  | h :: P, e => if c.goes e h then e :: h :: P else h :: P ++ [e]

variable {c} {V W : List α} {b h l o : α}

theorem goes_iff : c.goes b h = true ↔ c.bids b = true ∧
    ((c.wakes b = true ∧ c.bids h = false) ∧ c.up h = false ∨ c.key b < c.key h) := by
  simp [goes]

/-- A front that bids is replaced by a smaller key only. -/
theorem goes_iff_of_bids (hh : c.bids h = true) :
    c.goes b h = true ↔ c.bids b = true ∧ c.key b < c.key h := by
  simp [goes, hh]

theorem first_append (h : α) (A B : List α) : c.first h (A ++ B) = c.first (c.first h A) B :=
  List.foldl_append

@[simp] theorem first_nil (h : α) : c.first h [] = h := rfl

theorem first_cons (h b : α) (E : List α) :
    c.first h (b :: E) = c.first (if c.goes b h then b else h) E := rfl

theorem first_snoc (h o : α) (E : List α) :
    c.first h (E ++ [o]) = if c.goes o (c.first h E) then o else c.first h E := first_append h E [o]

theorem first_mem (h : α) (E : List α) : c.first h E ∈ h :: E := by
  induction E generalizing h with
  | nil => exact List.mem_cons_self
  | cons b E ih =>
    rw [first_cons]
    split
    · exact List.mem_cons_of_mem _ (ih b)
    · rcases List.mem_cons.mp (ih h) with h1 | h1
      · exact List.mem_cons.mpr (.inl h1)
      · exact List.mem_cons_of_mem _ (List.mem_cons_of_mem _ h1)

theorem front_snoc (V : List α) (e : α) : c.front (V ++ [e]) =
    some (((c.front V).map fun h => if c.goes e h then e else h).getD e) := by
  cases V with
  | nil => rfl
  | cons l E => exact congrArg some (first_snoc l e E)

theorem place_perm (P : List α) (e : α) : (c.place P e).Perm (P ++ [e]) := by
  cases P with
  | nil => exact List.Perm.refl _
  | cons h P =>
    rw [place]
    split
    · exact (List.perm_append_singleton e (h :: P)).symm
    · exact List.Perm.refl _

theorem head?_place (P : List α) (e : α) : (c.place P e).head? =
    some ((P.head?.map fun h => if c.goes e h then e else h).getD e) := by
  cases P with
  | nil => rfl
  | cons h P =>
    rw [place]
    split
    case isTrue hgo => simp [hgo]
    case isFalse hgo => simp [hgo]

theorem foldl_place_perm (E P : List α) : (E.foldl c.place P).Perm (P ++ E) := by
  induction E generalizing P with
  | nil => simp
  | cons e E ih =>
    refine (ih (c.place P e)).trans ?_
    simpa using (place_perm P e).append_right E

/-- The head of the list is what is at the front. -/
theorem head?_foldl_place (E : List α) {P : List α} (h : P.head? = c.front V) :
    (E.foldl c.place P).head? = c.front (V ++ E) := by
  induction E generalizing P V with
  | nil => simpa using h
  | cons e E ih =>
    have hsplit : V ++ e :: E = V ++ [e] ++ E := by simp
    rw [List.foldl_cons, hsplit]
    exact ih (by rw [head?_place, front_snoc, h])

/-! ## Entries that are met later -/

variable [DecidableEq α]

variable (c) in
/-- An entry bids, and the first one does not hide it: that bids too, or has a greater key, or is not
up and something has been woken. -/
def Heard (V : List α) (b : α) : Prop :=
  (b ∈ V ∧ c.bids b = true) ∧ ∀ l ∈ V.head?, c.bids l = true ∨ c.key b < c.key l ∨
    c.up l = false ∧ ∃ w ∈ V, c.wakes w = true ∧ V.idxOf w ≤ V.idxOf b

variable (c) in
/-- The entry `m` has the smaller key, or the same one and is met before `u`. -/
def Before (V : List α) (m u : α) : Prop :=
  c.key m < c.key u ∨ c.key m = c.key u ∧ V.idxOf m < V.idxOf u

instance (V : List α) (b : α) : Decidable (c.Heard V b) :=
  inferInstanceAs (Decidable (_ ∧ _))

instance (V : List α) (m u : α) : Decidable (c.Before V m u) :=
  inferInstanceAs (Decidable (_ ∨ _))

theorem Heard.mem (hb : c.Heard V b) : b ∈ V := hb.1.1

theorem Heard.bids (hb : c.Heard V b) : c.bids b = true := hb.1.2

/-- Entries that are met later make no difference. -/
theorem heard_append (hb : b ∈ V) : c.Heard (V ++ W) b ↔ c.Heard V b := by
  have hidx := List.idxOf_lt_length_of_mem hb
  have hhead : (V ++ W).head? = V.head? := List.head?_append_of_ne_nil V (List.ne_nil_of_mem hb)
  have hwoken : (∃ w ∈ V ++ W, c.wakes w = true ∧ (V ++ W).idxOf w ≤ (V ++ W).idxOf b) ↔
      ∃ w ∈ V, c.wakes w = true ∧ V.idxOf w ≤ V.idxOf b := by
    rw [List.idxOf_append_of_mem hb]
    constructor
    · rintro ⟨w, hw, hwakes, hle⟩
      by_cases hwV : w ∈ V
      · rw [List.idxOf_append_of_mem hwV] at hle
        exact ⟨w, hwV, hwakes, hle⟩
      · rw [List.idxOf_append_of_notMem hwV] at hle
        omega
    · rintro ⟨w, hw, hwakes, hle⟩
      exact ⟨w, List.mem_append_left _ hw, hwakes, by rwa [List.idxOf_append_of_mem hw]⟩
  simp only [Heard, hhead, hwoken, hb, List.mem_append_left W hb]

/-- The last entry is heard if the first one does not hide it. -/
theorem heard_snoc (ho : o ∉ V) (hl : V.head? = some l) : c.Heard (V ++ [o]) o ↔
    c.bids o = true ∧ (c.bids l = true ∨ c.key o < c.key l ∨
      c.up l = false ∧ (c.wakes o = true ∨ ∃ w ∈ V, c.wakes w = true)) := by
  have hne : V ≠ [] := by
    rintro rfl
    cases hl
  have hlast : (V ++ [o]).idxOf o = V.length := by
    rw [List.idxOf_append_of_notMem ho, List.idxOf_cons_self, Nat.add_zero]
  have hwoken : (∃ w ∈ V ++ [o], c.wakes w = true ∧ (V ++ [o]).idxOf w ≤ (V ++ [o]).idxOf o) ↔
      c.wakes o = true ∨ ∃ w ∈ V, c.wakes w = true := by
    rw [hlast]
    constructor
    · rintro ⟨w, hw, hwakes, -⟩
      rcases List.mem_append.mp hw with hw | hw
      · exact .inr ⟨w, hw, hwakes⟩
      · rw [List.mem_singleton.mp hw] at hwakes
        exact .inl hwakes
    · rintro (hwakes | ⟨w, hw, hwakes⟩)
      · exact ⟨o, by simp, hwakes, hlast.le⟩
      · refine ⟨w, List.mem_append_left _ hw, hwakes, ?_⟩
        rw [List.idxOf_append_of_mem hw]
        exact (List.idxOf_lt_length_of_mem hw).le
  have hmem : o ∈ V ++ [o] := List.mem_append_right _ (List.mem_singleton_self o)
  simp only [Heard, hwoken, hmem, List.head?_append_of_ne_nil V hne, hl, Option.mem_def,
    Option.some.injEq, forall_eq', true_and]

theorem before_append {m u : α} (hm : m ∈ V) (hu : u ∈ V) :
    c.Before (V ++ W) m u ↔ c.Before V m u := by
  rw [Before, Before, List.idxOf_append_of_mem hm, List.idxOf_append_of_mem hu]

/-- An entry that is met before all others only has to have no greater key. -/
theorem before_snoc {m : α} (hm : m ∈ V) (ho : o ∉ V) :
    c.Before (V ++ [o]) m o ↔ c.key m ≤ c.key o := by
  have hlt := List.idxOf_lt_length_of_mem hm
  rw [Before, List.idxOf_append_of_mem hm, List.idxOf_append_of_notMem ho, le_iff_lt_or_eq]
  exact or_congr_right (and_iff_left (by omega))

theorem Before.trans {m u v : α} (h : c.Before V m u) (h' : c.Before V u v) : c.Before V m v := by
  rcases h with h | ⟨h, hi⟩
  · rcases h' with h' | ⟨h', -⟩
    · exact .inl (h.trans h')
    · exact .inl (h' ▸ h)
  · rcases h' with h' | ⟨h', hi'⟩
    · exact .inl (h ▸ h')
    · exact .inr ⟨h.trans h', hi.trans hi'⟩

theorem Before.asymm {m u : α} (h : c.Before V m u) : ¬ c.Before V u m := fun h' => by
  rcases h.trans h' with h | ⟨-, h⟩
  · exact lt_irrefl _ h
  · exact lt_irrefl _ h

theorem Before.le {m u : α} (h : c.Before V m u) : c.key m ≤ c.key u :=
  h.elim le_of_lt fun h => h.1.le

/-! ## The front -/

/-- What is at the front: the first entry, which is not heard and neither is any other; or the first
of the heard entries with the least key. -/
def IsFront (c : Contest α β) (l : α) (V : List α) (m : α) : Prop :=
  (m = l ∧ ∀ b, ¬ c.Heard V b) ∨ (c.Heard V m ∧ ∀ b, c.Heard V b → b = m ∨ c.Before V m b)

/-- An entry goes to the front if it is heard, and has a smaller key than the ones heard before. -/
theorem IsFront.goes_iff (hfront : c.IsFront l (l :: V) h) (ho : o ∉ l :: V) :
    c.goes o h = true ↔
      c.Heard (l :: V ++ [o]) o ∧ ∀ b, c.Heard (l :: V) b → c.key o < c.key b := by
  rw [heard_snoc ho rfl]
  rcases hfront with ⟨rfl, hnone⟩ | ⟨hheard, hbefore⟩
  · -- nothing has been heard
    have hbids : c.bids h = false := by
      rw [← Bool.not_eq_true]
      intro hb
      exact hnone h ⟨⟨List.mem_cons_self, hb⟩, fun l hl => by
        cases hl
        exact .inl hb⟩
    have hwoken : c.up h = false → ∀ w ∈ h :: V, ¬ c.wakes w = true := by
      intro hup w hw hwakes
      refine hnone w ⟨⟨hw, c.bids_of_wakes hwakes⟩, fun l hl => ?_⟩
      cases hl
      exact .inr (.inr ⟨hup, w, hw, hwakes, le_rfl⟩)
    rw [Contest.goes_iff]
    constructor
    · rintro ⟨hb, ⟨⟨hwakes, -⟩, hup⟩ | hlt⟩
      · exact ⟨⟨hb, .inr (.inr ⟨hup, .inl hwakes⟩)⟩, fun b hb' => absurd hb' (hnone b)⟩
      · exact ⟨⟨hb, .inr (.inl hlt)⟩, fun b hb' => absurd hb' (hnone b)⟩
    · rintro ⟨⟨hb, h1 | hlt | ⟨hup, hwakes | ⟨w, hw, hwakes⟩⟩⟩, -⟩
      · rw [h1] at hbids
        cases hbids
      · exact ⟨hb, .inr hlt⟩
      · exact ⟨hb, .inl ⟨⟨hwakes, hbids⟩, hup⟩⟩
      · exact absurd hwakes (hwoken hup w hw)
  · -- what is there has the least key of those heard
    rw [goes_iff_of_bids hheard.bids]
    constructor
    · rintro ⟨hb, hlt⟩
      refine ⟨⟨hb, ?_⟩, fun b hb' => ?_⟩
      · rcases hheard.2 l rfl with h1 | h1 | ⟨hup, w, hw, hwakes, -⟩
        · exact .inl h1
        · exact .inr (.inl (hlt.trans h1))
        · exact .inr (.inr ⟨hup, .inr ⟨w, hw, hwakes⟩⟩)
      · rcases hbefore b hb' with rfl | h1
        · exact hlt
        · exact hlt.trans_le h1.le
    · rintro ⟨⟨hb, -⟩, hleast⟩
      exact ⟨hb, hleast h hheard⟩

/-- **What is at the front in the end.** -/
theorem first_spec (l : α) (E : List α) (hnd : (l :: E).Nodup) :
    c.IsFront l (l :: E) (c.first l E) := by
  induction E using List.reverseRecOn with
  | nil =>
    by_cases hb : c.bids l = true
    · refine .inr ⟨⟨⟨List.mem_cons_self, hb⟩, fun k hk => by
        cases hk
        exact .inl hb⟩, fun b hb' => .inl (List.mem_singleton.mp hb'.mem)⟩
    · refine .inl ⟨rfl, fun b hb' => hb ?_⟩
      rw [← List.mem_singleton.mp hb'.mem]
      exact hb'.bids
  | append_singleton A o ih =>
    have hperm : (l :: (A ++ [o])).Nodup ↔ (l :: A ++ [o]).Nodup := Iff.rfl
    obtain ⟨hA, -, hdisj⟩ := List.nodup_append.mp (hperm.mp hnd)
    have ho : o ∉ l :: A := fun h => hdisj o h o (List.mem_singleton_self o) rfl
    have hfront := ih hA
    have hgo := hfront.goes_iff ho
    have hmem : ∀ b, c.Heard (l :: A ++ [o]) b → b = o ∨ c.Heard (l :: A) b := by
      intro b hb
      rcases List.mem_append.mp hb.mem with h1 | h1
      · exact .inr ((heard_append h1).mp hb)
      · exact .inl (List.mem_singleton.mp h1)
    rw [first_snoc]
    change c.IsFront l (l :: A ++ [o]) _
    by_cases hgoes : c.goes o (c.first l A) = true
    · -- a new front
      rw [if_pos hgoes]
      obtain ⟨hheard, hleast⟩ := hgo.mp hgoes
      refine .inr ⟨hheard, fun b hb => (hmem b hb).imp_right fun h1 => .inl (hleast b h1)⟩
    rw [if_neg hgoes]
    rcases hfront with ⟨heq, hnone⟩ | ⟨hheard, hbefore⟩
    · refine .inl ⟨heq, fun b hb => ?_⟩
      rcases hmem b hb with rfl | h1
      · exact hgoes (hgo.mpr ⟨hb, fun u hu => absurd hu (hnone u)⟩)
      · exact hnone b h1
    · refine .inr ⟨(heard_append hheard.mem).mpr hheard, fun b hb => ?_⟩
      rcases hmem b hb with rfl | h1
      · right
        rw [before_snoc hheard.mem ho]
        by_contra hlt
        refine hgoes (hgo.mpr ⟨hb, fun u hu => ?_⟩)
        rcases hbefore u hu with rfl | h2
        · exact not_le.mp hlt
        · exact (not_le.mp hlt).trans_le h2.le
      · refine (hbefore b h1).imp_right fun h2 => ?_
        exact (before_append hheard.mem h1.mem).mpr h2

/-- **An entry goes to the front** if it is heard, and has a smaller key than the ones heard before. -/
theorem goes_first_iff {A B : List α} (hnd : (l :: (A ++ o :: B)).Nodup) :
    c.goes o (c.first l A) = true ↔ c.Heard (l :: (A ++ o :: B)) o ∧
      ∀ b, c.Heard (l :: (A ++ o :: B)) b →
        (l :: (A ++ o :: B)).idxOf b < (l :: (A ++ o :: B)).idxOf o → c.key o < c.key b := by
  have hsplit : l :: (A ++ o :: B) = (l :: A ++ [o]) ++ B := by simp
  rw [hsplit] at hnd ⊢
  have hnd' := (List.nodup_append.mp hnd).1
  obtain ⟨hA, -, hdisj⟩ := List.nodup_append.mp hnd'
  have ho : o ∉ l :: A := fun h => hdisj o h o (List.mem_singleton_self o) rfl
  have hlast : (l :: A ++ [o]).idxOf o = (l :: A).length := by
    rw [List.idxOf_append_of_notMem ho, List.idxOf_cons_self, Nat.add_zero]
  have hmem : o ∈ l :: A ++ [o] := List.mem_append_right _ (List.mem_singleton_self o)
  rw [(first_spec l A hA).goes_iff ho, heard_append hmem, List.idxOf_append_of_mem hmem, hlast]
  refine and_congr_right fun _ => forall_congr' fun b => ?_
  by_cases hb : b ∈ l :: A
  · have hb' : b ∈ l :: A ++ [o] := List.mem_append_left _ hb
    rw [heard_append hb', heard_append hb, List.idxOf_append_of_mem hb',
      List.idxOf_append_of_mem hb]
    exact forall_congr' fun _ => ⟨fun h _ => h, fun h => h (List.idxOf_lt_length_of_mem hb)⟩
  · refine iff_of_true (fun h => absurd h.mem hb) fun _ hlt => ?_
    by_cases hb' : b ∈ l :: A ++ [o]
    · rw [List.idxOf_append_of_mem hb', List.idxOf_append_of_notMem hb] at hlt
      omega
    · rw [List.idxOf_append_of_notMem hb'] at hlt
      simp only [List.length_append, List.length_cons, List.length_nil] at hlt
      omega

end Contest

end FlightOs
