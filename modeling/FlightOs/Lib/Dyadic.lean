/-
# Dyadic blocks and their tilings

A dyadic block is an interval `[off, off + 2 ^ ord)` of natural numbers whose start is a
multiple of its size.  Two dyadic blocks are nested or disjoint, and every block below the
top has one BUDDY, the block that makes its parent with it.  This is all a buddy system
relies on, and nothing here knows about memory.

* `Tiling n P`: the blocks of `P` are dyadic and every number below `n` lies in exactly one
  of them.
* `Tiling.exchange`: replacing some tiles by others that cover the same numbers keeps a
  tiling; splitting a block and merging two buddies are its two uses.
* `Tiling.exists_of_lone`: the completeness fact.  If no two buddies are both in `Q`, then a
  dyadic block met by tiles of `Q` only lies inside a single one of them.
* `Tiling.sum_size`: the sizes of the tiles add up to `n`.
-/
import Mathlib.Algebra.BigOperators.Group.Finset.Basic
import Mathlib.Algebra.Order.BigOperators.Group.Finset
import Mathlib.Data.Nat.Bitwise
import Mathlib.Order.Interval.Finset.Nat

namespace FlightOs

/-- A block: `2 ^ ord` numbers from `off` on. -/
structure Blk where
  off : Nat
  ord : Nat
deriving DecidableEq, Repr

/-- Two multiples of `d` are equal or at least `d` apart. -/
theorem add_le_of_dvd_of_lt {d a b : Nat} (ha : d ∣ a) (hb : d ∣ b) (h : a < b) :
    a + d ≤ b := by
  obtain ⟨p, rfl⟩ := ha
  obtain ⟨q, rfl⟩ := hb
  have hpq : p < q := Nat.lt_of_mul_lt_mul_left h
  calc d * p + d = d * (p + 1) := (Nat.mul_succ d p).symm
    _ ≤ d * q := Nat.mul_le_mul_left d hpq

namespace Blk

/-- The first number after the block. -/
def stop (b : Blk) : Nat := b.off + 2 ^ b.ord

/-- The number `x` lies in the block. -/
def Has (b : Blk) (x : Nat) : Prop := b.off ≤ x ∧ x < b.stop

/-- The block starts at a multiple of its size. -/
def Aligned (b : Blk) : Prop := 2 ^ b.ord ∣ b.off

/-- The block `b` lies inside the block `c`. -/
def Inside (b c : Blk) : Prop := c.off ≤ b.off ∧ b.stop ≤ c.stop

/-- The other half of the parent. -/
def buddy (b : Blk) : Blk := ⟨b.off ^^^ 2 ^ b.ord, b.ord⟩

/-- The block that a block and its buddy make together. -/
def parent (b : Blk) : Blk := ⟨min b.off b.buddy.off, b.ord + 1⟩

/-- The upper half of a block of order `ord + 1` at `b.off`. -/
def upper (b : Blk) : Blk := ⟨b.off + 2 ^ b.ord, b.ord⟩

@[simp] theorem buddy_ord (b : Blk) : b.buddy.ord = b.ord := rfl
@[simp] theorem parent_ord (b : Blk) : b.parent.ord = b.ord + 1 := rfl
@[simp] theorem upper_ord (b : Blk) : b.upper.ord = b.ord := rfl

theorem size_pos (b : Blk) : 0 < 2 ^ b.ord := Nat.two_pow_pos _

theorem off_lt_stop (b : Blk) : b.off < b.stop := Nat.lt_add_of_pos_right b.size_pos

theorem has_off (b : Blk) : b.Has b.off := ⟨Nat.le_refl _, b.off_lt_stop⟩

theorem Inside.has {b c : Blk} (h : b.Inside c) {x : Nat} (hx : b.Has x) : c.Has x :=
  ⟨h.1.trans hx.1, hx.2.trans_le h.2⟩

/-- A block of lower order that meets a dyadic block lies inside it. -/
theorem inside_of_meets {b c : Blk} (hb : b.Aligned) (hc : c.Aligned) (hord : b.ord ≤ c.ord)
    {x : Nat} (hbx : b.Has x) (hcx : c.Has x) : b.Inside c := by
  have hd : 2 ^ b.ord ∣ 2 ^ c.ord := Nat.pow_dvd_pow 2 hord
  have hco : 2 ^ b.ord ∣ c.off := hd.trans hc
  refine ⟨?_, ?_⟩
  · by_contra hlt
    have := add_le_of_dvd_of_lt hb hco (not_le.mp hlt)
    have := hbx.2
    have := hcx.1
    simp only [stop] at *
    omega
  · have hcs : 2 ^ b.ord ∣ c.stop := Nat.dvd_add hco hd
    exact add_le_of_dvd_of_lt hb hcs (lt_of_le_of_lt hbx.1 hcx.2)

/-- Two dyadic blocks of one order that meet are equal. -/
theorem eq_of_meets {b c : Blk} (hb : b.Aligned) (hc : c.Aligned) (hord : b.ord = c.ord)
    {x : Nat} (hbx : b.Has x) (hcx : c.Has x) : b = c := by
  have h1 := inside_of_meets hb hc hord.le hbx hcx
  have h2 := inside_of_meets hc hb hord.ge hcx hbx
  cases b; cases c
  simp only [Inside, stop] at *
  subst hord
  congr
  omega

/-! ## 1. Buddies -/

/-- Flipping the bit of the block's own size: the buddy of a dyadic block is the next block
or the one before. -/
theorem buddy_off {b : Blk} (hb : b.Aligned) :
    (b.off / 2 ^ b.ord % 2 = 0 ∧ b.buddy.off = b.off + 2 ^ b.ord) ∨
      (b.off / 2 ^ b.ord % 2 = 1 ∧ b.off = b.buddy.off + 2 ^ b.ord) := by
  obtain ⟨off, k⟩ := b
  obtain ⟨q, rfl⟩ : 2 ^ k ∣ off := hb
  have hpos : 0 < 2 ^ k := Nat.two_pow_pos k
  have hx : (2 ^ k * q) ^^^ 2 ^ k = 2 ^ k * (q ^^^ 1) := by
    have h := Nat.shiftLeft_xor_distrib (a := q) (b := 1) (i := k)
    simp only [Nat.shiftLeft_eq, Nat.one_mul] at h
    rw [Nat.mul_comm (2 ^ k) q, Nat.mul_comm (2 ^ k), h]
  simp only [buddy, hx, Nat.mul_div_cancel_left q hpos]
  rcases Nat.even_or_odd q with he | ho
  · left
    refine ⟨Nat.even_iff.mp he, ?_⟩
    rw [Nat.xor_one_of_even he, Nat.mul_succ]
  · right
    refine ⟨Nat.odd_iff.mp ho, ?_⟩
    rw [Nat.xor_one_of_odd ho]
    obtain ⟨r, rfl⟩ := ho
    rw [Nat.add_sub_cancel, Nat.mul_add, Nat.mul_one]

theorem buddy_aligned {b : Blk} (hb : b.Aligned) : b.buddy.Aligned := by
  have hd : 2 ^ b.ord ∣ b.off := hb
  show 2 ^ b.ord ∣ b.buddy.off
  rcases buddy_off hb with ⟨-, h⟩ | ⟨-, h⟩
  · rw [h]; exact Nat.dvd_add hd (Nat.dvd_refl _)
  · rw [h] at hd
    exact (Nat.dvd_add_left (Nat.dvd_refl _)).mp hd

@[simp] theorem buddy_buddy (b : Blk) : b.buddy.buddy = b := by
  cases b
  simp [buddy]

theorem buddy_ne {b : Blk} (hb : b.Aligned) : b.buddy ≠ b := by
  intro e
  have := b.size_pos
  rcases buddy_off hb with ⟨-, h⟩ | ⟨-, h⟩ <;> rw [e] at h <;> omega

/-- The parent holds exactly what the two buddies hold. -/
theorem parent_has {b : Blk} (hb : b.Aligned) (x : Nat) :
    b.parent.Has x ↔ b.Has x ∨ b.buddy.Has x := by
  have h2 : 2 ^ (b.ord + 1) = 2 ^ b.ord + 2 ^ b.ord := by rw [pow_succ]; omega
  simp only [parent, Has, stop, h2, buddy_ord]
  rcases buddy_off hb with ⟨-, h⟩ | ⟨-, h⟩ <;> omega

theorem parent_aligned {b : Blk} (hb : b.Aligned) : b.parent.Aligned := by
  -- the lower buddy is an even multiple of the size
  have key : ∀ {c : Blk}, c.Aligned → c.off / 2 ^ c.ord % 2 = 0 → 2 ^ (c.ord + 1) ∣ c.off := by
    intro c hc he
    obtain ⟨q, hq⟩ : 2 ^ c.ord ∣ c.off := hc
    rw [hq, Nat.mul_div_cancel_left q c.size_pos] at he
    rw [hq, pow_succ]
    exact Nat.mul_dvd_mul_left _ (Nat.dvd_of_mod_eq_zero he)
  show 2 ^ (b.ord + 1) ∣ min b.off b.buddy.off
  have hpos := b.size_pos
  rcases buddy_off hb with ⟨he, h⟩ | ⟨ho, h⟩
  · rw [Nat.min_eq_left (by omega)]
    exact key hb he
  · rw [Nat.min_eq_right (by omega)]
    rcases buddy_off (buddy_aligned hb) with ⟨he, -⟩ | ⟨-, h'⟩
    · exact key (buddy_aligned hb) he
    · rw [buddy_buddy, buddy_ord] at h'
      omega

/-! ### The two halves of a block -/

theorem upper_aligned {b : Blk} (hb : 2 ^ (b.ord + 1) ∣ b.off) : b.upper.Aligned :=
  Nat.dvd_add ((Nat.pow_dvd_pow 2 (Nat.le_succ _)).trans hb) (Nat.dvd_refl _)

/-- A lower half and its upper half are buddies. -/
theorem upper_eq_buddy {b : Blk} (hb : 2 ^ (b.ord + 1) ∣ b.off) : b.upper = b.buddy := by
  have hal : b.Aligned := (Nat.pow_dvd_pow 2 (Nat.le_succ _)).trans hb
  have heven : b.off / 2 ^ b.ord % 2 = 0 := by
    obtain ⟨q, hq⟩ := hb
    rw [hq, pow_succ, Nat.mul_assoc, Nat.mul_div_cancel_left _ b.size_pos, Nat.mul_mod_right]
  rcases buddy_off hal with ⟨-, h⟩ | ⟨h1, -⟩
  · show (⟨_, _⟩ : Blk) = ⟨_, _⟩
    congr 1
    exact h.symm
  · omega

end Blk

/-! ## 2. Tilings -/

/-- The blocks of `P` are dyadic, and every number below `n` lies in exactly one of them. -/
structure Tiling (n : Nat) (P : Set Blk) : Prop where
  aligned : ∀ b ∈ P, b.Aligned
  cover : ∀ x, (∃ b ∈ P, b.Has x) ↔ x < n
  unique : ∀ b ∈ P, ∀ c ∈ P, ∀ x, b.Has x → c.Has x → b = c

namespace Tiling

variable {n : Nat} {P : Set Blk}

/-- One block is a tiling of itself. -/
theorem single (k : Nat) : Tiling (2 ^ k) {⟨0, k⟩} where
  aligned := by
    rintro b rfl
    exact Nat.dvd_zero _
  cover x := by simp [Blk.Has, Blk.stop]
  unique := by
    rintro b rfl c rfl _ _ _
    rfl

theorem stop_le (h : Tiling n P) {b : Blk} (hb : b ∈ P) : b.stop ≤ n := by
  have hlt := b.off_lt_stop
  have := (h.cover (b.stop - 1)).mp ⟨b, hb, by simp only [Blk.Has]; omega⟩
  omega

theorem eq_of_off (h : Tiling n P) {b c : Blk} (hb : b ∈ P) (hc : c ∈ P)
    (e : b.off = c.off) : b = c :=
  h.unique b hb c hc b.off b.has_off (e ▸ c.has_off)

/-- Distinct tiles do not overlap. -/
theorem disjoint (h : Tiling n P) {b c : Blk} (hb : b ∈ P) (hc : c ∈ P) (hne : b ≠ c) :
    b.stop ≤ c.off ∨ c.stop ≤ b.off := by
  by_contra hov
  rw [not_or, not_le, not_le] at hov
  refine hne (h.unique b hb c hc (max b.off c.off) ?_ ?_)
  · have := b.off_lt_stop
    exact ⟨le_max_left _ _, max_lt this hov.1⟩
  · have := c.off_lt_stop
    exact ⟨le_max_right _ _, max_lt hov.2 this⟩

/-- **The exchange rule.**  Take some tiles out and put dyadic blocks in that hold the same
numbers, each once. -/
theorem exchange (h : Tiling n P) {A B P' : Set Blk} (hA : A ⊆ P)
    (hal : ∀ b ∈ B, b.Aligned) (hB : ∀ b ∈ B, ∀ c ∈ B, ∀ x, b.Has x → c.Has x → b = c)
    (hAB : ∀ x, (∃ a ∈ A, a.Has x) ↔ ∃ b ∈ B, b.Has x)
    (hP' : ∀ b, b ∈ P' ↔ (b ∈ P ∧ b ∉ A) ∨ b ∈ B) : Tiling n P' := by
  -- what a block that came in holds, a block that went out held
  have hclash : ∀ b ∈ B, ∀ c ∈ P, c ∉ A → ∀ x, b.Has x → ¬ c.Has x := by
    intro b hb c hc hcA x hbx hcx
    obtain ⟨a, ha, hax⟩ := (hAB x).mpr ⟨b, hb, hbx⟩
    exact hcA (h.unique a (hA ha) c hc x hax hcx ▸ ha)
  refine ⟨fun b hb => ?_, fun x => ?_, fun b hb c hc x hbx hcx => ?_⟩
  · rcases (hP' b).mp hb with hb | hb
    · exact h.aligned b hb.1
    · exact hal b hb
  · rw [← h.cover x]
    constructor
    · rintro ⟨b, hb, hbx⟩
      rcases (hP' b).mp hb with hb | hb
      · exact ⟨b, hb.1, hbx⟩
      · obtain ⟨a, ha, hax⟩ := (hAB x).mpr ⟨b, hb, hbx⟩
        exact ⟨a, hA ha, hax⟩
    · rintro ⟨b, hb, hbx⟩
      by_cases hbA : b ∈ A
      · obtain ⟨c, hc, hcx⟩ := (hAB x).mp ⟨b, hbA, hbx⟩
        exact ⟨c, (hP' c).mpr (Or.inr hc), hcx⟩
      · exact ⟨b, (hP' b).mpr (Or.inl ⟨hb, hbA⟩), hbx⟩
  · rcases (hP' b).mp hb with hb | hb <;> rcases (hP' c).mp hc with hc | hc
    · exact h.unique b hb.1 c hc.1 x hbx hcx
    · exact absurd hbx (hclash c hc b hb.1 hb.2 x hcx)
    · exact absurd hcx (hclash b hb c hc.1 hc.2 x hbx)
    · exact hB b hb c hc x hbx hcx

/-- **Merging two buddies.** -/
theorem merge (h : Tiling n P) {b : Blk} (hb : b ∈ P) (hb' : b.buddy ∈ P) {P' : Set Blk}
    (hP' : ∀ c, c ∈ P' ↔ (c ∈ P ∧ c ≠ b ∧ c ≠ b.buddy) ∨ c = b.parent) : Tiling n P' := by
  have hal := h.aligned b hb
  refine h.exchange (A := {b, b.buddy}) (B := {b.parent}) ?_ ?_ ?_ ?_ (fun c => ?_)
  · rintro c (rfl | rfl)
    · exact hb
    · exact hb'
  · rintro c rfl
    exact Blk.parent_aligned hal
  · rintro c rfl d rfl _ _ _
    rfl
  · intro x
    simp [Blk.parent_has hal]
  · rw [hP' c]
    simp [not_or]

/-- **Splitting a block** into a lower and an upper half. -/
theorem split (h : Tiling n P) {b : Blk} (hb : ⟨b.off, b.ord + 1⟩ ∈ P) {P' : Set Blk}
    (hP' : ∀ c, c ∈ P' ↔ (c ∈ P ∧ c ≠ ⟨b.off, b.ord + 1⟩) ∨ c = b ∨ c = b.upper) :
    Tiling n P' := by
  have hal : 2 ^ (b.ord + 1) ∣ b.off := h.aligned _ hb
  have hlo : b.Aligned := (Nat.pow_dvd_pow 2 (Nat.le_succ _)).trans hal
  have h2 : 2 ^ (b.ord + 1) = 2 ^ b.ord + 2 ^ b.ord := by rw [pow_succ]; omega
  refine h.exchange (A := {⟨b.off, b.ord + 1⟩}) (B := {b, b.upper}) ?_ ?_ ?_ ?_ (fun c => ?_)
  · rintro c rfl
    exact hb
  · rintro c (rfl | rfl)
    · exact hlo
    · exact Blk.upper_aligned hal
  · rintro c (rfl | rfl) d (rfl | rfl) x hc hd
    · rfl
    · simp only [Blk.Has, Blk.stop, Blk.upper] at hc hd
      omega
    · simp only [Blk.Has, Blk.stop, Blk.upper] at hc hd
      omega
    · rfl
  · intro x
    simp only [Set.mem_singleton_iff, exists_eq_left, Set.mem_insert_iff, exists_eq_or_imp,
      Blk.Has, Blk.stop, Blk.upper, h2]
    omega
  · rw [hP' c]
    simp

/-! ## 3. Completeness: where no two buddies are left alone -/

/-- **The completeness fact.**  Let every tile that meets the dyadic block `r` be in `Q`, and
let no two buddies both be tiles in `Q`.  Then a single tile of `Q` holds all of `r`. -/
theorem exists_of_lone {m : Nat} (h : Tiling (2 ^ m) P) {Q : Set Blk}
    (hlone : ∀ b ∈ P, b ∈ Q → b.ord < m → b.buddy ∈ P → b.buddy ∉ Q) :
    ∀ (k : Nat) (r : Blk), r.ord = k → r.Aligned → r.stop ≤ 2 ^ m →
      (∀ b ∈ P, ∀ x, b.Has x → r.Has x → b ∈ Q) → ∃ b ∈ P, b ∈ Q ∧ r.Inside b := by
  intro k
  induction k with
  | zero =>
    intro r hk _ hr hQ
    obtain ⟨b, hb, hbx⟩ := (h.cover r.off).mpr (r.off_lt_stop.trans_le hr)
    refine ⟨b, hb, hQ b hb r.off hbx r.has_off, hbx.1, ?_⟩
    simp only [Blk.stop, hk, pow_zero]
    exact hbx.2
  | succ k ih =>
    intro r hk hal hr hQ
    have h2 : 2 ^ (k + 1) = 2 ^ k + 2 ^ k := by rw [pow_succ]; omega
    have hrs : r.stop = r.off + 2 ^ k + 2 ^ k := by simp only [Blk.stop, hk, h2]; omega
    have hal' : 2 ^ (k + 1) ∣ r.off := by rw [← hk]; exact hal
    -- the two halves of `r`, each inside one tile by induction
    let lo : Blk := ⟨r.off, k⟩
    have hlo : lo.Aligned := (Nat.pow_dvd_pow 2 (Nat.le_succ _)).trans hal'
    have hup : lo.upper.Aligned := Blk.upper_aligned (b := lo) hal'
    have hbud : lo.upper = lo.buddy := Blk.upper_eq_buddy (b := lo) hal'
    have hlor : lo.Inside r := ⟨Nat.le_refl _, by rw [hrs]; simp only [Blk.stop, lo]; omega⟩
    have hupr : lo.upper.Inside r := by
      constructor
      · simp only [Blk.upper, lo]; omega
      · rw [hrs]; simp only [Blk.stop, Blk.upper, lo]; omega
    obtain ⟨t, ht, htQ, hti⟩ := ih lo rfl hlo (hlor.2.trans hr)
      (fun b hb x hbx hx => hQ b hb x hbx (hlor.has hx))
    obtain ⟨u, hu, huQ, hui⟩ := ih lo.upper rfl hup (hupr.2.trans hr)
      (fun b hb x hbx hx => hQ b hb x hbx (hupr.has hx))
    have hko : ∀ {c d : Blk}, c.Inside d → c.ord ≤ d.ord := by
      intro c d hcd
      by_contra hlt
      have h1 : 2 ^ d.ord < 2 ^ c.ord := Nat.pow_lt_pow_right (by omega) (not_le.mp hlt)
      simp only [Blk.Inside, Blk.stop] at hcd
      omega
    by_cases htk : k + 1 ≤ t.ord
    · refine ⟨t, ht, htQ, ?_⟩
      exact Blk.inside_of_meets hal (h.aligned t ht) (hk ▸ htk) (hlor.has lo.has_off)
        (hti.has lo.has_off)
    by_cases huk : k + 1 ≤ u.ord
    · refine ⟨u, hu, huQ, ?_⟩
      exact Blk.inside_of_meets hal (h.aligned u hu) (hk ▸ huk) (hupr.has lo.upper.has_off)
        (hui.has lo.upper.has_off)
    -- otherwise both halves are tiles, and they are buddies
    exfalso
    have htk' : t.ord ≤ lo.ord := Nat.le_of_lt_succ (not_le.mp htk)
    have huk' : u.ord ≤ lo.upper.ord := Nat.le_of_lt_succ (not_le.mp huk)
    have ht' : lo = t :=
      Blk.eq_of_meets hlo (h.aligned t ht) (le_antisymm (hko hti) htk') lo.has_off
        (hti.has lo.has_off)
    have hu' : lo.upper = u :=
      Blk.eq_of_meets hup (h.aligned u hu) (le_antisymm (hko hui) huk') lo.upper.has_off
        (hui.has lo.upper.has_off)
    subst ht'
    subst hu'
    have hkm : k < m := by
      have hpow : 2 ^ (k + 1) ≤ 2 ^ m := by
        have := hrs ▸ hr
        omega
      have := (Nat.pow_le_pow_iff_right (by omega : 1 < 2)).mp hpow
      omega
    rw [hbud] at hu huQ
    exact hlone lo ht htQ hkm hu huQ

/-- A tiling without two buddies is a single block. -/
theorem eq_single_of_lone {m : Nat} (h : Tiling (2 ^ m) P)
    (hlone : ∀ b ∈ P, b.ord < m → b.buddy ∉ P) : P = {⟨0, m⟩} := by
  obtain ⟨b, hb, -, hin⟩ := h.exists_of_lone (Q := Set.univ)
    (fun b hb _ hlt hb' => absurd hb' (hlone b hb hlt)) m ⟨0, m⟩ rfl (Nat.dvd_zero _)
    (by simp [Blk.stop]) (fun _ _ _ _ _ => trivial)
  have hbs := h.stop_le hb
  have hb0 : b = ⟨0, m⟩ := by
    have h1 : b.off = 0 := by simpa using hin.1
    have h2 : 2 ^ b.ord = 2 ^ m := by
      have := hin.2
      simp only [Blk.stop, h1] at *
      omega
    have h3 : b.ord = m := Nat.pow_right_injective (Nat.le_refl 2) h2
    cases b
    simp only at h1 h3
    subst h1
    subst h3
    rfl
  ext c
  rw [Set.mem_singleton_iff]
  constructor
  · intro hc
    rw [← hb0]
    have := h.stop_le hc
    have := c.off_lt_stop
    refine h.unique c hc b hb c.off c.has_off ?_
    rw [hb0]
    simp only [Blk.Has, Blk.stop] at *
    omega
  · rintro rfl
    rw [← hb0]
    exact hb

/-! ## 4. The sizes of the tiles -/

/-- **The tiles add up.** -/
theorem sum_size {S : Finset Blk} (h : Tiling n (S : Set Blk)) : ∑ b ∈ S, 2 ^ b.ord = n := by
  have hcard : ∀ b : Blk, (Finset.Ico b.off b.stop).card = 2 ^ b.ord := by
    intro b
    simp [Blk.stop]
  have hd : (S : Set Blk).PairwiseDisjoint (fun b => Finset.Ico b.off b.stop) := by
    intro b hb c hc hne
    refine Finset.disjoint_left.mpr (fun x hx hx' => hne ?_)
    rw [Finset.mem_Ico] at hx hx'
    exact h.unique b hb c hc x hx hx'
  have hU : S.biUnion (fun b => Finset.Ico b.off b.stop) = Finset.range n := by
    ext x
    rw [Finset.mem_biUnion, Finset.mem_range, ← h.cover x]
    simp [Blk.Has]
  calc ∑ b ∈ S, 2 ^ b.ord = ∑ b ∈ S, (Finset.Ico b.off b.stop).card := by simp only [hcard]
    _ = (S.biUnion (fun b => Finset.Ico b.off b.stop)).card := (Finset.card_biUnion hd).symm
    _ = n := by rw [hU, Finset.card_range]

end Tiling

end FlightOs
