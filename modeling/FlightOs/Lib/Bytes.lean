/-
# A memory of bytes

The memory is a function on the addresses, which wrap around.  A word is four bytes, the most
significant one first.

* `fill_eq_put`, `copy_eq_put`: a loop that writes byte after byte writes them all, also when it
  reads them from the memory it writes, unless it has overwritten a byte that is yet to be read.
* `word_put`, `word_put_of_apart`: what a word is after bytes have been written over it, or
  elsewhere.
* `put_moved_up`, `put_moved_down`: a run of bytes moved between areas that may overlap, one part
  after another.
-/
import Mathlib.Data.BitVec
import Mathlib.Logic.Function.Basic
import Mathlib.Tactic.Common

namespace FlightOs

abbrev ByteMem (w : Nat) := BitVec w → BitVec 8

/-- Byte `i` of a word, counted from the most significant one. -/
def byteOf (v : BitVec 32) (i : Nat) : BitVec 8 := v.extractLsb' (24 - 8 * i) 8

namespace ByteMem

variable {w n : Nat} {m m' : ByteMem w} {a b : BitVec w} {f g : Nat → BitVec 8} {v : BitVec 32}

/-! ## 1. Reading and writing -/

def half (m : ByteMem w) (a : BitVec w) : BitVec 16 := m a ++ m (a + 1)

def word (m : ByteMem w) (a : BitVec w) : BitVec 32 := m a ++ m (a + 1) ++ m (a + 2) ++ m (a + 3)

/-- The memory with `f 0`, …, `f (n - 1)` at `a`. -/
def put (m : ByteMem w) (a : BitVec w) (f : Nat → BitVec 8) (n : Nat) : ByteMem w :=
  fun x => if (x - a).toNat < n then f (x - a).toNat else m x

def putWord (m : ByteMem w) (a : BitVec w) (v : BitVec 32) : ByteMem w := m.put a (byteOf v) 4

/-- `for (i = 0; i < n; i++) a[i] = f(i);` -/
def fill (m : ByteMem w) (a : BitVec w) (f : Nat → BitVec 8) : Nat → ByteMem w
  | 0 => m
  | n + 1 => Function.update (m.fill a f n) (a + BitVec.ofNat w n) (f n)

/-- `for (i = 0; i < n; i++) dst[i] = src[i];` -/
def copy (m : ByteMem w) (dst src : BitVec w) : Nat → ByteMem w
  | 0 => m
  | n + 1 =>
    let m' := m.copy dst src n
    Function.update m' (dst + BitVec.ofNat w n) (m' (src + BitVec.ofNat w n))

/-! ## 2. Bytes written -/

theorem offset_at {i : Nat} (hi : i < 2 ^ w) : (a + BitVec.ofNat w i - a).toNat = i := by
  rw [BitVec.add_comm, BitVec.add_sub_cancel, BitVec.toNat_ofNat, Nat.mod_eq_of_lt hi]

theorem put_at {i : Nat} (hi : i < n) (hn : n ≤ 2 ^ w) : m.put a f n (a + BitVec.ofNat w i) = f i := by
  rw [put, offset_at (Nat.lt_of_lt_of_le hi hn), if_pos hi]

theorem put_of_le {x : BitVec w} (h : n ≤ (x - a).toNat) : m.put a f n x = m x :=
  if_neg (Nat.not_lt.mpr h)

theorem put_congr {x : BitVec w} (h : m x = m' x) : m.put a f n x = m'.put a f n x := by
  rw [put, put, h]

theorem put_ext (h : ∀ i < n, f i = g i) : m.put a f n = m.put a g n := by
  funext x
  unfold put
  by_cases hlt : (x - a).toNat < n
  · rw [if_pos hlt, if_pos hlt, h _ hlt]
  · rw [if_neg hlt, if_neg hlt]

/-- One byte more. -/
theorem put_succ (hn : n < 2 ^ w) :
    m.put a f (n + 1) = Function.update (m.put a f n) (a + BitVec.ofNat w n) (f n) := by
  funext x
  rw [Function.update_apply]
  by_cases hx : x = a + BitVec.ofNat w n
  · rw [if_pos hx, hx, put_at (Nat.lt_succ_self n) hn]
  · have hne : (x - a).toNat ≠ n := by
      intro h
      apply hx
      rw [← h, BitVec.ofNat_toNat, BitVec.setWidth_eq, BitVec.add_comm, BitVec.sub_add_cancel]
    rw [if_neg hx]
    unfold put
    by_cases hlt : (x - a).toNat < n
    · rw [if_pos hlt, if_pos (Nat.lt_succ_of_lt hlt)]
    · rw [if_neg hlt, if_neg (by omega)]

theorem put_add {k : Nat} (hn : k + n ≤ 2 ^ w) :
    m.put a f (k + n) = (m.put a f k).put (a + BitVec.ofNat w k) (fun i => f (k + i)) n := by
  induction n with
  | zero =>
    funext x
    exact (if_neg (Nat.not_lt_zero _)).symm
  | succ n ih =>
    have hlast : a + BitVec.ofNat w k + BitVec.ofNat w n = a + BitVec.ofNat w (k + n) := by
      rw [BitVec.add_assoc, ← BitVec.ofNat_add]
    rw [← Nat.add_assoc, put_succ (n := k + n) hn, put_succ (n := n) (by omega), ih (by omega),
      hlast]

theorem put_one : m.put a f 1 = Function.update m a (f 0) := by
  funext x
  rw [Function.update_apply, put]
  by_cases hx : x = a
  · subst hx
    rw [BitVec.sub_self, BitVec.toNat_zero, if_pos Nat.zero_lt_one, if_pos rfl]
  · have hne : (x - a).toNat ≠ 0 := fun h => hx (by
      rw [BitVec.sub_eq_iff_eq_add.mp (BitVec.eq_of_toNat_eq h : x - a = 0#w), BitVec.zero_add])
    rw [if_neg (by omega), if_neg hx]

theorem put_same (h : ∀ i < n, m (a + BitVec.ofNat w i) = f i) : m.put a f n = m := by
  funext x
  unfold put
  by_cases hlt : (x - a).toNat < n
  · rw [if_pos hlt, ← h _ hlt, BitVec.ofNat_toNat, BitVec.setWidth_eq, BitVec.add_comm,
      BitVec.sub_add_cancel]
  · rw [if_neg hlt]

theorem fill_eq_put (hn : n ≤ 2 ^ w) : m.fill a f n = m.put a f n := by
  induction n with
  | zero => exact (put_same fun i hi => absurd hi (Nat.not_lt_zero i)).symm
  | succ n ih => rw [fill, ih (Nat.le_of_lt hn), put_succ hn]

/-- No byte is overwritten before it is read. -/
theorem copy_eq_put {dst src : BitVec w} (hn : n ≤ 2 ^ w)
    (h : ∀ i j, i < j → j < n → dst + BitVec.ofNat w i ≠ src + BitVec.ofNat w j) :
    m.copy dst src n = m.put dst (fun i => m (src + BitVec.ofNat w i)) n := by
  induction n with
  | zero => exact (put_same fun i hi => absurd hi (Nat.not_lt_zero i)).symm
  | succ n ih =>
    have hread : (m.put dst (fun i => m (src + BitVec.ofNat w i)) n) (src + BitVec.ofNat w n) =
        m (src + BitVec.ofNat w n) := by
      apply put_of_le
      by_contra hlt
      apply h _ n (Nat.not_le.mp hlt) (Nat.lt_succ_self n)
      rw [BitVec.ofNat_toNat, BitVec.setWidth_eq, BitVec.add_comm, BitVec.sub_add_cancel]
    rw [copy, ih (Nat.le_of_lt hn) fun i j hij hj => h i j hij (Nat.lt_succ_of_lt hj),
      put_succ hn]
    exact congrArg _ hread

/-! ## 3. Words -/

theorem append_byteOf : byteOf v 0 ++ byteOf v 1 ++ byteOf v 2 ++ byteOf v 3 = v := by
  have h₁ : byteOf v 0 ++ byteOf v 1 = v.extractLsb' 16 16 :=
    BitVec.extractLsb'_append_extractLsb'_eq_extractLsb' rfl
  have h₂ : v.extractLsb' 16 16 ++ byteOf v 2 = v.extractLsb' 8 24 :=
    BitVec.extractLsb'_append_extractLsb'_eq_extractLsb' rfl
  have h₃ : v.extractLsb' 8 24 ++ byteOf v 3 = v.extractLsb' 0 32 :=
    BitVec.extractLsb'_append_extractLsb'_eq_extractLsb' rfl
  rw [h₁, h₂, h₃, BitVec.extractLsb'_eq_self]

/-- A word is its bytes. -/
theorem word_eq (h : ∀ i < 4, m (a + BitVec.ofNat w i) = byteOf v i) : m.word a = v := by
  have h₀ : m a = byteOf v 0 := by simpa using h 0 (by decide)
  have h₁ : m (a + 1) = byteOf v 1 := h 1 (by decide)
  have h₂ : m (a + 2) = byteOf v 2 := h 2 (by decide)
  have h₃ : m (a + 3) = byteOf v 3 := h 3 (by decide)
  rw [word, h₀, h₁, h₂, h₃, append_byteOf]

theorem byteOf_word {i : Nat} (hi : i < 4) : byteOf (m.word a) i = m (a + BitVec.ofNat w i) := by
  have h₃ : byteOf (m.word a) 3 = m (a + 3) :=
    (BitVec.extractLsb'_append_eq_of_add_le (by decide)).trans BitVec.extractLsb'_eq_self
  have h₂ : byteOf (m.word a) 2 = m (a + 2) :=
    (BitVec.extractLsb'_append_eq_of_le (by decide)).trans
      ((BitVec.extractLsb'_append_eq_of_add_le (by decide)).trans BitVec.extractLsb'_eq_self)
  have h₁ : byteOf (m.word a) 1 = m (a + 1) :=
    (BitVec.extractLsb'_append_eq_of_le (by decide)).trans
      ((BitVec.extractLsb'_append_eq_of_le (by decide)).trans
        ((BitVec.extractLsb'_append_eq_of_add_le (by decide)).trans BitVec.extractLsb'_eq_self))
  have h₀ : byteOf (m.word a) 0 = m a :=
    (BitVec.extractLsb'_append_eq_of_le (by decide)).trans
      ((BitVec.extractLsb'_append_eq_of_le (by decide)).trans
        ((BitVec.extractLsb'_append_eq_of_le (by decide)).trans BitVec.extractLsb'_eq_self))
  obtain rfl | rfl | rfl | rfl : i = 0 ∨ i = 1 ∨ i = 2 ∨ i = 3 := by omega
  · simpa using h₀
  · exact h₁
  · exact h₂
  · exact h₃

theorem word_congr (h : ∀ i < 4, m (a + BitVec.ofNat w i) = m' (b + BitVec.ofNat w i)) :
    m.word a = m'.word b :=
  word_eq fun i hi => by rw [h i hi, byteOf_word hi]

theorem put_bytes (h : ∀ i < 4, f i = byteOf v i) : m.put a f 4 = m.putWord a v := put_ext h

/-- A word of those written. -/
theorem word_put {k : Nat} (hk : k + 4 ≤ n) (hn : n ≤ 2 ^ w) (h : ∀ i < 4, f (k + i) = byteOf v i) :
    (m.put a f n).word (a + BitVec.ofNat w k) = v := by
  apply word_eq
  intro i hi
  rw [BitVec.add_assoc, ← BitVec.ofNat_add, put_at (by omega) hn, h i hi]

theorem word_putWord (hw : 4 ≤ 2 ^ w) : (m.putWord a v).word a = v := by
  have h : (m.putWord a v).word (a + BitVec.ofNat w 0) = v :=
    word_put (Nat.le_refl 4) hw fun i hi => by rw [Nat.zero_add]
  rwa [BitVec.add_zero] at h

/-- A word elsewhere. -/
theorem word_put_of_apart (h : ∀ i < 4, n ≤ (b + BitVec.ofNat w i - a).toNat) :
    (m.put a f n).word b = m.word b :=
  word_congr fun i hi => put_of_le (h i hi)

theorem putWord_word : m.putWord a (m.word b) = m.put a (fun i => m (b + BitVec.ofNat w i)) 4 :=
  put_ext fun _ hi => byteOf_word hi

/-! ## 4. Bytes moved -/

/-- The memory with the bytes from `lo` up to `hi` of those at `src` at their places in `dst`. -/
def moved (m : ByteMem w) (dst src : BitVec w) (lo hi : Nat) : ByteMem w :=
  fun x => if lo ≤ (x - dst).toNat ∧ (x - dst).toNat < hi then m (src + (x - dst)) else m x

variable {dst src : BitVec w} {lo hi p k : Nat}

theorem moved_self : m.moved dst src lo lo = m := by
  funext x
  exact if_neg (by omega)

theorem moved_eq_put : m.moved dst src 0 n = m.put dst (fun i => m (src + BitVec.ofNat w i)) n := by
  funext x
  simp only [moved, put, Nat.zero_le, true_and, BitVec.ofNat_toNat, BitVec.setWidth_eq]

/-- An address in a part, counted from the part and from the whole. -/
theorem sub_add_lt_iff {x : BitVec w} (hpk : p + k ≤ 2 ^ w) :
    (x - (a + BitVec.ofNat w p)).toNat < k ↔ p ≤ (x - a).toNat ∧ (x - a).toNat < p + k := by
  have hx := (x - a).isLt
  rcases Nat.eq_zero_or_pos k with rfl | hk
  · omega
  have hp : p < 2 ^ w := by omega
  rw [← BitVec.sub_sub, BitVec.toNat_sub, BitVec.toNat_ofNat, Nat.mod_eq_of_lt hp]
  rcases Nat.lt_or_ge (x - a).toNat p with hlt | hge
  · rw [Nat.mod_eq_of_lt (by omega)]
    omega
  · rw [show 2 ^ w - p + (x - a).toNat = (x - a).toNat - p + 2 ^ w by omega, Nat.add_mod_right,
      Nat.mod_eq_of_lt (by omega)]
    omega

/-- Another part is moved, from bytes that are still those of the start. -/
theorem put_moved {lo' hi' : Nat} (hpk : p + k ≤ 2 ^ w)
    (hread : ∀ i < k, f i = m (src + BitVec.ofNat w (p + i)))
    (hjoin : ∀ t, lo' ≤ t ∧ t < hi' ↔ (lo ≤ t ∧ t < hi) ∨ (p ≤ t ∧ t < p + k)) :
    (m.moved dst src lo hi).put (dst + BitVec.ofNat w p) f k = m.moved dst src lo' hi' := by
  funext x
  unfold put
  by_cases hin : p ≤ (x - dst).toNat ∧ (x - dst).toNat < p + k
  · have hlt := (sub_add_lt_iff hpk).mpr hin
    have hx : BitVec.ofNat w (p + (x - (dst + BitVec.ofNat w p)).toNat) = x - dst := by
      rw [BitVec.ofNat_add, BitVec.ofNat_toNat, BitVec.setWidth_eq, ← BitVec.sub_sub,
        BitVec.add_comm, BitVec.sub_add_cancel]
    rw [if_pos hlt, hread _ hlt, hx]
    exact (if_pos ((hjoin _).mpr (.inr hin))).symm
  · rw [if_neg (mt (sub_add_lt_iff hpk).mp hin)]
    have hiff : (lo ≤ (x - dst).toNat ∧ (x - dst).toNat < hi) ↔
        lo' ≤ (x - dst).toNat ∧ (x - dst).toNat < hi' := by
      rw [hjoin]
      exact ⟨.inl, fun h => h.resolve_right hin⟩
    unfold moved
    by_cases h : lo ≤ (x - dst).toNat ∧ (x - dst).toNat < hi
    · rw [if_pos h, if_pos (hiff.mp h)]
    · rw [if_neg h, if_neg (mt hiff.mpr h)]

/-- The byte after `t` others at `src`, counted from `dst`. -/
theorem src_sub_dst {t : Nat} (hd : dst.toNat + n ≤ 2 ^ w) (hs : src.toNat + n ≤ 2 ^ w)
    (ht : t < n) :
    (dst.toNat ≤ src.toNat + t ∧
        (src + BitVec.ofNat w t - dst).toNat = src.toNat + t - dst.toNat) ∨
      (src.toNat + t < dst.toNat ∧ n ≤ (src + BitVec.ofNat w t - dst).toNat) := by
  have hst : (src + BitVec.ofNat w t).toNat = src.toNat + t := by
    rw [BitVec.toNat_add, BitVec.toNat_ofNat, Nat.mod_eq_of_lt (show t < 2 ^ w by omega),
      Nat.mod_eq_of_lt (by omega)]
  rcases Nat.lt_or_ge (src.toNat + t) dst.toNat with hlt | hge
  · rw [BitVec.toNat_sub, hst, Nat.mod_eq_of_lt (by omega)]
    omega
  · refine .inl ⟨hge, ?_⟩
    rw [BitVec.toNat_sub, hst, show 2 ^ w - dst.toNat + (src.toNat + t) =
      src.toNat + t - dst.toNat + 2 ^ w by omega, Nat.add_mod_right, Nat.mod_eq_of_lt (by omega)]

/-- Front to back, to a lower address: what is behind the part that has been moved is as it was. -/
theorem put_moved_up (hd : dst.toNat + n ≤ 2 ^ w) (hs : src.toNat + n ≤ 2 ^ w)
    (hlt : dst.toNat < src.toNat) (hpk : p + k ≤ n)
    (hf : ∀ i < k, f i = m.moved dst src 0 p (src + BitVec.ofNat w (p + i))) :
    (m.moved dst src 0 p).put (dst + BitVec.ofNat w p) f k = m.moved dst src 0 (p + k) := by
  refine put_moved (by omega) (fun i hi => ?_) fun t => by omega
  rw [hf i hi]
  apply if_neg
  have := src_sub_dst hd hs (show p + i < n by omega)
  omega

/-- Back to front, to a higher address: what is before the part that has been moved is as it was. -/
theorem put_moved_down (hd : dst.toNat + n ≤ 2 ^ w) (hs : src.toNat + n ≤ 2 ^ w)
    (hlt : src.toNat < dst.toNat) (hpk : p + k ≤ n)
    (hf : ∀ i < k, f i = m.moved dst src (p + k) n (src + BitVec.ofNat w (p + i))) :
    (m.moved dst src (p + k) n).put (dst + BitVec.ofNat w p) f k = m.moved dst src p n := by
  refine put_moved (by omega) (fun i hi => ?_) fun t => by omega
  rw [hf i hi]
  apply if_neg
  have := src_sub_dst hd hs (show p + i < n by omega)
  omega

end ByteMem

end FlightOs
