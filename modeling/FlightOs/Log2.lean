/-
# Powers of two: `include/kernel/log2.h`

The functions take and return words, so the `- 1` in `ilog2` and `roundup_pow_of_two` wraps.
`ilog2_roundupPowOfTwo` is the form in which the allocators use them: a size becomes the order
of the smallest power of two that holds it, for the sizes whose power of two is representable.
-/
import FlightOs.Lib.Word

namespace FlightOs

/-- Find the last (most significant) bit set, counted from one. -/
def kfls (x : Nat) : Nat := if x = 0 then 0 else Nat.log2 x + 1

def ilog2 (n : Nat) : Nat := wsub (kfls n) 1

def roundupPowOfTwo (n : Nat) : Nat := wshl 1 (kfls (wsub n 1))

def rounddownPowOfTwo (n : Nat) : Nat := wshl 1 (wsub (kfls n) 1)

theorem kfls_two_pow (k : Nat) : kfls (2 ^ k) = k + 1 := by
  rw [kfls, if_neg (Nat.two_pow_pos k).ne', Nat.log2_two_pow]

theorem ilog2_two_pow {k : Nat} (hk : k < 32) : ilog2 (2 ^ k) = k := by
  rw [ilog2, kfls_two_pow, wsub_of_le (by omega) (by omega), Nat.add_sub_cancel]

/-- `kfls n` is the least `k` with `n < 2 ^ k`. -/
theorem kfls_le_iff {n k : Nat} : kfls n ≤ k ↔ n < 2 ^ k := by
  unfold kfls
  split
  · next h => simp [h]
  · next h => rw [Nat.add_one_le_iff, Nat.log2_lt h]

/-- The order computed for a size is always that of a word's bit. -/
theorem ilog2_roundup_lt (n : Nat) : ilog2 (roundupPowOfTwo n) < 32 := by
  rw [roundupPowOfTwo, wshl_one', ilog2_two_pow (Nat.mod_lt _ (by norm_num))]
  exact Nat.mod_lt _ (by norm_num)

/-- **The order of a size.**  Up to `2 ^ 31`, the order computed for a size is the least `k`
whose power of two holds it. -/
theorem ilog2_roundup_le_iff {n k : Nat} (h0 : 0 < n) (hn : n ≤ 2 ^ 31) :
    ilog2 (roundupPowOfTwo n) ≤ k ↔ n ≤ 2 ^ k := by
  have hk : kfls (n - 1) ≤ 31 := kfls_le_iff.mpr (by omega)
  rw [roundupPowOfTwo, wsub_of_le (b := 1) (by omega) h0, wshl_one (by omega), ilog2_two_pow (by omega),
    kfls_le_iff]
  have := Nat.two_pow_pos k
  omega

/-- Rounding down stays at or below. -/
theorem ilog2_rounddown {n : Nat} (h0 : 0 < n) (hn : n < 2 ^ 32) :
    ilog2 (rounddownPowOfTwo n) = Nat.log2 n ∧ Nat.log2 n < 32 ∧ 2 ^ Nat.log2 n ≤ n := by
  have hl : Nat.log2 n < 32 := (Nat.log2_lt (by omega)).mpr hn
  refine ⟨?_, hl, Nat.log2_self_le (by omega)⟩
  rw [rounddownPowOfTwo, kfls, if_neg (by omega), wsub_of_le (by omega) (by omega),
    Nat.add_sub_cancel, wshl_one hl, ilog2_two_pow hl]

end FlightOs
