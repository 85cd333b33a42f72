/-
# The check bits of a word

`bch_edac_checkbits` computes seven check bits of a word of 32 bits, each of them the parity of the bits
of the word that a row of a table names; two are inverted.  Two words differ in a check bit if an odd
number of the bits they differ in are named by its row.

A code that corrects one error and detects two needs words that differ in four bits or more.  The rows of
the table name sixteen bits each.  That of check bit 4 is the one of check bit 5 with the bits 2 to 7 in
place of 8 to 13, so the bits 18 to 23 are in two rows only: one of these bits differing makes two check
bits differ.

`edac_distance_iff`: the words that are less than four bits apart are those whose difference is listed in
`edacConfused`; they are three bits apart.
-/
import Mathlib.InformationTheory.Hamming
import Mathlib.Data.Fin.Tuple.Basic
import Mathlib.Algebra.BigOperators.Fin
import Mathlib.Tactic.IntervalCases

namespace FlightOs

/-! ## 1. The code -/

/-- `edac_checkbit_xor`: the shifted words are taken to the eight bits of `val`. -/
def edacCheckbitXor (value : BitVec 32) (bits : List Nat) : BitVec 8 :=
  bits.foldl (fun val b => (val.setWidth 32 ^^^ (value >>> b)).setWidth 8) 0 &&& 1

/-- The bits of each row; the last row is not initialised. -/
def CB : List (List Nat) :=
  [[0, 4, 6, 7, 8, 9, 11, 14, 17, 18, 19, 21, 26, 28, 29, 31],
   [0, 1, 2, 4, 6, 8, 10, 12, 16, 17, 18, 20, 22, 24, 26, 28],
   [0, 3, 4, 7, 9, 10, 13, 15, 16, 19, 20, 23, 25, 26, 29, 31],
   [0, 1, 5, 6, 7, 11, 12, 13, 16, 17, 21, 22, 23, 27, 28, 29],
   [2, 3, 4, 5, 6, 7, 14, 15, 24, 25, 26, 27, 28, 29, 30, 31],
   [8, 9, 10, 11, 12, 13, 14, 15, 24, 25, 26, 27, 28, 29, 30, 31],
   [0, 1, 2, 3, 4, 5, 6, 7, 24, 25, 26, 27, 28, 29, 30, 31],
   [0, 0, 0, 0, 0, 0, 0, 0, 0, 0, 0, 0, 0, 0, 0, 0]]

def bchEdacCheckbits (value : BitVec 32) : BitVec 8 :=
  let cb := fun r => edacCheckbitXor value (CB.getD r [])
  (cb 0 <<< 0 ||| cb 1 <<< 1 ||| (~~~cb 2 &&& 1) <<< 2 ||| (~~~cb 3 &&& 1) <<< 3 ||| cb 4 <<< 4 |||
    cb 5 <<< 5 ||| cb 6 <<< 6 ||| cb 7 <<< 7) &&& 0x7f

/-- The word and its check bits. -/
def edacCode (v : BitVec 32) : Fin (32 + 7) → Bool :=
  Fin.append (fun i : Fin 32 => v.getLsbD i) fun r : Fin 7 => (bchEdacCheckbits v).getLsbD r

/-! ## 2. Parities -/

/-- The parity of the bits that are named. -/
def edacParity (v : BitVec 32) (bits : List Nat) : Bool := bits.foldr (fun b p => v.getLsbD b ^^ p) false

theorem foldl_checkbit (v : BitVec 32) (bits : List Nat) : ∀ val : BitVec 8,
    (bits.foldl (fun val b => (val.setWidth 32 ^^^ (v >>> b)).setWidth 8) val).getLsbD 0 =
      (val.getLsbD 0 ^^ edacParity v bits) := by
  induction bits with
  | nil => simp [edacParity]
  | cons b bits ih =>
    intro val
    rw [List.foldl_cons, ih]
    simp [edacParity]

theorem edacCheckbitXor_getLsbD (v : BitVec 32) (bits : List Nat) (k : Nat) :
    (edacCheckbitXor v bits).getLsbD k = (decide (k = 0) && edacParity v bits) := by
  unfold edacCheckbitXor
  by_cases hk : k = 0
  · subst hk
    rw [BitVec.getLsbD_and, foldl_checkbit]
    simp
  · rw [BitVec.getLsbD_and, decide_eq_false hk]
    simp [hk]

theorem edacCheckbitXor_getElem (v : BitVec 32) (bits : List Nat) (k : Nat) (hk : k < 8) :
    (edacCheckbitXor v bits)[k] = (decide (k = 0) && edacParity v bits) := by
  rw [← BitVec.getLsbD_eq_getElem, edacCheckbitXor_getLsbD]

/-- The rows that are inverted. -/
def edacInverted (r : Nat) : Bool := r == 2 || r == 3

/-- **A check bit** is the parity of a row, or its inverse. -/
theorem bchEdacCheckbits_getLsbD (v : BitVec 32) {r : Nat} (hr : r < 7) :
    (bchEdacCheckbits v).getLsbD r = (edacParity v (CB.getD r []) ^^ edacInverted r) := by
  unfold bchEdacCheckbits
  dsimp only
  generalize CB = rows
  interval_cases r
  all_goals
    simp [edacCheckbitXor_getElem, edacInverted]

theorem edacParity_xor (v w : BitVec 32) (bits : List Nat) :
    edacParity (v ^^^ w) bits = (edacParity v bits ^^ edacParity w bits) := by
  induction bits with
  | nil => rfl
  | cons b bits ih =>
    have hcons : ∀ x, edacParity x (b :: bits) = (x.getLsbD b ^^ edacParity x bits) := fun _ => rfl
    rw [hcons, hcons, hcons, ih, BitVec.getLsbD_xor]
    simp only [Bool.xor_assoc, Bool.xor_left_comm]

/-! ## 3. The difference of two words -/

/-- The word with these bits. -/
def edacWord (L : List Nat) : BitVec 32 := L.foldr (fun i x => BitVec.twoPow 32 i ^^^ x) 0

/-- The bits in which two words differ, in ascending order. -/
def edacDiff (v w : BitVec 32) : List Nat :=
  (List.range 32).filter fun i => v.getLsbD i != w.getLsbD i

/-- The check bits in which the bits of the word have a part, one byte for each bit. -/
def edacColumns : Nat := 0x75707d7b787774720c0a090605030b0e34312c2a292625235d5b585754524a4f

def edacColumn (i : Nat) : Nat := edacColumns >>> (8 * i) % 2 ^ 7

/-- The check bits that differ if these bits of the word do. -/
def edacSyndrome (L : List Nat) : Nat := L.foldr (fun i x => edacColumn i ^^^ x) 0

/-- The columns are those of the table. -/
theorem edacColumn_testBit : ∀ i < 32, ∀ r < 7,
    (edacColumn i).testBit r = edacParity (BitVec.twoPow 32 i) (CB.getD r []) := by
  decide

theorem edacSyndrome_testBit {L : List Nat} (hL : ∀ i ∈ L, i < 32) {r : Nat} (hr : r < 7) :
    (edacSyndrome L).testBit r = edacParity (edacWord L) (CB.getD r []) := by
  induction L with
  | nil =>
    have hzero : ∀ bits, edacParity 0 bits = false := fun bits => by simp [edacParity]
    rw [edacSyndrome, edacWord, List.foldr_nil, List.foldr_nil, hzero, Nat.zero_testBit]
  | cons i L ih =>
    obtain ⟨hi, hL⟩ := List.forall_mem_cons.mp hL
    have hs : edacSyndrome (i :: L) = edacColumn i ^^^ edacSyndrome L := rfl
    have hw : edacWord (i :: L) = BitVec.twoPow 32 i ^^^ edacWord L := rfl
    rw [hs, hw, Nat.testBit_xor, edacParity_xor, ih hL, edacColumn_testBit i hi r hr]

theorem edacWord_getLsbD {L : List Nat} (hL : L.Nodup) {i : Nat} (hi : i < 32) :
    (edacWord L).getLsbD i = decide (i ∈ L) := by
  induction L with
  | nil => simp [edacWord]
  | cons j L ih =>
    obtain ⟨hj, hL⟩ := List.nodup_cons.mp hL
    have hw : edacWord (j :: L) = BitVec.twoPow 32 j ^^^ edacWord L := rfl
    rw [hw, BitVec.getLsbD_xor, ih hL, BitVec.getLsbD_twoPow]
    by_cases hij : j = i
    · subst hij
      simp [hj, hi]
    · simp [hij, Ne.symm hij, List.mem_cons]

theorem edacDiff_lt (v w : BitVec 32) : ∀ i ∈ edacDiff v w, i < 32 := fun _ hi =>
  List.mem_range.mp (List.mem_of_mem_filter hi)

theorem edacDiff_sorted (v w : BitVec 32) : (edacDiff v w).Pairwise (· < ·) :=
  List.pairwise_lt_range.filter _

/-- The difference is the word with the bits in which the two differ. -/
theorem xor_eq_edacWord (v w : BitVec 32) : v ^^^ w = edacWord (edacDiff v w) := by
  refine BitVec.eq_of_getLsbD_eq fun i hi => ?_
  have hmem : i ∈ edacDiff v w ↔ v.getLsbD i ≠ w.getLsbD i := by
    simp only [edacDiff, List.mem_filter, List.mem_range, hi, true_and, bne_iff_ne, ne_eq]
  have hxor : ∀ a b : Bool, (a ^^ b) = decide (a ≠ b) := by decide
  rw [edacWord_getLsbD (edacDiff_sorted v w).nodup hi, BitVec.getLsbD_xor, decide_eq_decide.mpr hmem]
  exact hxor _ _

/-! ## 4. The distance -/

/-- The number of check bits that are set. -/
def edacWeight (x : Nat) : Nat := ((List.range 7).filter fun r => x.testBit r).length

/-- The distance between two words, one after the other. -/
theorem hammingDist_append {m n : Nat} (a a' : Fin m → Bool) (b b' : Fin n → Bool) :
    hammingDist (Fin.append a b) (Fin.append a' b') = hammingDist a a' + hammingDist b b' := by
  simp only [hammingDist, Finset.card_filter]
  rw [Fin.sum_univ_add]
  simp only [Fin.append_left, Fin.append_right]

/-- The places in which two words differ, counted one by one. -/
theorem hammingDist_eq_length {n : Nat} (a b : Nat → Bool) :
    hammingDist (fun i : Fin n => a i) (fun i : Fin n => b i) =
      ((List.range n).filter fun i => a i != b i).length := by
  have hne : (fun i => a i != b i) = fun i => decide (a i ≠ b i) := by
    funext i
    simp [bne, Bool.beq_eq_decide_eq]
  rw [hne, ← List.map_coe_finRange_eq_range, List.filter_map, List.length_map]
  simp only [hammingDist, Finset.card, Finset.filter, Fin.univ_def, Multiset.filter_coe,
    Multiset.coe_card]
  rfl

/-- **The distance of two code words**: the bits in which the words differ, and the check bits that the
difference makes differ. -/
theorem edacCode_dist (v w : BitVec 32) : hammingDist (edacCode v) (edacCode w) =
    (edacDiff v w).length + edacWeight (edacSyndrome (edacDiff v w)) := by
  unfold edacCode
  rw [hammingDist_append, hammingDist_eq_length v.getLsbD w.getLsbD,
    hammingDist_eq_length (bchEdacCheckbits v).getLsbD (bchEdacCheckbits w).getLsbD, edacWeight]
  refine congrArg₂ _ rfl (congrArg _ (List.filter_congr fun r hr => ?_))
  have hr := List.mem_range.mp hr
  rw [edacSyndrome_testBit (edacDiff_lt v w) hr, ← xor_eq_edacWord, edacParity_xor,
    bchEdacCheckbits_getLsbD v hr, bchEdacCheckbits_getLsbD w hr]
  cases edacParity v (CB.getD r []) <;> cases edacParity w (CB.getD r []) <;>
    cases edacInverted r <;> rfl

/-- The differences of words that are less than four bits apart. -/
def edacConfused : List (List Nat) :=
  [[18], [19], [20], [21], [22], [23], [1, 22], [2, 24], [3, 25], [4, 26], [5, 27], [6, 28],
   [7, 29], [8, 18], [9, 19], [10, 20], [11, 21], [12, 22], [13, 23], [15, 25], [16, 20], [16, 22],
   [16, 23], [17, 18], [17, 21], [17, 22], [24, 30], [25, 30], [25, 31], [26, 31], [27, 30],
   [29, 31], [0, 1, 19], [0, 15, 28], [1, 14, 28], [2, 3, 20], [2, 4, 19], [2, 5, 22], [2, 6, 21],
   [2, 9, 26], [2, 10, 25], [2, 11, 28], [2, 12, 27], [3, 4, 18], [3, 5, 23], [3, 7, 21],
   [3, 8, 26], [3, 10, 24], [3, 11, 29], [3, 13, 27], [4, 6, 23], [4, 7, 22], [4, 8, 25],
   [4, 9, 24], [4, 12, 29], [4, 13, 28], [5, 6, 18], [5, 7, 19], [5, 8, 28], [5, 9, 29],
   [5, 12, 24], [5, 13, 25], [6, 7, 20], [6, 8, 27], [6, 10, 29], [6, 11, 24], [6, 13, 26],
   [7, 9, 27], [7, 10, 28], [7, 11, 25], [7, 12, 26], [8, 9, 20], [8, 10, 19], [8, 11, 22],
   [8, 12, 21], [9, 10, 18], [9, 11, 23], [9, 13, 21], [10, 12, 23], [10, 13, 22], [11, 12, 18],
   [11, 13, 19], [12, 13, 20], [14, 15, 19], [16, 17, 19], [16, 28, 31], [17, 28, 30],
   [18, 19, 20], [18, 21, 22], [18, 25, 26], [18, 27, 28], [19, 21, 23], [19, 24, 26],
   [19, 27, 29], [19, 30, 31], [20, 22, 23], [20, 24, 25], [20, 28, 29], [21, 24, 28],
   [21, 25, 29], [22, 24, 27], [22, 26, 29], [23, 25, 27], [23, 26, 28]]

/-- Each of the lists makes three bits of the code differ, and every list of up to three bits that makes
fewer than four differ is among them. -/
theorem edacConfused_checked :
    (∀ L ∈ edacConfused, L.length + edacWeight (edacSyndrome L) = 3) ∧
      (∀ a < 32, edacWeight (edacColumn a) < 3 → [a] ∈ edacConfused) ∧
      (∀ b < 32, ∀ a < b, edacWeight (edacColumn a ^^^ edacColumn b) < 2 → [a, b] ∈ edacConfused) ∧
      ∀ c < 32, ∀ b < c, ∀ a < b,
        edacColumn a ^^^ (edacColumn b ^^^ edacColumn c) = 0 → edacConfused.contains [a, b, c] = true := by
  refine ⟨?_, ?_, ?_, ?_⟩ <;> decide +kernel

theorem edacConfused_dist : ∀ L ∈ edacConfused, L.length + edacWeight (edacSyndrome L) = 3 :=
  edacConfused_checked.1

theorem edacConfused_one : ∀ a < 32, edacWeight (edacColumn a) < 3 → [a] ∈ edacConfused :=
  edacConfused_checked.2.1

theorem edacConfused_two : ∀ b < 32, ∀ a < b,
    edacWeight (edacColumn a ^^^ edacColumn b) < 2 → [a, b] ∈ edacConfused :=
  edacConfused_checked.2.2.1

theorem edacConfused_three : ∀ c < 32, ∀ b < c, ∀ a < b,
    edacColumn a ^^^ (edacColumn b ^^^ edacColumn c) = 0 → edacConfused.contains [a, b, c] = true :=
  edacConfused_checked.2.2.2

theorem edacColumn_lt (a : Nat) : edacColumn a < 2 ^ 7 := Nat.mod_lt _ (by decide)

theorem eq_zero_of_edacWeight : ∀ x < 2 ^ 7, edacWeight x = 0 → x = 0 := by decide

/-- **The words that are near each other** differ in the bits of one of these lists. -/
theorem edacConfused_of_near {L : List Nat} (hne : L ≠ []) (hlt : ∀ i ∈ L, i < 32)
    (hL : L.Pairwise (· < ·)) (hnear : L.length + edacWeight (edacSyndrome L) < 4) :
    L ∈ edacConfused := by
  cases L with
  | nil => exact absurd rfl hne
  | cons a L =>
    cases L with
    | nil =>
      refine edacConfused_one a (hlt a List.mem_cons_self) ?_
      have hs : edacSyndrome [a] = edacColumn a := Nat.xor_zero _
      rw [hs, List.length_singleton] at hnear
      omega
    | cons b L =>
      have hab : a < b := List.rel_of_pairwise_cons hL List.mem_cons_self
      cases L with
      | nil =>
        refine edacConfused_two b (hlt b (by simp)) a hab ?_
        have hs : edacSyndrome [a, b] = edacColumn a ^^^ edacColumn b :=
          congrArg _ (Nat.xor_zero _)
        rw [hs] at hnear
        simp only [List.length_cons, List.length_nil] at hnear
        omega
      | cons c L =>
        have hbc : b < c := List.rel_of_pairwise_cons hL.of_cons List.mem_cons_self
        cases L with
        | nil =>
          refine List.contains_iff_mem.mp (edacConfused_three c (hlt c (by simp)) b hbc a hab ?_)
          have hs : edacSyndrome [a, b, c] = edacColumn a ^^^ (edacColumn b ^^^ edacColumn c) :=
            congrArg _ (congrArg _ (Nat.xor_zero _))
          rw [hs] at hnear
          simp only [List.length_cons, List.length_nil] at hnear
          refine eq_zero_of_edacWeight _ ?_ (by omega)
          exact Nat.xor_lt_two_pow (edacColumn_lt a)
            (Nat.xor_lt_two_pow (edacColumn_lt b) (edacColumn_lt c))
        | cons d L =>
          simp only [List.length_cons] at hnear
          omega

section Distance

variable {v w : BitVec 32}

theorem edacDiff_ne_nil (hne : v ≠ w) : edacDiff v w ≠ [] := by
  intro hnil
  have hxor := xor_eq_edacWord v w
  rw [hnil] at hxor
  exact hne (BitVec.xor_eq_zero_iff.mp hxor)

theorem edac_near_iff (hne : v ≠ w) :
    hammingDist (edacCode v) (edacCode w) < 4 ↔ edacDiff v w ∈ edacConfused := by
  rw [edacCode_dist]
  constructor
  · exact edacConfused_of_near (edacDiff_ne_nil hne) (edacDiff_lt v w) (edacDiff_sorted v w)
  · exact fun hmem => (edacConfused_dist _ hmem).trans_lt (Nat.lt_succ_self 3)

/-- A single error is corrected in any case. -/
theorem edac_distance_ge (hne : v ≠ w) : 3 ≤ hammingDist (edacCode v) (edacCode w) := by
  by_cases hnear : hammingDist (edacCode v) (edacCode w) < 4
  · have hmem := (edac_near_iff hne).mp hnear
    rw [edacCode_dist, edacConfused_dist _ hmem]
  · exact Nat.le_of_lt (Nat.le_of_not_lt hnear)

/-- **Two words are four bits apart** or more if, and only if, the bits they differ in are not listed. -/
theorem edac_distance_iff (hne : v ≠ w) :
    4 ≤ hammingDist (edacCode v) (edacCode w) ↔ edacDiff v w ∉ edacConfused := by
  rw [← edac_near_iff hne, Nat.not_lt]

end Distance

theorem edac_distance_zero_one : 4 ≤ hammingDist (edacCode 0) (edacCode 1) :=
  (edac_distance_iff (by decide)).mpr (by decide)

/-- **Bit 18** makes two check bits differ: a word with one more error in it is as near to the other. -/
theorem edac_distance_three : ¬ ∀ v w : BitVec 32, v ≠ w →
    4 ≤ hammingDist (edacCode v) (edacCode w) := by
  intro h
  have hfar := h 0 (BitVec.twoPow 32 18) (by decide)
  rw [edacCode_dist] at hfar
  exact absurd hfar (by decide +kernel)

end FlightOs
