/-
# Moving memory

`memmove` and its two loops (`lib/string.c`): up when the destination is below the source, and down
otherwise, byte by byte up to an address where both pointers are aligned, then word by word.

* `memmoveFwd_spec`, `memmoveBwd_spec`: either loop moves the bytes, whatever the overlap, when it
  goes in the direction it is called for.
* `memmove_spec`: the destination has the bytes of the source, and no other byte is changed.

A word access traps unless the address is aligned; in the model the loop then has no result, so
that the results below also say that there is no such access.
-/
import FlightOs.Lib.Bytes

namespace FlightOs

/-! ## 1. The loops -/

/-- The memory and the two pointers. -/
structure MoveState where
  mem : ByteMem 32
  d : BitVec 32
  s : BitVec 32

/-- `while (c--) { (*d) = (*s); d++; s++; }` -/
def copyBytesUp : Nat → MoveState → MoveState
  | 0, st => st
  | c + 1, st =>
    copyBytesUp c
      { mem := Function.update st.mem st.d (st.mem st.s), d := st.d + 1, s := st.s + 1 }

/-- `while (c--) { d--; s--; (*d) = (*s); }` -/
def copyBytesDown : Nat → MoveState → MoveState
  | 0, st => st
  | c + 1, st =>
    let d := st.d - 1
    let s := st.s - 1
    copyBytesDown c { mem := Function.update st.mem d (st.mem s), d := d, s := s }

/-- `(*((int *) d)) = (*((int *) s))`; `none` is the trap. -/
def copyWord (m : ByteMem 32) (d s : BitVec 32) : Option (ByteMem 32) :=
  if s &&& 3 = 0 ∧ d &&& 3 = 0 then some (m.putWord d (m.word s)) else none

def copyWordsUp : Nat → MoveState → Option MoveState
  | 0, st => some st
  | c + 1, st =>
    match copyWord st.mem st.d st.s with
    | none => none
    | some mem => copyWordsUp c { mem := mem, d := st.d + 4, s := st.s + 4 }

def copyWordsDown : Nat → MoveState → Option MoveState
  | 0, st => some st
  | c + 1, st =>
    let s := st.s - 4
    let d := st.d - 4
    match copyWord st.mem d s with
    | none => none
    | some mem => copyWordsDown c { mem := mem, d := d, s := s }

/-- The number of bytes `memmove_fwd` copies before the words. -/
def moveFwdLead (d s : BitVec 32) (n : Nat) : Nat :=
  if (s ||| d) &&& 3 ≠ 0 then
    if n < 4 then n
    else if (s ^^^ d) &&& 3 ≠ 0 then n
    else 4 - (s &&& 3).toNat
  else 0

/-- The number of bytes `memmove_bwd` copies before the words; the pointers are those to the end. -/
def moveBwdLead (d s : BitVec 32) (n : Nat) : Nat :=
  if (s ||| d) &&& 3 ≠ 0 then
    if n ≤ 4 then n
    else if (s ^^^ d) &&& 3 ≠ 0 then n
    else (s &&& 3).toNat
  else 0

def memmoveFwd (m : ByteMem 32) (d s : BitVec 32) (n : Nat) : Option (ByteMem 32) :=
  let c := moveFwdLead d s n
  let st := copyBytesUp c { mem := m, d := d, s := s }
  let n := n - c
  match copyWordsUp (n / 4) st with
  | none => none
  | some st => some (copyBytesUp (n % 4) st).mem

def memmoveBwd (m : ByteMem 32) (d s : BitVec 32) (n : Nat) : Option (ByteMem 32) :=
  let s := s + BitVec.ofNat 32 n
  let d := d + BitVec.ofNat 32 n
  let c := moveBwdLead d s n
  let st := copyBytesDown c { mem := m, d := d, s := s }
  let n := n - c
  match copyWordsDown (n / 4) st with
  | none => none
  | some st => some (copyBytesDown (n % 4) st).mem

/-- The memory and the pointer that is returned. -/
def memmove (m : ByteMem 32) (dest src : BitVec 32) (n : Nat) :
    Option (ByteMem 32 × BitVec 32) :=
  if n = 0 ∨ dest = src then some (m, dest)
  else
    let m := if dest < src then memmoveFwd m dest src n else memmoveBwd m dest src n
    m.map fun m => (m, dest)

/-! ## 2. The leading bytes -/

theorem and_three_toNat (a : BitVec 32) : (a &&& 3).toNat = a.toNat % 4 := by
  rw [BitVec.toNat_and]
  exact Nat.and_two_pow_sub_one_eq_mod a.toNat 2

theorem and_three_eq_zero_iff {a : BitVec 32} : a &&& 3 = 0 ↔ a.toNat % 4 = 0 := by
  rw [← and_three_toNat, ← BitVec.toNat_inj]
  rfl

theorem or_and_three_eq_zero_iff {s d : BitVec 32} :
    (s ||| d) &&& 3 = 0 ↔ s.toNat % 4 = 0 ∧ d.toNat % 4 = 0 := by
  rw [← and_three_eq_zero_iff, ← and_three_eq_zero_iff, BitVec.and_or_distrib_right]
  exact BitVec.or_eq_zero_iff

theorem xor_and_three_eq_zero_iff {s d : BitVec 32} :
    (s ^^^ d) &&& 3 = 0 ↔ s.toNat % 4 = d.toNat % 4 := by
  have hdist : (s ^^^ d) &&& 3 = (s &&& 3) ^^^ (d &&& 3) := by
    ext i hi
    simp only [BitVec.getElem_and, BitVec.getElem_xor]
    exact Bool.and_xor_distrib_right _ _ _
  rw [← and_three_toNat, ← and_three_toNat, BitVec.toNat_inj, hdist]
  exact BitVec.xor_eq_zero_iff

/-- Behind the leading bytes nothing is left, or both pointers are aligned. -/
theorem moveFwdLead_spec (d s : BitVec 32) (n : Nat) :
    moveFwdLead d s n ≤ n ∧ (moveFwdLead d s n = n ∨
      (s.toNat + moveFwdLead d s n) % 4 = 0 ∧ (d.toNat + moveFwdLead d s n) % 4 = 0) := by
  unfold moveFwdLead
  simp only [ne_eq, or_and_three_eq_zero_iff, xor_and_three_eq_zero_iff, and_three_toNat]
  split_ifs <;> omega

theorem moveBwdLead_spec (d s : BitVec 32) (n : Nat) :
    moveBwdLead d s n ≤ n ∧ (moveBwdLead d s n = n ∨
      (2 ^ 32 + s.toNat - moveBwdLead d s n) % 4 = 0 ∧
        (2 ^ 32 + d.toNat - moveBwdLead d s n) % 4 = 0) := by
  unfold moveBwdLead
  simp only [ne_eq, or_and_three_eq_zero_iff, xor_and_three_eq_zero_iff, and_three_toNat]
  split_ifs <;> omega

/-! ## 3. The copies -/

section Copies

variable {m : ByteMem 32} {dst src : BitVec 32} {n : Nat}

theorem add_ofNat_add (a : BitVec 32) (p k : Nat) :
    a + BitVec.ofNat 32 p + BitVec.ofNat 32 k = a + BitVec.ofNat 32 (p + k) := by
  rw [BitVec.add_assoc, ← BitVec.ofNat_add]

theorem add_ofNat_sub (a : BitVec 32) {p k : Nat} (h : k ≤ p) :
    a + BitVec.ofNat 32 p - BitVec.ofNat 32 k = a + BitVec.ofNat 32 (p - k) := by
  rw [BitVec.sub_eq_iff_eq_add, add_ofNat_add, Nat.sub_add_cancel h]

/-- The first `p` bytes have been moved. -/
def MoveState.upTo (m : ByteMem 32) (dst src : BitVec 32) (p : Nat) : MoveState :=
  { mem := m.moved dst src 0 p, d := dst + BitVec.ofNat 32 p, s := src + BitVec.ofNat 32 p }

/-- All bytes but the first `p` have been moved. -/
def MoveState.downTo (m : ByteMem 32) (dst src : BitVec 32) (n p : Nat) : MoveState :=
  { mem := m.moved dst src p n, d := dst + BitVec.ofNat 32 p, s := src + BitVec.ofNat 32 p }

theorem copyBytesUp_upTo (hd : dst.toNat + n ≤ 2 ^ 32) (hs : src.toNat + n ≤ 2 ^ 32)
    (hlt : dst.toNat < src.toNat) : ∀ {c p : Nat}, p + c ≤ n →
    copyBytesUp c (.upTo m dst src p) = .upTo m dst src (p + c)
  | 0, _, _ => rfl
  | c + 1, p, hc => by
    have hput : Function.update (m.moved dst src 0 p) (dst + BitVec.ofNat 32 p)
        (m.moved dst src 0 p (src + BitVec.ofNat 32 p)) = m.moved dst src 0 (p + 1) := by
      simpa only [ByteMem.put_one, Nat.add_zero] using
        ByteMem.put_moved_up (m := m) hd hs hlt (p := p) (k := 1) (by omega) fun i _ => rfl
    rw [copyBytesUp]
    dsimp only [MoveState.upTo]
    rw [hput, show (1 : BitVec 32) = BitVec.ofNat 32 1 from rfl, add_ofNat_add, add_ofNat_add]
    rw [show p + (c + 1) = p + 1 + c by omega]
    exact copyBytesUp_upTo hd hs hlt (by omega)

theorem copyBytesDown_downTo (hd : dst.toNat + n ≤ 2 ^ 32) (hs : src.toNat + n ≤ 2 ^ 32)
    (hlt : src.toNat < dst.toNat) : ∀ {c p : Nat}, p + c ≤ n →
    copyBytesDown c (.downTo m dst src n (p + c)) = .downTo m dst src n p
  | 0, _, _ => rfl
  | c + 1, p, hc => by
    have hput : Function.update (m.moved dst src (p + c + 1) n) (dst + BitVec.ofNat 32 (p + c))
        (m.moved dst src (p + c + 1) n (src + BitVec.ofNat 32 (p + c))) =
          m.moved dst src (p + c) n := by
      simpa only [ByteMem.put_one, Nat.add_zero] using
        ByteMem.put_moved_down (m := m) hd hs hlt (p := p + c) (k := 1) (by omega) fun i _ => rfl
    rw [copyBytesDown]
    dsimp only [MoveState.downTo]
    rw [show (1 : BitVec 32) = BitVec.ofNat 32 1 from rfl, add_ofNat_sub dst (by omega),
      add_ofNat_sub src (by omega), show p + (c + 1) - 1 = p + c by omega, ← Nat.add_assoc, hput]
    exact copyBytesDown_downTo hd hs hlt (by omega)

/-- A word is copied as its bytes are. -/
theorem copyWord_of_aligned {d s : BitVec 32} (hs : s.toNat % 4 = 0) (hd : d.toNat % 4 = 0) :
    copyWord m d s = some (m.put d (fun i => m (s + BitVec.ofNat 32 i)) 4) := by
  rw [copyWord, if_pos ⟨and_three_eq_zero_iff.mpr hs, and_three_eq_zero_iff.mpr hd⟩,
    ByteMem.putWord_word]

theorem toNat_add_ofNat_mod_four (a : BitVec 32) (p : Nat) :
    (a + BitVec.ofNat 32 p).toNat % 4 = (a.toNat + p) % 4 := by
  rw [BitVec.toNat_add, BitVec.toNat_ofNat]
  omega

theorem copyWordsUp_upTo (hd : dst.toNat + n ≤ 2 ^ 32) (hs : src.toNat + n ≤ 2 ^ 32)
    (hlt : dst.toNat < src.toNat) : ∀ {c p : Nat}, p + 4 * c ≤ n →
    (c = 0 ∨ (src.toNat + p) % 4 = 0 ∧ (dst.toNat + p) % 4 = 0) →
    copyWordsUp c (.upTo m dst src p) = some (.upTo m dst src (p + 4 * c))
  | 0, _, _, _ => rfl
  | c + 1, p, hc, hal => by
    obtain ⟨has, had⟩ := hal.resolve_left (Nat.succ_ne_zero c)
    have hput := ByteMem.put_moved_up (m := m) hd hs hlt (p := p) (k := 4) (by omega)
      fun i _ => rfl
    have hword : copyWord (m.moved dst src 0 p) (dst + BitVec.ofNat 32 p)
        (src + BitVec.ofNat 32 p) = some (m.moved dst src 0 (p + 4)) := by
      rw [copyWord_of_aligned (by rwa [toNat_add_ofNat_mod_four])
        (by rwa [toNat_add_ofNat_mod_four]), ← hput]
      simp only [add_ofNat_add]
    rw [copyWordsUp]
    dsimp only [MoveState.upTo]
    rw [hword, show (4 : BitVec 32) = BitVec.ofNat 32 4 from rfl, add_ofNat_add, add_ofNat_add,
      show p + 4 * (c + 1) = p + 4 + 4 * c by omega]
    exact copyWordsUp_upTo hd hs hlt (by omega) (.inr (by omega))

theorem copyWordsDown_downTo (hd : dst.toNat + n ≤ 2 ^ 32) (hs : src.toNat + n ≤ 2 ^ 32)
    (hlt : src.toNat < dst.toNat) : ∀ {c p : Nat}, p + 4 * c ≤ n →
    (c = 0 ∨ (src.toNat + p) % 4 = 0 ∧ (dst.toNat + p) % 4 = 0) →
    copyWordsDown c (.downTo m dst src n (p + 4 * c)) = some (.downTo m dst src n p)
  | 0, _, _, _ => rfl
  | c + 1, p, hc, hal => by
    obtain ⟨has, had⟩ := hal.resolve_left (Nat.succ_ne_zero c)
    have hput := ByteMem.put_moved_down (m := m) hd hs hlt (p := p + 4 * c) (k := 4) (by omega)
      fun i _ => rfl
    have hword : copyWord (m.moved dst src (p + 4 * c + 4) n) (dst + BitVec.ofNat 32 (p + 4 * c))
        (src + BitVec.ofNat 32 (p + 4 * c)) = some (m.moved dst src (p + 4 * c) n) := by
      rw [copyWord_of_aligned (by rw [toNat_add_ofNat_mod_four]; omega)
        (by rw [toNat_add_ofNat_mod_four]; omega), ← hput]
      simp only [add_ofNat_add]
    rw [copyWordsDown]
    dsimp only [MoveState.downTo]
    rw [show (4 : BitVec 32) = BitVec.ofNat 32 4 from rfl, add_ofNat_sub dst (by omega),
      add_ofNat_sub src (by omega), show p + 4 * (c + 1) - 4 = p + 4 * c by omega,
      show p + 4 * (c + 1) = p + 4 * c + 4 by omega, hword]
    exact copyWordsDown_downTo hd hs hlt (by omega) (.inr ⟨has, had⟩)

end Copies

/-! ## 4. The result -/

section Result

variable {m : ByteMem 32} {dst src : BitVec 32} {n : Nat}

theorem memmoveFwd_spec (hd : dst.toNat + n ≤ 2 ^ 32) (hs : src.toNat + n ≤ 2 ^ 32)
    (hlt : dst.toNat < src.toNat) : memmoveFwd m dst src n = some (m.moved dst src 0 n) := by
  obtain ⟨hle, hal⟩ := moveFwdLead_spec dst src n
  have hstart : ({ mem := m, d := dst, s := src } : MoveState) = .upTo m dst src 0 := by
    simp only [MoveState.upTo, ByteMem.moved_self, BitVec.add_zero]
  unfold memmoveFwd
  generalize moveFwdLead dst src n = c at hle hal ⊢
  have hrest := Nat.div_add_mod (n - c) 4
  dsimp only
  rw [hstart, copyBytesUp_upTo hd hs hlt (by omega), Nat.zero_add,
    copyWordsUp_upTo hd hs hlt (by omega) (by omega)]
  dsimp only
  rw [copyBytesUp_upTo hd hs hlt (by omega), show c + 4 * ((n - c) / 4) + (n - c) % 4 = n by omega]
  rfl

theorem memmoveBwd_spec (hd : dst.toNat + n ≤ 2 ^ 32) (hs : src.toNat + n ≤ 2 ^ 32)
    (hlt : src.toNat < dst.toNat) : memmoveBwd m dst src n = some (m.moved dst src 0 n) := by
  obtain ⟨hle, hal⟩ := moveBwdLead_spec (dst + BitVec.ofNat 32 n) (src + BitVec.ofNat 32 n) n
  have hs4 := toNat_add_ofNat_mod_four src n
  have hd4 := toNat_add_ofNat_mod_four dst n
  have hstart : ({ mem := m, d := dst + BitVec.ofNat 32 n, s := src + BitVec.ofNat 32 n } :
      MoveState) = .downTo m dst src n n := by
    rw [MoveState.downTo, ByteMem.moved_self]
  unfold memmoveBwd
  dsimp only
  generalize moveBwdLead (dst + BitVec.ofNat 32 n) (src + BitVec.ofNat 32 n) n = c at hle hal ⊢
  have hrest := Nat.div_add_mod (n - c) 4
  have hlead : copyBytesDown c (.downTo m dst src n n) = .downTo m dst src n (n - c) := by
    have h := copyBytesDown_downTo (m := m) hd hs hlt (c := c) (p := n - c) (by omega)
    rwa [Nat.sub_add_cancel hle] at h
  have hwords : copyWordsDown ((n - c) / 4) (.downTo m dst src n (n - c)) =
      some (.downTo m dst src n ((n - c) % 4)) := by
    have h := copyWordsDown_downTo (m := m) hd hs hlt (c := (n - c) / 4) (p := (n - c) % 4)
      (by omega) (by omega)
    rwa [show (n - c) % 4 + 4 * ((n - c) / 4) = n - c by omega] at h
  have htail : copyBytesDown ((n - c) % 4) (.downTo m dst src n ((n - c) % 4)) =
      .downTo m dst src n 0 := by
    have h := copyBytesDown_downTo (m := m) hd hs hlt (c := (n - c) % 4) (p := 0) (by omega)
    rwa [Nat.zero_add] at h
  rw [hstart, hlead, hwords]
  dsimp only
  rw [htail]
  rfl

/-- The bytes are moved, and a move onto itself changes nothing. -/
theorem memmove_spec (hd : dst.toNat + n ≤ 2 ^ 32) (hs : src.toNat + n ≤ 2 ^ 32) :
    memmove m dst src n =
      some (m.put dst (fun i => m (src + BitVec.ofNat 32 i)) n, dst) := by
  unfold memmove
  by_cases hsame : n = 0 ∨ dst = src
  · rw [if_pos hsame, ByteMem.put_same]
    rintro i hi
    rw [hsame.resolve_left (by omega)]
  · rw [if_neg hsame, ← ByteMem.moved_eq_put]
    have hne : dst.toNat ≠ src.toNat := fun h => hsame (.inr (BitVec.eq_of_toNat_eq h))
    by_cases hlt : dst < src
    · simp only [if_pos hlt, memmoveFwd_spec hd hs (BitVec.lt_def.mp hlt), Option.map_some]
    · have hgt : src.toNat < dst.toNat := by
        rw [BitVec.lt_def] at hlt
        omega
      simp only [if_neg hlt, memmoveBwd_spec hd hs hgt, Option.map_some]

/-- The destination has the bytes of the source, whatever the overlap and the alignment, no other
byte is changed, and no word is accessed at an address that is not aligned. -/
theorem memmove_moves (hd : dst.toNat + n ≤ 2 ^ 32) (hs : src.toNat + n ≤ 2 ^ 32) :
    ∃ m', memmove m dst src n = some (m', dst) ∧
      (∀ i < n, m' (dst + BitVec.ofNat 32 i) = m (src + BitVec.ofNat 32 i)) ∧
      ∀ x, (∀ i < n, x ≠ dst + BitVec.ofNat 32 i) → m' x = m x := by
  refine ⟨_, memmove_spec hd hs, fun i hi => ByteMem.put_at hi (by omega), fun x hx => ?_⟩
  apply ByteMem.put_of_le
  by_contra hin
  apply hx _ (Nat.not_le.mp hin)
  rw [BitVec.ofNat_toNat, BitVec.setWidth_eq, BitVec.add_comm, BitVec.sub_add_cancel]

/-- Seven bytes, three further on, at addresses that leave different remainders. -/
theorem memmove_moves_overlap :
    ∃ m', memmove (fun x => x.setWidth 8) 0x1003 0x1000 7 = some (m', 0x1003) ∧
      (∀ i < 7, m' (0x1003 + BitVec.ofNat 32 i) = (0x1000 + BitVec.ofNat 32 i).setWidth 8) ∧
      ∀ x, (∀ i < 7, x ≠ 0x1003 + BitVec.ofNat 32 i) → m' x = x.setWidth 8 :=
  memmove_moves (by decide) (by decide)

end Result

end FlightOs
