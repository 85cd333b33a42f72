/-
# Tokens: `strtok` of `lib/string.c`

`strtok` keeps the place where it stopped in a static variable, and ends a token by a NUL that it
writes over the delimiter behind it.  It needs no other memory of the string it is in.

A string lies in an object, which is a list of bytes, and a pointer into it is an offset.  Reading or
writing beyond the object is a fault, which no result models; so in an object that ends with the
string, calls that have a result stay within the string.

* What is behind the place where `strtok` stopped is as it was in the beginning (`StrtokAt`), and a
  call either finds delimiters only or takes the first token there (`strtok_spec`).
* The tokens that are left are those behind that place, so that the calls of a run return one token
  after the other and NULL from then on (`strtok_tokens`).
-/
import Mathlib.Algebra.Group.Nat.Defs
import Mathlib.Data.List.Basic

namespace FlightOs

/-! ## 1. The code -/

/-- The inner loop of `strspn` and `strpbrk`: is `c` one of the characters of `accept`? -/
def strAccepts (c : UInt8) : List UInt8 → Option Bool
  | [] => none
  | a :: accept => if a = 0 then some false else if c = a then some true else strAccepts c accept

/-- get length of a prefix substring -/
def strspn (accept : List UInt8) : List UInt8 → Option Nat
  | [] => none
  | c :: s =>
    if c = 0 then some 0
    else
      match strAccepts c accept with
      | none => none
      | some false => some 0
      | some true => (strspn accept s).map (· + 1)

/-- search a string for any of a set of bytes -/
def strpbrk (accept : List UInt8) : List UInt8 → Option (Option Nat)
  | [] => none
  | c :: s =>
    if c = 0 then some none
    else
      match strAccepts c accept with
      | none => none
      | some true => some (some 0)
      | some false => (strpbrk accept s).map (Option.map (· + 1))

/-- scan a memory area for a character -/
def memchr (c : UInt8) : Nat → List UInt8 → Option (Option Nat)
  | n, [] => if n = 0 then some none else none
  | n, p :: s =>
    if n = 0 then some none
    else if c = p then some (some 0)
    else (memchr c (n - 1) s).map (Option.map (· + 1))

/-- The object that the string is in, and the static `s_prev`.  NULL is `none`. -/
structure StrtokState where
  mem : List UInt8
  sPrev : Option Nat
deriving DecidableEq

/-- split a string into tokens -/
def strtok (s : Option Nat) (delim : List UInt8) (st : StrtokState) :
    Option (Option Nat × StrtokState) := do
  let s ← s.or st.sPrev
  let n ← strspn delim (st.mem.drop s)
  let s := s + n
  let c ← st.mem[s]?
  if c = 0 then return (none, { st with sPrev := some s })
  let token := s
  match ← strpbrk delim (st.mem.drop token) with
  | some n => return (some token, ⟨st.mem.set (token + n) 0, some (token + n + 1)⟩)
  | none =>
    -- `memchr(token, '\0', -1)`
    let s ← memchr 0 (2 ^ 32 - 1) (st.mem.drop token)
    return (some token, { st with sPrev := s.map (token + ·) })

/-- What `k` calls return, the first of which is given `s` and the others NULL. -/
def strtokCalls (delim : List UInt8) : Nat → Option Nat → StrtokState →
    Option (List (Option Nat) × StrtokState)
  | 0, _, st => some ([], st)
  | k + 1, s, st => do
    let (r, st) ← strtok s delim st
    let (rs, st) ← strtokCalls delim k none st
    return (r :: rs, st)

/-! ## 2. Tokens -/

/-- The string has a delimiter at `k`. -/
def IsDelim (d str : List UInt8) (k : Nat) : Prop := ∃ c, str[k]? = some c ∧ c ∈ d

/-- What lies between `i` and `j` is a token: it is not empty, has no delimiter, and cannot be made
longer. -/
structure StrToken (d str : List UInt8) (i j : Nat) : Prop where
  nonempty : i < j
  inside : j ≤ str.length
  free : ∀ k, i ≤ k → k < j → ¬ IsDelim d str k
  left : i = 0 ∨ IsDelim d str (i - 1)
  right : j = str.length ∨ IsDelim d str j

/-- The tokens from `p` on, in order. -/
structure StrTokensFrom (d str : List UInt8) (p : Nat) (toks : List (Nat × Nat)) : Prop where
  sorted : toks.Pairwise fun t u => t.2 < u.1
  mem_iff : ∀ i j, (i, j) ∈ toks ↔ p ≤ i ∧ StrToken d str i j

/-- All tokens of the string, in order. -/
def StrTokens (d str : List UInt8) (toks : List (Nat × Nat)) : Prop := StrTokensFrom d str 0 toks

/-- The string at `a` is `s`. -/
def CString (mem : List UInt8) (a : Nat) (s : List UInt8) : Prop :=
  ∀ k, k ≤ s.length → mem[a + k]? = (s ++ [0])[k]?

section Tokens

variable {d str : List UInt8} {p : Nat}

theorem isDelim_lt {k : Nat} (h : IsDelim d str k) : k < str.length := by
  obtain ⟨c, hc, -⟩ := h
  exact (List.getElem?_eq_some_iff.mp hc).1

@[simp] theorem isDelim_zero {c : UInt8} : IsDelim d (c :: str) 0 ↔ c ∈ d := by
  simp [IsDelim]

@[simp] theorem isDelim_succ {c : UInt8} {k : Nat} : IsDelim d (c :: str) (k + 1) ↔ IsDelim d str k := by
  simp [IsDelim]

@[simp] theorem isDelim_drop {k : Nat} : IsDelim d (str.drop p) k ↔ IsDelim d str (p + k) := by
  simp [IsDelim]

/-- Behind `p` there are delimiters only. -/
theorem strTokensFrom_nil (h : ∀ k, p ≤ k → k < str.length → IsDelim d str k) :
    StrTokensFrom d str p [] where
  sorted := List.Pairwise.nil
  mem_iff i j := by
    refine ⟨fun hmem => absurd hmem List.not_mem_nil, fun ⟨hp, htok⟩ => ?_⟩
    have hi := htok.nonempty
    have hj := htok.inside
    exact absurd (h i hp (by omega)) (htok.free i (Nat.le_refl i) hi)

/-- The first token behind `p`, and then those behind it. -/
theorem StrTokensFrom.cons {i j q : Nat} {toks : List (Nat × Nat)} (htok : StrToken d str i j)
    (hp : p ≤ i) (hskip : ∀ k, p ≤ k → k < i → IsDelim d str k) (hq : j = str.length ∨ q = j + 1)
    (hqj : j ≤ q) (h : StrTokensFrom d str q toks) : StrTokensFrom d str p ((i, j) :: toks) where
  sorted := by
    refine List.pairwise_cons.mpr ⟨fun t ht => ?_, h.sorted⟩
    obtain ⟨hqt, htok'⟩ := (h.mem_iff t.1 t.2).mp ht
    have hin := htok'.inside
    have hne := htok'.nonempty
    have hj := htok.inside
    rcases hq with hq | hq
    · omega
    · show j < t.1
      omega
  mem_iff a b := by
    have hij := htok.nonempty
    have hjn := htok.inside
    constructor
    · intro hmem
      rcases List.mem_cons.mp hmem with heq | hmem
      · obtain ⟨rfl, rfl⟩ := Prod.mk.inj heq
        exact ⟨hp, htok⟩
      · obtain ⟨hqa, htok'⟩ := (h.mem_iff a b).mp hmem
        exact ⟨by omega, htok'⟩
    · rintro ⟨hpa, htok'⟩
      have hab := htok'.nonempty
      have hbn := htok'.inside
      rcases Nat.lt_or_ge j a with hja | haj
      · -- it begins behind the first one
        refine List.mem_cons_of_mem _ ((h.mem_iff a b).mpr ⟨?_, htok'⟩)
        omega
      · -- it overlaps the first one, and both cannot be made longer
        have hia : i ≤ a := by
          by_contra hlt
          exact htok'.free a (Nat.le_refl a) hab (hskip a hpa (by omega))
        have haj' : a < j := by
          rcases htok.right with hj | hj
          · omega
          · by_contra hge
            have haj' : a = j := by omega
            exact htok'.free a (Nat.le_refl a) hab (haj' ▸ hj)
        have hai : a = i := by
          rcases htok'.left with h0 | h0
          · omega
          · by_contra hne
            exact htok.free (a - 1) (by omega) (by omega) h0
        have hbj : b = j := by
          rcases Nat.lt_trichotomy b j with hlt | heq | hgt
          · rcases htok'.right with hb | hb
            · omega
            · exact absurd hb (htok.free b (by omega) hlt)
          · exact heq
          · rcases htok.right with hj | hj
            · omega
            · exact absurd hj (htok'.free j (by omega) hgt)
        rw [hai, hbj]
        exact List.mem_cons_self

end Tokens

/-! ## 3. The searches -/

section Searches

variable {d r post s : List UInt8}

theorem strAccepts_eq {c : UInt8} (hd : 0 ∉ d) : strAccepts c (d ++ 0 :: r) = some (decide (c ∈ d)) := by
  induction d with
  | nil => simp [strAccepts]
  | cons a d ih =>
    have ha := List.ne_of_not_mem_cons hd
    have hd := List.not_mem_of_not_mem_cons hd
    rw [List.cons_append, strAccepts, if_neg (Ne.symm ha), ih hd]
    by_cases hc : c = a <;> simp [hc]

variable (post) in
/-- The string begins with that many delimiters. -/
theorem strspn_spec (hd : 0 ∉ d) (hs : 0 ∉ s) :
    ∃ n, strspn (d ++ 0 :: r) (s ++ 0 :: post) = some n ∧ n ≤ s.length ∧
      (∀ k, k < n → IsDelim d s k) ∧ ¬ IsDelim d s n := by
  induction s with
  | nil => exact ⟨0, by simp [strspn, IsDelim]⟩
  | cons c s ih =>
    have hc := List.ne_of_not_mem_cons hs
    have hs := List.not_mem_of_not_mem_cons hs
    obtain ⟨n, hn, hle, hdelim, hend⟩ := ih hs
    rw [List.cons_append, strspn, if_neg (Ne.symm hc), strAccepts_eq hd]
    by_cases hcd : c ∈ d
    · refine ⟨n + 1, by simp [hcd, hn], by simpa using hle, fun k hk => ?_, by simpa using hend⟩
      cases k with
      | zero => simpa using hcd
      | succ k => simpa using hdelim k (by omega)
    · exact ⟨0, by simp [hcd]⟩

variable (post) in
/-- The first delimiter of the string, or none. -/
theorem strpbrk_spec (hd : 0 ∉ d) (hs : 0 ∉ s) :
    (∃ n, strpbrk (d ++ 0 :: r) (s ++ 0 :: post) = some (some n) ∧ IsDelim d s n ∧
      ∀ k, k < n → ¬ IsDelim d s k) ∨
    (strpbrk (d ++ 0 :: r) (s ++ 0 :: post) = some none ∧ ∀ k, ¬ IsDelim d s k) := by
  induction s with
  | nil => exact Or.inr (by simp [strpbrk, IsDelim])
  | cons c s ih =>
    have hc := List.ne_of_not_mem_cons hs
    have hs := List.not_mem_of_not_mem_cons hs
    rw [List.cons_append, strpbrk, if_neg (Ne.symm hc), strAccepts_eq hd]
    by_cases hcd : c ∈ d
    · exact Or.inl ⟨0, by simp [hcd]⟩
    · rcases ih hs with ⟨n, hn, hdelim, hfree⟩ | ⟨hn, hfree⟩
      · refine Or.inl ⟨n + 1, by simp [hcd, hn], by simpa using hdelim, fun k hk => ?_⟩
        cases k with
        | zero => simpa using hcd
        | succ k => simpa using hfree k (by omega)
      · refine Or.inr ⟨by simp [hcd, hn], fun k => ?_⟩
        cases k with
        | zero => simpa using hcd
        | succ k => simpa using hfree k

variable (post) in
/-- The NUL is found if the count is large enough. -/
theorem memchr_spec {n : Nat} (hs : 0 ∉ s) (hn : s.length < n) :
    memchr 0 n (s ++ 0 :: post) = some (some s.length) := by
  induction s generalizing n with
  | nil =>
    have hn : n ≠ 0 := Nat.ne_of_gt hn
    simp [memchr, hn]
  | cons c s ih =>
    have hc := List.ne_of_not_mem_cons hs
    have hs := List.not_mem_of_not_mem_cons hs
    rw [List.length_cons] at hn
    rw [List.cons_append, memchr, if_neg (by omega), if_neg hc, ih hs (by omega)]
    simp

end Searches

/-! ## 4. One call -/

section Call

variable {pre str post d r : List UInt8} {p : Nat} {mem : List UInt8}

/-- From `p` on the string is as it was in the beginning. -/
structure StrtokAt (pre str post : List UInt8) (p : Nat) (mem : List UInt8) : Prop where
  inside : p ≤ str.length
  kept : ∀ a, pre.length + p ≤ a → mem[a]? = (pre ++ str ++ 0 :: post)[a]?

theorem StrtokAt.mono {q : Nat} (h : StrtokAt pre str post p mem) (hpq : p ≤ q)
    (hq : q ≤ str.length) : StrtokAt pre str post q mem :=
  ⟨hq, fun a ha => h.kept a (by omega)⟩

/-- What is read there is the rest of the string. -/
theorem StrtokAt.drop (h : StrtokAt pre str post p mem) :
    mem.drop (pre.length + p) = str.drop p ++ 0 :: post := by
  have hin := h.inside
  have horig : (pre ++ str ++ 0 :: post).drop (pre.length + p) = str.drop p ++ 0 :: post := by
    rw [List.append_assoc, List.drop_append, List.drop_append]
    simp [Nat.sub_eq_zero_of_le hin]
  rw [← horig]
  refine List.ext_getElem? fun k => ?_
  rw [List.getElem?_drop, List.getElem?_drop]
  exact h.kept _ (Nat.le_add_right _ k)

theorem StrtokAt.get (h : StrtokAt pre str post p mem) :
    mem[pre.length + p]? = (str.drop p ++ 0 :: post)[0]? := by
  rw [← h.drop, List.getElem?_drop, Nat.add_zero]

/-- A call begins at `p`, skips the delimiters there, and ends where the string ends or behind the
first token. -/
theorem strtok_spec (hstr : 0 ∉ str) (hd : 0 ∉ d)
    (hsize : (pre ++ str ++ 0 :: post).length < 2 ^ 32) {s prev : Option Nat}
    (h : StrtokAt pre str post p mem) (hs : s.or prev = some (pre.length + p)) :
    (∃ prev', strtok s (d ++ 0 :: r) ⟨mem, prev⟩ = some (none, ⟨mem, prev'⟩) ∧
      prev' = some (pre.length + str.length) ∧ ∀ k, p ≤ k → k < str.length → IsDelim d str k) ∨
    ∃ i j st, strtok s (d ++ 0 :: r) ⟨mem, prev⟩ = some (some (pre.length + i), st) ∧
      p ≤ i ∧ (∀ k, p ≤ k → k < i → IsDelim d str k) ∧
      i < j ∧ (∀ k, i ≤ k → k < j → ¬ IsDelim d str k) ∧
      (IsDelim d str j ∧ st = ⟨mem.set (pre.length + j) 0, some (pre.length + j + 1)⟩ ∨
        j = str.length ∧ st = ⟨mem, some (pre.length + j)⟩) := by
  have hin := h.inside
  have hrest : ∀ q, (0 : UInt8) ∉ str.drop q := fun q hmem => hstr (List.mem_of_mem_drop hmem)
  obtain ⟨n, hn, hnle, hskip, hend⟩ := strspn_spec (r := r) post hd (hrest p)
  rw [List.length_drop] at hnle
  simp only [isDelim_drop] at hskip hend
  have hat : StrtokAt pre str post (p + n) mem := h.mono (by omega) (by omega)
  have hskip' : ∀ k, p ≤ k → k < p + n → IsDelim d str k := by
    intro k hpk hk
    have hk' := hskip (k - p) (by omega)
    rwa [Nat.add_sub_cancel' hpk] at hk'
  rcases Nat.lt_or_ge (p + n) str.length with hlt | hge
  · -- there is a token at `p + n`
    have hget : mem[pre.length + (p + n)]? = some str[p + n] := by
      rw [hat.get, List.getElem?_append_left (by simp; omega), List.getElem?_drop]
      simp [hlt]
    have hne : str[p + n] ≠ 0 := fun h0 => hstr (h0 ▸ List.getElem_mem hlt)
    refine Or.inr ?_
    rcases strpbrk_spec (r := r) post hd (hrest (p + n)) with
      ⟨m, hm, hdelim, hfree⟩ | ⟨hm, hfree⟩
    · simp only [isDelim_drop] at hdelim hfree
      have hmpos : m ≠ 0 := by
        rintro rfl
        exact hend hdelim
      refine ⟨p + n, p + n + m, _, ?_, by omega, hskip', by omega, ?_, Or.inl ⟨hdelim, rfl⟩⟩
      · simp [strtok, hs, h.drop, hn, hget, hne, hat.drop, hm, Nat.add_assoc]
      · intro k hk hkm
        have hk' := hfree (k - (p + n)) (by omega)
        rwa [Nat.add_sub_cancel' hk] at hk'
    · simp only [isDelim_drop] at hfree
      have hlen : (str.drop (p + n)).length < 4294967295 := by
        simp only [List.length_append, List.length_cons] at hsize
        rw [List.length_drop]
        omega
      have hmem := memchr_spec post (hrest (p + n)) hlen
      refine ⟨p + n, str.length, _, ?_, by omega, hskip', hlt, ?_, Or.inr ⟨rfl, rfl⟩⟩
      · have hsum : p + (n + (str.length - (p + n))) = str.length := by omega
        simp [strtok, hs, h.drop, hn, hget, hne, hat.drop, hm, hmem, Nat.add_assoc, hsum]
      · intro k hk _
        have hk' := hfree (k - (p + n))
        rwa [Nat.add_sub_cancel' hk] at hk'
  · -- there are only delimiters up to the end
    have heq : p + n = str.length := by omega
    refine Or.inl ⟨_, ?_, rfl, fun k hpk hk => hskip' k hpk (by omega)⟩
    have hget : mem[pre.length + str.length]? = some 0 := by
      rw [← heq, hat.get, heq, List.drop_length]
      rfl
    simp [strtok, hs, h.drop, hn, hget, Nat.add_assoc, heq]

theorem StrtokAt.get_of_lt {x : Nat} (h : StrtokAt pre str post p mem) (hpx : p ≤ x)
    (hx : x < str.length) : mem[pre.length + x]? = str[x]? := by
  rw [(h.mono hpx (Nat.le_of_lt hx)).get, List.getElem?_append_left (by simp; omega),
    List.getElem?_drop, Nat.add_zero]

/-- Where a call leaves the string when it has found a token. -/
theorem StrtokAt.token {i j : Nat} {st : StrtokState} (h : StrtokAt pre str post p mem) (hpi : p ≤ i)
    (hij : i < j)
    (hst : IsDelim d str j ∧ st = ⟨mem.set (pre.length + j) 0, some (pre.length + j + 1)⟩ ∨
      j = str.length ∧ st = ⟨mem, some (pre.length + j)⟩) :
    (∃ q, st.sPrev = some (pre.length + q) ∧ StrtokAt pre str post q st.mem ∧ j ≤ q ∧
      (j = str.length ∨ q = j + 1) ∧ (IsDelim d str (q - 1) ∨ q = str.length)) ∧
    (∀ a, a < pre.length + j ∨ pre.length + str.length ≤ a → st.mem[a]? = mem[a]?) ∧
    st.mem[pre.length + j]? = some 0 := by
  rcases hst with ⟨hdelim, rfl⟩ | ⟨rfl, rfl⟩
  · have hj := isDelim_lt hdelim
    have hget := h.get_of_lt (Nat.le_of_lt (Nat.lt_of_le_of_lt hpi hij)) hj
    rw [List.getElem?_eq_getElem hj] at hget
    have hlen := (List.getElem?_eq_some_iff.mp hget).1
    refine ⟨⟨j + 1, rfl, ⟨hj, fun a ha => ?_⟩, Nat.le_succ j, Or.inr rfl, Or.inl hdelim⟩,
      fun a ha => ?_, ?_⟩
    · rw [List.getElem?_set_ne (by omega)]
      exact h.kept a (by omega)
    · exact List.getElem?_set_ne (by omega)
    · exact List.getElem?_set_self hlen
  · have hat := h.mono h.inside (Nat.le_refl _)
    refine ⟨⟨str.length, rfl, hat, Nat.le_refl _, Or.inl rfl, Or.inr rfl⟩, fun a _ => rfl, ?_⟩
    rw [hat.get, List.drop_length]
    rfl

/-- The string that is read between `i` and a NUL at `j`. -/
theorem cString_of_kept {mem' : List UInt8} {i j : Nat} (h : StrtokAt pre str post p mem)
    (hpi : p ≤ i) (hij : i < j) (hj : j ≤ str.length)
    (hkept : ∀ a, a < pre.length + j → mem'[a]? = mem[a]?) (hnul : mem'[pre.length + j]? = some 0) :
    CString mem' (pre.length + i) ((str.take j).drop i) := by
  have hlen : ((str.take j).drop i).length = j - i := by
    rw [List.length_drop, List.length_take, Nat.min_eq_left hj]
  intro k hk
  rw [hlen] at hk
  rcases Nat.lt_or_eq_of_le hk with hlt | heq
  · rw [List.getElem?_append_left (by omega), List.getElem?_drop, List.getElem?_take_of_lt (by omega),
      hkept _ (by omega), Nat.add_assoc]
    exact h.get_of_lt (by omega) (by omega)
  · have hsum : pre.length + i + k = pre.length + j := by omega
    rw [hsum, hnul, List.getElem?_append_right (by omega), hlen, heq, Nat.sub_self]
    rfl

end Call

/-! ## 5. All calls -/

/-- `k` calls that begin at `p` return the tokens `toks` and then NULL, and leave the memory as it
was but for the string from `p` on, where each token that they have returned is a string. -/
structure StrtokReturns (pre str : List UInt8) (p : Nat) (toks : List (Nat × Nat)) (k : Nat)
    (st : StrtokState) (rs : List (Option Nat)) (st' : StrtokState) : Prop where
  results : rs = (List.range k).map fun m => toks[m]?.map fun t => pre.length + t.1
  strings : ∀ t ∈ toks.take k, CString st'.mem (pre.length + t.1) ((str.take t.2).drop t.1)
  keeps : ∀ a, a < pre.length + p ∨ pre.length + str.length ≤ a → st'.mem[a]? = st.mem[a]?
  stays : 0 < k → ∃ q, st'.sPrev = some (pre.length + q) ∧ q ≤ str.length

section Calls

variable {pre str post d r : List UInt8}

theorem strtokReturns_zero {p : Nat} {toks : List (Nat × Nat)} {st : StrtokState} :
    StrtokReturns pre str p toks 0 st [] st where
  results := rfl
  strings _ ht := absurd ht List.not_mem_nil
  keeps _ _ := rfl
  stays h0 := absurd h0 (Nat.lt_irrefl 0)

/-- `s_prev` is in the string behind any number of calls, if it is there before them. -/
theorem StrtokReturns.stays_of {delim : List UInt8} {p q k : Nat} {toks : List (Nat × Nat)}
    {st st' : StrtokState} {rs : List (Option Nat)} (h : StrtokReturns pre str p toks k st rs st')
    (hcalls : strtokCalls delim k none st = some (rs, st'))
    (hprev : st.sPrev = some (pre.length + q)) (hq : q ≤ str.length) :
    ∃ q, st'.sPrev = some (pre.length + q) ∧ q ≤ str.length := by
  cases k with
  | zero =>
    obtain rfl := (Prod.mk.inj (Option.some.inj hcalls)).2
    exact ⟨q, hprev, hq⟩
  | succ k => exact h.stays (Nat.succ_pos k)

/-- Where only delimiters are left, every call returns NULL. -/
theorem strtokCalls_end (hstr : 0 ∉ str) (hd : 0 ∉ d)
    (hsize : (pre ++ str ++ 0 :: post).length < 2 ^ 32) {k p : Nat} {mem : List UInt8}
    {s prev : Option Nat} (h : StrtokAt pre str post p mem) (hs : s.or prev = some (pre.length + p))
    (hend : ∀ k, p ≤ k → k < str.length → IsDelim d str k) :
    ∃ rs st, strtokCalls (d ++ 0 :: r) k s ⟨mem, prev⟩ = some (rs, st) ∧
      StrtokReturns pre str p [] k ⟨mem, prev⟩ rs st := by
  induction k generalizing p s prev with
  | zero => exact ⟨[], ⟨mem, prev⟩, rfl, strtokReturns_zero⟩
  | succ k ih =>
    rcases strtok_spec (r := r) hstr hd hsize h hs with
      ⟨prev', hcall, rfl, -⟩ | ⟨i, j, _, -, hpi, -, hij, hfree, hj⟩
    · obtain ⟨rs, st, hcalls, hret⟩ := ih (s := none) (h.mono h.inside (Nat.le_refl _)) rfl
        (fun k hk hlt => absurd hlt (Nat.not_lt_of_le hk))
      refine ⟨none :: rs, st, by simp [strtokCalls, hcall, hcalls], ?_, by simp, ?_,
        fun _ => hret.stays_of hcalls rfl (Nat.le_refl _)⟩
      · rw [hret.results, List.range_succ_eq_map]
        simp [Function.comp_def]
      · intro a ha
        refine hret.keeps a ?_
        have hin := h.inside
        omega
    · have hlt : i < str.length := by
        rcases hj with ⟨hdelim, -⟩ | ⟨rfl, -⟩
        · exact Nat.lt_trans hij (isDelim_lt hdelim)
        · exact hij
      exact absurd (hend i hpi hlt) (hfree i (Nat.le_refl i) hij)

/-- The calls from `p` on return the tokens from `p` on. -/
theorem strtokCalls_spec (hstr : 0 ∉ str) (hd : 0 ∉ d)
    (hsize : (pre ++ str ++ 0 :: post).length < 2 ^ 32) {n p : Nat} {mem : List UInt8}
    {s prev : Option Nat} (hn : str.length - p < n) (h : StrtokAt pre str post p mem)
    (hs : s.or prev = some (pre.length + p))
    (hleft : p = 0 ∨ IsDelim d str (p - 1) ∨ p = str.length) :
    ∃ toks, StrTokensFrom d str p toks ∧ ∀ k, ∃ rs st,
      strtokCalls (d ++ 0 :: r) k s ⟨mem, prev⟩ = some (rs, st) ∧
        StrtokReturns pre str p toks k ⟨mem, prev⟩ rs st := by
  induction n generalizing p mem s prev with
  | zero => exact absurd hn (Nat.not_lt_zero _)
  | succ n ih =>
    rcases strtok_spec (r := r) hstr hd hsize h hs with
      ⟨-, -, -, hend⟩ | ⟨i, j, st, hcall, hpi, hskip, hij, hfree, hst⟩
    · exact ⟨[], strTokensFrom_nil hend, fun k => strtokCalls_end hstr hd hsize h hs hend⟩
    · obtain ⟨⟨q, hprev, hat, hjq, hq, hright⟩, hkept, hnul⟩ := h.token hpi hij hst
      have hqn := hat.inside
      have htok : StrToken d str i j := by
        refine ⟨hij, by omega, hfree, ?_, ?_⟩
        · rcases Nat.lt_or_eq_of_le hpi with hlt | rfl
          · exact Or.inr (hskip (i - 1) (by omega) (by omega))
          · rcases hleft with h0 | hdelim | hend
            · exact Or.inl h0
            · exact Or.inr hdelim
            · omega
        · rcases hst with ⟨hdelim, -⟩ | ⟨heq, -⟩
          · exact Or.inr hdelim
          · exact Or.inl heq
      obtain ⟨mem', prev'⟩ := st
      obtain ⟨toks, htoks, hcalls⟩ := ih (s := none) (by omega) hat hprev (Or.inr hright)
      refine ⟨(i, j) :: toks, htoks.cons htok hpi hskip hq hjq, fun k => ?_⟩
      cases k with
      | zero => exact ⟨[], ⟨mem, prev⟩, rfl, strtokReturns_zero⟩
      | succ k =>
        obtain ⟨rs, st, hrun, hret⟩ := hcalls k
        refine ⟨some (pre.length + i) :: rs, st, by simp [strtokCalls, hcall, hrun], ?_, ?_, ?_,
          fun _ => hret.stays_of hrun hprev hqn⟩
        · rw [hret.results, List.range_succ_eq_map]
          simp
        · intro t ht
          rw [List.take_succ_cons] at ht
          rcases List.mem_cons.mp ht with rfl | ht
          · -- what the calls behind it write lies behind the NUL of this token
            refine cString_of_kept h hpi hij htok.inside (fun a ha => ?_) ?_
            · rw [hret.keeps a (by omega)]
              exact hkept a (Or.inl ha)
            · show st.mem[pre.length + j]? = some 0
              rw [hret.keeps _ (by omega)]
              exact hnul
          · exact hret.strings t ht
        · intro a ha
          rw [hret.keeps a (by omega)]
          exact hkept a (by omega)

end Calls

/-- For every string, and every set of delimiters that all calls are given, the calls return the
tokens of the string in order, each of which is a string when it is returned and remains one, and
every further call returns NULL.  They write to nothing but the string, and do not leave it: with
nothing before and behind the string in its object the statement says that nothing else is read. -/
theorem strtok_tokens (pre str post d r : List UInt8) (prev : Option Nat) (hstr : 0 ∉ str)
    (hd : 0 ∉ d) (hsize : (pre ++ str ++ 0 :: post).length < 2 ^ 32) :
    ∃ toks, StrTokens d str toks ∧ ∀ k, ∃ rs st,
      strtokCalls (d ++ 0 :: r) k (some pre.length) ⟨pre ++ str ++ 0 :: post, prev⟩ = some (rs, st) ∧
        StrtokReturns pre str 0 toks k ⟨pre ++ str ++ 0 :: post, prev⟩ rs st :=
  strtokCalls_spec hstr hd hsize (Nat.lt_succ_self _) ⟨Nat.zero_le _, fun _ _ => rfl⟩ rfl (Or.inl rfl)

/-- `" ab c "` -/
theorem strtok_tokens_two : ∃ toks, StrTokens [32] [32, 97, 98, 32, 99, 32] toks ∧ ∀ k, ∃ rs st,
    strtokCalls [32, 0] k (some 0) ⟨[32, 97, 98, 32, 99, 32, 0], none⟩ = some (rs, st) ∧
      StrtokReturns [] [32, 97, 98, 32, 99, 32] 0 toks k ⟨[32, 97, 98, 32, 99, 32, 0], none⟩ rs st :=
  strtok_tokens [] [32, 97, 98, 32, 99, 32] [] [32] [] none (by decide) (by decide) (by decide)

example : (strtokCalls [32, 0] 4 (some 0) ⟨[32, 97, 98, 32, 99, 32, 0], none⟩).map Prod.fst =
    some [some 1, some 4, none, none] := by
  decide

end FlightOs
