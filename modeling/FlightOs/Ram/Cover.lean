/-
# What the scrubber reads

A section of `L + 1` words is stored with the address of its last word, and the loop of
`mem_do_scrub` takes this address for the end: the cycles go round the first `L` words
(`memscrub_round`), and the last word is never among them.  Only if a cycle has as many words as the
section is the position once moved behind the last word, and from then on nothing is read.

* `memscrub_covers_all_but_last`: with less words in a cycle than in the section, every word but the
  last one is read in any `L / wpc + 1` cycles.
* `memscrub_never_covers`: no section is scrubbed as a whole.
-/
import FlightOs.Ram.Memscrub

namespace FlightOs

/-! ## 1. Reading words -/

/-- `n` words from the one at `p` on, of a section that starts at `begin`. -/
def wordsFrom (begin p n : Nat) : List Nat := (List.range' p n).map fun j => begin + 4 * j

theorem memscrubReads_eq : ∀ (n begin p : Nat), begin + 4 * (p + n) < 2 ^ 32 →
    memscrubReads n (begin + 4 * p) (begin + 4 * (p + n)) = wordsFrom begin p n
  | 0, _, _, _ => rfl
  | n + 1, begin, p, h => by
    have hnext : wadd (begin + 4 * p) 4 = begin + 4 * (p + 1) := by
      rw [wadd_of_lt (by omega)]
      ring
    have hstop : p + (n + 1) = p + 1 + n := by omega
    rw [memscrubReads, if_pos (by omega), hnext, hstop, memscrubReads_eq n begin (p + 1) (by omega)]
    rfl

/-- `memscrub`, where the addresses do not wrap. -/
theorem memscrub_eq {begin p n : Nat} (h : begin + 4 * (p + n) < 2 ^ 32) :
    memscrub (begin + 4 * p) n = (wordsFrom begin p n, begin + 4 * (p + n)) := by
  have hstop : wadd (begin + 4 * p) (n * 4) = begin + 4 * (p + n) := by
    rw [wadd_of_lt (by omega)]
    ring
  rw [memscrub, hstop, memscrubReads_eq n begin p h]

/-- Where the addresses wrap, nothing is read. -/
theorem memscrub_wrapped {addr n : Nat} (haddr : addr < 2 ^ 32) (hn : n * 4 < 2 ^ 32)
    (h : 2 ^ 32 ≤ addr + n * 4) : (memscrub addr n).1 = [] := by
  have hstop : ¬ addr < wadd addr (n * 4) := by
    rw [wadd]
    omega
  cases n with
  | zero => rfl
  | succ n => exact if_neg hstop

/-! ## 2. The cycles of a section -/

/-- A section of `L + 1` words, at the word `p`. -/
def secAt (begin L wpc p : Nat) : MemscrubSec := ⟨begin, begin + 4 * L, begin + 4 * p, wpc⟩

section Cycle

variable {begin L wpc p : Nat}

theorem secAt_rest (h : begin + 4 * L < 2 ^ 32) (hp : p ≤ L) :
    wsub (begin + 4 * L) (begin + 4 * p) / 4 = L - p := by
  rw [wsub_of_le h (by omega)]
  omega

/-- There is a cycle's words before the last one. -/
theorem memscrubSecCycle_on (h : begin + 4 * L < 2 ^ 32) (hwpc : 1 ≤ wpc) (hp : p + wpc ≤ L) :
    memscrubSecCycle (secAt begin L wpc p) =
      (secAt begin L wpc (p + wpc), wordsFrom begin p wpc) := by
  have hturn : ¬ L - p < wpc := by omega
  have hread : wadd (begin + 4 * p) wpc < begin + 4 * L := by
    rw [wadd_of_lt (by omega)]
    omega
  simp only [memscrubSecCycle, secAt, secAt_rest h (by omega : p ≤ L), if_neg hturn, if_pos hread,
    memscrub_eq (by omega : begin + 4 * (p + wpc) < 2 ^ 32), List.nil_append]

/-- The words before the last one are read to the end, and the cycle goes on from the begin. -/
theorem memscrubSecCycle_turn (h : begin + 4 * (L + 1) < 2 ^ 32) (hL : 1 ≤ L) (hp : p ≤ L)
    (hturn : L < p + wpc) (hwpc : wpc ≤ L + 1) :
    memscrubSecCycle (secAt begin L wpc p) =
      (secAt begin L wpc (p + wpc - L),
        wordsFrom begin p (L - p) ++ wordsFrom begin 0 (p + wpc - L)) := by
  have hturn' : L - p < wpc := by omega
  have hn : wpc - (L - p) = p + wpc - L := by omega
  have hread : wadd begin (p + wpc - L) < begin + 4 * L := by
    rw [wadd_of_lt (by omega)]
    omega
  have htail := memscrub_eq (by omega : begin + 4 * (p + (L - p)) < 2 ^ 32)
  have hhead := memscrub_eq (by omega : begin + 4 * (0 + (p + wpc - L)) < 2 ^ 32)
  rw [Nat.mul_zero, Nat.add_zero, Nat.zero_add] at hhead
  simp only [memscrubSecCycle, secAt, secAt_rest (by omega : begin + 4 * L < 2 ^ 32) hp,
    if_pos hturn', hn, if_pos hread, htail, hhead]

/-- Behind the last word, nothing is read. -/
theorem memscrubSecCycle_behind (h : begin + 4 * (L + 1) < 2 ^ 32) (hwpc : wpc < 2 ^ 16) :
    (memscrubSecCycle (secAt begin L wpc (L + 1))).2 = [] := by
  have hrest : wsub (begin + 4 * L) (begin + 4 * (L + 1)) / 4 = 2 ^ 30 - 1 := by
    rw [wsub_of_lt (by omega) (by omega)]
    omega
  have hturn : ¬ 2 ^ 30 - 1 < wpc := by omega
  by_cases hread : wadd (begin + 4 * (L + 1)) wpc < begin + 4 * L
  · -- the sum has wrapped, and so does the end of the loop
    have hwrap : 2 ^ 32 ≤ begin + 4 * (L + 1) + wpc * 4 := by
      by_contra hlt
      rw [wadd_of_lt (by omega)] at hread
      omega
    simp only [memscrubSecCycle, secAt, hrest, if_neg hturn, if_pos hread, List.nil_append]
    exact memscrub_wrapped h (by omega) hwrap
  · simp only [memscrubSecCycle, secAt, hrest, if_neg hturn, if_neg hread]

/-- A section of one word is never read. -/
theorem memscrubSecCycle_one (h : begin + 4 < 2 ^ 32) :
    memscrubSecCycle (secAt begin 0 1 0) = (secAt begin 0 1 0, []) := by
  have hread : ¬ wadd begin 1 < begin := by
    rw [wadd_of_lt (by omega)]
    omega
  have hrest := secAt_rest (p := 0) (by omega : begin + 4 * 0 < 2 ^ 32) (Nat.le_refl 0)
  simp only [Nat.mul_zero, Nat.add_zero] at hrest
  simp [memscrubSecCycle, secAt, hrest, hread, memscrub, memscrubReads]

end Cycle

/-! ## 3. A section that stays registered -/

/-- The tables before each cycle, while the section of cell `i` stays registered: what is added and
removed between two cycles leaves its cell alone. -/
structure ScrubRegistered (i : Nat) (t : Nat → SecTable MemscrubSec) : Prop where
  inUse : ∀ n, (i : Int) < (t n).cnt
  kept : ∀ n, (t (n + 1)).cells[i]? = (memDoScrub (t n)).1.cells[i]?

/-- The words that cycle `n` reads for the section of cell `i`. -/
def scrubReads (t : Nat → SecTable MemscrubSec) (i n : Nat) : List Nat :=
  (memDoScrub (t n)).2.getD i []

section Run

variable {i : Nat} {t : Nat → SecTable MemscrubSec} {c : MemscrubSec}

theorem memDoScrub_cell {t : SecTable MemscrubSec} (hin : (i : Int) < t.cnt)
    (hcell : t.cells[i]? = some c) :
    (memDoScrub t).1.cells[i]? = some (memscrubSecCycle c).1 ∧
      (memDoScrub t).2.getD i [] = (memscrubSecCycle c).2 := by
  have hpos : 0 ≤ t.cnt := by omega
  have hlt : i < t.cnt.toNat := by omega
  have htake : (t.cells.take t.cnt.toNat)[i]? = some c := by rw [List.getElem?_take_of_lt hlt, hcell]
  have hlen : i < (t.cells.take t.cnt.toNat).length := (List.getElem?_eq_some_iff.mp htake).1
  constructor
  · simp only [memDoScrub, if_pos hpos]
    rw [List.getElem?_append_left (by simpa using hlen), List.getElem?_map, htake]
    rfl
  · simp only [memDoScrub, if_pos hpos]
    rw [List.getD_eq_getElem?_getD, List.getElem?_map, htake]
    rfl

/-- A section is scrubbed cycle by cycle, whatever happens to the others. -/
theorem ScrubRegistered.cell (h : ScrubRegistered i t) (h₀ : (t 0).cells[i]? = some c) :
    ∀ n, (t n).cells[i]? = some ((fun c => (memscrubSecCycle c).1)^[n] c)
  | 0 => h₀
  | n + 1 => by
    rw [h.kept n, (memDoScrub_cell (h.inUse n) (h.cell h₀ n)).1, Function.iterate_succ_apply']

theorem ScrubRegistered.reads (h : ScrubRegistered i t) (h₀ : (t 0).cells[i]? = some c) (n : Nat) :
    scrubReads t i n = (memscrubSecCycle ((fun c => (memscrubSecCycle c).1)^[n] c)).2 :=
  (memDoScrub_cell (h.inUse n) (h.cell h₀ n)).2

end Run

/-- What `memscrub_seg_add` accepts, with the ranges of the arguments' types. -/
structure ScrubAccepts (begin stop wpc : Nat) : Prop where
  accepted : begin % 4 = 0 ∧ stop % 4 = 0 ∧ begin < stop ∧ wpc ≤ (stop - begin) / 4
  word : stop < 2 ^ 32
  short : wpc < 2 ^ 16

/-- These arguments are what `memscrub_seg_add` returns 0 for. -/
theorem memscrubSegAdd_accepts (t : SecTable MemscrubSec) (begin stop wpc : Nat) :
    (memscrubSegAdd t begin stop wpc).1 = 0 ↔
      begin % 4 = 0 ∧ stop % 4 = 0 ∧ begin < stop ∧ wpc ≤ (stop - begin) / 4 := by
  rcases memscrubSegAdd_cases t begin stop wpc with heq | ⟨hargs, heq⟩
  · have hne : (-(EINVAL : Int)) ≠ 0 := by decide
    refine iff_of_false (fun h => hne (by rwa [heq] at h)) fun hargs => ?_
    unfold memscrubSegAdd at heq
    rw [if_neg (by omega), if_neg (by omega), if_neg (by omega), if_neg (by omega)] at heq
    exact hne (Prod.mk.inj heq).1.symm
  · exact iff_of_true (by rw [heq]) hargs

/-- An accepted section has its words. -/
theorem ScrubAccepts.words {begin stop wpc : Nat} (h : ScrubAccepts begin stop wpc) :
    ∃ L, stop = begin + 4 * (L + 1) ∧ (stop - begin) / 4 = L + 1 ∧ wpc ≤ L + 1 ∧
      begin + 4 * (L + 1) < 2 ^ 32 ∧ memscrubSec begin stop wpc = secAt begin L wpc 0 := by
  obtain ⟨⟨hbegin, hstop, hlt, hwpc⟩, hword, -⟩ := h
  refine ⟨(stop - begin) / 4 - 1, by omega, by omega, by omega, by omega, ?_⟩
  have hlast : stop - 4 = begin + 4 * ((stop - begin) / 4 - 1) := by omega
  rw [memscrubSec, secAt, hlast, Nat.mul_zero, Nat.add_zero]

/-! ## 4. Going round -/

section Round

variable {begin L wpc : Nat}

/-- `n` words on, going round the first `L` words. -/
def roundWords (begin L m n : Nat) : List Nat :=
  (List.range' m n).map fun j => begin + 4 * (j % L)

/-- The next time a place comes up is less than a round away. -/
theorem exists_lt_add_mod_eq {L j : Nat} (hj : j < L) (m : Nat) : ∃ d < L, (m + d) % L = j := by
  have hm := Nat.div_add_mod m L
  have hlt := Nat.mod_lt m (Nat.lt_of_le_of_lt (Nat.zero_le j) hj)
  by_cases hle : m % L ≤ j
  · refine ⟨j - m % L, by omega, ?_⟩
    have hsum : m + (j - m % L) = L * (m / L) + j := by omega
    rw [hsum, Nat.mul_add_mod, Nat.mod_eq_of_lt hj]
  · refine ⟨L - m % L + j, by omega, ?_⟩
    have hsum : m + (L - m % L + j) = L * (m / L + 1) + j := by
      rw [Nat.mul_succ]
      omega
    rw [hsum, Nat.mul_add_mod, Nat.mod_eq_of_lt hj]

/-- Words that do not go past the end of a round. -/
theorem roundWords_eq {r p n : Nat} (h : p + n ≤ L) :
    roundWords begin L (L * r + p) n = wordsFrom begin p n := by
  rw [roundWords, wordsFrom, ← List.map_add_range', List.map_map]
  refine List.map_congr_left fun j hj => ?_
  have hj' := List.mem_range'_1.mp hj
  rw [Function.comp_apply, Nat.mul_add_mod, Nat.mod_eq_of_lt (by omega)]

theorem roundWords_append (m a b : Nat) :
    roundWords begin L m a ++ roundWords begin L (m + a) b = roundWords begin L m (a + b) := by
  rw [roundWords, roundWords, roundWords, ← List.map_append, List.range'_append_1]

/-- **One cycle** goes on from where the last one has ended. -/
theorem memscrubSecCycle_round (h : begin + 4 * (L + 1) < 2 ^ 32) (hwpc : 1 ≤ wpc) (hle : wpc ≤ L)
    {r p : Nat} (hp : p ≤ L) :
    ∃ r' p', L * r + p + wpc = L * r' + p' ∧ p' ≤ L ∧
      memscrubSecCycle (secAt begin L wpc p) =
        (secAt begin L wpc p', roundWords begin L (L * r + p) wpc) := by
  by_cases hturn : p + wpc ≤ L
  · refine ⟨r, p + wpc, by omega, hturn, ?_⟩
    rw [memscrubSecCycle_on (by omega) hwpc hturn, roundWords_eq hturn]
  · refine ⟨r + 1, p + wpc - L, ?_, by omega, ?_⟩
    · rw [Nat.mul_succ]
      omega
    · have hsplit : roundWords begin L (L * r + p) wpc =
          wordsFrom begin p (L - p) ++ wordsFrom begin 0 (p + wpc - L) := by
        have hnext : L * r + p + (L - p) = L * (r + 1) + 0 := by
          rw [Nat.mul_succ]
          omega
        have happend := @roundWords_append begin L (L * r + p) (L - p) (p + wpc - L)
        rw [hnext, roundWords_eq (by omega), roundWords_eq (by omega)] at happend
        rw [happend]
        congr 1
        omega
      rw [memscrubSecCycle_turn h (by omega) hp (by omega) (by omega), hsplit]

/-- The section before cycle `n`. -/
theorem secAt_iterate (h : begin + 4 * (L + 1) < 2 ^ 32) (hwpc : 1 ≤ wpc) (hle : wpc ≤ L) :
    ∀ n, ∃ r p, n * wpc = L * r + p ∧ p ≤ L ∧
      (fun c => (memscrubSecCycle c).1)^[n] (secAt begin L wpc 0) = secAt begin L wpc p
  | 0 => ⟨0, 0, by omega, Nat.zero_le _, rfl⟩
  | n + 1 => by
    obtain ⟨r, p, hn, hp, heq⟩ := secAt_iterate h hwpc hle n
    obtain ⟨r', p', hnext, hp', hcycle⟩ := memscrubSecCycle_round h hwpc hle (r := r) hp
    refine ⟨r', p', ?_, hp', ?_⟩
    · rw [Nat.succ_mul, hn, hnext]
    · rw [Function.iterate_succ_apply', heq, hcycle]

end Round

section Cover

variable {begin stop wpc i : Nat} {t : Nat → SecTable MemscrubSec}

/-- **What is read**, with less words in a cycle than in the section: the cycles go round the words
of the section but the last one. -/
theorem memscrub_round (hargs : ScrubAccepts begin stop wpc) (hwpc : 1 ≤ wpc)
    (hless : wpc < (stop - begin) / 4) (h : ScrubRegistered i t)
    (h₀ : (t 0).cells[i]? = some (memscrubSec begin stop wpc)) (n : Nat) :
    scrubReads t i n = roundWords begin ((stop - begin) / 4 - 1) (n * wpc) wpc := by
  obtain ⟨L, -, hwords, -, hword, hsec⟩ := hargs.words
  rw [hwords] at hless ⊢
  rw [hsec] at h₀
  obtain ⟨r, p, hn, hp, heq⟩ := secAt_iterate hword hwpc (Nat.le_of_lt_succ hless) n
  obtain ⟨r', p', -, -, hcycle⟩ :=
    memscrubSecCycle_round hword hwpc (Nat.le_of_lt_succ hless) (r := r) hp
  rw [h.reads h₀ n, heq, hcycle, hn, Nat.add_sub_cancel]

/-- Every word of the section but the last one is read in a round, and the last one never. -/
theorem memscrub_covers_all_but_last (hargs : ScrubAccepts begin stop wpc) (hwpc : 1 ≤ wpc)
    (hless : wpc < (stop - begin) / 4) (h : ScrubRegistered i t)
    (h₀ : (t 0).cells[i]? = some (memscrubSec begin stop wpc)) (n : Nat) :
    (scrubReads t i n).length = wpc ∧
      (∀ a ∈ scrubReads t i n, begin ≤ a ∧ a < stop - 4) ∧
      ∀ a, a % 4 = 0 → begin ≤ a → a < stop - 4 →
        ∃ k ≤ ((stop - begin) / 4 - 1) / wpc, a ∈ scrubReads t i (n + k) := by
  obtain ⟨hbegin, hstop, hlt, -⟩ := hargs.accepted
  have hL : 0 < (stop - begin) / 4 - 1 := by omega
  have hlast : stop - 4 = begin + 4 * ((stop - begin) / 4 - 1) := by omega
  have hround := memscrub_round hargs hwpc hless h h₀
  generalize (stop - begin) / 4 - 1 = L at hL hlast hround
  refine ⟨?_, fun a ha => ?_, fun a hmod ha hend => ?_⟩
  · rw [hround, roundWords, List.length_map, List.length_range']
  · rw [hround, roundWords] at ha
    obtain ⟨j, -, rfl⟩ := List.mem_map.mp ha
    have := Nat.mod_lt j hL
    omega
  · obtain ⟨j, rfl⟩ : ∃ j, a = begin + 4 * j := ⟨(a - begin) / 4, by omega⟩
    obtain ⟨d, hd, hmodd⟩ := exists_lt_add_mod_eq (by omega : j < L) (n * wpc)
    refine ⟨d / wpc, Nat.div_le_div_right (Nat.le_of_lt hd), ?_⟩
    rw [hround, roundWords]
    refine List.mem_map.mpr ⟨n * wpc + d, List.mem_range'_1.mpr ?_, by rw [hmodd]⟩
    -- the turn it comes up in
    have hsplit := Nat.div_add_mod d wpc
    have hrest := Nat.mod_lt d hwpc
    have hturn : (n + d / wpc) * wpc = n * wpc + wpc * (d / wpc) := by
      rw [Nat.add_mul, Nat.mul_comm (d / wpc)]
    omega

/-- With as many words in a cycle as in the section, one cycle reads nothing. -/
theorem memscrub_stops (hargs : ScrubAccepts begin stop wpc) (hwpc : 1 ≤ wpc)
    (hall : wpc = (stop - begin) / 4) (h : ScrubRegistered i t)
    (h₀ : (t 0).cells[i]? = some (memscrubSec begin stop wpc)) :
    ∃ n, scrubReads t i n = [] := by
  obtain ⟨L, -, hwords, -, hword, hsec⟩ := hargs.words
  have hshort := hargs.short
  obtain rfl : wpc = L + 1 := hall.trans hwords
  rw [hsec] at h₀
  cases L with
  | zero =>
    refine ⟨0, ?_⟩
    rw [h.reads h₀ 0, Function.iterate_zero_apply, memscrubSecCycle_one (by omega)]
  | succ L =>
    -- each cycle starts one word later, until it starts behind the last one
    have hsteps : ∀ n ≤ L + 2, (fun c => (memscrubSecCycle c).1)^[n] (secAt begin (L + 1) (L + 2) 0) =
        secAt begin (L + 1) (L + 2) n := by
      intro n
      induction n with
      | zero => exact fun _ => rfl
      | succ n ih =>
        intro hn
        have hnext : n + (L + 2) - (L + 1) = n + 1 := by omega
        rw [Function.iterate_succ_apply', ih (by omega),
          memscrubSecCycle_turn hword (by omega) (by omega) (by omega) (by omega), hnext]
    refine ⟨L + 2, ?_⟩
    rw [h.reads h₀, hsteps _ (Nat.le_refl _), memscrubSecCycle_behind hword hshort]

/-- What the scrubber is to do with a section, by the words its cycles read. -/
structure ScrubCovers (begin stop wpc : Nat) (reads : Nat → List Nat) : Prop where
  covers : ∀ n a, a % 4 = 0 → begin ≤ a → a < stop →
    ∃ k < (stop - begin) / 4 / wpc + 2, a ∈ reads (n + k)
  inside : ∀ n, ∀ a ∈ reads n, begin ≤ a ∧ a < stop
  exact : ∀ n, (reads n).length = wpc

/-- **No section is scrubbed as a whole**, whatever its bounds, its rate and the other sections. -/
theorem memscrub_never_covers (hargs : ScrubAccepts begin stop wpc) (hwpc : 1 ≤ wpc)
    (h : ScrubRegistered i t) (h₀ : (t 0).cells[i]? = some (memscrubSec begin stop wpc)) :
    ¬ ScrubCovers begin stop wpc (scrubReads t i) := by
  intro hcovers
  obtain ⟨hbegin, hstop, hlt, hle⟩ := hargs.accepted
  rcases Nat.lt_or_eq_of_le hle with hless | hall
  · -- the last word is not read
    obtain ⟨k, -, hread⟩ := hcovers.covers 0 (stop - 4) (by omega) (by omega) (by omega)
    have hinside := (memscrub_covers_all_but_last hargs hwpc hless h h₀ (0 + k)).2.1 _ hread
    omega
  · obtain ⟨n, hnone⟩ := memscrub_stops hargs hwpc hall h h₀
    have hlength := hcovers.exact n
    rw [hnone, List.length_nil] at hlength
    omega

/-- The tables before each cycle, when nothing is added or removed any more. -/
def scrubOnly (t₀ : SecTable MemscrubSec) (n : Nat) : SecTable MemscrubSec :=
  (fun t => (memDoScrub t).1)^[n] t₀

theorem scrubOnly_registered {t₀ : SecTable MemscrubSec} (h : (i : Int) < t₀.cnt) :
    ScrubRegistered i (scrubOnly t₀) where
  inUse n := by
    have hcnt : ∀ n, (scrubOnly t₀ n).cnt = t₀.cnt := fun n => by
      induction n with
      | zero => rfl
      | succ n ih =>
        rw [scrubOnly, Function.iterate_succ_apply']
        exact ih
    rw [hcnt]
    exact h
  kept n := by
    rw [scrubOnly, Function.iterate_succ_apply']
    rfl

end Cover

/-- A table with one section, of 1024 words, of which each cycle is to read 4. -/
def scrubPage : SecTable MemscrubSec := (memscrubSegAdd scrubInit.table 4096 8192 4).2

theorem memscrub_never_covers_page :
    ¬ ScrubCovers 4096 8192 4 (scrubReads (scrubOnly scrubPage) 0) :=
  memscrub_never_covers ⟨by decide, by decide, by decide⟩ (by decide)
    (scrubOnly_registered (by decide)) (by decide)

/-- **The last word is left out**: of a page, it is in none of the cycles. -/
theorem memscrub_misses_last_word :
    ScrubAccepts 4096 8192 4 ∧ ScrubRegistered 0 (scrubOnly scrubPage) ∧
      scrubPage.cells[0]? = some (memscrubSec 4096 8192 4) ∧
      (∀ n, 8188 ∉ scrubReads (scrubOnly scrubPage) 0 n) ∧
      ¬ ScrubCovers 4096 8192 4 (scrubReads (scrubOnly scrubPage) 0) := by
  have hargs : ScrubAccepts 4096 8192 4 := ⟨by decide, by decide, by decide⟩
  have hrun : ScrubRegistered 0 (scrubOnly scrubPage) := scrubOnly_registered (by decide)
  have hmiss : ∀ n, 8188 ∉ scrubReads (scrubOnly scrubPage) 0 n := by
    intro n hread
    have hinside := (memscrub_covers_all_but_last hargs (by decide) (by decide) hrun
      (by decide) n).2.1 _ hread
    omega
  refine ⟨hargs, hrun, by decide, hmiss, fun hcovers => ?_⟩
  obtain ⟨k, -, hread⟩ := hcovers.covers 0 8188 (by decide) (by decide) (by decide)
  exact hmiss _ hread

end FlightOs
