/-
# What `vsnprintf` writes to

The cursor may come to the end of the buffer and one behind it: `_sprintc` stores a character as long
as the cursor is not past the end, and the terminator goes to the end itself where there is no room
before it.  A string is copied without a limit.

`vsnprintf_inside`: the stores stay inside the buffer, and a terminator is among them, exactly where
everything that is printed fits with the terminator, and every string with it.
-/
import FlightOs.Printf.Vsnprintf

namespace FlightOs

/-! ## 1. The stores -/

/-- The byte at the offset `i` is written to. -/
def VsnOut.Written (o : VsnOut) (i : Nat) : Prop := ∃ c, (i, c) ∈ o.stores

section Stores

variable {o : VsnOut} {lim i j n : Nat} {c : UInt8} {cs : List UInt8}

theorem VsnOut.written_store : (o.store j c).Written i ↔ o.Written i ∨ i = j := by
  simp only [Written, store, List.mem_cons, Prod.mk.injEq]
  constructor
  · rintro ⟨d, ⟨rfl, rfl⟩ | h⟩
    · exact .inr rfl
    · exact .inl ⟨d, h⟩
  · rintro (⟨d, h⟩ | rfl)
    · exact ⟨d, .inr h⟩
    · exact ⟨c, .inl ⟨rfl, rfl⟩⟩

theorem sprints_buf : ∀ (cs : List UInt8) (o : VsnOut), o.buf ≤ lim + 1 →
    (sprints lim cs o).buf = min (o.buf + cs.length) (lim + 1)
  | [], o, h => by
    simp only [sprints, List.foldl_nil, List.length_nil]
    omega
  | c :: cs, o, h => by
    have ih := sprints_buf cs (sprintc lim o c)
    rw [sprints, List.foldl_cons]
    rw [sprints] at ih
    unfold sprintc at ih ⊢
    split
    · next hlt =>
      rw [if_pos hlt] at ih
      rw [ih h, List.length_cons]
      omega
    · next hle =>
      rw [if_neg hle] at ih
      simp only at ih
      rw [ih (by omega), List.length_cons]
      omega

/-- One store for each character, up to the end and one at it. -/
theorem written_sprints (lim i : Nat) : ∀ (cs : List UInt8) (o : VsnOut),
    (sprints lim cs o).Written i ↔
      o.Written i ∨ o.buf ≤ i ∧ i < min (o.buf + cs.length) (lim + 1)
  | [], o => by
    simp only [sprints, List.foldl_nil, List.length_nil]
    rw [or_iff_left (by omega)]
  | c :: cs, o => by
    have ih := written_sprints lim i cs (sprintc lim o c)
    rw [sprints] at ih ⊢
    rw [List.foldl_cons, ih, List.length_cons]
    unfold sprintc
    split
    · exact or_congr_right (by omega)
    · have hw : ∀ b, ({ o.store o.buf c with buf := b } : VsnOut).Written i ↔
          o.Written i ∨ i = o.buf := fun _ => VsnOut.written_store
      rw [hw, or_assoc]
      exact or_congr_right (by simp only; omega)

@[simp]
theorem printn_buf : (printn cs o).buf = o.buf := rfl

/-- A copy stores every byte that it is given. -/
theorem written_printn (cs : List UInt8) (o : VsnOut) (i : Nat) : (printn cs o).Written i ↔
    o.Written i ∨ o.buf ≤ i ∧ i < o.buf + cs.length := by
  have hzip : (∃ c, (i, c) ∈ ((List.range cs.length).map (o.buf + ·)).zip cs) ↔
      o.buf ≤ i ∧ i < o.buf + cs.length := by
    constructor
    · rintro ⟨c, h⟩
      obtain ⟨k, hk, rfl⟩ := List.mem_map.mp (List.of_mem_zip h).1
      have := List.mem_range.mp hk
      omega
    · rintro ⟨h1, h2⟩
      have hk : i - o.buf < cs.length := by omega
      refine ⟨cs[i - o.buf], List.mem_iff_getElem.mpr ⟨i - o.buf, by simpa using hk, ?_⟩⟩
      simp only [List.getElem_zip, List.getElem_map, List.getElem_range, Prod.mk.injEq, and_true]
      omega
  rw [← hzip]
  simp only [VsnOut.Written, printn, List.mem_append, List.mem_reverse]
  constructor
  · rintro ⟨c, h | h⟩
    · exact .inr ⟨c, h⟩
    · exact .inl ⟨c, h⟩
  · rintro (⟨c, h⟩ | ⟨c, h⟩)
    · exact ⟨c, .inr h⟩
    · exact ⟨c, .inl h⟩

end Stores

/-! ## 2. The pieces of a format -/

/-- A specifier with what stands before it -/
structure VsnPiece where
  lit : List UInt8
  item : VsnItem

/-- The pieces of a format whose arguments match, and what stands behind the last of them. -/
def vsnPieces {δ : Type} (F : FloatOps δ) : Nat → List UInt8 → List (VsnArg δ) →
    Option (List VsnPiece × List UInt8)
  | 0, _, _ => none
  | fuel + 1, fmt, args =>
    if fmt.head? = some 0 then some ([], [])
    else
      match fmt.dropWhile isLiteral with
      | [] => none
      | c :: fmt' =>
        if c = 0 then some ([], fmt.takeWhile isLiteral)
        else
          match decodeFormat fmt' args with
          | some (spec, t :: rest, args) =>
            match renderSpecifier F t spec args with
            | some (item, args) =>
              (vsnPieces F fuel rest args).map (fun r => (⟨fmt.takeWhile isLiteral, item⟩ :: r.1, r.2))
            | none => none
          | _ => none

/-- The loop, over the pieces -/
def vsnRun (lim : Nat) : List VsnPiece → List UInt8 → VsnOut → Except VsnError VsnOut
  | [], last, o => if last = [] then .ok o else printLiteral lim last o
  | p :: ps, last, o => do
    let o ← printLiteral lim p.lit o
    if lim ≤ o.buf then .ok o
    else do
      let o ← p.item.print lim o
      vsnRun lim ps last o

theorem printLiteral_buf {lim : Nat} {tmp : List UInt8} {o o' : VsnOut}
    (h : printLiteral lim tmp o = .ok o') : o.buf ≤ lim ∧ o'.buf = min (o.buf + tmp.length) lim := by
  unfold printLiteral at h
  split at h
  · cases h
  · obtain rfl := Except.ok.inj h
    simp only [printn_buf]
    split <;> omega

theorem printLiteral_ok {lim : Nat} {o : VsnOut} (tmp : List UInt8) (h : o.buf ≤ lim) :
    ∃ o', printLiteral lim tmp o = .ok o' :=
  ⟨_, if_neg (by omega)⟩

/-- **The loop goes through the pieces.** -/
theorem vsnLoop_eq {δ : Type} {F : FloatOps δ} {lim : Nat} {last : List UInt8} :
    ∀ {fuel : Nat} {fmt : List UInt8} {args : List (VsnArg δ)} {ps : List VsnPiece} {o : VsnOut},
      vsnPieces F fuel fmt args = some (ps, last) →
        vsnLoop F lim fuel fmt args o = vsnRun lim ps last o
  | 0, _, _, _, _, h => by cases h
  | fuel + 1, fmt, args, ps, o, h => by
    rw [vsnPieces] at h
    rw [vsnLoop]
    split at h
    · next h0 =>
      obtain ⟨rfl, rfl⟩ := Prod.mk.inj (Option.some.inj h)
      rw [if_pos h0]
      rfl
    next h0 =>
    rw [if_neg h0]
    cases hdrop : fmt.dropWhile isLiteral with
    | nil =>
      rw [hdrop] at h
      cases h
    | cons c rest =>
      rw [hdrop] at h
      simp only at h ⊢
      split at h
      · next hc =>
        obtain ⟨rfl, rfl⟩ := Prod.mk.inj (Option.some.inj h)
        have hne : fmt.takeWhile isLiteral ≠ [] := by
          intro hnil
          have hfmt := List.takeWhile_append_dropWhile (p := isLiteral) (l := fmt)
          rw [hnil, hdrop, hc] at hfmt
          rw [← hfmt] at h0
          exact h0 rfl
        rw [vsnRun, if_neg hne]
        cases hlit : printLiteral lim (fmt.takeWhile isLiteral) o with
        | error e => rfl
        | ok o₁ => simp [hc, bind, Except.bind]
      next hc =>
      rcases hdec : decodeFormat rest args with _ | ⟨spec, rest', args'⟩
      · simp only [hdec] at h
        cases h
      rcases rest' with _ | ⟨t, rest'⟩
      · simp only [hdec] at h
        cases h
      rcases hren : renderSpecifier F t spec args' with _ | ⟨item, args''⟩
      · simp only [hdec, hren] at h
        cases h
      simp only [hdec, hren] at h ⊢
      obtain ⟨r, hr, hps⟩ := Option.map_eq_some_iff.mp h
      obtain ⟨rfl, rfl⟩ := Prod.mk.inj hps
      rw [vsnRun]
      simp only [if_neg hc]
      refine bind_congr (fun o₁ => ?_)
      split
      · rfl
      · exact bind_congr (fun o₂ => vsnLoop_eq hr)

/-! ## 3. What fits -/

/-- What a specifier writes lies below `size`, from the cursor `pos` on. -/
def VsnItem.Fits (lim size pos : Nat) : VsnItem → Prop
  | .text cs => min (pos + cs.length) (lim + 1) ≤ size
  | .string before s after =>
    min (pos + before) (lim + 1) + s.length ≤ size ∧ min (pos + before + after) (lim + 1) ≤ size
  | .endless => False

/-- How far a specifier moves the cursor: by the pads of a string, and not by the string. -/
def VsnItem.advance : VsnItem → Nat
  | .text cs => cs.length
  | .string before _ after => before + after
  | .endless => 0

/-- From the cursor `pos` on, every piece that is written fits below `size`, and so does the
terminator; the cursor does not get past `lim` before the end of the format. -/
def VsnFits (lim size : Nat) : Nat → List VsnPiece → List UInt8 → Prop
  | pos, [], last => (last ≠ [] → pos ≤ lim) ∧ min (pos + last.length) lim < size
  | pos, p :: ps, last =>
    pos ≤ lim ∧
      -- nothing is printed behind the end
      if lim ≤ pos + p.lit.length then lim < size
      else p.item.Fits lim size (pos + p.lit.length) ∧
        VsnFits lim size (min (pos + p.lit.length + p.item.advance) (lim + 1)) ps last

/-- The terminator, before the end if there is room -/
def VsnOut.finish (lim : Nat) (o : VsnOut) : VsnOut :=
  if lim = 0 then o else if o.buf < lim then o.store o.buf 0 else o.store lim 0

/-- Every store lies below `size`. -/
def VsnOut.Inside (size : Nat) (o : VsnOut) : Prop := ∀ i, o.Written i → i < size

section Fits

variable {lim size : Nat} {o : VsnOut}

theorem VsnOut.inside_finish (hlim : lim ≠ 0) :
    (o.finish lim).Inside size ↔ o.Inside size ∧ min o.buf lim < size := by
  have hw : ∀ i, (o.finish lim).Written i ↔ o.Written i ∨ i = min o.buf lim := by
    intro i
    rw [finish, if_neg hlim]
    split
    · rw [VsnOut.written_store, Nat.min_eq_left (by omega)]
    · rw [VsnOut.written_store, Nat.min_eq_right (by omega)]
  simp only [Inside, hw]
  constructor
  · exact fun h => ⟨fun i hi => h i (.inl hi), h _ (.inr rfl)⟩
  · rintro ⟨h1, h2⟩ i (hi | rfl)
    · exact h1 i hi
    · exact h2

/-- What is written from the cursor on is inside, if it is below `size` where it ends. -/
theorem VsnOut.inside_of_written (size : Nat) {o o' : VsnOut} {stop : Nat}
    (hw : ∀ i, o'.Written i ↔ o.Written i ∨ o.buf ≤ i ∧ i < stop) :
    o'.Inside size ↔ o.Inside size ∧ (stop ≤ size ∨ stop ≤ o.buf) := by
  simp only [Inside, hw]
  constructor
  · intro h
    refine ⟨fun i hi => h i (.inl hi), ?_⟩
    by_contra hc
    have := h (stop - 1) (.inr (by omega))
    omega
  · rintro ⟨h1, h2⟩ i (hi | hi)
    · exact h1 i hi
    · omega

/-- A literal stays inside, since it stops at the end. -/
theorem printLiteral_inside {tmp : List UInt8} {o' : VsnOut} (hsize : lim ≤ size)
    (h : printLiteral lim tmp o = .ok o') : o'.Inside size ↔ o.Inside size := by
  unfold printLiteral at h
  split at h
  · cases h
  next hle =>
  obtain rfl := Except.ok.inj h
  have hw := written_printn
    (tmp.take (if tmp.length < lim - o.buf then tmp.length else lim - o.buf)) o
  have hiff := VsnOut.inside_of_written size hw
  refine hiff.trans (and_iff_left (.inl ?_))
  rw [List.length_take]
  split <;> omega

theorem VsnItem.print_buf {item : VsnItem} {o' : VsnOut} (hbuf : o.buf ≤ lim)
    (h : item.print lim o = .ok o') : o'.buf = min (o.buf + item.advance) (lim + 1) := by
  cases item with
  | text cs =>
    obtain rfl := Except.ok.inj h
    exact sprints_buf cs o (by omega)
  | string before s after =>
    obtain rfl := Except.ok.inj h
    have h1 : (printn s (sprints lim (spaces before) o)).buf = min (o.buf + before) (lim + 1) := by
      rw [printn_buf, sprints_buf _ _ (by omega), spaces, List.length_replicate]
    rw [sprints_buf _ _ (by omega), h1, spaces, List.length_replicate, advance]
    omega
  | endless => cases h

/-- **A specifier stays inside exactly where it fits.** -/
theorem VsnItem.print_inside {item : VsnItem} (hbuf : o.buf < lim) (hsize : lim ≤ size) :
    (∃ o', item.print lim o = .ok o' ∧ o'.Inside size) ↔
      o.Inside size ∧ item.Fits lim size o.buf := by
  cases item with
  | text cs =>
    have hiff := VsnOut.inside_of_written size (fun i => written_sprints lim i cs o)
    simp only [print, Except.ok.injEq, exists_eq_left', Fits, hiff]
    exact and_congr_right (fun _ => by omega)
  | string before s after =>
    obtain ⟨o₁, ho₁⟩ : ∃ o₁, sprints lim (spaces before) o = o₁ := ⟨_, rfl⟩
    have hlen : ∀ n, (spaces n).length = n := fun n => List.length_replicate
    have hb₁ : o₁.buf = min (o.buf + before) (lim + 1) := by
      rw [← ho₁, sprints_buf _ _ (by omega), hlen]
    have hw₁ := fun i => written_sprints lim i (spaces before) o
    have hw₂ := written_printn s o₁
    have hw₃ := fun i => written_sprints lim i (spaces after) (printn s o₁)
    simp only [hlen, ho₁] at hw₁ hw₃
    simp only [print, Except.ok.injEq, exists_eq_left', Fits, ho₁,
      VsnOut.inside_of_written size hw₃, VsnOut.inside_of_written size hw₂,
      VsnOut.inside_of_written size hw₁,
      and_assoc, printn_buf, hb₁]
    exact and_congr_right (fun _ => by omega)
  | endless =>
    simp [print, Fits]

/-- **The pieces stay inside, with the terminator, exactly where they fit.** -/
theorem vsnRun_inside (hlim : lim ≠ 0) (hsize : lim ≤ size) (last : List UInt8) :
    ∀ (ps : List VsnPiece) (o : VsnOut), o.buf ≤ lim + 1 →
      ((∃ o', vsnRun lim ps last o = .ok o' ∧ (o'.finish lim).Inside size) ↔
        o.Inside size ∧ VsnFits lim size o.buf ps last)
  | [], o, hbuf => by
    by_cases hlast : last = []
    · simp only [vsnRun, hlast, if_true, Except.ok.injEq, exists_eq_left', VsnFits, ne_eq,
        not_true, false_implies, true_and, List.length_nil, Nat.add_zero]
      exact VsnOut.inside_finish hlim
    rw [vsnRun, if_neg hlast, VsnFits]
    constructor
    · rintro ⟨o', h, hin⟩
      obtain ⟨hle, hb⟩ := printLiteral_buf h
      obtain ⟨h1, h2⟩ := (VsnOut.inside_finish hlim).mp hin
      exact ⟨(printLiteral_inside hsize h).mp h1, fun _ => hle, by omega⟩
    · rintro ⟨hin, hle, h2⟩
      obtain ⟨o', h⟩ := printLiteral_ok last (hle hlast)
      have hb := (printLiteral_buf h).2
      refine ⟨o', h, (VsnOut.inside_finish hlim).mpr ⟨(printLiteral_inside hsize h).mpr hin, ?_⟩⟩
      omega
  | p :: ps, o, hbuf => by
    by_cases hle : o.buf ≤ lim
    · obtain ⟨o₁, h₁⟩ := printLiteral_ok p.lit hle
      have hb₁ := (printLiteral_buf h₁).2
      have hin₁ := printLiteral_inside hsize h₁
      rw [vsnRun, h₁, VsnFits]
      simp only [bind, Except.bind, hle, true_and]
      by_cases hfull : lim ≤ o.buf + p.lit.length
      · -- the end of the buffer is in the literal
        rw [if_pos hfull, if_pos (by omega)]
        simp only [Except.ok.injEq, exists_eq_left', VsnOut.inside_finish hlim, hin₁]
        exact and_congr_right (fun _ => by omega)
      · rw [if_neg hfull, if_neg (by omega)]
        have hbuf₁ : o.buf + p.lit.length = o₁.buf := by omega
        rw [hbuf₁, ← and_assoc, ← hin₁, ← VsnItem.print_inside (by omega) hsize]
        cases hprint : p.item.print lim o₁ with
        | error e => simp
        | ok o₂ =>
          have hb₂ := VsnItem.print_buf (by omega) hprint
          have ih := vsnRun_inside hlim hsize last ps o₂ (by omega)
          simp only [Except.ok.injEq, exists_eq_left', ih, hb₂]
    · -- the cursor is behind the end, and the length of the copy is negative
      have hwild : printLiteral lim p.lit o = .error .wild := if_pos (by omega)
      rw [vsnRun, hwild, VsnFits]
      simp [bind, Except.bind, hle]

end Fits

/-! ## 4. Where the end of the buffer is the limit -/

/-- How many characters are printed if there is room for them; a string counts by its pads. -/
def vsnTotal : List VsnPiece → List UInt8 → Nat
  | [], last => last.length
  | p :: ps, last => p.lit.length + p.item.advance + vsnTotal ps last

/-- A string that starts behind `pos` ends below `size`. -/
def VsnItem.CopyFits (size pos : Nat) : VsnItem → Prop
  | .text _ => True
  | .string before s _ => pos + before + s.length ≤ size
  | .endless => False

/-- Every string ends below `size`, and no specifier is without an end. -/
def VsnCopies (size : Nat) : Nat → List VsnPiece → Prop
  | _, [] => True
  | pos, p :: ps =>
    p.item.CopyFits size (pos + p.lit.length) ∧
      VsnCopies size (pos + p.lit.length + p.item.advance) ps

/-- **Up to `INT_MAX`** everything has to fit, with the terminator. -/
theorem vsnFits_iff {size : Nat} {last : List UInt8} : ∀ {ps : List VsnPiece} {pos : Nat},
    VsnFits size size pos ps last ↔ pos + vsnTotal ps last < size ∧ VsnCopies size pos ps
  | [], pos => by
    simp only [VsnFits, vsnTotal, VsnCopies, and_true]
    constructor
    · rintro ⟨-, h⟩
      omega
    · intro h
      exact ⟨fun _ => by omega, by omega⟩
  | p :: ps, pos => by
    rw [VsnFits, vsnTotal, VsnCopies]
    by_cases hfull : size ≤ pos + p.lit.length
    · rw [if_pos hfull]
      constructor
      · rintro ⟨-, h⟩
        exact absurd h (Nat.lt_irrefl _)
      · rintro ⟨h, -⟩
        omega
    rw [if_neg hfull]
    by_cases hpast : size < pos + p.lit.length + p.item.advance
    · rw [Nat.min_eq_right (by omega)]
      constructor
      · rintro ⟨-, -, h⟩
        have := (vsnFits_iff.mp h).1
        omega
      · rintro ⟨h, -⟩
        omega
    rw [Nat.min_eq_left (by omega), vsnFits_iff]
    have hitem : p.item.Fits size size (pos + p.lit.length) ↔
        p.item.CopyFits size (pos + p.lit.length) := by
      cases hi : p.item with
      | text cs =>
        rw [hi, VsnItem.advance] at hpast
        simp only [VsnItem.Fits, VsnItem.CopyFits, iff_true]
        omega
      | string before s after =>
        rw [hi, VsnItem.advance] at hpast
        simp only [VsnItem.Fits, VsnItem.CopyFits]
        omega
      | endless => exact Iff.rfl
    rw [hitem]
    constructor
    · rintro ⟨-, h1, h2, h3⟩
      exact ⟨by omega, h1, h3⟩
    · rintro ⟨h2, h1, h3⟩
      exact ⟨by omega, h1, by omega, h3⟩

/-! ## 5. The contract -/

/-- `vsnprintf` returns, writes only to the buffer, and leaves a terminator in it, unless the buffer
has no room at all. -/
def VsnSafe {δ : Type} (F : FloatOps δ) (str size : Nat) (fmt : List UInt8)
    (args : List (VsnArg δ)) : Prop :=
  ∃ o n, vsnprintf F str size (some fmt) args = .ok (o, n) ∧ o.Inside size ∧
    (size ≠ 0 → ∃ i < size, o.stores.lookup i = some 0)

section Contract

variable {δ : Type} {F : FloatOps δ} {str size : Nat} {fmt : List UInt8} {args : List (VsnArg δ)}
  {ps : List VsnPiece} {last : List UInt8}

theorem vsnLimit_le (str size : Nat) : vsnLimit str size ≤ size := by
  unfold vsnLimit intMax
  simp only
  split <;> omega

/-- No room, and nothing is written. -/
theorem vsnRun_zero (ps : List VsnPiece) (last : List UInt8) : ∃ o, vsnRun 0 ps last ⟨0, []⟩ = .ok o ∧ o.stores = [] := by
  have hlit : ∀ tmp, printLiteral 0 tmp ⟨0, []⟩ = .ok ⟨0, []⟩ := by
    intro tmp
    unfold printLiteral
    rw [if_neg (Nat.lt_irrefl 0)]
    simp [printn]
  refine ⟨⟨0, []⟩, ?_, rfl⟩
  cases ps with
  | nil => rw [vsnRun, hlit, ite_self]
  | cons p ps =>
    rw [vsnRun, hlit]
    rfl

/-- What `vsnprintf` makes of its loop. -/
theorem vsnprintf_loop : vsnprintf F str size (some fmt) args =
    (vsnLoop F (vsnLimit str size) (fmt.length + 1) fmt args ⟨0, []⟩).map
      (fun o => (o.finish (vsnLimit str size), o.buf)) := by
  rw [vsnprintf]
  dsimp only
  cases vsnLoop F (vsnLimit str size) (fmt.length + 1) fmt args ⟨0, []⟩ with
  | error e => rfl
  | ok o =>
    have hbuf : (o.finish (vsnLimit str size)).buf = o.buf := by
      unfold VsnOut.finish
      split
      · rfl
      · split <;> rfl
    simp only [Except.map, ← hbuf]
    rfl

/-- What `vsnprintf` does with a format whose arguments match. -/
theorem vsnprintf_eq (h : vsnPieces F (fmt.length + 1) fmt args = some (ps, last)) :
    vsnprintf F str size (some fmt) args =
      (vsnRun (vsnLimit str size) ps last ⟨0, []⟩).map
        (fun o => (o.finish (vsnLimit str size), o.buf)) := by
  rw [vsnprintf_loop, vsnLoop_eq h]

/-- **The bounds of `vsnprintf`**, for every format whose arguments match: it stays inside the buffer
and leaves a terminator there exactly where there is no room at all or every piece fits. -/
theorem vsnprintf_inside (h : vsnPieces F (fmt.length + 1) fmt args = some (ps, last)) :
    VsnSafe F str size fmt args ↔
      size = 0 ∨ 0 < vsnLimit str size ∧ VsnFits (vsnLimit str size) size 0 ps last := by
  have hle := vsnLimit_le str size
  unfold VsnSafe
  rw [vsnprintf_eq h]
  by_cases hlim : vsnLimit str size = 0
  · obtain ⟨o, ho, hstores⟩ := vsnRun_zero ps last
    have hin : o.Inside size := by
      rintro i ⟨c, hc⟩
      rw [hstores] at hc
      exact absurd hc List.not_mem_nil
    rw [hlim, ho]
    simp only [Except.map, VsnOut.finish, if_true, Except.ok.injEq, Prod.mk.injEq,
      Nat.lt_irrefl, false_and, or_false]
    constructor
    · rintro ⟨_, _, ⟨rfl, -⟩, -, hnul⟩
      by_contra hsize
      obtain ⟨i, -, hi⟩ := hnul hsize
      rw [hstores] at hi
      cases hi
    · intro hsize
      exact ⟨o, o.buf, ⟨rfl, rfl⟩, hin, fun hne => absurd hsize hne⟩
  have hrun := vsnRun_inside hlim hle last ps ⟨0, []⟩ (Nat.zero_le _)
  have hstart : (⟨0, []⟩ : VsnOut).Inside size := fun i ⟨c, hc⟩ => absurd hc List.not_mem_nil
  have hsize : size ≠ 0 := by omega
  rw [or_iff_right hsize, and_iff_right (Nat.pos_of_ne_zero hlim)]
  constructor
  · rintro ⟨o, n, heq, hin, -⟩
    refine (hrun.mp ?_).2
    cases hres : vsnRun (vsnLimit str size) ps last ⟨0, []⟩ with
    | error e =>
      rw [hres] at heq
      cases heq
    | ok o' =>
      rw [hres] at heq
      obtain ⟨rfl, rfl⟩ := Prod.mk.inj (Except.ok.inj heq)
      exact ⟨o', rfl, hin⟩
  · intro hfits
    obtain ⟨o, ho, hin⟩ := hrun.mpr ⟨hstart, hfits⟩
    rw [ho]
    refine ⟨_, _, rfl, hin, fun _ => ⟨min o.buf (vsnLimit str size), ?_, ?_⟩⟩
    · exact ((VsnOut.inside_finish hlim).mp hin).2
    · -- the terminator is the last store
      unfold VsnOut.finish
      rw [if_neg hlim]
      split
      · rw [Nat.min_eq_left (by omega)]
        exact List.lookup_cons_self
      · rw [Nat.min_eq_right (by omega)]
        exact List.lookup_cons_self

end Contract

/-! ### Two calls -/

/-- No floating point. -/
def noFloats : FloatOps Empty where
  isNeg := Empty.elim
  neg := id
  isLarge := Empty.elim
  getExpFloatValParam := Empty.elim
  separateAndRound := Empty.elim

/-- `"hello %d"` -/
def helloNumber : List UInt8 := ['h', 'e', 'l', 'l', 'o', ' ', '%', 'd'].map Char.toUInt8 ++ [0]

/-- Eight characters and the terminator, in nine bytes. -/
theorem vsnprintf_inside_hello : VsnSafe noFloats 0x40000000 9 helloNumber [.int 42] := by
  have hpieces : vsnPieces noFloats (helloNumber.length + 1) helloNumber [.int 42] =
      some ([⟨helloNumber.take 6, .text ['4'.toUInt8, '2'.toUInt8]⟩], []) := by
    rfl
  have hlim : vsnLimit 0x40000000 9 = 9 := by decide
  refine (vsnprintf_inside hpieces).mpr (.inr ⟨by decide, ?_⟩)
  rw [hlim]
  exact vsnFits_iff.mpr ⟨by decide, trivial, trivial⟩

/-- In eight bytes the terminator is behind the buffer. -/
theorem vsnprintf_outside : ¬ ∀ (size : Nat) (fmt : List UInt8) (args : List (VsnArg Empty)),
    (vsnPieces noFloats (fmt.length + 1) fmt args).isSome → 0x40000000 + size ≤ 2 ^ 32 →
      VsnSafe noFloats 0x40000000 size fmt args := by
  intro hall
  obtain ⟨o, n, heq, hin, -⟩ := hall 8 helloNumber [.int 42] (by rfl) (by decide)
  have hwritten : ∀ r, vsnprintf noFloats 0x40000000 8 (some helloNumber) [.int 42] = .ok r →
      r.1.Written 8 := by
    rintro r hr
    have : ∃ l, vsnprintf noFloats 0x40000000 8 (some helloNumber) [.int 42] =
        .ok (⟨8, (8, 0) :: l⟩, 8) := ⟨_, rfl⟩
    obtain ⟨l, hl⟩ := this
    obtain rfl := Except.ok.inj (hl.symm.trans hr)
    exact ⟨0, List.mem_cons_self ..⟩
  exact absurd (hin 8 (hwritten _ heq)) (Nat.lt_irrefl 8)

end FlightOs
