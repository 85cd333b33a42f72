/-
# The terminator of a format

Every part of a specifier stops at the terminator of the format.  But `vsnprintf` takes what stands
behind the parts for the type, prints it and goes on behind it, whatever it is.

* `decodeFormat_local`: decoding does not look behind the terminator.
* `vsnGo_ends`: the loop comes to its end, whatever lies behind the terminator, if it does so where
  nothing lies there.
* `vsnprintf_stays_iff`: it does so if and only if no specifier that is cut off by the terminator is
  come to, nor one without an end, nor the end of the buffer with something left to print.
-/
import FlightOs.Printf.String

namespace FlightOs

/-! ## 1. The loop, for either destination -/

section Dest

variable {δ σ : Type}

/-- Where the output goes: what printing characters of the format, and a specifier, does to it, and
whether there is no room left. -/
structure VsnDest (σ : Type) where
  literal : List UInt8 → σ → Except VsnError σ
  full : σ → Bool
  item : VsnItem → σ → Except VsnError σ

def bufferDest (lim : Nat) : VsnDest VsnOut where
  literal := printLiteral lim
  full := fun o => decide (lim ≤ o.buf)
  item := fun item o => item.print lim o

/-- What a specifier puts to the terminal. -/
def VsnItem.put : VsnItem → List UInt8 → Except VsnError (List UInt8)
  | .text cs, out => .ok (out ++ cs)
  | .string before s after, out => .ok (out ++ spaces before ++ s ++ spaces after)
  | .endless, _ => .error .endless

/-- The terminal, which is infinite.  Only the characters of the format are counted. -/
def terminalDest : VsnDest (List UInt8 × Nat) where
  literal := fun tmp o => .ok (o.1 ++ tmp, o.2 + tmp.length)
  full := fun _ => false
  item := fun item o => (item.put o.1).map fun out => (out, o.2)

/-- The loop of `vsnprintf`. -/
def vsnGo (F : FloatOps δ) (D : VsnDest σ) : Nat → List UInt8 → List (VsnArg δ) → σ →
    Except VsnError σ
  | 0, _, _, _ => .error .mismatch
  | fuel + 1, fmt, args, o =>
    if fmt.head? = some 0 then .ok o
    else
      match fmt.dropWhile isLiteral with
      | [] => .error .mismatch
      | c :: fmt' => do
        let o ← D.literal (fmt.takeWhile isLiteral) o
        if D.full o then .ok o
        else if c = 0 then .ok o
        else
          match decodeFormat fmt' args with
          | some (spec, t :: fmt, args) =>
            match renderSpecifier F t spec args with
            | some (item, args) => do
              let o ← D.item item o
              vsnGo F D fuel fmt args o
            | none => .error .mismatch
          | _ => .error .mismatch

/-- `vsnprintf` where the buffer is `NULL`: what is put to the terminal, and what it returns. -/
def vsnPut (F : FloatOps δ) (format : Option (List UInt8)) (ap : List (VsnArg δ)) :
    Except VsnError (List UInt8 × Nat) :=
  match format with
  | none => .ok ([], 0)
  | some fmt => vsnGo F terminalDest (fmt.length + 1) fmt ap ([], 0)

theorem vsnLoop_eq_go (F : FloatOps δ) (lim : Nat) : ∀ (fuel : Nat) (fmt : List UInt8)
    (args : List (VsnArg δ)) (o : VsnOut),
      vsnLoop F lim fuel fmt args o = vsnGo F (bufferDest lim) fuel fmt args o := by
  intro fuel
  induction fuel with
  | zero => exact fun _ _ _ => rfl
  | succ fuel ih =>
    intro fmt args o
    rw [vsnLoop, vsnGo]
    by_cases h0 : fmt.head? = some 0
    · rw [if_pos h0, if_pos h0]
    rw [if_neg h0, if_neg h0]
    cases fmt.dropWhile isLiteral with
    | nil => rfl
    | cons c fmt' =>
      simp only [bufferDest, decide_eq_true_eq]
      refine bind_congr fun o => ?_
      split
      · rfl
      split
      · rfl
      rcases decodeFormat fmt' args with _ | ⟨spec, _ | ⟨t, fmt⟩, args⟩
      · rfl
      · rfl
      · dsimp only
        rcases renderSpecifier F t spec args with _ | ⟨item, args⟩
        · rfl
        · exact bind_congr fun o => ih _ _ o

end Dest

/-! ## 2. Formats with a terminator -/

/-- The pieces of a format, what stands behind the last of them, and whether a specifier there is cut
off by the terminator. -/
def vsnParts {δ : Type} (F : FloatOps δ) : Nat → List UInt8 → List (VsnArg δ) →
    Option (List VsnPiece × List UInt8 × Bool)
  | 0, _, _ => none
  | fuel + 1, fmt, args =>
    match fmt.dropWhile isLiteral with
    | [] => none
    | c :: fmt' =>
      if c = 0 then some ([], fmt.takeWhile isLiteral, false)
      else
        match decodeFormat fmt' args with
        | some (spec, t :: rest, args) =>
          if t = 0 then some ([], fmt.takeWhile isLiteral, true)
          else
            match renderSpecifier F t spec args with
            | some (item, args) =>
              (vsnParts F fuel rest args).map fun r => (⟨fmt.takeWhile isLiteral, item⟩ :: r.1, r.2)
            | none => none
        | _ => none

/-- `vsnprintf` comes to its end with a result that does not depend on what lies behind the
terminator, nor on whether there is anything to be read there.  The destination is a buffer and its
size, or the terminal. -/
def VsnStays {δ : Type} (F : FloatOps δ) (dest : Option (Nat × Nat)) (s : List UInt8)
    (args : List (VsnArg δ)) : Prop :=
  match dest with
  | some (str, size) => ∃ r, ∀ behind, vsnprintf F str size (some (s ++ 0 :: behind)) args = .ok r
  | none => ∃ r, ∀ behind, vsnPut F (some (s ++ 0 :: behind)) args = .ok r

/-- From the cursor `pos` on: no piece is printed from behind the end, none that has no end, and the
buffer is full before a specifier that is cut off. -/
def VsnEnds (lim : Nat) : Nat → List VsnPiece → List UInt8 → Bool → Prop
  | pos, [], last, cutOff =>
    (last = [] ∧ cutOff = false) ∨ (pos ≤ lim ∧ (cutOff = true → lim ≤ pos + last.length))
  | pos, p :: ps, last, cutOff =>
    pos ≤ lim ∧ (lim ≤ pos + p.lit.length ∨ (p.item ≠ .endless ∧
      VsnEnds lim (min (pos + p.lit.length + p.item.advance) (lim + 1)) ps last cutOff))

/-- **The formats that are left at the terminator.** -/
def VsnInside (dest : Option (Nat × Nat)) (ps : List VsnPiece) (last : List UInt8) (cutOff : Bool) :
    Prop :=
  match dest with
  | some (str, size) => VsnEnds (vsnLimit str size) 0 ps last cutOff
  | none => cutOff = false ∧ ∀ p ∈ ps, p.item ≠ .endless

/-! ## 3. Decoding stops at the terminator -/

section Local

variable {δ : Type}

theorem evalFlags_local (spec : FmtSpec) (x : List UInt8) : ∃ spec' y, y <:+ x ∧
    ∀ behind, evalFlags spec (x ++ 0 :: behind) = (spec', y ++ 0 :: behind) := by
  induction x generalizing spec with
  | nil => exact ⟨spec, [], List.suffix_refl _, fun _ => rfl⟩
  | cons c x ih =>
    have hnext := fun spec => (ih spec).imp fun _ h => h.imp fun _ h =>
      And.intro (h.1.trans (List.suffix_cons c x)) h.2
    simp only [List.cons_append, evalFlags]
    split
    · exact hnext _
    split
    · exact hnext _
    split
    · exact hnext _
    split
    · exact hnext _
    split
    · exact hnext _
    · exact ⟨spec, c :: x, List.suffix_refl _, fun _ => rfl⟩

theorem vsnDigits_local (res : Nat) (x : List UInt8) : ∃ res' y, y <:+ x ∧
    ∀ behind, vsnDigits res (x ++ 0 :: behind) = (res', y ++ 0 :: behind) := by
  induction x generalizing res with
  | nil => exact ⟨res, [], List.suffix_refl _, fun _ => rfl⟩
  | cons c x ih =>
    simp only [List.cons_append, vsnDigits]
    split
    · obtain ⟨res', y, hy, heq⟩ := ih (wadd (res * 10) (c.toNat - 48))
      exact ⟨res', y, hy.trans (List.suffix_cons c x), heq⟩
    · exact ⟨res, c :: x, List.suffix_refl _, fun _ => rfl⟩

theorem dropSpace_local (x : List UInt8) : ∃ y, y <:+ x ∧
    ∀ behind : List UInt8, (x ++ 0 :: behind).dropWhile isSpace = y ++ 0 :: behind := by
  induction x with
  | nil => exact ⟨[], List.suffix_refl _, fun _ => rfl⟩
  | cons c x ih =>
    by_cases hc : isSpace c = true
    · obtain ⟨y, hy, heq⟩ := ih
      refine ⟨y, hy.trans (List.suffix_cons c x), fun behind => ?_⟩
      rw [List.cons_append, List.dropWhile_cons_of_pos hc, heq]
    · refine ⟨c :: x, List.suffix_refl _, fun behind => ?_⟩
      rw [List.cons_append, List.dropWhile_cons_of_neg hc]

theorem vsnStrtoi_local (x : List UInt8) : ∃ v y, y <:+ x ∧
    ∀ behind, vsnStrtoi (x ++ 0 :: behind) = (v, y ++ 0 :: behind) := by
  obtain ⟨y, hy, hspace⟩ := dropSpace_local x
  have hhead : ∀ (z : List UInt8) (behind : List UInt8),
      (z ++ 0 :: behind).head? = some (z.headD 0) := by
    intro z behind
    cases z <;> rfl
  -- the sign, if there is one, is before the terminator
  obtain ⟨z, hz, hsign⟩ : ∃ z, z <:+ y ∧ ∀ behind : List UInt8,
      (if (some (y.headD 0) == some '-'.toUInt8 || some (y.headD 0) == some '+'.toUInt8) = true then
        (y ++ 0 :: behind).tail else y ++ 0 :: behind) = z ++ 0 :: behind := by
    cases y with
    | nil => exact ⟨[], List.suffix_refl _, fun _ => rfl⟩
    | cons c y =>
      simp only [List.headD_cons, List.cons_append, List.tail_cons]
      by_cases hc : (some c == some '-'.toUInt8 || some c == some '+'.toUInt8) = true
      · exact ⟨y, List.suffix_cons c y, fun _ => if_pos hc⟩
      · exact ⟨c :: y, List.suffix_refl _, fun _ => if_neg hc⟩
  obtain ⟨res, w, hw, hdigits⟩ := vsnDigits_local 0 z
  simp only [vsnStrtoi, hspace, hhead, hsign, hdigits]
  by_cases hslash : (some (w.headD 0) == some '/'.toUInt8) = true
  · simp only [if_pos hslash]
    exact ⟨_, x, List.suffix_refl _, fun _ => rfl⟩
  · simp only [if_neg hslash]
    exact ⟨_, w, (hw.trans hz).trans hy, fun _ => rfl⟩

/-- Reading from `x` up to a terminator takes a part of `x`, whatever lies behind, or finds no
argument. -/
def ReadsLocal (f : List UInt8 → List (VsnArg δ) → Option (Decoded δ)) : Prop :=
  ∀ x args, (∀ behind, f (x ++ 0 :: behind) args = none) ∨ ∃ spec y args', y <:+ x ∧
    ∀ behind, f (x ++ 0 :: behind) args = some (spec, y ++ 0 :: behind, args')

theorem evalWidth_local (spec : FmtSpec) : ReadsLocal (@evalWidth δ spec) := by
  intro x args
  cases x with
  | nil => exact .inr ⟨_, [], args, List.suffix_refl _, fun _ => rfl⟩
  | cons c x =>
    simp only [List.cons_append, evalWidth]
    split
    · obtain ⟨w, y, hy, heq⟩ := vsnStrtoi_local (c :: x)
      right
      simp only [← List.cons_append, heq]
      exact ⟨_, y, args, hy, fun _ => rfl⟩
    split
    · rcases starArg args with _ | ⟨v, args'⟩
      · exact .inl fun _ => rfl
      · right
        simp only [Option.bind_eq_bind, Option.bind_some]
        split
        · exact ⟨_, x, args', List.suffix_cons c x, fun _ => rfl⟩
        · exact ⟨_, x, args', List.suffix_cons c x, fun _ => rfl⟩
    · exact .inr ⟨_, c :: x, args, List.suffix_refl _, fun _ => rfl⟩

theorem evalPrec_local (spec : FmtSpec) : ReadsLocal (@evalPrec δ spec) := by
  intro x args
  cases x with
  | nil => exact .inr ⟨_, [], args, List.suffix_refl _, fun _ => rfl⟩
  | cons c x =>
    simp only [List.cons_append, evalPrec]
    split
    · exact .inr ⟨_, c :: x, args, List.suffix_refl _, fun _ => rfl⟩
    have hx : x <:+ c :: x := List.suffix_cons c x
    cases x with
    | nil => exact .inr ⟨_, [], args, hx, fun _ => rfl⟩
    | cons d x =>
      simp only [List.cons_append]
      split
      · obtain ⟨p, y, hy, heq⟩ := vsnStrtoi_local (d :: x)
        right
        simp only [← List.cons_append, heq]
        exact ⟨_, y, args, hy.trans hx, fun _ => rfl⟩
      split
      · rcases starArg args with _ | ⟨v, args'⟩
        · exact .inl fun _ => rfl
        · exact .inr ⟨_, x, args', (List.suffix_cons d x).trans hx, fun _ => rfl⟩
      · exact .inr ⟨_, d :: x, args, hx, fun _ => rfl⟩

theorem evalLength_cons (spec : FmtSpec) (c : UInt8) (l : List UInt8) : evalLength spec (c :: l) =
    if c = 'h'.toUInt8 then
      if l.head? = some 'h'.toUInt8 then ({ spec with char := true }, l.tail)
      else ({ spec with short := true }, l)
    else if c = 'l'.toUInt8 then
      if l.head? = some 'l'.toUInt8 then ({ spec with longLong := true }, l.tail)
      else ({ spec with long := true }, l)
    else (spec, c :: l) := by
  have hhead : ∀ d : UInt8, (c :: l).head? = some d ↔ c = d := fun d => Option.some_inj
  rw [evalLength]
  by_cases hh : c = 'h'.toUInt8
  · rw [if_pos hh, if_pos ((hhead _).mpr hh)]
    rfl
  by_cases hl : c = 'l'.toUInt8
  · rw [if_neg hh, if_neg (mt (hhead _).mp hh), if_pos hl, if_pos ((hhead _).mpr hl)]
    rfl
  · rw [if_neg hh, if_neg (mt (hhead _).mp hh), if_neg hl, if_neg (mt (hhead _).mp hl)]

theorem evalLength_local (spec : FmtSpec) (x : List UInt8) : ∃ spec' y, y <:+ x ∧
    ∀ behind, evalLength spec (x ++ 0 :: behind) = (spec', y ++ 0 :: behind) := by
  cases x with
  | nil => exact ⟨_, [], List.suffix_refl _, fun _ => rfl⟩
  | cons c x =>
    have hx : x <:+ c :: x := List.suffix_cons c x
    -- the second character of the modifier
    have hsecond : ∀ (d : UInt8) (spec₁ spec₂ : FmtSpec), d ≠ 0 → ∃ spec' y, y <:+ c :: x ∧
        ∀ behind, (if (x ++ 0 :: behind).head? = some d then (spec₁, (x ++ 0 :: behind).tail)
          else (spec₂, x ++ 0 :: behind)) = (spec', y ++ 0 :: behind) := by
      intro d spec₁ spec₂ hd
      cases x with
      | nil => exact ⟨spec₂, [], hx, fun _ => if_neg fun h => hd (Option.some.inj h).symm⟩
      | cons e x =>
        by_cases he : e = d
        · exact ⟨spec₁, x, (List.suffix_cons e x).trans hx, fun _ => if_pos (congrArg some he)⟩
        · exact ⟨spec₂, e :: x, hx, fun _ => if_neg fun h => he (Option.some.inj h)⟩
    by_cases hh : c = 'h'.toUInt8
    · obtain ⟨spec', y, hy, heq⟩ :=
        hsecond 'h'.toUInt8 { spec with char := true } { spec with short := true } (by decide)
      refine ⟨spec', y, hy, fun behind => ?_⟩
      rw [List.cons_append, evalLength_cons, if_pos hh]
      exact heq behind
    by_cases hl : c = 'l'.toUInt8
    · obtain ⟨spec', y, hy, heq⟩ :=
        hsecond 'l'.toUInt8 { spec with longLong := true } { spec with long := true } (by decide)
      refine ⟨spec', y, hy, fun behind => ?_⟩
      rw [List.cons_append, evalLength_cons, if_neg hh, if_pos hl]
      exact heq behind
    · refine ⟨spec, c :: x, List.suffix_refl _, fun behind => ?_⟩
      rw [List.cons_append, evalLength_cons, if_neg hh, if_neg hl]

/-- **Decoding does not look behind the terminator.** -/
theorem decodeFormat_local : ReadsLocal (@decodeFormat δ) := by
  intro x args
  obtain ⟨spec₁, x₁, hx₁, hflags⟩ := evalFlags_local {} x
  simp only [decodeFormat, hflags, Option.bind_eq_bind]
  rcases evalWidth_local spec₁ x₁ args with hnone | ⟨spec₂, x₂, args₂, hx₂, hwidth⟩
  · exact .inl fun behind => by rw [hnone, Option.bind_none]
  simp only [hwidth, Option.bind_some]
  rcases evalPrec_local spec₂ x₂ args₂ with hnone | ⟨spec₃, x₃, args₃, hx₃, hprec⟩
  · exact .inl fun behind => by rw [hnone, Option.bind_none]
  obtain ⟨spec₄, x₄, hx₄, hlength⟩ := evalLength_local spec₃ x₃
  simp only [hprec, Option.bind_some, hlength]
  exact .inr ⟨spec₄, x₄, args₃, ((hx₄.trans hx₃).trans hx₂).trans hx₁, fun _ => rfl⟩

/-- A terminator in the place of the type is printed as it is. -/
theorem renderSpecifier_zero (F : FloatOps δ) (spec : FmtSpec) (args : List (VsnArg δ)) :
    renderSpecifier F 0 spec args = some (.text [0], args) := by
  simp [renderSpecifier, configSpecifier, Char.toUInt8]

/-- A string is made of characters that are copied, or there is a `%` behind the first of them. -/
theorem literal_cases {s : List UInt8} (hs : 0 ∉ s) : (∀ c ∈ s, isLiteral c = true) ∨
    ∃ lit x, s = lit ++ '%'.toUInt8 :: x ∧ ∀ c ∈ lit, isLiteral c = true := by
  induction s with
  | nil => exact .inl fun c hc => absurd hc List.not_mem_nil
  | cons c s ih =>
    by_cases hc : isLiteral c = true
    · rcases ih fun h0 => hs (List.mem_cons_of_mem c h0) with hall | ⟨lit, x, rfl, hlit⟩
      · exact .inl (List.forall_mem_cons.mpr ⟨hc, hall⟩)
      · exact .inr ⟨c :: lit, x, rfl, List.forall_mem_cons.mpr ⟨hc, hlit⟩⟩
    · have hzero : c ≠ 0 := fun h0 => hs (h0 ▸ List.mem_cons_self)
      have hpct : c = '%'.toUInt8 := by
        simpa [isLiteral, hzero] using hc
      exact .inr ⟨[], s, by rw [hpct, List.nil_append], fun d hd => absurd hd List.not_mem_nil⟩

/-- **What a format begins with**: characters up to the terminator, or up to a specifier, which is cut
off or is a piece; then there are the parts of the rest. -/
theorem vsnParts_cases {F : FloatOps δ} {s : List UInt8} (hs : 0 ∉ s) {fuel : Nat}
    {args : List (VsnArg δ)} {ps : List VsnPiece} {last : List UInt8} {cutOff : Bool}
    (h : vsnParts F fuel (s ++ [0]) args = some (ps, last, cutOff)) :
    ((∀ c ∈ s, isLiteral c = true) ∧ ps = [] ∧ last = s ∧ cutOff = false) ∨
    ∃ lit x spec args₁, s = lit ++ '%'.toUInt8 :: x ∧ (∀ c ∈ lit, isLiteral c = true) ∧
      ((ps = [] ∧ last = lit ∧ cutOff = true ∧
          ∀ behind, decodeFormat (x ++ 0 :: behind) args = some (spec, 0 :: behind, args₁)) ∨
        ∃ t y item args₂ fuel' qs, (t :: y) <:+ x ∧ ps = ⟨lit, item⟩ :: qs ∧
          (∀ behind, decodeFormat (x ++ 0 :: behind) args = some (spec, t :: (y ++ 0 :: behind), args₁)) ∧
          renderSpecifier F t spec args₁ = some (item, args₂) ∧
          vsnParts F fuel' (y ++ [0]) args₂ = some (qs, last, cutOff)) := by
  cases fuel with
  | zero => cases h
  | succ fuel =>
    rw [vsnParts] at h
    rcases literal_cases hs with hall | ⟨lit, x, rfl, hlit⟩
    · left
      obtain ⟨hdrop, htake⟩ := literal_split hall (show isLiteral 0 = false by decide) []
      simp only [hdrop, htake, if_true, Option.some.injEq, Prod.mk.injEq] at h
      exact ⟨hall, h.1.symm, h.2.1.symm, h.2.2.symm⟩
    · right
      obtain ⟨hdrop, htake⟩ := literal_split hlit (show isLiteral '%'.toUInt8 = false by decide) (x ++ [0])
      rw [List.append_assoc, List.cons_append, hdrop] at h
      simp only [htake, if_neg (show ¬ '%'.toUInt8 = 0 by decide)] at h
      rcases decodeFormat_local x args with hnone | ⟨spec, y, args₁, hy, hdecode⟩
      · rw [hnone] at h
        cases h
      rw [hdecode] at h
      cases y with
      | nil =>
        simp only [List.nil_append, if_true, Option.some.injEq, Prod.mk.injEq] at h
        exact ⟨lit, x, spec, args₁, rfl, hlit, .inl ⟨h.1.symm, h.2.1.symm, h.2.2.symm, hdecode⟩⟩
      | cons t y =>
        have ht : t ≠ 0 := by
          rintro rfl
          refine hs (List.mem_append_right _ (List.mem_cons_of_mem _ ?_))
          exact hy.subset List.mem_cons_self
        simp only [List.cons_append, if_neg ht] at h
        rcases hrender : renderSpecifier F t spec args₁ with _ | ⟨item, args₂⟩
        · rw [hrender] at h
          cases h
        · simp only [hrender] at h
          obtain ⟨r, hr, heq⟩ := Option.map_eq_some_iff.mp h
          obtain ⟨rfl, hlast⟩ := Prod.mk.inj heq
          refine ⟨lit, x, spec, args₁, rfl, hlit, .inr ⟨t, y, item, args₂, fuel, r.1, hy, rfl, hdecode,
            hrender, ?_⟩⟩
          rw [hr, ← hlast]

end Local

/-! ## 4. The end of the loop -/

section Ends

variable {δ σ : Type} {F : FloatOps δ} {D : VsnDest σ}

/-- The pieces are printed up to the end of the format or of the room, and the latter comes before a
specifier that is cut off. -/
def VsnDest.Ends (D : VsnDest σ) : List VsnPiece → List UInt8 → Bool → σ → Prop
  | [], last, cutOff, o => (last = [] ∧ cutOff = false) ∨
    ∃ o', D.literal last o = .ok o' ∧ (cutOff = true → D.full o' = true)
  | p :: ps, last, cutOff, o => ∃ o', D.literal p.lit o = .ok o' ∧ (D.full o' = true ∨
    ∃ o'', D.item p.item o' = .ok o'' ∧ D.Ends ps last cutOff o'')

/-- The loop, over a specifier. -/
theorem vsnGo_specifier {lit : List UInt8} (hlit : ∀ c ∈ lit, isLiteral c = true)
    {fmt fmt₁ : List UInt8} {args args₁ args₂ : List (VsnArg δ)} {spec : FmtSpec} {t : UInt8}
    (hdecode : decodeFormat fmt args = some (spec, t :: fmt₁, args₁)) {item : VsnItem}
    (hrender : renderSpecifier F t spec args₁ = some (item, args₂)) (fuel : Nat) (o : σ) :
    vsnGo F D (fuel + 1) (lit ++ '%'.toUInt8 :: fmt) args o = (D.literal lit o).bind fun o =>
      if D.full o = true then .ok o
      else (D.item item o).bind fun o => vsnGo F D fuel fmt₁ args₂ o := by
  obtain ⟨hdrop, htake⟩ := literal_split hlit (show isLiteral '%'.toUInt8 = false by decide) fmt
  rw [vsnGo, if_neg (literal_head hlit (by decide) fmt), hdrop]
  simp only [htake, if_neg (show ¬ '%'.toUInt8 = 0 by decide), hdecode, hrender]
  rfl

/-- The loop, up to the terminator. -/
theorem vsnGo_literal {lit : List UInt8} (hlit : ∀ c ∈ lit, isLiteral c = true) (behind : List UInt8)
    (fuel : Nat) (args : List (VsnArg δ)) (o : σ) :
    vsnGo F D (fuel + 1) (lit ++ 0 :: behind) args o = if lit = [] then .ok o else D.literal lit o := by
  obtain ⟨hdrop, htake⟩ := literal_split hlit (show isLiteral 0 = false by decide) behind
  cases lit with
  | nil => rfl
  | cons c lit =>
    have hhead : ((c :: lit) ++ 0 :: behind).head? ≠ some 0 := by
      intro h0
      obtain rfl := Option.some.inj h0
      exact absurd (hlit 0 List.mem_cons_self) (by decide)
    rw [vsnGo, if_neg hhead, hdrop, if_neg (List.cons_ne_nil _ _)]
    simp only [htake, if_true, ite_self]
    cases D.literal (c :: lit) o <;> rfl

/-- Behind the last byte there is nothing to read. -/
theorem vsnGo_nil (fuel : Nat) (args : List (VsnArg δ)) (o : σ) :
    vsnGo F D fuel [] args o = .error .mismatch := by
  cases fuel <;> rfl

theorem bind_eq_ok {α β ε : Type} {x : Except ε α} {f : α → Except ε β} {b : β} (h : x.bind f = .ok b) :
    ∃ a, x = .ok a ∧ f a = .ok b := by
  cases x with
  | error e => cases h
  | ok a => exact ⟨a, rfl, h⟩

/-- **The loop comes to its end** if it does so where nothing lies behind the terminator, and then
whatever lies there. -/
theorem vsnGo_ends (m : Nat) : ∀ {s : List UInt8}, s.length < m → 0 ∉ s → ∀ {fuel : Nat}
    {args : List (VsnArg δ)} {ps : List VsnPiece} {last : List UInt8} {cutOff : Bool},
    vsnParts F fuel (s ++ [0]) args = some (ps, last, cutOff) → ∀ o : σ,
      (D.Ends ps last cutOff o → ∃ r, ∀ behind n, s.length < n →
        vsnGo F D n (s ++ 0 :: behind) args o = .ok r) ∧
      ∀ n r, vsnGo F D n (s ++ [0]) args o = .ok r → D.Ends ps last cutOff o := by
  induction m with
  | zero => exact fun hlt => absurd hlt (Nat.not_lt_zero _)
  | succ m ih =>
    intro s hlt hs fuel args ps last cutOff hparts o
    have hpos : ∀ {n}, s.length < n → ∃ n', n = n' + 1 := fun h =>
      Nat.exists_eq_succ_of_ne_zero (Nat.ne_zero_of_lt h)
    rcases vsnParts_cases hs hparts with ⟨hall, rfl, rfl, rfl⟩ |
      ⟨lit, x, spec, args₁, rfl, hlit, ⟨rfl, rfl, rfl, hdecode⟩ |
        ⟨t, y, item, args₂, fuel', qs, hy, rfl, hdecode, hrender, hrest⟩⟩
    · -- no specifier is left
      constructor
      · rintro (⟨rfl, -⟩ | ⟨o', ho', -⟩)
        · refine ⟨o, fun behind n hn => ?_⟩
          obtain ⟨n, rfl⟩ := hpos hn
          rw [vsnGo_literal hall, if_pos rfl]
        · by_cases hnil : last = []
          · refine ⟨o, fun behind n hn => ?_⟩
            obtain ⟨n, rfl⟩ := hpos hn
            rw [vsnGo_literal hall, if_pos hnil]
          · refine ⟨o', fun behind n hn => ?_⟩
            obtain ⟨n, rfl⟩ := hpos hn
            rw [vsnGo_literal hall, if_neg hnil, ho']
      · intro n r hgo
        cases n with
        | zero => cases hgo
        | succ n =>
          rw [vsnGo_literal hall] at hgo
          by_cases hnil : last = []
          · exact .inl ⟨hnil, rfl⟩
          · rw [if_neg hnil] at hgo
            exact .inr ⟨r, hgo, Bool.noConfusion⟩
    · -- the specifier is cut off: its type would be the terminator
      have hgo := fun behind n => vsnGo_specifier (D := D) hlit (hdecode behind)
        (renderSpecifier_zero F spec args₁) n o
      constructor
      · rintro (⟨-, hfalse⟩ | ⟨o', ho', hfull⟩)
        · cases hfalse
        · refine ⟨o', fun behind n hn => ?_⟩
          obtain ⟨n, rfl⟩ := hpos hn
          rw [List.append_assoc, List.cons_append, hgo, ho', Except.bind, if_pos (hfull rfl)]
      · intro n r hr
        cases n with
        | zero => cases hr
        | succ n =>
          rw [List.append_assoc, List.cons_append, hgo] at hr
          obtain ⟨o', ho', hr⟩ := bind_eq_ok hr
          refine .inr ⟨o', ho', fun _ => ?_⟩
          by_contra hfull
          rw [if_neg hfull] at hr
          obtain ⟨o'', -, hr⟩ := bind_eq_ok hr
          rw [vsnGo_nil] at hr
          cases hr
    · have hgo := fun behind n => vsnGo_specifier (D := D) hlit (hdecode behind) hrender n o
      have hlen := hy.length_le
      rw [List.length_cons] at hlen
      rw [List.length_append, List.length_cons] at hlt
      have hzero : 0 ∉ y := fun h0 => hs (List.mem_append_right _ (List.mem_cons_of_mem _
        (hy.subset (List.mem_cons_of_mem _ h0))))
      have hih := ih (s := y) (by omega) hzero hrest
      constructor
      · rintro ⟨o', ho', hfull | ⟨o'', ho'', hends⟩⟩
        · refine ⟨o', fun behind n hn => ?_⟩
          obtain ⟨n, rfl⟩ := hpos hn
          rw [List.append_assoc, List.cons_append, hgo, ho', Except.bind, if_pos hfull]
        · by_cases hfull : D.full o' = true
          · refine ⟨o', fun behind n hn => ?_⟩
            obtain ⟨n, rfl⟩ := hpos hn
            rw [List.append_assoc, List.cons_append, hgo, ho', Except.bind, if_pos hfull]
          · obtain ⟨r, hr⟩ := (hih o'').1 hends
            refine ⟨r, fun behind n hn => ?_⟩
            obtain ⟨n, rfl⟩ := hpos hn
            rw [List.length_append, List.length_cons] at hn
            rw [List.append_assoc, List.cons_append, hgo, ho', Except.bind, if_neg hfull, ho'', Except.bind]
            exact hr behind n (by omega)
      · intro n r hr
        cases n with
        | zero => cases hr
        | succ n =>
          rw [List.append_assoc, List.cons_append, hgo] at hr
          obtain ⟨o', ho', hr⟩ := bind_eq_ok hr
          refine ⟨o', ho', ?_⟩
          by_cases hfull : D.full o' = true
          · exact .inl hfull
          · rw [if_neg hfull] at hr
            obtain ⟨o'', ho'', hr⟩ := bind_eq_ok hr
            exact .inr ⟨o'', ho'', (hih o'').2 n r hr⟩

/-- Where the buffer ends. -/
theorem bufferDest_ends_iff {lim : Nat} {last : List UInt8} {cutOff : Bool} : ∀ {ps : List VsnPiece}
    {o : VsnOut}, (bufferDest lim).Ends ps last cutOff o ↔ VsnEnds lim o.buf ps last cutOff := by
  intro ps
  induction ps with
  | nil =>
    intro o
    refine or_congr Iff.rfl ⟨?_, ?_⟩
    · rintro ⟨o', ho', hfull⟩
      obtain ⟨hle, hbuf⟩ := printLiteral_buf ho'
      refine ⟨hle, fun hcut => ?_⟩
      have hlim := of_decide_eq_true (hfull hcut)
      omega
    · rintro ⟨hle, hfull⟩
      obtain ⟨o', ho'⟩ := printLiteral_ok last hle
      refine ⟨o', ho', fun hcut => decide_eq_true ?_⟩
      have hbuf := (printLiteral_buf ho').2
      have hlim := hfull hcut
      omega
  | cons p ps ih =>
    intro o
    simp only [VsnDest.Ends, VsnEnds, ih]
    constructor
    · rintro ⟨o', ho', hrest⟩
      obtain ⟨hle, hbuf⟩ := printLiteral_buf ho'
      refine ⟨hle, ?_⟩
      by_cases hfull : lim ≤ o.buf + p.lit.length
      · exact .inl hfull
      rcases hrest with hlim | ⟨o'', ho'', hends⟩
      · have hlim := of_decide_eq_true hlim
        omega
      · refine .inr ⟨fun hend => ?_, ?_⟩
        · rw [hend] at ho''
          cases ho''
        · have hcursor : o'.buf = o.buf + p.lit.length := by omega
          have hnext := VsnItem.print_buf (by omega) ho''
          rwa [hnext, hcursor] at hends
    · rintro ⟨hle, hrest⟩
      obtain ⟨o', ho'⟩ := printLiteral_ok p.lit hle
      have hbuf := (printLiteral_buf ho').2
      refine ⟨o', ho', ?_⟩
      by_cases hfull : lim ≤ o.buf + p.lit.length
      · exact .inl (decide_eq_true (by omega))
      obtain ⟨hend, hends⟩ := hrest.resolve_left hfull
      obtain ⟨o'', ho''⟩ : ∃ o'', p.item.print lim o' = .ok o'' := by
        cases hitem : p.item with
        | text cs => exact ⟨_, rfl⟩
        | string before s after => exact ⟨_, rfl⟩
        | endless => exact absurd hitem hend
      have hcursor : o'.buf = o.buf + p.lit.length := by omega
      have hnext := VsnItem.print_buf (by omega) ho''
      refine .inr ⟨o'', ho'', ?_⟩
      rwa [hnext, hcursor]

/-- The terminal is never full. -/
theorem terminalDest_ends_iff {last : List UInt8} {cutOff : Bool} : ∀ {ps : List VsnPiece}
    {o : List UInt8 × Nat}, terminalDest.Ends ps last cutOff o ↔
      cutOff = false ∧ ∀ p ∈ ps, p.item ≠ .endless := by
  intro ps
  induction ps with
  | nil =>
    intro o
    cases cutOff with
    | false => exact iff_of_true (.inr ⟨_, rfl, Bool.noConfusion⟩) ⟨rfl, fun _ h => absurd h List.not_mem_nil⟩
    | true =>
      refine iff_of_false ?_ fun h => Bool.noConfusion h.1
      rintro (⟨-, hfalse⟩ | ⟨o', -, hfull⟩)
      · cases hfalse
      · cases hfull rfl
  | cons p ps ih =>
    intro o
    simp only [VsnDest.Ends, ih, List.forall_mem_cons]
    constructor
    · rintro ⟨o', -, hfull | ⟨o'', ho'', hcut, hends⟩⟩
      · cases hfull
      · refine ⟨hcut, fun hend => ?_, hends⟩
        rw [hend] at ho''
        cases ho''
    · rintro ⟨hcut, hend, hends⟩
      obtain ⟨lit, item⟩ := p
      cases item with
      | text cs => exact ⟨_, rfl, .inr ⟨_, rfl, hcut, hends⟩⟩
      | string before s after => exact ⟨_, rfl, .inr ⟨_, rfl, hcut, hends⟩⟩
      | endless => exact absurd rfl hend

end Ends

/-- **Reading stops at the terminator**, for every format whose arguments match, exactly where no
specifier that is cut off by it is come to, none without an end, and nothing is left to print behind
the end of the buffer. -/
theorem vsnprintf_stays_iff {δ : Type} {F : FloatOps δ} {s : List UInt8} (hs : 0 ∉ s) {fuel : Nat}
    {args : List (VsnArg δ)} {ps : List VsnPiece} {last : List UInt8} {cutOff : Bool}
    (hmatch : vsnParts F fuel (s ++ [0]) args = some (ps, last, cutOff)) (dest : Option (Nat × Nat)) :
    VsnStays F dest s args ↔ VsnInside dest ps last cutOff := by
  have hlen : ∀ behind : List UInt8, s.length < (s ++ 0 :: behind).length + 1 := by
    intro behind
    rw [List.length_append]
    omega
  cases dest with
  | none =>
    obtain ⟨hends, hstops⟩ := vsnGo_ends (D := terminalDest) (s.length + 1) (Nat.lt_succ_self _) hs hmatch
      ([], 0)
    have hiff : terminalDest.Ends ps last cutOff ([], 0) ↔ VsnInside none ps last cutOff :=
      terminalDest_ends_iff
    refine Iff.trans ⟨?_, fun h => ?_⟩ hiff
    · rintro ⟨r, hr⟩
      exact hstops _ r (hr [])
    · obtain ⟨r, hr⟩ := hends h
      exact ⟨r, fun behind => hr behind _ (hlen behind)⟩
  | some dest =>
    obtain ⟨str, size⟩ := dest
    obtain ⟨hends, hstops⟩ := vsnGo_ends (D := bufferDest (vsnLimit str size)) (s.length + 1)
      (Nat.lt_succ_self _) hs hmatch ⟨0, []⟩
    have hiff : (bufferDest (vsnLimit str size)).Ends ps last cutOff ⟨0, []⟩ ↔
        VsnInside (some (str, size)) ps last cutOff := bufferDest_ends_iff
    refine Iff.trans ⟨?_, fun h => ?_⟩ hiff
    · rintro ⟨r, hr⟩
      have hloop := hr []
      rw [vsnprintf_loop, vsnLoop_eq_go] at hloop
      cases hgo : vsnGo F (bufferDest (vsnLimit str size)) ((s ++ [0]).length + 1) (s ++ [0]) args
          ⟨0, []⟩ with
      | error e =>
        rw [hgo] at hloop
        cases hloop
      | ok o => exact hstops _ o hgo
    · obtain ⟨o, ho⟩ := hends h
      refine ⟨(o.finish (vsnLimit str size), o.buf), fun behind => ?_⟩
      rw [vsnprintf_loop, vsnLoop_eq_go, ho behind _ (hlen behind)]
      rfl

/-- `50%` -/
def fiftyPercent : List UInt8 := ['5', '0', '%'].map Char.toUInt8

/-- The terminator is the type of its specifier, unless a buffer of two bytes is full before. -/
theorem vsnprintf_stays_iff_fifty : VsnStays noFloats (some (0x40000000, 2)) fiftyPercent [] ∧
    ¬ VsnStays noFloats (some (0x40000000, 64)) fiftyPercent [] ∧
      ¬ VsnStays noFloats none fiftyPercent [] := by
  have hparts : vsnParts noFloats 4 (fiftyPercent ++ [0]) [] = some ([], fiftyPercent.take 2, true) := rfl
  refine ⟨(vsnprintf_stays_iff (by decide) hparts _).mpr (.inr ⟨Nat.zero_le _, fun _ => by decide⟩),
    mt (vsnprintf_stays_iff (by decide) hparts _).mp ?_, mt (vsnprintf_stays_iff (by decide) hparts _).mp ?_⟩
  · rintro (⟨-, hfalse⟩ | ⟨-, hfull⟩)
    · cases hfalse
    · exact absurd (hfull rfl) (by decide)
  · rintro ⟨hfalse, -⟩
    cases hfalse

/-- **What lies behind the terminator is read** after a format that ends in a `%`. -/
theorem vsnprintf_reads_behind : ¬ ∀ (dest : Option (Nat × Nat)) (s : List UInt8)
    (args : List (VsnArg Empty)), 0 ∉ s → (vsnParts noFloats (s.length + 1) (s ++ [0]) args).isSome →
      VsnStays noFloats dest s args := by
  intro hall
  obtain ⟨r, hr⟩ := hall (some (0x40000000, 64)) fiftyPercent [] (by decide) rfl
  have hnothing : vsnprintf noFloats 0x40000000 64 (some (fiftyPercent ++ [0])) [] = .error .mismatch := rfl
  cases hnothing.symm.trans (hr [])

end FlightOs
