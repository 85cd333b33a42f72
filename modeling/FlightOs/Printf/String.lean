/-
# String conversions

`render_string` pads in front up to the width, without counting the string; copies the string to the
cursor, which `_printn` leaves where it is; and pads behind from there.

* `StrSpecifier.decodeFormat_eq`: what a conversion `%[flags][width][.precision]s` decodes to.
* `vsnRun_room`, `vsnRun_append`: a run with room for what is to be printed is one piece after another.
* `strPrinted_iff`: wherever the conversion stands, its field is at its place and the cursor behind it,
  if and only if the string is cut to nothing, or is made of blanks, which nobody misses, and fits a
  width that it is not aligned to the left of.
-/
import FlightOs.Printf.Integer

namespace FlightOs

/-! ## 1. Specifiers -/

/-- The precision is not there, or a dot alone, or a number, or an argument. -/
inductive PrecField
  | none
  | dot
  | digits (ds : List UInt8)
  | star (v : BitVec 32)

def PrecField.text : PrecField → List UInt8
  | .none => []
  | .dot => ['.'.toUInt8]
  | .digits ds => '.'.toUInt8 :: ds
  | .star _ => ['.'.toUInt8, '*'.toUInt8]

/-- An argument is an `unsigned int`. -/
def PrecField.value : PrecField → Option Nat
  | .none => Option.none
  | .dot => some 0
  | .digits ds => some (readFrom 10 0 ds)
  | .star v => some v.toNat

def PrecField.args {δ : Type} : PrecField → List (VsnArg δ)
  | .star v => [.int v]
  | _ => []

/-- A string conversion.  Numbers fit an `int`. -/
structure StrSpecifier where
  flags : List UInt8
  width : WidthField
  prec : PrecField
  flags_mem : ∀ c ∈ flags, c ∈ '#'.toUInt8 :: intFlags
  /-- A zero would be a flag. -/
  width_number : ∀ w, width = .number w → 0 < w ∧ w < 2 ^ 31
  prec_digits : ∀ ds, prec = .digits ds →
    ds ≠ [] ∧ (∀ d ∈ ds, isDigit d = true) ∧ readFrom 10 0 ds < 2 ^ 31

namespace StrSpecifier

variable (S : StrSpecifier)

/-- The text behind the `%`, and what stands behind it. -/
def format (rest : List UInt8) : List UInt8 :=
  S.flags ++ (S.width.text ++ (S.prec.text ++ 's'.toUInt8 :: rest))

/-- The arguments for the fields and for the string, and those behind. -/
def args {δ : Type} (s : List UInt8) (rest : List (VsnArg δ)) : List (VsnArg δ) :=
  S.width.args ++ (S.prec.args ++ .str (some s) :: rest)

def left : Bool := S.flags.contains '-'.toUInt8 || S.width.left

/-- The string, cut to the precision. -/
def cut (s : List UInt8) : List UInt8 := s.take (S.prec.value.getD s.length)

/-- **What is to be printed**: the string that has been cut, padded to the width on the proper side. -/
def field (s : List UInt8) : List UInt8 :=
  let pad := spaces (S.width.value - (S.cut s).length)
  if S.left then S.cut s ++ pad else pad ++ S.cut s

/-- **The strings that come out right.** -/
def Blank (s : List UInt8) : Prop :=
  S.cut s = [] ∨
    (S.left = false ∧ (S.cut s).length ≤ S.width.value ∧ ∀ c ∈ S.cut s, c = ' '.toUInt8)

instance (s : List UInt8) : Decidable (S.Blank s) :=
  inferInstanceAs (Decidable (_ ∨ _))

/-- What the fields before the type decode to. -/
def spec : FmtSpec where
  left := S.left
  plus := S.flags.contains '+'.toUInt8
  space := S.flags.contains ' '.toUInt8
  zeropad := S.flags.contains '0'.toUInt8
  hash := S.flags.contains '#'.toUInt8
  precision := S.prec.value.isSome
  width := S.width.value
  prec := S.prec.value.getD 0

/-- What `render_string` makes of it. -/
def item (s : List UInt8) : VsnItem :=
  if S.left then .string 0 (S.cut s) (S.width.value - (S.cut s).length)
  else .string S.width.value (S.cut s) 0

variable {S} {δ : Type} {rest : List UInt8} {args : List (VsnArg δ)}

theorem length_field (s : List UInt8) :
    (S.field s).length = max S.width.value (S.cut s).length := by
  have hpad : (spaces (S.width.value - (S.cut s).length)).length =
      S.width.value - (S.cut s).length := List.length_replicate
  unfold field
  dsimp only
  split
  · rw [List.length_append, hpad]
    omega
  · rw [List.length_append, hpad]
    omega

/-- A precision begins with a dot. -/
theorem prec_head (rest : List UInt8) :
    S.prec.text ++ 's'.toUInt8 :: rest ≠ [] ∧ ∀ c ∈ (S.prec.text ++ 's'.toUInt8 :: rest).head?,
      c = '.'.toUInt8 ∨ c = 's'.toUInt8 := by
  refine ⟨List.append_ne_nil_of_right_ne_nil _ (List.cons_ne_nil _ _), fun c hc => ?_⟩
  cases hp : S.prec with
  | none =>
    rw [hp] at hc
    exact .inr (Option.some.inj hc).symm
  | dot =>
    rw [hp] at hc
    exact .inl (Option.some.inj hc).symm
  | digits ds =>
    rw [hp] at hc
    exact .inl (Option.some.inj hc).symm
  | star v =>
    rw [hp] at hc
    exact .inl (Option.some.inj hc).symm

theorem evalPrec_eq (spec : FmtSpec) (hspec : spec.precision = false) :
    evalPrec spec (S.prec.text ++ 's'.toUInt8 :: rest) (S.prec.args ++ args) =
      some ({ spec with precision := S.prec.value.isSome, prec := S.prec.value.getD 0 },
        's'.toUInt8 :: rest, args) := by
  have hs : ¬ isDigit 's'.toUInt8 = true := by decide
  have hstar : ¬ 's'.toUInt8 = '*'.toUInt8 := by decide
  have hdot : ¬ 's'.toUInt8 = '.'.toUInt8 := by decide
  cases hp : S.prec with
  | none =>
    simp only [PrecField.text, PrecField.args, PrecField.value, List.nil_append]
    simp only [evalPrec]
    rw [if_pos hdot, Option.isSome_none, ← hspec]
    rfl
  | dot =>
    simp only [PrecField.text, PrecField.args, PrecField.value, List.singleton_append, List.nil_append]
    rw [evalPrec, if_neg (not_not.mpr rfl)]
    dsimp only
    rw [if_neg hs, if_neg hstar]
    rfl
  | digits ds =>
    obtain ⟨hne, hds, hlt⟩ := S.prec_digits ds hp
    have hend : NoDigit ('s'.toUInt8 :: rest) := by
      intro c hc
      obtain rfl := Option.some.inj hc
      decide
    have hread := vsnStrtoi_digits hne hds (Nat.lt_trans hlt (by decide)) hend
    obtain ⟨d, ds, rfl⟩ := List.exists_cons_of_ne_nil hne
    simp only [PrecField.text, PrecField.args, PrecField.value, List.cons_append, List.nil_append] at hread ⊢
    rw [evalPrec, if_neg (not_not.mpr rfl)]
    dsimp only
    rw [if_pos (hds d List.mem_cons_self), hread]
    rfl
  | star v =>
    simp only [PrecField.text, PrecField.args, PrecField.value, List.cons_append, List.nil_append]
    rw [evalPrec, if_neg (not_not.mpr rfl)]
    dsimp only
    rw [if_neg (by decide), if_pos rfl]
    rfl

/-- **The fields before the type.** -/
theorem decodeFormat_eq (S : StrSpecifier) (s rest : List UInt8) (args : List (VsnArg δ)) :
    decodeFormat (S.format rest) (S.args s args) =
      some (S.spec, 's'.toUInt8 :: rest, .str (some s) :: args) := by
  obtain ⟨hne, hhead⟩ := S.prec_head rest
  have hnoflag : NoFlag (S.prec.text ++ 's'.toUInt8 :: rest) := by
    intro c hc
    rcases hhead c hc with rfl | rfl
    · decide
    · decide
  have hnodigit : NoDigit (S.prec.text ++ 's'.toUInt8 :: rest) := by
    intro c hc
    rcases hhead c hc with rfl | rfl
    · decide
    · decide
  have hstar : ∀ c ∈ (S.prec.text ++ 's'.toUInt8 :: rest).head?, c ≠ '*'.toUInt8 := by
    intro c hc
    rcases hhead c hc with rfl | rfl
    · decide
    · decide
  have hflags := WidthField.noFlag (fun w hw => (S.width_number w hw).1) hnoflag
  have hwidth : ∀ spec : FmtSpec,
      evalWidth spec (S.width.text ++ (S.prec.text ++ 's'.toUInt8 :: rest))
        (S.width.args ++ (S.prec.args ++ .str (some s) :: args)) =
      some ({ spec with width := S.width.value, left := spec.left || S.width.left },
        S.prec.text ++ 's'.toUInt8 :: rest, S.prec.args ++ .str (some s) :: args) :=
    evalWidth_field (fun w hw =>
      ⟨(S.width_number w hw).1, Nat.lt_trans (S.width_number w hw).2 (by decide)⟩) hne hstar hnodigit
  unfold decodeFormat format StrSpecifier.args
  rw [evalFlags_eq hflags S.flags _ S.flags_mem]
  simp only [hwidth, Option.bind_eq_bind, Option.bind_some]
  rw [evalPrec_eq _ rfl]
  simp [evalLength, spec, left, Char.toUInt8]

theorem renderSpecifier_eq (F : FloatOps δ) (S : StrSpecifier) (s : List UInt8)
    (args : List (VsnArg δ)) :
    renderSpecifier F 's'.toUInt8 S.spec (.str (some s) :: args) = some (S.item s, args) := by
  have hspec : configSpecifier 's'.toUInt8 S.spec = { S.spec with base := 0 } := by
    simp [configSpecifier, Char.toUInt8]
  have hcut : s.take (if S.spec.precision then min s.length S.spec.prec else s.length) = S.cut s ∧
      (if S.spec.precision then min s.length S.spec.prec else s.length) = (S.cut s).length := by
    rcases hp : S.prec.value with _ | p
    · have hprecision : S.spec.precision = false := by rw [spec, hp]; rfl
      simp [hprecision, cut, hp]
    · have hprecision : S.spec.precision = true := by rw [spec, hp]; rfl
      have hprec : S.spec.prec = p := by rw [spec, hp]; rfl
      simp [hprecision, hprec, cut, hp, Nat.min_comm]
  have hrender : renderString S.spec (.str (some s) :: args) = some (S.item s, args) := by
    unfold renderString item
    dsimp only
    rw [hcut.1, hcut.2]
    rfl
  unfold renderSpecifier
  rw [hspec]
  simpa [Char.toUInt8, renderString] using hrender

end StrSpecifier

/-! ## 2. The place of a specifier -/

/-- `vsnprintf` comes to a `%`, with `fmt'` behind it and `args'` left; the pieces `ps` come before it,
and then the characters `lit`. -/
inductive VsnReach {δ : Type} (F : FloatOps δ) : List UInt8 → List (VsnArg δ) → List VsnPiece →
    List UInt8 → List UInt8 → List (VsnArg δ) → Prop
  | here {lit fmt : List UInt8} {args : List (VsnArg δ)} : (∀ c ∈ lit, isLiteral c = true) →
      VsnReach F (lit ++ '%'.toUInt8 :: fmt) args [] lit fmt args
  | next {lit fmt fmt₁ lit' fmt' : List UInt8} {args args₁ args₂ args' : List (VsnArg δ)}
      {spec : FmtSpec} {t : UInt8} {item : VsnItem} {ps : List VsnPiece} :
      (∀ c ∈ lit, isLiteral c = true) → decodeFormat fmt args = some (spec, t :: fmt₁, args₁) →
        renderSpecifier F t spec args₁ = some (item, args₂) →
          VsnReach F fmt₁ args₂ ps lit' fmt' args' →
            VsnReach F (lit ++ '%'.toUInt8 :: fmt) args (⟨lit, item⟩ :: ps) lit' fmt' args'

section Reach

variable {δ : Type} {F : FloatOps δ}

section Literal

variable {lit : List UInt8} (hlit : ∀ c ∈ lit, isLiteral c = true)

include hlit

/-- The characters up to a specifier, or up to the terminator, are one literal. -/
theorem literal_split {c : UInt8} (hc : isLiteral c = false) (fmt : List UInt8) :
    (lit ++ c :: fmt).dropWhile isLiteral = c :: fmt ∧ (lit ++ c :: fmt).takeWhile isLiteral = lit := by
  rw [List.dropWhile_append_of_pos hlit, List.dropWhile_cons_of_neg (by rw [hc]; decide),
    List.takeWhile_append_of_pos hlit, List.takeWhile_cons_of_neg (by rw [hc]; decide),
    List.append_nil]
  exact ⟨rfl, rfl⟩

theorem literal_head {c : UInt8} (hc : c ≠ 0) (fmt : List UInt8) :
    (lit ++ c :: fmt).head? ≠ some 0 := by
  cases lit with
  | nil => exact fun h0 => hc (Option.some.inj h0)
  | cons d lit =>
    intro h0
    obtain rfl := Option.some.inj h0
    exact absurd (hlit 0 List.mem_cons_self) (by decide)

/-- A specifier is one piece, with the characters before it. -/
theorem vsnPieces_specifier {fmt fmt₁ : List UInt8} {args args₁ args₂ : List (VsnArg δ)}
    {spec : FmtSpec} {t : UInt8} (hdecode : decodeFormat fmt args = some (spec, t :: fmt₁, args₁))
    {item : VsnItem} (hrender : renderSpecifier F t spec args₁ = some (item, args₂)) (fuel : Nat) :
    vsnPieces F (fuel + 1) (lit ++ '%'.toUInt8 :: fmt) args =
      (vsnPieces F fuel fmt₁ args₂).map fun r => (⟨lit, item⟩ :: r.1, r.2) := by
  obtain ⟨hdrop, htake⟩ := literal_split hlit (show isLiteral '%'.toUInt8 = false by decide) fmt
  rw [vsnPieces, if_neg (literal_head hlit (by decide) fmt), hdrop]
  simp only [if_neg (show ¬ '%'.toUInt8 = 0 by decide), hdecode, hrender, htake]

/-- A format without a specifier. -/
theorem vsnPieces_literal (args : List (VsnArg δ)) (fuel : Nat) :
    vsnPieces F (fuel + 1) (lit ++ [0]) args = some ([], lit) := by
  obtain ⟨hdrop, htake⟩ := literal_split hlit (show isLiteral 0 = false by decide) []
  rw [vsnPieces, hdrop]
  simp only [if_true, htake]
  split
  · rename_i hhead
    cases lit with
    | nil => rfl
    | cons c lit =>
      obtain rfl := Option.some.inj hhead
      exact absurd (hlit 0 List.mem_cons_self) (by decide)
  · rfl

end Literal

/-- **The pieces of the format** are those before the specifier, the specifier, and others. -/
theorem VsnReach.pieces {fmt lit fmt' fmt₁ : List UInt8} {args args' args₁ args₂ : List (VsnArg δ)}
    {ps : List VsnPiece} (h : VsnReach F fmt args ps lit fmt' args') {spec : FmtSpec} {t : UInt8}
    (hdecode : decodeFormat fmt' args' = some (spec, t :: fmt₁, args₁)) {item : VsnItem}
    (hrender : renderSpecifier F t spec args₁ = some (item, args₂)) :
    ∀ {fuel : Nat} {all : List VsnPiece} {last : List UInt8},
      vsnPieces F fuel fmt args = some (all, last) → ∃ qs, all = ps ++ ⟨lit, item⟩ :: qs := by
  induction h with
  | here hlit =>
    intro fuel all last hall
    cases fuel with
    | zero => cases hall
    | succ fuel =>
      rw [vsnPieces_specifier hlit hdecode hrender] at hall
      obtain ⟨r, -, heq⟩ := Option.map_eq_some_iff.mp hall
      exact ⟨r.1, (Prod.mk.inj heq).1.symm⟩
  | next hlit hdecode₁ hrender₁ _ ih =>
    intro fuel all last hall
    cases fuel with
    | zero => cases hall
    | succ fuel =>
      rw [vsnPieces_specifier hlit hdecode₁ hrender₁] at hall
      obtain ⟨r, hr, heq⟩ := Option.map_eq_some_iff.mp hall
      obtain ⟨rfl, rfl⟩ := Prod.mk.inj heq
      obtain ⟨qs, hqs⟩ := ih hdecode hr
      exact ⟨qs, congrArg _ hqs⟩

end Reach

/-! ## 3. Runs with room -/

/-- How many characters a specifier is to print: a string and its pads, where the pad in front makes
up for the string. -/
def VsnItem.due : VsnItem → Nat
  | .text cs => cs.length
  | .string before s after => max before s.length + after
  | .endless => 0

/-- How many characters are to be printed. -/
def vsnDue : List VsnPiece → List UInt8 → Nat
  | [], last => last.length
  | p :: ps, last => p.lit.length + p.item.due + vsnDue ps last

/-- **The buffer is sufficient**: all that is to be printed comes to an end, and before the end of the
buffer. -/
structure VsnRoom (lim : Nat) (ps : List VsnPiece) (last : List UInt8) : Prop where
  ends : ∀ p ∈ ps, p.item ≠ .endless
  room : vsnDue ps last < lim

section Run

variable {lim : Nat} {o : VsnOut} {ps : List VsnPiece} {last : List UInt8}

theorem VsnItem.advance_le_due (item : VsnItem) : item.advance ≤ item.due := by
  cases item with
  | text cs => exact Nat.le_refl _
  | string before s after => exact Nat.add_le_add_right (Nat.le_max_left _ _) after
  | endless => exact Nat.le_refl 0

theorem vsnTotal_le_due (last : List UInt8) : ∀ ps : List VsnPiece, vsnTotal ps last ≤ vsnDue ps last
  | [] => Nat.le_refl _
  | p :: ps => by
    have hitem := p.item.advance_le_due
    have hrest := vsnTotal_le_due last ps
    rw [vsnTotal, vsnDue]
    omega

theorem vsnTotal_append (last : List UInt8) (qs : List VsnPiece) : ∀ ps : List VsnPiece,
    vsnTotal (ps ++ qs) last = vsnTotal ps [] + vsnTotal qs last
  | [] => (Nat.zero_add _).symm
  | p :: ps => by
    rw [List.cons_append, vsnTotal, vsnTotal, vsnTotal_append last qs ps]
    omega

/-- The stores before the cursor are as they were. -/
def VsnOut.Keeps (o o' : VsnOut) : Prop :=
  o.buf ≤ o'.buf ∧ ∀ i < o.buf, o'.stores.lookup i = o.stores.lookup i

theorem VsnOut.Keeps.trans {o o' o'' : VsnOut} (h : o.Keeps o') (h' : o'.Keeps o'') : o.Keeps o'' :=
  ⟨Nat.le_trans h.1 h'.1, fun i hi => (h'.2 i (Nat.lt_of_lt_of_le hi h.1)).trans (h.2 i hi)⟩

theorem printn_lookup (cs : List UInt8) {i : Nat} (hi : i < o.buf) :
    (printn cs o).stores.lookup i = o.stores.lookup i := by
  have hnone : (((List.range cs.length).map (o.buf + ·)).zip cs).reverse.lookup i = none := by
    rw [List.lookup_eq_none_iff]
    intro p hp
    obtain ⟨k, -, hk⟩ := List.mem_map.mp (List.of_mem_zip (List.mem_reverse.mp hp)).1
    rw [bne_iff_ne]
    omega
  rw [printn, List.lookup_append, hnone, Option.none_or]

theorem printn_keeps (cs : List UInt8) (o : VsnOut) : o.Keeps (printn cs o) :=
  ⟨Nat.le_refl _, fun _ hi => printn_lookup cs hi⟩

/-- Characters that there is room for. -/
theorem sprints_room (lim : Nat) (cs : List UInt8) (o : VsnOut) (h : o.buf + cs.length ≤ lim) :
    (sprints lim cs o).buf = o.buf + cs.length ∧ o.Keeps (sprints lim cs o) := by
  have hbuf : (sprints lim cs o).buf = o.buf + cs.length := by
    rw [sprints_buf cs o (by omega)]
    omega
  refine ⟨hbuf, by omega, fun i hi => ?_⟩
  rw [lookup_sprints lim i cs o (by omega), if_neg (by omega)]

theorem printLiteral_room (tmp : List UInt8) (h : o.buf + tmp.length < lim) :
    ∃ o', printLiteral lim tmp o = .ok o' ∧ o'.buf = o.buf + tmp.length ∧ o.Keeps o' := by
  obtain ⟨o', ho'⟩ := printLiteral_ok tmp (show o.buf ≤ lim by omega)
  have hbuf := (printLiteral_buf ho').2
  rw [Nat.min_eq_left (by omega)] at hbuf
  refine ⟨o', ho', hbuf, by omega, fun i hi => ?_⟩
  unfold printLiteral at ho'
  rw [if_neg (by omega)] at ho'
  rw [← Except.ok.inj ho']
  exact printn_lookup _ hi

theorem printLiteral_nil (h : o.buf ≤ lim) : printLiteral lim [] o = .ok o := by
  rw [printLiteral, if_neg (Nat.not_lt.mpr h)]
  simp [printn]
  by_cases hfull : o.buf < lim
  · rw [if_pos hfull, Nat.add_zero]
  · rw [if_neg hfull, Nat.sub_eq_zero_of_le (Nat.le_of_not_lt hfull), Nat.add_zero]

theorem VsnItem.print_room {item : VsnItem} (hends : item ≠ .endless)
    (h : o.buf + item.advance ≤ lim) :
    ∃ o', item.print lim o = .ok o' ∧ o'.buf = o.buf + item.advance ∧ o.Keeps o' := by
  cases item with
  | text cs => exact ⟨_, rfl, sprints_room lim cs o h⟩
  | string before s after =>
    rw [VsnItem.advance] at h
    have hbefore : (spaces before).length = before := List.length_replicate
    have hafter : (spaces after).length = after := List.length_replicate
    obtain ⟨hbuf₁, hkeeps₁⟩ := sprints_room lim (spaces before) o (by omega)
    obtain ⟨hbuf₂, hkeeps₂⟩ := sprints_room lim (spaces after)
      (printn s (sprints lim (spaces before) o)) (by rw [printn_buf]; omega)
    refine ⟨_, rfl, ?_, (hkeeps₁.trans (printn_keeps _ _)).trans hkeeps₂⟩
    rw [hbuf₂, printn_buf, hbuf₁, hbefore, hafter, VsnItem.advance, Nat.add_assoc]
  | endless => exact absurd rfl hends

/-- **One piece**, with room for it. -/
theorem vsnRun_cons {p : VsnPiece} {o : VsnOut} (hends : p.item ≠ .endless)
    (h : o.buf + p.lit.length + p.item.advance < lim) :
    ∃ o₁ o₂, printLiteral lim p.lit o = .ok o₁ ∧ o₁.buf = o.buf + p.lit.length ∧
      p.item.print lim o₁ = .ok o₂ ∧ o₂.buf = o₁.buf + p.item.advance ∧ o.Keeps o₂ ∧
      ∀ ps last, vsnRun lim (p :: ps) last o = vsnRun lim ps last o₂ := by
  obtain ⟨o₁, ho₁, hbuf₁, hkeeps₁⟩ := printLiteral_room p.lit (show o.buf + p.lit.length < lim by omega)
  obtain ⟨o₂, ho₂, hbuf₂, hkeeps₂⟩ :=
    VsnItem.print_room hends (show o₁.buf + p.item.advance ≤ lim by omega)
  refine ⟨o₁, o₂, ho₁, hbuf₁, ho₂, hbuf₂, hkeeps₁.trans hkeeps₂, fun ps last => ?_⟩
  rw [vsnRun, ho₁]
  simp only [bind, Except.bind]
  rw [if_neg (by omega), ho₂]

/-- **A run with room** comes to its end, and leaves alone what has been written. -/
theorem vsnRun_room (last : List UInt8) : ∀ (ps : List VsnPiece) (o : VsnOut),
    (∀ p ∈ ps, p.item ≠ .endless) → o.buf + vsnTotal ps last < lim →
      ∃ o', vsnRun lim ps last o = .ok o' ∧ o'.buf = o.buf + vsnTotal ps last ∧ o.Keeps o'
  | [], o, _, h => by
    rw [vsnTotal] at h ⊢
    rw [vsnRun]
    split
    · rename_i hnil
      exact ⟨o, rfl, by rw [hnil]; rfl, Nat.le_refl _, fun _ _ => rfl⟩
    · exact printLiteral_room last h
  | p :: ps, o, hends, h => by
    rw [vsnTotal] at h ⊢
    obtain ⟨o₁, o₂, -, hbuf₁, -, hbuf₂, hkeeps, hrest⟩ := vsnRun_cons (hends p List.mem_cons_self)
      (show o.buf + p.lit.length + p.item.advance < lim by omega)
    obtain ⟨o', ho', hbuf', hkeeps'⟩ := vsnRun_room last ps o₂
      (fun q hq => hends q (List.mem_cons_of_mem _ hq)) (by omega)
    exact ⟨o', (hrest ps last).trans ho', by omega, hkeeps.trans hkeeps'⟩

/-- The pieces are printed one after another. -/
theorem vsnRun_append (qs : List VsnPiece) (last : List UInt8) : ∀ {ps : List VsnPiece} {o o' : VsnOut},
    (∀ p ∈ ps, p.item ≠ .endless) → o.buf + vsnTotal ps [] < lim → vsnRun lim ps [] o = .ok o' →
      vsnRun lim (ps ++ qs) last o = vsnRun lim qs last o'
  | [], o, o', _, _, h => by
    rw [vsnRun, if_pos rfl] at h
    rw [List.nil_append, Except.ok.inj h]
  | p :: ps, o, o', hends, hroom, h => by
    rw [vsnTotal] at hroom
    obtain ⟨o₁, o₂, -, hbuf₁, -, hbuf₂, -, hrest⟩ := vsnRun_cons (hends p List.mem_cons_self)
      (show o.buf + p.lit.length + p.item.advance < lim by omega)
    rw [hrest] at h
    rw [List.cons_append, hrest]
    exact vsnRun_append qs last (fun q hq => hends q (List.mem_cons_of_mem _ hq)) (by omega) h

theorem vsnDue_append (last : List UInt8) (qs : List VsnPiece) : ∀ ps : List VsnPiece,
    vsnDue (ps ++ qs) last = vsnDue ps [] + vsnDue qs last
  | [] => (Nat.zero_add _).symm
  | p :: ps => by
    rw [List.cons_append, vsnDue, vsnDue, vsnDue_append last qs ps]
    omega

/-- The terminator goes behind what has been printed. -/
theorem VsnOut.finish_keeps (h : o.buf ≤ lim) : o.Keeps (o.finish lim) := by
  have hstore : ∀ {j}, o.buf ≤ j → o.Keeps (o.store j 0) := by
    intro j hj
    refine ⟨Nat.le_refl _, fun i hi => ?_⟩
    rw [VsnOut.store, List.lookup_cons, beq_false_of_ne (by omega)]
  unfold VsnOut.finish
  split
  · exact ⟨Nat.le_refl _, fun _ _ => rfl⟩
  · split
    · exact hstore (Nat.le_refl _)
    · exact hstore h

end Run

/-! ## 4. What is printed -/

/-- **The field is at its place**, between the cursors before and behind the specifier with the number
`k`, when `vsnprintf` returns: `pieces` is what the format is made of, and `lit` stands before the
specifier. -/
def StrPrinted {δ : Type} (F : FloatOps δ) (str size : Nat) (fmt : List UInt8) (args : List (VsnArg δ))
    (pieces : List VsnPiece) (k : Nat) (lit field : List UInt8) : Prop :=
  ∃ before behind o n,
    vsnRun (vsnLimit str size) (pieces.take k) lit ⟨0, []⟩ = .ok before ∧
    vsnRun (vsnLimit str size) (pieces.take (k + 1)) [] ⟨0, []⟩ = .ok behind ∧
    vsnprintf F str size (some fmt) args = .ok (o, n) ∧
    behind.buf = before.buf + field.length ∧
    ∀ i < field.length, o.stores.lookup (before.buf + i) = field[i]?

section Printed

variable {lim : Nat} {o : VsnOut} {S : StrSpecifier} {s : List UInt8}

/-- How far the cursor moves, and how far it should. -/
theorem StrSpecifier.advance_item :
    (S.item s).due = (S.field s).length ∧ S.item s ≠ .endless ∧
      (S.item s).advance = if S.left then S.width.value - (S.cut s).length else S.width.value := by
  rw [S.length_field, StrSpecifier.item]
  split
  · refine ⟨?_, VsnItem.noConfusion, ?_⟩
    · rw [VsnItem.due]
      omega
    · rw [VsnItem.advance, Nat.zero_add]
  · exact ⟨rfl, VsnItem.noConfusion, rfl⟩

/-- The cursor is right where there is nothing to copy, or the pad is in front and wide enough. -/
theorem StrSpecifier.advance_eq_iff : (S.item s).advance = (S.field s).length ↔
    S.cut s = [] ∨ (S.left = false ∧ (S.cut s).length ≤ S.width.value) := by
  rw [S.advance_item.2.2, S.length_field, ← List.length_eq_zero_iff]
  cases S.left with
  | true =>
    rw [if_pos rfl]
    simp only [Bool.true_eq_false, false_and, or_false]
    omega
  | false =>
    rw [if_neg Bool.false_ne_true]
    simp only [true_and]
    omega

/-- Where the cursor is right, the place is blank. -/
theorem StrSpecifier.print_blank (h : (S.item s).advance = (S.field s).length) {o' : VsnOut}
    (hroom : o.buf + (S.item s).advance ≤ lim) (hprint : (S.item s).print lim o = .ok o') {i : Nat}
    (hi : i < (S.field s).length) :
    o'.stores.lookup (o.buf + i) = some ' '.toUInt8 := by
  have hpads : ∀ n {j}, j < n → (spaces n)[j]? = some ' '.toUInt8 := fun n j hj => by
    rw [spaces, List.getElem?_replicate, if_pos hj]
  have hlen : ∀ n, (spaces n).length = n := fun n => List.length_replicate
  rw [← h] at hi
  unfold StrSpecifier.item at hprint hroom hi
  cases hleft : S.left with
  | true =>
    -- there is nothing to copy, and the pad is behind
    rw [hleft, if_pos rfl] at hprint hroom hi
    have hnil : S.cut s = [] := by
      rcases S.advance_eq_iff.mp h with hnil | ⟨hfalse, -⟩
      · exact hnil
      · rw [hleft] at hfalse
        cases hfalse
    rw [VsnItem.advance, Nat.zero_add] at hroom hi
    obtain rfl := Except.ok.inj hprint
    rw [hnil] at hroom hi ⊢
    have hnone : printn [] (sprints lim (spaces 0) o) = o := by
      simp [printn, sprints, spaces]
    rw [hnone, lookup_sprints lim _ _ o (by rw [hlen]; omega), hlen, if_pos (by omega),
      Nat.add_sub_cancel_left]
    exact hpads _ hi
  | false =>
    rw [hleft, if_neg Bool.false_ne_true] at hprint hroom hi
    rw [VsnItem.advance, Nat.add_zero] at hroom hi
    obtain rfl := Except.ok.inj hprint
    have hbuf := (sprints_room lim (spaces S.width.value) o (by rw [hlen]; exact hroom)).1
    rw [hlen] at hbuf
    have hback : (sprints lim (spaces 0) (printn (S.cut s) (sprints lim (spaces S.width.value) o))).stores =
        (printn (S.cut s) (sprints lim (spaces S.width.value) o)).stores := rfl
    rw [hback, printn_lookup _ (by omega), lookup_sprints lim _ _ o (by rw [hlen]; omega), hlen,
      if_pos (by omega), Nat.add_sub_cancel_left]
    exact hpads _ hi

/-- The field is blank if the string is. -/
theorem StrSpecifier.field_blank_iff (h : (S.item s).advance = (S.field s).length) :
    (∀ i < (S.field s).length, (S.field s)[i]? = some ' '.toUInt8) ↔ S.Blank s := by
  have hall : (∀ i < (S.field s).length, (S.field s)[i]? = some ' '.toUInt8) ↔
      ∀ c ∈ S.field s, c = ' '.toUInt8 := by
    constructor
    · intro hget c hc
      obtain ⟨i, hi, rfl⟩ := List.mem_iff_getElem.mp hc
      have hi' := hget i hi
      rw [List.getElem?_eq_getElem hi] at hi'
      exact Option.some.inj hi'
    · intro hmem i hi
      rw [List.getElem?_eq_getElem hi, hmem _ (List.getElem_mem hi)]
  have hfield : (∀ c ∈ S.field s, c = ' '.toUInt8) ↔ ∀ c ∈ S.cut s, c = ' '.toUInt8 := by
    have hpad : ∀ n, ∀ c ∈ spaces n, c = ' '.toUInt8 := fun n c hc => List.eq_of_mem_replicate hc
    unfold StrSpecifier.field
    dsimp only
    split
    · exact ⟨fun hmem c hc => hmem c (List.mem_append_left _ hc),
        fun hmem c hc => (List.mem_append.mp hc).elim (hmem c) (hpad _ c)⟩
    · exact ⟨fun hmem c hc => hmem c (List.mem_append_right _ hc),
        fun hmem c hc => (List.mem_append.mp hc).elim (hpad _ c) (hmem c)⟩
  rw [hall, hfield, StrSpecifier.Blank]
  rcases S.advance_eq_iff.mp h with hnil | ⟨hleft, hle⟩
  · refine iff_of_true ?_ (.inl hnil)
    rw [hnil]
    exact fun c hc => absurd hc List.not_mem_nil
  · refine ⟨fun hmem => .inr ⟨hleft, hle, hmem⟩, fun hblank => ?_⟩
    rcases hblank with hnil | ⟨-, -, hmem⟩
    · rw [hnil]
      exact fun c hc => absurd hc List.not_mem_nil
    · exact hmem

end Printed

/-- **A string conversion prints its field** exactly where the string comes out as the pad that it is
printed behind: it is cut to nothing, or made of blanks that fit the width. -/
theorem strPrinted_iff {δ : Type} {F : FloatOps δ} {str size : Nat} (S : StrSpecifier)
    {s fmt lit rest last : List UInt8} {args args' : List (VsnArg δ)} {ps pieces : List VsnPiece}
    (hreach : VsnReach F fmt args ps lit (S.format rest) (S.args s args'))
    (hmatch : vsnPieces F (fmt.length + 1) fmt args = some (pieces, last))
    (hroom : VsnRoom (vsnLimit str size) pieces last) :
    StrPrinted F str size fmt args pieces ps.length lit (S.field s) ↔ S.Blank s := by
  obtain ⟨qs, rfl⟩ := hreach.pieces (S.decodeFormat_eq s rest args') (S.renderSpecifier_eq F s args') hmatch
  obtain ⟨hdue, hends, -⟩ := S.advance_item (s := s)
  have hadvance := (S.item s).advance_le_due
  generalize hlim : vsnLimit str size = lim at hroom
  -- the pieces before the specifier, the specifier, and those behind it
  have hends₁ : ∀ p ∈ ps, p.item ≠ .endless := fun p hp =>
    hroom.ends p (List.mem_append_left _ hp)
  have hends₂ : ∀ p ∈ qs, p.item ≠ .endless := fun p hp =>
    hroom.ends p (List.mem_append_right _ (List.mem_cons_of_mem _ hp))
  have hsum := hroom.room
  rw [vsnDue_append, vsnDue] at hsum
  dsimp only at hsum
  have htotal₁ := vsnTotal_le_due [] ps
  have htotal₂ := vsnTotal_le_due last qs
  have hroom₁ : 0 + vsnTotal ps [] < lim := by omega
  obtain ⟨o₀, ho₀, hbuf₀, -⟩ := vsnRun_room [] ps ⟨0, []⟩ hends₁ hroom₁
  dsimp only at hbuf₀
  obtain ⟨o₁, o₂, ho₁, hbuf₁, hprint, hbuf₂, -, hrest⟩ := vsnRun_cons (p := ⟨lit, S.item s⟩) hends
    (show o₀.buf + lit.length + (S.item s).advance < lim by omega)
  dsimp only at ho₁ hbuf₁ hprint hbuf₂
  obtain ⟨o₃, ho₃, hbuf₃, hkeeps⟩ := vsnRun_room last qs o₂ hends₂ (show _ < lim by omega)
  have hsplit := fun qs last => vsnRun_append qs last hends₁ hroom₁ ho₀
  have hbefore : vsnRun lim ps lit ⟨0, []⟩ = .ok o₁ := by
    have hlit := hsplit [] lit
    rw [List.append_nil, vsnRun] at hlit
    rw [hlit, ← ho₁]
    split
    · rename_i hnil
      rw [hnil, printLiteral_nil (by omega)]
    · rfl
  have hbehind : vsnRun lim (ps ++ [⟨lit, S.item s⟩]) [] ⟨0, []⟩ = .ok o₂ := by
    rw [hsplit, hrest, vsnRun, if_pos rfl]
  have hresult : vsnprintf F str size (some fmt) args = .ok (o₃.finish lim, o₃.buf) := by
    rw [vsnprintf_eq hmatch, hlim, hsplit, hrest, ho₃]
    rfl
  have hkept : ∀ i < o₂.buf, (o₃.finish lim).stores.lookup i = o₂.stores.lookup i :=
    (hkeeps.trans (VsnOut.finish_keeps (by omega))).2
  have hplace : ∀ i < (S.field s).length, (S.item s).advance = (S.field s).length →
      (o₃.finish lim).stores.lookup (o₁.buf + i) = some ' '.toUInt8 := by
    intro i hi heq
    rw [hkept _ (by omega)]
    exact S.print_blank heq (by omega) hprint hi
  have htake₁ : (ps ++ ⟨lit, S.item s⟩ :: qs).take ps.length = ps := List.take_left
  have htake₂ : (ps ++ ⟨lit, S.item s⟩ :: qs).take (ps.length + 1) = ps ++ [⟨lit, S.item s⟩] := by
    rw [List.take_append, List.take_of_length_le (Nat.le_succ _), Nat.add_sub_cancel_left]
    rfl
  unfold StrPrinted
  rw [hlim, htake₁, htake₂]
  constructor
  · rintro ⟨before, behind, o, n, hrun₁, hrun₂, hret, hcursor, hfield⟩
    obtain rfl := Except.ok.inj (hbefore.symm.trans hrun₁)
    obtain rfl := Except.ok.inj (hbehind.symm.trans hrun₂)
    obtain ⟨rfl, rfl⟩ := Prod.mk.inj (Except.ok.inj (hresult.symm.trans hret))
    have heq : (S.item s).advance = (S.field s).length := by omega
    exact (S.field_blank_iff heq).mp fun i hi => (hfield i hi).symm.trans (hplace i hi heq)
  · intro hblank
    have heq : (S.item s).advance = (S.field s).length :=
      S.advance_eq_iff.mpr (hblank.imp_right fun h => ⟨h.1, h.2.1⟩)
    refine ⟨o₁, o₂, _, _, hbefore, hbehind, hresult, by omega, fun i hi => ?_⟩
    rw [hplace i hi heq, (S.field_blank_iff heq).mpr hblank i hi]

/-- A string conversion between characters that are copied -/
theorem vsnPieces_string {δ : Type} (F : FloatOps δ) (S : StrSpecifier) (s : List UInt8)
    {lit post : List UInt8} (hlit : ∀ c ∈ lit, isLiteral c = true)
    (hpost : ∀ c ∈ post, isLiteral c = true) (args : List (VsnArg δ)) (fuel : Nat) :
    vsnPieces F (fuel + 2) (lit ++ '%'.toUInt8 :: S.format (post ++ [0])) (S.args s args) =
      some ([⟨lit, S.item s⟩], post) := by
  rw [vsnPieces_specifier hlit (S.decodeFormat_eq s _ args) (S.renderSpecifier_eq F s args),
    vsnPieces_literal hpost]
  rfl

/-- There is room for it. -/
theorem vsnRoom_string {S : StrSpecifier} {s lit post : List UInt8} {lim : Nat}
    (h : lit.length + (S.field s).length + post.length < lim) : VsnRoom lim [⟨lit, S.item s⟩] post where
  ends p hp := by
    rw [List.mem_singleton.mp hp]
    exact S.advance_item.2.1
  room := by
    rw [vsnDue, vsnDue, S.advance_item.1]
    exact h

/-- `%6s` -/
def sixWideStr : StrSpecifier where
  flags := []
  width := .number 6
  prec := .none
  flags_mem c hc := absurd hc List.not_mem_nil
  width_number := by
    rintro w h
    cases h
    decide
  prec_digits := by
    rintro ds h
    cases h

/-- `%s` -/
def plainStr : StrSpecifier where
  flags := []
  width := .none
  prec := .none
  flags_mem c hc := absurd hc List.not_mem_nil
  width_number := by
    rintro w h
    cases h
  prec_digits := by
    rintro ds h
    cases h

/-- Two blanks in a field of six, between brackets, are where they should be; three letters are not. -/
theorem strPrinted_iff_sixWide :
    StrPrinted noFloats 0x40000000 64 (['['.toUInt8] ++ '%'.toUInt8 :: sixWideStr.format [']'.toUInt8, 0])
        (sixWideStr.args (spaces 2) []) [⟨['['.toUInt8], sixWideStr.item (spaces 2)⟩] 0 ['['.toUInt8]
        (sixWideStr.field (spaces 2)) ∧
      ¬ StrPrinted noFloats 0x40000000 64
        (['['.toUInt8] ++ '%'.toUInt8 :: sixWideStr.format [']'.toUInt8, 0])
        (sixWideStr.args [97, 98, 99] []) [⟨['['.toUInt8], sixWideStr.item [97, 98, 99]⟩] 0 ['['.toUInt8]
        (sixWideStr.field [97, 98, 99]) := by
  have hopen : ∀ c ∈ ['['.toUInt8], isLiteral c = true := by decide +kernel
  have hclose : ∀ c ∈ [']'.toUInt8], isLiteral c = true := by decide +kernel
  constructor
  · exact (strPrinted_iff sixWideStr (.here hopen) (vsnPieces_string noFloats sixWideStr (spaces 2) hopen
      hclose [] _) (vsnRoom_string (by decide +kernel))).mpr (by decide +kernel)
  · exact mt (strPrinted_iff sixWideStr (.here hopen) (vsnPieces_string noFloats sixWideStr [97, 98, 99]
      hopen hclose [] _) (vsnRoom_string (by decide +kernel))).mp (by decide +kernel)

/-- **The string is overwritten** by what comes behind it: `%s` does not move the cursor. -/
theorem strPrinted_lost : ¬ ∀ (S : StrSpecifier) (s lit post : List UInt8),
    (∀ c ∈ lit, isLiteral c = true) → (∀ c ∈ post, isLiteral c = true) →
      VsnRoom 64 [⟨lit, S.item s⟩] post →
        StrPrinted noFloats 0x40000000 64 (lit ++ '%'.toUInt8 :: S.format (post ++ [0])) (S.args s [])
          [⟨lit, S.item s⟩] 0 lit (S.field s) := by
  intro hall
  obtain ⟨before, behind, -, -, hbefore, hbehind, -, hcursor, -⟩ :=
    hall plainStr [97, 98, 99] [] [']'.toUInt8] (by decide +kernel) (by decide +kernel) (vsnRoom_string (by decide +kernel))
  have hrun : ∃ stores, vsnRun (vsnLimit 0x40000000 64) [⟨[], plainStr.item [97, 98, 99]⟩] [] ⟨0, []⟩ =
      .ok ⟨0, stores⟩ := ⟨_, rfl⟩
  obtain ⟨stores, hrun⟩ := hrun
  obtain rfl := Except.ok.inj (hrun.symm.trans hbehind)
  have hlen : (plainStr.field [97, 98, 99]).length = 3 := rfl
  dsimp only at hcursor
  omega

end FlightOs
