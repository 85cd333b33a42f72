/-
# When a sysctl path leads to its object

A lookup compares prefixes: it takes the first object of a list whose name the rest of the path begins
with, goes on where no name does, and stops at the first object that is no set, whatever is behind it.  At
a set it searches for another delimiter, and behind the last one that search leaves the string.

So on the components of a path the lookup is `walk`, and it is right if and only if it walks straight to an
object that was cleared, or there is nothing at that path and it does get lost (`sysctl_lookup_iff`).
-/
import FlightOs.Sysctl.Tree

namespace FlightOs

variable {s : Sysctl} {stack : List UInt8} {d root o : Nat} {x : SysObj} {name c t path : List UInt8}
  {cs : List (List UInt8)}

/-! ## 1. Components -/

/-- A path of these components. -/
def pathString (cs : List (List UInt8)) : List UInt8 := cs.flatMap (slash :: ·)

theorem split_cons (a : UInt8) (t : List UInt8) :
    (a :: t).splitOn slash =
      if a = slash then [] :: t.splitOn slash else (t.splitOn slash).modifyHead (a :: ·) := by
  rw [List.splitOn_eq_splitOnP, List.splitOnP_cons_eq_if_modifyHead, ← List.splitOn_eq_splitOnP]
  simp only [beq_iff_eq]

theorem split_eq_cons (t : List UInt8) : ∃ c cs, t.splitOn slash = c :: cs := by
  refine List.exists_cons_of_ne_nil ?_
  rw [List.splitOn_eq_splitOnP]
  exact List.splitOnP_ne_nil _ t

/-- There is another component where there is a delimiter. -/
theorem split_of_mem (h : t.splitOn slash = c :: cs) : slash ∈ t ↔ cs ≠ [] := by
  induction t generalizing c cs with
  | nil =>
    rw [List.splitOn_nil] at h
    obtain ⟨-, rfl⟩ := List.cons_eq_cons.mp h
    exact ⟨fun hmem => absurd hmem List.not_mem_nil, fun hne => absurd rfl hne⟩
  | cons a t ih =>
    obtain ⟨c', cs', hsplit⟩ := split_eq_cons t
    rw [split_cons, hsplit] at h
    split at h
    · next ha =>
      obtain ⟨-, rfl⟩ := List.cons_eq_cons.mp h
      rw [ha]
      exact ⟨fun _ => List.cons_ne_nil _ _, fun _ => List.mem_cons_self⟩
    · next ha =>
      obtain ⟨-, rfl⟩ := List.cons_eq_cons.mp h
      rw [List.mem_cons, ih hsplit]
      exact or_iff_right (Ne.symm ha)

/-- A name without delimiters begins a string if it begins its first component. -/
theorem prefix_split (hname : slash ∉ name) (h : t.splitOn slash = c :: cs) :
    name <+: t ↔ name <+: c := by
  induction t generalizing name c cs with
  | nil =>
    rw [List.splitOn_nil] at h
    obtain ⟨rfl, -⟩ := List.cons_eq_cons.mp h
    rfl
  | cons a t ih =>
    obtain ⟨c', cs', hsplit⟩ := split_eq_cons t
    rw [split_cons, hsplit] at h
    cases name with
    | nil => exact ⟨fun _ => List.nil_prefix, fun _ => List.nil_prefix⟩
    | cons b name =>
      obtain ⟨hb, hname⟩ := not_or.mp (mt List.mem_cons.mpr hname)
      split at h
      · next ha =>
        obtain ⟨rfl, -⟩ := List.cons_eq_cons.mp h
        rw [List.cons_prefix_cons, ha]
        exact ⟨fun hp => absurd hp.1.symm hb, fun hp => absurd (List.prefix_nil.mp hp) (List.cons_ne_nil _ _)⟩
      · obtain ⟨rfl, -⟩ := List.cons_eq_cons.mp h
        rw [List.cons_prefix_cons, List.cons_prefix_cons, ih hname hsplit]

/-- A path has its components, behind an empty one. -/
theorem split_pathString (h : ∀ c ∈ cs, slash ∉ c) : (pathString cs).splitOn slash = [] :: cs := by
  induction cs with
  | nil => exact List.splitOn_nil slash
  | cons c cs ih =>
    obtain ⟨hc, h⟩ := List.forall_mem_cons.mp h
    have hsep : ∀ a ∈ c, (a == slash) = false := fun a ha => beq_false_of_ne (ne_of_mem_of_not_mem ha hc)
    have hrest : (c ++ pathString cs).splitOn slash = c :: cs := by
      cases cs with
      | nil =>
        rw [pathString, List.flatMap_nil, List.append_nil, List.splitOn_eq_splitOnP]
        exact List.splitOnP_eq_singleton hsep
      | cons c' cs =>
        have htail := ih h
        rw [pathString, List.flatMap_cons, List.cons_append] at htail ⊢
        rw [split_cons, if_pos rfl] at htail
        rw [List.splitOn_eq_splitOnP, List.splitOnP_append_cons_of_forall_mem hsep slash
          (beq_self_eq_true slash), ← List.splitOn_eq_splitOnP, (List.cons_eq_cons.mp htail).2]
    rw [pathString, List.flatMap_cons, List.cons_append, split_cons, if_pos rfl]
    exact congrArg ([] :: ·) hrest

/-- What `strsep` leaves are the other components. -/
theorem strsep_split (t : List UInt8) :
    (t.splitOn slash).tail = ((strsep t).map fun t => t.splitOn slash).getD [] := by
  induction t with
  | nil => rw [List.splitOn_nil]; rfl
  | cons a t ih =>
    rw [split_cons, strsep]
    split
    · rfl
    · obtain ⟨c, cs, hsplit⟩ := split_eq_cons t
      rw [hsplit] at ih ⊢
      exact ih

/-! ## 2. Objects by their paths -/

/-- The object with the number `o` is at these names below a set. -/
inductive PathTo (s : Sysctl) : Nat → List (List UInt8) → Nat → Prop
  | here {d : Nat} {x : SysObj} {c : List UInt8} (hx : x ∈ s.list d) (hname : x.name = some c) :
      PathTo s d [c] x.id
  | step {d o : Nat} {x : SysObj} {c : List UInt8} {cs : List (List UInt8)} (hx : x ∈ s.list d)
      (hname : x.name = some c) (hset : x.child = .set) (h : PathTo s x.id cs o) : PathTo s d (c :: cs) o

/-- The path of an object below the root. -/
def IsPath (s : Sysctl) (root : Nat) (path : List UInt8) (o : Nat) : Prop :=
  ∃ r cs, s.name root = some r ∧ PathTo s root cs o ∧ path = pathString (r :: cs)

/-- **The object of a path is found**, there is none for any other text, and no wild pointer is read. -/
structure FindsPath (s : Sysctl) (root : Nat) (path : List UInt8) (r : SysFound) : Prop where
  inside : r.wild = false
  found : ∀ o, r.ret = some o ↔ IsPath s root path o

/-- The names in a tree are strings, not empty, without delimiters, and those in a list are distinct. -/
structure SysNames (s : Sysctl) (root : Nat) : Prop where
  named : ∀ d, ∀ x ∈ s.list d, ∃ c, x.name = some c ∧ c ≠ [] ∧ slash ∉ c
  distinct : ∀ d, ∀ x ∈ s.list d, ∀ y ∈ s.list d, x.name = y.name → x = y
  root : ∃ r, s.name root = some r ∧ r ≠ [] ∧ slash ∉ r

/-! ## 3. What the code asks for -/

/-- The object's name begins the component. -/
def Begins (c : List UInt8) (x : SysObj) : Bool := x.name.any fun name => name.isPrefixOf c

/-- The first object of a list whose name begins a component. -/
def firstBegins (s : Sysctl) (d : Nat) (c : List UInt8) : Option SysObj := (s.list d).find? (Begins c)

/-- No component but those of sets, with others behind them, is begun by a name: the walk gets lost. -/
inductive Lost (s : Sysctl) : Nat → List (List UInt8) → Prop
  | nil {d : Nat} : Lost s d []
  | skip {d : Nat} {c : List UInt8} {cs : List (List UInt8)} (hno : firstBegins s d c = none)
      (h : Lost s d cs) : Lost s d (c :: cs)
  | enter {d : Nat} {c : List UInt8} {cs : List (List UInt8)} {x : SysObj}
      (hx : firstBegins s d c = some x) (hset : x.child = .set) (hne : cs ≠ []) (h : Lost s x.id cs) :
      Lost s d (c :: cs)

/-- Each component is a name, and no name before it in the list begins it; the last is that of an object
that was cleared. -/
inductive Straight (s : Sysctl) : Nat → List (List UInt8) → Nat → Prop
  | here {d : Nat} {c : List UInt8} {x : SysObj} (hx : firstBegins s d c = some x)
      (hname : x.name = some c) (hnull : x.child = .null) : Straight s d [c] x.id
  | step {d o : Nat} {c : List UInt8} {cs : List (List UInt8)} {x : SysObj}
      (hx : firstBegins s d c = some x) (hname : x.name = some c) (hset : x.child = .set)
      (h : Straight s x.id cs o) : Straight s d (c :: cs) o

/-- The paths whose lookup is right. -/
inductive LookupClean (s : Sysctl) (root : Nat) (path : List UInt8) : Prop
  | empty (h : path = [])
  | other (r c₀ c₁ : List UInt8) (cs : List (List UInt8)) (hroot : s.name root = some r)
      (h : path.splitOn slash = c₀ :: c₁ :: cs) (hno : ¬ r <+: c₁)
  | lost (c₀ c₁ : List UInt8) (cs : List (List UInt8)) (h : path.splitOn slash = c₀ :: c₁ :: cs)
      (hlost : Lost s root cs) (hno : ∀ o, ¬ IsPath s root path o)
  | straight (r : List UInt8) (cs : List (List UInt8)) (o : Nat) (hroot : s.name root = some r)
      (h : path = pathString (r :: cs)) (hpath : Straight s root cs o)

/-! ## 4. The walk -/

/-- The lookup on the components; `none` is one that has read where it must not. -/
def walk (s : Sysctl) : Nat → List (List UInt8) → Option (Option Nat)
  | _, [] => some none
  | d, c :: cs =>
    match firstBegins s d c with
    | none => walk s d cs
    | some x =>
      if x.child = .null then some (some x.id)
      else if cs = [] then none
      else if x.child = .junk then none
      else walk s x.id cs

/-- What a lookup returns, unless it was wild. -/
def SysFound.inside (r : SysFound) : Option (Option Nat) := if r.wild then none else some r.ret

theorem findEntry_eq (hnames : ∀ x ∈ s.list d, ∃ c, x.name = some c ∧ c ≠ [] ∧ slash ∉ c)
    (h : t.splitOn slash = c :: cs) : findEntry t (s.list d) = some (firstBegins s d c) := by
  unfold firstBegins
  generalize s.list d = xs at hnames ⊢
  induction xs with
  | nil => rfl
  | cons x xs ih =>
    obtain ⟨⟨name, hname, -, hfree⟩, hnames⟩ := List.forall_mem_cons.mp hnames
    have hbegins : Begins c x = name.isPrefixOf t := by
      rw [Begins, hname, Option.any_some, Bool.eq_iff_iff, List.isPrefixOf_iff_prefix,
        List.isPrefixOf_iff_prefix, prefix_split hfree h]
    rw [findEntry, hname, List.find?_cons, hbegins]
    dsimp only
    cases name.isPrefixOf t with
    | false => exact ih hnames
    | true => rfl

/-- **The loop walks along the components.** -/
theorem findFrom_walk (hnames : SysNames s root) (stack t : List UInt8) :
    (findFrom s stack d t).inside = walk s d (t.splitOn slash).tail := by
  induction t generalizing d with
  | nil => rw [List.splitOn_nil]; rfl
  | cons a t ih =>
    obtain ⟨c, cs, hsplit⟩ := split_eq_cons t
    rw [split_cons, findFrom]
    by_cases ha : a = slash
    · have hmem := split_of_mem hsplit
      rw [if_neg (not_not.mpr ha), if_pos ha, findEntry_eq (hnames.named d) hsplit, List.tail_cons, hsplit,
        walk]
      rw [hsplit] at ih
      cases hfirst : firstBegins s d c with
      | none => exact ih
      | some x =>
        dsimp only
        split
        · rfl
        · by_cases hlast : slash ∈ t
          · rw [if_neg (not_not.mpr hlast), if_neg (hmem.mp hlast)]
            split
            · rfl
            · exact ih
          · rw [if_pos hlast, if_pos (not_not.mp (mt hmem.mpr hlast))]
            rfl
    · rw [if_pos ha, if_neg ha, ih, hsplit]
      rfl

theorem walk_lost : walk s d cs = some none ↔ Lost s d cs := by
  constructor
  · intro h
    induction cs generalizing d with
    | nil => exact .nil
    | cons c cs ih =>
      rw [walk] at h
      cases hfirst : firstBegins s d c with
      | none =>
        rw [hfirst] at h
        exact .skip hfirst (ih h)
      | some x =>
        simp only [hfirst] at h
        rcases hchild : x.child with _ | _ | _
        · rw [if_pos hchild] at h
          exact absurd (Option.some.inj h) (Option.some_ne_none _)
        · rw [hchild, if_neg (by decide)] at h
          split at h
          · exact absurd h.symm (Option.some_ne_none _)
          · next hne =>
            rw [if_neg (by decide)] at h
            exact .enter hfirst hchild hne (ih h)
        · rw [hchild, if_neg (by decide), if_pos rfl, ite_self] at h
          exact absurd h.symm (Option.some_ne_none _)
  · intro h
    induction h with
    | nil => rfl
    | skip hno _ ih =>
      rw [walk, hno]
      exact ih
    | enter hx hset hne _ ih =>
      rw [walk, hx]
      dsimp only
      rw [hset, if_neg (by decide), if_neg hne, if_neg (by decide)]
      exact ih

theorem walk_straight (h : Straight s d cs o) : walk s d cs = some (some o) := by
  induction h with
  | here hx hname hnull =>
    rw [walk, hx]
    exact if_pos hnull
  | step hx hname hset h ih =>
    have hne : ∀ {d cs o}, Straight s d cs o → cs ≠ [] := by
      intro d cs o h
      cases h with
      | here => exact List.cons_ne_nil _ _
      | step => exact List.cons_ne_nil _ _
    rw [walk, hx]
    dsimp only
    rw [hset, if_neg (by decide), if_neg (hne h), if_neg (by decide)]
    exact ih

/-! ## 5. When it is right -/

theorem firstBegins_mem (h : firstBegins s d c = some x) : x ∈ s.list d := List.mem_of_find?_eq_some h

/-- An object is begun by its own name, so there is a first one. -/
theorem firstBegins_of_mem (hx : x ∈ s.list d) (hname : x.name = some c) :
    ∃ y, firstBegins s d c = some y := by
  refine Option.isSome_iff_exists.mp (List.find?_isSome.mpr ⟨x, hx, ?_⟩)
  rw [Begins, hname, Option.any_some, List.isPrefixOf_iff_prefix]

theorem PathTo.isBelow (h : PathTo s d cs o) : Below s d o := by
  induction h with
  | here hx => exact .here hx
  | step hx _ _ _ ih => exact .step hx ih

theorem walk_below (h : walk s d cs = some (some o)) : Below s d o := by
  induction cs generalizing d with
  | nil => exact absurd (Option.some.inj h).symm (Option.some_ne_none o)
  | cons c cs ih =>
    rw [walk] at h
    cases hfirst : firstBegins s d c with
    | none =>
      rw [hfirst] at h
      exact ih h
    | some y =>
      simp only [hfirst] at h
      split at h
      · obtain rfl := Option.some.inj (Option.some.inj h)
        exact .here (firstBegins_mem hfirst)
      · split at h
        · exact absurd h.symm (Option.some_ne_none _)
        · split at h
          · exact absurd h.symm (Option.some_ne_none _)
          · exact .step (firstBegins_mem hfirst) (ih h)

/-- **A walk that ends at the object of its path is straight**: below another object of a list there is
nothing of what is below the one that the path goes by. -/
theorem straight_of_walk (htree : SysTree s) (hp : PathTo s d cs o)
    (hw : walk s d cs = some (some o)) : Straight s d cs o := by
  induction hp with
  | here hx hname =>
    obtain ⟨y, hfirst⟩ := firstBegins_of_mem hx hname
    simp only [walk, hfirst] at hw
    split at hw
    · next hnull =>
      have hid := Option.some.inj (Option.some.inj hw)
      obtain ⟨-, rfl⟩ := htree.unique _ _ y (firstBegins_mem hfirst) _ hx hid
      exact .here hfirst hname hnull
    · rw [if_pos trivial] at hw
      exact absurd hw.symm (Option.some_ne_none _)
  | step hx hname hset h ih =>
    obtain ⟨y, hfirst⟩ := firstBegins_of_mem hx hname
    have hy := firstBegins_mem hfirst
    simp only [walk, hfirst] at hw
    split at hw
    · next hnull =>
      have hid := Option.some.inj (Option.some.inj hw)
      obtain rfl := htree.apart hx hy (.inr h.isBelow) (.inl hid.symm)
      exact absurd (hset.symm.trans hnull) (by decide)
    · split at hw
      · exact absurd hw.symm (Option.some_ne_none _)
      · split at hw
        · exact absurd hw.symm (Option.some_ne_none _)
        · obtain rfl := htree.apart hx hy (.inr h.isBelow) (.inr (walk_below hw))
          exact .step hfirst hname hset (ih hw)

theorem Straight.pathTo (h : Straight s d cs o) : PathTo s d cs o := by
  induction h with
  | here hx hname => exact .here (firstBegins_mem hx) hname
  | step hx hname hset _ ih => exact .step (firstBegins_mem hx) hname hset ih

/-- The components of a path are names. -/
theorem PathTo.free (hnames : SysNames s root) (h : PathTo s d cs o) : ∀ c ∈ cs, slash ∉ c := by
  have hname : ∀ {d : Nat} {x : SysObj} {c : List UInt8}, x ∈ s.list d → x.name = some c → slash ∉ c := by
    intro d x c hx hname
    obtain ⟨c', hname', -, hfree⟩ := hnames.named d x hx
    obtain rfl := Option.some.inj (hname.symm.trans hname')
    exact hfree
  induction h with
  | here hx hc =>
    intro c' hmem
    rw [List.mem_singleton.mp hmem]
    exact hname hx hc
  | step hx hc _ _ ih => exact List.forall_mem_cons.mpr ⟨hname hx hc, ih⟩

/-- There is one object at a path. -/
theorem PathTo.unique (hnames : SysNames s root) {o' : Nat} (h : PathTo s d cs o) (h' : PathTo s d cs o') :
    o = o' := by
  induction h generalizing o' with
  | here hx hname =>
    cases h' with
    | here hx' hname' => rw [hnames.distinct _ _ hx _ hx' (hname.trans hname'.symm)]
    | step _ _ _ h' => cases h'
  | step hx hname _ h ih =>
    cases h' with
    | here => cases h
    | step hx' hname' _ h' =>
      obtain rfl := hnames.distinct _ _ hx _ hx' (hname.trans hname'.symm)
      exact ih h'

/-- The components of an object's path. -/
theorem IsPath.split (hnames : SysNames s root) (h : IsPath s root path o) :
    ∃ r cs, s.name root = some r ∧ PathTo s root cs o ∧ path = pathString (r :: cs) ∧
      path.splitOn slash = [] :: r :: cs := by
  obtain ⟨r, cs, hroot, hp, rfl⟩ := h
  obtain ⟨r', hroot', -, hfree⟩ := hnames.root
  obtain rfl := Option.some.inj (hroot.symm.trans hroot')
  exact ⟨r, cs, hroot, hp, rfl, split_pathString (List.forall_mem_cons.mpr ⟨hfree, hp.free hnames⟩)⟩

/-- A lookup that is not wild. -/
theorem SysFound.inside_eq {r : SysFound} {ret : Option Nat} :
    r.inside = some ret ↔ r.wild = false ∧ r.ret = ret := by
  unfold SysFound.inside
  cases r.wild with
  | true => exact ⟨fun h => absurd h.symm (Option.some_ne_none ret), fun h => absurd h.1.symm Bool.false_ne_true⟩
  | false => exact ⟨fun h => ⟨rfl, Option.some.inj h⟩, fun h => congrArg some h.2⟩

/-- The lookup of a string that has a delimiter. -/
theorem syssetFindObj_split (hnames : SysNames s root) (hlen : path.length < sysctlMaxPathLen)
    {r c₀ c₁ : List UInt8} (hroot : s.name root = some r)
    (hsplit : path.splitOn slash = c₀ :: c₁ :: cs) :
    (syssetFindObj s stack root path).inside = if r <+: c₁ then walk s root cs else some none := by
  have hmem := (split_of_mem hsplit).mpr (List.cons_ne_nil _ _)
  have hne : path ≠ [] := List.ne_nil_of_mem hmem
  obtain ⟨r', hroot', -, hfree⟩ := hnames.root
  obtain rfl := Option.some.inj (hroot.symm.trans hroot')
  have hsep := strsep_split path
  rw [hsplit, List.tail_cons] at hsep
  rw [syssetFindObj, if_neg hne, if_neg (by omega), hroot]
  cases htok : strsep path with
  | none =>
    rw [htok] at hsep
    exact absurd hsep (List.cons_ne_nil _ _)
  | some token =>
    rw [htok, Option.map_some, Option.getD_some] at hsep
    dsimp only
    have hpre : r.isPrefixOf token = true ↔ r <+: c₁ := by
      rw [List.isPrefixOf_iff_prefix, prefix_split hfree hsep.symm]
    split
    · next h =>
      rw [if_pos (hpre.mp h), findFrom_walk hnames stack token, ← hsep, List.tail_cons]
    · next h =>
      rw [if_neg (mt hpre.mpr h)]
      rfl

/-- **The lookup of a path** is right if and only if it is walked straight, or leads nowhere. -/
theorem sysctl_lookup_iff (hrun : sysctlSystem.Reachable (fun _ _ => True) s) (hnames : SysNames s root)
    (stack path : List UInt8) (hlen : path.length < sysctlMaxPathLen) :
    FindsPath s root path (syssetFindObj s stack root path) ↔ LookupClean s root path := by
  have htree := sysctl_tree hrun
  obtain ⟨r, hroot, -, -⟩ := hnames.root
  have hinside : FindsPath s root path (syssetFindObj s stack root path) ↔
      ∃ ret, (syssetFindObj s stack root path).inside = some ret ∧ ∀ o, ret = some o ↔ IsPath s root path o := by
    constructor
    · exact fun h => ⟨_, SysFound.inside_eq.mpr ⟨h.inside, rfl⟩, h.found⟩
    · rintro ⟨ret, hret, hfound⟩
      obtain ⟨hwild, rfl⟩ := SysFound.inside_eq.mp hret
      exact ⟨hwild, hfound⟩
  have hnone : (∀ o, ¬ IsPath s root path o) → ∀ o, (none : Option Nat) = some o ↔ IsPath s root path o :=
    fun hno o => ⟨fun h => absurd h.symm (Option.some_ne_none o), fun h => absurd h (hno o)⟩
  rw [hinside]
  obtain ⟨c₀, cs₀, hsplit⟩ := split_eq_cons path
  cases cs₀ with
  | nil =>
    have hno : ∀ o, ¬ IsPath s root path o := by
      intro o h
      obtain ⟨r, cs, -, -, -, hp⟩ := h.split hnames
      exact absurd (List.cons_eq_cons.mp (hsplit.symm.trans hp)).2.symm (List.cons_ne_nil _ _)
    by_cases hempty : path = []
    · refine ⟨fun _ => .empty hempty, fun _ => ⟨none, ?_, hnone hno⟩⟩
      rw [syssetFindObj, if_pos hempty]
      rfl
    · have hmem : slash ∉ path := fun h => (split_of_mem hsplit).mp h rfl
      have hwild : (syssetFindObj s stack root path).inside = none := by
        have hsep := strsep_split path
        rw [hsplit] at hsep
        rw [syssetFindObj, if_neg hempty, if_neg (by omega), hroot]
        cases htok : strsep path with
        | none => rfl
        | some token =>
          obtain ⟨c, cs, htoken⟩ := split_eq_cons token
          rw [htok, Option.map_some, Option.getD_some, htoken] at hsep
          exact absurd hsep.symm (List.cons_ne_nil _ _)
      rw [hwild]
      refine ⟨fun ⟨ret, h, _⟩ => absurd h.symm (Option.some_ne_none ret), ?_⟩
      rintro (h | ⟨_, _, _, _, _, h, _⟩ | ⟨_, _, _, h, _⟩ | ⟨r', cs, o, _, h, _⟩)
      · exact absurd h hempty
      · exact absurd (List.cons_eq_cons.mp (hsplit.symm.trans h)).2.symm (List.cons_ne_nil _ _)
      · exact absurd (List.cons_eq_cons.mp (hsplit.symm.trans h)).2.symm (List.cons_ne_nil _ _)
      · refine absurd ?_ hmem
        rw [h, pathString, List.flatMap_cons, List.cons_append]
        exact List.mem_cons_self
  | cons c₁ cs =>
    -- the components are those of an object's path, if it has one
    have hpath : ∀ o, IsPath s root path o → c₁ = r ∧ PathTo s root cs o ∧ path = pathString (r :: cs) := by
      intro o h
      obtain ⟨r', cs', hroot', hp, heq, hsplit'⟩ := h.split hnames
      obtain rfl := Option.some.inj (hroot.symm.trans hroot')
      obtain ⟨-, htail⟩ := List.cons_eq_cons.mp (hsplit.symm.trans hsplit')
      obtain ⟨rfl, rfl⟩ := List.cons_eq_cons.mp htail
      exact ⟨rfl, hp, heq⟩
    rw [syssetFindObj_split hnames hlen hroot hsplit]
    split
    · next hpre =>
      constructor
      · rintro ⟨ret, hw, hfound⟩
        cases ret with
        | none =>
          refine .lost c₀ c₁ cs hsplit (walk_lost.mp hw) fun o ho => ?_
          exact absurd ((hfound o).mpr ho).symm (Option.some_ne_none o)
        | some o =>
          obtain ⟨-, hp, heq⟩ := hpath o ((hfound o).mp rfl)
          exact .straight r cs o hroot heq (straight_of_walk htree hp hw)
      · rintro (h | ⟨r', _, _, _, hroot', h, hno⟩ | ⟨_, _, _, h, hlost, hno⟩ | ⟨r', cs', o, hroot', h, hs⟩)
        · rw [h, List.splitOn_nil] at hsplit
          exact absurd (List.cons_eq_cons.mp hsplit).2.symm (List.cons_ne_nil _ _)
        · obtain rfl := Option.some.inj (hroot.symm.trans hroot')
          obtain ⟨-, htail⟩ := List.cons_eq_cons.mp (hsplit.symm.trans h)
          rw [(List.cons_eq_cons.mp htail).1] at hpre
          exact absurd hpre hno
        · obtain ⟨-, htail⟩ := List.cons_eq_cons.mp (hsplit.symm.trans h)
          obtain ⟨-, rfl⟩ := List.cons_eq_cons.mp htail
          exact ⟨none, walk_lost.mpr hlost, hnone hno⟩
        · have ho : IsPath s root path o := ⟨r', cs', hroot', hs.pathTo, h⟩
          obtain ⟨-, hp, -⟩ := hpath o ho
          have hcs : cs = cs' := by
            obtain ⟨r₂, hr₂, -, hfree⟩ := hnames.root
            obtain rfl := Option.some.inj (hroot'.symm.trans hr₂)
            have hsplit₂ := split_pathString (List.forall_mem_cons.mpr ⟨hfree, hs.pathTo.free hnames⟩)
            rw [← h, hsplit] at hsplit₂
            exact (List.cons_eq_cons.mp (List.cons_eq_cons.mp hsplit₂).2).2
          rw [hcs] at hp ⊢
          refine ⟨some o, walk_straight hs, fun o' => ⟨fun heq => ?_, fun ho' => ?_⟩⟩
          · obtain rfl := Option.some.inj heq
            exact ho
          · obtain ⟨-, hp', -⟩ := hpath o' ho'
            rw [hcs] at hp'
            exact congrArg some (hp.unique hnames hp')
    · next hpre =>
      refine ⟨fun _ => .other r c₀ c₁ cs hroot hsplit hpre, fun _ => ⟨none, rfl, hnone fun o ho => hpre ?_⟩⟩
      rw [(hpath o ho).1]

/-! ### A tree -/

/-- A set `s` with an object `a`. -/
def sysSample : Sysctl := sysobjAdd (syssetCreateAndAdd .empty (some [115]) none) (some [97]) 0 .null

theorem sysSample_reachable : sysctlSystem.Reachable (fun _ _ => True) sysSample :=
  .step (o := .obj (some [97]) 0 true) (.step (o := .set (some [115]) none) (.init rfl) trivial rfl)
    trivial rfl

theorem mem_sysSample (h : x ∈ sysSample.list d) : x = ⟨1, some [97], .null⟩ := by
  rcases mem_addTail.mp h with hx | ⟨-, rfl⟩
  · exact absurd ((syssetCreateAndAdd_tree (sysctl_tree (.init rfl)) (some [115])).2 d x hx)
      List.not_mem_nil
  · rfl

theorem sysSample_names : SysNames sysSample 0 := by
  refine ⟨fun d x hx => ?_, fun d x hx y hy _ => (mem_sysSample hx).trans (mem_sysSample hy).symm, [115],
    rfl, ?_⟩
  · rw [mem_sysSample hx]
    exact ⟨[97], rfl, by decide⟩
  · decide

/-- `/s/a` -/
theorem sysctl_lookup_object :
    FindsPath sysSample 0 [47, 115, 47, 97] (syssetFindObj sysSample [] 0 [47, 115, 47, 97]) ↔
      LookupClean sysSample 0 [47, 115, 47, 97] :=
  sysctl_lookup_iff sysSample_reachable sysSample_names [] _ (by decide)

/-- `/s/x/a` is taken for `/s/a`. -/
theorem sysctl_lookup_missing : ¬ ∀ (s : Sysctl) (root : Nat) (stack path : List UInt8),
    sysctlSystem.Reachable (fun _ _ => True) s → SysNames s root → path.length < sysctlMaxPathLen →
    FindsPath s root path (syssetFindObj s stack root path) := by
  intro hall
  have hright := hall sysSample 0 [] [47, 115, 47, 120, 47, 97] sysSample_reachable sysSample_names (by decide)
  have hret : (syssetFindObj sysSample [] 0 [47, 115, 47, 120, 47, 97]).ret = some 1 := by decide
  obtain ⟨r, cs, -, hp, -, hsplit⟩ := ((hright.found 1).mp hret).split sysSample_names
  have hcomp : ([47, 115, 47, 120, 47, 97] : List UInt8).splitOn slash = [[], [115], [120], [97]] := by
    decide
  obtain ⟨-, htail⟩ := List.cons_eq_cons.mp (hcomp.symm.trans hsplit)
  obtain ⟨-, rfl⟩ := List.cons_eq_cons.mp htail
  cases hp with
  | step hx hname =>
    rw [mem_sysSample hx] at hname
    exact absurd (Option.some.inj hname) (by decide)

end FlightOs
