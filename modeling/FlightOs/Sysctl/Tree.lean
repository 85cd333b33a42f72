/-
# The sysctl tree, and looking up a path in it

The objects of `kernel/sysctl.c`.  A set is a list of objects; it is in its parent's list by its own
object, whose `child` points at itself, and that is how a set is told from other objects.  An object is
allocated without being cleared, and its `child` is never written: it is what lies there.

* An object is known by a number; a set and its object have the same.
* A string is its bytes, without the terminating zero.
* What a lookup reads of the stack behind the string it has copied there is a parameter (`stack`).  A
  lookup that reads there, or through a pointer that is null or was never written, is `wild`.
-/
import FlightOs.Lib.System
import Mathlib.Data.UInt
import Mathlib.Data.List.Infix

namespace FlightOs

/-! ## 1. Objects and sets -/

/-- What an object's `child` is. -/
inductive SysChild where
  | null
  /-- the object is that of a set -/
  | set
  /-- whatever was there -/
  | junk
  deriving DecidableEq, Repr

structure SysObj where
  id : Nat
  name : Option (List UInt8)
  child : SysChild
  deriving DecidableEq, Repr

structure Sysctl where
  /-- the number of the next object -/
  next : Nat
  isSet : Nat → Bool
  /-- the name of a set -/
  name : Nat → Option (List UInt8)
  /-- the list of a set -/
  list : Nat → List SysObj

def Sysctl.empty : Sysctl := ⟨0, fun _ => false, fun _ => none, fun _ => []⟩

/-- `list_add_tail` -/
def Sysctl.addTail (s : Sysctl) (parent : Nat) (x : SysObj) : Sysctl :=
  { s with list := fun d => if d = parent then s.list d ++ [x] else s.list d }

/-- `sysset_create_and_add`; without a parent the set is in no list. -/
def syssetCreateAndAdd (s : Sysctl) (name : Option (List UInt8)) (parent : Option Nat) : Sysctl :=
  let s' : Sysctl :=
    { next := s.next + 1
      isSet := fun d => if d = s.next then true else s.isSet d
      name := fun d => if d = s.next then name else s.name d
      list := fun d => if d = s.next then [] else s.list d }
  match parent with
  | none => s'
  | some p => s'.addTail p ⟨s.next, name, .set⟩

/-- `sysobj_add` of a new object -/
def sysobjAdd (s : Sysctl) (name : Option (List UInt8)) (parent : Nat) (child : SysChild) : Sysctl :=
  ({ s with next := s.next + 1 } : Sysctl).addTail parent ⟨s.next, name, child⟩

inductive SysOp where
  | set (name : Option (List UInt8)) (parent : Option Nat)
  | obj (name : Option (List UInt8)) (parent : Nat) (cleared : Bool)

/-- Only a set is given as a parent. -/
def sysStep (s : Sysctl) : SysOp → Option Sysctl
  | .set name none => some (syssetCreateAndAdd s name none)
  | .set name (some p) => if s.isSet p then some (syssetCreateAndAdd s name (some p)) else none
  | .obj name p cleared =>
    if s.isSet p then some (sysobjAdd s name p (if cleared then .null else .junk)) else none

/-- The trees that can be built. -/
def sysctlSystem : System Sysctl SysOp := .ofFun (· = .empty) sysStep

/-! ## 2. The lookup -/

def slash : UInt8 := 0x2f

def sysctlMaxPathLen : Nat := 256

/-- Where a string is split off: what is behind the first delimiter, if there is one. -/
def strsep : List UInt8 → Option (List UInt8)
  | [] => none
  | c :: cs => if c = slash then some cs else strsep cs

/-- What a lookup returns, and whether it has read where it must not. -/
structure SysFound where
  ret : Option Nat
  wild : Bool
  deriving DecidableEq, Repr

def SysFound.null : SysFound := ⟨none, false⟩

/-- The loop over the list of a set: the first object whose name the token begins with.  The outer `none` is
an object without a name. -/
def findEntry (token : List UInt8) : List SysObj → Option (Option SysObj)
  | [] => some none
  | x :: xs =>
    match x.name with
    | none => none
    | some name => if name.isPrefixOf token then some (some x) else findEntry token xs

/-- `memchr(token, '/', SYSCTL_MAX_PATH_LEN)` -/
def memchrSlash (stack token : List UInt8) : Bool :=
  ((token ++ 0 :: stack).take sysctlMaxPathLen).contains slash

/-- The loop, from `strsep` on, in what is left of the string. -/
def findFrom (s : Sysctl) (stack : List UInt8) (sysset : Nat) : List UInt8 → SysFound
  | [] => .null
  | c :: token =>
    if c ≠ slash then findFrom s stack sysset token
    else
      match findEntry token (s.list sysset) with
      | none => .null
      | some none => findFrom s stack sysset token
      | some (some x) =>
        if x.child = .null then ⟨some x.id, false⟩
        -- behind the last delimiter, the search for one goes on behind the string
        else if slash ∉ token then ⟨if memchrSlash stack token then none else some x.id, true⟩
        else if x.child = .junk then ⟨none, true⟩
        else findFrom s stack x.id token

/-- `sysset_find_obj` -/
def syssetFindObj (s : Sysctl) (stack : List UInt8) (sysset : Nat) (path : List UInt8) : SysFound :=
  if path = [] then .null
  else if sysctlMaxPathLen < path.length + 1 then ⟨none, true⟩
  else
    match s.name sysset, strsep path with
    | none, _ => ⟨none, true⟩
    | some _, none => ⟨none, true⟩
    | some root, some token =>
      if root.isPrefixOf token then findFrom s stack sysset token else .null

/-! ## 3. What is in a tree -/

/-- What holds of every tree: an object is in one list, and was created behind the set whose list it is. -/
structure SysTree (s : Sysctl) : Prop where
  above : ∀ d, ∀ x ∈ s.list d, d < x.id ∧ x.id < s.next
  fresh : ∀ d, s.next ≤ d → s.isSet d = false
  unique : ∀ d e, ∀ x ∈ s.list d, ∀ y ∈ s.list e, x.id = y.id → d = e ∧ x = y

variable {s s' : Sysctl} {d : Nat} {x : SysObj}

theorem mem_addTail {parent : Nat} {e : SysObj} :
    x ∈ (s.addTail parent e).list d ↔ x ∈ s.list d ∨ d = parent ∧ x = e := by
  unfold Sysctl.addTail
  dsimp only
  split
  · next h => simp only [List.mem_append, List.mem_singleton, h, true_and]
  · next h => simp only [h, false_and, or_false]

/-- Another object, that is in no list. -/
theorem SysTree.grow (h : SysTree s) (hmem : ∀ d, ∀ x ∈ s'.list d, x ∈ s.list d)
    (hnext : s'.next = s.next + 1) (hset : ∀ d, s.next < d → s'.isSet d = s.isSet d) : SysTree s' where
  above := by
    intro d x hx
    have h1 := h.above d x (hmem d x hx)
    omega
  fresh := by
    intro d hd
    rw [hset d (by omega)]
    exact h.fresh d (by omega)
  unique := fun d e x hx y hy hxy => h.unique d e x (hmem d x hx) y (hmem e y hy) hxy

/-- An object that is in no list is put in one. -/
theorem SysTree.addTail {p : Nat} (h : SysTree s) (hx : x.id < s.next) (hp : p < x.id)
    (hno : ∀ d, ∀ y ∈ s.list d, y.id ≠ x.id) : SysTree (s.addTail p x) where
  above := by
    intro d y hy
    rcases mem_addTail.mp hy with hy | ⟨rfl, rfl⟩
    · exact h.above d y hy
    · exact ⟨hp, hx⟩
  fresh := h.fresh
  unique := by
    intro d e y hy z hz hyz
    rcases mem_addTail.mp hy with hold | ⟨rfl, rfl⟩
    · rcases mem_addTail.mp hz with hold' | ⟨rfl, rfl⟩
      · exact h.unique d e y hold z hold' hyz
      · exact absurd hyz (hno d y hold)
    · rcases mem_addTail.mp hz with hold' | ⟨rfl, rfl⟩
      · exact absurd hyz.symm (hno e z hold')
      · exact ⟨rfl, rfl⟩

/-- A set that is there was created before. -/
theorem SysTree.lt_next (h : SysTree s) (hset : s.isSet d = true) : d < s.next := by
  by_contra hge
  rw [h.fresh d (by omega)] at hset
  exact absurd hset Bool.false_ne_true

theorem syssetCreateAndAdd_tree (h : SysTree s) (name : Option (List UInt8)) :
    SysTree (syssetCreateAndAdd s name none) ∧
      ∀ d, ∀ x ∈ (syssetCreateAndAdd s name none).list d, x ∈ s.list d := by
  have hmem : ∀ d, ∀ x ∈ (syssetCreateAndAdd s name none).list d, x ∈ s.list d := by
    intro d x hx
    change x ∈ (if d = s.next then [] else s.list d) at hx
    split at hx
    · exact absurd hx List.not_mem_nil
    · exact hx
  refine ⟨h.grow hmem rfl fun d hd => ?_, hmem⟩
  exact if_neg (Nat.ne_of_gt hd)

/-- **What is built is a tree.** -/
theorem sysStep_tree (h : SysTree s) {o : SysOp} (hs : sysStep s o = some s') : SysTree s' := by
  cases o with
  | set name parent =>
    obtain ⟨hnew, hmem⟩ := syssetCreateAndAdd_tree h name
    cases parent with
    | none =>
      obtain rfl := Option.some.inj hs
      exact hnew
    | some p =>
      rw [sysStep] at hs
      split at hs
      · next hp =>
        obtain rfl := Option.some.inj hs
        refine hnew.addTail (Nat.lt_succ_self s.next) (h.lt_next hp) fun d y hy => ?_
        have hid := h.above d y (hmem d y hy)
        exact Nat.ne_of_lt hid.2
      · exact absurd hs.symm (Option.some_ne_none s')
  | obj name p cleared =>
    rw [sysStep] at hs
    split at hs
    · next hp =>
      obtain rfl := Option.some.inj hs
      have hnew : SysTree { s with next := s.next + 1 } := h.grow (fun _ _ hx => hx) rfl fun _ _ => rfl
      refine hnew.addTail (Nat.lt_succ_self s.next) (h.lt_next hp) fun d y hy => ?_
      exact Nat.ne_of_lt (h.above d y hy).2
    · exact absurd hs.symm (Option.some_ne_none s')

theorem sysctl_tree (hrun : sysctlSystem.Reachable (fun _ _ => True) s) : SysTree s := by
  refine System.Reachable.invariant (I := SysTree) (fun s hs => ?_)
    (fun s o s' h _ hs => sysStep_tree h hs) hrun
  rw [hs]
  exact ⟨fun _ _ hx => absurd hx List.not_mem_nil, fun _ _ => rfl, fun _ _ _ hx => absurd hx List.not_mem_nil⟩

/-! ### Below a set -/

/-- The object with the number `o` is below the set `d`. -/
inductive Below (s : Sysctl) : Nat → Nat → Prop
  | here {d : Nat} {x : SysObj} (hx : x ∈ s.list d) : Below s d x.id
  | step {d o : Nat} {x : SysObj} (hx : x ∈ s.list d) (h : Below s x.id o) : Below s d o

/-- It is in the list of a set that is `d`, or below it. -/
theorem Below.parent {o : Nat} (h : Below s d o) :
    ∃ p, ∃ x ∈ s.list p, x.id = o ∧ (p = d ∨ Below s d p) := by
  induction h with
  | here hx => exact ⟨_, _, hx, rfl, .inl rfl⟩
  | step hx _ ih =>
    obtain ⟨p, y, hy, hid, hp⟩ := ih
    refine ⟨p, y, hy, hid, .inr ?_⟩
    rcases hp with rfl | hp
    · exact .here hx
    · exact .step hx hp

theorem SysTree.below_lt (h : SysTree s) {o : Nat} (hb : Below s d o) : d < o := by
  induction hb with
  | here hx => exact (h.above _ _ hx).1
  | step hx _ ih => exact Nat.lt_trans (h.above _ _ hx).1 ih

/-- **Nothing is below two objects of one list**, or is one and is below the other. -/
theorem SysTree.apart (h : SysTree s) {y : SysObj} (hx : x ∈ s.list d) (hy : y ∈ s.list d) {o : Nat} :
    (o = x.id ∨ Below s x.id o) → (o = y.id ∨ Below s y.id o) → x = y := by
  induction o using Nat.strong_induction_on with
  | _ o ih =>
    -- an object that is in the list itself is not below another
    have hself : ∀ {x y : SysObj}, x ∈ s.list d → y ∈ s.list d → o = x.id → Below s y.id o → False := by
      intro x y hx hy hox hb
      obtain ⟨p, z, hz, hid, hp⟩ := hb.parent
      obtain ⟨rfl, -⟩ := h.unique p d z hz x hx (hid.trans hox)
      have hlt := (h.above _ _ hy).1
      rcases hp with hp | hp
      · omega
      · have hlt' := h.below_lt hp
        omega
    rintro (hox | hbx) (hoy | hby)
    · exact (h.unique d d x hx y hy (hox.symm.trans hoy)).2
    · exact (hself hx hy hox hby).elim
    · exact (hself hy hx hoy hbx).elim
    · obtain ⟨p, z, hz, hid, hp⟩ := hbx.parent
      obtain ⟨q, w, hw, hid', hq⟩ := hby.parent
      obtain ⟨rfl, -⟩ := h.unique p q z hz w hw (hid.trans hid'.symm)
      exact ih p (by have := (h.above p z hz).1; omega) hp hq

end FlightOs
