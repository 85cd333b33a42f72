/-
# Loading a module, and what a load that fails leaves

`module_load` with its error labels, `module_unload`, and the table of modules.  The state is the heap and
the table, so a statement about every heap is one about every point of failure.

* `none` is a run that does not come back: one of the relocation's, the table that could not be made
  larger (a null pointer is cleared and written to), or an entry point that was never stored and is used.
* The module's own functions are parameters: `init` says what a call of the function at an address
  returns.  What its exit function returns is only printed, and what they do is not followed.

A load that fails leaves no trace if and only if it fails early: before there is an image, or at a
relocation of a module without common objects (`module_load_failure_iff`).  Behind the image, a failure
of the loader frees all of it, and then `module_unload` does so again; the common objects are never freed;
and where the module's own initialisation fails, the module stays in the table.
-/
import FlightOs.Elf.Resolve

namespace FlightOs

/-! ## 1. The table of modules -/

/-- `_kmod`: the block of its array, the room in it, and the `cnt` pointers that it begins with. -/
structure Kmod where
  m : Option Nat
  sz : Nat
  list : List Nat
  deriving DecidableEq, Repr

/-- A pointer more, with `room` for others if there is none left; `none` is a null pointer that is written
to. -/
def Kmod.add (r : Kmod) (room : Nat) (h : BlockHeap) (mod : Nat) : Option (BlockHeap × Kmod) :=
  if r.list.length = r.sz then
    match h.realloc r.m (4 * (r.sz + room) % 2 ^ 32) with
    | (_, none) => none
    | (h, some m) => some (h, ⟨some m, r.sz + room, r.list ++ [mod]⟩)
  else some (h, { r with list := r.list ++ [mod] })

/-- **What adding a pointer leaves.** -/
theorem Kmod.add_spec {room mod : Nat} {r r' : Kmod} {h h' : BlockHeap}
    (hadd : r.add room h mod = some (h', r')) :
    r'.list = r.list ++ [mod] ∧
      r'.sz = (if r.list.length = r.sz then r.sz + room else r.sz) ∧
      ∀ bs rest, h.Owns (r.m.toList ++ bs) rest → h'.Owns (r'.m.toList ++ bs) rest := by
  unfold Kmod.add at hadd
  split at hadd
  · next hfull =>
    rcases hre : h.realloc r.m (4 * (r.sz + room) % 2 ^ 32) with ⟨h₁, m⟩
    rw [hre] at hadd
    cases m with
    | none => exact absurd hadd.symm (Option.some_ne_none _)
    | some m =>
      obtain ⟨rfl, rfl⟩ := Prod.mk.inj (Option.some.inj hadd)
      refine ⟨rfl, (if_pos hfull).symm, fun bs rest ho => ?_⟩
      rcases r with ⟨m₀, sz, list⟩
      cases m₀ with
      | none => exact ho.alloc (BlockHeap.realloc_none.symm.trans hre)
      | some b => exact ho.realloc hre
  · next hroom =>
    obtain ⟨rfl, rfl⟩ := Prod.mk.inj (Option.some.inj hadd)
    exact ⟨rfl, (if_neg hroom).symm, fun _ _ ho => ho⟩

/-! ## 2. Loading -/

def moduleRealloc : Nat := 10

/-- What a load depends on, besides the file. -/
structure ModuleEnv where
  place : Nat → Nat
  lookup : List UInt8 → Nat
  init : Nat → Int

/-- `module_unload` -/
def moduleUnload (h : BlockHeap) (m : ElfBinary) : BlockHeap := freeBinary h m

/-- The address of one of the module's functions; the outer `none` is a value that was not stored. -/
def moduleEntry (f : ElfFile) (va : Nat) (name : List UInt8) : Option (Option Nat) :=
  match elfGetSymbolValue f name with
  | (0, _) => some none
  | (_, none) => none
  | (_, some symval) => some (some (wadd va symval))

/-- From the table of modules on. -/
def moduleStart (env : ModuleEnv) (f : ElfFile) (mod : Nat) (h : BlockHeap) (r : Kmod) (m : ElfBinary) :
    Option ((BlockHeap × Kmod) × Int) :=
  (r.add moduleRealloc h mod).bind fun (h, r) =>
    (moduleEntry f m.va (cstr "_module_init")).bind fun init =>
      (moduleEntry f m.va (cstr "_module_exit")).map fun exit =>
        if init.any fun addr => addr ≠ 0 ∧ env.init addr ≠ 0 then
          ((moduleUnload h { m with init := init, exit := exit }, r), -1)
        else ((h, r), 0)

/-- From the relocation on. -/
def moduleLink (env : ModuleEnv) (f : ElfFile) (mod : Nat) (r : Kmod) (s : LoadState) :
    Option ((BlockHeap × Kmod) × Int) :=
  match moduleRelocate f s.bin env.lookup with
  | none => none
  | some (_, err) =>
    if err ≠ 0 then some ((moduleUnload s.heap s.bin, r), -1)
    else moduleStart env f mod s.heap r s.bin

/-- `module_load` of the file at `mod` -/
def moduleLoad (env : ModuleEnv) (f : ElfFile) (mod : Nat) (h : BlockHeap) (r : Kmod) :
    Option ((BlockHeap × Kmod) × Int) :=
  if elfHeaderCheck f ≠ 0 then some ((h, r), -1)
  else
    match setupElfBinary f with
    | none => some ((h, r), -1)
    | some m =>
      match moduleLoadMem env.place f ⟨h, m, []⟩ with
      | (s, err) =>
        if err ≠ 0 then some ((moduleUnload s.heap s.bin, r), -1) else moduleLink env f mod r s

/-! ## 3. What a failed load leaves -/

/-- No trace: the same blocks as before, none freed twice or read when it was freed, and the same table. -/
structure Traceless (h h' : BlockHeap) (r r' : Kmod) : Prop where
  blocks : h'.live.Perm h.live
  clean : h'.fault = false
  table : r' = r

/-- The image of a module without common objects, where all requests are granted. -/
def loadedImage (place : Nat → Nat) (f : ElfFile) (h : BlockHeap) (m : ElfBinary) : ElfBinary :=
  (placedState moduleDest f
    ⟨h.grant, m.withImage (some h.count) (alignPtr (place h.count) m.align), []⟩).bin

/-- What a load of an image asks the heap for, where there are no common objects. -/
def moduleRequests (f : ElfFile) (m : ElfBinary) : List Nat := wadd m.size m.align :: sectionRequests f

/-- There is no image yet, or it is that of a module without common objects and does not link. -/
inductive FailsEarly (env : ModuleEnv) (f : ElfFile) (h : BlockHeap) : Prop where
  | header (bad : elfHeaderCheck f ≠ 0)
  | setup (bad : setupElfBinary f = none)
  | base (m : ElfBinary) (ok : setupElfBinary f = some m) (bad : ¬ h.Grants (wadd m.size m.align))
  | relocate (m : ElfBinary) (t : List (Option Applied)) (err : Int) (ok : setupElfBinary f = some m)
      (plain : elfGetCommonObjects f = []) (granted : h.GrantsAll (moduleRequests f m))
      (bad : moduleRelocate f (loadedImage env.place f h m) env.lookup = some (t, err)) (ne : err ≠ 0)

variable {env : ModuleEnv} {f : ElfFile} {mod : Nat} {h h' : BlockHeap} {r r' : Kmod} {err : Int}
  {m : ElfBinary} {s s' : LoadState}

/-- The set-up has neither a table nor an image. -/
theorem setupElfBinary_none (hsetup : setupElfBinary f = some m) : m.sec = none ∧ m.base = none := by
  obtain ⟨-, rfl⟩ := setup_foldlM (by decide) hsetup
  exact ⟨rfl, rfl⟩

/-- A request for the table is one for some sections, and so there are section headers. -/
theorem setupElfBinary_sections (hsetup : setupElfBinary f = some m) (hnum : elfGetNumAllocSections f ≠ 0) :
    f.ehdr.eShoff ≠ 0 := by
  refine setupElfBinary_shoff hsetup fun hz => hnum ?_
  rw [elfGetNumAllocSections, hz]
  rfl

/-- **A load that does not get its image** leaves the heap as it was. -/
theorem moduleLoadMem_refused (env : ModuleEnv) (hsetup : setupElfBinary f = some m)
    (hg : ¬ h.Grants (wadd m.size m.align)) :
    ∃ s, moduleLoadMem env.place f ⟨h, m, []⟩ = (s, -(ENOMEM : Int)) ∧
      (moduleUnload s.heap s.bin).live = h.live ∧ (moduleUnload s.heap s.bin).fault = h.fault := by
  obtain ⟨hsec, -⟩ := setupElfBinary_none hsetup
  rcases loadBase_eq env.place ⟨h, m, []⟩ with ⟨hg', -⟩ | ⟨-, h₁, heq, hl, hf⟩
  · exact absurd hg' hg
  · rw [moduleLoadMem, heq, onward_false]
    refine ⟨_, rfl, ?_⟩
    have hnone := freeBinary_none (m := { m with base := none }) hsec rfl
    have hunload : moduleUnload (freeBinary h₁ { m with base := none }) { m with base := none } = h₁ :=
      (hnone _).trans (hnone h₁)
    exact ⟨(congrArg BlockHeap.live hunload).trans hl, (congrArg BlockHeap.fault hunload).trans hf⟩

/-- **A load that fails behind its image** frees the image twice. -/
theorem moduleLoadMem_failed (hg : h.Grants (wadd m.size m.align))
    (hload : moduleLoadMem env.place f ⟨h, m, []⟩ = (s', err)) (herr : err ≠ 0) :
    (moduleUnload s'.heap s'.bin).fault = true := by
  rcases loadBase_eq env.place ⟨h, m, []⟩ with ⟨-, heq⟩ | ⟨hg', -⟩
  · rw [moduleLoadMem, heq, onward_true] at hload
    have hbase := loadSections_base moduleDest env.place f
      ⟨h.grant, m.withImage (some h.count) (alignPtr (env.place h.count) m.align), []⟩
    generalize hsec : loadSections moduleDest env.place f
      ⟨h.grant, m.withImage (some h.count) (alignPtr (env.place h.count) m.align), []⟩ = res at hload hbase
    rcases res with ⟨s₁, ok⟩
    cases ok with
    | true => exact absurd (Prod.mk.inj hload).2.symm herr
    | false =>
      obtain ⟨rfl, -⟩ := Prod.mk.inj hload
      exact freeBinary_twice hbase s₁.heap
  · exact absurd hg hg'

/-- **A load that succeeds** owns its image, and a block for each common object. -/
theorem moduleLoadMem_owns (hsetup : setupElfBinary f = some m) (hf : h.fault = false)
    (hload : moduleLoadMem env.place f ⟨h, m, []⟩ = (s', 0)) :
    h.GrantsAll (moduleRequests f m) ∧
      (elfGetCommonObjects f = [] → s'.bin = loadedImage env.place f h m) ∧
      ∃ addrs, addrs.length = (elfGetCommonObjects f).length ∧
        (moduleUnload s'.heap s'.bin).Owns addrs h.live := by
  obtain ⟨s₁, hbase, hsec⟩ := onward_ok (loadReturn_ok hload)
  rcases loadBase_eq env.place ⟨h, m, []⟩ with ⟨hg, heq⟩ | ⟨-, h₁, heq, -⟩
  · rw [heq] at hbase
    obtain ⟨rfl, -⟩ := Prod.mk.inj hbase
    have hoff := setupElfBinary_sections hsetup (loadSections_ne_zero hsec)
    obtain ⟨hgs, sec, es, addrs, hbin, -, hall, -, hcount, howns⟩ := loadSections_ok hoff hsec
    refine ⟨⟨hg, hgs⟩, fun hplain => ?_, addrs, hcount, ?_⟩
    · rcases loadSections_eq hoff moduleDest env.place
        ⟨h.grant, m.withImage (some h.count) (alignPtr (env.place h.count) m.align), []⟩
        with ⟨-, hplaced⟩ | ⟨hno, -⟩
      · rw [hsec, hplain, loadCommon, if_pos rfl] at hplaced
        rw [loadedImage, (Prod.mk.inj hplaced).1]
      · exact absurd hgs hno
    · have hempty : h.Owns [] h.live := ⟨List.Perm.refl _, hf⟩
      have hs' := howns [h.count] h.live hempty.grant
      refine freeBinary_owns (?_ : s'.bin.sec = some sec) hall ?_
      · rw [hbin]
        rfl
      · have hb : s'.bin.base = some h.count := by
          rw [hbin]
          rfl
        rw [hb]
        exact hs'
  · rw [heq] at hbase
    exact absurd (Prod.mk.inj hbase).2 Bool.false_ne_true

/-- **A start that fails** leaves the module in the table. -/
theorem moduleStart_failed (hrun : moduleStart env f mod h r m = some ((h', r'), err)) (herr : err ≠ 0) :
    r'.list = r.list ++ [mod] := by
  rw [moduleStart] at hrun
  obtain ⟨⟨h₁, r₁⟩, hadd, hrun⟩ := Option.bind_eq_some_iff.mp hrun
  obtain ⟨init, -, hrun⟩ := Option.bind_eq_some_iff.mp hrun
  obtain ⟨exit, -, hrun⟩ := Option.map_eq_some_iff.mp hrun
  split at hrun
  · obtain ⟨hst, -⟩ := Prod.mk.inj hrun
    obtain ⟨-, rfl⟩ := Prod.mk.inj hst
    exact (Kmod.add_spec hadd).1
  · exact absurd (Prod.mk.inj hrun).2.symm herr

/-- What is owned beyond the blocks there were is a trace. -/
theorem traceless_owns {addrs : List Nat} (ho : h'.Owns addrs h.live) :
    Traceless h h' r r ↔ addrs = [] := by
  constructor
  · intro ht
    have hlen := (ho.1.symm.trans ht.blocks).length_eq
    rw [List.length_append] at hlen
    exact List.eq_nil_of_length_eq_zero (by omega)
  · rintro rfl
    exact ⟨ho.1, ho.2, rfl⟩

/-- Without common objects, a load whose requests are granted succeeds. -/
theorem moduleLoadMem_granted (env : ModuleEnv) (hsetup : setupElfBinary f = some m) (hplain : elfGetCommonObjects f = [])
    (hg : h.GrantsAll (moduleRequests f m)) :
    ∃ s, moduleLoadMem env.place f ⟨h, m, []⟩ = (s, 0) := by
  obtain ⟨hbase, hgs⟩ := hg
  have hnum : elfGetNumAllocSections f ≠ 0 := fun h0 => hgs.1.1 (by rw [h0])
  rcases loadBase_eq env.place ⟨h, m, []⟩ with ⟨-, heq⟩ | ⟨hno, -⟩
  · rcases loadSections_eq (setupElfBinary_sections hsetup hnum) moduleDest env.place
      ⟨h.grant, m.withImage (some h.count) (alignPtr (env.place h.count) m.align), []⟩
      with ⟨-, hplaced⟩ | ⟨hno, -⟩
    · refine ⟨placedState moduleDest f
        ⟨h.grant, m.withImage (some h.count) (alignPtr (env.place h.count) m.align), []⟩, ?_⟩
      rw [moduleLoadMem, heq, onward_true, hplaced, hplain, loadCommon, if_pos rfl, loadReturn]
    · exact absurd hgs hno
  · exact absurd hbase hno

/-- Behind the header, the set-up and the image, to fail early is not to link. -/
theorem failsEarly_iff (hgood : ¬ elfHeaderCheck f ≠ 0) (hsetup : setupElfBinary f = some m)
    (hg : h.Grants (wadd m.size m.align)) :
    FailsEarly env f h ↔ elfGetCommonObjects f = [] ∧ h.GrantsAll (moduleRequests f m) ∧
      ∃ t e, moduleRelocate f (loadedImage env.place f h m) env.lookup = some (t, e) ∧ e ≠ 0 := by
  have hunique : ∀ m', setupElfBinary f = some m' → m' = m :=
    fun m' h' => Option.some.inj (h'.symm.trans hsetup)
  constructor
  · rintro (hbad | hbad | ⟨m', hok, hbad⟩ | ⟨m', t, e, hok, hplain, hgs, hrel, he⟩)
    · exact absurd hbad hgood
    · exact absurd (hsetup.symm.trans hbad) (Option.some_ne_none m)
    · obtain rfl := hunique m' hok
      exact absurd hg hbad
    · obtain rfl := hunique m' hok
      exact ⟨hplain, hgs, t, e, hrel, he⟩
  · rintro ⟨hplain, hgs, t, e, hrel, he⟩
    exact .relocate m t e hsetup hplain hgs hrel he

/-- **From the relocation on**: a failure leaves no trace if there are no common objects, and it is the
relocation that failed. -/
theorem moduleLink_failure_iff (hsetup : setupElfBinary f = some m) (hf : h.fault = false)
    (hload : moduleLoadMem env.place f ⟨h, m, []⟩ = (s, 0))
    (hrun : moduleLink env f mod r s = some ((h', r'), err)) (herr : err ≠ 0) :
    Traceless h h' r r' ↔ elfGetCommonObjects f = [] ∧
      ∃ t e, moduleRelocate f s.bin env.lookup = some (t, e) ∧ e ≠ 0 := by
  obtain ⟨-, -, addrs, hcount, howns⟩ := moduleLoadMem_owns hsetup hf hload
  rw [moduleLink] at hrun
  rcases hrel : moduleRelocate f s.bin env.lookup with _ | ⟨t, e⟩
  · rw [hrel] at hrun
    exact absurd hrun (Option.some_ne_none _).symm
  · rw [hrel] at hrun
    dsimp only at hrun
    split at hrun
    · next he =>
      obtain ⟨rfl, rfl⟩ := Prod.mk.inj (Prod.mk.inj (Option.some.inj hrun)).1
      rw [traceless_owns howns, ← List.length_eq_zero_iff, hcount, List.length_eq_zero_iff]
      exact ⟨fun hplain => ⟨hplain, t, e, rfl, he⟩, fun h => h.1⟩
    · next he =>
      have hlist := moduleStart_failed hrun herr
      constructor
      · intro ht
        rw [ht.table] at hlist
        exact absurd (List.self_eq_append_right.mp hlist) (List.cons_ne_nil mod [])
      · rintro ⟨-, t', e', heq, he'⟩
        obtain ⟨-, rfl⟩ := Prod.mk.inj (Option.some.inj heq)
        exact absurd he' he

/-- **A load that failed** has left no trace if and only if it failed early. -/
theorem module_load_failure_iff (hf : h.fault = false)
    (hrun : moduleLoad env f mod h r = some ((h', r'), err)) (herr : err ≠ 0) :
    Traceless h h' r r' ↔ FailsEarly env f h := by
  have hself : Traceless h h r r := ⟨List.Perm.refl _, hf, rfl⟩
  rw [moduleLoad] at hrun
  split at hrun
  · next hbad =>
    obtain ⟨rfl, rfl⟩ := Prod.mk.inj (Prod.mk.inj (Option.some.inj hrun)).1
    exact ⟨fun _ => .header hbad, fun _ => hself⟩
  · next hgood =>
    cases hsetup : setupElfBinary f with
    | none =>
      rw [hsetup] at hrun
      obtain ⟨rfl, rfl⟩ := Prod.mk.inj (Prod.mk.inj (Option.some.inj hrun)).1
      exact ⟨fun _ => .setup hsetup, fun _ => hself⟩
    | some m =>
      rw [hsetup] at hrun
      rcases hload : moduleLoadMem env.place f ⟨h, m, []⟩ with ⟨s, e⟩
      by_cases hg : h.Grants (wadd m.size m.align)
      · rw [failsEarly_iff hgood hsetup hg]
        by_cases he : e = 0
        · subst he
          obtain ⟨hgs, hbin, -⟩ := moduleLoadMem_owns hsetup hf hload
          simp only [hload] at hrun
          rw [if_neg (not_not.mpr rfl)] at hrun
          rw [moduleLink_failure_iff hsetup hf hload hrun herr]
          refine and_congr_right fun hplain => ?_
          rw [hbin hplain]
          exact ⟨fun hrel => ⟨hgs, hrel⟩, fun h => h.2⟩
        · have hfault := moduleLoadMem_failed hg hload he
          simp only [hload] at hrun
          rw [if_pos he] at hrun
          obtain ⟨rfl, rfl⟩ := Prod.mk.inj (Prod.mk.inj (Option.some.inj hrun)).1
          refine ⟨fun ht => absurd (ht.clean.symm.trans hfault) Bool.false_ne_true, ?_⟩
          rintro ⟨hplain, hgs, -⟩
          obtain ⟨s', hok⟩ := moduleLoadMem_granted env hsetup hplain hgs
          exact absurd (Prod.mk.inj (hload.symm.trans hok)).2 he
      · refine ⟨fun _ => .base m hsetup hg, fun _ => ?_⟩
        obtain ⟨s', hload', hl, hf'⟩ := moduleLoadMem_refused env hsetup hg
        simp only [hload'] at hrun
        rw [if_pos (by decide)] at hrun
        obtain ⟨rfl, rfl⟩ := Prod.mk.inj (Prod.mk.inj (Option.some.inj hrun)).1
        exact ⟨by rw [hl], hf'.trans hf, rfl⟩

/-! ### Two loads -/

/-- A kernel that exports nothing, and whose modules start well. -/
def sampleEnv : ModuleEnv := ⟨samplePlace, fun _ => 0, fun _ => 0⟩

/-- An absolute object that nobody has: three blocks are granted, and the relocation fails. -/
theorem module_load_unlinked : ∃ h' r', moduleLoad sampleEnv (relocSampleOf (cstr "f") 0x11 shnAbs) 0
      (.empty fun _ => true) ⟨none, 0, []⟩ = some ((h', r'), -1) ∧ h'.count = 3 ∧
    Traceless (.empty fun _ => true) h' ⟨none, 0, []⟩ r' := by
  have hrun : (moduleLoad sampleEnv (relocSampleOf (cstr "f") 0x11 shnAbs) 0 (.empty fun _ => true)
      ⟨none, 0, []⟩).map (fun x => (x.1.1.count, x.2)) = some (3, -1) := by decide +kernel
  obtain ⟨⟨⟨h', r'⟩, err⟩, hload, heq⟩ := Option.map_eq_some_iff.mp hrun
  obtain ⟨hcount, rfl⟩ := Prod.mk.inj heq
  have hrequests : moduleRequests (relocSampleOf (cstr "f") 0x11 shnAbs)
      ((setupElfBinary (relocSampleOf (cstr "f") 0x11 shnAbs)).getD .start) = [8, 12, 5] := by
    decide
  refine ⟨h', r', hload, hcount, (module_load_failure_iff rfl hload (by decide)).mpr ?_⟩
  refine .relocate ((setupElfBinary (relocSampleOf (cstr "f") 0x11 shnAbs)).getD .start) [] (-1)
    (by decide +kernel) (by decide +kernel) ?_ (by decide +kernel) (by decide)
  rw [hrequests]
  exact ⟨by decide, by decide, by decide, trivial⟩

/-- The image is granted, and the table of sections is not. -/
theorem module_load_freed_twice : ¬ ∀ (env : ModuleEnv) (f : ElfFile) (mod : Nat) (h h' : BlockHeap)
    (r r' : Kmod) (err : Int), h.fault = false →
    moduleLoad env f mod h r = some ((h', r'), err) → err ≠ 0 → Traceless h h' r r' := by
  intro hall
  have hrun : (moduleLoad sampleEnv (layoutSample 4) 0 (.empty fun n => n = 0) ⟨none, 0, []⟩).map
      (fun x => (x.1.1.fault, x.2)) = some (true, -1) := by decide
  obtain ⟨⟨⟨h', r'⟩, err⟩, hload, heq⟩ := Option.map_eq_some_iff.mp hrun
  obtain ⟨hfault, herr⟩ := Prod.mk.inj heq
  have hclean := (hall _ _ _ _ _ _ _ _ rfl hload (by rw [show err = -1 from herr]; decide)).clean
  exact absurd (hclean.symm.trans hfault) Bool.false_ne_true

end FlightOs
