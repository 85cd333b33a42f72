/-
# Loading applications, and their exits

`application_load` with its error labels, `application_unload`, and the table of applications.  A step is a
load of a file, or the exit of an application; what the scheduler makes of the new thread is a parameter of
the load.

* `none` is a run that does not come back, or an exit of an application that is not there.
* An application that is loaded is what its thread holds: the two blocks, and the binary.

To be shown is that the heap has the blocks of the applications that are loaded and no others of the loader,
and that the table lists these applications, with a null pointer behind them (`AppConserved`).  It holds
along every run whose steps are clean (`applications_conserved`): no application exits, since an exit leaves
its entry in the table; a load that fails does so where there is nothing yet, or only what the labels free
once; and a load that succeeds does not take the last place of the table.
-/
import FlightOs.Elf.ModuleLoad
import FlightOs.Lib.System

namespace FlightOs

/-! ## 1. Loads and exits -/

def appRealloc : Nat := 10

def sizeofAppStartup : Nat := 12

def sizeofElfBinary : Nat := 44

/-- What an application's thread holds; `file` is what the header pointer of its binary points at. -/
structure AppStartup where
  app : Nat
  binary : Nat
  file : ElfFile
  bin : ElfBinary

structure AppState where
  heap : BlockHeap
  reg : Kmod
  apps : List AppStartup

structure AppEnv where
  place : Nat → Nat
  lookup : List UInt8 → Nat

/-- `application_unload`, where there is a binary. -/
def applicationUnload (h : BlockHeap) (a : AppStartup) : BlockHeap :=
  ((freeBinary ((h.use (some a.app)).use (some a.binary)) a.bin).free (some a.binary)).free (some a.app)

/-- `application_relocate`, the loop of `module_relocate`. -/
def applicationRelocate (f : ElfFile) (m : ElfBinary) (lookup : List UInt8 → Nat) : RelocRun :=
  relocateLoop f m lookup f.ehdr.eShnum 0

/-- From the table of applications on. -/
def applicationStart (f : ElfFile) (spawn : Int) (h : BlockHeap) (s : AppState) (a : AppStartup) :
    Option (AppState × Int) :=
  (s.reg.add appRealloc h a.binary).bind fun (h, reg) =>
    match elfGetSymbolValue f (cstr "_start") with
    | (0, _) => some ({ s with heap := applicationUnload h a, reg := reg }, -1)
    | (_, none) => none
    | (_, some symval) =>
      let a := { a with bin := { a.bin with init := some symval } }
      if spawn ≠ 0 then some ({ s with heap := applicationUnload h a, reg := reg }, -1)
      else some (⟨h, reg, s.apps ++ [a]⟩, 0)

/-- From the relocation on. -/
def applicationLink (env : AppEnv) (f : ElfFile) (spawn : Int) (h : BlockHeap) (s : AppState)
    (a : AppStartup) : Option (AppState × Int) :=
  match applicationRelocate f a.bin env.lookup with
  | none => none
  | some (_, err) =>
    if err ≠ 0 then some ({ s with heap := applicationUnload h a }, -1)
    else applicationStart f spawn h s a

/-- With the two blocks. -/
def applicationSetup (env : AppEnv) (f : ElfFile) (spawn : Int) (h : BlockHeap) (s : AppState)
    (app binary : Nat) : Option (AppState × Int) :=
  if elfHeaderCheck f ≠ 0 then some ({ s with heap := h }, -1)
  else
    match setupElfBinary f with
    | none => some ({ s with heap := h }, -1)
    | some m =>
      match applicationLoadMem env.place f ⟨h, m, []⟩ with
      | (l, err) =>
        if err ≠ 0 then
          some ({ s with heap := applicationUnload l.heap ⟨app, binary, f, l.bin⟩ }, -1)
        else applicationLink env f spawn l.heap s ⟨app, binary, f, l.bin⟩

/-- `application_load`; `spawn` is what `application_create_process` returns. -/
def applicationLoad (env : AppEnv) (f : ElfFile) (spawn : Int) (s : AppState) : Option (AppState × Int) :=
  match s.heap.alloc sizeofAppStartup with
  | (h, none) => some ({ s with heap := h }, -1)
  | (h, some app) =>
    match h.alloc sizeofElfBinary with
    | (h, none) => some ({ s with heap := h.free (some app) }, -1)
    | (h, some binary) => applicationSetup env f spawn h s app binary

inductive AppEvent where
  | load (f : ElfFile) (spawn : Int)
  | exit (i : Nat)

def appStep (env : AppEnv) (s : AppState) : AppEvent → Option AppState
  | .load f spawn => (applicationLoad env f spawn s).map Prod.fst
  | .exit i => (s.apps[i]?).map fun a =>
      { s with heap := applicationUnload s.heap a, apps := s.apps.eraseIdx i }

/-- Before the first load. -/
def AppState.start (h : BlockHeap) : AppState := ⟨h, ⟨none, 0, []⟩, []⟩

/-- The runs from a heap on. -/
def appSystem (env : AppEnv) (h : BlockHeap) : System AppState AppEvent :=
  .ofFun (· = .start h) (appStep env)

/-! ## 2. Blocks that are accounted for -/

/-- The blocks of an application, but for its common objects. -/
def AppStartup.blocks (a : AppStartup) : List Nat :=
  a.app :: a.binary :: (nameBlocks a.bin.secs ++ (a.bin.sec.toList ++ a.bin.base.toList))

/-- How many common objects it has. -/
def AppStartup.numObjects (a : AppStartup) : Nat := (elfGetCommonObjects a.file).length

/-- Nothing was freed twice, or read when it was freed; the blocks of the loader are those of the
applications that are loaded, and the table; and this lists them, with a null pointer behind them. -/
structure AppConserved (h : BlockHeap) (s : AppState) : Prop where
  clean : s.heap.fault = false
  blocks : ∃ objs : List Nat, objs.length = (s.apps.map AppStartup.numObjects).sum ∧
    s.heap.live.Perm (s.reg.m.toList ++ (s.apps.flatMap AppStartup.blocks ++ objs) ++ h.live)
  listed : s.reg.list.Perm (s.apps.map AppStartup.binary)
  terminated : s.reg.list.length < s.reg.sz ∨ s.reg = ⟨none, 0, []⟩

/-! ## 3. The steps that are clean -/

/-- A load of the image that fails where there is neither an image nor a table. -/
def NoImage (f : ElfFile) (h : BlockHeap) (m : ElfBinary) : Prop :=
  if f.ehdr.eType = etRel then ¬ h.Grants (wadd m.size m.align)
  else f.ehdr.eType = etExec → ¬ h.Grants (12 * elfGetNumAllocSections f)

/-- The loads that leave things as they have to be. -/
inductive LoadClean (env : AppEnv) (f : ElfFile) (spawn : Int) (s : AppState) : Prop where
  /-- the first or the second block is refused -/
  | noBlocks (bad : ¬ s.heap.GrantsAll [sizeofAppStartup, sizeofElfBinary])
  /-- there is no image -/
  | noImage (m : ElfBinary) (header : elfHeaderCheck f = 0) (setup : setupElfBinary f = some m)
      (bad : NoImage f s.heap.grant.grant m)
  /-- there is an image, without common objects, that does not link -/
  | noLink (m : ElfBinary) (l : LoadState) (t : List (Option Applied)) (err : Int)
      (header : elfHeaderCheck f = 0) (setup : setupElfBinary f = some m)
      (load : applicationLoadMem env.place f ⟨s.heap.grant.grant, m, []⟩ = (l, 0))
      (plain : elfGetCommonObjects f = [])
      (bad : applicationRelocate f l.bin env.lookup = some (t, err)) (ne : err ≠ 0)
  /-- nothing fails, and a null pointer is left behind the new entry of the table -/
  | loads (m : ElfBinary) (l : LoadState) (t : List (Option Applied)) (symval : Nat)
      (header : elfHeaderCheck f = 0) (setup : setupElfBinary f = some m)
      (load : applicationLoadMem env.place f ⟨s.heap.grant.grant, m, []⟩ = (l, 0))
      (link : applicationRelocate f l.bin env.lookup = some (t, 0))
      (entry : elfGetSymbolValue f (cstr "_start") = (1, some symval)) (spawned : spawn = 0)
      (room : s.reg.list.length + 1 ≠ s.reg.sz)

/-- A clean step: no application exits. -/
def AppClean (env : AppEnv) (s : AppState) : AppEvent → Prop
  | .load f spawn => LoadClean env f spawn s
  | .exit _ => False

/-! ## 4. What a load leaves -/

variable {env : AppEnv} {f : ElfFile} {spawn : Int} {h h' : BlockHeap} {m : ElfBinary} {l : LoadState}
  {a : AppStartup} {bs rest : List Nat} {s s' : AppState}

/-- What the heap was refused does not matter to what one has. -/
theorem BlockHeap.Owns.same (ho : h.Owns bs rest) (hl : h'.live = h.live) (hf : h'.fault = h.fault) :
    h'.Owns bs rest := ⟨hl ▸ ho.1, hf.trans ho.2⟩

/-- **A load without an image** leaves the heap as it was, and nothing to free. -/
theorem applicationLoadMem_refused (env : AppEnv) (hsetup : setupElfBinary f = some m) (hno : NoImage f h m) :
    ∃ l, applicationLoadMem env.place f ⟨h, m, []⟩ = (l, -(ENOMEM : Int)) ∧ l.bin.sec = none ∧
      l.bin.base = none ∧ l.heap.live = h.live ∧ l.heap.fault = h.fault := by
  obtain ⟨hsec, hbase⟩ := setupElfBinary_none hsetup
  -- the error label has nothing to free
  have hlabel : ∀ l : LoadState, l.bin.sec = none → l.bin.base = none →
      loadReturn (l, false) = (l, -(ENOMEM : Int)) := by
    intro l hs hb
    rw [loadReturn, freeBinary_none hs hb]
  rw [applicationLoadMem]
  unfold NoImage at hno
  split
  · next hrel =>
    rw [if_pos hrel] at hno
    rcases loadBase_eq env.place ⟨h, m, []⟩ with ⟨hg, -⟩ | ⟨-, h₁, heq, hl, hf⟩
    · exact absurd hg hno
    · rw [heq, onward_false, hlabel _ hsec rfl]
      exact ⟨_, rfl, hsec, rfl, hl, hf⟩
  · next hrel =>
    rw [if_neg hrel] at hno
    split
    · next hexec =>
      rcases h.alloc_cases (12 * elfGetNumAllocSections f) with ⟨hg, -⟩ | ⟨-, h₁, heq, hl, hf⟩
      · exact absurd hg (hno hexec)
      · simp only [loadSections, heq]
        rw [hlabel _ rfl hbase]
        exact ⟨_, rfl, rfl, hbase, hl, hf⟩
    · rw [hlabel _ hsec hbase]
      exact ⟨_, rfl, hsec, hbase, rfl, rfl⟩

/-- **A load that succeeds** owns its image, and a block for each common object. -/
theorem applicationLoadMem_owns (hsetup : setupElfBinary f = some m)
    (hload : applicationLoadMem env.place f ⟨h, m, []⟩ = (l, 0)) (ho : h.Owns bs rest) :
    ∃ sec addrs, l.bin.sec = some sec ∧ (∀ e ∈ l.bin.secs, e.isSome) ∧
      addrs.length = (elfGetCommonObjects f).length ∧
      l.heap.Owns (nameBlocks l.bin.secs ++ sec :: (l.bin.base.toList ++ (addrs ++ bs))) rest := by
  obtain ⟨-, hbase⟩ := setupElfBinary_none hsetup
  -- what is there when the sections are loaded: the block of the image, if it has one
  obtain ⟨s₁, hsec, ho₁⟩ : ∃ s₁ : LoadState, loadSections applicationDest env.place f s₁ = (l, true) ∧
      s₁.heap.Owns (s₁.bin.base.toList ++ bs) rest := by
    have hok := loadReturn_ok hload
    split at hok
    · obtain ⟨s₁, hone, hsec⟩ := onward_ok hok
      rcases loadBase_eq env.place ⟨h, m, []⟩ with ⟨-, heq⟩ | ⟨-, h₁, heq, -⟩
      · rw [heq] at hone
        obtain ⟨rfl, -⟩ := Prod.mk.inj hone
        exact ⟨_, hsec, ho.grant⟩
      · rw [heq] at hone
        exact absurd (Prod.mk.inj hone).2 Bool.false_ne_true
    · split at hok
      · refine ⟨_, hok, ?_⟩
        change h.Owns (m.base.toList ++ bs) rest
        rw [hbase]
        exact ho
      · exact absurd (Prod.mk.inj hok).2 Bool.false_ne_true
  have hoff := setupElfBinary_sections hsetup (loadSections_ne_zero hsec)
  obtain ⟨-, sec, es, addrs, hbin, -, hall, -, hcount, howns⟩ := loadSections_ok hoff hsec
  refine ⟨sec, addrs, by rw [hbin]; rfl, hall, hcount, (howns _ rest ho₁).perm ?_⟩
  have hb : l.bin.base = s₁.bin.base := by
    rw [hbin]
    rfl
  rw [hb, List.append_assoc]
  refine List.Perm.append_left _ (List.Perm.cons sec (List.Perm.append_left _ ?_))
  exact List.perm_append_comm

/-- The two blocks go last. -/
theorem applicationUnload_last (happ : a.app ∈ h.live) (hbinary : a.binary ∈ h.live)
    (ho : (freeBinary h a.bin).Owns (a.binary :: a.app :: bs) rest) :
    (applicationUnload h a).Owns bs rest := by
  rw [applicationUnload, BlockHeap.use_of_mem happ, BlockHeap.use_of_mem hbinary]
  exact BlockHeap.Owns.free (BlockHeap.Owns.free ho)

/-- **Unloading without an image.** -/
theorem applicationUnload_none (hsec : a.bin.sec = none) (hbase : a.bin.base = none)
    (ho : h.Owns (a.binary :: a.app :: bs) rest) : (applicationUnload h a).Owns bs rest := by
  refine applicationUnload_last ?_ ?_ ?_
  · exact ho.mem (List.mem_cons_of_mem _ List.mem_cons_self)
  · exact ho.mem List.mem_cons_self
  · rw [freeBinary_none hsec hbase]
    exact ho

/-- **Unloading with one.** -/
theorem applicationUnload_owns {sec : Nat} (hsec : a.bin.sec = some sec)
    (hall : ∀ e ∈ a.bin.secs, e.isSome)
    (ho : h.Owns (nameBlocks a.bin.secs ++ sec :: (a.bin.base.toList ++ (a.binary :: a.app :: bs))) rest) :
    (applicationUnload h a).Owns bs rest := by
  have hmem : ∀ b ∈ a.binary :: a.app :: bs, b ∈ h.live := fun b hb =>
    ho.mem (List.mem_append_right _ (List.mem_cons_of_mem _ (List.mem_append_right _ hb)))
  refine applicationUnload_last ?_ ?_ (freeBinary_owns hsec hall ho)
  · exact hmem _ (List.mem_cons_of_mem _ List.mem_cons_self)
  · exact hmem _ List.mem_cons_self

/-- With both blocks granted. -/
theorem applicationLoad_granted (hg : s.heap.GrantsAll [sizeofAppStartup, sizeofElfBinary]) :
    applicationLoad env f spawn s =
      applicationSetup env f spawn s.heap.grant.grant s s.heap.count s.heap.grant.count := by
  rw [applicationLoad, BlockHeap.alloc_of_grants hg.1]
  dsimp only
  rw [BlockHeap.alloc_of_grants hg.2.1]

/-! ## 5. Clean steps -/

theorem AppConserved.owns (hc : AppConserved h s) : ∃ objs : List Nat,
    objs.length = (s.apps.map AppStartup.numObjects).sum ∧
      s.heap.Owns (s.reg.m.toList ++ (s.apps.flatMap AppStartup.blocks ++ objs)) h.live := by
  obtain ⟨objs, hlen, hperm⟩ := hc.blocks
  exact ⟨objs, hlen, hperm, hc.clean⟩

/-- Another heap with the same blocks. -/
theorem AppConserved.withHeap (hc : AppConserved h s)
    (hkeep : ∀ bs, s.heap.Owns bs h.live → h'.Owns bs h.live) : AppConserved h { s with heap := h' } := by
  obtain ⟨objs, hlen, ho⟩ := hc.owns
  exact ⟨(hkeep _ ho).2, ⟨objs, hlen, (hkeep _ ho).1⟩, hc.listed, hc.terminated⟩

/-- A load without its two blocks. -/
theorem applicationLoad_noBlocks (hc : AppConserved h s)
    (hno : ¬ s.heap.GrantsAll [sizeofAppStartup, sizeofElfBinary])
    (hrun : appStep env s (.load f spawn) = some s') : AppConserved h s' := by
  obtain ⟨⟨s₁, err⟩, hload, rfl⟩ := Option.map_eq_some_iff.mp hrun
  unfold applicationLoad at hload
  rcases s.heap.alloc_cases sizeofAppStartup with ⟨hg, ha⟩ | ⟨-, h₁, ha, hl, hf⟩
  · rcases s.heap.grant.alloc_cases sizeofElfBinary with ⟨hg', -⟩ | ⟨-, h₁, hb, hl, hf⟩
    · exact absurd ⟨hg, hg', trivial⟩ hno
    · simp only [ha, hb] at hload
      obtain ⟨rfl, -⟩ := Prod.mk.inj (Option.some.inj hload)
      exact hc.withHeap fun bs ho => BlockHeap.Owns.free (ho.grant.same hl hf)
  · simp only [ha] at hload
    obtain ⟨rfl, -⟩ := Prod.mk.inj (Option.some.inj hload)
    exact hc.withHeap fun bs ho => ho.same hl hf

/-- With the blocks, the header and the set-up. -/
theorem applicationLoad_setup (hg : s.heap.GrantsAll [sizeofAppStartup, sizeofElfBinary])
    (hheader : elfHeaderCheck f = 0) (hsetup : setupElfBinary f = some m) {err : Int}
    (hload : applicationLoadMem env.place f ⟨s.heap.grant.grant, m, []⟩ = (l, err)) :
    applicationLoad env f spawn s =
      if err ≠ 0 then
        some ({ s with heap := applicationUnload l.heap ⟨s.heap.count, s.heap.grant.count, f, l.bin⟩ }, -1)
      else applicationLink env f spawn l.heap s ⟨s.heap.count, s.heap.grant.count, f, l.bin⟩ := by
  rw [applicationLoad_granted hg, applicationSetup, if_neg (not_not.mpr hheader), hsetup]
  simp only [hload]

/-- **A load that succeeds**, from the table of applications on. -/
theorem applicationStart_conserved {symval : Nat} {h₁ : BlockHeap} {err : Int} (hc : AppConserved h s)
    (hentry : elfGetSymbolValue f (cstr "_start") = (1, some symval)) (hroom : s.reg.list.length + 1 ≠ s.reg.sz)
    (hown : ∀ bs, s.heap.Owns bs h.live → ∃ addrs : List Nat, addrs.length = a.numObjects ∧
      h₁.Owns (a.blocks ++ (addrs ++ bs)) h.live)
    (hrun : applicationStart f 0 h₁ s a = some (s', err)) : AppConserved h s' := by
  obtain ⟨⟨h₂, reg⟩, hadd, hrun⟩ := Option.bind_eq_some_iff.mp hrun
  obtain ⟨hlist, hsz, hadd⟩ := Kmod.add_spec hadd
  simp only [hentry, ne_eq, not_true_eq_false, if_false] at hrun
  obtain ⟨rfl, -⟩ := Prod.mk.inj (Option.some.inj hrun)
  obtain ⟨objs, hlen, ho⟩ := hc.owns
  obtain ⟨addrs, haddrs, ho₁⟩ := hown _ ho
  have ho₂ : h₂.Owns (reg.m.toList ++
      (a.blocks ++ (addrs ++ (s.apps.flatMap AppStartup.blocks ++ objs)))) h.live := by
    refine hadd _ _ (ho₁.perm ?_)
    rw [List.perm_iff_count]
    intro b
    simp only [List.count_append]
    omega
  have hblocks : AppStartup.blocks { a with bin := { a.bin with init := some symval } } = a.blocks := rfl
  refine ⟨ho₂.2, ⟨objs ++ addrs, ?_, ?_⟩, ?_, ?_⟩
  · rw [List.length_append, hlen, haddrs, List.map_append, List.sum_append, List.map_singleton,
      List.sum_singleton]
    rfl
  · refine ho₂.1.trans (List.Perm.append_right _ (List.Perm.append_left _ ?_))
    rw [List.flatMap_append, List.flatMap_singleton, hblocks, List.perm_iff_count]
    intro b
    simp only [List.count_append]
    omega
  · rw [hlist, List.map_append, List.map_singleton]
    exact hc.listed.append_right _
  · refine .inl ?_
    rw [hlist, hsz, List.length_append, List.length_singleton]
    rcases hc.terminated with hlt | hempty
    · rw [if_neg (by omega)]
      omega
    · rw [hempty]
      decide

/-- **A clean load conserves.** -/
theorem applicationLoad_clean (hc : AppConserved h s) (hclean : LoadClean env f spawn s)
    (hrun : appStep env s (.load f spawn) = some s') : AppConserved h s' := by
  by_cases hg : s.heap.GrantsAll [sizeofAppStartup, sizeofElfBinary]
  · obtain ⟨⟨s₁, err⟩, hrun', rfl⟩ := Option.map_eq_some_iff.mp hrun
    cases hclean with
    | noBlocks hno => exact absurd hg hno
    | noImage m hheader hsetup hno =>
      obtain ⟨l, hload, hsec, hbase, hl, hf⟩ := applicationLoadMem_refused env hsetup hno
      rw [applicationLoad_setup hg hheader hsetup hload, if_pos (by decide)] at hrun'
      obtain ⟨rfl, -⟩ := Prod.mk.inj (Option.some.inj hrun')
      exact hc.withHeap fun bs ho => applicationUnload_none hsec hbase (ho.grant.grant.same hl hf)
    | noLink m l t err hheader hsetup hload hplain hlink hne =>
      rw [applicationLoad_setup hg hheader hsetup hload, if_neg (not_not.mpr rfl), applicationLink] at hrun'
      simp only [hlink] at hrun'
      rw [if_pos hne] at hrun'
      obtain ⟨rfl, -⟩ := Prod.mk.inj (Option.some.inj hrun')
      refine hc.withHeap fun bs ho => ?_
      obtain ⟨sec, addrs, hsec, hall, hlen, howns⟩ :=
        applicationLoadMem_owns hsetup hload ho.grant.grant
      rw [hplain] at hlen
      obtain rfl := List.eq_nil_of_length_eq_zero hlen
      exact applicationUnload_owns hsec hall howns
    | loads m l t symval hheader hsetup hload hlink hentry hspawn hroom =>
      rw [applicationLoad_setup hg hheader hsetup hload, if_neg (not_not.mpr rfl), applicationLink] at hrun'
      simp only [hlink] at hrun'
      rw [if_neg (not_not.mpr rfl), hspawn] at hrun'
      refine applicationStart_conserved hc hentry hroom (fun bs ho => ?_) hrun'
      obtain ⟨sec, addrs, hsec, -, hlen, howns⟩ := applicationLoadMem_owns hsetup hload ho.grant.grant
      refine ⟨addrs, hlen, howns.perm ?_⟩
      rw [AppStartup.blocks, hsec, List.perm_iff_count]
      intro b
      simp only [Option.toList_some, List.count_append, List.count_cons, List.count_nil]
      omega
  · exact applicationLoad_noBlocks hc hg hrun

/-! ## 6. Clean runs -/

theorem appStart_conserved (hf : h.fault = false) : AppConserved h (.start h) where
  clean := hf
  blocks := ⟨[], rfl, List.Perm.refl _⟩
  listed := List.Perm.refl _
  terminated := .inr rfl

/-- **Every run of clean steps conserves**: in each of its states, the blocks and the table are those of the
applications that are loaded. -/
theorem applications_conserved (env : AppEnv) (h : BlockHeap) (hf : h.fault = false) (s : AppState)
    (hrun : (appSystem env h).Reachable (AppClean env) s) : AppConserved h s := by
  refine System.Reachable.invariant (fun s hs => ?_) (fun s e s' hc hclean hstep => ?_) hrun
  · rw [hs]
    exact appStart_conserved hf
  · cases e with
    | load f spawn => exact applicationLoad_clean hc hclean hstep
    | exit i => exact absurd hclean not_false

/-! ### Two runs -/

def sampleAppEnv : AppEnv := ⟨samplePlace, fun _ => 0⟩

/-- The header of a file that is no ELF file. -/
def zeroFile : ElfFile := List.replicate 52 0

/-- A file with a start function. -/
def startFile : ElfFile := relocSampleOf (cstr "_start") 0x12 2

/-- One load that succeeds, and one whose second block is refused. -/
theorem applications_conserved_loaded : ∃ s,
    (appSystem sampleAppEnv (.empty fun n => n ≠ 6)).Reachable (AppClean sampleAppEnv) s ∧
      s.apps.length = 1 ∧ AppConserved (.empty fun n => n ≠ 6) s := by
  have hrun : ((appStep sampleAppEnv (.start (.empty fun n => n ≠ 6)) (.load startFile 0)).bind
      fun s => (appStep sampleAppEnv s (.load zeroFile 0)).map fun s' =>
        (s.heap.answers s.heap.count, s'.apps.length)) = some (false, 1) := by decide +kernel
  obtain ⟨s, hs, hrun⟩ := Option.bind_eq_some_iff.mp hrun
  obtain ⟨s', hs', heq⟩ := Option.map_eq_some_iff.mp hrun
  obtain ⟨hrefused, hlen⟩ := Prod.mk.inj heq
  have hstart : (appSystem sampleAppEnv (.empty fun n => n ≠ 6)).Reachable (AppClean sampleAppEnv) s :=
    .step (o := .load startFile 0) (.init rfl) (.loads
      ((setupElfBinary startFile).getD .start)
      (applicationLoadMem samplePlace startFile
        ⟨(BlockHeap.empty fun n => n ≠ 6).grant.grant, (setupElfBinary startFile).getD .start, []⟩).1
      [some ⟨⟨0, 2 ^ 8 + 3, 0⟩, 12288, 12288⟩] 0 (by decide) (by decide)
      (Prod.ext rfl (by decide +kernel)) (by decide +kernel) (by decide +kernel) rfl (by decide)) hs
  have hclean : LoadClean sampleAppEnv zeroFile 0 s :=
    .noBlocks fun hg => absurd (hg.1.2.symm.trans hrefused) Bool.noConfusion
  have hall : (appSystem sampleAppEnv (.empty fun n => n ≠ 6)).Reachable (AppClean sampleAppEnv) s' :=
    .step (o := .load zeroFile 0) hstart hclean hs'
  exact ⟨s', hall, hlen, applications_conserved sampleAppEnv _ rfl _ hall⟩

/-- Both blocks are lost where the header is not one. -/
theorem applications_lose_blocks : ¬ ∀ (env : AppEnv) (h : BlockHeap) (s : AppState), h.fault = false →
    (appSystem env h).Reachable (fun _ _ => True) s → AppConserved h s := by
  intro hall
  have hrun : (appStep sampleAppEnv (.start (.empty fun _ => true)) (.load zeroFile 0)).map
      (fun s => (s.heap.live, s.reg, s.apps.length)) = some ([1, 0], ⟨none, 0, []⟩, 0) := by
    decide
  obtain ⟨s, hs, heq⟩ := Option.map_eq_some_iff.mp hrun
  obtain ⟨hlive, heq⟩ := Prod.mk.inj heq
  obtain ⟨hreg, happs⟩ := Prod.mk.inj heq
  obtain ⟨objs, hlen, hperm⟩ := (hall _ _ s rfl (.step (.init rfl) trivial hs)).blocks
  rw [List.eq_nil_of_length_eq_zero happs] at hlen hperm
  obtain rfl := List.eq_nil_of_length_eq_zero hlen
  rw [hlive, hreg] at hperm
  exact absurd hperm.length_eq (by decide)

end FlightOs
