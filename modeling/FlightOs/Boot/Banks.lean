/-
# The boot memory of a table of banks

`bootmem_init` looks for the bank that the image lies in and reserves what is before the end of the
image; then it adds the other banks.  It goes wrong, or does not come to its end,

* where the image reaches into the last page of its bank, for its end is then not found in it, and
  where that bank starts at zero or a block of the memory manager is larger than a page;
* where a bank is smaller than a page, or ends with the last address, which wraps to zero;
* where the table has an entry that is not in use: the loop runs over these as well, and fails for
  each that does not start where the bank of the image does;
* where there are more banks than `INIT_PAGE_MAP_MAX_ENTRIES`: `MEM_PAGE_NODE` takes the place of the
  null entry for one that can be used.

`bootmemInit_iff`: these are all the cases, as long as boot memory does not run out.
-/
import FlightOs.Boot.Memory

namespace FlightOs

/-! ## 1. The table -/

/-- A table of banks without a common address, which are page-aligned and powers of two, and of
entries behind them that are not in use.  `img` is the bank that has the image. -/
structure BootTable (c : BootConfig) (banks unused : List PhysBank) (img : PhysBank) : Prop where
  table : c.spBanks = banks ++ unused
  used : ∀ b ∈ banks, ∃ k ≤ c.mmBlockOrderMax, b.numBytes = 2 ^ k
  aligned : ∀ b ∈ banks, pageSize ∣ b.baseAddr
  fits : ∀ b ∈ banks, b.baseAddr + b.numBytes ≤ 2 ^ 32
  apart : banks.Pairwise BanksApart
  unused : ∀ b ∈ unused, b.numBytes = 0 ∧ b.baseAddr < 2 ^ 32
  bank : img ∈ banks
  image : img.baseAddr ≤ c.imgStart ∧ c.imgStart < c.imgEnd ∧
    c.imgEnd ≤ img.baseAddr + img.numBytes ∧ c.imgEnd < 2 ^ 32
  orders : c.mmBlockOrderMin < c.mmBlockOrderMax ∧ c.mmBlockOrderMax < 32

/-- Where the image lets its bank be found and set up. -/
structure ImageFits (c : BootConfig) (img : PhysBank) : Prop where
  order : c.mmBlockOrderMin ≤ 12
  ends : img.baseAddr + img.numBytes < 2 ^ 32
  nonzero : img.baseAddr ≠ 0
  behind : c.imgEnd + pageSize ≤ img.baseAddr + img.numBytes

/-- What `bootmem_init` reserves. -/
def imageReserved (c : BootConfig) (img : PhysBank) : Nat := pageAlign c.imgEnd - img.baseAddr

instance (a b : PhysBank) : Decidable (BanksApart a b) := inferInstanceAs (Decidable (_ ∨ _))

instance : Std.Symm BanksApart := ⟨fun _ _ h => Or.symm h⟩

section Table

variable {c : BootConfig} {banks unused : List PhysBank} {img b : PhysBank} {start : Nat}

theorem BootTable.pos (h : BootTable c banks unused img) (hb : b ∈ banks) : 0 < b.numBytes := by
  obtain ⟨k, -, hk⟩ := h.used b hb
  rw [hk]
  exact Nat.two_pow_pos k

/-- The end of the image, rounded up, or zero behind the last page. -/
theorem pageAlign_cases {x : Nat} (h : x < 2 ^ 32) : (pageAlign x = 0 ∧ 2 ^ 32 - pageSize < x) ∨
    (pageSize ∣ pageAlign x ∧ x ≤ pageAlign x ∧ pageAlign x < x + pageSize) := by
  have hps : pageSize = 4096 := rfl
  rcases Nat.lt_or_ge (x + (pageSize - 1)) (2 ^ 32) with hlt | hge
  · exact Or.inr (walign_spec (by decide) hlt)
  · refine Or.inl ⟨?_, by omega⟩
    rw [hps] at hge
    rw [pageAlign, walign, wadd, hps]
    omega

/-- What the search finds. -/
theorem bootFindBank_some {l : List PhysBank} (h : bootFindBank start l = some b) :
    b ∈ l ∧ b.numBytes ≠ 0 ∧ b.baseAddr ≤ start ∧ start < wadd b.baseAddr b.numBytes := by
  induction l with
  | nil => cases h
  | cons a l ih =>
    rw [bootFindBank] at h
    split at h
    · cases h
    next h0 =>
    split at h
    · obtain ⟨hmem, hrest⟩ := ih h
      exact ⟨List.mem_cons_of_mem a hmem, hrest⟩
    next hle =>
    split at h
    · next hlt =>
      obtain rfl := Option.some.inj h
      exact ⟨List.mem_cons_self, h0, Nat.not_lt.mp hle, hlt⟩
    · obtain ⟨hmem, hrest⟩ := ih h
      exact ⟨List.mem_cons_of_mem a hmem, hrest⟩

/-- It finds the one bank with the address. -/
theorem bootFindBank_eq {l rest : List PhysBank} (hpos : ∀ a ∈ l, 0 < a.numBytes)
    (hapart : ∀ a ∈ l, a ≠ b → BanksApart a b) (hb : b ∈ l) (hends : b.baseAddr + b.numBytes < 2 ^ 32)
    (hle : b.baseAddr ≤ start) (hlt : start < b.baseAddr + b.numBytes) :
    bootFindBank start (l ++ rest) = some b := by
  induction l with
  | nil => cases hb
  | cons a l ih =>
    have hne := Nat.ne_of_gt (hpos a List.mem_cons_self)
    rw [List.cons_append, bootFindBank, if_neg hne]
    by_cases hab : a = b
    · rw [hab, if_neg (Nat.not_lt.mpr hle), wadd_of_lt hends, if_pos hlt]
    · have hmem : b ∈ l := (List.mem_cons.mp hb).resolve_left (Ne.symm hab)
      have hrec := ih (fun x hx => hpos x (List.mem_cons_of_mem a hx))
        (fun x hx => hapart x (List.mem_cons_of_mem a hx)) hmem
      have hwrap : wadd a.baseAddr a.numBytes ≤ a.baseAddr + a.numBytes :=
        (Nat.mod_le _ _).trans_eq (Nat.add_comm _ _)
      have hmiss := hapart a List.mem_cons_self hab
      rw [BanksApart] at hmiss
      by_cases hbefore : start < a.baseAddr
      · rw [if_pos hbefore]
        exact hrec
      · rw [if_neg hbefore, if_neg (by omega)]
        exact hrec

end Table

/-! ## 2. The image -/

section Image

variable {c : BootConfig} {m : BootStorage} {banks unused : List PhysBank} {img b : PhysBank}

/-- The first block of a new pool is the one at its base. -/
theorem mmAlloc_fresh {mm : Mm} {F : Finset Blk} {size : Nat} (h : MmInv mm.pool ∅ F) (h0 : size ≠ 0)
    (hle : size ≤ 2 ^ mm.pool.maxOrder) : (mmAlloc mm size).2 = some mm.pool.base := by
  have hmax := h.geom.maxOrder_lt
  have hpow : 2 ^ mm.pool.maxOrder ≤ 2 ^ 31 := Nat.pow_le_pow_right (by decide) (by omega)
  have hord : ilog2 (roundupPowOfTwo size) ≤ mm.pool.maxOrder :=
    (ilog2_roundup_le_iff (Nat.pos_of_ne_zero h0) (by omega)).mpr hle
  have hfix : mmFixupValidate mm.pool 0 (ilog2 (roundupPowOfTwo size)) = mmReqOrder mm.pool size :=
    mmFixupValidate_null hord
  have hreq : mmReqOrder mm.pool size ≤ mm.pool.maxOrder := max_le h.geom.minOrder_le hord
  have herr : isErrValue (mmReqOrder mm.pool size) = false := isErrValue_of_lt (by omega)
  have hnone : mm.pool.allocBlks = 0 := h.allocBlks_eq_zero_iff.mpr rfl
  rw [mmAlloc, if_neg h0, hfix, mmAllocOrder, if_neg (Bool.eq_false_iff.mp herr), if_neg (not_not.mpr hnone)]

/-- **The first node.** -/
theorem pageMapInit_first (map : PageMap) (hb : BankFits b) {k : Nat} (hk : b.numBytes = 2 ^ k) :
    ∃ map', pageMapInit map [0] b.baseAddr (b.baseAddr + b.numBytes) pageSize = (map', 0) ∧
      map'.pageMem = some [0] ∧ BankNode b (map'.node 0) ∧ PgConfigured [0] ⟨map', fun _ => []⟩ ∧
      ∀ size, b.baseAddr ≠ 0 → size ≠ 0 → size ≤ b.numBytes →
        (mmAlloc (map'.mm 0) size).2 = some b.baseAddr := by
  have hps : pageSize = 4096 := rfl
  have hpage := hb.page_le
  have hfits := hb.fits
  have hlen : b.baseAddr + b.numBytes - b.baseAddr = b.numBytes := Nat.add_sub_cancel_left ..
  obtain ⟨hret, hmin⟩ := mmInit_pages ⟨(map.node 0).pool, map.stat⟩ b.baseAddr b.numBytes hpage (by omega)
  have hmax : (mmInit ⟨(map.node 0).pool, map.stat⟩ b.baseAddr b.numBytes pageSize).1.pool.maxOrder ≠ 0 :=
    mmInit_maxOrder_ne_zero _ _ _ (by omega) (by omega)
  obtain ⟨⟨mm, stat⟩, hinit⟩ : ∃ mm, mmInit ⟨(map.node 0).pool, map.stat⟩ b.baseAddr b.numBytes pageSize =
    (mm, 0) := ⟨_, Prod.ext rfl hret⟩
  rw [hinit] at hmin hmax
  obtain ⟨map', hmap⟩ : ∃ map', map' = pageMapSetMap ((map.setMm 0 ⟨mm, stat⟩).setSection 0 b.baseAddr
    (b.baseAddr + b.numBytes)) [0] := ⟨_, rfl⟩
  have hnode : map'.node 0 = ⟨mm, b.baseAddr, b.baseAddr + b.numBytes⟩ := by
    rw [hmap]
    simp [pageMapSetMap, PageMap.setSection, PageMap.setMm]
  have hbank : BankNode b (map'.node 0) := by
    rw [hnode]
    exact ⟨rfl, rfl, hmin, hmax⟩
  have hmem : map'.pageMem = some [0] := by
    rw [hmap]
    rfl
  refine ⟨map', ?_, hmem, hbank, ⟨⟨[0], hmem, fun i hi => hi⟩, ?_, fun i hi => ?_, fun i hi j hj hij => ?_,
    fun i => rfl⟩, fun size h0 hne hle => ?_⟩
  · rw [pageMapInit, if_neg (by omega), hlen, hinit, hmap]
    rfl
  · rw [hmap]
    exact pageMapSetMap_lists _ (List.nodup_singleton 0)
  · rw [List.mem_singleton.mp hi]
    show (map'.node 0).SetUp
    rw [hnode]
    refine ⟨show b.baseAddr + 2 ≤ b.baseAddr + b.numBytes by omega, hfits,
      ⟨(map.node 0).pool, map.stat⟩, stat, pageSize, ?_⟩
    dsimp only
    rw [hlen]
    exact hinit
  · exact absurd ((List.mem_singleton.mp hi).trans (List.mem_singleton.mp hj).symm) hij
  · let A : MmArea := ⟨b.baseAddr, b.numBytes, pageSize, Nat.pos_of_ne_zero h0, by omega, hfits⟩
    obtain ⟨hinv, -, hbase, hord⟩ := mmInit_spec A hinit
    have hpool : (map'.mm 0).pool = mm := by
      show (map'.node 0).pool = mm
      rw [hnode]
    have hinv' : MmInv (map'.mm 0).pool ∅ {⟨0, mm.maxOrder⟩} := hpool ▸ hinv
    have hord' : mm.maxOrder = Nat.log2 b.numBytes := hord
    have hbase' : mm.base = b.baseAddr := hbase
    rw [mmAlloc_fresh hinv' hne, hpool, hbase']
    rw [hpool, hord', hk, Nat.log2_two_pow, ← hk]
    exact hle

/-- What is reserved reaches from the start of the bank behind the image. -/
theorem BootTable.reserved (hT : BootTable c banks unused img) (hI : ImageFits c img) :
    pageAlign c.imgEnd = img.baseAddr + imageReserved c img ∧
      c.imgEnd ≤ img.baseAddr + imageReserved c img ∧ 0 < imageReserved c img ∧
      imageReserved c img < img.numBytes := by
  obtain ⟨h1, h2, -, h4⟩ := hT.image
  have hends := hI.ends
  have hbehind := hI.behind
  have hps : pageSize = 4096 := rfl
  unfold imageReserved
  rcases pageAlign_cases h4 with ⟨-, hlast⟩ | ⟨-, hle, hlt⟩
  · omega
  · omega

/-- **The image**, where it lets its bank be found and set up. -/
theorem bootSetupImage_spec (hT : BootTable c banks unused img) (hI : ImageFits c img) :
    ∃ s, bootSetupImage c m = some (img.baseAddr, s) ∧
      BootInv [img] img (imageReserved c img) s := by
  have hps : pageSize = 4096 := rfl
  have hends := hI.ends
  have hbehind := hI.behind
  obtain ⟨hstart, -, hpos, hlt⟩ := hT.reserved hI
  obtain ⟨k, hk, hpow⟩ := hT.used img hT.bank
  obtain ⟨hmin, hmax⟩ := hT.orders
  have hb : BankFits img := ⟨by have := hT.image; omega, hends⟩
  have hfind : bootFindBank (pageAlign c.imgEnd) c.spBanks = some img := by
    rw [hT.table]
    exact bootFindBank_eq (fun a ha => hT.pos ha) (fun a ha hne => hT.apart.forall ha hT.bank hne)
      hT.bank hends (by omega) (by omega)
  obtain ⟨map, hinit, hmem, hnode, hcfg, hfirst⟩ := pageMapInit_first m.map hb hpow
  have K := hcfg.kept
  -- the first block of the new pool
  have hok : PgUseOk [0] ⟨map, fun _ => []⟩ (.reserve (imageReserved c img)) := by
    intro pg hpg
    obtain rfl := Option.some.inj (hmem.symm.trans hpg)
    exact ⟨List.cons_ne_nil _ _, readyFor_of_all fun i hi => hi⟩
  obtain ⟨fuel, s', hcall⟩ := K.returns hok
  obtain ⟨st, hst, rfl⟩ := Option.map_eq_some_iff.mp hcall
  have hpage : st.page = some img.baseAddr := by
    have hask := hfirst (imageReserved c img) hI.nonzero (Nat.ne_of_gt hpos) (Nat.le_of_lt hlt)
    simp only [pageMapReserveChunk, hmem, if_neg (List.cons_ne_nil _ _), pageMapReserveFrom] at hst
    obtain rfl := Option.some.inj hst
    simp only [PageScan.ask, hask, Option.isSome_some, if_pos]
  have F := pgUse_frame K hok hcall
  obtain ⟨i, hi, hlive, -⟩ := K.reserved (fun i hi => by
    rw [List.mem_singleton.mp hi, hnode.pgSize_eq]
    decide) hok hst hpage
  obtain rfl := List.mem_singleton.mp hi
  refine ⟨⟨_, bootmemPool m.hdr m.links, false⟩, ?_, ⟨F.pageMem.trans hmem, K.step hok hcall, ?_, ?_, rfl,
    hlive⟩, ?_, (BootmemRun.init (Y := False)).run, rfl, ?_⟩
  · have hsize : wsub (pageAlign c.imgEnd) img.baseAddr = imageReserved c img := by
      rw [hstart, wsub_of_le (by omega) (by omega), Nat.add_sub_cancel_left]
    have hbig : ¬ wshl 1 c.mmBlockOrderMax < wsub (img.baseAddr + img.numBytes) img.baseAddr := by
      rw [wsub_of_le (by omega) (by omega), Nat.add_sub_cancel_left, wshl_one hmax, hpow, Nat.not_lt]
      exact Nat.pow_le_pow_right (by decide) hk
    have horder : ¬ pageSize < wshl 1 c.mmBlockOrderMin := by
      rw [wshl_one (by omega), Nat.not_lt]
      show 2 ^ c.mmBlockOrderMin ≤ 2 ^ 12
      exact Nat.pow_le_pow_right (by decide) hI.order
    have hbase : (if pageAlign c.imgStart ≠ img.baseAddr then img.baseAddr else pageAlign c.imgStart) =
        img.baseAddr := by
      split
      · rfl
      · next h => exact not_not.mp h
    simp only [bootSetupImage, hfind, hbase, wadd_of_lt hends, if_neg hbig, if_neg horder, hinit, hsize,
      hst, hpage, ne_eq, not_true_eq_false, if_false, reduceCtorEq]
    simp only [PgHeld.take, hpage]
  · intro j b hjb
    have hj : j = 0 := by
      have := (List.getElem?_eq_some_iff.mp hjb).1
      simpa using this
    subst hj
    obtain rfl := Option.some.inj hjb
    exact hnode.same (F.same 0)
  · intro j hj
    have hnot : j ∉ [0] := by
      rw [List.length_singleton] at hj
      rw [List.mem_singleton]
      omega
    exact F.unused j hnot rfl
  · intro b hb
    rw [List.mem_singleton.mp hb]
    exact hends
  · intro r hr
    cases hr

theorem pageMapReserveFrom_zero {pg : List Nat} {st : PageScan} (h : st.page = none) :
    (pageMapReserveFrom 0 pg st).page = none := by
  induction pg generalizing st with
  | nil => exact h
  | cons i pg ih =>
    have hask : (st.ask i 0).page = none := rfl
    rw [pageMapReserveFrom]
    simp only [hask]
    exact ih hask

/-- What is in a bank at the null address cannot be had. -/
theorem PgPool.start_pos {w : PageMapNode} {live : List (Nat × Nat)} (h : PgPool w live)
    {e : Nat × Nat} (he : e ∈ live) : w.memStart ≠ 0 := by
  cases h with
  | @run A F stat start stop run =>
    rw [start]
    exact Nat.ne_of_gt A.base_pos
  | null start stop base maxOrder taken exhausted full live =>
    rw [live] at he
    cases he

/-- The steps up to the reservation of the image, where none of them stops. -/
theorem bootSetupImage_some {r : Nat × BootState} (h : bootSetupImage c m = some r) :
    ∃ b map st, bootFindBank (pageAlign c.imgEnd) c.spBanks = some b ∧
      ¬ pageSize < wshl 1 c.mmBlockOrderMin ∧
      pageMapInit m.map [0] b.baseAddr (wadd b.baseAddr b.numBytes) pageSize = (map, 0) ∧
      pageMapReserveChunk map (wsub (pageAlign c.imgEnd) b.baseAddr) = some st ∧ st.page ≠ none := by
  simp only [bootSetupImage] at h
  split at h
  · cases h
  next b hfind =>
  have hbase : (if pageAlign c.imgStart ≠ b.baseAddr then b.baseAddr else pageAlign c.imgStart) =
      b.baseAddr := by
    split
    · rfl
    · next h => exact not_not.mp h
  rw [hbase] at h
  split at h
  · cases h
  split at h
  · cases h
  next horder =>
  split at h
  · cases h
  next hret =>
  split at h
  · cases h
  next st hst =>
  split at h
  · cases h
  next hpage =>
  exact ⟨b, _, st, hfind, horder, Prod.ext rfl (not_not.mp hret), hst, hpage⟩

theorem ImageFits.of_setup (hT : BootTable c banks unused img) {r : Nat × BootState}
    (h : bootSetupImage c m = some r) : ImageFits c img := by
  have hps : pageSize = 4096 := rfl
  obtain ⟨b, map, st, hfind, horder, hinit, hst, hpage⟩ := bootSetupImage_some h
  obtain ⟨hmem, hne, hle, hlt⟩ := bootFindBank_some hfind
  obtain ⟨hs, hse, hei, he32⟩ := hT.image
  obtain ⟨hmin, hmax⟩ := hT.orders
  have hb : b ∈ banks := by
    rw [hT.table] at hmem
    exact (List.mem_append.mp hmem).resolve_right fun hu => hne (hT.unused b hu).1
  have hends : b.baseAddr + b.numBytes < 2 ^ 32 := by
    rcases Nat.lt_or_eq_of_le (hT.fits b hb) with hlt' | heq
    · exact hlt'
    · rw [wadd, Nat.add_comm, heq, Nat.mod_self] at hlt
      omega
  rw [wadd_of_lt hends] at hlt hinit
  obtain ⟨p, hp⟩ := hT.aligned b hb
  rw [hps] at hp
  -- something is reserved
  have hsize : b.baseAddr < pageAlign c.imgEnd := by
    rcases Nat.lt_or_eq_of_le hle with hlt' | heq
    · exact hlt'
    · rw [← heq, wsub_of_le (by omega) (Nat.le_refl _), Nat.sub_self, pageMapReserveChunk] at hst
      split at hst
      · obtain rfl := Option.some.inj hst
        exact absurd rfl hpage
      · split at hst
        · cases hst
        · obtain rfl := Option.some.inj hst
          exact absurd (pageMapReserveFrom_zero rfl) hpage
  obtain ⟨⟨q, hq⟩, hge, hnext⟩ := (pageAlign_cases he32).resolve_left fun h0 => by omega
  rw [hps] at hq
  -- the bank that is found has the image
  have hbi : b = img := by
    by_contra hbi
    rcases hT.apart.forall hb hT.bank hbi with hbefore | hbehind
    · omega
    · omega
  subst hbi
  obtain ⟨k, hk, hpow⟩ := hT.used b hb
  have hk12 : 12 < k := (Nat.pow_lt_pow_iff_right (a := 2) (by decide)).mp (by omega)
  obtain ⟨d, hd⟩ : 2 ^ 12 ∣ 2 ^ k := Nat.pow_dvd_pow 2 (Nat.le_of_lt hk12)
  refine ⟨?_, hends, fun h0 => ?_, by omega⟩
  · rw [wshl_one (by omega), Nat.not_lt] at horder
    exact (Nat.pow_le_pow_iff_right (a := 2) (by decide)).mp (show 2 ^ c.mmBlockOrderMin ≤ 2 ^ 12 from horder)
  · have hfits : BankFits b := ⟨by omega, hends⟩
    obtain ⟨map', hinit', hmem', hnode, hcfg, -⟩ := pageMapInit_first m.map hfits hpow
    obtain ⟨rfl, -⟩ := Prod.mk.inj (hinit.symm.trans hinit')
    obtain ⟨a, ha⟩ := Option.ne_none_iff_exists'.mp hpage
    have hok : PgUseOk [0] ⟨map, fun _ => []⟩ (.reserve (wsub (pageAlign c.imgEnd) b.baseAddr)) := by
      intro pg hpg
      obtain rfl := Option.some.inj (hmem'.symm.trans hpg)
      exact ⟨List.cons_ne_nil _ _, readyFor_of_all fun i hi => hi⟩
    obtain ⟨i, hi, hlive, -⟩ := hcfg.kept.reserved (fun i hi => by
      rw [List.mem_singleton.mp hi, hnode.pgSize_eq]
      decide) hok hst ha
    have K' := (hcfg.kept.reserve hok hst).1
    obtain rfl := List.mem_singleton.mp hi
    have hcall : pgUse 0 ⟨map, fun _ => []⟩ (.reserve (wsub (pageAlign c.imgEnd) b.baseAddr)) = some
        ((⟨map, fun _ => []⟩ : PgHeld).take st fun _ => wsub (pageAlign c.imgEnd) b.baseAddr) :=
      Option.map_eq_some_iff.mpr ⟨st, hst, rfl⟩
    have F := pgUse_frame hcfg.kept hok hcall
    refine (K'.pool 0 hi).start_pos hlive ?_
    rw [(F.same 0).memStart]
    exact hnode.memStart.trans h0

end Image

/-! ## 3. The other banks -/

/-- The entries that do not start where the bank of the image does. -/
def otherBanks (img : PhysBank) (l : List PhysBank) : List PhysBank :=
  l.filter fun b => b.baseAddr ≠ img.baseAddr

/-- How the loop ends: boot memory has run out, an entry cannot be added, the null entry is gone, or
each entry has its node. -/
inductive BootAdded (c : BootConfig) (img : PhysBank) (reserved : Nat) (added bs : List PhysBank) :
    BootResult → Prop
  | outOfMemory : BootAdded c img reserved added bs .outOfMemory
  | bug {b : PhysBank} (mem : b ∈ otherBanks img bs) (bad : ¬ BankFits b) :
      BootAdded c img reserved added bs .bug
  | full {s : BootState} {pg : List Nat} (pageMem : s.held.map.pageMem = some pg)
      (full : c.initPageMapMaxEntries < pg.length)
      (many : c.initPageMapMaxEntries < (added ++ otherBanks img bs).length) :
      BootAdded c img reserved added bs (.done s)
  | all {s : BootState} (fits : ∀ b ∈ otherBanks img bs, BankFits b)
      (inv : BootInv (added ++ otherBanks img bs) img reserved s) :
      BootAdded c img reserved added bs (.done s)

section Loop

variable {c : BootConfig} {banks unused bs added : List PhysBank} {img b : PhysBank} {reserved : Nat}
  {s : BootState}

/-- An entry that is not taken for a bank. -/
theorem pageMapAdd_bad {map : PageMap} {pg : List Nat} (hmem : map.pageMem = some pg)
    (hle : b.baseAddr + b.numBytes ≤ 2 ^ 32) (hbad : ¬ BankFits b) :
    pageMapAdd map b.baseAddr (wadd b.baseAddr b.numBytes) pageSize = some (map, -(ENOMEM : Int)) := by
  rw [pageMapAdd, hmem]
  dsimp only
  rcases Nat.lt_or_eq_of_le hle with hends | heq
  · have hsmall : b.numBytes < pageSize := by
      by_contra hnot
      exact hbad ⟨Nat.not_lt.mp hnot, hends⟩
    rw [wadd_of_lt hends, if_neg (by omega), if_pos (by omega)]
  · have hwrap : wadd b.baseAddr b.numBytes = 0 := by
      rw [wadd, Nat.add_comm, heq, Nat.mod_self]
    rw [hwrap]
    rcases Nat.eq_zero_or_pos b.baseAddr with h0 | hpos
    · rw [if_neg (by omega), if_pos (show 0 - b.baseAddr < pageSize by rw [Nat.zero_sub]; decide)]
    · rw [if_pos hpos]

/-- The node of one more bank. -/
theorem BootInv.add (h : BootInv added img reserved s) (hb : BankFits b)
    (hapart : ∀ a ∈ added, BanksApart a b) :
    ∃ map, pageMapAdd (s.held.map.store added.length) b.baseAddr (wadd b.baseAddr b.numBytes) pageSize =
        some (map, 0) ∧
      BootInv (added ++ [b]) img reserved { s with held := { s.held with map } } := by
  obtain ⟨map, hadd, P⟩ := h.pages.add hb hapart
  refine ⟨map, hadd, P, fun a ha => ?_, h.pool, h.real, fun r hr => ?_⟩
  · rcases List.mem_append.mp ha with ha | ha
    · exact h.ends a ha
    · rw [List.mem_singleton.mp ha]
      exact hb.fits
  · obtain ⟨i, hi, e, he, her, hsz⟩ := h.regions r hr
    have hi' : i ∈ List.range (added ++ [b]).length := by
      rw [List.mem_range] at hi ⊢
      rw [List.length_append]
      omega
    obtain ⟨a, -, ha⟩ := h.pages.node_of_mem hi
    obtain ⟨a', -, ha'⟩ := P.node_of_mem hi'
    refine ⟨i, hi', e, he, her, hsz.trans ?_⟩
    exact ((h.pages.kept.pool i hi).blockSize_same (P.kept.pool i hi')
      (ha'.minOrder.trans ha.minOrder.symm) he he).symm

variable (bs) in
theorem otherBanks_cons_pos (h : b.baseAddr ≠ img.baseAddr) :
    otherBanks img (b :: bs) = b :: otherBanks img bs := by
  simp [otherBanks, h]

variable (bs) in
theorem otherBanks_cons_neg (h : b.baseAddr = img.baseAddr) :
    otherBanks img (b :: bs) = otherBanks img bs := by
  simp [otherBanks, h]

/-- **The loop.** -/
theorem bootAddBanks_spec (horders : c.mmBlockOrderMin < c.mmBlockOrderMax ∧ c.mmBlockOrderMax < 32)
    (h : BootInv added img reserved s)
    (hends : ∀ b ∈ bs, b.baseAddr + b.numBytes ≤ 2 ^ 32)
    (hnew : ∀ b ∈ otherBanks img bs, BankFits b → ∀ a ∈ added, BanksApart a b)
    (hapart : (otherBanks img bs).Pairwise fun a b => BankFits a → BankFits b → BanksApart a b) :
    BootAdded c img reserved added bs (bootAddBanks c img.baseAddr bs added.length s) := by
  induction bs generalizing added s with
  | nil =>
    refine .all (fun b hb => absurd hb List.not_mem_nil) ?_
    rw [show otherBanks img [] = [] from rfl, List.append_nil]
    exact h
  | cons b bs ih =>
    have hends' : ∀ a ∈ bs, a.baseAddr + a.numBytes ≤ 2 ^ 32 := fun a ha =>
      hends a (List.mem_cons_of_mem b ha)
    rw [bootAddBanks]
    by_cases hbase : b.baseAddr = img.baseAddr
    · rw [if_pos hbase.symm]
      have hcons := otherBanks_cons_neg bs hbase
      rw [hcons] at hnew hapart
      have hrest := ih h hends' hnew hapart
      generalize bootAddBanks c img.baseAddr bs added.length s = r at hrest
      cases hrest with
      | outOfMemory => exact .outOfMemory
      | bug mem bad => exact .bug (hcons ▸ mem) bad
      | full pageMem full many => exact .full pageMem full (hcons ▸ many)
      | all fits inv => exact .all (hcons ▸ fits) (hcons ▸ inv)
    rw [if_neg (Ne.symm hbase)]
    have hcons := otherBanks_cons_pos bs hbase
    by_cases hfull : c.initPageMapMaxEntries < added.length
    · rw [if_pos hfull]
      refine .full h.pages.pageMem (by rwa [List.length_range]) ?_
      rw [List.length_append]
      omega
    rw [if_neg hfull, bootmemInitPageMapNode]
    rcases bootAllocAll_spec (c := c) (fun n hn => bootNodeSizes_fit horders.1 horders.2 hn) h with
      hout | ⟨s', hdone, h'⟩
    · rw [hout]
      exact .outOfMemory
    rw [hdone]
    dsimp only
    by_cases hb : BankFits b
    · rw [hcons] at hnew hapart
      obtain ⟨hap, hapart⟩ := List.pairwise_cons.mp hapart
      obtain ⟨map, hadd, hinv⟩ := h'.add hb (hnew b List.mem_cons_self hb)
      rw [hadd]
      have hret : ¬ (0 : Int) = -(ENOMEM : Int) := by decide
      dsimp only
      rw [if_neg hret]
      have hrest := ih hinv hends' (fun d hd hfits a ha => ?_) hapart
      · rw [List.length_append, List.length_singleton] at hrest
        have hsame : added ++ [b] ++ otherBanks img bs = added ++ otherBanks img (b :: bs) := by
          rw [hcons, List.append_assoc, List.singleton_append]
        generalize bootAddBanks c img.baseAddr bs (added.length + 1) _ = r at hrest
        cases hrest with
        | outOfMemory => exact .outOfMemory
        | bug mem bad => exact .bug (hcons ▸ List.mem_cons_of_mem b mem) bad
        | full pageMem full many => exact .full pageMem full (hsame ▸ many)
        | all fits inv =>
          refine .all (fun d hd => ?_) (hsame ▸ inv)
          rw [hcons] at hd
          rcases List.mem_cons.mp hd with rfl | hd
          · exact hb
          · exact fits d hd
      · rcases List.mem_append.mp ha with ha | ha
        · exact hnew d (List.mem_cons_of_mem b hd) hfits a ha
        · rw [List.mem_singleton.mp ha]
          exact hap d hd hb hfits
    · have hmem : (s'.held.map.store added.length).pageMem = some (List.range added.length ++ [added.length]) := by
        simp [PageMap.store, h'.pages.pageMem]
      rw [pageMapAdd_bad hmem (hends b List.mem_cons_self) hb]
      dsimp only
      rw [if_pos rfl]
      exact .bug (hcons ▸ List.mem_cons_self) hb

end Loop

/-! ## 4. The whole table -/

/-- Where the code does what it is for. -/
structure BootFits (c : BootConfig) (banks unused : List PhysBank) (img : PhysBank) : Prop extends
    ImageFits c img where
  fit : ∀ b ∈ banks, BankFits b
  unused : ∀ b ∈ unused, b.baseAddr = img.baseAddr
  entries : banks.length ≤ c.initPageMapMaxEntries

/-- The page map in use, from where `bootmem_init` leaves it. -/
def bootUse (s : BootState) : System PgHeld PgUse where
  init h := h = s.held
  step h o h' := ∃ fuel, pgUse fuel h o = some h'

/-- What callers keep to.  Nobody has the block of the image, so nobody gives it back. -/
def BootUseOk (pg : List Nat) (img : PhysBank) (h : PgHeld) (o : PgUse) : Prop :=
  PgUseOk pg h o ∧ o ≠ .free img.baseAddr

/-- What `bootmem_init` is for: the page map is terminated and has one node for each bank, and every
page that is handed out later on lies in a bank, and not before the end of the image in its bank. -/
structure BootDone (c : BootConfig) (banks : List PhysBank) (img : PhysBank) (s : BootState)
    (pg : List Nat) : Prop where
  pageMem : s.held.map.pageMem = some pg
  terminated : pg.length ≤ c.initPageMapMaxEntries
  sections : (pg.map fun i => ((s.held.map.node i).memStart, (s.held.map.node i).memEnd)).Perm
    (banks.map fun b => (b.baseAddr, b.baseAddr + b.numBytes))
  configured : ∀ i ∈ pg, (s.held.map.node i).pool.maxOrder ≠ 0
  pages : ∀ h, (bootUse s).Reachable (BootUseOk pg img) h →
    ∀ fuel st a, pageAlloc fuel h.map = some st → st.page = some a →
      (∃ b ∈ banks, b.baseAddr ≤ a ∧ a + pageSize ≤ b.baseAddr + b.numBytes) ∧
        (a + pageSize ≤ img.baseAddr ∨ c.imgEnd ≤ a)

section Main

variable {c : BootConfig} {m : BootStorage} {banks unused : List PhysBank} {img b : PhysBank}

/-- An entry that is not in use is no bank. -/
theorem BootTable.unfit (hT : BootTable c banks unused img) (hb : b ∈ unused) : ¬ BankFits b := by
  intro h
  have hpage := h.page_le
  rw [(hT.unused b hb).1] at hpage
  exact absurd hpage (by decide)

/-- The bank of the image is the only one that starts there. -/
theorem BootTable.base_ne (hT : BootTable c banks unused img) (hb : b ∈ banks) (hne : b ≠ img) :
    b.baseAddr ≠ img.baseAddr := by
  have hpos := hT.pos hb
  have hpos' := hT.pos hT.bank
  rcases hT.apart.forall hb hT.bank hne with hap | hap
  · omega
  · omega

theorem BootTable.perm (hT : BootTable c banks unused img) :
    (img :: otherBanks img banks).Perm banks := by
  have hnd : banks.Nodup := hT.apart.imp_of_mem (fun {a b} ha hb hap => by
    rintro rfl
    have hpos := hT.pos ha
    rcases hap with h | h
    · omega
    · omega)
  have hothers : otherBanks img banks = banks.erase img := by
    rw [hnd.erase_eq_filter, otherBanks]
    refine List.filter_congr fun b hb => ?_
    by_cases hbi : b = img
    · simp [hbi]
    · have hne := hT.base_ne hb hbi
      simp [hbi, hne]
  rw [hothers]
  exact (List.perm_cons_erase hT.bank).symm

/-- How `bootmem_init` ends once the image is set up. -/
theorem bootmemInit_added (hT : BootTable c banks unused img) (hI : ImageFits c img) :
    BootAdded c img (imageReserved c img) [img] (banks ++ unused) (bootmemInit c m) := by
  obtain ⟨s, hs, h⟩ := bootSetupImage_spec (m := m) hT hI
  rw [bootmemInit, hs, hT.table]
  have hunfit : ∀ b ∈ otherBanks img unused, ¬ BankFits b := fun b hb =>
    hT.unfit (List.mem_of_mem_filter hb)
  have hsplit : otherBanks img (banks ++ unused) = otherBanks img banks ++ otherBanks img unused :=
    List.filter_append ..
  refine bootAddBanks_spec hT.orders h (fun b hb => ?_) (fun b hb hfits a ha => ?_) ?_
  · rcases List.mem_append.mp hb with hb | hb
    · exact hT.fits b hb
    · have hu := hT.unused b hb
      omega
  · rw [hsplit] at hb
    rcases List.mem_append.mp hb with hb | hb
    · obtain ⟨hmem, hne⟩ := List.mem_filter.mp hb
      rw [List.mem_singleton.mp ha]
      refine hT.apart.forall hT.bank hmem ?_
      rintro rfl
      simp at hne
    · exact absurd hfits (hunfit b hb)
  · rw [hsplit, List.pairwise_append]
    refine ⟨(hT.apart.sublist List.filter_sublist).imp fun hap _ _ => hap, ?_, fun a _ b hb _ hfits => ?_⟩
    · exact List.pairwise_of_forall_mem_list fun a ha b _ hfits => absurd hfits (hunfit a ha)
    · exact absurd hfits (hunfit b hb)

/-- Every entry has its node. -/
theorem BootInv.done (hT : BootTable c banks unused img) (hI : ImageFits c img) {s : BootState}
    (hunused : otherBanks img unused = []) (hentries : banks.length ≤ c.initPageMapMaxEntries)
    (h : BootInv ([img] ++ otherBanks img (banks ++ unused)) img (imageReserved c img) s) :
    ∃ pg, BootDone c banks img s pg := by
  have hperm := hT.perm
  have hall : [img] ++ otherBanks img (banks ++ unused) = img :: otherBanks img banks := by
    rw [otherBanks, List.filter_append]
    show [img] ++ (otherBanks img banks ++ otherBanks img unused) = _
    rw [hunused, List.append_nil, List.singleton_append]
  rw [hall] at h
  obtain ⟨-, hend, -, hlt⟩ := hT.reserved hI
  have hends := hI.ends
  obtain ⟨k, -, hpow⟩ := hT.used img hT.bank
  have hsize : imageReserved c img ≤ 2 ^ 31 := by
    have hk : k < 32 := (Nat.pow_lt_pow_iff_right (a := 2) (by decide)).mp (by omega)
    have hle : 2 ^ k ≤ 2 ^ 31 := Nat.pow_le_pow_right (by decide) (by omega)
    omega
  refine ⟨_, h.pages.pageMem, by rw [List.length_range, hperm.length_eq]; exact hentries, ?_, fun i hi => ?_,
    fun u hu fuel st a hst ha => ?_⟩
  · refine List.Perm.trans (List.Perm.of_eq ?_) (hperm.map _)
    refine List.ext_getElem (by simp) fun i h1 h2 => ?_
    rw [List.length_map] at h2
    have hnode := h.pages.nodes i _ (List.getElem?_eq_getElem h2)
    rw [List.getElem_map, List.getElem_map, List.getElem_range, hnode.memStart, hnode.memEnd]
  · obtain ⟨b, -, hb⟩ := h.pages.node_of_mem hi
    exact hb.maxOrder
  · have P : BootPages (img :: otherBanks img banks) img (imageReserved c img) u := by
      refine hu.invariant (I := BootPages (img :: otherBanks img banks) img (imageReserved c img))
        (fun u hu => ?_) (fun u o u' P hok hstep => ?_)
      · obtain rfl : u = s.held := hu
        exact h.pages
      · obtain ⟨fuel, hcall⟩ := hstep
        exact P.use hok.1 hok.2 hcall
    obtain ⟨⟨b, hb, hin⟩, hout⟩ := P.page hsize hst ha
    exact ⟨⟨b, hperm.mem_iff.mp hb, hin⟩, hout.imp_right hend.trans⟩

end Main

/-- **`bootmem_init`** does what it is for, as long as boot memory does not run out, if and only if
the image ends before the last page of its bank, which does not start at zero, no block is larger than
a page, every bank has a page and ends below the end of the address space, every entry that is not in use
starts where the bank of the image does, and there are no more banks than places in the map. -/
theorem bootmemInit_iff {c : BootConfig} {m : BootStorage} {banks unused : List PhysBank} {img : PhysBank}
    (hT : BootTable c banks unused img) (hmem : bootmemInit c m ≠ .outOfMemory) :
    (∃ s pg, bootmemInit c m = .done s ∧ BootDone c banks img s pg) ↔ BootFits c banks unused img := by
  constructor
  · rintro ⟨s, pg, hdone, hD⟩
    obtain ⟨r, hr⟩ : ∃ r, bootSetupImage c m = some r := by
      cases hsetup : bootSetupImage c m with
      | none =>
        rw [bootmemInit, hsetup] at hdone
        cases hdone
      | some r => exact ⟨r, rfl⟩
    have hI := ImageFits.of_setup hT hr
    have hA := bootmemInit_added (m := m) hT hI
    rw [hdone] at hA
    cases hA with
    | full pageMem full many =>
      obtain rfl := Option.some.inj (hD.pageMem.symm.trans pageMem)
      exact absurd hD.terminated (Nat.not_le_of_lt full)
    | all fits inv =>
      have hperm := hT.perm
      have hfit : ∀ b ∈ banks, BankFits b := by
        intro b hb
        by_cases hbi : b = img
        · have hbehind := hI.behind
          have himage := hT.image
          rw [hbi]
          exact ⟨by omega, hI.ends⟩
        · refine fits b (List.mem_filter.mpr ⟨List.mem_append_left _ hb, ?_⟩)
          simpa using hT.base_ne hb hbi
      have hunused : ∀ b ∈ unused, b.baseAddr = img.baseAddr := by
        intro b hb
        by_contra hne
        refine hT.unfit hb (fits b (List.mem_filter.mpr ⟨List.mem_append_right _ hb, ?_⟩))
        simpa using hne
      refine ⟨hI, hfit, hunused, ?_⟩
      have hlen := hD.sections.length_eq
      rw [List.length_map, List.length_map] at hlen
      exact hlen ▸ hD.terminated
  · intro hF
    have hA := bootmemInit_added (m := m) hT hF.toImageFits
    have hunused : otherBanks img unused = [] := by
      refine List.filter_eq_nil_iff.mpr fun b hb => ?_
      simp [hF.unused b hb]
    have hothers : otherBanks img (banks ++ unused) = otherBanks img banks := by
      rw [otherBanks, List.filter_append]
      exact (congrArg _ hunused).trans (List.append_nil _)
    generalize bootmemInit c m = r at hmem hA
    cases hA with
    | outOfMemory => exact absurd rfl hmem
    | bug mem bad =>
      rw [hothers] at mem
      exact absurd (hF.fit _ (List.mem_of_mem_filter mem)) bad
    | full pageMem full many =>
      rw [hothers, List.singleton_append, hT.perm.length_eq] at many
      exact absurd hF.entries (Nat.not_le_of_lt many)
    | all fits inv =>
      obtain ⟨pg, hpg⟩ := inv.done hT hF.toImageFits hunused hF.entries
      exact ⟨_, pg, rfl, hpg⟩

def BootResult.isBug : BootResult → Bool
  | .bug => true
  | _ => false

def BootResult.isDone : BootResult → Bool
  | .done _ => true
  | _ => false

/-- Storage that is zero. -/
def bootBlank : BootStorage where
  map := ⟨none, fun _ => ⟨mmBlank.pool, 0, 0⟩, fun _ => ⟨none, none⟩, mmBlank.stat⟩
  hdr _ := ⟨0, 0, 0, 0, 0, 0, 0⟩
  links _ := ⟨none, none⟩

/-- A bank of four pages, with an image in the first one. -/
def bootBank : PhysBank := ⟨0x40000000, 0x4000⟩

def bootConfig (spBanks : List PhysBank) : BootConfig where
  initPageMapMaxEntries := 8
  mmBlockOrderMin := 12
  mmBlockOrderMax := 14
  requestNewOnDemand := false
  imgStart := 0x40000000
  imgEnd := 0x40000800
  spBanks

/-- A second bank. -/
theorem bootmemInit_iff_two : ∃ s pg,
    bootmemInit (bootConfig [bootBank, ⟨0x60000000, 0x4000⟩]) bootBlank = .done s ∧
      BootDone (bootConfig [bootBank, ⟨0x60000000, 0x4000⟩]) [bootBank, ⟨0x60000000, 0x4000⟩] bootBank
        s pg := by
  have hT : BootTable (bootConfig [bootBank, ⟨0x60000000, 0x4000⟩]) [bootBank, ⟨0x60000000, 0x4000⟩] []
      bootBank :=
    ⟨rfl, by
      intro b hb
      refine ⟨14, by decide, ?_⟩
      revert b
      decide, by decide, by decide, by decide, by decide, by decide, by decide, by decide⟩
  refine (bootmemInit_iff (m := bootBlank) hT fun hout => ?_).mpr ?_
  · have hdone : (bootmemInit (bootConfig [bootBank, ⟨0x60000000, 0x4000⟩]) bootBlank).isDone = true := by
      decide +kernel
    rw [hout] at hdone
    cases hdone
  · refine ⟨⟨by decide, by decide, by decide, by decide⟩, fun b hb => ?_, by decide, by decide⟩
    rcases List.mem_pair.mp hb with rfl | rfl
    · exact ⟨by decide, by decide⟩
    · exact ⟨by decide, by decide⟩

/-- An entry that is not in use. -/
theorem bootmemInit_spare : ¬ ∀ (c : BootConfig) (m : BootStorage) (banks unused : List PhysBank)
    (img : PhysBank), BootTable c banks unused img → bootmemInit c m ≠ .outOfMemory →
      ∃ s pg, bootmemInit c m = .done s ∧ BootDone c banks img s pg := by
  intro h
  have hbug : (bootmemInit (bootConfig [bootBank, ⟨0, 0⟩]) bootBlank).isBug = true := by decide +kernel
  have hT : BootTable (bootConfig [bootBank, ⟨0, 0⟩]) [bootBank] [⟨0, 0⟩] bootBank :=
    ⟨rfl, by
      intro b hb
      refine ⟨14, by decide, ?_⟩
      revert b
      decide, by decide, by decide, by decide, by decide, by decide, by decide, by decide⟩
  obtain ⟨s, pg, hdone, -⟩ := h _ bootBlank _ _ _ hT fun hout => by
    rw [hout] at hbug
    cases hbug
  rw [hdone] at hbug
  cases hbug

end FlightOs
