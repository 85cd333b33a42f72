/-
# The buddy pool's invariant

The pool's state is described by two finite sets of dyadic blocks (`Lib/Dyadic.lean`), with
offsets from the pool's base: the BUSY blocks and the FREE ones.  Together they tile the pool.
`Core mp B F` says how the three stores of the pool follow from the two sets:

* a free bit is set exactly at the first minimum block of a free block (`BitsOk`);
* the order array holds the order of every free block (`OrdersOk`);
* the list of each order holds the free blocks of that order, less the one at the base, which
  is never linked and whose own link is an empty list (`ListsOk`);
* no two free blocks are buddies.

What the order array holds at any other index is not part of `Core`: `Clean` says that it holds
zero there, and `mm_free` does not keep it (`Mm/Free.lean`).

Each store has its own small lemmas: what becomes of it when a block joins the free set or
leaves it.
-/
import FlightOs.Lib.Dyadic
import FlightOs.Mm.Pool
import Mathlib.Algebra.BigOperators.Ring.Finset

namespace FlightOs

/-! ## 1. The geometry of a pool -/

/-- The orders fit, and the pool lies inside the address space and not at its start. -/
structure MmGeom (mp : MmPool) : Prop where
  base_pos : 0 < mp.base
  fits : mp.base + 2 ^ mp.maxOrder < 2 ^ 32
  minOrder_ge : 3 ≤ mp.minOrder
  minOrder_le : mp.minOrder ≤ mp.maxOrder
  nBlks : mp.nBlks = 2 ^ (mp.maxOrder - mp.minOrder)

/-- Two pools with the same constants. -/
structure MmSame (mp mp' : MmPool) : Prop where
  base : mp'.base = mp.base
  maxOrder : mp'.maxOrder = mp.maxOrder
  minOrder : mp'.minOrder = mp.minOrder
  nBlks : mp'.nBlks = mp.nBlks

theorem MmSame.refl (mp : MmPool) : MmSame mp mp := ⟨rfl, rfl, rfl, rfl⟩

theorem MmSame.trans {a b c : MmPool} (h : MmSame a b) (h' : MmSame b c) : MmSame a c :=
  ⟨h'.base.trans h.base, h'.maxOrder.trans h.maxOrder, h'.minOrder.trans h.minOrder,
    h'.nBlks.trans h.nBlks⟩

theorem MmGeom.same {mp mp' : MmPool} (g : MmGeom mp) (h : MmSame mp mp') : MmGeom mp' where
  base_pos := h.base ▸ g.base_pos
  fits := by rw [h.base, h.maxOrder]; exact g.fits
  minOrder_ge := h.minOrder ▸ g.minOrder_ge
  minOrder_le := by rw [h.minOrder, h.maxOrder]; exact g.minOrder_le
  nBlks := by rw [h.nBlks, h.maxOrder, h.minOrder]; exact g.nBlks

theorem MmGeom.maxOrder_lt {mp : MmPool} (g : MmGeom mp) : mp.maxOrder < 32 := by
  have h : 2 ^ mp.maxOrder < 2 ^ 32 := by have := g.fits; omega
  exact (Nat.pow_lt_pow_iff_right (by norm_num)).mp h

/-- The number of minimum blocks times their size is the size of the pool. -/
theorem MmGeom.nBlks_mul {mp : MmPool} (g : MmGeom mp) :
    mp.nBlks * 2 ^ mp.minOrder = 2 ^ mp.maxOrder := by
  rw [g.nBlks, ← pow_add, Nat.sub_add_cancel g.minOrder_le]

/-- The address of a block, and the block of an address, lie in the pool. -/
theorem mmBlkAddrValid_iff {mp : MmPool} (g : MmGeom mp) {a : Nat} :
    mmBlkAddrValid mp a = true ↔ mp.base ≤ a ∧ a < mp.base + 2 ^ mp.maxOrder := by
  have h1 : wshl 1 mp.maxOrder = 2 ^ mp.maxOrder := wshl_one g.maxOrder_lt
  rw [mmBlkAddrValid, h1, wadd_of_lt g.fits, Bool.and_eq_true, decide_eq_true_iff,
    decide_eq_true_iff]

theorem mmBlkIdx_eq {mp : MmPool} (g : MmGeom mp) {o : Nat} (ho : o < 2 ^ mp.maxOrder) :
    mmBlkIdx mp (mp.base + o) = o / 2 ^ mp.minOrder := by
  have := g.fits
  rw [mmBlkIdx, wsub_of_le (by omega) (Nat.le_add_right _ _), Nat.add_sub_cancel_left]

/-- The neighbour of a block is its buddy. -/
theorem mmFindNeighbour_eq {mp : MmPool} (g : MmGeom mp) {b : Blk}
    (hb : b.off < 2 ^ mp.maxOrder) (hord : b.ord < mp.maxOrder) :
    mmFindNeighbour mp (mp.base + b.off) b.ord = mp.base + b.buddy.off ∧
      b.buddy.off < 2 ^ mp.maxOrder := by
  have hlt := g.maxOrder_lt
  have hx : b.off ^^^ 2 ^ b.ord < 2 ^ mp.maxOrder :=
    Nat.xor_lt_two_pow hb (Nat.pow_lt_pow_right (by norm_num) hord)
  have := g.fits
  refine ⟨?_, hx⟩
  rw [mmFindNeighbour, wsub_of_le (by omega) (Nat.le_add_right _ _), Nat.add_sub_cancel_left,
    wshl_one (by omega), wadd_of_lt (by omega), Nat.add_comm]
  rfl

/-! ## 2. The free bits -/

/-- Of the first `n` bits, those of the first minimum blocks of the free blocks are set. -/
def BitsOk (bits : Nat → Bool) (n g : Nat) (F : Finset Blk) : Prop :=
  ∀ i < n, bits i = true ↔ ∃ b ∈ F, b.off = i * 2 ^ g

/-- Offsets that are multiples of `2 ^ g` are told apart by their quotients. -/
theorem off_div_inj {a b g : Nat} (ha : 2 ^ g ∣ a) (hb : 2 ^ g ∣ b) :
    a / 2 ^ g = b / 2 ^ g ↔ a = b := Nat.div_left_inj ha hb

theorem off_eq_mul_iff {a i g : Nat} (ha : 2 ^ g ∣ a) : a = i * 2 ^ g ↔ a / 2 ^ g = i := by
  constructor
  · rintro rfl
    exact Nat.mul_div_cancel i (Nat.two_pow_pos g)
  · rintro rfl
    exact (Nat.div_mul_cancel ha).symm

/-- The offsets of a minimum block are those with its quotient. -/
theorem off_div_eq_iff {a o g : Nat} (ha : 2 ^ g ∣ a) :
    o / 2 ^ g = a / 2 ^ g ↔ a ≤ o ∧ o < a + 2 ^ g := by
  have hpos := Nat.two_pow_pos g
  obtain ⟨q, rfl⟩ := ha
  rw [Nat.mul_div_cancel_left q hpos, Nat.div_eq_iff hpos, Nat.mul_comm q]
  omega

/-- Setting the bit of a block puts it into the free set. -/
theorem BitsOk.insert {bits : Nat → Bool} {n g : Nat} {F : Finset Blk} (h : BitsOk bits n g F)
    {c : Blk} (hc : 2 ^ g ∣ c.off) :
    BitsOk (Function.update bits (c.off / 2 ^ g) true) n g (insert c F) := by
  intro i hi
  by_cases hic : i = c.off / 2 ^ g
  · subst hic
    simp [Nat.div_mul_cancel hc]
  · rw [Function.update_of_ne hic, h i hi]
    have hne : ¬ c.off = i * 2 ^ g := fun e => hic ((off_eq_mul_iff hc).mp e).symm
    simp [hne]

/-- Clearing the bit of a block takes it out of the free set. -/
theorem BitsOk.erase {bits : Nat → Bool} {n g : Nat} {F : Finset Blk} (h : BitsOk bits n g F)
    {c : Blk} (hc : 2 ^ g ∣ c.off)
    (huniq : ∀ b ∈ F, b.off = c.off → b = c) :
    BitsOk (Function.update bits (c.off / 2 ^ g) false) n g (F.erase c) := by
  intro i hi
  by_cases hic : i = c.off / 2 ^ g
  · subst hic
    simp only [Function.update_self, Bool.false_eq_true, false_iff, Finset.mem_erase,
      Nat.div_mul_cancel hc]
    rintro ⟨b, ⟨hbc, hb⟩, e⟩
    exact hbc (huniq b hb e)
  · rw [Function.update_of_ne hic, h i hi]
    have hne : ∀ b ∈ F, b.off = i * 2 ^ g → b ≠ c := by
      rintro b _ e rfl
      exact hic ((off_eq_mul_iff hc).mp e).symm
    constructor
    · rintro ⟨b, hb, e⟩
      exact ⟨b, Finset.mem_erase.mpr ⟨hne b hb e, hb⟩, e⟩
    · rintro ⟨b, hb, e⟩
      exact ⟨b, Finset.mem_of_mem_erase hb, e⟩

/-- Clearing the bit of a block that is not free changes nothing. -/
theorem BitsOk.clear {bits : Nat → Bool} {n g : Nat} {F : Finset Blk} (h : BitsOk bits n g F)
    {o : Nat} (ho : 2 ^ g ∣ o) (hF : ∀ b ∈ F, b.off ≠ o) :
    BitsOk (Function.update bits (o / 2 ^ g) false) n g F := by
  intro i hi
  by_cases hic : i = o / 2 ^ g
  · subst hic
    simp only [Function.update_self, Bool.false_eq_true, false_iff, Nat.div_mul_cancel ho]
    rintro ⟨b, hb, e⟩
    exact hF b hb e
  · rw [Function.update_of_ne hic, h i hi]

/-! ## 3. The order array -/

/-- The order array holds the order of each of the blocks, at its first minimum block. -/
def OrdersOk (ord : Nat → Nat) (g : Nat) (S : Finset Blk) : Prop :=
  ∀ b ∈ S, ord (b.off / 2 ^ g) = b.ord

/-- The order array holds zero wherever no block of the two sets starts. -/
def OrdersClean (ord : Nat → Nat) (n g : Nat) (B F : Finset Blk) : Prop :=
  ∀ i < n, ord i ≠ 0 → ∃ b, (b ∈ B ∨ b ∈ F) ∧ b.off = i * 2 ^ g

/-- Writing at another block's index does not touch the recorded orders. -/
theorem OrdersOk.update {ord : Nat → Nat} {g : Nat} {S : Finset Blk} (h : OrdersOk ord g S)
    {o v : Nat} (ho : 2 ^ g ∣ o) (hS : ∀ b ∈ S, 2 ^ g ∣ b.off ∧ b.off ≠ o) :
    OrdersOk (Function.update ord (o / 2 ^ g) v) g S := by
  intro b hb
  rw [Function.update_of_ne, h b hb]
  exact fun e => (hS b hb).2 ((off_div_inj (hS b hb).1 ho).mp e)

theorem OrdersOk.insert {ord : Nat → Nat} {g : Nat} {S : Finset Blk} (h : OrdersOk ord g S)
    {c : Blk} (hc : ord (c.off / 2 ^ g) = c.ord) : OrdersOk ord g (insert c S) := by
  intro b hb
  rcases Finset.mem_insert.mp hb with rfl | hb
  · exact hc
  · exact h b hb

theorem OrdersOk.mono {ord : Nat → Nat} {g : Nat} {S T : Finset Blk} (h : OrdersOk ord g S)
    (hT : T ⊆ S) : OrdersOk ord g T := fun b hb => h b (hT hb)

/-! ## 4. The free lists -/

/-- The list of every order holds the free blocks of that order, less the one at the base;
that one's own link is an empty list. -/
structure ListsOk (l : Links MmNode) (base maxOrder : Nat) (F : Finset Blk) : Prop where
  lists : ∀ k ≤ maxOrder, ∃ xs : List Nat, Ring l (.blockOrder k) (xs.map .blk) ∧
    ∀ a, a ∈ xs ↔ ∃ b ∈ F, b.ord = k ∧ b.off ≠ 0 ∧ a = base + b.off
  baseLink : ∀ b ∈ F, b.off = 0 → b.ord < maxOrder → Ring l (.blk base) []

namespace ListsOk

variable {l l' : Links MmNode} {base maxOrder : Nat} {F : Finset Blk}

/-- What being on the list of order `k` means. -/
def OnList (base : Nat) (F : Finset Blk) (k a : Nat) : Prop :=
  ∃ b ∈ F, b.ord = k ∧ b.off ≠ 0 ∧ a = base + b.off

/-- The link of an offset where no free block starts is on none of the lists. -/
theorem notMem_of_off {xs : List Nat} {k o : Nat} (hxs : ∀ a, a ∈ xs ↔ OnList base F k a)
    (ho : ∀ b ∈ F, b.ord = k → b.off ≠ 0 → b.off ≠ o) :
    MmNode.blk (base + o) ∉ (MmNode.blockOrder k :: xs.map .blk) := by
  simp only [List.mem_cons, reduceCtorEq, false_or, List.mem_map, MmNode.blk.injEq,
    exists_eq_right]
  rw [hxs]
  rintro ⟨b, hb, hk, h0, e⟩
  exact ho b hb hk h0 (by omega)

/-- The lists of two orders have no node in common. -/
theorem disjoint (huniq : ∀ b ∈ F, ∀ c ∈ F, b.off = c.off → b = c) {xs ys : List Nat}
    {j k : Nat} (hjk : j ≠ k) (hxs : ∀ a, a ∈ xs ↔ OnList base F j a)
    (hys : ∀ a, a ∈ ys ↔ OnList base F k a) {x : MmNode}
    (hx : x ∈ MmNode.blockOrder j :: xs.map .blk) :
    x ∉ MmNode.blockOrder k :: ys.map .blk := by
  rcases List.mem_cons.mp hx with rfl | hx
  · simp [hjk]
  · obtain ⟨a, ha, rfl⟩ := List.mem_map.mp hx
    obtain ⟨b, hb, hbj, -, rfl⟩ := (hxs a).mp ha
    refine notMem_of_off hys (fun c hc hck _ e => hjk ?_)
    rw [← hbj, ← hck, huniq c hc b hb e]

/-- An edit of one list: the other lists and the link of the base keep their nodes. -/
theorem edit (h : ListsOk l base maxOrder F) (huniq : ∀ b ∈ F, ∀ c ∈ F, b.off = c.off → b = c)
    {k o : Nat} {ys w : List Nat} {F' : Finset Blk} (ho : o ≠ 0)
    (hoF : ∀ b ∈ F, b.ord ≠ k → b.off ≠ o) (hys : ∀ a, a ∈ ys ↔ OnList base F k a)
    (hag : ∀ x, x ∉ MmNode.blockOrder k :: ys.map .blk → x ≠ .blk (base + o) → l' x = l x)
    (hw : Ring l' (.blockOrder k) (w.map .blk)) (hmem : ∀ a, a ∈ w ↔ OnList base F' k a)
    (hF' : ∀ b, b.ord ≠ k ∨ b.off = 0 → (b ∈ F' ↔ b ∈ F)) :
    ListsOk l' base maxOrder F' := by
  constructor
  · intro j hj
    by_cases hjk : j = k
    · subst hjk
      exact ⟨w, hw, hmem⟩
    · obtain ⟨xs, hxs, hxmem⟩ := h.lists j hj
      refine ⟨xs, hxs.congr (fun x hx => hag x (disjoint huniq hjk hxmem hys hx) ?_), fun a => ?_⟩
      · rintro rfl
        exact notMem_of_off hxmem (fun b hb hbj _ => hoF b hb (hbj ▸ hjk)) hx
      · rw [hxmem]
        refine exists_congr (fun b => ?_)
        constructor
        · rintro ⟨hb, hbj, hb'⟩
          exact ⟨(hF' b (Or.inl (hbj ▸ hjk))).mpr hb, hbj, hb'⟩
        · rintro ⟨hb, hbj, hb'⟩
          exact ⟨(hF' b (Or.inl (hbj ▸ hjk))).mp hb, hbj, hb'⟩
  · intro b hb hb0 hlt
    have hbF : b ∈ F := (hF' b (Or.inr hb0)).mp hb
    refine (h.baseLink b hbF hb0 hlt).congr (fun x hx => ?_)
    rw [List.mem_singleton] at hx
    subst hx
    refine hag _ (notMem_of_off (o := 0) hys (fun _ _ _ h0 => h0)) ?_
    simp only [ne_eq, MmNode.blk.injEq]
    omega

/-- A change of one link that is on none of the lists. -/
theorem frame (h : ListsOk l base maxOrder F) {o : Nat} {F' : Finset Blk}
    (ho : ∀ b ∈ F, b.off ≠ 0 → b.off ≠ o) (hag : ∀ x, x ≠ .blk (base + o) → l' x = l x)
    (hF' : ∀ b, b.off ≠ 0 → (b ∈ F' ↔ b ∈ F))
    (hbase : ∀ b ∈ F', b.off = 0 → b.ord < maxOrder → Ring l' (.blk base) []) :
    ListsOk l' base maxOrder F' := by
  refine ⟨fun k hk => ?_, hbase⟩
  obtain ⟨xs, hxs, hxmem⟩ := h.lists k hk
  refine ⟨xs, hxs.congr (fun x hx => hag x ?_), fun a => ?_⟩
  · rintro rfl
    exact notMem_of_off hxmem (fun b hb _ h0 => ho b hb h0) hx
  · rw [hxmem]
    refine exists_congr (fun b => ?_)
    constructor
    · rintro ⟨hb, hbj, hb0, e⟩
      exact ⟨(hF' b hb0).mpr hb, hbj, hb0, e⟩
    · rintro ⟨hb, hbj, hb0, e⟩
      exact ⟨(hF' b hb0).mp hb, hbj, hb0, e⟩

/-- Linking a block in, away from the base. -/
theorem add (h : ListsOk l base maxOrder F) (huniq : ∀ b ∈ F, ∀ c ∈ F, b.off = c.off → b = c)
    {c : Blk} (hc0 : c.off ≠ 0) (hk : c.ord ≤ maxOrder) (hF : ∀ b ∈ F, b.off ≠ c.off) :
    ListsOk (listAdd l (.blk (base + c.off)) (.blockOrder c.ord)) base maxOrder (insert c F) := by
  obtain ⟨ys, hys, hmem⟩ := h.lists c.ord hk
  have hn : MmNode.blk (base + c.off) ∉ (MmNode.blockOrder c.ord :: ys.map .blk) :=
    notMem_of_off hmem (fun b hb _ _ => hF b hb)
  refine h.edit huniq hc0 (fun b hb _ => hF b hb) hmem (fun x hx hne => listAdd_frame hys hx hne)
    (w := (base + c.off) :: ys) (listAdd_ring hys hn) (fun a => ?_) (fun b hb => ?_)
  · rw [List.mem_cons, hmem]
    simp only [OnList, Finset.mem_insert, exists_eq_or_imp, true_and, hc0, ne_eq,
      not_false_eq_true]
  · have hbc : b ≠ c := by
      rintro rfl
      exact hb.elim (fun e => e rfl) hc0
    simp [hbc]

/-- Unlinking a block, away from the base. -/
theorem del (h : ListsOk l base maxOrder F) (huniq : ∀ b ∈ F, ∀ c ∈ F, b.off = c.off → b = c)
    {c : Blk} (hc : c ∈ F) (hc0 : c.off ≠ 0) (hk : c.ord ≤ maxOrder) :
    ListsOk (listDel l (.blk (base + c.off))) base maxOrder (F.erase c) := by
  obtain ⟨ys, hys, hmem⟩ := h.lists c.ord hk
  have hcy : base + c.off ∈ ys := (hmem _).mpr ⟨c, hc, rfl, hc0, rfl⟩
  have hn : MmNode.blk (base + c.off) ∈ ys.map .blk := List.mem_map.mpr ⟨_, hcy, rfl⟩
  have hinj : Function.Injective MmNode.blk := fun _ _ e => MmNode.blk.inj e
  have hnd : ys.Nodup := List.Nodup.of_map _ (List.nodup_cons.mp hys.nodup).2
  refine h.edit huniq hc0 (fun b hb hbk e => hbk (huniq b hb c hc e ▸ rfl)) hmem
    (fun x hx _ => listDel_frame hys (List.mem_cons_of_mem _ hn) hx)
    (w := ys.erase (base + c.off)) ?_ (fun a => ?_) (fun b hb => ?_)
  · rw [List.map_erase hinj]
    exact listDel_ring hys hn
  · rw [hnd.mem_erase_iff, hmem]
    constructor
    · rintro ⟨hne, b, hb, hbk, hb0, rfl⟩
      exact ⟨b, Finset.mem_erase.mpr ⟨fun e => hne (e ▸ rfl), hb⟩, hbk, hb0, rfl⟩
    · rintro ⟨b, hb, hbk, hb0, rfl⟩
      obtain ⟨hbc, hb⟩ := Finset.mem_erase.mp hb
      exact ⟨fun e => hbc (huniq b hb c hc (Nat.add_left_cancel e)), b, hb, hbk, hb0, rfl⟩
  · have hbc : b ≠ c := by
      rintro rfl
      exact hb.elim (fun e => e rfl) hc0
    simp [hbc]

/-- Unlinking the block at the base, whose link is an empty list. -/
theorem delBase (h : ListsOk l base maxOrder F)
    (huniq : ∀ b ∈ F, ∀ c ∈ F, b.off = c.off → b = c) {c : Blk} (hc : c ∈ F)
    (hc0 : c.off = 0) (hk : c.ord < maxOrder) :
    ListsOk (listDel l (.blk (base + c.off))) base maxOrder (F.erase c) := by
  have hring := h.baseLink c hc hc0 hk
  refine h.frame (o := c.off) (fun b _ hb0 e => hb0 (e.trans hc0)) (fun x hx => ?_)
    (fun b hb0 => ?_) (fun b hb hb0 _ => ?_)
  · rw [hc0, Nat.add_zero] at hx ⊢
    exact listDel_frame hring List.mem_cons_self (by simpa using hx)
  · have hbc : b ≠ c := fun e => hb0 (e ▸ hc0)
    simp [hbc]
  · obtain ⟨hbc, hb⟩ := Finset.mem_erase.mp hb
    exact absurd (huniq b hb c hc (hb0.trans hc0.symm)) hbc

/-- `INIT_LIST_HEAD` on the link of a block that is not free. -/
theorem initBlk (h : ListsOk l base maxOrder F) {o : Nat} (ho : ∀ b ∈ F, b.off ≠ o) :
    ListsOk (initListHead l (.blk (base + o))) base maxOrder F := by
  refine h.frame (fun b hb _ => ho b hb) (fun x hx => initListHead_frame l hx)
    (fun b _ => Iff.rfl) (fun b hb hb0 hlt => ?_)
  refine (h.baseLink b hb hb0 hlt).congr (fun x hx => initListHead_frame l ?_)
  rw [List.mem_singleton] at hx
  subst hx
  have := ho b hb
  simp only [ne_eq, MmNode.blk.injEq]
  omega

/-- The block at the base joins the free set without being linked. -/
theorem addBase (h : ListsOk l base maxOrder F) {c : Blk} (hc0 : c.off = 0)
    (hF : ∀ b ∈ F, b.off ≠ 0) (hc : c.ord < maxOrder → Ring l (.blk base) []) :
    ListsOk l base maxOrder (insert c F) := by
  refine h.frame (o := 0) (fun b hb _ => hF b hb) (fun x _ => rfl) (fun b hb0 => ?_)
    (fun b hb hb0 hlt => ?_)
  · have hbc : b ≠ c := fun e => hb0 (e ▸ hc0)
    simp [hbc]
  · rcases Finset.mem_insert.mp hb with rfl | hb
    · exact hc hlt
    · exact absurd hb0 (hF b hb)

end ListsOk

/-! ## 5. The invariant -/

/-- The stores of the pool follow from the busy and the free blocks. -/
structure Core (mp : MmPool) (B F : Finset Blk) : Prop where
  geom : MmGeom mp
  tiling : Tiling (2 ^ mp.maxOrder) {b | b ∈ B ∨ b ∈ F}
  disj : ∀ b ∈ B, b ∉ F
  minOrder_le : ∀ b, b ∈ B ∨ b ∈ F → mp.minOrder ≤ b.ord
  bits : BitsOk mp.blkFree mp.nBlks mp.minOrder F
  orders : OrdersOk mp.allocOrder mp.minOrder F
  lists : ListsOk mp.links mp.base mp.maxOrder F
  lone : ∀ b ∈ F, b.ord < mp.maxOrder → b.buddy ∉ F

namespace Core

variable {mp : MmPool} {B F : Finset Blk}

theorem uniq (h : Core mp B F) {b c : Blk} (hb : b ∈ B ∨ b ∈ F) (hc : c ∈ B ∨ c ∈ F)
    (e : b.off = c.off) : b = c := h.tiling.eq_of_off hb hc e

theorem uniqF (h : Core mp B F) : ∀ b ∈ F, ∀ c ∈ F, b.off = c.off → b = c :=
  fun _ hb _ hc e => h.uniq (Or.inr hb) (Or.inr hc) e

theorem off_dvd (h : Core mp B F) {b : Blk} (hb : b ∈ B ∨ b ∈ F) : 2 ^ mp.minOrder ∣ b.off :=
  (Nat.pow_dvd_pow 2 (h.minOrder_le b hb)).trans (h.tiling.aligned b hb)

theorem stop_le (h : Core mp B F) {b : Blk} (hb : b ∈ B ∨ b ∈ F) :
    b.off + 2 ^ b.ord ≤ 2 ^ mp.maxOrder := h.tiling.stop_le hb

theorem off_lt (h : Core mp B F) {b : Blk} (hb : b ∈ B ∨ b ∈ F) : b.off < 2 ^ mp.maxOrder := by
  have := h.stop_le hb
  have := b.size_pos
  omega

theorem ord_le (h : Core mp B F) {b : Blk} (hb : b ∈ B ∨ b ∈ F) : b.ord ≤ mp.maxOrder := by
  have h1 : 2 ^ b.ord ≤ 2 ^ mp.maxOrder := by have := h.stop_le hb; omega
  exact (Nat.pow_le_pow_iff_right (by norm_num)).mp h1

/-- The index of a block is among the pool's minimum blocks. -/
theorem idx_lt (h : Core mp B F) {b : Blk} (hb : b ∈ B ∨ b ∈ F) :
    b.off / 2 ^ mp.minOrder < mp.nBlks := by
  rw [Nat.div_lt_iff_lt_mul (Nat.two_pow_pos _), h.geom.nBlks_mul]
  exact h.off_lt hb

theorem idx_eq (h : Core mp B F) {b : Blk} (hb : b ∈ B ∨ b ∈ F) :
    mmBlkIdx mp (mp.base + b.off) = b.off / 2 ^ mp.minOrder := mmBlkIdx_eq h.geom (h.off_lt hb)

/-- The free bit at the start of a block tells the free blocks from the busy ones. -/
theorem free_iff (h : Core mp B F) {b : Blk} (hb : b ∈ B ∨ b ∈ F) :
    mmBlkFree mp (mp.base + b.off) = true ↔ b ∈ F := by
  rw [mmBlkFree, h.idx_eq hb, h.bits _ (h.idx_lt hb), Nat.div_mul_cancel (h.off_dvd hb)]
  constructor
  · rintro ⟨c, hc, e⟩
    rwa [← h.uniq (Or.inr hc) hb e]
  · intro hb
    exact ⟨b, hb, rfl⟩

/-- The index of an aligned block of the pool is among its minimum blocks. -/
theorem idx_of_aligned (h : Core mp B F) {r : Blk} (hr : r.Aligned) (hmin : mp.minOrder ≤ r.ord)
    (hlt : r.off < 2 ^ mp.maxOrder) :
    2 ^ mp.minOrder ∣ r.off ∧ mmBlkIdx mp (mp.base + r.off) = r.off / 2 ^ mp.minOrder ∧
      r.off / 2 ^ mp.minOrder < mp.nBlks := by
  refine ⟨(Nat.pow_dvd_pow 2 hmin).trans hr, mmBlkIdx_eq h.geom hlt, ?_⟩
  rw [Nat.div_lt_iff_lt_mul (Nat.two_pow_pos _), h.geom.nBlks_mul]
  exact hlt

/-- **What the merge loop tests.**  The free bit and the recorded order together say whether a
dyadic block is a free block. -/
theorem freeBlk_iff (h : Core mp B F) {r : Blk} (hr : r.Aligned) (hmin : mp.minOrder ≤ r.ord)
    (hlt : r.off < 2 ^ mp.maxOrder) :
    (mmBlkFree mp (mp.base + r.off) = true ∧ mmBlkGetAllocOrder mp (mp.base + r.off) = r.ord) ↔
      r ∈ F := by
  obtain ⟨hdvd, hidx, hilt⟩ := h.idx_of_aligned hr hmin hlt
  rw [mmBlkFree, mmBlkGetAllocOrder, hidx, h.bits _ hilt, Nat.div_mul_cancel hdvd]
  constructor
  · rintro ⟨⟨b, hb, hbo⟩, hord⟩
    have hbr : b = r := by
      rw [← hbo, h.orders b hb] at hord
      cases b
      cases r
      simp_all
    exact hbr ▸ hb
  · intro hb
    exact ⟨⟨r, hb, rfl⟩, h.orders r hb⟩

/-- **The blocks account for the whole pool**, in minimum blocks. -/
theorem sum_blks (h : Core mp B F) :
    ∑ b ∈ B, 2 ^ (b.ord - mp.minOrder) + ∑ b ∈ F, 2 ^ (b.ord - mp.minOrder) = mp.nBlks := by
  have hset : {b | b ∈ B ∨ b ∈ F} = ((B ∪ F : Finset Blk) : Set Blk) := by
    ext b
    simp
  have hd : Disjoint B F := Finset.disjoint_left.mpr h.disj
  have hsum : ∑ b ∈ B ∪ F, 2 ^ b.ord = 2 ^ mp.maxOrder := (hset ▸ h.tiling).sum_size
  have hscale : ∑ b ∈ B ∪ F, 2 ^ b.ord =
      (∑ b ∈ B ∪ F, 2 ^ (b.ord - mp.minOrder)) * 2 ^ mp.minOrder := by
    rw [Finset.sum_mul]
    refine Finset.sum_congr rfl (fun b hb => ?_)
    rw [← pow_add, Nat.sub_add_cancel (h.minOrder_le b (Finset.mem_union.mp hb))]
  rw [← Finset.sum_union hd]
  refine Nat.eq_of_mul_eq_mul_right (Nat.two_pow_pos mp.minOrder) ?_
  rw [← hscale, hsum, h.geom.nBlks_mul]

end Core

/-! ## 6. The invariant of a run

Between two calls the busy blocks are the live ones.  Their orders are recorded as well, and
`alloc_blks` counts them. -/

/-- The busy blocks are the ones that were handed out, and are accounted for. -/
structure MmInv (mp : MmPool) (L F : Finset Blk) : Prop extends Core mp L F where
  live : OrdersOk mp.allocOrder mp.minOrder L
  alloc : mp.allocBlks = ∑ b ∈ L, 2 ^ (b.ord - mp.minOrder)

/-- The order array holds zero wherever no block starts. -/
def MmClean (mp : MmPool) (L F : Finset Blk) : Prop :=
  OrdersClean mp.allocOrder mp.nBlks mp.minOrder L F

end FlightOs
