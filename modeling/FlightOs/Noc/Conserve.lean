/-
# What becomes of channels and transfers

The node of a channel is in the pool, or it runs a transfer, or an external user holds the channel;
an item is in the pool of items, in the queue, or on a running channel.  A call has items in its
hand on their way from one list to another, and the counter of the queue is behind by one between
the two statements that put an item in the queue and count it: `NocInv k hand run` is the invariant
with the items `hand`, the counter `k` too low, and the running transfers `run`, which stay.

Two functions look for the node of a channel at the address of their own variable.  After a transfer
that could not be set up, and after a channel has been given back by an external user, the node in
the pool is not the channel's, which is lost.
-/
import FlightOs.Noc.Dma
import FlightOs.Lib.System
import FlightOs.Lib.Places

namespace FlightOs

/-! ## 1. Running transfers -/

/-- The channels that run transfers, with the transfers. -/
def nocRunning (f : Nat → Option Nat) : List (Nat × Nat) := slots nocDmaChannels Prod.mk f

section Running

variable {f : Nat → Option Nat} {i t : Nat}

theorem mem_nocRunning : (i, t) ∈ nocRunning f ↔ i < nocDmaChannels ∧ f i = some t := by
  rw [nocRunning, mem_slots]
  constructor
  · rintro ⟨j, hj, u, hu, he⟩
    obtain ⟨rfl, rfl⟩ := Prod.mk.inj he
    exact ⟨hj, hu⟩
  · rintro ⟨hi, ht⟩
    exact ⟨i, hi, t, ht, rfl⟩

theorem nocRunning_start (hi : i < nocDmaChannels) (hn : f i = none) :
    (nocRunning (Function.update f i (some t))).Perm ((i, t) :: nocRunning f) := slots_fill hi hn

theorem nocRunning_stop (hi : i < nocDmaChannels) (ht : f i = some t) :
    (nocRunning f).Perm ((i, t) :: nocRunning (Function.update f i none)) := slots_clear hi ht

end Running

/-! ## 2. The invariant -/

/-- The nodes of channels, wherever they are. -/
def NocDma.nodes (s : NocDma) : List NocDmaChannelNode :=
  s.channelPool ++ ((nocRunning s.transfer).map Prod.fst ++ s.reserved).map .pool

/-- The items of transfers, wherever they are. -/
def NocDma.items (s : NocDma) : List Nat :=
  s.transferPool ++ (s.transferQueue ++ (nocRunning s.transfer).map Prod.snd)

/-- Every node of `dma_channel_pool` and every item of `dma_transfer_pool` is in one place, and
nothing else is in any. -/
structure NocConserves (cfg : NocConfig) (s : NocDma) : Prop where
  nodes : s.nodes.Perm ((List.range nocDmaChannels).map .pool)
  items : s.items.Perm (List.range cfg.queueSize)
  queued : s.transfersQueued = s.transferQueue.length

structure NocInv (cfg : NocConfig) (k : Nat) (hand : List Nat) (run : List (Nat × Nat))
    (s : NocDma) : Prop where
  nodes : s.nodes.Perm ((List.range nocDmaChannels).map .pool)
  items : (hand ++ s.items).Perm (List.range cfg.queueSize)
  word : s.transfersQueued < 2 ^ 32
  queued : (s.transfersQueued + k) % 2 ^ 32 = s.transferQueue.length % 2 ^ 32
  -- what is queued can be set up
  apart : ∀ t ∈ s.transferQueue, ¬ nocSameMemory (s.item t).dst (s.item t).src
  runs : ∀ p ∈ run, s.transfer p.1 = some p.2

section Inv

variable {cfg : NocConfig} {k : Nat} {hand : List Nat} {run : List (Nat × Nat)} {s s' : NocDma}
  {busy : NocDmaBusy} {x : NocDmaTransfer} {i c t : Nat} {ts : List Nat}

theorem NocInv.length_le (I : NocInv cfg k hand run s) :
    s.transferQueue.length ≤ cfg.queueSize := by
  have h := I.items.length_eq
  simp only [NocDma.items, List.length_append, List.length_range] at h
  omega

theorem NocInv.conserves (I : NocInv cfg 0 [] run s) : NocConserves cfg s := by
  refine ⟨I.nodes, I.items, ?_⟩
  have h1 := I.queued
  have h2 := I.word
  have h3 := I.length_le
  have h4 := cfg.range
  rw [Nat.add_zero, Nat.mod_eq_of_lt h2, Nat.mod_eq_of_lt (by omega)] at h1
  exact h1

/-- A free channel runs no transfer. -/
theorem NocInv.free (I : NocInv cfg k hand run s) {n : NocDmaChannelNode}
    {ns : List NocDmaChannelNode} (hp : s.channelPool = n :: ns) :
    ∃ i, n = .pool i ∧ i < nocDmaChannels ∧ s.transfer i = none := by
  have hn : n ∈ s.nodes := by
    rw [NocDma.nodes, hp]
    exact List.mem_cons_self
  obtain ⟨i, hi, rfl⟩ := List.mem_map.mp (I.nodes.mem_iff.mp hn)
  have hi : i < nocDmaChannels := List.mem_range.mp hi
  refine ⟨i, rfl, hi, Option.eq_none_iff_forall_ne_some.mpr (fun t ht => ?_)⟩
  have hnd : s.nodes.Nodup := by
    refine I.nodes.nodup_iff.mpr (List.nodup_range.map ?_)
    exact fun a b hab => NocDmaChannelNode.pool.inj hab
  rw [NocDma.nodes, hp, List.cons_append] at hnd
  refine (List.nodup_cons.mp hnd).1 (List.mem_append_right _ (List.mem_map_of_mem ?_))
  exact List.mem_append_left _ (List.mem_map.mpr ⟨(i, t), mem_nocRunning.mpr ⟨hi, ht⟩, rfl⟩)

/-- What a transfer is set up with concerns the hardware only. -/
theorem nocDmaExecuteTransfer_eq (hbusy : ∀ c n, busy c n = false)
    (hap : ¬ nocSameMemory (s.item t).dst (s.item t).src) :
    ∃ chan, nocDmaExecuteTransfer busy s c t = (0, { s with chan }) := by
  simp only [nocDmaExecuteTransfer, nocDmaInitTransfer, nocDmaSetConfig, nocDmaStartTransfer, hbusy,
    if_neg hap, Bool.false_eq_true, if_false]
  exact ⟨_, rfl⟩

/-- **A queued transfer goes to a free channel.** -/
theorem NocInv.start (I : NocInv cfg k hand run s) (hq : s.transferQueue = t :: ts)
    {ns : List NocDmaChannelNode} (hp : s.channelPool = .pool i :: ns) (hi : i < nocDmaChannels)
    (hn : s.transfer i = none) (h1 : s'.channelPool = ns)
    (h2 : s'.transfer = Function.update s.transfer i (some t)) (h3 : s'.transferQueue = ts)
    (h4 : s'.transfersQueued = wsub s.transfersQueued 1) (h5 : s'.transferPool = s.transferPool)
    (h6 : s'.item = s.item) (h7 : s'.reserved = s.reserved) : NocInv cfg k hand run s' := by
  have hrun := nocRunning_start (t := t) hi hn
  refine ⟨?_, ?_, ?_, ?_, fun u hu => ?_, fun p hp => ?_⟩
  · refine List.Perm.trans ?_ I.nodes
    rw [NocDma.nodes, NocDma.nodes, h1, h2, h7, hp]
    refine List.Perm.trans ?_ List.perm_middle
    exact (((hrun.map Prod.fst).append_right _).map _).append_left _
  · refine List.Perm.trans (List.Perm.append_left _ ?_) I.items
    rw [NocDma.items, NocDma.items, h2, h3, h5, hq]
    refine List.Perm.append_left _ (List.Perm.trans ?_ List.perm_middle)
    exact (hrun.map Prod.snd).append_left _
  · rw [h4]
    exact wsub_lt _ _
  · have h := I.queued
    have hw := I.word
    rw [hq, List.length_cons] at h
    rw [h3, h4, wsub]
    omega
  · rw [h6]
    rw [h3] at hu
    exact I.apart u (hq ▸ List.mem_cons_of_mem _ hu)
  · rw [h2, Function.update_of_ne]
    · exact I.runs p hp
    · intro he
      have := I.runs p hp
      rw [he, hn] at this
      cases this

/-- **The loop over the queue.** -/
theorem NocInv.programFrom (hbusy : ∀ c n, busy c n = false) :
    ∀ (ts : List Nat) {s : NocDma}, NocInv cfg k hand run s → s.transferQueue = ts →
      NocInv cfg k hand run (nocDmaProgramFrom busy s ts)
  | [], _, I, _ => I
  | t :: ts, s, I, hq => by
    cases hp : s.channelPool with
    | nil =>
      have hreq : nocDmaRequestChannel s (some t) = (none, s) := by
        simp only [nocDmaRequestChannel, hp]
      rw [nocDmaProgramFrom, hreq]
      exact I
    | cons n ns =>
      obtain ⟨i, rfl, hi, hn⟩ := I.free hp
      let s₁ : NocDma := { s with
        channelPool := ns
        transfer := Function.update s.transfer i (some t)
        transfersRequested := wadd s.transfersRequested 1 }
      have hreq : nocDmaRequestChannel s (some t) = (some i, s₁) := by
        simp only [nocDmaRequestChannel, hp, s₁]
      have hap : ¬ nocSameMemory (s.item t).dst (s.item t).src :=
        I.apart t (hq ▸ List.mem_cons_self)
      obtain ⟨chan, hexec⟩ := nocDmaExecuteTransfer_eq (c := i)
        (s := { s₁ with transferQueue := s₁.transferQueue.erase t }) hbusy hap
      have herase : s₁.transferQueue.erase t = ts := by
        show s.transferQueue.erase t = ts
        rw [hq, List.erase_cons_head]
      rw [nocDmaProgramFrom, hreq]
      simp only [hexec]
      exact NocInv.programFrom hbusy ts (I.start hq hp hi hn rfl rfl herase rfl rfl rfl rfl) herase

theorem NocInv.programTransfer (I : NocInv cfg k hand run s) (hbusy : ∀ c n, busy c n = false) :
    NocInv cfg k hand run (nocDmaProgramTransfer busy s) :=
  NocInv.programFrom hbusy _ I rfl

/-! ## 3. The calls -/

/-- An item in hand goes to the queue, and is counted. -/
theorem NocInv.registerTransfer (I : NocInv cfg 0 (t :: hand) run s)
    (hbusy : ∀ c n, busy c n = false) (hap : ¬ nocSameMemory (s.item t).dst (s.item t).src) :
    NocInv cfg 0 hand run (nocDmaRegisterTransfer busy s t) := by
  have I₁ : NocInv cfg 1 hand run { s with transferQueue := s.transferQueue ++ [t] } := by
    refine ⟨I.nodes, ?_, I.word, ?_, fun u hu => ?_, I.runs⟩
    · refine List.Perm.trans ?_ I.items
      refine List.Perm.trans (List.Perm.append_left _ ?_) List.perm_middle
      refine List.Perm.trans (List.Perm.append_left _ ?_) List.perm_middle
      show (s.transferQueue ++ [t] ++ _).Perm (t :: (s.transferQueue ++ _))
      rw [List.append_assoc]
      exact List.perm_middle
    · have h := I.queued
      show _ = (s.transferQueue ++ [t]).length % 2 ^ 32
      rw [List.length_append, List.length_singleton]
      simp only at h ⊢
      omega
    · rcases List.mem_append.mp hu with hu | hu
      · exact I.apart u hu
      · rw [List.mem_singleton] at hu
        exact hu ▸ hap
  have I₂ := I₁.programTransfer hbusy
  refine ⟨I₂.nodes, I₂.items, wadd_lt _ _, ?_, I₂.apart, I₂.runs⟩
  have h := I₂.queued
  have hw := I₂.word
  show (wadd (nocDmaProgramTransfer busy _).transfersQueued 1 + 0) % 2 ^ 32 = _
  rw [wadd, Nat.add_zero, Nat.mod_mod, Nat.add_comm 1]
  exact h

/-- A new transfer, if there is an item for it. -/
theorem NocInv.queueXfer (I : NocInv cfg 0 hand run s) (hbusy : ∀ c n, busy c n = false)
    (hap : ¬ nocSameMemory x.dst x.src) : NocInv cfg 0 hand run (nocDmaQueueXfer busy s x).2 := by
  unfold nocDmaQueueXfer nocDmaGetTransferSlot
  cases hp : s.transferPool with
  | nil => exact I
  | cons t ts =>
    have hitems : ∀ s' : NocDma, s'.transferPool = ts → s'.transferQueue = s.transferQueue →
        s'.transfer = s.transfer → ((t :: hand) ++ s'.items).Perm (List.range cfg.queueSize) := by
      intro s' h1 h2 h3
      refine List.Perm.trans ?_ I.items
      rw [NocDma.items, NocDma.items, h1, h2, h3, hp]
      exact List.perm_middle.symm
    have hnot : t ∉ s.transferQueue := by
      have hnd := I.items.nodup_iff.mpr List.nodup_range
      rw [NocDma.items, hp] at hnd
      have hnd := (List.nodup_append.mp hnd).2.1
      exact fun hmem => (List.nodup_cons.mp hnd).1
        (List.mem_append_right _ (List.mem_append_left _ hmem))
    refine NocInv.registerTransfer (t := t) ⟨I.nodes, hitems _ rfl rfl rfl, I.word, I.queued,
      fun u hu => ?_, I.runs⟩ hbusy ?_
    · have hne : u ≠ t := by
        rintro rfl
        exact hnot hu
      simp only [NocDma.setItem, Function.update_of_ne hne]
      exact I.apart u hu
    · simp only [NocDma.setItem, Function.update_self]
      exact hap

/-- The arguments of a request are let through, and would not be set up. -/
def nocStuck (cfg : NocConfig) (x : NocDmaTransfer) : Prop :=
  ¬ (x.src = 0 ∨ x.dst = 0 ∨ x.xElem = 0 ∨ x.yElem = 0) ∧ ¬ cfg.workaround ∧
    nocSameMemory x.dst x.src

theorem NocInv.reqXfer (I : NocInv cfg 0 hand run s) (hbusy : ∀ c n, busy c n = false)
    (hx : ¬ nocStuck cfg x) : NocInv cfg 0 hand run (nocDmaReqXfer cfg busy s x).2 := by
  unfold nocDmaReqXfer
  split
  · exact I
  · next hargs =>
    split
    · next hsame =>
      split
      · exact I
      · next hscratch =>
        have hto : ¬ nocSameMemory nocScratchBufferBase x.src := fun h => hscratch h.symm
        have hfrom : ¬ nocSameMemory x.dst nocScratchBufferBase := fun h =>
          hscratch (hsame.2.symm.trans h)
        have I₁ := I.queueXfer (x := { x with
          dst := nocScratchBufferBase, priority := 1, callback := 0, userdata := 0 }) hbusy hto
        split
        · next s₁ heq =>
          rw [heq] at I₁
          exact I₁.queueXfer hbusy hfrom
        · next heq =>
          rw [heq] at I₁
          exact I₁
    · next hsame => exact I.queueXfer hbusy (fun h => hx ⟨hargs, fun hw => hsame ⟨hw, h⟩, h⟩)

theorem NocInv.reserveChannel (I : NocInv cfg k hand run s) :
    NocInv cfg k hand run (nocDmaReserveChannel s).2 := by
  unfold nocDmaReserveChannel
  cases hp : s.channelPool with
  | nil =>
    have hreq : nocDmaRequestChannel s none = (none, s) := by simp only [nocDmaRequestChannel, hp]
    rw [hreq]
    exact I
  | cons n ns =>
    obtain ⟨i, rfl, hi, hn⟩ := I.free hp
    have hreq : nocDmaRequestChannel s none = (some i, { s with
        channelPool := ns, transfersRequested := wadd s.transfersRequested 1 }) := by
      simp only [nocDmaRequestChannel, hp, ← hn, Function.update_eq_self]
    rw [hreq]
    refine ⟨?_, I.items, I.word, I.queued, I.apart, I.runs⟩
    refine List.Perm.trans ?_ I.nodes
    rw [NocDma.nodes, NocDma.nodes, hp]
    refine List.Perm.trans (List.Perm.append_left _ ?_) List.perm_middle
    rw [← List.map_cons (f := NocDmaChannelNode.pool)]
    exact List.perm_middle.map _

/-- **A transfer is complete**: its item and its channel are free again. -/
theorem NocInv.complete (I : NocInv cfg k hand [(i, t)] s) (hi : i < nocDmaChannels) :
    NocInv cfg k hand [] (nocDmaReleaseChannelNode (nocDmaReleaseTransfer s t) (.pool i)) := by
  have ht : s.transfer i = some t := I.runs _ List.mem_cons_self
  have hrun := nocRunning_stop hi ht
  have hnot : t ∉ s.transferQueue := by
    have hnd := I.items.nodup_iff.mpr List.nodup_range
    rw [NocDma.items] at hnd
    have hnd := (List.nodup_append.mp (List.nodup_append.mp hnd).2.1).2.1
    refine fun hmem => (List.nodup_append.mp hnd).2.2 t hmem t ?_ rfl
    exact List.mem_map.mpr ⟨(i, t), mem_nocRunning.mpr ⟨hi, ht⟩, rfl⟩
  refine ⟨?_, ?_, I.word, I.queued, fun u hu => ?_, fun _ h => absurd h List.not_mem_nil⟩
  · refine List.Perm.trans ?_ I.nodes
    show ((s.channelPool ++ [NocDmaChannelNode.pool i]) ++ _).Perm (s.channelPool ++ _)
    rw [List.append_assoc]
    refine List.Perm.append_left _ ?_
    exact (((hrun.map Prod.fst).append_right _).map _).symm
  · refine List.Perm.trans (List.Perm.append_left _ ?_) I.items
    show ((s.transferPool ++ [t]) ++ _).Perm (s.transferPool ++ _)
    rw [List.append_assoc]
    refine List.Perm.append_left _ (List.Perm.symm ?_)
    exact ((hrun.map Prod.snd).append_left _).trans List.perm_middle
  · have hne : u ≠ t := by
      rintro rfl
      exact hnot hu
    simp only [nocDmaReleaseChannelNode, nocDmaReleaseTransfer, NocDma.setItem,
      Function.update_of_ne hne]
    exact I.apart u hu

end Inv

/-! ## 4. Runs -/

inductive NocOp
  | call (c : NocDmaCall)
  | irq (busy : NocDmaBusy) (i : Nat) (calls : List NocDmaCall)

def nocStep (cfg : NocConfig) (s : NocDma) : NocOp → Option NocDma
  | .call c => some (nocDmaCall cfg s c)
  | .irq busy i calls => nocDmaServiceIrqHandler cfg busy s i calls

def nocSystem (cfg : NocConfig) : System NocDma NocOp :=
  .ofFun (fun s => ∃ chan item, s = nocDmaInit cfg chan item) (nocStep cfg)

/-- An external user gives back what it holds. -/
def NocCallValid (s : NocDma) : NocDmaCall → Prop
  | .reqXfer _ _ | .reserve => True
  | .release c => ∀ i ∈ c, i ∈ s.reserved

/-- Calls in order, and interrupts of channels that run a transfer. -/
def NocValid (cfg : NocConfig) (s : NocDma) : NocOp → Prop
  | .call c => NocCallValid s c
  | .irq _ i calls => i < nocDmaChannels ∧ s.transfer i ≠ none ∧
      StepsMeet (nocDmaCall cfg) NocCallValid s calls

/-- The node of no channel is looked for: no request can get stuck, no channel is busy when a
transfer is set up, and no external user gives a channel back. -/
def NocCallSafe (cfg : NocConfig) : NocDmaCall → Prop
  | .reqXfer busy x => ¬ nocStuck cfg x ∧ ∀ c n, busy c n = false
  | .reserve => True
  | .release c => c = none

def NocSafe (cfg : NocConfig) : NocOp → Prop
  | .call c => NocCallSafe cfg c
  | .irq busy _ calls => (∀ c n, busy c n = false) ∧ ∀ c ∈ calls, NocCallSafe cfg c

section Runs

variable {cfg : NocConfig} {hand : List Nat} {run : List (Nat × Nat)} {s s' : NocDma} {o : NocOp}

theorem NocInv.call (I : NocInv cfg 0 hand run s) {c : NocDmaCall} (hc : NocCallSafe cfg c) :
    NocInv cfg 0 hand run (nocDmaCall cfg s c) := by
  cases c with
  | reqXfer busy x => exact I.reqXfer hc.2 hc.1
  | reserve => exact I.reserveChannel
  | release c =>
    obtain rfl : c = none := hc
    exact I

/-- The calls of a callback. -/
theorem NocInv.calls : ∀ (calls : List NocDmaCall) {s : NocDma}, NocInv cfg 0 hand run s →
    (∀ c ∈ calls, NocCallSafe cfg c) → NocInv cfg 0 hand run (calls.foldl (nocDmaCall cfg) s)
  | [], _, I, _ => I
  | c :: calls, _, I, hall => NocInv.calls calls (I.call (hall c List.mem_cons_self))
      (fun d hd => hall d (List.mem_cons_of_mem _ hd))

/-- **The step.** -/
theorem NocInv.step (I : NocInv cfg 0 [] [] s) (hv : NocValid cfg s o) (hsafe : NocSafe cfg o)
    (heq : nocStep cfg s o = some s') : NocInv cfg 0 [] [] s' := by
  cases o with
  | call c =>
    obtain rfl := Option.some.inj heq
    exact I.call hsafe
  | irq busy i calls =>
    obtain ⟨hi, hrun, -⟩ := hv
    obtain ⟨t, ht⟩ := Option.ne_none_iff_exists'.mp hrun
    have I₀ : NocInv cfg 0 [] [(i, t)] s :=
      ⟨I.nodes, I.items, I.word, I.queued, I.apart, by simpa using ht⟩
    have I₁ : NocInv cfg 0 [] [(i, t)]
        (if (s.item t).callback ≠ 0 then calls.foldl (nocDmaCall cfg) s else s) := by
      split
      · exact I₀.calls calls hsafe.2
      · exact I₀
    have I₂ := I₁.complete hi
    simp only [nocStep, nocDmaServiceIrqHandler, ht] at heq
    obtain rfl := Option.some.inj heq
    exact NocInv.programTransfer
      (s := { nocDmaReleaseChannelNode _ _ with transfersCompleted := _ })
      ⟨I₂.nodes, I₂.items, I₂.word, I₂.queued, I₂.apart, I₂.runs⟩ hsafe.1

theorem NocInv.init (chan : Nat → NocDmaChannel) (item : Nat → NocDmaTransfer) :
    NocInv cfg 0 [] [] (nocDmaInit cfg chan item) := by
  have hrun : nocRunning (nocDmaInit cfg chan item).transfer = [] := by
    rw [List.eq_nil_iff_forall_not_mem]
    rintro ⟨i, t⟩ hmem
    exact absurd (mem_nocRunning.mp hmem).2 (by simp [nocDmaInit])
  refine ⟨?_, ?_, Nat.two_pow_pos 32, rfl, fun t ht => absurd ht List.not_mem_nil,
    fun _ h => absurd h List.not_mem_nil⟩
  · rw [NocDma.nodes, hrun]
    simp [nocDmaInit]
  · rw [NocDma.items, hrun]
    simp [nocDmaInit]

/-- **Channels and transfers are conserved** in every run in which no node of a channel is looked
for by its address. -/
theorem noc_conserves (cfg : NocConfig) {s : NocDma}
    (h : (nocSystem cfg).Reachable (fun s o => NocValid cfg s o ∧ NocSafe cfg o) s) :
    NocConserves cfg s := by
  have hinv : NocInv cfg 0 [] [] s := by
    refine h.invariant (fun s hs => ?_) (fun s o s' I ho hs => I.step ho.1 ho.2 hs)
    obtain ⟨chan, item, rfl⟩ := hs
    exact NocInv.init chan item
  exact hinv.conserves

end Runs

/-- A queue of 32 items, as the configuration has it. -/
def nocDefault : NocConfig := ⟨32, false, by decide⟩

/-- 32 words from `src` to `dst`, with a callback. -/
def nocLinXfer (src dst : Nat) : NocDmaTransfer := ⟨src, dst, 32, 1, 2, 1, 1, 1, 1, 256, 0, 0, 1, 0⟩

def nocIdle : NocDmaBusy := fun _ _ => false

def nocStart : NocDma := nocDmaInit nocDefault (fun _ => ⟨0, ⟨0, 0, 0, 0⟩, 0, 0, 0, 0, 0⟩)
  (fun _ => nocLinXfer 0 0)

theorem nocStart_init : (nocSystem nocDefault).init nocStart := ⟨_, _, rfl⟩

/-- A transfer is complete, and its callback asks for the next one. -/
theorem noc_conserves_callback : ∃ s, System.stepAll (nocStep nocDefault) nocStart
      [.call (.reqXfer nocIdle (nocLinXfer 0x40000000 0x20000000)), .call .reserve,
        .irq nocIdle 0 [.reqXfer nocIdle (nocLinXfer 0x40000000 0x20000100)]] = some s ∧
      NocConserves nocDefault s := by
  obtain ⟨s, hs⟩ : ∃ s, System.stepAll (nocStep nocDefault) nocStart
      [.call (.reqXfer nocIdle (nocLinXfer 0x40000000 0x20000000)), .call .reserve,
        .irq nocIdle 0 [.reqXfer nocIdle (nocLinXfer 0x40000000 0x20000100)]] = some s :=
    Option.isSome_iff_exists.mp (by decide)
  have hruns : (System.stepAll (nocStep nocDefault) nocStart
      [.call (.reqXfer nocIdle (nocLinXfer 0x40000000 0x20000000)), .call .reserve]).map
        (fun s => s.transfer 0) = some (some 0) := by decide
  have hreq : ∀ dst, ¬ nocSameMemory dst 0x40000000 →
      NocCallSafe nocDefault (.reqXfer nocIdle (nocLinXfer 0x40000000 dst)) :=
    fun _ hap => ⟨fun h => hap h.2.2, fun _ _ => rfl⟩
  have hallowed : System.AllowedAll (nocStep nocDefault)
      (fun s o => NocValid nocDefault s o ∧ NocSafe nocDefault o) nocStart
      [.call (.reqXfer nocIdle (nocLinXfer 0x40000000 0x20000000)), .call .reserve,
        .irq nocIdle 0 [.reqXfer nocIdle (nocLinXfer 0x40000000 0x20000100)]] := by
    refine ⟨⟨trivial, hreq _ (by decide)⟩, fun s₁ h₁ => ⟨⟨trivial, trivial⟩, fun s₂ h₂ =>
      ⟨⟨⟨by decide, ?_, trivial, trivial⟩, fun _ _ => rfl, ?_⟩, fun _ _ => trivial⟩⟩⟩
    · rw [System.stepAll, h₁, Option.bind_some, System.stepAll, h₂] at hruns
      exact Option.ne_none_iff_exists'.mpr ⟨0, Option.some.inj hruns⟩
    · intro c hc
      rw [List.mem_singleton] at hc
      exact hc ▸ hreq _ (by decide)
  exact ⟨s, hs, noc_conserves nocDefault
    (System.Reachable.stepAll _ (.init nocStart_init) hallowed hs)⟩

/-- A transfer in one memory: its item is in the pool again, and its channel still has it. -/
theorem noc_conserves_sameMemory : ¬ ∀ s,
    (nocSystem nocDefault).Reachable (NocValid nocDefault) s → NocConserves nocDefault s := by
  intro hall
  have hcons := hall _ ((System.Reachable.init nocStart_init).step
    (o := .call (.reqXfer nocIdle (nocLinXfer 0x40000000 0x40000100))) trivial rfl)
  exact absurd hcons.items.length_eq (by decide)

end FlightOs
