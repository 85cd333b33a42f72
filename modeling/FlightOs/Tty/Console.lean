/-
# The queue of the console

`tty_write_internal`, which puts the bytes of a buffer in a queue, with a carriage return behind every line
feed, and the loop of `tty_tx`, which takes them out again.  The two run interleaved: a step of the writer
is one evaluation of a condition on the queue, or one `queue_put`; a step of the other side is one
`queue_get`.

The writer looks for room once for two puts, and in between the other side can only make more.  So nothing
is lost (`tty_lossless_fifo`): what was fetched and what is still in the queue are what was written, in
order, and each call has written the bytes that it says it has.
-/
import FlightOs.Tty.Queue
import FlightOs.Lib.System
import Mathlib.Data.UInt
import Mathlib.Data.List.GetD

namespace FlightOs

def lineFeed : UInt8 := 10

def carriageReturn : UInt8 := 13

/-! ## 1. The two sides -/

/-- Where the writer is. -/
inductive TtyPc where
  /-- between two calls -/
  | idle
  /-- `while (nbyte)`, and `queue_full` -/
  | top
  /-- there is room for a byte -/
  | byte
  /-- there is room for a line feed and a carriage return -/
  | feed
  /-- the line feed is put -/
  | ret
  deriving DecidableEq, Repr

structure TtyConsole where
  q : MaskedQueue UInt8
  pc : TtyPc
  buf : List UInt8
  cnt : Nat
  nbyte : Nat
  /-- what the calls were given, and what they returned -/
  calls : List (List UInt8 × Nat)
  /-- what was taken out -/
  fetched : List UInt8

/-- The writer goes on behind a byte. -/
def TtyConsole.next (s : TtyConsole) (q : MaskedQueue UInt8) : TtyConsole :=
  { s with q := q, pc := .top, cnt := s.cnt + 1, nbyte := s.nbyte - 1 }

/-- `return cnt` -/
def TtyConsole.done (s : TtyConsole) : TtyConsole :=
  { s with pc := .idle, calls := s.calls ++ [(s.buf, s.cnt)] }

/-- A step of `tty_write_internal` -/
def ttyWriteStep (s : TtyConsole) : TtyConsole :=
  match s.pc with
  | .idle => s
  | .top => if s.nbyte = 0 then s.done else if queueLeft s.q = 0 then s.done else { s with pc := .byte }
  | .byte =>
    if s.buf.getD s.cnt 0 = lineFeed then
      if queueLeft s.q < 2 then s.done else { s with pc := .feed }
    else s.next (queuePut s.q (s.buf.getD s.cnt 0)).1
  | .feed => { s with q := (queuePut s.q lineFeed).1, pc := .ret }
  | .ret => s.next (queuePut s.q carriageReturn).1

/-- A step of `tty_tx` -/
def ttyTxStep (s : TtyConsole) : TtyConsole :=
  match queueGet s.q with
  | none => s
  | some (c, q) => { s with q := q, fetched := s.fetched ++ [c] }

inductive TtyOp where
  | call (buf : List UInt8)
  | write
  | tx

/-- A call begins when there is none. -/
def ttyStep (s : TtyConsole) : TtyOp → Option TtyConsole
  | .call buf =>
    if s.pc = .idle then some { s with pc := .top, buf := buf, cnt := 0, nbyte := buf.length } else none
  | .write => some (ttyWriteStep s)
  | .tx => some (ttyTxStep s)

def ttyInit (k : Nat) (data : Nat → UInt8) : TtyConsole where
  q := queueInit k data
  pc := .idle
  buf := []
  cnt := 0
  nbyte := 0
  calls := []
  fetched := []

/-- The runs from a state on. -/
def ttySystem (s : TtyConsole) : System TtyConsole TtyOp := .ofFun (· = s) ttyStep

/-! ## 2. What is written is read -/

/-- A line feed is written as two characters. -/
def expandByte (c : UInt8) : List UInt8 := if c = lineFeed then [lineFeed, carriageReturn] else [c]

/-- The first `k` bytes of a buffer, as they are written. -/
def expand (buf : List UInt8) (k : Nat) : List UInt8 := (buf.take k).flatMap expandByte

/-- What the calls that have returned say they have written. -/
def TtyConsole.returned (s : TtyConsole) : List UInt8 := s.calls.flatMap fun c => expand c.1 c.2

/-- What the call that is running has put in the queue. -/
def TtyConsole.running (s : TtyConsole) : List UInt8 :=
  match s.pc with
  | .idle => []
  | .ret => expand s.buf s.cnt ++ [lineFeed]
  | _ => expand s.buf s.cnt

/-- What was put in the queue was fetched or is in it, in order; and a line feed is followed by its carriage
return, which there is room for. -/
structure TtyFifo (k : Nat) (s : TtyConsole) : Prop where
  lossless : ∃ unread, QueueHolds s.q k unread ∧ s.fetched ++ unread = s.returned ++ s.running
  paired : s.pc = .ret → queueLeft s.q ≠ 0

/-! ## 3. The invariant -/

/-- The room that the writer has found. -/
def TtyPc.found : TtyPc → Nat
  | .idle => 0
  | .top => 0
  | .byte => 1
  | .feed => 2
  | .ret => 1

/-- The queue, with the room found, and the byte that the writer is at. -/
structure TtyInv (k : Nat) (s : TtyConsole) : Prop where
  lossless : ∃ unread, QueueHolds s.q k unread ∧ s.fetched ++ unread = s.returned ++ s.running
  room : s.pc.found ≤ queueLeft s.q
  count : s.pc ≠ .idle → s.cnt + s.nbyte = s.buf.length
  left : s.pc ≠ .idle → s.pc ≠ .top → 0 < s.nbyte
  feeds : s.pc = .feed ∨ s.pc = .ret → s.buf.getD s.cnt 0 = lineFeed

variable {k : Nat} {s s' : TtyConsole} {unread : List UInt8}

theorem TtyInv.fifo (h : TtyInv k s) : TtyFifo k s where
  lossless := h.lossless
  paired := by
    intro hpc
    have hroom := h.room
    rw [hpc, TtyPc.found] at hroom
    exact Nat.ne_of_gt hroom

/-- A byte more of a buffer. -/
theorem expand_succ {buf : List UInt8} {n : Nat} (hn : n < buf.length) :
    expand buf (n + 1) = expand buf n ++ expandByte (buf.getD n 0) := by
  rw [expand, List.take_succ_eq_append_getElem hn, List.flatMap_append, List.flatMap_singleton,
    List.getD_eq_getElem _ _ hn]
  rfl

/-- Another item in the queue. -/
theorem queuePut_lossless (hk : k ≤ 32) (hq : QueueHolds s.q k unread) {written : List UInt8}
    (heq : s.fetched ++ unread = written) (hleft : queueLeft s.q ≠ 0) (c : UInt8) :
    ∃ unread', QueueHolds (queuePut s.q c).1 k unread' ∧ s.fetched ++ unread' = written ++ [c] :=
  ⟨unread ++ [c], hq.put hk hleft c, by rw [← heq, List.append_assoc]⟩

theorem TtyInv.done (h : TtyInv k s) (hpc : s.pc = .top ∨ s.pc = .byte) : TtyInv k s.done := by
  obtain ⟨unread, hq, heq⟩ := h.lossless
  refine ⟨⟨unread, hq, ?_⟩, Nat.zero_le _, fun hne => absurd rfl hne, fun hne => absurd rfl hne, ?_⟩
  · have hrunning : s.running = expand s.buf s.cnt := by
      unfold TtyConsole.running
      rcases hpc with hpc | hpc
      · rw [hpc]
      · rw [hpc]
    rw [TtyConsole.returned, TtyConsole.done, List.flatMap_append, List.flatMap_singleton, ← hrunning]
    exact heq.trans (List.append_nil _).symm
  · rintro (hpc | hpc)
    · exact absurd hpc (by decide : TtyPc.idle ≠ .feed)
    · exact absurd hpc (by decide : TtyPc.idle ≠ .ret)

/-- The last character of a byte is put. -/
theorem TtyInv.next (hk : k ≤ 32) (h : TtyInv k s) (hpc : s.pc = .byte ∨ s.pc = .ret) {c : UInt8}
    (hlast : s.running ++ [c] = expand s.buf (s.cnt + 1)) : TtyInv k (s.next (queuePut s.q c).1) := by
  have hidle : s.pc ≠ .idle := by
    rcases hpc with hpc | hpc
    · rw [hpc]; decide
    · rw [hpc]; decide
  have htop : s.pc ≠ .top := by
    rcases hpc with hpc | hpc
    · rw [hpc]; decide
    · rw [hpc]; decide
  have hroom : queueLeft s.q ≠ 0 := by
    have hroom := h.room
    rcases hpc with hpc | hpc
    · rw [hpc, TtyPc.found] at hroom
      exact Nat.ne_of_gt hroom
    · rw [hpc, TtyPc.found] at hroom
      exact Nat.ne_of_gt hroom
  obtain ⟨unread, hq, heq⟩ := h.lossless
  obtain ⟨unread', hq', heq'⟩ := queuePut_lossless hk hq heq hroom c
  have hcount := h.count hidle
  have hleft := h.left hidle htop
  refine ⟨⟨unread', hq', ?_⟩, Nat.zero_le _, fun _ => ?_, fun _ hne => absurd rfl hne, ?_⟩
  · change s.fetched ++ unread' = s.returned ++ expand s.buf (s.cnt + 1)
    rw [heq', List.append_assoc, hlast]
  · change s.cnt + 1 + (s.nbyte - 1) = s.buf.length
    omega
  · rintro (hpc | hpc)
    · exact absurd hpc (by decide : TtyPc.top ≠ .feed)
    · exact absurd hpc (by decide : TtyPc.top ≠ .ret)

/-- **A step of the writer.** -/
theorem TtyInv.write (hk : k ≤ 32) (h : TtyInv k s) : TtyInv k (ttyWriteStep s) := by
  obtain ⟨unread, hq, heq⟩ := h.lossless
  unfold ttyWriteStep
  rcases hpc : s.pc with _ | _ | _ | _ | _
  · exact h
  · dsimp only
    split
    · exact h.done (.inl hpc)
    · next hn =>
      split
      · exact h.done (.inl hpc)
      · next hleft =>
        refine ⟨⟨unread, hq, ?_⟩, Nat.pos_of_ne_zero hleft, fun _ => h.count (by rw [hpc]; decide),
          fun _ _ => Nat.pos_of_ne_zero hn, ?_⟩
        · rw [heq, TtyConsole.running, hpc]
          rfl
        · rintro (hpc | hpc)
          · exact absurd hpc (by decide : TtyPc.byte ≠ .feed)
          · exact absurd hpc (by decide : TtyPc.byte ≠ .ret)
  · dsimp only
    have hcount := h.count (by rw [hpc]; decide)
    have hleft := h.left (by rw [hpc]; decide) (by rw [hpc]; decide)
    split
    · next hfeed =>
      split
      · exact h.done (.inr hpc)
      · next htwo =>
        refine ⟨⟨unread, hq, ?_⟩, Nat.le_of_not_lt htwo, fun _ => hcount, fun _ _ => hleft, fun _ => hfeed⟩
        rw [heq, TtyConsole.running, hpc]
        rfl
    · next hfeed =>
      refine h.next hk (.inl hpc) ?_
      rw [TtyConsole.running, hpc, expand_succ (by omega), expandByte, if_neg hfeed]
  · have hcount := h.count (by rw [hpc]; decide)
    have hleft := h.left (by rw [hpc]; decide) (by rw [hpc]; decide)
    have hroom := h.room
    rw [hpc, TtyPc.found] at hroom
    obtain ⟨unread', hq', heq'⟩ := queuePut_lossless hk hq heq (by omega) lineFeed
    have hone := hq.put_left hk (by omega) lineFeed
    refine ⟨⟨unread', hq', ?_⟩, ?_, fun _ => hcount, fun _ _ => hleft, fun _ => h.feeds (.inl hpc)⟩
    · rw [heq', TtyConsole.running, hpc, List.append_assoc]
      rfl
    · change 1 ≤ queueLeft (queuePut s.q lineFeed).1
      omega
  · have hcount := h.count (by rw [hpc]; decide)
    have hleft := h.left (by rw [hpc]; decide) (by rw [hpc]; decide)
    refine h.next hk (.inr hpc) ?_
    rw [TtyConsole.running, hpc, expand_succ (by omega), expandByte, if_pos (h.feeds (.inr hpc)),
      List.append_assoc]
    rfl

/-- **A step of the other side.** -/
theorem TtyInv.tx (hk : k ≤ 32) (h : TtyInv k s) : TtyInv k (ttyTxStep s) := by
  obtain ⟨unread, hq, heq⟩ := h.lossless
  unfold ttyTxStep
  cases unread with
  | nil =>
    rw [hq.get_nil hk]
    exact h
  | cons c unread =>
    obtain ⟨q', hget, hq'⟩ := hq.get hk
    rw [hget]
    refine ⟨⟨unread, hq', ?_⟩, Nat.le_trans h.room (hq.get_left hk hq'), h.count, h.left, h.feeds⟩
    dsimp only
    rw [List.append_assoc, List.singleton_append]
    exact heq

theorem TtyInv.call (h : TtyInv k s) (hpc : s.pc = .idle) (buf : List UInt8) :
    TtyInv k { s with pc := .top, buf := buf, cnt := 0, nbyte := buf.length } := by
  obtain ⟨unread, hq, heq⟩ := h.lossless
  refine ⟨⟨unread, hq, ?_⟩, Nat.zero_le _, fun _ => Nat.zero_add _, fun _ hne => absurd rfl hne, ?_⟩
  · rw [heq, TtyConsole.running, hpc]
    rfl
  · rintro (hpc | hpc)
    · exact absurd hpc (by decide : TtyPc.top ≠ .feed)
    · exact absurd hpc (by decide : TtyPc.top ≠ .ret)

/-- **Every step keeps the invariant.** -/
theorem TtyInv.step (hk : k ≤ 32) (h : TtyInv k s) {o : TtyOp} (hs : ttyStep s o = some s') :
    TtyInv k s' := by
  cases o with
  | call buf =>
    rw [ttyStep] at hs
    split at hs
    · next hpc =>
      obtain rfl := Option.some.inj hs
      exact h.call hpc buf
    · exact absurd hs.symm (Option.some_ne_none s')
  | write =>
    obtain rfl := Option.some.inj hs
    exact h.write hk
  | tx =>
    obtain rfl := Option.some.inj hs
    exact h.tx hk

theorem ttyInit_inv (k : Nat) (data : Nat → UInt8) : TtyInv k (ttyInit k data) where
  lossless := ⟨[], queueInit_holds k data, rfl⟩
  room := Nat.zero_le _
  count := fun h => absurd rfl h
  left := fun h => absurd rfl h
  feeds := by
    rintro (hpc | hpc)
    · exact absurd hpc (by decide : TtyPc.idle ≠ .feed)
    · exact absurd hpc (by decide : TtyPc.idle ≠ .ret)

/-! ## 4. Runs -/

/-- What was fetched stays fetched. -/
theorem ttyStep_fetched {o : TtyOp} (hs : ttyStep s o = some s') : s.fetched <+: s'.fetched := by
  cases o with
  | call buf =>
    rw [ttyStep] at hs
    split at hs
    · obtain rfl := Option.some.inj hs
      exact List.prefix_refl _
    · exact absurd hs.symm (Option.some_ne_none s')
  | write =>
    obtain rfl := Option.some.inj hs
    unfold ttyWriteStep
    repeat' split
    all_goals exact List.prefix_refl _
  | tx =>
    obtain rfl := Option.some.inj hs
    rw [ttyTxStep]
    split
    · exact List.prefix_refl _
    · exact List.prefix_append _ _

/-- **The queue of the console is a lossless FIFO**: along every run, what was fetched and what is in the
queue are what was put in it; and once no call is running, what was fetched at any time before begins what
the calls say they have written. -/
theorem tty_lossless_fifo (k : Nat) (hk : k < 32) (data : Nat → UInt8) (s : TtyConsole)
    (hrun : (ttySystem (ttyInit k data)).Reachable (fun _ _ => True) s) :
    TtyFifo k s ∧ ∀ s', (ttySystem s).Reachable (fun _ _ => True) s' → s'.pc = .idle →
      s.fetched <+: s'.returned := by
  have hk' : k ≤ 32 := Nat.le_of_lt hk
  have hinv : TtyInv k s := by
    refine System.Reachable.invariant (I := TtyInv k) (fun s hs => ?_)
      (fun s o s' h _ hs => h.step hk' hs) hrun
    rw [hs]
    exact ttyInit_inv k data
  refine ⟨hinv.fifo, fun s' hrun' hidle => ?_⟩
  obtain ⟨hinv', hpre⟩ : TtyInv k s' ∧ s.fetched <+: s'.fetched := by
    refine System.Reachable.invariant (I := fun s' => TtyInv k s' ∧ s.fetched <+: s'.fetched)
      (fun s' hs => ?_) (fun s₁ o s₂ h _ hs => ⟨h.1.step hk' hs, h.2.trans (ttyStep_fetched hs)⟩) hrun'
    rw [hs]
    exact ⟨hinv, List.prefix_refl _⟩
  obtain ⟨unread, -, heq⟩ := hinv'.lossless
  rw [TtyConsole.running, hidle, List.append_nil] at heq
  exact hpre.trans ⟨unread, heq⟩

/-- A line feed is written to a queue of four places. -/
def ttySample : TtyConsole :=
  { ttyInit 2 fun _ => 0 with pc := .top, buf := [lineFeed], cnt := 0, nbyte := 1 }

/-- It is fetched before its carriage return is put. -/
theorem tty_lossless_fifo_interleaved :
    TtyFifo 2 (ttyTxStep (ttyWriteStep (ttyWriteStep (ttyWriteStep ttySample)))) ∧
      ∀ s', (ttySystem (ttyTxStep (ttyWriteStep (ttyWriteStep (ttyWriteStep ttySample))))).Reachable
        (fun _ _ => True) s' → s'.pc = .idle →
        (ttyTxStep (ttyWriteStep (ttyWriteStep (ttyWriteStep ttySample)))).fetched <+: s'.returned := by
  refine tty_lossless_fifo 2 (by decide) (fun _ => 0) _ ?_
  have hcall : (ttySystem (ttyInit 2 fun _ => 0)).Reachable (fun _ _ => True) ttySample :=
    .step (o := .call [lineFeed]) (.init rfl) trivial rfl
  have hwrite := fun {s : TtyConsole} (h : (ttySystem (ttyInit 2 fun _ => 0)).Reachable (fun _ _ => True) s) =>
    System.Reachable.step (o := TtyOp.write) h trivial rfl
  exact .step (o := .tx) (hwrite (hwrite (hwrite hcall))) trivial rfl

end FlightOs
