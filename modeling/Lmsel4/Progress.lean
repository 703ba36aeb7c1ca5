/-
No call is stuck for good.

A call of the driver can wait long: for a lock it never finds free, or for a
flag that only the next interrupt clears, its own wake-up being lost
(`WakeUp`). But there is a way on from every state that an interleaving can
lead to. The call that has the lock gives it back within four of its steps;
the handler comes to an end and clears both flags; and one more interrupt,
that brings a byte or takes one, lets the waiting call through. Readers and
writers wait in the same way on different ends of the device, so what the
lock and the handler give a call is said once (`Side`). Whatever has
happened, every call made can still return, within 35 steps
(`call_can_return`).
-/
import Lmsel4.Receive
import Lmsel4.Transmit

namespace Lmsel4.Progress

open ComDev

variable {C : Type} [DecidableEq C] {s s' : State C} {n : Nat}

/-! ## The handler comes to an end -/

/-- The calls and the locks are as they were. -/
structure Same (s s' : State C) : Prop where
  reads : s'.reads = s.reads
  writes : s'.writes = s.writes
  inputLock : s'.inputLock = s.inputLock
  outputLock : s'.outputLock = s.outputLock

omit [DecidableEq C] in
theorem Same.trans {s'' : State C} (h : Same s s') (h' : Same s' s'') : Same s s'' :=
  ⟨h'.reads.trans h.reads, h'.writes.trans h.writes, h'.inputLock.trans h.inputLock,
    h'.outputLock.trans h.outputLock⟩

/-- The handler is at its end, with both flags cleared and buffers that meet
`P`, and the calls and the locks are as in `s`. -/
structure Ended (P : Kfifo → Kfifo → Prop) (s s' : State C) : Prop where
  same : Same s s'
  handler : s'.handler = .idle
  readLocked : s'.readLocked = false
  writeLocked : s'.writeLocked = false
  buffers : P s'.inbuffer s'.outbuffer

/-- Within `n` steps the handler can be at its end. -/
abbrev Ends (n : Nat) (P : Kfifo → Kfifo → Prop) (s : State C) : Prop := (system C).Can n (Ended P s) s

variable {P : Kfifo → Kfifo → Prop}

omit [DecidableEq C] in
theorem Ended.of_same {t : State C} (h : Ended P t s') (hsame : Same s t) : Ended P s s' :=
  { h with same := hsame.trans h.same }

theorem Ends.after {v : UInt8} {t : State C} (hs : handlerStep s v = some t) (h : Ends n P t) : Ends (n + 1) P s := by
  have hsame : Same s t := by
    obtain ⟨_, _, _, _, _, _, _, _, rfl⟩ := handlerStep_frame hs
    exact ⟨rfl, rfl, rfl, rfl⟩
  have hstep : (system C).step s (.handler v) = some t := hs
  exact (h.head hstep).imp fun _ ht => ht.of_same hsame

/-! From each place in the handler, by the port values that lead to the end. -/

theorem ends_wakeRead (hpc : s.handler = .wakeRead) (hP : P s.inbuffer s.outbuffer) : Ends 2 P s := by
  refine .after (v := 0) (t := { s with readLocked := false }.handlerAt .wakeWrite) (by simp only [handlerStep, hpc]) ?_
  refine .after (v := 0) (t := { s with readLocked := false, writeLocked := false }.handlerAt .idle) rfl ?_
  exact .here ⟨⟨rfl, rfl, rfl, rfl⟩, rfl, rfl, rfl, hP⟩

theorem ends_rxLsr (hpc : s.handler = .rxLsr) (hP : P s.inbuffer s.outbuffer) : Ends 3 P s := by
  refine .after (v := 0) (t := s.handlerAt .wakeRead) (by simp only [handlerStep, hpc]; rfl) ?_
  exact ends_wakeRead rfl hP

theorem ends_rxIsr (hpc : s.handler = .rxIsr) (hP : P s.inbuffer s.outbuffer) : Ends 4 P s := by
  refine .after (v := 0) (t := s.handlerAt .rxLsr) (by simp only [handlerStep, hpc]) ?_
  exact ends_rxLsr rfl hP

theorem ends_putPublish {byte : UInt8} (hpc : s.handler = .putPublish byte)
    (hP : P (s.inbuffer.publishIn 1) s.outbuffer) : Ends 5 P s := by
  refine .after (v := 0) (t := { s with inbuffer := s.inbuffer.publishIn 1 }.handlerAt .rxIsr)
    (by simp only [handlerStep, hpc]) ?_
  exact ends_rxIsr rfl hP

theorem ends_putStore {byte : UInt8} (hpc : s.handler = .putStore byte)
    (hP : P ((s.inbuffer.storeByte byte).publishIn 1) s.outbuffer) : Ends 6 P s := by
  refine .after (v := 0) (t := { s with inbuffer := s.inbuffer.storeByte byte }.handlerAt (.putPublish byte))
    (by simp only [handlerStep, hpc]) ?_
  exact ends_putPublish rfl hP

theorem ends_putTest {byte : UInt8} (hpc : s.handler = .putTest byte)
    (hfull : s.inbuffer.kfifoIsFull = true → P s.inbuffer s.outbuffer)
    (hroom : s.inbuffer.kfifoIsFull = false → P ((s.inbuffer.storeByte byte).publishIn 1) s.outbuffer) :
    Ends 7 P s := by
  cases h : s.inbuffer.kfifoIsFull with
  | true =>
    refine .mono (Ends.after (v := 0) (t := { s with puts := s.puts ++ [s.put byte] }.handlerAt .wakeRead) ?_
      (ends_wakeRead rfl (hfull h))) (by decide)
    simp only [handlerStep, hpc, h, if_true, State.put]
  | false =>
    refine .after (v := 0) (t := { s with puts := s.puts ++ [s.put byte] }.handlerAt (.putStore byte)) ?_
      (ends_putStore rfl (hroom h))
    simp only [handlerStep, hpc, h, Bool.false_eq_true, if_false, State.put]

/-- A byte is taken from RBR. -/
theorem ends_rbrRead (hpc : s.handler = .rbrRead) (byte : UInt8)
    (hfull : s.inbuffer.kfifoIsFull = true → P s.inbuffer s.outbuffer)
    (hroom : s.inbuffer.kfifoIsFull = false → P ((s.inbuffer.storeByte byte).publishIn 1) s.outbuffer) :
    Ends 8 P s := by
  refine .after (v := byte) (t := { s with rbr := s.rbr ++ [byte] }.handlerAt (.putTest byte))
    (by simp only [handlerStep, hpc]) ?_
  exact ends_putTest rfl hfull hroom

theorem ends_txLsr (hpc : s.handler = .txLsr) (hP : P s.inbuffer s.outbuffer) : Ends 3 P s := by
  refine .after (v := 0) (t := s.handlerAt .wakeRead) (by simp only [handlerStep, hpc]; rfl) ?_
  exact ends_wakeRead rfl hP

theorem ends_txIsr (hpc : s.handler = .txIsr) (hP : P s.inbuffer s.outbuffer) : Ends 4 P s := by
  refine .after (v := 0) (t := s.handlerAt .txLsr) (by simp only [handlerStep, hpc]) ?_
  exact ends_txLsr rfl hP

theorem ends_thrWrite {byte : UInt8} (hpc : s.handler = .thrWrite byte) (hP : P s.inbuffer s.outbuffer) :
    Ends 5 P s := by
  refine .after (v := 0) (t := { s with thr := s.thr ++ [byte] }.handlerAt .txIsr) (by simp only [handlerStep, hpc]) ?_
  exact ends_txIsr rfl hP

theorem ends_getPublish {byte : UInt8} (hpc : s.handler = .getPublish byte)
    (hP : P s.inbuffer (s.outbuffer.publishOut 1)) : Ends 6 P s := by
  refine .after (v := 0) (t := { s with outbuffer := s.outbuffer.publishOut 1 }.handlerAt (.thrWrite byte))
    (by simp only [handlerStep, hpc]) ?_
  exact ends_thrWrite rfl hP

theorem ends_getLoad (hpc : s.handler = .getLoad) (hP : P s.inbuffer (s.outbuffer.publishOut 1)) : Ends 7 P s := by
  refine .after (v := 0) (t := s.handlerAt (.getPublish s.outbuffer.loadByte)) (by simp only [handlerStep, hpc]) ?_
  exact ends_getPublish rfl hP

/-- At the test of the transmit loop, on a status that says no byte has
come. -/
theorem ends_getTest {status : UInt8} (hpc : s.handler = .getTest status) (hdata : deviceHasData status = false)
    (hempty : s.outbuffer.kfifoIsEmpty = true → P s.inbuffer s.outbuffer)
    (hsome : s.outbuffer.kfifoIsEmpty = false → P s.inbuffer (s.outbuffer.publishOut 1)) : Ends 8 P s := by
  cases h : s.outbuffer.kfifoIsEmpty with
  | true =>
    refine .mono (Ends.after (v := 0) (t := s.handlerAt .wakeRead) ?_ (ends_wakeRead rfl (hempty h))) (by decide)
    simp only [handlerStep, hpc, h, if_true, rxLoop, hdata, Bool.false_eq_true, if_false]
  | false =>
    refine .after (v := 0) (t := s.handlerAt .getLoad) ?_ (ends_getLoad rfl (hsome h))
    simp only [handlerStep, hpc, h, Bool.false_eq_true, if_false]

/-- An interrupt, and the first two reads of the handler: of ISR, and of LSR
with the value `status`. -/
theorem ends_irq (hpc : s.handler = .idle) (status : UInt8)
    (h : Ends n P ({ s with runs := s.runs + 1 }.handlerAt (txLoop status))) : Ends (n + 3) P s := by
  have hlsr : Ends (n + 2) P ({ s with runs := s.runs + 1 }.handlerAt .txIsr) :=
    .after (v := 0) (t := { s with runs := s.runs + 1 }.handlerAt .txLsr) rfl (.after (v := status) rfl h)
  have hs : (system C).step s .irq = some ({ s with runs := s.runs + 1 }.handlerAt .txIsr) := by
    simp only [system, step, hpc, if_true]
  exact (hlsr.head hs).imp fun _ ht => ht.of_same ⟨rfl, rfl, rfl, rfl⟩

/-- A run of the handler from beginning to end. -/
theorem ends_idle (hpc : s.handler = .idle) (hP : P s.inbuffer s.outbuffer) : Ends 5 P s :=
  ends_irq hpc 0 (ends_wakeRead rfl hP)

/-- From anywhere. -/
theorem ends_any (s : State C) : Ends 9 (fun _ _ => True) s := by
  cases hpc : s.handler with
  | idle => exact (ends_idle hpc trivial).mono (by decide)
  | txIsr => exact (ends_txIsr hpc trivial).mono (by decide)
  | txLsr => exact (ends_txLsr hpc trivial).mono (by decide)
  | getTest status =>
    cases hdata : deviceHasData status with
    | false => exact (ends_getTest hpc hdata (fun _ => trivial) fun _ => trivial).mono (by decide)
    | true =>
      cases hempty : s.outbuffer.kfifoIsEmpty with
      | true =>
        refine .after (v := 0) (t := s.handlerAt .rbrRead) ?_ (ends_rbrRead rfl 0 (fun _ => trivial) fun _ => trivial)
        simp only [handlerStep, hpc, hempty, if_true, rxLoop, hdata]
      | false =>
        refine .mono (Ends.after (v := 0) (t := s.handlerAt .getLoad) ?_ (ends_getLoad rfl trivial)) (by decide)
        simp only [handlerStep, hpc, hempty, Bool.false_eq_true, if_false]
  | getLoad => exact (ends_getLoad hpc trivial).mono (by decide)
  | getPublish => exact (ends_getPublish hpc trivial).mono (by decide)
  | thrWrite => exact (ends_thrWrite hpc trivial).mono (by decide)
  | rbrRead => exact (ends_rbrRead hpc 0 (fun _ => trivial) fun _ => trivial).mono (by decide)
  | putTest => exact (ends_putTest hpc (fun _ => trivial) fun _ => trivial).mono (by decide)
  | putStore => exact (ends_putStore hpc trivial).mono (by decide)
  | putPublish => exact (ends_putPublish hpc trivial).mono (by decide)
  | rxIsr => exact (ends_rxIsr hpc trivial).mono (by decide)
  | rxLsr => exact (ends_rxLsr hpc trivial).mono (by decide)
  | wakeRead => exact (ends_wakeRead hpc trivial).mono (by decide)
  | wakeWrite =>
    -- A reader may have set its flag again, so one more run.
    refine .mono (Ends.after (v := 0) (t := { s with writeLocked := false }.handlerAt .idle)
      (by simp only [handlerStep, hpc]) (ends_idle rfl trivial)) (by decide)

section Buffers

variable {f : Kfifo}

theorem nonempty_of_full (h : f.Ok) (hfull : f.kfifoIsFull = true) : f.kfifoIsEmpty = false := by
  have hused := h.isFull_iff.mp hfull
  have hpos : 0 < f.size := Kfifo.size_pos
  rw [← Bool.not_eq_true, Kfifo.isEmpty_iff]
  omega

theorem nonempty_of_put (h : f.Ok) (hroom : f.kfifoIsFull = false) (byte : UInt8) :
    ((f.storeByte byte).publishIn 1).kfifoIsEmpty = false := by
  have hlt : f.used < f.size := by
    rw [← Bool.not_eq_true, h.isFull_iff] at hroom
    exact Nat.lt_of_le_of_ne h.bounded hroom
  have hused : ((f.storeByte byte).publishIn 1).used = f.used + 1 := (h.storeByte byte).used_publishIn hlt
  rw [← Bool.not_eq_true, Kfifo.isEmpty_iff]
  omega

theorem room_of_empty (h : f.Ok) (hempty : f.kfifoIsEmpty = true) : f.kfifoIsFull = false := by
  have hused := Kfifo.isEmpty_iff.mp hempty
  have hpos : 0 < f.size := Kfifo.size_pos
  rw [← Bool.not_eq_true, h.isFull_iff]
  omega

theorem room_of_get (h : f.Ok) (hsome : f.kfifoIsEmpty = false) : (f.publishOut 1).kfifoIsFull = false := by
  rw [← Bool.not_eq_true, Kfifo.isEmpty_iff] at hsome
  have hone : (1 : UInt32).toNat ≤ f.used := Nat.one_le_iff_ne_zero.mpr hsome
  have hused : (f.publishOut 1).used = f.used - 1 := Kfifo.used_publishOut hone
  have hsize : (f.publishOut 1).size = f.size := rfl
  have hbounded := h.bounded
  rw [← Bool.not_eq_true, (h.publishOut hone).isFull_iff]
  omega

end Buffers

/-- An interrupt that brings a byte. -/
theorem ends_delivers (hinv : RxInv s.rx) (hpc : s.handler = .idle) :
    Ends 11 (fun inbuffer _ => inbuffer.kfifoIsEmpty = false) s :=
  ends_irq hpc 1 (ends_rbrRead rfl 0 (nonempty_of_full hinv.ok) fun hroom => nonempty_of_put hinv.ok hroom 0)

/-- An interrupt that takes a byte, if there is one. -/
theorem ends_drains (hinv : TxInv s.tx) (hpc : s.handler = .idle) :
    Ends 11 (fun _ outbuffer => outbuffer.kfifoIsFull = false) s :=
  ends_irq hpc 0x20 (ends_getTest rfl (by decide) (room_of_empty hinv.ok) (room_of_get hinv.ok))

/-- The handler is brought to its end, and then one more interrupt lets
readers through. -/
theorem wakes_reader (h : (system C).Reachable s) :
    Ends 20 (fun inbuffer _ => inbuffer.kfifoIsEmpty = false) s :=
  ((ends_any s).reachable h).bind fun _ ⟨ht, hend⟩ =>
    (ends_delivers (reachable_rxInv ht) hend.handler).imp fun _ hend' => hend'.of_same hend.same

theorem wakes_writer (h : (system C).Reachable s) :
    Ends 20 (fun _ outbuffer => outbuffer.kfifoIsFull = false) s :=
  ((ends_any s).reachable h).bind fun _ ⟨ht, hend⟩ =>
    (ends_drains (reachable_txInv ht) hend.handler).imp fun _ hend' => hend'.of_same hend.same

/-! ## One side of the device -/

/-- Where a call is: at `asks n` it is `n` steps before the one that takes
the lock, if nothing is in its way; at `holds n`, before the one that gives
it back; and at `leaves n` it has `n` steps to its return. -/
inductive Phase
  | outside
  | asks (n : Nat)
  | holds (n : Nat)
  | leaves (n : Nat)

/-- After a step of a call that was at `asks n` it has the lock, or is nearer
to it with nothing in its way. -/
def Nears (phase : Phase) (lock : UInt32) (ready : Prop) (n : Nat) : Prop :=
  (∃ m, phase = .holds m) ∨ (∃ m, m < n ∧ phase = .asks m) ∧ lock = 0 ∧ ready

/-- After a step of a call that was at `holds n` it has given the lock back,
or is nearer to that. -/
def Gives (phase : Phase) (lock lock' : UInt32) (n : Nat) : Prop :=
  (∃ m, m ≤ 2 ∧ phase = .leaves m) ∧ lock' = Spinlock.storeLowByte lock ∨
    (∃ m, m < n ∧ phase = .holds m) ∧ lock' = lock

/-- The calls of one kind, with their lock and what lets them through. -/
structure Side (C : Type) [DecidableEq C] where
  phase : State C → C → Phase
  act : C → Act C
  lock : State C → UInt32
  ready : State C → Prop
  asks_le : ∀ {s c n}, phase s c = .asks n → n ≤ 2
  holds_le : ∀ {s c n}, phase s c = .holds n → n ≤ 3
  leaves_le : ∀ {s c n}, phase s c = .leaves n → n ≤ 2
  asks : ∀ {s c n}, phase s c = .asks n → lock s = 0 → ready s →
    ∃ t, (system C).step s (act c) = some t ∧ Nears (phase t c) (lock t) (ready t) n
  holds : ∀ {s c n}, phase s c = .holds n → ∃ t, (system C).step s (act c) = some t ∧
    (∀ d, d ≠ c → phase t d = phase s d) ∧ Gives (phase t c) (lock s) (lock t) n
  leaves : ∀ {s c n}, phase s c = .leaves (n + 1) →
    ∃ t, (system C).step s (act c) = some t ∧ phase t c = .leaves n
  word : ∀ {s}, (system C).Reachable s → lock s = 0 ∨ lock s = Spinlock.qLockedVal
  held : ∀ {s}, (system C).Reachable s → lock s ≠ 0 → ∃ c n, phase s c = .holds n
  /-- The handler can let the calls through. -/
  wakes : ∀ {s}, (system C).Reachable s →
    (system C).Can 20 (fun t => ready t ∧ lock t = lock s ∧ phase t = phase s) s

namespace Side

variable (side : Side C) {c d : C}

/-- The call has returned. -/
def Returned (c : C) (s : State C) : Prop := side.phase s c = .leaves 0

theorem returns_leaves (h : side.phase s c = .leaves n) : (system C).Can n (side.Returned c) s := by
  induction n generalizing s with
  | zero => exact .here h
  | succ n ih =>
    obtain ⟨t, hs, ht⟩ := side.leaves h
    exact .head hs (ih ht)

/-- The call is past `spin_unlock`, and the other calls are where they
were. -/
structure Freed (c : C) (s s' : State C) : Prop where
  phase : ∃ m, m ≤ 2 ∧ side.phase s' c = .leaves m
  lock : side.lock s' = Spinlock.storeLowByte (side.lock s)
  others : ∀ d, d ≠ c → side.phase s' d = side.phase s d

/-- A call that has the lock gives it back. -/
theorem frees (h : side.phase s c = .holds n) : (system C).Can 4 (side.Freed c s) s := by
  -- Up to `spin_unlock` the lock and the other calls stay as they are.
  let I (n : Nat) (t : State C) : Prop := side.phase t c = .holds n ∧ side.lock t = side.lock s ∧
    ∀ d, d ≠ c → side.phase t d = side.phase s d
  have hgo {n : Nat} {t : State C} (ht : I n t) : ∃ a t', (system C).step t a = some t' ∧
      (side.Freed c s t' ∨ ∃ m, m < n ∧ I m t') := by
    obtain ⟨hphase, hlock, hothers⟩ := ht
    obtain ⟨t', hs, hothers', ⟨hleft, hlock'⟩ | ⟨⟨m, hm, hphase'⟩, hlock'⟩⟩ := side.holds hphase
    · exact ⟨_, t', hs, .inl ⟨hleft, hlock ▸ hlock', fun d hd => (hothers' d hd).trans (hothers d hd)⟩⟩
    · exact ⟨_, t', hs, .inr ⟨m, hm, hphase', hlock'.trans hlock, fun d hd => (hothers' d hd).trans (hothers d hd)⟩⟩
  have hstart : I n s := ⟨h, rfl, fun _ _ => rfl⟩
  exact (System.Can.variant hgo hstart).mono (Nat.succ_le_succ (side.holds_le h))

theorem returns_holds (h : side.phase s c = .holds n) : (system C).Can 6 (side.Returned c) s :=
  (side.frees h).bind fun _ ht =>
    let ⟨_, hm, hleaves⟩ := ht.phase
    (side.returns_leaves hleaves).mono hm

/-- A call returns when nothing is in its way. -/
theorem returns_ready (h : side.phase s c = .asks n) (hfree : side.lock s = 0) (hready : side.ready s) :
    (system C).Can 9 (side.Returned c) s := by
  let I (n : Nat) (t : State C) : Prop := side.phase t c = .asks n ∧ side.lock t = 0 ∧ side.ready t
  have hgo {n : Nat} {t : State C} (ht : I n t) : ∃ a t', (system C).step t a = some t' ∧
      ((∃ m, side.phase t' c = .holds m) ∨ ∃ m, m < n ∧ I m t') := by
    obtain ⟨hphase, hfree, hready⟩ := ht
    obtain ⟨t', hs, hholds | ⟨⟨m, hm, hphase'⟩, hrest⟩⟩ := side.asks hphase hfree hready
    · exact ⟨_, t', hs, .inl hholds⟩
    · exact ⟨_, t', hs, .inr ⟨m, hm, hphase', hrest⟩⟩
  have hstart : I n s := ⟨h, hfree, hready⟩
  have hlock := (System.Can.variant hgo hstart).mono (Nat.succ_le_succ (side.asks_le h))
  exact hlock.bind fun _ ⟨_, hholds⟩ => side.returns_holds hholds

/-- If another call has the lock, it is given back. -/
theorem frees_lock (hreach : (system C).Reachable s) (h : side.phase s c = .asks n) :
    (system C).Can 4 (fun t => side.lock t = 0 ∧ side.phase t c = .asks n) s := by
  by_cases hfree : side.lock s = 0
  · exact .mono (.here ⟨hfree, h⟩) (by decide)
  · obtain ⟨d, m, hd⟩ := side.held hreach hfree
    have hlocked := (side.word hreach).resolve_left hfree
    have hne : c ≠ d := by
      rintro rfl
      rw [h] at hd
      cases hd
    exact (side.frees hd).imp fun t ht => ⟨by rw [ht.lock, hlocked]; rfl, (ht.others c hne).trans h⟩

theorem returns_asks (hreach : (system C).Reachable s) (h : side.phase s c = .asks n) :
    (system C).Can 33 (side.Returned c) s := by
  show (system C).Can (4 + (20 + 9)) _ s
  refine ((side.frees_lock hreach h).reachable hreach).bind fun s₁ ⟨hreach₁, hfree, h₁⟩ => ?_
  refine (side.wakes hreach₁).bind fun s₂ ⟨hready, hlock, hphase⟩ => ?_
  exact side.returns_ready ((congrFun hphase c).trans h₁) (hlock.trans hfree) hready

/-- A call that is not outside can still return. -/
theorem returns_inside (hreach : (system C).Reachable s) (h : side.phase s c ≠ .outside) :
    (system C).Can 33 (side.Returned c) s := by
  cases hphase : side.phase s c with
  | outside => exact absurd hphase h
  | asks n => exact side.returns_asks hreach hphase
  | holds n => exact (side.returns_holds hphase).mono (by decide)
  | leaves n => exact (side.returns_leaves hphase).mono (Nat.le_trans (side.leaves_le hphase) (by decide))

/-- One that is not outside after its next step can too. -/
theorem returns_after {t : State C} (hreach : (system C).Reachable s) (hs : (system C).step s (side.act c) = some t)
    (h : side.phase t c ≠ .outside) : (system C).Can 34 (side.Returned c) s :=
  .head hs (side.returns_inside (hreach.step trivial hs) h)

end Side

/-! ## Readers -/

section Readers

variable {c d : C}

def readPhase : ReadPc → Phase
  | .idle | .kmalloc | .waitSet => .outside
  | .waitTest | .waitPoll => .asks 2
  | .tryRead => .asks 1
  | .tryCmpxchg => .asks 0
  | .outLen => .holds 3
  | .copyOut _ => .holds 2
  | .publish _ _ => .holds 1
  | .unlock _ _ => .holds 0
  | .copyToUser _ _ => .leaves 1
  | .done _ _ => .leaves 0

theorem readAt_other (s : State C) (pc : ReadPc) (h : d ≠ c) : (s.readAt c pc).reads d = s.reads d :=
  Function.update_of_ne h _ _

@[simp] theorem readAt_pc (s : State C) (c : C) (pc : ReadPc) : ((s.readAt c pc).reads c).pc = pc := by
  simp [State.readAt]

theorem reader_asks (h : readPhase (s.reads c).pc = .asks n) (hfree : s.inputLock = 0)
    (hready : s.inbuffer.kfifoIsEmpty = false ∧ s.readLocked = false) :
    ∃ t, (system C).step s (.read c true) = some t ∧
      Nears (readPhase (t.reads c).pc) t.inputLock (t.inbuffer.kfifoIsEmpty = false ∧ t.readLocked = false) n := by
  suffices hgo : ∃ (t : State C) (pc : ReadPc), readStep s c true = some (t.readAt c pc) ∧
      Nears (readPhase pc) t.inputLock (t.inbuffer.kfifoIsEmpty = false ∧ t.readLocked = false) n by
    obtain ⟨t, pc, hs, hnears⟩ := hgo
    exact ⟨t.readAt c pc, hs, by rwa [readAt_pc]⟩
  cases hpc : (s.reads c).pc <;> rw [hpc] at h <;> cases h
  case waitTest =>
    refine ⟨s, .tryRead, ?_, .inr ⟨⟨1, by decide, rfl⟩, hfree, hready⟩⟩
    simp only [readStep, hpc, hready.1, Bool.not_false, if_true]
  case waitPoll =>
    refine ⟨s, .tryRead, ?_, .inr ⟨⟨1, by decide, rfl⟩, hfree, hready⟩⟩
    simp only [readStep, hpc, hready.2, Bool.false_eq_true, if_false]
  case tryRead =>
    refine ⟨s, .tryCmpxchg, ?_, .inr ⟨⟨0, by decide, rfl⟩, hfree, hready⟩⟩
    simp only [readStep, hpc, hfree, if_true]
  case tryCmpxchg =>
    refine ⟨{ s with inputLock := Spinlock.qLockedVal, readOrder := s.readOrder ++ [c] }, .outLen, ?_, .inl ⟨3, rfl⟩⟩
    simp only [readStep, hpc, Spinlock.atomicCmpxchg, hfree, if_true]

theorem reader_holds (h : readPhase (s.reads c).pc = .holds n) :
    ∃ t, (system C).step s (.read c true) = some t ∧
      (∀ d, d ≠ c → readPhase (t.reads d).pc = readPhase (s.reads d).pc) ∧
      Gives (readPhase (t.reads c).pc) s.inputLock t.inputLock n := by
  suffices hgo : ∃ (t : State C) (pc : ReadPc), readStep s c true = some (t.readAt c pc) ∧ t.reads = s.reads ∧
      Gives (readPhase pc) s.inputLock t.inputLock n by
    obtain ⟨t, pc, hs, ht, hgives⟩ := hgo
    refine ⟨t.readAt c pc, hs, fun d hd => ?_, ?_⟩
    · rw [readAt_other t pc hd, ht]
    · rwa [readAt_pc]
  cases hpc : (s.reads c).pc <;> rw [hpc] at h <;> cases h
  case outLen => exact ⟨s, _, by simp only [readStep, hpc]; rfl, rfl, .inr ⟨⟨2, by decide, rfl⟩, rfl⟩⟩
  case copyOut => exact ⟨s, _, by simp only [readStep, hpc]; rfl, rfl, .inr ⟨⟨1, by decide, rfl⟩, rfl⟩⟩
  case publish len buffer =>
    refine ⟨{ s with inbuffer := s.inbuffer.publishOut len }, .unlock len buffer, ?_, rfl,
      .inr ⟨⟨0, by decide, rfl⟩, rfl⟩⟩
    simp only [readStep, hpc]
  case unlock len buffer =>
    refine ⟨{ s with inputLock := Spinlock.storeLowByte s.inputLock }, .copyToUser len buffer, ?_, rfl,
      .inl ⟨⟨1, by decide, rfl⟩, rfl⟩⟩
    simp only [readStep, hpc]

theorem reader_leaves (h : readPhase (s.reads c).pc = .leaves (n + 1)) :
    ∃ t, (system C).step s (.read c true) = some t ∧ readPhase (t.reads c).pc = .leaves n := by
  cases hpc : (s.reads c).pc <;> rw [hpc] at h <;> cases h
  refine ⟨_, by simp only [system, step, readStep, hpc]; rfl, ?_⟩
  rw [readAt_pc]
  rfl

theorem readPhase_le {pc : ReadPc} : (∀ n, readPhase pc = .asks n → n ≤ 2) ∧
    (∀ n, readPhase pc = .holds n → n ≤ 3) ∧ ∀ n, readPhase pc = .leaves n → n ≤ 2 := by
  cases pc <;> simp [readPhase]

theorem readPhase_holds {pc : ReadPc} : pc.holds = true ↔ ∃ n, readPhase pc = .holds n := by
  cases pc <;> simp [ReadPc.holds, readPhase]

/-- The calls of `uart16550_read`. -/
def readers (C : Type) [DecidableEq C] : Side C where
  phase s c := readPhase (s.reads c).pc
  act c := .read c true
  lock s := s.inputLock
  ready s := s.inbuffer.kfifoIsEmpty = false ∧ s.readLocked = false
  asks_le h := readPhase_le.1 _ h
  holds_le h := readPhase_le.2.1 _ h
  leaves_le h := readPhase_le.2.2 _ h
  asks := reader_asks
  holds := reader_holds
  leaves := reader_leaves
  word h := (reachable_rxInv h).turns.word
  held {s} h hlock := by
    by_contra hnone
    refine hlock ((reachable_rxInv h).turns.excl.free_iff.mpr fun c hc => hnone ?_)
    exact ⟨c, readPhase_holds.mp hc⟩
  wakes {s} h := (wakes_reader h).imp fun t ht =>
    ⟨⟨ht.buffers, ht.readLocked⟩, ht.same.inputLock, by rw [ht.same.reads]⟩

/-- A call of `uart16550_read` that was made can still return. -/
theorem read_can_return (h : (system C).Reachable s) (hmade : (s.reads c).pc ≠ .idle) :
    (system C).Can 34 (fun s => ∃ ret user, (s.reads c).pc = .done ret user) s := by
  have hreturned (t : State C) (ht : (readers C).Returned c t) : ∃ ret user, (t.reads c).pc = .done ret user := by
    change readPhase (t.reads c).pc = .leaves 0 at ht
    cases hpc : (t.reads c).pc <;> rw [hpc] at ht <;> cases ht
    exact ⟨_, _, rfl⟩
  refine System.Can.imp ?_ hreturned
  cases hpc : (s.reads c).pc with
  | idle => exact absurd hpc hmade
  | kmalloc =>
    refine (readers C).returns_after (t := s.readAt c .waitTest) h ?_ (by simp [readers, readPhase])
    simp only [readers, system, step, readStep, hpc, if_true]
  | waitSet =>
    refine (readers C).returns_after (t := { s with readLocked := true }.readAt c .waitPoll) h ?_
      (by simp [readers, readPhase])
    simp only [readers, system, step, readStep, hpc]
  | _ =>
    have hphase : (readers C).phase s c = readPhase (s.reads c).pc := rfl
    rw [hpc] at hphase
    exact ((readers C).returns_inside h (by simp [hphase, readPhase])).mono (by decide)

end Readers

/-! ## Writers -/

section Writers

variable {c d : C}

def writePhase : WritePc → Phase
  | .idle | .kmalloc | .copyFromUser | .waitSet => .outside
  | .waitTest | .waitPoll => .asks 2
  | .tryRead => .asks 1
  | .tryCmpxchg => .asks 0
  | .inLen => .holds 3
  | .copyIn _ => .holds 2
  | .publish _ => .holds 1
  | .unlock _ => .holds 0
  | .disable _ => .leaves 2
  | .enable _ => .leaves 1
  | .done _ => .leaves 0

theorem writeAt_other (s : State C) (pc : WritePc) (h : d ≠ c) : (s.writeAt c pc).writes d = s.writes d :=
  Function.update_of_ne h _ _

@[simp] theorem writeAt_pc (s : State C) (c : C) (pc : WritePc) : ((s.writeAt c pc).writes c).pc = pc := by
  simp [State.writeAt]

theorem writer_asks (h : writePhase (s.writes c).pc = .asks n) (hfree : s.outputLock = 0)
    (hready : s.outbuffer.kfifoIsFull = false ∧ s.writeLocked = false) :
    ∃ t, (system C).step s (.write c true) = some t ∧
      Nears (writePhase (t.writes c).pc) t.outputLock (t.outbuffer.kfifoIsFull = false ∧ t.writeLocked = false) n := by
  suffices hgo : ∃ (t : State C) (pc : WritePc), writeStep s c true = some (t.writeAt c pc) ∧
      Nears (writePhase pc) t.outputLock (t.outbuffer.kfifoIsFull = false ∧ t.writeLocked = false) n by
    obtain ⟨t, pc, hs, hnears⟩ := hgo
    exact ⟨t.writeAt c pc, hs, by rwa [writeAt_pc]⟩
  cases hpc : (s.writes c).pc <;> rw [hpc] at h <;> cases h
  case waitTest =>
    refine ⟨s, .tryRead, ?_, .inr ⟨⟨1, by decide, rfl⟩, hfree, hready⟩⟩
    simp only [writeStep, hpc, hready.1, Bool.not_false, if_true]
  case waitPoll =>
    refine ⟨s, .tryRead, ?_, .inr ⟨⟨1, by decide, rfl⟩, hfree, hready⟩⟩
    simp only [writeStep, hpc, hready.2, Bool.false_eq_true, if_false]
  case tryRead =>
    refine ⟨s, .tryCmpxchg, ?_, .inr ⟨⟨0, by decide, rfl⟩, hfree, hready⟩⟩
    simp only [writeStep, hpc, hfree, if_true]
  case tryCmpxchg =>
    refine ⟨{ s with outputLock := Spinlock.qLockedVal, writeOrder := s.writeOrder ++ [c] }, .inLen, ?_, .inl ⟨3, rfl⟩⟩
    simp only [writeStep, hpc, Spinlock.atomicCmpxchg, hfree, if_true]

theorem writer_holds (h : writePhase (s.writes c).pc = .holds n) :
    ∃ t, (system C).step s (.write c true) = some t ∧
      (∀ d, d ≠ c → writePhase (t.writes d).pc = writePhase (s.writes d).pc) ∧
      Gives (writePhase (t.writes c).pc) s.outputLock t.outputLock n := by
  suffices hgo : ∃ (t : State C) (pc : WritePc), writeStep s c true = some (t.writeAt c pc) ∧ t.writes = s.writes ∧
      Gives (writePhase pc) s.outputLock t.outputLock n by
    obtain ⟨t, pc, hs, ht, hgives⟩ := hgo
    refine ⟨t.writeAt c pc, hs, fun d hd => ?_, ?_⟩
    · rw [writeAt_other t pc hd, ht]
    · rwa [writeAt_pc]
  cases hpc : (s.writes c).pc <;> rw [hpc] at h <;> cases h
  case inLen => exact ⟨s, _, by simp only [writeStep, hpc]; rfl, rfl, .inr ⟨⟨2, by decide, rfl⟩, rfl⟩⟩
  case copyIn len =>
    refine ⟨{ s with outbuffer := s.outbuffer.kfifoCopyIn (s.writes c).buffer len s.outbuffer.inIdx }, .publish len,
      ?_, rfl, .inr ⟨⟨1, by decide, rfl⟩, rfl⟩⟩
    simp only [writeStep, hpc]
  case publish len =>
    refine ⟨{ s with outbuffer := s.outbuffer.publishIn len }, .unlock len, ?_, rfl,
      .inr ⟨⟨0, by decide, rfl⟩, rfl⟩⟩
    simp only [writeStep, hpc]
  case unlock copied =>
    refine ⟨{ s with outputLock := Spinlock.storeLowByte s.outputLock }, .disable copied, ?_, rfl,
      .inl ⟨⟨2, by decide, rfl⟩, rfl⟩⟩
    simp only [writeStep, hpc]

theorem writer_leaves (h : writePhase (s.writes c).pc = .leaves (n + 1)) :
    ∃ t, (system C).step s (.write c true) = some t ∧ writePhase (t.writes c).pc = .leaves n := by
  show ∃ t, writeStep s c true = some t ∧ _
  cases hpc : (s.writes c).pc <;> rw [hpc] at h <;> cases h
  all_goals
    refine ⟨_, by simp only [writeStep, hpc]; rfl, ?_⟩
    rw [writeAt_pc]
    rfl

theorem writePhase_le {pc : WritePc} : (∀ n, writePhase pc = .asks n → n ≤ 2) ∧
    (∀ n, writePhase pc = .holds n → n ≤ 3) ∧ ∀ n, writePhase pc = .leaves n → n ≤ 2 := by
  cases pc <;> simp [writePhase]

theorem writePhase_holds {pc : WritePc} : pc.holds = true ↔ ∃ n, writePhase pc = .holds n := by
  cases pc <;> simp [WritePc.holds, writePhase]

/-- The calls of `uart16550_write`. -/
def writers (C : Type) [DecidableEq C] : Side C where
  phase s c := writePhase (s.writes c).pc
  act c := .write c true
  lock s := s.outputLock
  ready s := s.outbuffer.kfifoIsFull = false ∧ s.writeLocked = false
  asks_le h := writePhase_le.1 _ h
  holds_le h := writePhase_le.2.1 _ h
  leaves_le h := writePhase_le.2.2 _ h
  asks := writer_asks
  holds := writer_holds
  leaves := writer_leaves
  word h := (reachable_txInv h).turns.word
  held {s} h hlock := by
    by_contra hnone
    refine hlock ((reachable_txInv h).turns.excl.free_iff.mpr fun c hc => hnone ?_)
    exact ⟨c, writePhase_holds.mp hc⟩
  wakes {s} h := (wakes_writer h).imp fun t ht =>
    ⟨⟨ht.buffers, ht.writeLocked⟩, ht.same.outputLock, by rw [ht.same.writes]⟩

theorem returns_copyFromUser (h : (system C).Reachable s) (hpc : (s.writes c).pc = .copyFromUser) :
    (system C).Can 34 ((writers C).Returned c) s := by
  refine (writers C).returns_after (t := { s with
    writes := Function.update s.writes c { s.writes c with buffer := (s.writes c).user, pc := .waitTest } }) h ?_ ?_
  · simp only [writers, system, step, writeStep, hpc]
    rfl
  · simp [writers, writePhase]

/-- A call of `uart16550_write` that was made can still return. -/
theorem write_can_return (h : (system C).Reachable s) (hmade : (s.writes c).pc ≠ .idle) :
    (system C).Can 35 (fun s => ∃ ret, (s.writes c).pc = .done ret) s := by
  have hreturned (t : State C) (ht : (writers C).Returned c t) : ∃ ret, (t.writes c).pc = .done ret := by
    change writePhase (t.writes c).pc = .leaves 0 at ht
    cases hpc : (t.writes c).pc <;> rw [hpc] at ht <;> cases ht
    exact ⟨_, rfl⟩
  refine System.Can.imp ?_ hreturned
  cases hpc : (s.writes c).pc with
  | idle => exact absurd hpc hmade
  | kmalloc =>
    have hs : (system C).step s (.write c true) = some (s.writeAt c .copyFromUser) := by
      simp only [system, step, writeStep, hpc, if_true]
    exact .head hs (returns_copyFromUser (h.step trivial hs) (writeAt_pc _ _ _))
  | copyFromUser => exact (returns_copyFromUser h hpc).mono (by decide)
  | waitSet =>
    refine .mono ((writers C).returns_after (t := { s with writeLocked := true }.writeAt c .waitPoll) h ?_
      (by simp [writers, writePhase])) (by decide)
    simp only [writers, system, step, writeStep, hpc]
  | _ =>
    have hphase : (writers C).phase s c = writePhase (s.writes c).pc := rfl
    rw [hpc] at hphase
    exact ((writers C).returns_inside h (by simp [hphase, writePhase])).mono (by decide)

end Writers

/-- **No call is stuck for good.** In every state that any interleaving of
calls and interrupts leads to, each call that was made can still return:
there is a way on, of at most 35 steps, at whose end it has. -/
theorem call_can_return (h : (system C).Reachable s) (c : C) :
    ((s.reads c).pc ≠ .idle →
      (system C).Can 35 (fun s' => ∃ ret user, (s'.reads c).pc = .done ret user) s) ∧
    ((s.writes c).pc ≠ .idle → (system C).Can 35 (fun s' => ∃ ret, (s'.writes c).pc = .done ret) s) :=
  ⟨fun hmade => (read_can_return h hmade).mono (by decide), write_can_return h⟩

/-- A reader finds nothing; a byte comes and the flags are cleared; then the
reader sets its flag. -/
def overslept : List (Act Unit) :=
  [.callRead () 1, .read () true, .read () true, .irq, .handler 0, .handler 1, .handler 65, .handler 0, .handler 0,
    .handler 0, .handler 0, .handler 0, .handler 0, .handler 0, .read () true]

theorem call_can_return_overslept : ∃ s : State Unit, (system Unit).exec (init Unit) overslept = some s ∧
    (s.reads ()).pc = .waitPoll ∧ s.readLocked = true ∧ s.inbuffer.kfifoIsEmpty = false ∧ s.handler = .idle ∧
    (system Unit).Can 35 (fun s' => ∃ ret user, (s'.reads ()).pc = .done ret user) s := by
  refine ⟨_, rfl, rfl, rfl, rfl, rfl, ?_⟩
  have hreach : (system Unit).Reachable _ := System.Reachable.exec .init overslept rfl
  exact (call_can_return hreach ()).1 nofun

end Lmsel4.Progress
