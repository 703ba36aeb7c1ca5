/-
Bytes lost between the UART and the readers.

A byte read from RBR is gone from the UART. `interrupt_handler` reads it
first and tests `inbuffer` for room only then, in `kfifo_put`. It goes for
the byte when LSR has told it of data; from there on only readers change how
full `inbuffer` is, and they make room. So no byte is lost where `inbuffer`
has room whenever LSR tells of data (`noneLost_of_seesRoom`). Where it has
none, the handler by itself loses the byte (`lost_of_seesFull`).
-/
import Lmsel4.Receive

namespace Lmsel4.ComDev

variable {C : Type}

section Rx

variable {v : Rx C} (h : RxInv v)
include h

theorem RxInv.notFull_iff : v.inbuffer.kfifoIsFull = false ↔ v.inbuffer.used < v.inbuffer.size := by
  have hle := h.ok.bounded
  rw [← Bool.not_eq_true, h.ok.isFull_iff]
  omega

theorem RxInv.isEmpty_eq_false (hsome : v.inbuffer.content ≠ []) : v.inbuffer.kfifoIsEmpty = false := by
  rw [← Bool.not_eq_true, Kfifo.isEmpty_iff, ← Kfifo.content_length_bytes h.esize, List.length_eq_zero_iff]
  exact hsome

theorem RxInv.copyOut_eq (size : UInt32) :
    v.inbuffer.kfifoCopyOut (v.inbuffer.outLen size) v.inbuffer.outIdx = v.inbuffer.content.take size.toNat := by
  rw [h.ok.copyOut_content (Kfifo.outLen_le size), Kfifo.mul_esize h.esize, Kfifo.toNat_outLen,
    List.take_eq_take_iff, Kfifo.content_length_bytes h.esize]
  omega

end Rx

variable [DecidableEq C]

/-- Every byte read from RBR was taken by a read, in order, or is queued, or
is being put where there is room for it; and a read made while nobody holds
`input_lock` returns the oldest that are queued. -/
structure NoneLost (s : State C) : Prop where
  room : s.handler.untested ≠ [] → s.inbuffer.kfifoIsFull = false
  stream : s.rbr = (s.readOrder.map fun c => (s.reads c).taken).flatten ++ s.inbuffer.content ++
    (s.handler.admitted ++ s.handler.untested)
  returned : ∀ c size, (s.reads c).pc = .idle → s.inputLock = 0 → s.inbuffer.content ≠ [] →
    ∃ s' ret, (system C).exec s (.callRead c size :: List.replicate 9 (.read c true)) = some s' ∧
      (s'.reads c).pc = .done ret (s.inbuffer.content.take size.toNat)

/-- When the handler reads LSR and its bit 0x01 is set, `inbuffer` is not
full. -/
def SeesRoom (s : State C) : Act C → Prop
  | .handler v => s.handler = .txLsr ∨ s.handler = .rxLsr → deviceHasData v = true → s.inbuffer.kfifoIsFull = false
  | _ => True

instance (s : State C) : ∀ a, Decidable (SeesRoom s a)
  | .handler _ => inferInstanceAs (Decidable (_ → _))
  | .callRead _ _ | .callWrite _ _ | .read _ _ | .write _ _ | .irq => .isTrue trivial

/-- LSR has told of data, and the byte has not yet been tested for room. -/
def HandlerPc.expects : HandlerPc → Bool
  | .getTest status => deviceHasData status
  | .rbrRead | .putTest _ => true
  | _ => false

theorem rxLoop_expects (status : UInt8) : (rxLoop status).expects = deviceHasData status := by
  unfold rxLoop
  split
  · next hdata => rw [hdata]; rfl
  · next hno => rw [Bool.not_eq_true] at hno; rw [hno]; rfl

theorem txLoop_expects (status : UInt8) : (txLoop status).expects = deviceHasData status := by
  unfold txLoop
  split
  · rfl
  · exact rxLoop_expects status

/-! ## A read by itself -/

/-- The nine steps of a call that finds bytes and the lock free. -/
theorem RxInv.read_alone {s : State C} (h : RxInv s.rx) {c : C} {size : UInt32} (hidle : (s.reads c).pc = .idle)
    (hfree : s.inputLock = 0) (hsome : s.inbuffer.content ≠ []) :
    ∃ s' ret, (system C).exec s (.callRead c size :: List.replicate 9 (.read c true)) = some s' ∧
      (s'.reads c).pc = .done ret (s.inbuffer.content.take size.toNat) := by
  have hempty : s.inbuffer.kfifoIsEmpty = false := h.isEmpty_eq_false hsome
  have hcopy : s.inbuffer.kfifoCopyOut (s.inbuffer.outLen size) s.inbuffer.outIdx =
      s.inbuffer.content.take size.toNat := h.copyOut_eq size
  simp only [System.exec, system, List.replicate, step, hidle, if_true, Option.bind_some, readStep,
    Function.update_self, State.readAt, ReadCall.goto, hempty, Bool.not_false, hfree, Spinlock.atomicCmpxchg,
    copyUser, hcopy]
  exact ⟨_, _, rfl, by simp only [Function.update_self]; rfl⟩

/-! ## Steps -/

/-- What holds as long as there is room whenever LSR tells of data: no byte
met a full buffer, and the one expected will not. -/
structure RoomInv (s : State C) : Prop where
  rx : RxInv s.rx
  admitted : ∀ p ∈ s.puts, p.deleted = false
  room : s.handler.expects = true → s.inbuffer.used < s.inbuffer.size

section Steps

variable {s s' : State C} {c : C} {alloc : Bool} {v : UInt8}

/-- A reader only makes room. -/
theorem readStep_room (h : RxInv s.rx) (hs : readStep s c alloc = some s') (hroom : s.inbuffer.used < s.inbuffer.size) :
    s'.inbuffer.used < s'.inbuffer.size := by
  have hcall : ReadOk s.inbuffer (s.reads c).pc := h.calls c
  cases readStep_move hs with
  | @publish len buffer hpc =>
    rw [hpc] at hcall
    have hused := Kfifo.used_publishOut hcall.1
    show (s.inbuffer.publishOut len).used < s.inbuffer.size
    omega
  | kmalloc | noMemory | ready | empty | waitSet | polls | woken | free | busy | locks | misses | outLen | copyOut
  | unlock | copyToUser => exact hroom

omit [DecidableEq C] in
theorem handlerStep_room (h : RoomInv s)
    (hok : s.handler = .txLsr ∨ s.handler = .rxLsr → deviceHasData v = true → s.inbuffer.kfifoIsFull = false)
    (hs : handlerStep s v = some s') : RoomInv s' := by
  have hrx := handlerStep_rxInv h.rx hs
  have hmove := handlerStep_move hs
  generalize access s (.handler v) = x at hmove
  cases hmove with
  | txLsr hpc =>
    refine ⟨hrx, h.admitted, fun hdata => h.rx.notFull_iff.mp (hok (.inl hpc) ?_)⟩
    exact (txLoop_expects v).symm.trans hdata
  | rxLsr hpc =>
    refine ⟨hrx, h.admitted, fun hdata => h.rx.notFull_iff.mp (hok (.inr hpc) ?_)⟩
    exact (rxLoop_expects v).symm.trans hdata
  | @getEmpty status hpc =>
    -- The status that is tested now is the one the transmit loop was left with.
    refine ⟨hrx, h.admitted, fun hdata => h.room ?_⟩
    rw [hpc]
    exact (rxLoop_expects status).symm.trans hdata
  | rbrRead hpc =>
    have hroom := h.room (by rw [hpc]; rfl)
    exact ⟨hrx, h.admitted, fun _ => hroom⟩
  | putFull hpc hfull =>
    have hnotFull : s.inbuffer.kfifoIsFull = false := h.rx.notFull_iff.mpr (h.room (by rw [hpc]; rfl))
    rw [hnotFull] at hfull
    cases hfull
  | @putRoom byte hpc hnotFull =>
    refine ⟨hrx, fun p hp => ?_, fun hdata => by cases hdata⟩
    rcases List.mem_append.mp hp with hp | hp
    · exact h.admitted p hp
    · rw [List.mem_singleton.mp hp]
      exact (h.rx.isFull_eq s.runs byte).symm.trans hnotFull
  | txIsr | getSome | getLoad | getPublish | thrWrite | putStore | putPublish | rxIsr | wakeRead | wakeWrite =>
    exact ⟨hrx, h.admitted, fun hdata => by cases hdata⟩

theorem step_room {a : Act C} (h : RoomInv s) (hok : SeesRoom s a) (hs : step s a = some s') : RoomInv s' := by
  have hrx := step_rxInv h.rx hs
  cases a with
  | callRead | callWrite =>
    simp only [step] at hs
    split at hs <;> cases hs
    exact ⟨hrx, h.admitted, h.room⟩
  | read c alloc =>
    have hroom := readStep_room h.rx hs
    obtain ⟨_, _, _, _, _, rfl, -⟩ := readStep_frame hs
    exact ⟨hrx, h.admitted, fun hdata => hroom (h.room hdata)⟩
  | write c alloc =>
    obtain ⟨_, _, _, _, _, rfl, -⟩ := writeStep_frame hs
    exact ⟨hrx, h.admitted, h.room⟩
  | irq =>
    simp only [step] at hs
    split at hs <;> cases hs
    exact ⟨hrx, h.admitted, fun hdata => by cases hdata⟩
  | handler v => exact handlerStep_room h hok hs

theorem RoomInv.noneLost (h : RoomInv s) : NoneLost s := by
  have hall : s.puts.filter (!·.deleted) = s.puts :=
    List.filter_eq_self.mpr fun p hp => by rw [h.admitted p hp]; rfl
  have hexpects : s.handler.untested ≠ [] → s.handler.expects = true := by
    intro hne
    cases hpc : s.handler with
    | putTest => rfl
    | _ => rw [hpc] at hne; exact absurd rfl hne
  refine ⟨fun hne => h.rx.notFull_iff.mpr (h.room (hexpects hne)), ?_, fun c size => h.rx.read_alone⟩
  have hrbr : s.rbr = s.puts.map Put.byte ++ s.handler.untested := h.rx.rbr
  have hstream : _ ++ s.inbuffer.content ++ s.handler.admitted = (s.puts.filter (!·.deleted)).map Put.byte :=
    h.rx.stream
  rw [hall] at hstream
  rw [hrbr, ← List.append_assoc]
  exact congrArg (· ++ s.handler.untested) hstream.symm

end Steps

omit [DecidableEq C] in
theorem init_roomInv : RoomInv (init C) :=
  ⟨init_rxInv, fun _ hp => absurd hp List.not_mem_nil, fun hdata => by cases hdata⟩

/-- **No received byte is lost where there is room when LSR tells of data.**
In every run, of any calls and runs of the handler and whatever the UART
answers. -/
theorem noneLost_of_seesRoom {s : State C} (h : (system C).ReachableBy SeesRoom s) : NoneLost s :=
  (h.invariant init_roomInv fun _ _ _ => step_room).noneLost

/-! ## Data seen with no room -/

section Full

variable {s s' : State C}

/-- The byte read from RBR has no place. -/
theorem lost_of_rbrRead (hpc : s.handler = .rbrRead) (hfull : s.inbuffer.kfifoIsFull = true) :
    (system C).Can 1 (fun t => ¬ NoneLost t) s := by
  have hstep : (system C).step s (.handler 0) = some ({ s with rbr := s.rbr ++ [0] }.handlerAt (.putTest 0)) := by
    simp only [system, step, handlerStep, hpc]
  refine (System.Can.here fun h => ?_).head hstep
  have hroom := h.room (List.cons_ne_nil _ _)
  exact Bool.false_ne_true (hroom.symm.trans hfull)

/-- With a byte to send, the handler sends it and comes to RBR. -/
theorem comes_to_rbrRead {status : UInt8} (hpc : s.handler = .getTest status)
    (hsome : s.outbuffer.kfifoIsEmpty = false) :
    (system C).Can 6 (fun t => t.handler = .rbrRead ∧ t.inbuffer = s.inbuffer) s := by
  obtain ⟨t, ht, hend⟩ : ∃ t, (system C).exec s
      [.handler 0, .handler 0, .handler 0, .handler 0, .handler 0, .handler 1] = some t ∧
      t.handler = .rbrRead ∧ t.inbuffer = s.inbuffer := by
    simp only [System.exec, system, step, handlerStep, hpc, hsome, State.handlerAt, Option.bind_some]
    exact ⟨_, rfl, rfl, rfl⟩
  exact ⟨_, t, Nat.le_refl _, ht, hend⟩

/-- Where LSR tells the handler of data and there is no room, the handler by
itself can lose the byte. -/
theorem lost_of_seesFull {a : Act C} (hfull : ¬ SeesRoom s a) (hs : (system C).step s a = some s') :
    (system C).Can 7 (fun t => ¬ NoneLost t) s' := by
  cases a with
  | handler v =>
    simp only [SeesRoom, Classical.not_imp, Bool.not_eq_false] at hfull
    obtain ⟨hpc, hdata, hfull⟩ := hfull
    have hrx : rxLoop v = .rbrRead := by rw [rxLoop, if_pos hdata]
    have hnext : s' = s.handlerAt .rbrRead ∨ s' = s.handlerAt (.getTest v) := by
      rcases hpc with hpc | hpc
      · simp only [system, step, handlerStep, hpc] at hs
        cases hs
        unfold txLoop
        split
        · exact .inr rfl
        · exact .inl (by rw [hrx])
      · simp only [system, step, handlerStep, hpc, hrx] at hs
        cases hs
        exact .inl rfl
    have hlost := lost_of_rbrRead (s := s.handlerAt .rbrRead) rfl hfull
    rcases hnext with rfl | rfl
    · exact hlost.mono (by decide)
    · cases hempty : s.outbuffer.kfifoIsEmpty with
      | true =>
        have hstep : (system C).step (s.handlerAt (.getTest v)) (.handler 0) = some (s.handlerAt .rbrRead) := by
          simp only [system, step, handlerStep, State.handlerAt, hempty, if_true, hrx]
        exact (hlost.head hstep).mono (by decide)
      | false =>
        have hcomes := comes_to_rbrRead (s := s.handlerAt (.getTest v)) rfl hempty
        exact hcomes.bind (m := 1) fun t ht => lost_of_rbrRead ht.1 (by rw [ht.2]; exact hfull)
  | callRead | callWrite | read | write | irq => exact absurd trivial hfull

end Full

/-! ## A byte too many -/

/-- The handler receives a byte, and LSR says there is more. -/
def receiveByte (byte : UInt8) : List (Act C) :=
  [.handler byte, .handler 0, .handler 0, .handler 0, .handler 0, .handler 1]

/-- The handler has received `n` bytes that nobody has read, and is about to
read the next. -/
structure Unread (n : Nat) (s : State C) : Prop where
  reachable : (system C).Reachable s
  handler : s.handler = .rbrRead
  rbr : s.rbr.length = n
  used : s.inbuffer.used = n
  readOrder : s.readOrder = []

theorem Unread.succ {n : Nat} {s : State C} (h : Unread n s) (hn : n < fifoSize.toNat) (byte : UInt8) :
    ∃ s', (system C).exec s (receiveByte byte) = some s' ∧ Unread (n + 1) s' := by
  have hrx := reachable_rxInv h.reachable
  have hsize : s.inbuffer.size = fifoSize.toNat := hrx.size
  have hroom : s.inbuffer.used < s.inbuffer.size := by rw [h.used, hsize]; exact hn
  have hfull : s.inbuffer.kfifoIsFull = false := hrx.notFull_iff.mpr hroom
  have hused : ((s.inbuffer.storeByte byte).publishIn 1).used = s.inbuffer.used + 1 :=
    (hrx.ok.storeByte byte).used_publishIn (show _ + (1 : UInt32).toNat ≤ _ from hroom)
  obtain ⟨s', he, hpc, hrbr, hbuf, horder⟩ : ∃ s', (system C).exec s (receiveByte byte) = some s' ∧
      s'.handler = .rbrRead ∧ s'.rbr = s.rbr ++ [byte] ∧ s'.inbuffer = (s.inbuffer.storeByte byte).publishIn 1 ∧
      s'.readOrder = s.readOrder := by
    simp only [System.exec, system, receiveByte, step, handlerStep, h.handler, State.handlerAt, hfull,
      Option.bind_some]
    exact ⟨_, rfl, rfl, rfl, rfl, rfl⟩
  refine ⟨s', he, ⟨h.reachable.exec _ he, hpc, ?_, ?_, horder.trans h.readOrder⟩⟩
  · rw [hrbr, List.length_append, h.rbr, List.length_singleton]
  · rw [hbuf, hused, h.used]

theorem Unread.add (byte : UInt8) : ∀ {k n : Nat} {s : State C}, Unread n s → n + k ≤ fifoSize.toNat →
    ∃ s', (system C).exec s (List.replicate k (receiveByte byte)).flatten = some s' ∧ Unread (n + k) s'
  | 0, _, s, h, _ => ⟨s, rfl, h⟩
  | k + 1, n, s, h, hk => by
    obtain ⟨t, ht, hnext⟩ := h.succ (by omega) byte
    obtain ⟨s', he, hend⟩ := hnext.add byte (k := k) (by omega)
    refine ⟨s', ?_, ?_⟩
    · rw [List.replicate_succ, List.flatten_cons, System.exec_append ht, he]
    · rw [show n + (k + 1) = n + 1 + k by omega]
      exact hend

/-- The handler finds `FIFO_SIZE` bytes in the UART, and then one more. -/
def overrun : List (Act Unit) :=
  [.irq, .handler 0, .handler 1] ++ (List.replicate fifoSize.toNat (receiveByte 7)).flatten ++ [.handler 8, .handler 0]

/-- The last byte is nowhere. -/
theorem not_noneLost_overrun : ∃ s, (system Unit).exec (init Unit) overrun = some s ∧
    s.rbr.length = fifoSize.toNat + 1 ∧ s.inbuffer.content.length = fifoSize.toNat ∧ s.readOrder = [] ∧
    ¬ (system Unit).Along NoneLost (init Unit) overrun := by
  obtain ⟨t, ht, hstart⟩ : ∃ t, (system Unit).exec (init Unit) [.irq, .handler 0, .handler 1] = some t ∧ Unread 0 t :=
    ⟨_, rfl, ⟨System.Reachable.exec .init [.irq, .handler 0, .handler 1] rfl, rfl, rfl, rfl, rfl⟩⟩
  obtain ⟨u, hu, hfilled⟩ := hstart.add 7 (k := fifoSize.toNat) (by omega)
  rw [Nat.zero_add] at hfilled
  have hrx := reachable_rxInv hfilled.reachable
  have hsize : u.inbuffer.size = fifoSize.toNat := hrx.size
  have hfull : u.inbuffer.kfifoIsFull = true := hrx.ok.isFull_iff.mpr (hfilled.used.trans hsize.symm)
  have hlen : u.inbuffer.content.length = fifoSize.toNat :=
    (Kfifo.content_length_bytes hrx.esize).trans hfilled.used
  obtain ⟨s, hs, hpc, hrbr, hbuf, horder⟩ : ∃ s, (system Unit).exec u [.handler 8, .handler 0] = some s ∧
      s.handler = .wakeRead ∧ s.rbr = u.rbr ++ [8] ∧ s.inbuffer = u.inbuffer ∧ s.readOrder = u.readOrder := by
    simp only [System.exec, system, step, handlerStep, hfilled.handler, State.handlerAt, hfull, Option.bind_some]
    exact ⟨_, rfl, rfl, rfl, rfl, rfl⟩
  have he : (system Unit).exec (init Unit) overrun = some s := by
    rw [overrun, List.append_assoc, System.exec_append ht, System.exec_append hu, hs]
  have hread : s.rbr.length = fifoSize.toNat + 1 := by rw [hrbr, List.length_append, hfilled.rbr]; rfl
  refine ⟨s, he, hread, hbuf ▸ hlen, horder.trans hfilled.readOrder, fun halong => ?_⟩
  have hstream := congrArg List.length (System.Along.last halong he).stream
  rw [hread, horder, hfilled.readOrder, hbuf, hpc] at hstream
  simp only [List.map_nil, List.flatten_nil, List.nil_append, HandlerPc.admitted, HandlerPc.untested, List.append_nil,
    hlen] at hstream
  omega

/-- The bytes of `readOne` find room. -/
theorem noneLost_of_seesRoom_readOne : ∃ s, (system Unit).exec (init Unit) readOne = some s ∧ s.rbr = [5, 6] ∧
    NoneLost s := by
  have hsteps : (system Unit).Steps SeesRoom (init Unit) readOne := by decide
  exact ⟨_, rfl, rfl, noneLost_of_seesRoom (System.ReachableBy.steps .init readOne hsteps rfl)⟩

end Lmsel4.ComDev
