/-
One call at a time on a device: what a reader gets that is alone, and what
becomes of a writer that is alone.

A reader that takes bytes before anyone else took any has the first bytes
the handler read, for no byte is deleted before `FIFO_SIZE` were queued. A
writer alone on an empty `outbuffer` finds room and the lock free at once,
so it goes straight through and returns all it was given.
-/
import Lmsel4.Transmit
import Lmsel4.Receive

namespace Lmsel4.ComDev

open Spinlock (atomicCmpxchg qLockedVal storeLowByte)

variable {C : Type} [DecidableEq C] {s s' : State C} {c : C} {alloc : Bool} {v : UInt8}

/-! ## Whose state a step changes -/

omit [DecidableEq C] in
theorem handlerStep_calls (hs : handlerStep s v = some s') : s'.reads = s.reads ∧ s'.writes = s.writes := by
  obtain ⟨_, _, _, _, _, _, _, _, rfl⟩ := handlerStep_frame hs
  exact ⟨rfl, rfl⟩

theorem readStep_calls (hs : readStep s c alloc = some s') : s'.writes = s.writes ∧
    ∃ r, s'.reads = Function.update s.reads c r ∧ r.size = (s.reads c).size := by
  obtain ⟨r, _, _, _, _, rfl, hsize⟩ := readStep_frame hs
  exact ⟨rfl, r, rfl, hsize⟩

theorem writeStep_calls (hs : writeStep s c alloc = some s') : s'.reads = s.reads ∧
    ∃ w, s'.writes = Function.update s.writes c w ∧ w.user = (s.writes c).user := by
  obtain ⟨w, _, _, _, _, rfl, huser⟩ := writeStep_frame hs
  exact ⟨rfl, w, rfl, huser⟩

/-! ## A read returns no more than it was asked for -/

def ReadPc.fits (size : UInt32) : ReadPc → Prop
  | .copyOut len | .publish len _ | .unlock len _ | .copyToUser len _ =>
    len.toNat ≤ size.toNat ∧ len.toNat ≤ fifoSize.toNat
  | .done ret _ => ret.toNatClampNeg ≤ size.toNat
  | _ => True

theorem readStep_fits (hinv : RxInv s.rx) (h : (s.reads c).pc.fits (s.reads c).size)
    (hs : readStep s c alloc = some s') : (s'.reads c).pc.fits (s.reads c).size := by
  cases readStep_move hs with
  | noMemory => simp [State.readAt, ReadPc.fits, enomem]
  | kmalloc | ready | empty | waitSet | polls | woken | free | busy | locks | misses =>
    simp [State.readAt, ReadPc.fits]
  | outLen =>
    simp only [State.readAt, Function.update_self, ReadCall.goto_pc, ReadPc.fits]
    refine ⟨Kfifo.outLen_le_len _, ?_⟩
    have hle := Kfifo.outLen_le (f := s.inbuffer) (s.reads c).size
    have hbound : s.inbuffer.used ≤ s.inbuffer.size := hinv.ok.bounded
    have hfifo : s.inbuffer.size = fifoSize.toNat := hinv.size
    omega
  | copyOut hpc | publish hpc | unlock hpc =>
    rw [hpc] at h
    simpa [State.readAt, ReadPc.fits] using h
  | copyToUser hpc =>
    rw [hpc] at h
    simp only [State.readAt, Function.update_self, ReadCall.goto_pc, ReadPc.fits]
    rw [toNatClampNeg_toInt32 (Nat.lt_of_le_of_lt h.2 (by decide))]
    exact h.1

/-! ## The first bytes are kept -/

/-- A byte meets at most as many bytes in `inbuffer` as were put before. -/
def HeldEarly (puts : List Put) : Prop := ∀ (i : Nat) (p : Put), puts[i]? = some p → p.held ≤ i

theorem HeldEarly.append {puts : List Put} {p : Put} (h : HeldEarly puts) (hp : p.held ≤ puts.length) :
    HeldEarly (puts ++ [p]) := by
  intro i q hq
  rw [List.getElem?_append] at hq
  split at hq
  · exact h i q hq
  · rw [List.getElem?_singleton] at hq
    split at hq <;> cases hq
    omega

omit [DecidableEq C] in
theorem handlerStep_puts (hs : handlerStep s v = some s') :
    s'.puts = s.puts ∨ ∃ p : Put, p.held = s.inbuffer.content.length ∧ s'.puts = s.puts ++ [p] := by
  have hmove := handlerStep_move hs
  generalize access s (.handler v) = x at hmove
  cases hmove with
  | putFull | putRoom => exact .inr ⟨_, rfl, rfl⟩
  | txIsr | txLsr | getEmpty | getSome | getLoad | getPublish | thrWrite | rbrRead | putStore | putPublish | rxIsr
  | rxLsr | wakeRead | wakeWrite => exact .inl rfl

omit [DecidableEq C] in
/-- What `inbuffer` holds was put. -/
theorem content_le_puts (h : RxInv s.rx) : s.inbuffer.content.length ≤ s.puts.length := by
  have hlen := congrArg List.length h.stream
  have hfilter := List.length_filter_le (!Put.deleted ·) s.puts
  simp only [State.rx, List.length_append, List.length_map] at hlen
  omega

theorem step_heldEarly {a : Act C} (hinv : RxInv s.rx) (h : HeldEarly s.puts) (hs : step s a = some s') :
    HeldEarly s'.puts := by
  cases a with
  | callRead | callWrite | irq =>
    simp only [step] at hs
    split at hs <;> cases hs
    exact h
  | read c alloc =>
    obtain ⟨_, _, _, _, _, rfl, -⟩ := readStep_frame hs
    exact h
  | write c alloc =>
    obtain ⟨_, _, _, _, _, rfl, -⟩ := writeStep_frame hs
    exact h
  | handler v =>
    rcases handlerStep_puts hs with hputs | ⟨p, hp, hputs⟩
    · rwa [hputs]
    · rw [hputs]
      exact h.append (hp ▸ content_le_puts hinv)

theorem reachable_heldEarly (h : (system C).Reachable s) : HeldEarly s.puts := by
  have hboth : RxInv s.rx ∧ HeldEarly s.puts := by
    refine h.invariant (I := fun s => RxInv s.rx ∧ HeldEarly s.puts) ⟨init_rxInv, fun i p hp => ?_⟩
      fun s a s' hI _ hs => ⟨step_rxInv hI.1 hs, step_heldEarly hI.1 hI.2 hs⟩
    simp [system, init] at hp
  exact hboth.2

theorem take_filter {α : Type} {p : α → Bool} {l : List α} {n : Nat} (h : ∀ x ∈ l.take n, p x = true) :
    (l.filter p).take n = l.take n := by
  conv => lhs; rw [← List.take_append_drop n l, List.filter_append, List.filter_eq_self.mpr h]
  rw [List.take_append, List.take_take, Nat.min_self]
  by_cases hn : n ≤ l.length
  · rw [List.length_take, Nat.min_eq_left hn, Nat.sub_self, List.take_zero, List.append_nil]
  · rw [List.drop_eq_nil_of_le (by omega), List.filter_nil, List.take_nil, List.append_nil]

/-- The first `FIFO_SIZE` bytes that are put are kept. -/
theorem take_kept {puts : List Put} (h : HeldEarly puts) {n : Nat} (hn : n ≤ fifoSize.toNat) :
    ((puts.filter (!·.deleted)).map Put.byte).take n = (puts.map Put.byte).take n := by
  rw [← List.map_take, ← List.map_take, take_filter]
  intro p hp
  obtain ⟨i, hi, rfl⟩ := List.mem_iff_getElem.mp hp
  rw [List.length_take] at hi
  rw [List.getElem_take]
  have hheld := h i _ (List.getElem?_eq_getElem (by omega))
  simp only [Put.deleted, Bool.not_eq_true', beq_eq_false_iff_ne]
  omega

/-- **A sole reader has the first bytes read from RBR.** -/
theorem sole_taken (h : (system C).Reachable s) (hothers : ∀ d, d ≠ c → (s.reads d).taken = [])
    (hle : (s.reads c).taken.length ≤ fifoSize.toNat) :
    (s.reads c).taken.length ≤ s.rbr.length ∧ (s.reads c).taken = s.rbr.take (s.reads c).taken.length := by
  have hinv := reachable_rxInv h
  have hflat : (s.readOrder.map fun d => (s.reads d).taken).flatten = (s.reads c).taken :=
    Turns.flatten_only hothers hinv.turns.nodup (hinv.counted c)
  have hstream : (s.reads c).taken ++ (s.inbuffer.content ++ s.handler.admitted) =
      (s.puts.filter (!·.deleted)).map Put.byte := by
    rw [← hflat, ← List.append_assoc]
    exact hinv.stream
  have hrbr : s.rbr = s.puts.map Put.byte ++ s.handler.untested := hinv.rbr
  have hkept := take_kept (reachable_heldEarly h) hle
  rw [← hstream, List.take_left] at hkept
  have hlen := congrArg List.length hkept
  rw [List.length_take, List.length_map] at hlen
  rw [hrbr, List.length_append, List.length_map, List.take_append_of_le_length (by rw [List.length_map]; omega)]
  exact ⟨by omega, hkept⟩

/-! ## A sole writer goes straight through -/

/-- How many steps a call has left that never waits. -/
def WritePc.left : WritePc → Nat
  | .idle => 13
  | .kmalloc => 12
  | .copyFromUser => 11
  | .waitTest => 10
  | .tryRead => 9
  | .tryCmpxchg => 8
  | .inLen => 7
  | .copyIn _ => 6
  | .publish _ => 5
  | .unlock _ => 4
  | .disable _ => 3
  | .enable _ => 2
  | .done _ => 1
  | .waitSet | .waitPoll => 0

/-- The call does not wait, and once it has settled on a length that is
`n`. -/
def WritePc.straight (n : UInt32) : WritePc → Prop
  | .waitSet | .waitPoll => False
  | .copyIn len | .publish len | .unlock len | .disable len | .enable len => len = n
  | .done ret => ret = n.toInt32
  | _ => True

/-- The writer `c` is alone, with no more bytes than `outbuffer` can hold. -/
structure SoleWriter (c : C) (s : State C) : Prop where
  others : ∀ d, d ≠ c → (s.writes d).pc = .idle
  short : (s.writes c).user.length ≤ fifoSize.toNat
  straight : (s.writes c).pc.straight (UInt32.ofNat (s.writes c).user.length)

omit [DecidableEq C] in
theorem sole_stream (hinv : TxInv s.tx) (hothers : ∀ d, d ≠ c → (s.writes d).pc = .idle) :
    s.thr ++ s.handler.held ++ s.outbuffer.content = (s.writes c).accepted := by
  have hflat : (s.writeOrder.map fun d => (s.writes d).accepted).flatten = (s.writes c).accepted := by
    refine Turns.flatten_only (fun d hd => ?_) hinv.turns.nodup fun hc => accepted_eq_nil (hinv.counted c hc)
    exact accepted_eq_nil (by rw [hothers d hd]; rfl)
  exact hinv.stream.trans hflat

omit [DecidableEq C] in
/-- Nothing but what the call has accepted is sent. -/
theorem sole_thr (hinv : TxInv s.tx) (hothers : ∀ d, d ≠ c → (s.writes d).pc = .idle) :
    s.thr <+: (s.writes c).accepted := by
  have hstream := sole_stream hinv hothers
  rw [List.append_assoc] at hstream
  exact hstream ▸ List.prefix_append _ _

section Writer

variable (hinv : TxInv s.tx) (h : SoleWriter c s)

include hinv h

omit [DecidableEq C] in
/-- While the call has accepted nothing, `outbuffer` is empty. -/
theorem sole_empty (hr : (s.writes c).pc.returned = 0) : s.outbuffer.used = 0 := by
  have hstream := sole_stream hinv h.others
  rw [accepted_eq_nil hr, List.append_eq_nil_iff] at hstream
  have hesize : s.outbuffer.esize = 1 := hinv.esize
  rw [← Kfifo.content_length_bytes hesize, hstream.2, List.length_nil]

omit [DecidableEq C] in
/-- While the call does not hold it, `output_lock` is free. -/
theorem sole_free (hh : (s.writes c).pc.holds = false) : s.outputLock = 0 := by
  refine hinv.turns.excl.free_iff.mpr fun d hd => ?_
  by_cases hdc : d = c
  · rw [hdc] at hd
    exact absurd hd (by simp [State.tx, hh])
  · have : (s.writes d).pc.holds = true := hd
    rw [h.others d hdc] at this
    cases this

omit [DecidableEq C] in
/-- The call settles on all its bytes. -/
theorem sole_inLen (hr : (s.writes c).pc.returned = 0) :
    s.outbuffer.inLen (UInt32.ofNat (s.writes c).user.length) = UInt32.ofNat (s.writes c).user.length := by
  have hunused := hinv.ok.toNat_unused
  have hused : s.tx.outbuffer.used = 0 := sole_empty hinv h hr
  have hsize := hinv.size
  have hshort := h.short
  have hfifo : fifoSize.toNat = 4096 := rfl
  refine if_neg ?_
  rw [UInt32.lt_iff_toNat_lt, UInt32.toNat_ofNat_of_lt' (Nat.lt_of_le_of_lt hshort (by decide))]
  simp only [State.tx] at hunused hused hsize
  omega

/-- The sole writer finds room and the lock free. -/
theorem straight_step (hs : writeStep s c true = some s') :
    (s'.writes c).pc.straight (UInt32.ofNat (s.writes c).user.length) ∧
      (s'.writes c).pc.left + 1 = (s.writes c).pc.left := by
  have hstraight := h.straight
  have hmove := writeStep_move hs
  generalize access s (.write c true) = x at hmove
  cases hmove with
  | waitSet hpc | polls hpc | woken hpc =>
    rw [hpc] at hstraight
    exact hstraight.elim
  | noMemory _ halloc => cases halloc
  | full hpc hfull =>
    have hok : s.outbuffer.Ok := hinv.ok
    have hzero := sole_empty hinv h (by rw [hpc]; rfl)
    have hall := hok.isFull_iff.mp hfull
    exact absurd (hzero.symm.trans hall) (Nat.ne_of_lt Kfifo.size_pos)
  | busy hpc hbusy | misses hpc hbusy => exact absurd (sole_free hinv h (by rw [hpc]; rfl)) hbusy
  | kmalloc hpc | copyFromUser hpc | ready hpc | free hpc | locks hpc =>
    simp [State.writeAt, WritePc.straight, WritePc.left, hpc]
  | inLen hpc =>
    rw [sole_inLen hinv h (by rw [hpc]; rfl)]
    simp [State.writeAt, WritePc.straight, WritePc.left, hpc]
  | copyIn hpc | publish hpc | unlock hpc | disable hpc | enable hpc =>
    rw [hpc] at hstraight ⊢
    simp only [State.writeAt, Function.update_self, WriteCall.goto_pc, WritePc.straight, WritePc.left] at hstraight ⊢
    exact ⟨by rw [hstraight], trivial⟩

theorem SoleWriter.step (hs : writeStep s c true = some s') :
    SoleWriter c s' ∧ (s'.writes c).user = (s.writes c).user ∧
      (s'.writes c).pc.left + 1 = (s.writes c).pc.left := by
  obtain ⟨-, w, hw, huser⟩ := writeStep_calls hs
  obtain ⟨hp, hleft⟩ := straight_step hinv h hs
  have hc : s'.writes c = w := by rw [hw, Function.update_self]
  rw [hc] at hp
  refine ⟨⟨fun d hd => ?_, ?_, ?_⟩, by rw [hc, huser], hleft⟩
  · rw [hw, Function.update_of_ne hd]
    exact h.others d hd
  · rw [hc, huser]
    exact h.short
  · rw [hc, huser]
    exact hp

end Writer

theorem WritePc.left_le (p : WritePc) : p.left ≤ 13 := by
  cases p <;> simp [WritePc.left]

theorem WritePc.straight.left_pos {n : UInt32} {p : WritePc} (h : p.straight n) : 0 < p.left := by
  cases p with
  | waitSet | waitPoll => exact h.elim
  | idle | kmalloc | copyFromUser | waitTest | tryRead | tryCmpxchg | inLen | copyIn | publish | unlock | disable
  | enable | done => exact Nat.succ_pos _

theorem writeStep_enabled (hidle : (s.writes c).pc ≠ .idle) (hdone : ∀ ret, (s.writes c).pc ≠ .done ret) :
    ∃ s', writeStep s c alloc = some s' := by
  cases hpc : (s.writes c).pc with
  | idle => exact absurd hpc hidle
  | done ret => exact absurd hpc (hdone ret)
  | tryCmpxchg =>
    simp only [writeStep, hpc]
    split <;> exact ⟨_, rfl⟩
  | kmalloc | copyFromUser | waitTest | waitSet | waitPoll | tryRead | inLen | copyIn | publish | unlock | disable
  | enable =>
    simp only [writeStep, hpc]
    exact ⟨_, rfl⟩

end Lmsel4.ComDev
