/-
The transmit side of a device: every byte a write call was told is accepted
reaches THR once, in the order the calls took `output_lock`.

`outbuffer` has one producer at a time, the call that holds the lock, and
one consumer, the handler, which takes none. The producer only writes
behind the queued bytes and publishes `in` last; the consumer only reads
the oldest and publishes `out` last. So neither sees the other half done,
and the queue is what is between them (`TxInv.stream`).
-/
import Lmsel4.ComDev
import Lmsel4.Turns

namespace Lmsel4.ComDev

open Spinlock (atomicCmpxchg qLockedVal storeLowByte)

/-- The call holds `output_lock`. -/
def WritePc.holds : WritePc → Bool
  | .inLen | .copyIn _ | .publish _ | .unlock _ => true
  | _ => false

/-- The call has not taken `output_lock` and has not returned. -/
def WritePc.before : WritePc → Bool
  | .idle | .kmalloc | .copyFromUser | .waitTest | .waitSet | .waitPoll | .tryRead | .tryCmpxchg => true
  | _ => false

/-- The call waits for room or for `output_lock`. -/
def WritePc.waiting : WritePc → Bool
  | .waitTest | .waitSet | .waitPoll | .tryRead | .tryCmpxchg => true
  | _ => false

/-- The number of bytes the call returns, once they are in `outbuffer`. -/
def WritePc.returned : WritePc → Nat
  | .unlock copied | .disable copied | .enable copied => copied.toNat
  | .done ret => ret.toNatClampNeg
  | _ => 0

/-- The byte taken out of `outbuffer` and not yet written to THR. -/
def HandlerPc.held : HandlerPc → List UInt8
  | .thrWrite byte => [byte]
  | _ => []

/-- The bytes of its user's the call has accepted. -/
def WriteCall.accepted (w : WriteCall) : List UInt8 := w.user.take w.pc.returned

/-- What the transmit side is made of. -/
structure Tx (C : Type) where
  outbuffer : Kfifo
  outputLock : UInt32
  writes : C → WriteCall
  handler : HandlerPc
  thr : List UInt8
  writeOrder : List C

def State.tx {C : Type} (s : State C) : Tx C :=
  { outbuffer := s.outbuffer, outputLock := s.outputLock, writes := s.writes, handler := s.handler,
    thr := s.thr, writeOrder := s.writeOrder }

/-- What a call knows of `outbuffer` where it is. -/
def WriteOk (f : Kfifo) (w : WriteCall) : Prop :=
  match w.pc with
  | .waitTest | .waitSet | .waitPoll | .tryRead | .tryCmpxchg | .inLen => w.buffer = w.user
  | .copyIn len => w.buffer = w.user ∧ f.used + len.toNat ≤ f.size ∧ len.toNat ≤ w.user.length
  | .publish len =>
    f.used + len.toNat ≤ f.size ∧ len.toNat ≤ w.user.length ∧ f.behind len = w.user.take len.toNat
  | .unlock copied | .disable copied | .enable copied =>
    copied.toNat ≤ fifoSize.toNat ∧ copied.toNat ≤ w.user.length
  | .done ret => ret.toNatClampNeg ≤ w.user.length
  | _ => True

/-- What the handler knows of `outbuffer` where it is. -/
def GetOk (f : Kfifo) : HandlerPc → Prop
  | .getLoad => f.used ≠ 0
  | .getPublish byte => f.used ≠ 0 ∧ f.loadByte = byte
  | _ => True

structure TxInv {C : Type} (v : Tx C) : Prop where
  ok : v.outbuffer.Ok
  esize : v.outbuffer.esize = 1
  size : v.outbuffer.size = fifoSize.toNat
  turns : Turns (·.pc.holds) (·.pc.before) v.outputLock v.writes v.writeOrder
  calls : ∀ c, WriteOk v.outbuffer (v.writes c)
  get : GetOk v.outbuffer v.handler
  counted : ∀ c, c ∉ v.writeOrder → (v.writes c).pc.returned = 0
  stream : v.thr ++ v.handler.held ++ v.outbuffer.content =
    (v.writeOrder.map fun c => (v.writes c).accepted).flatten

/-! ## Steps of a call -/

/-- A call that does not hold the lock knows nothing of `outbuffer`. -/
theorem WriteOk.outside {f f' : Kfifo} {w : WriteCall} (h : WriteOk f w) (hw : w.pc.holds = false) :
    WriteOk f' w := by
  unfold WriteOk at *
  cases hpc : w.pc <;> simp_all [WritePc.holds]

/-- The consumer only makes room. -/
theorem WriteOk.roomier {f f' : Kfifo} {w : WriteCall} (h : WriteOk f w) (hs : f'.size = f.size)
    (hu : f'.used ≤ f.used) (hb : ∀ len, f'.behind len = f.behind len) : WriteOk f' w := by
  unfold WriteOk at *
  cases hpc : w.pc <;> simp only [hpc] at h ⊢ <;> try exact h
  case copyIn len => exact ⟨h.1, by omega, h.2.2⟩
  case publish len => exact ⟨by omega, h.2.1, by rw [hb, h.2.2]⟩

theorem WriteOk.accepted_length {f : Kfifo} {w : WriteCall} (h : WriteOk f w) :
    w.accepted.length = w.pc.returned := by
  rw [WriteCall.accepted, List.length_take]
  refine Nat.min_eq_left ?_
  unfold WriteOk at h
  cases hpc : w.pc <;> simp only [hpc, WritePc.returned, Nat.zero_le] at h ⊢
  case unlock | disable | enable => exact h.2
  case done => exact h

section Calls

variable {C : Type} [DecidableEq C] {v : Tx C} {c : C} {w : WriteCall} {len : UInt32}

/-- A step that touches neither `outbuffer` nor the lock. -/
theorem TxInv.moves (h : TxInv v) (hh : w.pc.holds = (v.writes c).pc.holds)
    (hb : w.pc.before = true → (v.writes c).pc.before = true)
    (hr : w.pc.returned = (v.writes c).pc.returned) (hu : w.user = (v.writes c).user ∨ w.pc.returned = 0)
    (hok : WriteOk v.outbuffer w) : TxInv { v with writes := Function.update v.writes c w } where
  ok := h.ok
  esize := h.esize
  size := h.size
  turns := h.turns.moves hh hb
  calls := (Function.forall_update_iff _ fun _ w => WriteOk v.outbuffer w).mpr ⟨hok, fun u _ => h.calls u⟩
  get := h.get
  counted := (Function.forall_update_iff _ fun u (w : WriteCall) => u ∉ v.writeOrder → w.pc.returned = 0).mpr
    ⟨fun hc => by rw [hr, h.counted c hc], fun u _ => h.counted u⟩
  stream := by
    have ha : w.accepted = (v.writes c).accepted := by
      unfold WriteCall.accepted
      rcases hu with hu | hu
      · rw [hu, hr]
      · rw [← hr, hu, List.take_zero, List.take_zero]
    rw [Turns.flatten_same ha]
    exact h.stream

theorem accepted_eq_nil (h : w.pc.returned = 0) : w.accepted = [] := by
  rw [WriteCall.accepted, h, List.take_zero]

theorem TxInv.takes (h : TxInv v) (h₀ : v.outputLock = 0) (hpc : (v.writes c).pc = .tryCmpxchg) :
    TxInv { v with
      outputLock := qLockedVal
      writes := Function.update v.writes c ((v.writes c).goto .inLen)
      writeOrder := v.writeOrder ++ [c] } where
  ok := h.ok
  esize := h.esize
  size := h.size
  turns := h.turns.takes h₀ rfl (by rw [hpc]; rfl) rfl
  calls := by
    refine (Function.forall_update_iff _ fun _ w => WriteOk v.outbuffer w).mpr ⟨?_, fun u _ => h.calls u⟩
    have := h.calls c
    simpa [WriteOk, hpc] using this
  get := h.get
  counted := by
    refine (Function.forall_update_iff _ fun u (w : WriteCall) => u ∉ v.writeOrder ++ [c] → w.pc.returned = 0).mpr
      ⟨fun _ => rfl, fun u _ hu => h.counted u ?_⟩
    simp only [List.mem_append, not_or] at hu
    exact hu.1
  stream := by
    rw [Turns.flatten_takes (accepted_eq_nil rfl) (accepted_eq_nil (by rw [hpc]; rfl))]
    exact h.stream

/-- What the handler is about to take stays the oldest byte while bytes are
written behind it. -/
theorem GetOk.congr {f f' : Kfifo} {p : HandlerPc} (h : GetOk f p) (hu : f.used ≠ 0 → f'.used ≠ 0)
    (hl : f.used ≠ 0 → f'.loadByte = f.loadByte) : GetOk f' p := by
  cases p with
  | getLoad => exact hu h
  | getPublish byte => exact ⟨hu h.1, (hl h.1).trans h.2⟩
  | _ => trivial

theorem TxInv.copies (h : TxInv v) (hpc : (v.writes c).pc = .copyIn len) :
    TxInv { v with
      outbuffer := v.outbuffer.kfifoCopyIn (v.writes c).buffer len v.outbuffer.inIdx
      writes := Function.update v.writes c ((v.writes c).goto (.publish len)) } := by
  have hcall := h.calls c
  simp only [WriteOk, hpc] at hcall
  obtain ⟨hbuf, hroom, hlen⟩ := hcall
  have hcontent := h.ok.content_copyIn (v.writes c).buffer hroom
  have hok : (v.outbuffer.kfifoCopyIn (v.writes c).buffer len v.outbuffer.inIdx).Ok := h.ok.copyIn _
  have hholds : (v.writes c).pc.holds = true := by rw [hpc]; rfl
  have hnone : (v.writes c).accepted = [] := accepted_eq_nil (by rw [hpc]; rfl)
  refine ⟨hok, h.esize, h.size, h.turns.moves (by rw [hpc]; rfl) (by simp [WritePc.before]), ?_, ?_, ?_, ?_⟩
  · refine (Function.forall_update_iff _ fun _ w => WriteOk _ w).mpr ⟨⟨hroom, hlen, ?_⟩, fun u hu => ?_⟩
    · have := h.ok.behind_copyIn hroom (by simpa [h.esize, hbuf] using hlen)
      simpa [h.esize, hbuf] using this
    · exact (h.calls u).outside (h.turns.others hholds hu)
  · refine h.get.congr id fun hu => ?_
    -- Both are the head of the same content.
    have hold := h.ok.content_eq_cons h.esize hu
    have hnew := hok.content_eq_cons h.esize hu
    rw [hcontent, hold] at hnew
    exact (List.cons.inj hnew).1.symm
  · exact (Function.forall_update_iff _ fun u (w : WriteCall) => u ∉ v.writeOrder → w.pc.returned = 0).mpr
      ⟨fun _ => rfl, fun u _ => h.counted u⟩
  · rw [Turns.flatten_same ((accepted_eq_nil rfl).trans hnone.symm), hcontent]
    exact h.stream

theorem TxInv.publishes (h : TxInv v) (hpc : (v.writes c).pc = .publish len) :
    TxInv { v with
      outbuffer := v.outbuffer.publishIn len
      writes := Function.update v.writes c ((v.writes c).goto (.unlock len)) } := by
  have hcall := h.calls c
  simp only [WriteOk, hpc] at hcall
  obtain ⟨hroom, hlen, hbehind⟩ := hcall
  have hholds : (v.writes c).pc.holds = true := by rw [hpc]; rfl
  have hnone : (v.writes c).accepted = [] := accepted_eq_nil (by rw [hpc]; rfl)
  refine ⟨h.ok.publishIn hroom, h.esize, h.size, h.turns.moves (by rw [hpc]; rfl) (by simp [WritePc.before]),
    ?_, ?_, ?_, ?_⟩
  · refine (Function.forall_update_iff _ fun _ w => WriteOk _ w).mpr ⟨?_, fun u hu => ?_⟩
    · have := h.size
      exact ⟨by omega, hlen⟩
    · exact (h.calls u).outside (h.turns.others hholds hu)
  · refine h.get.congr (fun hu => ?_) fun _ => rfl
    rw [h.ok.used_publishIn hroom]
    omega
  · refine (Function.forall_update_iff _ fun u (w : WriteCall) => u ∉ v.writeOrder → w.pc.returned = 0).mpr
      ⟨fun hc => ?_, fun u _ => h.counted u⟩
    obtain ⟨l, hl⟩ := h.turns.last c hholds
    simp [hl] at hc
  · rw [h.turns.flatten_append hholds hnone, ← h.stream, h.ok.content_publishIn hroom, hbehind,
      List.append_assoc, List.append_assoc, List.append_assoc]
    rfl

theorem TxInv.releases (h : TxInv v) (hpc : (v.writes c).pc = .unlock len) :
    TxInv { v with
      outputLock := storeLowByte v.outputLock
      writes := Function.update v.writes c ((v.writes c).goto (.disable len)) } where
  ok := h.ok
  esize := h.esize
  size := h.size
  turns := h.turns.releases (by rw [hpc]; rfl) rfl rfl
  calls := by
    refine (Function.forall_update_iff _ fun _ w => WriteOk v.outbuffer w).mpr ⟨?_, fun u _ => h.calls u⟩
    have := h.calls c
    simpa [WriteOk, hpc] using this
  get := h.get
  counted := by
    refine (Function.forall_update_iff _ fun u (w : WriteCall) => u ∉ v.writeOrder → w.pc.returned = 0).mpr
      ⟨fun hc => ?_, fun u _ => h.counted u⟩
    have := h.counted c hc
    simpa [hpc, WritePc.returned] using this
  stream := by
    have ha : ((v.writes c).goto (.disable len)).accepted = (v.writes c).accepted := by
      simp [WriteCall.accepted, hpc, WritePc.returned]
    rw [Turns.flatten_same ha]
    exact h.stream

end Calls

/-! ## Steps of the handler -/

section Handler

variable {C : Type} {v : Tx C} {p : HandlerPc} {byte : UInt8}

/-- A step of the handler that leaves `outbuffer` alone. -/
theorem TxInv.handles (h : TxInv v) (hp : p.held = v.handler.held) (hg : GetOk v.outbuffer p) :
    TxInv { v with handler := p } where
  ok := h.ok
  esize := h.esize
  size := h.size
  turns := h.turns
  calls := h.calls
  get := hg
  counted := h.counted
  stream := by rw [hp]; exact h.stream

theorem TxInv.gets (h : TxInv v) (hpc : v.handler = .getPublish byte) :
    TxInv { v with outbuffer := v.outbuffer.publishOut 1, handler := .thrWrite byte } := by
  have hget := h.get
  rw [hpc] at hget
  obtain ⟨hu, hbyte⟩ := hget
  have hone : (1 : UInt32).toNat ≤ v.outbuffer.used := by rw [UInt32.toNat_one]; omega
  refine ⟨h.ok.publishOut hone, h.esize, h.size, h.turns, fun c => ?_, trivial, h.counted, ?_⟩
  · refine (h.calls c).roomier rfl ?_ fun _ => rfl
    rw [Kfifo.used_publishOut hone]
    exact Nat.sub_le _ _
  · have hcons := h.ok.content_eq_cons h.esize hu
    have hs := h.stream
    rw [hpc, hcons, hbyte] at hs
    simpa [HandlerPc.held] using hs

theorem TxInv.sends (h : TxInv v) (hpc : v.handler = .thrWrite byte) :
    TxInv { v with thr := v.thr ++ [byte], handler := .txIsr } where
  ok := h.ok
  esize := h.esize
  size := h.size
  turns := h.turns
  calls := h.calls
  get := trivial
  counted := h.counted
  stream := by
    have hs := h.stream
    rw [hpc] at hs
    simpa [HandlerPc.held] using hs

end Handler

/-! ## Every step -/

theorem init_txInv {C : Type} : TxInv (init C).tx where
  ok := Kfifo.initKfifo_ok (k := 12) (by decide) (by decide) rfl (by decide) (by decide)
  esize := rfl
  size := Kfifo.initKfifo_size 1 _ (by decide)
  turns := ⟨⟨(fun _ _ h => by cases h), by simp [init, State.tx, WritePc.holds]⟩, .inl rfl,
    (fun _ h => by cases h), List.nodup_nil, fun _ h => by cases h⟩
  calls := fun _ => trivial
  get := trivial
  counted := fun _ _ => rfl
  stream := by simp [init, State.tx, HandlerPc.held, Kfifo.initKfifo_content]

section Run

variable {C : Type} [DecidableEq C] {s s' : State C}

theorem TxInv.goto (h : TxInv s.tx) {c : C} {pc : WritePc} (hh : pc.holds = (s.writes c).pc.holds)
    (hb : pc.before = true → (s.writes c).pc.before = true) (hr : pc.returned = (s.writes c).pc.returned)
    (hok : WriteOk s.outbuffer ((s.writes c).goto pc)) : TxInv (s.writeAt c pc).tx :=
  h.moves hh hb hr (.inl rfl) hok

/-- A step among the places where a call waits. -/
theorem TxInv.waits (h : TxInv s.tx) {c : C} {pc : WritePc} (hw : (s.writes c).pc.waiting = true)
    (hw' : pc.waiting = true) : TxInv (s.writeAt c pc).tx := by
  have hcall : (s.writes c).buffer = (s.writes c).user := by
    have := h.calls c
    simp only [State.tx, WriteOk] at this
    cases hpc : (s.writes c).pc <;> simp_all [WritePc.waiting]
  refine h.goto ?_ ?_ ?_ ?_
  · cases hpc : (s.writes c).pc <;> cases pc <;> simp_all [WritePc.waiting, WritePc.holds]
  · cases hpc : (s.writes c).pc <;> simp_all [WritePc.waiting, WritePc.before]
  · cases hpc : (s.writes c).pc <;> cases pc <;> simp_all [WritePc.waiting, WritePc.returned]
  · cases pc <;> simp_all [WritePc.waiting, WriteOk]

theorem writeStep_txInv {c : C} {alloc : Bool} (h : TxInv s.tx) (hs : writeStep s c alloc = some s') :
    TxInv s'.tx := by
  have hcall : WriteOk s.outbuffer (s.writes c) := h.calls c
  have hmove := writeStep_move hs
  generalize access s (.write c alloc) = x at hmove
  cases hmove with
  | kmalloc hpc =>
    exact h.goto (by rw [hpc]; rfl) (by rw [hpc]; intro _; rfl) (by rw [hpc]; rfl) trivial
  | noMemory hpc =>
    exact h.goto (by rw [hpc]; rfl) (by rw [hpc]; intro _; rfl) (by rw [hpc]; rfl) (Nat.zero_le _)
  | copyFromUser hpc =>
    exact h.moves (by simp [State.tx, hpc, WritePc.holds]) (by simp [State.tx, hpc, WritePc.before])
      (by simp [State.tx, hpc, WritePc.returned]) (.inl rfl) (by simp [WriteOk])
  | ready hpc | full hpc | waitSet hpc | polls hpc | woken hpc | free hpc | busy hpc | misses hpc =>
    exact h.waits (by rw [hpc]; rfl) rfl
  | locks hpc hfree => exact h.takes hfree hpc
  | inLen hpc =>
    simp only [WriteOk, hpc] at hcall
    refine h.goto (by rw [hpc]; rfl) (by simp [WritePc.before]) (by rw [hpc]; rfl) ⟨hcall, ?_, ?_⟩
    · exact h.ok.inLen_le _
    · refine Nat.le_trans (Kfifo.inLen_le_len _) ?_
      rw [UInt32.toNat_ofNat']
      exact Nat.mod_le _ _
  | copyIn hpc => exact h.copies hpc
  | publish hpc => exact h.publishes hpc
  | unlock hpc => exact h.releases hpc
  | disable hpc =>
    simp only [WriteOk, hpc] at hcall
    exact h.goto (by rw [hpc]; rfl) (by simp [WritePc.before]) (by rw [hpc]; rfl) hcall
  | enable hpc =>
    simp only [WriteOk, hpc] at hcall
    have hret := toNatClampNeg_toInt32 (Nat.lt_of_le_of_lt hcall.1 (by decide))
    refine h.goto (by rw [hpc]; rfl) (by simp [WritePc.before]) (by rw [hpc]; exact hret) ?_
    exact Nat.le_trans (Nat.le_of_eq hret) hcall.2

theorem rxLoop_quiet (f : Kfifo) (status : UInt8) : (rxLoop status).held = [] ∧ GetOk f (rxLoop status) :=
  rxLoop_elim (P := fun p => p.held = [] ∧ GetOk f p) ⟨rfl, trivial⟩ ⟨rfl, trivial⟩ status

theorem txLoop_quiet (f : Kfifo) (status : UInt8) : (txLoop status).held = [] ∧ GetOk f (txLoop status) :=
  txLoop_elim (P := fun p => p.held = [] ∧ GetOk f p) (fun _ => ⟨rfl, trivial⟩) ⟨rfl, trivial⟩ ⟨rfl, trivial⟩ status

omit [DecidableEq C] in
theorem handlerStep_txInv {v : UInt8} (h : TxInv s.tx) (hs : handlerStep s v = some s') : TxInv s'.tx := by
  have hget : GetOk s.outbuffer s.handler := h.get
  have hmove := handlerStep_move hs
  generalize access s (.handler v) = x at hmove
  cases hmove with
  | @getEmpty status hpc =>
    obtain ⟨hheld, hok⟩ := rxLoop_quiet s.outbuffer status
    exact h.handles (hheld.trans (by rw [State.tx, hpc]; rfl)) hok
  | getSome hpc hempty =>
    exact h.handles (by rw [State.tx, hpc]; rfl) (mt Kfifo.isEmpty_iff.mpr (Bool.eq_false_iff.mp hempty))
  | getLoad hpc =>
    rw [hpc] at hget
    exact h.handles (by rw [State.tx, hpc]; rfl) ⟨hget, rfl⟩
  | getPublish hpc => exact h.gets hpc
  | thrWrite hpc => exact h.sends hpc
  | txLsr hpc =>
    obtain ⟨hheld, hok⟩ := txLoop_quiet s.outbuffer v
    exact h.handles (hheld.trans (by rw [State.tx, hpc]; rfl)) hok
  | rxLsr hpc =>
    obtain ⟨hheld, hok⟩ := rxLoop_quiet s.outbuffer v
    exact h.handles (hheld.trans (by rw [State.tx, hpc]; rfl)) hok
  | txIsr hpc | rbrRead hpc | putFull hpc | putRoom hpc | putStore hpc | putPublish hpc | rxIsr hpc | wakeRead hpc
  | wakeWrite hpc => exact h.handles (by rw [State.tx, hpc]; rfl) trivial

/-- The receive side is not seen by the transmit side. -/
theorem readStep_tx {c : C} {alloc : Bool} (hs : readStep s c alloc = some s') : s'.tx = s.tx := by
  obtain ⟨_, _, _, _, _, rfl, -⟩ := readStep_frame hs
  rfl

theorem step_txInv {a : Act C} (h : TxInv s.tx) (hs : step s a = some s') : TxInv s'.tx := by
  cases a with
  | callRead c size =>
    simp only [step] at hs
    split at hs <;> cases hs
    exact h
  | callWrite c user =>
    simp only [step] at hs
    split at hs <;> cases hs
    next hpc =>
      exact h.moves (by simp [State.tx, hpc, WritePc.holds]) (by simp [State.tx, hpc, WritePc.before])
        (by simp [State.tx, hpc, WritePc.returned]) (.inr rfl) (by simp [WriteOk])
  | read c alloc => rw [readStep_tx hs]; exact h
  | write c alloc => exact writeStep_txInv h hs
  | irq =>
    simp only [step] at hs
    split at hs <;> cases hs
    next hpc => exact h.handles (by rw [State.tx, hpc]; rfl) trivial
  | handler v => exact handlerStep_txInv h hs

theorem reachable_txInv (h : (system C).Reachable s) : TxInv s.tx :=
  h.invariant init_txInv fun _ _ _ h _ hs => step_txInv h hs

/-- **Transmit stream.** However the calls, the handler and the UART
interleave, what has been written to THR, the byte the handler holds and
the content of `outbuffer` are, in this order, the accepted bytes of the
calls that took `output_lock`, in the order they took it. A call takes it
once, and accepts as many bytes as it returns. -/
theorem transmit_stream (h : (system C).Reachable s) :
    s.thr ++ s.handler.held ++ s.outbuffer.content =
        (s.writeOrder.map fun c => (s.writes c).accepted).flatten ∧
      s.writeOrder.Nodup ∧
      (∀ c, c ∉ s.writeOrder → (s.writes c).pc.returned = 0) ∧
      ∀ c, (s.writes c).accepted.length = (s.writes c).pc.returned := by
  have hinv := reachable_txInv h
  refine ⟨hinv.stream, hinv.turns.nodup, hinv.counted, fun c => ?_⟩
  have hcall : WriteOk s.outbuffer (s.writes c) := hinv.calls c
  exact hcall.accepted_length

/-- A write of two bytes returns, then the handler takes the first out. -/
def twoBytes : List (Act Unit) :=
  .callWrite () [7, 9] :: List.replicate 11 (.write () true) ++ .irq :: List.replicate 5 (.handler 0x20)

theorem transmit_stream_twoBytes : ∃ s : State Unit, (system Unit).exec (init Unit) twoBytes = some s ∧
    (s.writes ()).pc = .done 2 ∧ s.handler = .thrWrite 7 ∧
    s.thr ++ s.handler.held ++ s.outbuffer.content =
      (s.writeOrder.map fun c => (s.writes c).accepted).flatten :=
  ⟨_, rfl, rfl, rfl, (transmit_stream (System.Reachable.exec .init twoBytes rfl)).1⟩

end Run

end Lmsel4.ComDev
