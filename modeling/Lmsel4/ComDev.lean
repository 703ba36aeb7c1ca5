/-
One COM device of the driver (`struct com_dev` of `uart16550.c`) under any
number of `uart16550_read` and `uart16550_write` calls and the runs of
`interrupt_handler` on it, one atomic step at a time.

A call is cut at every access another party can observe: the condition, the
flag and the poll of `wait_event_interruptible`, the read and the exchange
of `spin_trylock`, the length, the copy and the index of a kfifo, and each
port access. The UART is not modelled here: a port read returns whatever
the action that takes the step carries, so what holds of every run holds
for every device behaviour. The history (`History`) is not driver state; it
records what statements about runs talk about, and no step reads it.
-/
import Lmsel4.System
import Lmsel4.Kfifo
import Lmsel4.Liblinux
import Lmsel4.Spinlock

namespace Lmsel4.ComDev

open Spinlock (atomicCmpxchg qLockedVal storeLowByte)

/-! ## Ports -/

/-- A port access at an offset from the device's base port, with the byte
read or written. -/
inductive Access
  | inb (reg : Nat) (v : UInt8)
  | outb (v : UInt8) (reg : Nat)
  deriving DecidableEq

def regThr : Nat := 0x00
def regRbr : Nat := 0x00
def regIer : Nat := 0x01
def regIsr : Nat := 0x02
def regLsr : Nat := 0x05

/-- `uart16550_hw_device_can_send`. -/
def deviceCanSend (status : UInt8) : Bool := status &&& 0x20 != 0

/-- `uart16550_hw_device_has_data`. -/
def deviceHasData (status : UInt8) : Bool := status &&& 0x01 != 0

/-! ## Where a party is -/

/-- In `uart16550_read`. From `tryRead` to `tryCmpxchg` it is in
`spin_trylock`, from `outLen` to `unlock` it holds `input_lock`. -/
inductive ReadPc
  | idle
  | kmalloc
  | waitTest
  | waitSet
  | waitPoll
  | tryRead
  | tryCmpxchg
  | outLen
  | copyOut (len : UInt32)
  | publish (len : UInt32) (buffer : List UInt8)
  | unlock (len : UInt32) (buffer : List UInt8)
  | copyToUser (len : UInt32) (buffer : List UInt8)
  | done (ret : Int32) (user : List UInt8)
  deriving DecidableEq

/-- In `uart16550_write`. From `inLen` to `unlock` it holds `output_lock`;
`disable` and `enable` are the two port writes of
`uart16550_hw_force_interrupt_reemit`. -/
inductive WritePc
  | idle
  | kmalloc
  | copyFromUser
  | waitTest
  | waitSet
  | waitPoll
  | tryRead
  | tryCmpxchg
  | inLen
  | copyIn (len : UInt32)
  | publish (len : UInt32)
  | unlock (copied : UInt32)
  | disable (copied : UInt32)
  | enable (copied : UInt32)
  | done (ret : Int32)
  deriving DecidableEq

/-- In `interrupt_handler`: the transmit loop up to `thrWrite`, the receive
loop up to `rxLsr`, then the two `wake_up_interruptible`. -/
inductive HandlerPc
  | idle
  | txIsr
  | txLsr
  | getTest (status : UInt8)
  | getLoad
  | getPublish (byte : UInt8)
  | thrWrite (byte : UInt8)
  | rbrRead
  | putTest (byte : UInt8)
  | putStore (byte : UInt8)
  | putPublish (byte : UInt8)
  | rxIsr
  | rxLsr
  | wakeRead
  | wakeWrite
  deriving DecidableEq

structure ReadCall where
  size : UInt32
  pc : ReadPc

/-- A write call: the user's bytes, and the kernel's copy once made. -/
structure WriteCall where
  user : List UInt8
  buffer : List UInt8
  pc : WritePc

def ReadCall.goto (r : ReadCall) (pc : ReadPc) : ReadCall := { r with pc }

def WriteCall.goto (w : WriteCall) (pc : WritePc) : WriteCall := { w with pc }

@[simp] theorem ReadCall.goto_pc (r : ReadCall) (pc : ReadPc) : (r.goto pc).pc = pc := rfl
@[simp] theorem WriteCall.goto_pc (w : WriteCall) (pc : WritePc) : (w.goto pc).pc = pc := rfl
@[simp] theorem WriteCall.goto_user (w : WriteCall) (pc : WritePc) : (w.goto pc).user = w.user := rfl
@[simp] theorem WriteCall.goto_buffer (w : WriteCall) (pc : WritePc) : (w.goto pc).buffer = w.buffer := rfl

/-! ## The device -/

/-- The fields of `struct com_dev` the three functions share; of a wait
queue, its flag `locked`. -/
structure Dev where
  inbuffer : Kfifo
  outbuffer : Kfifo
  inputLock : UInt32
  outputLock : UInt32
  readLocked : Bool
  writeLocked : Bool

/-- A byte as `kfifo_put` met it: in which run of the handler, and how many
bytes `inbuffer` held when it was tested. -/
structure Put where
  run : Nat
  byte : UInt8
  held : Nat

structure History (C : Type) where
  /-- The bytes written to THR. -/
  thr : List UInt8
  /-- The bytes read from RBR by the handler. -/
  rbr : List UInt8
  /-- The bytes handed to `kfifo_put`. -/
  puts : List Put
  /-- The number of runs of the handler begun. -/
  runs : Nat
  /-- The read calls in the order they took `input_lock`. -/
  readOrder : List C
  /-- The write calls in the order they took `output_lock`. -/
  writeOrder : List C

/-- A device with the calls `C` made on it. -/
structure State (C : Type) extends Dev, History C where
  reads : C → ReadCall
  writes : C → WriteCall
  handler : HandlerPc

/-- A call is made or goes on, the handler is entered or goes on. `alloc`
says whether a `kmalloc` made in the step succeeds, `v` is what a port read
made in the step returns. -/
inductive Act (C : Type)
  | callRead (c : C) (size : UInt32)
  | callWrite (c : C) (user : List UInt8)
  | read (c : C) (alloc : Bool)
  | write (c : C) (alloc : Bool)
  | irq
  | handler (v : UInt8)

def fifoSize : UInt32 := 4096

/-- The `int` the driver returns is the `size_t` it has counted. -/
theorem toNatClampNeg_toInt32 {n : UInt32} (h : n.toNat < 2 ^ 31) : n.toInt32.toNatClampNeg = n.toNat := by
  have hn : n.toInt32 = Int32.ofNat n.toNat := by rw [← UInt32.toInt32_ofNat', UInt32.ofNat_toNat]
  rw [hn, Int32.toNatClampNeg_ofNat_of_lt h]

/-! ## Steps -/

section Steps

variable {C : Type} [DecidableEq C]

def State.readAt (s : State C) (c : C) (pc : ReadPc) : State C :=
  { s with reads := Function.update s.reads c ((s.reads c).goto pc) }

def State.writeAt (s : State C) (c : C) (pc : WritePc) : State C :=
  { s with writes := Function.update s.writes c ((s.writes c).goto pc) }

def State.handlerAt (s : State C) (pc : HandlerPc) : State C := { s with handler := pc }

/-- A step of `uart16550_read`. -/
def readStep (s : State C) (c : C) (alloc : Bool) : Option (State C) :=
  match (s.reads c).pc with
  | .idle | .done _ _ => none
  | .kmalloc => some (s.readAt c (if alloc then .waitTest else .done (-enomem) []))
  | .waitTest => some (s.readAt c (if !s.inbuffer.kfifoIsEmpty then .tryRead else .waitSet))
  | .waitSet => some ({ s with readLocked := true }.readAt c .waitPoll)
  | .waitPoll => some (s.readAt c (if s.readLocked then .waitPoll else .tryRead))
  | .tryRead => some (s.readAt c (if s.inputLock = 0 then .tryCmpxchg else .waitTest))
  | .tryCmpxchg =>
    let (val, v) := atomicCmpxchg s.inputLock 0 qLockedVal
    if val = 0 then
      some ({ s with inputLock := v, readOrder := s.readOrder ++ [c] }.readAt c .outLen)
    else
      some ({ s with inputLock := v }.readAt c .waitTest)
  | .outLen => some (s.readAt c (.copyOut (s.inbuffer.outLen (s.reads c).size)))
  | .copyOut len =>
    some (s.readAt c (.publish len (s.inbuffer.kfifoCopyOut len s.inbuffer.outIdx)))
  | .publish len buffer =>
    some ({ s with inbuffer := s.inbuffer.publishOut len }.readAt c (.unlock len buffer))
  | .unlock len buffer =>
    some ({ s with inputLock := storeLowByte s.inputLock }.readAt c (.copyToUser len buffer))
  | .copyToUser len buffer =>
    let (user, unwritten) := copyUser buffer
    some (s.readAt c (.done (len - unwritten).toInt32 user))

/-- A step of `uart16550_write`. -/
def writeStep (s : State C) (c : C) (alloc : Bool) : Option (State C) :=
  match (s.writes c).pc with
  | .idle | .done _ => none
  | .kmalloc => some (s.writeAt c (if alloc then .copyFromUser else .done (-enomem)))
  | .copyFromUser =>
    let (buffer, left) := copyUser (s.writes c).user
    let pc := if left ≠ 0 then .done (-efault) else .waitTest
    some { s with writes := Function.update s.writes c { s.writes c with buffer, pc } }
  | .waitTest => some (s.writeAt c (if !s.outbuffer.kfifoIsFull then .tryRead else .waitSet))
  | .waitSet => some ({ s with writeLocked := true }.writeAt c .waitPoll)
  | .waitPoll => some (s.writeAt c (if s.writeLocked then .waitPoll else .tryRead))
  | .tryRead => some (s.writeAt c (if s.outputLock = 0 then .tryCmpxchg else .waitTest))
  | .tryCmpxchg =>
    let (val, v) := atomicCmpxchg s.outputLock 0 qLockedVal
    if val = 0 then
      some ({ s with outputLock := v, writeOrder := s.writeOrder ++ [c] }.writeAt c .inLen)
    else
      some ({ s with outputLock := v }.writeAt c .waitTest)
  | .inLen =>
    let size := UInt32.ofNat (s.writes c).user.length
    some (s.writeAt c (.copyIn (s.outbuffer.inLen size)))
  | .copyIn len =>
    let outbuffer := s.outbuffer.kfifoCopyIn (s.writes c).buffer len s.outbuffer.inIdx
    some ({ s with outbuffer }.writeAt c (.publish len))
  | .publish len =>
    some ({ s with outbuffer := s.outbuffer.publishIn len }.writeAt c (.unlock len))
  | .unlock copied =>
    some ({ s with outputLock := storeLowByte s.outputLock }.writeAt c (.disable copied))
  | .disable copied => some (s.writeAt c (.enable copied))
  | .enable copied => some (s.writeAt c (.done copied.toInt32))

/-- The test of the receive loop on a status. -/
def rxLoop (status : UInt8) : HandlerPc := if deviceHasData status then .rbrRead else .wakeRead

/-- The test of the transmit loop on a status. -/
def txLoop (status : UInt8) : HandlerPc := if deviceCanSend status then .getTest status else rxLoop status

theorem rxLoop_elim {P : HandlerPc → Prop} (hdata : P .rbrRead) (hend : P .wakeRead) (status : UInt8) :
    P (rxLoop status) := by
  unfold rxLoop
  split
  · exact hdata
  · exact hend

theorem txLoop_elim {P : HandlerPc → Prop} (hsend : ∀ status, P (.getTest status)) (hdata : P .rbrRead)
    (hend : P .wakeRead) (status : UInt8) : P (txLoop status) := by
  unfold txLoop
  split
  · exact hsend status
  · exact rxLoop_elim hdata hend status

/-- A step of `interrupt_handler`. -/
def handlerStep (s : State C) (v : UInt8) : Option (State C) :=
  match s.handler with
  | .idle => none
  | .txIsr => some (s.handlerAt .txLsr)
  | .txLsr => some (s.handlerAt (txLoop v))
  | .getTest status => some (s.handlerAt (if s.outbuffer.kfifoIsEmpty then rxLoop status else .getLoad))
  | .getLoad => some (s.handlerAt (.getPublish s.outbuffer.loadByte))
  | .getPublish byte =>
    some ({ s with outbuffer := s.outbuffer.publishOut 1 }.handlerAt (.thrWrite byte))
  | .thrWrite byte => some ({ s with thr := s.thr ++ [byte] }.handlerAt .txIsr)
  | .rbrRead => some ({ s with rbr := s.rbr ++ [v] }.handlerAt (.putTest v))
  | .putTest byte =>
    let puts := s.puts ++ [{ run := s.runs, byte, held := s.inbuffer.content.length }]
    some ({ s with puts }.handlerAt (if s.inbuffer.kfifoIsFull then .wakeRead else .putStore byte))
  | .putStore byte =>
    some ({ s with inbuffer := s.inbuffer.storeByte byte }.handlerAt (.putPublish byte))
  | .putPublish _ => some ({ s with inbuffer := s.inbuffer.publishIn 1 }.handlerAt .rxIsr)
  | .rxIsr => some (s.handlerAt .rxLsr)
  | .rxLsr => some (s.handlerAt (rxLoop v))
  | .wakeRead => some ({ s with readLocked := false }.handlerAt .wakeWrite)
  | .wakeWrite => some ({ s with writeLocked := false }.handlerAt .idle)

/-- What a step of a read call can change. -/
theorem readStep_frame {s s' : State C} {c : C} {alloc : Bool} (hs : readStep s c alloc = some s') :
    ∃ r inbuffer inputLock readLocked readOrder,
      s' = { s with reads := Function.update s.reads c r, inbuffer, inputLock, readLocked, readOrder } ∧
      r.size = (s.reads c).size := by
  cases hpc : (s.reads c).pc with
  | idle | done => simp [readStep, hpc] at hs
  | tryCmpxchg =>
    simp only [readStep, hpc] at hs
    split at hs <;> cases hs <;> exact ⟨_, _, _, _, _, rfl, rfl⟩
  | kmalloc | waitTest | waitSet | waitPoll | tryRead | outLen | copyOut | publish | unlock | copyToUser =>
    simp only [readStep, hpc] at hs
    cases hs
    exact ⟨_, _, _, _, _, rfl, rfl⟩

/-- What a step of a write call can change. -/
theorem writeStep_frame {s s' : State C} {c : C} {alloc : Bool} (hs : writeStep s c alloc = some s') :
    ∃ w outbuffer outputLock writeLocked writeOrder,
      s' = { s with writes := Function.update s.writes c w, outbuffer, outputLock, writeLocked, writeOrder } ∧
      w.user = (s.writes c).user := by
  cases hpc : (s.writes c).pc with
  | idle | done => simp [writeStep, hpc] at hs
  | tryCmpxchg =>
    simp only [writeStep, hpc] at hs
    split at hs <;> cases hs <;> exact ⟨_, _, _, _, _, rfl, rfl⟩
  | kmalloc | copyFromUser | waitTest | waitSet | waitPoll | tryRead | inLen | copyIn | publish | unlock | disable
  | enable =>
    simp only [writeStep, hpc] at hs
    cases hs
    exact ⟨_, _, _, _, _, rfl, rfl⟩

omit [DecidableEq C] in
/-- What a step of the handler can change. -/
theorem handlerStep_frame {s s' : State C} {v : UInt8} (hs : handlerStep s v = some s') :
    ∃ inbuffer outbuffer readLocked writeLocked thr rbr puts handler,
      s' = { s with inbuffer, outbuffer, readLocked, writeLocked, thr, rbr, puts, handler } := by
  cases hpc : s.handler with
  | idle => simp [handlerStep, hpc] at hs
  | txIsr | txLsr | getTest | getLoad | getPublish | thrWrite | rbrRead | putTest | putStore | putPublish | rxIsr
  | rxLsr | wakeRead | wakeWrite =>
    simp only [handlerStep, hpc] at hs
    cases hs
    exact ⟨_, _, _, _, _, _, _, _, rfl⟩

def step (s : State C) : Act C → Option (State C)
  | .callRead c size =>
    if (s.reads c).pc = .idle then
      some { s with reads := Function.update s.reads c { size, pc := .kmalloc } }
    else none
  | .callWrite c user =>
    if (s.writes c).pc = .idle then
      some { s with writes := Function.update s.writes c { user, buffer := [], pc := .kmalloc } }
    else none
  | .read c alloc => readStep s c alloc
  | .write c alloc => writeStep s c alloc
  -- One run of the handler at a time.
  | .irq => if s.handler = .idle then some ({ s with runs := s.runs + 1 }.handlerAt .txIsr) else none
  | .handler v => handlerStep s v

/-- The port access made by an action, if it makes one. -/
def access (s : State C) : Act C → Option Access
  | .write c _ =>
    match (s.writes c).pc with
    | .disable _ => some (.outb 0x00 regIer)
    | .enable _ => some (.outb 0x03 regIer)
    | _ => none
  | .handler v =>
    match s.handler with
    | .txIsr | .rxIsr => some (.inb regIsr v)
    | .txLsr | .rxLsr => some (.inb regLsr v)
    | .thrWrite byte => some (.outb byte regThr)
    | .rbrRead => some (.inb regRbr v)
    | _ => none
  | _ => none

/-- What a step of a read call does, by where it is. -/
inductive ReadMove (s : State C) (c : C) (alloc : Bool) : State C → Prop
  | kmalloc : (s.reads c).pc = .kmalloc → alloc = true → ReadMove s c alloc (s.readAt c .waitTest)
  | noMemory : (s.reads c).pc = .kmalloc → alloc = false → ReadMove s c alloc (s.readAt c (.done (-enomem) []))
  | ready : (s.reads c).pc = .waitTest → s.inbuffer.kfifoIsEmpty = false → ReadMove s c alloc (s.readAt c .tryRead)
  | empty : (s.reads c).pc = .waitTest → s.inbuffer.kfifoIsEmpty = true → ReadMove s c alloc (s.readAt c .waitSet)
  | waitSet : (s.reads c).pc = .waitSet → ReadMove s c alloc ({ s with readLocked := true }.readAt c .waitPoll)
  | polls : (s.reads c).pc = .waitPoll → s.readLocked = true → ReadMove s c alloc (s.readAt c .waitPoll)
  | woken : (s.reads c).pc = .waitPoll → s.readLocked = false → ReadMove s c alloc (s.readAt c .tryRead)
  | free : (s.reads c).pc = .tryRead → s.inputLock = 0 → ReadMove s c alloc (s.readAt c .tryCmpxchg)
  | busy : (s.reads c).pc = .tryRead → s.inputLock ≠ 0 → ReadMove s c alloc (s.readAt c .waitTest)
  | locks : (s.reads c).pc = .tryCmpxchg → s.inputLock = 0 → ReadMove s c alloc
      ({ s with inputLock := qLockedVal, readOrder := s.readOrder ++ [c] }.readAt c .outLen)
  | misses : (s.reads c).pc = .tryCmpxchg → s.inputLock ≠ 0 → ReadMove s c alloc (s.readAt c .waitTest)
  | outLen : (s.reads c).pc = .outLen → ReadMove s c alloc (s.readAt c (.copyOut (s.inbuffer.outLen (s.reads c).size)))
  | copyOut {len : UInt32} : (s.reads c).pc = .copyOut len → ReadMove s c alloc
      (s.readAt c (.publish len (s.inbuffer.kfifoCopyOut len s.inbuffer.outIdx)))
  | publish {len : UInt32} {buffer : List UInt8} : (s.reads c).pc = .publish len buffer → ReadMove s c alloc
      ({ s with inbuffer := s.inbuffer.publishOut len }.readAt c (.unlock len buffer))
  | unlock {len : UInt32} {buffer : List UInt8} : (s.reads c).pc = .unlock len buffer → ReadMove s c alloc
      ({ s with inputLock := storeLowByte s.inputLock }.readAt c (.copyToUser len buffer))
  | copyToUser {len : UInt32} {buffer : List UInt8} : (s.reads c).pc = .copyToUser len buffer → ReadMove s c alloc
      (s.readAt c (.done len.toInt32 buffer))

theorem readStep_move {s s' : State C} {c : C} {alloc : Bool} (hs : readStep s c alloc = some s') :
    ReadMove s c alloc s' := by
  unfold readStep at hs
  cases hpc : (s.reads c).pc with
  | idle | done =>
    rw [hpc] at hs
    cases hs
  | kmalloc =>
    rw [hpc] at hs
    cases alloc with
    | true =>
      cases hs
      exact .kmalloc hpc rfl
    | false =>
      cases hs
      exact .noMemory hpc rfl
  | waitTest =>
    rw [hpc] at hs
    cases hempty : s.inbuffer.kfifoIsEmpty with
    | true =>
      simp only [hempty] at hs
      cases hs
      exact .empty hpc hempty
    | false =>
      simp only [hempty] at hs
      cases hs
      exact .ready hpc hempty
  | waitPoll =>
    rw [hpc] at hs
    cases hlocked : s.readLocked with
    | true =>
      simp only [hlocked] at hs
      cases hs
      exact .polls hpc hlocked
    | false =>
      simp only [hlocked] at hs
      cases hs
      exact .woken hpc hlocked
  | tryRead =>
    rw [hpc] at hs
    by_cases hfree : s.inputLock = 0
    · simp only [if_pos hfree] at hs
      cases hs
      exact .free hpc hfree
    · simp only [if_neg hfree] at hs
      cases hs
      exact .busy hpc hfree
  | tryCmpxchg =>
    rw [hpc] at hs
    by_cases hfree : s.inputLock = 0
    · simp only [atomicCmpxchg, if_pos hfree] at hs
      cases hs
      exact .locks hpc hfree
    · simp only [atomicCmpxchg, if_neg hfree] at hs
      cases hs
      exact .misses hpc hfree
  | copyToUser len buffer =>
    rw [hpc] at hs
    simp only [copyUser, UInt32.sub_zero] at hs
    cases hs
    exact .copyToUser hpc
  | waitSet | outLen | copyOut | publish | unlock =>
    rw [hpc] at hs
    cases hs
    constructor
    exact hpc

/-- What a step of a write call does, by where it is, with the port access
it makes. -/
inductive WriteMove (s : State C) (c : C) (alloc : Bool) : Option Access → State C → Prop
  | kmalloc : (s.writes c).pc = .kmalloc → alloc = true → WriteMove s c alloc none (s.writeAt c .copyFromUser)
  | noMemory : (s.writes c).pc = .kmalloc → alloc = false → WriteMove s c alloc none (s.writeAt c (.done (-enomem)))
  | copyFromUser : (s.writes c).pc = .copyFromUser → WriteMove s c alloc none { s with
      writes := Function.update s.writes c { s.writes c with buffer := (s.writes c).user, pc := .waitTest } }
  | ready : (s.writes c).pc = .waitTest → s.outbuffer.kfifoIsFull = false →
    WriteMove s c alloc none (s.writeAt c .tryRead)
  | full : (s.writes c).pc = .waitTest → s.outbuffer.kfifoIsFull = true →
    WriteMove s c alloc none (s.writeAt c .waitSet)
  | waitSet : (s.writes c).pc = .waitSet →
    WriteMove s c alloc none ({ s with writeLocked := true }.writeAt c .waitPoll)
  | polls : (s.writes c).pc = .waitPoll → s.writeLocked = true → WriteMove s c alloc none (s.writeAt c .waitPoll)
  | woken : (s.writes c).pc = .waitPoll → s.writeLocked = false → WriteMove s c alloc none (s.writeAt c .tryRead)
  | free : (s.writes c).pc = .tryRead → s.outputLock = 0 → WriteMove s c alloc none (s.writeAt c .tryCmpxchg)
  | busy : (s.writes c).pc = .tryRead → s.outputLock ≠ 0 → WriteMove s c alloc none (s.writeAt c .waitTest)
  | locks : (s.writes c).pc = .tryCmpxchg → s.outputLock = 0 → WriteMove s c alloc none
      ({ s with outputLock := qLockedVal, writeOrder := s.writeOrder ++ [c] }.writeAt c .inLen)
  | misses : (s.writes c).pc = .tryCmpxchg → s.outputLock ≠ 0 → WriteMove s c alloc none (s.writeAt c .waitTest)
  | inLen : (s.writes c).pc = .inLen → WriteMove s c alloc none
      (s.writeAt c (.copyIn (s.outbuffer.inLen (UInt32.ofNat (s.writes c).user.length))))
  | copyIn {len : UInt32} : (s.writes c).pc = .copyIn len → WriteMove s c alloc none
      ({ s with outbuffer := s.outbuffer.kfifoCopyIn (s.writes c).buffer len s.outbuffer.inIdx }.writeAt c
        (.publish len))
  | publish {len : UInt32} : (s.writes c).pc = .publish len → WriteMove s c alloc none
      ({ s with outbuffer := s.outbuffer.publishIn len }.writeAt c (.unlock len))
  | unlock {copied : UInt32} : (s.writes c).pc = .unlock copied → WriteMove s c alloc none
      ({ s with outputLock := storeLowByte s.outputLock }.writeAt c (.disable copied))
  | disable {copied : UInt32} : (s.writes c).pc = .disable copied →
    WriteMove s c alloc (some (.outb 0x00 regIer)) (s.writeAt c (.enable copied))
  | enable {copied : UInt32} : (s.writes c).pc = .enable copied →
    WriteMove s c alloc (some (.outb 0x03 regIer)) (s.writeAt c (.done copied.toInt32))

theorem writeStep_move {s s' : State C} {c : C} {alloc : Bool} (hs : writeStep s c alloc = some s') :
    WriteMove s c alloc (access s (.write c alloc)) s' := by
  unfold writeStep at hs
  dsimp only [access]
  cases hpc : (s.writes c).pc with
  | idle | done =>
    rw [hpc] at hs
    cases hs
  | kmalloc =>
    rw [hpc] at hs
    cases alloc with
    | true =>
      cases hs
      exact .kmalloc hpc rfl
    | false =>
      cases hs
      exact .noMemory hpc rfl
  | waitTest =>
    rw [hpc] at hs
    cases hfull : s.outbuffer.kfifoIsFull with
    | true =>
      simp only [hfull] at hs
      cases hs
      exact .full hpc hfull
    | false =>
      simp only [hfull] at hs
      cases hs
      exact .ready hpc hfull
  | waitPoll =>
    rw [hpc] at hs
    cases hlocked : s.writeLocked with
    | true =>
      simp only [hlocked] at hs
      cases hs
      exact .polls hpc hlocked
    | false =>
      simp only [hlocked] at hs
      cases hs
      exact .woken hpc hlocked
  | tryRead =>
    rw [hpc] at hs
    by_cases hfree : s.outputLock = 0
    · simp only [if_pos hfree] at hs
      cases hs
      exact .free hpc hfree
    · simp only [if_neg hfree] at hs
      cases hs
      exact .busy hpc hfree
  | tryCmpxchg =>
    rw [hpc] at hs
    by_cases hfree : s.outputLock = 0
    · simp only [atomicCmpxchg, if_pos hfree] at hs
      cases hs
      exact .locks hpc hfree
    · simp only [atomicCmpxchg, if_neg hfree] at hs
      cases hs
      exact .misses hpc hfree
  | copyFromUser | waitSet | inLen | copyIn | publish | unlock | disable | enable =>
    rw [hpc] at hs
    cases hs
    constructor
    exact hpc

/-- What is recorded when a byte is about to be put. -/
def State.put (s : State C) (byte : UInt8) : Put := { run := s.runs, byte, held := s.inbuffer.content.length }

/-- What a step of the handler does, by where it is, with the port access it
makes. -/
inductive HandlerMove (s : State C) (v : UInt8) : Option Access → State C → Prop
  | txIsr : s.handler = .txIsr → HandlerMove s v (some (.inb regIsr v)) (s.handlerAt .txLsr)
  | txLsr : s.handler = .txLsr → HandlerMove s v (some (.inb regLsr v)) (s.handlerAt (txLoop v))
  | getEmpty {status : UInt8} : s.handler = .getTest status → s.outbuffer.kfifoIsEmpty = true →
    HandlerMove s v none (s.handlerAt (rxLoop status))
  | getSome {status : UInt8} : s.handler = .getTest status → s.outbuffer.kfifoIsEmpty = false →
    HandlerMove s v none (s.handlerAt .getLoad)
  | getLoad : s.handler = .getLoad → HandlerMove s v none (s.handlerAt (.getPublish s.outbuffer.loadByte))
  | getPublish {byte : UInt8} : s.handler = .getPublish byte →
    HandlerMove s v none ({ s with outbuffer := s.outbuffer.publishOut 1 }.handlerAt (.thrWrite byte))
  | thrWrite {byte : UInt8} : s.handler = .thrWrite byte →
    HandlerMove s v (some (.outb byte regThr)) ({ s with thr := s.thr ++ [byte] }.handlerAt .txIsr)
  | rbrRead : s.handler = .rbrRead →
    HandlerMove s v (some (.inb regRbr v)) ({ s with rbr := s.rbr ++ [v] }.handlerAt (.putTest v))
  | putFull {byte : UInt8} : s.handler = .putTest byte → s.inbuffer.kfifoIsFull = true →
    HandlerMove s v none ({ s with puts := s.puts ++ [s.put byte] }.handlerAt .wakeRead)
  | putRoom {byte : UInt8} : s.handler = .putTest byte → s.inbuffer.kfifoIsFull = false →
    HandlerMove s v none ({ s with puts := s.puts ++ [s.put byte] }.handlerAt (.putStore byte))
  | putStore {byte : UInt8} : s.handler = .putStore byte →
    HandlerMove s v none ({ s with inbuffer := s.inbuffer.storeByte byte }.handlerAt (.putPublish byte))
  | putPublish {byte : UInt8} : s.handler = .putPublish byte →
    HandlerMove s v none ({ s with inbuffer := s.inbuffer.publishIn 1 }.handlerAt .rxIsr)
  | rxIsr : s.handler = .rxIsr → HandlerMove s v (some (.inb regIsr v)) (s.handlerAt .rxLsr)
  | rxLsr : s.handler = .rxLsr → HandlerMove s v (some (.inb regLsr v)) (s.handlerAt (rxLoop v))
  | wakeRead : s.handler = .wakeRead → HandlerMove s v none ({ s with readLocked := false }.handlerAt .wakeWrite)
  | wakeWrite : s.handler = .wakeWrite → HandlerMove s v none ({ s with writeLocked := false }.handlerAt .idle)

omit [DecidableEq C] in
theorem handlerStep_move {s s' : State C} {v : UInt8} (hs : handlerStep s v = some s') :
    HandlerMove s v (access s (.handler v)) s' := by
  unfold handlerStep at hs
  unfold access
  cases hpc : s.handler with
  | idle =>
    rw [hpc] at hs
    cases hs
  | getTest status =>
    rw [hpc] at hs
    cases hempty : s.outbuffer.kfifoIsEmpty with
    | true =>
      simp only [hempty, if_true] at hs
      cases hs
      exact .getEmpty hpc hempty
    | false =>
      simp only [hempty, Bool.false_eq_true, if_false] at hs
      cases hs
      exact .getSome hpc hempty
  | putTest byte =>
    rw [hpc] at hs
    cases hfull : s.inbuffer.kfifoIsFull with
    | true =>
      simp only [hfull, if_true] at hs
      cases hs
      exact .putFull hpc hfull
    | false =>
      simp only [hfull, Bool.false_eq_true, if_false] at hs
      cases hs
      exact .putRoom hpc hfull
  | txIsr | txLsr | getLoad | getPublish | thrWrite | rbrRead | putStore | putPublish | rxIsr | rxLsr | wakeRead
  | wakeWrite =>
    rw [hpc] at hs
    cases hs
    constructor
    exact hpc

/-- The device as `init_struct` leaves it, with no call made on it yet.
The flags are those of a static `com_dev`. -/
def init (C : Type) : State C where
  inbuffer := .initKfifo fifoSize 1 fun _ => 0
  outbuffer := .initKfifo fifoSize 1 fun _ => 0
  inputLock := 0
  outputLock := 0
  readLocked := false
  writeLocked := false
  thr := []
  rbr := []
  puts := []
  runs := 0
  readOrder := []
  writeOrder := []
  reads := fun _ => { size := 0, pc := .idle }
  writes := fun _ => { user := [], buffer := [], pc := .idle }
  handler := .idle

/-- The calls `C` and the handler on one device. -/
def system (C : Type) [DecidableEq C] : System (State C) (Act C) where
  init := init C
  step := step

end Steps

end Lmsel4.ComDev
