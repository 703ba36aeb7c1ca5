/-
How much `interrupt_handler` has to do, whatever the calls and the UART do
meanwhile.

Its two loops end when a buffer is empty or full, but calls fill and empty
the buffers while it runs, and what the ports return may never end it. Each
turn of a loop moves a byte, though, and bytes come from the calls or go to
them: seven steps for each interrupt and six for each byte are all there can
be (`handler_work`).
-/
import Lmsel4.Receive
import Lmsel4.Transmit

namespace Lmsel4.HandlerWork

open ComDev

/-- The steps that are paid for where the handler is: up to the end of the
run if no further byte is moved. -/
def todo : HandlerPc → Nat
  | .idle => 0
  | .txIsr => 7
  | .txLsr => 6
  | .getTest _ => 5
  | .getLoad => 4
  | .getPublish _ => 3
  | .thrWrite _ => 2
  | .rbrRead => 4
  | .putTest _ => 3
  | .putStore _ => 8
  | .putPublish _ => 7
  | .rxIsr => 6
  | .rxLsr => 5
  | .wakeRead => 2
  | .wakeWrite => 1

theorem todo_rxLoop (status : UInt8) : todo (rxLoop status) ≤ 4 :=
  rxLoop_elim (P := fun pc => todo pc ≤ 4) (by decide) (by decide) status

theorem todo_txLoop (status : UInt8) : todo (txLoop status) ≤ 5 :=
  txLoop_elim (P := fun pc => todo pc ≤ 5) (fun _ => Nat.le_refl 5) (by decide) (by decide) status

section Balance

variable {C : Type}

/-- The bytes that found room in `inbuffer`. -/
def kept (s : State C) : List Put := s.puts.filter (!·.deleted)

/-- What the interrupts and the bytes so far are worth, less what is still
to be done with it. -/
def balance (s : State C) : Int := 7 * s.runs + 6 * s.thr.length + 6 * (kept s).length - todo s.handler

/-- The steps that are counted. -/
def isHandler : Act C → Bool
  | .handler _ => true
  | _ => false

variable {s s' : State C}

/-- Going on in the handler. -/
theorem balance_handlerAt {pc : HandlerPc} (h : todo pc + 1 ≤ todo s.handler) :
    balance s + 1 ≤ balance (s.handlerAt pc) := by
  simp only [balance, State.handlerAt, kept]
  omega

theorem handlerStep_balance {v : UInt8} (h : RxInv s.rx) (hs : handlerStep s v = some s') :
    balance s + 1 ≤ balance s' := by
  have hdeleted : ∀ byte, (s.put byte).deleted = s.inbuffer.kfifoIsFull := fun byte => (h.isFull_eq s.runs byte).symm
  have hmove := handlerStep_move hs
  generalize access s (.handler v) = x at hmove
  cases hmove with
  | txIsr hpc | getSome hpc | getLoad hpc | rxIsr hpc =>
    refine balance_handlerAt ?_
    rw [hpc]
    exact Nat.le_refl _
  | txLsr hpc =>
    refine balance_handlerAt ?_
    rw [hpc]
    exact Nat.succ_le_succ (todo_txLoop v)
  | getEmpty hpc =>
    refine balance_handlerAt ?_
    rw [hpc]
    exact Nat.succ_le_succ (todo_rxLoop _)
  | rxLsr hpc =>
    refine balance_handlerAt ?_
    rw [hpc]
    exact Nat.succ_le_succ (todo_rxLoop v)
  | getPublish hpc | putStore hpc | putPublish hpc | wakeRead hpc | wakeWrite hpc | rbrRead hpc =>
    simp only [balance, State.handlerAt, kept, hpc, todo]
    omega
  | thrWrite hpc =>
    -- A byte is worth the six steps up to the next.
    simp only [balance, State.handlerAt, kept, hpc, todo, List.length_append, List.length_singleton]
    omega
  | putFull hpc hfull =>
    rw [hfull] at hdeleted
    simp only [balance, State.handlerAt, kept, hpc, todo, List.filter_append, List.filter_singleton, hdeleted,
      List.length_append, Bool.not_true, cond_false, List.length_nil]
    omega
  | putRoom hpc hroom =>
    rw [hroom] at hdeleted
    simp only [balance, State.handlerAt, kept, hpc, todo, List.filter_append, List.filter_singleton, hdeleted,
      List.length_append, Bool.not_false, cond_true, List.length_singleton]
    omega

theorem admitted_fits {f : Kfifo} {pc : HandlerPc} (hput : PutOk f pc) (hbounded : f.used ≤ f.size) :
    f.used + pc.admitted.length ≤ f.size := by
  cases pc with
  | putStore => exact hput
  | putPublish => exact hput.1
  | _ => exact hbounded

/-- The bytes that found room are those the readers took, those queued and
the one that is being put. -/
theorem kept_length (h : RxInv s.rx) :
    (kept s).length ≤ (s.readOrder.map fun c => (s.reads c).taken).flatten.length + fifoSize.toNat := by
  have hstream := congrArg List.length h.stream
  have hfits : s.inbuffer.used + s.handler.admitted.length ≤ s.inbuffer.size := admitted_fits h.put h.ok.bounded
  have hsize : s.inbuffer.size = fifoSize.toNat := h.size
  have hcontent : s.inbuffer.content.length = s.inbuffer.used := Kfifo.content_length_bytes h.esize
  simp only [State.rx, List.length_append, List.length_map, hcontent] at hstream
  rw [kept, ← hstream]
  omega

variable [DecidableEq C]

theorem step_balance (a : Act C) (h : RxInv s.rx) (hs : step s a = some s') :
    balance s + (isHandler a).toNat ≤ balance s' := by
  cases a with
  | callRead c size =>
    simp only [step] at hs
    split at hs <;> cases hs
    exact Int.le_of_eq (Int.add_zero _)
  | callWrite c user =>
    simp only [step] at hs
    split at hs <;> cases hs
    exact Int.le_of_eq (Int.add_zero _)
  | read c alloc =>
    obtain ⟨_, _, _, _, _, rfl, -⟩ := readStep_frame hs
    exact Int.le_of_eq (Int.add_zero _)
  | write c alloc =>
    obtain ⟨_, _, _, _, _, rfl, -⟩ := writeStep_frame hs
    exact Int.le_of_eq (Int.add_zero _)
  | irq =>
    simp only [step] at hs
    split at hs <;> cases hs
    next hidle =>
    simp only [balance, isHandler, Bool.toNat_false, State.handlerAt, kept, hidle, todo]
    omega
  | handler v => exact handlerStep_balance h hs

/-- **The handler's work.** In any run, whatever calls are made meanwhile
and whatever the ports return, the handler makes at most seven steps for
each interrupt, six for each byte that write calls have accepted, and six
for each byte that read calls have taken or `inbuffer` has room for. -/
theorem handler_work {as : List (Act C)} (h : (system C).exec (init C) as = some s) :
    as.countP isHandler ≤ 7 * s.runs + 6 * (s.writeOrder.map fun c => (s.writes c).accepted).flatten.length +
      6 * ((s.readOrder.map fun c => (s.reads c).taken).flatten.length + fifoSize.toNat) := by
  have hreach : (system C).Reachable s := System.Reachable.exec .init as h
  have hkept := kept_length (reachable_rxInv hreach)
  have hthr := congrArg List.length (reachable_txInv hreach).stream
  have hcount := System.exec_count (f := balance) (I := fun s => RxInv s.rx) (fun _ _ _ => step_rxInv)
    (fun _ a _ => step_balance a) init_rxInv h
  have hstart : balance (init C) = 0 := rfl
  rw [hstart, balance] at hcount
  simp only [State.tx, List.length_append] at hthr
  omega

end Balance

/-- A byte received and read in one interrupt, with the call made while the
handler is still in its loop. -/
def readInside : List (Act Unit) :=
  [.irq, .handler 0, .handler 1, .handler 61, .handler 0, .handler 0, .handler 0, .callRead () 1] ++
    List.replicate 9 (.read () true) ++ [.handler 0, .handler 1, .handler 62, .handler 0]

theorem handler_work_readInside : ∃ s : State Unit, (system Unit).exec (init Unit) readInside = some s ∧
    s.runs = 1 ∧ (s.reads ()).pc = .done 1 [61] ∧
    readInside.countP isHandler ≤ 7 * s.runs + 6 * (s.writeOrder.map fun c => (s.writes c).accepted).flatten.length +
      6 * ((s.readOrder.map fun c => (s.reads c).taken).flatten.length + fifoSize.toNat) :=
  ⟨_, rfl, rfl, rfl, handler_work (C := Unit) rfl⟩

end Lmsel4.HandlerWork
