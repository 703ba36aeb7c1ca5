/-
The device with its UART, and output that waits for no interrupt.

The transmit interrupt (THRE) is an event: it becomes pending when the
transmitter runs empty, or when it is enabled while the transmitter is
empty, and the read of ISR that reports it clears it. The handler reads ISR
in both of its loops and only the first looks at `outbuffer`, so a THRE that
the second loop's read clears is gone for what `outbuffer` holds by then.
Where that does not happen, whatever is queued while the transmitter is
empty has a THRE pending, a transmit loop to come, or a write call about to
toggle IER (`SendInv`).
-/
import Lmsel4.Transmit
import Mathlib.Data.Fintype.Basic

namespace Lmsel4

open ComDev (Access deviceCanSend deviceHasData)

/-! ## The UART -/

/-- `rx` are the received bytes not read yet, `thre` says that the transmit
source is pending. -/
structure Uart where
  rx : List UInt8
  txEmpty : Bool
  ier : UInt8
  thre : Bool

namespace Uart

def rdaEnabled (ier : UInt8) : Bool := ier &&& 0x01 != 0
def threEnabled (ier : UInt8) : Bool := ier &&& 0x02 != 0

@[simp] theorem threEnabled_off : threEnabled 0x00 = false := by decide
@[simp] theorem threEnabled_on : threEnabled 0x03 = true := by decide

/-- The receive source is pending. -/
def rda (u : Uart) : Bool := !u.rx.isEmpty && rdaEnabled u.ier

/-- Some source is pending. -/
def pending (u : Uart) : Bool := u.rda || u.thre

/-- The UART after an access, if it can answer it like that. -/
def access (u : Uart) : Access → Option Uart
  -- ISR, LSR and RBR, then THR and IER.
  | .inb 0x02 _ => some (if u.rda then u else { u with thre := false })
  | .inb 0x05 v => if deviceCanSend v = u.txEmpty ∧ deviceHasData v = !u.rx.isEmpty then some u else none
  | .inb 0x00 v =>
    match u.rx with
    | [] => some u
    | b :: rx => if v = b then some { u with rx } else none
  | .outb _ 0x00 => some { u with txEmpty := false, thre := false }
  | .outb v 0x01 =>
    let raised := u.txEmpty && !threEnabled u.ier && threEnabled v
    some { u with ier := v, thre := u.thre || raised }
  | _ => some u

/-- What happens on the line. -/
inductive Event
  | received (b : UInt8)
  | transmitted
  deriving DecidableEq

def event (u : Uart) : Event → Option Uart
  | .received b => some { u with rx := u.rx ++ [b] }
  | .transmitted =>
    if u.txEmpty then none else some { u with txEmpty := true, thre := u.thre || threEnabled u.ier }

/-- The UART as `uart16550_hw_setup_device` leaves it: enabling the
interrupts has made the transmit source pending. -/
def setup : Uart := { rx := [], txEmpty := true, ier := 0x03, thre := true }

end Uart

namespace ComDev

open Uart (threEnabled)

variable {C : Type} [DecidableEq C]

/-- The handler is entered for a pending source; a port access is one of
the UART. -/
def answered (s : State C) (a : Act C) (u : Uart) : Option Uart :=
  match a, access s a with
  | .irq, _ => if u.pending then some u else none
  | _, some x => u.access x
  | _, none => some u

/-- The device with its UART. -/
def onUart (C : Type) [DecidableEq C] : System (State C × Uart) (Act C ⊕ Uart.Event) :=
  (system C).within Uart.setup answered Uart.event

/-- Output is queued, the transmitter is empty, and nothing in progress or
pending will send it. -/
def Stranded (x : State C × Uart) : Prop :=
  x.1.handler = .idle ∧ (∀ c, (x.1.writes c).pc = .idle ∨ ∃ ret, (x.1.writes c).pc = .done ret) ∧
    x.2.pending = false ∧ x.2.txEmpty = true ∧ x.1.outbuffer.kfifoIsEmpty = false

/-- The call has taken `output_lock` and has both its writes to IER ahead. -/
def WritePc.toggles : WritePc → Bool
  | .inLen | .copyIn _ | .publish _ | .unlock _ | .disable _ => true
  | _ => false

/-- The call has disabled the interrupts and not yet enabled them. -/
def WritePc.enables : WritePc → Bool
  | .enable _ => true
  | _ => false

/-- The handler is in its transmit loop. -/
def HandlerPc.sending : HandlerPc → Bool
  | .txIsr | .txLsr | .getTest _ | .getLoad | .getPublish _ | .thrWrite _ => true
  | _ => false

/-- The read of ISR in the receive loop clears a pending THRE only while
`outbuffer` is empty or a write call will raise it again. -/
def KeepsThre (x : State C × Uart) : Act C ⊕ Uart.Event → Prop
  | .inl (.handler _) => x.1.handler = .rxIsr ∧ x.2.thre = true ∧ x.2.rda = false →
    x.1.outbuffer.kfifoIsEmpty = true ∨ (∃ c, (x.1.writes c).pc.toggles = true) ∨ threEnabled x.2.ier = false
  | _ => True

instance [Fintype C] (x : State C × Uart) : ∀ a, Decidable (KeepsThre x a)
  | .inl (.handler _) => inferInstanceAs (Decidable (_ ∧ _ ∧ _ → _ ∨ (∃ _, _) ∨ _))
  | .inl (.callRead _ _) | .inl (.callWrite _ _) | .inl (.read _ _) | .inl (.write _ _) | .inl .irq
  | .inr _ => .isTrue trivial

structure SendInv (x : State C × Uart) : Prop where
  masked : threEnabled x.2.ier = false → ∃ c, (x.1.writes c).pc.enables = true
  promised : x.1.outbuffer.kfifoIsEmpty = false → x.2.txEmpty = true →
    x.2.thre = true ∨ x.1.handler.sending = true ∨ (∃ c, (x.1.writes c).pc.toggles = true) ∨
      threEnabled x.2.ier = false

/-! ## Steps of a call -/

section Calls

variable {s s' : State C} {u u' : Uart} {c : C} {w : WriteCall} {alloc : Bool}

theorem exists_update {Q : WriteCall → Prop} {writes : C → WriteCall} (h : ∃ d, Q (writes d))
    (hc : Q (writes c) → Q w) : ∃ d, Q (Function.update writes c w d) := by
  obtain ⟨d, hd⟩ := h
  by_cases hdc : d = c
  · exact ⟨c, by rw [Function.update_self]; exact hc (hdc ▸ hd)⟩
  · exact ⟨d, by rwa [Function.update_of_ne hdc]⟩

/-- A step of a call that accesses no port and queues nothing. -/
theorem SendInv.moves (h : SendInv (s, u)) (hw : s'.writes = Function.update s.writes c w)
    (ht : (s.writes c).pc.toggles = true → w.pc.toggles = true)
    (he : (s.writes c).pc.enables = true → w.pc.enables = true) (hh : s'.handler = s.handler)
    (ho : s'.outbuffer.kfifoIsEmpty = s.outbuffer.kfifoIsEmpty) : SendInv (s', u) where
  masked hm := by
    rw [hw]
    exact exists_update (Q := fun w => w.pc.enables = true) (h.masked hm) he
  promised hne hempty := by
    simp only [hh, ho, hw] at hne ⊢
    rcases h.promised hne hempty with hp | hp | hp | hp
    · exact .inl hp
    · exact .inr (.inl hp)
    · exact .inr (.inr (.inl (exists_update (Q := fun w => w.pc.toggles = true) hp ht)))
    · exact .inr (.inr (.inr hp))

theorem writeStep_sendInv (h : SendInv (s, u)) (hs : writeStep s c alloc = some s')
    (hu : answered s (.write c alloc) u = some u') : SendInv (s', u') := by
  have hmove := writeStep_move hs
  unfold answered at hu
  generalize access s (.write c alloc) = x at hmove hu
  cases hmove with
  | publish hpc =>
    cases hu
    refine ⟨fun hm => ?_, fun _ _ => .inr (.inr (.inl ⟨c, by simp [State.writeAt, WritePc.toggles]⟩))⟩
    exact exists_update (Q := fun w => w.pc.enables = true) (h.masked hm) (by rw [hpc]; intro he; cases he)
  | disable hpc =>
    simp only [regIer, Uart.access] at hu
    cases hu
    exact ⟨fun _ => ⟨c, by simp [State.writeAt, WritePc.enables]⟩, fun _ _ => .inr (.inr (.inr Uart.threEnabled_off))⟩
  | enable hpc =>
    simp only [regIer, Uart.access] at hu
    cases hu
    refine ⟨(fun hm => by simp at hm), fun hne hempty => ?_⟩
    rcases h.promised hne hempty with hp | hp | hp | hp
    · exact .inl (by rw [Bool.or_eq_true]; exact .inl hp)
    · exact .inr (.inl hp)
    · exact .inr (.inr (.inl (exists_update (Q := fun w => w.pc.toggles = true) hp
        (by rw [hpc]; intro ht; cases ht))))
    · -- The edge of IER with the transmitter empty.
      refine .inl ?_
      simp only at hempty hp
      simp [hempty, hp]
  | kmalloc hpc | noMemory hpc | copyFromUser hpc | ready hpc | full hpc | waitSet hpc | polls hpc | woken hpc
  | free hpc | busy hpc | locks hpc | misses hpc =>
    cases hu
    exact h.moves rfl (by rw [hpc]; intro ht; cases ht) (by rw [hpc]; intro he; cases he) rfl rfl
  | inLen hpc | copyIn hpc | unlock hpc =>
    cases hu
    exact h.moves rfl (fun _ => rfl) (by rw [hpc]; intro he; cases he) rfl rfl

end Calls

/-! ## Steps of the handler -/

section Handler

variable {s s' : State C} {u u' : Uart} {v : UInt8}

omit [DecidableEq C] in
/-- A step of the handler into its transmit loop, or outside it. -/
theorem SendInv.handles (h : SendInv (s, u)) (hw : s'.writes = s.writes) (hier : u'.ier = u.ier)
    (hp : s'.outbuffer.kfifoIsEmpty = false → u'.txEmpty = true → s'.handler.sending = true ∨
      s.outbuffer.kfifoIsEmpty = false ∧ u.txEmpty = true ∧ s.handler.sending = false ∧ u'.thre = u.thre) :
    SendInv (s', u') where
  masked hm := by
    simp only [hw, hier] at hm ⊢
    exact h.masked hm
  promised hne hempty := by
    rcases hp hne hempty with hp | ⟨hne, hempty, hout, hthre⟩
    · exact .inr (.inl hp)
    · simp only [hw, hier, hthre]
      rcases h.promised hne hempty with hp | hp | hp
      · exact .inl hp
      · rw [hout] at hp
        cases hp
      · exact .inr (.inr hp)

omit [DecidableEq C] in
theorem rxIsr_sendInv (h : SendInv (s, u)) (hpc : s.handler = .rxIsr)
    (hok : KeepsThre (s, u) (.inl (.handler v))) :
    SendInv (s.handlerAt .rxLsr, if u.rda then u else { u with thre := false }) := by
  by_cases hrda : u.rda = true
  · rw [if_pos hrda]
    exact h.handles rfl rfl fun hne hempty => .inr ⟨hne, hempty, by rw [hpc]; rfl, rfl⟩
  · rw [if_neg hrda]
    refine ⟨h.masked, fun hne hempty => ?_⟩
    rcases h.promised hne hempty with hp | hp | hp
    · -- The read clears a pending THRE.
      rcases hok ⟨hpc, hp, by simpa using hrda⟩ with hk | hk
      · exact absurd hk (by simp only [Bool.not_eq_true]; exact hne)
      · exact .inr (.inr hk)
    · simp only [hpc] at hp
      cases hp
    · exact .inr (.inr hp)

omit [DecidableEq C] in
theorem handlerStep_sendInv (h : SendInv (s, u)) (hok : KeepsThre (s, u) (.inl (.handler v)))
    (hs : handlerStep s v = some s') (hu : answered s (.handler v) u = some u') : SendInv (s', u') := by
  have hmove := handlerStep_move hs
  unfold answered at hu
  generalize access s (.handler v) = x at hmove hu
  cases hmove with
  | txIsr =>
    simp only [regIsr, Uart.access] at hu
    cases hu
    exact h.handles rfl (by split <;> rfl) fun _ _ => .inl rfl
  | txLsr =>
    simp only [regLsr, Uart.access] at hu
    split at hu
    · next hv =>
      cases hu
      refine h.handles rfl rfl fun _ hempty => .inl ?_
      simp only [State.handlerAt, txLoop, hv.1, hempty]
      rfl
    · cases hu
  | getEmpty hpc hempty =>
    cases hu
    refine h.handles rfl rfl fun hne _ => ?_
    have hne : s.outbuffer.kfifoIsEmpty = false := hne
    rw [hempty] at hne
    cases hne
  | getSome | getLoad | getPublish =>
    cases hu
    exact h.handles rfl rfl fun _ _ => .inl rfl
  | thrWrite =>
    simp only [regThr, Uart.access] at hu
    cases hu
    exact h.handles rfl rfl fun _ _ => .inl rfl
  | rbrRead hpc =>
    simp only [regRbr, Uart.access] at hu
    split at hu
    · cases hu
      exact h.handles rfl rfl fun hne hempty => .inr ⟨hne, hempty, by rw [hpc]; rfl, rfl⟩
    · split at hu <;> cases hu
      exact h.handles rfl rfl fun hne hempty => .inr ⟨hne, hempty, by rw [hpc]; rfl, rfl⟩
  | rxIsr hpc =>
    simp only [regIsr, Uart.access] at hu
    cases hu
    exact rxIsr_sendInv h hpc hok
  | rxLsr hpc =>
    simp only [regLsr, Uart.access] at hu
    split at hu <;> cases hu
    exact h.handles rfl rfl fun hne hempty => .inr ⟨hne, hempty, by rw [hpc]; rfl, rfl⟩
  | putFull hpc | putRoom hpc | putStore hpc | putPublish hpc | wakeRead hpc | wakeWrite hpc =>
    cases hu
    exact h.handles rfl rfl fun hne hempty => .inr ⟨hne, hempty, by rw [hpc]; rfl, rfl⟩

end Handler

/-! ## Every run -/

theorem step_sendInv {s s' : State C} {u u' : Uart} {a : Act C} (h : SendInv (s, u))
    (hok : KeepsThre (s, u) (.inl a)) (hs : step s a = some s') (hu : answered s a u = some u') :
    SendInv (s', u') := by
  cases a with
  | callRead c size =>
    simp only [step] at hs
    split at hs <;> cases hs
    cases hu
    exact ⟨h.masked, h.promised⟩
  | callWrite c user =>
    simp only [step] at hs
    split at hs <;> cases hs
    cases hu
    next hpc => exact h.moves rfl (by rw [hpc]; intro ht; cases ht) (by rw [hpc]; intro he; cases he) rfl rfl
  | read c alloc =>
    have htx := readStep_tx hs
    simp only [State.tx, Tx.mk.injEq] at htx
    obtain ⟨hout, -, hwrites, hhandler, -, -⟩ := htx
    cases hu
    exact ⟨by simpa only [hwrites] using h.masked, by simpa only [hout, hwrites, hhandler] using h.promised⟩
  | write c alloc => exact writeStep_sendInv h hs hu
  | irq =>
    simp only [step] at hs
    split at hs <;> cases hs
    simp only [answered] at hu
    split at hu <;> cases hu
    exact h.handles rfl rfl fun _ _ => .inl rfl
  | handler v => exact handlerStep_sendInv h hok hs hu

omit [DecidableEq C] in
theorem event_sendInv {s : State C} {u u' : Uart} {e : Uart.Event} (h : SendInv (s, u))
    (he : u.event e = some u') : SendInv (s, u') := by
  cases e with
  | received b =>
    cases he
    exact ⟨h.masked, h.promised⟩
  | transmitted =>
    simp only [Uart.event] at he
    split at he <;> cases he
    refine ⟨h.masked, fun _ _ => ?_⟩
    by_cases hier : threEnabled u.ier = true
    · exact .inl (by rw [Bool.or_eq_true]; exact .inr hier)
    · exact .inr (.inr (.inr (by simpa using hier)))

/-- **No stranded output.** Where the receive loop clears no THRE that
queued output waits for, output is never queued with the transmitter empty
and nothing in progress or pending. -/
theorem not_stranded {x : State C × Uart} (h : (onUart C).ReachableBy KeepsThre x) : ¬ Stranded x := by
  have hinv : SendInv x := by
    refine h.invariant (I := SendInv) ⟨by simp [onUart, System.within, Uart.setup], fun _ _ => .inl rfl⟩ ?_
    rintro ⟨s, u⟩ a ⟨s', u'⟩ hinv hok hs
    cases a with
    | inl a =>
      obtain ⟨hs, hu⟩ := System.within_inl.mp hs
      exact step_sendInv hinv hok hs hu
    | inr e =>
      obtain ⟨rfl, hu⟩ := System.within_inr.mp hs
      exact event_sendInv hinv hu
  rintro ⟨hidle, hwrites, hpend, hempty, hne⟩
  have hnone : ∀ {Q : WritePc → Bool}, Q .idle = false → (∀ ret, Q (.done ret) = false) →
      ¬ ∃ c, Q (x.1.writes c).pc = true := by
    rintro Q h₀ h₁ ⟨c, hc⟩
    rcases hwrites c with hpc | ⟨ret, hpc⟩
    · rw [hpc, h₀] at hc
      cases hc
    · rw [hpc, h₁] at hc
      cases hc
  rcases hinv.promised hne hempty with hp | hp | hp | hp
  · simp [Uart.pending, hp] at hpend
  · rw [hidle] at hp
    cases hp
  · exact hnone (Q := WritePc.toggles) rfl (fun _ => rfl) hp
  · exact hnone (Q := WritePc.enables) rfl (fun _ => rfl) (hinv.masked hp)

/-- A byte is written, sent by the handler, and a byte is received in the
same run, before the transmitter is empty again. -/
def sendThenReceive : List (Act Unit ⊕ Uart.Event) :=
  .inl (.callWrite () [7]) :: List.replicate 11 (.inl (.write () true)) ++
  .inl .irq :: [0, 0x20, 0, 0, 0, 0, 0].map (fun v => .inl (.handler v)) ++
  .inr (.received 5) :: [1, 5, 0, 0, 0, 0, 0, 0, 0].map (fun v => .inl (.handler v)) ++
  [.inr .transmitted]

theorem not_stranded_sendThenReceive : ∃ x,
    (onUart Unit).exec (init Unit, Uart.setup) sendThenReceive = some x ∧
    x.1.thr = [7] ∧ x.1.rbr = [5] ∧ x.1.handler = .idle ∧ ¬ Stranded x := by
  have hok : (onUart Unit).Steps KeepsThre (init Unit, Uart.setup) sendThenReceive := by decide +kernel
  have hrun : ((onUart Unit).exec (init Unit, Uart.setup) sendThenReceive).map
      (fun x => (x.1.thr, x.1.rbr, x.1.handler)) = some ([7], [5], .idle) := by
    decide +kernel
  obtain ⟨x, hx, hview⟩ := Option.map_eq_some_iff.mp hrun
  simp only [Prod.mk.injEq] at hview
  obtain ⟨hthr, hrbr, hidle⟩ := hview
  exact ⟨x, hx, hthr, hrbr, hidle, not_stranded (System.ReachableBy.steps .init sendThenReceive hok hx)⟩

/-- A second byte is written while the handler, having sent the first, is
in its receive loop; the transmitter runs empty before the loop's read of
ISR. -/
def writeDuringReceive : List (Act Bool ⊕ Uart.Event) :=
  .inl (.callWrite true [7]) :: List.replicate 11 (.inl (.write true true)) ++
  .inl .irq :: [0, 0x20, 0, 0, 0, 0, 0].map (fun v => .inl (.handler v)) ++
  .inr (.received 5) :: [1, 5, 0, 0, 0].map (fun v => .inl (.handler v)) ++
  .inl (.callWrite false [8]) :: List.replicate 11 (.inl (.write false true)) ++
  .inr .transmitted :: [0, 0x20, 0, 0].map (fun v => .inl (.handler v))

/-- The receive loop's read of ISR takes the THRE that the second byte
needed. -/
theorem stranded_of_write_during_receive : ∃ x,
    (onUart Bool).exec (init Bool, Uart.setup) writeDuringReceive = some x ∧
    x.1.outbuffer.content = [8] ∧ Stranded x := by
  have hrun : ((onUart Bool).exec (init Bool, Uart.setup) writeDuringReceive).map
      (fun x => ((x.1.handler, x.1.outbuffer.content, x.1.outbuffer.kfifoIsEmpty),
        ((x.1.writes true).pc, (x.1.writes false).pc), x.2.pending, x.2.txEmpty)) =
      some ((.idle, [8], false), (.done 1, .done 1), false, true) := by
    decide +kernel
  obtain ⟨x, hx, hview⟩ := Option.map_eq_some_iff.mp hrun
  simp only [Prod.mk.injEq] at hview
  obtain ⟨⟨hidle, hcontent, hqueued⟩, ⟨htrue, hfalse⟩, hpending, hempty⟩ := hview
  refine ⟨x, hx, hcontent, hidle, fun c => .inr ⟨1, ?_⟩, hpending, hempty, hqueued⟩
  cases c with
  | true => exact htrue
  | false => exact hfalse

end ComDev

end Lmsel4
