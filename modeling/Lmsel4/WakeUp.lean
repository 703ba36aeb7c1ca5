/-
Wake-ups: `wait_event_interruptible` tests the condition, sets the flag of
the queue and polls it, in three steps; the handler changes the buffers and
then clears both flags.

A call that sets the flag after the handler has cleared it, for a change it
has not seen, polls a flag that no run of the handler is about to clear.
Where no flag is set like that, no wake-up is lost: a flag that is set while
its condition holds has a wake-up of its queue ahead (`WakeInv`).
-/
import Lmsel4.Transmit
import Lmsel4.Receive

namespace Lmsel4.ComDev

variable {C : Type} [DecidableEq C]

/-! ## The interrupt line -/

/-- A run of the handler is begun for a pending interrupt. -/
def served : State C → Act C → Bool → Option Bool
  | _, .irq, true => some false
  | _, .irq, false => none
  | _, _, pending => some pending

/-- The device with its interrupt line, which may be raised at any time. -/
def interrupted (C : Type) [DecidableEq C] : System (State C × Bool) (Act C ⊕ Unit) :=
  (system C).within false served fun _ _ => some true

/-- The run of the handler has its wake-up of the readers ahead. -/
def HandlerPc.wakesRead : HandlerPc → Bool
  | .idle | .wakeWrite => false
  | _ => true

/-- The run of the handler has its wake-up of the writers ahead. -/
def HandlerPc.wakesWrite : HandlerPc → Bool
  | .idle => false
  | _ => true

/-- Some call polls a set flag, what it waits for holds, and no run of the
handler is in progress or pending. -/
def LostWakeup (x : State C × Bool) : Prop :=
  (∃ c, (x.1.reads c).pc = .waitPoll ∧ x.1.readLocked = true ∧ x.1.inbuffer.kfifoIsEmpty = false ∨
    (x.1.writes c).pc = .waitPoll ∧ x.1.writeLocked = true ∧ x.1.outbuffer.kfifoIsFull = false) ∧
  x.1.handler = .idle ∧ x.2 = false

/-- A call sets the flag of its queue only while what it waits for does not
hold or a wake-up of the queue is ahead. -/
def SetsInTime (x : State C × Bool) : Act C ⊕ Unit → Prop
  | .inl (.read c _) => (x.1.reads c).pc = .waitSet →
    x.1.inbuffer.kfifoIsEmpty = true ∨ x.2 = true ∨ x.1.handler.wakesRead = true
  | .inl (.write c _) => (x.1.writes c).pc = .waitSet →
    x.1.outbuffer.kfifoIsFull = true ∨ x.2 = true ∨ x.1.handler.wakesWrite = true
  | _ => True

instance (x : State C × Bool) : ∀ a, Decidable (SetsInTime x a)
  | .inl (.read _ _) | .inl (.write _ _) => inferInstanceAs (Decidable (_ → _))
  | .inl (.callRead _ _) | .inl (.callWrite _ _) | .inl .irq | .inl (.handler _) | .inr _ => .isTrue trivial

/-- A set flag whose condition holds has a wake-up ahead. -/
structure WakeInv (x : State C × Bool) : Prop where
  read : x.1.readLocked = true → x.1.inbuffer.used ≠ 0 → x.2 = true ∨ x.1.handler.wakesRead = true
  write : x.1.writeLocked = true → x.1.outbuffer.used ≠ x.1.outbuffer.size →
    x.2 = true ∨ x.1.handler.wakesWrite = true

/-! ## What a step does to a flag and its condition -/

section Steps

variable {s s' : State C} {c : C} {alloc : Bool}

/-- Only `waitSet` sets the readers' flag, and a reader puts nothing in. -/
theorem readStep_wake (h : RxInv s.rx) (hs : readStep s c alloc = some s') :
    s'.handler = s.handler ∧ (s'.readLocked = true → s.readLocked = true ∨ (s.reads c).pc = .waitSet) ∧
      s'.inbuffer.used ≤ s.inbuffer.used ∧ s'.writeLocked = s.writeLocked ∧ s'.outbuffer = s.outbuffer := by
  cases readStep_move hs with
  | publish hpc =>
    have hcall : ReadOk s.inbuffer (s.reads c).pc := h.calls c
    rw [hpc] at hcall
    refine ⟨rfl, .inl, ?_, rfl, rfl⟩
    have := Kfifo.used_publishOut hcall.1
    simp only [State.readAt]
    omega
  | waitSet hpc => exact ⟨rfl, fun _ => .inr hpc, Nat.le_refl _, rfl, rfl⟩
  | kmalloc | noMemory | ready | empty | polls | woken | free | busy | locks | misses | outLen | copyOut | unlock
  | copyToUser => exact ⟨rfl, .inl, Nat.le_refl _, rfl, rfl⟩

/-- Only `waitSet` sets the writers' flag, and a writer takes nothing out. -/
theorem writeStep_wake (h : TxInv s.tx) (hs : writeStep s c alloc = some s') :
    s'.handler = s.handler ∧ (s'.writeLocked = true → s.writeLocked = true ∨ (s.writes c).pc = .waitSet) ∧
      (s.outbuffer.used = s.outbuffer.size → s'.outbuffer.used = s'.outbuffer.size) ∧
      s'.readLocked = s.readLocked ∧ s'.inbuffer = s.inbuffer := by
  have hmove := writeStep_move hs
  generalize access s (.write c alloc) = x at hmove
  cases hmove with
  | @publish len hpc =>
    have hcall : WriteOk s.outbuffer (s.writes c) := h.calls c
    have hok : s.outbuffer.Ok := h.ok
    simp only [WriteOk, hpc] at hcall
    refine ⟨rfl, .inl, fun hfull => ?_, rfl, rfl⟩
    have hused := hok.used_publishIn hcall.1
    have hsize : (s.outbuffer.publishIn len).size = s.outbuffer.size := rfl
    simp only [State.writeAt]
    omega
  | waitSet hpc => exact ⟨rfl, fun _ => .inr hpc, id, rfl, rfl⟩
  | kmalloc | noMemory | copyFromUser | ready | full | polls | woken | free | busy | locks | misses | inLen | copyIn
  | unlock | disable | enable => exact ⟨rfl, .inl, id, rfl, rfl⟩

theorem rxLoop_wakesRead (status : UInt8) : (rxLoop status).wakesRead = true :=
  rxLoop_elim (P := fun p => p.wakesRead = true) rfl rfl status

theorem txLoop_wakesRead (status : UInt8) : (txLoop status).wakesRead = true :=
  txLoop_elim (P := fun p => p.wakesRead = true) (fun _ => rfl) rfl rfl status

theorem HandlerPc.wakesWrite_of_wakesRead {p : HandlerPc} (h : p.wakesRead = true) : p.wakesWrite = true := by
  cases p <;> first | rfl | cases h

omit [DecidableEq C] in
/-- A step of the handler leaves a wake-up ahead, or is it. The last one
leaves the readers' queue as it was. -/
theorem handlerStep_wake {v : UInt8} (hs : handlerStep s v = some s') :
    s'.handler.wakesRead = true ∨
      s'.handler.wakesWrite = true ∧ s'.readLocked = false ∨
      s'.writeLocked = false ∧ s.handler.wakesRead = false ∧ s'.readLocked = s.readLocked ∧
        s'.inbuffer = s.inbuffer := by
  have hmove := handlerStep_move hs
  generalize access s (.handler v) = x at hmove
  cases hmove with
  | wakeRead => exact .inr (.inl ⟨rfl, rfl⟩)
  | wakeWrite hpc => exact .inr (.inr ⟨rfl, by rw [hpc]; rfl, rfl, rfl⟩)
  | txLsr => exact .inl (txLoop_wakesRead v)
  | rxLsr => exact .inl (rxLoop_wakesRead v)
  | @getEmpty status => exact .inl (rxLoop_wakesRead status)
  | txIsr | getSome | getLoad | getPublish | thrWrite | rbrRead | putFull | putRoom | putStore | putPublish
  | rxIsr => exact .inl rfl

/-! ## Every run -/

theorem step_wakeInv {a : Act C} {p p' : Bool} (hrx : RxInv s.rx) (htx : TxInv s.tx) (h : WakeInv (s, p))
    (hok : SetsInTime (s, p) (.inl a)) (hs : step s a = some s') (hp : served s a p = some p') :
    WakeInv (s', p') := by
  obtain ⟨hread, hwrite⟩ := h
  cases a with
  | callRead c size | callWrite c user =>
    simp only [step] at hs
    split at hs <;> cases hs
    cases hp
    exact ⟨hread, hwrite⟩
  | irq =>
    simp only [step] at hs
    split at hs <;> cases hs
    exact ⟨fun _ _ => .inr rfl, fun _ _ => .inr rfl⟩
  | read c alloc =>
    cases hp
    obtain ⟨hh, hlock, hused, hlock', hout⟩ := readStep_wake hrx hs
    refine ⟨fun hl hne => ?_, by simpa only [hh, hlock', hout] using hwrite⟩
    have hne : s.inbuffer.used ≠ 0 := by
      simp only at hne
      omega
    simp only [hh]
    rcases hlock hl with hl | hset
    · exact hread hl hne
    · exact (hok hset).resolve_left (mt Kfifo.isEmpty_iff.mp hne)
  | write c alloc =>
    cases hp
    obtain ⟨hh, hlock, hfull, hlock', hin⟩ := writeStep_wake htx hs
    refine ⟨by simpa only [hh, hlock', hin] using hread, fun hl hne => ?_⟩
    simp only [hh]
    rcases hlock hl with hl | hset
    · exact hwrite hl (mt hfull hne)
    · exact (hok hset).resolve_left (mt (Kfifo.Ok.isFull_iff htx.ok).mp (mt hfull hne))
  | handler v =>
    cases hp
    rcases handlerStep_wake hs with hw | ⟨hw, hl⟩ | ⟨hl, hw, hlock, hin⟩
    · exact ⟨fun _ _ => .inr hw, fun _ _ => .inr (HandlerPc.wakesWrite_of_wakesRead hw)⟩
    · refine ⟨fun hl' => ?_, fun _ _ => .inr hw⟩
      simp only [hl] at hl'
      cases hl'
    · refine ⟨fun hl' hne => ?_, fun hl' => ?_⟩
      · simp only [hlock, hin] at hl' hne
        exact (hread hl' hne).imp_right fun h => by rw [hw] at h; cases h
      · simp only [hl] at hl'
        cases hl'

end Steps

omit [DecidableEq C] in
theorem init_wakeInv : WakeInv (init C, false) := ⟨(fun h => by cases h), fun h => by cases h⟩

theorem reachable_wakeInv {x : State C × Bool} (h : (interrupted C).ReachableBy SetsInTime x) :
    RxInv x.1.rx ∧ TxInv x.1.tx ∧ WakeInv x := by
  refine h.invariant (I := fun x => RxInv x.1.rx ∧ TxInv x.1.tx ∧ WakeInv x)
    ⟨init_rxInv, init_txInv, init_wakeInv⟩ ?_
  intro ⟨s, p⟩ a ⟨s', p'⟩ ⟨hrx, htx, hwake⟩ hok hs
  cases a with
  | inl a =>
    obtain ⟨hs, hp⟩ := System.within_inl.mp hs
    exact ⟨step_rxInv hrx hs, step_txInv htx hs, step_wakeInv hrx htx hwake hok hs hp⟩
  | inr b =>
    obtain ⟨rfl, hp⟩ := System.within_inr.mp hs
    cases hp
    exact ⟨hrx, htx, ⟨fun _ _ => .inl rfl, fun _ _ => .inl rfl⟩⟩

/-- **No lost wake-up.** Where every flag is set in time, no call is left
polling for what already holds. -/
theorem not_lostWakeup {x : State C × Bool} (h : (interrupted C).ReachableBy SetsInTime x) :
    ¬ LostWakeup x := by
  obtain ⟨-, htx, hwake⟩ := reachable_wakeInv h
  have hok : x.1.outbuffer.Ok := htx.ok
  rintro ⟨⟨c, ⟨-, hl, hne⟩ | ⟨-, hl, hne⟩⟩, hidle, hpend⟩
  · have := hwake.read hl (mt Kfifo.isEmpty_iff.mpr (by simp [hne]))
    simp [hidle, hpend, HandlerPc.wakesRead] at this
  · have := hwake.write hl (mt hok.isFull_iff.mpr (by simp [hne]))
    simp [hidle, hpend, HandlerPc.wakesWrite] at this

/-- The condition cannot be weakened: after a flag set too late the wake-up
is lost, at once or when the run of the handler ends. -/
theorem lostWakeup_of_late {x x' : State C × Bool} {a : Act C ⊕ Unit} (hlate : ¬ SetsInTime x a)
    (hs : (interrupted C).step x a = some x') :
    LostWakeup x' ∨ x'.1.handler = .wakeWrite ∧
      ∀ v x'', (interrupted C).step x' (.inl (.handler v)) = some x'' → LostWakeup x'' := by
  obtain ⟨s, p⟩ := x
  obtain ⟨s', p'⟩ := x'
  rcases a with a | b
  · obtain ⟨hstep, hp⟩ := System.within_inl.mp hs
    cases a with
    | read c alloc =>
      simp only [SetsInTime, Classical.not_imp, not_or, Bool.not_eq_true] at hlate
      obtain ⟨hpc, hne, rfl, hw⟩ := hlate
      simp only [system, step, readStep, hpc] at hstep
      cases hstep
      cases hp
      cases hh : s.handler with
      | idle => exact .inl ⟨⟨c, .inl ⟨by simp [State.readAt], rfl, hne⟩⟩, rfl, rfl⟩
      | wakeWrite =>
        refine .inr ⟨rfl, fun v x'' hs => ?_⟩
        obtain ⟨s'', p''⟩ := x''
        obtain ⟨hstep, hp⟩ := System.within_inl.mp hs
        simp only [system, step, handlerStep, State.readAt] at hstep
        cases hstep
        cases hp
        exact ⟨⟨c, .inl ⟨by simp [State.handlerAt], rfl, hne⟩⟩, rfl, rfl⟩
      | _ => simp [hh, HandlerPc.wakesRead] at hw
    | write c alloc =>
      simp only [SetsInTime, Classical.not_imp, not_or, Bool.not_eq_true] at hlate
      obtain ⟨hpc, hne, rfl, hw⟩ := hlate
      simp only [system, step, writeStep, hpc] at hstep
      cases hstep
      cases hp
      cases hh : s.handler with
      | idle => exact .inl ⟨⟨c, .inr ⟨by simp [State.writeAt], rfl, hne⟩⟩, rfl, rfl⟩
      | _ => simp [hh, HandlerPc.wakesWrite] at hw
    | _ => exact absurd trivial hlate
  · exact absurd trivial hlate

/-- A reader that finds nothing, sleeps, and is woken for a byte. -/
def sleepThenWake : List (Act Unit ⊕ Unit) :=
  [.inl (.callRead () 1), .inl (.read () true), .inl (.read () true), .inl (.read () true), .inr (), .inl .irq,
    .inl (.handler 0), .inl (.handler 1), .inl (.handler 5)] ++ List.replicate 7 (.inl (.handler 0))

theorem not_lostWakeup_sleepThenWake : ∃ x, (interrupted Unit).exec (init Unit, false) sleepThenWake = some x ∧
    (x.1.reads ()).pc = .waitPoll ∧ x.1.inbuffer.kfifoIsEmpty = false ∧ ¬ LostWakeup x :=
  ⟨_, rfl, rfl, rfl, not_lostWakeup (System.ReachableBy.steps .init sleepThenWake (by decide) rfl)⟩

/-- The handler runs between the test and the flag of a reader. -/
def handlerBetween : List (Act Unit ⊕ Unit) :=
  [.inl (.callRead () 1), .inl (.read () true), .inl (.read () true), .inr (), .inl .irq,
    .inl (.handler 0), .inl (.handler 1), .inl (.handler 5)] ++ List.replicate 7 (.inl (.handler 0)) ++
  [.inl (.read () true)]

/-- The handler queues a byte and wakes all readers before the one that saw
no byte sets the flag: it polls for a wake-up that is over. -/
theorem lostWakeup_of_handler_between : ∃ x,
    (interrupted Unit).exec (init Unit, false) handlerBetween = some x ∧ LostWakeup x :=
  ⟨_, rfl, ⟨(), .inl ⟨rfl, rfl, rfl⟩⟩, rfl, rfl⟩

end Lmsel4.ComDev
