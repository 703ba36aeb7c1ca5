/-
Whether a blocking call gets something for its wait.

`wait_event_interruptible` lets a call through when the flag of its queue is
cleared and does not test the condition again, and between the test and
`spin_trylock` another call can take what there was. So a call that has the
lock may find nothing, and then returns 0. The lock keeps the condition for
the call that holds it, so every call gets something where each has its
condition at the moment its `spin_trylock` takes the lock
(`progress_of_takesSome`). One that has not can get nothing in its next step
(`gotNothing_of_takesNone`).
-/
import Lmsel4.Sole

namespace Lmsel4.ComDev

open Spinlock (atomicCmpxchg qLockedVal storeLowByte)

/-! ## Progress of a call -/

/-- The call has got through to `inbuffer` with nothing to take, or returns
less than 1. -/
def ReadPc.gotNothing : ReadPc → Prop
  | .copyOut len | .publish len _ | .unlock len _ | .copyToUser len _ => len = 0
  | .done ret _ => ret < 1
  | _ => False

/-- The call has got through to `outbuffer` with no room there, or returns
less than 1. -/
def WritePc.gotNothing : WritePc → Prop
  | .copyIn len | .publish len | .unlock len | .disable len | .enable len => len = 0
  | .done ret => ret < 1
  | _ => False

def ReadCall.Progresses (r : ReadCall) : Prop := 1 ≤ r.size → ¬ r.pc.gotNothing

/-- The size of a write is the number of the user's bytes, as a `size_t`. -/
def WriteCall.Progresses (w : WriteCall) : Prop := 1 ≤ UInt32.ofNat w.user.length → ¬ w.pc.gotNothing

variable {C : Type} [DecidableEq C]

/-- Every call that was asked for something gets something. -/
structure Progress (s : State C) : Prop where
  reads : ∀ c, (s.reads c).Progresses
  writes : ∀ c, (s.writes c).Progresses

/-- A `kmalloc` made in the step succeeds. -/
def State.allocates (s : State C) : Act C → Bool
  | .read c alloc => alloc || (s.reads c).pc != .kmalloc
  | .write c alloc => alloc || (s.writes c).pc != .kmalloc
  | _ => true

/-- The device where allocations succeed. -/
def allocating (C : Type) [DecidableEq C] : System (State C) (Act C) where
  init := init C
  step s a := if s.allocates a then step s a else none

/-- A call that takes its lock, and was asked for something, has the
condition it has waited for. -/
def TakesSome (s : State C) : Act C → Prop
  | .read c _ => (s.reads c).pc = .tryCmpxchg → s.inputLock = 0 → 1 ≤ (s.reads c).size →
    s.inbuffer.kfifoIsEmpty = false
  | .write c _ => (s.writes c).pc = .tryCmpxchg → s.outputLock = 0 → 1 ≤ UInt32.ofNat (s.writes c).user.length →
    s.outbuffer.kfifoIsFull = false
  | _ => True

instance (s : State C) : ∀ a, Decidable (TakesSome s a)
  | .read _ _ | .write _ _ => inferInstanceAs (Decidable (_ → _))
  | .callRead _ _ | .callWrite _ _ | .irq | .handler _ => .isTrue trivial

/-- A call that is about to compute how much it moves finds that there is
something to take, or room. -/
def FindsSome (s : State C) : Act C → Prop
  | .read c _ => (s.reads c).pc = .outLen → 1 ≤ (s.reads c).size → s.inbuffer.kfifoIsEmpty = false
  | .write c _ => (s.writes c).pc = .inLen → 1 ≤ UInt32.ofNat (s.writes c).user.length →
    s.outbuffer.kfifoIsFull = false
  | _ => True

/-! ## Steps -/

theorem not_lt_one {n : UInt32} (hn : n ≠ 0) (hle : n.toNat ≤ fifoSize.toNat) : ¬ n.toInt32 < 1 := by
  have hnat := toNatClampNeg_toInt32 (Nat.lt_of_le_of_lt hle (by decide))
  have hpos : n.toNat ≠ 0 := fun h => hn (UInt32.toNat_inj.mp h)
  change n.toInt32.toInt.toNat = n.toNat at hnat
  rw [Int32.lt_iff_toInt_lt, Int32.toInt_one]
  omega

section Steps

variable {s s' : State C} {c d : C} {alloc : Bool}

theorem readStep_size (hs : readStep s c alloc = some s') : (s'.reads c).size = (s.reads c).size := by
  obtain ⟨r, _, _, _, _, rfl, hr⟩ := readStep_frame hs
  simpa using hr

theorem readStep_other (hs : readStep s c alloc = some s') (hdc : d ≠ c) : s'.reads d = s.reads d := by
  obtain ⟨_, _, _, _, _, rfl, -⟩ := readStep_frame hs
  exact Function.update_of_ne hdc _ _

theorem writeStep_user (hs : writeStep s c alloc = some s') : (s'.writes c).user = (s.writes c).user := by
  obtain ⟨w, _, _, _, _, rfl, hw⟩ := writeStep_frame hs
  simpa using hw

theorem writeStep_other (hs : writeStep s c alloc = some s') (hdc : d ≠ c) : s'.writes d = s.writes d := by
  obtain ⟨_, _, _, _, _, rfl, -⟩ := writeStep_frame hs
  exact Function.update_of_ne hdc _ _

theorem readStep_progresses (hrx : RxInv s.rx) (hmalloc : s.allocates (.read c alloc) = true)
    (hfinds : FindsSome s (.read c alloc)) (h : (s.reads c).Progresses) (hs : readStep s c alloc = some s') :
    (s'.reads c).Progresses := by
  have hcall : ReadOk s.inbuffer (s.reads c).pc := hrx.calls c
  intro hsize
  rw [readStep_size hs] at hsize
  have hbefore := h hsize
  cases readStep_move hs with
  | noMemory hpc halloc =>
    rw [State.allocates, hpc, halloc] at hmalloc
    cases hmalloc
  | kmalloc | ready | empty | waitSet | polls | woken | free | busy | locks | misses =>
    simp [State.readAt, ReadPc.gotNothing]
  | outLen hpc =>
    have hused : s.inbuffer.used ≠ 0 := by
      intro hzero
      have hempty := hfinds hpc hsize
      rw [Kfifo.isEmpty_iff.mpr hzero] at hempty
      cases hempty
    simp only [State.readAt, Function.update_self, ReadCall.goto_pc, ReadPc.gotNothing]
    intro hzero
    have hlen := Kfifo.toNat_outLen (f := s.inbuffer) (s.reads c).size
    rw [hzero, UInt32.toNat_zero] at hlen
    rw [UInt32.le_iff_toNat_le, UInt32.toNat_one] at hsize
    omega
  | copyOut hpc | publish hpc | unlock hpc =>
    rw [hpc] at hbefore
    simpa [State.readAt, ReadPc.gotNothing] using hbefore
  | copyToUser hpc =>
    rw [hpc] at hbefore hcall
    simp only [State.readAt, Function.update_self, ReadCall.goto_pc, ReadPc.gotNothing]
    exact not_lt_one hbefore hcall.1

theorem writeStep_progresses (htx : TxInv s.tx) (hmalloc : s.allocates (.write c alloc) = true)
    (hfinds : FindsSome s (.write c alloc)) (h : (s.writes c).Progresses) (hs : writeStep s c alloc = some s') :
    (s'.writes c).Progresses := by
  have hcall : WriteOk s.outbuffer (s.writes c) := htx.calls c
  intro hsize
  rw [writeStep_user hs] at hsize
  have hbefore := h hsize
  have hmove := writeStep_move hs
  generalize access s (.write c alloc) = x at hmove
  cases hmove with
  | noMemory hpc halloc =>
    rw [State.allocates, hpc, halloc] at hmalloc
    cases hmalloc
  | copyFromUser => simp [WritePc.gotNothing]
  | kmalloc | ready | full | waitSet | polls | woken | free | busy | locks | misses =>
    simp [State.writeAt, WritePc.gotNothing]
  | inLen hpc =>
    have hok : s.outbuffer.Ok := htx.ok
    have hused : s.outbuffer.used ≠ s.outbuffer.size := by
      intro hall
      have hfull := hfinds hpc hsize
      rw [hok.isFull_iff.mpr hall] at hfull
      cases hfull
    simp only [State.writeAt, Function.update_self, WriteCall.goto_pc, WritePc.gotNothing]
    intro hzero
    have hlen := hok.toNat_inLen (UInt32.ofNat (s.writes c).user.length)
    have hbound := hok.bounded
    rw [hzero, UInt32.toNat_zero] at hlen
    rw [UInt32.le_iff_toNat_le, UInt32.toNat_one] at hsize
    omega
  | copyIn hpc | publish hpc | unlock hpc | disable hpc =>
    rw [hpc] at hbefore
    simpa [State.writeAt, WritePc.gotNothing] using hbefore
  | enable hpc =>
    rw [hpc] at hbefore
    simp only [WriteOk, hpc] at hcall
    simp only [State.writeAt, Function.update_self, WriteCall.goto_pc, WritePc.gotNothing]
    exact not_lt_one hbefore hcall.1

/-- A step in which a call finds something keeps every call's progress. -/
theorem step_progress {a : Act C} (hrx : RxInv s.rx) (htx : TxInv s.tx) (hmalloc : s.allocates a = true)
    (hfinds : FindsSome s a) (h : Progress s) (hs : step s a = some s') : Progress s' := by
  cases a with
  | callRead c size =>
    simp only [step] at hs
    split at hs <;> cases hs
    exact ⟨(Function.forall_update_iff _ fun _ r => ReadCall.Progresses r).mpr ⟨fun _ => id, fun d _ => h.reads d⟩,
      h.writes⟩
  | callWrite c user =>
    simp only [step] at hs
    split at hs <;> cases hs
    exact ⟨h.reads,
      (Function.forall_update_iff _ fun _ w => WriteCall.Progresses w).mpr ⟨fun _ => id, fun d _ => h.writes d⟩⟩
  | read c alloc =>
    have hc := readStep_progresses hrx hmalloc hfinds (h.reads c) hs
    obtain ⟨r, _, _, _, _, rfl, -⟩ := readStep_frame hs
    dsimp only at hc
    rw [Function.update_self] at hc
    exact ⟨(Function.forall_update_iff _ fun _ r => ReadCall.Progresses r).mpr ⟨hc, fun d _ => h.reads d⟩, h.writes⟩
  | write c alloc =>
    have hc := writeStep_progresses htx hmalloc hfinds (h.writes c) hs
    obtain ⟨w, _, _, _, _, rfl, -⟩ := writeStep_frame hs
    dsimp only at hc
    rw [Function.update_self] at hc
    exact ⟨h.reads, (Function.forall_update_iff _ fun _ w => WriteCall.Progresses w).mpr ⟨hc, fun d _ => h.writes d⟩⟩
  | irq =>
    simp only [step] at hs
    split at hs <;> cases hs
    exact ⟨h.reads, h.writes⟩
  | handler v =>
    obtain ⟨hr, hw⟩ := handlerStep_calls hs
    exact ⟨hr ▸ h.reads, hw ▸ h.writes⟩

/-- A call that finds nothing does not progress. -/
theorem step_gotNothing {a : Act C} (htx : TxInv s.tx) (hfinds : ¬ FindsSome s a) (hs : step s a = some s') :
    ¬ Progress s' := by
  intro h
  cases a with
  | read c alloc =>
    simp only [FindsSome, Classical.not_imp, Bool.not_eq_false] at hfinds
    obtain ⟨hpc, hsize, hempty⟩ := hfinds
    simp only [step, readStep, hpc] at hs
    cases hs
    have hc := h.reads c
    simp only [State.readAt, Function.update_self] at hc
    refine hc hsize (UInt32.toNat_inj.mp ?_)
    rw [Kfifo.toNat_outLen, Kfifo.isEmpty_iff.mp hempty, Nat.min_zero, UInt32.toNat_zero]
  | write c alloc =>
    have hok : s.outbuffer.Ok := htx.ok
    simp only [FindsSome, Classical.not_imp, Bool.not_eq_false] at hfinds
    obtain ⟨hpc, hsize, hfull⟩ := hfinds
    simp only [step, writeStep, hpc] at hs
    cases hs
    have hc := h.writes c
    simp only [State.writeAt, Function.update_self] at hc
    refine hc hsize (UInt32.toNat_inj.mp ?_)
    rw [hok.toNat_inLen, hok.isFull_iff.mp hfull, Nat.sub_self, Nat.min_zero, UInt32.toNat_zero]
  | callRead | callWrite | irq | handler => exact hfinds trivial

end Steps

/-! ## What the lock keeps -/

/-- A call with its lock and about to compute how much it moves still has
its condition. -/
structure Kept (s : State C) : Prop where
  reads : ∀ c, (s.reads c).pc = .outLen → 1 ≤ (s.reads c).size → s.inbuffer.used ≠ 0
  writes : ∀ c, (s.writes c).pc = .inLen → 1 ≤ UInt32.ofNat (s.writes c).user.length →
    s.outbuffer.used ≠ s.outbuffer.size

section Lock

variable {s s' : State C} {c : C} {alloc : Bool} {v : UInt8}

omit [DecidableEq C] in
/-- The handler takes nothing out of `inbuffer` and puts nothing in
`outbuffer`. -/
theorem handlerStep_used (hrx : RxInv s.rx) (htx : TxInv s.tx) (hs : handlerStep s v = some s') :
    s.inbuffer.used ≤ s'.inbuffer.used ∧ s'.outbuffer.used ≤ s.outbuffer.used ∧
      s'.outbuffer.size = s.outbuffer.size := by
  have hmove := handlerStep_move hs
  generalize access s (.handler v) = x at hmove
  cases hmove with
  | getPublish hpc =>
    have hget : GetOk s.outbuffer s.handler := htx.get
    rw [hpc] at hget
    have hused := Kfifo.used_publishOut (show (1 : UInt32).toNat ≤ s.outbuffer.used from Nat.pos_of_ne_zero hget.1)
    refine ⟨Nat.le_refl _, ?_, rfl⟩
    simp only [State.handlerAt]
    omega
  | putPublish hpc =>
    have hput : PutOk s.inbuffer s.handler := hrx.put
    have hok : s.inbuffer.Ok := hrx.ok
    rw [hpc] at hput
    have hused := hok.used_publishIn (show s.inbuffer.used + (1 : UInt32).toNat ≤ s.inbuffer.size from hput.1)
    refine ⟨?_, Nat.le_refl _, rfl⟩
    simp only [State.handlerAt]
    omega
  | txIsr | txLsr | getEmpty | getSome | getLoad | thrWrite | rbrRead | putFull | putRoom | putStore | rxIsr | rxLsr
  | wakeRead | wakeWrite => exact ⟨Nat.le_refl _, Nat.le_refl _, rfl⟩

/-- Only the call that holds `input_lock` changes `inbuffer`, and only one
that takes it is then about to compute its length. -/
theorem readStep_locked (hs : readStep s c alloc = some s') :
    (s'.inbuffer = s.inbuffer ∨ (s.reads c).pc.holds = true ∧ (s.reads c).pc ≠ .outLen) ∧
      ((s'.reads c).pc = .outLen → (s.reads c).pc = .tryCmpxchg ∧ s.inputLock = 0 ∧ s'.inbuffer = s.inbuffer) := by
  cases readStep_move hs with
  | locks hpc hfree => exact ⟨.inl rfl, fun _ => ⟨hpc, hfree, rfl⟩⟩
  | publish hpc => exact ⟨.inr (by rw [hpc]; exact ⟨rfl, by simp⟩), fun h => by simp [State.readAt] at h⟩
  | kmalloc | noMemory | ready | empty | waitSet | polls | woken | free | busy | misses | outLen | copyOut | unlock
  | copyToUser => exact ⟨.inl rfl, fun h => by simp [State.readAt] at h⟩

/-- The same of `output_lock` and `outbuffer`. -/
theorem writeStep_locked (hs : writeStep s c alloc = some s') :
    (s'.outbuffer.used = s.outbuffer.used ∧ s'.outbuffer.size = s.outbuffer.size ∨
        (s.writes c).pc.holds = true ∧ (s.writes c).pc ≠ .inLen) ∧
      ((s'.writes c).pc = .inLen →
        (s.writes c).pc = .tryCmpxchg ∧ s.outputLock = 0 ∧ s'.outbuffer = s.outbuffer) := by
  have hmove := writeStep_move hs
  generalize access s (.write c alloc) = x at hmove
  cases hmove with
  | locks hpc hfree => exact ⟨.inl ⟨rfl, rfl⟩, fun _ => ⟨hpc, hfree, rfl⟩⟩
  | publish hpc => exact ⟨.inr (by rw [hpc]; exact ⟨rfl, by simp⟩), fun h => by simp [State.writeAt] at h⟩
  | kmalloc | noMemory | copyFromUser | ready | full | waitSet | polls | woken | free | busy | misses | inLen | copyIn
  | unlock | disable | enable => exact ⟨.inl ⟨rfl, rfl⟩, fun h => by simp [State.writeAt] at h⟩

theorem readStep_kept (hrx : RxInv s.rx) (hok : TakesSome s (.read c alloc)) (h : Kept s)
    (hs : readStep s c alloc = some s') : Kept s' := by
  obtain ⟨hbuf, htook⟩ := readStep_locked hs
  refine ⟨fun d hd hsize => ?_, fun d hd hsize => ?_⟩
  · by_cases hdc : d = c
    · subst hdc
      obtain ⟨hpc, hlock, hsame⟩ := htook hd
      rw [readStep_size hs] at hsize
      rw [hsame]
      intro hzero
      have hempty := hok hpc hlock hsize
      rw [Kfifo.isEmpty_iff.mpr hzero] at hempty
      cases hempty
    · rw [readStep_other hs hdc] at hd hsize
      rcases hbuf with hsame | ⟨hholds, -⟩
      · rw [hsame]
        exact h.reads d hd hsize
      · -- Both would hold `input_lock`.
        have hd : (s.rx.reads d).pc.holds = true := by rw [show (s.rx.reads d).pc = _ from hd]; rfl
        exact absurd (hrx.turns.excl.one d c hd hholds) hdc
  · obtain ⟨_, _, _, _, _, rfl, -⟩ := readStep_frame hs
    exact h.writes d hd hsize

theorem writeStep_kept (htx : TxInv s.tx) (hok : TakesSome s (.write c alloc)) (h : Kept s)
    (hs : writeStep s c alloc = some s') : Kept s' := by
  obtain ⟨hbuf, htook⟩ := writeStep_locked hs
  refine ⟨fun d hd hsize => ?_, fun d hd hsize => ?_⟩
  · obtain ⟨_, _, _, _, _, rfl, -⟩ := writeStep_frame hs
    exact h.reads d hd hsize
  · by_cases hdc : d = c
    · subst hdc
      obtain ⟨hpc, hlock, hsame⟩ := htook hd
      have hbufok : s.outbuffer.Ok := htx.ok
      rw [writeStep_user hs] at hsize
      rw [hsame]
      intro hall
      have hfull := hok hpc hlock hsize
      rw [hbufok.isFull_iff.mpr hall] at hfull
      cases hfull
    · rw [writeStep_other hs hdc] at hd hsize
      rcases hbuf with ⟨hused, hsame⟩ | ⟨hholds, -⟩
      · rw [hused, hsame]
        exact h.writes d hd hsize
      · -- Both would hold `output_lock`.
        have hd : (s.tx.writes d).pc.holds = true := by rw [show (s.tx.writes d).pc = _ from hd]; rfl
        exact absurd (htx.turns.excl.one d c hd hholds) hdc

theorem step_kept {a : Act C} (hrx : RxInv s.rx) (htx : TxInv s.tx) (hok : TakesSome s a) (h : Kept s)
    (hs : step s a = some s') : Kept s' := by
  cases a with
  | callRead c size =>
    simp only [step] at hs
    split at hs <;> cases hs
    refine ⟨(Function.forall_update_iff _
      fun _ (r : ReadCall) => r.pc = .outLen → 1 ≤ r.size → s.inbuffer.used ≠ 0).mpr
        ⟨fun hpc => ?_, fun d _ => h.reads d⟩, h.writes⟩
    cases hpc
  | callWrite c user =>
    simp only [step] at hs
    split at hs <;> cases hs
    refine ⟨h.reads, (Function.forall_update_iff _
      fun _ (w : WriteCall) => w.pc = .inLen → 1 ≤ UInt32.ofNat w.user.length →
        s.outbuffer.used ≠ s.outbuffer.size).mpr
        ⟨fun hpc => ?_, fun d _ => h.writes d⟩⟩
    cases hpc
  | read c alloc => exact readStep_kept hrx hok h hs
  | write c alloc => exact writeStep_kept htx hok h hs
  | irq =>
    simp only [step] at hs
    split at hs <;> cases hs
    exact ⟨h.reads, h.writes⟩
  | handler v =>
    obtain ⟨hr, hw⟩ := handlerStep_calls hs
    obtain ⟨hin, hout, hsize⟩ := handlerStep_used hrx htx hs
    have hbound : s.outbuffer.used ≤ s.outbuffer.size := htx.ok.bounded
    refine ⟨fun d hd hsome => ?_, fun d hd hsome => ?_⟩
    · have hused := h.reads d (hr ▸ hd) (hr ▸ hsome)
      omega
    · have hused := h.writes d (hw ▸ hd) (hw ▸ hsome)
      omega

omit [DecidableEq C] in
/-- What a call has when it takes its lock it finds when it computes its
length. -/
theorem Kept.findsSome (htx : TxInv s.tx) (h : Kept s) (a : Act C) : FindsSome s a := by
  cases a with
  | read c alloc =>
    intro hpc hsize
    exact Bool.eq_false_iff.mpr fun hempty => h.reads c hpc hsize (Kfifo.isEmpty_iff.mp hempty)
  | write c alloc =>
    intro hpc hsize
    have hbufok : s.outbuffer.Ok := htx.ok
    exact Bool.eq_false_iff.mpr fun hfull => h.writes c hpc hsize (hbufok.isFull_iff.mp hfull)
  | callRead | callWrite | irq | handler => trivial

end Lock

/-! ## Runs -/

theorem allocating_step {s s' : State C} {a : Act C} :
    (allocating C).step s a = some s' ↔ s.allocates a = true ∧ step s a = some s' := by
  simp only [allocating]
  split
  next h => simp [h]
  next h => simp [h]

section Runs

variable {s s' : State C}

/-- **When blocking calls progress.** In every run in which allocations
succeed and each call that is asked for something has its condition when its
`spin_trylock` takes the lock, every such call gets something and returns at
least 1. -/
theorem progress_of_takesSome (h : (allocating C).ReachableBy TakesSome s) : Progress s := by
  have hinv : RxInv s.rx ∧ TxInv s.tx ∧ Kept s ∧ Progress s := by
    refine h.invariant (I := fun s => RxInv s.rx ∧ TxInv s.tx ∧ Kept s ∧ Progress s) ?_ ?_
    · refine ⟨init_rxInv, init_txInv, ⟨fun _ hpc => ?_, fun _ hpc => ?_⟩, fun _ _ => id, fun _ _ => id⟩
      · cases hpc
      · cases hpc
    · intro s a s' ⟨hrx, htx, hkept, hprogress⟩ hok hs
      obtain ⟨hmalloc, hs⟩ := allocating_step.mp hs
      exact ⟨step_rxInv hrx hs, step_txInv htx hs, step_kept hrx htx hok hkept hs,
        step_progress hrx htx hmalloc (hkept.findsSome htx a) hprogress hs⟩
  exact hinv.2.2.2

/-- A call that can go on without its condition can get nothing. -/
theorem can_gotNothing {a : Act C} (htx : TxInv s.tx) (hmalloc : s.allocates a = true) (hfinds : ¬ FindsSome s a)
    (henabled : (step s a).isSome = true) : (allocating C).Can 1 (fun t => ¬ Progress t) s := by
  obtain ⟨t, ht⟩ := Option.isSome_iff_exists.mp henabled
  have hnothing : ¬ Progress t := step_gotNothing htx hfinds ht
  exact System.Can.head (allocating_step.mpr ⟨hmalloc, ht⟩) (System.Can.here hnothing)

/-- A call that takes its lock without its condition gets nothing if it goes
on at once. -/
theorem gotNothing_of_takesNone (h : (allocating C).Reachable s) {a : Act C} (hnone : ¬ TakesSome s a)
    (hs : (allocating C).step s a = some s') : (allocating C).Can 1 (fun t => ¬ Progress t) s' := by
  have htx : TxInv s.tx := by
    refine h.invariant (I := fun s => TxInv s.tx) init_txInv ?_
    intro s a s' htx _ hs
    exact step_txInv htx (allocating_step.mp hs).2
  have hs := (allocating_step.mp hs).2
  have htx' := step_txInv htx hs
  cases a with
  | read c alloc =>
    simp only [TakesSome, Classical.not_imp, Bool.not_eq_false] at hnone
    obtain ⟨hpc, hlock, hsize, hempty⟩ := hnone
    simp only [step, readStep, hpc, atomicCmpxchg, hlock, if_true] at hs
    cases hs
    refine can_gotNothing (a := .read c true) htx' rfl ?_ ?_
    · simpa [FindsSome, State.readAt, ReadCall.goto] using ⟨hsize, hempty⟩
    · simp [step, readStep, State.readAt]
  | write c alloc =>
    simp only [TakesSome, Classical.not_imp, Bool.not_eq_false] at hnone
    obtain ⟨hpc, hlock, hsize, hfull⟩ := hnone
    simp only [step, writeStep, hpc, atomicCmpxchg, hlock, if_true] at hs
    cases hs
    refine can_gotNothing (a := .write c true) htx' rfl ?_ ?_
    · simpa [FindsSome, State.writeAt, WriteCall.goto] using ⟨hsize, hfull⟩
    · simp [step, writeStep, State.writeAt]
  | callRead | callWrite | irq | handler => exact absurd trivial hnone

end Runs

/-- A call in `uart16550_read` that is woken by a run of the handler that has
brought nothing. -/
def wokenForNothing : List (Act Unit) :=
  [.callRead () 1, .read () true, .read () true, .read () true, .irq, .handler 0, .handler 0, .handler 0, .handler 0] ++
    List.replicate 8 (.read () true)

/-- It returns 0. -/
theorem not_progress_wokenForNothing : ∃ s, (allocating Unit).exec (init Unit) wokenForNothing = some s ∧
    (s.reads ()).size = 1 ∧ (s.reads ()).pc = .done 0 [] ∧ ¬ Progress s := by
  refine ⟨_, rfl, rfl, rfl, fun h => ?_⟩
  exact h.reads () (by decide) (show (0 : Int32) < 1 by decide)

/-- A byte is received, and read by a call that waits for it. -/
def wokenForByte : List (Act Unit) :=
  [.callRead () 1, .read () true, .read () true, .read () true, .irq, .handler 0, .handler 1, .handler 65] ++
    List.replicate 7 (.handler 0) ++ List.replicate 8 (.read () true)

theorem progress_of_takesSome_wokenForByte : ∃ s, (allocating Unit).exec (init Unit) wokenForByte = some s ∧
    (s.reads ()).pc = .done 1 [65] ∧ Progress s := by
  have hsteps : (allocating Unit).Steps TakesSome (init Unit) wokenForByte := by decide
  exact ⟨_, rfl, rfl, progress_of_takesSome (System.ReachableBy.steps .init wokenForByte hsteps rfl)⟩

end Lmsel4.ComDev
