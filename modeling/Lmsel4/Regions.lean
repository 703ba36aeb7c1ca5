/-
The ports the driver touches, against the regions it holds.

`uart16550_init` and `uart16550_cleanup` are run on a kernel that records
what they do, and are then performed one event at a time among the calls
and the interrupts, so that an interrupt can come between any two of them.
`uart16550_hw_cleanup_device` gives the ports back before its last two
accesses, and the handler is live before they are asked for; where neither
happens, every access is to a region that is held (`owned_of_kept`).
-/
import Lmsel4.Device
import Lmsel4.AllOrNothing

namespace Lmsel4.Regions

open ComDev (Access)
open Driver

/-! ## What loading and unloading do -/

inductive Event
  | requestRegion (port : Int32)
  | releaseRegion (port : Int32)
  | access (port : Int32) (x : Access)
  | initStruct (device : Com)
  | requestIrq (irqNo : Int32)
  | freeIrq (irqNo : Int32)
  | cdevAdd (device : Com)
  | cdevDel (device : Com)
  deriving DecidableEq

/-- Calls end as `o` says and port reads as `r` does; the state is what has
been done. A call that fails has done nothing. `init_struct` comes right
before `request_irq`. -/
@[simps] def tracer (o : Outcomes) (r : Int32 → SetupReads) : Kernel (List Event) where
  classCreate _ es := (if o .cls = 0 then .obj else .err (o .cls), es)
  classUnregister _ := id
  classDestroy _ := id
  registerChrdevRegion dev _ es := (o (.region dev), es)
  unregisterChrdevRegion _ _ := id
  requestIrq irqNo device es :=
    (o (.irq irqNo device), es ++ .initStruct device :: if o (.irq irqNo device) = 0 then [.requestIrq irqNo] else [])
  freeIrq irqNo _ es := es ++ [.freeIrq irqNo]
  deviceCreate _ dev _ es := (if o (.device dev) = 0 then .obj else .err (o (.device dev)), es)
  deviceDestroy _ _ := id
  hwSetupDevice port es :=
    if o (.ports port) = 0 then
      (0, es ++ .requestRegion port :: (hwSetupDevice (r port)).map (.access port))
    else (-enodev, es)
  hwCleanupDevice port es := es ++ .releaseRegion port :: hwCleanupDevice.map (.access port)
  cdevAdd device _ _ es := (o (.cdev device), es ++ if o (.cdev device) = 0 then [.cdevAdd device] else [])
  cdevDel device es := es ++ [.cdevDel device]

/-! ## The driver in use -/

/-- The port `uart16550_write` computes from the device it is called on. -/
def basePort : Com → Int32
  | .com1 => 0x3f8
  | .com2 => 0x2f8

/-- The device `interrupt_handler` picks. -/
def handlerDevice (irqNo : Int32) : Com := if irqNo = 4 then .com1 else .com2

def accessReg : Access → Nat
  | .inb reg _ => reg
  | .outb _ reg => reg

/-- The port a step of a device accesses. The handler and the ioctl take it
from the device's `base_port`. -/
def portOf {C D : Type} (info : Com → ComInfo) (c : Com) : Device.Act C D → Int32
  | .com (.write _ _) => basePort c
  | _ => (info c).basePort

/-- `todo` is what is left of the load or unload in progress, `cdevs` are
the devices that can be opened. The log has each port accessed, with the
regions that were held. -/
structure State (C D : Type) where
  info : Com → ComInfo
  todo : List Event
  held : List Int32
  irqs : List Int32
  cdevs : List Com
  devices : Com → Device C D
  log : List (Int × List Int32)

/-- A load or an unload begins, it goes on, a call on a device is made or
goes on, an interrupt is delivered. -/
inductive Act (C D : Type)
  | load (behavior major : Int32) (o : Outcomes) (r : Int32 → SetupReads)
  | unload (behavior major : Int32)
  | main
  | device (c : Com) (a : Device.Act C D)
  | irq (irqNo : Int32)

/-- A call is made, the handler is entered, or one of them goes on. -/
inductive Kind
  | call
  | irq
  | goOn

def kind {C D : Type} : Device.Act C D → Kind
  | .com (.callRead _ _) | .com (.callWrite _ _) | .callIoctl _ _ _ => .call
  | .com .irq => .irq
  | .com (.read _ _) | .com (.write _ _) | .com (.handler _) | .ioctl _ _ => .goOn

section Steps

variable {C D : Type} [DecidableEq C] [DecidableEq D]

def State.touch (s : State C D) (port : Int32) (x : Access) : State C D :=
  { s with log := s.log ++ [(port.toInt + accessReg x, s.held)] }

def State.perform (s : State C D) : Event → State C D
  | .requestRegion port => { s with held := port :: s.held }
  | .releaseRegion port => { s with held := s.held.erase port }
  | .access port x => s.touch port x
  | .initStruct c => { s with devices := Function.update s.devices c (s.devices c).initStruct }
  | .requestIrq irqNo => { s with irqs := irqNo :: s.irqs }
  | .freeIrq irqNo => { s with irqs := s.irqs.erase irqNo }
  | .cdevAdd c => { s with cdevs := c :: s.cdevs }
  | .cdevDel c => { s with cdevs := s.cdevs.erase c }

/-- A step of a device, with the access it makes. -/
def State.deviceStep (s : State C D) (c : Com) (a : Device.Act C D) : Option (State C D) :=
  ((s.devices c).step a).map fun d =>
    let s' := { s with devices := Function.update s.devices c d }
    match (s.devices c).access a with
    | some x => s'.touch (portOf s.info c a) x
    | none => s'

/-- The driver with nothing recorded yet. -/
def State.driver (s : State C D) : Loaded (List Event) :=
  { uart16550Class := .null, info := s.info, kernel := [] }

/-- What a load or unload is going to do. The fields of a device it sets are
read by nobody else before its `request_irq`, so they are set at once. -/
def State.begin (s : State C D) (d : Loaded (List Event)) : Option (State C D) :=
  if s.todo = [] then some { s with info := d.info, todo := d.kernel } else none

def step (s : State C D) : Act C D → Option (State C D)
  | .load behavior major o r => s.begin (uart16550Init (tracer o r) behavior major s.driver).2
  | .unload behavior major =>
    -- No call of an unload returns anything.
    s.begin (uart16550Cleanup (tracer (fun _ => 0) fun _ => ⟨0, 0, 0, 0, 0⟩) behavior major s.driver)
  | .main =>
    match s.todo with
    | [] => none
    | e :: es => some ({ s with todo := es }.perform e)
  | .device c a =>
    match kind a with
    | .call => if c ∈ s.cdevs then s.deviceStep c a else none
    | .irq => none
    | .goOn => s.deviceStep c a
  | .irq irqNo => if irqNo ∈ s.irqs then s.deviceStep (handlerDevice irqNo) (.com .irq) else none

/-- The driver as it is linked: its static data are zero. -/
def init (C D : Type) : State C D where
  info _ := { minor := 0, irqNo := 0, basePort := 0 }
  todo := []
  held := []
  irqs := []
  cdevs := []
  devices _ := Device.init C D
  log := []

def system (C D : Type) [DecidableEq C] [DecidableEq D] : System (State C D) (Act C D) where
  init := init C D
  step := step

end Steps

/-- Every access was to a region held then, of eight ports. -/
def Owned {C D : Type} (s : State C D) : Prop :=
  ∀ e ∈ s.log, ∃ port ∈ e.2, port.toInt ≤ e.1 ∧ e.1 < port.toInt + 8

def Event.isRelease : Event → Bool
  | .releaseRegion _ => true
  | _ => false

/-- `uart16550_hw_cleanup_device` is not entered, and an interrupt is
delivered only to a device whose region is held. -/
def Kept {C D : Type} (s : State C D) : Act C D → Prop
  | .main => s.todo.head?.all (!·.isRelease) = true
  | .irq irqNo => basePort (handlerDevice irqNo) ∈ s.held
  | _ => True

instance {C D : Type} (s : State C D) : ∀ a, Decidable (Kept s a)
  | .main => inferInstanceAs (Decidable (_ = _))
  | .irq _ => inferInstanceAs (Decidable (_ ∈ _))
  | .load _ _ _ _ | .unload _ _ | .device _ _ => .isTrue trivial

/-! ## What a load is going to do -/

/-- `base_port` of the device has been set. -/
def Known (info : Com → ComInfo) (c : Com) : Prop := (info c).basePort = basePort c

theorem portOf_eq {C D : Type} {info : Com → ComInfo} {c : Com} {a : Device.Act C D} (h : Known info c) :
    portOf info c a = basePort c := by
  unfold portOf
  split
  · rfl
  · exact h

/-- Up to the first region given back: accesses are to regions held, an IRQ
or a `cdev` is one of a device that is ready for it. -/
def Covered (info : Com → ComInfo) : List Int32 → List Event → Prop
  | _, [] | _, .releaseRegion _ :: _ => True
  | held, .requestRegion port :: es => Covered info (port :: held) es
  | held, .access port x :: es => (port ∈ held ∧ accessReg x < 8) ∧ Covered info held es
  | held, .requestIrq irqNo :: es => Known info (handlerDevice irqNo) ∧ Covered info held es
  | held, .cdevAdd c :: es => (Known info c ∧ basePort c ∈ held) ∧ Covered info held es
  | held, .initStruct _ :: es | held, .freeIrq _ :: es | held, .cdevDel _ :: es => Covered info held es

section Trace

variable {info : Com → ComInfo} {held : List Int32} (o : Outcomes) (r : Int32 → SetupReads) (major : Int32)

theorem Covered.append {es fs : List Event} (h : Covered info held es) (hfs : ∀ held, Covered info held fs) :
    Covered info held (es ++ fs) := by
  induction es generalizing held with
  | nil => exact hfs held
  | cons e es ih =>
    cases e with
    | releaseRegion => trivial
    | requestRegion | initStruct | freeIrq | cdevDel => exact ih h
    | access | requestIrq | cdevAdd => exact ⟨h.1, ih h.2⟩

theorem covered_accesses {port : Int32} {fs : List Event} (hport : port ∈ held) (hfs : Covered info held fs) :
    ∀ xs : List Access, (∀ x ∈ xs, accessReg x < 8) → Covered info held (xs.map (.access port) ++ fs)
  | [], _ => hfs
  | x :: xs, hxs => ⟨⟨hport, hxs x List.mem_cons_self⟩,
      covered_accesses hport hfs xs fun y hy => hxs y (List.mem_cons_of_mem x hy)⟩

theorem setLineParameters_reg (line : LineInfo) (lcr : UInt8) :
    ∀ x ∈ setLineParameters line lcr, accessReg x < 8 := by
  simp [setLineParameters, accessReg, regLcr, regDll, regDlm, regFcr, regMcr, ComDev.regIer]

theorem hwSetupDevice_reg (r : SetupReads) : ∀ x ∈ hwSetupDevice r, accessReg x < 8 := by
  intro x hx
  simp only [hwSetupDevice, List.mem_append] at hx
  rcases hx with (hx | hx) | hx
  · have hx : x = .inb ComDev.regLsr r.lsr ∨ x = .inb ComDev.regRbr r.rbr := by
      split at hx <;> simp at hx <;> tauto
    rcases hx with rfl | rfl <;> simp [accessReg, ComDev.regLsr, ComDev.regRbr]
  · simp only [List.mem_cons, List.not_mem_nil, or_false] at hx
    rcases hx with rfl | rfl | rfl <;> simp [accessReg, ComDev.regIsr, regMsr, ComDev.regIer]
  · exact setLineParameters_reg _ _ x hx

/-- What `uart16550_init_device` is going to do is covered. -/
theorem initDevice_covered {minor irqNo : Int32} {name : List Char} {c : Com} (hirq : handlerDevice irqNo = c)
    (d : Loaded (List Event)) :
    ∃ es, (uart16550InitDevice (tracer o r) c major minor name (basePort c) irqNo d).2.kernel = d.kernel ++ es ∧
      ∀ info held, Known info c → Covered info held es := by
  have hsetup {info : Com → ComInfo} {held : List Int32} {fs : List Event} (hk : Known info c)
      (hfs : Covered info (basePort c :: held) fs) : Covered info held (.initStruct c :: .requestIrq irqNo ::
        .requestRegion (basePort c) :: ((hwSetupDevice (r (basePort c))).map (.access (basePort c)) ++ fs)) :=
    ⟨hirq.symm ▸ hk, covered_accesses List.mem_cons_self hfs _ (hwSetupDevice_reg _)⟩
  by_cases h₁ : o (.region (mkdev major minor)) = 0
  · by_cases h₂ : o (.irq irqNo c) = 0
    · by_cases h₃ : o (.device (mkdev major minor)) = 0
      · by_cases h₄ : o (.ports (basePort c)) = 0
        · by_cases h₅ : o (.cdev c) = 0
          · refine ⟨_, by simp [uart16550InitDevice, h₁, h₂, h₃, h₄, h₅]; rfl, fun info held hk => hsetup hk ?_⟩
            exact ⟨⟨hk, List.mem_cons_self⟩, trivial⟩
          · refine ⟨_, by simp [uart16550InitDevice, h₁, h₂, h₃, h₄, h₅]; rfl, fun info held hk => hsetup hk ?_⟩
            trivial
        · exact ⟨[.initStruct c, .requestIrq irqNo, .freeIrq irqNo],
            by simp [uart16550InitDevice, h₁, h₂, h₃, h₄, enodev], fun info held hk => ⟨hirq.symm ▸ hk, trivial⟩⟩
      · exact ⟨[.initStruct c, .requestIrq irqNo, .freeIrq irqNo],
          by simp [uart16550InitDevice, h₁, h₂, h₃], fun info held hk => ⟨hirq.symm ▸ hk, trivial⟩⟩
    · exact ⟨[.initStruct c], by simp [uart16550InitDevice, h₁, h₂], fun _ _ _ => trivial⟩
  · exact ⟨[], by simp [uart16550InitDevice, h₁], fun _ _ _ => trivial⟩

theorem initCom_covered (c : Com) (d : Loaded (List Event)) :
    ∃ es, (initCom (tracer o r) major c d).2.kernel = d.kernel ++ es ∧
      ∀ info held, Known info c → Covered info held es := by
  cases c
  · exact initDevice_covered o r major rfl d
  · exact initDevice_covered o r major rfl d

theorem comInfo_known (c : Com) : Known comInfo c := by cases c <;> rfl

/-- A device that is initialised knows its port, and so do those that did. -/
theorem initCom_known (c : Com) (d : Loaded (List Event)) {c' : Com} (h : c' = c ∨ Known d.info c') :
    Known (initCom (tracer o r) major c d).2.info c' := by
  rw [Known, initCom_info, Function.update_apply]
  split
  · next hcc => exact hcc ▸ comInfo_known c
  · next hcc => exact h.resolve_left hcc

theorem initComs_covered : ∀ (cs : List Com) (d : Loaded (List Event)),
    let d' := (initComs (tracer o r) major cs d).2
    (∀ c, Known d.info c → Known d'.info c) ∧
      ∃ es, d'.kernel = d.kernel ++ es ∧ ∀ held, Covered d'.info held es
  | [], d => ⟨fun _ h => h, [], (List.append_nil _).symm, fun _ => trivial⟩
  | c :: cs, d => by
    have hc := initCom_known o r major c d (.inl rfl)
    have hkeep (c' : Com) (hc' : Known d.info c') := initCom_known o r major c d (.inr hc')
    obtain ⟨es, hes, hcov⟩ := initCom_covered o r major c d
    obtain ⟨hkeep', fs, hfs, hcov'⟩ := initComs_covered cs (initCom (tracer o r) major c d).2
    simp only [initComs]
    split
    · exact ⟨hkeep, es, hes, fun held => hcov _ held hc⟩
    · refine ⟨fun c' hc' => hkeep' c' (hkeep c' hc'), es ++ fs, ?_, fun held => ?_⟩
      · rw [hfs, hes, List.append_assoc]
      · exact (hcov _ held (hkeep' c hc)).append hcov'

theorem init_covered (behavior : Int32) (d : Loaded (List Event)) (hd : d.kernel = []) :
    let d' := (uart16550Init (tracer o r) behavior major d).2
    (∀ c, Known d.info c → Known d'.info c) ∧ ∀ held, Covered d'.info held d'.kernel := by
  obtain ⟨cls, info, kernel⟩ := d
  subst hd
  by_cases h : accepts behavior major = true
  · rw [uart16550Init_eq _ h]
    obtain ⟨hkeep, es, hes, hcov⟩ := initComs_covered o r major (selected behavior)
      ⟨((tracer o r).classCreate className []).1, info, []⟩
    refine ⟨hkeep, fun held => ?_⟩
    rw [List.nil_append] at hes
    exact hes.symm ▸ hcov held
  · simp only [uart16550Init, h, Bool.not_false, if_true]
    exact ⟨fun _ hc => hc, fun _ => trivial⟩

/-- An unload gives a region back first. -/
theorem cleanup_covered (behavior : Int32) (d : Loaded (List Event)) (hd : d.kernel = []) :
    let d' := uart16550Cleanup (tracer o r) behavior major d
    d'.info = d.info ∧ ∀ held, Covered d'.info held d'.kernel := by
  by_cases h₁ : behavior &&& optionCom1 = 0 <;> by_cases h₂ : behavior &&& optionCom2 = 0 <;>
    simp [uart16550Cleanup, uart16550CleanupDevice, h₁, h₂, hd, Covered]

end Trace

/-! ## Runs -/

section Runs

variable {C D : Type} [DecidableEq C] [DecidableEq D] {s s' : State C D} {c : Com}

/-- No call was made and the handler is not running. -/
structure Quiet (d : Device C D) : Prop where
  reads : ∀ x, (d.com.reads x).pc = .idle
  writes : ∀ x, (d.com.writes x).pc = .idle
  handler : d.com.handler = .idle
  ioctls : ∀ x, (d.ioctls x).pc = .idle

/-- The device has its port and the region there. -/
def Claimed (s : State C D) (c : Com) : Prop := Known s.info c ∧ basePort c ∈ s.held

structure Inv (s : State C D) : Prop where
  owned : Owned s
  irqs : ∀ irqNo ∈ s.irqs, Known s.info (handlerDevice irqNo)
  cdevs : ∀ c ∈ s.cdevs, Claimed s c
  used : ∀ c, Claimed s c ∨ Quiet (s.devices c)
  todo : Covered s.info s.held s.todo

theorem Quiet.not_goOn {d d' : Device C D} {a : Device.Act C D} (h : Quiet d) (ha : kind a = .goOn) :
    d.step a ≠ some d' := by
  cases a with
  | com a =>
    cases a with
    | read c alloc => simp [Device.step, ComDev.step, ComDev.readStep, h.reads]
    | write c alloc => simp [Device.step, ComDev.step, ComDev.writeStep, h.writes]
    | handler v => simp [Device.step, ComDev.step, ComDev.handlerStep, h.handler]
    | callRead | callWrite | irq => cases ha
  | ioctl x v => simp [Device.step, Device.ioctlStep, h.ioctls]
  | callIoctl => cases ha

omit [DecidableEq C] in
theorem comAccess_reg {s : ComDev.State C} {a : ComDev.Act C} {x : Access} (hx : ComDev.access s a = some x) :
    accessReg x < 8 := by
  cases a with
  | write c alloc =>
    simp only [ComDev.access] at hx
    split at hx <;> cases hx <;> decide
  | handler v =>
    unfold ComDev.access at hx
    cases hpc : s.handler <;> simp only [hpc] at hx <;> cases hx <;>
      simp [accessReg, ComDev.regIsr, ComDev.regLsr, ComDev.regThr, ComDev.regRbr]
  | callRead | callWrite | read | irq => cases hx

omit [DecidableEq C] [DecidableEq D] in
theorem access_reg {d : Device C D} {a : Device.Act C D} {x : Access} (hx : d.access a = some x) : accessReg x < 8 := by
  cases a with
  | com a => exact comAccess_reg hx
  | ioctl y v =>
    simp only [Device.access] at hx
    split at hx
    · exact setLineParameters_reg _ _ x (List.mem_of_getElem? hx)
    · cases hx
  | callIoctl => cases hx

omit [DecidableEq C] [DecidableEq D] in
theorem Owned.touch {port : Int32} {x : Access} (h : Owned s) (hport : port ∈ s.held) (hx : accessReg x < 8) :
    Owned (s.touch port x) := by
  intro e he
  rcases List.mem_append.mp he with he | he
  · exact h e he
  · obtain rfl := List.mem_singleton.mp he
    exact ⟨port, hport, by simp only; omega, by simp only; omega⟩

/-- A step of a device that has its region. -/
theorem Inv.deviceStep {a : Device.Act C D} (h : Inv s) (hc : Claimed s c) (hs : s.deviceStep c a = some s') :
    Inv s' := by
  obtain ⟨d, -, rfl⟩ := Option.map_eq_some_iff.mp hs
  have hport : portOf s.info c a = basePort c := portOf_eq hc.1
  have hused : ∀ c', Claimed s c' ∨ Quiet (Function.update s.devices c d c') := by
    intro c'
    rw [Function.update_apply]
    split
    · next hcc => exact .inl (hcc ▸ hc)
    · exact h.used c'
  split
  · next x hx =>
    rw [hport]
    exact ⟨Owned.touch h.owned hc.2 (access_reg hx), h.irqs, h.cdevs, hused, h.todo⟩
  · exact ⟨h.owned, h.irqs, h.cdevs, hused, h.todo⟩

omit [DecidableEq C] [DecidableEq D] in
theorem Inv.perform {e : Event} {es : List Event} (h : Inv s) (htodo : s.todo = e :: es)
    (hkept : e.isRelease = false) : Inv ({ s with todo := es }.perform e) := by
  obtain ⟨howned, hirqs, hcdevs, hused, hcov⟩ := h
  rw [htodo] at hcov
  cases e with
  | releaseRegion port => cases hkept
  | requestRegion port =>
    have hclaimed {c : Com} (hc : Claimed s c) : Claimed ({ s with todo := es }.perform (.requestRegion port)) c :=
      ⟨hc.1, List.mem_cons_of_mem port hc.2⟩
    exact ⟨howned, hirqs, fun c hc => hclaimed (hcdevs c hc), fun c => (hused c).imp_left hclaimed, hcov⟩
  | access port x => exact ⟨Owned.touch howned hcov.1.1 hcov.1.2, hirqs, hcdevs, hused, hcov.2⟩
  | initStruct c =>
    refine ⟨howned, hirqs, hcdevs, fun c' => (hused c').imp_right fun hq => ?_, hcov⟩
    simp only [State.perform, Function.update_apply]
    split
    · next hcc => exact hcc ▸ ⟨hq.reads, hq.writes, hq.handler, hq.ioctls⟩
    · exact hq
  | requestIrq irqNo => exact ⟨howned, List.forall_mem_cons.mpr ⟨hcov.1, hirqs⟩, hcdevs, hused, hcov.2⟩
  | freeIrq irqNo => exact ⟨howned, fun n hn => hirqs n (List.mem_of_mem_erase hn), hcdevs, hused, hcov⟩
  | cdevAdd c => exact ⟨howned, hirqs, List.forall_mem_cons.mpr ⟨hcov.1, hcdevs⟩, hused, hcov.2⟩
  | cdevDel c => exact ⟨howned, hirqs, fun c' hc' => hcdevs c' (List.mem_of_mem_erase hc'), hused, hcov⟩

omit [DecidableEq C] [DecidableEq D] in
/-- A load or unload begins: devices keep the port they know. -/
theorem Inv.begin {d : Loaded (List Event)} (h : Inv s) (hkeep : ∀ c, Known s.info c → Known d.info c)
    (hcov : ∀ held, Covered d.info held d.kernel) (hs : s.begin d = some s') : Inv s' := by
  unfold State.begin at hs
  split at hs <;> cases hs
  have hclaimed {c : Com} (hc : Claimed s c) : Claimed { s with info := d.info, todo := d.kernel } c :=
    ⟨hkeep c hc.1, hc.2⟩
  exact ⟨h.owned, fun n hn => hkeep _ (h.irqs n hn), fun c hc => hclaimed (h.cdevs c hc),
    fun c => (h.used c).imp_left hclaimed, hcov s.held⟩

theorem step_inv {a : Act C D} (h : Inv s) (hkept : Kept s a) (hs : step s a = some s') : Inv s' := by
  cases a with
  | load behavior major o r =>
    obtain ⟨hkeep, hcov⟩ := init_covered o r major behavior s.driver rfl
    exact h.begin hkeep hcov hs
  | unload behavior major =>
    obtain ⟨hinfo, hcov⟩ := cleanup_covered (fun _ => 0) (fun _ => ⟨0, 0, 0, 0, 0⟩) major behavior s.driver rfl
    exact h.begin (fun c hc => by rw [hinfo]; exact hc) hcov hs
  | main =>
    simp only [step] at hs
    split at hs <;> cases hs
    next e es htodo =>
    refine h.perform htodo ?_
    simpa [Kept, htodo] using hkept
  | device c a =>
    simp only [step] at hs
    split at hs
    · split at hs
      · next hc => exact h.deviceStep (h.cdevs c hc) hs
      · cases hs
    · cases hs
    · next hkind =>
      refine h.deviceStep ((h.used c).resolve_right fun hq => ?_) hs
      -- A device that was never used has nothing to go on with.
      obtain ⟨d, hd, -⟩ := Option.map_eq_some_iff.mp hs
      exact hq.not_goOn hkind hd
  | irq irqNo =>
    simp only [step] at hs
    split at hs
    · next hirq => exact h.deviceStep ⟨h.irqs irqNo hirq, hkept⟩ hs
    · cases hs

/-- **Ports are touched only while they are held**, in every run of loads
and unloads with any outcome, calls and interrupts, as long as
`uart16550_hw_cleanup_device` is not entered and no interrupt comes before
the region of its device is held. -/
theorem owned_of_kept (h : (system C D).ReachableBy Kept s) : Owned s := by
  refine (h.invariant (I := Inv) ?_ fun s a s' hI hok hs => step_inv hI hok hs).owned
  refine ⟨?_, ?_, ?_, fun c => .inr ⟨fun _ => rfl, fun _ => rfl, rfl, fun _ => rfl⟩, trivial⟩ <;>
    exact fun _ hm => nomatch hm

end Runs

/-- COM1 is loaded, every call succeeding, and LSR reads as 0. -/
def loadCom1 : List (Act Unit Unit) :=
  .load 1 42 (fun _ => 0) (fun _ => ⟨0, 0, 0, 0, 0⟩) :: List.replicate 17 .main

/-- Then an interrupt comes and a line is set. -/
def loadAndUse : List (Act Unit Unit) :=
  loadCom1 ++ [.irq 4, .device .com1 (.com (.handler 0)), .device .com1 (.callIoctl () ioctlSetLine defaultParam),
    .device .com1 (.ioctl () 0), .device .com1 (.com (.handler 0))]

theorem owned_of_loadAndUse : ∃ s, (system Unit Unit).exec (init Unit Unit) loadAndUse = some s ∧
    s.log.length = 16 ∧ Owned s :=
  ⟨_, rfl, rfl, owned_of_kept (System.ReachableBy.steps .init loadAndUse (by decide) rfl)⟩

/-- Then it is unloaded, up to the first access. -/
def loadAndUnload : List (Act Unit Unit) := loadCom1 ++ [.unload 1 42, .main, .main]

/-- An interrupt comes between `request_irq` and `request_region`. -/
def earlyInterrupt : List (Act Unit Unit) :=
  [.load 1 42 (fun _ => 0) (fun _ => ⟨0, 0, 0, 0, 0⟩), .main, .main, .irq 4, .device .com1 (.com (.handler 0))]

/-- FCR is written after its region was given back, and ISR is read before
its region is held. -/
theorem not_owned : (∃ s, (system Unit Unit).exec (init Unit Unit) loadAndUnload = some s ∧
      s.log.getLast? = some (0x3fa, []) ∧ ¬ Owned s) ∧
    ∃ s, (system Unit Unit).exec (init Unit Unit) earlyInterrupt = some s ∧ s.log = [(0x3fa, [])] ∧ ¬ Owned s :=
  ⟨⟨_, rfl, rfl, fun h => by
      obtain ⟨_, hm, -⟩ := h (0x3fa, []) (by decide)
      cases hm⟩,
    ⟨_, rfl, rfl, fun h => by
      obtain ⟨_, hm, -⟩ := h (0x3fa, []) (by decide)
      cases hm⟩⟩

end Lmsel4.Regions
