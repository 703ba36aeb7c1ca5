/-
Two devices under one driver.

Which device an operation works on is decided in four ways: `open` goes by
the minor number, the calls on a file by the `private_data` that `open`
left there, a write computes its port by comparing pointers, and the
handler goes by the IRQ. They agree (`selects_iff`), so the operations of
one device act on that device alone, and two runs with the same operations
of it show the same of it whatever the other did (`isolated`).
-/
import Lmsel4.Regions
import Lmsel4.LoadCycle

namespace Lmsel4.Isolation

open ComDev (Access)
open Driver
open Regions (basePort handlerDevice accessReg portOf access_reg portOf_eq comInfo_known)

/-- A `struct file`: the minor number it was opened with, and its
`private_data`. -/
structure File where
  minor : Int32
  privateData : Com

/-- The device `uart16550_open` leaves in the file. -/
def uart16550Open (minor : Int32) : Com := if minor = 0 then .com1 else .com2

/-- The files `F` opened so far, the file each call was made on, the
devices, and the accesses made, by port. -/
structure State (C D F : Type) where
  files : F → Option File
  readOf : C → Option F
  writeOf : C → Option F
  ioctlOf : D → Option F
  devices : Com → Device C D
  log : List (Int × Access)

/-- A file is opened, a call is made on a file or goes on, a handler is
entered for an IRQ or goes on. -/
inductive Act (C D F : Type)
  | open (f : F) (minor : Int32)
  | callRead (f : F) (c : C) (size : UInt32)
  | callWrite (f : F) (c : C) (user : List UInt8)
  | callIoctl (f : F) (d : D) (cmd : UInt32) (line : LineInfo)
  | read (c : C) (alloc : Bool)
  | write (c : C) (alloc : Bool)
  | ioctl (d : D) (v : UInt8)
  | irq (irqNo : Int32)
  | handler (irqNo : Int32) (v : UInt8)

section Steps

variable {C D F : Type} [DecidableEq C] [DecidableEq D] [DecidableEq F]

/-- The device the code works on. -/
def State.selects (s : State C D F) : Act C D F → Option Com
  | .open _ minor => some (uart16550Open minor)
  | .callRead f _ _ | .callWrite f _ _ | .callIoctl f _ _ _ => (s.files f).map File.privateData
  | .read c _ => ((s.readOf c).bind s.files).map File.privateData
  | .write c _ => ((s.writeOf c).bind s.files).map File.privateData
  | .ioctl d _ => ((s.ioctlOf d).bind s.files).map File.privateData
  | .irq irqNo | .handler irqNo _ => some (handlerDevice irqNo)

/-- What it does there; `open` does nothing. -/
def deviceAct : Act C D F → Option (Device.Act C D)
  | .open _ _ => none
  | .callRead _ c size => some (.com (.callRead c size))
  | .callWrite _ c user => some (.com (.callWrite c user))
  | .callIoctl _ d cmd line => some (.callIoctl d cmd line)
  | .read c alloc => some (.com (.read c alloc))
  | .write c alloc => some (.com (.write c alloc))
  | .ioctl d v => some (.ioctl d v)
  | .irq _ => some (.com .irq)
  | .handler _ v => some (.com (.handler v))

/-- A file is opened once, with the number of a device that was added; a
call is made once; an IRQ is one that was requested. -/
def State.allows (info : Com → ComInfo) (s : State C D F) : Act C D F → Bool
  | .open f minor => (s.files f).isNone && (minor == (info .com1).minor || minor == (info .com2).minor)
  | .callRead _ c _ => (s.readOf c).isNone
  | .callWrite _ c _ => (s.writeOf c).isNone
  | .callIoctl _ d _ _ => (s.ioctlOf d).isNone
  | .read _ _ | .write _ _ | .ioctl _ _ => true
  | .irq irqNo | .handler irqNo _ => irqNo == (info .com1).irqNo || irqNo == (info .com2).irqNo

/-- What is kept of an action beside the device. -/
def State.record (s : State C D F) : Act C D F → State C D F
  | .open f minor =>
    { s with files := Function.update s.files f (some { minor, privateData := uart16550Open minor }) }
  | .callRead f c _ => { s with readOf := Function.update s.readOf c (some f) }
  | .callWrite f c _ => { s with writeOf := Function.update s.writeOf c (some f) }
  | .callIoctl f d _ _ => { s with ioctlOf := Function.update s.ioctlOf d (some f) }
  | .read _ _ | .write _ _ | .ioctl _ _ | .irq _ | .handler _ _ => s

/-- The access a device makes, by port. -/
def touched (base : Int32) (d : Device C D) (a : Device.Act C D) : List (Int × Access) :=
  (d.access a).toList.map fun x => (base.toInt + accessReg x, x)

def State.deviceStep (info : Com → ComInfo) (s : State C D F) (c : Com) (a : Device.Act C D) :
    Option (State C D F) :=
  ((s.devices c).step a).map fun d =>
    { s with
      devices := Function.update s.devices c d
      log := s.log ++ touched (portOf info c a) (s.devices c) a }

def step (info : Com → ComInfo) (s : State C D F) (a : Act C D F) : Option (State C D F) :=
  if s.allows info a then
    (s.selects a).bind fun c =>
      match deviceAct a with
      | none => some (s.record a)
      | some x => (s.record a).deviceStep info c x
  else none

def init (C D F : Type) : State C D F where
  files _ := none
  readOf _ := none
  writeOf _ := none
  ioctlOf _ := none
  devices _ := Device.init C D
  log := []

/-- The driver with the devices as a load has set them. -/
def system (C D F : Type) [DecidableEq C] [DecidableEq D] [DecidableEq F] (info : Com → ComInfo) :
    System (State C D F) (Act C D F) where
  init := init C D F
  step := step info

/-! ## The operations of a device, and what they show -/

/-- COM1 has minor number 0 and IRQ 4, COM2 has 1 and 3. -/
def minorOf : Com → Int32
  | .com1 => 0
  | .com2 => 1

def irqOf : Com → Int32
  | .com1 => 4
  | .com2 => 3

/-- The file was opened with the number of the device. -/
def openedAs (c : Com) (file : Option File) : Bool := file.any fun f => f.minor == minorOf c

/-- The action is one of an operation of the device. -/
def isOf (c : Com) (s : State C D F) : Act C D F → Bool
  | .open _ minor => minor == minorOf c
  | .callRead f _ _ | .callWrite f _ _ | .callIoctl f _ _ _ => openedAs c (s.files f)
  | .read x _ => openedAs c ((s.readOf x).bind s.files)
  | .write x _ => openedAs c ((s.writeOf x).bind s.files)
  | .ioctl x _ => openedAs c ((s.ioctlOf x).bind s.files)
  | .irq irqNo | .handler irqNo _ => irqNo == irqOf c

/-- A device with its buffers, locks, flags and calls, and the accesses to
its eight ports. -/
structure View (C D : Type) where
  device : Device C D
  accesses : List (Int × Access)

def portsOf (c : Com) (e : Int × Access) : Bool :=
  decide ((basePort c).toInt ≤ e.1) && decide (e.1 < (basePort c).toInt + 8)

def view (c : Com) (s : State C D F) : View C D :=
  { device := s.devices c, accesses := s.log.filter (portsOf c) }

/-- The device alone. -/
def alone (C D F : Type) [DecidableEq C] [DecidableEq D] (c : Com) : System (View C D) (Act C D F) where
  init := { device := Device.init C D, accesses := [] }
  step v a :=
    match deviceAct a with
    | none => some v
    | some x => (v.device.step x).map fun device =>
      { device, accesses := v.accesses ++ touched (basePort c) v.device x }

end Steps

/-! ## The selections agree -/

section Selections

variable {C D F : Type} {s s' : State C D F} {c c' : Com}

theorem minorOf_inj : minorOf c = minorOf c' ↔ c' = c := by
  cases c <;> cases c' <;> decide

/-- `private_data` is the device of the number. -/
def Inv (s : State C D F) : Prop := ∀ f x, s.files f = some x → x.minor = minorOf x.privateData

theorem openedAs_iff {file : Option File} (hfile : ∀ x, file = some x → x.minor = minorOf x.privateData)
    (h : file.map File.privateData = some c) : openedAs c' file = true ↔ c' = c := by
  obtain ⟨x, hx, rfl⟩ := Option.map_eq_some_iff.mp h
  subst hx
  simp only [openedAs, Option.any_some, beq_iff_eq, hfile x rfl]
  exact minorOf_inj

theorem Inv.bind {T : Type} (h : Inv s) {of : T → Option F} {t : T} {x : File}
    (hx : (of t).bind s.files = some x) : x.minor = minorOf x.privateData := by
  obtain ⟨f, -, hf⟩ := Option.bind_eq_some_iff.mp hx
  exact h f x hf

theorem uart16550Open_iff {minor : Int32} (h : minor = 0 ∨ minor = 1) :
    minor = minorOf c ↔ c = uart16550Open minor := by
  rcases h with rfl | rfl <;> cases c <;> decide

theorem handlerDevice_iff {irqNo : Int32} (h : irqNo = 4 ∨ irqNo = 3) : irqNo = irqOf c ↔ c = handlerDevice irqNo := by
  rcases h with rfl | rfl <;> cases c <;> decide

/-- An operation is one of the device the code selects for it. -/
theorem selects_iff {a : Act C D F} (h : Inv s) (ha : s.allows comInfo a = true) (hc : s.selects a = some c) :
    isOf c' s a = true ↔ c' = c := by
  cases a with
  | «open» f minor =>
    simp only [State.allows, comInfo, Bool.and_eq_true, Bool.or_eq_true, beq_iff_eq] at ha
    simp only [State.selects, Option.some.injEq] at hc
    rw [isOf, beq_iff_eq, uart16550Open_iff ha.2, hc]
  | callRead f | callWrite f | callIoctl f => exact openedAs_iff (h f) hc
  | read | write | ioctl => exact openedAs_iff (fun x hx => h.bind hx) hc
  | irq irqNo | handler irqNo =>
    simp only [State.allows, comInfo, Bool.or_eq_true, beq_iff_eq] at ha
    simp only [State.selects, Option.some.injEq] at hc
    rw [isOf, beq_iff_eq, handlerDevice_iff ha, hc]

end Selections

/-! ## Steps -/

section Views

variable {C D F : Type} [DecidableEq C] [DecidableEq D] [DecidableEq F] {s s' : State C D F} {c c' : Com}
  {a : Act C D F}

omit [DecidableEq C] [DecidableEq D] [DecidableEq F] in
theorem touched_same (d : Device C D) (x : Device.Act C D) :
    (touched (basePort c) d x).filter (portsOf c) = touched (basePort c) d x := by
  rw [List.filter_eq_self]
  intro e he
  obtain ⟨y, hy, rfl⟩ := List.mem_map.mp he
  have hreg := access_reg (Option.mem_toList.mp hy)
  simp only [portsOf, Bool.and_eq_true, decide_eq_true_eq]
  omega

omit [DecidableEq C] [DecidableEq D] [DecidableEq F] in
theorem touched_other (h : c' ≠ c) (d : Device C D) (x : Device.Act C D) :
    (touched (basePort c) d x).filter (portsOf c') = [] := by
  rw [List.filter_eq_nil_iff]
  intro e he
  obtain ⟨y, hy, rfl⟩ := List.mem_map.mp he
  have hreg := access_reg (Option.mem_toList.mp hy)
  have hbase : (basePort c').toInt + 8 ≤ (basePort c).toInt ∨ (basePort c).toInt + 8 ≤ (basePort c').toInt := by
    cases c <;> cases c' <;> first | exact absurd rfl h | decide
  simp only [portsOf, Bool.and_eq_true, decide_eq_true_eq]
  omega

theorem record_devices : (s.record a).devices = s.devices := by cases a <;> rfl

theorem record_log : (s.record a).log = s.log := by cases a <;> rfl

theorem record_inv (h : Inv s) (ha : s.allows comInfo a = true) : Inv (s.record a) := by
  cases a with
  | «open» f minor =>
    simp only [State.allows, comInfo, Bool.and_eq_true, Bool.or_eq_true, beq_iff_eq] at ha
    intro f' x hx
    simp only [State.record, Function.update_apply] at hx
    split at hx
    · cases hx
      exact (uart16550Open_iff ha.2).mpr rfl
    · exact h f' x hx
  | callRead | callWrite | callIoctl | read | write | ioctl | irq | handler => exact h

/-- A step is of the device the code selects: it records the action, and
does to that device what the action does. -/
theorem step_cases (hs : step comInfo s a = some s') : s.allows comInfo a = true ∧ ∃ c, s.selects a = some c ∧
    s'.files = (s.record a).files ∧
    match deviceAct a with
    | none => s'.devices = s.devices ∧ s'.log = s.log
    | some x => ∃ d, (s.devices c).step x = some d ∧ s'.devices = Function.update s.devices c d ∧
        s'.log = s.log ++ touched (basePort c) (s.devices c) x := by
  unfold step at hs
  split at hs
  · next ha =>
    obtain ⟨c, hc, hs⟩ := Option.bind_eq_some_iff.mp hs
    refine ⟨ha, c, hc, ?_⟩
    split at hs
    · cases hs
      simp only [record_devices, record_log, and_self]
    · obtain ⟨d, hd, rfl⟩ := Option.map_eq_some_iff.mp hs
      simp only [record_devices] at hd
      simp only [record_devices, record_log, portOf_eq (comInfo_known c)]
      exact ⟨trivial, d, hd, rfl, trivial⟩
  · cases hs

theorem step_inv (h : Inv s) (hs : step comInfo s a = some s') : Inv s' := by
  obtain ⟨ha, c, -, hfiles, -⟩ := step_cases hs
  have hrecord := record_inv h ha
  unfold Inv at hrecord ⊢
  rw [hfiles]
  exact hrecord

/-- An operation of the device acts on its view alone. -/
theorem step_seen (h : Inv s) (hof : isOf c s a = true) (hs : step comInfo s a = some s') :
    (alone C D F c).step (view c s) a = some (view c s') := by
  obtain ⟨ha, c', hc', -, hdev⟩ := step_cases hs
  obtain rfl := (selects_iff h ha hc').mp hof
  split at hdev
  · next hnone => simp only [alone, hnone, view, hdev]
  · next x hx =>
    obtain ⟨d, hd, hdevices, hlog⟩ := hdev
    simp only [alone, hx, view, hd, hdevices, hlog, Option.map_some, Function.update_self, List.filter_append,
      touched_same]

/-- An operation of the other device leaves it. -/
theorem step_unseen (h : Inv s) (hof : isOf c s a = false) (hs : step comInfo s a = some s') :
    view c s' = view c s := by
  obtain ⟨ha, c', hc', -, hdev⟩ := step_cases hs
  have hne : c ≠ c' := fun heq => by
    rw [(selects_iff h ha hc').mpr heq] at hof
    cases hof
  split at hdev
  · simp only [view, hdev]
  · obtain ⟨d, -, hdevices, hlog⟩ := hdev
    simp only [view, hdevices, hlog, Function.update_of_ne hne, List.filter_append, touched_other hne,
      List.append_nil]

/-- **A device shows nothing of the other.** On any kernel that has loaded
both, two runs with the same operations of a device leave the same buffers,
locks, flags and results of it and have made the same accesses to its
ports. -/
theorem isolated {σ : Type} {K : Kernel σ} {major : Int32} {d : Loaded σ} {as bs : List (Act C D F)}
    {t t' : State C D F} (hload : (uart16550Init K optionBoth major d).1 = 0) (c : Com) :
    let M := system C D F (uart16550Init K optionBoth major d).2.info
    M.exec M.init as = some t → M.exec M.init bs = some t' → M.seen (isOf c) M.init as = M.seen (isOf c) M.init bs →
      view c t = view c t' := by
  rw [init_info hload]
  intro M hs ht heq
  refine System.view_eq (I := Inv) (N := alone C D F c) (fun _ _ _ h hs => step_inv h hs)
    (fun _ _ _ h hof hs => step_seen h hof hs) (fun _ _ _ h hof hs => step_unseen h hof hs) ?_ hs ht heq
  exact fun f x hx => nomatch hx

end Views

/-- A driver not loaded yet, on liblinux with nothing registered. -/
def unloaded : Loaded LoadCycle.Linux :=
  { uart16550Class := .null, info := fun _ => { minor := 0, irqNo := 0, basePort := 0 }
    kernel := { classes := [], allDevs := [] } }

/-- A handler run on COM1 that reads one byte. -/
def com1Run : List (Act Nat Nat Nat) :=
  [.open 1 0, .callRead 1 1 16, .irq 4, .handler 4 0x04, .handler 4 0x01, .handler 4 0x41]

/-- The same, among operations of COM2. -/
def bothRun : List (Act Nat Nat Nat) :=
  [.open 2 1, .irq 3, .open 1 0, .callWrite 2 2 [0x42], .callRead 1 1 16, .handler 3 0x04, .irq 4, .handler 4 0x04,
    .handler 3 0x00, .handler 4 0x01, .callIoctl 2 3 ioctlSetLine defaultParam, .ioctl 3 0x00, .handler 4 0x41]

/-- The devices as a load of both with major number 42 sets them. -/
def loadedInfo : Com → ComInfo := (uart16550Init LoadCycle.linux optionBoth 42 unloaded).2.info

theorem isolated_com1 : (uart16550Init LoadCycle.linux optionBoth 42 unloaded).1 = 0 ∧
    ∃ t t', (system Nat Nat Nat loadedInfo).exec (init Nat Nat Nat) com1Run = some t ∧
      (system Nat Nat Nat loadedInfo).exec (init Nat Nat Nat) bothRun = some t' ∧
      t.log ≠ t'.log ∧ view .com1 t = view .com1 t' :=
  have hload : (uart16550Init LoadCycle.linux optionBoth 42 unloaded).1 = 0 := by decide
  have hs : (system Nat Nat Nat loadedInfo).exec (init Nat Nat Nat) com1Run = some _ := rfl
  have ht : (system Nat Nat Nat loadedInfo).exec (init Nat Nat Nat) bothRun = some _ := rfl
  ⟨hload, _, _, hs, ht, by decide, isolated hload .com1 hs ht rfl⟩

end Lmsel4.Isolation
