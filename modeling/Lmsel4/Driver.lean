/-
Loading and unloading the driver (`uart16550_init` and `uart16550_cleanup`
of `uart16550.c`), over whatever kernel it runs on.

The kernel calls the driver makes are a structure of operations on a kernel
state, so that the driver is written once: on a kernel whose calls may fail
in any way, to say what is left behind, and on liblinux's own, to say what
a second load meets.
-/
import Lmsel4.Liblinux
import Mathlib.Logic.Function.Basic

namespace Lmsel4.Driver

/-- What a call that returns a pointer returns. -/
inductive Ptr
  | null
  | obj
  | err (code : Int32)
  deriving DecidableEq

/-- `IS_ERR`. -/
@[simp] def Ptr.isErr : Ptr → Bool
  | .err _ => true
  | _ => false

/-- `MKDEV`. -/
def mkdev (major minor : Int32) : UInt32 := (major <<< 20 ||| minor).toUInt32

/-- The two `struct com_dev` of the driver, with the `cdev` of each. -/
inductive Com
  | com1
  | com2
  deriving DecidableEq

/-- The kernel calls of the driver, on a kernel state `σ`. A `cdev` is named
by the `com_dev` it is part of. -/
structure Kernel (σ : Type) where
  classCreate : (name : List Char) → σ → Ptr × σ
  classUnregister : (cls : Ptr) → σ → σ
  classDestroy : (cls : Ptr) → σ → σ
  registerChrdevRegion : (dev count : UInt32) → σ → Int32 × σ
  unregisterChrdevRegion : (dev count : UInt32) → σ → σ
  requestIrq : (irq : Int32) → (device : Com) → σ → Int32 × σ
  freeIrq : (irq : Int32) → (device : Com) → σ → σ
  deviceCreate : (cls : Ptr) → (dev : UInt32) → (name : List Char) → σ → Ptr × σ
  deviceDestroy : (cls : Ptr) → (dev : UInt32) → σ → σ
  hwSetupDevice : (port : Int32) → σ → Int32 × σ
  hwCleanupDevice : (port : Int32) → σ → σ
  cdevAdd : (cdev : Com) → (dev count : UInt32) → σ → Int32 × σ
  cdevDel : (cdev : Com) → σ → σ

/-- The fields of a `com_dev` that loading sets for unloading. -/
structure ComInfo where
  minor : Int32
  irqNo : Int32
  basePort : Int32
  deriving DecidableEq

/-- The driver's static data and the kernel it is loaded into. -/
structure Loaded (σ : Type) where
  uart16550Class : Ptr
  info : Com → ComInfo
  kernel : σ

variable {σ : Type}

@[simp] def Loaded.call {α : Type} (d : Loaded σ) (op : σ → α × σ) : α × Loaded σ :=
  ((op d.kernel).1, { d with kernel := (op d.kernel).2 })

@[simp] def Loaded.run (d : Loaded σ) (op : σ → σ) : Loaded σ := { d with kernel := op d.kernel }

@[simp] def Loaded.setInfo (d : Loaded σ) (device : Com) (i : ComInfo) : Loaded σ :=
  { d with info := Function.update d.info device i }

section Code

variable (K : Kernel σ)

/-! The labels of `uart16550_init_device`, each falling into the next. -/

@[simp] def failRequestIrq (dev : UInt32) (rc : Int32) (d : Loaded σ) : Int32 × Loaded σ :=
  (rc, d.run (K.unregisterChrdevRegion dev 1))

@[simp] def failDeviceCreate (device : Com) (dev : UInt32) (irqNo rc : Int32) (d : Loaded σ) : Int32 × Loaded σ :=
  failRequestIrq K dev rc (d.run (K.freeIrq irqNo device))

@[simp] def failHwSetup (device : Com) (dev : UInt32) (irqNo rc : Int32) (d : Loaded σ) : Int32 × Loaded σ :=
  failDeviceCreate K device dev irqNo rc (d.run (K.deviceDestroy d.uart16550Class dev))

@[simp] def failInitComDev (device : Com) (dev : UInt32) (baseport irqNo rc : Int32) (d : Loaded σ) :
    Int32 × Loaded σ :=
  failHwSetup K device dev irqNo rc (d.run (K.hwCleanupDevice baseport))

def uart16550InitDevice (device : Com) (major minor : Int32) (name : List Char) (baseport irqNo : Int32)
    (d : Loaded σ) : Int32 × Loaded σ :=
  let dev := mkdev major minor
  let d := d.setInfo device { minor, irqNo, basePort := baseport }
  let (rc, d) := d.call (K.registerChrdevRegion dev 1)
  if rc ≠ 0 then (rc, d) else
  let (rc, d) := d.call (K.requestIrq irqNo device)
  if rc ≠ 0 then failRequestIrq K dev rc d else
  let (com, d) := d.call (K.deviceCreate d.uart16550Class dev name)
  -- `rc` is still that of `request_irq`.
  if com.isErr then failDeviceCreate K device dev irqNo rc d else
  let (rc, d) := d.call (K.hwSetupDevice baseport)
  if rc ≠ 0 then failHwSetup K device dev irqNo rc d else
  let (rc, d) := d.call (K.cdevAdd device dev 1)
  if rc ≠ 0 then failInitComDev K device dev baseport irqNo rc d else
  (0, d)

def className : List Char := ['u', 'a', 'r', 't', '1', '6', '5', '5', '0']

def optionCom1 : Int32 := 1
def optionCom2 : Int32 := 2
def optionBoth : Int32 := 3

/-- The checks `uart16550_init` makes of its parameters. -/
def accepts (behavior major : Int32) : Bool :=
  (behavior == optionBoth || behavior == optionCom1 || behavior == optionCom2) &&
    !(decide (0 > major) || decide (major > ((1 : Int32) <<< 13) - 1))

def initCom (major : Int32) : Com → Loaded σ → Int32 × Loaded σ
  | .com1 => uart16550InitDevice K .com1 major 0 ['c', 'o', 'm', '1'] 0x3f8 4
  | .com2 => uart16550InitDevice K .com2 major 1 ['c', 'o', 'm', '2'] 0x2f8 3

def uart16550Init (behavior major : Int32) (d : Loaded σ) : Int32 × Loaded σ :=
  if !accepts behavior major then (-einval, d) else
  let (cls, d) := d.call (K.classCreate className)
  let d := { d with uart16550Class := cls }
  let (rc, d) := if behavior &&& optionCom1 ≠ 0 then initCom K major .com1 d else (0, d)
  if rc ≠ 0 then (rc, d) else
  let (rc, d) := if behavior &&& optionCom2 ≠ 0 then initCom K major .com2 d else (0, d)
  if rc ≠ 0 then (rc, d) else (0, d)

def uart16550CleanupDevice (major : Int32) (d : Loaded σ) (device : Com) : Loaded σ :=
  let i := d.info device
  let dev := mkdev major i.minor
  let d := d.run (K.hwCleanupDevice i.basePort)
  let d := d.run (K.freeIrq i.irqNo device)
  let d := d.run (K.deviceDestroy d.uart16550Class dev)
  let d := d.run (K.unregisterChrdevRegion dev 1)
  d.run (K.cdevDel device)

def uart16550Cleanup (behavior major : Int32) (d : Loaded σ) : Loaded σ :=
  let d := if behavior &&& optionCom1 ≠ 0 then uart16550CleanupDevice K major d .com1 else d
  let d := if behavior &&& optionCom2 ≠ 0 then uart16550CleanupDevice K major d .com2 else d
  let d := d.run (K.classUnregister d.uart16550Class)
  d.run (K.classDestroy d.uart16550Class)

/-! ## By the list of devices -/

/-- The devices of `behavior`, in the order they are initialised. -/
def selected (behavior : Int32) : List Com :=
  (if behavior &&& optionCom1 ≠ 0 then [.com1] else []) ++ if behavior &&& optionCom2 ≠ 0 then [.com2] else []

/-- Devices in order, up to the first that fails. -/
def initComs (major : Int32) : List Com → Loaded σ → Int32 × Loaded σ
  | [], d => (0, d)
  | c :: cs, d =>
    let (rc, d) := initCom K major c d
    if rc ≠ 0 then (rc, d) else initComs major cs d

theorem uart16550Init_eq {behavior major : Int32} (h : accepts behavior major = true) (d : Loaded σ) :
    uart16550Init K behavior major d =
      initComs K major (selected behavior)
        { d with
          uart16550Class := (K.classCreate className d.kernel).1
          kernel := (K.classCreate className d.kernel).2 } := by
  by_cases h₁ : behavior &&& optionCom1 = 0 <;> by_cases h₂ : behavior &&& optionCom2 = 0 <;>
    simp [uart16550Init, h, selected, h₁, h₂, initComs]

variable {K} in
theorem accepts_of_init {behavior major : Int32} {d : Loaded σ} (h : (uart16550Init K behavior major d).1 = 0) :
    accepts behavior major = true := by
  cases ha : accepts behavior major with
  | true => rfl
  | false =>
    simp only [uart16550Init, ha, Bool.not_false, if_true] at h
    exact absurd h (by decide)

end Code

/-! ## What a load sets -/

/-- The fields of each device, once set. -/
def comInfo : Com → ComInfo
  | .com1 => { minor := 0, irqNo := 4, basePort := 0x3f8 }
  | .com2 => { minor := 1, irqNo := 3, basePort := 0x2f8 }

section Info

variable {K : Kernel σ} {major : Int32}

theorem initDevice_info {device : Com} {minor baseport irqNo : Int32} {name : List Char} {d : Loaded σ} :
    (uart16550InitDevice K device major minor name baseport irqNo d).2.info =
      Function.update d.info device { minor, irqNo, basePort := baseport } := by
  have hsplit {c : Prop} [Decidable c] {r r' : Int32 × Loaded σ} {i : Com → ComInfo} (hr : r.2.info = i)
      (hr' : r'.2.info = i) : (if c then r else r').2.info = i := by
    split
    · exact hr
    · exact hr'
  exact hsplit rfl (hsplit rfl (hsplit rfl (hsplit rfl (hsplit rfl rfl))))

theorem initCom_info (c : Com) (d : Loaded σ) :
    (initCom K major c d).2.info = Function.update d.info c (comInfo c) := by
  cases c <;> exact initDevice_info

/-- Both devices are set by a load of both that succeeds. -/
theorem init_info {d : Loaded σ} (h : (uart16550Init K optionBoth major d).1 = 0) :
    (uart16550Init K optionBoth major d).2.info = comInfo := by
  have hsel : selected optionBoth = [.com1, .com2] := by decide
  have ha := accepts_of_init h
  rw [uart16550Init_eq K ha, hsel] at h ⊢
  simp only [initComs] at h ⊢
  split at h
  · next hrc => exact absurd h hrc
  · next hrc =>
    rw [if_neg hrc]
    have hinfo : ∀ d' : Loaded σ, d'.info = Function.update d.info .com1 (comInfo .com1) →
        (initCom K major .com2 d').2.info = comInfo := by
      intro d' hd'
      rw [initCom_info, hd']
      funext c
      cases c <;> rfl
    split
    · exact hinfo _ (initCom_info .com1 _)
    · exact hinfo _ (initCom_info .com1 _)

end Info

/-! ## What a load keeps -/

/-- Every call a load may make keeps `I`. -/
structure Kernel.Keeps (K : Kernel σ) (I : σ → Prop) : Prop where
  classCreate : ∀ {name k}, I k → I (K.classCreate name k).2
  registerChrdevRegion : ∀ {dev count k}, I k → I (K.registerChrdevRegion dev count k).2
  unregisterChrdevRegion : ∀ {dev count k}, I k → I (K.unregisterChrdevRegion dev count k)
  requestIrq : ∀ {irqNo device k}, I k → I (K.requestIrq irqNo device k).2
  freeIrq : ∀ {irqNo device k}, I k → I (K.freeIrq irqNo device k)
  deviceCreate : ∀ {cls dev name k}, I k → I (K.deviceCreate cls dev name k).2
  deviceDestroy : ∀ {cls dev k}, I k → I (K.deviceDestroy cls dev k)
  hwSetupDevice : ∀ {port k}, I k → I (K.hwSetupDevice port k).2
  hwCleanupDevice : ∀ {port k}, I k → I (K.hwCleanupDevice port k)
  cdevAdd : ∀ {cdev dev count k}, I k → I (K.cdevAdd cdev dev count k).2

section Keeps

variable {K : Kernel σ} {I : σ → Prop} {major : Int32}

theorem Kernel.Keeps.initDevice (h : K.Keeps I) {device : Com} {minor baseport irqNo : Int32} {name : List Char}
    {d : Loaded σ} (hd : I d.kernel) :
    I (uart16550InitDevice K device major minor name baseport irqNo d).2.kernel := by
  have hregion : I (K.registerChrdevRegion (mkdev major minor) 1 d.kernel).2 := h.registerChrdevRegion hd
  have hirq : I (K.requestIrq irqNo device _).2 := h.requestIrq hregion
  have hdevice : I (K.deviceCreate d.uart16550Class (mkdev major minor) name _).2 := h.deviceCreate hirq
  have hports : I (K.hwSetupDevice baseport _).2 := h.hwSetupDevice hdevice
  have hcdev : I (K.cdevAdd device (mkdev major minor) 1 _).2 := h.cdevAdd hports
  have hsplit {c : Prop} [Decidable c] {r r' : Int32 × Loaded σ} (hr : I r.2.kernel) (hr' : I r'.2.kernel) :
      I (if c then r else r').2.kernel := by
    split
    · exact hr
    · exact hr'
  refine hsplit hregion (hsplit (h.unregisterChrdevRegion hirq) (hsplit ?_ (hsplit ?_ (hsplit ?_ hcdev))))
  · exact h.unregisterChrdevRegion (h.freeIrq hdevice)
  · exact h.unregisterChrdevRegion (h.freeIrq (h.deviceDestroy hports))
  · exact h.unregisterChrdevRegion (h.freeIrq (h.deviceDestroy (h.hwCleanupDevice hcdev)))

theorem Kernel.Keeps.initComs (h : K.Keeps I) : ∀ (cs : List Com) {d : Loaded σ}, I d.kernel →
    I (initComs K major cs d).2.kernel
  | [], _, hd => hd
  | c :: cs, d, hd => by
    have hc : I (initCom K major c d).2.kernel := by
      cases c
      · exact h.initDevice hd
      · exact h.initDevice hd
    simp only [Driver.initComs]
    split
    · exact hc
    · exact h.initComs cs hc

theorem Kernel.Keeps.init (h : K.Keeps I) {behavior : Int32} {d : Loaded σ} (hd : I d.kernel) :
    I (uart16550Init K behavior major d).2.kernel := by
  by_cases ha : accepts behavior major = true
  · rw [uart16550Init_eq K ha]
    exact h.initComs _ (h.classCreate hd)
  · simp only [uart16550Init, ha, Bool.not_false, if_true]
    exact hd

end Keeps

end Lmsel4.Driver
