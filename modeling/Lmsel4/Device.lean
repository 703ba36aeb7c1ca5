/-
A device with its `uart16550_ioctl` calls beside the calls of `ComDev`.

What `uart16550_hw_set_line_parameters` does to the ports is a list of
accesses (`setLineParameters`), so that a call has only to say how far in
the list it is.
-/
import Lmsel4.ComDev

namespace Lmsel4

open ComDev (Access regIer regIsr regLsr regRbr)

/-! ## `uart16550_hw.h` -/

def regDll : Nat := 0x00
def regDlm : Nat := 0x01
def regFcr : Nat := 0x02
def regLcr : Nat := 0x03
def regMcr : Nat := 0x04
def regMsr : Nat := 0x06

/-- `struct uart16550_line_info`. -/
structure LineInfo where
  baud : UInt8
  len : UInt8
  par : UInt8
  stop : UInt8
  deriving DecidableEq

/-- The values `uart16550_ioctl` lets through, field by field. -/
def LineInfo.accepted (line : LineInfo) : Bool :=
  [96, 48, 24, 12, 6, 3, 2, 1].contains line.baud && [0x00, 0x01, 0x02, 0x03].contains line.len &&
    [0x00, 0x08, 0x18, 0x20].contains line.par && [0x00, 0x04].contains line.stop

/-- What is written to LCR for a line. -/
def LineInfo.lcr (line : LineInfo) : UInt8 := line.len ||| line.stop ||| line.par

/-- `uart16550_hw_set_line_parameters`, where LCR is read as `lcr`. -/
def setLineParameters (parameters : LineInfo) (lcr : UInt8) : List Access :=
  [.outb 0x00 regIer, .inb regLcr lcr, .outb (lcr ||| 0x80) regLcr, .outb parameters.baud regDll, .outb 0x00 regDlm,
    .outb parameters.lcr regLcr, .outb 0xc7 regFcr, .outb 0x08 regMcr, .outb 0x03 regIer]

def defaultParam : LineInfo := { baud := 1, len := 0x03, par := 0x00, stop := 0x00 }

/-- What the reads of `uart16550_hw_setup_device` return. -/
structure SetupReads where
  lsr : UInt8
  rbr : UInt8
  isr : UInt8
  msr : UInt8
  lcr : UInt8

/-- The accesses of `uart16550_hw_setup_device`, once it has the ports. -/
def hwSetupDevice (r : SetupReads) : List Access :=
  .inb regLsr r.lsr :: (if r.lsr &&& 0x01 ≠ 0 then [.inb regRbr r.rbr] else []) ++
    [.inb regIsr r.isr, .inb regMsr r.msr, .outb 0x00 regIer] ++ setLineParameters defaultParam r.lcr

/-- The accesses of `uart16550_hw_cleanup_device`, after it has given the
ports back. -/
def hwCleanupDevice : List Access := [.outb 0x00 regFcr, .outb 0x00 regIer]

/-! ## `uart16550_ioctl` -/

def ioctlSetLine : UInt32 := 1

/-- `setting lcr n`: `n` accesses of `setLineParameters` are made, LCR was
read as `lcr` once it has been read. -/
inductive IoctlPc
  | idle
  | setting (lcr : UInt8) (n : Nat)
  | done (ret : Int32)
  deriving DecidableEq

/-- A call, with the line parameters copied from its user. -/
structure IoctlCall where
  line : LineInfo
  pc : IoctlPc
  deriving DecidableEq

/-- The calls `C` of `ComDev` and the `uart16550_ioctl` calls `D`. -/
structure Device (C D : Type) where
  com : ComDev.State C
  ioctls : D → IoctlCall

namespace Device

inductive Act (C D : Type)
  | com (a : ComDev.Act C)
  | callIoctl (d : D) (cmd : UInt32) (line : LineInfo)
  | ioctl (d : D) (v : UInt8)

variable {C D : Type} [DecidableEq C] [DecidableEq D]

def ioctlAt (s : Device C D) (d : D) (call : IoctlCall) : Device C D :=
  { s with ioctls := Function.update s.ioctls d call }

/-- What LCR is read as, by the second access. -/
def lcrRead (lcr : UInt8) (n : Nat) (v : UInt8) : UInt8 := if n = 1 then v else lcr

/-- A step of `uart16550_ioctl` into the ports. -/
def ioctlStep (s : Device C D) (d : D) (v : UInt8) : Option (Device C D) :=
  match (s.ioctls d).pc with
  | .idle | .done _ => none
  | .setting lcr n =>
    let pc := if n < 8 then .setting (lcrRead lcr n v) (n + 1) else .done 0
    some (s.ioctlAt d { s.ioctls d with pc })

def step (s : Device C D) : Act C D → Option (Device C D)
  | .com a => (ComDev.step s.com a).map fun com => { s with com }
  | .callIoctl d cmd line =>
    if (s.ioctls d).pc = .idle then
      -- `copy_from_user` copies the whole of `line`.
      let pc := if cmd = ioctlSetLine ∧ line.accepted then .setting 0 0 else .done (-einval)
      some (s.ioctlAt d { line, pc })
    else none
  | .ioctl d v => ioctlStep s d v

/-- The port access made by an action, if it makes one. -/
def access (s : Device C D) : Act C D → Option Access
  | .com a => ComDev.access s.com a
  | .ioctl d v =>
    match (s.ioctls d).pc with
    | .setting lcr n => (setLineParameters (s.ioctls d).line (lcrRead lcr n v))[n]?
    | _ => none
  | .callIoctl _ _ _ => none

/-- `init_struct`: the locks and the indices of the buffers. -/
def initStruct (s : Device C D) : Device C D :=
  { s with
    com := { s.com with
      inputLock := 0
      outputLock := 0
      inbuffer := .initKfifo ComDev.fifoSize 1 s.com.inbuffer.data
      outbuffer := .initKfifo ComDev.fifoSize 1 s.com.outbuffer.data } }

def init (C D : Type) : Device C D where
  com := ComDev.init C
  ioctls := fun _ => { line := { baud := 0, len := 0, par := 0, stop := 0 }, pc := .idle }

def system (C D : Type) [DecidableEq C] [DecidableEq D] : System (Device C D) (Act C D) where
  init := init C D
  step := step

end Device

end Lmsel4
