/-
From loads of the driver to calls on its files.

A call on a descriptor passes through four files: `uart16550_init` and
`device_create` and `cdev_add` of `cdev.c` have filled the registry, `open`
of `fd.c` has looked a name up there, `uart16550_open` has chosen a device
by the number found, and the call takes the device from the file. Loads are
made at any time, with any parameters and more than once: one that fails has
still registered the device it failed at, and the name of that device then
has several entries.

None of this is seen from outside. The answers are those of a list of the
devices a load has come to and a map from live descriptors to devices
(`registry_refines`): a name can be opened once its device has been come to,
a descriptor works on the device of the name it was opened with whatever is
loaded since, and no entry that `debug_device_status` follows is without a
`cdev`. An unload frees a `cdev` that was never allocated (`Blocks`), so it
has no place in these runs.
-/
import Lmsel4.Echo

namespace Lmsel4.Registry

open Cdev (CString SeL4Class deviceByName path strncmpEq_iff)
open Driver
open Echo (iminor)
open FileTable (Files DriverCall fdOpen fdClose fdWrite fdRead fileByFd)
open Isolation (uart16550Open)
open LoadCycle (Linux linux comName devOf)

/-! ## The code -/

/-- `debug_device_status`: the name, the number and the `cdev` of every
entry. No result is a `NULL` pointer followed. -/
def debugDeviceStatus {D : Type} (classes : List (SeL4Class D)) : Option (List (CString × UInt32 × D)) :=
  classes.mapM fun cur => cur.cdev.map fun cdev => (cur.name, cur.dev, cdev)

/-- The driver in its kernel, the open files with the same registry, and the
`private_data` of every `struct file` that was set. -/
structure State (F : Type) where
  driver : Loaded Linux
  files : Files Com F
  privateData : F → Option Com

inductive Op (F : Type)
  | load (behavior major : Int32)
  | status
  | open (name : CString) (file : F)
  | close (fd : Int32)
  | write (fd : Int32) (buf nbyte : UInt32) (result : Int32)
  | read (fd : Int32) (buf nbyte : UInt32) (result : Int32)

/-- What a call returns, with the `cdev` whose operation it reached and the
`com_dev` that operation works on; or what is listed. -/
inductive Answer
  | returned (ret : Int32) (reached : Option (Com × Com))
  | listed (entries : List (CString × UInt32 × Com))
  deriving DecidableEq

section Code

variable {F : Type} [DecidableEq F]

/-- The driver's side of a call: `uart16550_open` sets `private_data`, the
other operations take their device from it, and there is no result if it
was never set. -/
def State.drive (s : State F) (files : Files Com F) (a : FileTable.Answer Com F) : Option (State F × Answer) :=
  match a.reached with
  | none => some ({ s with files }, .returned a.ret none)
  | some (.open cdev rdev file) =>
    let device := uart16550Open (iminor rdev)
    some ({ s with files, privateData := Function.update s.privateData file (some device) },
      .returned a.ret (some (cdev, device)))
  | some (.write cdev file _ _) | some (.read cdev file _ _) =>
    (s.privateData file).map fun device => ({ s with files }, .returned a.ret (some (cdev, device)))

def State.load (s : State F) (behavior major : Int32) : State F × Answer :=
  let (rc, driver) := LoadCycle.load behavior major s.driver
  ({ s with driver, files := { s.files with classes := driver.kernel.classes } }, .returned rc none)

def step (s : State F) : Op F → Option (State F × Answer)
  | .load behavior major => some (s.load behavior major)
  | .status => (debugDeviceStatus s.files.classes).map fun entries => (s, .listed entries)
  | .open name file => (fdOpen s.files name file).bind fun (files, a) => s.drive files a
  | .close fd => s.drive (fdClose s.files fd).1 (fdClose s.files fd).2
  | .write fd buf nbyte result =>
    s.drive (fdWrite s.files fd buf nbyte result).1 (fdWrite s.files fd buf nbyte result).2
  | .read fd buf nbyte result =>
    s.drive (fdRead s.files fd buf nbyte result).1 (fdRead s.files fd buf nbyte result).2

/-- Nothing is loaded or open. -/
def State.init (F : Type) : State F :=
  { driver := LoadCycle.fresh, files := Files.init [], privateData := fun _ => none }

/-- The `struct file` that `kmalloc` returns is not that of an open file. -/
def Fresh (s : State F) : Op F → Prop
  | .open _ file => ∀ f ∈ s.files.list, f.file ≠ file
  | _ => True

instance (s : State F) : ∀ op, Decidable (Fresh s op)
  | .open _ _ => inferInstanceAs (Decidable (∀ _ ∈ _, _))
  | .load _ _ | .status | .close _ | .write _ _ _ _ | .read _ _ _ _ => .isTrue trivial

end Code

/-! ## What it is for -/

/-- The devices that loads have come to with the numbers they were given,
the last one first; the device of every live descriptor; and the descriptor
the next `open` returns. -/
structure Board where
  devices : List (Com × UInt32)
  live : Int32 → Option Com
  next : Int32

/-- A load comes to its devices in order, up to one whose number was given
to it before. -/
def comeTo (major : Int32) : List Com → List (Com × UInt32) → Int32 × List (Com × UInt32)
  | [], devices => (0, devices)
  | c :: cs, devices =>
    if (c, devOf major c) ∈ devices then (-einval, (c, devOf major c) :: devices)
    else comeTo major cs ((c, devOf major c) :: devices)

def Board.transfer (t : Board) (fd : Int32) (buf : UInt32) (result : Int32) : Answer :=
  match t.live fd with
  | some c => if buf = 0 then .returned 0 none else .returned result (some (c, c))
  | none => .returned 0 none

def Board.step {F : Type} (t : Board) : Op F → Option (Board × Answer)
  | .load behavior major =>
    if accepts behavior major then
      let (rc, devices) := comeTo major (selected behavior) t.devices
      some ({ t with devices }, .returned rc none)
    else some (t, .returned (-einval) none)
  | .status => some (t, .listed (t.devices.map fun (c, dev) => (path (comName c), dev, c)))
  | .open name _ =>
    ((t.devices.map Prod.fst).find? fun c => path (comName c) = name).map fun c =>
      ({ t with live := Function.update t.live t.next (some c), next := t.next + 1 },
        .returned t.next (some (c, c)))
  | .close fd =>
    some ({ t with live := Function.update t.live fd none },
      .returned (if (t.live fd).isSome then 0 else -1) none)
  | .write fd buf _ result | .read fd buf _ result => some (t, t.transfer fd buf result)

def Board.init : Board := { devices := [], live := fun _ => none, next := 1 }

/-! ## The registry -/

/-- The entry of a device. -/
def entry (e : Com × UInt32) : SeL4Class Com := { cdev := some e.1, name := path (comName e.1), dev := e.2 }

theorem strncmp_path (c : Com) (name : CString) :
    Cdev.strncmpEq 256 (path (comName c)) name = decide (path (comName c) = name) := by
  have hlen : (path (comName c)).length < 256 := by cases c <;> decide
  exact Bool.eq_iff_iff.mpr (by rw [strncmpEq_iff hlen, decide_eq_true_iff])

/-- Of the entries of one name the last one is found. -/
theorem deviceByName_entries (devices : List (Com × UInt32)) (name : CString) :
    deviceByName (devices.map entry) name =
      (devices.find? fun e => path (comName e.1) = name).map entry := by
  rw [deviceByName, List.find?_map]
  simp only [Function.comp_def, entry, strncmp_path]

/-- Where every entry has a `cdev`, `cdev_add` changes none of them. -/
theorem cdevAdd_entries (c : Com) (dev : UInt32) : ∀ devices : List (Com × UInt32),
    Cdev.cdevAdd c dev (devices.map entry) =
      (if dev ∈ devices.map Prod.snd then -einval else 0, devices.map entry)
  | [] => rfl
  | e :: devices => by
    have ih := cdevAdd_entries c dev devices
    by_cases he : e.2 = dev
    · simp [Cdev.cdevAdd_cons, entry, he]
    · have hmem : dev ∈ (e :: devices).map Prod.snd ↔ dev ∈ devices.map Prod.snd := by simp [Ne.symm he]
      simp only [hmem]
      simp [Cdev.cdevAdd_cons, entry, he, ih]

/-- `MKDEV` keeps a minor number of 20 bits, whatever it does to the major
one. -/
theorem and_mkdev (x m : BitVec 32) (hm : m &&& 0xfffff#32 = m) : (x <<< 20 ||| m) &&& 0xfffff#32 = m := by
  have hlow : x <<< 20 &&& 0xfffff#32 = 0#32 := by
    apply BitVec.eq_of_toNat_eq
    simp only [BitVec.toNat_and, BitVec.toNat_shiftLeft, BitVec.toNat_ofNat]
    rw [show 1048575 % 2 ^ 32 = 2 ^ 20 - 1 by decide, Nat.and_two_pow_sub_one_eq_mod, Nat.shiftLeft_eq]
    omega
  rw [BitVec.and_comm, BitVec.and_or_distrib_left, BitVec.and_comm, hlow, BitVec.and_comm, hm, BitVec.zero_or]

/-- The number of a device is that of its own device again. -/
theorem open_devOf (major : Int32) (c : Com) : uart16550Open (iminor (devOf major c)) = c := by
  have hminor (m : Int32) (hm : m.toBitVec &&& 0xfffff#32 = m.toBitVec) : iminor (mkdev major m) = m := by
    apply Int32.toBitVec_inj.mp
    exact and_mkdev major.toBitVec m.toBitVec hm
  cases c
  · rw [devOf, hminor 0 (by decide)]
    rfl
  · rw [devOf, hminor 1 (by decide)]
    rfl

/-- Every number is that of a device it was given to. -/
def Numbered (devices : List (Com × UInt32)) : Prop := ∀ e ∈ devices, uart16550Open (iminor e.2) = e.1

theorem Numbered.cons {devices : List (Com × UInt32)} (h : Numbered devices) (major : Int32) (c : Com) :
    Numbered ((c, devOf major c) :: devices) := by
  intro e he
  rcases List.mem_cons.mp he with rfl | he
  · exact open_devOf major c
  · exact h e he

/-- The number of one device is not that of the other. -/
theorem Numbered.mem_iff {devices : List (Com × UInt32)} (h : Numbered devices) (major : Int32) (c : Com) :
    devOf major c ∈ devices.map Prod.snd ↔ (c, devOf major c) ∈ devices := by
  constructor
  · intro hm
    obtain ⟨e, he, hdev⟩ := List.mem_map.mp hm
    have hc : e.1 = c := by rw [← h e he, hdev, open_devOf]
    have heq : e = (c, devOf major c) := Prod.ext hc hdev
    exact heq ▸ he
  · exact fun hm => List.mem_map.mpr ⟨_, hm, rfl⟩

/-- Coming to a device registers it, and fails if its number is taken. -/
theorem initCom_entries {devices : List (Com × UInt32)} (h : Numbered devices) (major : Int32) (c : Com)
    {d : Loaded Linux} (hd : d.kernel.classes = devices.map entry) :
    (initCom linux major c d).1 = (if (c, devOf major c) ∈ devices then -einval else 0) ∧
      (initCom linux major c d).2.kernel.classes = ((c, devOf major c) :: devices).map entry := by
  obtain ⟨hrc, hclasses⟩ := @LoadCycle.initCom_linux major c d
  have hname : Cdev.snprintfDev 256 (comName c) = path (comName c) := by cases c <;> rfl
  have hadd : Cdev.cdevAdd c (devOf major c) (Cdev.deviceCreate (devOf major c) (comName c) d.kernel.classes) =
      (if (c, devOf major c) ∈ devices then -einval else 0, ((c, devOf major c) :: devices).map entry) := by
    rw [hd, Cdev.deviceCreate, Cdev.cdevAdd_cons, if_pos rfl, cdevAdd_entries, hname]
    simp only [h.mem_iff major c, Option.isSome_none, Bool.false_eq_true, if_false]
    rfl
  rw [hrc, hclasses, hadd]
  exact ⟨rfl, rfl⟩

theorem initComs_entries (major : Int32) : ∀ (cs : List Com) {devices : List (Com × UInt32)} {d : Loaded Linux},
    Numbered devices → d.kernel.classes = devices.map entry →
      (initComs linux major cs d).1 = (comeTo major cs devices).1 ∧
      (initComs linux major cs d).2.kernel.classes = (comeTo major cs devices).2.map entry ∧
      Numbered (comeTo major cs devices).2
  | [], _, _, h, hd => ⟨rfl, hd, h⟩
  | c :: cs, devices, d, h, hd => by
    obtain ⟨hrc, hclasses⟩ := initCom_entries h major c hd
    have hnumbered := h.cons major c
    simp only [initComs, comeTo, hrc]
    by_cases htaken : (c, devOf major c) ∈ devices
    · have hne : -einval ≠ 0 := by decide
      simp only [if_pos htaken, if_pos hne]
      exact ⟨trivial, hclasses, hnumbered⟩
    · simp only [if_neg htaken, ne_eq, not_true, if_false]
      exact initComs_entries major cs hnumbered hclasses

theorem status_entries : ∀ devices : List (Com × UInt32),
    debugDeviceStatus (devices.map entry) = some (devices.map fun (c, dev) => (path (comName c), dev, c))
  | [] => rfl
  | e :: devices => by
    have ih := status_entries devices
    simp only [debugDeviceStatus] at ih
    simp [debugDeviceStatus, List.mapM_cons, ih, entry]

/-! ## The calls -/

section Refinement

variable {F : Type}

/-- After `n` calls: the registry holds an entry for every device come to,
and each open file has the device of its name, by its `cdev` and by its
`private_data`. -/
structure Relates (n : Nat) (s : State F) (t : Board) : Prop where
  kernel : s.driver.kernel.classes = t.devices.map entry
  classes : s.files.classes = t.devices.map entry
  numbered : Numbered t.devices
  table : ∃ table : FileTable.Table Com F, FileTable.Represents s.files table ∧
    ∀ fd, t.live fd = (table.live fd).map Prod.fst
  privateData : ∀ f ∈ s.files.list, s.privateData f.file = some f.device
  next : t.next = s.files.lfd
  count : s.files.lfd.toInt ≤ n + 1

theorem init_relates : Relates 0 (State.init F) Board.init where
  kernel := rfl
  classes := rfl
  numbered := fun _ h => nomatch h
  table := ⟨_, FileTable.init_represents [], fun _ => rfl⟩
  privateData := fun _ h => nomatch h
  next := rfl
  count := by show (1 : Int32).toInt ≤ (0 : Nat) + 1; decide

variable {n : Nat} {s : State F} {t : Board}

/-- Of the state of the files only `errno` is left out. -/
theorem Relates.later (h : Relates n s t) (e : Int32) :
    Relates (n + 1) { s with files := { s.files with errno := e } } t := by
  obtain ⟨table, hrep, hlive⟩ := h.table
  have hcount := h.count
  exact ⟨h.kernel, h.classes, h.numbered, ⟨table, hrep.errno e, hlive⟩, h.privateData, h.next,
    by dsimp only; push_cast; omega⟩

theorem Relates.live (h : Relates n s t) (fd : Int32) : t.live fd = (fileByFd s.files.list fd).map (·.device) := by
  obtain ⟨table, hrep, hlive⟩ := h.table
  rw [hlive, hrep.live, Option.map_map]
  rfl

/-- A load that leaves the registry in order. -/
theorem Relates.registered (h : Relates n s t) {driver : Loaded Linux} {devices : List (Com × UInt32)}
    (hclasses : driver.kernel.classes = devices.map entry) (hnumbered : Numbered devices) :
    Relates (n + 1) { s with driver, files := { s.files with classes := driver.kernel.classes } }
      { t with devices } := by
  obtain ⟨table, hrep, hlive⟩ := h.table
  have hcount := h.count
  refine ⟨hclasses, hclasses, hnumbered, ⟨{ table with classes := driver.kernel.classes }, ?_, hlive⟩,
    h.privateData, h.next, by dsimp only; push_cast; omega⟩
  exact ⟨rfl, hrep.live, hrep.nodup, hrep.listed, hrep.issued, hrep.positive⟩

theorem fdClose_frame (files : Files Com F) (fd : Int32) :
    (fdClose files fd).1.classes = files.classes ∧ (fdClose files fd).1.lfd = files.lfd ∧
      (∀ f ∈ (fdClose files fd).1.list, f ∈ files.list) ∧ (fdClose files fd).2.reached = none := by
  unfold fdClose
  split
  · exact ⟨rfl, rfl, fun _ hf => hf, rfl⟩
  · exact ⟨rfl, rfl, fun _ hf => List.mem_of_mem_eraseP hf, rfl⟩

variable [DecidableEq F]

/-- The two give one answer and stay related, or neither answers. -/
abbrev Agree (n : Nat) (x : Option (State F × Answer)) (y : Option (Board × Answer)) : Prop :=
  Option.Rel (fun x y => x.2 = y.2 ∧ Relates (n + 1) x.1 y.1) x y

theorem load_relates (h : Relates n s t) (behavior major : Int32) :
    Agree n (step s (.load behavior major)) (t.step (.load behavior major : Op F)) := by
  simp only [step, State.load, Board.step]
  cases ha : accepts behavior major with
  | false =>
    have hrefused : LoadCycle.load behavior major s.driver = (-einval, s.driver) := by
      simp [LoadCycle.load, uart16550Init, ha]
    rw [hrefused]
    exact .some ⟨rfl, h.registered h.kernel h.numbered⟩
  | true =>
    have hcomes := initComs_entries major (selected behavior) h.numbered
      (show ({ s.driver with uart16550Class := .obj } : Loaded Linux).kernel.classes = _ from h.kernel)
    rw [← LoadCycle.load_eq ha] at hcomes
    obtain ⟨hrc, hclasses, hnumbered⟩ := hcomes
    exact .some ⟨congrArg (Answer.returned · none) hrc, h.registered hclasses hnumbered⟩

theorem status_relates (h : Relates n s t) : Agree n (step s .status) (t.step (.status : Op F)) := by
  simp only [step, Board.step, h.classes, status_entries]
  exact .some ⟨rfl, h.later s.files.errno⟩

theorem open_relates (h : Relates n s t) (hn : n < 2 ^ 31 - 2) {name : CString} {file : F}
    (hfresh : Fresh s (.open name file)) : Agree n (step s (.open name file)) (t.step (.open name file)) := by
  have hfind := deviceByName_entries t.devices name
  rw [← h.classes] at hfind
  simp only [step, Board.step, List.find?_map, Function.comp_def]
  cases he : t.devices.find? fun e => path (comName e.1) = name with
  | none =>
    rw [he] at hfind
    simp only [fdOpen, hfind, Option.map_none, Option.bind_none]
    exact .none
  | some e =>
    rw [he] at hfind
    have hdevice : uart16550Open (iminor e.2) = e.1 := h.numbered e (List.mem_of_find?_eq_some he)
    have hcount := h.count
    have hmax : s.files.lfd < Int32.maxValue := by
      rw [Int32.lt_iff_toInt_lt, Int32.toInt_maxValue]
      omega
    have hrun : fdOpen s.files name file =
        some ({ s.files with
            lfd := s.files.lfd + 1, list := { fd := s.files.lfd, name, device := e.1, file } :: s.files.list },
          { ret := s.files.lfd, reached := some (.open e.1 e.2 file) }) := by
      simp [fdOpen, hfind, entry]
    obtain ⟨table, hrep, hlive⟩ := h.table
    obtain ⟨files, o, table', hrun', hspec, hrep'⟩ := FileTable.open_represents hrep
      (show FileTable.Opens s.files (.open name file) from ⟨by simp [hfind, entry], hmax⟩)
    rw [hrun] at hrun'
    obtain ⟨rfl, rfl⟩ : _ = files ∧ _ = o := by simpa using hrun'
    generalize ho : FileTable.Answer.mk _ _ = o at hspec
    cases hspec with
    | «open» hcls hcdev hpos hnew =>
    simp only [FileTable.Answer.mk.injEq, Option.some.injEq, DriverCall.open.injEq] at ho
    obtain ⟨rfl, rfl, -⟩ := ho
    rw [hrun]
    refine .some ⟨?_, h.kernel, h.classes, h.numbered, ⟨_, hrep', fun fd => ?_⟩, ?_, ?_, ?_⟩
    · simp only [hdevice, h.next]
    · simp only [h.next, Function.update_apply]
      split
      · rfl
      · exact hlive fd
    · intro f hf
      rcases List.mem_cons.mp hf with rfl | hf
      · simp [hdevice]
      · simp only [Function.update_apply, if_neg (hfresh f hf)]
        exact h.privateData f hf
    · simp only [h.next]
    · have hpos := hrep.positive
      rw [Int32.lt_iff_toInt_lt] at hmax hpos
      rw [Int32.toInt_maxValue] at hmax
      simp only [Int32.toInt_zero] at hpos
      dsimp only
      rw [Int32.toInt_add, Int32.toInt_one, Int.bmod_eq_of_le (by omega) (by omega)]
      push_cast
      omega

theorem close_relates (h : Relates n s t) (fd : Int32) :
    Agree n (step s (.close fd)) (t.step (.close fd : Op F)) := by
  obtain ⟨hclasses, hlfd, hlist, hreached⟩ := fdClose_frame s.files fd
  obtain ⟨table, hrep, hlive⟩ := h.table
  obtain ⟨table', hspec, hrep'⟩ := FileTable.close_represents hrep fd
  have hcount := h.count
  simp only [step, State.drive, hreached, Board.step]
  generalize (fdClose s.files fd).2 = o at hspec
  cases hspec with
  | close =>
  refine .some ⟨?_, h.kernel, hclasses.trans h.classes, h.numbered, ⟨_, hrep', fun fd' => ?_⟩,
    fun f hf => h.privateData f (hlist f hf), h.next.trans hlfd.symm, ?_⟩
  · simp only [hlive, Option.isSome_map]
  · simp only [Function.update_apply]
    split
    · rfl
    · exact hlive fd'
  · simp only [hlfd]
    push_cast
    omega

/-- `read` and `write` reach the device whose name was opened. -/
theorem transfer_relates (h : Relates n s t) {op : Com → F → DriverCall Com F}
    (hop : ∀ files ret c file, s.drive files ⟨ret, some (op c file)⟩ =
      (s.privateData file).map fun device => ({ s with files }, .returned ret (some (c, device))))
    (fd : Int32) (buf : UInt32) (result : Int32) :
    Agree n (s.drive (FileTable.transfer op s.files fd buf result).1 (FileTable.transfer op s.files fd buf result).2)
      (some (t, t.transfer fd buf result)) := by
  have hlive := h.live fd
  cases hfd : fileByFd s.files.list fd with
  | none =>
    rw [hfd] at hlive
    simp only [FileTable.transfer, hfd, Board.transfer, hlive, Option.map_none, State.drive]
    exact .some ⟨rfl, h.later ebadf⟩
  | some f =>
    rw [hfd] at hlive
    simp only [FileTable.transfer, hfd, Board.transfer, hlive, Option.map_some]
    split
    · exact .some ⟨rfl, h.later efault⟩
    · rw [hop, h.privateData f (List.mem_of_find?_eq_some hfd)]
      exact .some ⟨rfl, h.later s.files.errno⟩

theorem registry_step {op : Op F} (h : Relates n s t) (hn : n < 2 ^ 31 - 2) (hfresh : Fresh s op) :
    Agree n (step s op) (t.step op) := by
  cases op with
  | load behavior major => exact load_relates h behavior major
  | status => exact status_relates h
  | «open» name file => exact open_relates h hn hfresh
  | close fd => exact close_relates h fd
  | write fd buf nbyte result => exact transfer_relates h (fun _ _ _ _ => rfl) fd buf result
  | read fd buf nbyte result => exact transfer_relates h (fun _ _ _ _ => rfl) fd buf result

/-- **Every call works on the device whose name was opened.** To any loads,
listings and calls on files, up to as many as there are descriptors, the
loader, the registry, the open files and the driver's `open` together answer
as the list of the devices come to and the map of live descriptors do, and
follow `NULL` exactly where a name is opened that no load has come to. -/
theorem registry_refines {ops : List (Op F)} (hlen : ops.length ≤ 2 ^ 31 - 2)
    (h : Admits step Fresh (State.init F) ops) :
    Option.Rel (fun x y => x.2 = y.2 ∧ Relates ops.length x.1 y.1)
      (answers step (State.init F) ops) (answers Board.step Board.init ops) := by
  have hrel := answers_rel registry_step init_relates
    (show 0 + ops.length ≤ 2 ^ 31 - 2 by omega) h
  rwa [Nat.zero_add] at hrel

end Refinement

/-- COM1 is loaded and opened; a load of both devices registers COM1 again
and does not come to COM2; COM2 is loaded and opened, and the first
descriptor still writes to COM1. -/
def reloaded : List (Op Nat) :=
  [.load optionCom1 42, .open (path (comName .com1)) 100, .load optionBoth 42, .status, .load optionCom2 42,
    .open (path (comName .com2)) 200, .write 1 8 3 3, .read 2 8 3 3, .close 1, .write 1 8 3 3]

theorem registry_refines_reloaded :
    (answers step (State.init Nat) reloaded).map Prod.snd =
      some [.returned 0 none, .returned 1 (some (.com1, .com1)), .returned (-22) none,
        .listed [(path (comName .com1), 44040192, .com1), (path (comName .com1), 44040192, .com1)],
        .returned 0 none, .returned 2 (some (.com2, .com2)), .returned 3 (some (.com1, .com1)),
        .returned 3 (some (.com2, .com2)), .returned 0 none, .returned 0 none] ∧
    (answers step (State.init Nat) reloaded).map Prod.snd = (answers Board.step Board.init reloaded).map Prod.snd := by
  refine ⟨by decide +kernel, ?_⟩
  have hrel := registry_refines (show reloaded.length ≤ 2 ^ 31 - 2 by decide)
    (show Admits step Fresh (State.init Nat) reloaded by decide)
  revert hrel
  generalize answers step (State.init Nat) reloaded = x
  generalize answers Board.step Board.init reloaded = y
  rintro (⟨hanswers, -⟩ | _)
  · exact congrArg some hanswers
  · rfl

end Lmsel4.Registry
