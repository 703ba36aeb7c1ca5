/-
The open files of liblinux (`fd.c`) as a finite map.

The code keeps a list of opened files and counts file descriptors up. What
it is for (`Spec`) is a map from live descriptors to the device that was
looked up by `open` and the `struct file` handed to the device's own `open`.
For every sequence of calls the code's answers and the driver operations it
reaches are those the map allows, as long as opened names are registered
with a `cdev` and the counter does not pass `INT_MAX`. Of the calls
that cannot be served, only `close` is refused as its caller expects.
-/
import Lmsel4.Cdev
import Lmsel4.Simulation

namespace Lmsel4.FileTable

open Cdev (CString SeL4Class deviceByName)

/-! ## The code -/

/-- `struct opened_file`. A `struct cdev *` is a value of `D`, a `struct
file *` one of `F`. -/
structure OpenedFile (D F : Type) where
  fd : Int32
  name : CString
  device : D
  file : F

structure Files (D F : Type) where
  classes : List (SeL4Class D)
  lfd : Int32
  list : List (OpenedFile D F)
  errno : Int32

/-- An operation of a driver, with what it is called with; a buffer is an
address. -/
inductive DriverCall (D F : Type)
  | open (device : D) (rdev : UInt32) (file : F)
  | write (device : D) (file : F) (buf nbyte : UInt32)
  | read (device : D) (file : F) (buf nbyte : UInt32)
  deriving DecidableEq

/-- What a call returns, and the driver operation it reached. -/
structure Answer (D F : Type) where
  ret : Int32
  reached : Option (DriverCall D F)
  deriving DecidableEq

section Code

variable {D F : Type}

/-- `file_by_fd`. -/
def fileByFd (list : List (OpenedFile D F)) (fd : Int32) : Option (OpenedFile D F) :=
  list.find? fun f => f.fd == fd

/-- `open`, where `kmalloc` has returned `file`. No result is a `NULL`
pointer followed. -/
def fdOpen (s : Files D F) (name : CString) (file : F) : Option (Files D F × Answer D F) :=
  let fd := s.lfd
  let lfd := s.lfd + 1
  match deviceByName s.classes name with
  | none => none
  | some cls =>
    match cls.cdev with
    | none => none
    | some device =>
      some ({ s with lfd, list := { fd, name, device, file } :: s.list },
        { ret := fd, reached := some (.open device cls.dev file) })

/-- `close`. -/
def fdClose (s : Files D F) (fd : Int32) : Files D F × Answer D F :=
  match fileByFd s.list fd with
  | none => ({ s with errno := ebadf }, { ret := -1, reached := none })
  | some cur => ({ s with list := s.list.eraseP fun f => f.fd == cur.fd }, { ret := 0, reached := none })

/-- `write` and `read`, which differ in the operation they reach. -/
def transfer (op : D → F → DriverCall D F) (s : Files D F) (fd : Int32) (buf : UInt32) (result : Int32) :
    Files D F × Answer D F :=
  match fileByFd s.list fd with
  | none => ({ s with errno := ebadf }, { ret := 0, reached := none })
  | some f =>
    if buf = 0 then ({ s with errno := efault }, { ret := 0, reached := none })
    else (s, { ret := result, reached := some (op f.device f.file) })

/-- `write`, the driver's operation returning `result`. -/
def fdWrite (s : Files D F) (fd : Int32) (buf nbyte : UInt32) (result : Int32) : Files D F × Answer D F :=
  transfer (fun device file => .write device file buf nbyte) s fd buf result

/-- `read`, the driver's operation returning `result`. -/
def fdRead (s : Files D F) (fd : Int32) (buf nbyte : UInt32) (result : Int32) : Files D F × Answer D F :=
  transfer (fun device file => .read device file buf nbyte) s fd buf result

theorem fdOpen_eq_some {s s' : Files D F} {name : CString} {file : F} {o : Answer D F}
    (h : fdOpen s name file = some (s', o)) : ∃ cls device, deviceByName s.classes name = some cls ∧
      s'.list = { fd := s.lfd, name, device, file } :: s.list ∧
      o = { ret := s.lfd, reached := some (.open device cls.dev file) } := by
  unfold fdOpen at h
  split at h
  · cases h
  next cls hcls =>
    split at h <;> cases h
    exact ⟨cls, _, hcls, rfl, rfl⟩

/-- A transfer on a live descriptor with a buffer reaches the driver. -/
theorem transfer_live {s : Files D F} {fd : Int32} {buf : UInt32} (hfd : (fileByFd s.list fd).isSome)
    (hbuf : buf ≠ 0) (op : D → F → DriverCall D F) (result : Int32) :
    ∃ f : OpenedFile D F,
      transfer op s fd buf result = (s, { ret := result, reached := some (op f.device f.file) }) := by
  obtain ⟨f, hf⟩ := Option.isSome_iff_exists.mp hfd
  exact ⟨f, by simp only [transfer, hf, if_neg hbuf]⟩

/-- A call on the files, or a call of a driver on the registry. -/
inductive Op (D F : Type)
  | open (name : CString) (file : F)
  | close (fd : Int32)
  | write (fd : Int32) (buf nbyte : UInt32) (result : Int32)
  | read (fd : Int32) (buf nbyte : UInt32) (result : Int32)
  | register (c : Cdev.Call D)

def step (s : Files D F) : Op D F → Option (Files D F × Answer D F)
  | .open name file => fdOpen s name file
  | .close fd => some (fdClose s fd)
  | .write fd buf nbyte result => some (fdWrite s fd buf nbyte result)
  | .read fd buf nbyte result => some (fdRead s fd buf nbyte result)
  | .register c => some ({ s with classes := (c.run s.classes).2 }, { ret := (c.run s.classes).1, reached := none })

def Files.init (classes : List (SeL4Class D)) : Files D F :=
  { classes, lfd := 1, list := [], errno := 0 }

/-- An opened name is registered with a `cdev`, and `lfd` stays within
`INT_MAX`. -/
def Opens (s : Files D F) : Op D F → Prop
  | .open name _ => ((deviceByName s.classes name).bind (·.cdev)).isSome ∧ s.lfd < Int32.maxValue
  | _ => True

instance (s : Files D F) : ∀ op, Decidable (Opens s op)
  | .open _ _ => inferInstanceAs (Decidable (_ ∧ _))
  | .close _ | .write _ _ _ _ | .read _ _ _ _ | .register _ => .isTrue trivial

end Code

/-! ## What it is for -/

/-- The live descriptors, with the device and the file of each, and the
descriptors returned so far. -/
structure Table (D F : Type) where
  classes : List (SeL4Class D)
  live : Int32 → Option (D × F)
  issued : List Int32

/-- A transfer reaches the driver if and only if the descriptor is live and
the buffer is not `NULL`. -/
def Table.transfer {D F : Type} (t : Table D F) (op : D → F → DriverCall D F) (fd : Int32) (buf : UInt32)
    (result : Int32) : Answer D F :=
  match t.live fd with
  | some (device, file) => if buf = 0 then ⟨0, none⟩ else ⟨result, some (op device file)⟩
  | none => ⟨0, none⟩

/-- The answers of a finite map from descriptors to files. -/
inductive Spec {D F : Type} : Table D F → Op D F → Answer D F → Table D F → Prop
  | open {t : Table D F} {name file fd cls device} : deviceByName t.classes name = some cls →
    cls.cdev = some device → 0 < fd → fd ∉ t.issued →
    Spec t (.open name file) ⟨fd, some (.open device cls.dev file)⟩
      { t with live := Function.update t.live fd (some (device, file)), issued := fd :: t.issued }
  | close {t : Table D F} {fd} :
    Spec t (.close fd) ⟨if (t.live fd).isSome then 0 else -1, none⟩
      { t with live := Function.update t.live fd none }
  | write {t : Table D F} {fd buf nbyte result} :
    Spec t (.write fd buf nbyte result) (t.transfer (fun device file => .write device file buf nbyte) fd buf result) t
  | read {t : Table D F} {fd buf nbyte result} :
    Spec t (.read fd buf nbyte result) (t.transfer (fun device file => .read device file buf nbyte) fd buf result) t
  | register {t : Table D F} {c : Cdev.Call D} :
    Spec t (.register c) ⟨(c.run t.classes).1, none⟩ { t with classes := (c.run t.classes).2 }

def Table.init {D F : Type} (classes : List (SeL4Class D)) : Table D F :=
  { classes, live := fun _ => none, issued := [] }

/-! ## The list is the map -/

section Refinement

variable {D F : Type}

/-- The list holds one entry for each live descriptor, and the counter is
above every descriptor returned so far. -/
structure Represents (s : Files D F) (t : Table D F) : Prop where
  classes : t.classes = s.classes
  live : ∀ fd, t.live fd = (fileByFd s.list fd).map fun f => (f.device, f.file)
  nodup : (s.list.map OpenedFile.fd).Nodup
  listed : ∀ f ∈ s.list, f.fd ∈ t.issued
  issued : ∀ fd ∈ t.issued, fd < s.lfd
  positive : 0 < s.lfd

theorem init_represents (classes : List (SeL4Class D)) :
    Represents (Files.init classes : Files D F) (Table.init classes) :=
  ⟨rfl, fun _ => rfl, List.nodup_nil, fun _ h => (by cases h), fun _ h => (by cases h),
    (by change (0 : Int32) < 1; decide)⟩

theorem fileByFd_cons (f : OpenedFile D F) (list : List (OpenedFile D F)) (fd : Int32) :
    fileByFd (f :: list) fd = if f.fd = fd then some f else fileByFd list fd := by
  by_cases h : f.fd = fd <;> simp [fileByFd, h]

/-- Taking out the entry of one descriptor leaves the others. -/
theorem fileByFd_eraseP (fd : Int32) : ∀ {list : List (OpenedFile D F)}, (list.map OpenedFile.fd).Nodup →
    ∀ fd', fileByFd (list.eraseP fun f => f.fd == fd) fd' = if fd' = fd then none else fileByFd list fd'
  | [], _, fd' => by simp [fileByFd]
  | f :: list, h, fd' => by
    rw [List.map_cons, List.nodup_cons] at h
    by_cases hf : f.fd = fd
    · subst hf
      rw [List.eraseP_cons_of_pos (by simp), fileByFd_cons]
      by_cases hfd : fd' = f.fd
      · subst hfd
        rw [if_pos rfl]
        refine List.find?_eq_none.mpr fun g hg hgf => h.1 ?_
        exact List.mem_map.mpr ⟨g, hg, by simpa using hgf⟩
      · rw [if_neg hfd, if_neg (Ne.symm hfd)]
    · rw [List.eraseP_cons_of_neg (by simpa using hf), fileByFd_cons, fileByFd_cons, fileByFd_eraseP fd h.2]
      by_cases hfd : fd' = fd
      · subst hfd
        simp [hf]
      · simp [hfd]

/-- `lfd++` below `INT_MAX`. -/
theorem lt_succ {x : Int32} (h : x < Int32.maxValue) : x < x + 1 := by
  have hlo := x.le_toInt
  rw [Int32.lt_iff_toInt_lt] at h ⊢
  rw [Int32.toInt_maxValue] at h
  rw [Int32.toInt_add, Int32.toInt_one, Int.bmod_eq_of_le] <;> omega

variable {s : Files D F} {t : Table D F}

theorem open_represents (h : Represents s t) {name : CString} {file : F} (hok : Opens s (.open name file)) :
    ∃ s' o t', fdOpen s name file = some (s', o) ∧ Spec t (.open name file) o t' ∧ Represents s' t' := by
  obtain ⟨hreg, hmax⟩ := hok
  obtain ⟨device, hdev⟩ := Option.isSome_iff_exists.mp hreg
  obtain ⟨cls, hcls, hcdev⟩ := Option.bind_eq_some_iff.mp hdev
  have hfresh : s.lfd ∉ t.issued := fun hm => Int32.lt_irrefl (h.issued _ hm)
  have hsucc := lt_succ hmax
  have hrun : fdOpen s name file =
      some ({ s with lfd := s.lfd + 1, list := { fd := s.lfd, name, device, file } :: s.list },
        { ret := s.lfd, reached := some (.open device cls.dev file) }) := by
    simp only [fdOpen, hcls, hcdev]
  refine ⟨_, _, _, hrun, .open (h.classes ▸ hcls) hcdev h.positive hfresh, ?_⟩
  refine ⟨h.classes, fun fd => ?_, ?_, ?_, ?_, Int32.lt_trans h.positive hsucc⟩
  · simp only [fileByFd_cons, Function.update_apply]
    by_cases hfd : fd = s.lfd
    · simp [hfd]
    · simp only [if_neg hfd, if_neg (Ne.symm hfd)]
      exact h.live fd
  · rw [List.map_cons, List.nodup_cons]
    refine ⟨fun hm => ?_, h.nodup⟩
    obtain ⟨f, hf, heq⟩ := List.mem_map.mp hm
    have hlisted := h.listed f hf
    rw [heq] at hlisted
    exact hfresh hlisted
  · intro f hf
    rcases List.mem_cons.mp hf with rfl | hf
    · exact List.mem_cons_self
    · exact List.mem_cons_of_mem _ (h.listed f hf)
  · intro fd hfd
    rcases List.mem_cons.mp hfd with rfl | hfd
    · exact hsucc
    · exact Int32.lt_trans (h.issued fd hfd) hsucc

/-- `errno` is not seen by the map. -/
theorem Represents.errno (h : Represents s t) (e : Int32) : Represents { s with errno := e } t :=
  ⟨h.classes, h.live, h.nodup, h.listed, h.issued, h.positive⟩

theorem close_represents (h : Represents s t) (fd : Int32) :
    ∃ t', Spec t (.close fd) (fdClose s fd).2 t' ∧ Represents (fdClose s fd).1 t' := by
  have hlive := h.live fd
  have hspec : Spec t (.close fd) _ _ := Spec.close
  refine ⟨{ t with live := Function.update t.live fd none }, ?_, ?_⟩
  · cases hfind : fileByFd s.list fd <;> simpa [fdClose, hfind, hlive] using hspec
  cases hfind : fileByFd s.list fd with
  | none =>
    rw [hfind] at hlive
    have hsame : Function.update t.live fd none = t.live := Function.update_eq_self_iff.mpr hlive.symm
    simp only [fdClose, hfind]
    rw [hsame]
    exact h.errno ebadf
  | some cur =>
    have hcur : cur.fd = fd := by simpa using List.find?_some hfind
    simp only [fdClose, hfind, hcur]
    refine ⟨h.classes, fun fd' => ?_, ?_, ?_, h.issued, h.positive⟩
    · simp only [fileByFd_eraseP fd h.nodup, Function.update_apply]
      by_cases hfd : fd' = fd
      · simp [hfd]
      · simp only [if_neg hfd]
        exact h.live fd'
    · exact h.nodup.sublist (List.eraseP_sublist.map _)
    · intro f hf
      exact h.listed f (List.mem_of_mem_eraseP hf)

theorem transfer_represents (h : Represents s t) (op : D → F → DriverCall D F) (fd : Int32) (buf : UInt32)
    (result : Int32) :
    (transfer op s fd buf result).2 = t.transfer op fd buf result ∧
      Represents (transfer op s fd buf result).1 t := by
  have hlive := h.live fd
  cases hfind : fileByFd s.list fd with
  | none =>
    rw [hfind] at hlive
    simp only [transfer, hfind, Table.transfer, hlive]
    exact ⟨rfl, h.errno _⟩
  | some f =>
    rw [hfind] at hlive
    simp only [transfer, hfind, Table.transfer, hlive, Option.map_some]
    split
    · exact ⟨rfl, h.errno _⟩
    · exact ⟨rfl, h⟩

theorem step_represents {op : Op D F} (h : Represents s t) (hok : Opens s op) :
    ∃ s' o t', step s op = some (s', o) ∧ Spec t op o t' ∧ Represents s' t' := by
  cases op with
  | «open» name file => exact open_represents h hok
  | close fd =>
    obtain ⟨t', hspec, hrep⟩ := close_represents h fd
    exact ⟨_, _, t', rfl, hspec, hrep⟩
  | write fd buf nbyte result =>
    obtain ⟨hans, hrep⟩ := transfer_represents h (fun device file => .write device file buf nbyte) fd buf result
    exact ⟨_, _, t, rfl, hans ▸ .write, hrep⟩
  | read fd buf nbyte result =>
    obtain ⟨hans, hrep⟩ := transfer_represents h (fun device file => .read device file buf nbyte) fd buf result
    exact ⟨_, _, t, rfl, hans ▸ .read, hrep⟩
  | register c =>
    refine ⟨_, _, _, rfl, by rw [← h.classes]; exact .register, ?_⟩
    exact ⟨by rw [h.classes], h.live, h.nodup, h.listed, h.issued, h.positive⟩

/-- **The open files are a finite map.** Any calls that open registered
names within `INT_MAX` are answered, as a map from descriptors to the
devices and files they were opened with allows, and the list represents
that map throughout. -/
theorem fileTable_refines {classes : List (SeL4Class D)} {ops : List (Op D F)}
    (h : Admits step Opens (Files.init classes) ops) :
    ∃ s answers' t, answers step (Files.init classes) ops = some (s, answers') ∧
      Allows Spec (Table.init classes) ops answers' t ∧ Represents s t :=
  simulation step_represents (init_represents classes) h

/-- A device is registered and opened twice; the first descriptor is closed
and written to, the second is written to. -/
def openTwice : List (Op Unit Nat) :=
  [.register (.create Cdev.com1), .register (.add Cdev.com1), .open (Cdev.path Cdev.com1.name) 100,
    .open (Cdev.path Cdev.com1.name) 200, .close 1, .write 1 8 3 3, .write 2 8 3 3]

theorem fileTable_refines_openTwice : ∃ s os t,
    answers step (Files.init []) openTwice = some (s, os) ∧
      os.map Answer.reached = [none, none, some (.open () Cdev.com1.dev 100), some (.open () Cdev.com1.dev 200),
        none, none, some (.write () 200 8 3)] ∧
      Allows Spec (Table.init []) openTwice os t ∧ Represents s t := by
  obtain ⟨s, os, t, hrun, hall, hrep⟩ :=
    fileTable_refines (show Admits step Opens (Files.init []) openTwice by decide)
  refine ⟨s, os, t, hrun, ?_, hall, hrep⟩
  cases hrun
  rfl

end Refinement

/-! ## Calls that cannot be served -/

section Refusals

variable {D F : Type} {s : Files D F}

/-- The name has no registered device with a `cdev`, the descriptor is not
live, or the buffer is `NULL`. -/
def Unserved (s : Files D F) : Op D F → Prop
  | .open name _ => (deviceByName s.classes name).bind (·.cdev) = none
  | .close fd => fileByFd s.list fd = none
  | .write fd buf _ _ | .read fd buf _ _ => fileByFd s.list fd = none ∨ buf = 0
  | .register _ => False

/-- The call returns an error, reaches no driver and leaves the table, the
counter and the registry as they were. -/
def Refuses (s : Files D F) (op : Op D F) : Prop :=
  ∃ s' o, step s op = some (s', o) ∧ o.ret < 0 ∧ o.reached = none ∧
    s'.list = s.list ∧ s'.lfd = s.lfd ∧ s'.classes = s.classes

theorem fdOpen_unserved {name : CString} {file : F} (h : Unserved s (.open name file)) :
    fdOpen s name file = none := by
  unfold fdOpen
  cases hcls : deviceByName s.classes name with
  | none => rfl
  | some cls =>
    have hcdev : cls.cdev = none := by simpa [Unserved, hcls] using h
    simp only [hcdev]

/-- A transfer that cannot be served returns 0 and sets `errno`. -/
theorem transfer_unserved {fd : Int32} {buf : UInt32} (h : fileByFd s.list fd = none ∨ buf = 0)
    (op : D → F → DriverCall D F) (result : Int32) :
    ∃ e, transfer op s fd buf result = ({ s with errno := e }, { ret := 0, reached := none }) := by
  unfold transfer
  cases hfd : fileByFd s.list fd with
  | none => exact ⟨ebadf, rfl⟩
  | some f =>
    have hbuf : buf = 0 := h.resolve_left (by simp [hfd])
    exact ⟨efault, if_pos hbuf⟩

theorem close_refuses {fd : Int32} (h : Unserved s (.close fd)) : Refuses s (.close fd) := by
  have hclose : fdClose s fd = ({ s with errno := ebadf }, { ret := -1, reached := none }) := by
    rw [fdClose, show fileByFd s.list fd = none from h]
  have hneg : (-1 : Int32) < 0 := by decide
  exact ⟨_, _, congrArg some hclose, hneg, rfl, rfl, rfl, rfl⟩

/-- A call that answers 0 refuses nothing. -/
theorem not_refuses {op : Op D F} {s' : Files D F} {o : Answer D F} (hs : step s op = some (s', o))
    (ho : o.ret = 0) : ¬ Refuses s op := by
  rintro ⟨s'', o', hs', hneg, -⟩
  rw [hs] at hs'
  cases hs'
  rw [ho] at hneg
  exact absurd hneg (by decide)

/-- **Only `close` refuses.** Of the calls that cannot be served, `close`
returns an error and changes nothing but `errno`; `read` and `write` return
0, and `open` follows a `NULL` pointer. -/
theorem refuses_iff {op : Op D F} (h : Unserved s op) : Refuses s op ↔ ∃ fd, op = .close fd := by
  constructor
  · intro href
    cases op with
    | «open» name file =>
      obtain ⟨s', o, hs, -⟩ := href
      rw [step, fdOpen_unserved h] at hs
      cases hs
    | close fd => exact ⟨fd, rfl⟩
    | write fd buf nbyte result =>
      obtain ⟨e, he⟩ := transfer_unserved h (fun device file => .write device file buf nbyte) result
      exact absurd href (not_refuses (congrArg some he) rfl)
    | read fd buf nbyte result =>
      obtain ⟨e, he⟩ := transfer_unserved h (fun device file => .read device file buf nbyte) result
      exact absurd href (not_refuses (congrArg some he) rfl)
    | register c => exact h.elim
  · rintro ⟨fd, rfl⟩
    exact close_refuses h

/-- With one descriptor closed and one live, the closed one is not closed
again. -/
theorem refuses_iff_close : ∃ s os, answers step (Files.init []) openTwice = some (s, os) ∧
    s.list.map OpenedFile.fd = [2] ∧ Unserved s (.close 1) ∧ Refuses s (.close 1) := by
  refine ⟨_, _, rfl, rfl, rfl, (refuses_iff ?_).mpr ⟨1, rfl⟩⟩
  rfl

/-- With one descriptor closed and one live: a read of the closed one and a
write from `NULL` return 0, opening a name that is not registered has no
result. -/
theorem not_refuses_openTwice : ∃ s os, answers step (Files.init []) openTwice = some (s, os) ∧
    (Unserved s (.read 1 8 3 3) ∧ ¬ Refuses s (.read 1 8 3 3)) ∧
    (Unserved s (.write 2 0 3 3) ∧ ¬ Refuses s (.write 2 0 3 3)) ∧
    (Unserved s (.open (Cdev.path ['x']) 300) ∧ ¬ Refuses s (.open (Cdev.path ['x']) 300)) := by
  refine ⟨_, _, rfl, ⟨.inl rfl, not_refuses rfl rfl⟩, ⟨.inr rfl, not_refuses rfl rfl⟩, rfl, ?_⟩
  rintro ⟨s', o, hs, -⟩
  cases hs

/-- **A caller that reads until it has something never stops.** However
often `main`'s loop reads a descriptor that is not live, it gets 0. -/
theorem read_unserved {fd : Int32} {buf nbyte : UInt32} {result : Int32} :
    ∀ (k : Nat) {s : Files D F}, Unserved s (.read fd buf nbyte result) →
      ∃ s', answers step s (List.replicate k (.read fd buf nbyte result)) =
        some (s', List.replicate k { ret := 0, reached := none })
  | 0, s, _ => ⟨s, rfl⟩
  | k + 1, s, h => by
    obtain ⟨e, he⟩ := transfer_unserved h (fun device file => .read device file buf nbyte) result
    have hsame : Unserved { s with errno := e } (.read fd buf nbyte result) := h
    obtain ⟨s', hs⟩ := read_unserved k hsame
    refine ⟨s', ?_⟩
    rw [List.replicate_succ, answers, step, fdRead, he, Option.bind_some]
    dsimp only
    rw [hs]
    rfl

end Refusals

end Lmsel4.FileTable
