/-
The loader's `main` on COM2: it opens the device, reads until it has bytes
and writes them back, while interrupts come at any time.

The parts are those of the other modules: the registry after a load
(`LoadCycle`), the open files (`FileTable`), the device of a file
(`Isolation`) and the calls on it with the handler (`ComDev`). Main reads
alone and writes alone (`Sole`), so what it writes back are the first bytes
received, all of them, and nothing else is sent.
-/
import Lmsel4.Isolation
import Lmsel4.Sole
import Lmsel4.FileTable

namespace Lmsel4.Echo

open Driver (Com)
open FileTable
open Isolation (uart16550Open unloaded)

/-! ## `main` -/

/-- In `main`, the driver being loaded: the `k`-th `read`, then `write` with
the `r` bytes read, which returns `ret`. -/
inductive Pc
  | open
  | read (k : Nat)
  | reading (k : Nat)
  | write (r : Int32)
  | writing (r : Int32)
  | wrote (r ret : Int32)
  | failed
  deriving DecidableEq

/-- `main` has one file. -/
structure State where
  files : Files Com Unit
  privateData : Option Com
  fd : Int32
  buf : List UInt8
  com2 : ComDev.State Nat
  pc : Pc

inductive Act
  | main
  | irq
  | handler (v : UInt8)
  deriving DecidableEq

/-- `iminor`. -/
def iminor (rdev : UInt32) : Int32 := (rdev &&& 0xfffff).toInt32

def devCom2 : List Char := ['/', 'd', 'e', 'v', '/', 'c', 'o', 'm', '2']

def bufSize : UInt32 := 256

/-- `open`, then `calloc` of the buffer; an assertion that fails is no
result. -/
def State.open (s : State) : Option State :=
  (fdOpen s.files devCom2 ()).bind fun (files, answer) =>
    match answer.reached with
    | some (.open _ rdev _) =>
      if answer.ret > 0 then
        some
          { s with
            files, privateData := some (uart16550Open (iminor rdev)), fd := answer.ret
            buf := List.replicate bufSize.toNat 0, pc := .read 0 }
      else none
    | _ => none

/-- A step of a call on the file. Of the two devices COM2 is loaded. -/
def State.call (s : State) (a : ComDev.Act Nat) (pc : Pc) : Option State :=
  match s.privateData with
  | some .com2 => (ComDev.step s.com2 a).map fun com2 => { s with com2, pc }
  | _ => none

/-- A step of `main`, its buffer being at `addr`. -/
def State.main (addr : UInt32) (s : State) : Option State :=
  match s.pc with
  | .open => s.open
  | .read k =>
    match (fdRead s.files s.fd addr bufSize 0).2.reached with
    | some (.read _ _ _ nbyte) => s.call (.callRead k nbyte) (.reading k)
    -- `read` has returned 0 without asking the device.
    | _ => some { s with files := (fdRead s.files s.fd addr bufSize 0).1, pc := .read (k + 1) }
  | .reading k =>
    match (s.com2.reads k).pc with
    | .done ret user =>
      let buf := user ++ s.buf.drop user.length
      some { s with buf, pc := if ret = 0 then .read (k + 1) else if ret < 0 then .failed else .write ret }
    | _ => s.call (.read k true) (.reading k)
  | .write r =>
    match (fdWrite s.files s.fd addr r.toUInt32 0).2.reached with
    | some (.write _ _ _ nbyte) => s.call (.callWrite 0 (s.buf.take nbyte.toNat)) (.writing r)
    | _ => some { s with files := (fdWrite s.files s.fd addr r.toUInt32 0).1, pc := .wrote r 0 }
  | .writing r =>
    match (s.com2.writes 0).pc with
    | .done ret => some { s with pc := .wrote r ret }
    | _ => s.call (.write 0 true) (.writing r)
  | .wrote _ _ | .failed => none

def step (addr : UInt32) (s : State) : Act → Option State
  | .main => s.main addr
  | .irq => (ComDev.step s.com2 .irq).map fun com2 => { s with com2 }
  | .handler v => (ComDev.step s.com2 (.handler v)).map fun com2 => { s with com2 }

/-- The driver loaded as `main` loads it. -/
def loaded : Int32 × Driver.Loaded LoadCycle.Linux := LoadCycle.load Driver.optionCom2 42 unloaded

def init : State where
  files := Files.init loaded.2.kernel.classes
  privateData := none
  fd := 0
  buf := []
  com2 := ComDev.init Nat
  pc := .open

def system (addr : UInt32) : System State Act where
  init := init
  step := step addr

/-! ## The steps -/

variable {addr : UInt32} {s s' : State}

theorem call_eq_some {a : ComDev.Act Nat} {pc : Pc} (hs : s.call a pc = some s') :
    ∃ com2, ComDev.step s.com2 a = some com2 ∧ s' = { s with com2, pc } := by
  unfold State.call at hs
  split at hs
  · obtain ⟨com2, hstep, rfl⟩ := Option.map_eq_some_iff.mp hs
    exact ⟨com2, hstep, rfl⟩
  · cases hs

theorem open_eq_some (hs : s.open = some s') :
    s'.com2 = s.com2 ∧ s'.pc = .read 0 ∧ (fileByFd s'.files.list s'.fd).isSome ∧
      ∃ cls, Cdev.deviceByName s.files.classes devCom2 = some cls ∧
        s'.privateData = some (uart16550Open (iminor cls.dev)) := by
  obtain ⟨⟨files, answer⟩, hopen, hs⟩ := Option.bind_eq_some_iff.mp hs
  obtain ⟨cls, device, hcls, hlist, rfl⟩ := fdOpen_eq_some hopen
  dsimp only at hs
  split at hs <;> cases hs
  refine ⟨rfl, rfl, ?_, cls, hcls, rfl⟩
  rw [hlist, fileByFd_cons, if_pos rfl]
  rfl

/-- A step is one of the device, or leaves it alone. -/
theorem step_com2 {a : Act} (hs : step addr s a = some s') :
    s'.com2 = s.com2 ∨ ∃ b, ComDev.step s.com2 b = some s'.com2 := by
  have hcall : ∀ {b : ComDev.Act Nat} {pc : Pc}, s.call b pc = some s' →
      ∃ b, ComDev.step s.com2 b = some s'.com2 := by
    intro b pc hs
    obtain ⟨com2, hstep, rfl⟩ := call_eq_some hs
    exact ⟨b, hstep⟩
  cases a with
  | irq | handler v =>
    obtain ⟨com2, hstep, rfl⟩ := Option.map_eq_some_iff.mp hs
    exact .inr ⟨_, hstep⟩
  | main =>
    simp only [step, State.main] at hs
    split at hs
    · exact .inl (open_eq_some hs).1
    all_goals try split at hs
    all_goals first
      | exact .inr (hcall hs)
      | cases hs <;> exact .inl rfl

theorem reachable_com2 (h : (system addr).Reachable s) : (ComDev.system Nat).Reachable s.com2 := by
  have hinit : (ComDev.system Nat).Reachable init.com2 := .init
  refine h.invariant (I := fun s => (ComDev.system Nat).Reachable s.com2) hinit fun s a s' ih _ hs => ?_
  rcases step_com2 hs with heq | ⟨b, hstep⟩
  · rwa [heq]
  · exact ih.step trivial hstep

/-- An interrupt leaves the calls of `main` alone. -/
theorem step_interrupt {a : Act} (ha : a ≠ .main) (hs : step addr s a = some s') :
    ∃ com2, s' = { s with com2 } ∧ com2.reads = s.com2.reads ∧ com2.writes = s.com2.writes := by
  cases a with
  | main => exact absurd rfl ha
  | irq =>
    obtain ⟨com2, hstep, rfl⟩ := Option.map_eq_some_iff.mp hs
    refine ⟨com2, rfl, ?_⟩
    simp only [ComDev.step] at hstep
    split at hstep <;> cases hstep
    exact ⟨rfl, rfl⟩
  | handler v =>
    obtain ⟨com2, hstep, rfl⟩ := Option.map_eq_some_iff.mp hs
    exact ⟨com2, rfl, ComDev.handlerStep_calls hstep⟩

/-! ## Up to the write -/

/-- `fd` is an open file of COM2. -/
structure Opened (s : State) : Prop where
  live : (fileByFd s.files.list s.fd).isSome
  com2 : s.privateData = some .com2

/-- The reads before the `k`-th took nothing, those after it and the writes
were not made. -/
structure Reads (k : Nat) (s : State) : Prop where
  file : Opened s
  earlier : ∀ j, j < k → (s.com2.reads j).taken = []
  later : ∀ j, k < j → (s.com2.reads j).pc = .idle
  writes : ∀ c, (s.com2.writes c).pc = .idle

/-- What `main` has done where it is, up to the write. -/
def Located (s : State) : Prop :=
  match s.pc with
  | .open => s.files = Files.init loaded.2.kernel.classes ∧ (∀ j, (s.com2.reads j).pc = .idle) ∧
      ∀ c, (s.com2.writes c).pc = .idle
  | .read k => Reads k s ∧ (s.com2.reads k).pc = .idle
  | .reading k => Reads k s ∧ (s.com2.reads k).size = bufSize ∧ (s.com2.reads k).pc.fits bufSize
  | .write r => 0 < r ∧ ∃ k user, Reads k s ∧ (s.com2.reads k).pc = .done r user ∧
      (ComDev.ReadPc.done r user).fits bufSize ∧ s.buf.take user.length = user
  | _ => True

theorem Opened.congr (h : Opened s) {com2 : ComDev.State Nat} {buf : List UInt8} {pc : Pc} :
    Opened { s with com2, buf, pc } := ⟨h.live, h.com2⟩

theorem Reads.congr {k : Nat} (h : Reads k s) {com2 : ComDev.State Nat} (hr : com2.reads = s.com2.reads)
    (hw : com2.writes = s.com2.writes) {buf : List UInt8} {pc : Pc} : Reads k { s with com2, buf, pc } where
  file := h.file.congr
  earlier := hr ▸ h.earlier
  later := hr ▸ h.later
  writes := hw ▸ h.writes

theorem Located.interrupt (h : Located s) {com2 : ComDev.State Nat} (hr : com2.reads = s.com2.reads)
    (hw : com2.writes = s.com2.writes) : Located { s with com2 } := by
  unfold Located at h ⊢
  dsimp only
  rw [hr, hw]
  cases hpc : s.pc with
  | «open» =>
    rw [hpc] at h
    exact h
  | read | reading =>
    rw [hpc] at h
    exact ⟨h.1.congr hr hw, h.2⟩
  | write =>
    rw [hpc] at h
    obtain ⟨hpos, k, user, hreads, hrest⟩ := h
    exact ⟨hpos, k, user, hreads.congr hr hw, hrest⟩
  | writing | wrote | failed => trivial

/-- Reads go on in the `k`-th call. -/
theorem Reads.update {k : Nat} (h : Reads k s) {com2 : ComDev.State Nat} {r : ComDev.ReadCall}
    (hr : com2.reads = Function.update s.com2.reads k r) (hw : com2.writes = s.com2.writes) {pc : Pc} :
    Reads k { s with com2, pc } where
  file := h.file.congr
  earlier j hj := by
    rw [hr, Function.update_of_ne (Nat.ne_of_lt hj)]
    exact h.earlier j hj
  later j hj := by
    rw [hr, Function.update_of_ne (Nat.ne_of_gt hj)]
    exact h.later j hj
  writes := hw ▸ h.writes

theorem com2_minor {cls : Cdev.SeL4Class Com}
    (h : Cdev.deviceByName loaded.2.kernel.classes devCom2 = some cls) : iminor cls.dev = 1 := by
  have hmap : (Cdev.deviceByName loaded.2.kernel.classes devCom2).map (fun cls => iminor cls.dev) = some 1 := by
    decide
  rw [h] at hmap
  exact Option.some.inj hmap

theorem main_read {k : Nat} (haddr : addr ≠ 0) (h : Opened s) (hpc : s.pc = .read k) :
    s.main addr = s.call (.callRead k bufSize) (.reading k) := by
  obtain ⟨f, hf⟩ := transfer_live h.live haddr (fun device file => .read device file addr bufSize) 0
  simp only [State.main, hpc, fdRead, hf]

theorem main_write {r : Int32} (haddr : addr ≠ 0) (h : Opened s) (hpc : s.pc = .write r) :
    s.main addr = s.call (.callWrite 0 (s.buf.take r.toUInt32.toNat)) (.writing r) := by
  obtain ⟨f, hf⟩ := transfer_live h.live haddr (fun device file => .write device file addr r.toUInt32) 0
  simp only [State.main, hpc, fdWrite, hf]

theorem open_located (h : Located s) (hpc : s.pc = .open) (hs : s.open = some s') : Located s' := by
  unfold Located at h ⊢
  rw [hpc] at h
  obtain ⟨hfiles, hreads, hwrites⟩ := h
  obtain ⟨hcom, hpc', hlive, cls, hcls, hdata⟩ := open_eq_some hs
  rw [hfiles] at hcls
  rw [com2_minor hcls] at hdata
  rw [hpc', hcom]
  refine ⟨⟨⟨hlive, hdata⟩, fun j hj => ?_, fun j _ => ?_, ?_⟩, hreads 0⟩
  · exact absurd hj (Nat.not_lt_zero j)
  · rw [hcom]
    exact hreads j
  · rw [hcom]
    exact hwrites

theorem read_located {k : Nat} (haddr : addr ≠ 0) (h : Located s) (hpc : s.pc = .read k)
    (hs : s.main addr = some s') : Located s' := by
  unfold Located at h
  rw [hpc] at h
  rw [main_read haddr h.1.file hpc] at hs
  obtain ⟨com2, hstep, rfl⟩ := call_eq_some hs
  rw [ComDev.step, if_pos h.2] at hstep
  have hr : com2.reads = Function.update s.com2.reads k { size := bufSize, pc := .kmalloc } := by cases hstep; rfl
  have hw : com2.writes = s.com2.writes := by cases hstep; rfl
  refine ⟨h.1.update hr hw, ?_⟩
  dsimp only
  rw [hr, Function.update_self]
  exact ⟨rfl, trivial⟩

/-- What the `k`-th read has brought: nothing, and `main` reads again, or
the bytes to write. -/
theorem read_done {k : Nat} {ret : Int32} {user : List UInt8} (hrx : ComDev.RxInv s.com2.rx) (h : Reads k s)
    (hfits : (s.com2.reads k).pc.fits bufSize) (hdone : (s.com2.reads k).pc = .done ret user) :
    Located { s with
      buf := user ++ s.buf.drop user.length
      pc := if ret = 0 then .read (k + 1) else if ret < 0 then .failed else .write ret } := by
  have hlen := hrx.done_length hdone
  unfold Located
  split_ifs with hzero hneg
  · subst hzero
    have hnil : (s.com2.reads k).taken = [] := by
      rw [ComDev.ReadCall.taken, hdone]
      exact List.length_eq_zero_iff.mp hlen
    refine ⟨⟨h.file.congr, fun j hj => ?_, fun j hj => h.later j (by omega), h.writes⟩, h.later _ (by omega)⟩
    rcases Nat.lt_succ_iff_lt_or_eq.mp hj with hj | rfl
    · exact h.earlier j hj
    · exact hnil
  · trivial
  · refine ⟨?_, k, user, h.congr rfl rfl, hdone, hdone ▸ hfits, List.take_left⟩
    rw [Int32.lt_iff_toInt_lt] at hneg ⊢
    have hne : ret.toInt ≠ 0 := fun h0 => hzero (Int32.toInt_inj.mp h0)
    rw [Int32.toInt_zero] at hneg ⊢
    omega

theorem reading_located {k : Nat} (hrx : ComDev.RxInv s.com2.rx) (h : Located s) (hpc : s.pc = .reading k)
    (hs : s.main addr = some s') : Located s' := by
  unfold Located at h
  rw [hpc] at h
  obtain ⟨hreads, hsize, hfits⟩ := h
  simp only [State.main, hpc] at hs
  split at hs
  next ret user hdone =>
    cases hs
    exact read_done hrx hreads hfits hdone
  · obtain ⟨com2, hstep, rfl⟩ := call_eq_some hs
    have hfits' := ComDev.readStep_fits hrx (hsize ▸ hfits) hstep
    obtain ⟨hw, r, hr, hrsize⟩ := ComDev.readStep_calls hstep
    refine ⟨hreads.update hr hw, ?_, hsize ▸ hfits'⟩
    rw [← hsize, ← hrsize]
    dsimp only
    rw [hr, Function.update_self]

theorem step_located {a : Act} (haddr : addr ≠ 0) (hrx : ComDev.RxInv s.com2.rx) (h : Located s)
    (hs : step addr s a = some s') : Located s' := by
  by_cases ha : a = .main
  · subst ha
    have hs : s.main addr = some s' := hs
    cases hpc : s.pc with
    | «open» =>
      rw [State.main, hpc] at hs
      exact open_located h hpc hs
    | read k => exact read_located haddr h hpc hs
    | reading k => exact reading_located hrx h hpc hs
    | write r =>
      unfold Located at h
      rw [hpc] at h
      obtain ⟨-, k, user, hreads, -⟩ := h
      rw [main_write haddr hreads.file hpc] at hs
      obtain ⟨com2, hstep, rfl⟩ := call_eq_some hs
      trivial
    | writing r =>
      simp only [State.main, hpc] at hs
      split at hs
      · cases hs
        trivial
      · obtain ⟨com2, hstep, rfl⟩ := call_eq_some hs
        trivial
    | wrote | failed => simp [State.main, hpc] at hs
  · obtain ⟨com2, rfl, hr, hw⟩ := step_interrupt ha hs
    exact h.interrupt hr hw

theorem init_located : Located init := ⟨rfl, fun _ => rfl, fun _ => rfl⟩

theorem reachable_located (haddr : addr ≠ 0) (h : (system addr).Reachable s) : Located s := by
  induction h with
  | init => exact init_located
  | step hr _ hs ih => exact step_located haddr (ComDev.reachable_rxInv (reachable_com2 hr)) ih hs

/-- **What `main` has read.** -/
theorem write_located {r : Int32} (haddr : addr ≠ 0) (h : (system addr).Reachable s) (hpc : s.pc = .write r) :
    ∃ k user, Reads k s ∧ user.length = r.toNatClampNeg ∧ r.toNatClampNeg ≤ bufSize.toNat ∧ 0 < r ∧
      s.buf.take user.length = user ∧ user.length ≤ s.com2.rbr.length ∧ user = s.com2.rbr.take user.length := by
  have hloc := reachable_located haddr h
  have hcom := reachable_com2 h
  unfold Located at hloc
  rw [hpc] at hloc
  obtain ⟨hpos, k, user, hreads, hdone, hfits, hbuf⟩ := hloc
  have hlen := (ComDev.reachable_rxInv hcom).done_length hdone
  have htaken : (s.com2.reads k).taken = user := by rw [ComDev.ReadCall.taken, hdone]; rfl
  have hle : r.toNatClampNeg ≤ bufSize.toNat := hfits
  have hothers : ∀ j, j ≠ k → (s.com2.reads j).taken = [] := by
    intro j hj
    rcases Nat.lt_or_gt_of_ne hj with hj | hj
    · exact hreads.earlier j hj
    · rw [ComDev.ReadCall.taken, hreads.later j hj]
      rfl
  have hfirst := ComDev.sole_taken hcom hothers (by
    rw [htaken, hlen]
    exact Nat.le_trans hle (by decide))
  rw [htaken] at hfirst
  exact ⟨k, user, hreads, hlen, hle, hpos, hbuf, hfirst⟩

/-! ## From the write on -/

/-- `main` writes `bytes`, of which there are `r`. -/
inductive Echoing (r : Int32) (bytes : List UInt8) (s : State) : Prop
  | write : s.pc = .write r → Opened s → s.buf.take r.toUInt32.toNat = bytes →
    (∀ c, (s.com2.writes c).pc = .idle) → Echoing r bytes s
  | writing : s.pc = .writing r → Opened s → ComDev.SoleWriter 0 s.com2 → (s.com2.writes 0).user = bytes →
    (s.com2.writes 0).pc ≠ .idle → Echoing r bytes s
  | wrote : s.pc = .wrote r r → ComDev.SoleWriter 0 s.com2 → (s.com2.writes 0).user = bytes → Echoing r bytes s

/-- How many steps `main` has left to the return of `write`. -/
def State.left (s : State) : Nat :=
  match s.pc with
  | .write _ => 13
  | .writing _ => (s.com2.writes 0).pc.left
  | _ => 0

theorem soleWriter_congr {com2 com2' : ComDev.State Nat} (h : ComDev.SoleWriter 0 com2)
    (hw : com2'.writes = com2.writes) : ComDev.SoleWriter 0 com2' :=
  ⟨hw ▸ h.others, hw ▸ h.short, hw ▸ h.straight⟩

section Writing

variable {r : Int32} {bytes : List UInt8}

theorem Echoing.interrupt (h : Echoing r bytes s) {com2 : ComDev.State Nat} (hw : com2.writes = s.com2.writes) :
    Echoing r bytes { s with com2 } ∧ State.left { s with com2 } = s.left := by
  refine ⟨?_, by simp only [State.left, hw]⟩
  cases h with
  | write hpc hfile hbuf hidle => exact .write hpc hfile.congr hbuf (hw ▸ hidle)
  | writing hpc hfile hsole huser hne =>
    exact .writing hpc hfile.congr (soleWriter_congr hsole hw) (hw ▸ huser) (hw ▸ hne)
  | wrote hpc hsole huser => exact .wrote hpc (soleWriter_congr hsole hw) (hw ▸ huser)

/-- Nothing but `bytes` is sent. -/
theorem Echoing.thr (h : Echoing r bytes s) (htx : ComDev.TxInv s.com2.tx) : s.com2.thr <+: bytes := by
  cases h with
  | write _ _ _ hidle =>
    have hthr := ComDev.sole_thr (c := 0) htx fun d _ => hidle d
    rw [ComDev.accepted_eq_nil (by rw [hidle 0]; rfl), List.prefix_nil] at hthr
    rw [hthr]
    exact List.nil_prefix
  | writing _ _ hsole huser _ | wrote _ hsole huser =>
    have hthr := ComDev.sole_thr htx hsole.others
    rw [ComDev.WriteCall.accepted, huser] at hthr
    exact hthr.trans (List.take_prefix _ _)

theorem Echoing.enabled (h : Echoing r bytes s) (haddr : addr ≠ 0) (hleft : 0 < s.left) :
    ∃ s', s.main addr = some s' := by
  cases h with
  | write hpc hfile _ hidle =>
    rw [main_write haddr hfile hpc]
    simp [State.call, hfile.com2, ComDev.step, hidle 0]
  | writing hpc hfile hsole _ hne =>
    simp only [State.main, hpc]
    split
    · exact ⟨_, rfl⟩
    next hdone =>
      obtain ⟨com2, hstep⟩ : ∃ com2, ComDev.writeStep s.com2 0 true = some com2 :=
        ComDev.writeStep_enabled hne fun ret h => hdone ret h
      simp [State.call, hfile.com2, ComDev.step, hstep]
  | wrote hpc => simp [State.left, hpc] at hleft

theorem Echoing.returned (h : Echoing r bytes s) (hleft : s.left = 0) : s.pc = .wrote r r := by
  cases h with
  | write hpc => simp [State.left, hpc] at hleft
  | writing hpc _ hsole =>
    have hpos := hsole.straight.left_pos
    simp only [State.left, hpc] at hleft
    omega
  | wrote hpc => exact hpc

variable (haddr : addr ≠ 0) (hlen : r.toUInt32 = UInt32.ofNat bytes.length)
  (hshort : bytes.length ≤ ComDev.fifoSize.toNat)

include hlen

include haddr hshort in
theorem Echoing.main (h : Echoing r bytes s) (htx : ComDev.TxInv s.com2.tx) (hs : s.main addr = some s') :
    Echoing r bytes s' ∧ s'.left + 1 = s.left := by
  cases h with
  | write hpc hfile hbuf hidle =>
    rw [main_write haddr hfile hpc, hbuf] at hs
    obtain ⟨com2, hstep, rfl⟩ := call_eq_some hs
    rw [ComDev.step, if_pos (hidle 0)] at hstep
    have hw : com2.writes = Function.update s.com2.writes 0 { user := bytes, buffer := [], pc := .kmalloc } := by
      cases hstep
      rfl
    have h0 : com2.writes 0 = { user := bytes, buffer := [], pc := .kmalloc } := by rw [hw, Function.update_self]
    refine ⟨.writing rfl hfile.congr ⟨fun d hd => ?_, ?_, ?_⟩ (by rw [h0]) (by simp [h0]), ?_⟩
    · rw [hw, Function.update_of_ne hd]
      exact hidle d
    · rw [h0]
      exact hshort
    · rw [h0]
      trivial
    · simp only [State.left, hpc, h0]
      rfl
  | writing hpc hfile hsole huser hne =>
    simp only [State.main, hpc] at hs
    split at hs
    next ret hdone =>
      cases hs
      have hret := hsole.straight
      rw [hdone, huser, ← hlen] at hret
      have hret : ret = r := hret.trans (Int32.toInt32_toUInt32 r)
      subst hret
      refine ⟨.wrote rfl (soleWriter_congr hsole rfl) huser, ?_⟩
      simp [State.left, hpc, hdone, ComDev.WritePc.left]
    · obtain ⟨com2, hstep, rfl⟩ := call_eq_some hs
      obtain ⟨hsole', huser', hleft⟩ := hsole.step htx hstep
      refine ⟨.writing rfl hfile.congr hsole' (huser'.trans huser) fun hidle => ?_, ?_⟩
      · rw [hidle] at hleft
        have hle := ComDev.WritePc.left_le (s.com2.writes 0).pc
        have h13 : ComDev.WritePc.idle.left = 13 := rfl
        omega
      · simp only [State.left, hpc]
        exact hleft
  | wrote hpc => simp [State.main, hpc] at hs

include haddr hshort in
/-- Every step of `main` brings the return of `write` nearer, whatever
interrupts come. -/
theorem Echoing.step {a : Act} (h : Echoing r bytes s) (htx : ComDev.TxInv s.com2.tx)
    (hs : step addr s a = some s') : Echoing r bytes s' ∧ s'.left + [a].count .main = s.left := by
  by_cases ha : a = .main
  · subst ha
    exact h.main haddr hlen hshort htx hs
  · obtain ⟨com2, rfl, -, hw⟩ := step_interrupt ha hs
    rw [List.count_singleton, if_neg (by simpa using ha)]
    exact h.interrupt hw

include haddr hshort in
theorem Echoing.exec {t : State} : ∀ {as : List Act} {s : State}, Echoing r bytes s →
    (system addr).Reachable s → (system addr).exec s as = some t →
    Echoing r bytes t ∧ t.left + as.count .main = s.left
  | [], s, h, _, he => by
    cases he
    exact ⟨h, rfl⟩
  | a :: as, s, h, hreach, he => by
    obtain ⟨u, hs, he⟩ := System.exec_cons.mp he
    obtain ⟨hu, hleft⟩ := h.step haddr hlen hshort (ComDev.reachable_txInv (reachable_com2 hreach)) hs
    obtain ⟨ht, hleft'⟩ := hu.exec (hreach.step trivial hs) he
    refine ⟨ht, ?_⟩
    rw [← List.singleton_append, List.count_append]
    omega

end Writing

/-- The `int` that `main` passes as a `size_t`. -/
theorem toNat_toUInt32 {r : Int32} (h : 0 < r) : r.toUInt32.toNat = r.toNatClampNeg := by
  have hint := BitVec.toInt_eq_toNat_cond r.toBitVec
  rw [Int32.lt_iff_toInt_lt, Int32.toInt_zero] at h
  change r.toBitVec.toNat = r.toInt.toNat
  change r.toInt = _ at hint
  split at hint <;> omega

theorem le_256 {r : Int32} (h : r.toNatClampNeg ≤ bufSize.toNat) : r ≤ 256 := by
  have hsize : bufSize.toNat = 256 := rfl
  have h256 : (256 : Int32).toInt = 256 := rfl
  rw [Int32.le_iff_toInt_le, h256]
  change r.toInt.toNat ≤ _ at h
  omega

/-- **The echo.** Where `main` comes to `write` with `r` bytes, these are
at most 256 and the first ones the handler read from RBR. From there on,
whatever interrupts come, only a prefix of them is in THR, and `main` is
never held up: 13 steps on, `write` has returned `r`. -/
theorem echo (haddr : addr ≠ 0) (h : (system addr).Reachable s) {r : Int32} (hpc : s.pc = .write r) :
    0 < r ∧ r ≤ 256 ∧ r.toNatClampNeg ≤ s.com2.rbr.length ∧
      s.buf.take r.toNatClampNeg = s.com2.rbr.take r.toNatClampNeg ∧
      ∀ as t, (system addr).exec s as = some t →
        t.com2.thr <+: s.buf.take r.toNatClampNeg ∧
        (as.count .main < 13 → ∃ t', (system addr).step t .main = some t') ∧
        (as.count .main = 13 → t.pc = .wrote r r) := by
  obtain ⟨k, user, hreads, hlen, hle, hpos, hbuf, hrbr, hfirst⟩ := write_located haddr h hpc
  have hnat := toNat_toUInt32 hpos
  have hmax := le_256 hle
  rw [← hlen] at hnat hle ⊢
  have huser : r.toUInt32 = UInt32.ofNat user.length := by rw [← hnat, UInt32.ofNat_toNat]
  have hshort : user.length ≤ ComDev.fifoSize.toNat := Nat.le_trans hle (by decide)
  have hecho : Echoing r user s := .write hpc hreads.file (hnat ▸ hbuf) hreads.writes
  have hleft : s.left = 13 := by rw [State.left, hpc]
  refine ⟨hpos, hmax, hrbr, hbuf.trans hfirst, fun as t he => ?_⟩
  obtain ⟨ht, hsum⟩ := hecho.exec haddr huser hshort h he
  rw [hbuf]
  refine ⟨ht.thr (ComDev.reachable_txInv (reachable_com2 (h.exec as he))), fun hcount => ?_, fun hcount => ?_⟩
  · exact ht.enabled haddr (by omega)
  · exact ht.returned (by omega)

/-- A byte is received, and LSR returns `status` after it. -/
def receive (byte status : UInt8) : List Act :=
  [.handler byte, .handler 0, .handler 0, .handler 0, .handler 0, .handler status]

/-- `main` opens, an interrupt brings three bytes, `main` reads them. -/
def threeBytes : List Act :=
  [.main, .irq, .handler 0, .handler 1] ++ receive 87 1 ++ receive 88 1 ++ receive 89 0 ++ [.handler 0, .handler 0] ++
    List.replicate 11 .main

theorem echo_threeBytes : loaded.1 = 0 ∧ ∃ s : State, (system 8).exec init threeBytes = some s ∧ s.pc = .write 3 ∧
    s.buf.take 3 = [87, 88, 89] ∧ ∀ as t, (system 8).exec s as = some t →
      t.com2.thr <+: [87, 88, 89] ∧ (as.count .main = 13 → t.pc = .wrote 3 3) := by
  refine ⟨by decide, _, rfl, rfl, rfl, fun as t he => ?_⟩
  have hreach : (system 8).Reachable _ := System.Reachable.exec .init threeBytes rfl
  obtain ⟨-, -, -, -, hrun⟩ := echo (by decide) hreach (r := 3) rfl
  obtain ⟨hthr, -, hret⟩ := hrun as t he
  exact ⟨hthr, hret⟩

end Lmsel4.Echo
