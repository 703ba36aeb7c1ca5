/-
Setting the line with nobody else on the device, from registers that hold
anything.

The nine accesses of `uart16550_hw_set_line_parameters` are one function of
the registers (`accesses_setLineParameters`): the first may go to DLM, if
DLAB is set, but that is written later, and nothing is written at offset 0
before DLAB is set. A call of `uart16550_ioctl` makes these accesses, or
none.
-/
import Lmsel4.LineSetting

namespace Lmsel4.LineSetting

open ComDev (Access)

/-- The registers after some accesses, if they can be answered like that. -/
def Ports.accesses (p : Ports) : List Access → Option Ports
  | [] => some p
  | x :: xs => (p.access x).bind fun p => p.accesses xs

/-- The registers say what was asked for, each field of LCR by itself, and
nothing was sent. -/
structure SetUp (line : LineInfo) (p p' : Ports) : Prop where
  isSet : IsSet line p'.toRegs
  len : p'.lcr &&& 0x03 = line.len
  stop : p'.lcr &&& 0x04 = line.stop
  par : p'.lcr &&& 0x38 = line.par
  thr : p'.thr = p.thr

/-! ## The accesses -/

section Accesses

variable {p p' : Ports} {line : LineInfo} {lcr : UInt8}

theorem accesses_cons {x : Access} {xs : List Access} {q : Ports} (h : p.access x = some q) :
    p.accesses (x :: xs) = q.accesses xs := by
  rw [Ports.accesses, h, Option.bind_some]

/-- The fields of LCR do not overlap. -/
theorem lcr_fields (h : line.accepted = true) :
    line.lcr &&& 0x03 = line.len ∧ line.lcr &&& 0x04 = line.stop ∧ line.lcr &&& 0x38 = line.par := by
  simp only [LineInfo.accepted, Bool.and_eq_true, List.contains_iff_mem, List.mem_cons, List.not_mem_nil,
    or_false] at h
  obtain ⟨⟨⟨-, hlen⟩, hpar⟩, hstop⟩ := h
  rcases hlen with hl | hl | hl | hl <;> rcases hpar with hp | hp | hp | hp <;> rcases hstop with hs | hs <;>
    simp only [LineInfo.lcr, hl, hp, hs] <;> decide

/-- Once DLAB is set. -/
theorem accesses_divisor (hdlab : p.dlab = true) (hacc : line.accepted = true) :
    p.accesses [.outb line.baud regDll, .outb 0x00 regDlm, .outb line.lcr regLcr, .outb 0xc7 regFcr,
        .outb 0x08 regMcr, .outb 0x03 ComDev.regIer] =
      some { p with dll := line.baud, dlm := 0x00, lcr := line.lcr, ier := 0x03 } := by
  have hset : p.lcr &&& 0x80 != 0 := hdlab
  simp only [Ports.accesses, Ports.access, regDll, regDlm, regLcr, regFcr, regMcr, ComDev.regIer, Regs.dlab, hset,
    dlab_lcr hacc, if_true, Option.bind_some]
  rfl

/-- What the accesses do, the answer to the read of LCR being what it
holds. -/
theorem accesses_setLineParameters (hacc : line.accepted = true) :
    p.accesses (setLineParameters line lcr) =
      if lcr = p.lcr then some { p with dll := line.baud, dlm := 0x00, lcr := line.lcr, ier := 0x03 } else none := by
  -- The first access is to DLM or to IER.
  obtain ⟨q, hq, hlcr, hthr, hrbr⟩ : ∃ q, p.access (.outb 0x00 ComDev.regIer) = some q ∧ q.lcr = p.lcr ∧
      q.thr = p.thr ∧ q.rbr = p.rbr := by
    simp only [Ports.access, ComDev.regIer]
    exact ⟨_, rfl, by split <;> rfl, by split <;> rfl, by split <;> rfl⟩
  have hread : q.access (.inb regLcr lcr) = if lcr = p.lcr then some q else none := by
    simp only [Ports.access, regLcr, hlcr]
  simp only [setLineParameters]
  rw [accesses_cons hq, Ports.accesses, hread]
  split
  · rw [Option.bind_some, accesses_cons (q := { q with lcr := lcr ||| 0x80 }) rfl,
      accesses_divisor (p := { q with lcr := lcr ||| 0x80 }) (dlab_set lcr) hacc]
    simp only [hthr, hrbr]
  · rfl

theorem setUp_of_accesses (hacc : line.accepted = true) (h : p.accesses (setLineParameters line lcr) = some p') :
    SetUp line p p' := by
  rw [accesses_setLineParameters hacc] at h
  split at h <;> cases h
  obtain ⟨hlen, hstop, hpar⟩ := lcr_fields hacc
  exact ⟨⟨rfl, rfl, rfl, dlab_lcr hacc, rfl⟩, hlen, hstop, hpar, rfl⟩

theorem accesses_append {xs ys : List Access} :
    p.accesses (xs ++ ys) = (p.accesses xs).bind fun q => q.accesses ys := by
  induction xs generalizing p with
  | nil => rfl
  | cons x xs ih =>
    rw [List.cons_append, Ports.accesses, Ports.accesses, Option.bind_assoc]
    exact congrArg _ (funext fun q => ih)

/-- The access is no write at offset 0 or to LCR. -/
def leavesLine : Access → Bool
  | .outb _ reg => reg != 0x00 && reg != 0x03
  | .inb _ _ => true

theorem access_leaves {x : Access} (hx : leavesLine x = true) (h : p.access x = some p') :
    p'.lcr = p.lcr ∧ p'.thr = p.thr := by
  unfold Ports.access at h
  split at h
  · cases hx
  · cases h
    split <;> exact ⟨rfl, rfl⟩
  · cases hx
  · split at h
    · split at h <;> cases h
      exact ⟨rfl, rfl⟩
    · cases h
      exact ⟨rfl, rfl⟩
  · obtain ⟨-, rfl⟩ : _ ∧ p = p' := by simpa using h
    exact ⟨rfl, rfl⟩
  · obtain ⟨-, rfl⟩ : _ ∧ p = p' := by simpa using h
    exact ⟨rfl, rfl⟩
  · cases h
    exact ⟨rfl, rfl⟩

theorem accesses_leave {xs : List Access} (hxs : ∀ x ∈ xs, leavesLine x = true) (h : p.accesses xs = some p') :
    p'.lcr = p.lcr ∧ p'.thr = p.thr := by
  induction xs generalizing p with
  | nil => cases h; exact ⟨rfl, rfl⟩
  | cons x xs ih =>
    obtain ⟨q, hq, h⟩ := Option.bind_eq_some_iff.mp h
    obtain ⟨hlcr, hthr⟩ := access_leaves (hxs x List.mem_cons_self) hq
    obtain ⟨hlcr', hthr'⟩ := ih (fun y hy => hxs y (List.mem_cons_of_mem _ hy)) h
    exact ⟨hlcr'.trans hlcr, hthr'.trans hthr⟩

/-- What `uart16550_hw_setup_device` does before it sets the line. -/
def setupStart (r : SetupReads) : List Access :=
  .inb ComDev.regLsr r.lsr :: (if r.lsr &&& 0x01 ≠ 0 then [.inb ComDev.regRbr r.rbr] else []) ++
    [.inb ComDev.regIsr r.isr, .inb regMsr r.msr, .outb 0x00 ComDev.regIer]

theorem hwSetupDevice_eq (r : SetupReads) :
    hwSetupDevice r = setupStart r ++ setLineParameters defaultParam r.lcr := rfl

theorem setupStart_leaves (r : SetupReads) : ∀ x ∈ setupStart r, leavesLine x = true := by
  intro x hx
  simp only [setupStart, List.cons_append, List.mem_cons, List.mem_append, List.not_mem_nil, or_false] at hx
  rcases hx with rfl | hx | rfl | rfl | rfl
  · rfl
  · split at hx
    · rw [List.mem_singleton.mp hx]
      rfl
    · cases hx
  all_goals rfl

/-- **`uart16550_hw_setup_device` sets the default line.** -/
theorem hwSetupDevice_setUp {r : SetupReads} (h : p.accesses (hwSetupDevice r) = some p') :
    SetUp defaultParam p p' := by
  rw [hwSetupDevice_eq, accesses_append] at h
  obtain ⟨q, hq, h⟩ := Option.bind_eq_some_iff.mp h
  have hset := setUp_of_accesses (by decide) h
  exact ⟨hset.isSet, hset.len, hset.stop, hset.par, hset.thr.trans (accesses_leave (setupStart_leaves r) hq).2⟩

/-- It can be answered, whatever the status registers hold. -/
theorem hwSetupDevice_answered (p : Ports) (lsr isr msr : UInt8) :
    ∃ rbr lcr p', p.accesses (hwSetupDevice { lsr, rbr, isr, msr, lcr }) = some p' := by
  -- At offset 0 there is DLL, or RBR with anything in it.
  obtain ⟨q, hq⟩ : ∃ q, p.accesses (setupStart { lsr, rbr := p.dll, isr, msr, lcr := p.lcr }) = some q := by
    unfold setupStart
    split <;> cases hdlab : p.dlab <;>
      simp only [List.cons_append, List.nil_append, Ports.accesses, Ports.access, ComDev.regLsr, ComDev.regRbr,
        ComDev.regIsr, regMsr, ComDev.regIer, hdlab, if_true, Option.bind_some] <;>
      exact ⟨_, rfl⟩
  refine ⟨p.dll, p.lcr, { q with dll := defaultParam.baud, dlm := 0x00, lcr := defaultParam.lcr, ier := 0x03 }, ?_⟩
  rw [hwSetupDevice_eq, accesses_append, hq, Option.bind_some, accesses_setLineParameters (by decide), if_pos]
  exact (accesses_leave (setupStart_leaves _) hq).1.symm

end Accesses

/-! ## The call -/

section Call

variable {C : Type} [DecidableEq C] {s : Device C Unit} {p : Ports} {r : Regs} {lcr v : UInt8} {n : Nat}

/-- Steps of the call from the access `n` on, with what the ports return. -/
def goesOn (C : Type) (vs : Nat → UInt8) (n k : Nat) : List (Device.Act C Unit ⊕ Empty) :=
  (List.range' n k).map fun i => .inl (.ioctl () (vs i))

/-- A step of the call is the next access. -/
theorem ioctl_step (hpc : (s.ioctls ()).pc = .setting lcr n) (hn : n < 9) :
    (onPorts C r).step (s, p) (.inl (.ioctl () v)) =
      (p.access ((setLineParameters (s.ioctls ()).line (Device.lcrRead lcr n v)).get ⟨n, hn⟩)).map fun p' =>
        (s.ioctlAt () { s.ioctls () with
          pc := if n < 8 then .setting (Device.lcrRead lcr n v) (n + 1) else .done 0 }, p') := by
  have hget : (setLineParameters (s.ioctls ()).line (Device.lcrRead lcr n v))[n]? =
      some ((setLineParameters (s.ioctls ()).line (Device.lcrRead lcr n v)).get ⟨n, hn⟩) :=
    List.getElem?_eq_getElem hn
  simp only [onPorts, System.within, Device.system, Device.step, Device.ioctlStep, hpc, Option.bind_some, answered,
    Device.access, hget]

/-- What LCR was read as, or will be. -/
def lcrOf (vs : Nat → UInt8) (lcr : UInt8) (n : Nat) : UInt8 := if n ≤ 1 then vs 1 else lcr

theorem lcrOf_succ (vs : Nat → UInt8) (lcr : UInt8) (n : Nat) :
    lcrOf vs (Device.lcrRead lcr n (vs n)) (n + 1) = lcrOf vs lcr n := by
  match n with
  | 0 | 1 => rfl
  | n + 2 => simp [lcrOf, Device.lcrRead]

/-- The next access and the rest; the first access does not depend on LCR. -/
theorem drop_setLineParameters (line : LineInfo) (vs : Nat → UInt8) (lcr : UInt8) (hn : n < 9) :
    (setLineParameters line (lcrOf vs lcr n)).drop n =
      (setLineParameters line (Device.lcrRead lcr n (vs n))).get ⟨n, hn⟩ ::
        (setLineParameters line (lcrOf vs lcr n)).drop (n + 1) := by
  match n, hn with
  | 0, _ | 1, _ | 2, _ | 3, _ | 4, _ | 5, _ | 6, _ | 7, _ | 8, _ => rfl

/-- The rest of the call makes the rest of the accesses and returns 0. -/
theorem goesOn_exec (vs : Nat → UInt8) {k : Nat} : ∀ {n : Nat} {s : Device C Unit} {p : Ports} {lcr : UInt8},
    n + (k + 1) = 9 → (s.ioctls ()).pc = .setting lcr n →
    (onPorts C r).exec (s, p) (goesOn C vs n (k + 1)) =
      (p.accesses ((setLineParameters (s.ioctls ()).line (lcrOf vs lcr n)).drop n)).map fun p' =>
        (s.ioctlAt () { s.ioctls () with pc := .done 0 }, p') := by
  induction k with
  | zero =>
    intro n s p lcr hn hpc
    have hlast : ¬ n < 8 := by omega
    rw [drop_setLineParameters _ _ _ (by omega), goesOn, List.range'_succ, List.map_cons, System.exec,
      ioctl_step hpc (by omega), if_neg hlast, Ports.accesses,
      List.drop_of_length_le (by simp [setLineParameters]; omega)]
    cases p.access _ <;> rfl
  | succ k ih =>
    intro n s p lcr hn hpc
    have hmore : n < 8 := by omega
    rw [drop_setLineParameters _ _ _ (by omega), goesOn, List.range'_succ, List.map_cons, System.exec,
      ioctl_step hpc (by omega), if_pos hmore, Ports.accesses]
    cases p.access _ with
    | none => rfl
    | some q =>
      simp only [Option.map_some, Option.bind_some]
      have hpc' : ((s.ioctlAt () { s.ioctls () with
          pc := .setting (Device.lcrRead lcr n (vs n)) (n + 1) }).ioctls ()).pc =
          .setting (Device.lcrRead lcr n (vs n)) (n + 1) := by simp [Device.ioctlAt]
      have hrest := ih (p := q) (by omega) hpc'
      rw [lcrOf_succ] at hrest
      simpa [Device.ioctlAt, goesOn] using hrest

/-- The whole call. -/
theorem call_exec {line : LineInfo} (hidle : (s.ioctls ()).pc = .idle) (hacc : line.accepted = true)
    (vs : Nat → UInt8) :
    (onPorts C r).exec (s, p) (.inl (.callIoctl () ioctlSetLine line) :: goesOn C vs 0 9) =
      (p.accesses (setLineParameters line (vs 1))).map fun p' => (s.ioctlAt () { line, pc := .done 0 }, p') := by
  have hstep : (onPorts C r).step (s, p) (.inl (.callIoctl () ioctlSetLine line)) =
      some (s.ioctlAt () { line, pc := .setting 0 0 }, p) := by
    simp [onPorts, System.within, Device.system, Device.step, hidle, hacc, answered, Device.access]
  have hpc : ((s.ioctlAt () { line, pc := .setting 0 0 }).ioctls ()).pc = .setting 0 0 := by simp [Device.ioctlAt]
  rw [System.exec, hstep, Option.bind_some, goesOn_exec vs (k := 8) rfl hpc]
  simp [Device.ioctlAt, lcrOf]

/-- A call that is refused has returned, and has accessed no port. -/
theorem call_refused {cmd : UInt32} {line : LineInfo} (hidle : (s.ioctls ()).pc = .idle)
    (hno : ¬ (cmd = ioctlSetLine ∧ line.accepted = true)) :
    (onPorts C r).exec (s, p) [.inl (.callIoctl () cmd line)] =
        some (s.ioctlAt () { line, pc := .done (-einval) }, p) ∧
      ∀ v, (onPorts C r).step (s.ioctlAt () { line, pc := .done (-einval) }, p) (.inl (.ioctl () v)) = none := by
  refine ⟨?_, fun v => ?_⟩
  · simp [System.exec, onPorts, System.within, Device.system, Device.step, hidle, hno, answered, Device.access]
  · simp [onPorts, System.within, Device.system, Device.step, Device.ioctlStep, Device.ioctlAt]

/-- **Setting the line works from every state of the registers.** A value
that `uart16550_ioctl` accepts is set by nine accesses, the read of LCR
being answered by what it holds, and 0 is returned; for any other value or
command no port is accessed. `uart16550_hw_setup_device` sets the default
line. -/
theorem line_setup (r : Regs) (p : Ports) (hidle : (s.ioctls ()).pc = .idle) :
    (∀ line : LineInfo, line.accepted = true → ∃ p', SetUp line p p' ∧ ∀ vs : Nat → UInt8,
      (onPorts C r).exec (s, p) (.inl (.callIoctl () ioctlSetLine line) :: goesOn C vs 0 9) =
        if vs 1 = p.lcr then some (s.ioctlAt () { line, pc := .done 0 }, p') else none) ∧
    (∀ cmd line, ¬ (cmd = ioctlSetLine ∧ line.accepted = true) →
      (onPorts C r).exec (s, p) [.inl (.callIoctl () cmd line)] =
          some (s.ioctlAt () { line, pc := .done (-einval) }, p) ∧
        ∀ v, (onPorts C r).step (s.ioctlAt () { line, pc := .done (-einval) }, p) (.inl (.ioctl () v)) =
          none) ∧
    (∀ reads p', p.accesses (hwSetupDevice reads) = some p' → SetUp defaultParam p p') ∧
    ∀ lsr isr msr, ∃ rbr lcr p', p.accesses (hwSetupDevice { lsr, rbr, isr, msr, lcr }) = some p' := by
  refine ⟨fun line hacc => ?_, fun cmd line hno => call_refused hidle hno, fun reads p' h => hwSetupDevice_setUp h,
    hwSetupDevice_answered p⟩
  have hall : p.accesses (setLineParameters line p.lcr) = _ := accesses_setLineParameters hacc
  rw [if_pos rfl] at hall
  refine ⟨_, setUp_of_accesses hacc hall, fun vs => ?_⟩
  rw [call_exec hidle hacc vs, accesses_setLineParameters hacc]
  split <;> rfl

/-- Registers with DLAB set. -/
def divisorPorts : Ports := { dll := 0x41, dlm := 0x42, ier := 0x43, lcr := 0x9b, thr := [0x44], rbr := [] }

theorem line_setup_divisorPorts : ∃ p', SetUp slowLine divisorPorts p' ∧
    (onPorts Unit defaultRegs).exec (Device.init Unit Unit, divisorPorts)
        (.inl (.callIoctl () ioctlSetLine slowLine) :: goesOn Unit (fun _ => 0x9b) 0 9) =
      some ((Device.init Unit Unit).ioctlAt () { line := slowLine, pc := .done 0 }, p') := by
  obtain ⟨p', hset, hexec⟩ :=
    (line_setup (s := Device.init Unit Unit) defaultRegs divisorPorts rfl).1 slowLine (by decide)
  exact ⟨p', hset, (hexec fun _ => 0x9b).trans (if_pos rfl)⟩

end Call

end Lmsel4.LineSetting
