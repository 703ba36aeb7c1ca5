/-
Setting the line of a device while it is in use, on registers that share
their ports: at offsets 0 and 1 are DLL and DLM while bit 7 of LCR (DLAB) is
set, and THR, RBR and IER otherwise.

`uart16550_hw_set_line_parameters` has DLAB set over three of its accesses
and holds off nobody meanwhile. What the handler sends then goes to DLL and
what it reads comes from there, and a write call's last access goes to DLM.
Where that does not happen, every byte goes to THR or comes from RBR and the
line is set as asked (`setting_safe`).
-/
import Lmsel4.Device
import Lmsel4.Uart

namespace Lmsel4.LineSetting

open ComDev (Access)

/-! ## The registers -/

structure Regs where
  dll : UInt8
  dlm : UInt8
  ier : UInt8
  lcr : UInt8
  deriving DecidableEq

def Regs.dlab (r : Regs) : Bool := r.lcr &&& 0x80 != 0

/-- The registers, and the bytes that were written to THR and read from RBR. -/
structure Ports extends Regs where
  thr : List UInt8
  rbr : List UInt8
  deriving DecidableEq

/-- The registers after an access, if it can be answered like that. -/
def Ports.access (p : Ports) : Access → Option Ports
  | .outb v 0x00 => some (if p.dlab then { p with dll := v } else { p with thr := p.thr ++ [v] })
  | .outb v 0x01 => some (if p.dlab then { p with dlm := v } else { p with ier := v })
  | .outb v 0x03 => some { p with lcr := v }
  | .inb 0x00 v =>
    if p.dlab then
      if v = p.dll then some p else none
    else some { p with rbr := p.rbr ++ [v] }
  | .inb 0x01 v => if v = (if p.dlab then p.dlm else p.ier) then some p else none
  | .inb 0x03 v => if v = p.lcr then some p else none
  | _ => some p

variable {C : Type} [DecidableEq C]

def answered (s : Device C Unit) (a : Device.Act C Unit) (p : Ports) : Option Ports :=
  match s.access a with
  | some x => p.access x
  | none => some p

/-- A device with one `uart16550_ioctl` call, on registers that hold `r` at
first. -/
def onPorts (C : Type) [DecidableEq C] (r : Regs) : System (Device C Unit × Ports) (Device.Act C Unit ⊕ Empty) :=
  (Device.system C Unit).within { r with thr := [], rbr := [] } answered fun _ e => nomatch e

/-- How many of its accesses a call has made, if it makes any. -/
def made : IoctlPc → Nat
  | .idle => 0
  | .setting _ n => n
  | .done ret => if ret = 0 then 9 else 0

/-- The handler has returned, and so have the writes and the ioctl, which
has set the line. -/
def Finished (s : Device C Unit) : Prop :=
  s.com.handler = .idle ∧ (∀ c, (s.com.writes c).pc = .idle ∨ ∃ ret, (s.com.writes c).pc = .done ret) ∧
    (s.ioctls ()).pc = .done 0

/-- The registers say what was asked for. -/
def IsSet (line : LineInfo) (r : Regs) : Prop :=
  r.dll = line.baud ∧ r.dlm = 0x00 ∧ r.lcr = line.lcr ∧ r.dlab = false ∧ r.ier = 0x03

/-- What the handler sent went to THR, what it read came from RBR, and when
all is finished the line is set. -/
def Safe (x : Device C Unit × Ports) : Prop :=
  x.2.thr = x.1.com.thr ∧ x.2.rbr = x.1.com.rbr ∧ (Finished x.1 → IsSet (x.1.ioctls ()).line x.2.toRegs)

/-- The handler is about to access the data register. -/
def usesData : ComDev.HandlerPc → Bool
  | .thrWrite _ | .rbrRead => true
  | _ => false

/-- The ioctl has made its third access, which sets DLAB, and not its sixth,
which clears it. -/
def inWindow (pc : IoctlPc) : Bool := 3 ≤ made pc && made pc ≤ 5

/-- The handler accesses the data register only outside the ioctl's window,
and a write call enables the interrupts not between the ioctl's write of DLM,
its fifth access, and the end of the window. -/
def Apart (x : Device C Unit × Ports) : Device.Act C Unit ⊕ Empty → Prop
  | .inl (.com (.handler _)) => usesData x.1.com.handler = true → inWindow (x.1.ioctls ()).pc = false
  | .inl (.com (.write c _)) => (x.1.com.writes c).pc.enables = true → made (x.1.ioctls ()).pc ≠ 5
  | _ => True

instance (x : Device C Unit × Ports) : ∀ a, Decidable (Apart x a)
  | .inl (.com (.handler _)) | .inl (.com (.write _ _)) => inferInstanceAs (Decidable (_ → _))
  | .inl (.com (.callRead _ _)) | .inl (.com (.callWrite _ _)) | .inl (.com (.read _ _)) | .inl (.com .irq)
  | .inl (.callIoctl _ _ _) | .inl (.ioctl _ _) => .isTrue trivial

/-- What has been set so far; DLAB is set in the ioctl's window. -/
structure Inv (x : Device C Unit × Ports) : Prop where
  thr : x.2.thr = x.1.com.thr
  rbr : x.2.rbr = x.1.com.rbr
  setting : ∀ lcr n, (x.1.ioctls ()).pc = .setting lcr n → n ≤ 8 ∧ (x.1.ioctls ()).line.accepted = true
  dlab : x.2.dlab = true ↔ 3 ≤ made (x.1.ioctls ()).pc ∧ made (x.1.ioctls ()).pc ≤ 5
  dll : 4 ≤ made (x.1.ioctls ()).pc → x.2.dll = (x.1.ioctls ()).line.baud
  dlm : 5 ≤ made (x.1.ioctls ()).pc → x.2.dlm = 0x00
  lcr : 6 ≤ made (x.1.ioctls ()).pc → x.2.lcr = (x.1.ioctls ()).line.lcr
  ier : made (x.1.ioctls ()).pc = 9 → x.2.ier = 0x03 ∨ ∃ c, (x.1.com.writes c).pc.enables = true

/-! ## Steps of the calls and the handler -/

/-- What a step of `ComDev` does to the ports, to what was sent and read,
and to the calls that have the interrupts disabled. -/
inductive PortStep (s s' : ComDev.State C) : ComDev.Act C → Option Access → Prop
  | quiet : s'.thr = s.thr → s'.rbr = s.rbr →
    ((∃ c, (s.writes c).pc.enables = true) → ∃ c, (s'.writes c).pc.enables = true) → PortStep s s' a none
  | status : (reg = ComDev.regIsr ∨ reg = ComDev.regLsr) → s'.thr = s.thr → s'.rbr = s.rbr →
    s'.writes = s.writes → PortStep s s' (.handler v) (some (.inb reg v))
  | send : s.handler = .thrWrite b → s'.thr = s.thr ++ [b] → s'.rbr = s.rbr → s'.writes = s.writes →
    PortStep s s' (.handler v) (some (.outb b ComDev.regThr))
  | receive : s.handler = .rbrRead → s'.thr = s.thr → s'.rbr = s.rbr ++ [v] → s'.writes = s.writes →
    PortStep s s' (.handler v) (some (.inb ComDev.regRbr v))
  | disable : s'.thr = s.thr → s'.rbr = s.rbr → (s'.writes c).pc.enables = true →
    PortStep s s' (.write c alloc) (some (.outb 0x00 ComDev.regIer))
  | enable : s'.thr = s.thr → s'.rbr = s.rbr → (s.writes c).pc.enables = true →
    PortStep s s' (.write c alloc) (some (.outb 0x03 ComDev.regIer))

section ComDev

open ComDev

variable {s s' : ComDev.State C} {c : C} {alloc : Bool} {v : UInt8} {a : ComDev.Act C}

omit [DecidableEq C] in
theorem handlerStep_portStep (hs : handlerStep s v = some s') : PortStep s s' (.handler v) (access s (.handler v)) := by
  have hmove := handlerStep_move hs
  generalize access s (.handler v) = x at hmove ⊢
  cases hmove with
  | txIsr | rxIsr => exact .status (.inl rfl) rfl rfl rfl
  | txLsr | rxLsr => exact .status (.inr rfl) rfl rfl rfl
  | thrWrite hpc => exact .send hpc rfl rfl rfl
  | rbrRead hpc => exact .receive hpc rfl rfl rfl
  | getEmpty | getSome | getLoad | getPublish | putFull | putRoom | putStore | putPublish | wakeRead | wakeWrite =>
    exact .quiet rfl rfl id

theorem writeStep_portStep (hs : writeStep s c alloc = some s') :
    PortStep s s' (.write c alloc) (access s (.write c alloc)) := by
  have hmove {w : WriteCall} (hc : (s.writes c).pc.enables = false) (h : ∃ d, (s.writes d).pc.enables = true) :
      ∃ d, (Function.update s.writes c w d).pc.enables = true :=
    exists_update (Q := fun w => w.pc.enables = true) h fun he => by rw [hc] at he; cases he
  have hstep := writeStep_move hs
  generalize access s (.write c alloc) = x at hstep ⊢
  cases hstep with
  | disable => exact .disable rfl rfl (by simp [State.writeAt, WritePc.enables])
  | enable hpc => exact .enable rfl rfl (by rw [hpc]; rfl)
  | kmalloc hpc | noMemory hpc | copyFromUser hpc | ready hpc | full hpc | waitSet hpc | polls hpc | woken hpc
  | free hpc | busy hpc | locks hpc | misses hpc | inLen hpc | copyIn hpc | publish hpc | unlock hpc =>
    exact .quiet rfl rfl (hmove (by rw [hpc]; rfl))

theorem readStep_portStep (hs : readStep s c alloc = some s') : PortStep s s' (.read c alloc) none := by
  obtain ⟨_, _, _, _, _, rfl, -⟩ := readStep_frame hs
  exact .quiet rfl rfl id

theorem step_portStep (hs : ComDev.step s a = some s') : PortStep s s' a (access s a) := by
  cases a with
  | handler v => exact handlerStep_portStep hs
  | write c alloc => exact writeStep_portStep hs
  | read c alloc => exact readStep_portStep hs
  | irq | callRead =>
    simp only [ComDev.step] at hs
    split at hs <;> cases hs
    exact .quiet rfl rfl id
  | callWrite c user =>
    simp only [ComDev.step] at hs
    split at hs <;> cases hs
    next hpc =>
    exact .quiet rfl rfl fun h =>
      exists_update (Q := fun w => w.pc.enables = true) h fun he => by rw [hpc] at he; cases he

end ComDev

section Steps

variable {s s' : Device C Unit} {p p' : Ports} {com : ComDev.State C} {a : ComDev.Act C}

theorem dlab_congr {r r' : Regs} (h : r'.lcr = r.lcr) : r'.dlab = r.dlab := by
  simp only [Regs.dlab, h]

omit [DecidableEq C] in
/-- A step beside the ioctl: it leaves DLL and LCR alone, DLM once that is
written, and IER to be enabled. -/
theorem Inv.beside (h : Inv (s, p)) (hthr : p'.thr = com.thr) (hrbr : p'.rbr = com.rbr) (hdll : p'.dll = p.dll)
    (hlcr : p'.lcr = p.lcr) (hdlm : 5 ≤ made (s.ioctls ()).pc → p.dlm = 0x00 → p'.dlm = 0x00)
    (hier : made (s.ioctls ()).pc = 9 → p'.ier = 0x03 ∨ ∃ c, (com.writes c).pc.enables = true) :
    Inv ({ s with com }, p') where
  thr := hthr
  rbr := hrbr
  setting := h.setting
  dlab := by rw [dlab_congr hlcr]; exact h.dlab
  dll hm := hdll.trans (h.dll hm)
  dlm hm := hdlm hm (h.dlm hm)
  lcr hm := hlcr.trans (h.lcr hm)
  ier := hier

omit [DecidableEq C] in
theorem Inv.dlab_eq (h : Inv (s, p)) : p.dlab = inWindow (s.ioctls ()).pc := by
  rw [Bool.eq_iff_iff, inWindow, Bool.and_eq_true, decide_eq_true_iff, decide_eq_true_iff]
  exact h.dlab

theorem com_inv (h : Inv (s, p)) (hok : Apart (s, p) (.inl (.com a))) (hs : ComDev.step s.com a = some com)
    (hp : answered s (.com a) p = some p') : Inv ({ s with com }, p') := by
  have hport := step_portStep hs
  simp only [answered, Device.access] at hp
  generalize ComDev.access s.com a = x at hp hport
  -- The interrupts stay enabled, or to be, while no call writes IER.
  have hstays (hw : (∃ c, (s.com.writes c).pc.enables = true) → ∃ c, (com.writes c).pc.enables = true)
      (hm : made (s.ioctls ()).pc = 9) : p.ier = 0x03 ∨ ∃ c, (com.writes c).pc.enables = true :=
    (h.ier hm).imp id hw
  cases hport with
  | quiet ht hr hw =>
    cases hp
    exact h.beside (h.thr.trans ht.symm) (h.rbr.trans hr.symm) rfl rfl (fun _ hd => hd) (hstays hw)
  | status hreg ht hr hw =>
    have hp : p = p' := by rcases hreg with rfl | rfl <;> exact Option.some.inj hp
    subst hp
    exact h.beside (h.thr.trans ht.symm) (h.rbr.trans hr.symm) rfl rfl (fun _ hd => hd) (hstays (by rw [hw]; exact id))
  | send hpc ht hr hw =>
    have hdlab : p.dlab = false := h.dlab_eq.trans (hok (by rw [hpc]; rfl))
    simp only [ComDev.regThr, Ports.access, hdlab] at hp
    cases hp
    have hthr : p.thr = s.com.thr := h.thr
    exact h.beside (by rw [ht, ← hthr]; rfl) (h.rbr.trans hr.symm) rfl rfl (fun _ hd => hd)
      (hstays (by rw [hw]; exact id))
  | receive hpc ht hr hw =>
    have hdlab : p.dlab = false := h.dlab_eq.trans (hok (by rw [hpc]; rfl))
    simp only [ComDev.regRbr, Ports.access, hdlab] at hp
    cases hp
    have hrbr : p.rbr = s.com.rbr := h.rbr
    exact h.beside (h.thr.trans ht.symm) (by rw [hr, ← hrbr]) rfl rfl (fun _ hd => hd)
      (hstays (by rw [hw]; exact id))
  | disable ht hr hw =>
    simp only [ComDev.regIer, Ports.access] at hp
    cases hp
    split
    · exact h.beside (h.thr.trans ht.symm) (h.rbr.trans hr.symm) rfl rfl (fun _ _ => rfl) fun _ => .inr ⟨_, hw⟩
    · exact h.beside (h.thr.trans ht.symm) (h.rbr.trans hr.symm) rfl rfl (fun _ hd => hd) fun _ => .inr ⟨_, hw⟩
  | enable ht hr hw =>
    simp only [ComDev.regIer, Ports.access] at hp
    cases hp
    split
    · next hdlab =>
      -- DLM is still to be written.
      have hm : made (s.ioctls ()).pc ≤ 4 := by
        have hwindow : 3 ≤ made (s.ioctls ()).pc ∧ made (s.ioctls ()).pc ≤ 5 := h.dlab.mp hdlab
        have hlate : made (s.ioctls ()).pc ≠ 5 := hok hw
        omega
      exact h.beside (h.thr.trans ht.symm) (h.rbr.trans hr.symm) rfl rfl (fun _ _ => by omega) fun _ => by omega
    · exact h.beside (h.thr.trans ht.symm) (h.rbr.trans hr.symm) rfl rfl (fun _ hd => hd) fun _ => .inl rfl

end Steps

/-! ## Steps of the ioctl -/

section Ioctl

omit [DecidableEq C]

variable {s s' : Device C Unit} {p p' : Ports} {lcr v : UInt8} {n : Nat}

theorem or_and_self (x y : UInt8) : (x ||| y) &&& y = y := by
  rw [← UInt8.toBitVec_inj, UInt8.toBitVec_and, UInt8.toBitVec_or]
  ext i
  simp only [BitVec.getElem_and, BitVec.getElem_or]
  cases x.toBitVec[i] <;> cases y.toBitVec[i] <;> rfl

theorem dlab_set (lcr : UInt8) : ((lcr ||| 0x80) &&& 0x80 != 0) = true := by
  rw [or_and_self]
  decide

theorem dlab_lcr {line : LineInfo} (h : line.accepted = true) : (line.lcr &&& 0x80 != 0) = false := by
  simp only [LineInfo.accepted, Bool.and_eq_true, List.contains_iff_mem, List.mem_cons, List.not_mem_nil,
    or_false] at h
  obtain ⟨⟨⟨-, hlen⟩, hpar⟩, hstop⟩ := h
  rcases hlen with hl | hl | hl | hl <;> rcases hpar with hp | hp | hp | hp <;> rcases hstop with hs | hs <;>
    simp only [LineInfo.lcr, hl, hp, hs] <;> decide

/-- What access `n` of `setLineParameters` leaves in the registers. -/
structure Sets (line : LineInfo) (lcr : UInt8) (n : Nat) (p p' : Ports) : Prop where
  thr : p'.thr = p.thr
  rbr : p'.rbr = p.rbr
  dll : p'.dll = if n = 3 then line.baud else p.dll
  dlm : p'.dlm = if n = 4 then 0x00 else p.dlm
  lcr : p'.lcr = if n = 2 then lcr ||| 0x80 else if n = 5 then line.lcr else p.lcr
  ier : n = 8 → p'.ier = 0x03

theorem sets_of_access {line : LineInfo} {x : Access} (hx : (setLineParameters line lcr)[n]? = some x)
    (hd : p.dlab = decide (3 ≤ n ∧ n ≤ 5)) (hp : p.access x = some p') : Sets line lcr n p p' := by
  have hn : n < 9 := (List.getElem?_eq_some_iff.mp hx).1
  match n, hn with
  | 0, _ | 8, _ =>
    cases hx
    simp only [ComDev.regIer, Ports.access, hd] at hp
    cases hp
    exact ⟨rfl, rfl, rfl, rfl, rfl, fun _ => by first | rfl | contradiction⟩
  | 1, _ =>
    cases hx
    simp only [regLcr, Ports.access] at hp
    split at hp <;> cases hp
    exact ⟨rfl, rfl, rfl, rfl, rfl, fun h => by cases h⟩
  | 2, _ | 3, _ | 4, _ | 5, _ | 6, _ | 7, _ =>
    cases hx
    simp only [regLcr, regDll, regDlm, regFcr, regMcr, Ports.access, hd] at hp
    cases hp
    exact ⟨rfl, rfl, rfl, rfl, rfl, fun h => by cases h⟩

/-- The ioctl makes access `n` and goes on at `pc`. -/
theorem Inv.sets {pc : IoctlPc} (h : Inv (s, p)) (hn : made (s.ioctls ()).pc = n)
    (hacc : (s.ioctls ()).line.accepted = true) (hset : Sets (s.ioctls ()).line lcr n p p')
    (hpc : ∀ l m, pc = .setting l m → m ≤ 8) (hmade : made pc = n + 1) :
    Inv (s.ioctlAt () { s.ioctls () with pc }, p') := by
  have hdlab := h.dlab
  have hdll := h.dll
  have hdlm := h.dlm
  have hlcr := h.lcr
  simp only [hn] at hdlab hdll hdlm hlcr
  constructor <;> simp only [Device.ioctlAt, Function.update_self, hmade]
  · exact hset.thr.trans h.thr
  · exact hset.rbr.trans h.rbr
  · exact fun l m hm => ⟨hpc l m hm, hacc⟩
  · rw [Regs.dlab, hset.lcr]
    split
    · simp only [dlab_set, true_iff]
      omega
    · split
      · simp only [dlab_lcr hacc, Bool.false_eq_true, false_iff]
        omega
      · exact hdlab.trans (by omega)
  · intro hm
    rw [hset.dll]
    split
    · rfl
    · exact hdll (by omega)
  · intro hm
    rw [hset.dlm]
    split
    · rfl
    · exact hdlm (by omega)
  · intro hm
    rw [hset.lcr, if_neg (by omega)]
    split
    · rfl
    · exact hlcr (by omega)
  · exact fun hm => .inl (hset.ier (by omega))

theorem ioctl_inv (h : Inv (s, p)) (hs : Device.ioctlStep s () v = some s')
    (hp : answered s (.ioctl () v) p = some p') : Inv (s', p') := by
  cases hpc : (s.ioctls ()).pc with
  | idle | done => simp [Device.ioctlStep, hpc] at hs
  | setting lcr n =>
    obtain ⟨hn, hacc⟩ := h.setting lcr n hpc
    have hmade : made (s.ioctls ()).pc = n := by rw [hpc]; rfl
    have hdlab : p.dlab = decide (3 ≤ n ∧ n ≤ 5) := by
      rw [Bool.eq_iff_iff, decide_eq_true_iff, ← hmade]
      exact h.dlab
    simp only [Device.ioctlStep, hpc] at hs
    simp only [answered, Device.access, hpc] at hp
    have hlen : n < (setLineParameters (s.ioctls ()).line (Device.lcrRead lcr n v)).length := Nat.lt_succ_of_le hn
    rw [List.getElem?_eq_getElem hlen] at hp
    have hset := sets_of_access (List.getElem?_eq_getElem hlen) hdlab hp
    cases hs
    split
    · exact h.sets hmade hacc hset (fun l m hm => by cases hm; omega) rfl
    · exact h.sets hmade hacc hset (fun l m hm => by cases hm) (by rw [made, if_pos rfl]; omega)

theorem callIoctl_inv [DecidableEq C] {cmd : UInt32} {line : LineInfo} (h : Inv (s, p))
    (hs : Device.step s (.callIoctl () cmd line) = some s') : Inv (s', p) := by
  simp only [Device.step] at hs
  split at hs <;> cases hs
  next hpc =>
  have hdlab := h.dlab
  simp only [hpc, made] at hdlab
  have hmade : made (if cmd = ioctlSetLine ∧ line.accepted = true then .setting 0 0
      else .done (-einval)) = 0 := by split <;> rfl
  constructor <;> simp only [Device.ioctlAt, Function.update_self, hmade]
  · exact h.thr
  · exact h.rbr
  · intro lcr n
    split
    · next hline =>
      rintro ⟨⟩
      exact ⟨by omega, hline.2⟩
    · rintro ⟨⟩
  · exact hdlab
  all_goals omega

end Ioctl

/-! ## Runs -/

theorem step_inv {r : Regs} {x x' : Device C Unit × Ports} {a : Device.Act C Unit ⊕ Empty} (h : Inv x)
    (hok : Apart x a) (hs : (onPorts C r).step x a = some x') : Inv x' := by
  obtain ⟨s, p⟩ := x
  obtain ⟨s', p'⟩ := x'
  cases a with
  | inr e => cases e
  | inl a =>
    obtain ⟨hstep, hp⟩ := System.within_inl.mp hs
    cases a with
    | com a =>
      obtain ⟨com, hcom, rfl⟩ := Option.map_eq_some_iff.mp hstep
      exact com_inv h hok hcom hp
    | callIoctl d cmd line =>
      cases hp
      exact callIoctl_inv h hstep
    | ioctl d v => exact ioctl_inv h hstep hp

omit [DecidableEq C] in
theorem Inv.safe {x : Device C Unit × Ports} (h : Inv x) : Safe x := by
  refine ⟨h.thr, h.rbr, fun ⟨_, hwrites, hdone⟩ => ?_⟩
  have hmade : made (x.1.ioctls ()).pc = 9 := by rw [hdone]; rfl
  have hdlab := h.dlab
  have hdll := h.dll
  have hdlm := h.dlm
  have hlcr := h.lcr
  simp only [hmade] at hdlab hdll hdlm hlcr
  refine ⟨hdll (by omega), hdlm (by omega), hlcr (by omega), by simpa using hdlab, ?_⟩
  refine (h.ier hmade).resolve_right fun ⟨c, hc⟩ => ?_
  -- A call that has returned enables nothing.
  rcases hwrites c with hpc | ⟨ret, hpc⟩ <;> rw [hpc] at hc <;> cases hc

/-- **Setting the line of a device in use.** From registers with DLAB clear,
whatever calls and interrupts come between the accesses of the ioctl: while
the handler is kept from the data register and the writes from enabling the
interrupts in the middle of it, every byte goes to THR or comes from RBR,
and in the end the line is set. -/
theorem setting_safe {r : Regs} (hr : r.dlab = false) {x : Device C Unit × Ports}
    (h : (onPorts C r).ReachableBy Apart x) : Safe x := by
  refine (h.invariant (I := Inv) ?_ fun x a x' hI hok hs => step_inv hI hok hs).safe
  refine ⟨rfl, rfl, ?_, ?_, ?_, ?_, ?_, ?_⟩
  · rintro lcr n ⟨⟩
  · simp [onPorts, System.within, Device.system, Device.init, made, hr]
  all_goals
    intro hm
    simp [onPorts, System.within, Device.system, Device.init, made] at hm

/-- The registers as the device is initialised: 115200 baud, eight bits. -/
def defaultRegs : Regs := { dll := 1, dlm := 0x00, ier := 0x03, lcr := 0x03 }

/-- 9600 baud, eight bits, no parity, one stop bit. -/
def slowLine : LineInfo := { baud := 12, len := 0x03, par := 0x00, stop := 0x00 }

/-- The line is set with a run of the handler before it that reads `0x41`,
and one after it. -/
def settingBetweenRuns : List (Device.Act Unit Unit ⊕ Empty) :=
  ([.com .irq, .com (.handler 0x04), .com (.handler 0x01), .com (.handler 0x41), .com (.handler 0x00),
    .com (.handler 0x00), .com (.handler 0x00), .com (.handler 0x00), .com (.handler 0x00), .com (.handler 0x00),
    .com (.handler 0x00), .callIoctl () ioctlSetLine slowLine, .ioctl () 0x00, .ioctl () 0x03, .ioctl () 0x00,
    .com .irq, .ioctl () 0x00, .com (.handler 0x01), .ioctl () 0x00, .ioctl () 0x00, .com (.handler 0x00),
    .ioctl () 0x00, .com (.handler 0x00), .ioctl () 0x00, .com (.handler 0x00), .ioctl () 0x00] : List _).map .inl

theorem setting_safe_betweenRuns : ∃ x,
    (onPorts Unit defaultRegs).exec (onPorts Unit defaultRegs).init settingBetweenRuns = some x ∧
      Finished x.1 ∧ x.2.rbr = [0x41] ∧ Safe x :=
  ⟨_, rfl, ⟨rfl, fun _ => .inl rfl, rfl⟩, rfl,
    setting_safe (r := defaultRegs) (by decide) (System.ReachableBy.steps .init settingBetweenRuns (by decide) rfl)⟩

/-- The handler reads the data register while DLAB is set. -/
def readDivisor : List (Device.Act Unit Unit ⊕ Empty) :=
  ([.com .irq, .com (.handler 0x04), .com (.handler 0x01), .callIoctl () ioctlSetLine slowLine, .ioctl () 0x00,
    .ioctl () 0x03, .ioctl () 0x00, .ioctl () 0x00, .com (.handler 12)] : List _).map .inl

/-- The divisor is taken for a received byte. -/
theorem divisor_received : ∃ x, (onPorts Unit defaultRegs).Reachable x ∧
    x.1.com.rbr = [slowLine.baud] ∧ x.2.rbr = [] ∧ ¬ Safe x :=
  ⟨_, System.Reachable.exec .init readDivisor rfl, rfl, rfl, fun h => by cases h.2.1⟩

end Lmsel4.LineSetting
