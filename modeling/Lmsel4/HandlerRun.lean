/-
A whole run of `interrupt_handler`, with nobody else on the device.

Both loops are driven by what the ports return, and end by the buffers: each
turn of the first takes a byte out of `outbuffer`, each turn of the second
but the last puts one in `inbuffer`. So the handler ends whatever the ports
return, and what it has done is told by the accesses it has made.
-/
import Lmsel4.Isolation
import Lmsel4.Sole
import Mathlib.Data.List.Forall2
import Mathlib.Data.List.TakeWhile

namespace Lmsel4.ComDev

/-! ## Accesses -/

/-- The values read from a register. -/
def reads (reg : Nat) (tr : List Access) : List UInt8 := tr.filterMap fun
  | .inb r v => if r = reg then some v else none
  | .outb _ _ => none

/-- The values written to a register. -/
def writes (reg : Nat) (tr : List Access) : List UInt8 := tr.filterMap fun
  | .outb v r => if r = reg then some v else none
  | .inb _ _ => none

/-- The number of leading reads of LSR that allow to send. -/
def leading (tr : List Access) : Nat := ((reads regLsr tr).takeWhile deviceCanSend).length

/-- RBR is read only directly after LSR, and that has said there is data. -/
def ReadsAfterStatus (tr : List Access) : Prop :=
  ∀ i v, tr[i]? = some (.inb regRbr v) →
    ∃ j status, i = j + 1 ∧ tr[j]? = some (.inb regLsr status) ∧ deviceHasData status = true

section Accesses

variable {reg reg' : Nat} {tr : List Access} {v : UInt8}

theorem reads_append_same : reads reg (tr ++ [.inb reg v]) = reads reg tr ++ [v] := by simp [reads]

theorem reads_append_other (h : reg' ≠ reg) : reads reg (tr ++ [.inb reg' v]) = reads reg tr := by simp [reads, h]

theorem reads_append_outb : reads reg (tr ++ [.outb v reg']) = reads reg tr := by simp [reads]

theorem writes_append_same : writes reg (tr ++ [.outb v reg]) = writes reg tr ++ [v] := by simp [writes]

theorem writes_append_inb : writes reg (tr ++ [.inb reg' v]) = writes reg tr := by simp [writes]

theorem leading_congr {tr' : List Access} (h : reads regLsr tr' = reads regLsr tr) : leading tr' = leading tr := by
  rw [leading, leading, h]

/-- A further status counts only if all before it did. -/
theorem leading_append (tr : List Access) (status : UInt8) :
    leading (tr ++ [.inb regLsr status]) = leading tr ∨
      leading tr = (reads regLsr tr).length ∧ leading (tr ++ [.inb regLsr status]) = leading tr + 1 := by
  unfold leading
  rw [reads_append_same, List.takeWhile_append]
  split
  next hall =>
    by_cases hsend : deviceCanSend status = true
    · exact .inr ⟨hall, by simp [hsend, hall]⟩
    · exact .inl (by simp [hsend, hall])
  next => exact .inl rfl

end Accesses

variable {C : Type}

/-- The accesses a step of the handler makes. -/
def handlerAccess (s : State C) (a : Act C) : List Access := (access s a).toList

/-- A buffer of a device. -/
structure Buffer (f : Kfifo) : Prop where
  ok : f.Ok
  esize : f.esize = 1
  size : f.size = fifoSize.toNat

/-! ## What is known where the handler is -/

section Places

/-- `j` bytes of `q` are sent, and the rest is queued. -/
structure Sending (q : List UInt8) (tr : List Access) (f : Kfifo) (j : Nat) : Prop where
  sent : writes regThr tr = q.take j
  left : f.content = q.drop j

/-- LSR was read `n` times and has always allowed to send. -/
structure Allowed (tr : List Access) (n : Nat) : Prop where
  length : (reads regLsr tr).length = n
  all : ∀ status ∈ reads regLsr tr, deviceCanSend status = true

/-- The first loop is over, and no read of LSR can change how many bytes it
was to send. -/
structure Sent (q : List UInt8) (tr : List Access) (f : Kfifo) : Prop where
  sending : Sending q tr f (min q.length (leading tr))
  final : q.length ≤ leading tr ∨ leading tr < (reads regLsr tr).length

def TxPlace (q : List UInt8) (tr : List Access) (f : Kfifo) : HandlerPc → Prop
  | .txIsr | .txLsr => ∃ j, j ≤ q.length ∧ Sending q tr f j ∧ Allowed tr j
  | .getTest _ => ∃ j, j ≤ q.length ∧ Sending q tr f j ∧ Allowed tr (j + 1)
  | .getLoad => ∃ j, j ≤ q.length ∧ Sending q tr f j ∧ Allowed tr (j + 1) ∧ f.used ≠ 0
  | .getPublish byte => ∃ j, j ≤ q.length ∧ Sending q tr f j ∧ Allowed tr (j + 1) ∧ f.used ≠ 0 ∧ f.loadByte = byte
  | .thrWrite byte => ∃ j, q.drop j = byte :: q.drop (j + 1) ∧ writes regThr tr = q.take j ∧
      f.content = q.drop (j + 1) ∧ Allowed tr (j + 1)
  | _ => Sent q tr f

/-- All bytes read from RBR are queued. -/
structure Receiving (m : List UInt8) (bytes : List UInt8) (f : Kfifo) : Prop where
  content : f.content = m ++ bytes
  room : m.length + bytes.length ≤ fifoSize.toNat

/-- The second loop is over: at most one byte found no room. -/
structure Received (m : List UInt8) (bytes : List UInt8) (f : Kfifo) : Prop where
  content : f.content = m ++ bytes.take (fifoSize.toNat - m.length)
  few : bytes.length ≤ fifoSize.toNat - m.length + 1

def RxPlace (m : List UInt8) (tr : List Access) (f : Kfifo) : HandlerPc → Prop
  | .putTest byte => ∃ bytes, reads regRbr tr = bytes ++ [byte] ∧ Receiving m bytes f
  | .putStore byte => ∃ bytes, reads regRbr tr = bytes ++ [byte] ∧ Receiving m bytes f ∧ f.used < f.size
  | .putPublish byte => ∃ bytes, reads regRbr tr = bytes ++ [byte] ∧ Receiving m bytes f ∧ f.used < f.size ∧
      f.behind 1 = [byte]
  | .wakeRead | .wakeWrite | .idle => Received m (reads regRbr tr) f
  | _ => Receiving m (reads regRbr tr) f

/-- The status the handler goes by is the last access made. -/
def StatusPlace (tr : List Access) : HandlerPc → Prop
  | .getTest status => tr.getLast? = some (.inb regLsr status)
  | .rbrRead => ∃ status, tr.getLast? = some (.inb regLsr status) ∧ deviceHasData status = true
  | _ => True

def FlagPlace (s : State C) : Prop :=
  match s.handler with
  | .wakeWrite => s.readLocked = false
  | .idle => s.readLocked = false ∧ s.writeLocked = false
  | _ => True

theorem Sending.congr {q : List UInt8} {tr tr' : List Access} {f : Kfifo} {j : Nat} (h : Sending q tr f j)
    (hw : writes regThr tr' = writes regThr tr) : Sending q tr' f j :=
  ⟨hw.trans h.sent, h.left⟩

theorem Allowed.congr {tr tr' : List Access} {n : Nat} (h : Allowed tr n)
    (hr : reads regLsr tr' = reads regLsr tr) : Allowed tr' n :=
  ⟨hr ▸ h.length, hr ▸ h.all⟩

theorem Allowed.leading {tr : List Access} {n : Nat} (h : Allowed tr n) : leading tr = n := by
  rw [ComDev.leading, List.takeWhile_eq_self_iff.mpr h.all, h.length]

/-- One more status that allows to send. -/
theorem Allowed.succ {tr : List Access} {n : Nat} {status : UInt8} (h : Allowed tr n)
    (hs : deviceCanSend status = true) : Allowed (tr ++ [.inb regLsr status]) (n + 1) := by
  refine ⟨?_, fun x hx => ?_⟩
  · rw [reads_append_same, List.length_append, h.length]
    rfl
  · rw [reads_append_same] at hx
    rcases List.mem_append.mp hx with hx | hx
    · exact h.all x hx
    · rwa [List.mem_singleton.mp hx]

theorem Sent.congr {q : List UInt8} {tr tr' : List Access} {f : Kfifo} (h : Sent q tr f)
    (hw : writes regThr tr' = writes regThr tr) (hr : reads regLsr tr' = reads regLsr tr) : Sent q tr' f := by
  refine ⟨?_, ?_⟩
  · rw [leading_congr hr]
    exact h.sending.congr hw
  · rw [leading_congr hr, hr]
    exact h.final

theorem Sent.status {q : List UInt8} {tr : List Access} {f : Kfifo} (h : Sent q tr f) (status : UInt8) :
    Sent q (tr ++ [.inb regLsr status]) f := by
  have hlen : (reads regLsr (tr ++ [.inb regLsr status])).length = (reads regLsr tr).length + 1 := by
    rw [reads_append_same, List.length_append]
    rfl
  rcases leading_append tr status with hlead | ⟨hall, hlead⟩
  · refine ⟨?_, ?_⟩
    · rw [hlead]
      exact h.sending.congr writes_append_inb
    · rw [hlead, hlen]
      have := h.final
      omega
  · -- The first loop has ended for want of bytes.
    have hq : q.length ≤ leading tr := by
      have := h.final
      omega
    refine ⟨?_, .inl (by omega)⟩
    have hmin : min q.length (leading (tr ++ [.inb regLsr status])) = min q.length (leading tr) := by omega
    rw [hmin]
    exact h.sending.congr writes_append_inb

/-- LSR does not allow to send any more. -/
theorem Sending.stopped {q : List UInt8} {tr : List Access} {f : Kfifo} {j : Nat} {status : UInt8}
    (h : Sending q tr f j) (hj : j ≤ q.length) (ha : Allowed tr j) (hs : ¬ deviceCanSend status = true) :
    Sent q (tr ++ [.inb regLsr status]) f := by
  have hlead : leading (tr ++ [.inb regLsr status]) = j := by
    rw [leading, reads_append_same, List.takeWhile_append, List.takeWhile_eq_self_iff.mpr ha.all, if_pos rfl]
    simp [hs, ha.length]
  refine ⟨?_, .inr ?_⟩
  · rw [hlead, Nat.min_eq_right hj]
    exact h.congr writes_append_inb
  · rw [hlead, reads_append_same, List.length_append, ha.length]
    exact Nat.lt_succ_self j

/-- There is nothing left to send. -/
theorem Sending.empty {q : List UInt8} {tr : List Access} {f : Kfifo} {j : Nat} (h : Sending q tr f j)
    (hj : j ≤ q.length) (ha : Allowed tr (j + 1)) (hf : f.content = []) : Sent q tr f := by
  have hall : q.length ≤ j := List.drop_eq_nil_iff.mp (h.left ▸ hf)
  have hlead := ha.leading
  refine ⟨?_, .inl (by omega)⟩
  rw [show min q.length (leading tr) = j by omega]
  exact h

/-- A byte is written to THR. -/
theorem Sending.succ {q : List UInt8} {tr : List Access} {f : Kfifo} {j : Nat} {byte : UInt8}
    (hq : q.drop j = byte :: q.drop (j + 1)) (hw : writes regThr tr = q.take j) (hf : f.content = q.drop (j + 1)) :
    j + 1 ≤ q.length ∧ Sending q (tr ++ [.outb byte regThr]) f (j + 1) := by
  have hlt : j < q.length := by
    by_contra hge
    rw [List.drop_eq_nil_of_le (by omega)] at hq
    cases hq
  have hbyte : q[j] = byte := by
    rw [List.drop_eq_getElem_cons hlt] at hq
    exact (List.cons.inj hq).1
  refine ⟨hlt, ⟨?_, hf⟩⟩
  rw [writes_append_same, hw, List.take_succ_eq_append_getElem hlt, hbyte]

section Rx

variable {m bytes : List UInt8} {byte : UInt8} {tr : List Access} {f : Kfifo}

theorem Receiving.done (h : Receiving m bytes f) : Received m bytes f := by
  have hroom := h.room
  refine ⟨?_, by omega⟩
  rw [List.take_of_length_le (by omega)]
  exact h.content

theorem Receiving.used (h : Receiving m bytes f) (hbuf : Buffer f) : f.used = m.length + bytes.length := by
  rw [← Kfifo.content_length_bytes hbuf.esize, h.content, List.length_append]

/-- The byte finds no room. -/
theorem Receiving.full (h : Receiving m bytes f) (hbuf : Buffer f) (hfull : f.used = f.size) (byte : UInt8) :
    Received m (bytes ++ [byte]) f := by
  have hused := h.used hbuf
  have hsize := hbuf.size
  have hall : bytes.length = fifoSize.toNat - m.length := by omega
  refine ⟨?_, ?_⟩
  · rw [← hall, List.take_left]
    exact h.content
  · rw [List.length_append, List.length_singleton]
    omega

/-- The byte is stored, and then published. -/
theorem Receiving.publish (h : Receiving m bytes f) (hbuf : Buffer f) (hroom : f.used < f.size)
    (hbehind : f.behind 1 = [byte]) : Receiving m (bytes ++ [byte]) (f.publishIn 1) := by
  have hused := h.used hbuf
  have hsize := hbuf.size
  refine ⟨?_, ?_⟩
  · rw [hbuf.ok.content_publishIn (show f.used + (1 : UInt32).toNat ≤ f.size from hroom), hbehind, h.content,
      List.append_assoc]
  · rw [List.length_append, List.length_singleton]
    omega

end Rx

section Order

variable {tr : List Access} {x : Access} {v status : UInt8}

theorem ReadsAfterStatus.append (h : ReadsAfterStatus tr)
    (hx : ∀ v, x = .inb regRbr v → ∃ status, tr.getLast? = some (.inb regLsr status) ∧ deviceHasData status = true) :
    ReadsAfterStatus (tr ++ [x]) := by
  intro i v hi
  rw [List.getElem?_append] at hi
  split at hi
  next hlt =>
    obtain ⟨j, status, hij, hj, hdata⟩ := h i v hi
    refine ⟨j, status, hij, ?_, hdata⟩
    rw [List.getElem?_append_left (by omega), hj]
  next hge =>
    rw [List.getElem?_singleton] at hi
    split at hi
    next hzero =>
      obtain ⟨status, hlast, hdata⟩ := hx v (Option.some.inj hi)
      rw [List.getLast?_eq_getElem?] at hlast
      have hlt : tr.length - 1 < tr.length := (List.getElem?_eq_some_iff.mp hlast).1
      refine ⟨tr.length - 1, status, by omega, ?_, hdata⟩
      rw [List.getElem?_append_left hlt, hlast]
    next => cases hi

end Order

end Places

/-! ## Steps -/

section Steps

variable {s s' : State C} {v : UInt8} {x : Option Access} {q m : List UInt8} {tr : List Access}

theorem HandlerMove.tx (hs : HandlerMove s v x s') (hbuf : Buffer s.outbuffer)
    (h : TxPlace q tr s.outbuffer s.handler) : TxPlace q (tr ++ x.toList) s'.outbuffer s'.handler := by
  have hquiet : TxPlace q (tr ++ none.toList) s.outbuffer s.handler := by
    rwa [Option.toList_none, List.append_nil]
  cases hs with
  | txIsr hpc =>
    rw [hpc] at h
    obtain ⟨j, hj, hsend, hallow⟩ := h
    exact ⟨j, hj, hsend.congr writes_append_inb, hallow.congr (reads_append_other (by decide))⟩
  | txLsr hpc =>
    rw [hpc] at h
    obtain ⟨j, hj, hsend, hallow⟩ := h
    simp only [State.handlerAt, txLoop]
    split
    next hstatus => exact ⟨j, hj, hsend.congr writes_append_inb, hallow.succ hstatus⟩
    next hstatus =>
      have hdone := hsend.stopped hj hallow hstatus
      exact rxLoop_elim (P := fun p => TxPlace q _ s.outbuffer p) hdone hdone v
  | @getEmpty status hpc hempty =>
    rw [hpc] at hquiet
    obtain ⟨j, hj, hsend, hallow⟩ := hquiet
    have hnil : s.outbuffer.content = [] := by
      rw [← List.length_eq_zero_iff, Kfifo.content_length, Kfifo.isEmpty_iff.mp hempty, Nat.zero_mul]
    have hdone := hsend.empty hj hallow hnil
    exact rxLoop_elim (P := fun p => TxPlace q _ s.outbuffer p) hdone hdone status
  | getSome hpc hempty =>
    rw [hpc] at hquiet
    obtain ⟨j, hj, hsend, hallow⟩ := hquiet
    have hne : s.outbuffer.used ≠ 0 := by
      intro hzero
      rw [Kfifo.isEmpty_iff.mpr hzero] at hempty
      cases hempty
    exact ⟨j, hj, hsend, hallow, hne⟩
  | getLoad hpc =>
    rw [hpc] at hquiet
    obtain ⟨j, hj, hsend, hallow, hused⟩ := hquiet
    exact ⟨j, hj, hsend, hallow, hused, rfl⟩
  | getPublish hpc =>
    rw [hpc] at hquiet
    obtain ⟨j, hj, hsend, hallow, hused, rfl⟩ := hquiet
    have hcons := hbuf.ok.content_eq_cons hbuf.esize hused
    have hdrop : q.drop (j + 1) = (s.outbuffer.publishOut 1).content := by
      rw [← List.drop_drop, ← hsend.left, hcons]
      rfl
    exact ⟨j, by rw [hdrop, ← hcons, hsend.left], hsend.sent, hdrop.symm, hallow⟩
  | thrWrite hpc =>
    rw [hpc] at h
    obtain ⟨j, hq, hsent, hleft, hallow⟩ := h
    obtain ⟨hj, hsend⟩ := Sending.succ hq hsent hleft
    exact ⟨j + 1, hj, hsend, hallow.congr reads_append_outb⟩
  | rbrRead hpc | rxIsr hpc =>
    rw [hpc] at h
    exact Sent.congr h writes_append_inb (reads_append_other (by decide))
  | rxLsr hpc =>
    rw [hpc] at h
    exact rxLoop_elim (P := fun p => TxPlace q _ s.outbuffer p) (Sent.status h v) (Sent.status h v) v
  | putFull hpc | putRoom hpc | putStore hpc | putPublish hpc | wakeRead hpc | wakeWrite hpc =>
    rw [hpc] at hquiet
    exact hquiet

theorem HandlerMove.rx (hs : HandlerMove s v x s') (hbuf : Buffer s.inbuffer)
    (h : RxPlace m tr s.inbuffer s.handler) : RxPlace m (tr ++ x.toList) s'.inbuffer s'.handler := by
  have hquiet : RxPlace m (tr ++ none.toList) s.inbuffer s.handler := by
    rwa [Option.toList_none, List.append_nil]
  -- A status read in either loop, and the test on it.
  have hloop {tr' : List Access} (status : UInt8) (h : Receiving m (reads regRbr tr') s.inbuffer) :
      RxPlace m tr' s.inbuffer (rxLoop status) :=
    rxLoop_elim (P := fun p => RxPlace m tr' s.inbuffer p) h h.done status
  -- An access of another register.
  have hother {x : Access} (hx : reads regRbr (tr ++ [x]) = reads regRbr tr)
      (h : Receiving m (reads regRbr tr) s.inbuffer) : Receiving m (reads regRbr (tr ++ [x])) s.inbuffer := by
    rwa [hx]
  cases hs with
  | txIsr hpc | rxIsr hpc =>
    rw [hpc] at h
    exact hother (reads_append_other (by decide)) h
  | txLsr hpc =>
    rw [hpc] at h
    have hstill := hother (x := .inb regLsr v) (reads_append_other (by decide)) h
    simp only [State.handlerAt, txLoop]
    split
    · exact hstill
    · exact hloop v hstill
  | rxLsr hpc =>
    rw [hpc] at h
    exact hloop v (hother (reads_append_other (by decide)) h)
  | @getEmpty status hpc =>
    rw [hpc] at hquiet
    exact hloop status hquiet
  | getSome hpc | getLoad hpc | getPublish hpc | wakeRead hpc | wakeWrite hpc =>
    rw [hpc] at hquiet
    exact hquiet
  | thrWrite hpc =>
    rw [hpc] at h
    exact hother reads_append_outb h
  | rbrRead hpc =>
    rw [hpc] at h
    exact ⟨_, reads_append_same, h⟩
  | @putFull byte hpc hfull =>
    rw [hpc] at hquiet
    obtain ⟨bytes, hbytes, hrecv⟩ := hquiet
    have hdone := hrecv.full hbuf (hbuf.ok.isFull_iff.mp hfull) byte
    rw [← hbytes] at hdone
    exact hdone
  | putRoom hpc hroom =>
    rw [hpc] at hquiet
    obtain ⟨bytes, hbytes, hrecv⟩ := hquiet
    have hbound := hbuf.ok.bounded
    have hne : s.inbuffer.used ≠ s.inbuffer.size := by
      intro hall
      rw [hbuf.ok.isFull_iff.mpr hall] at hroom
      cases hroom
    exact ⟨bytes, hbytes, hrecv, Nat.lt_of_le_of_ne hbound hne⟩
  | @putStore byte hpc =>
    rw [hpc] at hquiet
    obtain ⟨bytes, hbytes, hrecv, hroom⟩ := hquiet
    refine ⟨bytes, hbytes, ⟨?_, hrecv.room⟩, hroom, hbuf.ok.behind_storeByte hbuf.esize byte⟩
    exact (hbuf.ok.content_storeByte hbuf.esize hroom byte).trans hrecv.content
  | putPublish hpc =>
    rw [hpc] at hquiet
    obtain ⟨bytes, hbytes, hrecv, hroom, hbehind⟩ := hquiet
    have hnext := hrecv.publish hbuf hroom hbehind
    rw [← hbytes] at hnext
    exact hnext

theorem HandlerMove.order (hs : HandlerMove s v x s') (hord : ReadsAfterStatus tr) (h : StatusPlace tr s.handler) :
    ReadsAfterStatus (tr ++ x.toList) ∧ StatusPlace (tr ++ x.toList) s'.handler := by
  have hquiet : ReadsAfterStatus (tr ++ none.toList) := by rwa [Option.toList_none, List.append_nil]
  -- The test of the second loop on the status read last.
  have hloop {tr' : List Access} {status : UInt8} (hlast : tr'.getLast? = some (.inb regLsr status)) :
      StatusPlace tr' (rxLoop status) := by
    unfold rxLoop
    split
    next hdata => exact ⟨status, hlast, hdata⟩
    · trivial
  cases hs with
  | txIsr | rxIsr | thrWrite => exact ⟨hord.append fun v hx => (by cases hx), trivial⟩
  | txLsr =>
    refine ⟨hord.append fun v hx => (by cases hx), ?_⟩
    simp only [State.handlerAt, txLoop]
    split
    · exact List.getLast?_concat
    · exact hloop List.getLast?_concat
  | rxLsr => exact ⟨hord.append fun v hx => (by cases hx), hloop List.getLast?_concat⟩
  | rbrRead hpc =>
    rw [hpc] at h
    exact ⟨hord.append fun _ _ => h, trivial⟩
  | getEmpty hpc =>
    rw [hpc] at h
    refine ⟨hquiet, hloop ?_⟩
    rw [Option.toList_none, List.append_nil]
    exact h
  | getSome | getLoad | getPublish | putFull | putRoom | putStore | putPublish | wakeRead | wakeWrite =>
    exact ⟨hquiet, trivial⟩

theorem txLoop_flags (status : UInt8) : txLoop status ≠ .wakeWrite ∧ txLoop status ≠ .idle :=
  txLoop_elim (P := fun p => p ≠ .wakeWrite ∧ p ≠ .idle) (fun _ => by simp) (by simp) (by simp) status

theorem rxLoop_flags (status : UInt8) : rxLoop status ≠ .wakeWrite ∧ rxLoop status ≠ .idle :=
  rxLoop_elim (P := fun p => p ≠ .wakeWrite ∧ p ≠ .idle) (by simp) (by simp) status

theorem flagPlace_of_ne (h : s.handler ≠ .wakeWrite ∧ s.handler ≠ .idle) : FlagPlace s := by
  unfold FlagPlace
  split
  next hpc => exact absurd hpc h.1
  next hpc => exact absurd hpc h.2
  · trivial

theorem HandlerMove.flags (hs : HandlerMove s v x s') (h : FlagPlace s) : FlagPlace s' := by
  cases hs with
  | txLsr => exact flagPlace_of_ne (txLoop_flags v)
  | rxLsr => exact flagPlace_of_ne (rxLoop_flags v)
  | @getEmpty status => exact flagPlace_of_ne (rxLoop_flags status)
  | wakeRead => rfl
  | wakeWrite hpc =>
    unfold FlagPlace at h
    rw [hpc] at h
    exact ⟨h, rfl⟩
  | txIsr | getSome | getLoad | getPublish | thrWrite | rbrRead | putFull | putRoom | putStore | putPublish
  | rxIsr => exact flagPlace_of_ne (by simp [State.handlerAt])

/-- A bound on the steps the run has left, for `u` bytes in `outbuffer` and
room for `r` in `inbuffer`: six for each byte. -/
def HandlerPc.remaining (u r : Nat) : HandlerPc → Nat
  | .thrWrite _ => 6 * u + 6 * r + 8
  | .txIsr => 6 * u + 6 * r + 7
  | .txLsr => 6 * u + 6 * r + 6
  | .getTest _ => 6 * u + 6 * r + 5
  | .getLoad => 6 * u + 6 * r + 4
  | .getPublish _ => 6 * u + 6 * r + 3
  | .rxIsr => 6 * r + 6
  | .rxLsr => 6 * r + 5
  | .rbrRead => 6 * r + 4
  | .putTest _ => 6 * r + 3
  | .putStore _ => 6 * r + 2
  | .putPublish _ => 6 * r + 1
  | .wakeRead => 2
  | .wakeWrite => 1
  | .idle => 0

def State.remaining (s : State C) : Nat :=
  s.handler.remaining s.outbuffer.used (s.inbuffer.size - s.inbuffer.used)

theorem rxLoop_remaining (u r : Nat) (status : UInt8) : (rxLoop status).remaining u r < 6 * r + 5 :=
  rxLoop_elim (P := fun p => p.remaining u r < 6 * r + 5) (Nat.lt_succ_self _)
    (show 2 < 6 * r + 5 by omega) status

theorem txLoop_remaining (u r : Nat) (status : UInt8) : (txLoop status).remaining u r < 6 * u + 6 * r + 6 := by
  have hrx := rxLoop_remaining u r status
  unfold txLoop
  split
  · exact Nat.lt_succ_self _
  · omega

theorem HandlerMove.remaining (hs : HandlerMove s v x s') (hin : Buffer s.inbuffer)
    (htx : TxPlace q tr s.outbuffer s.handler) (hrx : RxPlace m tr s.inbuffer s.handler) :
    s'.remaining < s.remaining := by
  unfold State.remaining
  cases hs with
  | txLsr hpc =>
    rw [hpc]
    exact txLoop_remaining _ _ v
  | rxLsr hpc =>
    rw [hpc]
    exact rxLoop_remaining _ _ v
  | @getEmpty status hpc =>
    rw [hpc]
    have hloop := rxLoop_remaining s.outbuffer.used (s.inbuffer.size - s.inbuffer.used) status
    exact Nat.lt_of_lt_of_le hloop (show _ ≤ 6 * s.outbuffer.used + _ + 5 by omega)
  | getPublish hpc =>
    rw [hpc] at htx ⊢
    obtain ⟨j, -, -, -, hused, -⟩ := htx
    have hpub := Kfifo.used_publishOut (show (1 : UInt32).toNat ≤ s.outbuffer.used from Nat.pos_of_ne_zero hused)
    rw [UInt32.toNat_one] at hpub
    simp only [State.handlerAt, HandlerPc.remaining]
    omega
  | putPublish hpc =>
    rw [hpc] at hrx ⊢
    obtain ⟨bytes, -, -, hroom, -⟩ := hrx
    have hpub := hin.ok.used_publishIn (show s.inbuffer.used + (1 : UInt32).toNat ≤ s.inbuffer.size from hroom)
    have hsize : (s.inbuffer.publishIn 1).size = s.inbuffer.size := rfl
    rw [UInt32.toNat_one] at hpub
    simp only [State.handlerAt, HandlerPc.remaining]
    omega
  | putStore hpc =>
    rw [hpc]
    exact Nat.lt_succ_self _
  | txIsr hpc | getSome hpc | getLoad hpc | thrWrite hpc | rbrRead hpc | putFull hpc | putRoom hpc | rxIsr hpc
  | wakeRead hpc | wakeWrite hpc =>
    rw [hpc]
    simp only [State.handlerAt, HandlerPc.remaining]
    omega

theorem handlerStep_enabled (hidle : s.handler ≠ .idle) (v : UInt8) : ∃ s', handlerStep s v = some s' := by
  cases hpc : s.handler with
  | idle => exact absurd hpc hidle
  | txIsr | txLsr | getTest | getLoad | getPublish | thrWrite | rbrRead | putTest | putStore | putPublish | rxIsr
  | rxLsr | wakeRead | wakeWrite =>
    simp only [handlerStep, hpc]
    exact ⟨_, rfl⟩

theorem HandlerMove.buffers (hs : HandlerMove s v x s') (hin : Buffer s.inbuffer) (hout : Buffer s.outbuffer)
    (htx : TxPlace q tr s.outbuffer s.handler) (hrx : RxPlace m tr s.inbuffer s.handler) :
    Buffer s'.inbuffer ∧ Buffer s'.outbuffer := by
  cases hs with
  | getPublish hpc =>
    rw [hpc] at htx
    obtain ⟨j, -, -, -, hused, -⟩ := htx
    exact ⟨hin, hout.ok.publishOut (Nat.pos_of_ne_zero hused), hout.esize, hout.size⟩
  | @putStore byte hpc => exact ⟨⟨hin.ok.storeByte byte, hin.esize, hin.size⟩, hout⟩
  | putPublish hpc =>
    rw [hpc] at hrx
    obtain ⟨bytes, -, -, hroom, -⟩ := hrx
    exact ⟨⟨hin.ok.publishIn hroom, hin.esize, hin.size⟩, hout⟩
  | txIsr | txLsr | getEmpty | getSome | getLoad | thrWrite | rbrRead | putFull | putRoom | rxIsr | rxLsr | wakeRead
  | wakeWrite => exact ⟨hin, hout⟩

end Steps

/-! ## The run -/

section Run

/-- What the run leaves alone: the locks and the calls. -/
structure SameCalls (s₀ s : State C) : Prop where
  inputLock : s.inputLock = s₀.inputLock
  outputLock : s.outputLock = s₀.outputLock
  reads : s.reads = s₀.reads
  writes : s.writes = s₀.writes

/-- The run that was entered in `s₀` has made the accesses `tr` and is in
`s`. -/
structure During (s₀ : State C) (tr : List Access) (s : State C) : Prop where
  inbuffer : Buffer s.inbuffer
  outbuffer : Buffer s.outbuffer
  tx : TxPlace s₀.outbuffer.content tr s.outbuffer s.handler
  rx : RxPlace s₀.inbuffer.content tr s.inbuffer s.handler
  order : ReadsAfterStatus tr
  status : StatusPlace tr s.handler
  flags : FlagPlace s
  calls : SameCalls s₀ s

/-- What a run from `s` to `s'` with the accesses `tr` has done. -/
structure Handled (s : State C) (tr : List Access) (s' : State C) : Prop where
  sent : writes regThr tr = s.outbuffer.content.take (min s.outbuffer.content.length (leading tr))
  left : s'.outbuffer.content = s.outbuffer.content.drop (min s.outbuffer.content.length (leading tr))
  received : s'.inbuffer.content =
    s.inbuffer.content ++ (reads regRbr tr).take (fifoSize.toNat - s.inbuffer.content.length)
  few : (reads regRbr tr).length ≤ fifoSize.toNat - s.inbuffer.content.length + 1
  order : ReadsAfterStatus tr
  inbuffer : Buffer s'.inbuffer
  outbuffer : Buffer s'.outbuffer
  calls : SameCalls s s'
  readLocked : s'.readLocked = false
  writeLocked : s'.writeLocked = false

variable {s₀ s s' : State C} {tr : List Access} {v : UInt8}

theorem During.step (h : During s₀ tr s) (hs : handlerStep s v = some s') :
    During s₀ (tr ++ handlerAccess s (.handler v)) s' := by
  have hmove := handlerStep_move hs
  obtain ⟨hin, hout⟩ := hmove.buffers h.inbuffer h.outbuffer h.tx h.rx
  obtain ⟨horder, hstatus⟩ := hmove.order h.order h.status
  refine ⟨hin, hout, hmove.tx h.outbuffer h.tx, hmove.rx h.inbuffer h.rx, horder, hstatus, hmove.flags h.flags, ?_⟩
  obtain ⟨_, _, _, _, _, _, _, _, rfl⟩ := handlerStep_frame hs
  exact ⟨h.calls.inputLock, h.calls.outputLock, h.calls.reads, h.calls.writes⟩

theorem During.handled (h : During s₀ tr s) (hidle : s.handler = .idle) : Handled s₀ tr s := by
  have htx := h.tx
  have hrx := h.rx
  have hflags := h.flags
  unfold FlagPlace at hflags
  rw [hidle] at htx hrx hflags
  exact ⟨htx.sending.sent, htx.sending.left, hrx.content, hrx.few, h.order, h.inbuffer, h.outbuffer, h.calls,
    hflags.1, hflags.2⟩

variable [DecidableEq C]

/-- The handler on an idle device ends, whatever the ports return. -/
theorem exists_handled (hidle : s.handler = .idle) (hin : Buffer s.inbuffer) (hout : Buffer s.outbuffer)
    (vs : Nat → UInt8) : ∃ n s', let acts := .irq :: (List.range n).map fun i => .handler (vs i)
      (system C).exec s acts = some s' ∧ s'.handler = .idle ∧
        Handled s ((system C).trace handlerAccess s acts) s' := by
  let t := { s with runs := s.runs + 1 }.handlerAt .txIsr
  have hirq : (system C).step s .irq = some t := if_pos hidle
  have hlen : s.inbuffer.content.length ≤ fifoSize.toNat := by
    rw [Kfifo.content_length_bytes hin.esize, ← hin.size]
    exact hin.ok.bounded
  have hstart : During s [] t := by
    refine ⟨hin, hout, ⟨0, Nat.zero_le _, ⟨rfl, rfl⟩, ⟨rfl, fun _ hx => absurd hx List.not_mem_nil⟩⟩,
      ⟨(List.append_nil _).symm, hlen⟩, fun _ _ hi => (by cases hi), trivial, trivial, ⟨rfl, rfl, rfl, rfl⟩⟩
  obtain ⟨n, s', he, hstop, hend⟩ := System.exists_stop (M := system C) handlerAccess .handler
    State.remaining (fun s => s.handler = .idle) (During s)
    (fun tr s v h hne => by
      obtain ⟨s', hs⟩ := handlerStep_enabled hne v
      exact ⟨s', hs, h.step hs, (handlerStep_move hs).remaining h.inbuffer h.tx h.rx⟩)
    t.remaining [] t (Nat.le_refl _) hstart vs
  refine ⟨n, s', System.exec_cons.mpr ⟨t, hirq, he⟩, hstop, ?_⟩
  rw [System.trace_cons hirq]
  exact hend.handled hstop

end Run

end Lmsel4.ComDev

namespace Lmsel4.Isolation

open ComDev (Access Buffer Handled handlerAccess)
open Driver (Com comInfo)
open Regions (basePort handlerDevice accessReg portOf_eq comInfo_known)

section HandlerRun

variable {C D F : Type} {s : State C D F} {c : Com}

/-- The driver after a device has come to `com` with the accesses `tr`. -/
def State.moved (s : State C D F) (c : Com) (com : ComDev.State C) (tr : List Access) : State C D F :=
  { s with
    devices := Function.update s.devices c { s.devices c with com }
    log := s.log ++ tr.map fun x => ((basePort c).toInt + accessReg x, x) }

theorem moved_refl : s.moved c (s.devices c).com [] = s := by
  simp only [State.moved, Function.update_eq_self, List.map_nil, List.append_nil]

theorem moved_com (com : ComDev.State C) (tr : List Access) : ((s.moved c com tr).devices c).com = com := by
  simp only [State.moved, Function.update_self]

theorem moved_moved (com com' : ComDev.State C) (tr tr' : List Access) :
    (s.moved c com tr).moved c com' tr' = s.moved c com' (tr ++ tr') := by
  simp only [State.moved, Function.update_self, Function.update_idem, List.map_append, List.append_assoc]

/-- `x` is what `a` is on the interrupt line of the device. -/
def OnLine (c : Com) : ComDev.Act C → Act C D F → Prop
  | .irq, x => x = .irq (irqOf c)
  | .handler v, x => x = .handler (irqOf c) v
  | _, _ => False

theorem handlerDevice_irqOf : handlerDevice (irqOf c) = c := by cases c <;> decide

theorem allows_irqOf : (irqOf c == (comInfo .com1).irqNo || irqOf c == (comInfo .com2).irqNo) = true := by
  cases c <;> decide

variable [DecidableEq C] [DecidableEq D]

theorem deviceStep_moved {a : ComDev.Act C} {com' : ComDev.State C}
    (hs : ComDev.step (s.devices c).com a = some com') :
    s.deviceStep comInfo c (.com a) = some (s.moved c com' (handlerAccess (s.devices c).com a)) := by
  simp only [State.deviceStep, Device.step, hs, Option.map_some, portOf_eq (comInfo_known c)]
  rfl

variable [DecidableEq F]

theorem onLine_step {a : ComDev.Act C} {x : Act C D F} {com' : ComDev.State C} (hx : OnLine c a x)
    (hs : ComDev.step (s.devices c).com a = some com') :
    step comInfo s x = some (s.moved c com' (handlerAccess (s.devices c).com a)) := by
  have hdev := deviceStep_moved hs
  cases a with
  | irq | handler =>
    subst hx
    simp only [step, State.allows, allows_irqOf, if_true, State.selects, handlerDevice_irqOf, Option.bind_some,
      deviceAct, State.record]
    exact hdev
  | callRead | callWrite | read | write => exact hx.elim

/-- A run of the interrupt line is one of its device. -/
theorem onLine_exec {as : List (ComDev.Act C)} {xs : List (Act C D F)} (hline : List.Forall₂ (OnLine c) as xs) :
    ∀ {s : State C D F} {com' : ComDev.State C}, (ComDev.system C).exec (s.devices c).com as = some com' →
      (system C D F comInfo).exec s xs =
        some (s.moved c com' ((ComDev.system C).trace handlerAccess (s.devices c).com as)) := by
  induction hline with
  | nil =>
    intro s com' he
    cases he
    exact congrArg some moved_refl.symm
  | @cons a x as xs hx _ ih =>
    intro s com' he
    obtain ⟨com, hs, he⟩ := System.exec_cons.mp he
    refine System.exec_cons.mpr ⟨_, onLine_step hx hs, ?_⟩
    have hrest := @ih (s.moved c com (handlerAccess (s.devices c).com a)) com'
    rw [moved_com, moved_moved] at hrest
    rw [hrest he, System.trace_cons hs]

/-- A buffer with three bytes, the first at the end of its data area. -/
def threeQueued (a b c : UInt8) : Kfifo where
  inIdx := 2
  outIdx := 0xffffffff
  mask := ComDev.fifoSize - 1
  esize := 1
  data i := if i = 4095 then a else if i = 0 then b else c

/-- COM1 with bytes to send and bytes not yet read. -/
def queued : ComDev.State Unit :=
  { ComDev.init Unit with inbuffer := threeQueued 84 85 86, outbuffer := threeQueued 81 82 83 }

theorem queued_buffers : Buffer queued.inbuffer ∧ Buffer queued.outbuffer :=
  ⟨⟨⟨⟨12, by decide, by decide, rfl⟩, by decide, by decide, by decide⟩, rfl, rfl⟩,
    ⟨⟨12, by decide, by decide, rfl⟩, by decide, by decide, by decide⟩, rfl, rfl⟩

def queuedCom1 : State Unit Unit Unit :=
  { init Unit Unit Unit with devices := fun _ => { com := queued, ioctls := (Device.init Unit Unit).ioctls } }

end HandlerRun

end Lmsel4.Isolation
