/-
The receive side of a device: what the readers take out, in the order they
took `input_lock`, followed by what is queued, is what the handler read
from RBR without the bytes that found `inbuffer` full; and no run of the
handler drops more than one.

The roles of the transmit side are swapped. The handler is the one producer
of `inbuffer` and takes no lock; the call that holds `input_lock` is the one
consumer, and what it has copied stays the oldest of the content until it
publishes `out`, since the handler only writes behind.
-/
import Lmsel4.ComDev
import Lmsel4.Turns

namespace Lmsel4.ComDev

open Spinlock (atomicCmpxchg qLockedVal storeLowByte)

/-- The call holds `input_lock`. -/
def ReadPc.holds : ReadPc → Bool
  | .outLen | .copyOut _ | .publish _ _ | .unlock _ _ => true
  | _ => false

/-- The call has not taken `input_lock` and has not returned. -/
def ReadPc.before : ReadPc → Bool
  | .idle | .kmalloc | .waitTest | .waitSet | .waitPoll | .tryRead | .tryCmpxchg => true
  | _ => false

/-- The bytes the call has taken out of `inbuffer`. -/
def ReadPc.taken : ReadPc → List UInt8
  | .unlock _ buffer | .copyToUser _ buffer => buffer
  | .done _ user => user
  | _ => []

def ReadCall.taken (r : ReadCall) : List UInt8 := r.pc.taken

/-- The byte read from RBR and not yet tested against `inbuffer`. -/
def HandlerPc.untested : HandlerPc → List UInt8
  | .putTest byte => [byte]
  | _ => []

/-- The byte for which `inbuffer` has room, not yet queued. -/
def HandlerPc.admitted : HandlerPc → List UInt8
  | .putStore byte | .putPublish byte => [byte]
  | _ => []

/-- The handler is in `kfifo_put`. -/
def HandlerPc.putting : HandlerPc → Bool
  | .putTest _ | .putStore _ | .putPublish _ => true
  | _ => false

/-- The run of the handler can still meet a full `inbuffer`. -/
def HandlerPc.looping : HandlerPc → Bool
  | .idle | .wakeRead | .wakeWrite => false
  | _ => true

/-- `kfifo_put` found no room for the byte. -/
def Put.deleted (p : Put) : Bool := p.held == fifoSize.toNat

/-- What the receive side is made of. -/
structure Rx (C : Type) where
  inbuffer : Kfifo
  inputLock : UInt32
  reads : C → ReadCall
  handler : HandlerPc
  rbr : List UInt8
  puts : List Put
  runs : Nat
  readOrder : List C

def State.rx {C : Type} (s : State C) : Rx C :=
  { inbuffer := s.inbuffer, inputLock := s.inputLock, reads := s.reads, handler := s.handler,
    rbr := s.rbr, puts := s.puts, runs := s.runs, readOrder := s.readOrder }

/-- What a call knows of `inbuffer` where it is. -/
def ReadOk (f : Kfifo) : ReadPc → Prop
  | .copyOut len => len.toNat ≤ f.used
  | .publish len buffer => len.toNat ≤ f.used ∧ buffer = f.content.take len.toNat
  | .unlock len buffer | .copyToUser len buffer => len.toNat ≤ fifoSize.toNat ∧ buffer.length = len.toNat
  | .done ret user => user.length = ret.toNatClampNeg
  | _ => True

/-- What the handler knows of `inbuffer` where it is. -/
def PutOk (f : Kfifo) : HandlerPc → Prop
  | .putStore _ => f.used < f.size
  | .putPublish byte => f.used < f.size ∧ f.behind 1 = [byte]
  | _ => True

/-- What is recorded of the bytes handed to `kfifo_put`, the last run of
the handler being number `runs`. -/
structure PutsOk (looping : Bool) (runs : Nat) (puts : List Put) : Prop where
  begun : ∀ p ∈ puts, p.run ≤ runs
  fresh : looping = true → ∀ p ∈ puts, p.deleted = true → p.run < runs
  once : ((puts.filter Put.deleted).map Put.run).Nodup

structure RxInv {C : Type} (v : Rx C) : Prop where
  ok : v.inbuffer.Ok
  esize : v.inbuffer.esize = 1
  size : v.inbuffer.size = fifoSize.toNat
  turns : Turns (·.pc.holds) (·.pc.before) v.inputLock v.reads v.readOrder
  calls : ∀ c, ReadOk v.inbuffer (v.reads c).pc
  put : PutOk v.inbuffer v.handler
  puts : PutsOk v.handler.looping v.runs v.puts
  counted : ∀ c, c ∉ v.readOrder → (v.reads c).taken = []
  rbr : v.rbr = v.puts.map Put.byte ++ v.handler.untested
  stream : (v.readOrder.map fun c => (v.reads c).taken).flatten ++ v.inbuffer.content ++ v.handler.admitted =
    (v.puts.filter (!·.deleted)).map Put.byte

namespace PutsOk

variable {looping : Bool} {runs : Nat} {puts : List Put} {p : Put}

theorem begun_append (h : PutsOk looping runs puts) (hp : p.run = runs) : ∀ q ∈ puts ++ [p], q.run ≤ runs := by
  intro q hq
  rcases List.mem_append.mp hq with hq | hq
  · exact h.begun q hq
  · rw [List.mem_singleton.mp hq]
    exact Nat.le_of_eq hp

/-- A run that deletes a byte leaves its loop with it. Earlier deletions are
of earlier runs, as this run was still looping. -/
theorem deletes (h : PutsOk true runs puts) (hp : p.run = runs) (hd : p.deleted = true) :
    PutsOk false runs (puts ++ [p]) where
  begun := h.begun_append hp
  fresh := fun hl => by cases hl
  once := by
    rw [List.filter_append, List.map_append, List.nodup_append]
    refine ⟨h.once, by simp [hd], ?_⟩
    intro a ha b hb
    obtain ⟨q, hq, rfl⟩ := List.mem_map.mp ha
    rw [List.mem_filter] at hq
    have hb : b = p.run := by simpa [hd] using hb
    have := h.fresh rfl q hq.1 hq.2
    omega

theorem admits (h : PutsOk true runs puts) (hp : p.run = runs) (hd : p.deleted = false) :
    PutsOk true runs (puts ++ [p]) where
  begun := h.begun_append hp
  fresh := by
    intro _ q hq hdel
    rcases List.mem_append.mp hq with hq | hq
    · exact h.fresh rfl q hq hdel
    · rw [List.mem_singleton.mp hq, hd] at hdel
      cases hdel
  once := by
    rw [List.filter_append, List.map_append]
    simpa [hd] using h.once

theorem begins (h : PutsOk looping runs puts) : PutsOk true (runs + 1) puts where
  begun := fun p hp => Nat.le_succ_of_le (h.begun p hp)
  fresh := fun _ p hp _ => Nat.lt_succ_of_le (h.begun p hp)
  once := h.once

end PutsOk

/-! ## Steps of a call -/

/-- The producer only adds behind what a call has seen. -/
theorem ReadOk.longer {f f' : Kfifo} {p : ReadPc} (h : ReadOk f p) (hu : f.used ≤ f'.used)
    (hc : ∀ n, n ≤ f.used → f'.content.take n = f.content.take n) : ReadOk f' p := by
  cases p with
  | copyOut len => exact Nat.le_trans h hu
  | publish len buffer => exact ⟨Nat.le_trans h.1 hu, by rw [hc _ h.1]; exact h.2⟩
  | _ => exact h

theorem ReadOk.outside {f f' : Kfifo} {p : ReadPc} (h : ReadOk f p) (hp : p.holds = false) : ReadOk f' p := by
  cases p with
  | copyOut | publish => simp [ReadPc.holds] at hp
  | _ => exact h

/-- The consumer only makes room. -/
theorem PutOk.roomier {f f' : Kfifo} {p : HandlerPc} (h : PutOk f p) (hs : f'.size = f.size)
    (hu : f'.used ≤ f.used) (hb : f'.behind 1 = f.behind 1) : PutOk f' p := by
  cases p with
  | putStore byte =>
    simp only [PutOk] at h ⊢
    omega
  | putPublish byte =>
    obtain ⟨hlt, hbyte⟩ := h
    exact ⟨by omega, hb.trans hbyte⟩
  | _ => trivial

section Calls

variable {C : Type} [DecidableEq C] {v : Rx C} {c : C} {r : ReadCall} {len : UInt32} {buffer : List UInt8}

/-- A step that touches neither `inbuffer` nor the lock. -/
theorem RxInv.moves (h : RxInv v) (hh : r.pc.holds = (v.reads c).pc.holds)
    (hb : r.pc.before = true → (v.reads c).pc.before = true) (ht : r.taken = (v.reads c).taken)
    (hok : ReadOk v.inbuffer r.pc) : RxInv { v with reads := Function.update v.reads c r } where
  ok := h.ok
  esize := h.esize
  size := h.size
  turns := h.turns.moves hh hb
  calls := (Function.forall_update_iff _ fun _ (r : ReadCall) => ReadOk v.inbuffer r.pc).mpr
    ⟨hok, fun u _ => h.calls u⟩
  put := h.put
  puts := h.puts
  counted := (Function.forall_update_iff _ fun u (r : ReadCall) => u ∉ v.readOrder → r.taken = []).mpr
    ⟨fun hc => by rw [ht, h.counted c hc], fun u _ => h.counted u⟩
  rbr := h.rbr
  stream := by
    rw [Turns.flatten_same ht]
    exact h.stream

theorem RxInv.takes (h : RxInv v) (h₀ : v.inputLock = 0) (hpc : (v.reads c).pc = .tryCmpxchg) :
    RxInv { v with
      inputLock := qLockedVal
      reads := Function.update v.reads c ((v.reads c).goto .outLen)
      readOrder := v.readOrder ++ [c] } where
  ok := h.ok
  esize := h.esize
  size := h.size
  turns := h.turns.takes h₀ rfl (by rw [hpc]; rfl) rfl
  calls := (Function.forall_update_iff _ fun _ (r : ReadCall) => ReadOk v.inbuffer r.pc).mpr
    ⟨trivial, fun u _ => h.calls u⟩
  put := h.put
  puts := h.puts
  counted := by
    refine (Function.forall_update_iff _ fun u (r : ReadCall) => u ∉ v.readOrder ++ [c] → r.taken = []).mpr
      ⟨fun _ => rfl, fun u _ hu => h.counted u ?_⟩
    simp only [List.mem_append, not_or] at hu
    exact hu.1
  rbr := h.rbr
  stream := by
    have htook : ((v.reads c).goto .outLen).taken = [] := rfl
    have hnone : (v.reads c).taken = [] := by rw [ReadCall.taken, hpc]; rfl
    rw [Turns.flatten_takes htook hnone]
    exact h.stream

theorem RxInv.publishes (h : RxInv v) (hpc : (v.reads c).pc = .publish len buffer) :
    RxInv { v with
      inbuffer := v.inbuffer.publishOut len
      reads := Function.update v.reads c ((v.reads c).goto (.unlock len buffer)) } := by
  have hcall := h.calls c
  rw [hpc] at hcall
  obtain ⟨hlen, hbuf⟩ := hcall
  have hholds : (v.reads c).pc.holds = true := by rw [hpc]; rfl
  have hnone : (v.reads c).taken = [] := by rw [ReadCall.taken, hpc]; rfl
  have hused := Kfifo.used_publishOut hlen
  refine ⟨h.ok.publishOut hlen, h.esize, h.size, h.turns.moves (by rw [hpc]; rfl) (by simp [ReadPc.before]),
    ?_, ?_, h.puts, ?_, h.rbr, ?_⟩
  · refine (Function.forall_update_iff _ fun _ (r : ReadCall) => ReadOk _ r.pc).mpr ⟨⟨?_, ?_⟩, fun u hu => ?_⟩
    · have := h.ok.bounded
      have := h.size
      omega
    · rw [hbuf, List.length_take, Kfifo.content_length_bytes h.esize, Nat.min_eq_left hlen]
    · exact (h.calls u).outside (h.turns.others hholds hu)
  · exact h.put.roomier rfl (by dsimp only; omega) rfl
  · refine (Function.forall_update_iff _ fun u (r : ReadCall) => u ∉ v.readOrder → r.taken = []).mpr
      ⟨fun hc => ?_, fun u _ => h.counted u⟩
    obtain ⟨l, hl⟩ := h.turns.last c hholds
    simp [hl] at hc
  · have hdrop := h.ok.content_publishOut hlen
    rw [Kfifo.mul_esize h.esize] at hdrop
    have htaken : ((v.reads c).goto (.unlock len buffer)).taken = v.inbuffer.content.take len.toNat := hbuf
    rw [h.turns.flatten_append hholds hnone, ← h.stream, htaken, hdrop,
      List.append_assoc _ (v.inbuffer.content.take _), List.take_append_drop]

theorem RxInv.releases (h : RxInv v) (hpc : (v.reads c).pc = .unlock len buffer) :
    RxInv { v with
      inputLock := storeLowByte v.inputLock
      reads := Function.update v.reads c ((v.reads c).goto (.copyToUser len buffer)) } where
  ok := h.ok
  esize := h.esize
  size := h.size
  turns := h.turns.releases (by rw [hpc]; rfl) rfl rfl
  calls := by
    refine (Function.forall_update_iff _ fun _ (r : ReadCall) => ReadOk v.inbuffer r.pc).mpr
      ⟨?_, fun u _ => h.calls u⟩
    have := h.calls c
    rw [hpc] at this
    exact this
  put := h.put
  puts := h.puts
  counted := by
    refine (Function.forall_update_iff _ fun u (r : ReadCall) => u ∉ v.readOrder → r.taken = []).mpr
      ⟨fun hc => ?_, fun u _ => h.counted u⟩
    have := h.counted c hc
    rw [ReadCall.taken, hpc] at this
    exact this
  rbr := h.rbr
  stream := by
    have ht : ((v.reads c).goto (.copyToUser len buffer)).taken = (v.reads c).taken := by
      simp [ReadCall.taken, hpc, ReadPc.taken]
    rw [Turns.flatten_same ht]
    exact h.stream

end Calls

/-! ## Steps of the handler -/

section Handler

variable {C : Type} {v : Rx C} {p : HandlerPc} {byte : UInt8}

theorem HandlerPc.putting_spec (hp : p.putting = false) :
    p.untested = [] ∧ p.admitted = [] ∧ ∀ f, PutOk f p := by
  cases p <;> simp_all [putting, untested, admitted, PutOk]

/-- What the invariant says with the handler at `p`. -/
theorem RxInv.at_handler (h : RxInv v) (hpc : v.handler = p) :
    PutOk v.inbuffer p ∧ PutsOk p.looping v.runs v.puts ∧ v.rbr = v.puts.map Put.byte ++ p.untested ∧
      (v.readOrder.map fun c => (v.reads c).taken).flatten ++ v.inbuffer.content ++ p.admitted =
        (v.puts.filter (!·.deleted)).map Put.byte := by
  subst hpc
  exact ⟨h.put, h.puts, h.rbr, h.stream⟩

/-- A step of the handler outside `kfifo_put`. -/
theorem RxInv.handles (h : RxInv v) (hv : v.handler.putting = false) (hp : p.putting = false)
    (hl : p.looping = true → v.handler.looping = true) : RxInv { v with handler := p } := by
  obtain ⟨hu, ha, -⟩ := HandlerPc.putting_spec hv
  obtain ⟨hu', ha', hok⟩ := HandlerPc.putting_spec hp
  refine ⟨h.ok, h.esize, h.size, h.turns, h.calls, hok _,
    ⟨h.puts.begun, fun hp => h.puts.fresh (hl hp), h.puts.once⟩, h.counted, ?_, ?_⟩
  · rw [hu', ← hu]
    exact h.rbr
  · rw [ha', ← ha]
    exact h.stream

theorem RxInv.enters (h : RxInv v) (hpc : v.handler = .idle) :
    RxInv { v with runs := v.runs + 1, handler := .txIsr } := by
  obtain ⟨-, hputs, hrbr, hstream⟩ := h.at_handler hpc
  exact ⟨h.ok, h.esize, h.size, h.turns, h.calls, trivial, hputs.begins, h.counted, hrbr, hstream⟩

theorem RxInv.obtains (h : RxInv v) (hpc : v.handler = .rbrRead) (byte : UInt8) :
    RxInv { v with rbr := v.rbr ++ [byte], handler := .putTest byte } := by
  obtain ⟨-, hputs, hrbr, hstream⟩ := h.at_handler hpc
  refine ⟨h.ok, h.esize, h.size, h.turns, h.calls, trivial, hputs, h.counted, ?_, hstream⟩
  rw [hrbr]
  simp [HandlerPc.untested]

/-- The test of `kfifo_put` finds no room exactly when the buffer holds
`FIFO_SIZE` bytes. -/
theorem RxInv.isFull_eq (h : RxInv v) (run : Nat) (byte : UInt8) :
    v.inbuffer.kfifoIsFull = Put.deleted { run, byte, held := v.inbuffer.content.length } := by
  rw [Bool.eq_iff_iff, h.ok.isFull_iff, Put.deleted, beq_iff_eq, Kfifo.content_length_bytes h.esize, h.size]

theorem RxInv.deletes (h : RxInv v) (hpc : v.handler = .putTest byte) (hfull : v.inbuffer.kfifoIsFull = true) :
    RxInv { v with
      puts := v.puts ++ [{ run := v.runs, byte, held := v.inbuffer.content.length }]
      handler := .wakeRead } := by
  rw [h.isFull_eq v.runs byte] at hfull
  obtain ⟨-, hputs, hrbr, hstream⟩ := h.at_handler hpc
  refine ⟨h.ok, h.esize, h.size, h.turns, h.calls, trivial, hputs.deletes rfl hfull, h.counted, ?_, ?_⟩
  · rw [hrbr]
    simp [HandlerPc.untested]
  · rw [List.filter_append, List.map_append, ← hstream]
    simp [hfull, HandlerPc.admitted]

theorem RxInv.admits (h : RxInv v) (hpc : v.handler = .putTest byte) (hfull : ¬ v.inbuffer.kfifoIsFull = true) :
    RxInv { v with
      puts := v.puts ++ [{ run := v.runs, byte, held := v.inbuffer.content.length }]
      handler := .putStore byte } := by
  have hroom : v.inbuffer.used < v.inbuffer.size :=
    Nat.lt_of_le_of_ne h.ok.bounded (mt h.ok.isFull_iff.mpr hfull)
  rw [h.isFull_eq v.runs byte, Bool.not_eq_true] at hfull
  obtain ⟨-, hputs, hrbr, hstream⟩ := h.at_handler hpc
  refine ⟨h.ok, h.esize, h.size, h.turns, h.calls, hroom, hputs.admits rfl hfull, h.counted, ?_, ?_⟩
  · rw [hrbr]
    simp [HandlerPc.untested]
  · rw [List.filter_append, List.map_append, ← hstream]
    simp [hfull, HandlerPc.admitted]

theorem RxInv.stores (h : RxInv v) (hpc : v.handler = .putStore byte) :
    RxInv { v with inbuffer := v.inbuffer.storeByte byte, handler := .putPublish byte } := by
  obtain ⟨hput, hputs, hrbr, hstream⟩ := h.at_handler hpc
  have hcontent := h.ok.content_storeByte h.esize hput byte
  refine ⟨h.ok.storeByte byte, h.esize, h.size, h.turns, fun c => ?_,
    ⟨hput, h.ok.behind_storeByte h.esize byte⟩, hputs, h.counted, hrbr, ?_⟩
  · exact (h.calls c).longer (Nat.le_refl _) fun _ _ => by rw [hcontent]
  · rw [hcontent]
    exact hstream

theorem RxInv.queues (h : RxInv v) (hpc : v.handler = .putPublish byte) :
    RxInv { v with inbuffer := v.inbuffer.publishIn 1, handler := .rxIsr } := by
  obtain ⟨⟨hlt, hbehind⟩, hputs, hrbr, hstream⟩ := h.at_handler hpc
  have hroom : v.inbuffer.used + (1 : UInt32).toNat ≤ v.inbuffer.size := hlt
  have hcontent := h.ok.content_publishIn hroom
  rw [hbehind] at hcontent
  refine ⟨h.ok.publishIn hroom, h.esize, h.size, h.turns, fun c => ?_, trivial, hputs, h.counted, hrbr, ?_⟩
  · refine (h.calls c).longer ?_ fun n hn => ?_
    · rw [h.ok.used_publishIn hroom]
      omega
    · rw [hcontent, List.take_append_of_le_length]
      rw [Kfifo.content_length_bytes h.esize]
      exact hn
  · rw [hcontent, ← hstream]
    simp [HandlerPc.admitted]

end Handler

/-! ## Every step -/

theorem init_rxInv {C : Type} : RxInv (init C).rx where
  ok := Kfifo.initKfifo_ok (k := 12) (by decide) (by decide) rfl (by decide) (by decide)
  esize := rfl
  size := Kfifo.initKfifo_size 1 _ (by decide)
  turns := ⟨⟨(fun _ _ h => by cases h), by simp [init, State.rx, ReadPc.holds]⟩, .inl rfl,
    (fun _ h => by cases h), List.nodup_nil, fun _ h => by cases h⟩
  calls := fun _ => trivial
  put := trivial
  puts := ⟨(fun _ h => by cases h), (fun h => by cases h), List.nodup_nil⟩
  counted := fun _ _ => rfl
  rbr := rfl
  stream := by simp [init, State.rx, HandlerPc.admitted, Kfifo.initKfifo_content]

section Run

variable {C : Type} [DecidableEq C] {s s' : State C}

theorem RxInv.goto (h : RxInv s.rx) {c : C} {pc : ReadPc} (hh : pc.holds = (s.reads c).pc.holds)
    (hb : pc.before = true → (s.reads c).pc.before = true) (ht : pc.taken = (s.reads c).pc.taken)
    (hok : ReadOk s.inbuffer pc) : RxInv (s.readAt c pc).rx :=
  h.moves hh hb ht hok

theorem ReadPc.before_spec {p : ReadPc} (h : p.before = true) :
    p.holds = false ∧ p.taken = [] ∧ ∀ f, ReadOk f p := by
  cases p <;> simp_all [before, holds, taken, ReadOk]

/-- A step of a call that has still to take the lock. -/
theorem RxInv.waits (h : RxInv s.rx) {c : C} {pc : ReadPc} (hb : (s.reads c).pc.before = true)
    (hb' : pc.before = true) : RxInv (s.readAt c pc).rx := by
  obtain ⟨hholds, htaken, -⟩ := ReadPc.before_spec hb
  obtain ⟨hholds', htaken', hok⟩ := ReadPc.before_spec hb'
  exact h.goto (hholds'.trans hholds.symm) (fun _ => hb) (htaken'.trans htaken.symm) (hok _)

theorem readStep_rxInv {c : C} {alloc : Bool} (h : RxInv s.rx) (hs : readStep s c alloc = some s') :
    RxInv s'.rx := by
  have hcall : ReadOk s.inbuffer (s.reads c).pc := h.calls c
  cases readStep_move hs with
  | noMemory hpc => exact h.goto (by rw [hpc]; rfl) (by simp [ReadPc.before]) (by rw [hpc]; rfl) rfl
  | kmalloc hpc | ready hpc | empty hpc | waitSet hpc | polls hpc | woken hpc | free hpc | busy hpc | misses hpc =>
    exact h.waits (by rw [hpc]; rfl) rfl
  | locks hpc hfree => exact h.takes hfree hpc
  | outLen hpc =>
    exact h.goto (by rw [hpc]; rfl) (by simp [ReadPc.before]) (by rw [hpc]; rfl) (Kfifo.outLen_le _)
  | copyOut hpc =>
    rw [hpc] at hcall
    refine h.goto (by rw [hpc]; rfl) (by simp [ReadPc.before]) (by rw [hpc]; rfl) ⟨hcall, ?_⟩
    have hcopy := h.ok.copyOut_content hcall
    rw [Kfifo.mul_esize h.esize] at hcopy
    exact hcopy
  | publish hpc => exact h.publishes hpc
  | unlock hpc => exact h.releases hpc
  | copyToUser hpc =>
    rw [hpc] at hcall
    obtain ⟨hlen, hbuf⟩ := hcall
    refine h.goto (by rw [hpc]; rfl) (by simp [ReadPc.before]) (by rw [hpc]; rfl) ?_
    rw [ReadOk, toNatClampNeg_toInt32 (Nat.lt_of_le_of_lt hlen (by decide)), hbuf]

theorem rxLoop_putting (status : UInt8) : (rxLoop status).putting = false :=
  rxLoop_elim (P := fun p => p.putting = false) rfl rfl status

theorem txLoop_putting (status : UInt8) : (txLoop status).putting = false :=
  txLoop_elim (P := fun p => p.putting = false) (fun _ => rfl) rfl rfl status

omit [DecidableEq C] in
theorem handlerStep_rxInv {v : UInt8} (h : RxInv s.rx) (hs : handlerStep s v = some s') : RxInv s'.rx := by
  have hmove := handlerStep_move hs
  generalize access s (.handler v) = x at hmove
  cases hmove with
  | rbrRead hpc => exact h.obtains hpc v
  | putFull hpc hfull => exact h.deletes hpc hfull
  | putRoom hpc hfull => exact h.admits hpc (Bool.eq_false_iff.mp hfull)
  | putStore hpc => exact h.stores hpc
  | putPublish hpc => exact h.queues hpc
  | txLsr hpc => exact h.handles (by rw [State.rx, hpc]; rfl) (txLoop_putting v) fun _ => by rw [State.rx, hpc]; rfl
  | rxLsr hpc => exact h.handles (by rw [State.rx, hpc]; rfl) (rxLoop_putting v) fun _ => by rw [State.rx, hpc]; rfl
  | @getEmpty status hpc =>
    exact h.handles (by rw [State.rx, hpc]; rfl) (rxLoop_putting status) fun _ => by rw [State.rx, hpc]; rfl
  | getSome hpc | getLoad hpc | getPublish hpc | thrWrite hpc | txIsr hpc | rxIsr hpc | wakeRead hpc | wakeWrite hpc =>
    exact h.handles (by rw [State.rx, hpc]; rfl) rfl (by rw [State.rx, hpc]; intro hl; exact hl)

/-- The transmit side is not seen by the receive side. -/
theorem writeStep_rx {c : C} {alloc : Bool} (hs : writeStep s c alloc = some s') : s'.rx = s.rx := by
  obtain ⟨_, _, _, _, _, rfl, -⟩ := writeStep_frame hs
  rfl

theorem step_rxInv {a : Act C} (h : RxInv s.rx) (hs : step s a = some s') : RxInv s'.rx := by
  cases a with
  | callRead c size =>
    simp only [step] at hs
    split at hs <;> cases hs
    next hpc =>
      exact h.moves (by simp [State.rx, hpc, ReadPc.holds]) (by simp [State.rx, hpc, ReadPc.before])
        (by simp [State.rx, hpc, ReadCall.taken, ReadPc.taken]) trivial
  | callWrite c user =>
    simp only [step] at hs
    split at hs <;> cases hs
    exact h
  | read c alloc => exact readStep_rxInv h hs
  | write c alloc => rw [writeStep_rx hs]; exact h
  | irq =>
    simp only [step] at hs
    split at hs <;> cases hs
    next hpc => exact h.enters hpc
  | handler v => exact handlerStep_rxInv h hs

theorem reachable_rxInv (h : (system C).Reachable s) : RxInv s.rx :=
  h.invariant init_rxInv fun _ _ _ h _ hs => step_rxInv h hs

omit [DecidableEq C] in
/-- A read returns how many bytes it has copied to the user. -/
theorem RxInv.done_length (h : RxInv s.rx) {c : C} {ret : Int32} {user : List UInt8}
    (hpc : (s.reads c).pc = .done ret user) : user.length = ret.toNatClampNeg := by
  have hcall : ReadOk s.inbuffer (s.reads c).pc := h.calls c
  rw [hpc] at hcall
  exact hcall

/-- **Receive stream.** However the calls, the handler and the UART
interleave, the bytes read from RBR are those `kfifo_put` has met, and the
one it is about to meet. Without those that found `FIFO_SIZE` bytes in
`inbuffer` they are what the readers took, in the order they took
`input_lock`, then the content of `inbuffer`, then the byte being put. No
two deleted bytes are of one run of the handler. A call takes the lock
once, takes bytes only with it, and returns how many. -/
theorem receive_stream (h : (system C).Reachable s) :
    s.rbr = s.puts.map Put.byte ++ s.handler.untested ∧
      (s.readOrder.map fun c => (s.reads c).taken).flatten ++ s.inbuffer.content ++ s.handler.admitted =
        (s.puts.filter (!·.deleted)).map Put.byte ∧
      ((s.puts.filter Put.deleted).map Put.run).Nodup ∧
      s.readOrder.Nodup ∧
      (∀ c, c ∉ s.readOrder → (s.reads c).taken = []) ∧
      ∀ c ret user, (s.reads c).pc = .done ret user → user.length = ret.toNatClampNeg := by
  have hinv := reachable_rxInv h
  refine ⟨hinv.rbr, hinv.stream, hinv.puts.once, hinv.turns.nodup, hinv.counted, ?_⟩
  intro c ret user hpc
  exact hinv.done_length hpc

/-- Two bytes are received, a read takes the first. -/
def readOne : List (Act Unit) :=
  .irq :: [.handler 0, .handler 1, .handler 5, .handler 0, .handler 0, .handler 0, .handler 0, .handler 1,
    .handler 6, .handler 0, .handler 0, .handler 0] ++ .callRead () 1 :: List.replicate 9 (.read () true)

theorem receive_stream_readOne : ∃ s : State Unit, (system Unit).exec (init Unit) readOne = some s ∧
    (s.reads ()).pc = .done 1 [5] ∧ s.rbr = [5, 6] ∧
    (s.readOrder.map fun c => (s.reads c).taken).flatten ++ s.inbuffer.content ++ s.handler.admitted =
      (s.puts.filter (!·.deleted)).map Put.byte :=
  ⟨_, rfl, rfl, rfl, (receive_stream (System.Reachable.exec .init readOne rfl)).2.1⟩

end Run

end Lmsel4.ComDev
