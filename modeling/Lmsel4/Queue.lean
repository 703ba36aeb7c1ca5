/-
kfifo as a bounded queue.

The calls of `fifo.c` and the single-element macros of `kfifo.h`, each as
one step of a machine that stops when an access leaves the data area. What
the fifo is for (`Spec`) is a queue of elements with room for `N`. For every
sequence of calls the machine does not stop and its answers are those of the
queue, wherever the indices stand and however often they have wrapped.
-/
import Lmsel4.Kfifo
import Lmsel4.Simulation

namespace Lmsel4.Kfifo

/-! ## The calls -/

/-- What a call returns, and the bytes it has copied to the caller. -/
structure Answer where
  ret : UInt32
  buf : List UInt8
  deriving DecidableEq

/-- Both copies of a span stay within a data area of `area` bytes. -/
def Span.within (s : Span) (area : Nat) : Bool :=
  decide (s.off.toNat + s.l.toNat ≤ area) && decide ((s.len - s.l).toNat ≤ area)

/-- `__kfifo_in`. -/
def kfifoIn (area : Nat) (f : Kfifo) (buf : List UInt8) (len : UInt32) : Option (Kfifo × Answer) :=
  let len := f.inLen len
  if (f.span len f.inIdx).within area then
    some ((f.kfifoCopyIn buf len f.inIdx).publishIn len, { ret := len, buf := [] })
  else none

/-- `__kfifo_out_peek`. -/
def kfifoOutPeek (area : Nat) (f : Kfifo) (len : UInt32) : Option (Kfifo × Answer) :=
  let len := f.outLen len
  if (f.span len f.outIdx).within area then
    some (f, { ret := len, buf := f.kfifoCopyOut len f.outIdx })
  else none

/-- `__kfifo_out`. -/
def kfifoOut (area : Nat) (f : Kfifo) (len : UInt32) : Option (Kfifo × Answer) :=
  (f.kfifoOutPeek area len).map fun (f, o) => (f.publishOut o.ret, o)

/-- Where the element of index `i` starts, `data` being an array of
elements. -/
def elementAt (f : Kfifo) (i : UInt32) : Nat := (i &&& f.mask).toNat * f.esize.toNat

/-- `kfifo_put`. -/
def kfifoPut (area : Nat) (f : Kfifo) (val : List UInt8) : Option (Kfifo × Answer) :=
  if !f.kfifoIsFull then
    let off := f.elementAt f.inIdx
    if off + f.esize.toNat ≤ area then
      some ({ f with data := Ring.blit f.data off val }.publishIn 1, { ret := 1, buf := [] })
    else none
  else some (f, { ret := 0, buf := [] })

/-- `kfifo_get`. -/
def kfifoGet (area : Nat) (f : Kfifo) : Option (Kfifo × Answer) :=
  if !f.kfifoIsEmpty then
    let off := f.elementAt f.outIdx
    if off + f.esize.toNat ≤ area then
      some (f.publishOut 1, { ret := 1, buf := Ring.run f.data off f.esize.toNat })
    else none
  else some (f, { ret := 0, buf := [] })

abbrev Element (esize : Nat) := { bytes : List UInt8 // bytes.length = esize }

/-- An array of elements as bytes. -/
def bytesOf {esize : Nat} (es : List (Element esize)) : List UInt8 := (es.map Subtype.val).flatten

inductive Op (esize : Nat)
  | in (buf : List (Element esize)) (len : UInt32)
  | out (len : UInt32)
  | outPeek (len : UInt32)
  | put (val : Element esize)
  | get

/-- The caller's array has the `len` elements that are to be queued. -/
def Op.Given {esize : Nat} : Op esize → Prop
  | .in buf len => len.toNat ≤ buf.length
  | _ => True

instance {esize : Nat} : ∀ op : Op esize, Decidable op.Given
  | .in _ _ => inferInstanceAs (Decidable (_ ≤ _))
  | .out _ | .outPeek _ | .put _ | .get => .isTrue trivial

def step {esize : Nat} (area : Nat) (f : Kfifo) : Op esize → Option (Kfifo × Answer)
  | .in buf len => f.kfifoIn area (bytesOf buf) len
  | .out len => f.kfifoOut area len
  | .outPeek len => f.kfifoOutPeek area len
  | .put val => f.kfifoPut area val.val
  | .get => f.kfifoGet area

/-! ## What it is for -/

/-- The answers of a queue of at most `N` elements, oldest first. -/
inductive Spec {esize : Nat} (N : Nat) :
    List (Element esize) → Op esize → Answer → List (Element esize) → Prop
  | in {q buf len o} : o.ret.toNat = min len.toNat (N - q.length) → o.buf = [] →
    Spec N q (.in buf len) o (q ++ buf.take o.ret.toNat)
  | out {q len o} : o.ret.toNat = min len.toNat q.length → o.buf = bytesOf (q.take o.ret.toNat) →
    Spec N q (.out len) o (q.drop o.ret.toNat)
  | outPeek {q len o} : o.ret.toNat = min len.toNat q.length → o.buf = bytesOf (q.take o.ret.toNat) →
    Spec N q (.outPeek len) o q
  | put {q q' val o} : Spec N q (.in [val] 1) o q' → Spec N q (.put val) o q'
  | get {q q' o} : Spec N q (.out 1) o q' → Spec N q .get o q'

/-! ## Elements and bytes -/

section Elements

variable {esize : Nat}

@[simp] theorem bytesOf_cons (e : Element esize) (es : List (Element esize)) :
    bytesOf (e :: es) = e.val ++ bytesOf es := rfl

theorem bytesOf_append (es es' : List (Element esize)) : bytesOf (es ++ es') = bytesOf es ++ bytesOf es' := by
  simp [bytesOf]

theorem bytesOf_length : ∀ es : List (Element esize), (bytesOf es).length = es.length * esize
  | [] => (Nat.zero_mul _).symm
  | e :: es => by rw [bytesOf_cons, List.length_append, e.property, bytesOf_length es, List.length_cons,
      Nat.succ_mul, Nat.add_comm]

/-- An array of elements is cut between elements. -/
theorem bytesOf_split {es : List (Element esize)} {n : Nat} (hn : n ≤ es.length) :
    (bytesOf es).take (n * esize) = bytesOf (es.take n) ∧ (bytesOf es).drop (n * esize) = bytesOf (es.drop n) := by
  have hlen : (bytesOf (es.take n)).length = n * esize := by
    rw [bytesOf_length, List.length_take, Nat.min_eq_left hn]
  have hes : bytesOf es = bytesOf (es.take n) ++ bytesOf (es.drop n) := by
    rw [← bytesOf_append, List.take_append_drop]
  rw [hes]
  exact ⟨List.take_left' hlen, List.drop_left' hlen⟩

end Elements

/-! ## One element -/

variable {f : Kfifo}

/-- No copy of elements the fifo has room for leaves the data area. -/
theorem Ok.within (h : f.Ok) {len : UInt32} (hl : len.toNat ≤ f.size) (off : UInt32) :
    (f.span len off).within f.bytes = true := by
  obtain ⟨h₁, -, h₃⟩ := h.span_eq hl off
  have hoff := h.offset_lt off
  have hlen : len.toNat * f.esize.toNat ≤ f.bytes := Nat.mul_le_mul_right _ hl
  simp only [Span.within, Bool.and_eq_true, decide_eq_true_eq]
  rw [h.toNat_span_rest hl off, h₁]
  omega

theorem Ok.elementAt_le (h : f.Ok) (i : UInt32) : f.elementAt i + f.esize.toNat ≤ f.bytes := by
  have hlt : i.toNat % f.size + 1 ≤ f.size := Nat.mod_lt _ size_pos
  rw [elementAt, h.toNat_and, ← Nat.succ_mul]
  exact Nat.mul_le_mul_right _ hlt

theorem Ok.kfifoIn_eq (h : f.Ok) (buf : List UInt8) (len : UInt32) :
    f.kfifoIn f.bytes buf len = some ((f.kfifoCopyIn buf (f.inLen len) f.inIdx).publishIn (f.inLen len),
      { ret := f.inLen len, buf := [] }) := by
  have hl := h.inLen_le len
  exact if_pos (h.within (by omega) _)

theorem Ok.kfifoOutPeek_eq (h : f.Ok) (len : UInt32) :
    f.kfifoOutPeek f.bytes len = some (f, { ret := f.outLen len, buf := f.kfifoCopyOut (f.outLen len) f.outIdx }) :=
  if_pos (h.within (Nat.le_trans (outLen_le len) h.bounded) _)

theorem Ok.kfifoOut_eq (h : f.Ok) (len : UInt32) :
    f.kfifoOut f.bytes len = some (f.publishOut (f.outLen len),
      { ret := f.outLen len, buf := f.kfifoCopyOut (f.outLen len) f.outIdx }) := by
  rw [kfifoOut, h.kfifoOutPeek_eq]
  rfl

theorem publishIn_zero (f : Kfifo) : f.publishIn 0 = f := by rw [publishIn, UInt32.add_zero]

theorem publishOut_zero (f : Kfifo) : f.publishOut 0 = f := by rw [publishOut, UInt32.add_zero]

theorem Ok.blitBehind_element (h : f.Ok) {val : List UInt8} (hval : val.length ≤ f.esize.toNat) :
    f.blitBehind val = { f with data := Ring.blit f.data (f.elementAt f.inIdx) val } := by
  have hle := h.elementAt_le f.inIdx
  rw [elementAt, h.toNat_and] at hle ⊢
  rw [blitBehind, Ring.blitWrap_straight (by omega)]

/-- **`kfifo_put` is `__kfifo_in` of one element.** -/
theorem Ok.kfifoPut_eq (h : f.Ok) {val : List UInt8} (hval : val.length = f.esize.toNat) :
    f.kfifoPut f.bytes val = f.kfifoIn f.bytes val 1 := by
  have hfull := h.isFull_iff
  have hlen := h.toNat_inLen 1
  rw [UInt32.toNat_one] at hlen
  rw [h.kfifoIn_eq, kfifoPut]
  by_cases hused : f.used = f.size
  · have hzero : f.inLen 1 = 0 := UInt32.toNat_inj.mp (by rw [UInt32.toNat_zero]; omega)
    rw [hfull.mpr hused, hzero, h.copyIn_eq (Nat.zero_le _), UInt32.toNat_zero, Nat.zero_mul, List.take_zero,
      h.blitBehind_element (Nat.zero_le _), Ring.blit_nil, publishIn_zero]
    rfl
  · have hb := h.bounded
    have hroom : (1 : UInt32).toNat ≤ f.size := size_pos
    have hone : f.inLen 1 = 1 := UInt32.toNat_inj.mp (by rw [UInt32.toNat_one]; omega)
    rw [Bool.eq_false_iff.mpr (hused ∘ hfull.mp), hone, h.copyIn_eq hroom, UInt32.toNat_one, Nat.one_mul,
      ← hval, List.take_length, h.blitBehind_element (Nat.le_of_eq hval), hval]
    exact if_pos (h.elementAt_le f.inIdx)

theorem Ok.copyOut_element (h : f.Ok) :
    f.kfifoCopyOut 1 f.outIdx = Ring.run f.data (f.elementAt f.outIdx) f.esize.toNat := by
  have hone : (1 : UInt32).toNat ≤ f.size := size_pos
  obtain ⟨h₁, -, h₃⟩ := h.span_eq hone f.outIdx
  have hle := h.elementAt_le f.outIdx
  rw [elementAt, h.toNat_and] at hle ⊢
  have hmin : min (1 * f.esize.toNat) (f.bytes - f.outIdx.toNat % f.size * f.esize.toNat) = f.esize.toNat := by
    omega
  simp only [kfifoCopyOut, h.toNat_span_rest hone, h₁, h₃, UInt32.toNat_one, hmin]
  simp [Ring.run]

/-- **`kfifo_get` is `__kfifo_out` of one element.** -/
theorem Ok.kfifoGet_eq (h : f.Ok) : f.kfifoGet f.bytes = f.kfifoOut f.bytes 1 := by
  have hempty := isEmpty_iff (f := f)
  have hlen := toNat_outLen (f := f) 1
  rw [UInt32.toNat_one] at hlen
  rw [h.kfifoOut_eq, kfifoGet]
  by_cases hused : f.used = 0
  · have hzero : f.outLen 1 = 0 := UInt32.toNat_inj.mp (by rw [UInt32.toNat_zero]; omega)
    rw [hempty.mpr hused, hzero, h.copyOut_eq (Nat.zero_le _), UInt32.toNat_zero, Nat.zero_mul, Ring.window_zero,
      publishOut_zero]
    rfl
  · have hone : f.outLen 1 = 1 := UInt32.toNat_inj.mp (by rw [UInt32.toNat_one]; omega)
    rw [Bool.eq_false_iff.mpr (hused ∘ hempty.mp), hone, h.copyOut_element]
    exact if_pos (h.elementAt_le f.outIdx)

/-- What the driver's handler does with a fifo of bytes is `kfifo_put`. -/
theorem Ok.kfifoPut_byte (h : f.Ok) (he : f.esize = 1) (val : UInt8) :
    f.kfifoPut f.bytes [val] = some (if f.kfifoIsFull then (f, { ret := 0, buf := [] })
      else ((f.storeByte val).publishIn 1, { ret := 1, buf := [] })) := by
  have hval : [val].length ≤ f.esize.toNat := h.esize_pos
  rw [kfifoPut, h.storeByte_eq he, h.blitBehind_element hval]
  cases f.kfifoIsFull with
  | true => rfl
  | false => exact if_pos (h.elementAt_le f.inIdx)

/-- What it takes from a fifo of bytes is `kfifo_get`. -/
theorem Ok.kfifoGet_byte (h : f.Ok) (he : f.esize = 1) :
    f.kfifoGet f.bytes = some (if f.kfifoIsEmpty then (f, { ret := 0, buf := [] })
      else (f.publishOut 1, { ret := 1, buf := [f.loadByte] })) := by
  have hload : Ring.run f.data (f.elementAt f.outIdx) f.esize.toNat = [f.loadByte] := by
    simp [Ring.run, elementAt, loadByte, he]
  unfold kfifoGet
  dsimp only
  rw [hload]
  cases f.kfifoIsEmpty with
  | true => rfl
  | false => exact if_pos (h.elementAt_le f.outIdx)

/-! ## The fifo is the queue -/

/-- The fifo holds the elements `q`, of `esize` bytes each, and has room for
`N`. -/
structure Represents {esize : Nat} (N : Nat) (f : Kfifo) (q : List (Element esize)) : Prop where
  ok : f.Ok
  size : f.size = N
  esize : f.esize.toNat = esize
  used : (f.inIdx - f.outIdx).toNat = q.length
  bounded : q.length ≤ N
  content : f.content = bytesOf q

section Refinement

variable {esize N : Nat} {q : List (Element esize)}

theorem Represents.bytes (h : Represents N f q) : f.bytes = N * esize := by
  rw [Kfifo.bytes, h.size, h.esize]

theorem in_represents (h : Represents N f q) {buf : List (Element esize)} {len : UInt32}
    (hlen : len.toNat ≤ buf.length) :
    ∃ f' o q', f.kfifoIn f.bytes (bytesOf buf) len = some (f', o) ∧ Spec N q (.in buf len) o q' ∧
      Represents N f' q' := by
  have hused : f.used = q.length := h.used
  have hn := h.ok.toNat_inLen len
  rw [h.size, hused] at hn
  have hroom : f.used + (f.inLen len).toNat ≤ f.size := h.ok.inLen_le len
  have hbuf : (f.inLen len).toNat ≤ buf.length := Nat.le_trans (inLen_le_len len) hlen
  have hok : (f.kfifoCopyIn (bytesOf buf) (f.inLen len) f.inIdx).Ok := h.ok.copyIn _
  have htake := (bytesOf_split hbuf).1
  refine ⟨_, _, _, h.ok.kfifoIn_eq _ _, .in hn rfl, hok.publishIn hroom, h.size, h.esize, ?_, ?_, ?_⟩
  · refine (hok.used_publishIn hroom).trans ?_
    rw [List.length_append, List.length_take, Nat.min_eq_left hbuf, ← hused]
    rfl
  · have hb := h.bounded
    rw [List.length_append, List.length_take]
    dsimp only
    omega
  · rw [hok.content_publishIn hroom, h.ok.content_copyIn _ hroom, h.ok.behind_copyIn hroom, h.content, h.esize, htake,
      bytesOf_append]
    rw [h.esize, bytesOf_length]
    exact Nat.mul_le_mul_right _ hbuf

theorem outPeek_represents (h : Represents N f q) (len : UInt32) :
    f.kfifoCopyOut (f.outLen len) f.outIdx = bytesOf (q.take (f.outLen len).toNat) ∧
      (f.outLen len).toNat = min len.toNat q.length := by
  have hused : f.used = q.length := h.used
  have hle := outLen_le (f := f) len
  refine ⟨?_, hused ▸ toNat_outLen len⟩
  rw [h.ok.copyOut_content hle, h.content, h.esize, (bytesOf_split (hused ▸ hle)).1]

theorem out_represents (h : Represents N f q) (len : UInt32) :
    ∃ f' o q', f.kfifoOut f.bytes len = some (f', o) ∧ Spec N q (.out len) o q' ∧ Represents N f' q' := by
  have hused : f.used = q.length := h.used
  have hle := outLen_le (f := f) len
  obtain ⟨hbuf, hn⟩ := outPeek_represents h len
  refine ⟨_, _, _, h.ok.kfifoOut_eq len, .out hn hbuf, h.ok.publishOut hle, h.size, h.esize, ?_, ?_, ?_⟩
  · refine (used_publishOut hle).trans ?_
    rw [hused, List.length_drop]
  · rw [List.length_drop]
    exact Nat.le_trans (Nat.sub_le _ _) h.bounded
  · rw [h.ok.content_publishOut hle, h.content, h.esize, (bytesOf_split (hused ▸ hle)).2]

theorem queue_step_represents {op : Op esize} (h : Represents N f q) (hop : op.Given) :
    ∃ f' o q', step (N * esize) f op = some (f', o) ∧ Spec N q op o q' ∧ Represents N f' q' := by
  rw [← h.bytes]
  cases op with
  | «in» buf len => exact in_represents h hop
  | out len => exact out_represents h len
  | outPeek len =>
    obtain ⟨hbuf, hn⟩ := outPeek_represents h len
    exact ⟨_, _, _, h.ok.kfifoOutPeek_eq len, .outPeek hn hbuf, h⟩
  | put val =>
    have hval : val.val.length = f.esize.toNat := val.property.trans h.esize.symm
    have hone : (1 : UInt32).toNat ≤ [val].length := Nat.le_refl 1
    obtain ⟨f', o, q', hrun, hspec, hrep⟩ := in_represents h hone
    refine ⟨f', o, q', ?_, .put hspec, hrep⟩
    rw [← hrun, step, h.ok.kfifoPut_eq hval]
    simp [bytesOf]
  | get =>
    obtain ⟨f', o, q', hrun, hspec, hrep⟩ := out_represents h 1
    exact ⟨f', o, q', by rw [← hrun, step, h.ok.kfifoGet_eq], .get hspec, hrep⟩

end Refinement

theorem initKfifo_represents {k : Nat} (hk : 1 ≤ k) (hk' : k ≤ 31) {size esize : UInt32} (hs : size.toNat = 2 ^ k)
    (he : 0 < esize.toNat) (hf : size.toNat * esize.toNat < 2 ^ 32) (data : Nat → UInt8) :
    Represents size.toNat (initKfifo size esize data) ([] : List (Element esize.toNat)) where
  ok := initKfifo_ok hk hk' hs he hf
  size := initKfifo_size esize data (hs ▸ Nat.two_pow_pos k)
  esize := rfl
  used := initKfifo_used
  bounded := Nat.zero_le _
  content := initKfifo_content

/-- **kfifo is a bounded queue.** From an initialised fifo with a power of
two of elements, any calls at all are answered, none of them leaving the
data area, as a queue of at most that many elements answers them; and
`in - out` is the length of that queue. -/
theorem kfifo_refines {k : Nat} (hk : 1 ≤ k) (hk' : k ≤ 31) {size esize : UInt32} (hs : size.toNat = 2 ^ k)
    (he : 0 < esize.toNat) (hf : size.toNat * esize.toNat < 2 ^ 32) (data : Nat → UInt8)
    {ops : List (Op esize.toNat)} (hops : ∀ op ∈ ops, op.Given) :
    ∃ f os q, answers (step (size.toNat * esize.toNat)) (initKfifo size esize data) ops = some (f, os) ∧
      Allows (Spec size.toNat) [] ops os q ∧ Represents size.toNat f q :=
  simulation queue_step_represents (initKfifo_represents hk hk' hs he hf data) (admits_of_forall hops)

/-- A fifo of two elements of two bytes: it fills up and goes round. -/
def goRound : List (Op (2 : UInt32).toNat) :=
  [.put ⟨[1, 2], rfl⟩, .in [⟨[3, 4], rfl⟩, ⟨[5, 6], rfl⟩] 2, .put ⟨[7, 8], rfl⟩, .get, .in [⟨[9, 10], rfl⟩] 1,
    .outPeek 5, .out 1]

theorem kfifo_refines_goRound : ∃ f os, ∃ q : List (Element (2 : UInt32).toNat),
    answers (step 4) (initKfifo 2 2 fun _ => 0) goRound = some (f, os) ∧
      os = [⟨1, []⟩, ⟨1, []⟩, ⟨0, []⟩, ⟨1, [1, 2]⟩, ⟨1, []⟩, ⟨2, [3, 4, 9, 10]⟩, ⟨1, [3, 4]⟩] ∧
      Allows (Spec 2) [] goRound os q ∧ Represents 2 f q := by
  have hsize : (2 : UInt32).toNat = 2 ^ 1 := rfl
  have hesize : 0 < (2 : UInt32).toNat := by decide
  obtain ⟨f, os, q, hrun, hall, hrep⟩ :=
    kfifo_refines (Nat.le_refl 1) (by decide) hsize hesize (by decide) (fun _ => 0)
      (show ∀ op ∈ goRound, op.Given by decide)
  refine ⟨f, os, q, hrun, ?_, hall, hrep⟩
  cases hrun
  rfl

end Lmsel4.Kfifo
