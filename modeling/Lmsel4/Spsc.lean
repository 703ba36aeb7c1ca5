/-
kfifo with one reader and one writer, and no lock (`kfifo.h`: "with only one
concurrent reader and one concurrent writer, you don't need extra locking").

`__kfifo_in` and `__kfifo_out` run at the same time and are cut at every
access to what they share: the writer looks at `out` once, stores the bytes
one by one in whatever order `memcpy` likes, and then moves `in`; the reader
looks at `in` once, loads the bytes one by one, and then moves `out`.

What keeps the two apart is what each has been promised: the room that the
writer saw can only grow, since only the reader moves `out`, and the
elements that the reader saw stay, since the writer stores behind them. So
in every interleaving the bytes received so far, followed by those queued,
are the bytes sent so far (`lockFree`).
-/
import Lmsel4.Queue
import Lmsel4.System

namespace Lmsel4.Spsc

open Kfifo (Span)

/-! ## The two calls, access by access -/

/-- Where in the data area byte `j` of a span is. -/
def cell (s : Span) (j : Nat) : Nat := if j < s.l.toNat then s.off.toNat + j else j - s.l.toNat

/-- Where the writer is in `__kfifo_in`: which bytes are still to be copied
from its buffer. -/
inductive Writer
  | idle
  | copying (src : List UInt8) (len : UInt32) (span : Span) (todo : List Nat)

/-- Where the reader is in `__kfifo_out`, with what its buffer holds. -/
inductive Reader
  | idle
  | copying (buf : Nat → UInt8) (len : UInt32) (span : Span) (todo : List Nat)

/-- The fifo, the two calls, and the bytes of the calls that have returned. -/
structure State where
  fifo : Kfifo
  writer : Writer
  reader : Reader
  sent : List UInt8
  received : List UInt8

/-- A call with its arguments, the access to byte `j` of a copy, or the end
of a call. -/
inductive Act
  | inStart (src : List UInt8) (len : UInt32)
  | inCopy (j : Nat)
  | inPublish
  | outStart (buf : Nat → UInt8) (len : UInt32)
  | outCopy (j : Nat)
  | outPublish

/-- An access outside the `area` bytes of data, or behind the caller's
buffer, is not possible. -/
def step (area : Nat) (s : State) : Act → Option State
  | .inStart src len =>
    match s.writer with
    | .idle =>
      let len := s.fifo.inLen len
      let span := s.fifo.span len s.fifo.inIdx
      some { s with writer := .copying src len span (List.range span.len.toNat) }
    | .copying .. => none
  | .inCopy j =>
    match s.writer with
    | .copying src len span todo =>
      if j ∈ todo ∧ cell span j < area then
        src[j]?.map fun v =>
          { s with
            fifo := { s.fifo with data := Function.update s.fifo.data (cell span j) v }
            writer := .copying src len span (todo.erase j) }
      else none
    | .idle => none
  | .inPublish =>
    match s.writer with
    | .copying src len span [] =>
      some { s with
        fifo := s.fifo.publishIn len
        writer := .idle
        sent := s.sent ++ src.take span.len.toNat }
    | _ => none
  | .outStart buf len =>
    match s.reader with
    | .idle =>
      let len := s.fifo.outLen len
      let span := s.fifo.span len s.fifo.outIdx
      some { s with reader := .copying buf len span (List.range span.len.toNat) }
    | .copying .. => none
  | .outCopy j =>
    match s.reader with
    | .copying buf len span todo =>
      if j ∈ todo ∧ cell span j < area then
        some { s with
          reader := .copying (Function.update buf j (s.fifo.data (cell span j))) len span (todo.erase j) }
      else none
    | .idle => none
  | .outPublish =>
    match s.reader with
    | .copying buf len span [] =>
      some { s with
        fifo := s.fifo.publishOut len
        reader := .idle
        received := s.received ++ (List.range span.len.toNat).map buf }
    | _ => none

def system (area : Nat) (f : Kfifo) : System State Act where
  init := { fifo := f, writer := .idle, reader := .idle, sent := [], received := [] }
  step := step area

/-- The caller's buffer has the elements that are to be sent. -/
def Given (s : State) : Act → Prop
  | .inStart src len => len.toNat * s.fifo.esize.toNat ≤ src.length
  | _ => True

instance (s : State) : ∀ a, Decidable (Given s a)
  | .inStart _ _ => inferInstanceAs (Decidable (_ ≤ _))
  | .inCopy _ | .inPublish | .outStart _ _ | .outCopy _ | .outPublish => .isTrue trivial

/-- The bytes that a call still has to copy. -/
def Writer.todo : Writer → List Nat
  | .idle => []
  | .copying _ _ _ todo => todo

def Reader.todo : Reader → List Nat
  | .idle => []
  | .copying _ _ _ todo => todo

/-! ## What each has been promised -/

section Promises

variable {f f' : Kfifo} {len : UInt32}

/-- The next `len` elements are free, and what has been copied of them is
in place. -/
def Writer.Promised (f : Kfifo) : Writer → Prop
  | .idle => True
  | .copying src len span todo => f.used + len.toNat ≤ f.size ∧ span = f.span len f.inIdx ∧
      len.toNat * f.esize.toNat ≤ src.length ∧ todo.Nodup ∧ (∀ j ∈ todo, j < len.toNat * f.esize.toNat) ∧
      ∀ j < len.toNat * f.esize.toNat, j ∉ todo →
        src[j]? = some (f.data ((f.inIdx.toNat * f.esize.toNat + j) % f.bytes))

/-- The oldest `len` elements are there, and what has been copied is theirs. -/
def Reader.Promised (f : Kfifo) : Reader → Prop
  | .idle => True
  | .copying buf len span todo => len.toNat ≤ f.used ∧ span = f.span len f.outIdx ∧ todo.Nodup ∧
      (∀ j ∈ todo, j < len.toNat * f.esize.toNat) ∧
      ∀ j < len.toNat * f.esize.toNat, j ∉ todo → f.content[j]? = some (buf j)

/-- A copy goes round the end of the data area. -/
theorem cell_eq (h : f.Ok) (hl : len.toNat ≤ f.size) (off : UInt32) {j : Nat} (hj : j < len.toNat * f.esize.toNat) :
    cell (f.span len off) j = (off.toNat * f.esize.toNat + j) % f.bytes := by
  obtain ⟨hoff, -, hfirst⟩ := h.span_eq hl off
  have hlt := h.offset_lt off
  have hbytes : len.toNat * f.esize.toNat ≤ f.bytes := Nat.mul_le_mul_right _ hl
  have hmod : (off.toNat * f.esize.toNat + j) % f.bytes = (off.toNat % f.size * f.esize.toNat + j) % f.bytes := by
    rw [← Nat.mod_add_mod, Kfifo.mod_bytes]
  rw [hmod, cell, hoff]
  generalize off.toNat % f.size * f.esize.toNat = start at *
  split
  · rw [Nat.mod_eq_of_lt (by omega)]
  · rw [Nat.mod_eq_sub_mod (by omega), Nat.mod_eq_of_lt (by omega)]
    omega

theorem span_len (h : f.Ok) (hl : len.toNat ≤ f.size) (off : UInt32) :
    (f.span len off).len.toNat = len.toNat * f.esize.toNat := (h.span_eq hl off).2.1

/-- `f'` is `f` after a step of the writer: the queue is as it was, or has
grown. -/
structure Grows (f f' : Kfifo) : Prop where
  outIdx : f'.outIdx = f.outIdx
  mask : f'.mask = f.mask
  esize : f'.esize = f.esize
  used : f.used ≤ f'.used
  content : f.content <+: f'.content

theorem span_congr (hm : f'.mask = f.mask) (he : f'.esize = f.esize) (off : UInt32) :
    f'.span len off = f.span len off := by
  simp only [Kfifo.span, hm, he]

/-- The writer's steps keep what the reader has been promised. -/
theorem Reader.Promised.grows {r : Reader} (h : r.Promised f) (hg : Grows f f') : r.Promised f' := by
  cases r with
  | idle => trivial
  | copying buf len span todo =>
    obtain ⟨hl, hspan, hnd, htodo, hdone⟩ := h
    refine ⟨Nat.le_trans hl hg.used, ?_, hnd, ?_, fun j hj hout => ?_⟩
    · rw [hspan, hg.outIdx, span_congr hg.mask hg.esize]
    · rw [hg.esize]
      exact htodo
    · rw [hg.esize] at hj
      have hbyte := hdone j hj hout
      obtain ⟨hlt, -⟩ := List.getElem?_eq_some_iff.mp hbyte
      obtain ⟨more, hmore⟩ := hg.content
      rw [← hmore, List.getElem?_append_left hlt, hbyte]

/-- The reader's steps keep what the writer has been promised. -/
theorem Writer.Promised.publishOut {w : Writer} (h : w.Promised f) {n : UInt32} (hn : n.toNat ≤ f.used) :
    w.Promised (f.publishOut n) := by
  cases w with
  | idle => trivial
  | copying src len span todo =>
    obtain ⟨hroom, hrest⟩ := h
    refine ⟨?_, hrest⟩
    rw [Kfifo.used_publishOut hn]
    exact Nat.le_trans (Nat.add_le_add_right (Nat.sub_le _ _) _) hroom

/-- A byte that the writer stores is in place. -/
theorem Writer.Promised.store {src : List UInt8} {span : Span} {todo : List Nat}
    (h : (Writer.copying src len span todo).Promised f) {j : Nat} (hj : j ∈ todo) {v : UInt8} (hv : src[j]? = some v) :
    (Writer.copying src len span (todo.erase j)).Promised
      { f with data := Function.update f.data ((f.inIdx.toNat * f.esize.toNat + j) % f.bytes) v } := by
  obtain ⟨hroom, hspan, hsrc, hnd, htodo, hdone⟩ := h
  have hbytes : len.toNat * f.esize.toNat ≤ f.bytes := Nat.mul_le_mul_right _ (by omega)
  have hlt := htodo j hj
  refine ⟨hroom, hspan, hsrc, hnd.erase j, fun i hi => htodo i (List.mem_of_mem_erase hi), fun i hi hout => ?_⟩
  replace hi : i < len.toNat * f.esize.toNat := hi
  change src[i]? = some (Function.update f.data ((f.inIdx.toNat * f.esize.toNat + j) % f.bytes) v
    ((f.inIdx.toNat * f.esize.toNat + i) % f.bytes))
  rw [hnd.mem_erase_iff, not_and] at hout
  by_cases hij : i = j
  · rw [hij, Function.update_self, hv]
  · have hcells := Ring.mod_ne (f.inIdx.toNat * f.esize.toNat) (n := f.bytes) (by omega) (by omega) hij
    rw [Function.update_of_ne hcells, hdone i hi (hout hij)]

/-- A byte that the reader loads is the one queued there. -/
theorem Reader.Promised.load {buf : Nat → UInt8} {span : Span} {todo : List Nat}
    (h : (Reader.copying buf len span todo).Promised f) (hok : f.Ok) {j : Nat} (hj : j ∈ todo) :
    (Reader.copying (Function.update buf j (f.data (cell span j))) len span (todo.erase j)).Promised f := by
  obtain ⟨hused, rfl, hnd, htodo, hdone⟩ := h
  have hlt := htodo j hj
  have hbytes : len.toNat * f.esize.toNat ≤ f.used * f.esize.toNat := Nat.mul_le_mul_right _ hused
  refine ⟨hused, rfl, hnd.erase j, fun i hi => htodo i (List.mem_of_mem_erase hi), fun i hi hout => ?_⟩
  rw [hnd.mem_erase_iff, not_and] at hout
  by_cases hij : i = j
  · rw [hij, Function.update_self, cell_eq hok (Nat.le_trans hused hok.bounded) f.outIdx hlt]
    exact Ring.window_getElem? (show j < f.used * f.esize.toNat by omega)
  · rw [Function.update_of_ne hij]
    exact hdone i hi (hout hij)

end Promises

/-! ## Steps -/

/-- What every interleaving keeps. -/
structure Inv (area : Nat) (s : State) : Prop where
  ok : s.fifo.Ok
  area : s.fifo.bytes = area
  writer : s.writer.Promised s.fifo
  reader : s.reader.Promised s.fifo
  bytes : s.sent = s.received ++ s.fifo.content

section Steps

variable {area : Nat} {s s' : State}

/-- Byte `j` of what the writer has been promised is behind the queue, and
a store there leaves the queue as it was. -/
theorem content_store {f : Kfifo} (h : f.Ok) {len : UInt32} (hroom : f.used + len.toNat ≤ f.size) {j : Nat}
    (hj : j < len.toNat * f.esize.toNat) (v : UInt8) :
    Kfifo.content { f with data := Function.update f.data ((f.inIdx.toNat * f.esize.toNat + j) % f.bytes) v } =
      f.content := by
  have htotal : (f.used + len.toNat) * f.esize.toNat ≤ f.bytes := Nat.mul_le_mul_right _ hroom
  rw [Nat.add_mul] at htotal
  have hcell : (f.inIdx.toNat * f.esize.toNat + j) % f.bytes =
      (f.outIdx.toNat * f.esize.toNat + (f.used * f.esize.toNat + j)) % f.bytes := by
    rw [← Nat.mod_add_mod, h.in_eq, Nat.mod_add_mod, Nat.add_assoc]
  rw [hcell]
  exact Ring.window_update_outside (show f.used * f.esize.toNat ≤ _ by omega) (by omega) v

theorem inStart_inv (h : Inv area s) {src : List UInt8} {len : UInt32} (hsrc : Given s (.inStart src len))
    (hs : step area s (.inStart src len) = some s') : Inv area s' := by
  simp only [step] at hs
  split at hs <;> cases hs
  have hroom := h.ok.inLen_le len
  have hle : (s.fifo.inLen len).toNat ≤ s.fifo.size := by omega
  refine ⟨h.ok, h.area, ⟨hroom, rfl, ?_, List.nodup_range, ?_, ?_⟩, h.reader, h.bytes⟩
  · exact Nat.le_trans (Nat.mul_le_mul_right _ (Kfifo.inLen_le_len len)) hsrc
  · intro j hj
    rw [List.mem_range, span_len h.ok hle] at hj
    exact hj
  · intro j hj hout
    rw [List.mem_range, span_len h.ok hle] at hout
    exact absurd hj hout

theorem inCopy_inv (h : Inv area s) {j : Nat} (hs : step area s (.inCopy j) = some s') : Inv area s' := by
  simp only [step] at hs
  split at hs
  · next src len span todo hw =>
    split at hs
    · next hj =>
      obtain ⟨v, hv, rfl⟩ := Option.map_eq_some_iff.mp hs
      have hpromise := h.writer
      rw [hw] at hpromise
      have hstore := hpromise.store hj.1 hv
      obtain ⟨hroom, rfl, -, -, htodo, -⟩ := hpromise
      have hlt := htodo j hj.1
      have hcontent := content_store h.ok hroom hlt v
      rw [cell_eq h.ok (show len.toNat ≤ s.fifo.size by omega) s.fifo.inIdx hlt]
      refine ⟨⟨h.ok.pow, h.ok.esize_pos, h.ok.fits, h.ok.bounded⟩, h.area, hstore, h.reader.grows ?_, ?_⟩
      · exact ⟨rfl, rfl, rfl, Nat.le_refl _, hcontent ▸ List.prefix_refl _⟩
      · rw [hcontent]
        exact h.bytes
    · cases hs
  · cases hs

theorem inPublish_inv (h : Inv area s) (hs : step area s .inPublish = some s') : Inv area s' := by
  simp only [step] at hs
  split at hs
  · next src len span hw =>
    cases hs
    have hpromise := h.writer
    rw [hw] at hpromise
    obtain ⟨hroom, rfl, hsrc, -, -, hdone⟩ := hpromise
    have hlen := span_len h.ok (show len.toNat ≤ s.fifo.size by omega) s.fifo.inIdx
    have hbehind : s.fifo.behind len = src.take (len.toNat * s.fifo.esize.toNat) := by
      refine List.ext_getElem? fun j => ?_
      by_cases hj : j < len.toNat * s.fifo.esize.toNat
      · rw [List.getElem?_take_of_lt hj, hdone j hj List.not_mem_nil]
        exact Ring.window_getElem? hj
      · rw [List.getElem?_eq_none (by simpa [Kfifo.behind] using hj),
          List.getElem?_eq_none (by rw [List.length_take]; omega)]
    have hcontent := h.ok.content_publishIn hroom
    refine ⟨h.ok.publishIn hroom, h.area, trivial, h.reader.grows ?_, ?_⟩
    · exact ⟨rfl, rfl, rfl, by rw [h.ok.used_publishIn hroom]; omega, hcontent ▸ List.prefix_append _ _⟩
    · rw [hcontent, hbehind, hlen, h.bytes, List.append_assoc]
  · cases hs

theorem outStart_inv (h : Inv area s) {buf : Nat → UInt8} {len : UInt32}
    (hs : step area s (.outStart buf len) = some s') : Inv area s' := by
  simp only [step] at hs
  split at hs <;> cases hs
  have hused := Kfifo.outLen_le (f := s.fifo) len
  have hle : (s.fifo.outLen len).toNat ≤ s.fifo.size := Nat.le_trans hused h.ok.bounded
  refine ⟨h.ok, h.area, h.writer, ⟨hused, rfl, List.nodup_range, ?_, ?_⟩, h.bytes⟩
  · intro j hj
    rw [List.mem_range, span_len h.ok hle] at hj
    exact hj
  · intro j hj hout
    rw [List.mem_range, span_len h.ok hle] at hout
    exact absurd hj hout

theorem outCopy_inv (h : Inv area s) {j : Nat} (hs : step area s (.outCopy j) = some s') : Inv area s' := by
  simp only [step] at hs
  split at hs
  · next buf len span todo hr =>
    split at hs
    · next hj =>
      cases hs
      have hpromise := h.reader
      rw [hr] at hpromise
      exact ⟨h.ok, h.area, h.writer, hpromise.load h.ok hj.1, h.bytes⟩
    · cases hs
  · cases hs

theorem outPublish_inv (h : Inv area s) (hs : step area s .outPublish = some s') : Inv area s' := by
  simp only [step] at hs
  split at hs
  · next buf len span hr =>
    cases hs
    have hpromise := h.reader
    rw [hr] at hpromise
    obtain ⟨hused, rfl, -, -, hdone⟩ := hpromise
    have hlen := span_len h.ok (Nat.le_trans hused h.ok.bounded) s.fifo.outIdx
    have hbytes : len.toNat * s.fifo.esize.toNat ≤ s.fifo.used * s.fifo.esize.toNat := Nat.mul_le_mul_right _ hused
    have hbuf : (List.range (len.toNat * s.fifo.esize.toNat)).map buf =
        s.fifo.content.take (len.toNat * s.fifo.esize.toNat) := by
      refine List.ext_getElem? fun j => ?_
      by_cases hj : j < len.toNat * s.fifo.esize.toNat
      · rw [List.getElem?_take_of_lt hj, hdone j hj List.not_mem_nil, List.getElem?_map, List.getElem?_range hj]
        rfl
      · rw [List.getElem?_eq_none (by simpa using hj), List.getElem?_eq_none (by rw [List.length_take]; omega)]
    refine ⟨h.ok.publishOut hused, h.area, h.writer.publishOut hused, trivial, ?_⟩
    rw [h.ok.content_publishOut hused, hlen, hbuf, h.bytes, List.append_assoc, List.take_append_drop]
  · cases hs

theorem step_inv (h : Inv area s) {a : Act} (ha : Given s a) (hs : step area s a = some s') : Inv area s' := by
  cases a with
  | inStart src len => exact inStart_inv h ha hs
  | inCopy j => exact inCopy_inv h hs
  | inPublish => exact inPublish_inv h hs
  | outStart buf len => exact outStart_inv h hs
  | outCopy j => exact outCopy_inv h hs
  | outPublish => exact outPublish_inv h hs

/-- The writer's next access is possible, whichever it is. -/
theorem inCopy_enabled (h : Inv area s) {j : Nat} (hj : j ∈ s.writer.todo) : (step area s (.inCopy j)).isSome := by
  have hpromise := h.writer
  cases hw : s.writer with
  | idle =>
    rw [hw] at hj
    cases hj
  | copying src len span todo =>
    rw [hw] at hpromise hj
    obtain ⟨hroom, rfl, hsrc, -, htodo, -⟩ := hpromise
    have hlt := htodo j hj
    have hcell := cell_eq h.ok (show len.toNat ≤ s.fifo.size by omega) s.fifo.inIdx hlt
    have hwithin : cell (s.fifo.span len s.fifo.inIdx) j < area := by
      rw [hcell, ← h.area]
      exact Nat.mod_lt _ h.ok.bytes_pos
    have hbyte : src[j]? = some src[j] := List.getElem?_eq_getElem (by omega)
    simp only [step, hw, if_pos (show j ∈ todo ∧ _ from ⟨hj, hwithin⟩), hbyte, Option.map_some, Option.isSome_some]

/-- So is the reader's. -/
theorem outCopy_enabled (h : Inv area s) {j : Nat} (hj : j ∈ s.reader.todo) : (step area s (.outCopy j)).isSome := by
  have hpromise := h.reader
  cases hr : s.reader with
  | idle =>
    rw [hr] at hj
    cases hj
  | copying buf len span todo =>
    rw [hr] at hpromise hj
    obtain ⟨hused, rfl, -, htodo, -⟩ := hpromise
    have hcell := cell_eq h.ok (Nat.le_trans hused h.ok.bounded) s.fifo.outIdx (htodo j hj)
    have hwithin : cell (s.fifo.span len s.fifo.outIdx) j < area := by
      rw [hcell, ← h.area]
      exact Nat.mod_lt _ h.ok.bytes_pos
    simp only [step, hr, if_pos (show j ∈ todo ∧ _ from ⟨hj, hwithin⟩), Option.isSome_some]

end Steps

/-- **One reader and one writer need no lock.** From an empty fifo, wherever
its indices stand and whatever its size, in every interleaving of calls of
`__kfifo_in` and `__kfifo_out`: the bytes received, followed by those queued,
are the bytes sent; no more elements are queued than there is room for; the
writer stores where nothing is queued, and what it has stored stays until it
is published; what the reader has loaded are the oldest bytes published and
not yet received; and neither call is ever kept from its next access. -/
theorem lockFree {f : Kfifo} (hf : f.Ok) (hempty : f.used = 0) {s : State}
    (h : (system f.bytes f).ReachableBy Given s) :
    s.sent = s.received ++ s.fifo.content ∧ s.fifo.used ≤ s.fifo.size ∧
      s.writer.Promised s.fifo ∧ s.reader.Promised s.fifo ∧
      (∀ j ∈ s.writer.todo, (step f.bytes s (.inCopy j)).isSome) ∧
      ∀ j ∈ s.reader.todo, (step f.bytes s (.outCopy j)).isSome := by
  have hinit : Inv f.bytes (system f.bytes f).init := by
    refine ⟨hf, rfl, trivial, trivial, ?_⟩
    have hnone : f.content = [] := List.length_eq_zero_iff.mp (by rw [Kfifo.content_length, hempty, Nat.zero_mul])
    exact hnone.symm
  have hinv := h.invariant hinit fun _ _ _ hI ha hs => step_inv hI ha hs
  exact ⟨hinv.bytes, hinv.ok.bounded, hinv.writer, hinv.reader, fun _ => inCopy_enabled hinv,
    fun _ => outCopy_enabled hinv⟩

/-- Four elements of one byte. The writer stores the fourth while the reader
loads two others, and then goes round the end while the reader follows. -/
def overlapping : List Act :=
  let buf : Nat → UInt8 := fun _ => 0
  [.inStart [1, 2, 3] 3, .inCopy 2, .inCopy 0, .inCopy 1, .inPublish, .outStart buf 2, .inStart [4, 5] 2, .inCopy 0,
    .outCopy 1, .outCopy 0, .inPublish, .outPublish, .inStart [5, 6] 2, .inCopy 1, .outStart buf 9, .outCopy 0,
    .inCopy 0, .outCopy 1, .outPublish, .inPublish]

theorem lockFree_overlapping : ∃ s, (system 4 (.initKfifo 4 1 fun _ => 0)).exec
      (system 4 (.initKfifo 4 1 fun _ => 0)).init overlapping = some s ∧
    (s.sent, s.received, s.fifo.content) = ([1, 2, 3, 4, 5, 6], [1, 2, 3, 4], [5, 6]) ∧
    s.sent = s.received ++ s.fifo.content := by
  have hrun : ((system 4 (.initKfifo 4 1 fun _ => 0)).exec (system 4 (.initKfifo 4 1 fun _ => 0)).init
      overlapping).map (fun s => (s.sent, s.received, s.fifo.content)) =
        some ([1, 2, 3, 4, 5, 6], [1, 2, 3, 4], [5, 6]) := by decide +kernel
  obtain ⟨s, hs, hview⟩ := Option.map_eq_some_iff.mp hrun
  have hok : (Kfifo.initKfifo 4 1 fun _ => 0).Ok :=
    Kfifo.initKfifo_ok (show 1 ≤ 2 by decide) (by decide) rfl (by decide) (by decide)
  have hsteps : (system 4 (.initKfifo 4 1 fun _ => 0)).Steps Given
      (system 4 (.initKfifo 4 1 fun _ => 0)).init overlapping := by decide +kernel
  exact ⟨s, hs, hview, (lockFree hok Kfifo.initKfifo_used (System.ReachableBy.init.steps overlapping hsteps hs)).1⟩

end Lmsel4.Spsc
