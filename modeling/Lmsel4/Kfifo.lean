/-
liblinux's kfifo (`fifo.c`, `kfifo.h`): two free-running 32-bit indices
over a data area of `(mask + 1) * esize` bytes.

The functions are cut where a concurrent user can see the cut: the space
left is computed, the bytes are copied, and only then is the index
published. What each piece does to the queued bytes is stated for every
power-of-two fifo and every value of the indices, so also after they wrap.
-/
import Lmsel4.Ring
import Mathlib.Algebra.Group.Nat.Defs

namespace Lmsel4

/-- `struct __kfifo`, with the bytes `data` points to. -/
structure Kfifo where
  inIdx : UInt32
  outIdx : UInt32
  mask : UInt32
  esize : UInt32
  data : Nat → UInt8

namespace Kfifo

/-! ## The source's functions -/

/-- `INIT_KFIFO` of a fifo declared with `size` elements of `esize` bytes:
the data area is left as it was found. -/
def initKfifo (size esize : UInt32) (data : Nat → UInt8) : Kfifo :=
  { inIdx := 0, outIdx := 0, mask := size - 1, esize, data }

/-- `kfifo_unused`. -/
def kfifoUnused (f : Kfifo) : UInt32 := (f.mask + 1) - (f.inIdx - f.outIdx)

/-- `kfifo_len`. -/
def kfifoLen (f : Kfifo) : UInt32 := f.inIdx - f.outIdx

/-- `kfifo_is_empty`. -/
def kfifoIsEmpty (f : Kfifo) : Bool := f.inIdx == f.outIdx

/-- `kfifo_is_full`. -/
def kfifoIsFull (f : Kfifo) : Bool := decide (f.mask < f.kfifoLen)

/-- The bytes a copy of `len` elements from index `off` on covers: where
it starts, how many there are, and how many come before the end of the
data area. -/
structure Span where
  off : UInt32
  len : UInt32
  l : UInt32

/-- The first lines of `kfifo_copy_in` and `kfifo_copy_out`. -/
def span (f : Kfifo) (len off : UInt32) : Span :=
  let size := f.mask + 1
  let off := off &&& f.mask
  if f.esize ≠ 1 then
    let off := off * f.esize
    let size := size * f.esize
    let len := len * f.esize
    ⟨off, len, min len (size - off)⟩
  else
    ⟨off, len, min len (size - off)⟩

/-- `kfifo_copy_in`. -/
def kfifoCopyIn (f : Kfifo) (src : List UInt8) (len off : UInt32) : Kfifo :=
  let s := f.span len off
  -- memcpy(fifo->data + off, src, l); memcpy(fifo->data, src + l, len - l);
  let data := Ring.blit f.data s.off.toNat (src.take s.l.toNat)
  let data := Ring.blit data 0 ((src.drop s.l.toNat).take (s.len - s.l).toNat)
  { f with data }

/-- `kfifo_copy_out`: the bytes copied to `dst`. -/
def kfifoCopyOut (f : Kfifo) (len off : UInt32) : List UInt8 :=
  let s := f.span len off
  Ring.run f.data s.off.toNat s.l.toNat ++ Ring.run f.data 0 (s.len - s.l).toNat

/-- The length `__kfifo_in` settles on. -/
def inLen (f : Kfifo) (len : UInt32) : UInt32 :=
  let l := f.kfifoUnused
  if l < len then l else len

/-- The length `__kfifo_out_peek` settles on. -/
def outLen (f : Kfifo) (len : UInt32) : UInt32 :=
  let l := f.inIdx - f.outIdx
  if l < len then l else len

/-- `fifo->in += len`. -/
def publishIn (f : Kfifo) (len : UInt32) : Kfifo := { f with inIdx := f.inIdx + len }

/-- `fifo->out += len`. -/
def publishOut (f : Kfifo) (len : UInt32) : Kfifo := { f with outIdx := f.outIdx + len }

/-- The store of `kfifo_put`, for a fifo of bytes. -/
def storeByte (f : Kfifo) (val : UInt8) : Kfifo :=
  { f with data := Function.update f.data (f.inIdx &&& f.mask).toNat val }

/-- The load of `kfifo_get`, for a fifo of bytes. -/
def loadByte (f : Kfifo) : UInt8 := f.data (f.outIdx &&& f.mask).toNat

/-! ## What the fifo holds -/

/-- The number of elements the data area has room for. -/
def size (f : Kfifo) : Nat := f.mask.toNat + 1

/-- The number of elements queued. -/
def used (f : Kfifo) : Nat := (f.inIdx - f.outIdx).toNat

/-- The number of bytes of the data area. -/
def bytes (f : Kfifo) : Nat := f.size * f.esize.toNat

/-- The bytes queued, oldest first. -/
def content (f : Kfifo) : List UInt8 :=
  Ring.window f.data f.bytes (f.outIdx.toNat * f.esize.toNat) (f.used * f.esize.toNat)

/-- The bytes behind the queued ones, which the next `len` elements take. -/
def behind (f : Kfifo) (len : UInt32) : List UInt8 :=
  Ring.window f.data f.bytes (f.inIdx.toNat * f.esize.toNat) (len.toNat * f.esize.toNat)

/-- A fifo in use: a power-of-two number of elements, in a data area that
32-bit offsets reach, no more of them queued than there is room for. -/
structure Ok (f : Kfifo) : Prop where
  pow : ∃ k, 1 ≤ k ∧ k ≤ 31 ∧ f.size = 2 ^ k
  esize_pos : 0 < f.esize.toNat
  fits : f.bytes < 2 ^ 32
  bounded : f.used ≤ f.size

variable {f : Kfifo}

theorem Ok.size_dvd (h : f.Ok) : f.size ∣ 2 ^ 32 := by
  obtain ⟨k, -, hk, hs⟩ := h.pow
  rw [hs]
  exact Nat.pow_dvd_pow 2 (by omega)

theorem Ok.size_le (h : f.Ok) : f.size ≤ 2 ^ 31 := by
  obtain ⟨k, -, hk, hs⟩ := h.pow
  rw [hs]
  exact Nat.pow_le_pow_right (by omega) hk

theorem size_pos : 0 < f.size := Nat.succ_pos _

theorem Ok.bytes_pos (h : f.Ok) : 0 < f.bytes := Nat.mul_pos size_pos h.esize_pos

theorem Ok.toNat_size (h : f.Ok) : (f.mask + 1).toNat = f.size := by
  have := h.size_le
  unfold size at *
  rw [UInt32.toNat_add, UInt32.toNat_one]
  omega

theorem Ok.toNat_and (h : f.Ok) (x : UInt32) : (x &&& f.mask).toNat = x.toNat % f.size := by
  obtain ⟨k, -, -, hs⟩ := h.pow
  have hm : f.mask.toNat = 2 ^ k - 1 := by rw [← hs]; rfl
  rw [UInt32.toNat_and, hm, Nat.and_two_pow_sub_one_eq_mod, hs]

/-- Element offsets scale to byte offsets. -/
theorem mod_bytes (x : Nat) : x * f.esize.toNat % f.bytes = x % f.size * f.esize.toNat :=
  Nat.mul_mod_mul_right _ _ _

/-- An index, seen from inside the data area. -/
theorem Ok.offset_lt (h : f.Ok) (i : UInt32) : i.toNat % f.size * f.esize.toNat < f.bytes :=
  Nat.mul_lt_mul_of_pos_right (Nat.mod_lt _ size_pos) h.esize_pos

/-- `in` is `used` past `out`, seen from inside the data area. -/
theorem Ok.in_eq (h : f.Ok) :
    f.inIdx.toNat * f.esize.toNat % f.bytes =
      (f.outIdx.toNat * f.esize.toNat + f.used * f.esize.toNat) % f.bytes := by
  have hin : f.inIdx.toNat = (f.outIdx.toNat + f.used) % 2 ^ 32 := by
    rw [used, ← UInt32.toNat_add, UInt32.add_comm, UInt32.sub_add_cancel]
  rw [← Nat.add_mul, mod_bytes, mod_bytes, hin, Nat.mod_mod_of_dvd _ h.size_dvd]

theorem content_length : f.content.length = f.used * f.esize.toNat := by simp [content]

/-! In a fifo of bytes the elements are the bytes. -/

theorem mul_esize (he : f.esize = 1) (k : Nat) : k * f.esize.toNat = k := by rw [he, UInt32.toNat_one, Nat.mul_one]

theorem bytes_eq_size (he : f.esize = 1) : f.bytes = f.size := mul_esize he f.size

theorem content_length_bytes (he : f.esize = 1) : f.content.length = f.used :=
  content_length.trans (mul_esize he f.used)

/-- How the code takes the smaller of two lengths. -/
theorem toNat_clamp (n len : UInt32) : (if n < len then n else len).toNat = min len.toNat n.toNat := by
  split
  · rename_i hlt
    rw [UInt32.lt_iff_toNat_lt] at hlt
    omega
  · rename_i hlt
    rw [UInt32.lt_iff_toNat_lt] at hlt
    omega

section Init

variable {size esize : UInt32} {data : Nat → UInt8}

theorem initKfifo_used : (initKfifo size esize data).used = 0 := by simp [used, initKfifo]

theorem initKfifo_content : (initKfifo size esize data).content = [] := by
  rw [content, initKfifo_used, Nat.zero_mul, Ring.window_zero]

theorem initKfifo_size (esize : UInt32) (data : Nat → UInt8) (h : 0 < size.toNat) :
    (initKfifo size esize data).size = size.toNat := by
  have := UInt32.toNat_lt size
  simp only [Kfifo.size, initKfifo, UInt32.toNat_sub, UInt32.toNat_one]
  omega

theorem initKfifo_ok {k : Nat} (hk : 1 ≤ k) (hk' : k ≤ 31) (hs : size.toNat = 2 ^ k) (he : 0 < esize.toNat)
    (hf : size.toNat * esize.toNat < 2 ^ 32) : (initKfifo size esize data).Ok := by
  have hsize := initKfifo_size esize data (hs ▸ Nat.two_pow_pos k)
  refine ⟨⟨k, hk, hk', hsize.trans hs⟩, he, ?_, ?_⟩
  · rw [bytes, hsize]
    exact hf
  · rw [initKfifo_used]
    exact Nat.zero_le _

end Init

/-! ## Space and occupancy -/

theorem Ok.toNat_unused (h : f.Ok) : f.kfifoUnused.toNat = f.size - f.used := by
  have hb : (f.inIdx - f.outIdx).toNat ≤ f.size := h.bounded
  have hs := h.size_le
  rw [kfifoUnused, UInt32.toNat_sub, h.toNat_size, used]
  omega

theorem Ok.toNat_inLen (h : f.Ok) (len : UInt32) : (f.inLen len).toNat = min len.toNat (f.size - f.used) := by
  have hu := h.toNat_unused
  simp only [inLen, UInt32.lt_iff_toNat_lt]
  split <;> omega

theorem toNat_outLen (len : UInt32) : (f.outLen len).toNat = min len.toNat f.used := by
  simp only [outLen, UInt32.lt_iff_toNat_lt, used]
  split <;> omega

theorem Ok.inLen_le (h : f.Ok) (len : UInt32) : f.used + (f.inLen len).toNat ≤ f.size := by
  have hn := h.toNat_inLen len
  have hb := h.bounded
  omega

theorem inLen_le_len (len : UInt32) : (f.inLen len).toNat ≤ len.toNat := by
  simp only [inLen, UInt32.lt_iff_toNat_lt]
  split <;> omega

theorem outLen_le (len : UInt32) : (f.outLen len).toNat ≤ f.used := by
  rw [toNat_outLen]
  exact Nat.min_le_right _ _

theorem outLen_le_len (len : UInt32) : (f.outLen len).toNat ≤ len.toNat := by
  rw [toNat_outLen]
  exact Nat.min_le_left _ _

theorem isEmpty_iff : f.kfifoIsEmpty = true ↔ f.used = 0 := by
  have := UInt32.toNat_lt f.inIdx
  have := UInt32.toNat_lt f.outIdx
  simp only [kfifoIsEmpty, used, beq_iff_eq, UInt32.toNat_sub]
  rw [← UInt32.toNat_inj]
  omega

theorem Ok.isFull_iff (h : f.Ok) : f.kfifoIsFull = true ↔ f.used = f.size := by
  have hb := h.bounded
  simp only [kfifoIsFull, decide_eq_true_eq, UInt32.lt_iff_toNat_lt, kfifoLen]
  unfold used size at *
  omega

/-! ## Publishing an index -/

theorem Ok.used_publishIn (h : f.Ok) {len : UInt32} (hl : f.used + len.toNat ≤ f.size) :
    (f.publishIn len).used = f.used + len.toNat := by
  have hs := h.size_le
  have := UInt32.toNat_lt f.outIdx
  simp only [used, publishIn, UInt32.toNat_sub, UInt32.toNat_add] at *
  omega

theorem used_publishOut {len : UInt32} (hl : len.toNat ≤ f.used) :
    (f.publishOut len).used = f.used - len.toNat := by
  have := UInt32.toNat_lt f.inIdx
  have := UInt32.toNat_lt f.outIdx
  simp only [used, publishOut, UInt32.toNat_sub, UInt32.toNat_add] at *
  omega

theorem Ok.publishIn (h : f.Ok) {len : UInt32} (hl : f.used + len.toNat ≤ f.size) :
    (f.publishIn len).Ok :=
  { h with bounded := by rw [h.used_publishIn hl]; exact hl }

theorem Ok.publishOut (h : f.Ok) {len : UInt32} (hl : len.toNat ≤ f.used) :
    (f.publishOut len).Ok :=
  { h with bounded := by rw [used_publishOut hl]; exact Nat.le_trans (Nat.sub_le _ _) h.bounded }

/-- Publishing `in` queues the bytes behind. -/
theorem Ok.content_publishIn (h : f.Ok) {len : UInt32} (hl : f.used + len.toNat ≤ f.size) :
    (f.publishIn len).content = f.content ++ f.behind len := by
  rw [content, h.used_publishIn hl, Nat.add_mul, Ring.window_add]
  congr 1
  exact (Ring.window_start h.in_eq f.data _).symm

/-- Publishing `out` takes the oldest bytes off. -/
theorem Ok.content_publishOut (h : f.Ok) {len : UInt32} (hl : len.toNat ≤ f.used) :
    (f.publishOut len).content = f.content.drop (len.toNat * f.esize.toNat) := by
  rw [content, used_publishOut hl, content, Ring.window_drop (Nat.mul_le_mul_right _ hl),
    ← Nat.sub_mul]
  refine Ring.window_start ?_ f.data _
  -- The index itself wraps at 2 ^ 32, a multiple of the number of elements.
  change (f.outIdx + len).toNat * f.esize.toNat % f.bytes = (_ + _) % f.bytes
  rw [← Nat.add_mul, mod_bytes, mod_bytes, UInt32.toNat_add, Nat.mod_mod_of_dvd _ h.size_dvd]

/-! ## Copying -/

theorem toNat_min (a b : UInt32) : (min a b).toNat = min a.toNat b.toNat := by
  change (if a ≤ b then a else b).toNat = _
  simp only [UInt32.le_iff_toNat_le]
  split <;> omega

/-- No product of `span` overflows when `len` elements fit the data area. -/
theorem Ok.span_eq (h : f.Ok) {len : UInt32} (hl : len.toNat ≤ f.size) (off : UInt32) :
    (f.span len off).off.toNat = off.toNat % f.size * f.esize.toNat ∧
    (f.span len off).len.toNat = len.toNat * f.esize.toNat ∧
    (f.span len off).l.toNat =
      min (len.toNat * f.esize.toNat) (f.bytes - off.toNat % f.size * f.esize.toNat) := by
  have hf := h.fits
  have hoff := h.offset_lt off
  have hlen : len.toNat * f.esize.toNat ≤ f.bytes := Nat.mul_le_mul_right _ hl
  have h₁ : ((off &&& f.mask) * f.esize).toNat = off.toNat % f.size * f.esize.toNat := by
    rw [UInt32.toNat_mul, h.toNat_and, Nat.mod_eq_of_lt (by omega)]
  have h₂ : (len * f.esize).toNat = len.toNat * f.esize.toNat := by
    rw [UInt32.toNat_mul, Nat.mod_eq_of_lt (by omega)]
  have h₃ : ((f.mask + 1) * f.esize).toNat = f.bytes := by
    rw [UInt32.toNat_mul, h.toNat_size, ← bytes, Nat.mod_eq_of_lt hf]
  have hspan : f.span len off = ⟨(off &&& f.mask) * f.esize, len * f.esize,
      min (len * f.esize) ((f.mask + 1) * f.esize - (off &&& f.mask) * f.esize)⟩ := by
    unfold span
    split
    · rfl
    · next he =>
      simp only [ne_eq, Decidable.not_not] at he
      simp only [he, UInt32.mul_one]
  refine ⟨by rw [hspan, h₁], by rw [hspan, h₂], ?_⟩
  rw [hspan]
  simp only
  rw [toNat_min, h₂, UInt32.toNat_sub, h₁, h₃]
  congr 1
  omega

theorem Ok.toNat_span_rest (h : f.Ok) {len : UInt32} (hl : len.toNat ≤ f.size) (off : UInt32) :
    ((f.span len off).len - (f.span len off).l).toNat =
      len.toNat * f.esize.toNat - (f.span len off).l.toNat := by
  obtain ⟨-, h₂, h₃⟩ := h.span_eq hl off
  have := UInt32.toNat_lt (f.span len off).len
  rw [UInt32.toNat_sub, h₂]
  omega

/-- The fifo with `src` written behind the queued bytes, around the end of
the data area. -/
def blitBehind (f : Kfifo) (src : List UInt8) : Kfifo :=
  let off := f.inIdx.toNat % f.size * f.esize.toNat
  { f with data := Ring.blitWrap f.data f.bytes off src }

/-- `kfifo_copy_in` is one copy around the end of the data area. -/
theorem Ok.copyIn_eq (h : f.Ok) {src : List UInt8} {len : UInt32} (hl : len.toNat ≤ f.size) :
    f.kfifoCopyIn src len f.inIdx = f.blitBehind (src.take (len.toNat * f.esize.toNat)) := by
  obtain ⟨h₁, -, h₃⟩ := h.span_eq hl f.inIdx
  simp only [kfifoCopyIn, h.toNat_span_rest hl, h₁, h₃, blitBehind, Ring.blitWrap, List.take_take,
    List.drop_take]
  congr 2
  · rw [Nat.min_comm]
  · rcases Nat.le_total (len.toNat * f.esize.toNat)
      (f.bytes - f.inIdx.toNat % f.size * f.esize.toNat) with hle | hle
    · rw [Nat.min_eq_left hle, Nat.sub_self, Nat.sub_eq_zero_of_le hle, List.take_zero, List.take_zero]
    · rw [Nat.min_eq_right hle]

/-- `kfifo_copy_out` is the window over `len` elements from `off`. -/
theorem Ok.copyOut_eq (h : f.Ok) {len off : UInt32} (hl : len.toNat ≤ f.size) :
    f.kfifoCopyOut len off =
      Ring.window f.data f.bytes (off.toNat * f.esize.toNat) (len.toNat * f.esize.toNat) := by
  obtain ⟨h₁, -, h₃⟩ := h.span_eq hl off
  rw [← Ring.window_mod, mod_bytes, Ring.window_eq_run (h.offset_lt off) (Nat.mul_le_mul_right _ hl)]
  simp only [kfifoCopyOut, h.toNat_span_rest hl, h₁, h₃]

/-- The oldest `len` elements are what `kfifo_copy_out` copies. -/
theorem Ok.copyOut_content (h : f.Ok) {len : UInt32} (hl : len.toNat ≤ f.used) :
    f.kfifoCopyOut len f.outIdx = f.content.take (len.toNat * f.esize.toNat) := by
  rw [h.copyOut_eq (Nat.le_trans hl h.bounded), content,
    Ring.window_take (Nat.mul_le_mul_right _ hl)]

/-- Bytes blitted behind the queue: the queue is as it was. -/
theorem Ok.content_blit (h : f.Ok) {src : List UInt8}
    (hl : f.used * f.esize.toNat + src.length ≤ f.bytes) :
    (f.blitBehind src).content = f.content := by
  simp only [content, blitBehind]
  rw [← mod_bytes, h.in_eq]
  exact Ring.window_blitWrap_behind h.bytes_pos hl

/-- Bytes blitted behind the queue are the bytes behind it. -/
theorem Ok.behind_blit (h : f.Ok) {src : List UInt8} {len : UInt32}
    (hsrc : src.length = len.toNat * f.esize.toNat) (hl : src.length ≤ f.bytes) :
    (f.blitBehind src).behind len = src := by
  change Ring.window _ f.bytes (f.inIdx.toNat * f.esize.toNat) (len.toNat * f.esize.toNat) = src
  rw [← Ring.window_mod, mod_bytes, ← hsrc]
  exact Ring.window_blitWrap_self (h.offset_lt f.inIdx) hl

section CopyIn

variable {len : UInt32} (src : List UInt8)

/-- `kfifo_copy_in` within the free space leaves the queued bytes alone. -/
theorem Ok.content_copyIn (h : f.Ok) (hl : f.used + len.toNat ≤ f.size) :
    (f.kfifoCopyIn src len f.inIdx).content = f.content := by
  rw [h.copyIn_eq (by omega)]
  refine h.content_blit ?_
  have : (f.used + len.toNat) * f.esize.toNat ≤ f.bytes := Nat.mul_le_mul_right _ hl
  rw [Nat.add_mul] at this
  simp only [List.length_take]
  omega

/-- … and puts the first `len` elements of `src` behind them. -/
theorem Ok.behind_copyIn {src : List UInt8} (h : f.Ok) (hl : f.used + len.toNat ≤ f.size)
    (hsrc : len.toNat * f.esize.toNat ≤ src.length) :
    (f.kfifoCopyIn src len f.inIdx).behind len = src.take (len.toNat * f.esize.toNat) := by
  have hb : len.toNat * f.esize.toNat ≤ f.bytes := Nat.mul_le_mul_right _ (by omega)
  have htake : (src.take (len.toNat * f.esize.toNat)).length = len.toNat * f.esize.toNat := by
    simp only [List.length_take]
    omega
  rw [h.copyIn_eq (by omega)]
  exact h.behind_blit htake (by omega)

theorem Ok.copyIn (h : f.Ok) : (f.kfifoCopyIn src len f.inIdx).Ok :=
  ⟨h.pow, h.esize_pos, h.fits, h.bounded⟩

end CopyIn

/-! ## One byte -/

theorem Ok.storeByte_eq (h : f.Ok) (he : f.esize = 1) (val : UInt8) :
    f.storeByte val = f.blitBehind [val] := by
  simp only [storeByte, blitBehind]
  rw [h.toNat_and, ← Ring.update_eq_blitWrap (h.offset_lt f.inIdx), he]
  simp

theorem Ok.content_storeByte (h : f.Ok) (he : f.esize = 1) (hl : f.used < f.size) (val : UInt8) :
    (f.storeByte val).content = f.content := by
  rw [h.storeByte_eq he]
  refine h.content_blit ?_
  have hone : f.esize.toNat = 1 := by rw [he]; rfl
  simp only [bytes, hone, Nat.mul_one, List.length_singleton]
  omega

theorem Ok.behind_storeByte (h : f.Ok) (he : f.esize = 1) (val : UInt8) :
    (f.storeByte val).behind 1 = [val] := by
  rw [h.storeByte_eq he]
  exact h.behind_blit (by simp [he]) h.bytes_pos

theorem Ok.storeByte (h : f.Ok) (val : UInt8) : (f.storeByte val).Ok :=
  ⟨h.pow, h.esize_pos, h.fits, h.bounded⟩

/-- The byte `kfifo_get` loads is the oldest queued. -/
theorem Ok.content_eq_cons (h : f.Ok) (he : f.esize = 1) (hu : f.used ≠ 0) :
    f.content = f.loadByte :: (f.publishOut 1).content := by
  obtain ⟨u, hu⟩ := Nat.exists_eq_succ_of_ne_zero hu
  have hone : (1 : UInt32).toNat ≤ f.used := by rw [UInt32.toNat_one]; omega
  rw [h.content_publishOut hone]
  simp only [content, he, UInt32.toNat_one, Nat.mul_one, hu, Nat.succ_eq_add_one, Ring.window_succ,
    List.drop_succ_cons, List.drop_zero, loadByte, h.toNat_and, bytes]

end Kfifo

end Lmsel4
