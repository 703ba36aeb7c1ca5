/-
A fifo of bytes in record mode (`__kfifo_in_r`, `__kfifo_out_r`): each
record is queued as its length, in one or two bytes, and its bytes.

What it is for (`Spec`) is a queue of records. Nothing keeps a length that
does not fit in its bytes from being queued, nor from wrapping when the
bytes of the length are added to it. Without such lengths the fifo is the
queue, for every sequence of calls and wherever the indices stand
(`records_refine`); with one, already the first record is lost or comes out
cut (`framed_of_allows`).
-/
import Lmsel4.Queue

namespace Lmsel4.Kfifo

/-! ## The calls -/

/-- `__kfifo_peek_n`. -/
def kfifoPeekN (f : Kfifo) (recsize : UInt32) : UInt32 :=
  let l := (f.data (f.outIdx &&& f.mask).toNat).toUInt32
  if recsize - 1 ≠ 0 then l ||| (f.data ((f.outIdx + 1) &&& f.mask).toNat).toUInt32 <<< 8 else l

/-- `__kfifo_poke_n`. -/
def kfifoPokeN (f : Kfifo) (n recsize : UInt32) : Kfifo :=
  let data := Function.update f.data (f.inIdx &&& f.mask).toNat n.toUInt8
  if 1 < recsize then
    { f with data := Function.update data ((f.inIdx + 1) &&& f.mask).toNat (n >>> 8).toUInt8 }
  else { f with data }

/-- `__kfifo_in_r`. -/
def kfifoInR (area : Nat) (recsize : UInt32) (f : Kfifo) (buf : List UInt8) (len : UInt32) :
    Option (Kfifo × Answer) :=
  if f.kfifoUnused < len + recsize then some (f, { ret := 0, buf := [] })
  else
    let f := f.kfifoPokeN len recsize
    if (f.span len (f.inIdx + recsize)).within area then
      some ((f.kfifoCopyIn buf len (f.inIdx + recsize)).publishIn (len + recsize), { ret := len, buf := [] })
    else none

/-- `__kfifo_out_r`, with `kfifo_out_copy_r`. -/
def kfifoOutR (area : Nat) (recsize : UInt32) (f : Kfifo) (len : UInt32) : Option (Kfifo × Answer) :=
  if f.inIdx = f.outIdx then some (f, { ret := 0, buf := [] })
  else
    let n := f.kfifoPeekN recsize
    let len := if n < len then n else len
    if (f.span len (f.outIdx + recsize)).within area then
      some (f.publishOut (n + recsize), { ret := len, buf := f.kfifoCopyOut len (f.outIdx + recsize) })
    else none

end Lmsel4.Kfifo

namespace Lmsel4.Records

open Kfifo (Answer)

inductive Op
  | inR (buf : List UInt8) (len : UInt32)
  | outR (len : UInt32)

def step (area : Nat) (recsize : UInt32) (f : Kfifo) : Op → Option (Kfifo × Answer)
  | .inR buf len => f.kfifoInR area recsize buf len
  | .outR len => f.kfifoOutR area recsize len

/-! ## What it is for -/

/-- The bytes `n` is written in, lowest first. -/
def header : Nat → Nat → List UInt8
  | 0, _ => []
  | r + 1, n => UInt8.ofNat n :: header r (n / 256)

/-- A record as it is queued. -/
def frame (recsize : Nat) (record : List UInt8) : List UInt8 := header recsize record.length ++ record

def frames (recsize : Nat) (records : List (List UInt8)) : List UInt8 := (records.map (frame recsize)).flatten

/-- The answers of a queue of records, of at most `N` bytes with their
lengths. -/
inductive Spec (N recsize : Nat) : List (List UInt8) → Op → Answer → List (List UInt8) → Prop
  | full {rs buf len} : N < (frames recsize rs).length + (recsize + len.toNat) →
    Spec N recsize rs (.inR buf len) { ret := 0, buf := [] } rs
  | append {rs buf len} : (frames recsize rs).length + (recsize + len.toNat) ≤ N →
    Spec N recsize rs (.inR buf len) { ret := len, buf := [] } (rs ++ [buf.take len.toNat])
  | empty {len} : Spec N recsize [] (.outR len) { ret := 0, buf := [] } []
  | remove {r rs len o} : o.ret.toNat = min len.toNat r.length → o.buf = r.take o.ret.toNat →
    Spec N recsize (r :: rs) (.outR len) o rs

/-- The caller's buffer has the bytes of the record, and their number fits
in the bytes of the length, or the record is refused without wrapping. -/
def Framed (recsize : UInt32) (f : Kfifo) : Op → Prop
  | .inR buf len => len.toNat ≤ buf.length ∧ (len.toNat < 256 ^ recsize.toNat ∨
      len.toNat + recsize.toNat < 2 ^ 32 ∧ f.kfifoUnused.toNat < len.toNat + recsize.toNat)
  | .outR _ => True

instance (recsize : UInt32) (f : Kfifo) : ∀ op, Decidable (Framed recsize f op)
  | .inR _ _ => inferInstanceAs (Decidable (_ ∧ _))
  | .outR _ => .isTrue trivial

/-- The fifo of `N` bytes holds the records. -/
structure Represents (N : Nat) (recsize : UInt32) (f : Kfifo) (records : List (List UInt8)) : Prop where
  ok : f.Ok
  esize : f.esize = 1
  size : f.size = N
  content : f.content = frames recsize.toNat records
  short : ∀ r ∈ records, r.length < 256 ^ recsize.toNat

/-! ## Frames -/

section Frames

theorem header_length (r n : Nat) : (header r n).length = r := by
  induction r generalizing n with
  | zero => rfl
  | succ r ih => rw [header, List.length_cons, ih]

theorem frame_length (recsize : Nat) (r : List UInt8) : (frame recsize r).length = recsize + r.length := by
  rw [frame, List.length_append, header_length]

theorem frames_nil (recsize : Nat) : frames recsize [] = [] := rfl

theorem frames_cons (recsize : Nat) (r : List UInt8) (rs : List (List UInt8)) :
    frames recsize (r :: rs) = frame recsize r ++ frames recsize rs := rfl

theorem frames_concat (recsize : Nat) (r : List UInt8) (rs : List (List UInt8)) :
    frames recsize (rs ++ [r]) = frames recsize rs ++ frame recsize r := by
  simp [frames]

end Frames

/-! ## A fifo of bytes -/

section Bytes

variable {f : Kfifo} {v : UInt8} {bs : List UInt8}

/-- `f'` is `f` with some bytes more in the queue. -/
structure Grown (f : Kfifo) (bs : List UInt8) (f' : Kfifo) : Prop where
  ok : f'.Ok
  esize : f'.esize = 1
  size : f'.size = f.size
  content : f'.content = f.content ++ bs

theorem Grown.trans {f' f'' : Kfifo} {bs' : List UInt8} (h : Grown f bs f') (h' : Grown f' bs' f'') :
    Grown f (bs ++ bs') f'' :=
  ⟨h'.ok, h'.esize, h'.size.trans h.size, by rw [h'.content, h.content, List.append_assoc]⟩

theorem Grown.used {f' : Kfifo} (h : Grown f bs f') (he : f.esize = 1) : f'.used = f.used + bs.length := by
  rw [← Kfifo.content_length_bytes h.esize, h.content, List.length_append, Kfifo.content_length_bytes he]

/-- A byte is stored and published. -/
theorem grown_byte (h : f.Ok) (he : f.esize = 1) (hl : f.used < f.size) (v : UInt8) :
    Grown f [v] ((f.storeByte v).publishIn 1) := by
  have hok := h.storeByte v
  have hroom : (f.storeByte v).used + (1 : UInt32).toNat ≤ (f.storeByte v).size := hl
  refine ⟨hok.publishIn hroom, he, rfl, ?_⟩
  rw [hok.content_publishIn hroom, h.content_storeByte he hl, h.behind_storeByte he]

/-- Some bytes are copied in and published. -/
theorem grown_copy (h : f.Ok) (he : f.esize = 1) {buf : List UInt8} {len : UInt32}
    (hl : f.used + len.toNat ≤ f.size) (hbuf : len.toNat ≤ buf.length) :
    Grown f (buf.take len.toNat) ((f.kfifoCopyIn buf len f.inIdx).publishIn len) := by
  have hok : (f.kfifoCopyIn buf len f.inIdx).Ok := h.copyIn buf
  have hone := Kfifo.mul_esize he len.toNat
  have hroom : (f.kfifoCopyIn buf len f.inIdx).used + len.toNat ≤ (f.kfifoCopyIn buf len f.inIdx).size := hl
  refine ⟨hok.publishIn hroom, he, rfl, ?_⟩
  rw [hok.content_publishIn hroom, h.content_copyIn _ hl, h.behind_copyIn hl (by rw [hone]; exact hbuf), hone]

/-- Bytes are taken off in front. -/
theorem shrunk (h : f.Ok) (he : f.esize = 1) {n : UInt32} (hn : n.toNat ≤ f.used) :
    (f.publishOut n).Ok ∧ (f.publishOut n).content = f.content.drop n.toNat := by
  refine ⟨h.publishOut hn, ?_⟩
  rw [h.content_publishOut hn, Kfifo.mul_esize he]

end Bytes

/-! ## The length of a record -/

section Header

variable {f : Kfifo} {n recsize : UInt32}

theorem pokeN_frame (f : Kfifo) (n recsize : UInt32) :
    f.kfifoPokeN n recsize = { f with data := (f.kfifoPokeN n recsize).data } := by
  unfold Kfifo.kfifoPokeN
  split <;> rfl

/-- `__kfifo_poke_n` writes the length behind the queue. -/
theorem grown_pokeN (h : f.Ok) (he : f.esize = 1) (hr : recsize = 1 ∨ recsize = 2)
    (hl : f.used + recsize.toNat ≤ f.size) :
    Grown f (header recsize.toNat n.toNat) ((f.kfifoPokeN n recsize).publishIn recsize) := by
  have hlow : n.toUInt8 = UInt8.ofNat n.toNat := rfl
  rcases hr with rfl | rfl
  · exact grown_byte h he hl n.toUInt8
  · have hhigh : (n >>> 8).toUInt8 = UInt8.ofNat (n.toNat / 256) :=
      congrArg UInt8.ofNat ((UInt32.toNat_shiftRight n 8).trans (Nat.shiftRight_eq_div_pow n.toNat 8))
    have hfirst := grown_byte h he (by rw [show (2 : UInt32).toNat = 2 from rfl] at hl; omega) n.toUInt8
    have hsecond := grown_byte hfirst.ok hfirst.esize
      (by rw [hfirst.used he, hfirst.size, List.length_singleton]; exact hl) (n >>> 8).toUInt8
    have hpoke : (f.kfifoPokeN n 2).publishIn 2 =
        (((f.storeByte n.toUInt8).publishIn 1).storeByte (n >>> 8).toUInt8).publishIn 1 := by
      have htwo : f.inIdx + 2 = f.inIdx + 1 + 1 := (UInt32.add_assoc f.inIdx 1 1).symm
      simp only [Kfifo.kfifoPokeN, if_pos (show (1 : UInt32) < 2 by decide), Kfifo.publishIn, Kfifo.storeByte, htwo]
    have hboth := hfirst.trans hsecond
    rw [← hpoke, hlow, hhigh] at hboth
    exact hboth

/-- `__kfifo_peek_n` reads as much of the length of the oldest record as has
been written. -/
theorem peekN_eq (h : f.Ok) (he : f.esize = 1) (hr : recsize = 1 ∨ recsize = 2) {r rest : List UInt8}
    (hc : f.content = frame recsize.toNat r ++ rest) :
    (f.kfifoPeekN recsize).toNat = r.length % 256 ^ recsize.toNat := by
  have hused : f.used = recsize.toNat + r.length + rest.length := by
    rw [← Kfifo.content_length_bytes he, hc, List.length_append, frame_length]
  rcases hr with rfl | rfl
  · rw [UInt32.toNat_one] at hused ⊢
    rw [h.content_eq_cons he (by omega)] at hc
    obtain ⟨hbyte, -⟩ := List.cons.inj hc
    show f.loadByte.toUInt32.toNat = r.length % 256 ^ 1
    rw [UInt8.toNat_toUInt32, hbyte, UInt8.toNat_ofNat']
    rfl
  · rw [show (2 : UInt32).toNat = 2 from rfl] at hused ⊢
    obtain ⟨hok, -⟩ := shrunk h he (n := 1) (by rw [UInt32.toNat_one]; omega)
    have hused' := Kfifo.used_publishOut (f := f) (show (1 : UInt32).toNat ≤ f.used by rw [UInt32.toNat_one]; omega)
    rw [UInt32.toNat_one] at hused'
    rw [h.content_eq_cons he (by omega), hok.content_eq_cons he (by omega)] at hc
    obtain ⟨hlow, hc⟩ := List.cons.inj hc
    obtain ⟨hhigh, -⟩ := List.cons.inj hc
    show (f.loadByte.toUInt32 ||| (f.publishOut 1).loadByte.toUInt32 <<< 8).toNat = r.length % 256 ^ 2
    rw [UInt32.toNat_or, UInt32.toNat_shiftLeft, UInt8.toNat_toUInt32, UInt8.toNat_toUInt32, hlow, hhigh,
      UInt8.toNat_ofNat', UInt8.toNat_ofNat']
    have hshift : (r.length / 256 % 2 ^ 8) <<< 8 % 2 ^ 32 = r.length / 256 % 2 ^ 8 * 2 ^ 8 := by
      rw [Nat.shiftLeft_eq]
      omega
    show r.length % 2 ^ 8 ||| (r.length / 256 % 2 ^ 8) <<< 8 % 2 ^ 32 = r.length % 256 ^ 2
    rw [hshift, Nat.or_comm, ← Nat.shiftLeft_eq, ← Nat.shiftLeft_add_eq_or_of_lt (Nat.mod_lt _ (by decide)),
      Nat.shiftLeft_eq]
    omega

end Header

/-! ## The fifo is the queue -/

section Refinement

variable {N : Nat} {recsize len : UInt32} {f : Kfifo} {rs : List (List UInt8)} {buf : List UInt8}

theorem recsize_bound (hr : recsize = 1 ∨ recsize = 2) :
    0 < recsize.toNat ∧ recsize.toNat ≤ 2 ∧ 256 ^ recsize.toNat ≤ 2 ^ 16 := by
  rcases hr with rfl | rfl <;> decide

theorem Represents.used (h : Represents N recsize f rs) : f.used = (frames recsize.toNat rs).length := by
  rw [← Kfifo.content_length_bytes h.esize, h.content]

theorem toNat_framed (hlen : len.toNat + recsize.toNat < 2 ^ 32) :
    (len + recsize).toNat = len.toNat + recsize.toNat := by
  rw [UInt32.toNat_add, Nat.mod_eq_of_lt hlen]

/-- A record there is room for is queued behind its length, as if the length
had been published before. -/
theorem inR_grown (h : f.Ok) (he : f.esize = 1) (hr : recsize = 1 ∨ recsize = 2)
    (hroom : f.used + (recsize.toNat + len.toNat) ≤ f.size) (hbuf : len.toNat ≤ buf.length) :
    ∃ f', f.kfifoInR f.size recsize buf len = some (f', { ret := len, buf := [] }) ∧
      Grown f (frame recsize.toNat (buf.take len.toNat)) f' := by
  have hsize := h.size_le
  have hunused := h.toNat_unused
  have hnot : ¬ f.kfifoUnused < len + recsize := by
    rw [UInt32.lt_iff_toNat_lt, toNat_framed (by omega)]
    omega
  have hadd : f.inIdx + (len + recsize) = f.inIdx + recsize + len := by
    rw [UInt32.add_comm len, UInt32.add_assoc]
  have hwithin := h.within (show len.toNat ≤ f.size by omega) (f.inIdx + recsize)
  rw [Kfifo.bytes_eq_size he] at hwithin
  have hhead := grown_pokeN (n := len) h he hr (by omega)
  have hused : ((f.kfifoPokeN len recsize).publishIn recsize).used + len.toNat ≤
      ((f.kfifoPokeN len recsize).publishIn recsize).size := by
    rw [hhead.used he, hhead.size, header_length]
    omega
  have hbody := grown_copy hhead.ok hhead.esize hused hbuf
  have htake : (buf.take len.toNat).length = len.toNat := by rw [List.length_take, Nat.min_eq_left hbuf]
  refine ⟨_, ?_, by rw [frame, htake]; exact hhead.trans hbody⟩
  rw [Kfifo.kfifoInR, if_neg hnot, pokeN_frame]
  refine (if_pos hwithin).trans ?_
  simp only [Kfifo.kfifoCopyIn, Kfifo.publishIn, hadd]
  rfl

theorem inR_represents (h : Represents N recsize f rs) (hr : recsize = 1 ∨ recsize = 2)
    (hop : Framed recsize f (.inR buf len)) :
    ∃ f' o rs', f.kfifoInR N recsize buf len = some (f', o) ∧ Spec N recsize.toNat rs (.inR buf len) o rs' ∧
      Represents N recsize f' rs' := by
  have hunused := h.ok.toNat_unused
  have hused := h.used
  obtain ⟨hok, he, rfl, hcontent, hshort⟩ := h
  obtain ⟨hbuf, hlen⟩ := hop
  by_cases hfull : f.size < (frames recsize.toNat rs).length + (recsize.toNat + len.toNat)
  · have hbound := recsize_bound hr
    refine ⟨f, _, rs, if_pos ?_, .full hfull, hok, he, rfl, hcontent, hshort⟩
    rw [UInt32.lt_iff_toNat_lt, toNat_framed (by omega)]
    omega
  · obtain ⟨f', hin, hgrown⟩ := inR_grown hok he hr (by omega) hbuf
    have htake : (buf.take len.toNat).length = len.toNat := by rw [List.length_take, Nat.min_eq_left hbuf]
    refine ⟨f', _, _, hin, .append (Nat.le_of_not_lt hfull), hgrown.ok, hgrown.esize, hgrown.size, ?_, ?_⟩
    · rw [hgrown.content, hcontent, frames_concat]
    · intro r hmem
      rcases List.mem_append.mp hmem with hmem | hmem
      · exact hshort r hmem
      · rw [List.mem_singleton.mp hmem, htake]
        omega

/-- What is behind the length is the record. -/
theorem copyOut_record (h : f.Ok) (he : f.esize = 1) {r rest : List UInt8}
    (hc : f.content = frame recsize.toNat r ++ rest) {n : UInt32} (hn : n.toNat ≤ r.length) :
    f.kfifoCopyOut n (f.outIdx + recsize) = r.take n.toNat := by
  have hused : f.used = recsize.toNat + r.length + rest.length := by
    rw [← Kfifo.content_length_bytes he, hc, List.length_append, frame_length]
  obtain ⟨hok, hcontent⟩ := shrunk h he (n := recsize) (by omega)
  have hused' := Kfifo.used_publishOut (show recsize.toNat ≤ f.used by omega)
  have hcopy := hok.copyOut_content (show n.toNat ≤ (f.publishOut recsize).used by omega)
  refine hcopy.trans ?_
  rw [hcontent, hc, frame, List.append_assoc, List.drop_left' (header_length _ _)]
  show List.take (n.toNat * f.esize.toNat) (r ++ rest) = r.take n.toNat
  rw [Kfifo.mul_esize he, List.take_append_of_le_length hn]

theorem outR_represents (h : Represents N recsize f rs) (hr : recsize = 1 ∨ recsize = 2) (len : UInt32) :
    ∃ f' o rs', f.kfifoOutR N recsize len = some (f', o) ∧ Spec N recsize.toNat rs (.outR len) o rs' ∧
      Represents N recsize f' rs' := by
  have hused := h.used
  cases rs with
  | nil =>
    have hempty : f.inIdx = f.outIdx := beq_iff_eq.mp (Kfifo.isEmpty_iff.mpr hused)
    exact ⟨f, _, [], if_pos hempty, .empty, h⟩
  | cons r rs =>
    have hlen : r.length < 256 ^ recsize.toNat := h.short r List.mem_cons_self
    have hbound := recsize_bound hr
    rw [frames_cons, List.length_append, frame_length] at hused
    have hne : ¬ f.inIdx = f.outIdx := by
      intro heq
      have hzero := Kfifo.isEmpty_iff.mp (beq_iff_eq.mpr heq)
      omega
    have hpeek := peekN_eq h.ok h.esize hr h.content
    rw [Nat.mod_eq_of_lt hlen] at hpeek
    have hmin := Kfifo.toNat_clamp (f.kfifoPeekN recsize) len
    rw [hpeek] at hmin
    have hle : (if f.kfifoPeekN recsize < len then f.kfifoPeekN recsize else len).toNat ≤ f.size := by
      have hb := h.ok.bounded
      omega
    have hwithin := h.ok.within hle (f.outIdx + recsize)
    have hout : (f.kfifoPeekN recsize + recsize).toNat = (frame recsize.toNat r).length := by
      rw [UInt32.toNat_add, hpeek, frame_length]
      omega
    obtain ⟨hok, hcontent⟩ := shrunk h.ok h.esize (n := f.kfifoPeekN recsize + recsize)
      (by rw [hout, frame_length]; omega)
    rw [Kfifo.bytes_eq_size h.esize, h.size] at hwithin
    refine ⟨f.publishOut (f.kfifoPeekN recsize + recsize), _, rs, (if_neg hne).trans (if_pos hwithin), .remove hmin ?_,
      hok, h.esize, h.size, ?_, fun r' hmem => h.short r' (List.mem_cons_of_mem r hmem)⟩
    · exact copyOut_record h.ok h.esize h.content (by omega)
    · rw [hcontent, h.content, hout]
      exact List.drop_left

theorem records_step_represents (hr : recsize = 1 ∨ recsize = 2) {op : Op} (h : Represents N recsize f rs)
    (hop : Framed recsize f op) :
    ∃ f' o rs', step N recsize f op = some (f', o) ∧ Spec N recsize.toNat rs op o rs' ∧
      Represents N recsize f' rs' := by
  cases op with
  | inR buf len => exact inR_represents h hr hop
  | outR len => exact outR_represents h hr len

end Refinement

/-! ## A fifo of one byte

It is empty or holds a record of no bytes. -/

section OneByte

variable {recsize : UInt32} {f : Kfifo} {rs : List (List UInt8)}

/-- The fifo of one byte holds the records. -/
inductive OneByte (recsize : UInt32) (f : Kfifo) : List (List UInt8) → Prop
  | empty : f.mask = 0 → f.esize = 1 → f.inIdx = f.outIdx → OneByte recsize f []
  | full : f.mask = 0 → f.esize = 1 → recsize = 1 → f.inIdx = f.outIdx + 1 → f.data 0 = 0 → OneByte recsize f [[]]

theorem span_none (hmask : f.mask = 0) (he : f.esize = 1) (off : UInt32) : f.span 0 off = ⟨0, 0, 0⟩ := by
  rw [Kfifo.span, if_neg (not_not_intro he), hmask, UInt32.and_zero]
  rfl

theorem copyIn_none (hmask : f.mask = 0) (he : f.esize = 1) (buf : List UInt8) (off : UInt32) :
    f.kfifoCopyIn buf 0 off = f := by
  simp [Kfifo.kfifoCopyIn, span_none hmask he, Ring.blit_nil]

theorem oneByte_inR (hr : recsize = 1 ∨ recsize = 2) {buf : List UInt8} {len : UInt32} (h : OneByte recsize f rs)
    (hop : Framed recsize f (.inR buf len)) :
    ∃ f' o rs', f.kfifoInR 1 recsize buf len = some (f', o) ∧ Spec 1 recsize.toNat rs (.inR buf len) o rs' ∧
      OneByte recsize f' rs' := by
  have hbound := recsize_bound hr
  have hlen := hop.2
  have hnowrap : (len + recsize).toNat = len.toNat + recsize.toNat := toNat_framed (by omega)
  cases h with
  | empty hmask he heq =>
    have hunused : f.kfifoUnused = 1 := by
      rw [Kfifo.kfifoUnused, hmask, heq, UInt32.sub_self]
      rfl
    by_cases hfull : 1 < len + recsize
    · refine ⟨f, _, [], if_pos (hunused ▸ hfull), .full ?_, .empty hmask he heq⟩
      rw [UInt32.lt_iff_toNat_lt, hnowrap, UInt32.toNat_one] at hfull
      rw [frames_nil, List.length_nil]
      omega
    · rw [UInt32.lt_iff_toNat_lt, hnowrap, UInt32.toNat_one] at hfull
      obtain rfl : len = 0 := UInt32.toNat_inj.mp (by rw [UInt32.toNat_zero]; omega)
      obtain rfl : recsize = 1 := UInt32.toNat_inj.mp (by rw [UInt32.toNat_one]; omega)
      have hmask' : (f.kfifoPokeN 0 1).mask = 0 := hmask
      have he' : (f.kfifoPokeN 0 1).esize = 1 := he
      refine ⟨(f.kfifoPokeN 0 1).publishIn 1, ⟨0, []⟩, [[]], ?_, .append (Nat.le_refl 1), .full hmask he rfl ?_ ?_⟩
      · rw [Kfifo.kfifoInR, hunused, if_neg (by decide)]
        dsimp only
        rw [span_none hmask' he', copyIn_none hmask' he']
        rfl
      · exact congrArg (· + 1) heq
      · show Function.update f.data (f.inIdx &&& f.mask).toNat _ 0 = 0
        rw [hmask, UInt32.and_zero]
        exact Function.update_self ..
  | full hmask he hone heq hzero =>
    have hunused : f.kfifoUnused = 0 := by
      rw [Kfifo.kfifoUnused, hmask, heq, UInt32.add_comm f.outIdx, UInt32.add_sub_cancel]
      rfl
    refine ⟨f, _, [[]], if_pos ?_, .full ?_, .full hmask he hone heq hzero⟩
    · rw [hunused, UInt32.lt_iff_toNat_lt, hnowrap, UInt32.toNat_zero]
      omega
    · rw [frames_cons, frames_nil, List.append_nil, frame_length]
      omega

theorem oneByte_outR (h : OneByte recsize f rs) (len : UInt32) :
    ∃ f' o rs', f.kfifoOutR 1 recsize len = some (f', o) ∧ Spec 1 recsize.toNat rs (.outR len) o rs' ∧
      OneByte recsize f' rs' := by
  cases h with
  | empty hmask he heq => exact ⟨f, _, [], if_pos heq, .empty, .empty hmask he heq⟩
  | full hmask he hone heq hzero =>
    subst hone
    have hne : ¬ f.inIdx = f.outIdx := by
      rw [heq]
      intro hsame
      exact absurd (UInt32.add_eq_left.mp hsame) (by decide)
    have hpeek : f.kfifoPeekN 1 = 0 := by
      show (f.data (f.outIdx &&& f.mask).toNat).toUInt32 = 0
      rw [hmask, UInt32.and_zero, UInt32.toNat_zero, hzero]
      rfl
    have hmin : (if (0 : UInt32) < len then 0 else len) = 0 :=
      UInt32.toNat_inj.mp ((Kfifo.toNat_clamp 0 len).trans (Nat.min_zero _))
    refine ⟨f.publishOut 1, ⟨0, []⟩, [], ?_, .remove (Nat.min_zero _).symm rfl, .empty hmask he heq⟩
    rw [Kfifo.kfifoOutR, if_neg hne, hpeek]
    dsimp only
    rw [hmin, span_none hmask he, Kfifo.kfifoCopyOut, span_none hmask he]
    rfl

theorem oneByte_step (hr : recsize = 1 ∨ recsize = 2) {op : Op} (h : OneByte recsize f rs)
    (hop : Framed recsize f op) :
    ∃ f' o rs', step 1 recsize f op = some (f', o) ∧ Spec 1 recsize.toNat rs op o rs' ∧ OneByte recsize f' rs' := by
  cases op with
  | inR buf len => exact oneByte_inR hr h hop
  | outR len => exact oneByte_outR h len

end OneByte

/-! ## Whole runs -/

section Runs

variable {k : Nat} {recsize : UInt32} {f : Kfifo}

/-- An empty fifo of bytes, its indices anywhere. -/
structure Fresh (k : Nat) (f : Kfifo) : Prop where
  size : f.size = 2 ^ k
  esize : f.esize = 1
  empty : f.inIdx = f.outIdx

theorem Fresh.used (h : Fresh k f) : f.used = 0 := Kfifo.isEmpty_iff.mp (beq_iff_eq.mpr h.empty)

theorem Fresh.toNat_unused (h : Fresh k f) (hk : k ≤ 31) : f.kfifoUnused.toNat = 2 ^ k := by
  have hle : 2 ^ k ≤ 2 ^ 31 := Nat.pow_le_pow_right (by decide) hk
  have hsize : f.mask.toNat + 1 = 2 ^ k := h.size
  rw [Kfifo.kfifoUnused, h.empty, UInt32.sub_self, UInt32.sub_zero, UInt32.toNat_add, UInt32.toNat_one]
  omega

theorem Fresh.ok (h : Fresh k f) (hk : 1 ≤ k) (hk' : k ≤ 31) : f.Ok := by
  refine ⟨⟨k, hk, hk', h.size⟩, by rw [h.esize]; decide, ?_, by rw [h.used]; exact Nat.zero_le _⟩
  have hle : 2 ^ k ≤ 2 ^ 31 := Nat.pow_le_pow_right (by decide) hk'
  rw [Kfifo.bytes, h.size, h.esize, UInt32.toNat_one]
  omega

theorem Fresh.content (h : Fresh k f) : f.content = [] :=
  List.eq_nil_of_length_eq_zero ((Kfifo.content_length_bytes h.esize).trans h.used)

theorem Fresh.represents (h : Fresh k f) (hk : 1 ≤ k) (hk' : k ≤ 31) : Represents (2 ^ k) recsize f [] :=
  ⟨h.ok hk hk', h.esize, h.size, h.content, fun _ hmem => (List.not_mem_nil hmem).elim⟩

theorem OneByte.content {rs : List (List UInt8)} (h : OneByte recsize f rs) :
    f.content = frames recsize.toNat rs ∧ f.used ≤ 1 := by
  cases h with
  | empty hmask he heq =>
    have hfresh : Fresh 0 f := ⟨congrArg (·.toNat + 1) hmask, he, heq⟩
    exact ⟨hfresh.content, by rw [hfresh.used]; decide⟩
  | full hmask he hone heq hzero =>
    have hused : f.used = 1 := by
      rw [Kfifo.used, heq, UInt32.add_comm, UInt32.add_sub_cancel]
      rfl
    have hbytes : f.bytes = 1 := by
      rw [Kfifo.bytes, Kfifo.size, hmask, he]
      rfl
    refine ⟨?_, Nat.le_of_eq hused⟩
    rw [Kfifo.content, hused, hbytes, he, hone]
    simp [Ring.window, Nat.mod_one, hzero, frames, frame, header]

/-- **A fifo in record mode is a queue of records.** Calls whose lengths can
be written are answered as the queue answers them, none of them leaving the
data area, and what is queued after them is the records with their lengths. -/
theorem records_refine (hk : k ≤ 31) (hr : recsize = 1 ∨ recsize = 2) (h : Fresh k f) {ops : List Op}
    (hops : Admits (step (2 ^ k) recsize) (Framed recsize) f ops) :
    ∃ f' os rs, answers (step (2 ^ k) recsize) f ops = some (f', os) ∧
      Allows (Spec (2 ^ k) recsize.toNat) [] ops os rs ∧
      f'.content = frames recsize.toNat rs ∧ f'.used ≤ 2 ^ k := by
  by_cases hzero : k = 0
  · subst hzero
    have hmask : f.mask = 0 := UInt32.toNat_inj.mp (Nat.succ.inj h.size)
    have hempty : OneByte recsize f [] := .empty hmask h.esize h.empty
    rw [Nat.pow_zero] at hops ⊢
    obtain ⟨f', os, rs, hrun, hall, hone⟩ := simulation (oneByte_step hr) hempty hops
    exact ⟨f', os, rs, hrun, hall, hone.content⟩
  · obtain ⟨f', os, rs, hrun, hall, hrep⟩ :=
      simulation (records_step_represents hr) (h.represents (Nat.pos_of_ne_zero hzero) hk) hops
    exact ⟨f', os, rs, hrun, hall, hrep.content, hrep.size ▸ hrep.ok.bounded⟩

/-- Eight bytes, with the indices about to wrap. -/
def wrapping : Kfifo := { Kfifo.initKfifo 8 1 (fun _ => 0) with inIdx := 0xfffffffe, outIdx := 0xfffffffe }

/-- The second record fits, the third does not. -/
def threeRecords : List Op := [.inR [1, 2, 3] 3, .inR [] 0, .inR [4] 1, .outR 2, .outR 5, .outR 5]

theorem records_refine_wrapping : ∃ f' os rs, answers (step (2 ^ 3) 2) wrapping threeRecords = some (f', os) ∧
    os = [⟨3, []⟩, ⟨0, []⟩, ⟨0, []⟩, ⟨2, [1, 2]⟩, ⟨0, []⟩, ⟨0, []⟩] ∧
    Allows (Spec (2 ^ 3) (2 : UInt32).toNat) [] threeRecords os rs ∧
    f'.content = frames (2 : UInt32).toNat rs ∧ f'.used ≤ 2 ^ 3 := by
  obtain ⟨f', os, rs, hrun, hall, hcontent, hused⟩ :=
    records_refine (by decide) (.inr rfl) (⟨rfl, rfl, rfl⟩ : Fresh 3 wrapping)
      (show Admits (step (2 ^ 3) 2) (Framed 2) wrapping threeRecords by decide)
  refine ⟨f', os, rs, hrun, ?_, hall, hcontent, hused⟩
  cases hrun
  rfl

/-- `__kfifo_out_r` returns no more than it reads as the length. -/
theorem outR_ret_le {area : Nat} {len : UInt32} {f' : Kfifo} {o : Answer}
    (hout : f.kfifoOutR area recsize len = some (f', o)) : o.ret.toNat ≤ (f.kfifoPeekN recsize).toNat := by
  by_cases hempty : f.inIdx = f.outIdx
  · rw [Kfifo.kfifoOutR, if_pos hempty] at hout
    cases hout
    exact Nat.zero_le _
  · rw [Kfifo.kfifoOutR, if_neg hempty] at hout
    obtain ⟨-, hout⟩ := Option.ite_none_right_eq_some.mp hout
    cases hout
    dsimp only
    rw [Kfifo.toNat_clamp]
    exact Nat.min_le_right _ _

theorem inR_ret {area : Nat} {buf : List UInt8} {len : UInt32} {f' : Kfifo} {o : Answer}
    (hroom : ¬ f.kfifoUnused < len + recsize) (hin : f.kfifoInR area recsize buf len = some (f', o)) :
    o.ret = len := by
  rw [Kfifo.kfifoInR, if_neg hroom] at hin
  obtain ⟨-, hin⟩ := Option.ite_none_right_eq_some.mp hin
  cases hin
  rfl

section Needed

variable {buf : List UInt8} {len : UInt32} {f' : Kfifo} {o o' : Answer}

/-- A record that the fifo refuses because it has no room. -/
theorem framed_of_refused (hk : k ≤ 31) (hr : recsize = 1 ∨ recsize = 2) (h : Fresh k f)
    (hbuf : len.toNat ≤ buf.length) (hfull : 2 ^ k < recsize.toNat + len.toNat)
    (hroom : f.kfifoUnused < len + recsize) : Framed recsize f (.inR buf len) := by
  have hunused := h.toNat_unused hk
  have hbound := recsize_bound hr
  have hpow := Nat.two_pow_pos k
  have hlen := len.toNat_lt
  rw [UInt32.lt_iff_toNat_lt, hunused, UInt32.toNat_add] at hroom
  exact ⟨hbuf, .inr (by rw [hunused]; omega)⟩

/-- A record that is queued and comes out whole has a length that can be
written. -/
theorem short_of_whole (hk : k ≤ 31) (hr : recsize = 1 ∨ recsize = 2) (h : Fresh k f) (hbuf : len.toNat ≤ buf.length)
    (hfits : recsize.toNat + len.toNat ≤ 2 ^ k) {g : Kfifo}
    (hin : f.kfifoInR (2 ^ k) recsize buf len = some (g, o))
    (hout : g.kfifoOutR (2 ^ k) recsize len = some (f', o')) (hwhole : o'.ret.toNat = len.toNat) :
    len.toNat < 256 ^ recsize.toNat := by
  have hbound := recsize_bound hr
  have hpos : 0 < 256 ^ recsize.toNat := Nat.pow_pos (by decide)
  by_cases hzero : k = 0
  · subst hzero
    rw [Nat.pow_zero] at hfits
    omega
  · have hok := h.ok (Nat.pos_of_ne_zero hzero) hk
    obtain ⟨g', hin', hgrown⟩ := inR_grown hok h.esize hr (by rw [h.used, h.size]; omega) hbuf
    rw [h.size] at hin'
    cases hin'.symm.trans hin
    have hcontent := hgrown.content
    rw [h.content] at hcontent
    have hpeek := peekN_eq hgrown.ok hgrown.esize hr (hcontent.trans (List.append_nil _).symm)
    have hmod := Nat.mod_lt (buf.take len.toNat).length hpos
    have hle := outR_ret_le hout
    omega

/-- The condition on the lengths is needed: a record that does not meet it
when it is queued first is lost or comes out cut. -/
theorem framed_of_allows (hk : k ≤ 31) (hr : recsize = 1 ∨ recsize = 2) (h : Fresh k f) (hbuf : len.toNat ≤ buf.length)
    {os : List Answer} {rs : List (List UInt8)}
    (hrun : answers (step (2 ^ k) recsize) f [.inR buf len, .outR len] = some (f', os))
    (hall : Allows (Spec (2 ^ k) recsize.toNat) [] [.inR buf len, .outR len] os rs) :
    Framed recsize f (.inR buf len) := by
  obtain ⟨⟨g, o⟩, hin, hrun⟩ := Option.bind_eq_some_iff.mp hrun
  obtain ⟨⟨g', os'⟩, hrun, heq⟩ := Option.map_eq_some_iff.mp hrun
  obtain ⟨⟨g'', o'⟩, hout, hrun⟩ := Option.bind_eq_some_iff.mp hrun
  cases hrun
  cases heq
  by_cases hshort : len.toNat < 256 ^ recsize.toNat
  · exact ⟨hbuf, .inl hshort⟩
  cases hall with
  | cons hspec hall =>
    cases hall with
    | cons hspec' _ =>
      cases hspec with
      | full hfull =>
        rw [frames_nil, List.length_nil, Nat.zero_add] at hfull
        refine framed_of_refused hk hr h hbuf hfull ?_
        by_contra hroom
        rw [← inR_ret hroom hin] at hshort
        exact hshort (Nat.pow_pos (by decide))
      | append hfits =>
        rw [frames_nil, List.length_nil, Nat.zero_add] at hfits
        cases hspec' with
        | remove hret _ =>
          rw [List.length_take, Nat.min_eq_left hbuf, Nat.min_self] at hret
          exact absurd (short_of_whole hk hr h hbuf hfits hin hout hret) hshort

end Needed

/-- A record of 256 bytes, whose length is written as 0. -/
def longRecord : List Op := [.inR (List.replicate 256 7) 256, .outR 256]

theorem not_records_longRecord : ∃ f os,
    answers (step (2 ^ 9) 1) (Kfifo.initKfifo 512 1 fun _ => 0) longRecord = some (f, os) ∧
      os = [⟨256, []⟩, ⟨0, []⟩] ∧ ¬ ∃ rs, Allows (Spec (2 ^ 9) (1 : UInt32).toNat) [] longRecord os rs := by
  have hbuf : (256 : UInt32).toNat ≤ (List.replicate 256 (7 : UInt8)).length := by
    rw [List.length_replicate]
    decide
  have hfresh : Fresh 9 (Kfifo.initKfifo 512 1 fun _ => 0) := ⟨rfl, rfl, rfl⟩
  have hrun : ∃ f, answers (step (2 ^ 9) 1) (Kfifo.initKfifo 512 1 fun _ => 0) longRecord =
      some (f, [⟨256, []⟩, ⟨0, []⟩]) := ⟨_, rfl⟩
  obtain ⟨f, hrun⟩ := hrun
  refine ⟨f, _, hrun, rfl, ?_⟩
  intro ⟨rs, hall⟩
  obtain ⟨-, hlen⟩ := framed_of_allows (by decide) (.inl rfl) hfresh hbuf hrun hall
  revert hlen
  decide

end Runs

end Lmsel4.Records
