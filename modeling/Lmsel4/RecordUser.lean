/-
Record mode with a user's buffer (`__kfifo_from_user_r`,
`__kfifo_to_user_r`), and the calls that look at or skip a record.

`__kfifo_from_user_r` cuts a record to the longest its length can say before
it queues it, so unlike `__kfifo_in_r` it needs no condition on the length;
and a copy that stops queues nothing, though the length and some bytes have
been written behind the queue by then. The calls that read or skip a record
without looking whether there is one need one. With that the fifo is the
queue of records, for all these calls in any order (`records_user_refine`).
-/
import Lmsel4.Records
import Lmsel4.UserCopy

namespace Lmsel4.Kfifo

variable {U : Type}

/-! ## The calls -/

/-- `__kfifo_max_r`. -/
def kfifoMaxR (len recsize : UInt32) : UInt32 :=
  let max := ((1 : UInt32) <<< (recsize <<< 3)) - 1
  if max < len then max else len

/-- `__kfifo_len_r`. -/
def kfifoLenR (f : Kfifo) (recsize : UInt32) : UInt32 := f.kfifoPeekN recsize

/-- `__kfifo_out_peek_r`. -/
def kfifoOutPeekR (area : Nat) (recsize : UInt32) (f : Kfifo) (len : UInt32) : Option (Kfifo × Answer) :=
  if f.inIdx = f.outIdx then some (f, { ret := 0, buf := [] })
  else
    let n := f.kfifoPeekN recsize
    let len := if n < len then n else len
    if (f.span len (f.outIdx + recsize)).within area then
      some (f, { ret := len, buf := f.kfifoCopyOut len (f.outIdx + recsize) })
    else none

/-- `__kfifo_skip_r`. -/
def kfifoSkipR (f : Kfifo) (recsize : UInt32) : Kfifo := f.publishOut (f.kfifoPeekN recsize + recsize)

/-- `__kfifo_from_user_r`. -/
def kfifoFromUserR (copy : UserCopy U) (area : Nat) (recsize : UInt32) (f : Kfifo) (u : U) (buf : List UInt8)
    (len : UInt32) : Option (Kfifo × UserAnswer) :=
  let len := kfifoMaxR len recsize
  if f.kfifoUnused < len + recsize then some (f, { err := 0, copied := 0, buf := [] })
  else
    let f := f.kfifoPokeN len recsize
    if (f.span len (f.inIdx + recsize)).within area then
      let (f, ret, copied) := f.kfifoCopyFromUser copy u buf len (f.inIdx + recsize)
      if ret ≠ 0 then some (f, { err := -efault, copied := 0, buf := [] })
      else some (f.publishIn (len + recsize), { err := 0, copied, buf := [] })
    else none

/-- `__kfifo_to_user_r`. -/
def kfifoToUserR (copy : UserCopy U) (area : Nat) (recsize : UInt32) (f : Kfifo) (u : U) (len : UInt32) :
    Option (Kfifo × UserAnswer) :=
  if f.inIdx = f.outIdx then some (f, { err := 0, copied := 0, buf := [] })
  else
    let n := f.kfifoPeekN recsize
    let len := if n < len then n else len
    if (f.span len (f.outIdx + recsize)).within area then
      let (buf, ret, copied) := f.kfifoCopyToUser copy u len (f.outIdx + recsize)
      if ret ≠ 0 then some (f, { err := -efault, copied := 0, buf })
      else some (f.publishOut (n + recsize), { err := 0, copied, buf })
    else none

end Lmsel4.Kfifo

namespace Lmsel4.RecordUser

open Kfifo (Answer UserAnswer)
open Records (frame frames header Represents Fresh)

variable {U : Type}

inductive Op (U : Type)
  | record (op : Records.Op)
  | fromUserR (u : U) (buf : List UInt8) (len : UInt32)
  | toUserR (u : U) (len : UInt32)
  | outPeekR (len : UInt32)
  | lenR
  | skipR

def step (copy : UserCopy U) (area : Nat) (recsize : UInt32) (f : Kfifo) :
    Op U → Option (Kfifo × (Answer ⊕ UserAnswer))
  | .record op => (Records.step area recsize f op).map fun (f, o) => (f, .inl o)
  | .fromUserR u buf len => (f.kfifoFromUserR copy area recsize u buf len).map fun (f, o) => (f, .inr o)
  | .toUserR u len => (f.kfifoToUserR copy area recsize u len).map fun (f, o) => (f, .inr o)
  | .outPeekR len => (f.kfifoOutPeekR area recsize len).map fun (f, o) => (f, .inl o)
  | .lenR => some (f, .inl { ret := f.kfifoLenR recsize, buf := [] })
  | .skipR => some (f.kfifoSkipR recsize, .inl { ret := 0, buf := [] })

/-- The caller's buffer has the bytes of the record; its length can be
written, where nothing cuts it; and there is a record where none is looked
for. -/
def Given (recsize : UInt32) (f : Kfifo) : Op U → Prop
  | .record op => Records.Framed recsize f op
  | .fromUserR _ buf len => min len.toNat (256 ^ recsize.toNat - 1) ≤ buf.length
  | .toUserR _ _ | .outPeekR _ => True
  | .lenR | .skipR => f.kfifoIsEmpty = false

instance (recsize : UInt32) (f : Kfifo) : ∀ op : Op U, Decidable (Given recsize f op)
  | .record op => inferInstanceAs (Decidable (Records.Framed recsize f op))
  | .fromUserR _ _ _ => inferInstanceAs (Decidable (_ ≤ _))
  | .toUserR _ _ | .outPeekR _ => .isTrue trivial
  | .lenR | .skipR => inferInstanceAs (Decidable (_ = _))

/-! ## What it is for -/

/-- The answers of a queue of records, of at most `N` bytes with their
lengths. A record that a user sends is cut to `n` bytes, which its length
can say; it is queued, and one is taken off, if all `n` come over. -/
inductive Spec (copy : UserCopy U) (N recsize : Nat) :
    List (List UInt8) → Op U → Answer ⊕ UserAnswer → List (List UInt8) → Prop
  | record {rs op o rs'} : Records.Spec N recsize rs op o rs' → Spec copy N recsize rs (.record op) (.inl o) rs'
  | refused {rs u buf len n} : n = min len.toNat (256 ^ recsize - 1) →
    N < (frames recsize rs).length + (recsize + n) →
    Spec copy N recsize rs (.fromUserR u buf len) (.inr { err := 0, copied := 0, buf := [] }) rs
  | unreadable {rs u buf len n m} : n = min len.toNat (256 ^ recsize - 1) → n ≤ buf.length →
    (frames recsize rs).length + (recsize + n) ≤ N → copy.Moves u (buf.take n) m → m < n →
    Spec copy N recsize rs (.fromUserR u buf len) (.inr { err := -efault, copied := 0, buf := [] }) rs
  | queued {rs u buf len n} {o : UserAnswer} : n = min len.toNat (256 ^ recsize - 1) → n ≤ buf.length →
    (frames recsize rs).length + (recsize + n) ≤ N → copy.Moves u (buf.take n) n →
    o.err = 0 → o.copied.toNat = n → o.buf = [] →
    Spec copy N recsize rs (.fromUserR u buf len) (.inr o) (rs ++ [buf.take n])
  | nothing {u len} : Spec copy N recsize [] (.toUserR u len) (.inr { err := 0, copied := 0, buf := [] }) []
  | unwritable {r rs u len n m} {o : UserAnswer} : n = min len.toNat r.length → copy.Moves u (r.take n) m → m < n →
    o.err = -efault → o.copied = 0 → o.buf.take m = r.take m →
    Spec copy N recsize (r :: rs) (.toUserR u len) (.inr o) (r :: rs)
  | taken {r rs u len n} {o : UserAnswer} : n = min len.toNat r.length → copy.Moves u (r.take n) n →
    o.err = 0 → o.copied.toNat = n → o.buf.take n = r.take n →
    Spec copy N recsize (r :: rs) (.toUserR u len) (.inr o) rs
  | peek {rs rs' len o} : Records.Spec N recsize rs (.outR len) o rs' →
    Spec copy N recsize rs (.outPeekR len) (.inl o) rs
  | length {r rs o} : o.ret.toNat = r.length → o.buf = [] → Spec copy N recsize (r :: rs) .lenR (.inl o) (r :: rs)
  | skip {r rs} : Spec copy N recsize (r :: rs) .skipR (.inl { ret := 0, buf := [] }) rs

/-! ## Writing -/

section Writing

variable {f : Kfifo} {recsize n : UInt32}

theorem toNat_maxR (hr : recsize = 1 ∨ recsize = 2) (len : UInt32) :
    (Kfifo.kfifoMaxR len recsize).toNat = min len.toNat (256 ^ recsize.toNat - 1) := by
  rcases hr with rfl | rfl
  · exact Kfifo.toNat_clamp 255 len
  · exact Kfifo.toNat_clamp 65535 len

/-- In a fifo of bytes nothing is lost to rounding. -/
theorem round_bytes (h : f.Ok) (he : f.esize = 1) : f.bytes + f.esize.toNat ≤ 2 ^ 32 := by
  have hsize := h.size_le
  rw [Kfifo.bytes, he, UInt32.toNat_one]
  omega

/-- The fifo `g` when the length and some bytes `part` of a record have been
written to `f` and nothing is published. -/
structure Written (f : Kfifo) (recsize n : UInt32) (part : List UInt8) (g : Kfifo) : Prop where
  ok : g.Ok
  esize : g.esize = 1
  size : g.size = f.size
  content : g.content = f.content
  grown : part.length = n.toNat → Records.Grown f (frame recsize.toNat part) (g.publishIn (n + recsize))

/-- The fifo with the length of a record in its data area, and published. -/
def headed (f : Kfifo) (recsize : UInt32) (data : Nat → UInt8) : Kfifo := ({ f with data } : Kfifo).publishIn recsize

/-- The queue is as it was, and behind it are the length and the bytes. -/
theorem written_blit (h : f.Ok) (he : f.esize = 1) {data : Nat → UInt8}
    (hhead : Records.Grown f (header recsize.toNat n.toNat) (headed f recsize data))
    (hroom : f.used + (recsize.toNat + n.toNat) ≤ f.size) {part : List UInt8} (hpart : part.length ≤ n.toNat) :
    Written f recsize n part { f with data := ((headed f recsize data).blitBehind part).data } := by
  have hused : (headed f recsize data).used = f.used + recsize.toNat := by rw [hhead.used he, Records.header_length]
  have hone := Kfifo.mul_esize hhead.esize
  have hbytes : (headed f recsize data).bytes = f.size := (hone _).trans hhead.size
  have hcontent : ((headed f recsize data).blitBehind part).content = f.content ++ header recsize.toNat n.toNat := by
    rw [hhead.ok.content_blit (by rw [hone, hbytes]; omega), hhead.content]
  -- With the length published, it is the fifo with the bytes behind the queue.
  have hok : ({ f with data := ((headed f recsize data).blitBehind part).data } : Kfifo).Ok :=
    ⟨h.pow, h.esize_pos, h.fits, h.bounded⟩
  refine ⟨hok, he, rfl, ?_, fun hall => ?_⟩
  · have hplace : f.used + recsize.toNat ≤ f.size := by omega
    have happend := hok.content_publishIn hplace
    refine (List.append_inj (hcontent.symm.trans happend) ?_).1.symm
    rw [Kfifo.content_length, Kfifo.content_length]
    rfl
  · have hidx : f.inIdx + (n + recsize) = f.inIdx + recsize + n := by rw [UInt32.add_comm n, UInt32.add_assoc]
    have hblit : ((headed f recsize data).blitBehind part).Ok :=
      ⟨hhead.ok.pow, hhead.ok.esize_pos, hhead.ok.fits, hhead.ok.bounded⟩
    have hfit : ((headed f recsize data).blitBehind part).used + n.toNat ≤
        ((headed f recsize data).blitBehind part).size := by
      have hsize := hhead.size
      change (headed f recsize data).used + n.toNat ≤ (headed f recsize data).size
      omega
    have hbehind := hhead.ok.behind_blit_take part n (by rw [hone]; exact Nat.le_of_eq hall.symm) (by omega)
    rw [Kfifo.publishIn, hidx]
    refine ⟨hblit.publishIn hfit, he, hhead.size, ?_⟩
    refine (hblit.content_publishIn hfit).trans ?_
    rw [hcontent, hbehind, hone, ← hall, List.take_length, frame, List.append_assoc]

end Writing

/-! ## The fifo is the queue -/

section Refinement

variable {N : Nat} {recsize len : UInt32} {f : Kfifo} {r : List UInt8} {rs : List (List UInt8)}

/-- What a copy of `n` bytes settles, of which `m` came over. -/
theorem settled (h : f.Ok) (he : f.esize = 1) {n ret : UInt32} (hn : n.toNat ≤ f.size) (off : UInt32) {m : Nat}
    (hm : m ≤ n.toNat) (hret : ret.toNat = n.toNat - m / f.esize.toNat) :
    (ret ≠ 0 ↔ m < n.toNat) ∧ ((f.span n off).len - ret * f.esize).toNat = m := by
  rw [he, UInt32.toNat_one, Nat.div_one] at hret
  obtain ⟨-, hcopied, hfault⟩ := Kfifo.User.settled h hn off hm hret
  rw [he, UInt32.toNat_one, Nat.mul_one] at hcopied
  refine ⟨hfault.trans ?_, he ▸ hcopied⟩
  omega

/-- The copy of a record behind its length. -/
theorem copyFromUser_record (h : f.Ok) (he : f.esize = 1) (hr : recsize = 1 ∨ recsize = 2) (copy : UserCopy U) (u : U)
    {buf : List UInt8} {n : UInt32} (hbuf : n.toNat ≤ buf.length)
    (hroom : f.used + (recsize.toNat + n.toNat) ≤ f.size) :
    ∃ part m g, ∃ ret : UInt32, (f.kfifoPokeN n recsize).kfifoCopyFromUser copy u buf n (f.inIdx + recsize) =
        (g, ret, (f.span n (f.inIdx + recsize)).len - ret * f.esize) ∧
      Written f recsize n part g ∧ part.length ≤ n.toNat ∧ copy.Moves u (buf.take n.toNat) m ∧ m ≤ part.length ∧
      part.take m = buf.take m ∧ ret.toNat = n.toNat - m / f.esize.toNat := by
  have hhead := Records.grown_pokeN (n := n) h he hr (by omega)
  obtain ⟨data, hpoke⟩ : ∃ data, f.kfifoPokeN n recsize = { f with data } := ⟨_, Records.pokeN_frame f n recsize⟩
  rw [hpoke] at hhead ⊢
  have hhead : Records.Grown f (header recsize.toNat n.toNat) (headed f recsize data) := hhead
  have hone := Kfifo.mul_esize hhead.esize n.toNat
  have hfit : n.toNat ≤ (headed f recsize data).size := by
    rw [hhead.size]
    omega
  obtain ⟨part, m, ret, hcopy, hlength, hmoves, hm, htake, hret⟩ :=
    hhead.ok.copyFromUser_eq (round_bytes hhead.ok hhead.esize) hfit copy u (hone.symm ▸ hbuf)
  rw [hone] at hlength hmoves
  refine ⟨part, m, _, ret, ?_, written_blit h he hhead hroom hlength, hlength, hmoves, hm, htake, hret⟩
  -- The copy itself does not depend on `in`.
  exact congrArg (fun r : Kfifo × UInt32 × UInt32 => (({ f with data := r.1.data } : Kfifo), r.2)) hcopy

/-- The run of `__kfifo_from_user_r` on a record there is room for. -/
theorem fromUserR_eq (h : f.Ok) (he : f.esize = 1) (hr : recsize = 1 ∨ recsize = 2) (copy : UserCopy U) (u : U)
    {buf : List UInt8} {n : UInt32} (hn : n = Kfifo.kfifoMaxR len recsize) (hbuf : n.toNat ≤ buf.length)
    (hroom : f.used + (recsize.toNat + n.toNat) ≤ f.size) :
    ∃ part m g, ∃ copied : UInt32, Written f recsize n part g ∧ part.length ≤ n.toNat ∧
      copy.Moves u (buf.take n.toNat) m ∧ m ≤ part.length ∧ part.take m = buf.take m ∧ copied.toNat = m ∧
      f.kfifoFromUserR copy f.size recsize u buf len =
        if m < n.toNat then some (g, { err := -efault, copied := 0, buf := [] })
        else some (g.publishIn (n + recsize), { err := 0, copied, buf := [] }) := by
  have hbound := Records.recsize_bound hr
  have hunused := h.toNat_unused
  have hsize := h.size_le
  have hnot : ¬ f.kfifoUnused < n + recsize := by
    rw [UInt32.lt_iff_toNat_lt, Records.toNat_framed (by omega)]
    omega
  have hwithin := h.within (show n.toNat ≤ f.size by omega) (f.inIdx + recsize)
  rw [Kfifo.bytes_eq_size he] at hwithin
  obtain ⟨part, m, g, ret, hcopy, hwritten, hlength, hmoves, hm, htake, hret⟩ :=
    copyFromUser_record h he hr copy u hbuf hroom
  obtain ⟨hfault, hcopied⟩ :=
    settled h he (show n.toNat ≤ f.size by omega) (f.inIdx + recsize) (Nat.le_trans hm hlength) hret
  refine ⟨part, m, g, _, hwritten, hlength, hmoves, hm, htake, hcopied, ?_⟩
  have hspan : (f.kfifoPokeN n recsize).span n (f.inIdx + recsize) = f.span n (f.inIdx + recsize) := by
    rw [Records.pokeN_frame]
    rfl
  have hin : (f.kfifoPokeN n recsize).inIdx = f.inIdx := by rw [Records.pokeN_frame]
  simp only [Kfifo.kfifoFromUserR, ← hn, if_neg hnot, hin, hspan, if_pos hwithin, hcopy]
  exact if_congr hfault rfl rfl

/-- A record more is queued. -/
theorem grown_represents (h : Represents N recsize f rs) {f' : Kfifo} (hg : Records.Grown f (frame recsize.toNat r) f')
    (hshort : r.length < 256 ^ recsize.toNat) : Represents N recsize f' (rs ++ [r]) := by
  refine ⟨hg.ok, hg.esize, hg.size.trans h.size, ?_, fun r' hmem => ?_⟩
  · rw [hg.content, h.content, Records.frames_concat]
  · rcases List.mem_append.mp hmem with hmem | hmem
    · exact h.short r' hmem
    · rw [List.mem_singleton.mp hmem]
      exact hshort

theorem fromUserR_represents (h : Represents N recsize f rs) (hr : recsize = 1 ∨ recsize = 2) (copy : UserCopy U)
    (u : U) {buf : List UInt8} (hbuf : min len.toNat (256 ^ recsize.toNat - 1) ≤ buf.length) :
    ∃ f' o rs', f.kfifoFromUserR copy N recsize u buf len = some (f', o) ∧
      Spec copy N recsize.toNat rs (.fromUserR u buf len) (.inr o) rs' ∧ Represents N recsize f' rs' := by
  have hused := h.used
  have hsize := h.size
  have hunused := h.ok.toNat_unused
  have hbound := Records.recsize_bound hr
  have hpos : 0 < 256 ^ recsize.toNat := Nat.pow_pos (by decide)
  have hmax := toNat_maxR hr len
  obtain ⟨n, hn⟩ : ∃ n, n = Kfifo.kfifoMaxR len recsize := ⟨_, rfl⟩
  rw [← hn] at hmax
  by_cases hfull : N < (frames recsize.toNat rs).length + (recsize.toNat + n.toNat)
  · refine ⟨f, _, rs, if_pos ?_, .refused hmax hfull, h⟩
    rw [← hn, UInt32.lt_iff_toNat_lt, Records.toNat_framed (by omega)]
    omega
  rw [← hmax] at hbuf
  obtain ⟨part, m, g, copied, hwritten, hlength, hmoves, hm, htake, hcopied, hrun⟩ :=
    fromUserR_eq h.ok h.esize hr copy u hn hbuf (by omega)
  rw [hsize] at hrun
  have hfits : (frames recsize.toNat rs).length + (recsize.toNat + n.toNat) ≤ N := by omega
  by_cases hstop : m < n.toNat
  · exact ⟨_, _, rs, hrun.trans (if_pos hstop), .unreadable hmax hbuf hfits hmoves hstop, hwritten.ok, hwritten.esize,
      hwritten.size.trans hsize, hwritten.content.trans h.content, h.short⟩
  · obtain rfl : m = n.toNat := by omega
    have hall : part.length = n.toNat := Nat.le_antisymm hlength hm
    obtain rfl : part = buf.take n.toNat := by rwa [List.take_of_length_le hlength] at htake
    exact ⟨_, _, _, hrun.trans (if_neg hstop), .queued hmax hbuf hfits hmoves rfl hcopied rfl,
      grown_represents h (hwritten.grown hall) (by omega)⟩

/-- The oldest record: its length is read, and skipping it leaves the
others. -/
theorem front (h : Represents N recsize f (r :: rs)) (hr : recsize = 1 ∨ recsize = 2) :
    f.inIdx ≠ f.outIdx ∧ (f.kfifoPeekN recsize).toNat = r.length ∧ r.length ≤ f.size ∧
      Represents N recsize (f.kfifoSkipR recsize) rs := by
  have hused := h.used
  have hbounded := h.ok.bounded
  have hbound := Records.recsize_bound hr
  rw [Records.frames_cons, List.length_append, Records.frame_length] at hused
  have hlen : r.length < 256 ^ recsize.toNat := h.short r List.mem_cons_self
  have hpeek := Records.peekN_eq h.ok h.esize hr h.content
  rw [Nat.mod_eq_of_lt hlen] at hpeek
  have hout : (f.kfifoPeekN recsize + recsize).toNat = (frame recsize.toNat r).length := by
    rw [Records.toNat_framed (by omega), hpeek, Records.frame_length]
    omega
  obtain ⟨hok, hcontent⟩ := Records.shrunk h.ok h.esize (n := f.kfifoPeekN recsize + recsize)
    (by rw [hout, Records.frame_length]; omega)
  refine ⟨fun heq => ?_, hpeek, by omega, hok, h.esize, h.size, ?_,
    fun r' hmem => h.short r' (List.mem_cons_of_mem r hmem)⟩
  · have hzero := Kfifo.isEmpty_iff.mp (beq_iff_eq.mpr heq)
    omega
  · refine hcontent.trans ?_
    rw [h.content, hout]
    exact List.drop_left

theorem empty_of_nil (h : Represents N recsize f []) : f.inIdx = f.outIdx :=
  beq_iff_eq.mp (Kfifo.isEmpty_iff.mpr h.used)

/-- The oldest record, cut to the caller's length, is in the data area
behind its own length. -/
theorem front_within (h : Represents N recsize f (r :: rs)) (hr : recsize = 1 ∨ recsize = 2) {n : UInt32}
    (hn : n.toNat ≤ r.length) :
    (f.span n (f.outIdx + recsize)).within N ∧ f.kfifoCopyOut n (f.outIdx + recsize) = r.take n.toNat := by
  obtain ⟨-, -, hsize, -⟩ := front h hr
  have hwithin := h.ok.within (Nat.le_trans hn hsize) (f.outIdx + recsize)
  rw [Kfifo.bytes_eq_size h.esize, h.size] at hwithin
  exact ⟨hwithin, Records.copyOut_record h.ok h.esize h.content hn⟩

theorem toUserR_represents (h : Represents N recsize f rs) (hr : recsize = 1 ∨ recsize = 2) (copy : UserCopy U)
    (u : U) (len : UInt32) :
    ∃ f' o rs', f.kfifoToUserR copy N recsize u len = some (f', o) ∧
      Spec copy N recsize.toNat rs (.toUserR u len) (.inr o) rs' ∧ Represents N recsize f' rs' := by
  cases rs with
  | nil => exact ⟨f, _, [], if_pos (empty_of_nil h), .nothing, h⟩
  | cons r rs =>
    obtain ⟨hne, hpeek, hsize, hskip⟩ := front h hr
    have hmin := Kfifo.toNat_clamp (f.kfifoPeekN recsize) len
    rw [hpeek] at hmin
    obtain ⟨n, hn⟩ : ∃ n, n = if f.kfifoPeekN recsize < len then f.kfifoPeekN recsize else len := ⟨_, rfl⟩
    rw [← hn] at hmin
    obtain ⟨hwithin, hout⟩ := front_within h hr (show n.toNat ≤ r.length by omega)
    have hfit : n.toNat ≤ f.size := by omega
    obtain ⟨buf, m, ret, hcopy, hmoves, htake, hret⟩ :=
      h.ok.copyToUser_eq (round_bytes h.ok h.esize) hfit (f.outIdx + recsize) copy u
    rw [hout] at hmoves htake
    have hm : m ≤ n.toNat := by
      have hle := hmoves.le
      rw [List.length_take] at hle
      omega
    rw [List.take_take, Nat.min_eq_left hm] at htake
    obtain ⟨hfault, hcopied⟩ := settled h.ok h.esize hfit (f.outIdx + recsize) hm hret
    have hrun : f.kfifoToUserR copy N recsize u len =
        if m < n.toNat then some (f, { err := -efault, copied := 0, buf })
        else some (f.kfifoSkipR recsize,
          { err := 0, copied := (f.span n (f.outIdx + recsize)).len - ret * f.esize, buf }) := by
      rw [Kfifo.kfifoToUserR, if_neg hne]
      dsimp only
      rw [← hn, if_pos hwithin, hcopy]
      exact if_congr hfault rfl rfl
    by_cases hstop : m < n.toNat
    · exact ⟨_, _, _, hrun.trans (if_pos hstop), .unwritable hmin hmoves hstop rfl rfl htake, h⟩
    · obtain rfl : m = n.toNat := by omega
      exact ⟨_, _, rs, hrun.trans (if_neg hstop), .taken hmin hmoves rfl hcopied htake, hskip⟩

theorem outPeekR_represents (h : Represents N recsize f rs) (hr : recsize = 1 ∨ recsize = 2) (copy : UserCopy U)
    (len : UInt32) :
    ∃ o, f.kfifoOutPeekR N recsize len = some (f, o) ∧ Spec copy N recsize.toNat rs (.outPeekR len) (.inl o) rs := by
  cases rs with
  | nil => exact ⟨_, if_pos (empty_of_nil h), .peek .empty⟩
  | cons r rs =>
    obtain ⟨hne, hpeek, -, -⟩ := front h hr
    have hmin := Kfifo.toNat_clamp (f.kfifoPeekN recsize) len
    rw [hpeek] at hmin
    obtain ⟨hwithin, hcopy⟩ :=
      front_within h hr (n := if f.kfifoPeekN recsize < len then f.kfifoPeekN recsize else len) (by omega)
    exact ⟨_, (if_neg hne).trans (if_pos hwithin), .peek (.remove hmin hcopy)⟩

theorem record_of_nonempty (h : Represents N recsize f rs) (hne : f.kfifoIsEmpty = false) : ∃ r rs', rs = r :: rs' := by
  cases rs with
  | nil =>
    rw [Kfifo.isEmpty_iff.mpr h.used] at hne
    cases hne
  | cons r rs => exact ⟨r, rs, rfl⟩

theorem records_user_step {copy : UserCopy U} (hr : recsize = 1 ∨ recsize = 2) {op : Op U}
    (h : Represents N recsize f rs) (hop : Given recsize f op) :
    ∃ f' o rs', step copy N recsize f op = some (f', o) ∧ Spec copy N recsize.toNat rs op o rs' ∧
      Represents N recsize f' rs' := by
  cases op with
  | record op =>
    obtain ⟨f', o, rs', hrun, hspec, hrep⟩ := Records.records_step_represents hr h hop
    exact ⟨f', _, rs', by rw [step, hrun]; rfl, .record hspec, hrep⟩
  | fromUserR u buf len =>
    obtain ⟨f', o, rs', hrun, hspec, hrep⟩ := fromUserR_represents h hr copy u hop
    exact ⟨f', _, rs', by rw [step, hrun]; rfl, hspec, hrep⟩
  | toUserR u len =>
    obtain ⟨f', o, rs', hrun, hspec, hrep⟩ := toUserR_represents h hr copy u len
    exact ⟨f', _, rs', by rw [step, hrun]; rfl, hspec, hrep⟩
  | outPeekR len =>
    obtain ⟨o, hrun, hspec⟩ := outPeekR_represents h hr copy len
    exact ⟨f, _, rs, by rw [step, hrun]; rfl, hspec, h⟩
  | lenR =>
    obtain ⟨r, rs, rfl⟩ := record_of_nonempty h hop
    obtain ⟨-, hpeek, -, -⟩ := front h hr
    exact ⟨f, _, _, rfl, .length hpeek rfl, h⟩
  | skipR =>
    obtain ⟨r, rs, rfl⟩ := record_of_nonempty h hop
    obtain ⟨-, -, -, hskip⟩ := front h hr
    exact ⟨_, _, rs, rfl, .skip, hskip⟩

/-- A copy of `mem.c` comes over whole. -/
theorem Spec.err_mem {op : Op U} {o : UserAnswer} {rs' : List (List UInt8)} {recsize : Nat}
    (h : Spec .mem N recsize rs op (.inr o) rs') : o.err = 0 := by
  cases h with
  | refused | nothing => rfl
  | queued _ _ _ _ herr _ _ => exact herr
  | taken _ _ herr _ _ => exact herr
  | unreadable _ hbuf _ hmoves hstop =>
    rw [hmoves.mem_eq, List.length_take, Nat.min_eq_left hbuf] at hstop
    exact absurd hstop (Nat.lt_irrefl _)
  | unwritable hn hmoves hstop _ _ _ =>
    rw [hmoves.mem_eq, List.length_take] at hstop
    omega

end Refinement

/-- **Records to and from a user.** From an empty fifo of bytes, its indices
anywhere, any records sent and taken, by a user or not, however many bytes
of a user's come over, and looked at and skipped where there is one, are
answered as a queue of records answers them; with the copies of `mem.c` none
of these calls fails. A record that `__kfifo_in_r` sends must have a length
that can be written. -/
theorem records_user_refine (copy : UserCopy U) {k : Nat} {recsize : UInt32} {f : Kfifo} (hk : 1 ≤ k) (hk' : k ≤ 31)
    (hr : recsize = 1 ∨ recsize = 2) (h : Fresh k f) {ops : List (Op U)}
    (hops : Admits (step copy (2 ^ k) recsize) (Given recsize) f ops) :
    ∃ f' os rs, answers (step copy (2 ^ k) recsize) f ops = some (f', os) ∧
      Allows (Spec copy (2 ^ k) recsize.toNat) [] ops os rs ∧ Represents (2 ^ k) recsize f' rs ∧
      (copy = .mem → ∀ o, .inr o ∈ os → o.err = 0) := by
  obtain ⟨f', os, rs, hrun, hall, hrep⟩ := simulation (records_user_step hr) (h.represents hk hk') hops
  refine ⟨f', os, rs, hrun, hall, hrep, ?_⟩
  rintro rfl o hmem
  obtain ⟨_, _, _, hspec⟩ := hall.exists_of_mem hmem
  exact hspec.err_mem

/-- Three bytes cannot be read whole and are not queued; on the second try
they are, and come out cut. The second record is looked at and skipped. -/
def retried : List (Op Nat) :=
  [.fromUserR 2 [1, 2, 3] 3, .fromUserR 3 [1, 2, 3] 3, .record (.inR [4] 1), .lenR, .toUserR 1 2, .toUserR 2 2,
    .outPeekR 7, .skipR, .outPeekR 7]

/-- With `mem.c` the bytes are queued at once, and there is no room to queue
them again. -/
theorem records_user_refine_retried :
    (∃ f os rs, answers (step .upTo (2 ^ 3) 2) Records.wrapping retried = some (f, os) ∧
      os = [.inr ⟨-14, 0, []⟩, .inr ⟨0, 3, []⟩, .inl ⟨1, []⟩, .inl ⟨3, []⟩, .inr ⟨-14, 0, [1]⟩, .inr ⟨0, 2, [1, 2]⟩,
        .inl ⟨1, [4]⟩, .inl ⟨0, []⟩, .inl ⟨0, []⟩] ∧
      Allows (Spec .upTo (2 ^ 3) (2 : UInt32).toNat) [] retried os rs ∧ Represents (2 ^ 3) 2 f rs) ∧
    ∃ f os rs, answers (step .mem (2 ^ 3) 2) Records.wrapping (retried.take 3) = some (f, os) ∧
      os = [.inr ⟨0, 3, []⟩, .inr ⟨0, 0, []⟩, .inl ⟨1, []⟩] ∧
      Allows (Spec .mem (2 ^ 3) (2 : UInt32).toNat) [] (retried.take 3) os rs ∧ Represents (2 ^ 3) 2 f rs := by
  have hfresh : Fresh 3 Records.wrapping := ⟨rfl, rfl, rfl⟩
  constructor
  · obtain ⟨f, os, rs, hrun, hall, hrep, -⟩ :=
      records_user_refine .upTo (by decide) (by decide) (.inr rfl) hfresh
        (show Admits (step .upTo (2 ^ 3) 2) (Given 2) Records.wrapping retried by decide)
    refine ⟨f, os, rs, hrun, ?_, hall, hrep⟩
    cases hrun
    rfl
  · obtain ⟨f, os, rs, hrun, hall, hrep, -⟩ :=
      records_user_refine .mem (by decide) (by decide) (.inr rfl) hfresh
        (show Admits (step .mem (2 ^ 3) 2) (Given 2) Records.wrapping (retried.take 3) by decide)
    refine ⟨f, os, rs, hrun, ?_, hall, hrep⟩
    cases hrun
    rfl

end Lmsel4.RecordUser
