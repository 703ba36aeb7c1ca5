/-
kfifo filled from and emptied to a user's buffer (`__kfifo_from_user`,
`__kfifo_to_user`), written for a copy that can stop on the way.

Only whole elements count: of an element that a copy has cut, nothing is
queued and nothing is taken off. So kfifo stays the bounded queue it is
(`user_refines`), whatever copy it is given and whatever one that stopped
has left behind the queue: a call moves the elements that fit and came over
whole, says how many bytes they were, and fails if and only if that is not
all there was to move. With the copies of `mem.c`, that is never.
-/
import Lmsel4.Liblinux
import Lmsel4.Queue

namespace Lmsel4.Kfifo

variable {U : Type}

/-! ## The calls -/

/-- `DIV_ROUND_UP`. -/
def divRoundUp (n d : UInt32) : UInt32 := (n + d - 1) / d

/-- The two copies of `kfifo_copy_from_user` and `kfifo_copy_to_user`: what
each of them stores, and the number of elements not copied. -/
def copyTwice (copy : UserCopy U) (u : U) (s : Span) (esize : UInt32) (first second : List UInt8) :
    List UInt8 × List UInt8 × UInt32 :=
  let (stored, ret) := copy.run u 0 first
  if ret ≠ 0 then (stored, [], divRoundUp (ret + s.len - s.l) esize)
  else
    let (rest, ret) := copy.run u s.l.toNat second
    (stored, rest, if ret ≠ 0 then divRoundUp ret esize else ret)

/-- The fifo after a copy from the user's buffer `buf`, the elements not
copied, and `*copied`. -/
def kfifoCopyFromUser (copy : UserCopy U) (f : Kfifo) (u : U) (buf : List UInt8) (len off : UInt32) :
    Kfifo × UInt32 × UInt32 :=
  let s := f.span len off
  let (first, second, ret) :=
    copyTwice copy u s f.esize (buf.take s.l.toNat) ((buf.drop s.l.toNat).take (s.len - s.l).toNat)
  ({ f with data := Ring.blit (Ring.blit f.data s.off.toNat first) 0 second }, ret, s.len - ret * f.esize)

/-- The bytes stored to the user's buffer, the elements not copied, and
`*copied`. -/
def kfifoCopyToUser (copy : UserCopy U) (f : Kfifo) (u : U) (len off : UInt32) : List UInt8 × UInt32 × UInt32 :=
  let s := f.span len off
  let (first, second, ret) :=
    copyTwice copy u s f.esize (Ring.run f.data s.off.toNat s.l.toNat) (Ring.run f.data 0 (s.len - s.l).toNat)
  (first ++ second, ret, s.len - ret * f.esize)

/-- What a call returns, its `*copied`, and the bytes it has stored to the
user's buffer. -/
structure UserAnswer where
  err : Int32
  copied : UInt32
  buf : List UInt8
  deriving DecidableEq

/-- The elements in `len` bytes. -/
def elements (f : Kfifo) (len : UInt32) : UInt32 := if f.esize ≠ 1 then len / f.esize else len

/-- `__kfifo_from_user`. -/
def kfifoFromUser (copy : UserCopy U) (area : Nat) (f : Kfifo) (u : U) (buf : List UInt8) (len : UInt32) :
    Option (Kfifo × UserAnswer) :=
  let len := f.inLen (f.elements len)
  if (f.span len f.inIdx).within area then
    let (f, ret, copied) := f.kfifoCopyFromUser copy u buf len f.inIdx
    if ret ≠ 0 then some (f.publishIn (len - ret), { err := -efault, copied, buf := [] })
    else some (f.publishIn len, { err := 0, copied, buf := [] })
  else none

/-- `__kfifo_to_user`. -/
def kfifoToUser (copy : UserCopy U) (area : Nat) (f : Kfifo) (u : U) (len : UInt32) :
    Option (Kfifo × UserAnswer) :=
  let len := f.outLen (f.elements len)
  if (f.span len f.outIdx).within area then
    let (buf, ret, copied) := f.kfifoCopyToUser copy u len f.outIdx
    if ret ≠ 0 then some (f.publishOut (len - ret), { err := -efault, copied, buf })
    else some (f.publishOut len, { err := 0, copied, buf })
  else none

namespace User

/-- A call of the queue, or one with a user's buffer of elements; what a
copy does may depend on `u`. -/
inductive Op (U : Type) (esize : Nat)
  | queue (op : Kfifo.Op esize)
  | fromUser (u : U) (buf : List (Element esize)) (len : UInt32)
  | toUser (u : U) (len : UInt32)

/-- The caller's buffer has the elements that are to be queued. -/
def Op.Given {esize : Nat} : Op U esize → Prop
  | .queue op => op.Given
  | .fromUser _ buf len => len.toNat / esize ≤ buf.length
  | .toUser _ _ => True

instance {esize : Nat} : ∀ op : Op U esize, Decidable op.Given
  | .queue op => inferInstanceAs (Decidable op.Given)
  | .fromUser _ _ _ => inferInstanceAs (Decidable (_ ≤ _))
  | .toUser _ _ => .isTrue trivial

def step {esize : Nat} (copy : UserCopy U) (area : Nat) (f : Kfifo) :
    Op U esize → Option (Kfifo × (Answer ⊕ UserAnswer))
  | .queue op => (Kfifo.step area f op).map fun (f, o) => (f, .inl o)
  | .fromUser u buf len => (f.kfifoFromUser copy area u (bytesOf buf) len).map fun (f, o) => (f, .inr o)
  | .toUser u len => (f.kfifoToUser copy area u len).map fun (f, o) => (f, .inr o)

/-! ## What it is for -/

/-- The code returned when `c` of the elements to move were moved. -/
def errOf (c want : Nat) : Int32 := if c = want then 0 else -efault

/-- The answers of a queue of at most `N` elements, where of the bytes to
move `m` come over. -/
inductive Spec {esize : Nat} (copy : UserCopy U) (N : Nat) :
    List (Element esize) → Op U esize → Answer ⊕ UserAnswer → List (Element esize) → Prop
  | queue {q op o q'} : Kfifo.Spec N q op o q' → Spec copy N q (.queue op) (.inl o) q'
  | fromUser {q u buf len want m} {o : UserAnswer} : want = min (len.toNat / esize) (N - q.length) →
    want ≤ buf.length → copy.Moves u (bytesOf (buf.take want)) m → o.err = errOf (m / esize) want →
    o.copied.toNat = m / esize * esize → o.buf = [] →
    Spec copy N q (.fromUser u buf len) (.inr o) (q ++ buf.take (m / esize))
  | toUser {q u len want m} {o : UserAnswer} : want = min (len.toNat / esize) q.length →
    copy.Moves u (bytesOf (q.take want)) m → o.err = errOf (m / esize) want → o.copied.toNat = m / esize * esize →
    o.buf.take m = (bytesOf (q.take want)).take m → Spec copy N q (.toUser u len) (.inr o) (q.drop (m / esize))

end User

/-! ## How much is copied -/

section Counts

variable {f : Kfifo} {len : UInt32}

/-- Rounding up what is missing is rounding down what is there. -/
theorem round_up_missing {n e m : Nat} (he : 0 < e) (hm : m ≤ n * e) : (n * e - m + e - 1) / e = n - m / e := by
  have hdiv : e * (m / e) + m % e = m := Nat.div_add_mod m e
  have hmod : m % e < e := Nat.mod_lt m he
  have hle : m / e ≤ n := Nat.div_le_of_le_mul (by rw [Nat.mul_comm]; exact hm)
  obtain ⟨k, hk⟩ : ∃ k, n = m / e + k := Nat.exists_eq_add_of_le hle
  have hsum : n * e - m + e - 1 = (e - 1 - m % e) + k * e := by
    have : n * e = e * (m / e) + k * e := by
      rw [hk, Nat.add_mul, Nat.mul_comm (m / e)]
    omega
  rw [hsum, Nat.add_mul_div_right _ _ he, Nat.div_eq_of_lt (by omega)]
  omega

theorem toNat_divRoundUp {n d : UInt32} (hd : 0 < d.toNat) (h : n.toNat + d.toNat ≤ 2 ^ 32) :
    (divRoundUp n d).toNat = (n.toNat + d.toNat - 1) / d.toNat := by
  have := UInt32.toNat_lt n
  have := UInt32.toNat_lt d
  rw [divRoundUp, UInt32.toNat_div, UInt32.toNat_sub, UInt32.toNat_add, UInt32.toNat_one]
  congr 1
  omega

/-- Of the bytes `whole`, `m` come over in two copies, the first of at most
`l` bytes, which leave `first` and `second`. -/
structure Copied (copy : UserCopy U) (u : U) (whole : List UInt8) (l : Nat) (first second : List UInt8) (m : Nat) :
    Prop where
  moves : copy.Moves u whole m
  first_le : first.length ≤ l
  full : second = [] ∨ first.length = l
  length_le : (first ++ second).length ≤ whole.length
  take : (first ++ second).take m = whole.take m

theorem Copied.le {copy : UserCopy U} {u : U} {whole first second : List UInt8} {l m : Nat}
    (h : Copied copy u whole l first second m) : m ≤ (first ++ second).length := by
  have hle := h.moves.le
  have hlength := congrArg List.length h.take
  rw [List.length_take, List.length_take] at hlength
  omega

section Twice

variable {copy : UserCopy U} {u : U} {first : List UInt8} (second : List UInt8)

/-- The first copy leaves something over, and there is no second. -/
theorem copied_of_stopped (h : (copy.run u 0 first).2 ≠ 0) :
    Copied copy u (first ++ second) first.length (copy.run u 0 first).1 []
      (first.length - (copy.run u 0 first).2.toNat) := by
  have hpart := copy.part u 0 first
  refine ⟨copy.moves_of_stopped second h, hpart.stored_le, .inl rfl, ?_, ?_⟩
  · rw [List.append_nil, List.length_append]
    exact Nat.le_trans hpart.stored_le (Nat.le_add_right _ _)
  · rw [List.append_nil, List.take_append_of_le_length (Nat.sub_le _ _), hpart.first]

/-- The first copy is whole, and the second goes on behind it. -/
theorem copied_of_whole (h : (copy.run u 0 first).2 = 0) :
    Copied copy u (first ++ second) first.length (copy.run u 0 first).1 (copy.run u first.length second).1
      (first.length + (second.length - (copy.run u first.length second).2.toNat)) := by
  have hpart := copy.part u 0 first
  have hpart' := copy.part u first.length second
  rw [h] at hpart
  have hstored : (copy.run u 0 first).1 = first := hpart.whole
  have hlength := congrArg List.length hstored
  refine ⟨copy.moves_of_whole second h, Nat.le_of_eq hlength, .inr hlength, ?_, ?_⟩
  · rw [hstored, List.length_append, List.length_append]
    exact Nat.add_le_add_left hpart'.stored_le _
  · rw [hstored, List.take_append, List.take_append, Nat.add_sub_cancel_left, hpart'.first]

end Twice

/-- The elements not copied, when of `n` elements `m` bytes came over. -/
theorem toNat_divRoundUp_missing {left e : UInt32} {n m : Nat} (he : 0 < e.toNat) (hn : n * e.toNat + e.toNat ≤ 2 ^ 32)
    (hm : m ≤ n * e.toNat) (hleft : left.toNat = n * e.toNat - m) :
    (divRoundUp left e).toNat = n - m / e.toNat := by
  rw [toNat_divRoundUp he (by omega), hleft, round_up_missing he hm]

/-- What the two copies of a span do; the elements not copied are those that
did not come over whole. -/
theorem Ok.copyTwice_eq (h : f.Ok) (hround : f.bytes + f.esize.toNat ≤ 2 ^ 32) (hl : len.toNat ≤ f.size)
    (off : UInt32) (copy : UserCopy U) (u : U) (first second : List UInt8)
    (hfirst : first.length = (f.span len off).l.toNat)
    (hsecond : second.length = ((f.span len off).len - (f.span len off).l).toNat) :
    ∃ stored rest ret m, copyTwice copy u (f.span len off) f.esize first second = (stored, rest, ret) ∧
      Copied copy u (first ++ second) (f.span len off).l.toNat stored rest m ∧
      ret.toNat = len.toNat - m / f.esize.toNat := by
  obtain ⟨-, hlen, hle⟩ := h.span_eq hl off
  rw [h.toNat_span_rest hl off] at hsecond
  have hpos := h.esize_pos
  have hbytes : len.toNat * f.esize.toNat ≤ f.bytes := Nat.mul_le_mul_right _ hl
  have hfits : len.toNat * f.esize.toNat + f.esize.toNat ≤ 2 ^ 32 :=
    Nat.le_trans (Nat.add_le_add_right hbytes _) hround
  by_cases hret : (copy.run u 0 first).2 = 0
  · have hleft := (copy.part u first.length second).left_le
    have hcopied := copied_of_whole second hret
    rw [hfirst] at hcopied hleft
    obtain ⟨left, hrun⟩ : ∃ left, left = (copy.run u (f.span len off).l.toNat second).2 := ⟨_, rfl⟩
    rw [← hrun] at hcopied hleft
    refine ⟨_, _, _, _, if_neg (not_not_intro hret), hcopied, ?_⟩
    rw [← hrun]
    split
    · exact toNat_divRoundUp_missing hpos hfits (by omega) (by omega)
    · next hzero =>
      have hwhole : (f.span len off).l.toNat + second.length = len.toNat * f.esize.toNat := by omega
      rw [not_not.mp hzero, UInt32.toNat_zero, Nat.sub_zero, hwhole, Nat.mul_div_cancel _ hpos, Nat.sub_self]
  · have hleft := (copy.part u 0 first).left_le
    refine ⟨_, _, divRoundUp ((copy.run u 0 first).2 + (f.span len off).len - (f.span len off).l) f.esize, _,
      if_pos hret, hfirst ▸ copied_of_stopped second hret, toNat_divRoundUp_missing hpos hfits (by omega) ?_⟩
    rw [UInt32.toNat_sub, UInt32.toNat_add]
    omega

theorem toNat_elements (f : Kfifo) (len : UInt32) : (f.elements len).toNat = len.toNat / f.esize.toNat := by
  unfold elements
  split
  · exact UInt32.toNat_div ..
  · next he =>
    rw [not_not.mp he, UInt32.toNat_one, Nat.div_one]

end Counts

/-! ## What is copied -/

section Copies

variable {f : Kfifo} {len : UInt32}

/-- What is blitted behind the queue is what the next elements take. -/
theorem Ok.behind_blit_take (h : f.Ok) (src : List UInt8) (len : UInt32) (hsrc : len.toNat * f.esize.toNat ≤ src.length)
    (hl : src.length ≤ f.bytes) : (f.blitBehind src).behind len = src.take (len.toNat * f.esize.toNat) := by
  change Ring.window _ f.bytes (f.inIdx.toNat * f.esize.toNat) (len.toNat * f.esize.toNat) = _
  rw [← Ring.window_mod, mod_bytes, ← Ring.window_take hsrc]
  congr 1
  exact Ring.window_blitWrap_self (h.offset_lt f.inIdx) hl

/-- A copy from a user's buffer blits some bytes behind the queue, of which
those that came over are the user's. -/
theorem Ok.copyFromUser_eq (h : f.Ok) (hround : f.bytes + f.esize.toNat ≤ 2 ^ 32) (hl : len.toNat ≤ f.size)
    (copy : UserCopy U) (u : U) {buf : List UInt8} (hbuf : len.toNat * f.esize.toNat ≤ buf.length) :
    ∃ part m, ∃ ret : UInt32, f.kfifoCopyFromUser copy u buf len f.inIdx =
        (f.blitBehind part, ret, (f.span len f.inIdx).len - ret * f.esize) ∧
      part.length ≤ len.toNat * f.esize.toNat ∧ copy.Moves u (buf.take (len.toNat * f.esize.toNat)) m ∧
      m ≤ part.length ∧ part.take m = buf.take m ∧ ret.toNat = len.toNat - m / f.esize.toNat := by
  obtain ⟨hoff, hlen, hfirst⟩ := h.span_eq hl f.inIdx
  have hrest := h.toNat_span_rest hl f.inIdx
  have hinside := h.offset_lt f.inIdx
  obtain ⟨stored, rest, ret, m, hrun, hcopied, hret⟩ := h.copyTwice_eq hround hl f.inIdx copy u
    (buf.take (f.span len f.inIdx).l.toNat)
    ((buf.drop (f.span len f.inIdx).l.toNat).take ((f.span len f.inIdx).len - (f.span len f.inIdx).l).toNat)
    (by rw [List.length_take]; omega) (by rw [List.length_take, List.length_drop]; omega)
  rw [← List.take_add, hrest, show (f.span len f.inIdx).l.toNat +
    (len.toNat * f.esize.toNat - (f.span len f.inIdx).l.toNat) = len.toNat * f.esize.toNat by omega] at hcopied
  have hlength := hcopied.length_le
  have hm := hcopied.moves.le
  rw [List.length_take] at hlength hm
  refine ⟨stored ++ rest, m, ret, ?_, by omega, hcopied.moves, hcopied.le, ?_, hret⟩
  · rw [kfifoCopyFromUser, hrun]
    refine Prod.ext ?_ rfl
    rcases hcopied.full with rfl | hwhole
    · rw [List.append_nil, blitBehind, Ring.blitWrap_straight (by have := hcopied.first_le; omega), ← hoff]
      simp only [Ring.blit_nil]
    · have hcopy : f.kfifoCopyIn (stored ++ rest) len f.inIdx = _ := h.copyIn_eq hl
      rw [List.take_of_length_le (by omega)] at hcopy
      rw [← hcopy, kfifoCopyIn, List.take_left' hwhole, List.drop_left' hwhole, List.take_of_length_le]
      rw [List.length_append] at hlength
      omega
  · rw [hcopied.take, List.take_take, Nat.min_eq_left (by omega)]

/-- A copy to a user's buffer is `kfifo_copy_out`, as far as it comes over. -/
theorem Ok.copyToUser_eq (h : f.Ok) (hround : f.bytes + f.esize.toNat ≤ 2 ^ 32) (hl : len.toNat ≤ f.size)
    (off : UInt32) (copy : UserCopy U) (u : U) :
    ∃ buf m, ∃ ret : UInt32, f.kfifoCopyToUser copy u len off = (buf, ret, (f.span len off).len - ret * f.esize) ∧
      copy.Moves u (f.kfifoCopyOut len off) m ∧ buf.take m = (f.kfifoCopyOut len off).take m ∧
      ret.toNat = len.toNat - m / f.esize.toNat := by
  obtain ⟨stored, rest, ret, m, hrun, hcopied, hret⟩ := h.copyTwice_eq hround hl off copy u _ _
    (Ring.length_run f.data (f.span len off).off.toNat (f.span len off).l.toNat)
    (Ring.length_run f.data 0 ((f.span len off).len - (f.span len off).l).toNat)
  refine ⟨stored ++ rest, m, ret, ?_, hcopied.moves, hcopied.take, hret⟩
  rw [kfifoCopyToUser, hrun]

end Copies

/-! ## The fifo is the queue -/

namespace User

section Refinement

variable {f : Kfifo} {esize N : Nat} {q : List (Element esize)} {len : UInt32}

/-- What a call with a user's buffer settles: of `len` elements, `c` are
copied. -/
theorem settled (h : f.Ok) (hl : len.toNat ≤ f.size) (off : UInt32) {ret : UInt32} {c : Nat} (hc : c ≤ len.toNat)
    (hret : ret.toNat = len.toNat - c) :
    (len - ret).toNat = c ∧ ((f.span len off).len - ret * f.esize).toNat = c * f.esize.toNat ∧
    (ret ≠ 0 ↔ c ≠ len.toNat) := by
  obtain ⟨-, hlen, -⟩ := h.span_eq hl off
  have hbytes : len.toNat * f.esize.toNat ≤ f.bytes := Nat.mul_le_mul_right _ hl
  have hlt := UInt32.toNat_lt len
  have hfits := h.fits
  refine ⟨?_, ?_, ?_⟩
  · rw [UInt32.toNat_sub, hret]
    omega
  · have hmul : (len.toNat - c) * f.esize.toNat ≤ len.toNat * f.esize.toNat :=
      Nat.mul_le_mul_right _ (Nat.sub_le _ _)
    have hsub : len.toNat * f.esize.toNat - (len.toNat - c) * f.esize.toNat = c * f.esize.toNat := by
      rw [← Nat.sub_mul, Nat.sub_sub_self hc]
    have hprod : (ret * f.esize).toNat = (len.toNat - c) * f.esize.toNat := by
      rw [UInt32.toNat_mul, hret, Nat.mod_eq_of_lt (by omega)]
    rw [UInt32.toNat_sub, hlen, hprod]
    omega
  · rw [ne_eq, ← UInt32.toNat_inj, hret, UInt32.toNat_zero]
    omega

/-- The two ends of a call, with and without a fault. -/
theorem settle_eq {want ret copied : UInt32} {c : Nat} {buf : List UInt8} (hfault : ret ≠ 0 ↔ c ≠ want.toNat)
    (publish : UInt32 → Kfifo) :
    (if ret ≠ 0 then some (publish (want - ret), { err := -efault, copied, buf })
      else some (publish want, { err := 0, copied, buf })) =
    some (publish (want - ret), ({ err := errOf c want.toNat, copied, buf } : UserAnswer)) := by
  by_cases hret : ret = 0
  · have hall : c = want.toNat := not_not.mp fun hne => hfault.mpr hne hret
    rw [if_neg (not_not_intro hret), hret, UInt32.sub_zero, errOf, if_pos hall]
  · rw [if_pos hret, errOf, if_neg (hfault.mp hret)]

/-- Elements stored behind the queue are queued when `in` moves over them,
whatever else has been stored there. -/
theorem published_represents (h : Represents N f q) {part : List UInt8} {buf : List (Element esize)} {n : UInt32}
    (hroom : f.used + n.toNat ≤ f.size) (hfit : f.used * f.esize.toNat + part.length ≤ f.bytes)
    (hpart : n.toNat * f.esize.toNat ≤ part.length) (hbuf : n.toNat ≤ buf.length)
    (htake : part.take (n.toNat * f.esize.toNat) = (bytesOf buf).take (n.toNat * f.esize.toNat)) :
    Represents N ((f.blitBehind part).publishIn n) (q ++ buf.take n.toNat) := by
  have hused : f.used = q.length := h.used
  have hok : (f.blitBehind part).Ok := ⟨h.ok.pow, h.ok.esize_pos, h.ok.fits, h.ok.bounded⟩
  have hroom' : (f.blitBehind part).used + n.toNat ≤ (f.blitBehind part).size := hroom
  refine ⟨hok.publishIn hroom', h.size, h.esize, ?_, ?_, ?_⟩
  · refine (hok.used_publishIn hroom').trans ?_
    rw [List.length_append, List.length_take, Nat.min_eq_left hbuf, ← hused]
    rfl
  · have hsize := h.size
    rw [List.length_append, List.length_take]
    omega
  · have hbehind := h.ok.behind_blit_take part n hpart (by omega)
    rw [hok.content_publishIn hroom', h.ok.content_blit hfit, hbehind, htake, h.content, bytesOf_append, h.esize,
      (bytesOf_split hbuf).1]

/-- Elements are taken off when `out` moves over them. -/
theorem taken_represents (h : Represents N f q) {n : UInt32} (hn : n.toNat ≤ f.used) :
    Represents N (f.publishOut n) (q.drop n.toNat) := by
  have hused : f.used = q.length := h.used
  refine ⟨h.ok.publishOut hn, h.size, h.esize, ?_, ?_, ?_⟩
  · refine (used_publishOut hn).trans ?_
    rw [hused, List.length_drop]
  · rw [List.length_drop]
    exact Nat.le_trans (Nat.sub_le _ _) h.bounded
  · rw [h.ok.content_publishOut hn, h.content, h.esize, (bytesOf_split (hused ▸ hn)).2]

theorem fromUser_represents (h : Represents N f q) (hround : f.bytes + f.esize.toNat ≤ 2 ^ 32) (copy : UserCopy U)
    (u : U) {buf : List (Element esize)} (hbuf : len.toNat / esize ≤ buf.length) :
    ∃ f' o q', f.kfifoFromUser copy f.bytes u (bytesOf buf) len = some (f', o) ∧
      Spec copy N q (.fromUser u buf len) (.inr o) q' ∧ Represents N f' q' := by
  have hused : f.used = q.length := h.used
  let want := f.inLen (f.elements len)
  have hwant : want.toNat = min (len.toNat / esize) (N - q.length) := by
    have := h.ok.toNat_inLen (f.elements len)
    rwa [toNat_elements, h.size, hused, h.esize] at this
  have hroom : f.used + want.toNat ≤ f.size := h.ok.inLen_le _
  have hfit : want.toNat ≤ f.size := by omega
  have hhas : want.toNat ≤ buf.length := by omega
  have hbytes : want.toNat * f.esize.toNat ≤ (bytesOf buf).length := by
    rw [h.esize, bytesOf_length]
    exact Nat.mul_le_mul_right _ hhas
  obtain ⟨part, m, ret, hcopy, hlength, hmoves, hmpart, htake, hret⟩ := h.ok.copyFromUser_eq hround hfit copy u hbytes
  have hcwant : m / f.esize.toNat ≤ want.toNat :=
    Nat.div_le_of_le_mul (by rw [Nat.mul_comm]; exact Nat.le_trans hmpart hlength)
  obtain ⟨hpub, hcopied, hfault⟩ := settled h.ok hfit f.inIdx hcwant hret
  have hcm : m / f.esize.toNat * f.esize.toNat ≤ m := Nat.div_mul_le_self m f.esize.toNat
  have hrun : f.kfifoFromUser copy f.bytes u (bytesOf buf) len =
      some ((f.blitBehind part).publishIn (want - ret),
        { err := errOf (m / f.esize.toNat) want.toNat, copied := (f.span want f.inIdx).len - ret * f.esize,
          buf := [] }) := by
    rw [kfifoFromUser, if_pos (h.ok.within hfit f.inIdx), hcopy]
    exact settle_eq hfault (f.blitBehind part).publishIn
  have htotal : (f.used + want.toNat) * f.esize.toNat ≤ f.bytes := Nat.mul_le_mul_right _ hroom
  rw [Nat.add_mul] at htotal
  have hctake := congrArg (List.take (m / f.esize.toNat * f.esize.toNat)) htake
  rw [List.take_take, List.take_take, Nat.min_eq_left hcm] at hctake
  rw [← hpub] at hcm hctake
  have hrep := published_represents h (by omega) (by omega) (Nat.le_trans hcm hmpart) (by omega) hctake
  rw [hpub] at hrep
  rw [h.esize, (bytesOf_split hhas).1] at hmoves
  rw [h.esize] at hrun hcopied hrep
  exact ⟨_, _, _, hrun, .fromUser hwant hhas hmoves rfl hcopied rfl, hrep⟩

theorem toUser_represents (h : Represents N f q) (hround : f.bytes + f.esize.toNat ≤ 2 ^ 32) (copy : UserCopy U)
    (u : U) (len : UInt32) :
    ∃ f' o q', f.kfifoToUser copy f.bytes u len = some (f', o) ∧ Spec copy N q (.toUser u len) (.inr o) q' ∧
      Represents N f' q' := by
  obtain ⟨hbuf, hwant⟩ := outPeek_represents h (f.elements len)
  let want := f.outLen (f.elements len)
  rw [toNat_elements, h.esize] at hwant
  have hle : want.toNat ≤ f.used := outLen_le _
  have hfit : want.toNat ≤ f.size := Nat.le_trans hle h.ok.bounded
  obtain ⟨buf, m, ret, hcopy, hmoves, htake, hret⟩ := h.ok.copyToUser_eq hround hfit f.outIdx copy u
  have hcwant : m / f.esize.toNat ≤ want.toNat := by
    refine Nat.div_le_of_le_mul ?_
    have hm := hmoves.le
    rw [hbuf, bytesOf_length, List.length_take] at hm
    rw [h.esize, Nat.mul_comm]
    exact Nat.le_trans hm (Nat.mul_le_mul_right _ (Nat.min_le_left _ _))
  obtain ⟨hpub, hcopied, hfault⟩ := settled h.ok hfit f.outIdx hcwant hret
  have hrun : f.kfifoToUser copy f.bytes u len =
      some (f.publishOut (want - ret),
        { err := errOf (m / f.esize.toNat) want.toNat, copied := (f.span want f.outIdx).len - ret * f.esize,
          buf }) := by
    rw [kfifoToUser, if_pos (h.ok.within hfit f.outIdx), hcopy]
    exact settle_eq hfault f.publishOut
  have hrep := taken_represents h (n := want - ret) (by omega)
  rw [hpub] at hrep
  rw [hbuf] at hmoves htake
  rw [h.esize] at hrun hcopied hrep
  exact ⟨_, _, _, hrun, .toUser hwant hmoves rfl hcopied htake, hrep⟩

theorem user_step_represents {copy : UserCopy U} {op : Op U esize} (hround : (N + 1) * esize ≤ 2 ^ 32)
    (h : Represents N f q) (hop : op.Given) :
    ∃ f' o q', step copy (N * esize) f op = some (f', o) ∧ Spec copy N q op o q' ∧ Represents N f' q' := by
  have hround' : f.bytes + f.esize.toNat ≤ 2 ^ 32 := by rwa [h.bytes, h.esize, ← Nat.succ_mul]
  cases op with
  | queue op =>
    obtain ⟨f', o, q', hrun, hspec, hrep⟩ := queue_step_represents h hop
    exact ⟨f', _, q', by rw [step, hrun]; rfl, .queue hspec, hrep⟩
  | fromUser u buf len =>
    rw [← h.bytes]
    obtain ⟨f', o, q', hrun, hspec, hrep⟩ := fromUser_represents h hround' copy u hop
    exact ⟨f', _, q', by rw [step, hrun]; rfl, hspec, hrep⟩
  | toUser u len =>
    rw [← h.bytes]
    obtain ⟨f', o, q', hrun, hspec, hrep⟩ := toUser_represents h hround' copy u len
    exact ⟨f', _, q', by rw [step, hrun]; rfl, hspec, hrep⟩

/-- A copy of `mem.c` comes over whole. -/
theorem Spec.err_mem {op : Op U esize} {o : UserAnswer} {q' : List (Element esize)} (he : 0 < esize)
    (h : Spec .mem N q op (.inr o) q') : o.err = 0 := by
  have hall : ∀ {want m : Nat} {es : List (Element esize)} {u : U}, es.length = want →
      UserCopy.mem.Moves u (bytesOf es) m → errOf (m / esize) want = 0 := by
    intro want m es u hlength hmoves
    rw [hmoves.mem_eq, bytesOf_length, hlength, Nat.mul_div_cancel _ he, errOf, if_pos rfl]
  cases h with
  | fromUser _ hhas hmoves herr _ _ =>
    exact herr.trans (hall (by rw [List.length_take, Nat.min_eq_left hhas]) hmoves)
  | toUser hwant hmoves herr _ _ =>
    exact herr.trans (hall (by rw [List.length_take, Nat.min_eq_left (by omega)]) hmoves)

end Refinement

/-- **Faults cut between elements.** From an initialised fifo whose data area
has one element more below `2 ^ 32`, any calls of the queue and any copies
from and to a user's buffer, however many bytes come over, are answered as a
queue of elements answers them; with the copies of `mem.c` none fails. -/
theorem user_refines (copy : UserCopy U) {k : Nat} (hk : 1 ≤ k) (hk' : k ≤ 31) {size esize : UInt32}
    (hs : size.toNat = 2 ^ k) (he : 0 < esize.toNat) (hround : (size.toNat + 1) * esize.toNat ≤ 2 ^ 32)
    (data : Nat → UInt8) {ops : List (Op U esize.toNat)} (hops : ∀ op ∈ ops, op.Given) :
    ∃ f os q, answers (step copy (size.toNat * esize.toNat)) (initKfifo size esize data) ops = some (f, os) ∧
      Allows (Spec copy size.toNat) [] ops os q ∧ Represents size.toNat f q ∧
      (copy = .mem → ∀ o, .inr o ∈ os → o.err = 0) := by
  have hfits : size.toNat * esize.toNat < 2 ^ 32 := by
    rw [Nat.succ_mul] at hround
    omega
  obtain ⟨f, os, q, hrun, hall, hrep⟩ :=
    simulation (user_step_represents hround) (initKfifo_represents hk hk' hs he hfits data) (admits_of_forall hops)
  refine ⟨f, os, q, hrun, hall, hrep, ?_⟩
  rintro rfl o hmem
  obtain ⟨_, _, _, hspec⟩ := hall.exists_of_mem hmem
  exact hspec.err_mem he

/-- A fifo of two elements of two bytes. The second of two elements cannot be
read whole; it is queued on the second try. Then three bytes are taken, of
which two are an element. -/
def cutShort : List (Op Nat (2 : UInt32).toNat) :=
  [.fromUser 3 [⟨[11, 12], rfl⟩, ⟨[13, 14], rfl⟩] 4, .fromUser 2 [⟨[13, 14], rfl⟩] 3, .toUser 3 4,
    .queue (.outPeek 5), .toUser 9 4]

/-- With `mem.c` both elements are queued at once and taken at once. -/
theorem user_refines_cutShort :
    (∃ f os, ∃ q : List (Element (2 : UInt32).toNat),
      answers (step .upTo 4) (initKfifo 2 2 fun _ => 0) cutShort = some (f, os) ∧
        os = [.inr ⟨-14, 2, []⟩, .inr ⟨0, 2, []⟩, .inr ⟨-14, 2, [11, 12, 13]⟩, .inl ⟨1, [13, 14]⟩,
          .inr ⟨0, 2, [13, 14]⟩] ∧
        Allows (Spec .upTo 2) [] cutShort os q ∧ Represents 2 f q) ∧
    ∃ f os, ∃ q : List (Element (2 : UInt32).toNat),
      answers (step .mem 4) (initKfifo 2 2 fun _ => 0) cutShort = some (f, os) ∧
        os = [.inr ⟨0, 4, []⟩, .inr ⟨0, 0, []⟩, .inr ⟨0, 4, [11, 12, 13, 14]⟩, .inl ⟨0, []⟩, .inr ⟨0, 0, []⟩] ∧
        Allows (Spec .mem 2) [] cutShort os q ∧ Represents 2 f q := by
  have hsize : (2 : UInt32).toNat = 2 ^ 1 := rfl
  have hesize : 0 < (2 : UInt32).toNat := by decide
  have hgiven : ∀ op ∈ cutShort, op.Given := by decide
  constructor
  · obtain ⟨f, os, q, hrun, hall, hrep, -⟩ :=
      user_refines .upTo (Nat.le_refl 1) (by decide) hsize hesize (by decide) (fun _ => 0) hgiven
    refine ⟨f, os, q, hrun, ?_, hall, hrep⟩
    cases hrun
    rfl
  · obtain ⟨f, os, q, hrun, hall, hrep, -⟩ :=
      user_refines .mem (Nat.le_refl 1) (by decide) hsize hesize (by decide) (fun _ => 0) hgiven
    refine ⟨f, os, q, hrun, ?_, hall, hrep⟩
    cases hrun
    rfl

end User

end Lmsel4.Kfifo
