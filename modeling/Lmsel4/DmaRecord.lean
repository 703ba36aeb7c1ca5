/-
Record mode with a device (`__kfifo_dma_in_prepare_r` and the calls that
belong to it): the device stores or loads the bytes of a record behind its
length, and the length is written when the device is done.

A record sent is as long as what the device has stored. A record taken is
not: `__kfifo_dma_out_prepare_r` describes as many bytes as the caller asks
for, whatever the length of the record, if so many are queued, so that a
caller who asks for more than the record has gets the beginning of the next
one with it. The record itself is taken off whole either way, and the fifo
stays a queue of records (`dma_records_refine`).
-/
import Lmsel4.Dma
import Lmsel4.RecordUser

namespace Lmsel4.DmaRecord

open Kfifo (Answer UserAnswer)
open Dma
open Records (frame frames Represents Fresh)

/-! ## The calls -/

/-- `__kfifo_dma_in_prepare_r`. -/
def kfifoDmaInPrepareR (m : Frames) (fuel : Nat) (base recsize : UInt32) (f : Kfifo) (t : Table) (sgl nents : Nat)
    (len : UInt32) : Option (Table × Nat) :=
  -- BUG_ON(!nents);
  if nents = 0 then none
  else
    let len := Kfifo.kfifoMaxR len recsize
    if f.kfifoUnused < len + recsize then some (t, 0)
    else setupSgl m fuel base f t sgl nents len (f.inIdx + recsize)

/-- `__kfifo_dma_in_finish_r`. -/
def kfifoDmaInFinishR (f : Kfifo) (len recsize : UInt32) : Kfifo :=
  let len := Kfifo.kfifoMaxR len recsize
  (f.kfifoPokeN len recsize).publishIn (len + recsize)

/-- `__kfifo_dma_out_prepare_r`. -/
def kfifoDmaOutPrepareR (m : Frames) (fuel : Nat) (base recsize : UInt32) (f : Kfifo) (t : Table) (sgl nents : Nat)
    (len : UInt32) : Option (Table × Nat) :=
  -- BUG_ON(!nents);
  if nents = 0 then none
  else
    let len := Kfifo.kfifoMaxR len recsize
    if f.inIdx - f.outIdx < len + recsize then some (t, 0)
    else setupSgl m fuel base f t sgl nents len (f.outIdx + recsize)

/-- `__kfifo_dma_out_finish_r`. -/
def kfifoDmaOutFinishR (f : Kfifo) (recsize : UInt32) : Kfifo :=
  let len := f.kfifoPeekN recsize
  f.publishOut (len + recsize)

/-- A record from the device, which stores what it has as far as the list
goes; nothing is published without a list. -/
def transferInR (m : Frames) (fuel : Nat) (base recsize : UInt32) (f : Kfifo) (t : Table) (sgl nents : Nat)
    (len : UInt32) (has : List UInt8) : Option (Kfifo × Answer) :=
  (kfifoDmaInPrepareR m fuel base recsize f t sgl nents len).bind fun (t, n) =>
    if n = 0 then some (f, { ret := 0, buf := [] })
    else
      let stores := (dmaAddrs t n sgl).zip has
      (deviceStores m base stores f).map fun f =>
        (kfifoDmaInFinishR f (UInt32.ofNat stores.length) recsize, { ret := UInt32.ofNat n, buf := [] })

/-- A record to the device, which loads at most `most` bytes. -/
def transferOutR (m : Frames) (fuel : Nat) (base recsize : UInt32) (f : Kfifo) (t : Table) (sgl nents : Nat)
    (len : UInt32) (most : Nat) : Option (Kfifo × Answer) :=
  (kfifoDmaOutPrepareR m fuel base recsize f t sgl nents len).bind fun (t, n) =>
    if n = 0 then some (f, { ret := 0, buf := [] })
    else
      (deviceLoads m base f ((dmaAddrs t n sgl).take most)).map fun buf =>
        (kfifoDmaOutFinishR f recsize, { ret := UInt32.ofNat n, buf })

variable {U : Type}

inductive Op (U : Type)
  | call (op : RecordUser.Op U)
  | transferInR (t : Table) (sgl nents : Nat) (len : UInt32) (has : List UInt8)
  | transferOutR (t : Table) (sgl nents : Nat) (len : UInt32) (most : Nat)

def step (copy : UserCopy U) (m : Frames) (fuel : Nat) (base : UInt32) (area : Nat) (recsize : UInt32) (f : Kfifo) :
    Op U → Option (Kfifo × (Answer ⊕ UserAnswer))
  | .call op => RecordUser.step copy area recsize f op
  | .transferInR t sgl nents len has =>
    (transferInR m fuel base recsize f t sgl nents len has).map fun (f, o) => (f, .inl o)
  | .transferOutR t sgl nents len most =>
    (transferOutR m fuel base recsize f t sgl nents len most).map fun (f, o) => (f, .inl o)

/-- The caller has the list that they say they have. -/
def Given (recsize : UInt32) (f : Kfifo) : Op U → Prop
  | .call op => RecordUser.Given recsize f op
  | .transferInR t sgl nents _ _ | .transferOutR t sgl nents _ _ => Room t sgl nents ∧ 0 < nents ∧ nents < 2 ^ 31

instance (recsize : UInt32) (f : Kfifo) : ∀ op : Op U, Decidable (Given recsize f op)
  | .call op => inferInstanceAs (Decidable (RecordUser.Given recsize f op))
  | .transferInR _ _ _ _ _ | .transferOutR _ _ _ _ _ => inferInstanceAs (Decidable (_ ∧ _))

/-! ## What it is for -/

/-- The answers of a queue of records, of at most `N` bytes with their
lengths; `n` is what the length of a record can say of the caller's. -/
inductive Spec (copy : UserCopy U) (N recsize : Nat) :
    List (List UInt8) → Op U → Answer ⊕ UserAnswer → List (List UInt8) → Prop
  | call {rs op o rs'} : RecordUser.Spec copy N recsize rs op o rs' → Spec copy N recsize rs (.call op) o rs'
  | notSent {rs t sgl nents len has n} : n = min len.toNat (256 ^ recsize - 1) →
    n = 0 ∨ N < (frames recsize rs).length + (recsize + n) →
    Spec copy N recsize rs (.transferInR t sgl nents len has) (.inl { ret := 0, buf := [] }) rs
  | sent {rs t sgl nents len has n c} {o : Answer} : n = min len.toNat (256 ^ recsize - 1) → 0 < n →
    (frames recsize rs).length + (recsize + n) ≤ N → c ≤ min n has.length → 0 < o.ret.toNat → o.ret.toNat ≤ nents →
    (o.ret.toNat < nents → c = min n has.length) → o.buf = [] →
    Spec copy N recsize rs (.transferInR t sgl nents len has) (.inl o) (rs ++ [has.take c])
  | notTaken {rs t sgl nents len most n} : n = min len.toNat (256 ^ recsize - 1) →
    n = 0 ∨ (frames recsize rs).length < recsize + n →
    Spec copy N recsize rs (.transferOutR t sgl nents len most) (.inl { ret := 0, buf := [] }) rs
  | taken {r rs t sgl nents len most n} {o : Answer} : n = min len.toNat (256 ^ recsize - 1) → 0 < n →
    recsize + n ≤ (frames recsize (r :: rs)).length → 0 < o.ret.toNat → o.ret.toNat ≤ nents →
    -- As many bytes as the caller has asked for, be they the record's or not.
    o.buf <+: ((r ++ frames recsize rs).take n).take most →
    (o.ret.toNat < nents → o.buf = ((r ++ frames recsize rs).take n).take most) →
    Spec copy N recsize (r :: rs) (.transferOutR t sgl nents len most) (.inl o) rs

/-! ## Sending -/

section Sending

variable {f : Kfifo} {recsize n : UInt32}

/-- A cell, seen from the index `r` places behind it. -/
theorem cell_before (h : f.Ok) (x : UInt32) {r : UInt32} (hr : r.toNat ≤ f.size) :
    (x &&& f.mask).toNat = ((x + r).toNat + (f.size - r.toNat)) % f.size := by
  rw [h.toNat_and, UInt32.toNat_add, Nat.add_mod, Nat.mod_mod_of_dvd _ h.size_dvd, ← Nat.add_mod,
    show x.toNat + r.toNat + (f.size - r.toNat) = x.toNat + f.size by omega, Nat.add_mod_right]

/-- Writing the length of a record leaves the bytes behind it alone. -/
theorem behind_pokeN (h : f.Ok) (he : f.esize = 1) (hr : recsize = 1 ∨ recsize = 2) (c : UInt32)
    (hroom : recsize.toNat + n.toNat ≤ f.size) :
    ((f.kfifoPokeN c recsize).publishIn recsize).behind n = (f.publishIn recsize).behind n := by
  have hone := Kfifo.mul_esize he
  have hbytes := Kfifo.bytes_eq_size he
  have hlow : ∀ d, n.toNat ≤ d → d < f.size → ∀ (data : Nat → UInt8) (v : UInt8),
      Ring.window (Function.update data (((f.inIdx + recsize).toNat + d) % f.size) v) f.size
        (f.inIdx + recsize).toNat n.toNat = Ring.window data f.size (f.inIdx + recsize).toNat n.toNat :=
    fun d hn hd data v => Ring.window_update_outside hn hd v
  have hbehind : ∀ g : Kfifo, g.inIdx = f.inIdx → g.mask = f.mask → g.esize = f.esize →
      (g.publishIn recsize).behind n = Ring.window g.data f.size (f.inIdx + recsize).toNat n.toNat := by
    intro g hin hmask hesize
    rw [← hone (f.inIdx + recsize).toNat, ← hone n.toNat, ← hbytes, ← hin, Kfifo.behind, Kfifo.bytes, Kfifo.size]
    simp only [Kfifo.publishIn, hmask, hesize]
    rfl
  have hfirst := cell_before h f.inIdx (show recsize.toNat ≤ f.size by omega)
  have hpos : 0 < recsize.toNat := (Records.recsize_bound hr).1
  rw [hbehind _ (by rw [Records.pokeN_frame]) (by rw [Records.pokeN_frame]) (by rw [Records.pokeN_frame]),
    hbehind f rfl rfl rfl, Kfifo.kfifoPokeN]
  rcases hr with rfl | rfl
  · rw [if_neg (by decide)]
    dsimp only
    rw [hfirst, hlow _ (by omega) (by omega)]
  · have hsecond := cell_before h (f.inIdx + 1) (show (1 : UInt32).toNat ≤ f.size by rw [UInt32.toNat_one]; omega)
    rw [UInt32.add_assoc, show (1 : UInt32) + 1 = 2 from rfl, UInt32.toNat_one] at hsecond
    rw [show (2 : UInt32).toNat = 2 from rfl] at hroom hfirst
    rw [if_pos (by decide)]
    dsimp only
    rw [hsecond, hlow _ (by omega) (by omega), hfirst, hlow _ (by omega) (by omega)]

/-- The bytes that a device has stored behind the place of the length are a
record once the length is written. -/
theorem finished_grown (h : f.Ok) (he : f.esize = 1) (hr : recsize = 1 ∨ recsize = 2) (part : List UInt8)
    (hroom : f.used + (recsize.toNat + part.length) ≤ f.size) (hshort : part.length < 256 ^ recsize.toNat) :
    Records.Grown f (frame recsize.toNat part)
      (kfifoDmaInFinishR
        { f with data := Ring.blitWrap f.data f.bytes ((f.inIdx + recsize).toNat * f.esize.toNat % f.bytes) part }
        (UInt32.ofNat part.length) recsize) := by
  have hone := Kfifo.mul_esize he
  have hsize := h.size_le
  let stored : Kfifo :=
    { f with data := Ring.blitWrap f.data f.bytes ((f.inIdx + recsize).toNat * f.esize.toNat % f.bytes) part }
  have hok : stored.Ok := ⟨h.pow, h.esize_pos, h.fits, h.bounded⟩
  -- With the place of the length in the queue, the bytes are stored behind it.
  have hplace : f.used + recsize.toNat ≤ f.size := by omega
  have hok' := h.publishIn hplace
  have hstored : stored.publishIn recsize = (f.publishIn recsize).blitBehind part := by
    rw [Kfifo.blitBehind, ← Kfifo.mod_bytes]
    rfl
  have hfit : (f.publishIn recsize).used * f.esize.toNat + part.length ≤ (f.publishIn recsize).bytes := by
    rw [h.used_publishIn hplace, hone, show (f.publishIn recsize).bytes = f.size from hone _]
    omega
  have hcontent : stored.content = f.content := by
    have happend := hok.content_publishIn hplace
    rw [hstored, hok'.content_blit hfit, h.content_publishIn hplace] at happend
    exact (List.append_inj happend (by rw [Kfifo.content_length, Kfifo.content_length]; rfl)).1.symm
  -- The length says how many they are.
  obtain ⟨c, hc⟩ : ∃ c, c = Kfifo.kfifoMaxR (UInt32.ofNat part.length) recsize := ⟨_, rfl⟩
  have hcount : c.toNat = part.length := by
    rw [hc, RecordUser.toNat_maxR hr, UInt32.toNat_ofNat_of_lt' (show part.length < 2 ^ 32 by omega)]
    omega
  have hhead := Records.grown_pokeN (n := c) hok he hr hplace
  have hbehind : ((stored.kfifoPokeN c recsize).publishIn recsize).behind c = part := by
    rw [behind_pokeN hok he hr c (show recsize.toNat + c.toNat ≤ f.size by omega), hstored,
      hok'.behind_blit_take part c (by rw [show (f.publishIn recsize).esize = f.esize from rfl, hone]; omega)
        (by omega),
      List.take_of_length_le (by rw [show (f.publishIn recsize).esize = f.esize from rfl, hone]; omega)]
  have hused := hhead.used he
  rw [Records.header_length] at hused
  have hlast : ((stored.kfifoPokeN c recsize).publishIn recsize).used + c.toNat ≤
      ((stored.kfifoPokeN c recsize).publishIn recsize).size := by
    rw [hused, hhead.size, show stored.used = f.used from rfl, show stored.size = f.size from rfl]
    omega
  have hsum : kfifoDmaInFinishR stored (UInt32.ofNat part.length) recsize =
      ((stored.kfifoPokeN c recsize).publishIn recsize).publishIn c := by
    have hidx : ∀ i : UInt32, i + (c + recsize) = i + recsize + c := fun i => by
      rw [UInt32.add_comm c, UInt32.add_assoc]
    rw [kfifoDmaInFinishR, ← hc, Kfifo.publishIn, hidx]
    rfl
  show Records.Grown f _ (kfifoDmaInFinishR stored (UInt32.ofNat part.length) recsize)
  rw [hsum]
  refine ⟨hhead.ok.publishIn hlast, hhead.esize, hhead.size, ?_⟩
  rw [hhead.ok.content_publishIn hlast, hhead.content, hbehind, hcontent, frame, hcount, List.append_assoc]

end Sending

/-! ## The fifo is the queue -/

section Refinement

variable {m : Frames} {base recsize : UInt32} {f : Kfifo} {N fuel sgl nents : Nat} {rs : List (List UInt8)} {t : Table}

theorem setupSgl_zero (h : f.Ok) (off : UInt32) : setupSgl m fuel base f t sgl nents 0 off = some (t, 0) := by
  have hle : (0 : UInt32).toNat ≤ f.size := Nat.zero_le _
  obtain ⟨-, -, hfirst⟩ := h.span_eq hle off
  have hrest := h.toNat_span_rest hle off
  rw [UInt32.toNat_zero, Nat.zero_mul] at hfirst hrest
  have hl : (f.span 0 off).l = 0 := UInt32.toNat_inj.mp (hfirst.trans (Nat.zero_min _))
  have hl' : (f.span 0 off).len - (f.span 0 off).l = 0 := UInt32.toNat_inj.mp (hrest.trans (Nat.zero_sub _))
  have hnone : ∀ (sg : Nat) (buf : UInt32) (n : Nat), setupSglBuf m fuel t sg buf n 0 = some (t, 0) := by
    intro sg buf n
    rw [setupSglBuf, if_pos rfl, ite_self]
  rw [setupSgl, hl', hl, hnone]
  exact congrArg (Option.map _) (hnone ..)

/-- A list that describes some bytes has an entry. -/
theorem pos_of_describes {ps : List Piece} {bytes : List UInt32} (h : Describes nents ps bytes) (hn : 0 < nents)
    (hbytes : bytes ≠ []) : 0 < ps.length := by
  refine Nat.pos_of_ne_zero fun hzero => hbytes ?_
  rw [← h.whole (by omega), List.eq_nil_of_length_eq_zero hzero]
  rfl

/-- What `setup_sgl` does for a record: a list of at least one entry. -/
theorem setup_record (h : f.Ok) (he : f.esize = 1) (hp : Placed base f.bytes) (hfuel : f.bytes + 4096 ≤ 4096 * fuel)
    (hroom : Room t sgl nents) (hn : 0 < nents ∧ nents < 2 ^ 31) {n : UInt32} (hpos : 0 < n.toNat)
    (hle : n.toNat ≤ f.size) (off : UInt32) :
    ∃ ps, setupSgl m fuel base f t sgl nents n off = some (put t sgl ps, ps.length) ∧
      Describes nents ps (Ring.window (addrOf m base) f.bytes (off.toNat * f.esize.toNat) n.toNat) ∧
      ps.length ≠ 0 ∧ (UInt32.ofNat ps.length).toNat = ps.length := by
  obtain ⟨ps, hrun, hps⟩ := setupSgl_covers (m := m) h hp hroom hfuel hle off
  rw [Kfifo.mul_esize he n.toNat] at hps
  have hsome := pos_of_describes hps hn.1 fun hnil => by
    have := Ring.window_length (addrOf m base) f.bytes (off.toNat * f.esize.toNat) n.toNat
    rw [hnil, List.length_nil] at this
    omega
  refine ⟨ps, hrun, hps, Nat.ne_of_gt hsome, UInt32.toNat_ofNat_of_lt' (show ps.length < 2 ^ 32 from ?_)⟩
  have := hps.fits
  omega

theorem transferInR_represents (h : Represents N recsize f rs) (hr : recsize = 1 ∨ recsize = 2)
    (hp : Placed base f.bytes) (hapart : Apart m base f.bytes) (hfuel : f.bytes + 4096 ≤ 4096 * fuel)
    (hroom : Room t sgl nents) (hn : 0 < nents ∧ nents < 2 ^ 31) (copy : UserCopy U) (len : UInt32)
    (has : List UInt8) :
    ∃ f' o rs', transferInR m fuel base recsize f t sgl nents len has = some (f', o) ∧
      Spec copy N recsize.toNat rs (.transferInR t sgl nents len has) (.inl o) rs' ∧ Represents N recsize f' rs' := by
  have hused := h.used
  have hsize := h.size
  have hunused := h.ok.toNat_unused
  have hbound := Records.recsize_bound hr
  have hbytes := Kfifo.bytes_eq_size h.esize
  have hmax := RecordUser.toNat_maxR hr len
  obtain ⟨n, hlen⟩ : ∃ n, n = Kfifo.kfifoMaxR len recsize := ⟨_, rfl⟩
  rw [← hlen] at hmax
  have hsum : (n + recsize).toNat = n.toNat + recsize.toNat := Records.toNat_framed (by omega)
  rw [transferInR, kfifoDmaInPrepareR, if_neg (Nat.ne_of_gt hn.1), ← hlen]
  dsimp only
  by_cases hfull : f.kfifoUnused < n + recsize
  · rw [if_pos hfull]
    rw [UInt32.lt_iff_toNat_lt, hsum] at hfull
    exact ⟨f, _, rs, rfl, .notSent hmax (.inr (by omega)), h⟩
  rw [if_neg hfull]
  rw [UInt32.lt_iff_toNat_lt, hsum] at hfull
  by_cases hzero : n = 0
  · rw [hzero, setupSgl_zero h.ok]
    exact ⟨f, _, rs, rfl, .notSent hmax (.inl (by rw [hzero]; rfl)), h⟩
  have hpos : 0 < n.toNat := Nat.pos_of_ne_zero fun he => hzero (UInt32.toNat_inj.mp he)
  obtain ⟨ps, hprep, hps, hsome, hret⟩ := setup_record (m := m) h.ok h.esize hp hfuel hroom hn hpos
    (show n.toNat ≤ f.size by omega) (f.inIdx + recsize)
  obtain ⟨k, hk, hall, hcount, hstores⟩ := hps.stores hroom hapart (by omega) has
  have hlength : (has.take k).length = min k has.length := List.length_take
  have hgrown := finished_grown h.ok h.esize hr (has.take k) (by omega) (by omega)
  have hfits : (frames recsize.toNat rs).length + (recsize.toNat + n.toNat) ≤ N := by omega
  have hspec : Spec copy N recsize.toNat rs (.transferInR t sgl nents len has)
      (.inl { ret := UInt32.ofNat ps.length, buf := [] }) (rs ++ [has.take (min k has.length)]) := by
    refine .sent hmax hpos hfits (by omega) ?_ ?_ (fun hless => ?_) rfl
    · rw [hret]
      omega
    · rw [hret]
      exact hps.fits
    · rw [hret] at hless
      rw [hall hless]
  rw [← List.take_eq_take_min] at hspec
  refine ⟨_, _, rs ++ [has.take k], ?_, hspec, RecordUser.grown_represents h hgrown (by omega)⟩
  rw [hprep, Option.bind_some]
  dsimp only
  rw [if_neg hsome, hcount, hstores]
  rfl

/-- What is behind the length of the oldest record. -/
theorem content_drop {r : List UInt8} (h : Represents N recsize f (r :: rs)) :
    f.content.drop recsize.toNat = r ++ frames recsize.toNat rs := by
  rw [h.content, Records.frames_cons, frame, List.append_assoc, List.drop_left' (Records.header_length _ _)]

theorem transferOutR_represents (h : Represents N recsize f rs) (hr : recsize = 1 ∨ recsize = 2)
    (hp : Placed base f.bytes) (hapart : Apart m base f.bytes) (hfuel : f.bytes + 4096 ≤ 4096 * fuel)
    (hroom : Room t sgl nents) (hn : 0 < nents ∧ nents < 2 ^ 31) (copy : UserCopy U) (len : UInt32) (most : Nat) :
    ∃ f' o rs', transferOutR m fuel base recsize f t sgl nents len most = some (f', o) ∧
      Spec copy N recsize.toNat rs (.transferOutR t sgl nents len most) (.inl o) rs' ∧ Represents N recsize f' rs' := by
  have hused := h.used
  have hbounded := h.ok.bounded
  have hbound := Records.recsize_bound hr
  have hmax := RecordUser.toNat_maxR hr len
  obtain ⟨n, hlen⟩ : ∃ n, n = Kfifo.kfifoMaxR len recsize := ⟨_, rfl⟩
  rw [← hlen] at hmax
  have hsum : (n + recsize).toNat = n.toNat + recsize.toNat := Records.toNat_framed (by omega)
  rw [transferOutR, kfifoDmaOutPrepareR, if_neg (Nat.ne_of_gt hn.1), ← hlen]
  dsimp only
  by_cases hfew : f.inIdx - f.outIdx < n + recsize
  · rw [if_pos hfew]
    rw [UInt32.lt_iff_toNat_lt, hsum, ← Kfifo.used] at hfew
    exact ⟨f, _, rs, rfl, .notTaken hmax (.inr (by omega)), h⟩
  rw [if_neg hfew]
  rw [UInt32.lt_iff_toNat_lt, hsum, ← Kfifo.used] at hfew
  by_cases hzero : n = 0
  · rw [hzero, setupSgl_zero h.ok]
    exact ⟨f, _, rs, rfl, .notTaken hmax (.inl (by rw [hzero]; rfl)), h⟩
  have hpos : 0 < n.toNat := Nat.pos_of_ne_zero fun he => hzero (UInt32.toNat_inj.mp he)
  obtain ⟨ps, hprep, hps, hsome, hret⟩ := setup_record (m := m) h.ok h.esize hp hfuel hroom hn hpos
    (show n.toNat ≤ f.size by omega) (f.outIdx + recsize)
  obtain ⟨k, hk, hall, hloads⟩ := hps.loads hroom hapart h.ok.bytes_pos most
  cases rs with
  | nil =>
    rw [Records.frames_nil, List.length_nil] at hused
    omega
  | cons r rs =>
    obtain ⟨-, -, -, hskip⟩ := RecordUser.front h hr
    -- The bytes are the first behind the length, as they are in the queue without it.
    have hbuf : Ring.window f.data f.bytes ((f.outIdx + recsize).toNat * f.esize.toNat) (min most k) =
        (r ++ frames recsize.toNat rs).take (min most k) := by
      obtain ⟨-, hcontent⟩ := Records.shrunk h.ok h.esize (n := recsize) (by omega)
      have hleft := Kfifo.used_publishOut (f := f) (show recsize.toNat ≤ f.used by omega)
      rw [content_drop h] at hcontent
      rw [← hcontent]
      refine (Ring.window_take ?_).symm
      rw [hleft, Kfifo.mul_esize (f := f.publishOut recsize) h.esize]
      omega
    rw [hbuf] at hloads
    refine ⟨f.kfifoSkipR recsize,
      { ret := UInt32.ofNat ps.length, buf := (r ++ frames recsize.toNat rs).take (min most k) }, rs, ?_,
      .taken hmax hpos (by omega) ?_ ?_ ?_ (fun hless => ?_), hskip⟩
    · rw [hprep, Option.bind_some]
      dsimp only
      rw [if_neg hsome, hloads]
      rfl
    · rw [hret]
      omega
    · rw [hret]
      exact hps.fits
    · rw [List.take_take]
      exact List.take_prefix_take_left (by omega)
    · rw [hret] at hless
      rw [List.take_take, hall hless]

theorem dma_records_step {copy : UserCopy U} (hr : recsize = 1 ∨ recsize = 2) (hp : Placed base N)
    (hapart : Apart m base N) (hfuel : N + 4096 ≤ 4096 * fuel) {op : Op U} (h : Represents N recsize f rs)
    (hop : Given recsize f op) :
    ∃ f' o rs', step copy m fuel base N recsize f op = some (f', o) ∧ Spec copy N recsize.toNat rs op o rs' ∧
      Represents N recsize f' rs' := by
  have hbytes : f.bytes = N := (Kfifo.bytes_eq_size h.esize).trans h.size
  cases op with
  | call op =>
    obtain ⟨f', o, rs', hrun, hspec, hrep⟩ := RecordUser.records_user_step hr h hop
    exact ⟨f', o, rs', hrun, .call hspec, hrep⟩
  | transferInR t sgl nents len has =>
    rw [← hbytes] at hp hapart hfuel
    obtain ⟨f', o, rs', hrun, hspec, hrep⟩ := transferInR_represents h hr hp hapart hfuel hop.1 hop.2 copy len has
    exact ⟨f', _, rs', by rw [step, hrun]; rfl, hspec, hrep⟩
  | transferOutR t sgl nents len most =>
    rw [← hbytes] at hp hapart hfuel
    obtain ⟨f', o, rs', hrun, hspec, hrep⟩ := transferOutR_represents h hr hp hapart hfuel hop.1 hop.2 copy len most
    exact ⟨f', _, rs', by rw [step, hrun]; rfl, hspec, hrep⟩

end Refinement

/-- A device sends two records into a fifo of eight bytes. Asked for four
bytes, the fifo gives it the three of the first record and the length of the
second. -/
def oneTooMany : List (Op Unit) :=
  [.transferInR fourEntries 0 4 4 [1, 2, 3], .transferInR fourEntries 0 4 2 [4, 5, 6],
    .transferOutR fourEntries 0 4 4 9, .call (.toUserR () 9), .transferOutR fourEntries 0 4 1 9]

end Lmsel4.DmaRecord
