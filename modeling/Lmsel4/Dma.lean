/-
kfifo filled and emptied by a device (`__kfifo_dma_in_prepare`,
`__kfifo_dma_out_prepare`): instead of copying, the calls describe the bytes
to the device, as a scatterlist of physically contiguous pieces.

`setup_sgl_buf` walks over the pages of a piece of the data area and joins
those whose frames follow each other. Whatever frames the pages are in, the
addresses in the list are, in order, those of the bytes that `__kfifo_in`
would store to or `__kfifo_out` load from, all of them unless the list is
full (`setupSgl_covers`). So a transfer and the index published after it
are a call of the queue (`dma_refines`).
-/
import Lmsel4.UserCopy

namespace Lmsel4.Dma

open Kfifo (Answer Element Represents bytesOf)

/-! ## Pages -/

/-- The frame that each page of kernel addresses is in, by their numbers. A
`struct page` is named by the number of its frame. -/
abbrev Frames := UInt32 → UInt32

def pageSize : UInt32 := 4096

def virtToPage (m : Frames) (addr : UInt32) : UInt32 := m (addr >>> 12)

def pageToPhys (page : UInt32) : UInt32 := page <<< 12

def offsetInPage (addr : UInt32) : UInt32 := addr &&& (pageSize - 1)

/-- Where a device finds the byte at a kernel address. -/
def phys (m : Frames) (addr : UInt32) : UInt32 := pageToPhys (virtToPage m addr) + offsetInPage addr

/-! ## Scatterlists -/

/-- `struct scatterlist`: `page_link` is the two marks and what the entry
points to, a page or, with the mark `chain`, the entry it goes on at. -/
structure Scatterlist where
  chain : Bool
  last : Bool
  link : UInt32
  offset : UInt32
  length : UInt32

/-- Entries, by where they are. -/
abbrev Table := Nat → Scatterlist

/-- `sg_set_page`: the marks are kept. -/
def sgSetPage (t : Table) (sg : Nat) (page len offset : UInt32) : Table :=
  Function.update t sg { t sg with link := page, offset, length := len }

/-- `sg_next`. -/
def sgNext (t : Table) (sg : Nat) : Option Nat :=
  if (t sg).last then none
  else if (t (sg + 1)).chain then some (t (sg + 1)).link.toNat
  else some (sg + 1)

/-- The loop of `setup_sgl_buf`, for at most `fuel` rounds. -/
def setupLoop (m : Frames) (nents : Nat) : (fuel : Nat) → (t : Table) → (sgl n : Nat) →
    (buf page off l len : UInt32) → Option (Table × Nat)
  | 0, _, _, _, _, _, _, _, _ => none
  | fuel + 1, t, sgl, n, buf, page, off, l, len =>
    if l + pageSize - off ≤ len then
      let l := l + pageSize
      let buf := buf + pageSize
      let npage := virtToPage m buf
      if pageToPhys page ≠ pageToPhys npage - l then
        let t := sgSetPage t sgl page (l - off) off
        let n := n + 1
        match sgNext t sgl with
        | some sgl => if n = nents then some (t, n) else setupLoop m nents fuel t sgl n buf npage 0 0 (len - (l - off))
        | none => some (t, n)
      else setupLoop m nents fuel t sgl n buf page off l len
    else some (sgSetPage t sgl page len off, n + 1)

/-- `setup_sgl_buf`: the table and the number of entries set. -/
def setupSglBuf (m : Frames) (fuel : Nat) (t : Table) (sgl : Nat) (buf : UInt32) (nents : Nat) (len : UInt32) :
    Option (Table × Nat) :=
  if nents = 0 then some (t, 0)
  else if len = 0 then some (t, 0)
  else setupLoop m nents fuel t sgl 0 buf (virtToPage m buf) (offsetInPage buf) 0 len

/-- `setup_sgl`, for a data area at `base`. -/
def setupSgl (m : Frames) (fuel : Nat) (base : UInt32) (f : Kfifo) (t : Table) (sgl nents : Nat) (len off : UInt32) :
    Option (Table × Nat) :=
  let s := f.span len off
  (setupSglBuf m fuel t sgl (base + s.off) nents s.l).bind fun r =>
    (setupSglBuf m fuel r.1 (sgl + r.2) base (nents - r.2) (s.len - s.l)).map fun r' => (r'.1, r.2 + r'.2)

/-- The addresses in an entry. -/
def sgAddrs (sg : Scatterlist) : List UInt32 :=
  (List.range sg.length.toNat).map fun i => pageToPhys sg.link + sg.offset + UInt32.ofNat i

/-- The addresses that a device meets in `n` entries from `sg` on
(`for_each_sg`). -/
def dmaAddrs (t : Table) : (n : Nat) → (sg : Nat) → List UInt32
  | 0, _ => []
  | n + 1, sg => sgAddrs (t sg) ++
    match sgNext t sg with
    | some sg => dmaAddrs t n sg
    | none => []

/-- `__kfifo_dma_in_prepare`. -/
def kfifoDmaInPrepare (m : Frames) (fuel : Nat) (base : UInt32) (f : Kfifo) (t : Table) (sgl nents : Nat)
    (len : UInt32) : Option (Table × Nat) :=
  setupSgl m fuel base f t sgl nents (f.inLen len) f.inIdx

/-- `__kfifo_dma_out_prepare`. -/
def kfifoDmaOutPrepare (m : Frames) (fuel : Nat) (base : UInt32) (f : Kfifo) (t : Table) (sgl nents : Nat)
    (len : UInt32) : Option (Table × Nat) :=
  setupSgl m fuel base f t sgl nents (f.outLen len) f.outIdx

/-- `kfifo_dma_in_finish`. -/
def kfifoDmaInFinish (f : Kfifo) (len : UInt32) : Kfifo := f.publishIn (len / f.esize)

/-- `kfifo_dma_out_finish`. -/
def kfifoDmaOutFinish (f : Kfifo) (len : UInt32) : Kfifo := f.publishOut (len / f.esize)

/-! ## The device -/

/-- `phys`, by a number. -/
def physAt (m : Frames) (a : Nat) : UInt32 := phys m (UInt32.ofNat a)

/-- Where a device finds byte `i` of the data area. -/
def addrOf (m : Frames) (base : UInt32) (i : Nat) : UInt32 := physAt m (base.toNat + i)

/-- The byte of the data area that a device finds at an address. -/
def byteAt (m : Frames) (base : UInt32) (bytes : Nat) (addr : UInt32) : Option Nat :=
  (List.range bytes).find? fun i => addrOf m base i == addr

/-- A device stores bytes; it cannot store outside the data area. -/
def deviceStores (m : Frames) (base : UInt32) : List (UInt32 × UInt8) → Kfifo → Option Kfifo
  | [], f => some f
  | (addr, v) :: rest, f =>
    (byteAt m base f.bytes addr).bind fun i => deviceStores m base rest { f with data := Function.update f.data i v }

/-- A device loads bytes; it cannot load outside the data area. -/
def deviceLoads (m : Frames) (base : UInt32) (f : Kfifo) : List UInt32 → Option (List UInt8)
  | [] => some []
  | addr :: rest => (byteAt m base f.bytes addr).bind fun i => (deviceLoads m base f rest).map (f.data i :: ·)

/-- A transfer into the fifo: the device stores what it has, as far as the
list goes, and the caller publishes as many bytes. -/
def transferIn (m : Frames) (fuel : Nat) (base : UInt32) (f : Kfifo) (t : Table) (sgl nents : Nat) (len : UInt32)
    (has : List UInt8) : Option (Kfifo × Answer) :=
  (kfifoDmaInPrepare m fuel base f t sgl nents len).bind fun (t, n) =>
    let stores := (dmaAddrs t n sgl).zip has
    (deviceStores m base stores f).map fun f =>
      (kfifoDmaInFinish f (UInt32.ofNat stores.length), { ret := UInt32.ofNat n, buf := [] })

/-- A transfer out of the fifo: the device loads at most `most` bytes, and
the caller publishes as many. -/
def transferOut (m : Frames) (fuel : Nat) (base : UInt32) (f : Kfifo) (t : Table) (sgl nents : Nat) (len : UInt32)
    (most : Nat) : Option (Kfifo × Answer) :=
  (kfifoDmaOutPrepare m fuel base f t sgl nents len).bind fun (t, n) =>
    (deviceLoads m base f ((dmaAddrs t n sgl).take most)).map fun buf =>
      (kfifoDmaOutFinish f (UInt32.ofNat buf.length), { ret := UInt32.ofNat n, buf })

/-- A call of the queue, or a transfer through a list of `nents` entries. -/
inductive Op (esize : Nat)
  | queue (op : Kfifo.Op esize)
  | transferIn (t : Table) (sgl nents : Nat) (len : UInt32) (has : List (Element esize))
  | transferOut (t : Table) (sgl nents : Nat) (len : UInt32) (most : Nat)

def step {esize : Nat} (m : Frames) (fuel : Nat) (base : UInt32) (area : Nat) (f : Kfifo) :
    Op esize → Option (Kfifo × Answer)
  | .queue op => Kfifo.step area f op
  | .transferIn t sgl nents len has => transferIn m fuel base f t sgl nents len (bytesOf has)
  | .transferOut t sgl nents len most => transferOut m fuel base f t sgl nents len most

/-- `nents` entries in a row: none but the last may be marked as the end,
none is a chain entry. -/
def Room (t : Table) (sgl nents : Nat) : Prop :=
  ∀ i < nents, (t (sgl + i)).chain = false ∧ (i + 1 < nents → (t (sgl + i)).last = false)

instance (t : Table) (sgl nents : Nat) : Decidable (Room t sgl nents) :=
  inferInstanceAs (Decidable (∀ i < nents, _))

/-- The caller has the buffer or the list that they say they have. -/
def Op.Given {esize : Nat} : Op esize → Prop
  | .queue op => op.Given
  | .transferIn t sgl nents _ _ | .transferOut t sgl nents _ _ => Room t sgl nents ∧ nents < 2 ^ 31

instance {esize : Nat} : ∀ op : Op esize, Decidable op.Given
  | .queue op => inferInstanceAs (Decidable op.Given)
  | .transferIn _ _ _ _ _ | .transferOut _ _ _ _ _ => inferInstanceAs (Decidable (_ ∧ _))

/-! ## What it is for -/

/-- The answers of a queue of at most `N` elements. A list that is full may
cut a transfer short; one that is not has all there is to transfer. -/
inductive Spec {esize : Nat} (N : Nat) : List (Element esize) → Op esize → Answer → List (Element esize) → Prop
  | queue {q op o q'} : Kfifo.Spec N q op o q' → Spec N q (.queue op) o q'
  | transferIn {q t sgl nents len has want c} {o : Answer} :
    want = min (min len.toNat (N - q.length)) has.length → c ≤ want → o.ret.toNat ≤ nents →
    (o.ret.toNat < nents → c = want) → o.buf = [] → Spec N q (.transferIn t sgl nents len has) o (q ++ has.take c)
  | transferOut {q t sgl nents len most want} {o : Answer} :
    want = min len.toNat q.length → o.buf <+: (bytesOf (q.take want)).take most → o.ret.toNat ≤ nents →
    (o.ret.toNat < nents → o.buf = (bytesOf (q.take want)).take most) →
    Spec N q (.transferOut t sgl nents len most) o (q.drop (o.buf.length / esize))

/-! ## Lists of entries -/

section Entries

/-- What `sg_set_page` puts into an entry. -/
structure Piece where
  page : UInt32
  length : UInt32
  offset : UInt32

def Piece.addrs (p : Piece) : List UInt32 :=
  (List.range p.length.toNat).map fun i => pageToPhys p.page + p.offset + UInt32.ofNat i

/-- Pieces put into the entries from `sgl` on. -/
def put (t : Table) (sgl : Nat) : List Piece → Table
  | [] => t
  | p :: ps => put (sgSetPage t sgl p.page p.length p.offset) (sgl + 1) ps

def covers (ps : List Piece) : List UInt32 := ps.flatMap Piece.addrs

variable {t : Table} {sgl nents : Nat} {p : Piece} {ps : List Piece}

theorem put_append (ps ps' : List Piece) : put t sgl (ps ++ ps') = put (put t sgl ps) (sgl + ps.length) ps' := by
  induction ps generalizing t sgl with
  | nil => rfl
  | cons p ps ih =>
    rw [List.cons_append, put, ih, put, List.length_cons, Nat.add_assoc, Nat.add_comm 1]

theorem marks_sgSetPage (t : Table) (sg : Nat) (page len offset : UInt32) (i : Nat) :
    (sgSetPage t sg page len offset i).chain = (t i).chain ∧ (sgSetPage t sg page len offset i).last = (t i).last := by
  by_cases hi : i = sg
  · subst hi
    rw [sgSetPage, Function.update_self]
    exact ⟨rfl, rfl⟩
  · rw [sgSetPage, Function.update_of_ne hi]
    exact ⟨rfl, rfl⟩

theorem Room.set (h : Room t sgl nents) (sg : Nat) (page len offset : UInt32) :
    Room (sgSetPage t sg page len offset) sgl nents := by
  intro i hi
  obtain ⟨hchain, hlast⟩ := marks_sgSetPage t sg page len offset (sgl + i)
  rw [hchain, hlast]
  exact h i hi

theorem Room.tail (h : Room t sgl (nents + 1)) : Room t (sgl + 1) nents := by
  intro i hi
  have := h (i + 1) (by omega)
  rw [show sgl + 1 + i = sgl + (i + 1) by omega]
  exact ⟨this.1, fun hlt => this.2 (by omega)⟩

theorem Room.put (h : Room t sgl nents) (sg : Nat) (ps : List Piece) : Room (put t sg ps) sgl nents := by
  induction ps generalizing t sg with
  | nil => exact h
  | cons p ps ih => exact ih (h.set sg p.page p.length p.offset) (sg + 1)

theorem Room.drop (h : Room t sgl nents) (n : Nat) : Room t (sgl + n) (nents - n) := by
  intro i hi
  have := h (n + i) (by omega)
  rw [Nat.add_assoc]
  exact ⟨this.1, fun hlt => this.2 (by omega)⟩

theorem Room.mono {n : Nat} (h : Room t sgl nents) (hn : n ≤ nents) : Room t sgl n :=
  fun i hi => ⟨(h i (by omega)).1, fun hlt => (h i (by omega)).2 (by omega)⟩

theorem Room.sgNext (h : Room t sgl (nents + 2)) : sgNext t sgl = some (sgl + 1) := by
  have hlast := (h 0 (by omega)).2 (by omega)
  have hchain := (h 1 (by omega)).1
  rw [Nat.add_zero] at hlast
  rw [Dma.sgNext, hlast, hchain]
  rfl

/-- Entries before those put are kept. -/
theorem put_before {i : Nat} (hi : i < sgl) : put t sgl ps i = t i := by
  induction ps generalizing t sgl with
  | nil => rfl
  | cons p ps ih =>
    rw [put, ih (Nat.lt_succ_of_lt hi), sgSetPage, Function.update_of_ne (Nat.ne_of_lt hi)]

/-- A device that goes through the entries meets the pieces. -/
theorem dmaAddrs_put (h : Room t sgl ps.length) : dmaAddrs (put t sgl ps) ps.length sgl = covers ps := by
  induction ps generalizing t sgl with
  | nil => rfl
  | cons p ps ih =>
    have hroom := h.set sgl p.page p.length p.offset
    have hhead : sgAddrs (put t sgl (p :: ps) sgl) = p.addrs := by
      rw [put, put_before (Nat.lt_succ_self sgl), sgSetPage, Function.update_self]
      rfl
    rw [List.length_cons, dmaAddrs, hhead, covers, List.flatMap_cons]
    congr 1
    cases ps with
    | nil =>
      split
      · rfl
      · rfl
    | cons p' ps =>
      rw [(Room.put h sgl (p :: p' :: ps)).sgNext]
      exact ih hroom.tail

end Entries

/-! ## Addresses -/

section Addresses

variable {m : Frames}

theorem toNat_pageSize : pageSize.toNat = 4096 := rfl

theorem toNat_offsetInPage (a : UInt32) : (offsetInPage a).toNat = a.toNat % 4096 := by
  rw [offsetInPage, UInt32.toNat_and]
  exact Nat.and_two_pow_sub_one_eq_mod a.toNat 12

theorem virtToPage_eq (m : Frames) (a : UInt32) : virtToPage m a = m (UInt32.ofNat (a.toNat / 4096)) := by
  rw [virtToPage]
  congr 1
  refine UInt32.toNat_inj.mp ?_
  have := a.toNat_lt
  rw [UInt32.toNat_shiftRight, UInt32.toNat_ofNat']
  change a.toNat >>> 12 = _
  rw [Nat.shiftRight_eq_div_pow]
  omega

theorem physAt_eq {a : Nat} (ha : a < 2 ^ 32) :
    physAt m a = pageToPhys (m (UInt32.ofNat (a / 4096))) + UInt32.ofNat (a % 4096) := by
  have hnat : (UInt32.ofNat a).toNat = a := UInt32.toNat_ofNat_of_lt' ha
  have hoff : offsetInPage (UInt32.ofNat a) = UInt32.ofNat (a % 4096) := by
    refine UInt32.toNat_inj.mp ?_
    rw [toNat_offsetInPage, hnat, UInt32.toNat_ofNat']
    omega
  rw [physAt, phys, virtToPage_eq, hnat, hoff]

/-- The pages up to `l` bytes behind the page of `a` are in frames that
follow each other. -/
def Merged (m : Frames) (a l : Nat) : Prop :=
  ∀ j, j * 4096 ≤ l → pageToPhys (m (UInt32.ofNat (a / 4096 + j))) =
    pageToPhys (m (UInt32.ofNat (a / 4096))) + UInt32.ofNat (j * 4096)

/-- The bytes of merged pages are at addresses that follow each other. -/
theorem Merged.physAt_add {a l i : Nat} (h : Merged m a l) (hi : a % 4096 + i < l + 4096) (hlt : a + i < 2 ^ 32)
    (hl : l % 4096 = 0) :
    physAt m (a + i) = pageToPhys (m (UInt32.ofNat (a / 4096))) + UInt32.ofNat (a % 4096) + UInt32.ofNat i := by
  have hj : (a + i) / 4096 = a / 4096 + (a % 4096 + i) / 4096 := by omega
  have hmod : (a + i) % 4096 = (a % 4096 + i) % 4096 := by omega
  rw [physAt_eq hlt, hj, h _ (by omega), hmod, UInt32.add_assoc, UInt32.add_assoc, ← UInt32.ofNat_add,
    ← UInt32.ofNat_add]
  congr 2
  omega

/-- One piece for the bytes of merged pages. -/
theorem Merged.piece {a l k : Nat} (h : Merged m a l) (hk : a % 4096 + k ≤ l + 4096) (hlt : a + k ≤ 2 ^ 32)
    (hl : l % 4096 = 0) {len off : UInt32} (hlen : len.toNat = k) (hoff : off.toNat = a % 4096) :
    Piece.addrs ⟨m (UInt32.ofNat (a / 4096)), len, off⟩ = Ring.run (physAt m) a k := by
  have hoff' : off = UInt32.ofNat (a % 4096) := by
    rw [← hoff, UInt32.ofNat_toNat]
  simp only [Piece.addrs, Ring.run, hlen, hoff']
  refine List.map_congr_left fun i hi => ?_
  rw [List.mem_range] at hi
  exact (h.physAt_add (by omega) (by omega) hl).symm

theorem merged_zero (m : Frames) (a : Nat) : Merged m a 0 := by
  intro j hj
  obtain rfl : j = 0 := by omega
  simp

/-- One page more. -/
theorem Merged.succ {a l : Nat} (h : Merged m a l) (hl : l % 4096 = 0)
    (hnext : pageToPhys (m (UInt32.ofNat (a / 4096 + (l + 4096) / 4096))) =
      pageToPhys (m (UInt32.ofNat (a / 4096))) + UInt32.ofNat (l + 4096)) : Merged m a (l + 4096) := by
  intro j hj
  by_cases hle : j * 4096 ≤ l
  · exact h j hle
  · obtain rfl : j = (l + 4096) / 4096 := by omega
    rw [hnext]
    congr 2
    omega

end Addresses

/-! ## The loop -/

section Loop

variable {m : Frames} {t : Table} {sgl nents n a : Nat} {buf off l len : UInt32}

/-- Where the loop stands: `a` is the first byte that is in no entry yet,
`l` bytes of pages behind its own have been joined, `len` bytes are to go. -/
structure At (m : Frames) (a : Nat) (buf off l len : UInt32) : Prop where
  off : off.toNat = a % 4096
  pages : l.toNat % 4096 = 0
  buf : buf.toNat / 4096 = a / 4096 + l.toNat / 4096
  joined : l.toNat ≤ a % 4096 + len.toNat
  merged : Merged m a l.toNat
  low : 4096 ≤ a
  high : a + len.toNat < 2 ^ 32

/-- The test of the loop: the bytes go on behind the page. -/
theorem At.test (h : At m a buf off l len) :
    l + pageSize - off ≤ len ↔ l.toNat + 4096 ≤ a % 4096 + len.toNat := by
  obtain ⟨hoff, hpages, -, hjoined, -, hlow, hhigh⟩ := h
  rw [UInt32.le_iff_toNat_le, UInt32.toNat_sub, UInt32.toNat_add, toNat_pageSize, hoff]
  omega

theorem At.toNat_l (h : At m a buf off l len) (hgo : l.toNat + 4096 ≤ a % 4096 + len.toNat) :
    (l + pageSize).toNat = l.toNat + 4096 := by
  obtain ⟨hoff, hpages, -, hjoined, -, hlow, hhigh⟩ := h
  rw [UInt32.toNat_add, toNat_pageSize]
  omega

theorem At.toNat_buf (h : At m a buf off l len) (hgo : l.toNat + 4096 ≤ a % 4096 + len.toNat) :
    (buf + pageSize).toNat / 4096 = a / 4096 + (l.toNat + 4096) / 4096 := by
  obtain ⟨hoff, hpages, hbuf, hjoined, -, hlow, hhigh⟩ := h
  rw [UInt32.toNat_add, toNat_pageSize]
  omega

/-- The test in the loop: the next frame does not follow. -/
theorem follows_iff {x y z : UInt32} : ¬ x ≠ y - z ↔ y = x + z := by
  rw [not_not]
  constructor
  · rintro rfl
    rw [UInt32.sub_add_cancel]
  · rintro rfl
    rw [UInt32.add_sub_cancel]

/-- The next page is joined. -/
theorem At.join (h : At m a buf off l len) (hgo : l.toNat + 4096 ≤ a % 4096 + len.toNat)
    (hnext : pageToPhys (virtToPage m (buf + pageSize)) = pageToPhys (m (UInt32.ofNat (a / 4096))) + (l + pageSize)) :
    At m a (buf + pageSize) off (l + pageSize) len := by
  have hl := h.toNat_l hgo
  have hbuf := h.toNat_buf hgo
  rw [virtToPage_eq, hbuf] at hnext
  refine ⟨h.off, ?_, by rw [hl, hbuf], by omega, ?_, h.low, h.high⟩
  · rw [hl]
    have := h.pages
    omega
  · rw [hl]
    refine h.merged.succ h.pages ?_
    rw [hnext, ← hl, UInt32.ofNat_toNat]

/-- The bytes up to the end of the joined pages go into an entry. -/
theorem At.cut (h : At m a buf off l len) (hgo : l.toNat + 4096 ≤ a % 4096 + len.toNat) :
    (l + pageSize - off).toNat = l.toNat + 4096 - a % 4096 ∧
    At m (a + (l.toNat + 4096 - a % 4096)) (buf + pageSize) 0 0 (len - (l + pageSize - off)) := by
  have hl := h.toNat_l hgo
  have hbuf := h.toNat_buf hgo
  obtain ⟨hoff, hpages, -, hjoined, -, hlow, hhigh⟩ := h
  have hcut : (l + pageSize - off).toNat = l.toNat + 4096 - a % 4096 := by
    rw [UInt32.toNat_sub, hl, hoff]
    omega
  have hrest : (len - (l + pageSize - off)).toNat = len.toNat - (l.toNat + 4096 - a % 4096) := by
    rw [UInt32.toNat_sub, hcut]
    omega
  refine ⟨hcut, ?_, rfl, ?_, Nat.zero_le _, merged_zero m _, by omega, by rw [hrest]; omega⟩
  · rw [UInt32.toNat_zero]
    omega
  · rw [hbuf, UInt32.toNat_zero]
    omega

/-- The entries that `setup_sgl_buf` sets describe the bytes in order, and
all of them if there are entries left. -/
theorem setupLoop_covers {fuel : Nat} (h : At m a buf off l len) (hroom : Room t sgl (nents - n)) (hn : n < nents)
    (hfuel : a % 4096 + len.toNat < 4096 * fuel + l.toNat) :
    ∃ ps, setupLoop m nents fuel t sgl n buf (m (UInt32.ofNat (a / 4096))) off l len =
        some (put t sgl ps, n + ps.length) ∧ n + ps.length ≤ nents ∧
      covers ps <+: Ring.run (physAt m) a len.toNat ∧
      (n + ps.length < nents → covers ps = Ring.run (physAt m) a len.toNat) := by
  induction fuel generalizing t sgl n a buf off l len with
  | zero =>
    have := h.joined
    omega
  | succ fuel ih =>
    have hlow := h.low
    have hhigh := h.high
    have hpages := h.pages
    by_cases hgo : l.toNat + 4096 ≤ a % 4096 + len.toNat
    · by_cases hnext : pageToPhys (m (UInt32.ofNat (a / 4096))) ≠
          pageToPhys (virtToPage m (buf + pageSize)) - (l + pageSize)
      · -- The piece ends here.
        obtain ⟨hcut, hat⟩ := h.cut hgo
        let p : Piece := ⟨m (UInt32.ofNat (a / 4096)), l + pageSize - off, off⟩
        have hp : p.addrs = Ring.run (physAt m) a (l.toNat + 4096 - a % 4096) :=
          h.merged.piece (by omega) (by omega) hpages hcut h.off
        have hrest : (len - (l + pageSize - off)).toNat = len.toNat - (l.toNat + 4096 - a % 4096) := by
          rw [UInt32.toNat_sub, hcut]
          omega
        have hrun : Ring.run (physAt m) a len.toNat = p.addrs ++
            Ring.run (physAt m) (a + (l.toNat + 4096 - a % 4096)) (len - (l + pageSize - off)).toNat := by
          rw [hp, ← Ring.run_add, hrest, Nat.add_sub_cancel' (by omega)]
        have hone : covers [p] = p.addrs := List.append_nil _
        rw [setupLoop, if_pos (h.test.mpr hgo)]
        dsimp only
        rw [if_pos hnext]
        by_cases hfull : n + 1 = nents
        · refine ⟨[p], ?_, Nat.le_of_eq hfull, ?_, fun hlt => absurd hfull (Nat.ne_of_lt hlt)⟩
          · split
            · rw [if_pos hfull]
              rfl
            · rfl
          · rw [hone, hrun]
            exact List.prefix_append _ _
        · obtain ⟨k, hk⟩ : ∃ k, nents - n = k + 2 := ⟨nents - n - 2, by omega⟩
          have hroom₁ := hroom.set sgl p.page p.length p.offset
          rw [hk] at hroom₁
          have hpage : virtToPage m (buf + pageSize) =
              m (UInt32.ofNat ((a + (l.toNat + 4096 - a % 4096)) / 4096)) := by
            have hdiv : a / 4096 + (l.toNat + 4096) / 4096 = (a + (l.toNat + 4096 - a % 4096)) / 4096 := by omega
            rw [virtToPage_eq, h.toNat_buf hgo, hdiv]
          obtain ⟨ps, hloop, hle, hpre, hall⟩ := ih (n := n + 1) hat
            (by rw [show nents - (n + 1) = k + 1 by omega]; exact hroom₁.tail) (by omega)
            (by rw [hrest, UInt32.toNat_zero]; omega)
          have hcovers : covers (p :: ps) = p.addrs ++ covers ps := rfl
          refine ⟨p :: ps, ?_, by rw [List.length_cons]; omega, ?_, fun hlt => ?_⟩
          · rw [hroom₁.sgNext]
            dsimp only
            rw [if_neg hfull, hpage, hloop, List.length_cons, Nat.add_assoc n 1, Nat.add_comm 1]
            rfl
          · rw [hcovers, hrun]
            exact (List.prefix_append_right_inj _).mpr hpre
          · rw [hcovers, hrun, hall (by rw [List.length_cons] at hlt; omega)]
      · -- The next page is joined.
        rw [setupLoop, if_pos (h.test.mpr hgo)]
        dsimp only
        rw [if_neg hnext]
        refine ih (h.join hgo (follows_iff.mp hnext)) hroom hn ?_
        rw [h.toNat_l hgo]
        omega
    · -- All that is left is one piece.
      let p : Piece := ⟨m (UInt32.ofNat (a / 4096)), len, off⟩
      have hp : covers [p] = Ring.run (physAt m) a len.toNat :=
        (List.append_nil _).trans (h.merged.piece (by omega) (by omega) hpages rfl h.off)
      refine ⟨[p], ?_, hn, hp ▸ List.prefix_refl _, fun _ => hp⟩
      rw [setupLoop, if_neg (fun hle => hgo (h.test.mp hle))]
      rfl

/-- The pieces describe the bytes in order, in at most `nents` entries, and
all of them if there are entries left. -/
structure Describes (nents : Nat) (ps : List Piece) (bytes : List UInt32) : Prop where
  fits : ps.length ≤ nents
  inOrder : covers ps <+: bytes
  whole : ps.length < nents → covers ps = bytes

theorem setupSglBuf_covers {fuel : Nat} (hlow : 4096 ≤ buf.toNat) (hhigh : buf.toNat + len.toNat < 2 ^ 32)
    (hroom : Room t sgl nents) (hfuel : len.toNat + 4096 ≤ 4096 * fuel) :
    ∃ ps, setupSglBuf m fuel t sgl buf nents len = some (put t sgl ps, ps.length) ∧
      Describes nents ps (Ring.run (physAt m) buf.toNat len.toNat) := by
  by_cases hn : nents = 0
  · subst hn
    exact ⟨[], rfl, Nat.le_refl 0, List.nil_prefix, fun hlt => absurd hlt (Nat.lt_irrefl 0)⟩
  by_cases hlen : len = 0
  · subst hlen
    refine ⟨[], ?_, Nat.zero_le _, List.nil_prefix, fun _ => rfl⟩
    rw [setupSglBuf, if_neg hn, if_pos rfl]
    rfl
  · have hat : At m buf.toNat buf (offsetInPage buf) 0 len := by
      refine ⟨toNat_offsetInPage buf, rfl, ?_, Nat.zero_le _, merged_zero m _, hlow, hhigh⟩
      rw [UInt32.toNat_zero, Nat.zero_div, Nat.add_zero]
    obtain ⟨ps, hloop, hle, hpre, hall⟩ := setupLoop_covers hat hroom (Nat.pos_of_ne_zero hn)
      (show _ < 4096 * fuel + _ by omega)
    rw [Nat.zero_add] at hloop hle hall
    refine ⟨ps, ?_, hle, hpre, hall⟩
    rw [setupSglBuf, if_neg hn, if_neg hlen, virtToPage_eq]
    exact hloop

end Loop

/-! ## The data area -/

section Area

variable {m : Frames} {base : UInt32} {f : Kfifo} {t : Table} {sgl nents fuel : Nat}

/-- A data area of `bytes` bytes, above the first page and below the last
address. -/
structure Placed (base : UInt32) (bytes : Nat) : Prop where
  low : 4096 ≤ base.toNat
  high : base.toNat + bytes < 2 ^ 32

theorem run_addrOf (m : Frames) (base : UInt32) (off len : Nat) :
    Ring.run (addrOf m base) off len = Ring.run (physAt m) (base.toNat + off) len := by
  simp [Ring.run, addrOf, Nat.add_assoc]

/-- The pieces that `setup_sgl` sets are the bytes of `len` elements from
index `off` on, around the end of the data area. -/
theorem setupSgl_covers (h : f.Ok) (hp : Placed base f.bytes) (hroom : Room t sgl nents)
    (hfuel : f.bytes + 4096 ≤ 4096 * fuel) {len : UInt32} (hl : len.toNat ≤ f.size) (off : UInt32) :
    ∃ ps, setupSgl m fuel base f t sgl nents len off = some (put t sgl ps, ps.length) ∧
      Describes nents ps
        (Ring.window (addrOf m base) f.bytes (off.toNat * f.esize.toNat) (len.toNat * f.esize.toNat)) := by
  obtain ⟨hoff, hlen, hfirst⟩ := h.span_eq hl off
  have hrest := h.toNat_span_rest hl off
  have hlt := h.offset_lt off
  have hbytes : len.toNat * f.esize.toNat ≤ f.bytes := Nat.mul_le_mul_right _ hl
  have hlow := hp.low
  have hhigh := hp.high
  have hbase : (base + (f.span len off).off).toNat = base.toNat + (f.span len off).off.toNat := by
    rw [UInt32.toNat_add]
    omega
  -- The bytes are those before the end of the data area and those from its start.
  have hwindow : Ring.window (addrOf m base) f.bytes (off.toNat * f.esize.toNat) (len.toNat * f.esize.toNat) =
      Ring.run (physAt m) (base + (f.span len off).off).toNat (f.span len off).l.toNat ++
        Ring.run (physAt m) base.toNat ((f.span len off).len - (f.span len off).l).toNat := by
    rw [← Ring.window_mod, Kfifo.mod_bytes, Ring.window_eq_run hlt hbytes, ← hfirst, run_addrOf, run_addrOf, hbase,
      hrest, hoff, Nat.add_zero]
  obtain ⟨ps, hrun, hps⟩ := setupSglBuf_covers (m := m) (show 4096 ≤ (base + (f.span len off).off).toNat by omega)
    (show _ + (f.span len off).l.toNat < 2 ^ 32 by omega) hroom (show _ ≤ 4096 * fuel by omega)
  obtain ⟨ps', hrun', hps'⟩ := setupSglBuf_covers (m := m) hlow
    (show _ + ((f.span len off).len - (f.span len off).l).toNat < 2 ^ 32 by omega)
    ((hroom.put sgl ps).drop ps.length) (show _ ≤ 4096 * fuel by omega)
  have hle := hps.fits
  have hle' := hps'.fits
  have hcovers : covers (ps ++ ps') = covers ps ++ covers ps' := List.flatMap_append
  refine ⟨ps ++ ps', ?_, ?_, ?_, fun hless => ?_⟩
  · simp only [setupSgl, hrun, Option.bind_some, hrun', Option.map_some, put_append, List.length_append]
  · rw [List.length_append]
    omega
  · rw [hwindow, hcovers]
    by_cases hfull : ps.length < nents
    · rw [hps.whole hfull]
      exact (List.prefix_append_right_inj _).mpr hps'.inOrder
    · -- The first piece has used up the list.
      obtain rfl : ps' = [] := List.eq_nil_of_length_eq_zero (by omega)
      rw [show covers [] = [] from rfl, List.append_nil]
      exact hps.inOrder.trans (List.prefix_append _ _)
  · rw [List.length_append] at hless
    rw [hwindow, hcovers, hps.whole (by omega), hps'.whole (by omega)]

end Area

/-! ## Transfers -/

section Transfers

variable {m : Frames} {base : UInt32} {f : Kfifo} {t : Table} {sgl nents : Nat}

/-- No two bytes of the data area are at one address. -/
def Apart (m : Frames) (base : UInt32) (bytes : Nat) : Prop :=
  ∀ i < bytes, ∀ j < bytes, addrOf m base i = addrOf m base j → i = j

instance (m : Frames) (base : UInt32) (bytes : Nat) : Decidable (Apart m base bytes) :=
  inferInstanceAs (Decidable (∀ i < bytes, ∀ j < bytes, _))

theorem byteAt_addrOf {bytes i : Nat} (h : Apart m base bytes) (hi : i < bytes) :
    byteAt m base bytes (addrOf m base i) = some i := by
  rw [byteAt, List.find?_range_eq_some]
  refine ⟨beq_self_eq_true _, List.mem_range.mpr hi, fun j hj => ?_⟩
  have hne : addrOf m base j ≠ addrOf m base i := fun heq => Nat.ne_of_lt hj (h j (by omega) i hi heq)
  rw [beq_eq_false_iff_ne.mpr hne]
  rfl

/-- Stores to the addresses of a window are a copy around the end. -/
theorem deviceStores_eq (h : Apart m base f.bytes) {start : Nat} {has : List UInt8} (hlen : has.length ≤ f.bytes) :
    deviceStores m base ((Ring.window (addrOf m base) f.bytes start has.length).zip has) f =
      some { f with data := Ring.blitWrap f.data f.bytes (start % f.bytes) has } := by
  induction has generalizing start f with
  | nil =>
    simp [deviceStores, Ring.blitWrap, Ring.blit_nil]
  | cons v has ih =>
    rw [List.length_cons] at hlen
    rw [List.length_cons, Ring.window_succ, List.zip_cons_cons, deviceStores,
      byteAt_addrOf h (Nat.mod_lt _ (by omega)), Option.bind_some]
    refine (ih (f := { f with data := Function.update f.data (start % f.bytes) v }) h ?_).trans ?_
    · exact Nat.le_of_succ_le hlen
    · rw [← Ring.blitWrap_cons v hlen]
      rfl

/-- Loads from the addresses of a window are the window. -/
theorem deviceLoads_eq (h : Apart m base f.bytes) (hpos : 0 < f.bytes) (start len : Nat) :
    deviceLoads m base f (Ring.window (addrOf m base) f.bytes start len) =
      some (Ring.window f.data f.bytes start len) := by
  induction len generalizing start with
  | zero => rfl
  | succ len ih =>
    rw [Ring.window_succ, Ring.window_succ, deviceLoads, byteAt_addrOf h (Nat.mod_lt _ hpos), Option.bind_some, ih]
    rfl

/-- The addresses that a device meets are those of the first bytes of the
window described. -/
theorem Describes.addrs {ps : List Piece} {bytes start len : Nat}
    (h : Describes nents ps (Ring.window (addrOf m base) bytes start len)) (hroom : Room t sgl nents) :
    ∃ k, k ≤ len ∧ dmaAddrs (put t sgl ps) ps.length sgl = Ring.window (addrOf m base) bytes start k ∧
      (ps.length < nents → k = len) := by
  have hlen := h.inOrder.length_le
  rw [Ring.window_length] at hlen
  have hpre := List.prefix_iff_eq_take.mp h.inOrder
  rw [Ring.window_take hlen] at hpre
  refine ⟨(covers ps).length, hlen, (dmaAddrs_put (hroom.mono h.fits)).trans hpre, fun hless => ?_⟩
  rw [h.whole hless, Ring.window_length]

/-- What a device stores through the list: as much of what it has as the
list describes. -/
theorem Describes.stores {ps : List Piece} {start n : Nat}
    (h : Describes nents ps (Ring.window (addrOf m base) f.bytes start n)) (hroom : Room t sgl nents)
    (hapart : Apart m base f.bytes) (hn : n ≤ f.bytes) (has : List UInt8) :
    ∃ k, k ≤ n ∧ (ps.length < nents → k = n) ∧
      ((dmaAddrs (put t sgl ps) ps.length sgl).zip has).length = (has.take k).length ∧
      deviceStores m base ((dmaAddrs (put t sgl ps) ps.length sgl).zip has) f =
        some { f with data := Ring.blitWrap f.data f.bytes (start % f.bytes) (has.take k) } := by
  obtain ⟨k, hk, haddrs, hall⟩ := h.addrs hroom
  have hlength : (has.take k).length = min k has.length := List.length_take
  have hzip : (dmaAddrs (put t sgl ps) ps.length sgl).zip has =
      (Ring.window (addrOf m base) f.bytes start (has.take k).length).zip (has.take k) := by
    rw [haddrs, List.zip_eq_zip_take_min, Ring.window_length, ← hlength, Ring.window_take (by omega), hlength,
      ← List.take_eq_take_min]
  refine ⟨k, hk, hall, ?_, ?_⟩
  · rw [hzip, List.length_zip, Ring.window_length, Nat.min_self]
  · rw [hzip]
    exact deviceStores_eq hapart (by omega)

/-- What a device loads through the list. -/
theorem Describes.loads {ps : List Piece} {start n : Nat}
    (h : Describes nents ps (Ring.window (addrOf m base) f.bytes start n)) (hroom : Room t sgl nents)
    (hapart : Apart m base f.bytes) (hpos : 0 < f.bytes) (most : Nat) :
    ∃ k, k ≤ n ∧ (ps.length < nents → k = n) ∧
      deviceLoads m base f ((dmaAddrs (put t sgl ps) ps.length sgl).take most) =
        some (Ring.window f.data f.bytes start (min most k)) := by
  obtain ⟨k, hk, haddrs, hall⟩ := h.addrs hroom
  refine ⟨k, hk, hall, ?_⟩
  rw [haddrs, List.take_eq_take_min, Ring.window_length, Ring.window_take (Nat.min_le_right ..),
    deviceLoads_eq hapart hpos]

end Transfers

/-! ## The fifo is the queue -/

section Refinement

variable {m : Frames} {base : UInt32} {f : Kfifo} {esize N fuel sgl nents : Nat} {q : List (Element esize)} {t : Table}

theorem transferIn_represents (h : Represents N f q) (hp : Placed base f.bytes) (hapart : Apart m base f.bytes)
    (hfuel : f.bytes + 4096 ≤ 4096 * fuel) (hroom : Room t sgl nents) (hn : nents < 2 ^ 31) (len : UInt32)
    (has : List (Element esize)) :
    ∃ f' o q', transferIn m fuel base f t sgl nents len (bytesOf has) = some (f', o) ∧
      Spec N q (.transferIn t sgl nents len has) o q' ∧ Represents N f' q' := by
  have hwant := h.ok.toNat_inLen len
  rw [h.size, show f.used = q.length from h.used] at hwant
  have hfree := h.ok.inLen_le len
  have hbytes : (f.inLen len).toNat * f.esize.toNat + f.used * f.esize.toNat ≤ f.bytes := by
    rw [← Nat.add_mul, Nat.add_comm]
    exact Nat.mul_le_mul_right _ hfree
  obtain ⟨ps, hprep, hps⟩ := setupSgl_covers (m := m) h.ok hp hroom hfuel
    (show (f.inLen len).toNat ≤ f.size by omega) f.inIdx
  have hret : (UInt32.ofNat ps.length).toNat = ps.length :=
    UInt32.toNat_ofNat_of_lt' (show ps.length < 2 ^ 32 by have := hps.fits; omega)
  obtain ⟨k, hk, hall, hcount, hstores⟩ := hps.stores hroom hapart (by omega) (bytesOf has)
  rw [Kfifo.mod_bytes] at hstores
  obtain ⟨part, hpart⟩ : ∃ part, part = (bytesOf has).take k := ⟨_, rfl⟩
  rw [← hpart] at hcount hstores
  have hlength : part.length = min k (has.length * f.esize.toNat) := by
    rw [hpart, List.length_take, Kfifo.bytesOf_length, h.esize]
  -- The whole elements among the bytes stored are published.
  obtain ⟨c, hc⟩ : ∃ c, c = UInt32.ofNat part.length / f.esize := ⟨_, rfl⟩
  have hfits := h.ok.fits
  have hpos := h.ok.esize_pos
  have hcdiv : c.toNat = part.length / f.esize.toNat := by
    rw [hc, UInt32.toNat_div, UInt32.toNat_ofNat_of_lt' (show part.length < 2 ^ 32 by omega)]
  have hcmul : c.toNat * f.esize.toNat ≤ part.length := hcdiv ▸ Nat.div_mul_le_self ..
  have hcwant : c.toNat ≤ (f.inLen len).toNat := Nat.le_of_mul_le_mul_right (by omega) hpos
  have hchas : c.toNat ≤ has.length := Nat.le_of_mul_le_mul_right (by omega) hpos
  have htake : part.take (c.toNat * f.esize.toNat) = (bytesOf has).take (c.toNat * f.esize.toNat) := by
    rw [hpart, List.take_take, Nat.min_eq_left (by omega)]
  have hrun : transferIn m fuel base f t sgl nents len (bytesOf has) =
      some ((f.blitBehind part).publishIn c, { ret := UInt32.ofNat ps.length, buf := [] }) := by
    rw [transferIn, kfifoDmaInPrepare, hprep, Option.bind_some]
    dsimp only
    rw [hcount, hstores, hc]
    rfl
  refine ⟨_, _, q ++ has.take c.toNat, hrun, .transferIn rfl (by omega) (Nat.le_trans (Nat.le_of_eq hret) hps.fits)
    (fun hless => ?_) rfl, Kfifo.User.published_represents h (by omega) (by omega) hcmul hchas htake⟩
  rw [hret] at hless
  rw [hall hless, Nat.mul_min_mul_right] at hlength
  rw [hcdiv, hlength, Nat.mul_div_cancel _ hpos, hwant]

theorem transferOut_represents (h : Represents N f q) (hp : Placed base f.bytes) (hapart : Apart m base f.bytes)
    (hfuel : f.bytes + 4096 ≤ 4096 * fuel) (hroom : Room t sgl nents) (hn : nents < 2 ^ 31) (len : UInt32)
    (most : Nat) :
    ∃ f' o q', transferOut m fuel base f t sgl nents len most = some (f', o) ∧
      Spec N q (.transferOut t sgl nents len most) o q' ∧ Represents N f' q' := by
  have hused : f.used = q.length := h.used
  have hwant := Kfifo.toNat_outLen (f := f) len
  rw [hused] at hwant
  have hbounded := h.ok.bounded
  have hmost : (f.outLen len).toNat * f.esize.toNat ≤ f.used * f.esize.toNat := Nat.mul_le_mul_right _ (by omega)
  have hbytes : f.used * f.esize.toNat ≤ f.bytes := Nat.mul_le_mul_right _ hbounded
  obtain ⟨ps, hprep, hps⟩ := setupSgl_covers (m := m) h.ok hp hroom hfuel
    (show (f.outLen len).toNat ≤ f.size by omega) f.outIdx
  have hret : (UInt32.ofNat ps.length).toNat = ps.length :=
    UInt32.toNat_ofNat_of_lt' (show ps.length < 2 ^ 32 by have := hps.fits; omega)
  obtain ⟨k, hk, hall, hloads⟩ := hps.loads hroom hapart h.ok.bytes_pos most
  obtain ⟨b, hb⟩ : ∃ b, b = min most k := ⟨_, rfl⟩
  rw [← hb, ← Ring.window_take (show b ≤ f.used * f.esize.toNat by omega)] at hloads
  have hlength : (f.content.take b).length = b := by
    rw [List.length_take, Kfifo.content_length]
    omega
  have htaken : bytesOf (q.take (f.outLen len).toNat) = f.content.take ((f.outLen len).toNat * f.esize.toNat) := by
    rw [h.content, h.esize, (Kfifo.bytesOf_split (by omega)).1]
  -- The whole elements among the bytes loaded are taken off.
  obtain ⟨c, hc⟩ : ∃ c, c = UInt32.ofNat b / f.esize := ⟨_, rfl⟩
  have hfits := h.ok.fits
  have hcdiv : c.toNat = b / f.esize.toNat := by
    rw [hc, UInt32.toNat_div, UInt32.toNat_ofNat_of_lt' (show b < 2 ^ 32 by omega)]
  have hcmul : c.toNat * f.esize.toNat ≤ b := hcdiv ▸ Nat.div_mul_le_self ..
  have hcused : c.toNat ≤ f.used := Nat.le_of_mul_le_mul_right (by omega) h.ok.esize_pos
  have hrep := Kfifo.User.taken_represents h hcused
  rw [hcdiv, ← hlength, h.esize] at hrep
  have hrun : transferOut m fuel base f t sgl nents len most =
      some (f.publishOut c, { ret := UInt32.ofNat ps.length, buf := f.content.take b }) := by
    rw [transferOut, kfifoDmaOutPrepare, hprep, Option.bind_some]
    dsimp only
    rw [hloads, Option.map_some, ← Kfifo.content, hlength, hc]
    rfl
  refine ⟨_, _, _, hrun, .transferOut rfl ?_ (Nat.le_trans (Nat.le_of_eq hret) hps.fits) (fun hless => ?_), hrep⟩
  · rw [← hwant, htaken, List.take_take]
    exact List.take_prefix_take_left (by omega)
  · rw [hret] at hless
    rw [← hwant, htaken, List.take_take, hb, hall hless]

theorem dma_step_represents {op : Op esize} (hp : Placed base (N * esize)) (hapart : Apart m base (N * esize))
    (hfuel : N * esize + 4096 ≤ 4096 * fuel) (h : Represents N f q) (hop : op.Given) :
    ∃ f' o q', step m fuel base (N * esize) f op = some (f', o) ∧ Spec N q op o q' ∧ Represents N f' q' := by
  cases op with
  | queue op =>
    obtain ⟨f', o, q', hrun, hspec, hrep⟩ := Kfifo.queue_step_represents h hop
    exact ⟨f', o, q', hrun, .queue hspec, hrep⟩
  | transferIn t sgl nents len has =>
    rw [← h.bytes] at hp hapart hfuel
    exact transferIn_represents h hp hapart hfuel hop.1 hop.2 len has
  | transferOut t sgl nents len most =>
    rw [← h.bytes] at hp hapart hfuel
    exact transferOut_represents h hp hapart hfuel hop.1 hop.2 len most

end Refinement

/-- **A device does what a copy does.** From an initialised fifo, its data
area in whatever pages but no two of its bytes at one address, any calls of
the queue and any transfers by a device, through lists of entries in a row,
are answered as a queue of elements answers them; no transfer leaves the
data area, and one is cut short only by a list that it has filled. -/
theorem dma_refines {k : Nat} (hk : 1 ≤ k) (hk' : k ≤ 31) {size esize : UInt32} (hs : size.toNat = 2 ^ k)
    (he : 0 < esize.toNat) (data : Nat → UInt8) {m : Frames} {base : UInt32}
    (hp : Placed base (size.toNat * esize.toNat)) (hapart : Apart m base (size.toNat * esize.toNat)) {fuel : Nat}
    (hfuel : size.toNat * esize.toNat + 4096 ≤ 4096 * fuel) {ops : List (Op esize.toNat)}
    (hops : ∀ op ∈ ops, op.Given) :
    ∃ f os q, answers (step m fuel base (size.toNat * esize.toNat)) (.initKfifo size esize data) ops = some (f, os) ∧
      Allows (Spec size.toNat) [] ops os q ∧ Represents size.toNat f q := by
  have hfits : size.toNat * esize.toNat < 2 ^ 32 := by
    have := hp.high
    omega
  exact simulation (dma_step_represents hp hapart hfuel) (Kfifo.initKfifo_represents hk hk' hs he hfits data)
    (admits_of_forall hops)

/-- The data area of eight bytes lies across two pages whose frames do not
follow each other. -/
def twoPages : Frames := fun page => if page = 1 then 7 else 3

/-- Four entries in a row. -/
def fourEntries : Table := fun i => { chain := false, last := i == 3, link := 0, offset := 0, length := 0 }

/-- A device stores six bytes, takes five, and stores four more, which go
round the end; a list of one entry is full before all is taken. -/
def acrossPages : List (Op (1 : UInt32).toNat) :=
  let byte (v : UInt8) : Element (1 : UInt32).toNat := ⟨[v], rfl⟩
  [.transferIn fourEntries 0 4 9 ([1, 2, 3, 4, 5, 6].map byte), .transferOut fourEntries 0 4 5 9,
    .transferIn fourEntries 0 4 4 ([7, 8, 9, 10].map byte), .transferOut fourEntries 0 1 5 9, .queue (.outPeek 9)]

theorem dma_refines_acrossPages : ∃ f os, ∃ q : List (Element (1 : UInt32).toNat),
    answers (step twoPages 2 8188 8) (.initKfifo 8 1 fun _ => 0) acrossPages = some (f, os) ∧
      os = [⟨2, []⟩, ⟨2, [1, 2, 3, 4, 5]⟩, ⟨2, []⟩, ⟨1, [6, 7, 8]⟩, ⟨2, [9, 10]⟩] ∧
      Allows (Spec 8) [] acrossPages os q ∧ Represents 8 f q := by
  have hplaced : Placed 8188 8 := ⟨by decide, by decide⟩
  have hapart : Apart twoPages 8188 8 := by decide +kernel
  have hsize : (8 : UInt32).toNat = 2 ^ 3 := rfl
  have hesize : 0 < (1 : UInt32).toNat := by decide
  obtain ⟨f, os, q, hrun, hall, hrep⟩ :=
    dma_refines (by decide) (by decide) hsize hesize (fun _ => 0) hplaced hapart (show 8 + 4096 ≤ 4096 * 2 by decide)
      (show ∀ op ∈ acrossPages, op.Given by decide +kernel)
  refine ⟨f, os, q, hrun, ?_, hall, hrep⟩
  have hview : (answers (step twoPages 2 8188 8) (.initKfifo 8 1 fun _ => 0) acrossPages).map (·.2) =
      some [⟨2, []⟩, ⟨2, [1, 2, 3, 4, 5]⟩, ⟨2, []⟩, ⟨1, [6, 7, 8]⟩, ⟨2, [9, 10]⟩] := by decide +kernel
  obtain ⟨x, hx, hos⟩ := Option.map_eq_some_iff.mp hview
  cases hx.symm.trans hrun
  exact hos

end Lmsel4.Dma
