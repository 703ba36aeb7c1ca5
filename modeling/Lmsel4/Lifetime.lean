/-
The life of a fifo that is declared with `DECLARE_KFIFO_PTR`: allocated,
used, freed and allocated again.

Without a buffer, which is before the first `kfifo_alloc`, after one that
failed and after `kfifo_free`, the fifo has the mask 0: it answers as an
empty queue, and `kfifo_size` and `kfifo_avail` tell of room for one element
that is not there. What is queued then is written through `NULL`, or, after
`kfifo_free` has set the element size to 0, counted and not written.
`kfifo_alloc` does not look whether there is a buffer, nor whether the bytes
it asks for fit in 32 bits, and `kfifo_skip` not whether there is an element.

A fifo of which none of this is asked is a queue that has at any time the
one block of memory it uses, or none (`lifetime_refines`). And where one of
it is asked and the call returns, the fifo is broken at once: a block is
lost or too small, or there are more elements than room
(`lifetime_sound_iff`).
-/
import Lmsel4.KfifoInit
import Lmsel4.Macros
import Lmsel4.System

namespace Lmsel4.Lifetime

open Kfifo (Element Query Counts Made kfifoAlloc allocRounded roundupPowOfTwo)

/-! ## The code -/

/-- The fifo; the block its `data` points to, which is none for `NULL`; and
the blocks it was given and has not freed, with their bytes. -/
structure State where
  fifo : Kfifo
  data : Option Nat
  blocks : List (Nat × Nat)

/-- The bytes `data` points to. -/
def State.area (s : State) : Nat := ((s.data.bind fun a => s.blocks.lookup a).getD 0)

inductive Op (esize : Nat)
  | alloc (size : UInt32) (block : Option (Nat × (Nat → UInt8)))
  | free
  | call (op : Kfifo.Op esize)
  | query (q : Query)
  | skip
  | reset
  | resetOut

/-- What an allocation returns, what a call answers, the number that a macro
gives. -/
inductive Reply
  | status (ret : Int32)
  | answer (o : Kfifo.Answer)
  | number (n : UInt32)
  deriving DecidableEq

/-- What `__kfifo_alloc` made of `block`, which is not one in use. -/
def State.store (s : State) (block : Option (Nat × (Nat → UInt8))) (made : Made) : Option (State × Reply) :=
  match if made.ret = 0 then block else none with
  | none => some ({ s with fifo := made.fifo, data := none }, .status made.ret)
  | some (a, _) =>
    if a ∈ s.blocks.map Prod.fst then none
    else some ({ fifo := made.fifo, data := some a, blocks := (a, made.area) :: s.blocks }, .status made.ret)

/-- `__kfifo_alloc`, where `kmalloc` returns `block`. -/
def State.alloc (esize : UInt32) (s : State) (size : UInt32) (block : Option (Nat × (Nat → UInt8))) :
    Option (State × Reply) :=
  (kfifoAlloc (block.map Prod.snd) size esize).bind (s.store block)

/-- `__kfifo_free`. What is freed is in use. -/
def State.free (s : State) : Option (State × Reply) :=
  let fifo := { s.fifo with inIdx := 0, outIdx := 0, esize := 0, mask := 0 }
  match s.data with
  | none => some ({ s with fifo }, .number 0)
  | some a =>
    if a ∈ s.blocks.map Prod.fst then
      some ({ fifo, data := none, blocks := s.blocks.filter fun b => b.1 ≠ a }, .number 0)
    else none

/-- `kfifo_put` and `kfifo_get` have the size of an element from the type of
the fifo. -/
def typed (esize : UInt32) (call : Kfifo → Option (Kfifo × Kfifo.Answer)) (f : Kfifo) :
    Option (Kfifo × Kfifo.Answer) :=
  (call { f with esize }).map fun (g, o) => ({ g with esize := f.esize }, o)

def call (esize : UInt32) (area : Nat) (f : Kfifo) : Kfifo.Op esize.toNat → Option (Kfifo × Kfifo.Answer)
  | .put val => typed esize (·.kfifoPut area val.val) f
  | .get => typed esize (·.kfifoGet area) f
  | op => Kfifo.step area f op

def step (esize : UInt32) (s : State) : Op esize.toNat → Option (State × Reply)
  | .alloc size block => s.alloc esize size block
  | .free => s.free
  | .call op => (call esize s.area s.fifo op).map fun (fifo, o) => ({ s with fifo }, .answer o)
  | .query q => some (s, .number (q.ask esize 0 s.fifo))
  | .skip => some ({ s with fifo := s.fifo.kfifoSkip 0 }, .number 0)
  | .reset => some ({ s with fifo := s.fifo.kfifoReset }, .number 0)
  | .resetOut => some ({ s with fifo := s.fifo.kfifoResetOut }, .number 0)

/-- `INIT_KFIFO` of a fifo declared with `DECLARE_KFIFO_PTR`. -/
def State.init (esize : UInt32) : State :=
  { fifo := { inIdx := 0, outIdx := 0, mask := 0, esize, data := fun _ => 0 }, data := none, blocks := [] }

/-- The caller's array has the elements that are to be queued. -/
def Given {esize : Nat} : Op esize → Prop
  | .call op => op.Given
  | _ => True

instance {esize : Nat} : ∀ op : Op esize, Decidable (Given op)
  | .call op => inferInstanceAs (Decidable op.Given)
  | .alloc _ _ | .free | .query _ | .skip | .reset | .resetOut => .isTrue trivial

/-- A power of two of elements, enough for `size`, has less than `2 ^ 32`
bytes. -/
def Fits (esize size : Nat) : Prop := ∃ k < 32, size ≤ 2 ^ k ∧ 2 ^ k * esize < 2 ^ 32

instance (esize size : Nat) : Decidable (Fits esize size) := inferInstanceAs (Decidable (∃ k < 32, _ ∧ _))

/-- A buffer is allocated where there is none, of a size that can be rounded
up and that fits if there is memory; elements are queued where there is a
buffer, and an element is skipped where there is one. -/
def Keeps {esize : Nat} (s : State) : Op esize → Prop
  | .alloc size block =>
    s.data = none ∧ (0 < size.toNat ∧ size.toNat ≤ 2 ^ 31) ∧ (block.isNone ∨ Fits esize size.toNat)
  | .call (.in _ len) => len = 0 ∨ s.data.isSome
  | .call (.put _) => s.data.isSome
  | .skip => s.fifo.kfifoIsEmpty = false
  | _ => True

instance {esize : Nat} (s : State) : ∀ op : Op esize, Decidable (Keeps s op)
  | .alloc _ _ => inferInstanceAs (Decidable (_ ∧ (_ ∧ _) ∧ (_ ∨ _)))
  | .skip => inferInstanceAs (Decidable (_ = _))
  | .call (.in _ _) => inferInstanceAs (Decidable (_ ∨ _))
  | .call (.put _) => inferInstanceAs (Decidable (_ = true))
  | .call (.out _) | .call (.outPeek _) | .call .get | .free | .query _ | .reset | .resetOut => .isTrue trivial

/-! ## What it is for -/

/-- A queue of `items`, with the block they are in and room for `room`. -/
structure Fifo (esize : Nat) where
  block : Option Nat
  room : Nat
  items : List (Element esize)

/-- The fifo that has no buffer, and tells of room for one element. -/
def Fifo.none (esize : Nat) : Fifo esize := { block := Option.none, room := 1, items := [] }

/-- What is true of the queue when a macro gives `n`. -/
inductive Told {esize : Nat} (t : Fifo esize) : Query → UInt32 → Prop
  | initialized : Told t .initialized t.block.isSome.toUInt32
  | size {n : UInt32} : n.toNat = t.room → Told t .size n
  | len {n : UInt32} : n.toNat = t.items.length → Told t .len n
  | avail {n : UInt32} : n.toNat = t.room - t.items.length → Told t .avail n
  | isEmpty : Told t .isEmpty (decide (t.items.length = 0)).toUInt32
  | isFull : Told t .isFull (decide (t.items.length = t.room)).toUInt32
  | peekLen {n : UInt32} : n.toNat = t.items.length * esize → Told t .peekLen n

inductive Spec {esize : Nat} : Fifo esize → Op esize → Reply → Fifo esize → Prop
  | tooSmall {t size block} : size.toNat = 1 → Spec t (.alloc size block) (.status (-einval)) (.none esize)
  | noMemory {t size} : 2 ≤ size.toNat → Spec t (.alloc size Option.none) (.status (-enomem)) (.none esize)
  | alloc {t size a data} : 2 ≤ size.toNat → Spec t (.alloc size (some (a, data))) (.status 0)
      { block := some a, room := 2 ^ Nat.clog 2 size.toNat, items := [] }
  | free {t} : Spec t .free (.number 0) (.none esize)
  | call {t op o items} : Kfifo.Spec t.room t.items op o items → Spec t (.call op) (.answer o) { t with items }
  | query {t q n} : Told t q n → Spec t (.query q) (.number n) t
  | skip {t e items} : t.items = e :: items → Spec t .skip (.number 0) { t with items }
  | reset {t} : Spec t .reset (.number 0) { t with items := [] }
  | resetOut {t} : Spec t .resetOut (.number 0) { t with items := [] }

/-! ## Without a buffer -/

section Bare

variable {f : Kfifo} {area : Nat}

theorem span_zero (hmask : f.mask = 0) (off : UInt32) : f.span 0 off = ⟨0, 0, 0⟩ := by
  have hmin : ∀ x : UInt32, min 0 x = 0 := fun x =>
    UInt32.toNat_inj.mp (by rw [Kfifo.toNat_min, UInt32.toNat_zero, Nat.zero_min])
  simp [Kfifo.span, hmask, hmin]

theorem kfifoIn_zero (hmask : f.mask = 0) (buf : List UInt8) :
    f.kfifoIn area buf 0 = some (f, { ret := 0, buf := [] }) := by
  have hlen : f.inLen 0 = 0 := by simp [Kfifo.inLen]
  simp [Kfifo.kfifoIn, hlen, span_zero hmask, Kfifo.Span.within, Kfifo.kfifoCopyIn, Ring.blit_nil,
    Kfifo.publishIn_zero]

theorem kfifoOutPeek_bare (hmask : f.mask = 0) (hempty : f.inIdx = f.outIdx) (len : UInt32) :
    f.kfifoOutPeek area len = some (f, { ret := 0, buf := [] }) := by
  have hlen : f.outLen len = 0 := by simp [Kfifo.outLen, hempty, UInt32.pos_iff_ne_zero]
  simp [Kfifo.kfifoOutPeek, hlen, span_zero hmask, Kfifo.Span.within, Kfifo.kfifoCopyOut, Ring.run]

end Bare

/-! ## The fifo is the queue -/

/-- The fifo that has no buffer, or one with a block that it fits in. -/
inductive Represents (esize : UInt32) : State → Fifo esize.toNat → Prop
  | bare {f : Kfifo} : f.mask = 0 → f.inIdx = f.outIdx →
    Represents esize { fifo := f, data := none, blocks := [] } (.none esize.toNat)
  | held {f : Kfifo} {a N : Nat} {items : List (Element esize.toNat)} : Kfifo.Represents N f items →
    Represents esize { fifo := f, data := some a, blocks := [(a, N * esize.toNat)] }
      { block := some a, room := N, items }

section Refinement

variable {esize : UInt32} {s : State} {t : Fifo esize.toNat}

theorem Represents.counts (h : Represents esize s t) : Counts s.fifo t.room t.items.length := by
  cases h with
  | bare hmask hempty =>
    refine ⟨by rw [Kfifo.size, hmask]; rfl, Kfifo.isEmpty_iff.mp (beq_iff_eq.mpr hempty), Nat.zero_le _, ?_⟩
    exact Nat.one_le_two_pow
  | held hrep => exact ⟨hrep.size, hrep.used, hrep.bounded, hrep.size ▸ hrep.ok.size_le⟩

theorem query_told (h : Represents esize s t) (q : Query) : Told t q (q.ask esize 0 s.fifo) := by
  have hc := h.counts
  cases q with
  | initialized =>
    cases h with
    | bare hmask _ =>
      rw [Query.ask, Kfifo.kfifoInitialized, hmask]
      exact .initialized
    | held hrep =>
      rw [Query.ask, hrep.ok.initialized]
      exact .initialized
  | size => exact .size hc.toNat_size
  | len => exact .len hc.toNat_len
  | avail => exact .avail hc.toNat_unused
  | isEmpty =>
    rw [Query.ask, hc.isEmpty_eq]
    exact .isEmpty
  | isFull =>
    rw [Query.ask, hc.isFull_eq]
    exact .isFull
  | peekLen =>
    have hfits : t.items.length * esize.toNat < 2 ^ 32 := by
      cases h with
      | bare _ _ =>
        rw [Fifo.none, List.length_nil, Nat.zero_mul]
        exact Nat.two_pow_pos 32
      | held hrep =>
        have hbytes := hrep.ok.fits
        rw [hrep.bytes] at hbytes
        exact Nat.lt_of_le_of_lt (Nat.mul_le_mul_right _ hrep.bounded) hbytes
    refine .peekLen ?_
    rw [Query.ask, Kfifo.kfifoPeekLen, if_pos rfl, UInt32.toNat_mul, hc.toNat_len, Nat.mod_eq_of_lt hfits]

theorem Represents.bare_of_none (h : Represents esize s t) (hnone : s.data = none) :
    s.blocks = [] ∧ s.fifo.mask = 0 ∧ s.fifo.inIdx = s.fifo.outIdx := by
  cases h with
  | held => cases hnone
  | bare hmask hempty => exact ⟨rfl, hmask, hempty⟩

/-- The least power of two that is large enough is the one to fit. -/
theorem Fits.clog {size : Nat} (h : Fits esize.toNat size) : 2 ^ Nat.clog 2 size * esize.toNat < 2 ^ 32 := by
  obtain ⟨k, -, hle, hfits⟩ := h
  have hclog : Nat.clog 2 size ≤ k := Nat.clog_le_of_le_pow hle
  exact Nat.lt_of_le_of_lt (Nat.mul_le_mul_right _ (Nat.pow_le_pow_right (by decide) hclog)) hfits

/-- `__kfifo_alloc` of one element. -/
theorem alloc_one (h : Represents esize s t) (hnone : s.data = none) {size : UInt32}
    {block : Option (Nat × (Nat → UInt8))} (hone : size.toNat = 1) :
    ∃ s' o t', s.alloc esize size block = some (s', o) ∧ Spec t (.alloc size block) o t' ∧
      Represents esize s' t' := by
  obtain rfl : size = 1 := UInt32.toNat_inj.mp hone
  have hmade : kfifoAlloc (block.map Prod.snd) 1 esize = some (allocRounded none 1 esize) := rfl
  refine ⟨{ s with fifo := (allocRounded none 1 esize).fifo, data := none }, _, _, ?_, .tooSmall hone, ?_⟩
  · rw [State.alloc, hmade]
    rfl
  · rw [(h.bare_of_none hnone).1]
    exact .bare rfl rfl

/-- `__kfifo_alloc` of at least two elements. -/
theorem alloc_eq (esize : UInt32) {size : UInt32} (htwo : 2 ≤ size.toNat) (hmax : size.toNat ≤ 2 ^ 31) :
    ∃ rounded : UInt32, rounded.toNat = 2 ^ Nat.clog 2 size.toNat ∧ ¬ rounded < 2 ∧
      ∀ block, kfifoAlloc block size esize = some (allocRounded block rounded esize) := by
  obtain ⟨rounded, hrounded, hclog⟩ := Kfifo.roundupPowOfTwo_eq (n := size) (by omega) hmax
  refine ⟨rounded, hclog, ?_, fun block => by rw [kfifoAlloc, hrounded, Option.map_some]⟩
  rw [UInt32.lt_iff_toNat_lt, hclog]
  exact Nat.not_lt.mpr (Nat.le_pow (Nat.clog_pos (by decide) htwo))

theorem alloc_represents (h : Represents esize s t) (he : 0 < esize.toNat) {size : UInt32}
    {block : Option (Nat × (Nat → UInt8))} (hkeeps : Keeps s (.alloc size block : Op esize.toNat)) :
    ∃ s' o t', s.alloc esize size block = some (s', o) ∧ Spec t (.alloc size block) o t' ∧
      Represents esize s' t' := by
  obtain ⟨hnone, ⟨hpos, hmax⟩, hfits⟩ := hkeeps
  by_cases hone : size.toNat = 1
  · exact alloc_one h hnone hone
  have htwo : 2 ≤ size.toNat := by omega
  obtain ⟨hblocks, -, -⟩ := h.bare_of_none hnone
  obtain ⟨rounded, hround, hlarge, hmade⟩ := alloc_eq esize htwo hmax
  rcases block with _ | ⟨a, data⟩
  · refine ⟨{ s with fifo := (allocRounded none rounded esize).fifo, data := none }, _, _, ?_, .noMemory htwo, ?_⟩
    · rw [State.alloc, Option.map_none, hmade, allocRounded, if_neg hlarge]
      rfl
    · rw [hblocks, allocRounded, if_neg hlarge]
      exact .bare rfl rfl
  · have hfits := (hfits.resolve_left (by simp)).clog
    have hk₁ : 1 ≤ Nat.clog 2 size.toNat := Nat.clog_pos (by decide) htwo
    have hk₂ : Nat.clog 2 size.toNat ≤ 31 := (Nat.clog_le_iff_le_pow (by decide)).mpr hmax
    have harea : (rounded * esize).toNat = 2 ^ Nat.clog 2 size.toNat * esize.toNat := by
      rw [UInt32.toNat_mul, hround, Nat.mod_eq_of_lt hfits]
    have hrep := Kfifo.initKfifo_represents hk₁ hk₂ hround he (by rw [hround]; exact hfits) data
    rw [hround] at hrep
    refine ⟨_, _, _, ?_, .alloc htwo, .held hrep⟩
    simp [State.alloc, hmade, State.store, allocRounded, if_neg hlarge, harea, hblocks]

theorem free_represents (h : Represents esize s t) :
    ∃ s', s.free = some (s', .number 0) ∧ Represents esize s' (.none esize.toNat) := by
  cases h with
  | bare _ _ => exact ⟨_, rfl, .bare rfl rfl⟩
  | @held f a N items hrep =>
    refine ⟨⟨{ f with inIdx := 0, outIdx := 0, esize := 0, mask := 0 }, none, []⟩, ?_, .bare rfl rfl⟩
    simp [State.free]

/-- On a fifo of its type a macro for one element is the one that goes by
the size in the fifo. -/
theorem typed_eq {f : Kfifo} {g : Kfifo → Option (Kfifo × Kfifo.Answer)} (hf : f.esize = esize)
    (hg : ∀ f' o, g f = some (f', o) → f'.esize = f.esize) : typed esize g f = g f := by
  have hself : ({ f with esize } : Kfifo) = f := by rw [← hf]
  rw [typed, hself]
  cases hgf : g f with
  | none => rfl
  | some r =>
    have hesize := hg r.1 r.2 hgf
    simp only [Option.map_some, ← hesize]

theorem call_eq {f : Kfifo} (hf : f.esize = esize) (area : Nat) (op : Kfifo.Op esize.toNat) :
    call esize area f op = Kfifo.step area f op := by
  cases op with
  | «in» | out | outPeek => rfl
  | put val =>
    show typed esize (·.kfifoPut area val.val) f = f.kfifoPut area val.val
    refine typed_eq hf fun f' o hrun => ?_
    unfold Kfifo.kfifoPut at hrun
    split at hrun
    · dsimp only at hrun
      split at hrun <;> cases hrun
      rfl
    · cases hrun
      rfl
  | get =>
    show typed esize (·.kfifoGet area) f = f.kfifoGet area
    refine typed_eq hf fun f' o hrun => ?_
    unfold Kfifo.kfifoGet at hrun
    split at hrun
    · dsimp only at hrun
      split at hrun <;> cases hrun
      rfl
    · cases hrun
      rfl

theorem call_represents (h : Represents esize s t) {op : Kfifo.Op esize.toNat} (hop : op.Given)
    (hkeeps : Keeps s (.call op)) :
    ∃ s' o t', step esize s (.call op) = some (s', o) ∧ Spec t (.call op) o t' ∧ Represents esize s' t' := by
  cases h with
  | @held f a N items hrep =>
    obtain ⟨f', o, items', hrun, hspec, hrep'⟩ := Kfifo.queue_step_represents hrep hop
    refine ⟨_, _, _, ?_, .call hspec, .held hrep'⟩
    simp only [step, call_eq (UInt32.toNat_inj.mp hrep.esize), State.area, Option.bind_some, List.lookup_cons_self,
      Option.getD_some, hrun, Option.map_some]
  | @bare f hmask hempty =>
    -- Nothing comes out, and nothing is put in.
    have hnone {o : Kfifo.Answer} (hrun : call esize 0 f op = some (f, o))
        (hspec : Kfifo.Spec 1 ([] : List (Element esize.toNat)) op o []) :
        ∃ s' o t', step esize { fifo := f, data := none, blocks := [] } (.call op) = some (s', o) ∧
          Spec (.none esize.toNat) (.call op) o t' ∧ Represents esize s' t' := by
      refine ⟨_, _, _, ?_, .call hspec, .bare hmask hempty⟩
      simp only [step, State.area, Option.bind_none, Option.getD_none, hrun, Option.map_some]
    cases op with
    | «in» buf len =>
      obtain rfl : len = 0 := by simpa [Keeps] using hkeeps
      refine hnone (kfifoIn_zero hmask _) ?_
      exact Kfifo.Spec.in (o := ⟨0, []⟩) rfl rfl
    | out len =>
      refine hnone ?_ (Kfifo.Spec.out (o := ⟨0, []⟩) (Nat.min_zero _).symm rfl)
      simp only [call, Kfifo.step, Kfifo.kfifoOut, kfifoOutPeek_bare hmask hempty, Option.map_some,
        Kfifo.publishOut_zero]
    | outPeek len =>
      exact hnone (kfifoOutPeek_bare hmask hempty len) (Kfifo.Spec.outPeek (o := ⟨0, []⟩) (Nat.min_zero _).symm rfl)
    | put val => simp [Keeps] at hkeeps
    | get =>
      have hget : ({ f with esize } : Kfifo).kfifoGet 0 = some ({ f with esize }, ⟨0, []⟩) := by
        simp [Kfifo.kfifoGet, Kfifo.kfifoIsEmpty, hempty]
      refine hnone ?_ (.get (Kfifo.Spec.out (o := ⟨0, []⟩) rfl rfl))
      simp only [call, typed, hget, Option.map_some]

theorem skip_represents (h : Represents esize s t) (hkeeps : s.fifo.kfifoIsEmpty = false) :
    ∃ s' o t', step esize s .skip = some (s', o) ∧ Spec t .skip o t' ∧ Represents esize s' t' := by
  cases h with
  | bare _ hempty => simp [Kfifo.kfifoIsEmpty, hempty] at hkeeps
  | @held f a N items hrep =>
    have hitems : items ≠ [] := by
      rintro rfl
      have hzero : f.used = 0 := hrep.used
      rw [Kfifo.isEmpty_iff.mpr hzero] at hkeeps
      cases hkeeps
    obtain ⟨e, items, rfl⟩ := List.exists_cons_of_ne_nil hitems
    have hone : f.outLen 1 = 1 := by
      have hused : f.used = (e :: items).length := hrep.used
      apply UInt32.toNat_inj.mp
      rw [Kfifo.toNat_outLen, hused, List.length_cons, UInt32.toNat_one]
      omega
    obtain ⟨f', o, items', hrun, hspec, hrep'⟩ := Kfifo.out_represents hrep 1
    rw [hrep.ok.kfifoOut_eq, hone] at hrun
    cases hrun
    cases hspec
    exact ⟨_, _, _, rfl, .skip rfl, .held hrep'⟩

theorem reset_represents (h : Represents esize s t) :
    Represents esize { s with fifo := s.fifo.kfifoReset } { t with items := [] } ∧
      Represents esize { s with fifo := s.fifo.kfifoResetOut } { t with items := [] } := by
  cases h with
  | bare hmask _ => exact ⟨.bare hmask rfl, .bare hmask rfl⟩
  | held hrep =>
    obtain ⟨hok, hok'⟩ := hrep.ok.reset
    exact ⟨.held ⟨hok, hrep.size, hrep.esize, Kfifo.reset_used.1, Nat.zero_le _, Kfifo.reset_content.1⟩,
      .held ⟨hok', hrep.size, hrep.esize, Kfifo.reset_used.2, Nat.zero_le _, Kfifo.reset_content.2⟩⟩

theorem lifetime_step (he : 0 < esize.toNat) {op : Op esize.toNat} (h : Represents esize s t)
    (hop : Given op ∧ Keeps s op) :
    ∃ s' o t', step esize s op = some (s', o) ∧ Spec t op o t' ∧ Represents esize s' t' := by
  obtain ⟨hgiven, hkeeps⟩ := hop
  cases op with
  | alloc size block => exact alloc_represents h he hkeeps
  | free =>
    obtain ⟨s', hrun, hrep⟩ := free_represents h
    exact ⟨s', _, _, hrun, .free, hrep⟩
  | call op => exact call_represents h hgiven hkeeps
  | query q => exact ⟨s, _, t, rfl, .query (query_told h q), h⟩
  | skip => exact skip_represents h hkeeps
  | reset => exact ⟨_, _, _, rfl, .reset, (reset_represents h).1⟩
  | resetOut => exact ⟨_, _, _, rfl, .resetOut, (reset_represents h).2⟩

end Refinement

/-- **A fifo over its life.** Allocated, freed and used in any order, where
a buffer is allocated only when there is none and of a size that can be
rounded up and fits, elements are queued only when there is a buffer and
skipped only when there are some, a fifo answers as a queue with the room it
was last given, or, without a buffer, as an empty one with room for one; no
access is outside its buffer, and its one block is freed once. -/
theorem lifetime_refines {esize : UInt32} (he : 0 < esize.toNat) {ops : List (Op esize.toNat)}
    (hops : Admits (step esize) (fun s op => Given op ∧ Keeps s op) (State.init esize) ops) :
    ∃ s os t, answers (step esize) (State.init esize) ops = some (s, os) ∧
      Allows Spec (.none esize.toNat) ops os t ∧ Represents esize s t :=
  simulation (lifetime_step he) (.bare rfl rfl) hops

/-- A fifo of elements of two bytes: without a buffer there seems to be room
for one; a buffer for three has room for four; after that one is freed, one
element is too small a fifo, there is no memory for two, and then there is. -/
def secondLife : List (Op (2 : UInt32).toNat) :=
  [.query .initialized, .query .avail, .call (.out 1), .alloc 3 (some (100, fun _ => 0)), .call (.put ⟨[51, 52], rfl⟩),
    .call (.in [⟨[53, 54], rfl⟩, ⟨[55, 56], rfl⟩] 2), .skip, .query .avail, .query .peekLen, .call .get, .reset,
    .query .isEmpty, .free, .query .initialized, .alloc 1 none, .alloc 2 none, .alloc 2 (some (100, fun _ => 7)),
    .query .size]

theorem lifetime_refines_secondLife : ∃ s os t,
    answers (step 2) (State.init 2) secondLife = some (s, os) ∧
      os = [.number 0, .number 1, .answer ⟨0, []⟩, .status 0, .answer ⟨1, []⟩, .answer ⟨2, []⟩, .number 0, .number 2,
        .number 4, .answer ⟨1, [53, 54]⟩, .number 0, .number 1, .number 0, .number 0, .status (-22), .status (-12),
        .status 0, .number 2] ∧
      Allows Spec (.none (2 : UInt32).toNat) secondLife os t ∧ Represents 2 s t := by
  obtain ⟨s, os, t, hrun, hall, hrep⟩ :=
    lifetime_refines (by decide)
      (show Admits (step 2) (fun s op => Given op ∧ Keeps s op) (State.init 2) secondLife by decide)
  refine ⟨s, os, t, hrun, ?_, hall, hrep⟩
  cases hrun
  rfl

/-! ## Where it breaks -/

def system (esize : UInt32) : System State { op : Op esize.toNat // Given op } where
  init := State.init esize
  step s op := (step esize s op.1).map Prod.fst

/-- The blocks not freed are the one in use, which has the bytes of the
fifo, and there are no more elements than room in it. -/
structure Sound (s : State) : Prop where
  one : s.blocks.map Prod.fst = s.data.toList
  large : s.data.isSome → s.fifo.bytes ≤ s.area
  bounded : s.fifo.used ≤ if s.data.isSome then s.fifo.size else 0

section Breaking

variable {esize : UInt32} {s s' : State} {t : Fifo esize.toNat} {o : Reply}

theorem Represents.sound (h : Represents esize s t) : Sound s := by
  cases h with
  | bare _ hempty =>
    exact ⟨rfl, fun h => Bool.noConfusion h, Nat.le_of_eq (Kfifo.isEmpty_iff.mp (beq_iff_eq.mpr hempty))⟩
  | @held f a N items hrep =>
    refine ⟨rfl, fun _ => ?_, hrep.ok.bounded⟩
    rw [State.area, Option.bind_some, List.lookup_cons_self, Option.getD_some]
    exact Nat.le_of_eq hrep.bytes

/-- Allocating over a buffer loses it. -/
theorem alloc_over (h : Represents esize s t) (hdata : s.data ≠ none) {size : UInt32}
    {block : Option (Nat × (Nat → UInt8))} (hs : s.alloc esize size block = some (s', o)) : ¬ Sound s' := by
  cases h with
  | bare => exact absurd rfl hdata
  | @held f a N items _ =>
    obtain ⟨made, -, hs⟩ := Option.bind_eq_some_iff.mp hs
    unfold State.store at hs
    split at hs
    · cases hs
      exact fun hsound => by simpa using hsound.one
    · split at hs <;> cases hs
      exact fun hsound => by simpa using hsound.one

/-- A block whose bytes have wrapped is smaller than the fifo. -/
theorem alloc_wraps {size : UInt32} {a : Nat} {data : Nat → UInt8} (hpos : 0 < size.toNat)
    (hmax : size.toNat ≤ 2 ^ 31) (hbig : ¬ Fits esize.toNat size.toNat)
    (hs : s.alloc esize size (some (a, data)) = some (s', o)) : ¬ Sound s' := by
  have hclog : Nat.clog 2 size.toNat < 32 := Nat.lt_succ_of_le ((Nat.clog_le_iff_le_pow (by decide)).mpr hmax)
  have hle : size.toNat ≤ 2 ^ Nat.clog 2 size.toNat := Nat.le_pow_clog (by decide) _
  have hwraps : 2 ^ 32 ≤ 2 ^ Nat.clog 2 size.toNat * esize.toNat :=
    Nat.not_lt.mp fun hlt => hbig ⟨_, hclog, hle, hlt⟩
  have htwo : 2 ≤ size.toNat := by
    by_contra hone
    obtain hone : size.toNat = 1 := by omega
    have hlt := UInt32.toNat_lt esize
    rw [hone, Nat.clog_one_right, Nat.pow_zero, Nat.one_mul] at hwraps
    omega
  obtain ⟨rounded, hround, hlarge, hmade⟩ := alloc_eq esize htwo hmax
  simp only [State.alloc, Option.map_some, hmade, Option.bind_some, State.store, allocRounded, if_neg hlarge,
    if_true] at hs
  split at hs <;> cases hs
  intro hsound
  have hbytes := hsound.large rfl
  have hsize : (Kfifo.initKfifo rounded esize data).size = rounded.toNat :=
    Kfifo.initKfifo_size esize data (by rw [hround]; exact Nat.two_pow_pos _)
  have harea := UInt32.toNat_lt (rounded * esize)
  simp only [State.area, Option.bind_some, List.lookup_cons_self, Option.getD_some, Kfifo.bytes, hsize,
    hround] at hbytes
  have hesize : (Kfifo.initKfifo rounded esize data).esize = esize := rfl
  rw [hesize] at hbytes
  omega

theorem alloc_breaks (h : Represents esize s t) {size : UInt32} {block : Option (Nat × (Nat → UInt8))}
    (hbad : ¬ Keeps s (.alloc size block : Op esize.toNat)) (hs : s.alloc esize size block = some (s', o)) :
    ¬ Sound s' := by
  by_cases hdata : s.data = none
  · by_cases hsize : 0 < size.toNat ∧ size.toNat ≤ 2 ^ 31
    · have hmem : ¬ (block.isNone ∨ Fits esize.toNat size.toNat) := fun hfits => hbad ⟨hdata, hsize, hfits⟩
      rcases block with _ | ⟨a, data⟩
      · exact absurd (.inl rfl) hmem
      · exact alloc_wraps hsize.1 hsize.2 (fun hfits => hmem (.inr hfits)) hs
    · -- The shift is undefined, and there is no step.
      rw [State.alloc, kfifoAlloc, Kfifo.roundupPowOfTwo_undefined (by omega)] at hs
      cases hs
  · exact alloc_over h hdata hs

/-- An element counted where there is no buffer for it. -/
theorem in_breaks (h : Represents esize s t) (hdata : s.data = none) {buf : List UInt8} {len : UInt32} (hlen : len ≠ 0)
    {f : Kfifo} {a : Kfifo.Answer} (hs : s.fifo.kfifoIn s.area buf len = some (f, a)) :
    ¬ Sound { s with fifo := f } := by
  cases h with
  | held => cases hdata
  | @bare f₀ hmask hempty =>
    have hunused : f₀.kfifoUnused = 1 := by simp [Kfifo.kfifoUnused, hmask, hempty]
    have hone : f₀.inLen len = 1 := by
      have hpos : 0 < len.toNat := Nat.pos_of_ne_zero fun h => hlen (UInt32.toNat_inj.mp h)
      apply UInt32.toNat_inj.mp
      rw [Kfifo.inLen, hunused, Kfifo.toNat_clamp, UInt32.toNat_one]
      omega
    simp only [Kfifo.kfifoIn, hone] at hs
    split at hs <;> cases hs
    intro hsound
    have hused := hsound.bounded
    have hcount : ((f₀.kfifoCopyIn buf 1 f₀.inIdx).publishIn 1).used = 1 := by
      simp only [Kfifo.used, Kfifo.publishIn, Kfifo.kfifoCopyIn, hempty]
      rw [UInt32.add_comm, UInt32.add_sub_cancel, UInt32.toNat_one]
    rw [hcount] at hused
    exact Nat.not_succ_le_zero 0 hused

theorem put_faults (h : Represents esize s t) (he : 0 < esize.toNat) (hdata : s.data = none)
    (val : Element esize.toNat) : call esize s.area s.fifo (.put val) = none := by
  cases h with
  | held => cases hdata
  | @bare f hmask hempty =>
    have hnot : ¬ esize.toNat ≤ 0 := by omega
    simp [call, typed, Kfifo.kfifoPut, Kfifo.kfifoIsFull, Kfifo.kfifoLen, State.area, Kfifo.elementAt, hmask, hempty,
      hnot]

/-- An element skipped where there is none. -/
theorem skip_breaks (h : Represents esize s t) (hempty : s.fifo.kfifoIsEmpty = true) :
    ¬ Sound { s with fifo := s.fifo.kfifoSkip 0 } := by
  have hsize := h.counts.size
  have hsmall := h.counts.small
  have hused : (s.fifo.kfifoSkip 0).used = 2 ^ 32 - 1 := by
    have heq : s.fifo.inIdx = s.fifo.outIdx := by simpa [Kfifo.kfifoIsEmpty] using hempty
    have hlt := UInt32.toNat_lt s.fifo.outIdx
    rw [Kfifo.kfifoSkip, if_neg (by decide), Kfifo.used, Kfifo.publishOut, heq]
    rw [UInt32.toNat_sub, UInt32.toNat_add, UInt32.toNat_one]
    omega
  intro hsound
  have hle := hsound.bounded
  dsimp only at hle
  rw [hused] at hle
  split at hle
  · have : (s.fifo.kfifoSkip 0).size = s.fifo.size := rfl
    omega
  · omega

theorem step_breaks (he : 0 < esize.toNat) {op : Op esize.toNat} (h : Represents esize s t) (hbad : ¬ Keeps s op)
    (hs : step esize s op = some (s', o)) : ¬ Sound s' := by
  cases op with
  | alloc size block => exact alloc_breaks h hbad hs
  | skip =>
    cases hs
    exact skip_breaks h (by simpa [Keeps] using hbad)
  | free | query | reset | resetOut => exact absurd trivial hbad
  | call op =>
    obtain ⟨⟨f, a⟩, hrun, hs⟩ := Option.map_eq_some_iff.mp hs
    cases hs
    cases op with
    | «in» buf len =>
      obtain ⟨hlen, hdata⟩ := not_or.mp hbad
      exact in_breaks h (by simpa using hdata) hlen hrun
    | put val =>
      have hdata : s.data = none := by simpa [Keeps] using hbad
      rw [put_faults h he hdata val] at hrun
      cases hrun
    | out | outPeek | get => exact absurd trivial hbad

end Breaking

/-- **Exactly when a fifo is kept whole.** In any run, the fifo has lost no
block, has the bytes it uses and has no more elements than room, throughout,
if and only if no buffer was allocated over another, none that was obtained
is of a size that does not fit in 32 bits, nothing was queued without a
buffer, and nothing was skipped where there was nothing. -/
theorem lifetime_sound_iff {esize : UInt32} (he : 0 < esize.toNat) {s : State}
    {ops : List { op : Op esize.toNat // Given op }} (h : (system esize).exec (system esize).init ops = some s) :
    (system esize).Along Sound (system esize).init ops ↔
      (system esize).Steps (fun s op => Keeps s op.1) (system esize).init ops := by
  have hinit : Represents esize (system esize).init (.none esize.toNat) := .bare rfl rfl
  refine System.along_iff_steps (I := fun s => ∃ t, Represents esize s t) (fun s ⟨t, ht⟩ => ht.sound) ?_ ?_
    ⟨_, hinit⟩ h
  · rintro s op s' ⟨t, ht⟩ hkeeps hs
    obtain ⟨s₁, o, t₁, hrun, -, hrep⟩ := lifetime_step he ht ⟨op.2, hkeeps⟩
    simp only [system, hrun, Option.map_some, Option.some.injEq] at hs
    exact ⟨t₁, hs ▸ hrep⟩
  · rintro s op s' ⟨t, ht⟩ hbad hs
    obtain ⟨⟨s₁, o⟩, hrun, rfl⟩ := Option.map_eq_some_iff.mp hs
    exact step_breaks he ht hbad hrun

/-- A buffer for three elements of two bytes is used and freed. -/
def usedAndFreed : List { op : Op (2 : UInt32).toNat // Given op } :=
  [⟨.alloc 3 (some (200, fun _ => 0)), trivial⟩, ⟨.call (.in [⟨[57, 58], rfl⟩] 1), by decide⟩, ⟨.skip, trivial⟩,
    ⟨.free, trivial⟩]

/-- Kept whole until an element is queued in the freed fifo; and a buffer
for `2 ^ 31` elements is one of no byte. -/
theorem lifetime_sound_iff_usedAndFreed :
    (system 2).Along Sound (system 2).init usedAndFreed ∧
    (∃ s, (system 2).exec (system 2).init
        (usedAndFreed ++ [⟨.call (.in [⟨[59, 60], rfl⟩] 1), by decide⟩]) = some s ∧ s.fifo.used = 1 ∧
      ¬ (system 2).Along Sound (system 2).init
        (usedAndFreed ++ [⟨.call (.in [⟨[59, 60], rfl⟩] 1), by decide⟩])) ∧
    ∃ s, (system 2).exec (system 2).init [⟨.alloc 0x80000000 (some (200, fun _ => 0)), trivial⟩] = some s ∧
      s.area = 0 ∧
      ¬ (system 2).Along Sound (system 2).init [⟨.alloc 0x80000000 (some (200, fun _ => 0)), trivial⟩] := by
  refine ⟨?_, ⟨_, rfl, rfl, fun hsound => ?_⟩, _, rfl, rfl, fun hsound => ?_⟩
  · exact (lifetime_sound_iff (by decide) rfl).mpr (by decide)
  · exact absurd ((lifetime_sound_iff (by decide) rfl).mp hsound) (by decide)
  · exact absurd ((lifetime_sound_iff (by decide) rfl).mp hsound) (by decide)

end Lmsel4.Lifetime
