/-
Making a fifo (`__kfifo_init`, `__kfifo_alloc`).

Both round up the number of elements to a power of two. `__kfifo_init` does
so after it has divided the bytes of the buffer it is given among the
elements, so the fifo is larger than the buffer unless there is nothing to
round; `__kfifo_alloc` asks for the rounded number of elements, in 32 bits.
Rounding up is a shift that C leaves undefined for no elements and for more
than `2 ^ 31`, and nothing is known of a fifo made then. What the calls do
to the data area of a fifo that fits is `kfifo_refines`.
-/
import Lmsel4.Liblinux
import Lmsel4.Queue
import Mathlib.Data.Nat.Log

namespace Lmsel4.Kfifo

/-! ## The source's functions -/

/-- `fls_long`: the position of the highest bit that is set, from 1. -/
def fls (x : UInt32) : Nat := if x = 0 then 0 else x.toNat.log2 + 1

/-- `__roundup_pow_of_two`. C leaves a shift by all the 32 bits undefined. -/
def roundupPowOfTwo (n : UInt32) : Option UInt32 :=
  if fls (n - 1) < 32 then some (1 <<< UInt32.ofNat (fls (n - 1))) else none

/-- What a constructor returns and leaves: the fifo, and how many bytes its
`data` points to. -/
structure Made where
  ret : Int32
  fifo : Kfifo
  area : Nat

/-- `__kfifo_init` on a buffer of `size` bytes, once it has rounded up. -/
def initRounded (buffer : Nat → UInt8) (area : Nat) (size esize : UInt32) : Made :=
  if size < 2 then { ret := -einval, fifo := { initKfifo 1 esize buffer with mask := 0 }, area }
  else { ret := 0, fifo := initKfifo size esize buffer, area }

/-- `__kfifo_init` on a buffer of `size` bytes. No result is one that C
leaves undefined. -/
def kfifoInit (buffer : Nat → UInt8) (size esize : UInt32) : Option Made :=
  (roundupPowOfTwo (size / esize)).map fun rounded => initRounded buffer size.toNat rounded esize

/-- `__kfifo_alloc` once it has rounded up, where `block` is what `kmalloc`
returns. -/
def allocRounded (block : Option (Nat → UInt8)) (size esize : UInt32) : Made :=
  let null : Made := { ret := -einval, fifo := { initKfifo 1 esize fun _ => 0 with mask := 0 }, area := 0 }
  if size < 2 then null
  else
    match block with
    | none => { null with ret := -enomem }
    | some data => { ret := 0, fifo := initKfifo size esize data, area := (size * esize).toNat }

/-- `__kfifo_alloc`. -/
def kfifoAlloc (block : Option (Nat → UInt8)) (size esize : UInt32) : Option Made :=
  (roundupPowOfTwo size).map fun rounded => allocRounded block rounded esize

/-- A fifo that can be used on a data area of `area` bytes: whatever is
called, no access leaves it. -/
structure Usable (area : Nat) (f : Kfifo) : Prop where
  pow : ∃ k, 1 ≤ k ∧ f.mask.toNat + 1 = 2 ^ k
  fits : (f.mask.toNat + 1) * f.esize.toNat ≤ area
  stays : ∀ ops : List (Op f.esize.toNat), (∀ op ∈ ops, op.Given) → (answers (step area) f ops).isSome = true

/-- If 0 is returned, the fifo can be used. -/
def Made.Sound (m : Made) : Prop := m.ret = 0 → Usable m.area m.fifo

/-- What is made is defined and sound. -/
def SoundlyMade (o : Option Made) : Prop := ∃ m, o = some m ∧ m.Sound

/-- A number of elements with which no fifo is made, or one that fits. -/
def Harmless (area esize size : Nat) : Prop := size < 2 ∨ (∃ k, size = 2 ^ k) ∧ size * esize ≤ area

/-! ## A larger area -/

section Area

variable {area area' : Nat} {f : Kfifo}

theorem Span.within_mono {s : Span} (h : area ≤ area') (hs : s.within area = true) : s.within area' = true := by
  simp only [Span.within, Bool.and_eq_true, decide_eq_true_eq] at hs ⊢
  omega

theorem guard_mono {α : Type} {p p' : Prop} [Decidable p] [Decidable p'] {x : Option α} {r : α} (h : p → p')
    (hr : (if p then x else none) = some r) : (if p' then x else none) = some r := by
  split at hr
  · next hp => rwa [if_pos (h hp)]
  · cases hr

theorem kfifoOutPeek_mono {len : UInt32} {r : Kfifo × Answer} (h : area ≤ area')
    (hr : f.kfifoOutPeek area len = some r) : f.kfifoOutPeek area' len = some r :=
  guard_mono (Span.within_mono h) hr

theorem kfifoPut_mono {val : List UInt8} {r : Kfifo × Answer} (h : area ≤ area')
    (hr : f.kfifoPut area val = some r) : f.kfifoPut area' val = some r := by
  unfold kfifoPut at hr ⊢
  revert hr
  cases f.kfifoIsFull with
  | true => exact id
  | false => exact guard_mono fun hs => Nat.le_trans hs h

theorem kfifoGet_mono {r : Kfifo × Answer} (h : area ≤ area') (hr : f.kfifoGet area = some r) :
    f.kfifoGet area' = some r := by
  unfold kfifoGet at hr ⊢
  revert hr
  cases f.kfifoIsEmpty with
  | true => exact id
  | false => exact guard_mono fun hs => Nat.le_trans hs h

theorem step_mono {esize : Nat} {op : Op esize} {r : Kfifo × Answer} (h : area ≤ area')
    (hr : step area f op = some r) : step area' f op = some r := by
  cases op with
  | «in» => exact guard_mono (Span.within_mono h) hr
  | out =>
    obtain ⟨r', hr', rfl⟩ := Option.map_eq_some_iff.mp hr
    exact Option.map_eq_some_iff.mpr ⟨r', kfifoOutPeek_mono h hr', rfl⟩
  | outPeek => exact kfifoOutPeek_mono h hr
  | put => exact kfifoPut_mono h hr
  | get => exact kfifoGet_mono h hr

end Area

/-! ## Rounding up -/

section Rounding

variable {n : UInt32}

theorem fls_eq (hn : 0 < n.toNat) : fls (n - 1) = Nat.clog 2 n.toNat := by
  have hsub : (n - 1).toNat = n.toNat - 1 := by
    rw [UInt32.toNat_sub_of_le _ _ (by rw [UInt32.le_iff_toNat_le]; exact hn)]
    rfl
  unfold fls
  split
  · next hzero =>
    have hone : n.toNat = 1 := by
      rw [hzero, UInt32.toNat_zero] at hsub
      omega
    rw [hone, Nat.clog_one_right]
  · next hne =>
    have hne : n.toNat - 1 ≠ 0 := fun h => hne (UInt32.toNat_inj.mp (hsub.trans h))
    rw [hsub]
    refine Nat.le_antisymm ?_ ?_
    · refine (Nat.lt_clog_iff_pow_lt (by decide)).mpr ?_
      have := Nat.log2_self_le hne
      omega
    · refine (Nat.clog_le_iff_le_pow (by decide)).mpr ?_
      have := Nat.lt_log2_self (n := n.toNat - 1)
      omega

/-- It is the least power of two that is large enough, if there is one. -/
theorem roundupPowOfTwo_eq (hn : 0 < n.toNat) (hmax : n.toNat ≤ 2 ^ 31) :
    ∃ m : UInt32, roundupPowOfTwo n = some m ∧ m.toNat = 2 ^ Nat.clog 2 n.toNat := by
  have hlog : Nat.clog 2 n.toNat ≤ 31 := (Nat.clog_le_iff_le_pow (by decide)).mpr hmax
  have hshift : Nat.clog 2 n.toNat < 32 := Nat.lt_succ_of_le hlog
  refine ⟨1 <<< UInt32.ofNat (Nat.clog 2 n.toNat), ?_, ?_⟩
  · rw [roundupPowOfTwo, fls_eq hn, if_pos hshift]
  · rw [UInt32.toNat_shiftLeft, UInt32.toNat_ofNat_of_lt' (Nat.lt_trans hshift (by decide)), Nat.mod_eq_of_lt hshift,
      UInt32.toNat_one, Nat.one_shiftLeft, Nat.mod_eq_of_lt (Nat.pow_lt_pow_right (by decide) hshift)]

theorem roundupPowOfTwo_undefined (hn : n.toNat = 0 ∨ 2 ^ 31 < n.toNat) : roundupPowOfTwo n = none := by
  rw [roundupPowOfTwo, if_neg]
  rcases hn with hn | hn
  · obtain rfl : n = 0 := UInt32.toNat_inj.mp hn
    decide
  · rw [fls_eq (by omega), Nat.not_lt]
    exact (Nat.lt_clog_iff_pow_lt (by decide)).mpr hn

end Rounding

/-! ## What is made -/

section Made

variable {size esize : UInt32} {data : Nat → UInt8} {area : Nat}

/-- A fifo of at least two elements can be used exactly if it is a power of
two of them and fits. -/
theorem usable_iff (hsize : 2 ≤ size.toNat) (he : 0 < esize.toNat) (harea : area < 2 ^ 32) :
    Usable area (initKfifo size esize data) ↔ (∃ k, size.toNat = 2 ^ k) ∧ size.toNat * esize.toNat ≤ area := by
  have hmask : (initKfifo size esize data).mask.toNat + 1 = size.toNat := initKfifo_size esize data (by omega)
  have hesize : (initKfifo size esize data).esize.toNat = esize.toNat := rfl
  constructor
  · intro h
    obtain ⟨k, -, hk⟩ := h.pow
    have hfits := h.fits
    rw [hmask] at hk hfits
    exact ⟨⟨k, hk⟩, hfits⟩
  · rintro ⟨⟨k, hk⟩, hfits⟩
    have hlt : 2 ^ k < 2 ^ 32 := by
      have := Nat.le_mul_of_pos_right size.toNat he
      omega
    have hk31 : k < 32 := (Nat.pow_lt_pow_iff_right (by decide)).mp hlt
    have hk1 : 1 ≤ k := by
      by_contra hzero
      rw [show k = 0 by omega] at hk
      omega
    refine ⟨⟨k, hk1, hmask.trans hk⟩, by rw [hmask, hesize]; exact hfits, fun ops hops => ?_⟩
    obtain ⟨f, os, q, hrun, -, -⟩ := kfifo_refines hk1 (by omega) hk he (by omega) data hops
    have hmore : answers (step area) (initKfifo size esize data) ops = some (f, os) :=
      answers_mono (fun _ _ _ => step_mono hfits) hrun
    rw [hmore]
    rfl

theorem initRounded_sound_iff (he : 0 < esize.toNat) (harea : area < 2 ^ 32) :
    (initRounded data area size esize).Sound ↔ Harmless area esize.toNat size.toNat := by
  unfold initRounded Harmless
  split
  · next hsmall =>
    exact iff_of_true (fun h => by cases h) (.inl (UInt32.lt_iff_toNat_lt.mp hsmall))
  · next hlarge =>
    have hlarge : ¬ size.toNat < 2 := fun h => hlarge (UInt32.lt_iff_toNat_lt.mpr h)
    simp only [Made.Sound, forall_const, hlarge, false_or]
    exact usable_iff (by omega) he harea

theorem allocRounded_sound_iff (he : 0 < esize.toNat) :
    (allocRounded (some data) size esize).Sound ↔ Harmless (2 ^ 32 - 1) esize.toNat size.toNat := by
  unfold allocRounded Harmless
  dsimp only
  split
  · next hsmall =>
    exact iff_of_true (fun h => by cases h) (.inl (UInt32.lt_iff_toNat_lt.mp hsmall))
  · next hlarge =>
    have hlarge : ¬ size.toNat < 2 := fun h => hlarge (UInt32.lt_iff_toNat_lt.mpr h)
    simp only [Made.Sound, forall_const, hlarge, false_or]
    rw [usable_iff (by omega) he (UInt32.toNat_lt _), UInt32.toNat_mul]
    -- The block has room for the fifo if its size has not wrapped.
    refine and_congr_right fun _ => ?_
    have hmod := Nat.mod_lt (size.toNat * esize.toNat) (Nat.two_pow_pos 32)
    constructor
    · intro h
      omega
    · intro h
      rw [Nat.mod_eq_of_lt (by omega)]

/-- Without a block no fifo is made. -/
theorem allocRounded_none_sound : (allocRounded none size esize).Sound := by
  intro h
  unfold allocRounded at h
  dsimp only at h
  split at h <;> cases h

/-- A rounded number gives a sound fifo or not, an undefined one does not. -/
theorem soundlyMade_map_iff {n : UInt32} {make : UInt32 → Made} :
    SoundlyMade ((roundupPowOfTwo n).map make) ↔ ∃ m, roundupPowOfTwo n = some m ∧ (make m).Sound := by
  simp only [SoundlyMade, Option.map_eq_some_iff]
  constructor
  · rintro ⟨_, ⟨m, hm, rfl⟩, hsound⟩
    exact ⟨m, hm, hsound⟩
  · rintro ⟨m, hm, hsound⟩
    exact ⟨_, ⟨m, hm, rfl⟩, hsound⟩

/-- Where rounding up is undefined, there is nothing to round up to. -/
theorem not_pow {n : UInt32} (hn : n.toNat = 0 ∨ 2 ^ 31 < n.toNat) : ¬ ∃ k, n.toNat = 2 ^ k := by
  rintro ⟨k, hk⟩
  have hlt := UInt32.toNat_lt n
  have hpos := Nat.two_pow_pos k
  rw [hk] at hn hlt
  have hlow : 31 < k := (Nat.pow_lt_pow_iff_right (by decide)).mp (hn.resolve_left (by omega))
  have hhigh : k < 32 := (Nat.pow_lt_pow_iff_right (by decide)).mp hlt
  omega

theorem harmless_pow {k : Nat} (hk : 0 < k) : Harmless area esize.toNat (2 ^ k) ↔ 2 ^ k * esize.toNat ≤ area := by
  have htwo : ¬ 2 ^ k < 2 := Nat.not_lt.mpr (Nat.le_pow hk)
  simp [Harmless, htwo]

/-- The bytes of the buffer are enough only if nothing was rounded. -/
theorem harmless_clog_div {n : Nat} (hn : 0 < n) (hdiv : n = size.toNat / esize.toNat) (he : 0 < esize.toNat) :
    Harmless size.toNat esize.toNat (2 ^ Nat.clog 2 n) ↔ ∃ k, n = 2 ^ k := by
  have hle : n ≤ 2 ^ Nat.clog 2 n := Nat.le_pow_clog (by decide) n
  have hroom : ∀ m, m * esize.toNat ≤ size.toNat ↔ m ≤ n := fun m => by rw [hdiv, Nat.le_div_iff_mul_le he]
  by_cases hzero : Nat.clog 2 n = 0
  · rw [hzero, Nat.pow_zero] at hle ⊢
    exact iff_of_true (.inl (by decide)) ⟨0, by omega⟩
  · rw [harmless_pow (Nat.pos_of_ne_zero hzero), hroom]
    constructor
    · intro h
      exact ⟨Nat.clog 2 n, Nat.le_antisymm hle h⟩
    · rintro ⟨k, hk⟩
      rw [hk, Nat.clog_pow 2 k (by decide)]

/-- The least power of two is the one to ask for. -/
theorem harmless_clog_alloc (n : Nat) :
    Harmless (2 ^ 32 - 1) esize.toNat (2 ^ Nat.clog 2 n) ↔ ∃ k, n ≤ 2 ^ k ∧ 2 ^ k * esize.toNat < 2 ^ 32 := by
  have hle : n ≤ 2 ^ Nat.clog 2 n := Nat.le_pow_clog (by decide) n
  by_cases hzero : Nat.clog 2 n = 0
  · rw [hzero, Nat.pow_zero] at hle ⊢
    refine iff_of_true (.inl (by decide)) ⟨0, hle, ?_⟩
    rw [Nat.pow_zero, Nat.one_mul]
    exact UInt32.toNat_lt esize
  · rw [harmless_pow (Nat.pos_of_ne_zero hzero)]
    constructor
    · intro h
      exact ⟨Nat.clog 2 n, hle, by omega⟩
    · rintro ⟨k, hk, hfits⟩
      have hpow : 2 ^ Nat.clog 2 n ≤ 2 ^ k := Nat.pow_le_pow_right (by decide) (Nat.clog_le_of_le_pow hk)
      have := Nat.mul_le_mul_right esize.toNat hpow
      omega

theorem kfifoInit_sound_iff (he : 0 < esize.toNat) :
    SoundlyMade (kfifoInit data size esize) ↔ ∃ k, size.toNat / esize.toNat = 2 ^ k := by
  have hdiv : (size / esize).toNat = size.toNat / esize.toNat := UInt32.toNat_div size esize
  rw [kfifoInit, soundlyMade_map_iff, ← hdiv]
  by_cases hundef : (size / esize).toNat = 0 ∨ 2 ^ 31 < (size / esize).toNat
  · rw [roundupPowOfTwo_undefined hundef]
    exact iff_of_false (fun ⟨m, hm, _⟩ => by cases hm) (not_pow hundef)
  · obtain ⟨m, hm, hclog⟩ := roundupPowOfTwo_eq (n := size / esize) (by omega) (by omega)
    simp only [hm, Option.some.injEq, exists_eq_left']
    rw [initRounded_sound_iff he (UInt32.toNat_lt size), hclog, harmless_clog_div (by omega) hdiv he]

theorem kfifoAlloc_sound_iff (he : 0 < esize.toNat) (block : Option (Nat → UInt8)) :
    SoundlyMade (kfifoAlloc block size esize) ↔ (0 < size.toNat ∧ size.toNat ≤ 2 ^ 31) ∧
      (block = none ∨ ∃ k, size.toNat ≤ 2 ^ k ∧ 2 ^ k * esize.toNat < 2 ^ 32) := by
  rw [kfifoAlloc, soundlyMade_map_iff]
  by_cases hundef : size.toNat = 0 ∨ 2 ^ 31 < size.toNat
  · rw [roundupPowOfTwo_undefined hundef]
    refine iff_of_false (fun ⟨m, hm, _⟩ => by cases hm) fun ⟨⟨hpos, hle⟩, _⟩ => ?_
    omega
  · have hdefined : 0 < size.toNat ∧ size.toNat ≤ 2 ^ 31 := by omega
    obtain ⟨m, hm, hclog⟩ := roundupPowOfTwo_eq hdefined.1 hdefined.2
    simp only [hm, Option.some.injEq, exists_eq_left', hdefined, true_and]
    cases block with
    | none => exact iff_of_true allocRounded_none_sound (.inl rfl)
    | some data =>
      rw [allocRounded_sound_iff he, hclog, harmless_clog_alloc]
      simp only [reduceCtorEq, false_or]

/-- **When a fifo claims no more than its buffer has.** Made on a given
buffer, if its number of elements is a power of two; allocated, if there is
a number of elements to round up, at most `2 ^ 31`, and either there is no
memory or the least power of two large enough fits in 32 bits. -/
theorem made_sound_iff (size esize : UInt32) (he : 0 < esize.toNat) (buffer : Nat → UInt8)
    (block : Option (Nat → UInt8)) :
    (SoundlyMade (kfifoInit buffer size esize) ↔ ∃ k, size.toNat / esize.toNat = 2 ^ k) ∧
    (SoundlyMade (kfifoAlloc block size esize) ↔ (0 < size.toNat ∧ size.toNat ≤ 2 ^ 31) ∧
      (block = none ∨ ∃ k, size.toNat ≤ 2 ^ k ∧ 2 ^ k * esize.toNat < 2 ^ 32)) :=
  ⟨kfifoInit_sound_iff he, kfifoAlloc_sound_iff he block⟩

end Made

/-- A buffer of six bytes becomes a fifo of eight, and a block for `2 ^ 31`
elements of two bytes is one of no byte. -/
theorem made_too_small : ∃ six huge, kfifoInit (fun _ => 0) 6 1 = some six ∧
    kfifoAlloc (some fun _ => 0) 0x80000000 2 = some huge ∧
    (six.ret = 0 ∧ six.fifo.mask = 7 ∧
      answers (step 6) six.fifo [(.in (List.replicate 8 ⟨[0], rfl⟩) 8 : Op 1)] = none ∧ ¬ six.Sound) ∧
    huge.ret = 0 ∧ huge.area = 0 ∧ ¬ huge.Sound := by
  refine ⟨_, _, rfl, rfl, ⟨rfl, rfl, rfl, fun h => ?_⟩, rfl, rfl, fun h => ?_⟩
  · exact absurd (h rfl).fits (by decide)
  · exact absurd (h rfl).fits (by decide)

/-- A buffer of 4096 bytes, and a fifo of at least 1000 elements of four. -/
theorem made_sound_iff_page : SoundlyMade (kfifoInit (fun _ => 0) 4096 1) ∧
    SoundlyMade (kfifoAlloc (some fun _ => 0) 1000 4) :=
  ⟨(made_sound_iff 4096 1 (by decide) (fun _ => 0) none).1.mpr ⟨12, rfl⟩,
    (made_sound_iff 1000 4 (by decide) (fun _ => 0) (some fun _ => 0)).2.mpr
      ⟨by decide, .inr ⟨10, by decide, by decide⟩⟩⟩

end Lmsel4.Kfifo
