/-
The macros of `kfifo.h` that count, skip and empty, on a fifo of records.

`kfifo_avail` of a record fifo is exact for the records that have bytes: one
whose length can be written is queued if and only if it is no longer than
`kfifo_avail` says. `kfifo_peek_len` and `kfifo_skip` take it for granted
that there is a record. With these among the calls the fifo is still the
queue of records (`macros_refine`).
-/
import Lmsel4.RecordUser

namespace Lmsel4.Kfifo

/-! ## The macros -/

/-- `kfifo_initialized`. -/
def kfifoInitialized (f : Kfifo) : Bool := f.mask != 0

/-- `kfifo_size`. -/
def kfifoSize (f : Kfifo) : UInt32 := f.mask + 1

/-- `kfifo_reset`. -/
def kfifoReset (f : Kfifo) : Kfifo := { f with inIdx := 0, outIdx := 0 }

/-- `kfifo_reset_out`. -/
def kfifoResetOut (f : Kfifo) : Kfifo := { f with outIdx := f.inIdx }

/-- `kfifo_avail`. -/
def kfifoAvail (f : Kfifo) (recsize : UInt32) : UInt32 :=
  let avail := f.kfifoSize - f.kfifoLen
  if recsize ≠ 0 then if avail ≤ recsize then 0 else kfifoMaxR (avail - recsize) recsize else avail

/-- `kfifo_skip`. -/
def kfifoSkip (f : Kfifo) (recsize : UInt32) : Kfifo :=
  if recsize ≠ 0 then f.kfifoSkipR recsize else f.publishOut 1

/-- `kfifo_peek_len`, where the type of the elements has `esize` bytes. -/
def kfifoPeekLen (f : Kfifo) (esize recsize : UInt32) : UInt32 :=
  if recsize = 0 then f.kfifoLen * esize else f.kfifoLenR recsize

/-- A question asked of a fifo. -/
inductive Query
  | initialized
  | size
  | len
  | avail
  | isEmpty
  | isFull
  | peekLen

/-- What the macro gives, 0 and 1 for false and true. -/
def Query.ask (esize recsize : UInt32) (f : Kfifo) : Query → UInt32
  | .initialized => f.kfifoInitialized.toUInt32
  | .size => f.kfifoSize
  | .len => f.kfifoLen
  | .avail => f.kfifoAvail recsize
  | .isEmpty => f.kfifoIsEmpty.toUInt32
  | .isFull => f.kfifoIsFull.toUInt32
  | .peekLen => f.kfifoPeekLen esize recsize

/-! ## Counting -/

section Counting

variable {f : Kfifo}

/-- `f` has `n` elements and room for `N`. -/
structure Counts (f : Kfifo) (N n : Nat) : Prop where
  size : f.size = N
  used : f.used = n
  bounded : n ≤ N
  small : N ≤ 2 ^ 31

variable {N n : Nat}

theorem Counts.toNat_size (h : Counts f N n) : f.kfifoSize.toNat = N := by
  have hsize : f.mask.toNat + 1 = N := h.size
  have hsmall := h.small
  rw [kfifoSize, UInt32.toNat_add, UInt32.toNat_one]
  omega

theorem Counts.toNat_len (h : Counts f N n) : f.kfifoLen.toNat = n := h.used

theorem Counts.toNat_unused (h : Counts f N n) : (f.kfifoSize - f.kfifoLen).toNat = N - n := by
  have hsize := h.toNat_size
  have hlen := h.toNat_len
  have hbounded := h.bounded
  rw [UInt32.toNat_sub_of_le _ _ (UInt32.le_iff_toNat_le.mpr (by omega)), hsize, hlen]

theorem Counts.isEmpty_eq (h : Counts f N n) : f.kfifoIsEmpty = decide (n = 0) := by
  rw [← h.used]
  exact Bool.eq_iff_iff.mpr (isEmpty_iff.trans decide_eq_true_iff.symm)

theorem Counts.isFull_eq (h : Counts f N n) : f.kfifoIsFull = decide (n = N) := by
  have hsize : f.mask.toNat + 1 = N := h.size
  have hlen := h.toNat_len
  have hbounded := h.bounded
  refine Bool.eq_iff_iff.mpr ?_
  rw [kfifoIsFull, decide_eq_true_iff, decide_eq_true_iff, UInt32.lt_iff_toNat_lt, hlen]
  omega

theorem Ok.initialized (h : f.Ok) : f.kfifoInitialized = true := by
  obtain ⟨k, hk, -, hsize⟩ := h.pow
  have htwo : 2 ≤ 2 ^ k := Nat.le_pow hk
  have hmask : f.mask.toNat + 1 = 2 ^ k := hsize
  refine bne_iff_ne.mpr fun hzero => ?_
  rw [hzero, UInt32.toNat_zero] at hmask
  omega

/-- Emptied, by either macro. -/
theorem reset_used : f.kfifoReset.used = 0 ∧ f.kfifoResetOut.used = 0 := by
  simp [used, kfifoReset, kfifoResetOut]

theorem Ok.reset (h : f.Ok) : f.kfifoReset.Ok ∧ f.kfifoResetOut.Ok :=
  ⟨⟨h.pow, h.esize_pos, h.fits, by rw [reset_used.1]; exact Nat.zero_le _⟩,
    ⟨h.pow, h.esize_pos, h.fits, by rw [reset_used.2]; exact Nat.zero_le _⟩⟩

theorem reset_content : f.kfifoReset.content = [] ∧ f.kfifoResetOut.content = [] := by
  have hnil : ∀ g : Kfifo, g.used = 0 → g.content = [] := fun g hg =>
    List.eq_nil_of_length_eq_zero (by rw [content_length, hg, Nat.zero_mul])
  exact ⟨hnil _ reset_used.1, hnil _ reset_used.2⟩

end Counting

end Lmsel4.Kfifo

namespace Lmsel4.Macros

open Kfifo (Answer UserAnswer Query Counts)
open Records (frame frames Represents Fresh frames_concat frame_length)

variable {U : Type}

/-! ## Records -/

inductive Op (U : Type)
  | call (op : RecordUser.Op U)
  | query (q : Query)
  | skip
  | reset
  | resetOut

/-- What a call answers, or the number that a macro gives. -/
abbrev Reply := (Answer ⊕ UserAnswer) ⊕ UInt32

def step (copy : UserCopy U) (area : Nat) (recsize : UInt32) (f : Kfifo) : Op U → Option (Kfifo × Reply)
  | .call op => (RecordUser.step copy area recsize f op).map fun (f, o) => (f, .inl o)
  | .query q => some (f, .inr (q.ask 1 recsize f))
  | .skip => some (f.kfifoSkip recsize, .inr 0)
  | .reset => some (f.kfifoReset, .inr 0)
  | .resetOut => some (f.kfifoResetOut, .inr 0)

/-- There is a record where none is looked for; what a call needs. -/
def Given (recsize : UInt32) (f : Kfifo) : Op U → Prop
  | .call op => RecordUser.Given recsize f op
  | .query .peekLen | .skip => f.kfifoIsEmpty = false
  | _ => True

instance (recsize : UInt32) (f : Kfifo) : ∀ op : Op U, Decidable (Given recsize f op)
  | .call op => inferInstanceAs (Decidable (RecordUser.Given recsize f op))
  | .query .peekLen | .skip => inferInstanceAs (Decidable (_ = _))
  | .query .initialized | .query .size | .query .len | .query .avail | .query .isEmpty | .query .isFull
  | .reset | .resetOut => .isTrue trivial

/-- What is true of `records` when a macro gives `n`: the size and the
length count the bytes of the lengths too; a record that has bytes, no more
than its length can say, has room if and only if it has at most
`kfifo_avail` of them. -/
inductive Told (N recsize : Nat) (records : List (List UInt8)) : Query → UInt32 → Prop
  | initialized : Told N recsize records .initialized 1
  | size {n : UInt32} : n.toNat = N → Told N recsize records .size n
  | len {n : UInt32} : n.toNat = (frames recsize records).length → Told N recsize records .len n
  | avail {n : UInt32} : (∀ r : List UInt8, r ≠ [] → r.length < 256 ^ recsize →
      ((frames recsize (records ++ [r])).length ≤ N ↔ r.length ≤ n.toNat)) → Told N recsize records .avail n
  | isEmpty : Told N recsize records .isEmpty (decide (records = [])).toUInt32
  | isFull : Told N recsize records .isFull (decide ((frames recsize records).length = N)).toUInt32
  | peekLen {r rs} {n : UInt32} : records = r :: rs → n.toNat = r.length → Told N recsize records .peekLen n

inductive Spec (copy : UserCopy U) (N recsize : Nat) :
    List (List UInt8) → Op U → Reply → List (List UInt8) → Prop
  | call {rs op o rs'} : RecordUser.Spec copy N recsize rs op o rs' → Spec copy N recsize rs (.call op) (.inl o) rs'
  | query {rs q n} : Told N recsize rs q n → Spec copy N recsize rs (.query q) (.inr n) rs
  | skip {r rs} : Spec copy N recsize (r :: rs) .skip (.inr 0) rs
  | reset {rs} : Spec copy N recsize rs .reset (.inr 0) []
  | resetOut {rs} : Spec copy N recsize rs .resetOut (.inr 0) []

section Refinement

variable {N : Nat} {recsize : UInt32} {f : Kfifo} {rs : List (List UInt8)}

theorem counts (h : Represents N recsize f rs) : Counts f N (frames recsize.toNat rs).length := by
  have hbounded := h.ok.bounded
  have hsmall := h.ok.size_le
  rw [h.size] at hbounded hsmall
  exact ⟨h.size, h.used, h.used ▸ hbounded, hsmall⟩

theorem recsize_ne_zero (hr : recsize = 1 ∨ recsize = 2) : recsize ≠ 0 := by
  rcases hr with rfl | rfl <;> decide

theorem frames_eq_nil (hr : recsize = 1 ∨ recsize = 2) : (frames recsize.toNat rs).length = 0 ↔ rs = [] := by
  have hpos : 0 < recsize.toNat := by rcases hr with rfl | rfl <;> decide
  cases rs with
  | nil => simp [Records.frames_nil]
  | cons r rs =>
    rw [Records.frames_cons, List.length_append, frame_length]
    simp only [reduceCtorEq, iff_false]
    omega

theorem avail_told (h : Represents N recsize f rs) (hr : recsize = 1 ∨ recsize = 2) {r : List UInt8} (hne : r ≠ [])
    (hshort : r.length < 256 ^ recsize.toNat) :
    (frames recsize.toNat (rs ++ [r])).length ≤ N ↔ r.length ≤ (f.kfifoAvail recsize).toNat := by
  have hunused := (counts h).toNat_unused
  have hbounded := (counts h).bounded
  have hpos : 0 < r.length := List.length_pos_iff.mpr hne
  rw [frames_concat, List.length_append, frame_length]
  simp only [Kfifo.kfifoAvail, if_pos (recsize_ne_zero hr)]
  split
  · next hle =>
    rw [UInt32.le_iff_toNat_le, hunused] at hle
    rw [UInt32.toNat_zero]
    omega
  · next hlt =>
    rw [UInt32.le_iff_toNat_le, hunused] at hlt
    rw [RecordUser.toNat_maxR hr, UInt32.toNat_sub_of_le _ _ (UInt32.le_iff_toNat_le.mpr (by omega)), hunused]
    omega

theorem query_told (h : Represents N recsize f rs) (hr : recsize = 1 ∨ recsize = 2) {q : Query}
    (hop : Given recsize f (.query q : Op U)) : Told N recsize.toNat rs q (q.ask 1 recsize f) := by
  have hc := counts h
  cases q with
  | initialized =>
    rw [Query.ask, h.ok.initialized]
    exact .initialized
  | size => exact .size hc.toNat_size
  | len => exact .len hc.toNat_len
  | avail => exact .avail fun _ => avail_told h hr
  | isEmpty =>
    rw [Query.ask, hc.isEmpty_eq, decide_eq_decide.mpr (frames_eq_nil hr)]
    exact .isEmpty
  | isFull =>
    rw [Query.ask, hc.isFull_eq]
    exact .isFull
  | peekLen =>
    obtain ⟨r, rs, rfl⟩ := RecordUser.record_of_nonempty h hop
    obtain ⟨-, hpeek, -, -⟩ := RecordUser.front h hr
    refine .peekLen rfl ?_
    rw [Query.ask, Kfifo.kfifoPeekLen, if_neg (recsize_ne_zero hr)]
    exact hpeek

theorem macros_step {copy : UserCopy U} (hr : recsize = 1 ∨ recsize = 2) {op : Op U} (h : Represents N recsize f rs)
    (hop : Given recsize f op) :
    ∃ f' o rs', step copy N recsize f op = some (f', o) ∧ Spec copy N recsize.toNat rs op o rs' ∧
      Represents N recsize f' rs' := by
  cases op with
  | call op =>
    obtain ⟨f', o, rs', hrun, hspec, hrep⟩ := RecordUser.records_user_step hr h hop
    exact ⟨f', _, rs', by rw [step, hrun]; rfl, .call hspec, hrep⟩
  | query q => exact ⟨f, _, rs, rfl, .query (query_told h hr hop), h⟩
  | skip =>
    obtain ⟨r, rs, rfl⟩ := RecordUser.record_of_nonempty h hop
    obtain ⟨-, -, -, hskip⟩ := RecordUser.front h hr
    exact ⟨_, _, rs, by rw [step, Kfifo.kfifoSkip, if_pos (recsize_ne_zero hr)], .skip, hskip⟩
  | reset =>
    exact ⟨_, _, [], rfl, .reset, h.ok.reset.1, h.esize, h.size, Kfifo.reset_content.1, fun _ hm => nomatch hm⟩
  | resetOut =>
    exact ⟨_, _, [], rfl, .resetOut, h.ok.reset.2, h.esize, h.size, Kfifo.reset_content.2, fun _ hm => nomatch hm⟩

end Refinement

/-- **The macros on a fifo of records.** From an empty fifo of bytes, its
indices anywhere, any calls and macros, those that look at a record made
where there is one and `__kfifo_in_r` with a length that can be written, are
answered as the queue of records answers them. -/
theorem macros_refine (copy : UserCopy U) {k : Nat} {recsize : UInt32} {f : Kfifo} (hk : 1 ≤ k) (hk' : k ≤ 31)
    (hr : recsize = 1 ∨ recsize = 2) (h : Fresh k f) {ops : List (Op U)}
    (hops : Admits (step copy (2 ^ k) recsize) (Given recsize) f ops) :
    ∃ f' os rs, answers (step copy (2 ^ k) recsize) f ops = some (f', os) ∧
      Allows (Spec copy (2 ^ k) recsize.toNat) [] ops os rs ∧ Represents (2 ^ k) recsize f' rs :=
  simulation (macros_step hr) (h.represents hk hk') hops

/-- In a fifo of eight bytes there is room for a record of one byte behind
one of three, and for none of two. -/
def filledUp : List (Op Unit) :=
  [.query .avail, .call (.record (.inR [31, 32, 33] 3)), .query .avail, .call (.record (.inR [34, 35] 2)),
    .call (.record (.inR [36] 1)), .query .isFull, .query .peekLen, .skip, .query .peekLen, .resetOut, .query .len,
    .query .isEmpty, .query .avail]

theorem macros_refine_filledUp : ∃ f os rs,
    answers (step .mem (2 ^ 3) 2) Records.wrapping filledUp = some (f, os) ∧
      os = [.inr 6, .inl (.inl ⟨3, []⟩), .inr 1, .inl (.inl ⟨0, []⟩), .inl (.inl ⟨1, []⟩), .inr 1, .inr 3, .inr 0,
        .inr 1, .inr 0, .inr 0, .inr 1, .inr 6] ∧
      Allows (Spec .mem (2 ^ 3) (2 : UInt32).toNat) [] filledUp os rs ∧ Represents (2 ^ 3) 2 f rs := by
  obtain ⟨f, os, rs, hrun, hall, hrep⟩ :=
    macros_refine .mem (by decide) (by decide) (.inr rfl) (⟨rfl, rfl, rfl⟩ : Fresh 3 Records.wrapping)
      (show Admits (step .mem (2 ^ 3) 2) (Given 2) Records.wrapping filledUp by decide)
  refine ⟨f, os, rs, hrun, ?_, hall, hrep⟩
  cases hrun
  rfl

end Lmsel4.Macros
