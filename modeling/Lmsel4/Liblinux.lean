/-
What the other modules share of liblinux: the error numbers, and the copies
between the kernel and a user.

`mem.c` makes such a copy by `memcpy` and never leaves anything over. Code
that is written for a copy which may stop on the way, as `fifo.c` is, is
modelled over any copy that keeps what `copy_from_user` and `copy_to_user`
promise (`UserCopy`); the one of `mem.c` does (`UserCopy.mem`).
-/
import Mathlib.Data.List.TakeDrop

namespace Lmsel4

/-! ## Error numbers -/

def enoent : Int32 := 2
def ebadf : Int32 := 9
def enomem : Int32 := 12
def efault : Int32 := 14
def enodev : Int32 := 19
def einval : Int32 := 22

/-! ## Copies -/

/-- `_copy_from_user` and `_copy_to_user`: the bytes copied, and the number
left over. -/
def copyUser (src : List UInt8) : List UInt8 × UInt32 := (src, 0)

/-- A first part of `src` has been copied and `left` bytes have not; in
place of those may be anything. -/
structure PartCopied (src stored : List UInt8) (left : UInt32) : Prop where
  left_le : left.toNat ≤ src.length
  stored_le : stored.length ≤ src.length
  first : stored.take (src.length - left.toNat) = src.take (src.length - left.toNat)

/-- A `copy_from_user` or `copy_to_user`: what it stores of the bytes `src`
and returns, at an offset of the user's buffer. -/
structure UserCopy (U : Type) where
  run : U → Nat → List UInt8 → List UInt8 × UInt32
  part : ∀ u i src, PartCopied src (run u i src).1 (run u i src).2

section Copies

variable {U : Type}

/-- The copies of `mem.c`. -/
def UserCopy.mem : UserCopy U where
  run _ _ src := copyUser src
  part _ _ _ := ⟨Nat.zero_le _, Nat.le_refl _, rfl⟩

/-- A copy that stops at the end of the bytes that can be accessed. -/
def UserCopy.upTo : UserCopy Nat where
  run mapped i src :=
    let left := UInt32.ofNat (src.length - (mapped - i))
    (src.take (src.length - left.toNat), left)
  part mapped i src := by
    refine ⟨?_, by rw [List.length_take]; omega, List.take_take.trans (by rw [Nat.min_self])⟩
    rw [UInt32.toNat_ofNat']
    exact Nat.le_trans (Nat.mod_le _ _) (Nat.sub_le _ _)

/-- Of `src`, cut in two somewhere, `m` bytes come over: the second part is
copied only when nothing is left over of the first. -/
def UserCopy.Moves (copy : UserCopy U) (u : U) (src : List UInt8) (m : Nat) : Prop :=
  ∃ l ≤ src.length, m =
    if (copy.run u 0 (src.take l)).2 ≠ 0 then l - (copy.run u 0 (src.take l)).2.toNat
    else src.length - (copy.run u l (src.drop l)).2.toNat

theorem PartCopied.whole {src stored : List UInt8} (h : PartCopied src stored 0) : stored = src := by
  have hfirst := h.first
  rwa [UInt32.toNat_zero, Nat.sub_zero, List.take_length, List.take_of_length_le h.stored_le] at hfirst

theorem UserCopy.Moves.le {copy : UserCopy U} {u : U} {src : List UInt8} {m : Nat} (h : copy.Moves u src m) :
    m ≤ src.length := by
  obtain ⟨l, hl, rfl⟩ := h
  split <;> omega

section Append

variable {copy : UserCopy U} {u : U} {first : List UInt8} (second : List UInt8)

theorem UserCopy.moves_of_stopped (h : (copy.run u 0 first).2 ≠ 0) :
    copy.Moves u (first ++ second) (first.length - (copy.run u 0 first).2.toNat) := by
  refine ⟨first.length, by rw [List.length_append]; omega, ?_⟩
  rw [List.take_left, if_pos h]

theorem UserCopy.moves_of_whole (h : (copy.run u 0 first).2 = 0) :
    copy.Moves u (first ++ second)
      (first.length + (second.length - (copy.run u first.length second).2.toNat)) := by
  have hleft := (copy.part u first.length second).left_le
  refine ⟨first.length, by rw [List.length_append]; omega, ?_⟩
  rw [List.take_left, List.drop_left, if_neg (not_not_intro h), List.length_append, Nat.add_sub_assoc hleft]

end Append

/-- With `mem.c` everything comes over. -/
theorem UserCopy.Moves.mem_eq {u : U} {src : List UInt8} {m : Nat} (h : mem.Moves u src m) : m = src.length := by
  obtain ⟨l, -, rfl⟩ := h
  simp [mem, copyUser]

end Copies

end Lmsel4
