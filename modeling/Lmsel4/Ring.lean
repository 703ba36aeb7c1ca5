/-
Circular storage: `n` cells addressed modulo `n`, over any cell type.

A reader sees a window of the cells, a writer blits a list into them in at
most two straight copies. What the two owe each other is here once: a blit
behind a window leaves the window alone, and shows up whole in the window
that starts where it was written.
-/
import Mathlib.Data.List.Basic
import Mathlib.Logic.Function.Basic

namespace Lmsel4.Ring

variable {α : Type*}

/-- The `len` cells from `start` on, around the end of `n` cells. -/
def window (cells : Nat → α) (n start len : Nat) : List α :=
  (List.range len).map fun i => cells ((start + i) % n)

/-- The `len` cells from `off` on, straight. -/
def run (cells : Nat → α) (off len : Nat) : List α :=
  (List.range len).map fun i => cells (off + i)

@[simp] theorem length_run (cells : Nat → α) (off len : Nat) : (run cells off len).length = len := by simp [run]

/-- The cells after a straight copy of `src` to `off`. -/
def blit (cells : Nat → α) (off : Nat) (src : List α) : Nat → α := fun i =>
  if off ≤ i then (src[i - off]?).getD (cells i) else cells i

/-- The cells after a copy of `src` to `off` that goes on at the first of
`n` cells when it reaches the last. -/
def blitWrap (cells : Nat → α) (n off : Nat) (src : List α) : Nat → α :=
  blit (blit cells off (src.take (n - off))) 0 (src.drop (n - off))

/-! ## Windows -/

@[simp] theorem window_length (cells : Nat → α) (n start len : Nat) :
    (window cells n start len).length = len := by simp [window]

@[simp] theorem window_zero (cells : Nat → α) (n start : Nat) : window cells n start 0 = [] := by
  simp [window]

theorem window_mod (cells : Nat → α) (n start len : Nat) :
    window cells n (start % n) len = window cells n start len := by simp [window]

/-- Starts that agree modulo `n` open the same window. -/
theorem window_start {n s t : Nat} (h : s % n = t % n) (cells : Nat → α) (len : Nat) :
    window cells n s len = window cells n t len := by
  rw [← window_mod cells n s, h, window_mod]

theorem window_add (cells : Nat → α) (n start a b : Nat) :
    window cells n start (a + b) = window cells n start a ++ window cells n (start + a) b := by
  simp [window, List.range_add, Function.comp_def, Nat.add_assoc]

theorem window_take {cells : Nat → α} {n start a len : Nat} (h : a ≤ len) :
    (window cells n start len).take a = window cells n start a := by
  obtain ⟨b, rfl⟩ := Nat.exists_eq_add_of_le h
  rw [window_add, List.take_left' (by simp)]

theorem window_drop {cells : Nat → α} {n start a len : Nat} (h : a ≤ len) :
    (window cells n start len).drop a = window cells n (start + a) (len - a) := by
  obtain ⟨b, rfl⟩ := Nat.exists_eq_add_of_le h
  rw [window_add, List.drop_left' (by simp), Nat.add_sub_cancel_left]

theorem window_congr {cells cells' : Nat → α} {n start len : Nat}
    (h : ∀ i < len, cells ((start + i) % n) = cells' ((start + i) % n)) :
    window cells n start len = window cells' n start len :=
  List.map_congr_left fun i hi => h i (List.mem_range.mp hi)

theorem window_one (cells : Nat → α) (n start : Nat) :
    window cells n start 1 = [cells (start % n)] := by simp [window]

theorem window_succ (cells : Nat → α) (n start len : Nat) :
    window cells n start (len + 1) = cells (start % n) :: window cells n (start + 1) len := by
  rw [Nat.add_comm, window_add, window_one]
  rfl

theorem window_getElem? {cells : Nat → α} {n start len i : Nat} (h : i < len) :
    (window cells n start len)[i]? = some (cells ((start + i) % n)) := by
  rw [window, List.getElem?_map, List.getElem?_range h]
  rfl

/-- Cells less than `n` apart are different. -/
theorem mod_ne {n i d : Nat} (start : Nat) (hi : i < n) (hd : d < n) (hne : i ≠ d) :
    (start + i) % n ≠ (start + d) % n := by
  intro heq
  have hle := Nat.sub_mod_eq_zero_of_mod_eq heq
  have hge := Nat.sub_mod_eq_zero_of_mod_eq heq.symm
  rw [Nat.add_sub_add_left, Nat.mod_eq_of_lt (by omega)] at hle hge
  omega

/-- A store behind a window leaves the window as it was. -/
theorem window_update_outside {cells : Nat → α} {n start len d : Nat} (hl : len ≤ d) (hd : d < n) (v : α) :
    window (Function.update cells ((start + d) % n) v) n start len = window cells n start len :=
  window_congr fun _ hi => Function.update_of_ne (mod_ne start (by omega) hd (by omega)) ..

theorem run_add (cells : Nat → α) (off a b : Nat) :
    run cells off (a + b) = run cells off a ++ run cells (off + a) b := by
  simp [run, List.range_add, Function.comp_def, Nat.add_assoc]

/-- A window no longer than the cells is at most two straight runs. -/
theorem window_eq_run {cells : Nat → α} {n off len : Nat} (hoff : off < n) (hlen : len ≤ n) :
    window cells n off len =
      run cells off (min len (n - off)) ++ run cells 0 (len - min len (n - off)) := by
  apply List.ext_getElem
  · simp only [window_length, run, List.length_append, List.length_map, List.length_range]
    omega
  intro i hi _
  simp only [window_length] at hi
  simp only [window, run, List.getElem_append, List.getElem_map, List.getElem_range, List.length_map,
    List.length_range, Nat.zero_add]
  split
  · rw [Nat.mod_eq_of_lt (by omega)]
  · rw [Nat.mod_eq_sub_mod (by omega), Nat.mod_eq_of_lt (by omega)]
    congr 1
    omega

/-! ## Blits -/

/-- A cell `d` places after `off` is at distance `d` from it. -/
theorem distance {n off d : Nat} (hoff : off < n) (hd : d < n) :
    ((off + d) % n + n - off) % n = d := by
  by_cases h : off + d < n
  · rw [Nat.mod_eq_of_lt h, show off + d + n - off = d + n by omega, Nat.add_mod_right,
      Nat.mod_eq_of_lt hd]
  · have hmod : (off + d) % n = off + d - n := by
      rw [Nat.mod_eq_sub_mod (by omega), Nat.mod_eq_of_lt (by omega)]
    rw [hmod, show off + d - n + n - off = d by omega, Nat.mod_eq_of_lt hd]

theorem blit_nil (cells : Nat → α) (off : Nat) : blit cells off [] = cells := by
  funext i
  simp [blit]

/-- A copy that ends before the last cell does not go round. -/
theorem blitWrap_straight {cells : Nat → α} {n off : Nat} {src : List α} (h : off + src.length ≤ n) :
    blitWrap cells n off src = blit cells off src := by
  rw [blitWrap, List.take_of_length_le (by omega), List.drop_eq_nil_of_le (by omega), blit_nil]

theorem blitWrap_apply {cells : Nat → α} {n off i : Nat} {src : List α} (hoff : off < n)
    (hsrc : src.length ≤ n) (hi : i < n) :
    blitWrap cells n off src i = (src[(i + n - off) % n]?).getD (cells i) := by
  simp only [blitWrap, blit, Nat.zero_le, if_true, Nat.sub_zero, List.getElem?_drop]
  by_cases h : off ≤ i
  · -- The cell is past `off`: the second copy does not come round to it.
    rw [show i + n - off = i - off + n by omega, Nat.add_mod_right, Nat.mod_eq_of_lt (by omega),
      List.getElem?_eq_none (show src.length ≤ n - off + i by omega), if_pos h,
      List.getElem?_take_of_lt (by omega)]
    rfl
  · rw [if_neg h, Nat.mod_eq_of_lt (by omega), show n - off + i = i + n - off by omega]

theorem blitWrap_at {cells : Nat → α} {n off d : Nat} {src : List α} (hoff : off < n)
    (hsrc : src.length ≤ n) (hd : d < n) :
    blitWrap cells n off src ((off + d) % n) = (src[d]?).getD (cells ((off + d) % n)) := by
  rw [blitWrap_apply hoff hsrc (Nat.mod_lt _ (by omega)), distance hoff hd]

/-- What was written is what the window over it shows. -/
theorem window_blitWrap_self {cells : Nat → α} {n off : Nat} {src : List α} (hoff : off < n)
    (hsrc : src.length ≤ n) : window (blitWrap cells n off src) n off src.length = src := by
  apply List.ext_getElem (by simp)
  intro i hi _
  simp only [window_length] at hi
  simp only [window, List.getElem_map, List.getElem_range]
  rw [blitWrap_at hoff hsrc (by omega), List.getElem?_eq_getElem hi, Option.getD_some]

/-- A blit right behind a window, within the `n` cells, leaves the window
as it was. -/
theorem window_blitWrap_behind {cells : Nat → α} {n start len : Nat} {src : List α} (hn : 0 < n)
    (h : len + src.length ≤ n) :
    window (blitWrap cells n ((start + len) % n) src) n start len = window cells n start len := by
  refine window_congr fun i hi => ?_
  -- Seen from where the blit starts, the window's cells are the last `len`.
  have hi' : (start + i) % n = ((start + len) % n + (n - len + i)) % n := by
    rw [Nat.mod_add_mod, show start + len + (n - len + i) = start + i + n by omega,
      Nat.add_mod_right]
  rw [hi', blitWrap_at (Nat.mod_lt _ hn) (by omega) (by omega), List.getElem?_eq_none (by omega)]
  rfl

/-- Storing one cell is a blit of one. -/
theorem update_eq_blitWrap {cells : Nat → α} {n off : Nat} (hoff : off < n) (v : α) :
    Function.update cells off v = blitWrap cells n off [v] := by
  rw [blitWrap_straight (show off + [v].length ≤ n from hoff)]
  funext i
  simp only [blit, Function.update_apply]
  rcases Nat.lt_trichotomy i off with h | h | h
  · simp [show i ≠ off by omega, show ¬ off ≤ i by omega]
  · simp [h]
  · simp [show i ≠ off by omega, show off ≤ i by omega, List.getElem?_eq_none, show 1 ≤ i - off by omega]

/-- Cells outside the `n` are not written. -/
theorem blitWrap_outside {cells : Nat → α} {n off i : Nat} {src : List α} (hoff : off < n) (hsrc : src.length ≤ n)
    (hi : n ≤ i) : blitWrap cells n off src i = cells i := by
  simp only [blitWrap, blit, Nat.zero_le, if_true, Nat.sub_zero, List.getElem?_drop]
  rw [List.getElem?_eq_none (by omega), Option.getD_none, if_pos (by omega),
    List.getElem?_eq_none (by rw [List.length_take]; omega), Option.getD_none]

/-- A copy around the end, cell by cell. -/
theorem blitWrap_cons {cells : Nat → α} {n start : Nat} {src : List α} (v : α) (h : src.length < n) :
    blitWrap (Function.update cells (start % n) v) n ((start + 1) % n) src =
      blitWrap cells n (start % n) (v :: src) := by
  have hpos : 0 < n := by omega
  funext i
  by_cases hi : i < n
  · -- The cell is `d` places after the first, or is the first.
    obtain ⟨d, hd, rfl⟩ : ∃ d, d < n ∧ i = (start % n + d) % n :=
      ⟨(i + n - start % n) % n, Nat.mod_lt _ hpos, by
        have := Nat.mod_lt start hpos
        rw [Nat.add_mod_mod, show start % n + (i + n - start % n) = i + n by omega, Nat.add_mod_right,
          Nat.mod_eq_of_lt hi]⟩
    rw [blitWrap_at (Nat.mod_lt _ hpos) (by rw [List.length_cons]; omega) hd]
    cases d with
    | zero =>
      have hlast : (start % n + 0) % n = ((start + 1) % n + (n - 1)) % n := by
        rw [Nat.mod_add_mod, Nat.mod_add_mod, show start + 1 + (n - 1) = start + n by omega, Nat.add_mod_right]
        rfl
      rw [hlast, blitWrap_at (Nat.mod_lt _ hpos) (by omega) (by omega), ← hlast, List.getElem?_eq_none (by omega),
        Nat.add_zero, Nat.mod_mod, Option.getD_none, Function.update_self]
      rfl
    | succ d =>
      have hne : (start % n + (d + 1)) % n ≠ start % n := by
        have := mod_ne (start % n) hd hpos (Nat.succ_ne_zero d)
        rwa [Nat.add_zero (start % n), Nat.mod_mod] at this
      have hshift : (start % n + (d + 1)) % n = ((start + 1) % n + d) % n := by
        rw [Nat.mod_add_mod, Nat.mod_add_mod, Nat.add_right_comm, Nat.add_assoc]
      rw [hshift, blitWrap_at (Nat.mod_lt _ hpos) (by omega) (by omega), ← hshift, Function.update_of_ne hne]
      rfl
  · have := Nat.mod_lt start hpos
    rw [blitWrap_outside (Nat.mod_lt _ hpos) (by omega) (by omega),
      blitWrap_outside (Nat.mod_lt _ hpos) (by rw [List.length_cons]; omega) (by omega),
      Function.update_of_ne (by omega)]

end Lmsel4.Ring
