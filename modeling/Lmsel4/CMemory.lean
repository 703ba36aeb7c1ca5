/-
C strings in blocks of memory of which some bytes have not been written.

A byte that has not been written may be anything, so `cstr`, `strncpy` and
`strncat` stop (none) where they would read one, and where they would leave
the block. When they do not stop, their result does not depend on what such
bytes are: they do the same on every block that extends the one they were
given (`Extends`).
-/
import Mathlib.Data.List.Forall2

namespace Lmsel4.CMemory

/-- A block of memory, where none is a byte that has not been written. -/
abbrev Block (α : Type*) := List (Option α)

section Functions

variable {α : Type*}

def malloc (size : Nat) : Block α := List.replicate size none

def calloc (nul : α) (size : Nat) : Block α := List.replicate size (some nul)

variable [DecidableEq α] (nul : α)

/-- The string at the start of a block. -/
def cstr : Block α → Option (List α)
  | [] => none
  | none :: _ => none
  | some c :: b => if c = nul then some [] else (cstr b).map (c :: ·)

/-- `strncpy(dst, src, n)`, which fills up with NULs. -/
def strncpy (dst : Block α) (src : List α) (n : Nat) : Option (Block α) :=
  if n ≤ dst.length then
    some ((src.take n).map some ++ List.replicate (n - src.length) (some nul) ++ dst.drop n)
  else none

/-- `strncat(dst, src, n)`. -/
def strncat (dst : Block α) (src : List α) (n : Nat) : Option (Block α) :=
  (cstr nul dst).bind fun s =>
    let t := s ++ src.take n ++ [nul]
    if t.length ≤ dst.length then some (t.map some ++ dst.drop t.length) else none

end Functions

/-! ## Strings -/

section Strings

variable {α : Type*} [DecidableEq α] {nul : α} {s src : List α}

theorem cstr_append (h : nul ∉ s) (rest : Block α) : cstr nul (s.map some ++ rest) = (cstr nul rest).map (s ++ ·) := by
  induction s with
  | nil => simp
  | cons c s ih =>
    rw [List.mem_cons, not_or] at h
    rw [List.map_cons, List.cons_append, cstr, if_neg (Ne.symm h.1), ih h.2, Option.map_map]
    rfl

/-- The NUL ends the string. -/
theorem cstr_ended (h : nul ∉ s) (rest : Block α) : cstr nul (s.map some ++ some nul :: rest) = some s := by
  rw [cstr_append h, cstr, if_pos rfl, Option.map_some, List.append_nil]

/-- Without a NUL the string goes on past the block. -/
theorem cstr_open (h : nul ∉ s) : cstr nul (s.map some) = none := by
  have hnil := cstr_append h []
  rwa [List.append_nil] at hnil

/-- A zeroed block that is filled holds the string if it has a byte more. -/
theorem strncpy_calloc (h : nul ∉ src) (n : Nat) :
    (strncpy nul (calloc nul n) src n).bind (cstr nul) = if src.length < n then some src else none := by
  have hlen : (calloc nul n).length = n := List.length_replicate
  rw [strncpy, if_pos (Nat.le_of_eq hlen.symm), List.drop_of_length_le (Nat.le_of_eq hlen), List.append_nil,
    Option.bind_some]
  by_cases hn : src.length < n
  · obtain ⟨k, hk⟩ : ∃ k, n - src.length = k + 1 := ⟨n - src.length - 1, by omega⟩
    rw [if_pos hn, List.take_of_length_le (Nat.le_of_lt hn), hk, List.replicate_succ, cstr_ended h]
  · have hsub : n - src.length = 0 := by omega
    rw [if_neg hn, hsub, List.replicate_zero, List.append_nil, cstr_open fun hmem => h (List.mem_of_mem_take hmem)]

/-- Appending to a string what its block has just room for. -/
theorem strncat_full {rest : Block α} {n : Nat} (hs : nul ∉ s) (hn : src.length ≤ n)
    (hrest : rest.length = src.length) :
    strncat nul (s.map some ++ some nul :: rest) src n = some ((s ++ src).map some ++ [some nul]) := by
  have hlen : (s.map some ++ some nul :: rest).length = (s ++ src ++ [nul]).length := by simp [hrest]
  rw [strncat, cstr_ended hs, Option.bind_some, List.take_of_length_le hn]
  dsimp only
  rw [if_pos (Nat.le_of_eq hlen.symm), List.drop_of_length_le (Nat.le_of_eq hlen), List.append_nil, List.map_append]
  rfl

/-- A string in two parts, in a block that has just room for it and has not
been written: the NUL from which the second part goes on comes from filling
up, so there is none when that part is empty. -/
theorem strncat_strncpy (hs : nul ∉ s) (src : List α) :
    (strncpy nul (malloc (s.length + src.length + 1)) s (s.length + src.length)).bind
        (strncat nul · src (s.length + src.length)) =
      if src = [] then none else some ((s ++ src).map some ++ [some nul]) := by
  have hcopy : strncpy nul (malloc (s.length + src.length + 1)) s (s.length + src.length) =
      some (s.map some ++ (List.replicate src.length (some nul) ++ [none])) := by
    have hlen : (malloc (s.length + src.length + 1) : Block α).length = s.length + src.length + 1 :=
      List.length_replicate
    rw [strncpy, if_pos (by omega), List.take_of_length_le (Nat.le_add_right _ _), Nat.add_sub_cancel_left,
      List.append_assoc, malloc, List.drop_replicate, Nat.add_sub_cancel_left, List.replicate_one]
  rw [hcopy, Option.bind_some]
  cases src with
  | nil =>
    rw [if_pos rfl, strncat, cstr_append hs]
    rfl
  | cons c src =>
    rw [if_neg (List.cons_ne_nil c src), List.length_cons, List.replicate_succ, List.cons_append]
    exact strncat_full hs (Nat.le_add_left _ _) (by simp)

end Strings

/-! ## What has not been written does not matter -/

section Extends

variable {α : Type*}

/-- The block `b'` has what has been written in `b`. -/
def Extends (b b' : Block α) : Prop := List.Forall₂ (fun c c' => ∀ v, c = some v → c' = some v) b b'

theorem Extends.refl (b : Block α) : Extends b b := by
  induction b with
  | nil => exact .nil
  | cons c b ih => exact .cons (fun _ h => h) ih

theorem extends_malloc {b : Block α} : Extends (malloc b.length) b := by
  induction b with
  | nil => exact .nil
  | cons c b ih => exact .cons (fun _ h => by cases h) ih

variable {nul : α} {b b' : Block α}

theorem Extends.strncpy {src : List α} {n : Nat} {d : Block α} (h : Extends b b')
    (hd : CMemory.strncpy nul b src n = some d) :
    ∃ d', CMemory.strncpy nul b' src n = some d' ∧ Extends d d' := by
  obtain ⟨hn, hd⟩ := Option.ite_none_right_eq_some.mp hd
  cases hd
  refine ⟨_, if_pos (h.length_eq ▸ hn), ?_⟩
  exact List.rel_append (Extends.refl _) (List.forall₂_drop n h)

variable [DecidableEq α]

theorem Extends.cstr {s : List α} (h : Extends b b') (hs : CMemory.cstr nul b = some s) :
    CMemory.cstr nul b' = some s := by
  induction h generalizing s with
  | nil => cases hs
  | @cons c c' b b' hc _ ih =>
    cases c with
    | none => cases hs
    | some v =>
      rw [hc v rfl]
      rw [CMemory.cstr] at hs ⊢
      split
      · rename_i hv
        rwa [if_pos hv] at hs
      · rename_i hv
        rw [if_neg hv] at hs
        obtain ⟨t, ht, rfl⟩ := Option.map_eq_some_iff.mp hs
        rw [ih ht, Option.map_some]

theorem Extends.strncat {src : List α} {n : Nat} {d : Block α} (h : Extends b b')
    (hd : CMemory.strncat nul b src n = some d) :
    ∃ d', CMemory.strncat nul b' src n = some d' ∧ Extends d d' := by
  obtain ⟨s, hs, hd⟩ := Option.bind_eq_some_iff.mp hd
  obtain ⟨hn, hd⟩ := Option.ite_none_right_eq_some.mp hd
  cases hd
  refine ⟨_, ?_, List.rel_append (Extends.refl _) (List.forall₂_drop _ h)⟩
  rw [CMemory.strncat, h.cstr hs, Option.bind_some]
  exact if_pos (h.length_eq ▸ hn)

end Extends

end Lmsel4.CMemory
