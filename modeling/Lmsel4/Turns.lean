/-
Calls that take a spinlock by `spin_trylock`, each at most once, and what
they leave behind in the order they took it.

`call c` is where call `c` is, of any type; `holds` and `before` say of a
place whether the lock is held there and whether it is still to be taken.
A call that appends to a stream while it holds the lock appends at the end
of what all calls before it left: the stream is the concatenation, in the
order of the lock, of what each call left (`Turns.flatten_append`).
-/
import Lmsel4.Spinlock

namespace Lmsel4

open Spinlock (qLockedVal storeLowByte)

variable {C W α : Type}

/-- The lock `lock`, the calls, and the order in which they took it. -/
structure Turns (holds before : W → Bool) (lock : UInt32) (call : C → W) (order : List C) : Prop where
  excl : Exclusive (lock = 0) fun c => holds (call c) = true
  word : lock = 0 ∨ lock = qLockedVal
  last : ∀ c, holds (call c) = true → ∃ l, order = l ++ [c]
  nodup : order.Nodup
  took : ∀ c, c ∈ order → before (call c) = false

namespace Turns

variable {holds before : W → Bool} {lock : UInt32} {call : C → W} {order : List C} {c : C} {w : W}

theorem others (h : Turns holds before lock call order) (hc : holds (call c) = true) {u : C} (hu : u ≠ c) :
    holds (call u) = false := by
  rw [← Bool.not_eq_true]
  intro hh
  exact hu (h.excl.one u c hh hc)

variable [DecidableEq C]

/-- A step of a call that leaves the lock alone. -/
theorem moves (h : Turns holds before lock call order) (hh : holds w = holds (call c))
    (hb : before w = true → before (call c) = true) :
    Turns holds before lock (Function.update call c w) order where
  excl := h.excl.stay (Q := fun w => holds w = true) (by rw [hh]) Iff.rfl
  word := h.word
  last := (Function.forall_update_iff _ fun u w => holds w = true → ∃ l, order = l ++ [u]).mpr
    ⟨fun hw => h.last c (hh ▸ hw), fun u _ => h.last u⟩
  nodup := h.nodup
  took := by
    refine (Function.forall_update_iff _ fun u w => u ∈ order → before w = false).mpr
      ⟨fun hc => ?_, fun u _ => h.took u⟩
    rw [← Bool.not_eq_true]
    intro hw
    have := hb hw
    rw [h.took c hc] at this
    cases this

/-- A call that finds the lock free takes it. -/
theorem takes (h : Turns holds before lock call order) (h₀ : lock = 0) (hw : holds w = true)
    (hb : before (call c) = true) (hw' : before w = false) :
    Turns holds before qLockedVal (Function.update call c w) (order ++ [c]) where
  excl := h.excl.enter (Q := fun w => holds w = true) h₀ hw (by simp [qLockedVal])
  word := .inr rfl
  last := by
    refine (Function.forall_update_iff _ fun u w => holds w = true → ∃ l, order ++ [c] = l ++ [u]).mpr
      ⟨fun _ => ⟨order, rfl⟩, fun u _ hu => ?_⟩
    exact absurd hu (h.excl.free_iff.mp h₀ u)
  nodup := by
    refine List.nodup_append.mpr ⟨h.nodup, by simp, ?_⟩
    intro a ha b hb' he
    simp only [List.mem_singleton] at hb'
    rw [he, hb'] at ha
    have := h.took c ha
    rw [hb] at this
    cases this
  took := by
    refine (Function.forall_update_iff _ fun u w => u ∈ order ++ [c] → before w = false).mpr
      ⟨fun _ => hw', fun u hu hm => ?_⟩
    simp only [List.mem_append, List.mem_singleton] at hm
    exact h.took u (hm.resolve_right hu)

/-- The holder stores 0 in the low byte of the lock. -/
theorem releases (h : Turns holds before lock call order) (hc : holds (call c) = true) (hw : holds w = false)
    (hb : before w = false) :
    Turns holds before (storeLowByte lock) (Function.update call c w) order := by
  have hval : storeLowByte lock = 0 := by
    rcases h.word with h₀ | h₀ <;> rw [h₀] <;> rfl
  refine ⟨h.excl.leave (Q := fun w => holds w = true) hc (by simp [hw]) hval, .inl hval, ?_, h.nodup, ?_⟩
  · refine (Function.forall_update_iff _ fun u w => holds w = true → ∃ l, order = l ++ [u]).mpr
      ⟨fun h' => ?_, fun u _ => h.last u⟩
    rw [hw] at h'
    cases h'
  · exact (Function.forall_update_iff _ fun u w => u ∈ order → before w = false).mpr
      ⟨fun _ => hb, fun u _ => h.took u⟩

/-! ## What the calls leave -/

theorem flatten_same {out : W → List α} (ho : out w = out (call c)) :
    (order.map fun u => out (Function.update call c w u)).flatten = (order.map fun u => out (call u)).flatten := by
  congr 1
  apply List.map_congr_left
  intro u _
  rw [Function.update_apply]
  split
  · next hu => rw [hu, ho]
  · rfl

theorem flatten_takes {out : W → List α} (ho : out w = []) (hc : out (call c) = []) :
    ((order ++ [c]).map fun u => out (Function.update call c w u)).flatten =
      (order.map fun u => out (call u)).flatten := by
  rw [List.map_append, List.flatten_append, flatten_same (ho.trans hc.symm)]
  simp [ho]

/-- What the holder leaves comes after all that was left before. -/
theorem flatten_append (h : Turns holds before lock call order) (hc : holds (call c) = true)
    {out : W → List α} (ho : out (call c) = []) :
    (order.map fun u => out (Function.update call c w u)).flatten =
      (order.map fun u => out (call u)).flatten ++ out w := by
  obtain ⟨l, hl⟩ := h.last c hc
  have hnot : c ∉ l := by
    have := h.nodup
    rw [hl, List.nodup_append] at this
    intro hm
    exact this.2.2 c hm c (by simp) rfl
  have hsame : (l.map fun u => out (Function.update call c w u)) = l.map fun u => out (call u) := by
    apply List.map_congr_left
    intro u hu
    rw [Function.update_of_ne]
    rintro rfl
    exact hnot hu
  rw [hl]
  simp [hsame, ho]

omit [DecidableEq C] in
/-- Where one call alone leaves anything, that is all there is. -/
theorem flatten_only {out : W → List α} (hothers : ∀ u, u ≠ c → out (call u) = []) :
    ∀ {order : List C}, order.Nodup → (c ∉ order → out (call c) = []) →
      (order.map fun u => out (call u)).flatten = out (call c)
  | [], _, hc => (hc List.not_mem_nil).symm
  | u :: order, hnodup, hc => by
    rw [List.nodup_cons] at hnodup
    rw [List.map_cons, List.flatten_cons]
    by_cases hu : u = c
    · subst hu
      have hrest : ∀ l ∈ order.map fun u => out (call u), l = [] := by
        intro l hl
        obtain ⟨v, hv, rfl⟩ := List.mem_map.mp hl
        exact hothers v fun heq => hnodup.1 (heq ▸ hv)
      rw [List.flatten_eq_nil_iff.mpr hrest, List.append_nil]
    · rw [hothers u hu, List.nil_append]
      exact flatten_only hothers hnodup.2 fun hm => hc fun hmem => (List.mem_cons.mp hmem).elim (Ne.symm hu) hm

end Turns

end Lmsel4
