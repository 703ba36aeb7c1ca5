/-
Paths along links, over any kind of node.

Every node has at most one successor, and the links lead from one node
through a list of others to a last one. A path needs only the links of the
nodes on it (`Path.congr`). A node is put at the front or at the end of a
path, or taken out of it, by the link of the node before it (`Path.front`,
`Path.back`, `Path.unlink`). A ring that is linked both ways is two paths,
so each of these serves both directions.
-/
import Mathlib.Data.List.Nodup
import Mathlib.Logic.Function.Basic

namespace Lmsel4

variable {α : Type*}

/-- The links `f` lead from `a` through the nodes `xs` to `b`. -/
def Path (f : α → Option α) : α → List α → α → Prop
  | a, [], b => f a = some b
  | a, x :: xs, b => f a = some x ∧ Path f x xs b

namespace Path

variable {f g : α → Option α} {a b x y : α} {l r xs ys : List α}

theorem append : Path f a (l ++ x :: r) b ↔ Path f a l x ∧ Path f x r b := by
  induction l generalizing a with
  | nil => simp [Path]
  | cons c l ih => simp [Path, ih, and_assoc]

/-- The links of the nodes on the path are all it needs. -/
theorem congr (h : Path f a xs b) (hfg : ∀ y ∈ a :: xs, g y = f y) : Path g a xs b := by
  induction xs generalizing a with
  | nil => exact (hfg a List.mem_cons_self).trans h
  | cons x xs ih =>
    exact ⟨(hfg a List.mem_cons_self).trans h.1, ih h.2 fun y hy => hfg y (List.mem_cons_of_mem _ hy)⟩

/-- The first link leads to the first node, or to the end. -/
theorem first (h : Path f a xs b) (hxs : xs ++ [b] = y :: ys) : f a = some y := by
  cases xs with
  | nil => cases hxs; exact h
  | cons x xs => cases hxs; exact h.1

/-- Every node on the path has a link. -/
theorem isSome (h : Path f a xs b) : ∀ y ∈ a :: xs, (f y).isSome := by
  induction xs generalizing a with
  | nil =>
    intro y hy
    rw [List.mem_singleton.mp hy, show f a = some b from h]
    rfl
  | cons x xs ih =>
    intro y hy
    rcases List.mem_cons.mp hy with rfl | hy
    · rw [h.1]
      rfl
    · exact ih h.2 y hy

variable [DecidableEq α]

/-- A node put behind the start. -/
theorem front (h : Path f a xs b) (hx : x ∉ a :: xs) (ha : a ∉ xs) :
    Path (Function.update (Function.update f x (f a)) a (some x)) a (x :: xs) b := by
  have hxa : x ≠ a := List.ne_of_not_mem_cons hx
  refine ⟨Function.update_self .., ?_⟩
  have hkeep : ∀ y ∈ xs, Function.update (Function.update f x (f a)) a (some x) y = f y := by
    intro y hy
    have hya : y ≠ a := fun he => ha (he ▸ hy)
    have hyx : y ≠ x := fun he => hx (List.mem_cons_of_mem _ (he ▸ hy))
    rw [Function.update_of_ne hya, Function.update_of_ne hyx]
  have hlink : Function.update (Function.update f x (f a)) a (some x) x = f a := by
    rw [Function.update_of_ne hxa, Function.update_self]
  cases xs with
  | nil => exact hlink.trans h
  | cons y xs => exact ⟨hlink.trans h.1, h.2.congr hkeep⟩

/-- A node put before the end, by the link of the last node `p`. -/
theorem back {m : List α} {p : α} (h : Path f a xs b) (hm : a :: xs = m ++ [p]) (hnd : (a :: xs).Nodup)
    (hx : x ∉ a :: xs) : Path (Function.update (Function.update f x (some b)) p (some x)) a (xs ++ [x]) b := by
  induction xs generalizing a m with
  | nil =>
    obtain rfl : a = p := (List.cons.inj (List.append_inj' (show [] ++ [a] = m ++ [p] from hm) rfl).2).1
    have hxa : x ≠ a := List.ne_of_not_mem_cons hx
    refine ⟨Function.update_self .., ?_⟩
    change Function.update (Function.update f x (some b)) a (some x) x = some b
    rw [Function.update_of_ne hxa, Function.update_self]
  | cons y xs ih =>
    cases m with
    | nil => cases hm
    | cons c m =>
      have hm : y :: xs = m ++ [p] := (List.cons.inj hm).2
      rw [List.nodup_cons] at hnd
      have hp : p ∈ y :: xs := by rw [hm]; simp
      have hap : a ≠ p := fun he => hnd.1 (he ▸ hp)
      have hax : a ≠ x := fun he => hx (he ▸ List.mem_cons_self)
      refine ⟨?_, ih h.2 hm hnd.2 fun hmem => hx (List.mem_cons_of_mem _ hmem)⟩
      rw [Function.update_of_ne hap, Function.update_of_ne hax]
      exact h.1

/-- A node taken out, by the link of the node `p` before it. -/
theorem unlink {m : List α} {p : α} (h : Path f a (l ++ x :: r) b) (hm : a :: l = m ++ [p])
    (hnd : (a :: (l ++ x :: r)).Nodup) : Path (Function.update f p (f x)) a (l ++ r) b := by
  induction l generalizing a m with
  | nil =>
    obtain rfl : a = p := (List.cons.inj (List.append_inj' (show [] ++ [a] = m ++ [p] from hm) rfl).2).1
    have ha : a ∉ r := fun hr => (List.nodup_cons.mp hnd).1 (List.mem_cons_of_mem _ hr)
    have hkeep : ∀ y ∈ r, Function.update f a (f x) y = f y :=
      fun y hy => Function.update_of_ne (fun he : y = a => ha (he ▸ hy)) _ _
    have hlink : Function.update f a (f x) a = f x := Function.update_self ..
    have hrest : Path f x r b := h.2
    cases r with
    | nil => exact hlink.trans hrest
    | cons y r => exact ⟨hlink.trans hrest.1, hrest.2.congr hkeep⟩
  | cons c l ih =>
    cases m with
    | nil => cases hm
    | cons d m =>
      have hm : c :: l = m ++ [p] := (List.cons.inj hm).2
      rw [List.cons_append, List.nodup_cons] at hnd
      have hp : p ∈ c :: (l ++ x :: r) := by
        rw [← List.cons_append, hm]
        simp
      refine ⟨?_, ih h.2 hm hnd.2⟩
      have hap : a ≠ p := fun he => hnd.1 (he ▸ hp)
      rw [Function.update_of_ne hap]
      exact h.1

end Path

end Lmsel4
