/-
The list of modules (`append_module` and `traverse_list` of `loader.c`).

`append_module` is given the head `all_modules` and stores the new node in
its `next`, so each module replaces the one before; `traverse_list` starts
at the head itself, whose module is `NULL`. So a traversal applies its
function to `NULL`, then to the module appended last (`traverseList_eq`),
and to nothing else.
-/
import Mathlib.Data.List.Induction

namespace Lmsel4.ModuleList

/-! ## The code -/

/-- `struct module_list`; an address is a place in the heap. -/
structure Node (M : Type) where
  mod : Option M
  next : Option Nat
  deriving DecidableEq

/-- The address of `all_modules`. -/
def allModules : Nat := 0

def initHeap (M : Type) : List (Node M) := [{ mod := none, next := none }]

section Code

variable {M σ : Type}

/-- `append_module`, where `malloc` has extended the heap. -/
def appendModule (heap : List (Node M)) (list : Nat) (elem : M) : Int32 × List (Node M) :=
  let n := heap.length
  (0, heap.modify list (fun l => { l with next := some n }) ++ [{ mod := some elem, next := none }])

/-- What a function does with a module and the state: its result, or none
if it does not return. -/
abbrev Handler (M σ : Type) := Option M → σ → Option (Int32 × σ)

/-- The arguments a function was applied to, and how the traversal ended. -/
abbrev Traversal (M σ : Type) := List (Option M) × Option (Int32 × σ)

/-- `traverse_list` from `cur` on, for at most `fuel` nodes. -/
def traverseList (heap : List (Node M)) (func : Handler M σ) : (fuel : Nat) → (cur : Option Nat) → σ →
    Option (Traversal M σ)
  | _, none, s => some ([], some (0, s))
  | 0, some _, _ => none
  | fuel + 1, some cur, s =>
    match heap[cur]? with
    | none => some ([], none)
    | some node =>
      match func node.mod s with
      | none => some ([node.mod], none)
      | some (res, s') =>
        if res < 0 then some ([node.mod], some (res, s'))
        else (traverseList heap func fuel node.next s').map fun t => (node.mod :: t.1, t.2)

/-- `struct seL4_Module`: its functions, if set. -/
structure Module (σ : Type) where
  init : Option (σ → Int32 × σ)
  exit : Option (σ → Int32 × σ)

/-- `load_module`. Neither a `NULL` module nor a failed `assert` returns. -/
def loadModule : Handler (Module σ) σ := fun mod s => mod.bind fun m => m.init.map fun f => f s

/-- `unload_module`. -/
def unloadModule : Handler (Module σ) σ := fun mod s => mod.bind fun m => m.exit.map fun f => f s

/-- `init_modules`. -/
def initModules (heap : List (Node (Module σ))) (fuel : Nat) (modules : Nat) (s : σ) :
    Option (Traversal (Module σ) σ) := traverseList heap loadModule fuel (some modules) s

/-- `unload_modules`. -/
def unloadModules (heap : List (Node (Module σ))) (fuel : Nat) (modules : Nat) (s : σ) :
    Option (Traversal (Module σ) σ) := traverseList heap unloadModule fuel (some modules) s

/-- The heap after the modules `ms` have been appended to `all_modules`. -/
def appendAll (ms : List M) : List (Node M) :=
  ms.foldl (fun heap m => (appendModule heap allModules m).2) (initHeap M)

/-! ## What it is for -/

/-- A function applied to `args` in order, up to the first negative result. -/
def applyTo (func : Handler M σ) : List (Option M) → σ → Traversal M σ
  | [], s => ([], some (0, s))
  | mod :: args, s =>
    match func mod s with
    | none => ([mod], none)
    | some (res, s') =>
      if res < 0 then ([mod], some (res, s'))
      else (mod :: (applyTo func args s').1, (applyTo func args s').2)

/-- Traversing the list applies the function to the modules appended, in
this order, up to the first negative result. -/
def InOrder (ms : List M) (func : Handler M σ) (s : σ) : Prop :=
  ∃ fuel, traverseList (appendAll ms) func fuel (some allModules) s = some (applyTo func (ms.map some) s)

/-! ## What it does -/

theorem appendAll_concat (ms : List M) (m : M) :
    appendAll (ms ++ [m]) = (appendModule (appendAll ms) allModules m).2 := by
  simp [appendAll]

/-- The head points to the node appended last; no other node points on. -/
theorem appendAll_eq (ms : List M) :
    appendAll ms =
      { mod := none, next := if ms = [] then none else some ms.length } ::
        ms.map fun m => { mod := some m, next := none } := by
  induction ms using List.reverseRecOn with
  | nil => rfl
  | append_singleton ms m ih =>
    rw [appendAll_concat, appendModule, ih]
    simp [allModules]

/-- From `cur` on, the nodes hold `args` and end. -/
def Chain (heap : List (Node M)) : Option Nat → List (Option M) → Prop
  | none, [] => True
  | some cur, mod :: args => ∃ next, heap[cur]? = some { mod, next } ∧ Chain heap next args
  | _, _ => False

variable {func : Handler M σ}

/-- `traverse_list` applies the function to what the nodes hold. -/
theorem traverseList_chain {heap : List (Node M)} : ∀ {args : List (Option M)} {cur : Option Nat} {fuel : Nat} {s : σ},
    Chain heap cur args → args.length ≤ fuel → traverseList heap func fuel cur s = some (applyTo func args s)
  | [], none, fuel, s, _, _ => by cases fuel <;> rfl
  | [], some _, _, _, h, _ => h.elim
  | _ :: _, none, _, _, h, _ => h.elim
  | mod :: args, some cur, 0, _, _, hfuel => absurd hfuel (Nat.not_succ_le_zero _)
  | mod :: args, some cur, fuel + 1, s, h, hfuel => by
    obtain ⟨next, hnode, hrest⟩ := h
    simp only [traverseList, hnode, applyTo]
    split
    · rfl
    · split
      · rfl
      · rw [traverseList_chain hrest (Nat.le_of_succ_le_succ hfuel)]
        rfl

/-- The nodes from the head on: the head, and the module appended last. -/
theorem appendAll_chain (ms : List M) :
    Chain (appendAll ms) (some allModules) (none :: ms.getLast?.toList.map some) := by
  rw [appendAll_eq]
  induction ms using List.reverseRecOn with
  | nil => exact ⟨none, rfl, trivial⟩
  | append_singleton ms m _ =>
    refine ⟨some (ms.length + 1), by simp [allModules], ?_⟩
    rw [List.getLast?_concat]
    exact ⟨none, by simp, trivial⟩

/-- **What a traversal does.** It ends, having gone through `NULL` and the
module appended last, if any. -/
theorem traverseList_eq (ms : List M) (s : σ) {fuel : Nat} (hfuel : 2 ≤ fuel) :
    traverseList (appendAll ms) func fuel (some allModules) s =
      some (applyTo func (none :: ms.getLast?.toList.map some) s) := by
  refine traverseList_chain (appendAll_chain ms) (Nat.le_trans ?_ hfuel)
  cases ms.getLast? <;> simp

/-- So no module is initialised. -/
theorem initModules_eq (ms : List (Module σ)) (s : σ) {fuel : Nat} (hfuel : 2 ≤ fuel) :
    initModules (appendAll ms) fuel allModules s = some ([none], none) := by
  rw [initModules, traverseList_eq ms s hfuel]
  rfl

theorem unloadModules_eq (ms : List (Module σ)) (s : σ) {fuel : Nat} (hfuel : 2 ≤ fuel) :
    unloadModules (appendAll ms) fuel allModules s = some ([none], none) := by
  rw [unloadModules, traverseList_eq ms s hfuel]
  rfl

/-- However far a traversal gets, `NULL` comes first. -/
theorem traverseList_head {ms : List M} {s : σ} {fuel : Nat} {t : Traversal M σ}
    (h : traverseList (appendAll ms) func fuel (some allModules) s = some t) : t.1.head? = some none := by
  cases fuel with
  | zero => cases h
  | succ fuel =>
    simp only [traverseList, appendAll_eq, allModules, List.getElem?_cons_zero] at h
    split at h
    · cases h
      rfl
    · split at h
      · cases h
        rfl
      · obtain ⟨t', -, rfl⟩ := Option.map_eq_some_iff.mp h
        rfl

theorem applyTo_head (ms : List M) (s : σ) : (applyTo func (ms.map some) s).1.head? ≠ some none := by
  cases ms with
  | nil => simp [applyTo]
  | cons m ms =>
    simp only [List.map_cons, applyTo]
    split
    · simp
    · split <;> simp

/-- **Never in order.** Whatever was appended and whatever the function
does, it is not applied to the modules in order: it is applied to `NULL`
first. -/
theorem not_inOrder (ms : List M) (func : Handler M σ) (s : σ) : ¬ InOrder ms func s := by
  intro ⟨fuel, h⟩
  exact applyTo_head ms s (traverseList_head h)

/-- With two modules and a function that accepts everything, the traversal
goes through `NULL` and the second module. -/
theorem traverse_two_modules :
    traverseList (appendAll [1, 2]) (fun _ (s : Unit) => some (0, s)) 3 (some allModules) () =
      some ([none, some 2], some (0, ())) ∧
    ¬ InOrder [1, 2] (fun _ (s : Unit) => some (0, s)) () := by
  refine ⟨by decide, fun ⟨fuel, h⟩ => ?_⟩
  have hhead := traverseList_head h
  revert hhead
  decide

end Code

end Lmsel4.ModuleList
