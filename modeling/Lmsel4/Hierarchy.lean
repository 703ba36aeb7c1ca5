/-
The hierarchy of `cdev`s of liblinux (`cdev.c`).

`cdev_put` keeps the first `cdev` in `all_devs.cur` and the others in nodes
of `all_devs.siblings`; `cdev_del` looks for one node and frees the `cdev`.
So the hierarchy refers to a freed `cdev` from when the first one put, or
one put twice, is deleted (`exact_iff`, `deletable_iff`).
-/
import Lmsel4.System
import Mathlib.Data.List.Count

namespace Lmsel4.Hierarchy

/-- `struct device_list` of `all_devs`: of each node of `siblings`, its
`cur`. A `struct cdev *` is a value of `D`. -/
structure DeviceList (D : Type) where
  cur : Option D
  siblings : List D

section Calls

variable {D : Type} [DecidableEq D]

/-- `cdev_put`; the `kmalloc` of a node is asserted to succeed. -/
def cdevPut (p : D) (all : DeviceList D) : DeviceList D :=
  match all.cur with
  | none => { all with cur := some p }
  | some _ => { all with siblings := p :: all.siblings }

/-- What `cdev_del` leaves of the hierarchy: it stops at the first node. -/
def cdevDel (dev : D) (all : DeviceList D) : DeviceList D := { all with siblings := all.siblings.erase dev }

/-- The `cdev`s the hierarchy refers to. -/
def DeviceList.cdevs (all : DeviceList D) : List D := all.cur.toList ++ all.siblings

end Calls

/-- The hierarchy, the `cdev`s put, the last one first, and those freed. -/
structure State (D : Type) where
  all : DeviceList D
  puts : List D
  freed : List D

inductive Act (D : Type)
  | put (p : D)
  | del (p : D)

variable {D : Type} [DecidableEq D]

/-- A `cdev` that was put and not deleted. -/
def State.registered (s : State D) (p : D) : Prop := p ∈ s.puts ∧ p ∉ s.freed

/-- A `cdev` is not used again once deleted, and only one that is
registered is deleted. -/
def step (s : State D) : Act D → Option (State D)
  | .put p => if p ∈ s.freed then none else some { s with all := cdevPut p s.all, puts := p :: s.puts }
  | .del p =>
    if p ∈ s.puts ∧ p ∉ s.freed then some { s with all := cdevDel p s.all, freed := p :: s.freed } else none

def system (D : Type) [DecidableEq D] : System (State D) (Act D) where
  init := { all := { cur := none, siblings := [] }, puts := [], freed := [] }
  step := step

/-- The hierarchy has exactly the `cdev`s that are registered. -/
def Exact (s : State D) : Prop := ∀ p, p ∈ s.all.cdevs ↔ s.registered p

/-- A `cdev` that is deleted is not in `all_devs.cur`, and in one node. -/
def Deletable (s : State D) : Act D → Prop
  | .put _ => True
  | .del p => s.all.cur ≠ some p ∧ s.all.siblings.count p ≤ 1

instance (s : State D) : ∀ a, Decidable (Deletable s a)
  | .put _ => .isTrue trivial
  | .del p => inferInstanceAs (Decidable (s.all.cur ≠ some p ∧ s.all.siblings.count p ≤ 1))

/-! ## Steps -/

section Steps

variable {s s' : State D} {p : D} {a : Act D}

omit [DecidableEq D] in
theorem mem_cdevPut {all : DeviceList D} {q : D} : q ∈ (cdevPut p all).cdevs ↔ q = p ∨ q ∈ all.cdevs := by
  unfold cdevPut
  split
  · next hcur => simp [DeviceList.cdevs, hcur]
  · next hcur =>
    simp only [DeviceList.cdevs, hcur, Option.toList_some, List.cons_append, List.nil_append, List.mem_cons]
    tauto

theorem mem_cdevDel_of_ne {all : DeviceList D} {q : D} (hne : q ≠ p) :
    q ∈ (cdevDel p all).cdevs ↔ q ∈ all.cdevs := by
  simp only [cdevDel, DeviceList.cdevs, List.mem_append, List.mem_erase_of_ne hne]

/-- The `cdev` is gone only if it was in no other place. -/
theorem mem_cdevDel_self {all : DeviceList D} :
    p ∈ (cdevDel p all).cdevs ↔ all.cur = some p ∨ 1 < all.siblings.count p := by
  have hcount : p ∈ all.siblings.erase p ↔ 1 < all.siblings.count p := by
    rw [← List.count_pos_iff, List.count_erase_self]
    omega
  simp only [cdevDel, DeviceList.cdevs, List.mem_append, hcount, Option.mem_toList]

theorem step_exact (h : Exact s) (hok : Deletable s a) (hs : step s a = some s') : Exact s' := by
  intro q
  cases a with
  | put p =>
    simp only [step] at hs
    split at hs <;> cases hs
    next hfresh =>
      rw [mem_cdevPut, h q]
      simp only [State.registered, List.mem_cons]
      constructor
      · rintro (rfl | ⟨hq, hlive⟩)
        · exact ⟨.inl rfl, hfresh⟩
        · exact ⟨.inr hq, hlive⟩
      · rintro ⟨rfl | hq, hlive⟩
        · exact .inl rfl
        · exact .inr ⟨hq, hlive⟩
  | del p =>
    simp only [step] at hs
    split at hs <;> cases hs
    by_cases hne : q = p
    · subst hne
      have hgone : ¬ (s.all.cur = some q ∨ 1 < s.all.siblings.count q) := by
        rintro (hcur | hmore)
        · exact hok.1 hcur
        · exact Nat.not_lt.mpr hok.2 hmore
      rw [mem_cdevDel_self]
      exact iff_of_false hgone fun hreg => hreg.2 List.mem_cons_self
    · rw [mem_cdevDel_of_ne hne, h q]
      simp [State.registered, hne]

/-- The freed `cdev` is still referred to. -/
theorem step_not_exact (hbad : ¬ Deletable s a) (hs : step s a = some s') : ¬ Exact s' := by
  cases a with
  | put p => exact absurd trivial hbad
  | del p =>
    simp only [step] at hs
    split at hs <;> cases hs
    intro h
    have hleft : s.all.cur = some p ∨ 1 < s.all.siblings.count p := by
      by_contra hno
      rw [not_or, Nat.not_lt] at hno
      exact hbad hno
    exact ((h p).mp (mem_cdevDel_self.mpr hleft)).2 List.mem_cons_self

end Steps

/-! ## What was put -/

/-- The hierarchy against the calls made, whatever was deleted: the first
`cdev` put is in `all_devs.cur` for good, and one not freed has a place for
each time it was put. -/
structure Recorded (s : State D) : Prop where
  first : s.all.cur = s.puts.getLast?
  places : ∀ p, p ∉ s.freed → s.all.cdevs.count p = s.puts.count p

theorem step_recorded {s s' : State D} {a : Act D} (h : Recorded s) (hs : step s a = some s') : Recorded s' := by
  cases a with
  | put p =>
    simp only [step] at hs
    split at hs <;> cases hs
    have hplaces : ∀ q, (cdevPut p s.all).cdevs.count q = (p :: s.all.cdevs).count q := by
      intro q
      unfold cdevPut
      split
      · next hcur => simp [DeviceList.cdevs, hcur]
      · next hcur => simp only [DeviceList.cdevs, hcur, List.count_append, List.count_cons]; omega
    refine ⟨?_, fun q hq => ?_⟩
    · have hfirst := h.first
      rw [List.getLast?_cons]
      unfold cdevPut
      split
      · next hcur => rw [← hfirst, hcur]; rfl
      · next hcur => rw [← hfirst, hcur]; rfl
    · rw [hplaces q, List.count_cons, List.count_cons, h.places q hq]
  | del p =>
    simp only [step] at hs
    split at hs <;> cases hs
    refine ⟨h.first, fun q hq => ?_⟩
    rw [List.mem_cons, not_or] at hq
    have hplaces := h.places q hq.2
    simp only [cdevDel, DeviceList.cdevs, List.count_append, List.count_erase_of_ne hq.1] at hplaces ⊢
    exact hplaces

/-- A `cdev` that is registered can be deleted if it is not the first one
put and was put once. -/
theorem deletable_iff {s : State D} {p : D} (h : (system D).Reachable s) (hreg : s.registered p) :
    Deletable s (.del p) ↔ s.puts.getLast? ≠ some p ∧ s.puts.count p = 1 := by
  have hrec : Recorded s := h.invariant ⟨rfl, fun _ _ => rfl⟩ fun _ _ _ h _ hs => step_recorded h hs
  have hput : 1 ≤ s.puts.count p := List.count_pos_iff.mpr hreg.1
  have hplaces := hrec.places p hreg.2
  simp only [Deletable, hrec.first]
  refine and_congr_right fun hne => ?_
  rw [← hrec.first] at hne
  rw [DeviceList.cdevs, List.count_append, List.count_eq_zero_of_not_mem (by simpa using hne)] at hplaces
  omega

/-- **The hierarchy is exact as long as each `cdev` deleted has one node and
nothing else.** For every sequence of calls. -/
theorem exact_iff {as : List (Act D)} {s : State D} (h : (system D).exec (system D).init as = some s) :
    (system D).Along Exact (system D).init as ↔ (system D).Steps Deletable (system D).init as := by
  refine System.along_iff_steps (I := Exact) (fun _ hI => hI) (fun _ _ _ => step_exact)
    (fun _ _ _ _ => step_not_exact) (fun p => ?_) h
  simp [system, DeviceList.cdevs, State.registered]

/-- Three are put, and the second and the third are deleted. -/
def othersDeleted : List (Act Nat) := [.put 1, .put 2, .put 3, .del 2, .del 3]

theorem exact_othersDeleted : ∃ s, (system Nat).exec (system Nat).init othersDeleted = some s ∧
    s.all.cdevs = [1] ∧ (system Nat).Along Exact (system Nat).init othersDeleted :=
  ⟨_, rfl, rfl, (exact_iff rfl).mpr (by decide)⟩

/-- The first `cdev` put is deleted, and stays in `all_devs.cur`. -/
theorem not_exact_firstDeleted : ∃ s, (system Nat).exec (system Nat).init [.put 1, .del 1] = some s ∧
    s.all.cdevs = [1] ∧ s.freed = [1] ∧ ¬ (system Nat).Along Exact (system Nat).init [.put 1, .del 1] :=
  ⟨_, rfl, rfl, rfl, fun h => ((System.Along.last h rfl 1).mp (by decide)).2 (by decide)⟩

end Lmsel4.Hierarchy
