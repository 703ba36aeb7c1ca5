/-
Loading and unloading the driver on liblinux's own kernel calls.

Of the calls the driver makes, `device_create` and `cdev_add` change the
registry of device classes; `device_destroy` and `cdev_del` do not. So an
unload leaves what the load registered, and the next load finds the old
entry with its `cdev` when it comes to add its own.
-/
import Lmsel4.Cdev

namespace Lmsel4.LoadCycle

open Cdev (SeL4Class)
open Driver

/-- The registered classes, and the `cdev`s `cdev_put` has listed. -/
structure Linux where
  classes : List (SeL4Class Com)
  allDevs : List Com

/-- The kernel calls of liblinux, with memory. Those that only log, ask for
an interrupt or for ports leave both lists alone. -/
@[simps] def linux : Kernel Linux where
  classCreate _ k := (.obj, k)
  classUnregister _ k := k
  classDestroy _ k := k
  registerChrdevRegion _ _ k := (0, k)
  unregisterChrdevRegion _ _ k := k
  requestIrq _ _ k := (0, k)
  freeIrq _ _ k := k
  deviceCreate _ dev name k := (.obj, { k with classes := Cdev.deviceCreate dev name k.classes })
  deviceDestroy _ _ k := k
  hwSetupDevice _ k := (0, k)
  hwCleanupDevice _ k := k
  cdevAdd cdev dev _ k :=
    ((Cdev.cdevAdd cdev dev k.classes).1, { k with classes := (Cdev.cdevAdd cdev dev k.classes).2 })
  cdevDel cdev k := { k with allDevs := k.allDevs.erase cdev }

section

variable {major : Int32}

theorem cdevAdd_length {D : Type} {parent : D} {dev : UInt32} : ∀ {classes : List (SeL4Class D)},
    (Cdev.cdevAdd parent dev classes).2.length = classes.length
  | [] => rfl
  | e :: es => by
    simp only [Cdev.cdevAdd_cons]
    split
    · split <;> simp [cdevAdd_length]
    · simp [cdevAdd_length]

/-- A device is registered whatever comes of its `cdev_add`. -/
theorem initDevice_linux {device : Com} {minor baseport irqNo : Int32} {name : List Char} (d : Loaded Linux) :
    let dev := mkdev major minor
    let added := Cdev.cdevAdd device dev (Cdev.deviceCreate dev name d.kernel.classes)
    let r := uart16550InitDevice linux device major minor name baseport irqNo d
    r.1 = added.1 ∧ r.2.kernel.classes = added.2 := by
  by_cases h : (Cdev.cdevAdd device (mkdev major minor)
      (Cdev.deviceCreate (mkdev major minor) name d.kernel.classes)).1 = 0
  · simp [uart16550InitDevice, h]
  · simp [uart16550InitDevice, h]

/-! ## What a load leaves in the registry -/

/-- An entry with the number has a `cdev`. -/
def Taken (dev : UInt32) (classes : List (SeL4Class Com)) : Prop := ∃ e ∈ classes, e.dev = dev ∧ e.cdev.isSome

theorem cdevAdd_taken (parent : Com) {dev : UInt32} : ∀ {classes : List (SeL4Class Com)}, Taken dev classes →
    (Cdev.cdevAdd parent dev classes).1 = -einval
  | [], h => by obtain ⟨e, he, -⟩ := h; cases he
  | e :: es, ⟨f, hf, hdev, hcdev⟩ => by
    simp only [Cdev.cdevAdd_cons]
    rcases List.mem_cons.mp hf with rfl | hf
    · simp [hdev, hcdev]
    · have ih := cdevAdd_taken parent ⟨f, hf, hdev, hcdev⟩
      split
      · split
        · rfl
        · exact ih
      · exact ih

theorem Taken.add (parent : Com) {dev : UInt32} (dev' : UInt32) :
    ∀ {classes : List (SeL4Class Com)}, Taken dev classes →
    Taken dev (Cdev.cdevAdd parent dev' classes).2
  | [], h => h
  | e :: es, ⟨f, hf, hdev, hcdev⟩ => by
    simp only [Cdev.cdevAdd_cons]
    rcases List.mem_cons.mp hf with rfl | hf
    · rw [if_pos hcdev]
      split <;> exact ⟨f, List.mem_cons_self, hdev, hcdev⟩
    · obtain ⟨g, hg, hg'⟩ := Taken.add parent dev' ⟨f, hf, hdev, hcdev⟩
      split
      · split
        · exact ⟨f, List.mem_cons_of_mem _ hf, hdev, hcdev⟩
        · exact ⟨g, List.mem_cons_of_mem _ hg, hg'⟩
      · exact ⟨g, List.mem_cons_of_mem _ hg, hg'⟩

/-- The entry `device_create` has just made gets the `cdev`. -/
theorem taken_of_create {dev : UInt32} {parent : Com} {name : List Char} {classes : List (SeL4Class Com)} :
    Taken dev (Cdev.cdevAdd parent dev (Cdev.deviceCreate dev name classes)).2 := by
  simp only [Cdev.deviceCreate, Cdev.cdevAdd_cons, if_true, Option.isSome_none, Bool.false_eq_true, if_false]
  exact ⟨_, List.mem_cons_self, rfl, rfl⟩

def devOf (major : Int32) : Com → UInt32
  | .com1 => mkdev major 0
  | .com2 => mkdev major 1

def comName : Com → List Char
  | .com1 => ['c', 'o', 'm', '1']
  | .com2 => ['c', 'o', 'm', '2']

theorem initCom_linux (c : Com) (d : Loaded Linux) :
    let added := Cdev.cdevAdd c (devOf major c) (Cdev.deviceCreate (devOf major c) (comName c) d.kernel.classes)
    (initCom linux major c d).1 = added.1 ∧ (initCom linux major c d).2.kernel.classes = added.2 := by
  cases c
  · exact initDevice_linux d
  · exact initDevice_linux d

theorem initComs_keeps {dev : UInt32} : ∀ (cs : List Com) {d : Loaded Linux}, Taken dev d.kernel.classes →
    Taken dev (initComs linux major cs d).2.kernel.classes
  | [], _, h => h
  | c :: cs, d, h => by
    have hc : Taken dev (initCom linux major c d).2.kernel.classes := by
      rw [(initCom_linux c d).2]
      obtain ⟨e, he, he'⟩ := h
      exact Taken.add _ _ ⟨e, List.mem_cons_of_mem _ he, he'⟩
    simp only [initComs]
    split
    · exact hc
    · exact initComs_keeps cs hc

theorem initCom_length (major : Int32) (c : Com) (d : Loaded Linux) :
    (initCom linux major c d).2.kernel.classes.length = d.kernel.classes.length + 1 := by
  rw [(initCom_linux c d).2, cdevAdd_length]
  rfl

theorem initComs_length : ∀ (cs : List Com) (d : Loaded Linux),
    d.kernel.classes.length ≤ (initComs linux major cs d).2.kernel.classes.length
  | [], _ => Nat.le_refl _
  | c :: cs, d => by
    have hc := initCom_length major c d
    have ih := initComs_length cs (initCom linux major c d).2
    simp only [initComs]
    split
    · exact Nat.le_of_lt (by simp [hc])
    · exact Nat.le_trans (by omega) ih

theorem initComs_grows (major : Int32) (c : Com) (cs : List Com) (d : Loaded Linux) :
    d.kernel.classes.length < (initComs linux major (c :: cs) d).2.kernel.classes.length := by
  have hc := initCom_length major c d
  simp only [initComs]
  split
  · simp [hc]
  · exact Nat.lt_of_lt_of_le (by omega) (initComs_length cs _)

end

/-! ## Loads and unloads -/

section Cycles

variable (behavior major : Int32)

def load (d : Loaded Linux) : Int32 × Loaded Linux := uart16550Init linux behavior major d

def unload (d : Loaded Linux) : Loaded Linux := uart16550Cleanup linux behavior major d

def cycle (d : Loaded Linux) : Loaded Linux := unload behavior major (load behavior major d).2

/-- In each of `n` cycles the load returns 0 and the unload leaves the
registry as it was before the load. -/
def Undoes (n : Nat) (d : Loaded Linux) : Prop :=
  ∀ i < n, (load behavior major ((cycle behavior major)^[i] d)).1 = 0 ∧
    ((cycle behavior major)^[i + 1] d).kernel.classes = ((cycle behavior major)^[i] d).kernel.classes

variable {behavior major}

theorem unload_classes (d : Loaded Linux) : (unload behavior major d).kernel.classes = d.kernel.classes := by
  rw [unload, uart16550Cleanup]
  split <;> split <;> rfl

theorem exists_selected (h : accepts behavior major = true) : ∃ c cs, selected behavior = c :: cs := by
  simp only [accepts, Bool.and_eq_true, Bool.or_eq_true, beq_iff_eq] at h
  rcases h.1 with (rfl | rfl) | rfl
  · exact ⟨.com1, [.com2], by decide⟩
  · exact ⟨.com1, [], by decide⟩
  · exact ⟨.com2, [], by decide⟩

theorem load_eq (h : accepts behavior major = true) (d : Loaded Linux) :
    load behavior major d = initComs linux major (selected behavior) { d with uart16550Class := .obj } :=
  uart16550Init_eq linux h d

/-- A second load fails: the first leaves the number of its first device
taken, whatever the registry was. -/
theorem reload_fails (h : accepts behavior major = true) (d : Loaded Linux) :
    (load behavior major (cycle behavior major d)).1 = -einval := by
  obtain ⟨c, cs, hsel⟩ := exists_selected h
  have htaken : Taken (devOf major c) (cycle behavior major d).kernel.classes := by
    rw [cycle, unload_classes, load_eq h, hsel]
    have hc : Taken (devOf major c)
        (initCom linux major c { d with uart16550Class := .obj }).2.kernel.classes := by
      rw [(initCom_linux c _).2]
      exact taken_of_create
    simp only [initComs]
    split
    · exact hc
    · exact initComs_keeps cs hc
  have hrc : ∀ d' : Loaded Linux, Taken (devOf major c) d'.kernel.classes →
      (initCom linux major c d').1 = -einval := by
    rintro d' ⟨e, he, he'⟩
    rw [(initCom_linux c d').1]
    exact cdevAdd_taken c ⟨e, List.mem_cons_of_mem _ he, he'⟩
  rw [load_eq h, hsel]
  simp only [initComs]
  rw [hrc { cycle behavior major d with uart16550Class := .obj } htaken]
  rfl

/-- **Loading is never undone.** On any registry and for any accepted
parameters, `n` cycles restore the registry if and only if there are none. -/
theorem undoes_iff (h : accepts behavior major = true) (n : Nat) (d : Loaded Linux) :
    Undoes behavior major n d ↔ n = 0 := by
  constructor
  · intro hn
    by_contra hpos
    have hsame := (hn 0 (Nat.pos_of_ne_zero hpos)).2
    simp only [Function.iterate_zero, Function.iterate_succ, Function.comp_apply, id_eq] at hsame
    obtain ⟨c, cs, hsel⟩ := exists_selected h
    rw [cycle, unload_classes, load_eq h, hsel] at hsame
    have hgrow := initComs_grows major c cs { d with uart16550Class := .obj }
    rw [hsame] at hgrow
    exact Nat.lt_irrefl _ hgrow
  · rintro rfl i hi
    exact absurd hi (Nat.not_lt_zero i)

end Cycles

/-- The driver before its first load, on an empty registry. -/
def fresh : Loaded Linux := ⟨.null, fun _ => ⟨0, 0, 0⟩, ⟨[], []⟩⟩

theorem undoes_iff_com1 : accepts optionCom1 42 = true ∧ (Undoes optionCom1 42 1 fresh ↔ 1 = 0) :=
  ⟨by decide, undoes_iff (by decide) 1 fresh⟩

/-- After a load and an unload with COM1 its file is still found, with the
deleted `cdev`, and the next load returns `-EINVAL`. -/
theorem com1_left_behind :
    (Cdev.deviceByName (cycle optionCom1 42 fresh).kernel.classes (Cdev.path (comName .com1))).map (·.cdev) =
      some (some .com1) ∧
    (load optionCom1 42 (cycle optionCom1 42 fresh)).1 = -22 ∧ ¬ Undoes optionCom1 42 2 fresh := by
  refine ⟨rfl, by decide, fun h => ?_⟩
  have hrc := (h 1 (by decide)).1
  revert hrc
  decide

end Lmsel4.LoadCycle
