/-
What loading the driver leaves behind on a kernel whose calls may fail in
any way and whose release calls undo the acquire calls they match.
-/
import Lmsel4.Driver
import Mathlib.Data.Multiset.AddSub
import Mathlib.Data.Multiset.Count

namespace Lmsel4.Driver

/-! ## A kernel that keeps count -/

/-- What a call acquires, by the arguments that a release call names it by. -/
inductive Resource
  | cls
  | region (dev : UInt32)
  | irq (irqNo : Int32) (device : Com)
  | device (dev : UInt32)
  | ports (port : Int32)
  | cdev (cdev : Com)
  deriving DecidableEq

/-- The outcome of the call for each resource: 0, or how it fails. -/
abbrev Outcomes := Resource → Int32

@[simp] def acquire (o : Outcomes) (r : Resource) (held : Multiset Resource) : Int32 × Multiset Resource :=
  (o r, if o r = 0 then r ::ₘ held else held)

@[simp] def acquirePtr (o : Outcomes) (r : Resource) (held : Multiset Resource) : Ptr × Multiset Resource :=
  (if o r = 0 then .obj else .err (o r), (acquire o r held).2)

@[simp] def release (r : Resource) (held : Multiset Resource) : Multiset Resource := held.erase r

/-- Calls end as `o` says; the state is what is held. -/
@[simps] def ledger (o : Outcomes) : Kernel (Multiset Resource) where
  classCreate _ := acquirePtr o .cls
  classUnregister _ := id
  classDestroy _ := release .cls
  registerChrdevRegion dev _ := acquire o (.region dev)
  unregisterChrdevRegion dev _ := release (.region dev)
  requestIrq irqNo device := acquire o (.irq irqNo device)
  freeIrq irqNo device := release (.irq irqNo device)
  deviceCreate _ dev _ := acquirePtr o (.device dev)
  deviceDestroy _ dev := release (.device dev)
  hwSetupDevice port := acquire o (.ports port)
  hwCleanupDevice port := release (.ports port)
  cdevAdd cdev _ _ := acquire o (.cdev cdev)
  cdevDel cdev := release (.cdev cdev)

/-! ## One device -/

/-- What a device needs, in the order it is asked for. -/
def needs (device : Com) (dev : UInt32) (baseport irqNo : Int32) : List Resource :=
  [.region dev, .irq irqNo device, .device dev, .ports baseport, .cdev device]

def comNeeds (major : Int32) : Com → List Resource
  | .com1 => needs .com1 (mkdev major 0) 0x3f8 4
  | .com2 => needs .com2 (mkdev major 1) 0x2f8 3

def Resource.isDevice : Resource → Bool
  | .device _ => true
  | _ => false

/-- The first call for a resource of `rs` that fails. -/
def firstFailure (o : Outcomes) (rs : List Resource) : Option Resource := rs.find? (o · ≠ 0)

theorem foldl_cons : ∀ (rs : List Resource) (held : Multiset Resource),
    rs.foldl (fun held r => r ::ₘ held) held = ↑rs + held
  | [], held => by simp
  | r :: rs, held => by
    rw [List.foldl_cons, foldl_cons rs, ← Multiset.cons_coe, Multiset.cons_add, Multiset.add_cons]

section

variable {o : Outcomes} {major : Int32}

/-- A device that fails holds nothing, and returns 0 if it is
`device_create` that failed. -/
theorem initDevice_run {device : Com} {minor baseport irqNo : Int32} {name : List Char}
    (d : Loaded (Multiset Resource)) :
    let rs := needs device (mkdev major minor) baseport irqNo
    let r := uart16550InitDevice (ledger o) device major minor name baseport irqNo d
    match firstFailure o rs with
    | none => r.1 = 0 ∧ r.2.kernel = ↑rs + d.kernel
    | some f => r.1 = (if f.isDevice then 0 else o f) ∧ r.2.kernel = d.kernel := by
  by_cases h₁ : o (.region (mkdev major minor)) = 0
  · by_cases h₂ : o (.irq irqNo device) = 0
    · by_cases h₃ : o (.device (mkdev major minor)) = 0
      · by_cases h₄ : o (.ports baseport) = 0
        · by_cases h₅ : o (.cdev device) = 0
          · simp [uart16550InitDevice, firstFailure, needs, h₁, h₂, h₃, h₄, h₅]
            exact foldl_cons (needs device (mkdev major minor) baseport irqNo) d.kernel
          · simp [uart16550InitDevice, firstFailure, needs, Resource.isDevice, h₁, h₂, h₃, h₄, h₅]
        · simp [uart16550InitDevice, firstFailure, needs, Resource.isDevice, h₁, h₂, h₃, h₄]
      · simp [uart16550InitDevice, firstFailure, needs, Resource.isDevice, h₁, h₂, h₃]
    · simp [uart16550InitDevice, firstFailure, needs, Resource.isDevice, h₁, h₂]
  · simp [uart16550InitDevice, firstFailure, needs, Resource.isDevice, h₁]

theorem initCom_run (o : Outcomes) (major : Int32) (c : Com) (d : Loaded (Multiset Resource)) :
    match firstFailure o (comNeeds major c) with
    | none => (initCom (ledger o) major c d).1 = 0 ∧
        (initCom (ledger o) major c d).2.kernel = ↑(comNeeds major c) + d.kernel
    | some f => (initCom (ledger o) major c d).1 = (if f.isDevice then 0 else o f) ∧
        (initCom (ledger o) major c d).2.kernel = d.kernel := by
  cases c
  · exact initDevice_run d
  · exact initDevice_run d

/-! ## All devices -/

/-- What is returned and what is acquired for the devices `cs`. -/
def result (o : Outcomes) (major : Int32) : List Com → Int32 × List Resource
  | [] => (0, [])
  | c :: cs =>
    match firstFailure o (comNeeds major c) with
    | none => ((result o major cs).1, comNeeds major c ++ (result o major cs).2)
    | some f => if f.isDevice then result o major cs else (o f, [])

theorem firstFailure_ne {rs : List Resource} {f : Resource} (h : firstFailure o rs = some f) : o f ≠ 0 := by
  simpa using List.find?_some h

theorem initComs_run : ∀ (cs : List Com) (d : Loaded (Multiset Resource)),
    (initComs (ledger o) major cs d).1 = (result o major cs).1 ∧
      (initComs (ledger o) major cs d).2.kernel = ↑(result o major cs).2 + d.kernel
  | [], d => by simp [initComs, result]
  | c :: cs, d => by
    have hc := initCom_run o major c d
    have ih := initComs_run cs (initCom (ledger o) major c d).2
    simp only [initComs, result]
    split at hc
    · next hf =>
      rw [hc.2] at ih
      simp only [hc.1, ne_eq, not_true_eq_false, if_false]
      refine ⟨ih.1, ih.2.trans ?_⟩
      rw [← Multiset.coe_add, ← Multiset.add_assoc, Multiset.add_comm (Multiset.ofList (result o major cs).2)]
    · next f hf =>
      rw [hc.2] at ih
      by_cases hdev : f.isDevice = true
      · simp only [hdev, if_true] at hc
        simp only [hc.1, hdev, ne_eq, not_true_eq_false, if_false, if_true]
        exact ih
      · simp only [hdev] at hc
        simp [hc, hdev, firstFailure_ne hf]

theorem cdev_mem_comNeeds {c c' : Com} : Resource.cdev c ∈ comNeeds major c' ↔ c = c' := by
  cases c' <;> simp [comNeeds, needs]

theorem cls_notMem_comNeeds {c : Com} : Resource.cls ∉ comNeeds major c := by
  cases c <;> simp [comNeeds, needs]

/-- The `cdev` of a device is acquired only if all its calls succeed. -/
theorem none_of_cdev_mem {c : Com} : ∀ {cs : List Com}, .cdev c ∈ (result o major cs).2 →
    firstFailure o (comNeeds major c) = none
  | [], h => by simp [result] at h
  | c' :: cs, h => by
    simp only [result] at h
    split at h
    · next hf =>
      rcases List.mem_append.mp h with h | h
      · rw [cdev_mem_comNeeds.mp h]
        exact hf
      · exact none_of_cdev_mem h
    · split at h
      · exact none_of_cdev_mem h
      · simp at h

theorem mem_result : ∀ {cs : List Com}, (∀ c ∈ cs, firstFailure o (comNeeds major c) = none) →
    (result o major cs).1 = 0 ∧ ∀ c ∈ cs, ∀ x ∈ comNeeds major c, x ∈ (result o major cs).2
  | [], _ => by simp [result]
  | c :: cs, h => by
    have ih := mem_result fun c' hc' => h c' (List.mem_cons_of_mem _ hc')
    simp only [result, h c List.mem_cons_self]
    refine ⟨ih.1, fun c' hc' x hx => List.mem_append.mpr ?_⟩
    rcases List.mem_cons.mp hc' with rfl | hc'
    · exact .inl hx
    · exact .inr (ih.2 c' hc' x hx)

/-- All that the devices need is acquired exactly when no call fails. -/
theorem acquired_iff {cs : List Com} :
    (∀ c ∈ cs, ∀ x ∈ comNeeds major c, x ∈ (result o major cs).2) ↔
      ∀ c ∈ cs, firstFailure o (comNeeds major c) = none := by
  refine ⟨fun h c hc => ?_, fun h => (mem_result h).2⟩
  exact none_of_cdev_mem (h c hc _ (cdev_mem_comNeeds.mpr rfl))

/-- Some device fails elsewhere than in `device_create`, and those before it
all fail there. -/
def endsClean (o : Outcomes) (major : Int32) : List Com → Bool
  | [] => false
  | c :: cs =>
    match firstFailure o (comNeeds major c) with
    | none => false
    | some f => !f.isDevice || endsClean o major cs

theorem comNeeds_ne_nil {c : Com} : comNeeds major c ≠ [] := by
  cases c <;> simp [comNeeds, needs]

theorem endsClean_iff : ∀ {cs : List Com},
    endsClean o major cs = true ↔ (result o major cs).1 ≠ 0 ∧ (result o major cs).2 = []
  | [] => by simp [endsClean, result]
  | c :: cs => by
    simp only [endsClean, result]
    split
    · simp [comNeeds_ne_nil]
    · next f hf =>
      by_cases hdev : f.isDevice = true
      · simp only [hdev, Bool.not_true, Bool.false_or, if_true]
        exact endsClean_iff
      · simp [hdev, firstFailure_ne hf]

end

/-! ## All or nothing -/

/-- 0 is returned exactly when the parameters are accepted and every
selected device has acquired all it needs, and otherwise what is held is
what was held before. -/
def AllOrNothing (o : Outcomes) (behavior major : Int32) (d : Loaded (Multiset Resource)) : Prop :=
  let r := uart16550Init (ledger o) behavior major d
  (r.1 = 0 ↔ accepts behavior major = true ∧
    ∀ c ∈ selected behavior, ∀ x ∈ comNeeds major c, d.kernel.count x < r.2.kernel.count x) ∧
  (r.1 ≠ 0 → r.2.kernel = d.kernel)

section

variable {o : Outcomes} {behavior major : Int32} {d : Loaded (Multiset Resource)}

theorem init_run (h : accepts behavior major = true) :
    (uart16550Init (ledger o) behavior major d).1 = (result o major (selected behavior)).1 ∧
      (uart16550Init (ledger o) behavior major d).2.kernel =
        ↑(result o major (selected behavior)).2 + (acquire o .cls d.kernel).2 := by
  rw [uart16550Init_eq _ h]
  exact initComs_run _ _

theorem count_lt_iff {c : Com} {x : Resource} (hx : x ∈ comNeeds major c) (added : List Resource) :
    d.kernel.count x < (↑added + (acquire o .cls d.kernel).2).count x ↔ x ∈ added := by
  have hne : x ≠ .cls := fun h => cls_notMem_comNeeds (h ▸ hx)
  have hcount : (acquire o .cls d.kernel).2.count x = d.kernel.count x := by
    simp only [acquire]
    split
    · exact Multiset.count_cons_of_ne hne _
    · rfl
  rw [Multiset.count_add, hcount, Multiset.coe_count, ← List.count_pos_iff]
  omega

theorem held_eq_iff (added : List Resource) :
    (↑added + (acquire o .cls d.kernel).2 : Multiset Resource) = d.kernel ↔ added = [] ∧ o .cls ≠ 0 := by
  constructor
  · intro h
    have hcard := congrArg Multiset.card h
    simp only [acquire, Multiset.card_add, Multiset.coe_card] at hcard
    split at hcard
    · rw [Multiset.card_cons] at hcard
      omega
    · next hcls => exact ⟨List.length_eq_zero_iff.mp (by omega), hcls⟩
  · rintro ⟨rfl, hcls⟩
    simp [hcls]

/-- **When loading is all or nothing.** With accepted parameters: when no
call fails; or when the class is not created, and the first device to fail
elsewhere than in `device_create` has none before it that was acquired. -/
theorem allOrNothing_iff : AllOrNothing o behavior major d ↔
    (accepts behavior major = true →
      (∀ c ∈ selected behavior, firstFailure o (comNeeds major c) = none) ∨
        o .cls ≠ 0 ∧ endsClean o major (selected behavior) = true) := by
  by_cases hacc : accepts behavior major = true
  · obtain ⟨hrc, hheld⟩ := init_run (o := o) (d := d) hacc
    have hall : (∀ c ∈ selected behavior, ∀ x ∈ comNeeds major c,
        d.kernel.count x < (uart16550Init (ledger o) behavior major d).2.kernel.count x) ↔
        ∀ c ∈ selected behavior, firstFailure o (comNeeds major c) = none := by
      rw [← acquired_iff, hheld]
      refine forall₂_congr fun c _ => forall₂_congr fun x hx => count_lt_iff hx _
    simp only [AllOrNothing, hacc, true_and, hall, true_imp_iff]
    rw [hrc, hheld, held_eq_iff, endsClean_iff]
    constructor
    · rintro ⟨hzero, hclean⟩
      by_cases h₀ : (result o major (selected behavior)).1 = 0
      · exact .inl (hzero.mp h₀)
      · exact .inr ⟨(hclean h₀).2, h₀, (hclean h₀).1⟩
    · rintro (hnone | ⟨hcls, h₀, hnil⟩)
      · have h₀ := (mem_result hnone).1
        exact ⟨⟨fun _ => hnone, fun _ => h₀⟩, fun h => absurd h₀ h⟩
      · refine ⟨⟨fun h => absurd h h₀, fun hnone => (mem_result hnone).1⟩, fun _ => ⟨hnil, hcls⟩⟩
  · have hrun : uart16550Init (ledger o) behavior major d = (-einval, d) := by simp [uart16550Init, hacc]
    simp [AllOrNothing, hrun, hacc, einval]

end

/-- Loading with COM1 alone and `device_create` out of memory returns 0, and
COM1 has acquired nothing. -/
theorem loading_without_device :
    ¬ AllOrNothing (fun r => if r.isDevice then -12 else 0) optionCom1 42 ⟨.null, fun _ => ⟨0, 0, 0⟩, 0⟩ := by
  intro h
  have hlt := (h.1.mp (by decide)).2 .com1 (by decide) (.cdev .com1) (by decide)
  exact absurd hlt (by decide)

end Lmsel4.Driver
