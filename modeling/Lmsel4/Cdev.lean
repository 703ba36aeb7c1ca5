/-
The device registry of liblinux (`cdev.c`): `device_create` puts a named
entry in front of a list, `cdev_add` attaches a `cdev` to the entry with its
device number, `device_by_name` searches the list.

For devices with distinct names and numbers, in whatever order the two calls
of each are made, the registry is what `entry` says of each device created
(`run_eq`): a `cdev` is attached to an entry exactly when its `cdev_add`
came after its `device_create`, since `cdev_add` finds no entry before.

On any list, `cdev_add` attaches the `cdev` to the entries of its number up
to one that has a `cdev` already, and then fails (`cdevAddPtr_eq`). So it
succeeds or leaves no trace exactly when no entry of the number is taken, or
the newest one is, or it adds NULL (`atomic_iff`).
-/
import Lmsel4.Driver
import Mathlib.Data.List.Forall2
import Mathlib.Data.List.Induction
import Mathlib.Data.List.Nodup
import Mathlib.Data.List.TakeDrop
import Mathlib.Data.List.TakeWhile

namespace Lmsel4.Cdev

/-- The characters of a C string before its NUL. -/
abbrev CString := List Char

/-- Whether `strncmp` of at most `n` characters is 0. -/
def strncmpEq : Nat → CString → CString → Bool
  | 0, _, _ => true
  | _ + 1, [], [] => true
  | n + 1, a :: as, b :: bs => a == b && strncmpEq n as bs
  | _ + 1, _, _ => false

/-- `snprintf(name, size, "/dev/%s", fmt)`. -/
def snprintfDev (size : Nat) (fmt : CString) : CString := (['/', 'd', 'e', 'v', '/'] ++ fmt).take (size - 1)

/-- `struct seL4_Class`; a `struct cdev *` is a value of `D`. -/
structure SeL4Class (D : Type) where
  cdev : Option D
  name : CString
  dev : UInt32

section Registry

variable {D : Type}

/-- `device_by_name` on the list of registered classes. -/
def deviceByName (classes : List (SeL4Class D)) (name : CString) : Option (SeL4Class D) :=
  classes.find? fun cls => strncmpEq 256 cls.name name

/-- `device_create`. -/
def deviceCreate (dev : UInt32) (fmt : CString) (classes : List (SeL4Class D)) : List (SeL4Class D) :=
  { cdev := none, name := snprintfDev 256 fmt, dev } :: classes

/-- `cdev_add`, where `parent` may be NULL. Entries before the one it gives
up at keep the `cdev`. -/
def cdevAddPtr (parent : Option D) (dev : UInt32) : List (SeL4Class D) → Int32 × List (SeL4Class D)
  | [] => (0, [])
  | cur :: rest =>
    if cur.dev = dev then
      if cur.cdev.isSome then (-einval, cur :: rest)
      else ((cdevAddPtr parent dev rest).1, { cur with cdev := parent } :: (cdevAddPtr parent dev rest).2)
    else ((cdevAddPtr parent dev rest).1, cur :: (cdevAddPtr parent dev rest).2)

/-- `cdev_add` of a `cdev`. -/
def cdevAdd (parent : D) (dev : UInt32) (classes : List (SeL4Class D)) : Int32 × List (SeL4Class D) :=
  cdevAddPtr (some parent) dev classes

theorem cdevAdd_nil (parent : D) (dev : UInt32) : cdevAdd parent dev [] = (0, []) := rfl

theorem cdevAdd_cons (parent : D) (dev : UInt32) (cur : SeL4Class D) (rest : List (SeL4Class D)) :
    cdevAdd parent dev (cur :: rest) =
      if cur.dev = dev then
        if cur.cdev.isSome then (-einval, cur :: rest)
        else ((cdevAdd parent dev rest).1, { cur with cdev := some parent } :: (cdevAdd parent dev rest).2)
      else ((cdevAdd parent dev rest).1, cur :: (cdevAdd parent dev rest).2) := rfl

end Registry

/-! ## Strings -/

theorem strncmpEq_iff : ∀ {n : Nat} {a b : CString}, a.length < n → (strncmpEq n a b = true ↔ a = b)
  | n + 1, [], b, _ => by cases b <;> simp [strncmpEq]
  | n + 1, a :: as, [], _ => by simp [strncmpEq]
  | n + 1, a :: as, b :: bs, h => by
    simp only [List.length_cons, Nat.add_lt_add_iff_right] at h
    simp only [strncmpEq, Bool.and_eq_true, beq_iff_eq, strncmpEq_iff h, List.cons.injEq]

/-- The name of a device's file. -/
def path (name : CString) : CString := ['/', 'd', 'e', 'v', '/'] ++ name

theorem snprintfDev_length (fmt : CString) : (snprintfDev 256 fmt).length < 256 := by
  rw [snprintfDev, List.length_take]
  omega

theorem snprintfDev_eq_path {fmt : CString} : snprintfDev 256 fmt = path fmt ↔ fmt.length ≤ 250 := by
  rw [snprintfDev, path, List.take_eq_self_iff]
  simp only [List.length_append, List.length_cons, List.length_nil]
  omega

/-! ## Registering -/

/-- A device with what is passed to its two calls. -/
structure Device (D : Type) where
  name : CString
  dev : UInt32
  cdev : D
  deriving DecidableEq

inductive Call (D : Type)
  | create (d : Device D)
  | add (d : Device D)
  deriving DecidableEq

variable {D : Type}

/-- The return code of a call, 0 for a pointer, and the registry after it. -/
def Call.run : Call D → List (SeL4Class D) → Int32 × List (SeL4Class D)
  | .create d, classes => (0, deviceCreate d.dev d.name classes)
  | .add d, classes => cdevAdd d.cdev d.dev classes

def runCalls (calls : List (Call D)) : List (SeL4Class D) :=
  calls.foldl (fun classes c => (c.run classes).2) []

/-- The return codes of the calls, made on the registry `classes`. -/
def returned : List (Call D) → List (SeL4Class D) → List Int32
  | [], _ => []
  | c :: calls, classes => (c.run classes).1 :: returned calls (c.run classes).2

def Call.device : Call D → Device D
  | .create d | .add d => d

def Call.created : Call D → Option (Device D)
  | .create d => some d
  | .add _ => none

/-- Each call is made once, and no two devices share a number. -/
structure Distinct (calls : List (Call D)) : Prop where
  nodup : calls.Nodup
  dev : ∀ c ∈ calls, ∀ c' ∈ calls, c.device.dev = c'.device.dev → c.device = c'.device

theorem Distinct.init {calls : List (Call D)} {c : Call D} (h : Distinct (calls ++ [c])) : Distinct calls :=
  ⟨(List.nodup_append.mp h.nodup).1, fun a ha b hb =>
    h.dev a (List.mem_append_left _ ha) b (List.mem_append_left _ hb)⟩

theorem Distinct.last {calls : List (Call D)} {c : Call D} (h : Distinct (calls ++ [c])) : c ∉ calls := by
  intro hc
  exact (List.nodup_append.mp h.nodup).2.2 c hc c (by simp) rfl

theorem Distinct.upTo {calls rest : List (Call D)} {c : Call D} (h : Distinct (calls ++ c :: rest)) :
    Distinct (calls ++ [c]) := by
  have hsub : (calls ++ [c]).Sublist (calls ++ c :: rest) := by simp
  exact ⟨h.nodup.sublist hsub, fun a ha b hb => h.dev a (hsub.subset ha) b (hsub.subset hb)⟩

/-- The `cdev_add` of the device comes after its `device_create`. -/
def Attached (calls : List (Call D)) (d : Device D) : Prop := [.create d, .add d].Sublist calls

theorem pair_sublist_concat {α : Type} {a b c : α} {l : List α} :
    [a, b].Sublist (l ++ [c]) ↔ [a, b].Sublist l ∨ b = c ∧ a ∈ l := by
  have hpair : [a, b].Sublist l ↔ [b, a].Sublist l.reverse := List.reverse_sublist.symm
  have hconcat : [a, b].Sublist (l ++ [c]) ↔ [b, a].Sublist (c :: l.reverse) := by
    refine List.reverse_sublist.symm.trans ?_
    rw [List.reverse_append]
    rfl
  rw [hconcat, hpair, List.sublist_cons_iff]
  refine or_congr_right ⟨?_, ?_⟩
  · rintro ⟨r, hr, hsub⟩
    cases hr
    exact ⟨rfl, by simpa using hsub⟩
  · rintro ⟨rfl, ha⟩
    exact ⟨[a], rfl, by simpa using ha⟩

theorem attached_create {calls : List (Call D)} {d d' : Device D} :
    Attached (calls ++ [.create d]) d' ↔ Attached calls d' := by
  simp [Attached, pair_sublist_concat]

theorem attached_add {calls : List (Call D)} {d d' : Device D} :
    Attached (calls ++ [.add d]) d' ↔ Attached calls d' ∨ d' = d ∧ .create d' ∈ calls := by
  simp [Attached, pair_sublist_concat]

theorem runCalls_concat (calls : List (Call D)) (c : Call D) :
    runCalls (calls ++ [c]) = (c.run (runCalls calls)).2 := by
  simp [runCalls]

theorem mem_creates {calls : List (Call D)} {d : Device D} :
    d ∈ calls.filterMap Call.created ↔ .create d ∈ calls := by
  simp only [List.mem_filterMap]
  constructor
  · rintro ⟨c, hc, hd⟩
    cases c <;> cases hd
    exact hc
  · intro h
    exact ⟨_, h, rfl⟩

/-- `cdev_add` when no entry with the number has a `cdev`. -/
theorem cdevAdd_eq (parent : D) {dev : UInt32} : ∀ {classes : List (SeL4Class D)},
    (∀ e ∈ classes, e.dev = dev → e.cdev = none) →
    cdevAdd parent dev classes =
      (0, classes.map fun e => if e.dev = dev then { e with cdev := some parent } else e)
  | [], _ => rfl
  | e :: es, h => by
    have ih := cdevAdd_eq parent fun e' he' => h e' (List.mem_cons_of_mem _ he')
    by_cases hdev : e.dev = dev
    · simp [cdevAdd_cons, hdev, h e List.mem_cons_self hdev, ih]
    · simp [cdevAdd_cons, hdev, ih]

section Run

variable [DecidableEq D]

instance (calls : List (Call D)) (d : Device D) : Decidable (Attached calls d) :=
  inferInstanceAs (Decidable (List.Sublist _ _))

/-- The entry of a device that has been created. -/
def entry (calls : List (Call D)) (d : Device D) : SeL4Class D :=
  { cdev := if Attached calls d then some d.cdev else none, name := snprintfDev 256 d.name, dev := d.dev }

/-- The entries of the devices created, the last one first. -/
def registry (calls : List (Call D)) : List (SeL4Class D) :=
  (calls.filterMap Call.created).reverse.map (entry calls)

theorem entry_congr {calls calls' : List (Call D)} {d : Device D} (h : Attached calls d ↔ Attached calls' d) :
    entry calls d = entry calls' d := by
  simp only [entry, h]

/-- Before `cdev_add` of `d`, no entry with its number has a `cdev`. -/
theorem entry_cdev_none {calls : List (Call D)} {d d' : Device D} (h : Distinct (calls ++ [.add d]))
    (hd' : .create d' ∈ calls) (hdev : d'.dev = d.dev) : d' = d ∧ (entry calls d').cdev = none := by
  have heq : d' = d := h.dev (.create d') (List.mem_append_left _ hd') (.add d) (by simp) hdev
  subst heq
  refine ⟨rfl, ?_⟩
  simp only [entry, ite_eq_right_iff, reduceCtorEq, imp_false]
  intro hatt
  exact h.last (hatt.subset (by simp))

theorem cdev_none {calls : List (Call D)} {d : Device D} (hrun : runCalls calls = registry calls)
    (h : Distinct (calls ++ [.add d])) : ∀ e ∈ runCalls calls, e.dev = d.dev → e.cdev = none := by
  rw [hrun]
  intro e he hdev
  obtain ⟨d', hd', rfl⟩ := List.mem_map.mp he
  rw [List.mem_reverse, mem_creates] at hd'
  exact (entry_cdev_none h hd' hdev).2

/-- What `device_create` adds to the registry. -/
theorem run_create {calls : List (Call D)} {d : Device D} (hrun : runCalls calls = registry calls)
    (h : Distinct (calls ++ [.create d])) :
    runCalls (calls ++ [.create d]) = registry (calls ++ [.create d]) := by
  have hnot : ¬ Attached calls d := fun hatt => h.last (hatt.subset (by simp))
  have hsame : entry (calls ++ [.create d]) = entry calls := funext fun _ => entry_congr attached_create
  rw [runCalls_concat, Call.run, hrun]
  simp only [registry, List.filterMap_append, List.reverse_append, hsame]
  simp [Call.created, deviceCreate, entry, hnot]

/-- What `cdev_add` changes in it: the entry of its device, if there is one. -/
theorem run_add {calls : List (Call D)} {d : Device D} (hrun : runCalls calls = registry calls)
    (h : Distinct (calls ++ [.add d])) : runCalls (calls ++ [.add d]) = registry (calls ++ [.add d]) := by
  rw [runCalls_concat, Call.run, cdevAdd_eq _ (cdev_none hrun h), hrun]
  simp only [registry, List.filterMap_append, List.map_map]
  simp only [Call.created, List.filterMap_cons, List.filterMap_nil, List.append_nil]
  refine List.map_congr_left fun d' hd' => ?_
  rw [List.mem_reverse, mem_creates] at hd'
  by_cases hdev : d'.dev = d.dev
  · obtain ⟨rfl, -⟩ := entry_cdev_none h hd' hdev
    have hatt : Attached (calls ++ [.add d']) d' := attached_add.mpr (.inr ⟨rfl, hd'⟩)
    simp [entry, hatt]
  · have hne : d' ≠ d := fun he => hdev (he ▸ rfl)
    have hsame : entry (calls ++ [.add d]) d' = entry calls d' := entry_congr (by simp [attached_add, hne])
    rw [hsame]
    simp [entry, hdev]

theorem run_eq {calls : List (Call D)} : Distinct calls → runCalls calls = registry calls := by
  induction calls using List.reverseRecOn with
  | nil => intro _; rfl
  | append_singleton calls c ih =>
    intro h
    cases c with
    | create d => exact run_create (ih h.init) h
    | add d => exact run_add (ih h.init) h

/-- No call fails. -/
theorem run_succeeds {calls : List (Call D)} {c : Call D} (h : Distinct (calls ++ [c])) :
    (c.run (runCalls calls)).1 = 0 := by
  cases c with
  | create d => rfl
  | add d => simp only [Call.run, cdevAdd_eq _ (cdev_none (run_eq h.init) h)]

theorem returned_eq_zero : ∀ {rest calls : List (Call D)}, Distinct (calls ++ rest) →
    ∀ rc ∈ returned rest (runCalls calls), rc = 0
  | [], _, _, rc, hrc => by cases hrc
  | c :: rest, calls, h, rc, hrc => by
    rw [returned, ← runCalls_concat, List.mem_cons] at hrc
    rcases hrc with rfl | hrc
    · exact run_succeeds h.upTo
    · exact returned_eq_zero (by rwa [List.append_assoc]) rc hrc

/-- What a name finds is an entry whose name, as it was cut, is the name. -/
theorem deviceByName_cases {calls : List (Call D)} (h : Distinct calls) (name : CString) :
    (∃ d, .create d ∈ calls ∧ snprintfDev 256 d.name = name ∧
      deviceByName (runCalls calls) name = some (entry calls d)) ∨
    (∀ d, .create d ∈ calls → snprintfDev 256 d.name ≠ name) ∧ deviceByName (runCalls calls) name = none := by
  have hmatch : ∀ d, strncmpEq 256 (entry calls d).name name = true ↔ snprintfDev 256 d.name = name :=
    fun d => strncmpEq_iff (snprintfDev_length d.name)
  rw [run_eq h]
  cases hfind : deviceByName (registry calls) name with
  | some e =>
    obtain ⟨d, hd, rfl⟩ := List.mem_map.mp (List.mem_of_find?_eq_some hfind)
    rw [List.mem_reverse, mem_creates] at hd
    exact .inl ⟨d, hd, (hmatch d).mp (by simpa using List.find?_some hfind), rfl⟩
  | none =>
    refine .inr ⟨fun d hd heq => ?_, rfl⟩
    have hno := List.find?_eq_none.mp hfind (entry calls d)
      (List.mem_map_of_mem (by rwa [List.mem_reverse, mem_creates]))
    exact hno ((hmatch d).mpr heq)

/-! ## Any order -/

/-- After calls that all succeeded, the file of each device is found with
its number and its `cdev`, and no other name is found. -/
def LookupExact (devs : List (Device D)) (calls : List (Call D)) : Prop :=
  (∀ rc ∈ returned calls [], rc = 0) →
  (∀ d ∈ devs, ∃ e, deviceByName (runCalls calls) (path d.name) = some e ∧
    e.dev = d.dev ∧ e.cdev = some d.cdev) ∧
  ∀ name, (∀ d ∈ devs, name ≠ path d.name) → deviceByName (runCalls calls) name = none

/-- The two calls of each device. -/
def callsOf (devs : List (Device D)) : List (Call D) := devs.flatMap fun d => [.create d, .add d]

omit [DecidableEq D] in
theorem create_mem {devs : List (Device D)} {calls : List (Call D)} (h : calls.Perm (callsOf devs))
    {d : Device D} : .create d ∈ calls ↔ d ∈ devs := by
  simp [h.mem_iff, callsOf]

omit [DecidableEq D] in
theorem distinct_of_perm {devs : List (Device D)} {calls : List (Call D)} (h : calls.Perm (callsOf devs))
    (hdev : (devs.map Device.dev).Nodup) : Distinct calls := by
  have hin : ∀ c ∈ calls, c.device ∈ devs := by
    intro c hc
    obtain ⟨d, hd, hc⟩ := List.mem_flatMap.mp (h.mem_iff.mp hc)
    simp only [List.mem_cons, List.not_mem_nil, or_false] at hc
    rcases hc with rfl | rfl <;> exact hd
  refine ⟨h.nodup_iff.mpr ?_, fun c hc c' hc' he => ?_⟩
  · refine List.nodup_flatMap.mpr ⟨fun d _ => by simp, ?_⟩
    refine (List.Nodup.of_map _ hdev).imp fun hne => ?_
    simp [Function.onFun, hne.symm]
  · exact List.inj_on_of_nodup_map hdev (hin c hc) (hin c' hc') he

/-- **Registration and order.** For devices with distinct names and numbers
and any order of their calls, lookup is exact if and only if each device is
created before its `cdev` is added and its name fits. -/
theorem lookupExact_iff {devs : List (Device D)} {calls : List (Call D)}
    (hname : (devs.map Device.name).Nodup) (hdev : (devs.map Device.dev).Nodup)
    (hcalls : calls.Perm (callsOf devs)) :
    LookupExact devs calls ↔
      ∀ d ∈ devs, [Call.create d, .add d].Sublist calls ∧ d.name.length ≤ 250 := by
  have hdist := distinct_of_perm hcalls hdev
  have hmem : ∀ {d}, .create d ∈ calls ↔ d ∈ devs := create_mem hcalls
  have hzero : ∀ rc ∈ returned calls [], rc = 0 := returned_eq_zero (by rwa [List.nil_append])
  constructor
  · intro h d hd
    obtain ⟨e, he, hedev, hecdev⟩ := (h hzero).1 d hd
    rcases deviceByName_cases hdist (path d.name) with ⟨d', hd', hcut, hfind⟩ | ⟨-, hfind⟩
    · rw [hfind] at he
      cases he
      obtain rfl : d' = d := List.inj_on_of_nodup_map hdev (hmem.mp hd') hd hedev
      refine ⟨?_, snprintfDev_eq_path.mp hcut⟩
      by_contra hatt
      simp [entry, Attached, hatt] at hecdev
    · rw [hfind] at he
      cases he
  · intro h _
    refine ⟨fun d hd => ?_, fun name hother => ?_⟩
    · rcases deviceByName_cases hdist (path d.name) with ⟨d', hd', hcut, hfind⟩ | ⟨hno, -⟩
      · have hd' := hmem.mp hd'
        rw [snprintfDev_eq_path.mpr (h d' hd').2] at hcut
        obtain rfl : d' = d := List.inj_on_of_nodup_map hname hd' hd (List.append_cancel_left hcut)
        exact ⟨_, hfind, rfl, by simp [entry, Attached, (h d' hd).1]⟩
      · exact absurd (snprintfDev_eq_path.mpr (h d hd).2) (hno d (hmem.mpr hd))
    · rcases deviceByName_cases hdist name with ⟨d', hd', hcut, -⟩ | ⟨-, hfind⟩
      · have hd' := hmem.mp hd'
        rw [snprintfDev_eq_path.mpr (h d' hd').2] at hcut
        exact absurd hcut.symm (hother d' hd')
      · exact hfind

/-- The driver's first device. -/
def com1 : Device Unit := { name := ['c', 'o', 'm', '1'], dev := 0x2a00000, cdev := () }

/-- Two devices, each told by its name. -/
def comBoth : List (Device Char) :=
  [{ name := ['c', 'o', 'm', '1'], dev := 0x2a00000, cdev := '1' },
    { name := ['c', 'o', 'm', '2'], dev := 0x2a00001, cdev := '2' }]

/-- Their calls, with those of the second around those of the first. -/
def interleaved : List (Call Char) :=
  (comBoth.map Call.create).reverse ++ comBoth.map Call.add

theorem lookupExact_interleaved : LookupExact comBoth interleaved :=
  (lookupExact_iff (by decide) (by decide) (by decide)).mpr (by decide)

/-- `cdev_add` before `device_create` returns 0 and attaches nothing. -/
theorem add_before_create : ¬ LookupExact [com1] [.add com1, .create com1] := by
  intro h
  have hzero : ∀ rc ∈ returned [Call.add com1, .create com1] [], rc = 0 := by
    simp [returned, Call.run, cdevAdd_nil]
  obtain ⟨e, he, -, hcdev⟩ := (h hzero).1 com1 (by decide)
  cases he
  cases hcdev

end Run

/-! ## `cdev_add` as a transaction -/

section Atomic

/-- It returns 0 with every entry of the number referring to `parent`, or
fails with the registry as it was; other entries stay as they are. -/
structure Atomic (parent : Option D) (dev : UInt32) (classes : List (SeL4Class D)) : Prop where
  whole : (cdevAddPtr parent dev classes).1 = 0 ∧
      (∀ e ∈ (cdevAddPtr parent dev classes).2, e.dev = dev → e.cdev = parent) ∨
    (cdevAddPtr parent dev classes).1 < 0 ∧ (cdevAddPtr parent dev classes).2 = classes
  others : List.Forall₂ (fun e e' => e'.dev = e.dev ∧ e'.name = e.name ∧ (e.dev ≠ dev → e'.cdev = e.cdev)) classes
    (cdevAddPtr parent dev classes).2

variable {parent : Option D} {dev : UInt32}

/-- The loop passes the entry. -/
def passes (dev : UInt32) (e : SeL4Class D) : Bool := e.dev != dev || e.cdev.isNone

/-- What it does in passing. -/
def attach (parent : Option D) (dev : UInt32) (e : SeL4Class D) : SeL4Class D :=
  if e.dev = dev then { e with cdev := parent } else e

theorem passes_iff {e : SeL4Class D} : passes dev e = true ↔ (e.dev = dev → e.cdev = none) := by
  simp only [passes, Bool.or_eq_true, bne_iff_ne, Option.isNone_iff_eq_none, ne_eq]
  tauto

theorem cdevAddPtr_passes {e : SeL4Class D} {es : List (SeL4Class D)} (h : passes dev e = true) :
    cdevAddPtr parent dev (e :: es) =
      ((cdevAddPtr parent dev es).1, attach parent dev e :: (cdevAddPtr parent dev es).2) := by
  unfold attach
  rw [cdevAddPtr]
  split
  · next hdev => rw [passes_iff.mp h hdev, if_neg (by simp)]
  · rfl

theorem cdevAddPtr_stops {e : SeL4Class D} {es : List (SeL4Class D)} (h : ¬ passes dev e = true) :
    cdevAddPtr parent dev (e :: es) = (-einval, e :: es) := by
  rw [passes_iff, Classical.not_imp] at h
  rw [cdevAddPtr, if_pos h.1, if_pos (Option.isSome_iff_ne_none.mpr h.2)]

/-- The entries up to the first that is taken are changed, and the code
says whether there is one. -/
theorem cdevAddPtr_eq (classes : List (SeL4Class D)) :
    cdevAddPtr parent dev classes =
      (if classes.dropWhile (passes dev) = [] then 0 else -einval,
        (classes.takeWhile (passes dev)).map (attach parent dev) ++ classes.dropWhile (passes dev)) := by
  induction classes with
  | nil => rfl
  | cons e es ih =>
    by_cases hpass : passes dev e = true
    · rw [cdevAddPtr_passes hpass, ih, List.dropWhile_cons_of_pos hpass, List.takeWhile_cons_of_pos hpass]
      rfl
    · rw [cdevAddPtr_stops hpass, List.dropWhile_cons_of_neg hpass, List.takeWhile_cons_of_neg hpass]
      rfl

theorem attach_same (e : SeL4Class D) :
    (attach parent dev e).dev = e.dev ∧ (attach parent dev e).name = e.name ∧
      (e.dev ≠ dev → (attach parent dev e).cdev = e.cdev) := by
  unfold attach
  split
  · next hdev => exact ⟨rfl, rfl, fun hne => absurd hdev hne⟩
  · exact ⟨rfl, rfl, fun _ => rfl⟩

theorem attach_eq_self {e : SeL4Class D} (h : passes dev e = true) :
    attach parent dev e = e ↔ parent = none ∨ e.dev ≠ dev := by
  unfold attach
  split
  · next hdev =>
    obtain ⟨cdev, name, dev'⟩ := e
    obtain rfl : cdev = none := passes_iff.mp h hdev
    simp [show dev' = dev from hdev]
  · next hdev => simp [hdev]

/-- Entries of other numbers are not changed, whatever it returns. -/
theorem cdevAddPtr_others (classes : List (SeL4Class D)) :
    List.Forall₂ (fun e e' => e'.dev = e.dev ∧ e'.name = e.name ∧ (e.dev ≠ dev → e'.cdev = e.cdev)) classes
      (cdevAddPtr parent dev classes).2 := by
  rw [cdevAddPtr_eq]
  nth_rewrite 1 [← List.takeWhile_append_dropWhile (p := passes dev) (l := classes)]
  refine List.rel_append ?_ ?_
  · rw [List.forall₂_map_right_iff, List.forall₂_same]
    exact fun e _ => attach_same e
  · exact List.forall₂_same.mpr fun e _ => ⟨rfl, rfl, fun _ => rfl⟩

/-- The newest entry of the number has a `cdev`. -/
def NewestTaken (dev : UInt32) (classes : List (SeL4Class D)) : Prop :=
  ∃ e, classes.find? (fun e => e.dev == dev) = some e ∧ e.cdev.isSome

/-- No entry of the number stands before the first one taken. -/
theorem newestTaken_iff {classes : List (SeL4Class D)} (h : classes.dropWhile (passes dev) ≠ []) :
    NewestTaken dev classes ↔ ∀ e ∈ classes.takeWhile (passes dev), e.dev ≠ dev := by
  obtain ⟨stop, rest, hrest⟩ := List.exists_cons_of_ne_nil h
  have hstop : ¬ passes dev stop = true := by
    have := List.head_dropWhile_not (passes dev) h
    simp only [hrest, List.head_cons] at this
    simp [this]
  rw [passes_iff, Classical.not_imp] at hstop
  have hfind : classes.find? (fun e => e.dev == dev) =
      ((classes.takeWhile (passes dev)).find? fun e => e.dev == dev).or (some stop) := by
    nth_rewrite 1 [← List.takeWhile_append_dropWhile (p := passes dev) (l := classes)]
    rw [List.find?_append, hrest, List.find?_cons_of_pos (by simp [hstop.1])]
  unfold NewestTaken
  rw [hfind]
  constructor
  · intro ⟨e, he, hsome⟩ e' he' hdev
    -- The newest entry would be one the loop has passed.
    cases hpre : (classes.takeWhile (passes dev)).find? fun e => e.dev == dev with
    | none => exact List.find?_eq_none.mp hpre e' he' (by simp [hdev])
    | some x =>
      rw [hpre, Option.some_or] at he
      cases he
      have hpass := List.mem_takeWhile_imp (List.mem_of_find?_eq_some hpre)
      have hdev : e.dev = dev := by simpa using List.find?_some hpre
      rw [passes_iff.mp hpass hdev] at hsome
      cases hsome
  · intro hno
    rw [List.find?_eq_none.mpr fun e he => by simp [hno e he], Option.none_or]
    exact ⟨stop, rfl, Option.isSome_iff_ne_none.mpr hstop.2⟩

/-- Nothing is taken. -/
theorem atomic_of_passes {classes : List (SeL4Class D)} (h : classes.dropWhile (passes dev) = []) :
    Atomic parent dev classes := by
  refine ⟨.inl ⟨?_, fun e he hdev => ?_⟩, cdevAddPtr_others classes⟩
  · rw [cdevAddPtr_eq, if_pos h]
  · rw [cdevAddPtr_eq, h, List.append_nil] at he
    obtain ⟨x, -, rfl⟩ := List.mem_map.mp he
    have hx : x.dev = dev := (attach_same x).1.symm.trans hdev
    rw [attach, if_pos hx]

/-- Something is taken: the entries passed before it must not change. -/
theorem atomic_iff_of_stops {classes : List (SeL4Class D)} (h : classes.dropWhile (passes dev) ≠ []) :
    Atomic parent dev classes ↔ ∀ e ∈ classes.takeWhile (passes dev), parent = none ∨ e.dev ≠ dev := by
  have hcode : (cdevAddPtr parent dev classes).1 = -einval := by rw [cdevAddPtr_eq, if_neg h]
  have hsame : (cdevAddPtr parent dev classes).2 = classes ↔
      ∀ e ∈ classes.takeWhile (passes dev), attach parent dev e = e := calc
    _ ↔ (classes.takeWhile (passes dev)).map (attach parent dev) ++ classes.dropWhile (passes dev) =
          classes.takeWhile (passes dev) ++ classes.dropWhile (passes dev) := by
      rw [cdevAddPtr_eq, List.takeWhile_append_dropWhile]
    _ ↔ (classes.takeWhile (passes dev)).map (attach parent dev) = (classes.takeWhile (passes dev)).map id := by
      rw [List.append_cancel_right_eq, List.map_id]
    _ ↔ _ := List.map_inj_left
  constructor
  · intro hatomic e he
    rcases hatomic.whole with ⟨hzero, -⟩ | ⟨-, heq⟩
    · rw [hcode] at hzero
      exact absurd hzero (by decide)
    · exact (attach_eq_self (List.mem_takeWhile_imp he)).mp (hsame.mp heq e he)
  · intro hpre
    refine ⟨.inr ⟨by rw [hcode]; decide, hsame.mpr fun e he => ?_⟩, cdevAddPtr_others classes⟩
    exact (attach_eq_self (List.mem_takeWhile_imp he)).mpr (hpre e he)

/-- **When `cdev_add` is atomic.** On every registry, so on those that
`device_create` and `cdev_add` can lead to: NULL is added, or no entry of
the number is taken, or the newest one is. -/
theorem atomic_iff (parent : Option D) (dev : UInt32) (classes : List (SeL4Class D)) :
    Atomic parent dev classes ↔
      parent = none ∨ (∀ e ∈ classes, e.dev = dev → e.cdev = none) ∨ NewestTaken dev classes := by
  by_cases h : classes.dropWhile (passes dev) = []
  · have hall : ∀ e ∈ classes, e.dev = dev → e.cdev = none :=
      fun e he => passes_iff.mp (List.dropWhile_eq_nil_iff.mp h e he)
    exact iff_of_true (atomic_of_passes h) (.inr (.inl hall))
  · have hsome : ¬ ∀ e ∈ classes, e.dev = dev → e.cdev = none :=
      fun hall => h (List.dropWhile_eq_nil_iff.mpr fun e he => passes_iff.mpr (hall e he))
    rw [atomic_iff_of_stops h, newestTaken_iff h]
    simp only [hsome, false_or]
    constructor
    · intro hpre
      by_cases hnull : parent = none
      · exact .inl hnull
      · exact .inr fun e he => (hpre e he).resolve_left hnull
    · rintro (hnull | hpre) e he
      · exact .inl hnull
      · exact .inr (hpre e he)

/-- A device is created and added, and another with its number created. -/
def createdTwice : List (Call Char) :=
  let d := { name := [], dev := 5, cdev := 'a' }
  [.create d, .add d, .create d]

/-- The second `cdev_add` fails and leaves the new entry with its `cdev`. -/
theorem not_atomic_createdTwice : (runCalls createdTwice).map SeL4Class.cdev = [none, some 'a'] ∧
    (cdevAddPtr (some 'b') 5 (runCalls createdTwice)).1 = -einval ∧
    (cdevAddPtr (some 'b') 5 (runCalls createdTwice)).2.map SeL4Class.cdev = [some 'b', some 'a'] ∧
    ¬ Atomic (some 'b') 5 (runCalls createdTwice) := by
  refine ⟨by decide, by decide, by decide, fun h => ?_⟩
  rcases h.whole with ⟨hzero, -⟩ | ⟨-, hsame⟩
  · exact absurd hzero (by decide)
  · exact absurd (congrArg (List.map SeL4Class.cdev) hsame) (by decide)

end Atomic

end Lmsel4.Cdev
