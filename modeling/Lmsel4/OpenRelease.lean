/-
The driver's `open` and `release` against the open files.

`open` of `fd.c` calls the driver's `open` and drops what it returns, and
`close` calls no operation of the driver. So the files a driver believes to
be open are those in the list exactly as long as it refuses none and none is
closed (`balanced_iff`).
-/
import Lmsel4.System
import Lmsel4.FileTable

namespace Lmsel4.OpenRelease

open FileTable
open Cdev (CString SeL4Class)

/-- A call of the driver's `open`: the device, what it returned, what the
caller's `open` returned, and the open files before and after. -/
structure Opening (D F : Type) where
  device : D
  rc : Int32
  ret : Int32
  before : List (OpenedFile D F)
  after : List (OpenedFile D F)

/-- The files, and what the driver has seen of them. -/
structure State (D F : Type) where
  files : Files D F
  opens : List (Opening D F)
  /-- The calls of the driver's `release`, with their file. -/
  releases : List (D × F)
  /-- The files whose descriptor was closed. -/
  closed : List (D × F)

/-- `rc` is what the driver's `open` returns. -/
inductive Act (F : Type)
  | open (name : CString) (file : F) (rc : Int32)
  | close (fd : Int32)

section

variable {D F : Type}

/-- The driver's `open`, if the call reached it. -/
def opening (s s' : Files D F) (answer : Answer D F) (rc : Int32) : List (Opening D F) :=
  match answer.reached with
  | some (.open device _ _) => [{ device, rc, ret := answer.ret, before := s.list, after := s'.list }]
  | _ => []

def step (s : State D F) : Act F → Option (State D F)
  | .open name file rc =>
    (fdOpen s.files name file).map fun (files, answer) =>
      { s with files, opens := s.opens ++ opening s.files files answer rc }
  | .close fd =>
    -- `free_file` frees; it calls no operation of the driver.
    let closed := (fileByFd s.files.list fd).toList.map fun f => (f.device, f.file)
    some { s with files := (fdClose s.files fd).1, closed := s.closed ++ closed }

/-- Opens and closes on the devices of a registry. -/
def system (F : Type) (classes : List (SeL4Class D)) : System (State D F) (Act F) where
  init := { files := Files.init classes, opens := [], releases := [], closed := [] }
  step := step

/-- A file that the driver accepts gets a live descriptor, one that it
refuses an error and no entry. -/
def Opening.Right (o : Opening D F) : Prop :=
  if o.rc = 0 then (fileByFd o.after o.ret).isSome = true else o.ret < 0 ∧ o.after = o.before

variable [DecidableEq D]

/-- The opens of each device that succeeded are the releases and the live
descriptors of it, and a release is of a file that was closed. -/
def Balanced (s : State D F) : Prop :=
  (∀ o ∈ s.opens, o.Right) ∧ (∀ r ∈ s.releases, r ∈ s.closed) ∧
    ∀ device, s.opens.countP (fun o => o.device = device ∧ o.rc = 0) =
      s.releases.countP (fun r => r.1 = device) + s.files.list.countP (fun f => f.device = device)

/-- The driver's `open` returns 0, and a descriptor that is closed was not
live. -/
def Agrees (s : State D F) : Act F → Prop
  | .open _ _ rc => rc = 0
  | .close fd => fileByFd s.files.list fd = none

instance (s : State D F) : ∀ a, Decidable (Agrees s a)
  | .open _ _ _ => inferInstanceAs (Decidable (_ = _))
  | .close _ => inferInstanceAs (Decidable (_ = none))

/-! ## Steps -/

variable {s s' : State D F}

omit [DecidableEq D] in
/-- An open that completes has a new entry, and has reached the driver. -/
theorem open_step {name : CString} {file : F} {rc : Int32} (hs : step s (.open name file rc) = some s') :
    ∃ f : OpenedFile D F, s'.files.list = f :: s.files.list ∧ s'.releases = s.releases ∧ s'.closed = s.closed ∧
      s'.opens = s.opens ++
        [{ device := f.device, rc, ret := f.fd, before := s.files.list, after := f :: s.files.list }] := by
  obtain ⟨⟨files, answer⟩, hopen, rfl⟩ := Option.map_eq_some_iff.mp hs
  simp only [fdOpen] at hopen
  split at hopen
  · cases hopen
  · split at hopen <;> cases hopen
    exact ⟨_, rfl, rfl, rfl, rfl⟩

theorem countP_eraseP {list : List (OpenedFile D F)} {fd : Int32} {cur : OpenedFile D F}
    (h : fileByFd list fd = some cur) :
    list.countP (fun f => f.device = cur.device) =
      (list.eraseP fun f => f.fd == cur.fd).countP (fun f => f.device = cur.device) + 1 := by
  induction list with
  | nil => cases h
  | cons f list ih =>
    rw [fileByFd_cons] at h
    split at h
    · cases h
      rw [List.eraseP_cons_of_pos (by simp), List.countP_cons_of_pos (by simp)]
    · next hf =>
      have hcur : cur.fd = fd := by simpa using List.find?_some h
      rw [List.eraseP_cons_of_neg (by simpa [hcur] using hf), List.countP_cons, List.countP_cons, ih h]
      omega

theorem step_balanced {a : Act F} (h : Balanced s) (hok : Agrees s a) (hs : step s a = some s') : Balanced s' := by
  obtain ⟨hright, hreleases, hcount⟩ := h
  cases a with
  | «open» name file rc =>
    obtain ⟨f, hlist, hrel, hclosed, hopens⟩ := open_step hs
    simp only [Balanced, hlist, hrel, hclosed, hopens]
    refine ⟨fun o ho => ?_, hreleases, fun device => ?_⟩
    · rcases List.mem_append.mp ho with ho | ho
      · exact hright o ho
      · obtain rfl := List.mem_singleton.mp ho
        simp only [Opening.Right, if_pos (show rc = 0 from hok), fileByFd_cons, if_true, Option.isSome_some]
    · have hrc : rc = 0 := hok
      rw [List.countP_append, hcount, List.countP_cons, Nat.add_assoc]
      simp [List.countP_cons, hrc]
  | close fd =>
    have hnone : fileByFd s.files.list fd = none := hok
    simp only [step, fdClose, hnone] at hs
    cases hs
    refine ⟨hright, fun r hr => List.mem_append_left _ (hreleases r hr), hcount⟩

theorem step_not_balanced {a : Act F} (h : Balanced s) (hbad : ¬ Agrees s a) (hs : step s a = some s') :
    ¬ Balanced s' := by
  rintro ⟨hright, hreleases, hcount⟩
  cases a with
  | «open» name file rc =>
    obtain ⟨f, -, -, -, hopens⟩ := open_step hs
    -- The entry of a file the driver refused.
    have ho := hright _ (hopens ▸ List.mem_append_right _ List.mem_cons_self)
    rw [Opening.Right, if_neg (show ¬ rc = 0 from hbad)] at ho
    exact List.cons_ne_self _ _ ho.2
  | close fd =>
    obtain ⟨cur, hcur⟩ := Option.ne_none_iff_exists'.mp hbad
    simp only [step, fdClose, hcur] at hs
    cases hs
    have hbefore := h.2.2 cur.device
    have hafter := hcount cur.device
    have hlist := countP_eraseP hcur
    simp only at hafter
    omega

/-- **Opens and releases balance exactly while no open is refused and no
live descriptor closed.** -/
theorem balanced_iff {classes : List (SeL4Class D)} {as : List (Act F)}
    (h : (system F classes).exec (system F classes).init as = some s) :
    (system F classes).Along Balanced (system F classes).init as ↔
      (system F classes).Steps Agrees (system F classes).init as := by
  refine System.along_iff_steps (I := Balanced) (fun _ h => h) (fun _ _ _ => step_balanced)
    (fun _ _ _ => step_not_balanced) ?_ h
  refine ⟨fun _ ho => ?_, fun _ hr => ?_, fun _ => rfl⟩
  · cases ho
  · cases hr

end

/-- COM1 with its `cdev`, as loading registers it. -/
def registry : List (SeL4Class Unit) :=
  (Cdev.cdevAdd () Cdev.com1.dev (Cdev.deviceCreate Cdev.com1.dev Cdev.com1.name [])).2

/-- Two files are opened, and a descriptor that is not live is closed. -/
def twoOpens : List (Act Nat) :=
  [.open (Cdev.path Cdev.com1.name) 100 0, .close 7, .open (Cdev.path Cdev.com1.name) 200 0]

theorem balanced_twoOpens : (∃ s, (system Nat registry).exec (system Nat registry).init twoOpens = some s ∧
      s.files.list.length = 2) ∧
    (system Nat registry).Along Balanced (system Nat registry).init twoOpens :=
  ⟨⟨_, rfl, rfl⟩, (balanced_iff (s := _) rfl).mpr (by decide)⟩

/-- A file the driver refuses has a descriptor all the same, and one that is
closed was never released. -/
theorem not_balanced :
    (∃ s, (system Nat registry).exec (system Nat registry).init [.open (Cdev.path Cdev.com1.name) 100 (-16)] = some s ∧
      s.files.list.length = 1 ∧ ¬ Balanced s) ∧
    ∃ s, (system Nat registry).exec (system Nat registry).init [.open (Cdev.path Cdev.com1.name) 100 0, .close 1] =
      some s ∧ s.closed = [((), 100)] ∧ s.releases = [] ∧ ¬ Balanced s :=
  ⟨⟨_, rfl, rfl, fun h => by have := (h.1 _ (List.mem_singleton.mpr rfl)).2; cases this⟩,
    ⟨_, rfl, rfl, rfl, fun h => by have := h.2.2 (); cases this⟩⟩

end Lmsel4.OpenRelease
