/-
The names liblinux keeps in memory of its own: copies of a file's, a
device's, a class's and a region's name, a module's metadata, and the name
of a parameter's setter.

Only `load_metadata` has room for the NUL of its copy; the four others end
with the last character of the name, or with nothing at all. The setter's
name is built in a block that is large enough, but if the parameter's name
is empty nothing has put a NUL where `strncat` looks for one
(`stored_iff`).
-/
import Lmsel4.CMemory
import Lmsel4.Cdev
import Lmsel4.Loader

namespace Lmsel4.StoredNames

open Cdev (SeL4Class)
open CMemory (Block malloc calloc cstr)
open Loader (CStr nul)

/-! ## The routines -/

/-- `strlen`. -/
def strlen (s : CStr) : Nat := s.chars.length

/-- A copy in a block of `len` zeroed bytes. No result is an access outside
of it. -/
def keep (len : Nat) (name : CStr) : Option (Block Char) := CMemory.strncpy nul (calloc nul len) name.chars len

/-- `struct opened_file`. -/
structure OpenedFile (D F : Type) where
  fd : Int32
  name : Block Char
  device : D
  file : F

/-- `struct resource`, with the fields that are set. -/
structure Resource (R : Type) where
  start : UInt32
  endAddr : UInt32
  name : Block Char
  flags : UInt32
  parent : R

section Code

variable {D F R : Type}

/-- `alloc_file`, where `cdev_alloc` has returned `d` and `kmalloc` `file`. -/
def allocFile (d : D) (file : F) (lfd : Int32) (name : CStr) : Option (OpenedFile D F × Int32) :=
  (keep (strlen name) name).map fun kept => ({ fd := lfd, name := kept, device := d, file }, lfd + 1)

/-- `device_create`: the `init_name` and the classes that are registered. -/
def deviceCreate (dev : UInt32) (classes : List (SeL4Class D)) (fmt : CStr) :
    Option (Block Char × List (SeL4Class D)) :=
  (keep (strlen fmt) fmt).map fun initName => (initName, Cdev.deviceCreate dev fmt.chars classes)

/-- `__class_create`: the `name` of the class. -/
def classCreate (name : CStr) : Option (Block Char) := keep (strlen name) name

/-- `__request_region`. -/
def requestRegion (res : R) (start n : UInt32) (flags : Int32) (name : CStr) : Option (Resource R) :=
  (keep (strlen name) name).map fun name =>
    { start, endAddr := start + n, name, flags := flags.toUInt32, parent := res }

/-- `load_metadata`, where the fetcher has returned `ptr`: the result and
`*dest`. -/
def loadMetadata (ptr : Option CStr) : Option (Int32 × Option (Block Char)) :=
  match ptr with
  | none => some (-enoent, none)
  | some ptr => (keep (strlen ptr + 1) ptr).map fun dest => (0, some dest)

/-- The `setter` that `modulectl_set_param` looks up. -/
def setter (name : CStr) : Option (Block Char) := Loader.buildSetter (malloc (Loader.setterLen name + 1)) name

end Code

/-! ## What they are for -/

/-- A routine, with what it is called with besides the name. -/
inductive Routine (D F R : Type)
  | allocFile (d : D) (file : F) (lfd : Int32)
  | deviceCreate (dev : UInt32) (classes : List (SeL4Class D))
  | classCreate
  | requestRegion (res : R) (start n : UInt32) (flags : Int32)
  | loadMetadata
  | modulectlSetParam

section Purpose

variable {D F R : Type}

/-- The block a routine keeps for a name. -/
def Routine.block : Routine D F R → CStr → Option (Block Char)
  | .allocFile d file lfd, name => (StoredNames.allocFile d file lfd name).map (·.1.name)
  | .deviceCreate dev classes, name => (StoredNames.deviceCreate dev classes name).map (·.1)
  | .classCreate, name => StoredNames.classCreate name
  | .requestRegion res start n flags, name => (StoredNames.requestRegion res start n flags name).map (·.name)
  | .loadMetadata, name => (StoredNames.loadMetadata (some name)).bind (·.2)
  | .modulectlSetParam, name => setter name

/-- The characters that are meant to be in it. -/
def Routine.intended : Routine D F R → CStr → List Char
  | .modulectlSetParam, name => "PARAM_SETTER_PREFIX".toList ++ name.chars
  | _, name => name.chars

/-- The routine accesses no byte it must not, and the block holds the
characters with a NUL behind them. -/
def Routine.Stores (r : Routine D F R) (name : CStr) : Prop := (r.block name).bind (cstr nul) = some (r.intended name)

instance (r : Routine D F R) (name : CStr) : Decidable (r.Stores name) := inferInstanceAs (Decidable (_ = _))

end Purpose

/-! ## Copies -/

theorem keep_cstr (len : Nat) (name : CStr) :
    (keep len name).bind (cstr nul) = if strlen name < len then some name.chars else none :=
  CMemory.strncpy_calloc name.noNul len

/-- A copy as long as the name has no NUL. -/
theorem keep_strlen (name : CStr) : (keep (strlen name) name).bind (cstr nul) ≠ some name.chars := by
  rw [keep_cstr, if_neg (Nat.lt_irrefl _)]
  intro h
  cases h

theorem keep_strlen_succ (name : CStr) : (keep (strlen name + 1) name).bind (cstr nul) = some name.chars := by
  rw [keep_cstr, if_pos (Nat.lt_succ_self _)]

/-! ## Whole routines -/

section Routines

variable {D F R : Type} {r : Routine D F R} {name : CStr}

/-- The routines but two keep a copy as long as the name. -/
theorem block_eq_keep (hload : r ≠ .loadMetadata) (hset : r ≠ .modulectlSetParam) (name : CStr) :
    r.block name = keep (strlen name) name ∧ r.intended name = name.chars := by
  cases r with
  | allocFile d file lfd => exact ⟨by simp [Routine.block, allocFile, Function.comp_def], rfl⟩
  | deviceCreate dev classes => exact ⟨by simp [Routine.block, deviceCreate, Function.comp_def], rfl⟩
  | classCreate => exact ⟨rfl, rfl⟩
  | requestRegion res start n flags => exact ⟨by simp [Routine.block, requestRegion, Function.comp_def], rfl⟩
  | loadMetadata => exact absurd rfl hload
  | modulectlSetParam => exact absurd rfl hset

theorem loadMetadata_stores (name : CStr) : (.loadMetadata : Routine D F R).Stores name := by
  have hblock : (.loadMetadata : Routine D F R).block name = keep (strlen name + 1) name := by
    cases hkeep : keep (strlen name + 1) name <;> simp [Routine.block, loadMetadata, hkeep]
  rw [Routine.Stores, hblock]
  exact keep_strlen_succ name

theorem modulectlSetParam_stores_iff (name : CStr) :
    (.modulectlSetParam : Routine D F R).Stores name ↔ name.chars ≠ [] := by
  have hnul : nul ∉ "PARAM_SETTER_PREFIX".toList ++ name.chars := by
    rw [List.mem_append, not_or]
    exact ⟨by decide, name.noNul⟩
  show (setter name).bind (cstr nul) = some ("PARAM_SETTER_PREFIX".toList ++ name.chars) ↔ name.chars ≠ []
  rw [setter, Loader.buildSetter_eq]
  split
  · rename_i hempty
    constructor
    · intro h
      cases h
    · intro h
      exact absurd hempty h
  · rename_i hne
    rw [Option.bind_some, CMemory.cstr_ended hnul]
    exact ⟨fun _ => hne, fun _ => rfl⟩

/-- **Which names are stored as C strings.** Metadata always is, the name of
a setter is unless the parameter's name is empty, and no other name ever
is. -/
theorem stored_iff (r : Routine D F R) (name : CStr) :
    r.Stores name ↔ r = .loadMetadata ∨ r = .modulectlSetParam ∧ name.chars ≠ [] := by
  by_cases hload : r = .loadMetadata
  · subst hload
    exact ⟨fun _ => .inl rfl, fun _ => loadMetadata_stores name⟩
  · by_cases hset : r = .modulectlSetParam
    · subst hset
      rw [modulectlSetParam_stores_iff]
      constructor
      · intro hne
        exact .inr ⟨rfl, hne⟩
      · intro h
        rcases h with h | h
        · cases h
        · exact h.2
    · obtain ⟨hblock, hname⟩ := block_eq_keep hload hset name
      rw [Routine.Stores, hblock, hname]
      exact ⟨fun h => absurd h (keep_strlen name), fun h => (h.elim hload fun h => hset h.1).elim⟩

end Routines

/-- A class's name is five bytes without a NUL, and the name of a setter of
no parameter is looked for in a byte that has not been written. -/
theorem not_stored_ttyS0 :
    classCreate ⟨['t', 't', 'y', 'S', '0'], by decide⟩ =
        some [some 't', some 't', some 'y', some 'S', some '0'] ∧
      ¬ (.classCreate : Routine Unit Unit Unit).Stores ⟨['t', 't', 'y', 'S', '0'], by decide⟩ ∧
      setter ⟨[], by decide⟩ = none ∧
      ¬ (.modulectlSetParam : Routine Unit Unit Unit).Stores ⟨[], by decide⟩ := by
  refine ⟨by decide, by decide, by decide, by decide⟩

end Lmsel4.StoredNames
