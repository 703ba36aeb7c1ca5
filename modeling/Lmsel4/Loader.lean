/-
Looking up a module's functions by name: what the macros of `loader.h` call
them, and what `module_by_name` and `modulectl_set_param` of `loader.c` ask
for.

The macros are expanded, so a module exports `fetch_module_init`,
`fetch_module_exit` and, for a parameter `p`, `PARAM_SETTER_PREFIX_p`. The
loader asks for the names of the macros, as strings. So no module is ever
loaded (`moduleByName_eq`), and a parameter is set by its name with an
underscore in front of it (`modulectlSetParam_eq`).
-/
import Lmsel4.CMemory
import Lmsel4.Liblinux
import Mathlib.Data.List.Basic

namespace Lmsel4.Loader

open CMemory (Block malloc cstr strncpy strncat Extends)

/-! ## C strings -/

def nul : Char := Char.ofNat 0

/-- A string, without the NUL that ends it. -/
structure CStr where
  chars : List Char
  noNul : nul ∉ chars
  deriving DecidableEq

/-! ## The macros of `loader.h` -/

/-- The object-like macros, each with the token it stands for. -/
def macros : List (List Char × List Char) :=
  [("MODULE_LOAD_FCN".toList, "fetch_module_init".toList),
    ("MODULE_UNLOAD_FCN".toList, "fetch_module_exit".toList),
    ("MODULE_NAME_FCN".toList, "module_name".toList),
    ("MODULE_LICENSE_FCN".toList, "module_license".toList),
    ("PARAM_SETTER_PREFIX".toList, "set_param_".toList)]

/-- What an identifier in a macro's body becomes. -/
def rescan (id : List Char) : List Char := (macros.lookup id).getD id

/-- The function defined by `module_init`. -/
def moduleInit : List Char := rescan "MODULE_LOAD_FCN".toList

/-- The function defined by `module_exit`. -/
def moduleExit : List Char := rescan "MODULE_UNLOAD_FCN".toList

/-- The function defined by `module_param`. The tokens are pasted before
the result is looked at again. -/
def moduleParam (name : CStr) : List Char := rescan ("PARAM_SETTER_PREFIX_".toList ++ name.chars)

/-- A module with `module_init(init)`, `module_exit(exit)` and a
`module_param` for each of `params`. -/
structure Obj (F : Type) where
  init : F
  exit : F
  params : List CStr
  named : ∀ p ∈ params, p.chars ≠ []

/-- The body of an exported function. -/
inductive Exported (F : Type)
  | registerInit (f : F)
  | registerExit (f : F)
  | setter (param : CStr)
  deriving DecidableEq

section Code

variable {F V : Type}

def Obj.symbols (o : Obj F) : List (List Char × Exported F) :=
  (moduleInit, .registerInit o.init) :: (moduleExit, .registerExit o.exit) ::
    o.params.map fun p => (moduleParam p, .setter p)

def dlsym (o : Obj F) (sym : List Char) : Option (Exported F) := o.symbols.lookup sym

/-! ## The loader -/

/-- `struct seL4_Module`, a field being none until it is set. -/
structure SeL4Module (F : Type) where
  init : Option F
  exit : Option F
  dlhandle : Option Nat

/-- The open handles with their objects, the modules allocated, and the
parameters of the object behind each handle. -/
structure State (F V : Type) where
  opened : List (Nat × Obj F)
  blocks : List Nat
  values : Nat → CStr → V
  errno : Int32

/-- `find_sym_and_apply`, where the function found yields `ret`. No result
is a setter called with a module. -/
def findSymAndApply (o : Obj F) (ret : Int32) (sym : List Char) (mod : SeL4Module F) :
    Option (Int32 × SeL4Module F) :=
  match dlsym o sym with
  | none => some (-1, mod)
  | some (.registerInit f) => some (ret, { mod with init := some f })
  | some (.registerExit f) => some (ret, { mod with exit := some f })
  | some (.setter _) => none

/-- What is not the loader's: the objects there are, what `malloc` and
`dlopen` return, and what the two functions called yield. -/
structure World (F : Type) where
  files : CStr → Option (Obj F)
  out : Nat
  handle : Nat
  ret : Int32 × Int32

/-- `module_by_name`. -/
def moduleByName (w : World F) (obj : CStr) (s : State F V) : Option (Option (SeL4Module F) × State F V) :=
  let s := { s with blocks := w.out :: s.blocks }
  match w.files obj with
  | none => some (none, { s with errno := enoent })
  | some o =>
    let s := { s with opened := (w.handle, o) :: s.opened }
    let mod := { init := none, exit := none, dlhandle := some w.handle }
    (findSymAndApply o w.ret.1 "MODULE_LOAD_FCN".toList mod).bind fun (res, mod) =>
    if res < 0 then some (none, { s with blocks := s.blocks.erase w.out }) else
    (findSymAndApply o w.ret.2 "MODULE_UNLOAD_FCN".toList mod).bind fun (res, mod) =>
    if res < 0 then some (none, { s with blocks := s.blocks.erase w.out }) else
    some (some mod, s)

/-- The length `modulectl_set_param` computes for a setter's name. -/
def setterLen (name : CStr) : Nat := "PARAM_SETTER_PREFIX".toList.length + name.chars.length

/-- How it builds the name in a block. -/
def buildSetter (setter : Block Char) (name : CStr) : Option (Block Char) :=
  (strncpy nul setter "PARAM_SETTER_PREFIX".toList (setterLen name)).bind fun setter =>
  strncat nul setter name.chars (setterLen name)

/-- The name it builds in a block that `kmalloc` has not initialised. -/
def setterName (junk : Nat → Char) (name : CStr) : Option (List Char) :=
  (buildSetter ((List.range (setterLen name + 1)).map fun i => some (junk i)) name).bind (cstr nul)

def State.set (s : State F V) (handle : Nat) (param : CStr) (value : V) : State F V :=
  { s with values := fun h p => if h = handle ∧ p = param then value else s.values h p }

/-- `modulectl_set_param` on the handle of `o`. No result is memory accessed
outside its block, or a fetch function called with a value. -/
def modulectlSetParam (junk : Nat → Char) (name : CStr) (value : V) (mhandle : Nat) (o : Obj F) (s : State F V) :
    Option (Int32 × State F V) :=
  (setterName junk name).bind fun setter =>
  match dlsym o setter with
  | none => some (-enoent, s)
  | some (.setter p) => some (0, s.set mhandle p value)
  | some _ => none

/-! ## What it is for -/

/-- The module is found, with its functions and the object's handle. -/
def Loads (o : Obj F) (s : State F V) : Prop :=
  ∀ (w : World F) (obj : CStr), w.files obj = some o →
    ∃ mod s', moduleByName w obj s = some (some mod, s') ∧
      mod.init = some o.init ∧ mod.exit = some o.exit ∧ mod.dlhandle = some w.handle

/-- Setting a parameter of the object runs its setter. -/
def Sets (o : Obj F) (s : State F V) : Prop :=
  ∀ p ∈ o.params, ∀ junk value handle, modulectlSetParam junk p value handle o s = some (0, s.set handle p value)

/-- Setting anything else changes nothing. -/
def Refuses (o : Obj F) (s : State F V) : Prop :=
  ∀ name, name ∉ o.params → ∀ junk value handle,
    modulectlSetParam junk name value handle o s = some (-enoent, s)

/-- When no module is returned, none stays allocated and no handle open. -/
def Cleans (o : Obj F) (s : State F V) : Prop :=
  ∀ (w : World F) (obj : CStr) (s' : State F V), (∀ o', w.files obj = some o' → o' = o) →
    moduleByName w obj s = some (none, s') → s'.blocks = s.blocks ∧ s'.opened = s.opened

/-- The loader and the macros agree on the names of the object's functions. -/
def Agrees (o : Obj F) (s : State F V) : Prop := Loads o s ∧ Sets o s ∧ Refuses o s ∧ Cleans o s

/-! ## The names -/

theorem moduleParam_eq (p : CStr) : moduleParam p = "PARAM_SETTER_PREFIX".toList ++ '_' :: p.chars := by
  simp [moduleParam, rescan, macros, List.lookup_cons]

/-- A parameter without a name leaves no NUL from which `strncat` could go
on. -/
theorem buildSetter_eq (name : CStr) : buildSetter (malloc (setterLen name + 1)) name =
    if name.chars = [] then none else some (("PARAM_SETTER_PREFIX".toList ++ name.chars).map some ++ [some nul]) :=
  CMemory.strncat_strncpy (by decide) name.chars

/-- The name in the block, whatever bytes `kmalloc` has left there. -/
theorem setterName_eq_of_built {name : CStr} {s : List Char}
    (hs : (buildSetter (malloc (setterLen name + 1)) name).bind (cstr nul) = some s) (junk : Nat → Char) :
    setterName junk name = some s := by
  obtain ⟨b, hb, hs⟩ := Option.bind_eq_some_iff.mp hs
  obtain ⟨d, hd, hb⟩ := Option.bind_eq_some_iff.mp hb
  have hjunk : Extends (malloc (setterLen name + 1))
      ((List.range (setterLen name + 1)).map fun i => some (junk i)) := by
    have hext := CMemory.extends_malloc (b := (List.range (setterLen name + 1)).map fun i => some (junk i))
    rwa [List.length_map, List.length_range] at hext
  obtain ⟨d', hd', hext⟩ := hjunk.strncpy hd
  obtain ⟨b', hb', hext⟩ := hext.strncat hb
  rw [setterName, buildSetter, hd', Option.bind_some, hb', Option.bind_some, hext.cstr hs]

/-- The loader's name of a parameter has no underscore. The padding of
`strncpy` ends the string from which `strncat` goes on. -/
theorem setterName_eq (junk : Nat → Char) {name : CStr} (h : name.chars ≠ []) :
    setterName junk name = some ("PARAM_SETTER_PREFIX".toList ++ name.chars) := by
  have hall : nul ∉ "PARAM_SETTER_PREFIX".toList ++ name.chars := by
    rw [List.mem_append, not_or]
    exact ⟨by decide, name.noNul⟩
  refine setterName_eq_of_built ?_ junk
  rw [buildSetter_eq, if_neg h, Option.bind_some, CMemory.cstr_ended hall]

theorem lookup_params (sym : List Char) : ∀ params : List CStr,
    (params.map fun p => (moduleParam p, (.setter p : Exported F))).lookup
        ("PARAM_SETTER_PREFIX".toList ++ sym) =
      (params.find? fun q => '_' :: q.chars = sym).map .setter
  | [] => rfl
  | p :: params => by
    rw [List.map_cons, List.lookup_cons, List.find?_cons, lookup_params sym params, moduleParam_eq]
    by_cases h : '_' :: p.chars = sym
    · subst h
      simp
    · have hne : "PARAM_SETTER_PREFIX".toList ++ sym ≠ "PARAM_SETTER_PREFIX".toList ++ '_' :: p.chars :=
        fun he => h (List.append_cancel_left he).symm
      simp only [beq_false_of_ne hne, h, decide_false]

/-- The loader finds a setter under the parameter's name with an underscore
in front of it. -/
theorem dlsym_setter (o : Obj F) (sym : List Char) :
    dlsym o ("PARAM_SETTER_PREFIX".toList ++ sym) =
      (o.params.find? fun q => '_' :: q.chars = sym).map .setter := by
  have hinit : moduleInit = 'f' :: "etch_module_init".toList := by decide
  have hexit : moduleExit = 'f' :: "etch_module_exit".toList := by decide
  have hpre : "PARAM_SETTER_PREFIX".toList = 'P' :: "ARAM_SETTER_PREFIX".toList := by decide
  rw [dlsym, Obj.symbols, List.lookup_cons, List.lookup_cons, lookup_params, hinit, hexit, hpre]
  simp

/-- No exported name begins as the macros' names do. -/
theorem dlsym_none (o : Obj F) {sym : List Char} (h : sym.head? = some 'M') : dlsym o sym = none := by
  rw [dlsym, List.lookup_eq_none_iff]
  intro e he
  rw [bne_iff_ne]
  intro heq
  rw [heq] at h
  simp only [Obj.symbols, List.mem_cons, List.mem_map] at he
  rcases he with rfl | rfl | ⟨p, -, rfl⟩
  · exact absurd h (show moduleInit.head? ≠ some 'M' by decide)
  · exact absurd h (show moduleExit.head? ≠ some 'M' by decide)
  · rw [moduleParam_eq] at h
    simp at h

/-! ## What the loader does -/

/-- **No module is loaded.** The object's handle stays open; if there is no
object, the module stays allocated. -/
theorem moduleByName_eq (w : World F) (obj : CStr) (s : State F V) :
    moduleByName w obj s =
      match w.files obj with
      | none => some (none, { s with blocks := w.out :: s.blocks, errno := enoent })
      | some o => some (none, { s with opened := (w.handle, o) :: s.opened }) := by
  cases hfile : w.files obj with
  | none => simp only [moduleByName, hfile]
  | some o =>
    have hload := dlsym_none o (show "MODULE_LOAD_FCN".toList.head? = some 'M' by decide)
    have hneg : (-1 : Int32) < 0 := by decide
    simp only [moduleByName, hfile, findSymAndApply, hload, Option.bind_some, hneg, if_true,
      List.erase_cons_head]

/-- **What setting a parameter sets.** The parameter whose name is the given
one without the underscore it begins with, if there is one. -/
theorem modulectlSetParam_eq (junk : Nat → Char) {name : CStr} (h : name.chars ≠ []) (value : V) (mhandle : Nat)
    (o : Obj F) (s : State F V) :
    modulectlSetParam junk name value mhandle o s =
      match o.params.find? fun q => '_' :: q.chars = name.chars with
      | none => some (-enoent, s)
      | some q => some (0, s.set mhandle q value) := by
  rw [modulectlSetParam, setterName_eq junk h, Option.bind_some, dlsym_setter]
  cases o.params.find? fun q => '_' :: q.chars = name.chars <;> rfl

/-- An object found under every name. -/
def World.holding (o : Obj F) : World F := { files := fun _ => some o, out := 0, handle := 0, ret := (0, 0) }

theorem not_loads (o : Obj F) (s : State F V) : ¬ Loads o s := by
  intro hloads
  obtain ⟨mod, s', hrun, -⟩ := hloads (.holding o) ⟨[], by simp⟩ rfl
  rw [moduleByName_eq] at hrun
  cases hrun

/-- The handle is not closed. -/
theorem not_cleans (o : Obj F) (s : State F V) : ¬ Cleans o s := by
  intro hcleans
  have hrun := moduleByName_eq (.holding o) ⟨[], by simp⟩ s
  obtain ⟨-, hopen⟩ := hcleans _ _ _ (fun o' ho => (Option.some.inj ho).symm) hrun
  simpa using congrArg List.length hopen

/-- Were every parameter set by its own name, each would be another one with
an underscore in front of it. -/
theorem not_sets (o : Obj F) (s : State F V) (value : V) (hne : o.params ≠ []) : ¬ Sets o s := by
  intro hsets
  have hshorter : ∀ p ∈ o.params, ∃ q ∈ o.params, p.chars = '_' :: q.chars := by
    intro p hp
    have hrun := hsets p hp (fun _ => nul) value 0
    rw [modulectlSetParam_eq _ (o.named p hp)] at hrun
    split at hrun
    · cases hrun
    · next q hq =>
      have hchars : '_' :: q.chars = p.chars := by simpa using List.find?_some hq
      exact ⟨q, List.mem_of_find?_eq_some hq, hchars.symm⟩
  have hnone : ∀ n, ∀ p ∈ o.params, p.chars.length ≠ n := by
    intro n
    induction n with
    | zero =>
      intro p hp hlen
      exact o.named p hp (List.length_eq_zero_iff.mp hlen)
    | succ n ih =>
      intro p hp hlen
      obtain ⟨q, hq, hchars⟩ := hshorter p hp
      rw [hchars, List.length_cons] at hlen
      exact ih q hq (Nat.succ.inj hlen)
  obtain ⟨p, hp⟩ := List.exists_mem_of_ne_nil _ hne
  exact hnone _ p hp rfl

/-- **Never in agreement.** No object that uses the macros is loaded by its
name. -/
theorem not_agrees (o : Obj F) (s : State F V) : ¬ Agrees o s := by
  rintro ⟨hloads, -⟩
  exact not_loads o s hloads

end Code

/-- The driver's object. -/
def uart16550 : Obj Bool where
  init := true
  exit := false
  params := [⟨"behavior".toList, by decide⟩, ⟨"major".toList, by decide⟩]
  named := by decide

def started : State Bool Int32 := { opened := [], blocks := [], values := fun _ _ => 0, errno := 0 }

/-- The driver's module is not found and its handle stays open; `behavior`
is no parameter's name to the loader, `_behavior` is. -/
theorem uart16550_not_found :
    (moduleByName (.holding uart16550) ⟨"uart16550.so".toList, by decide⟩ started).map
        (fun r => (r.1.isSome, r.2.blocks, r.2.opened.map Prod.fst)) = some (false, [], [0]) ∧
      (modulectlSetParam (fun _ => nul) ⟨"behavior".toList, by decide⟩ 3 0 uart16550 started).map Prod.fst =
        some (-enoent) ∧
      (modulectlSetParam (fun _ => nul) ⟨"_behavior".toList, by decide⟩ 3 0 uart16550 started).map
        (fun r => (r.1, r.2.values 0 ⟨"behavior".toList, by decide⟩)) = some (0, 3) ∧
      ¬ Agrees uart16550 started := by
  refine ⟨by decide, by decide, by decide, fun h => ?_⟩
  exact not_loads _ _ h.1

end Lmsel4.Loader
