/-
The lists of liblinux as the pointers they are (`fd.c`, `cdev.c`).

The opened files, the registered classes and the hierarchy of `cdev`s are
three lists of `linux/list.h` in one memory. Each call allocates, links,
searches, unlinks and frees there, and gives no result when it follows a
pointer to something that is not allocated. The list models of
`Lmsel4.FileTable`, `Lmsel4.Cdev` and `Lmsel4.Hierarchy` leave that out.
Nothing is lost by it: whatever blocks `kmalloc` hands out, as long as they
are not in use, every sequence of calls has the answers of the lists, and
stops exactly where they do (`pointers_refine`).
-/
import Lmsel4.FileTable
import Lmsel4.Hierarchy
import Lmsel4.ListHead

namespace Lmsel4.Pointers

open Cdev (CString SeL4Class)
open FileTable (OpenedFile Answer DriverCall)

/-! ## Memory -/

/-- The static list heads: `file_root.list`, `seL4_RegisteredClasses.others`
and `all_devs.siblings`. -/
inductive Root
  | files
  | classes
  | devs
  deriving DecidableEq

/-- Where a `struct list_head` is. A structure is identified with the one
list head in it, as `container_of` does. -/
inductive Addr
  | root (r : Root)
  | poison1
  | poison2
  | block (n : Nat)
  deriving DecidableEq

/-- What else the structure around an entry holds. -/
inductive Obj (D F : Type)
  | file (f : OpenedFile D F)
  | cls (c : SeL4Class D)
  | dev (cur : D)

/-- The allocated structures, `lfd`, `errno` and `all_devs.cur`. -/
structure Memory (D F : Type) where
  links : Links Addr
  obj : Addr → Option (Obj D F)
  lfd : Int32
  errno : Int32
  cur : Option D

/-- A block from `kmalloc`, and what its list head holds by chance. -/
structure Block where
  addr : Nat
  holds : ListHead Addr

variable {D F : Type}

def Memory.init : Memory D F where
  links
    | .root r => some ⟨.root r, .root r⟩
    | _ => none
  obj _ := none
  lfd := 1
  errno := 0
  cur := none

def Memory.set (h : Memory D F) (a : Addr) (o : Obj D F) : Memory D F :=
  { h with obj := Function.update h.obj a (some o) }

def Memory.kmalloc (h : Memory D F) (b : Block) (o : Obj D F) : Memory D F :=
  { h.set (.block b.addr) o with links := Function.update h.links (.block b.addr) (some b.holds) }

def Memory.kfree (h : Memory D F) (a : Addr) : Memory D F :=
  { h with links := Function.update h.links a none, obj := Function.update h.obj a none }

def Memory.listAdd (h : Memory D F) (new head : Addr) : Option (Memory D F) :=
  (h.links.listAdd new head).map fun links => { h with links }

def Memory.listDel (h : Memory D F) (entry : Addr) : Option (Memory D F) :=
  (h.links.listDel .poison1 .poison2 entry).map fun links => { h with links }

/-! ## The calls -/

/-- The body of a search: it reads the structure around the entry, and
leaves with `act` at the first one that meets `test`. -/
def scan {β ρ : Type} (read : Obj D F → Option β) (test : β → Bool)
    (act : Addr → β → Memory D F → Option (ρ × Memory D F)) (pos : Addr) (h : Memory D F) :
    Option (Flow ρ (Memory D F)) :=
  ((h.obj pos).bind read).bind fun b =>
    if test b then (act pos b h).map fun (r, h) => .leave r h else some (.goOn h)

def Obj.asFile : Obj D F → Option (OpenedFile D F)
  | .file f => some f
  | _ => none

def Obj.asClass : Obj D F → Option (SeL4Class D)
  | .cls c => some c
  | _ => none

def Obj.asDev : Obj D F → Option D
  | .dev cur => some cur
  | _ => none

/-- A search for the first entry of a list that meets `test`. -/
def search {β : Type} (r : Root) (read : Obj D F → Option β) (test : β → Bool) (fuel : Nat) (h : Memory D F) :
    Option (Option (Addr × β)) :=
  (listForEachEntry Memory.links (.root r) (scan read test fun pos b h => some ((pos, b), h)) fuel h).map Prod.fst

/-- `file_by_fd`. -/
def fileByFd (fuel : Nat) (h : Memory D F) (fd : Int32) : Option (Option (Addr × OpenedFile D F)) :=
  search .files Obj.asFile (fun f => f.fd == fd) fuel h

/-- `device_by_name`. -/
def deviceByName (fuel : Nat) (h : Memory D F) (name : CString) : Option (Option (Addr × SeL4Class D)) :=
  search .classes Obj.asClass (fun cls => Cdev.strncmpEq 256 cls.name name) fuel h

/-- `open`, where `cdev_alloc` has returned `d` and `kmalloc` the file. -/
def fdOpen (fuel : Nat) (h : Memory D F) (name : CString) (file : F) (d : D) (b : Block) :
    Option (Memory D F × Answer D F) := do
  let f : OpenedFile D F := { fd := h.lfd, name, device := d, file }
  let h := { h.kmalloc b (.file f) with lfd := h.lfd + 1 }
  let cls ← deviceByName fuel h name
  -- `cls->dev` and `f->device->ops` are followed without a check
  let (_, cls) ← cls
  let device ← cls.cdev
  let h := h.set (.block b.addr) (.file { f with device })
  let h ← h.listAdd (.block b.addr) (.root .files)
  some (h, { ret := f.fd, reached := some (.open device cls.dev file) })

/-- `close`, with `free_file`. -/
def fdClose (fuel : Nat) (h : Memory D F) (fd : Int32) : Option (Memory D F × Answer D F) := do
  match ← fileByFd fuel h fd with
  | none => some ({ h with errno := ebadf }, { ret := -1, reached := none })
  | some (cur, _) =>
    let h ← h.listDel cur
    some (h.kfree cur, { ret := 0, reached := none })

/-- `write` and `read`, which differ in the operation they reach. -/
def transfer (op : D → F → DriverCall D F) (fuel : Nat) (h : Memory D F) (fd : Int32) (buf : UInt32)
    (result : Int32) : Option (Memory D F × Answer D F) := do
  match ← fileByFd fuel h fd with
  | none => some ({ h with errno := ebadf }, { ret := 0, reached := none })
  | some (_, f) =>
    if buf = 0 then some ({ h with errno := efault }, { ret := 0, reached := none })
    else some (h, { ret := result, reached := some (op f.device f.file) })

/-- `device_create`. -/
def deviceCreate (h : Memory D F) (dev : UInt32) (fmt : CString) (b : Block) : Option (Memory D F) :=
  (h.kmalloc b (.cls { cdev := none, name := Cdev.snprintfDev 256 fmt, dev })).listAdd (.block b.addr)
    (.root .classes)

/-- The body of the loop of `cdev_add`. -/
def attach (parent : D) (dev : UInt32) (pos : Addr) (h : Memory D F) : Option (Flow Int32 (Memory D F)) :=
  ((h.obj pos).bind Obj.asClass).map fun cur =>
    if cur.dev = dev then
      if cur.cdev.isSome then .leave (-einval) h
      else .goOn (h.set pos (.cls { cur with cdev := some parent }))
    else .goOn h

/-- `cdev_add`. -/
def cdevAdd (fuel : Nat) (h : Memory D F) (parent : D) (dev : UInt32) : Option (Memory D F × Int32) :=
  (listForEachEntry Memory.links (.root .classes) (attach parent dev) fuel h).map fun (r, h) => (h, r.getD 0)

/-- `cdev_put`, with a block in case it needs one. -/
def cdevPut (h : Memory D F) (p : D) (b : Block) : Option (Memory D F) :=
  match h.cur with
  | none => some { h with cur := some p }
  | some _ => (h.kmalloc b (.dev p)).listAdd (.block b.addr) (.root .devs)

/-- `cdev_del`, up to its `kfree(dev)`. -/
def cdevDel [DecidableEq D] (fuel : Nat) (h : Memory D F) (dev : D) : Option (Memory D F) :=
  (listForEachEntry Memory.links (.root .devs)
    (scan Obj.asDev (fun cur => cur == dev) fun pos _ h => (h.listDel pos).map fun h => ((), h)) fuel h).map Prod.snd

/-- A call of a program or of a driver, with the blocks it is given. -/
inductive Op (D F : Type)
  | open (name : CString) (file : F) (d : D) (b : Block)
  | close (fd : Int32)
  | write (fd : Int32) (buf nbyte : UInt32) (result : Int32)
  | read (fd : Int32) (buf nbyte : UInt32) (result : Int32)
  | create (d : Cdev.Device D) (b : Block)
  | add (d : Cdev.Device D)
  | put (p : D) (b : Block)
  | del (p : D)

/-- The answer of a call that reaches no driver. -/
def returns (ret : Int32) : Answer D F := { ret, reached := none }

def step [DecidableEq D] (fuel : Nat) (h : Memory D F) : Op D F → Option (Memory D F × Answer D F)
  | .open name file d b => fdOpen fuel h name file d b
  | .close fd => fdClose fuel h fd
  | .write fd buf nbyte result => transfer (fun device file => .write device file buf nbyte) fuel h fd buf result
  | .read fd buf nbyte result => transfer (fun device file => .read device file buf nbyte) fuel h fd buf result
  | .create d b => (deviceCreate h d.dev d.name b).map fun h => (h, returns 0)
  | .add d => (cdevAdd fuel h d.cdev d.dev).map fun (h, ret) => (h, returns ret)
  | .put p b => (cdevPut h p b).map fun h => (h, returns 0)
  | .del p => (cdevDel fuel h p).map fun h => (h, returns 0)

/-- The block given to a call. -/
def Op.block? : Op D F → Option Block
  | .open _ _ _ b | .create _ b | .put _ b => some b
  | _ => none

/-- A block given to a call is not in use. -/
def Fresh (h : Memory D F) (op : Op D F) : Prop := ∀ b ∈ op.block?, h.links (.block b.addr) = none

instance (h : Memory D F) (op : Op D F) : Decidable (Fresh h op) :=
  inferInstanceAs (Decidable (∀ b ∈ op.block?, h.links (.block b.addr) = none))

/-! ## The lists -/

/-- The lists without the memory they are in, and the number of nodes that
`cdev_del` has unlinked, which it does not free. -/
structure Lists (D F : Type) where
  files : FileTable.Files D F
  all : Hierarchy.DeviceList D
  leaked : Nat

def Lists.init : Lists D F :=
  { files := FileTable.Files.init [], all := { cur := none, siblings := [] }, leaked := 0 }

/-- A call on the opened files or the registry. -/
def Lists.serve (t : Lists D F) (op : FileTable.Op D F) : Option (Lists D F × Answer D F) :=
  (FileTable.step t.files op).map fun (files, o) => ({ t with files }, o)

/-- The calls on the lists, where no block is needed. -/
def Lists.step [DecidableEq D] (t : Lists D F) : Op D F → Option (Lists D F × Answer D F)
  | .open name file _ _ => t.serve (.open name file)
  | .close fd => t.serve (.close fd)
  | .write fd buf nbyte result => t.serve (.write fd buf nbyte result)
  | .read fd buf nbyte result => t.serve (.read fd buf nbyte result)
  | .create d _ => t.serve (.register (.create d))
  | .add d => t.serve (.register (.add d))
  | .put p _ => some ({ t with all := Hierarchy.cdevPut p t.all }, returns 0)
  | .del p => some ({ t with
      all := Hierarchy.cdevDel p t.all
      leaked := if p ∈ t.all.siblings then t.leaked + 1 else t.leaked }, returns 0)

/-- What the entries of each list hold. -/
def Lists.objs (t : Lists D F) : Root → List (Obj D F)
  | .files => t.files.list.map .file
  | .classes => t.files.classes.map .cls
  | .devs => t.all.siblings.map .dev

/-! ## Lists in one memory -/

/-- The list a structure belongs to. -/
def Obj.root : Obj D F → Root
  | .file _ => .files
  | .cls _ => .classes
  | .dev _ => .devs

section Layout

variable {h h' : Memory D F} {objs : Root → List (Obj D F)} {place : Root → List Addr} {loose : List Nat} {r : Root}

/-- The list of `r` has the entries `place r`, which hold `objs r`. -/
structure Shape (h : Memory D F) (objs : Root → List (Obj D F)) (place : Root → List Addr) : Prop where
  circular : ∀ r, Circular h.links (.root r) (place r)
  values : ∀ r, (place r).map h.obj = (objs r).map some
  kind : ∀ r, ∀ o ∈ objs r, o.root = r
  blocks : ∀ a, (h.obj a).isSome → ∃ n, a = .block n

/-- The blocks in no list that are allocated are those of `loose`. -/
structure Ledger (h : Memory D F) (place : Root → List Addr) (loose : List Nat) : Prop where
  nodup : loose.Nodup
  apart : ∀ n ∈ loose, ∀ r, .block n ∉ place r
  allocated : ∀ n, (h.links (.block n)).isSome ↔ (∃ r, .block n ∈ place r) ∨ n ∈ loose

/-- What an entry holds is of its list. -/
theorem Shape.holds (hs : Shape h objs place) {a : Addr} (ha : a ∈ place r) : ∃ o, h.obj a = some o ∧ o.root = r := by
  have hm : h.obj a ∈ (objs r).map some := hs.values r ▸ List.mem_map_of_mem ha
  obtain ⟨o, ho, heq⟩ := List.mem_map.mp hm
  exact ⟨o, heq.symm, hs.kind r o ho⟩

theorem Shape.block (hs : Shape h objs place) {a : Addr} (ha : a ∈ place r) : ∃ n, a = .block n := by
  obtain ⟨o, ho, -⟩ := hs.holds ha
  exact hs.blocks a (by rw [ho]; rfl)

/-- What belongs to one list belongs to no other. -/
theorem Shape.not_mem (hs : Shape h objs place) {r' : Root} (hr : r' ≠ r) {a : Addr} (ha : a ∈ .root r' :: place r') :
    a ∉ .root r :: place r := by
  intro hm
  rcases List.mem_cons.mp ha with rfl | ha
  · rcases List.mem_cons.mp hm with hm | hm
    · cases hm
      exact hr rfl
    · obtain ⟨n, hn⟩ := hs.block hm
      cases hn
  · obtain ⟨n, rfl⟩ := hs.block ha
    obtain ⟨o, ho, hroot⟩ := hs.holds ha
    rcases List.mem_cons.mp hm with hm | hm
    · cases hm
    · obtain ⟨o', ho', hroot'⟩ := hs.holds hm
      rw [ho] at ho'
      cases ho'
      exact hr (hroot.symm.trans hroot')

theorem Shape.length_eq (hs : Shape h objs place) (r : Root) : (place r).length = (objs r).length := by
  simpa using congrArg List.length (hs.values r)

/-- One list is changed, within its own pointers and structures. -/
theorem Shape.change (hs : Shape h objs place) {xs : List Addr} {os : List (Obj D F)}
    (hc : Circular h'.links (.root r) xs) (hv : xs.map h'.obj = os.map some) (hk : ∀ o ∈ os, o.root = r)
    (hb : ∀ a, (h'.obj a).isSome → ∃ n, a = .block n)
    (hlinks : ∀ r', r' ≠ r → ∀ a ∈ Addr.root r' :: place r', h'.links a = h.links a)
    (hobj : ∀ r', r' ≠ r → ∀ a ∈ place r', h'.obj a = h.obj a) :
    Shape h' (Function.update objs r os) (Function.update place r xs) := by
  have hall : ∀ r', Circular h'.links (.root r') (Function.update place r xs r') ∧
      (Function.update place r xs r').map h'.obj = (Function.update objs r os r').map some ∧
      ∀ o ∈ Function.update objs r os r', o.root = r' := by
    intro r'
    by_cases hr : r' = r
    · subst hr
      simp only [Function.update_self]
      exact ⟨hc, hv, hk⟩
    · simp only [Function.update_of_ne hr]
      refine ⟨(hs.circular r').frame (hlinks r' hr), ?_, hs.kind r'⟩
      rw [← hs.values r']
      exact List.map_congr_left (hobj r' hr)
  exact ⟨fun r' => (hall r').1, fun r' => (hall r').2.1, fun r' => (hall r').2.2, hb⟩

/-- Where an address is, after the entries of one list have changed. -/
theorem exists_mem_update {xs : List Addr} {a : Addr} :
    (∃ r', a ∈ Function.update place r xs r') ↔ a ∈ xs ∨ ∃ r', r' ≠ r ∧ a ∈ place r' := by
  constructor
  · rintro ⟨r', hm⟩
    by_cases hr : r' = r
    · subst hr
      rw [Function.update_self] at hm
      exact .inl hm
    · rw [Function.update_of_ne hr] at hm
      exact .inr ⟨r', hr, hm⟩
  · rintro (hm | ⟨r', hr, hm⟩)
    · exact ⟨r, by rwa [Function.update_self]⟩
    · exact ⟨r', by rwa [Function.update_of_ne hr]⟩

theorem exists_mem_iff {a : Addr} (r : Root) : (∃ r', a ∈ place r') ↔ a ∈ place r ∨ ∃ r', r' ≠ r ∧ a ∈ place r' := by
  have h : (∃ r', a ∈ Function.update place r (place r) r') ↔ _ := exists_mem_update
  rwa [Function.update_eq_self] at h

theorem init_shape : Shape (Memory.init : Memory D F) Lists.init.objs fun _ => [] where
  circular r := Circular.init rfl
  values r := by cases r <;> rfl
  kind r o ho := by cases r <;> cases ho
  blocks a ha := by cases ha

theorem init_ledger : Ledger (Memory.init : Memory D F) (fun _ => []) [] where
  nodup := List.nodup_nil
  apart _ ha := by cases ha
  allocated n := by simp [Memory.init]

theorem Shape.of_eq (hs : Shape h objs place) (hl : h'.links = h.links) (ho : h'.obj = h.obj) : Shape h' objs place :=
  ⟨hl ▸ hs.circular, ho ▸ hs.values, hs.kind, ho ▸ hs.blocks⟩

theorem Ledger.of_eq (hg : Ledger h place loose) (hl : h'.links = h.links) : Ledger h' place loose :=
  ⟨hg.nodup, hg.apart, hl ▸ hg.allocated⟩

/-- A block is allocated, in no list. -/
theorem kmalloc_eq (hs : Shape h objs place) (hg : Ledger h place loose) {b : Block}
    (hb : h.links (.block b.addr) = none) (o : Obj D F) :
    Shape (h.kmalloc b o) objs place ∧ Ledger (h.kmalloc b o) place (b.addr :: loose) := by
  have hunused : ¬ ((∃ r, .block b.addr ∈ place r) ∨ b.addr ∈ loose) := by
    rw [← hg.allocated, hb]
    simp
  rw [not_or, not_exists] at hunused
  obtain ⟨hfree, hloose⟩ := hunused
  have hne : ∀ r, ∀ a ∈ Addr.root r :: place r, a ≠ .block b.addr := by
    intro r a ha he
    subst he
    rcases List.mem_cons.mp ha with ha | ha
    · cases ha
    · exact hfree r ha
  refine ⟨⟨fun r => (hs.circular r).frame fun a ha => Function.update_of_ne (hne r a ha) .., fun r => ?_, hs.kind, ?_⟩,
    List.nodup_cons.mpr ⟨hloose, hg.nodup⟩, ?_, fun n => ?_⟩
  · rw [← hs.values r]
    exact List.map_congr_left fun a ha => Function.update_of_ne (hne r a (List.mem_cons_of_mem _ ha)) ..
  · intro a ha
    by_cases heq : a = .block b.addr
    · exact ⟨_, heq⟩
    · exact hs.blocks a (by rwa [show (h.kmalloc b o).obj a = h.obj a from Function.update_of_ne heq ..] at ha)
  · intro n hn
    rcases List.mem_cons.mp hn with rfl | hn
    · exact hfree
    · exact hg.apart n hn
  · rw [List.mem_cons]
    by_cases hn : n = b.addr
    · subst hn
      simp [Memory.kmalloc]
    · have hne : Addr.block n ≠ .block b.addr := fun he => hn (Addr.block.inj he)
      rw [show (h.kmalloc b o).links (.block n) = h.links (.block n) from Function.update_of_ne hne .., hg.allocated n]
      simp only [hn, false_or]

/-- A block in no list is put first in the list of what it holds. -/
theorem link_eq {n : Nat} {o : Obj D F} (hs : Shape h objs place) (hg : Ledger h place (n :: loose))
    (ho : h.obj (.block n) = some o) :
    ∃ links, h.listAdd (.block n) (.root o.root) = some { h with links } ∧
      Shape { h with links } (Function.update objs o.root (o :: objs o.root))
        (Function.update place o.root (.block n :: place o.root)) ∧
      Ledger { h with links } (Function.update place o.root (.block n :: place o.root)) loose := by
  have hout : ∀ r, .block n ∉ Addr.root r :: place r := by
    intro r hm
    rcases List.mem_cons.mp hm with hm | hm
    · cases hm
    · exact hg.apart n List.mem_cons_self r hm
  have hnew : (h.links (.block n)).isSome := (hg.allocated n).mpr (.inr List.mem_cons_self)
  have hnd := List.nodup_cons.mp hg.nodup
  obtain ⟨links, hrun, hadd, hframe⟩ := (hs.circular o.root).listAdd hnew (hout o.root)
  refine ⟨links, by rw [Memory.listAdd, hrun]; rfl, hs.change hadd ?_ ?_ hs.blocks ?_ fun _ _ _ _ => rfl, hnd.2, ?_, ?_⟩
  · rw [List.map_cons, List.map_cons, hs.values o.root, ho]
  · intro o' ho'
    rcases List.mem_cons.mp ho' with rfl | ho'
    · rfl
    · exact hs.kind _ o' ho'
  · intro r hr a ha
    exact hframe a (fun he => hout r (he ▸ ha)) (hs.not_mem hr ha)
  · intro k hk r hm
    have hapart := hg.apart k (List.mem_cons_of_mem _ hk)
    rcases exists_mem_update.mp ⟨r, hm⟩ with hm | ⟨r', -, hm⟩
    · rcases List.mem_cons.mp hm with hm | hm
      · cases hm
        exact hnd.1 hk
      · exact hapart _ hm
    · exact hapart r' hm
  · intro k
    rw [exists_mem_update, show (links (.block k)).isSome = _ from Links.isSome_listAdd hrun _, hg.allocated k,
      exists_mem_iff o.root]
    simp only [List.mem_cons, Addr.block.injEq, or_assoc, or_left_comm]

theorem add_eq (hs : Shape h objs place) (hg : Ledger h place loose) {b : Block}
    (hb : h.links (.block b.addr) = none) (o : Obj D F) :
    ∃ links, (h.kmalloc b o).listAdd (.block b.addr) (.root o.root) = some { h.kmalloc b o with links } ∧
      Shape { h.kmalloc b o with links } (Function.update objs o.root (o :: objs o.root))
        (Function.update place o.root (.block b.addr :: place o.root)) ∧
      Ledger { h.kmalloc b o with links } (Function.update place o.root (.block b.addr :: place o.root)) loose := by
  obtain ⟨hs', hg'⟩ := kmalloc_eq hs hg hb o
  exact link_eq hs' hg' (Function.update_self ..)

/-- An entry is taken out of its list; its block stays allocated. -/
theorem del_eq (hs : Shape h objs place) (hg : Ledger h place loose) {l l' : List Addr} {n : Nat}
    {os os' : List (Obj D F)} {o : Obj D F} (hp : place r = l ++ .block n :: l') (ho : objs r = os ++ o :: os')
    (hlen : l.length = os.length) : ∃ links, h.listDel (.block n) = some { h with links } ∧
      Shape { h with links } (Function.update objs r (os ++ os')) (Function.update place r (l ++ l')) ∧
      Ledger { h with links } (Function.update place r (l ++ l')) (n :: loose) := by
  have hcirc := hs.circular r
  rw [hp] at hcirc
  obtain ⟨links, hrun, hdel, hframe⟩ := hcirc.listDel .poison1 .poison2
  have hmem : .block n ∈ place r := by rw [hp]; simp
  have hout : Addr.block n ∉ l ++ l' :=
    (List.nodup_cons.mp (List.perm_middle.nodup (List.nodup_cons.mp hcirc.nodup).2)).1
  have hother : ∀ r', r' ≠ r → .block n ∉ place r' := fun r' hr hm =>
    hs.not_mem hr (List.mem_cons_of_mem _ hm) (List.mem_cons_of_mem _ hmem)
  refine ⟨links, by rw [Memory.listDel, hrun]; rfl, hs.change hdel ?_ ?_ hs.blocks ?_ fun _ _ _ _ => rfl, ?_, ?_, ?_⟩
  · have hv := hs.values r
    rw [hp, ho, List.map_append, List.map_append, List.map_cons, List.map_cons] at hv
    obtain ⟨hl, hr⟩ := List.append_inj hv (by simpa using hlen)
    rw [List.map_append, List.map_append, hl, (List.cons.inj hr).2]
  · intro o' ho'
    refine hs.kind r o' ?_
    rw [ho]
    simp only [List.mem_append, List.mem_cons] at ho' ⊢
    tauto
  · intro r' hr a ha
    refine hframe a ?_
    rw [← hp]
    exact hs.not_mem hr ha
  · refine List.nodup_cons.mpr ⟨fun hm => ?_, hg.nodup⟩
    exact hg.apart n hm r hmem
  · intro k hk r' hm
    have hk' : k ≠ n → ∀ r', .block k ∉ place r' := fun hne => hg.apart k ((List.mem_cons.mp hk).resolve_left hne)
    rcases exists_mem_update.mp ⟨r', hm⟩ with hm | ⟨r'', hr, hm⟩
    · by_cases hkn : k = n
      · exact hout (hkn ▸ hm)
      · refine hk' hkn r ?_
        rw [hp]
        simp only [List.mem_append, List.mem_cons] at hm ⊢
        tauto
    · by_cases hkn : k = n
      · exact hother r'' hr (hkn ▸ hm)
      · exact hk' hkn r'' hm
  · intro k
    rw [exists_mem_update, show (links (.block k)).isSome = _ from Links.isSome_listDel hrun _, hg.allocated k,
      exists_mem_iff r, hp]
    simp only [List.mem_append, List.mem_cons, Addr.block.injEq, or_assoc, or_left_comm]

/-- A block in no list is freed. -/
theorem free_eq {n : Nat} (hs : Shape h objs place) (hg : Ledger h place (n :: loose)) :
    Shape (h.kfree (.block n)) objs place ∧ Ledger (h.kfree (.block n)) place loose := by
  have hout : ∀ r, .block n ∉ place r := hg.apart n List.mem_cons_self
  have hroot : ∀ r, ∀ a ∈ Addr.root r :: place r, a ≠ .block n := by
    intro r a ha he
    subst he
    rcases List.mem_cons.mp ha with ha | ha
    · cases ha
    · exact hout r ha
  have hnd := List.nodup_cons.mp hg.nodup
  refine ⟨⟨fun r => (hs.circular r).frame fun a ha => Function.update_of_ne (hroot r a ha) .., fun r => ?_, hs.kind,
    ?_⟩, hnd.2, fun k hk => hg.apart k (List.mem_cons_of_mem _ hk), fun k => ?_⟩
  · rw [← hs.values r]
    exact List.map_congr_left fun a ha => Function.update_of_ne (hroot r a (List.mem_cons_of_mem _ ha)) ..
  · intro a ha
    by_cases hne : a = .block n
    · exact ⟨n, hne⟩
    · exact hs.blocks a (by rwa [show (h.kfree (.block n)).obj a = h.obj a from Function.update_of_ne hne ..] at ha)
  · by_cases hk : k = n
    · subst hk
      simp [Memory.kfree, hout, hnd.1]
    · have hne : Addr.block k ≠ .block n := fun he => hk (Addr.block.inj he)
      rw [show (h.kfree (.block n)).links (.block k) = h.links (.block k) from Function.update_of_ne hne ..,
        hg.allocated k, List.mem_cons]
      simp only [hk, false_or]

/-- A structure is written to. -/
theorem set_eq (hs : Shape h objs place) (hg : Ledger h place loose) {l l' : List Addr} {a : Addr}
    {os os' : List (Obj D F)} {o : Obj D F} (o' : Obj D F) (hp : place r = l ++ a :: l') (ho : objs r = os ++ o :: os')
    (hlen : l.length = os.length) (hroot : o'.root = r) :
    Shape (h.set a o') (Function.update objs r (os ++ o' :: os')) place ∧ Ledger (h.set a o') place loose := by
  have hmem : a ∈ place r := by rw [hp]; simp
  refine ⟨?_, hg.nodup, hg.apart, hg.allocated⟩
  have hv := hs.values r
  rw [hp, ho, List.map_append, List.map_append, List.map_cons, List.map_cons] at hv
  obtain ⟨hl, hr⟩ := List.append_inj hv (by simpa using hlen)
  have hnd := (List.nodup_cons.mp (hs.circular r).nodup).2
  rw [hp] at hnd
  have hout : a ∉ l ++ l' := (List.nodup_cons.mp (List.perm_middle.nodup hnd)).1
  have hkeep : ∀ xs : List Addr, a ∉ xs → xs.map (h.set a o').obj = xs.map h.obj := fun xs hx =>
    List.map_congr_left fun x hxs => Function.update_of_ne (fun he : x = a => hx (he ▸ hxs)) ..
  rw [List.mem_append, not_or] at hout
  suffices hshape : Shape (h.set a o') (Function.update objs r (os ++ o' :: os')) (Function.update place r (place r)) by
    rwa [Function.update_eq_self] at hshape
  refine hs.change (hs.circular r) ?_ ?_ ?_ (fun _ _ _ _ => rfl) ?_
  · rw [hp, List.map_append, List.map_cons, hkeep l hout.1, hkeep l' hout.2, hl, (List.cons.inj hr).2,
      List.map_append, List.map_cons]
    congr 2
    exact Function.update_self ..
  · intro o'' ho''
    simp only [List.mem_append, List.mem_cons] at ho''
    by_cases heq : o'' = o'
    · exact heq ▸ hroot
    · refine hs.kind r o'' ?_
      rw [ho]
      simp only [List.mem_append, List.mem_cons]
      tauto
  · intro x hx
    by_cases heq : x = a
    · exact heq ▸ hs.block hmem
    · exact hs.blocks x (by rwa [show (h.set a o').obj x = h.obj x from Function.update_of_ne heq ..] at hx)
  · intro r' hr x hx
    refine Function.update_of_ne (fun he : x = a => ?_) ..
    exact hs.not_mem hr (List.mem_cons_of_mem _ (he ▸ hx)) (List.mem_cons_of_mem _ hmem)

end Layout

/-! ## Searching -/

section Search

variable {β ρ : Type} (read : Obj D F → Option β) (inj : β → Obj D F) (test : β → Bool) {h : Memory D F}

/-- A scan acts at the first entry that meets the test. -/
theorem visit_scan (act : Addr → β → Memory D F → Option (ρ × Memory D F)) (hread : ∀ b, read (inj b) = some b)
    {bs : List β} {xs : List Addr} (hx : xs.map h.obj = (bs.map inj).map some) :
    (∀ b ∈ bs, test b = false) ∧ visit (scan read test act) xs h = some (none, h) ∨
    ∃ l a r l' b r', xs = l ++ a :: r ∧ bs = l' ++ b :: r' ∧ l.length = l'.length ∧ (∀ c ∈ l', test c = false) ∧
      test b = true ∧ visit (scan read test act) xs h = (act a b h).map fun (x, h) => (some x, h) := by
  induction bs generalizing xs with
  | nil =>
    obtain rfl : xs = [] := by simpa using hx
    exact .inl ⟨fun b hb => (by cases hb), rfl⟩
  | cons b bs ih =>
    obtain ⟨a, xs, rfl, ha, hx⟩ : ∃ a xs', xs = a :: xs' ∧ h.obj a = some (inj b) ∧
        xs'.map h.obj = (bs.map inj).map some := by
      cases xs with
      | nil => cases hx
      | cons a xs =>
        obtain ⟨ha, hx⟩ := List.cons.inj hx
        exact ⟨a, xs, rfl, ha, hx⟩
    have hbody : scan read test act a h =
        if test b then (act a b h).map fun (r, h) => .leave r h else some (.goOn h) := by
      simp only [scan, ha, Option.bind_some, hread]
    cases htest : test b with
    | true =>
      refine .inr ⟨[], a, xs, [], b, bs, rfl, rfl, rfl, fun c hc => (by cases hc), htest, ?_⟩
      rw [visit, hbody, if_pos htest]
      cases act a b h <;> rfl
    | false =>
      have hgo : visit (scan read test act) (a :: xs) h = visit (scan read test act) xs h := by
        rw [visit, hbody, htest]
        rfl
      rw [hgo]
      rcases ih hx with ⟨hnone, hrun⟩ | ⟨l, a', r, l', b', r', rfl, rfl, hlen, hbefore, hb', hrun⟩
      · refine .inl ⟨fun c hc => ?_, hrun⟩
        rcases List.mem_cons.mp hc with rfl | hc
        · exact htest
        · exact hnone c hc
      · refine .inr ⟨a :: l, a', r, b :: l', b', r', rfl, rfl, congrArg (· + 1) hlen, fun c hc => ?_, hb', hrun⟩
        rcases List.mem_cons.mp hc with rfl | hc
        · exact htest
        · exact hbefore c hc

theorem scan_links (act : Addr → β → Memory D F → Option (ρ × Memory D F)) (x : Addr) (s s' : Memory D F)
    (hs : scan read test act x s = some (.goOn s')) : s'.links = s.links := by
  obtain ⟨b, -, hs⟩ := Option.bind_eq_some_iff.mp hs
  split at hs
  · obtain ⟨y, -, hy⟩ := Option.map_eq_some_iff.mp hs
    cases hy
  · cases hs
    rfl

end Search

section Find

variable {β : Type} (read : Obj D F → Option β) (inj : β → Obj D F) (test : β → Bool) {h : Memory D F}
  {objs : Root → List (Obj D F)} {place : Root → List Addr} {r : Root}

/-- A search finds the block of the first entry that meets the test. -/
theorem search_eq (hs : Shape h objs place) (hread : ∀ b, read (inj b) = some b) {bs : List β}
    (hobjs : objs r = bs.map inj) {fuel : Nat} (hf : (objs r).length < fuel) :
    bs.find? test = none ∧ search r read test fuel h = some none ∨
    ∃ l n l' cs b cs', place r = l ++ .block n :: l' ∧ bs = cs ++ b :: cs' ∧ l.length = cs.length ∧
      (∀ c ∈ cs, test c = false) ∧ bs.find? test = some b ∧ search r read test fuel h = some (some (.block n, b)) := by
  have hx : (place r).map h.obj = (bs.map inj).map some := hobjs ▸ hs.values r
  rw [← hs.length_eq] at hf
  rw [search, (hs.circular r).forEach_eq (scan_links read test _) hf]
  rcases visit_scan read inj test (fun pos b h => some ((pos, b), h)) hread hx with
    ⟨hnone, hrun⟩ | ⟨l, a, l', cs, b, cs', hplace, rfl, hlen, hbefore, hb, hrun⟩
  · refine .inl ⟨List.find?_eq_none.mpr fun b hb => ?_, by rw [hrun]; rfl⟩
    rw [hnone b hb]
    simp
  · obtain ⟨n, rfl⟩ : ∃ n, a = .block n := hs.block (r := r) (by rw [hplace]; simp)
    refine .inr ⟨l, n, l', cs, b, cs', hplace, rfl, hlen, hbefore, ?_, by rw [hrun]; rfl⟩
    rw [List.find?_eq_some_iff_append]
    refine ⟨hb, cs, cs', rfl, fun c hc => ?_⟩
    rw [hbefore c hc]
    rfl

end Find

/-! ## Attaching -/

section Attach

variable {place : Root → List Addr} {loose : List Nat}

theorem attach_links (parent : D) (dev : UInt32) (x : Addr) (s s' : Memory D F)
    (hs : attach parent dev x s = some (.goOn s')) : s'.links = s.links := by
  obtain ⟨cur, -, hs⟩ := Option.map_eq_some_iff.mp hs
  split at hs
  · split at hs <;> cases hs
    rfl
  · cases hs
    rfl

/-- The loop of `cdev_add` from an entry on: those `done` are behind it. -/
theorem visit_attach (parent : D) (dev : UInt32) {bs done : List (SeL4Class D)} {l xs : List Addr} {h : Memory D F}
    {objs : Root → List (Obj D F)} (hs : Shape h objs place) (hg : Ledger h place loose)
    (hplace : place .classes = l ++ xs) (hobjs : objs .classes = (done ++ bs).map .cls)
    (hlen : l.length = done.length) :
    ∃ r obj, visit (attach parent dev) xs h = some (r, { h with obj }) ∧ r.getD 0 = (Cdev.cdevAdd parent dev bs).1 ∧
      Shape { h with obj } (Function.update objs .classes ((done ++ (Cdev.cdevAdd parent dev bs).2).map .cls)) place ∧
      Ledger { h with obj } place loose := by
  induction bs generalizing done l xs h objs with
  | nil =>
    obtain rfl : xs = [] := by
      have := congrArg List.length (hs.values .classes)
      rw [hplace, hobjs] at this
      simp only [List.length_map, List.length_append, hlen, List.append_nil] at this
      exact List.length_eq_zero_iff.mp (by omega)
    refine ⟨none, h.obj, rfl, rfl, ?_, hg⟩
    rw [Cdev.cdevAdd_nil, ← hobjs, Function.update_eq_self]
    exact hs
  | cons c bs ih =>
    have hv := hs.values .classes
    rw [hplace, hobjs, List.map_append, List.map_append, List.map_append] at hv
    obtain ⟨a, xs, rfl, ha⟩ : ∃ a xs', xs = a :: xs' ∧ h.obj a = some (.cls c) := by
      have htail := (List.append_inj hv (by simpa using hlen)).2
      cases xs with
      | nil => cases htail
      | cons a xs => exact ⟨a, xs, rfl, (List.cons.inj htail).1⟩
    have hbody : attach parent dev a h =
        some (if c.dev = dev then
          if c.cdev.isSome then .leave (-einval) h
          else .goOn (h.set a (.cls { c with cdev := some parent }))
        else .goOn h) := by
      simp only [attach, ha, Option.bind_some, Obj.asClass, Option.map_some]
    -- What is left of the loop after an entry that now holds `c'`.
    have hgo : ∀ (h' : Memory D F) (c' : SeL4Class D),
        Shape h' (Function.update objs .classes ((done ++ c' :: bs).map .cls)) place → Ledger h' place loose →
        ∃ r obj, visit (attach parent dev) xs h' = some (r, { h' with obj }) ∧
          r.getD 0 = (Cdev.cdevAdd parent dev bs).1 ∧
          Shape { h' with obj } (Function.update objs .classes
            ((done ++ c' :: (Cdev.cdevAdd parent dev bs).2).map .cls)) place ∧
          Ledger { h' with obj } place loose := by
      intro h' c' hs' hg'
      have hrest := @ih (done ++ [c']) (l ++ [a]) xs h' _ hs' hg' (by simpa using hplace) (by simp)
        (by simpa using hlen)
      simpa [Function.update_idem] using hrest
    by_cases hdev : c.dev = dev
    · by_cases hcdev : c.cdev.isSome
      · refine ⟨some (-einval), h.obj, ?_, ?_, ?_, hg⟩
        · rw [visit, hbody, if_pos hdev, if_pos hcdev]
          rfl
        · rw [Cdev.cdevAdd_cons, if_pos hdev, if_pos hcdev]
          rfl
        · rw [Cdev.cdevAdd_cons, if_pos hdev, if_pos hcdev, ← hobjs, Function.update_eq_self]
          exact hs
      · obtain ⟨hs', hg'⟩ := set_eq hs hg (.cls { c with cdev := some parent }) hplace
          (hobjs.trans List.map_append) (by simpa using hlen) rfl
        obtain ⟨r, obj, hrun, hret, hs'', hg''⟩ := hgo _ { c with cdev := some parent } (by simpa using hs') hg'
        refine ⟨r, obj, ?_, ?_, ?_, hg''⟩
        · rw [visit, hbody, if_pos hdev, if_neg hcdev]
          exact hrun
        · rw [Cdev.cdevAdd_cons, if_pos hdev, if_neg hcdev]
          exact hret
        · rw [Cdev.cdevAdd_cons, if_pos hdev, if_neg hcdev]
          exact hs''
    · have hsame : Shape h (Function.update objs .classes ((done ++ c :: bs).map .cls)) place := by
        rw [← hobjs, Function.update_eq_self]
        exact hs
      obtain ⟨r, obj, hrun, hret, hs'', hg''⟩ := hgo h c hsame hg
      refine ⟨r, obj, ?_, ?_, ?_, hg''⟩
      · rw [visit, hbody, if_neg hdev]
        exact hrun
      · rw [Cdev.cdevAdd_cons, if_neg hdev]
        exact hret
      · rw [Cdev.cdevAdd_cons, if_neg hdev]
        exact hs''

end Attach

/-! ## The memory is the lists -/

/-- The memory has the lists of `t`, of at most `n` entries each, and
besides their entries only the blocks that leaked. -/
structure Represents (n : Nat) (h : Memory D F) (t : Lists D F) : Prop where
  lists : ∃ place loose, Shape h t.objs place ∧ Ledger h place loose ∧ loose.length = t.leaked
  lfd : h.lfd = t.files.lfd
  errno : h.errno = t.files.errno
  cur : h.cur = t.all.cur
  length : ∀ r, (t.objs r).length ≤ n

/-- The same answer, and a memory that has the lists again. -/
def Agrees (n : Nat) (x : Memory D F × Answer D F) (y : Lists D F × Answer D F) : Prop :=
  x.2 = y.2 ∧ Represents n x.1 y.1

section Steps

variable {n fuel : Nat} {h : Memory D F} {t : Lists D F}

theorem Represents.mono (hr : Represents n h t) : Represents (n + 1) h t :=
  { hr with length := fun r => Nat.le_succ_of_le (hr.length r) }

theorem Represents.setErrno (hr : Represents n h t) (e : Int32) :
    Represents (n + 1) { h with errno := e } { t with files := { t.files with errno := e } } := by
  obtain ⟨place, loose, hs, hg, hleak⟩ := hr.lists
  have hobjs : Lists.objs { t with files := { t.files with errno := e } } = t.objs := by
    funext r
    cases r <;> rfl
  refine ⟨⟨place, loose, ?_, hg.of_eq rfl, hleak⟩, hr.lfd, rfl, hr.cur, fun r => ?_⟩
  · rw [hobjs]
    exact hs.of_eq rfl rfl
  · rw [hobjs]
    exact hr.mono.length r

omit h t in
/-- A list grows by one entry. -/
theorem length_cons_le {objs : Root → List (Obj D F)} (hlen : ∀ r, (objs r).length ≤ n) {o : Obj D F} {r : Root}
    (r' : Root) : (Function.update objs r (o :: objs r) r').length ≤ n + 1 := by
  by_cases hr : r' = r
  · subst hr
    rw [Function.update_self, List.length_cons]
    exact Nat.succ_le_succ (hlen r')
  · rw [Function.update_of_ne hr]
    exact Nat.le_succ_of_le (hlen r')

omit t in
/-- `open` of a name that is found: the structure is written once more
before it is linked. -/
theorem fdOpen_found {name : CString} {file : F} {d device : D} {b : Block} {a : Addr} {cls : SeL4Class D}
    (hname : deviceByName fuel { h.kmalloc b (.file ⟨h.lfd, name, d, file⟩) with lfd := h.lfd + 1 } name =
      some (some (a, cls))) (hcdev : cls.cdev = some device) :
    fdOpen fuel h name file d b =
      (Memory.listAdd { h.kmalloc b (.file ⟨h.lfd, name, device, file⟩) with lfd := h.lfd + 1 } (.block b.addr)
        (.root .files)).bind fun h' => some (h', { ret := h.lfd, reached := some (.open device cls.dev file) }) := by
  simp only [Memory.kmalloc, Memory.set] at hname
  simp [fdOpen, hname, hcdev, Memory.set, Memory.kmalloc]

theorem open_agrees (hr : Represents n h t) (hn : n < fuel) {name : CString} {file : F} {d : D} {b : Block}
    (hb : h.links (.block b.addr) = none) :
    Option.Rel (Agrees (n + 1)) (fdOpen fuel h name file d b) (t.serve (.open name file)) := by
  obtain ⟨place, loose, hs, hg, hleak⟩ := hr.lists
  let f : OpenedFile D F := { fd := h.lfd, name, device := d, file }
  have hs₁ : Shape { h.kmalloc b (.file f) with lfd := h.lfd + 1 } t.objs place :=
    (kmalloc_eq hs hg hb (.file f)).1.of_eq rfl rfl
  have hlen : (t.objs .classes).length < fuel := Nat.lt_of_le_of_lt (hr.length _) hn
  have hfind := search_eq Obj.asClass Obj.cls (fun cls => Cdev.strncmpEq 256 cls.name name) hs₁ (fun _ => rfl) rfl hlen
  rcases hfind with ⟨hnone, hsearch⟩ | ⟨-, k, -, -, cls, -, -, -, -, -, hsome, hsearch⟩
  · have hlist : t.serve (.open name file) = none := by
      simp [Lists.serve, FileTable.step, FileTable.fdOpen, Cdev.deviceByName, hnone]
    have hmem : fdOpen fuel h name file d b = none := by
      simp [fdOpen, deviceByName, f, hsearch]
    rw [hlist, hmem]
    exact .none
  cases hcdev : cls.cdev with
  | none =>
    have hlist : t.serve (.open name file) = none := by
      simp [Lists.serve, FileTable.step, FileTable.fdOpen, Cdev.deviceByName, hsome, hcdev]
    have hmem : fdOpen fuel h name file d b = none := by
      simp [fdOpen, deviceByName, f, hsearch, hcdev]
    rw [hlist, hmem]
    exact .none
  | some device =>
    let f' : OpenedFile D F := { fd := h.lfd, name, device, file }
    obtain ⟨hs₂, hg₂⟩ := kmalloc_eq hs hg hb (.file f')
    have hobj : (h.kmalloc b (.file f')).obj (.block b.addr) = some (.file f') := Function.update_self ..
    obtain ⟨links, hrun, hs₃, hg₃⟩ := link_eq (h := { h.kmalloc b (.file f') with lfd := h.lfd + 1 })
      (hs₂.of_eq rfl rfl) (hg₂.of_eq rfl) hobj
    have hlist : t.serve (.open name file) =
        some ({ t with files := { t.files with lfd := t.files.lfd + 1, list := f' :: t.files.list } },
          { ret := h.lfd, reached := some (.open device cls.dev file) }) := by
      simp [Lists.serve, FileTable.step, FileTable.fdOpen, Cdev.deviceByName, hsome, hcdev, f', hr.lfd]
    have hmem : fdOpen fuel h name file d b =
        some ({ h.kmalloc b (.file f') with lfd := h.lfd + 1, links },
          { ret := h.lfd, reached := some (.open device cls.dev file) }) := by
      rw [fdOpen_found hsearch hcdev]
      exact congrArg (Option.bind · _) hrun
    have hobjs : Lists.objs { t with files := { t.files with lfd := t.files.lfd + 1, list := f' :: t.files.list } } =
        Function.update t.objs .files (.file f' :: t.objs .files) := by
      funext r
      cases r <;> rfl
    rw [hlist, hmem]
    refine .some ⟨rfl, ⟨_, loose, hobjs ▸ hs₃, hg₃, hleak⟩, ?_, hr.errno, hr.cur, fun r => ?_⟩
    · exact congrArg (· + 1) hr.lfd
    · rw [hobjs]
      exact length_cons_le hr.length r

theorem close_agrees (hr : Represents n h t) (hn : n < fuel) (fd : Int32) :
    Option.Rel (Agrees (n + 1)) (fdClose fuel h fd) (t.serve (.close fd)) := by
  obtain ⟨place, loose, hs, hg, hleak⟩ := hr.lists
  have hlen : (t.objs .files).length < fuel := Nat.lt_of_le_of_lt (hr.length _) hn
  rcases search_eq Obj.asFile Obj.file (fun f => f.fd == fd) hs (fun _ => rfl) rfl hlen with
    ⟨hnone, hsearch⟩ | ⟨l, k, l', cs, f, cs', hplace, hlist, hsplit, hbefore, hsome, hsearch⟩
  · have hmem : fdClose fuel h fd = some ({ h with errno := ebadf }, { ret := -1, reached := none }) := by
      simp [fdClose, fileByFd, hsearch]
    have hlists : t.serve (.close fd) =
        some ({ t with files := { t.files with errno := ebadf } }, { ret := -1, reached := none }) := by
      simp [Lists.serve, FileTable.step, FileTable.fdClose, FileTable.fileByFd, hnone]
    rw [hmem, hlists]
    exact .some ⟨rfl, hr.setErrno ebadf⟩
  · have hfd : f.fd = fd := by simpa using List.find?_some hsome
    have herase : t.files.list.eraseP (fun g => g.fd == f.fd) = cs ++ cs' := by
      rw [hlist, List.eraseP_append_right _ fun c hc => ?_, List.eraseP_cons_of_pos (by simp)]
      rw [hfd, hbefore c hc]
      simp
    have hobjs : t.objs .files = cs.map .file ++ .file f :: cs'.map .file := by
      simp [Lists.objs, hlist]
    obtain ⟨links, hrun, hs₁, hg₁⟩ := del_eq hs hg hplace hobjs (by simpa using hsplit)
    obtain ⟨hs₂, hg₂⟩ := free_eq hs₁ hg₁
    have hmem : fdClose fuel h fd =
        some (Memory.kfree { h with links } (.block k), { ret := 0, reached := none }) := by
      simp [fdClose, fileByFd, hsearch, hrun]
    have hlists : t.serve (.close fd) =
        some ({ t with files := { t.files with list := cs ++ cs' } }, { ret := 0, reached := none }) := by
      simp only [Lists.serve, FileTable.step, FileTable.fdClose, FileTable.fileByFd, hsome, herase]
      rfl
    have hobjs' : Lists.objs { t with files := { t.files with list := cs ++ cs' } } =
        Function.update t.objs .files (cs.map .file ++ cs'.map .file) := by
      funext r
      cases r with
      | files => exact List.map_append
      | classes => rfl
      | devs => rfl
    rw [hmem, hlists]
    refine .some ⟨rfl, ⟨_, loose, hobjs' ▸ hs₂, hg₂, hleak⟩, hr.lfd, hr.errno, hr.cur, fun r => ?_⟩
    have hbound := hr.mono.length r
    cases r with
    | files =>
      rw [hobjs] at hbound
      simp only [Lists.objs, List.length_map, List.length_append, List.length_cons] at hbound ⊢
      omega
    | classes => exact hbound
    | devs => exact hbound

theorem transfer_agrees (op : D → F → DriverCall D F) (hr : Represents n h t) (hn : n < fuel) (fd : Int32)
    (buf : UInt32) (result : Int32) :
    Option.Rel (Agrees (n + 1)) (transfer op fuel h fd buf result)
      ((some (FileTable.transfer op t.files fd buf result)).map fun (files, o) => ({ t with files }, o)) := by
  obtain ⟨place, loose, hs, hg, hleak⟩ := hr.lists
  have hlen : (t.objs .files).length < fuel := Nat.lt_of_le_of_lt (hr.length _) hn
  rcases search_eq Obj.asFile Obj.file (fun f => f.fd == fd) hs (fun _ => rfl) rfl hlen with
    ⟨hnone, hsearch⟩ | ⟨-, k, -, -, f, -, -, -, -, -, hsome, hsearch⟩
  · simp only [transfer, fileByFd, hsearch, FileTable.transfer, FileTable.fileByFd, hnone]
    exact .some ⟨rfl, hr.setErrno ebadf⟩
  · simp only [transfer, fileByFd, hsearch, FileTable.transfer, FileTable.fileByFd, hsome]
    by_cases hbuf : buf = 0
    · simp only [hbuf, if_true]
      exact .some ⟨rfl, hr.setErrno efault⟩
    · simp only [hbuf, if_false]
      exact .some ⟨rfl, hr.mono⟩

theorem create_agrees (hr : Represents n h t) (d : Cdev.Device D) {b : Block}
    (hb : h.links (.block b.addr) = none) :
    Option.Rel (Agrees (n + 1)) ((deviceCreate h d.dev d.name b).map fun h => (h, returns 0))
      (t.serve (.register (.create d))) := by
  obtain ⟨place, loose, hs, hg, hleak⟩ := hr.lists
  let cls : SeL4Class D := { cdev := none, name := Cdev.snprintfDev 256 d.name, dev := d.dev }
  obtain ⟨links, hrun, hs', hg'⟩ := add_eq hs hg hb (.cls cls)
  have hmem : deviceCreate h d.dev d.name b = some { h.kmalloc b (.cls cls) with links } := hrun
  have hlists : t.serve (.register (.create d)) =
      some ({ t with files := { t.files with classes := cls :: t.files.classes } }, returns 0) := rfl
  have hobjs : Lists.objs { t with files := { t.files with classes := cls :: t.files.classes } } =
      Function.update t.objs .classes (.cls cls :: t.objs .classes) := by
    funext r
    cases r <;> rfl
  rw [hmem, hlists]
  refine .some ⟨rfl, ⟨_, loose, hobjs ▸ hs', hg', hleak⟩, hr.lfd, hr.errno, hr.cur, fun r => ?_⟩
  rw [hobjs]
  exact length_cons_le hr.length r

theorem put_agrees (hr : Represents n h t) (p : D) {b : Block} (hb : h.links (.block b.addr) = none) :
    Option.Rel (Agrees (n + 1)) ((cdevPut h p b).map fun h => (h, returns 0))
      (some ({ t with all := Hierarchy.cdevPut p t.all }, returns 0)) := by
  obtain ⟨place, loose, hs, hg, hleak⟩ := hr.lists
  cases hcur : h.cur with
  | none =>
    have hmem : cdevPut h p b = some { h with cur := some p } := by simp only [cdevPut, hcur]
    have hall : Hierarchy.cdevPut p t.all = { t.all with cur := some p } := by
      simp only [Hierarchy.cdevPut, ← hr.cur, hcur]
    rw [hmem, hall]
    refine .some ⟨rfl, ⟨place, loose, ?_, hg.of_eq rfl, hleak⟩, hr.lfd, hr.errno, rfl, ?_⟩
    · have hobjs : Lists.objs { t with all := { t.all with cur := some p } } = t.objs := by
        funext r
        cases r <;> rfl
      rw [hobjs]
      exact hs.of_eq rfl rfl
    · intro r
      have hbound := hr.mono.length r
      cases r <;> exact hbound
  | some q =>
    obtain ⟨links, hrun, hs', hg'⟩ := add_eq hs hg hb (.dev p)
    have hmem : cdevPut h p b = some { h.kmalloc b (.dev p) with links } := by
      simp only [cdevPut, hcur]
      exact hrun
    have hall : Hierarchy.cdevPut p t.all = { t.all with siblings := p :: t.all.siblings } := by
      simp only [Hierarchy.cdevPut, ← hr.cur, hcur]
    have hobjs : Lists.objs { t with all := { t.all with siblings := p :: t.all.siblings } } =
        Function.update t.objs .devs (.dev p :: t.objs .devs) := by
      funext r
      cases r <;> rfl
    rw [hmem, hall]
    refine .some ⟨rfl, ⟨_, loose, hobjs ▸ hs', hg', hleak⟩, hr.lfd, hr.errno, hr.cur, fun r => ?_⟩
    rw [hobjs]
    exact length_cons_le hr.length r

theorem del_agrees [DecidableEq D] (hr : Represents n h t) (hn : n < fuel) (p : D) :
    Option.Rel (Agrees (n + 1)) ((cdevDel fuel h p).map fun h => (h, returns 0)) (t.step (.del p)) := by
  obtain ⟨place, loose, hs, hg, hleak⟩ := hr.lists
  have hlen : (place .devs).length < fuel := by
    rw [hs.length_eq]
    exact Nat.lt_of_le_of_lt (hr.length _) hn
  have hloop := (hs.circular .devs).forEach_eq (scan_links Obj.asDev (fun cur => cur == p)
    fun pos _ h => (h.listDel pos).map fun h => ((), h)) hlen
  rcases visit_scan Obj.asDev Obj.dev (fun cur => cur == p) (fun pos _ h => (h.listDel pos).map fun h => ((), h))
      (fun _ => rfl) (hs.values .devs) with
    ⟨hnone, hrun⟩ | ⟨l, a, l', cs, q, cs', hplace, hlist, hsplit, hbefore, hq, hrun⟩
  · have hmem : cdevDel fuel h p = some h := by rw [cdevDel, hloop, hrun]; rfl
    have hnot : p ∉ t.all.siblings := fun hm => by simpa using hnone p hm
    have hlists : t.step (.del p) = some (t, returns 0) := by
      simp [Lists.step, Hierarchy.cdevDel, hnot, List.erase_of_not_mem]
    rw [hmem, hlists]
    exact .some ⟨rfl, hr.mono⟩
  · obtain rfl : q = p := by simpa using hq
    obtain ⟨k, rfl⟩ : ∃ k, a = .block k := hs.block (r := .devs) (by rw [hplace]; simp)
    have hobjs : t.objs .devs = cs.map .dev ++ .dev q :: cs'.map .dev := by simp [Lists.objs, hlist]
    obtain ⟨links, hdel, hs', hg'⟩ := del_eq hs hg hplace hobjs (by simpa using hsplit)
    have hmem : cdevDel fuel h q = some { h with links } := by
      rw [cdevDel, hloop, hrun, hdel]
      rfl
    have herase : t.all.siblings.erase q = cs ++ cs' := by
      have hout : q ∉ cs := fun hm => by simpa using hbefore q hm
      rw [hlist, List.erase_append_right _ hout, List.erase_cons_head]
    have hmemq : q ∈ t.all.siblings := by rw [hlist]; simp
    have hlists : t.step (.del q) =
        some ({ t with all := { t.all with siblings := cs ++ cs' }, leaked := t.leaked + 1 }, returns 0) := by
      simp [Lists.step, Hierarchy.cdevDel, hmemq, herase]
    have hobjs' : Lists.objs { t with all := { t.all with siblings := cs ++ cs' }, leaked := t.leaked + 1 } =
        Function.update t.objs .devs (cs.map .dev ++ cs'.map .dev) := by
      funext r
      cases r with
      | files => rfl
      | classes => rfl
      | devs => exact List.map_append
    rw [hmem, hlists]
    refine .some ⟨rfl, ⟨_, k :: loose, hobjs' ▸ hs', hg', congrArg (· + 1) hleak⟩, hr.lfd, hr.errno, hr.cur,
      fun r => ?_⟩
    have hbound := hr.mono.length r
    cases r with
    | files => exact hbound
    | classes => exact hbound
    | devs =>
      rw [hobjs] at hbound
      simp only [Lists.objs, List.length_map, List.length_append, List.length_cons] at hbound ⊢
      omega

theorem add_agrees (hr : Represents n h t) (hn : n < fuel) (d : Cdev.Device D) :
    Option.Rel (Agrees (n + 1)) ((cdevAdd fuel h d.cdev d.dev).map fun (h, ret) => (h, returns ret))
      (t.serve (.register (.add d))) := by
  obtain ⟨place, loose, hs, hg, hleak⟩ := hr.lists
  have hlen : (place .classes).length < fuel := by
    rw [hs.length_eq]
    exact Nat.lt_of_le_of_lt (hr.length _) hn
  obtain ⟨r, obj, hrun, hret, hs', hg'⟩ :=
    visit_attach d.cdev d.dev hs hg (List.nil_append (place .classes)).symm
      (show t.objs .classes = ([] ++ t.files.classes).map .cls from rfl) rfl
  have hmem : cdevAdd fuel h d.cdev d.dev = some ({ h with obj }, r.getD 0) := by
    rw [cdevAdd, (hs.circular .classes).forEach_eq (attach_links d.cdev d.dev) hlen, hrun]
    rfl
  have hobjs : Lists.objs
      { t with files := { t.files with classes := (Cdev.cdevAdd d.cdev d.dev t.files.classes).2 } } =
      Function.update t.objs .classes (([] ++ (Cdev.cdevAdd d.cdev d.dev t.files.classes).2).map .cls) := by
    funext r
    cases r <;> rfl
  rw [hmem, hret]
  refine .some ⟨rfl, ⟨place, loose, ?_, hg', hleak⟩, hr.lfd, hr.errno, hr.cur, fun r => ?_⟩
  · exact hobjs ▸ hs'
  · have hbound := hr.mono.length r
    have hsize := hs'.length_eq r
    rw [hs.length_eq r] at hsize
    exact Nat.le_trans (Nat.le_of_eq ((congrArg (fun o => (o r).length) hobjs).trans hsize.symm)) hbound

variable [DecidableEq D]

/-- **Each call on the memory is the call on the lists.** -/
theorem step_agrees (hr : Represents n h t) (hn : n < fuel) {op : Op D F} (hop : Fresh h op) :
    Option.Rel (Agrees (n + 1)) (step fuel h op) (t.step op) := by
  cases op with
  | «open» name file d b => exact open_agrees hr hn (hop b rfl)
  | close fd => exact close_agrees hr hn fd
  | write fd buf nbyte result =>
    exact transfer_agrees (fun device file => .write device file buf nbyte) hr hn fd buf result
  | read fd buf nbyte result =>
    exact transfer_agrees (fun device file => .read device file buf nbyte) hr hn fd buf result
  | create d b => exact create_agrees hr d (hop b rfl)
  | add d => exact add_agrees hr hn d
  | put p b => exact put_agrees hr p (hop b rfl)
  | del p => exact del_agrees hr hn p

end Steps

theorem init_represents : Represents 0 (Memory.init : Memory D F) Lists.init :=
  ⟨⟨_, [], init_shape, init_ledger, rfl⟩, rfl, rfl, rfl, fun r => by cases r <;> exact Nat.le_refl 0⟩

/-- **The pointers are the lists.** Whatever unused blocks `kmalloc` gives,
every sequence of calls on the memory, each loop given one more round than
there are calls, has the answers it has on the lists and follows a pointer
to nothing exactly when they follow `NULL`; at the end the three lists are
circular both ways, and the allocated blocks are their entries and one block
for each node that `cdev_del` unlinked. -/
theorem pointers_refine [DecidableEq D] {ops : List (Op D F)} {fuel : Nat} (hfuel : ops.length < fuel)
    (hops : Admits (step fuel) Fresh Memory.init ops) :
    Option.Rel (fun x y => x.2 = y.2 ∧ Represents ops.length x.1 y.1) (answers (step fuel) Memory.init ops)
      (answers Lists.step Lists.init ops) := by
  have hstep : ∀ {n} {h : Memory D F} {t : Lists D F} {op}, Represents n h t → n < ops.length → Fresh h op →
      Option.Rel (Agrees (n + 1)) (step fuel h op) (t.step op) :=
    fun hr hn hop => step_agrees hr (Nat.lt_trans hn hfuel) hop
  have hrel := answers_rel hstep init_represents (by omega) hops
  rwa [Nat.zero_add] at hrel

/-- A device is opened twice and closed once, the block of the closed file
is used again; of two `cdev`s put, one is deleted. -/
def blockReused : List (Op Unit Nat) :=
  let block (addr : Nat) : Block := ⟨addr, ⟨.poison1, .poison2⟩⟩
  [.create Cdev.com1 (block 1), .add Cdev.com1, .open (Cdev.path Cdev.com1.name) 100 () (block 2),
    .open (Cdev.path Cdev.com1.name) 200 () (block 3), .close 1,
    .open (Cdev.path Cdev.com1.name) 300 () (block 2), .write 1 8 3 3, .write 3 8 3 3, .put () (block 4),
    .put () (block 4), .del ()]

theorem pointers_refine_blockReused : ∃ h t os, answers (step 12) Memory.init blockReused = some (h, os) ∧
    answers Lists.step Lists.init blockReused = some (t, os) ∧ os.map Answer.ret = [0, 0, 1, 2, 0, 3, 0, 3, 0, 0, 0] ∧
    (t.files.list.map OpenedFile.fd, t.leaked) = ([3, 2], 1) ∧ Represents 11 h t := by
  have hlists : (answers Lists.step Lists.init blockReused).map
      (fun y => (y.2.map Answer.ret, y.1.files.list.map OpenedFile.fd, y.1.leaked)) =
        some ([0, 0, 1, 2, 0, 3, 0, 3, 0, 0, 0], [3, 2], 1) := by decide +kernel
  obtain ⟨⟨t, os⟩, ht, hview⟩ := Option.map_eq_some_iff.mp hlists
  have hrel : Option.Rel (fun x y => x.2 = y.2 ∧ Represents blockReused.length x.1 y.1)
      (answers (step 12) Memory.init blockReused) (answers Lists.step Lists.init blockReused) :=
    pointers_refine (by decide) (by decide +kernel)
  rw [ht] at hrel
  generalize answers (step 12) Memory.init blockReused = x at hrel ⊢
  cases hrel with
  | @some x _ hx =>
    obtain ⟨h, os'⟩ := x
    obtain ⟨rfl, hrep⟩ : os' = os ∧ Represents 11 h t := hx
    obtain ⟨hret, hfds⟩ := Prod.mk.inj hview
    exact ⟨h, t, os', rfl, ht, hret, hfds, hrep⟩

end Lmsel4.Pointers
