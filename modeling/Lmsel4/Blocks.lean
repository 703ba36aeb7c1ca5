/-
The blocks of memory that loading, opening, closing and unloading allocate
and free.

`alloc_file` allocates four blocks and `free_file` frees three: `open`
overwrites the only pointer to the block of `cdev_alloc`. And `cdev_del`
frees the `cdev` it is given, which is part of the driver's static data. So
the blocks in use are those of the driver and of the open files exactly as
long as nothing is closed and nothing is unloaded (`sound_iff`).
-/
import Lmsel4.System
import Lmsel4.LoadCycle
import Lmsel4.FileTable

namespace Lmsel4.Blocks

open Driver FileTable
open Cdev (CString)

/-! ## The heap -/

/-- What a pointer that is not `NULL` points to: a block, or the `cdev` of a
static `com_dev`. -/
inductive Addr
  | heap (n : Nat)
  | cdev (device : Com)
  deriving DecidableEq

def Addr.isHeap : Addr → Bool
  | .heap _ => true
  | .cdev _ => false

/-- The blocks allocated and not freed since, the pointers passed to `kfree`
with whether they were among them, and what the next allocations return. -/
structure Heap where
  live : List Addr
  frees : List (Addr × Bool)
  supply : List (Option Nat)

/-- `malloc`, `calloc`, `kmalloc` and `kcalloc`: a block that is not in use,
or `NULL`. -/
def Heap.malloc (h : Heap) : Option (Option Addr × Heap) :=
  match h.supply with
  | [] => none
  | none :: supply => some (none, { h with supply })
  | some n :: supply =>
    if .heap n ∈ h.live then none
    else some (some (.heap n), { h with live := .heap n :: h.live, supply })

def Heap.kfree (h : Heap) : Option Addr → Heap
  | none => h
  | some a => { h with live := h.live.erase a, frees := h.frees ++ [(a, decide (a ∈ h.live))] }

/-! ## `fd.c` -/

/-- The blocks of a `struct opened_file`: itself, its name and its `struct
file`. `lost` is the block of `cdev_alloc`, which nothing points to. -/
structure FileBlocks where
  self : Addr
  name : Addr
  file : Option Addr
  lost : Addr

def FileBlocks.all (b : FileBlocks) : List Addr := b.self :: b.lost :: b.name :: b.file.toList

/-- `alloc_file`. No result is a `NULL` pointer followed, by it or by
`open`. -/
def allocFile (h : Heap) : Option (FileBlocks × Heap) :=
  h.malloc.bind fun (f, h) => h.malloc.bind fun (d, h) =>
    match f, d with
    | some self, some lost =>
      h.malloc.bind fun (name, h) => h.malloc.bind fun (file, h) =>
        name.map fun name => ({ self, name, file, lost }, h)
    | _, _ => none

/-- `free_file`. -/
def freeFile (h : Heap) (b : FileBlocks) : Heap := ((h.kfree b.file).kfree (some b.name)).kfree (some b.self)

/-- The heap with the open files and the registry. `classBlock` is where
`uart16550_class` points, `driver` are the blocks in use that loading
allocated. -/
structure World where
  heap : Heap
  files : Files Com FileBlocks
  classBlock : Option Addr
  driver : List Addr

def World.open (w : World) (name : CString) : Option World :=
  (allocFile w.heap).bind fun (b, heap) => (fdOpen w.files name b).map fun r => { w with heap, files := r.1 }

def World.close (w : World) (fd : Int32) : World :=
  { w with
    files := (fdClose w.files fd).1
    heap := ((fileByFd w.files.list fd).map fun f => freeFile w.heap f.file).getD w.heap }

/-! ## The kernel calls of liblinux -/

/-- An allocation for the driver. -/
def World.take (w : World) : Option (Option Addr × World) :=
  w.heap.malloc.map fun (p, heap) => (p, { w with heap, driver := p.toList ++ w.driver })

/-- An allocation that is written to. -/
def World.need (w : World) : Option World := w.take.bind fun (p, w) => if p.isSome then some w else none

/-- A `kfree` by the driver. -/
def World.give (w : World) (p : Option Addr) : World :=
  { w with heap := w.heap.kfree p, driver := p.elim w.driver w.driver.erase }

def World.classCreate (w : World) : Option (Ptr × World) :=
  w.take.bind fun (p, w) =>
    match p with
    | none => some (.null, { w with classBlock := none })
    | some a => w.need.map fun w => (.obj, { w with classBlock := some a })

def World.deviceCreate (w : World) (dev : UInt32) (name : List Char) : Option (Ptr × World) :=
  w.need.bind fun w => w.need.bind fun w => w.take.map fun (new, w) =>
    if new.isSome then
      (.obj, { w with files := { w.files with classes := Cdev.deviceCreate dev name w.files.classes } })
    else (.null, w)

def World.cdevAdd (w : World) (cdev : Com) (dev : UInt32) : Int32 × World :=
  let (rc, classes) := Cdev.cdevAdd cdev dev w.files.classes
  (rc, { w with files := { w.files with classes } })

/-- A call on a world, if the run has not ended. -/
def attempt {α : Type} (a : α) (f : World → Option (α × World)) (w : Option World) : α × Option World :=
  match w.bind f with
  | some (a, w) => (a, some w)
  | none => (a, none)

/-- A call that logs the name of the class. -/
def named (cls : Ptr) (w : Option World) : Option World := if cls = .obj then w else none

/-- The kernel calls of liblinux, with the blocks they allocate and free. -/
@[simps] def liblinux : Kernel (Option World) where
  classCreate _ := attempt .null World.classCreate
  classUnregister cls := named cls
  classDestroy _ := Option.map fun w => w.give w.classBlock
  registerChrdevRegion _ _ w := (0, w)
  unregisterChrdevRegion _ _ := id
  requestIrq _ _ := attempt 0 fun w => w.need.map fun w => (0, w)
  freeIrq _ _ := id
  deviceCreate cls dev name w := attempt .null (fun w => w.deviceCreate dev name) (named cls w)
  deviceDestroy cls _ := named cls
  hwSetupDevice _ := attempt 0 fun w => w.need.bind fun w => w.need.map fun w => (0, w)
  hwCleanupDevice _ := id
  cdevAdd cdev dev _ := attempt 0 fun w => some (w.cdevAdd cdev dev)
  cdevDel cdev := Option.map fun w => w.give (some (.cdev cdev))

/-! ## Runs -/

/-- `loaded` are the parameters a driver that is loaded was loaded with. -/
structure State where
  world : World
  uart16550Class : Ptr
  info : Com → ComInfo
  loaded : Option (Int32 × Int32)

/-- `supply` is what the allocations of the call return. -/
inductive Act
  | load (behavior major : Int32) (supply : List (Option Nat))
  | unload
  | open (name : CString) (supply : List (Option Nat))
  | close (fd : Int32)

def World.supplied (w : World) (supply : List (Option Nat)) : World := { w with heap := { w.heap with supply } }

def State.driver (s : State) (w : World) : Loaded (Option World) :=
  { uart16550Class := s.uart16550Class, info := s.info, kernel := some w }

def step (s : State) : Act → Option State
  | .load behavior major supply =>
    if s.loaded = none then
      let (rc, d) := uart16550Init liblinux behavior major (s.driver (s.world.supplied supply))
      d.kernel.map fun world =>
        { world, uart16550Class := d.uart16550Class, info := d.info
          loaded := if rc = 0 then some (behavior, major) else none }
    else none
  | .unload =>
    match s.loaded with
    | some (behavior, major) =>
      if s.world.files.list.isEmpty then
        let d := uart16550Cleanup liblinux behavior major (s.driver s.world)
        d.kernel.map fun world => { s with world, loaded := none }
      else none
    | none => none
  | .open name supply => ((s.world.supplied supply).open name).map fun world => { s with world }
  | .close fd => some { s with world := s.world.close fd }

def system : System State Act where
  init :=
    { world :=
        { heap := { live := [], frees := [], supply := [] }, files := Files.init [], classBlock := none, driver := [] }
      uart16550Class := .null
      info := fun _ => { minor := 0, irqNo := 0, basePort := 0 }
      loaded := none }
  step := step

/-- The blocks that the opens of the open files allocated. -/
def World.fileBlocks (w : World) : List Addr := w.files.list.flatMap fun f => f.file.all

/-- What is freed is in use, and what is in use are the blocks of the driver
and of the open files. -/
def Sound (w : World) : Prop := (∀ e ∈ w.heap.frees, e.2 = true) ∧ w.heap.live.Perm (w.driver ++ w.fileBlocks)

/-- Nothing is unloaded, and a descriptor that is closed was not live. -/
def Keeps (s : State) : Act → Prop
  | .unload => False
  | .close fd => fileByFd s.world.files.list fd = none
  | _ => True

instance (s : State) : ∀ a, Decidable (Keeps s a)
  | .unload => .isFalse id
  | .close _ => inferInstanceAs (Decidable (_ = none))
  | .load _ _ _ | .open _ _ => .isTrue trivial

/-! ## Allocations -/

theorem malloc_live {h h' : Heap} {p : Option Addr} (hm : h.malloc = some (p, h')) :
    h'.live = p.toList ++ h.live ∧ h'.frees = h.frees ∧ ∀ a ∈ p, a.isHeap = true := by
  unfold Heap.malloc at hm
  split at hm
  · cases hm
  · cases hm
    exact ⟨rfl, rfl, fun _ ha => by cases ha⟩
  · split at hm <;> cases hm
    exact ⟨rfl, rfl, fun _ ha => by cases ha; rfl⟩

/-- `alloc_file` adds the blocks of the file. -/
theorem allocFile_live {h h' : Heap} {b : FileBlocks} (hb : allocFile h = some (b, h')) :
    h'.live.Perm (b.all ++ h.live) ∧ h'.frees = h.frees ∧ ∀ a ∈ b.all, a.isHeap = true := by
  simp only [allocFile, Option.bind_eq_some_iff, Prod.exists] at hb
  obtain ⟨f, h₁, hf, d, h₂, hd, hb⟩ := hb
  split at hb
  · next self lost =>
    simp only [Option.bind_eq_some_iff, Prod.exists, Option.map_eq_some_iff] at hb
    obtain ⟨_, h₃, hname, file, h₄, hfile, name, rfl, hb⟩ := hb
    cases hb
    obtain ⟨hlf, hff, hhf⟩ := malloc_live hf
    obtain ⟨hld, hfd, hhd⟩ := malloc_live hd
    obtain ⟨hln, hfn, hhn⟩ := malloc_live hname
    obtain ⟨hl, hfr, hh⟩ := malloc_live hfile
    refine ⟨?_, by rw [hfr, hfn, hfd, hff], ?_⟩
    · rw [hl, hln, hld, hlf, List.perm_iff_count]
      intro a
      simp only [FileBlocks.all, Option.toList_some, List.count_append, List.count_cons, List.count_nil]
      omega
    · simp only [FileBlocks.all, List.forall_mem_cons, Option.mem_toList]
      exact ⟨hhf _ rfl, hhd _ rfl, hhn _ rfl, hh⟩
  · cases hb

/-! ## What a load keeps -/

/-- Sound, with nothing but blocks of the heap in use. -/
structure Inv (w : World) : Prop where
  sound : Sound w
  isHeap : ∀ a ∈ w.heap.live, a.isHeap = true

/-- An invariant of a run that has not ended. -/
def InvIfAny (w : Option World) : Prop := ∀ w' ∈ w, Inv w'

section

variable {w w' : World}

/-- Only the registry or `classBlock` changes. -/
theorem Inv.congr (h : Inv w) (hheap : w'.heap.live = w.heap.live) (hfrees : w'.heap.frees = w.heap.frees)
    (hdriver : w'.driver = w.driver) (hlist : w'.files.list = w.files.list) : Inv w' := by
  obtain ⟨⟨hfreed, hperm⟩, hheaps⟩ := h
  refine ⟨⟨by rw [hfrees]; exact hfreed, ?_⟩, by rw [hheap]; exact hheaps⟩
  rw [hheap, hdriver, World.fileBlocks, hlist]
  exact hperm

theorem Inv.take (h : Inv w) {p : Option Addr} (ht : w.take = some (p, w')) : Inv w' := by
  obtain ⟨⟨q, heap⟩, hm, hw⟩ := Option.map_eq_some_iff.mp ht
  cases hw
  obtain ⟨hlive, hfrees, hheap⟩ := malloc_live hm
  refine ⟨⟨by rw [hfrees]; exact h.sound.1, ?_⟩, ?_⟩
  · rw [hlive, List.append_assoc]
    exact h.sound.2.append_left _
  · intro a ha
    rw [hlive, List.mem_append, Option.mem_toList] at ha
    exact ha.elim (hheap a) (h.isHeap a)

theorem Inv.need (h : Inv w) (hn : w.need = some w') : Inv w' := by
  obtain ⟨⟨p, w₁⟩, ht, hp⟩ := Option.bind_eq_some_iff.mp hn
  cases p <;> cases hp
  exact h.take ht

theorem Inv.classCreate (h : Inv w) {p : Ptr} (hc : w.classCreate = some (p, w')) : Inv w' := by
  obtain ⟨⟨q, w₁⟩, ht, hc⟩ := Option.bind_eq_some_iff.mp hc
  have h₁ := h.take ht
  cases q with
  | none =>
    cases hc
    exact h₁.congr rfl rfl rfl rfl
  | some a =>
    obtain ⟨w₂, hn, hw⟩ := Option.map_eq_some_iff.mp hc
    cases hw
    exact (h₁.need hn).congr rfl rfl rfl rfl

theorem Inv.deviceCreate (h : Inv w) {p : Ptr} {dev : UInt32} {name : List Char}
    (hc : w.deviceCreate dev name = some (p, w')) : Inv w' := by
  obtain ⟨w₁, hn₁, hc⟩ := Option.bind_eq_some_iff.mp hc
  obtain ⟨w₂, hn₂, hc⟩ := Option.bind_eq_some_iff.mp hc
  obtain ⟨⟨new, w₃⟩, ht, hw⟩ := Option.map_eq_some_iff.mp hc
  have h₃ := ((h.need hn₁).need hn₂).take ht
  cases new <;> cases hw
  · exact h₃
  · exact h₃.congr rfl rfl rfl rfl

theorem attempt_keeps {α : Type} {a : α} {f : World → Option (α × World)}
    (hf : ∀ {w b w'}, Inv w → f w = some (b, w') → Inv w') {k : Option World} (h : InvIfAny k) :
    InvIfAny (attempt a f k).2 := by
  intro w' hw'
  unfold attempt at hw'
  split at hw'
  · next b w₁ hbind =>
    cases hw'
    obtain ⟨w, hw, hfw⟩ := Option.bind_eq_some_iff.mp hbind
    exact hf (h w hw) hfw
  · cases hw'

theorem named_keeps {cls : Ptr} {k : Option World} (h : InvIfAny k) : InvIfAny (named cls k) := by
  unfold named
  split
  · exact h
  · exact fun _ hw => by cases hw

theorem liblinux_keeps : liblinux.Keeps InvIfAny where
  classCreate := attempt_keeps fun h hf => h.classCreate hf
  registerChrdevRegion h := h
  unregisterChrdevRegion h := h
  requestIrq := attempt_keeps fun h hf => by
    obtain ⟨w₁, hn, hw⟩ := Option.map_eq_some_iff.mp hf
    cases hw
    exact h.need hn
  freeIrq h := h
  deviceCreate h := attempt_keeps (fun h hf => h.deviceCreate hf) (named_keeps h)
  deviceDestroy := named_keeps
  hwSetupDevice := attempt_keeps fun h hf => by
    obtain ⟨w₁, hn₁, hf⟩ := Option.bind_eq_some_iff.mp hf
    obtain ⟨w₂, hn₂, hw⟩ := Option.map_eq_some_iff.mp hf
    cases hw
    exact (h.need hn₁).need hn₂
  hwCleanupDevice h := h
  cdevAdd := attempt_keeps fun h hf => by
    cases hf
    exact h.congr rfl rfl rfl rfl

theorem Inv.supplied (h : Inv w) (supply : List (Option Nat)) : Inv (w.supplied supply) := h.congr rfl rfl rfl rfl

/-! ## Opening and closing -/

theorem Inv.open (h : Inv w) {name : CString} (ho : w.open name = some w') : Inv w' := by
  obtain ⟨⟨b, heap⟩, hb, ho⟩ := Option.bind_eq_some_iff.mp ho
  obtain ⟨⟨files, answer⟩, hopen, hw⟩ := Option.map_eq_some_iff.mp ho
  cases hw
  obtain ⟨hlive, hfrees, hheap⟩ := allocFile_live hb
  have hlist : (files.list.flatMap fun f => f.file.all) = b.all ++ w.fileBlocks := by
    simp only [fdOpen] at hopen
    split at hopen
    · cases hopen
    · split at hopen <;> cases hopen
      rfl
  refine ⟨⟨by rw [hfrees]; exact h.sound.1, ?_⟩, ?_⟩
  · rw [World.fileBlocks, hlist]
    refine hlive.trans ((h.sound.2.append_left b.all).trans ?_)
    rw [← List.append_assoc, ← List.append_assoc]
    exact List.perm_append_comm.append_right _
  · intro a ha
    exact (List.mem_append.mp (hlive.mem_iff.mp ha)).elim (hheap a) (h.isHeap a)

theorem length_kfree (h : Heap) (p : Option Addr) : h.live.length ≤ (h.kfree p).live.length + p.toList.length := by
  cases p with
  | none => exact Nat.le_refl _
  | some a =>
    simp only [Heap.kfree, List.length_erase, Option.toList_some, List.length_singleton]
    split <;> omega

/-- `free_file` frees one block less than `alloc_file` allocated. -/
theorem length_freeFile (h : Heap) (b : FileBlocks) :
    h.live.length + 1 ≤ (freeFile h b).live.length + b.all.length := by
  have hfile := length_kfree h b.file
  have hname := length_kfree (h.kfree b.file) (some b.name)
  have hself := length_kfree ((h.kfree b.file).kfree (some b.name)) (some b.self)
  simp only [Option.toList_some, List.length_singleton] at hname hself
  simp only [freeFile, FileBlocks.all, List.length_cons]
  omega

theorem length_eraseP_blocks {list : List (OpenedFile Com FileBlocks)} {fd : Int32} {cur : OpenedFile Com FileBlocks}
    (h : fileByFd list fd = some cur) : (list.flatMap fun f => f.file.all).length =
      ((list.eraseP fun f => f.fd == cur.fd).flatMap fun f => f.file.all).length + cur.file.all.length := by
  induction list with
  | nil => cases h
  | cons f list ih =>
    rw [fileByFd_cons] at h
    split at h
    · cases h
      rw [List.eraseP_cons_of_pos (by simp), List.flatMap_cons, List.length_append]
      omega
    · next hf =>
      have hcur : cur.fd = fd := by simpa using List.find?_some h
      rw [List.eraseP_cons_of_neg (by simpa [hcur] using hf), List.flatMap_cons, List.flatMap_cons,
        List.length_append, List.length_append, ih h]
      omega

/-- A live descriptor that is closed leaves a block behind. -/
theorem close_not_sound (h : Sound w) {fd : Int32} (hfd : fileByFd w.files.list fd ≠ none) :
    ¬ Sound (w.close fd) := by
  intro hclosed
  obtain ⟨cur, hcur⟩ := Option.ne_none_iff_exists'.mp hfd
  have hbefore := h.2.length_eq
  have hafter := hclosed.2.length_eq
  have hfree := length_freeFile w.heap cur.file
  have hblocks := length_eraseP_blocks hcur
  simp only [World.close, World.fileBlocks, hcur, fdClose, Option.map_some, Option.getD_some,
    List.length_append] at hbefore hafter
  omega

theorem Inv.close (h : Inv w) {fd : Int32} (hfd : fileByFd w.files.list fd = none) : Inv (w.close fd) := by
  refine h.congr ?_ ?_ rfl ?_ <;> simp [World.close, fdClose, hfd]

/-! ## Unloading -/

/-- A `cdev` of the driver was freed. -/
def FreedStatic (w : World) : Prop := ∃ c, (.cdev c, false) ∈ w.heap.frees

theorem FreedStatic.not_sound (h : FreedStatic w) : ¬ Sound w := by
  obtain ⟨c, hc⟩ := h
  intro hsound
  cases hsound.1 _ hc

theorem FreedStatic.give (h : FreedStatic w) (p : Option Addr) : FreedStatic (w.give p) := by
  obtain ⟨c, hc⟩ := h
  cases p with
  | none => exact ⟨c, hc⟩
  | some a => exact ⟨c, List.mem_append_left _ hc⟩

/-- A `cdev` is no block, so it is not in use when it is freed. -/
theorem give_cdev (h : ∀ a ∈ w.heap.live, a.isHeap = true) (c : Com) : FreedStatic (w.give (some (.cdev c))) := by
  have hlive : .cdev c ∉ w.heap.live := fun hm => by cases h _ hm
  exact ⟨c, List.mem_append_right _ (by simp [hlive])⟩

theorem mem_named_map {cls : Ptr} {k : Option World} {f : World → World} (h : w' ∈ (named cls k).map f) :
    ∃ w ∈ k, w' = f w := by
  obtain ⟨w, hw, rfl⟩ := Option.map_eq_some_iff.mp h
  unfold named at hw
  split at hw
  · exact ⟨w, hw, rfl⟩
  · cases hw

theorem cleanupDevice_first {major : Int32} {d : Loaded (Option World)} {c : Com}
    (h : ∀ w ∈ d.kernel, ∀ a ∈ w.heap.live, a.isHeap = true) :
    ∀ w' ∈ (uart16550CleanupDevice liblinux major d c).kernel, FreedStatic w' := by
  intro w' hw'
  obtain ⟨w, hw, rfl⟩ := mem_named_map hw'
  exact give_cdev (h w hw) c

theorem cleanupDevice_next {major : Int32} {d : Loaded (Option World)} {c : Com}
    (h : ∀ w ∈ d.kernel, FreedStatic w) :
    ∀ w' ∈ (uart16550CleanupDevice liblinux major d c).kernel, FreedStatic w' := by
  intro w' hw'
  obtain ⟨w, hw, rfl⟩ := mem_named_map hw'
  exact (h w hw).give _

theorem cleanup_freedStatic {behavior major : Int32} {d : Loaded (Option World)} (ha : accepts behavior major = true)
    (h : ∀ w ∈ d.kernel, ∀ a ∈ w.heap.live, a.isHeap = true)
    (hw' : w' ∈ (uart16550Cleanup liblinux behavior major d).kernel) : FreedStatic w' := by
  have hend {d' : Loaded (Option World)} (hd' : ∀ w ∈ d'.kernel, FreedStatic w) {w' : World}
      (hw' : w' ∈ (named d'.uart16550Class d'.kernel).map fun w => w.give w.classBlock) : FreedStatic w' := by
    obtain ⟨w, hw, rfl⟩ := mem_named_map hw'
    exact (hd' w hw).give _
  simp only [accepts, Bool.and_eq_true, Bool.or_eq_true, beq_iff_eq] at ha
  rcases ha.1 with (rfl | rfl) | rfl
  · exact hend (cleanupDevice_next (cleanupDevice_first h)) hw'
  · exact hend (cleanupDevice_first h) hw'
  · exact hend (cleanupDevice_first h) hw'

end

/-! ## Runs, exactly -/

/-- The driver that is loaded was loaded with parameters it accepts. -/
structure RunInv (s : State) : Prop where
  world : Inv s.world
  accepted : ∀ p ∈ s.loaded, accepts p.1 p.2 = true

section

variable {s s' : State} {a : Act}

theorem step_runInv (h : RunInv s) (hok : Keeps s a) (hs : step s a = some s') : RunInv s' := by
  cases a with
  | load behavior major supply =>
    simp only [step] at hs
    split at hs
    · obtain ⟨w, hw, rfl⟩ := Option.map_eq_some_iff.mp hs
      refine ⟨?_, fun p hp => ?_⟩
      · refine liblinux_keeps.init ?_ w hw
        rintro w₀ ⟨⟩
        exact h.world.supplied supply
      · simp only at hp
        split at hp <;> cases hp
        next hrc => exact accepts_of_init hrc
    · cases hs
  | unload => exact hok.elim
  | «open» name supply =>
    obtain ⟨w, hw, rfl⟩ := Option.map_eq_some_iff.mp hs
    exact ⟨(h.world.supplied supply).open hw, h.accepted⟩
  | close fd =>
    cases hs
    exact ⟨h.world.close hok, h.accepted⟩

theorem step_not_sound (h : RunInv s) (hbad : ¬ Keeps s a) (hs : step s a = some s') : ¬ Sound s'.world := by
  cases a with
  | load | «open» => exact absurd trivial hbad
  | unload =>
    simp only [step] at hs
    split at hs
    · next behavior major hloaded =>
      split at hs
      · obtain ⟨w, hw, rfl⟩ := Option.map_eq_some_iff.mp hs
        refine (cleanup_freedStatic (h.accepted _ hloaded) ?_ hw).not_sound
        rintro w₀ ⟨⟩
        exact h.world.isHeap
      · cases hs
    · cases hs
  | close fd =>
    cases hs
    exact close_not_sound h.world.sound hbad

/-- **The ledger is kept exactly while nothing is closed or unloaded.** In
any run, every free is of a block in use and the blocks in use are those of
the driver and of the open files, throughout, if and only if no live
descriptor is closed and the driver is not unloaded. -/
theorem sound_iff {as : List Act} (h : system.exec system.init as = some s) :
    system.Along (fun s => Sound s.world) system.init as ↔ system.Steps Keeps system.init as := by
  refine System.along_iff_steps (I := RunInv) (fun s h => h.world.sound) (fun _ _ _ => step_runInv)
    (fun _ _ _ => step_not_sound) ⟨⟨⟨?_, List.Perm.refl _⟩, ?_⟩, ?_⟩ h
  all_goals exact fun _ hm => nomatch hm

end

/-- COM1 is loaded at the blocks 1 to 8. -/
def loadCom1 : Act := .load 1 42 ((List.range' 1 8).map some)

/-- Two files are opened, and a descriptor that is not live is closed. -/
def openTwo : List Act :=
  [loadCom1, .open (Cdev.path Cdev.com1.name) [some 9, some 10, some 11, some 12], .close 7,
    .open (Cdev.path Cdev.com1.name) [some 13, some 14, some 15, some 16]]

theorem sound_openTwo : (∃ s, system.exec system.init openTwo = some s ∧ s.world.heap.live.length = 16) ∧
    system.Along (fun s => Sound s.world) system.init openTwo :=
  ⟨⟨_, rfl, rfl⟩, (sound_iff (s := _) rfl).mpr (by decide)⟩

/-- The block of `cdev_alloc` outlives its file, and the driver's static
`cdev` is freed. -/
theorem not_sound :
    (∃ s, system.exec system.init [loadCom1, .open (Cdev.path Cdev.com1.name) [some 9, some 10, some 11, some 12],
      .close 1] = some s ∧ s.world.files.list.length = 0 ∧ .heap 10 ∈ s.world.heap.live ∧ ¬ Sound s.world) ∧
    ∃ s, system.exec system.init [loadCom1, .unload] = some s ∧
      s.world.heap.frees = [(.cdev .com1, false), (.heap 1, true)] ∧ ¬ Sound s.world :=
  ⟨⟨_, rfl, rfl, by decide, fun h => by have := h.2.length_eq; cases this⟩,
    ⟨_, rfl, rfl, fun h => by have := h.1 (.cdev .com1, false) (by decide); cases this⟩⟩

end Lmsel4.Blocks
