/-
The kernel's circular doubly linked lists (`linux/list.h`), as pointers.

Every `struct list_head` that is allocated has two pointers; what is not
allocated cannot be read or written. A head with its entries is `Circular`:
the `next` pointers lead from the head through the entries back to it, the
`prev` pointers through the entries in the other order. `list_add` puts an
entry first (`Circular.listAdd`), `list_del` takes any entry out
(`Circular.listDel`), both leave the pointers of other lists alone, and
`list_for_each_entry` visits the entries in order and ends
(`Circular.forEach_eq`).
-/
import Lmsel4.Path

namespace Lmsel4

/-- `struct list_head`. -/
@[ext] structure ListHead (α : Type*) where
  next : α
  prev : α
  deriving DecidableEq

/-- The list heads that are allocated. -/
abbrev Links (α : Type*) := α → Option (ListHead α)

namespace Links

variable {α : Type*}

def next (m : Links α) (p : α) : Option α := (m p).map ListHead.next

def prev (m : Links α) (p : α) : Option α := (m p).map ListHead.prev

theorem ext_at {m m' : Links α} {p : α} (hn : m'.next p = m.next p) (hp : m'.prev p = m.prev p) : m' p = m p := by
  cases hm : m p with
  | none => simpa [next, hm] using hn
  | some h =>
    obtain ⟨h', hm', hnext⟩ := Option.map_eq_some_iff.mp (hn.trans (congrArg (Option.map _) hm))
    have hprev : h'.prev = h.prev := by simpa [prev, hm, hm'] using hp
    rw [hm', ListHead.ext hnext hprev]

theorem isSome_next (m : Links α) (p : α) : (m.next p).isSome = (m p).isSome := Option.isSome_map ..

variable [DecidableEq α]

/-! ## The source's functions -/

/-- `p->next = v`. -/
def setNext (m : Links α) (p v : α) : Option (Links α) :=
  (m p).map fun h => Function.update m p (some { h with next := v })

/-- `p->prev = v`. -/
def setPrev (m : Links α) (p v : α) : Option (Links α) :=
  (m p).map fun h => Function.update m p (some { h with prev := v })

/-- `__list_add`. -/
def listAddBetween (m : Links α) (new prev next : α) : Option (Links α) := do
  let m ← m.setPrev next new
  let m ← m.setNext new next
  let m ← m.setPrev new prev
  m.setNext prev new

/-- `list_add`. -/
def listAdd (m : Links α) (new head : α) : Option (Links α) := do
  let next ← m.next head
  m.listAddBetween new head next

/-- `__list_del`. -/
def listDelBetween (m : Links α) (prev next : α) : Option (Links α) := do
  let m ← m.setPrev next prev
  m.setNext prev next

/-- `list_del`, with `LIST_POISON1` and `LIST_POISON2`. -/
def listDel (poison1 poison2 : α) (m : Links α) (entry : α) : Option (Links α) := do
  let prev ← m.prev entry
  let next ← m.next entry
  let m ← m.listDelBetween prev next
  let m ← m.setNext entry poison1
  m.setPrev entry poison2

/-! ## What one store changes -/

variable {m : Links α} {p v : α}

theorem setNext_eq (hp : (m p).isSome) : ∃ m', m.setNext p v = some m' ∧
    m'.next = Function.update m.next p (some v) ∧ m'.prev = m.prev := by
  obtain ⟨h, hm⟩ := Option.isSome_iff_exists.mp hp
  refine ⟨_, by rw [setNext, hm, Option.map_some], funext fun q => ?_, funext fun q => ?_⟩
  · by_cases hq : q = p
    · subst hq
      simp [next]
    · simp [next, hq]
  · by_cases hq : q = p
    · subst hq
      simp [prev, hm]
    · simp [prev, hq]

theorem setPrev_eq (hp : (m p).isSome) : ∃ m', m.setPrev p v = some m' ∧
    m'.next = m.next ∧ m'.prev = Function.update m.prev p (some v) := by
  obtain ⟨h, hm⟩ := Option.isSome_iff_exists.mp hp
  refine ⟨_, by rw [setPrev, hm, Option.map_some], funext fun q => ?_, funext fun q => ?_⟩
  · by_cases hq : q = p
    · subst hq
      simp [next, hm]
    · simp [next, hq]
  · by_cases hq : q = p
    · subst hq
      simp [prev]
    · simp [prev, hq]

/-- Stores to what is allocated leave it allocated. -/
theorem isSome_of_next {m' : Links α} {q : α} (hn : m'.next = Function.update m.next p (some v))
    (hq : (m q).isSome) : (m' q).isSome := by
  rw [← isSome_next] at hq ⊢
  rw [hn, Function.update_apply]
  split
  · rfl
  · exact hq

omit [DecidableEq α] in
theorem isSome_of_next_eq {m' : Links α} {q : α} (hn : m'.next = m.next) (hq : (m q).isSome) :
    (m' q).isSome := by
  rw [← isSome_next] at hq ⊢
  rw [hn]
  exact hq

theorem isSome_setNext {m' : Links α} (h : m.setNext p v = some m') (q : α) : (m' q).isSome = (m q).isSome := by
  obtain ⟨l, hl, rfl⟩ := Option.map_eq_some_iff.mp h
  by_cases hq : q = p
  · subst hq
    simp [hl]
  · rw [Function.update_of_ne hq]

theorem isSome_setPrev {m' : Links α} (h : m.setPrev p v = some m') (q : α) : (m' q).isSome = (m q).isSome := by
  obtain ⟨l, hl, rfl⟩ := Option.map_eq_some_iff.mp h
  by_cases hq : q = p
  · subst hq
    simp [hl]
  · rw [Function.update_of_ne hq]

/-- `list_add` allocates and frees nothing. -/
theorem isSome_listAdd {m' : Links α} {new head : α} (h : m.listAdd new head = some m') (q : α) :
    (m' q).isSome = (m q).isSome := by
  simp only [listAdd, listAddBetween, bind, Option.bind_eq_some_iff] at h
  obtain ⟨next, -, m₁, h₁, m₂, h₂, m₃, h₃, h₄⟩ := h
  rw [isSome_setNext h₄, isSome_setPrev h₃, isSome_setNext h₂, isSome_setPrev h₁]

/-- Nor does `list_del`. -/
theorem isSome_listDel {m' : Links α} {poison1 poison2 entry : α} (h : m.listDel poison1 poison2 entry = some m')
    (q : α) : (m' q).isSome = (m q).isSome := by
  simp only [listDel, listDelBetween, bind, Option.bind_eq_some_iff] at h
  obtain ⟨prev, -, next, -, m₂, ⟨m₁, h₁, h₂⟩, m₃, h₃, h₄⟩ := h
  rw [isSome_setPrev h₄, isSome_setNext h₃, isSome_setNext h₂, isSome_setPrev h₁]

theorem listAddBetween_eq {new prev next : α} (hnew : (m new).isSome) (hprev : (m prev).isSome)
    (hnext : (m next).isSome) : ∃ m', m.listAddBetween new prev next = some m' ∧
      m'.next = Function.update (Function.update m.next new (some next)) prev (some new) ∧
      m'.prev = Function.update (Function.update m.prev next (some new)) new (some prev) := by
  obtain ⟨m₁, h₁, hn₁, hp₁⟩ := setPrev_eq (v := new) hnext
  obtain ⟨m₂, h₂, hn₂, hp₂⟩ := setNext_eq (v := next) (isSome_of_next_eq hn₁ hnew)
  have hnew₂ := isSome_of_next hn₂ (isSome_of_next_eq hn₁ hnew)
  obtain ⟨m₃, h₃, hn₃, hp₃⟩ := setPrev_eq (v := prev) hnew₂
  have hprev₃ := isSome_of_next_eq hn₃ (isSome_of_next hn₂ (isSome_of_next_eq hn₁ hprev))
  obtain ⟨m₄, h₄, hn₄, hp₄⟩ := setNext_eq (v := new) hprev₃
  refine ⟨m₄, ?_, ?_, ?_⟩
  · simp [listAddBetween, h₁, h₂, h₃, h₄]
  · rw [hn₄, hn₃, hn₂, hn₁]
  · rw [hp₄, hp₃, hp₂, hp₁]

theorem listDelBetween_eq {prev next : α} (hprev : (m prev).isSome) (hnext : (m next).isSome) :
    ∃ m', m.listDelBetween prev next = some m' ∧ m'.next = Function.update m.next prev (some next) ∧
      m'.prev = Function.update m.prev next (some prev) := by
  obtain ⟨m₁, h₁, hn₁, hp₁⟩ := setPrev_eq (v := prev) hnext
  obtain ⟨m₂, h₂, hn₂, hp₂⟩ := setNext_eq (v := next) (isSome_of_next_eq hn₁ hprev)
  exact ⟨m₂, by simp [listDelBetween, h₁, h₂], by rw [hn₂, hn₁], by rw [hp₂, hp₁]⟩

end Links

/-! ## Lists -/

section Circular

variable {α : Type*}

/-- The list of `head` has the entries `xs`. -/
structure Circular (m : Links α) (head : α) (xs : List α) : Prop where
  forward : Path m.next head xs head
  backward : Path m.prev head xs.reverse head
  nodup : (head :: xs).Nodup

namespace Circular

variable {m m' : Links α} {head entry : α} {xs l r : List α}

theorem allocated (h : Circular m head xs) : ∀ p ∈ head :: xs, (m p).isSome := by
  intro p hp
  rw [← Links.isSome_next]
  exact h.forward.isSome p hp

/-- A list needs only its own pointers. -/
theorem frame (h : Circular m head xs) (hm : ∀ p ∈ head :: xs, m' p = m p) : Circular m' head xs := by
  refine ⟨h.forward.congr fun p hp => ?_, h.backward.congr fun p hp => ?_, h.nodup⟩
  · rw [Links.next, hm p hp, Links.next]
  · have hmem : p ∈ head :: xs := by simpa using hp
    rw [Links.prev, hm p hmem, Links.prev]

theorem nodup_reverse (h : Circular m head xs) : (head :: xs.reverse).Nodup := by
  rw [List.nodup_cons, List.mem_reverse, List.nodup_reverse]
  exact List.nodup_cons.mp h.nodup

theorem reverse_middle : (l ++ entry :: r).reverse = r.reverse ++ entry :: l.reverse := by simp

/-- The pointers of an entry lead to the entries around it, or the head. -/
theorem neighbours (h : Circular m head (l ++ entry :: r)) : ∃ p n, m.prev entry = some p ∧ m.next entry = some n ∧
    (∃ ms, head :: l = ms ++ [p]) ∧ ∃ ms, head :: r.reverse = ms ++ [n] := by
  obtain ⟨ms, p, hp⟩ : ∃ ms p, head :: l = ms ++ [p] :=
    ⟨_, _, (List.dropLast_append_getLast (List.cons_ne_nil head l)).symm⟩
  obtain ⟨n, ys, hn⟩ : ∃ n ys, r ++ [head] = n :: ys := List.exists_cons_of_ne_nil (by simp)
  refine ⟨p, n, ?_, (Path.append.mp h.forward).2.first hn, ⟨ms, hp⟩, ys.reverse, ?_⟩
  · have hback := h.backward
    rw [reverse_middle] at hback
    have hbehind : l.reverse ++ [head] = p :: ms.reverse := by
      rw [← List.reverse_cons, hp, List.reverse_append]
      rfl
    exact (Path.append.mp hback).2.first hbehind
  · rw [← List.reverse_cons, ← hn, List.reverse_append]
    rfl

variable [DecidableEq α]

/-- `LIST_HEAD_INIT`. -/
theorem init (hm : m head = some ⟨head, head⟩) : Circular m head [] := by
  refine ⟨?_, ?_, List.nodup_singleton head⟩
  · simp [Path, Links.next, hm]
  · simp [Path, Links.prev, hm]

/-- **`list_add` puts the entry first**, and changes no other pointers. -/
theorem listAdd {new : α} (h : Circular m head xs) (hnew : (m new).isSome) (hx : new ∉ head :: xs) :
    ∃ m', m.listAdd new head = some m' ∧ Circular m' head (new :: xs) ∧
      ∀ p, p ≠ new → p ∉ head :: xs → m' p = m p := by
  -- `q` is the entry that was first, or the head.
  obtain ⟨q, ys, hq⟩ : ∃ q ys, xs ++ [head] = q :: ys := List.exists_cons_of_ne_nil (by simp)
  have hnext : m.next head = some q := h.forward.first hq
  have hmem : q ∈ head :: xs := by
    have : q ∈ xs ++ [head] := hq ▸ List.mem_cons_self
    simpa [or_comm] using this
  have hqnew : new ≠ q := fun he => hx (he ▸ hmem)
  have halloc := h.allocated
  obtain ⟨m', hrun, hn, hp⟩ :=
    Links.listAddBetween_eq hnew (halloc head List.mem_cons_self) (halloc q hmem)
  have hhead : head ∉ xs := (List.nodup_cons.mp h.nodup).1
  have hrev : head :: xs.reverse = ys.reverse ++ [q] := by
    rw [← List.reverse_cons, ← hq, List.reverse_append]
    rfl
  refine ⟨m', by simp [Links.listAdd, hnext, hrun], ⟨?_, ?_, ?_⟩, ?_⟩
  · rw [hn, ← hnext]
    exact h.forward.front hx hhead
  · rw [hp, Function.update_comm hqnew.symm, List.reverse_cons]
    exact h.backward.back hrev h.nodup_reverse (by simpa using hx)
  · rw [List.nodup_cons]
    refine ⟨?_, List.nodup_cons.mpr ⟨fun he => hx (List.mem_cons_of_mem _ he), (List.nodup_cons.mp h.nodup).2⟩⟩
    intro he
    rcases List.mem_cons.mp he with he | he
    · exact hx (he ▸ List.mem_cons_self)
    · exact hhead he
  · intro p hpn hpx
    have hph : p ≠ head := fun he => hpx (he ▸ List.mem_cons_self)
    have hpq : p ≠ q := fun he => hpx (he ▸ hmem)
    refine Links.ext_at ?_ ?_
    · rw [hn, Function.update_of_ne hph, Function.update_of_ne hpn]
    · rw [hp, Function.update_of_ne hpn, Function.update_of_ne hpq]

/-- **`list_del` takes the entry out**, wherever it is in the list. -/
theorem listDel (h : Circular m head (l ++ entry :: r)) (poison1 poison2 : α) :
    ∃ m', m.listDel poison1 poison2 entry = some m' ∧ Circular m' head (l ++ r) ∧
      ∀ p, p ∉ head :: (l ++ entry :: r) → m' p = m p := by
  obtain ⟨p, n, hprev, hnext, ⟨ms, hp⟩, ms', hn⟩ := h.neighbours
  have hpmem : p ∈ head :: (l ++ r) := by
    rw [← List.cons_append, hp]
    simp
  have hnmem : n ∈ head :: (l ++ r) := by
    have : n ∈ head :: r.reverse := by rw [hn]; simp
    simp only [List.mem_cons, List.mem_reverse, List.mem_append] at this ⊢
    tauto
  have hin : ∀ q ∈ head :: (l ++ r), q ∈ head :: (l ++ entry :: r) := by
    intro q hq
    simp only [List.mem_cons, List.mem_append] at hq ⊢
    tauto
  obtain ⟨hentry, hnd⟩ : entry ∉ head :: (l ++ r) ∧ (head :: (l ++ r)).Nodup := by
    rw [← List.nodup_cons]
    exact ((List.perm_middle.cons head).trans (List.Perm.swap ..)).nodup h.nodup
  have halloc := h.allocated
  obtain ⟨m₁, h₁, hn₁, hp₁⟩ := Links.listDelBetween_eq (halloc p (hin p hpmem)) (halloc n (hin n hnmem))
  have hentry₁ : (m₁ entry).isSome := Links.isSome_of_next hn₁ (halloc entry (by simp))
  obtain ⟨m₂, h₂, hn₂, hp₂⟩ := Links.setNext_eq (v := poison1) hentry₁
  obtain ⟨m₃, h₃, hn₃, hp₃⟩ := Links.setPrev_eq (v := poison2) (Links.isSome_of_next hn₂ hentry₁)
  have hnext₃ : m₃.next = Function.update (Function.update m.next p (some n)) entry (some poison1) := by
    rw [hn₃, hn₂, hn₁]
  have hprev₃ : m₃.prev = Function.update (Function.update m.prev n (some p)) entry (some poison2) := by
    rw [hp₃, hp₂, hp₁]
  have hne : ∀ q ∈ head :: (l ++ r), q ≠ entry := fun q hq he => hentry (he ▸ hq)
  refine ⟨m₃, by simp [Links.listDel, hnext, hprev, h₁, h₂, h₃], ⟨?_, ?_, hnd⟩, fun q hq => ?_⟩
  · have hout := h.forward.unlink hp h.nodup
    rw [hnext] at hout
    rw [hnext₃]
    exact hout.congr fun q hq => Function.update_of_ne (hne q hq) ..
  · have hback := h.backward
    have hndrev := h.nodup_reverse
    rw [reverse_middle] at hback hndrev
    have hout := hback.unlink hn hndrev
    rw [hprev] at hout
    rw [hprev₃, List.reverse_append]
    exact hout.congr fun q hq => Function.update_of_ne (hne q (by simpa [or_comm] using hq)) ..
  · have hqp : q ≠ p := fun he => hq (he ▸ hin p hpmem)
    have hqn : q ≠ n := fun he => hq (he ▸ hin n hnmem)
    have hqe : q ≠ entry := fun he => hq (he ▸ by simp)
    refine Links.ext_at ?_ ?_
    · rw [hnext₃, Function.update_of_ne hqe, Function.update_of_ne hqp]
    · rw [hprev₃, Function.update_of_ne hqe, Function.update_of_ne hqn]

end Circular

end Circular

/-! ## Going through a list -/

section ForEach

variable {α ρ σ : Type*}

/-- What the body of a loop does at an entry: it leaves the loop with a
result, or goes on. -/
inductive Flow (ρ σ : Type*)
  | leave (r : ρ) (s : σ)
  | goOn (s : σ)

/-- The rounds of `list_for_each_entry`, at most `fuel` of them. -/
def forEachFrom [DecidableEq α] (links : σ → Links α) (head : α) (body : α → σ → Option (Flow ρ σ)) :
    Nat → α → σ → Option (Option ρ × σ)
  | 0, _, _ => none
  | fuel + 1, pos, s =>
    if pos = head then some (none, s)
    else (body pos s).bind fun
      | .leave r s => some (some r, s)
      | .goOn s => ((links s).next pos).bind fun next => forEachFrom links head body fuel next s

/-- `list_for_each_entry`: the result it was left with, if it was, and the
state after it. -/
def listForEachEntry [DecidableEq α] (links : σ → Links α) (head : α) (body : α → σ → Option (Flow ρ σ))
    (fuel : Nat) (s : σ) : Option (Option ρ × σ) :=
  ((links s).next head).bind fun first => forEachFrom links head body fuel first s

/-- The body at each of a list of entries, until it leaves. -/
def visit (body : α → σ → Option (Flow ρ σ)) : List α → σ → Option (Option ρ × σ)
  | [], s => some (none, s)
  | x :: xs, s => (body x s).bind fun
    | .leave r s => some (some r, s)
    | .goOn s => visit body xs s

variable [DecidableEq α] {links : σ → Links α} {head : α} {body : α → σ → Option (Flow ρ σ)}

/-- The rounds from a node on, with the entries `xs` still to come. -/
theorem forEachFrom_eq (hbody : ∀ x s s', body x s = some (.goOn s') → links s' = links s) {xs : List α} {a : α}
    {s : σ} (hpath : Path (links s).next a xs head) (hhead : head ∉ xs) {fuel : Nat} (hf : xs.length < fuel) :
    (((links s).next a).bind fun pos => forEachFrom links head body fuel pos s) = visit body xs s := by
  obtain ⟨fuel, rfl⟩ : ∃ n, fuel = n + 1 := Nat.exists_eq_succ_of_ne_zero (by omega)
  induction xs generalizing a s fuel with
  | nil =>
    rw [show (links s).next a = some head from hpath, Option.bind_some, forEachFrom, if_pos rfl, visit]
  | cons x xs ih =>
    have hx : x ≠ head := fun he => hhead (he ▸ List.mem_cons_self)
    rw [hpath.1, Option.bind_some, forEachFrom, if_neg hx, visit]
    cases hrun : body x s with
    | none => rfl
    | some flow =>
      cases flow with
      | leave r s' => rfl
      | goOn s' =>
        have hlinks := hbody x s s' hrun
        rw [List.length_cons] at hf
        obtain ⟨fuel, rfl⟩ : ∃ n, fuel = n + 1 := Nat.exists_eq_succ_of_ne_zero (by omega)
        exact ih (hlinks ▸ hpath.2) (fun hm => hhead (List.mem_cons_of_mem _ hm)) fuel (by omega)

/-- **The loop visits the entries in order and ends**, when its body leaves
the pointers alone until it leaves the loop. -/
theorem Circular.forEach_eq {xs : List α} {s : σ} (h : Circular (links s) head xs)
    (hbody : ∀ x s s', body x s = some (.goOn s') → links s' = links s) {fuel : Nat} (hf : xs.length < fuel) :
    listForEachEntry links head body fuel s = visit body xs s :=
  forEachFrom_eq hbody h.forward (List.nodup_cons.mp h.nodup).1 hf

end ForEach

end Lmsel4
