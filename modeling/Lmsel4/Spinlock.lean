/-
The spinlock of `lock.c` and `qspinlock.h`: one 32-bit word, taken by the
fast path and the slow path of `spin_lock` or by `spin_trylock`, released
by a store of 0 to its low byte.

The slow path exchanges the value the fast path saw for `_Q_LOCKED_VAL`.
The fast path leaves only a value other than 0, so the exchange finds what
it waits for exactly while somebody holds the lock: mutual exclusion holds
all along a run if and only if no slow-path exchange of the run goes
through (`mutualExclusion_iff`).
-/
import Lmsel4.System

namespace Lmsel4.Spinlock

/-- `_Q_LOCKED_VAL`, which is `1U << _Q_LOCKED_OFFSET`. -/
def qLockedVal : UInt32 := 1

/-- `atomic_cmpxchg` on a word holding `v`: the value it returns and the
word it leaves. -/
def atomicCmpxchg (v old new : UInt32) : UInt32 × UInt32 := (v, if v = old then new else v)

/-- `smp_store_release((u8 *)lock, 0)`: the low byte of the word. -/
def storeLowByte (v : UInt32) : UInt32 := v &&& 0xffffff00

/-- Where a thread is in the code of the lock. -/
inductive Pc
  /-- In none of the lock's functions, and not holding it. -/
  | idle
  /-- At the exchange of `queued_spin_lock`. -/
  | fastpath
  /-- At the exchange of `queued_spin_lock_slowpath(q, val)`. -/
  | slowpath (val : UInt32)
  /-- At the read of `_raw_spin_trylock`. -/
  | tryRead
  /-- At the exchange of `_raw_spin_trylock`. -/
  | tryCmpxchg
  /-- Back from `spin_lock`, or from `spin_trylock` with 1. -/
  | holds
  deriving DecidableEq

/-- The lock word, and where each thread is. -/
structure Lock (T : Type) where
  val : UInt32
  pc : T → Pc

/-- A thread calls one of the functions, makes the next atomic step of the
one it is in, or calls `spin_unlock`. -/
inductive Act (T : Type)
  | spinLock (t : T)
  | spinTrylock (t : T)
  | next (t : T)
  | spinUnlock (t : T)

section Model

variable {T : Type} [DecidableEq T]

def Lock.at (s : Lock T) (t : T) (p : Pc) : Lock T := { s with pc := Function.update s.pc t p }

/-- The atomic step of thread `t` inside one of the functions. -/
def next (s : Lock T) (t : T) : Option (Lock T) :=
  match s.pc t with
  | .fastpath =>
    let (val, v) := atomicCmpxchg s.val 0 qLockedVal
    some ({ s with val := v }.at t (if val = 0 then .holds else .slowpath val))
  | .slowpath val =>
    let (found, v) := atomicCmpxchg s.val val qLockedVal
    some ({ s with val := v }.at t (if found ≠ val then .slowpath val else .holds))
  | .tryRead => some (s.at t (if s.val = 0 then .tryCmpxchg else .idle))
  | .tryCmpxchg =>
    let (val, v) := atomicCmpxchg s.val 0 qLockedVal
    some ({ s with val := v }.at t (if val = 0 then .holds else .idle))
  | .idle | .holds => none

def step (s : Lock T) : Act T → Option (Lock T)
  | .spinLock t => if s.pc t = .idle then some (s.at t .fastpath) else none
  | .spinTrylock t => if s.pc t = .idle then some (s.at t .tryRead) else none
  | .next t => next s t
  -- Only the holder calls `spin_unlock`.
  | .spinUnlock t =>
    if s.pc t = .holds then some ({ s with val := storeLowByte s.val }.at t .idle) else none

/-- The threads `T` on one lock, unlocked at first. -/
def system (T : Type) [DecidableEq T] : System (Lock T) (Act T) where
  init := { val := 0, pc := fun _ => .idle }
  step := step

/-- No two threads have both taken the lock and not yet released it. -/
def MutualExclusion (s : Lock T) : Prop := ∀ t u, s.pc t = .holds → s.pc u = .holds → t = u

/-- The step is not a slow-path exchange that finds the value it waits for. -/
def SlowpathWaits (s : Lock T) : Act T → Prop
  | .next t => ∀ val, s.pc t = .slowpath val → s.val ≠ val
  | _ => True

instance (s : Lock T) : ∀ a, Decidable (SlowpathWaits s a)
  | .next t => decidable_of_iff (s.pc t ≠ .slowpath s.val)
      ⟨fun h _ hpc hval => h (hpc.trans (congrArg _ hval.symm)), fun h hpc => h _ hpc rfl⟩
  | .spinLock _ | .spinTrylock _ | .spinUnlock _ => .isTrue trivial

/-- The word is 0 or `_Q_LOCKED_VAL`, the first while nobody holds the lock;
whoever is on the slow path saw a word other than 0. -/
structure Inv (s : Lock T) : Prop where
  excl : Exclusive (s.val = 0) fun t => s.pc t = .holds
  word : s.val = 0 ∨ s.val = qLockedVal
  seen : ∀ t val, s.pc t = .slowpath val → val = qLockedVal

end Model

/-! ## What a step does to the invariant -/

section Steps

variable {T : Type} [DecidableEq T] {s s' : Lock T} {t : T} {p : Pc} {a : Act T}

theorem init_inv : Inv (system T).init where
  excl := ⟨(fun _ _ h => by cases h), by simp [system]⟩
  word := .inl rfl
  seen := fun _ _ h => by cases h

theorem Inv.seen_at (h : Inv s) (hp : ∀ val, p = .slowpath val → val = qLockedVal) (u : T) (val : UInt32)
    (hu : (s.at t p).pc u = .slowpath val) : val = qLockedVal := by
  simp only [Lock.at, Function.update_apply] at hu
  split at hu
  · exact hp val hu
  · exact h.seen u val hu

/-- A step that leaves the word alone, and the thread as much a holder as
it was. -/
theorem Inv.moves (h : Inv s) (hp : p = .holds ↔ s.pc t = .holds)
    (hs : ∀ val, p = .slowpath val → val = qLockedVal) : Inv (s.at t p) where
  excl := h.excl.stay (Q := (· = Pc.holds)) hp Iff.rfl
  word := h.word
  seen := h.seen_at hs

/-- Whoever finds the word 0 may take the lock. -/
theorem Inv.takes (h : Inv s) (h₀ : s.val = 0) :
    Inv ({ s with val := qLockedVal }.at t .holds) where
  excl := h.excl.enter (Q := (· = Pc.holds)) h₀ rfl (by simp [qLockedVal, Lock.at])
  word := .inr rfl
  seen := h.seen_at (by simp)

theorem Inv.releases (h : Inv s) (ht : s.pc t = .holds) :
    Inv ({ s with val := storeLowByte s.val }.at t .idle) := by
  have hval : storeLowByte s.val = 0 := by
    rcases h.word with hw | hw <;> rw [hw] <;> rfl
  exact ⟨h.excl.leave (Q := (· = Pc.holds)) ht (by simp) hval, .inl hval, h.seen_at (by simp)⟩

/-- The exchange of the fast path and of `spin_trylock`, which wait for 0:
the lock is taken, or the thread goes on to `p` with the word as it was. -/
theorem Inv.cmpxchg (h : Inv s) (hp : p ≠ .holds) (ht : s.pc t ≠ .holds)
    (hs : s.val ≠ 0 → ∀ val, p = .slowpath val → val = qLockedVal) :
    Inv ({ s with val := (atomicCmpxchg s.val 0 qLockedVal).2 }.at t
      (if (atomicCmpxchg s.val 0 qLockedVal).1 = 0 then .holds else p)) := by
  by_cases h₀ : s.val = 0
  · simp only [atomicCmpxchg, h₀, if_true]
    exact h.takes h₀
  · simp only [atomicCmpxchg, h₀, if_false]
    exact h.moves (by simp [hp, ht]) (hs h₀)

theorem next_inv (h : Inv s) (hok : SlowpathWaits s (.next t)) (hs : next s t = some s') : Inv s' := by
  unfold next at hs
  split at hs
  · next hpc =>
    cases hs
    refine h.cmpxchg (by simp) (by simp [hpc]) fun h₀ val hv => ?_
    cases hv
    exact h.word.resolve_left h₀
  · next val hpc =>
    have hne : s.val ≠ val := hok val hpc
    simp only [atomicCmpxchg, if_neg hne, if_pos hne, Option.some.injEq] at hs
    subst hs
    refine h.moves (by simp [hpc]) fun v hv => ?_
    cases hv
    exact h.seen t val hpc
  · next hpc =>
    cases hs
    refine h.moves ?_ ?_ <;> split <;> simp [hpc]
  · next hpc =>
    cases hs
    exact h.cmpxchg (by simp) (by simp [hpc]) (by simp)
  · cases hs
  · cases hs

theorem step_inv (h : Inv s) (hok : SlowpathWaits s a) (hs : (system T).step s a = some s') : Inv s' := by
  change step s a = some s' at hs
  cases a with
  | spinLock t =>
    simp only [step, Option.ite_none_right_eq_some, Option.some.injEq] at hs
    obtain ⟨hpc, rfl⟩ := hs
    exact h.moves (by simp [hpc]) (by simp)
  | spinTrylock t =>
    simp only [step, Option.ite_none_right_eq_some, Option.some.injEq] at hs
    obtain ⟨hpc, rfl⟩ := hs
    exact h.moves (by simp [hpc]) (by simp)
  | next t => exact next_inv h hok hs
  | spinUnlock t =>
    simp only [step, Option.ite_none_right_eq_some, Option.some.injEq] at hs
    obtain ⟨hpc, rfl⟩ := hs
    exact h.releases hpc

/-- A slow-path exchange that goes through takes a lock that is held. -/
theorem step_not_waits (h : Inv s) (hbad : ¬ SlowpathWaits s a) (hs : (system T).step s a = some s') :
    ¬ MutualExclusion s' := by
  cases a with
  | spinLock | spinTrylock | spinUnlock => exact absurd trivial hbad
  | next t =>
  simp only [SlowpathWaits, not_forall, ne_eq, Decidable.not_not] at hbad
  obtain ⟨val, hpc, hval⟩ := hbad
  change next s t = some s' at hs
  simp only [next, hpc, atomicCmpxchg, hval, ne_eq, not_true, if_false, if_true,
    Option.some.injEq] at hs
  subst hs
  -- The value waited for is not 0, so another thread holds the lock.
  have h₀ : s.val ≠ 0 := by rw [hval, h.seen t val hpc]; simp [qLockedVal]
  have hheld : ∃ u, s.pc u = .holds := by
    have := mt h.excl.free_iff.mpr h₀
    simpa using this
  obtain ⟨u, hu⟩ := hheld
  have hne : u ≠ t := by rintro rfl; rw [hpc] at hu; cases hu
  intro hm
  refine hne (hm u t ?_ ?_)
  · simpa [Lock.at, Function.update_of_ne hne] using hu
  · simp [Lock.at]

end Steps

/-! ## Runs -/

/-- **When the lock excludes.** A run keeps at most one thread in the lock
all along if and only if none of its slow-path exchanges finds the value
it waits for. -/
theorem mutualExclusion_iff {T : Type} [DecidableEq T] {as : List (Act T)} {s : Lock T}
    (h : (system T).exec (system T).init as = some s) :
    (system T).Along MutualExclusion (system T).init as ↔
      (system T).Steps SlowpathWaits (system T).init as :=
  System.along_iff_steps (I := Inv) (fun _ hI => hI.excl.one) (fun _ _ _ => step_inv)
    (fun _ _ _ => step_not_waits) init_inv h

/-- The lock is taken by one thread with `spin_lock`, then by another with
`spin_trylock`. -/
def uncontended : List (Act Bool) :=
  [.spinLock false, .next false, .spinUnlock false, .spinTrylock true, .next true, .next true]

theorem mutualExclusion_iff_uncontended : ∃ s, (system Bool).exec (system Bool).init uncontended = some s ∧
    s.pc true = .holds ∧ (system Bool).Steps SlowpathWaits (system Bool).init uncontended ∧
    (system Bool).Along MutualExclusion (system Bool).init uncontended :=
  have hwaits : (system Bool).Steps SlowpathWaits (system Bool).init uncontended := by decide
  ⟨_, rfl, rfl, hwaits, (mutualExclusion_iff rfl).mpr hwaits⟩

/-- Two threads call `spin_lock`, the second while the first holds the
lock; its slow path goes through at once. -/
theorem contended_spinLock : ∃ s, (system Bool).Reachable s ∧ ¬ MutualExclusion s := by
  refine ⟨_, System.Reachable.exec .init
    [.spinLock false, .next false, .spinLock true, .next true, .next true] rfl, fun h => ?_⟩
  cases h false true rfl rfl

end Lmsel4.Spinlock
