/-
The lock of a wait queue (`wait.c`, `wait.h`), held against what a correct
spinlock demands of its callers.

`prepare_to_wait_event` takes `q->lock` and `finish_wait` gives it back, but
`__init_waitqueue_head` has taken it before, and never gives it back: no run
keeps the discipline (`not_disciplined`), and with a lock that excludes, no
`wait_event` that has to wait ever comes back (`held_for_ever`). The loop of
`___wait_event` takes the lock in each turn, so even on a queue that was
left unlocked exactly the waits of one turn keep it (`disciplined_iff`).
-/
import Lmsel4.System
import Mathlib.Logic.Function.Basic

namespace Lmsel4.WaitQueue

/-- `wait_queue_head_t`: who holds `lock`, the flag `locked`, and whether
`spin_lock` was called by the holder, `spin_unlock` by another. -/
structure WaitQueueHead (T : Type) where
  holder : Option T
  locked : Bool
  relocked : Bool
  foreign : Bool

section Calls

variable {T : Type} [DecidableEq T]

/-- `spin_lock_init(&q->lock)`. -/
def spinLockInit : WaitQueueHead T := { holder := none, locked := false, relocked := false, foreign := false }

/-- `spin_lock(&q->lock)` by `t`: the queue, and whether the call comes
back. A lock that is held is waited for; or, if `back`, `spin_lock` comes
back at once, as that of `lock.c` does. -/
def spinLock (back : Bool) (t : T) (q : WaitQueueHead T) : Option (WaitQueueHead T × Bool) :=
  match q.holder with
  | none => some ({ q with holder := some t }, true)
  | some u =>
    if u = t then some ({ q with relocked := true }, back)
    else if back then some ({ q with holder := some t }, true)
    else none

/-- `spin_unlock(&q->lock)` by `t`. -/
def spinUnlock (t : T) (q : WaitQueueHead T) : WaitQueueHead T :=
  { q with holder := none, foreign := q.foreign || q.holder != some t }

/-- `__init_waitqueue_head`, called by `t`. -/
def initWaitqueueHead (back : Bool) (t : T) : WaitQueueHead T :=
  match spinLock back t spinLockInit with
  | some (q, _) => q
  | none => spinLockInit

/-- `__wake_up`. -/
def wakeUp (q : WaitQueueHead T) : WaitQueueHead T := { q with locked := false }

end Calls

/-- In `wait_event`: at its first test of the condition, at
`prepare_to_wait_event` (`again` in a later turn of the loop), at the test
of the loop, at `finish_wait`; `spinning` for ever in `spin_lock`. -/
inductive Pc
  | idle
  | test
  | prepare (again : Bool)
  | loopTest
  | finish
  | spinning
  deriving DecidableEq

/-- Between its `prepare_to_wait_event` and its `finish_wait`. -/
def Pc.between : Pc → Bool
  | .prepare again => again
  | .loopTest | .finish => true
  | .idle | .test | .spinning => false

structure State (T : Type) where
  q : WaitQueueHead T
  pc : T → Pc

/-- A thread calls `wait_event` or goes on in it, where `condition` is what
a test of it finds; or somebody calls `wake_up`. -/
inductive Act (T : Type)
  | waitEvent (t : T)
  | next (t : T) (condition : Bool)
  | wakeUp

section Model

variable {T : Type} [DecidableEq T]

def State.at (s : State T) (t : T) (pc : Pc) : State T := { s with pc := Function.update s.pc t pc }

def next (back : Bool) (s : State T) (t : T) (condition : Bool) : Option (State T) :=
  match s.pc t with
  | .idle | .spinning => none
  | .test => some (s.at t (if condition then .idle else .prepare false))
  | .prepare _ => (spinLock back t s.q).map fun (q, returns) =>
      { s with q }.at t (if returns then .loopTest else .spinning)
  -- `prepare_to_wait_event` returns 0, so the loop is left here only, and
  -- `schedule` does nothing.
  | .loopTest => some (s.at t (if condition then .finish else .prepare true))
  | .finish => some ({ s with q := spinUnlock t s.q }.at t .idle)

def step (back : Bool) (s : State T) : Act T → Option (State T)
  | .waitEvent t => if s.pc t = .idle then some (s.at t .test) else none
  | .next t condition => next back s t condition
  | .wakeUp => some { s with q := wakeUp s.q }

/-- The threads `T` on a queue that starts as `q`. -/
def system (back : Bool) (q : WaitQueueHead T) : System (State T) (Act T) where
  init := { q, pc := fun _ => .idle }
  step := step back

/-- No thread takes the lock while it holds it, only the holder gives it
back, and it is free while no thread is between the two. -/
structure Disciplined (s : State T) : Prop where
  relocked : s.q.relocked = false
  foreign : s.q.foreign = false
  free : (∀ t, (s.pc t).between = false) → s.q.holder = none

end Model

variable {T : Type} [DecidableEq T]

/-- **No run keeps the discipline.** Whichever thread has made the queue,
whatever is called then, and with either lock: it is held, and nobody is
waiting. -/
theorem not_disciplined (back : Bool) (t : T) (as : List (Act T)) :
    ¬ (system back (initWaitqueueHead back t)).Along Disciplined (system back (initWaitqueueHead back t)).init as := by
  intro h
  cases h.first.free fun _ => rfl

/-- The thread that has made the queue waits on it. -/
def makerWaits : List (Act Unit) := [.waitEvent (), .next () false, .next () false]

/-- It takes the lock a second time. -/
theorem not_disciplined_makerWaits :
    ∃ s, (system true (initWaitqueueHead true ())).exec (system true (initWaitqueueHead true ())).init makerWaits =
        some s ∧ s.q.relocked = true ∧
      ¬ (system true (initWaitqueueHead true ())).Along Disciplined (system true (initWaitqueueHead true ())).init
        makerWaits :=
  ⟨_, rfl, rfl, fun h => by cases h.first.free fun _ => rfl⟩

/-! ## With a lock that excludes -/

section Excluding

variable {s s' : State T} {t : T} {a : Act T}

/-- **The thread that made the queue holds the lock for ever**, and no
`wait_event` gets past `prepare_to_wait_event`. -/
theorem held_for_ever (h : (system false (initWaitqueueHead false t)).Reachable s) :
    s.q.holder = some t ∧ ∀ u, (s.pc u).between = false := by
  refine h.invariant (I := fun s => s.q.holder = some t ∧ ∀ u, (s.pc u).between = false) ⟨rfl, fun _ => rfl⟩
    fun s a s' hI _ hs => ?_
  obtain ⟨hholder, hout⟩ := hI
  have hat : ∀ {u : T} {p : Pc}, p.between = false → ∀ v, (Function.update s.pc u p v).between = false := by
    intro u p hp
    exact (Function.forall_update_iff _ fun _ (p : Pc) => p.between = false).mpr ⟨hp, fun v _ => hout v⟩
  cases a with
  | waitEvent u =>
    simp only [system, step] at hs
    split at hs <;> cases hs
    exact ⟨hholder, hat rfl⟩
  | wakeUp =>
    cases hs
    exact ⟨hholder, hout⟩
  | next u condition =>
    have hu := hout u
    cases hpc : s.pc u with
    | idle | spinning => simp [system, step, next, hpc] at hs
    | loopTest | finish => rw [hpc] at hu; cases hu
    | test =>
      simp only [system, step, next, hpc] at hs
      cases hs
      exact ⟨hholder, hat (by split <;> rfl)⟩
    | prepare again =>
      simp only [system, step, next, hpc, spinLock, hholder] at hs
      split at hs <;> cases hs
      exact ⟨rfl, hat rfl⟩

end Excluding

/-! ## On a queue that was left unlocked -/

section Unlocked

/-- The wait takes the lock in the first turn of its loop only. -/
def FirstTurn (s : State T) : Act T → Prop
  | .next t _ => s.pc t ≠ .prepare true
  | _ => True

/-- The holder is the thread between its two calls. -/
structure HolderInv (s : State T) : Prop where
  relocked : s.q.relocked = false
  foreign : s.q.foreign = false
  holder : ∀ t, (s.pc t).between = true ↔ s.q.holder = some t

variable {s s' : State T} {t : T} {a : Act T} {condition : Bool}

omit [DecidableEq T] in
theorem HolderInv.disciplined (h : HolderInv s) : Disciplined s := by
  refine ⟨h.relocked, h.foreign, fun hout => ?_⟩
  cases hq : s.q.holder with
  | none => rfl
  | some t =>
    have := (h.holder t).mpr hq
    rw [hout t] at this
    cases this

/-- A step that leaves the lock. -/
theorem HolderInv.moves (h : HolderInv s) {p : Pc} (hp : p.between = (s.pc t).between) : HolderInv (s.at t p) := by
  refine ⟨h.relocked, h.foreign, ?_⟩
  exact (Function.forall_update_iff _ fun u (p : Pc) => p.between = true ↔ s.q.holder = some u).mpr
    ⟨by rw [hp]; exact h.holder t, fun u _ => h.holder u⟩

theorem next_holderInv (h : HolderInv s) (hok : s.pc t ≠ .prepare true) (hs : next false s t condition = some s') :
    HolderInv s' := by
  cases hpc : s.pc t with
  | idle | spinning => simp [next, hpc] at hs
  | test =>
    simp only [next, hpc] at hs
    cases hs
    exact h.moves (by rw [hpc]; split <;> rfl)
  | loopTest =>
    simp only [next, hpc] at hs
    cases hs
    exact h.moves (by rw [hpc]; split <;> rfl)
  | prepare again =>
    obtain rfl : again = false := by
      cases again with
      | false => rfl
      | true => exact absurd hpc hok
    have hnot : s.q.holder ≠ some t := fun hq => by
      have := (h.holder t).mpr hq
      rw [hpc] at this
      cases this
    cases hq : s.q.holder with
    | none =>
      simp only [next, hpc, spinLock, hq] at hs
      cases hs
      refine ⟨h.relocked, h.foreign, ?_⟩
      refine (Function.forall_update_iff _ fun u (p : Pc) => p.between = true ↔ some t = some u).mpr
        ⟨iff_of_true rfl rfl, fun u hu => ?_⟩
      rw [h.holder u, hq]
      simp [hu.symm]
    | some u =>
      have hne : u ≠ t := fun he => hnot (by rw [hq, he])
      simp [next, hpc, spinLock, hq, hne] at hs
  | finish =>
    have hq : s.q.holder = some t := (h.holder t).mp (by rw [hpc]; rfl)
    simp only [next, hpc] at hs
    cases hs
    refine ⟨h.relocked, by simp [State.at, spinUnlock, h.foreign, hq], ?_⟩
    refine (Function.forall_update_iff _ fun u (p : Pc) => p.between = true ↔ none = some u).mpr
      ⟨by simp [Pc.between], fun u hu => ?_⟩
    rw [h.holder u, hq]
    simp [hu.symm]

theorem step_holderInv (h : HolderInv s) (hok : FirstTurn s a) (hs : step false s a = some s') : HolderInv s' := by
  cases a with
  | waitEvent t =>
    simp only [step] at hs
    split at hs <;> cases hs
    next hpc => exact h.moves (by rw [hpc]; rfl)
  | wakeUp =>
    cases hs
    exact ⟨h.relocked, h.foreign, h.holder⟩
  | next t condition => exact next_holderInv h hok hs

theorem step_relocked (h : HolderInv s) (hbad : ¬ FirstTurn s a) (hs : step false s a = some s') :
    ¬ Disciplined s' := by
  cases a with
  | waitEvent | wakeUp => exact absurd trivial hbad
  | next t condition =>
    have hpc : s.pc t = .prepare true := not_not.mp hbad
    have hq : s.q.holder = some t := (h.holder t).mp (by rw [hpc]; rfl)
    simp only [step, next, hpc, spinLock, hq] at hs
    cases hs
    intro hdisc
    cases hdisc.relocked

/-- **Had the queue been left unlocked**, the runs that keep the discipline
are those in which no wait needs a second turn of its loop. -/
theorem disciplined_iff {as : List (Act T)} (h : (system false spinLockInit).exec (system false spinLockInit).init as =
      some s) :
    (system false spinLockInit).Along Disciplined (system false spinLockInit).init as ↔
      (system false spinLockInit).Steps FirstTurn (system (T := T) false spinLockInit).init as :=
  System.along_iff_steps (I := HolderInv) (fun _ hI => hI.disciplined) (fun _ _ _ => step_holderInv)
    (fun _ _ _ => step_relocked) ⟨rfl, rfl, fun _ => by simp [system, Pc.between, spinLockInit]⟩ h

end Unlocked

end Lmsel4.WaitQueue
