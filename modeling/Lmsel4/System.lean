/-
Systems of atomic steps, over any states and actions: the runs of an
interleaving, what is reached along steps that meet a condition, a system
run together with an environment, systems side by side, what a part of the
actions shows, and sections that exclude each other.

An action that is not enabled in a state has no successor there, so an
interleaving is any list of actions and a run is one whose every action
was enabled when it came.
-/
import Mathlib.Logic.Function.Basic

namespace Lmsel4

/-- A system of atomic steps: `step s a` is where action `a` leads from
`s`, `none` when it is not enabled there. -/
structure System (S A : Type*) where
  init : S
  step : S → A → Option S

namespace System

variable {S A : Type*}

/-- Where the interleaving `as` leads from `s`. -/
def exec (M : System S A) : S → List A → Option S
  | s, [] => some s
  | s, a :: as => (M.step s a).bind fun s' => M.exec s' as

/-- `s` ends a run from the start each of whose steps meets `ok` in the
state it is taken in. -/
inductive ReachableBy (M : System S A) (ok : S → A → Prop) : S → Prop
  | init : ReachableBy M ok M.init
  | step : ReachableBy M ok s → ok s a → M.step s a = some s' → ReachableBy M ok s'

/-- `s` ends some run from the start. -/
def Reachable (M : System S A) : S → Prop := M.ReachableBy fun _ _ => True

/-- Every state of the run of `as` from `s` satisfies `P`. -/
def Along (M : System S A) (P : S → Prop) : S → List A → Prop
  | s, [] => P s
  | s, a :: as => P s ∧ ∀ s', M.step s a = some s' → M.Along P s' as

/-- Every step of the run of `as` from `s` meets `ok` in the state it is
taken in. -/
def Steps (M : System S A) (ok : S → A → Prop) : S → List A → Prop
  | _, [] => True
  | s, a :: as => ok s a ∧ ∀ s', M.step s a = some s' → M.Steps ok s' as

variable {M : System S A} {ok : S → A → Prop} {P I : S → Prop}

theorem exec_cons {s s' : S} {a : A} {as : List A} :
    M.exec s (a :: as) = some s' ↔ ∃ t, M.step s a = some t ∧ M.exec t as = some s' := by
  simp only [exec, Option.bind_eq_some_iff]

theorem exec_append {s t : S} {as bs : List A} (h : M.exec s as = some t) : M.exec s (as ++ bs) = M.exec t bs := by
  induction as generalizing s with
  | nil => cases h; rfl
  | cons a as ih =>
    obtain ⟨u, hs, he⟩ := exec_cons.mp h
    rw [List.cons_append, exec, hs, Option.bind_some, ih he]

/-- What holds all along a run holds at its start. -/
theorem Along.first {s : S} : ∀ {as : List A}, M.Along P s as → P s
  | [], h => h
  | _ :: _, h => h.1

/-- What holds all along a run holds at its end. -/
theorem Along.last {s s' : S} {as : List A} (h : M.Along P s as) (he : M.exec s as = some s') : P s' := by
  induction as generalizing s with
  | nil => cases he; exact h
  | cons a as ih =>
    obtain ⟨t, hs, he⟩ := exec_cons.mp he
    exact ih (h.2 t hs) he

/-- **The invariant rule.** What holds at the start and is kept by every
step that meets `ok` holds wherever such steps lead. -/
theorem ReachableBy.invariant {s : S} (h : M.ReachableBy ok s) (h₀ : I M.init)
    (hstep : ∀ s a s', I s → ok s a → M.step s a = some s' → I s') : I s := by
  induction h with
  | init => exact h₀
  | step _ hok hs ih => exact hstep _ _ _ ih hok hs

theorem ReachableBy.steps {s s' : S} (h : M.ReachableBy ok s) : ∀ as : List A, M.Steps ok s as →
    M.exec s as = some s' → M.ReachableBy ok s'
  | [], _, he => by cases he; exact h
  | a :: as, hok, he => by
    obtain ⟨t, hs, he⟩ := exec_cons.mp he
    exact (h.step hok.1 hs).steps as (hok.2 t hs) he

theorem steps_true : ∀ (as : List A) (s : S), M.Steps (fun _ _ => True) s as
  | [], _ => trivial
  | _ :: as, _ => ⟨trivial, fun s' _ => steps_true as s'⟩

theorem Reachable.exec {s s' : S} (h : M.Reachable s) (as : List A) (he : M.exec s as = some s') :
    M.Reachable s' := h.steps as (steps_true as s) he

instance decidableSteps [∀ s a, Decidable (ok s a)] : ∀ s as, Decidable (M.Steps ok s as)
  | _, [] => .isTrue trivial
  | s, a :: as =>
    match h : M.step s a with
    | none => decidable_of_iff (ok s a) (by simp [Steps, h])
    | some t =>
      have := decidableSteps t as
      decidable_of_iff (ok s a ∧ M.Steps ok t as) (by simp [Steps, h])

/-- **Exactly when a run is safe.** An invariant that steps meeting `ok`
keep, and a step not meeting `ok` that leaves the property false at once:
the property holds all along a run if and only if all its steps meet `ok`. -/
theorem along_iff_steps (hP : ∀ s, I s → P s)
    (hok : ∀ s a s', I s → ok s a → M.step s a = some s' → I s')
    (hbad : ∀ s a s', I s → ¬ ok s a → M.step s a = some s' → ¬ P s') :
    ∀ {as : List A} {s s' : S}, I s → M.exec s as = some s' → (M.Along P s as ↔ M.Steps ok s as)
  | [], s, _, hI, _ => by simp [Along, Steps, hP s hI]
  | a :: as, s, s', hI, he => by
    obtain ⟨t, hs, he⟩ := exec_cons.mp he
    simp only [Along, Steps, hs, Option.some.injEq, forall_eq']
    by_cases ha : ok s a
    · have ih := along_iff_steps hP hok hbad (hok s a t hI ha hs) he
      simp only [hP s hI, ha, true_and]
      exact ih
    · simp only [ha, false_and, iff_false]
      intro ⟨_, ht⟩
      -- The first state of the rest of the run is already one without `P`.
      exact hbad s a t hI ha hs ht.first

/-! ## How often a run does something -/

/-- **Balance.** When every step that is counted raises `f` and no other
lowers it, a run raises `f` by at least the number of the steps counted. -/
theorem exec_count {f : S → Int} {p : A → Bool} (hI : ∀ s a s', I s → M.step s a = some s' → I s')
    (hcount : ∀ s a s', I s → M.step s a = some s' → f s + (p a).toNat ≤ f s') :
    ∀ {as : List A} {s s' : S}, I s → M.exec s as = some s' → f s + as.countP p ≤ f s'
  | [], s, _, _, he => by cases he; simp
  | a :: as, s, s', h, he => by
    obtain ⟨t, hs, he⟩ := exec_cons.mp he
    have hstep := hcount s a t h hs
    have hrest := exec_count hI hcount (hI s a t h hs) he
    rw [List.countP_cons]
    cases hp : p a <;>
      simp only [hp, Bool.toNat_true, Bool.toNat_false, Bool.false_eq_true, if_true, if_false] at hstep ⊢ <;>
      omega

/-! ## What is still possible -/

/-- Some run of at most `n` steps from `s` ends where `Q` holds. -/
def Can (M : System S A) (n : Nat) (Q : S → Prop) (s : S) : Prop :=
  ∃ as s', as.length ≤ n ∧ M.exec s as = some s' ∧ Q s'

namespace Can

variable {n m : Nat} {Q R : S → Prop} {s t : S}

theorem here (h : Q s) : M.Can 0 Q s := ⟨[], s, Nat.le_refl 0, rfl, h⟩

theorem head {a : A} (hs : M.step s a = some t) : M.Can n Q t → M.Can (n + 1) Q s
  | ⟨as, s', hlen, he, hQ⟩ => ⟨a :: as, s', Nat.succ_le_succ hlen, exec_cons.mpr ⟨t, hs, he⟩, hQ⟩

theorem mono (h : M.Can n Q s) (hn : n ≤ m) : M.Can m Q s :=
  let ⟨as, s', hlen, he, hQ⟩ := h
  ⟨as, s', Nat.le_trans hlen hn, he, hQ⟩

theorem imp (h : M.Can n Q s) (hQ : ∀ t, Q t → R t) : M.Can n R s :=
  let ⟨as, s', hlen, he, h'⟩ := h
  ⟨as, s', hlen, he, hQ s' h'⟩

theorem bind (h : M.Can n Q s) (hnext : ∀ t, Q t → M.Can m R t) : M.Can (n + m) R s := by
  obtain ⟨as, t, hlen, he, hQ⟩ := h
  obtain ⟨bs, u, hlen', he', hR⟩ := hnext t hQ
  refine ⟨as ++ bs, u, ?_, (exec_append he).trans he', hR⟩
  rw [List.length_append]
  exact Nat.add_le_add hlen hlen'

/-- From a reachable state, in a reachable state. -/
theorem reachable (h : M.Can n Q s) (hs : M.Reachable s) : M.Can n (fun t => M.Reachable t ∧ Q t) s :=
  let ⟨as, t, hlen, he, hQ⟩ := h
  ⟨as, t, hlen, he, hs.exec as he, hQ⟩

/-- Steps that get to `Q` or lower the variant get to `Q`. -/
theorem variant {I : Nat → S → Prop} {Q : S → Prop}
    (hstep : ∀ {n s}, I n s → ∃ a s', M.step s a = some s' ∧ (Q s' ∨ ∃ m, m < n ∧ I m s')) {n : Nat} :
    ∀ {s : S}, I n s → M.Can (n + 1) Q s := by
  induction n using Nat.strongRecOn with
  | _ n ih =>
    intro s h
    obtain ⟨a, s', hs, hQ | ⟨m, hm, hI⟩⟩ := hstep h
    · exact .mono (.head hs (.here hQ)) (by omega)
    · exact .mono (.head hs (ih m hm hI)) (by omega)

end Can

/-! ## Output and termination -/

section Trace

variable {O V : Type*}

/-- What the steps of the run of `as` from `s` put out. -/
def trace (M : System S A) (out : S → A → List O) : S → List A → List O
  | _, [] => []
  | s, a :: as =>
    match M.step s a with
    | none => []
    | some s' => out s a ++ M.trace out s' as

theorem trace_cons {out : S → A → List O} {s s' : S} {a : A} (h : M.step s a = some s') (as : List A) :
    M.trace out s (a :: as) = out s a ++ M.trace out s' as := by
  simp only [trace, h]

/-- **The termination rule.** A party whose next action is enabled until it
stops, whatever value it is given, and lowers a measure stops, for every
sequence of values; with what its steps keep of the output so far. -/
theorem exists_stop (out : S → A → List O) (act : V → A) (μ : S → Nat) (stop : S → Prop) (J : List O → S → Prop)
    (hstep : ∀ tr s v, J tr s → ¬ stop s →
      ∃ s', M.step s (act v) = some s' ∧ J (tr ++ out s (act v)) s' ∧ μ s' < μ s) :
    ∀ (m : Nat) (tr : List O) (s : S), μ s ≤ m → J tr s → ∀ vs : Nat → V,
      ∃ n s', M.exec s ((List.range n).map fun i => act (vs i)) = some s' ∧ stop s' ∧
        J (tr ++ M.trace out s ((List.range n).map fun i => act (vs i))) s' := by
  intro m
  induction m with
  | zero =>
    intro tr s hm hJ vs
    by_cases hstop : stop s
    · exact ⟨0, s, rfl, hstop, by simpa [trace] using hJ⟩
    · obtain ⟨s', -, -, hlt⟩ := hstep tr s (vs 0) hJ hstop
      omega
  | succ m ih =>
    intro tr s hm hJ vs
    by_cases hstop : stop s
    · exact ⟨0, s, rfl, hstop, by simpa [trace] using hJ⟩
    · obtain ⟨s', hs, hJ', hlt⟩ := hstep tr s (vs 0) hJ hstop
      obtain ⟨n, t, he, ht, hJt⟩ := ih _ s' (by omega) hJ' fun i => vs (i + 1)
      have hacts : (List.range (n + 1)).map (fun i => act (vs i)) =
          act (vs 0) :: (List.range n).map fun i => act (vs (i + 1)) := by
        rw [List.range_succ_eq_map, List.map_cons, List.map_map]
        rfl
      refine ⟨n + 1, t, ?_, ht, ?_⟩
      · rw [hacts]
        exact exec_cons.mpr ⟨s', hs, he⟩
      · rw [hacts, trace_cons hs, ← List.append_assoc]
        exact hJt

end Trace

/-! ## A system and its environment -/

section Within

variable {E B : Type*}

/-- `M` together with an environment `E` that reacts to the actions of `M`
(and may refuse them) and has events of its own. -/
def within (M : System S A) (e₀ : E) (react : S → A → E → Option E) (event : E → B → Option E) :
    System (S × E) (A ⊕ B) where
  init := (M.init, e₀)
  step
    | (s, e), .inl a => (M.step s a).bind fun s' => (react s a e).map fun e' => (s', e')
    | (s, e), .inr b => (event e b).map fun e' => (s, e')

variable {e₀ : E} {react : S → A → E → Option E} {event : E → B → Option E}

theorem within_inl {s s' : S} {e e' : E} {a : A} :
    (M.within e₀ react event).step (s, e) (.inl a) = some (s', e') ↔
      M.step s a = some s' ∧ react s a e = some e' := by
  simp only [within, Option.bind_eq_some_iff, Option.map_eq_some_iff, Prod.mk.injEq]
  constructor
  · rintro ⟨_, hs, _, he, rfl, rfl⟩
    exact ⟨hs, he⟩
  · rintro ⟨hs, he⟩
    exact ⟨s', hs, e', he, rfl, rfl⟩

theorem within_inr {s s' : S} {e e' : E} {b : B} :
    (M.within e₀ react event).step (s, e) (.inr b) = some (s', e') ↔
      s' = s ∧ event e b = some e' := by
  simp only [within, Option.map_eq_some_iff, Prod.mk.injEq]
  constructor
  · rintro ⟨_, he, rfl, rfl⟩
    exact ⟨rfl, he⟩
  · rintro ⟨rfl, he⟩
    exact ⟨e', he, rfl, rfl⟩

end Within

/-! ## Systems side by side -/

section Family

variable {T : Type*} [DecidableEq T]

/-- Systems that share nothing: an action is one of the system it names. -/
def family (N : T → System S A) : System (T → S) (T × A) where
  init t := (N t).init
  step s x := ((N x.1).step (s x.1) x.2).map (Function.update s x.1)

variable {N : T → System S A}

theorem family_step {s s' : T → S} {t : T} {a : A} :
    (family N).step s (t, a) = some s' ↔ ∃ u, (N t).step (s t) a = some u ∧ s' = Function.update s t u := by
  simp only [family, Option.map_eq_some_iff, eq_comm]

end Family

/-! ## Views -/

section Views

variable {V : Type*}

/-- The actions of the run of `as` from `s` that `sees` picks, each in the
state it is taken in. -/
def seen (M : System S A) (sees : S → A → Bool) : S → List A → List A
  | _, [] => []
  | s, a :: as =>
    match M.step s a with
    | none => []
    | some s' => if sees s a then a :: M.seen sees s' as else M.seen sees s' as

variable {N : System V A} {sees : S → A → Bool} {view : S → V}

/-- **The view rule.** When the actions seen act on the view alone and the
others leave it, a run shows what its seen actions do. -/
theorem seen_exec (hI : ∀ s a s', I s → M.step s a = some s' → I s')
    (hseen : ∀ s a s', I s → sees s a = true → M.step s a = some s' → N.step (view s) a = some (view s'))
    (hunseen : ∀ s a s', I s → sees s a = false → M.step s a = some s' → view s' = view s) :
    ∀ {as : List A} {s s' : S}, I s → M.exec s as = some s' → N.exec (view s) (M.seen sees s as) = some (view s')
  | [], _, _, _, he => by cases he; rfl
  | a :: as, s, s', h, he => by
    obtain ⟨t, hs, he⟩ := exec_cons.mp he
    have ih := seen_exec hI hseen hunseen (hI s a t h hs) he
    simp only [seen, hs]
    cases ha : sees s a with
    | true => exact exec_cons.mpr ⟨view t, hseen s a t h ha hs, ih⟩
    | false =>
      rw [hunseen s a t h ha hs] at ih
      exact ih

/-- Two runs with the same seen actions show the same. -/
theorem view_eq (hI : ∀ s a s', I s → M.step s a = some s' → I s')
    (hseen : ∀ s a s', I s → sees s a = true → M.step s a = some s' → N.step (view s) a = some (view s'))
    (hunseen : ∀ s a s', I s → sees s a = false → M.step s a = some s' → view s' = view s)
    {as bs : List A} {s t t' : S} (h : I s) (hs : M.exec s as = some t) (ht : M.exec s bs = some t')
    (heq : M.seen sees s as = M.seen sees s bs) : view t = view t' := by
  have hview := seen_exec hI hseen hunseen h hs
  rw [heq, seen_exec hI hseen hunseen h ht] at hview
  exact (Option.some.inj hview).symm

end Views

end System

/-! ## Exclusion -/

/-- At most one party is inside, and `free` says that none is. -/
structure Exclusive {T : Type*} (free : Prop) (inside : T → Prop) : Prop where
  one : ∀ t u, inside t → inside u → t = u
  free_iff : free ↔ ∀ t, ¬ inside t

namespace Exclusive

variable {T Pc : Type*} [DecidableEq T] {free free' : Prop} {Q : Pc → Prop} {pc : T → Pc} {t : T} {p : Pc}

/-- A party that moves from `pc t` to `p`, being inside as before. -/
theorem stay (h : Exclusive free fun u => Q (pc u)) (hp : Q p ↔ Q (pc t)) (hf : free' ↔ free) :
    Exclusive free' fun u => Q (Function.update pc t p u) := by
  have hQ : (fun u => Q (Function.update pc t p u)) = fun u => Q (pc u) := by
    funext u
    rw [Function.update_apply]
    split
    · next hu => subst hu; exact propext hp
    · rfl
  rw [hQ, show free' = free from propext hf]
  exact h

/-- A party that moves inside while none is. -/
theorem enter (h : Exclusive free fun u => Q (pc u)) (hf : free) (hp : Q p) (hf' : ¬ free') :
    Exclusive free' fun u => Q (Function.update pc t p u) := by
  have hout := h.free_iff.mp hf
  have hin : ∀ u, Q (Function.update pc t p u) → u = t := by
    intro u hu
    by_contra hne
    rw [Function.update_of_ne hne] at hu
    exact hout u hu
  refine ⟨fun u v hu hv => (hin u hu).trans (hin v hv).symm, ?_⟩
  simp only [hf', false_iff, not_forall, not_not]
  exact ⟨t, by rwa [Function.update_self]⟩

/-- The party inside moves out. -/
theorem leave (h : Exclusive free fun u => Q (pc u)) (ht : Q (pc t)) (hp : ¬ Q p) (hf' : free') :
    Exclusive free' fun u => Q (Function.update pc t p u) := by
  have hout : ∀ u, ¬ Q (Function.update pc t p u) := by
    intro u hu
    rw [Function.update_apply] at hu
    split at hu
    · exact hp hu
    · next hne => exact hne (h.one u t hu ht)
  exact ⟨fun u _ hu _ => absurd hu (hout u), by simp only [hf', true_iff]; exact hout⟩

end Exclusive

end Lmsel4
