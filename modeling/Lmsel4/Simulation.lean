/-
Forward simulation of a machine that answers every action it takes by a
specification: a relation that says which answers are allowed and where
they lead.
-/
import Mathlib.Logic.Basic

namespace Lmsel4

variable {S T A O : Type*}

/-- Where a machine gets by the actions `as`, and its answers. -/
def answers (step : S → A → Option (S × O)) : S → List A → Option (S × List O)
  | s, [] => some (s, [])
  | s, a :: as => (step s a).bind fun (s', o) => (answers step s' as).map fun (s'', os) => (s'', o :: os)

/-- Every action of `as` meets `ok` in the state it is taken in. -/
def Admits (step : S → A → Option (S × O)) (ok : S → A → Prop) : S → List A → Prop
  | _, [] => True
  | s, a :: as => ok s a ∧ ∀ s' o, step s a = some (s', o) → Admits step ok s' as

instance decidableAdmits {step : S → A → Option (S × O)} {ok : S → A → Prop} [∀ s a, Decidable (ok s a)] :
    ∀ s as, Decidable (Admits step ok s as)
  | _, [] => .isTrue trivial
  | s, a :: as =>
    match h : step s a with
    | none => decidable_of_iff (ok s a) (by simp [Admits, h])
    | some (s', o) =>
      have : Decidable (Admits step ok s' as) := decidableAdmits s' as
      decidable_of_iff (ok s a ∧ Admits step ok s' as) (by
        simp only [Admits, h, Option.some.injEq, Prod.mk.injEq]
        exact and_congr_right fun _ => ⟨fun h' s'' o' he => he.1 ▸ h', fun h' => h' s' o ⟨rfl, rfl⟩⟩)

/-- A condition on the actions alone. -/
theorem admits_of_forall {step : S → A → Option (S × O)} {ok : A → Prop} :
    ∀ {as : List A} {s : S}, (∀ a ∈ as, ok a) → Admits step (fun _ => ok) s as
  | [], _, _ => trivial
  | _ :: _, _, h =>
    ⟨h _ List.mem_cons_self, fun _ _ _ => admits_of_forall fun a ha => h a (List.mem_cons_of_mem _ ha)⟩

/-- A machine that takes every action another one takes gets as far. -/
theorem answers_mono {step step' : S → A → Option (S × O)} (h : ∀ s a r, step s a = some r → step' s a = some r) :
    ∀ {as : List A} {s : S} {r : S × List O}, answers step s as = some r → answers step' s as = some r
  | [], _, _, hr => hr
  | a :: as, s, r, hr => by
    obtain ⟨⟨s', o⟩, hs, hr⟩ := Option.bind_eq_some_iff.mp hr
    obtain ⟨⟨s'', os⟩, hrun, rfl⟩ := Option.map_eq_some_iff.mp hr
    simp only [answers, h _ _ _ hs, Option.bind_some, answers_mono h hrun, Option.map_some]

/-- **Lockstep.** Two machines whose steps give the same answer, or both
none, and stay related give the same answers, or both none, to every
admitted sequence of actions. The relation may count the steps taken, up to
`N`. -/
theorem answers_rel {step : S → A → Option (S × O)} {step' : T → A → Option (T × O)} {ok : S → A → Prop}
    {R : Nat → S → T → Prop} {N : Nat}
    (hstep : ∀ {n s t a}, R n s t → n < N → ok s a →
      Option.Rel (fun x y => x.2 = y.2 ∧ R (n + 1) x.1 y.1) (step s a) (step' t a)) {as : List A} :
    ∀ {n : Nat} {s : S} {t : T}, R n s t → n + as.length ≤ N → Admits step ok s as →
      Option.Rel (fun x y => x.2 = y.2 ∧ R (n + as.length) x.1 y.1) (answers step s as) (answers step' t as) := by
  induction as with
  | nil =>
    intro n s t hR _ _
    exact .some ⟨rfl, hR⟩
  | cons a as ih =>
    intro n s t hR hn hok
    rw [List.length_cons] at hn ⊢
    have hrel := hstep hR (by omega) hok.1
    have hnext := hok.2
    revert hnext
    simp only [answers]
    generalize step s a = x at hrel ⊢
    generalize step' t a = y at hrel ⊢
    intro hnext
    cases hrel with
    | none => exact .none
    | @some x y hxy =>
      obtain ⟨s', o⟩ := x
      obtain ⟨t', o'⟩ := y
      obtain ⟨rfl, hR'⟩ : o = o' ∧ R (n + 1) s' t' := hxy
      have hrest := ih hR' (by omega) (hnext s' o rfl)
      simp only [Option.bind_some]
      generalize answers step s' as = x at hrest ⊢
      generalize answers step' t' as = y at hrest ⊢
      cases hrest with
      | none => exact .none
      | some hxy =>
        refine .some ⟨?_, ?_⟩
        · simp only [hxy.1]
        · rw [show n + (as.length + 1) = n + 1 + as.length by omega]
          exact hxy.2

/-- The specification allows the answers `os` to the actions `as`. -/
inductive Allows (spec : T → A → O → T → Prop) : T → List A → List O → T → Prop
  | nil : Allows spec t [] [] t
  | cons : spec t a o t' → Allows spec t' as os t'' → Allows spec t (a :: as) (o :: os) t''

/-- Every answer is one that the specification gives. -/
theorem Allows.exists_of_mem {spec : T → A → O → T → Prop} {t t' : T} {as : List A} {os : List O} {o : O}
    (h : Allows spec t as os t') (ho : o ∈ os) : ∃ t₁ a t₂, spec t₁ a o t₂ := by
  induction h with
  | nil => cases ho
  | cons hspec _ ih =>
    rcases List.mem_cons.mp ho with rfl | ho
    · exact ⟨_, _, _, hspec⟩
    · exact ih ho

/-- **Simulation.** When every admitted action is taken, with an answer the
specification allows and a state that is related again, then so are all
admitted sequences of actions. -/
theorem simulation {step : S → A → Option (S × O)} {ok : S → A → Prop} {spec : T → A → O → T → Prop}
    {R : S → T → Prop}
    (hstep : ∀ {s t a}, R s t → ok s a → ∃ s' o t', step s a = some (s', o) ∧ spec t a o t' ∧ R s' t') :
    ∀ {as : List A} {s : S} {t : T}, R s t → Admits step ok s as →
      ∃ s' os t', answers step s as = some (s', os) ∧ Allows spec t as os t' ∧ R s' t'
  | [], s, t, hR, _ => ⟨s, [], t, rfl, .nil, hR⟩
  | a :: as, s, t, hR, hok => by
    obtain ⟨s', o, t', hs, hspec, hR'⟩ := hstep hR hok.1
    obtain ⟨s'', os, t'', hrun, hall, hR''⟩ := simulation hstep hR' (hok.2 s' o hs)
    exact ⟨s'', o :: os, t'', by simp [answers, hs, hrun], .cons hspec hall, hR''⟩

end Lmsel4
