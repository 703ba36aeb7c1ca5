/-
Interrupts of liblinux (`interrupt.c`): `request_threaded_irq` hands a token
to the interrupt server and then fills it in; `lmseL4_InterruptHandler`
reads the token whenever the server delivers.

From the moment `irq_server_register_irq` is entered the server may deliver,
so a delivery can find the token as `malloc` left it. Deliveries are safe
where the server holds them back until the call has made its last
assignment, `token->dev = dev` (`delivery_safe`); one that is let in before
can read that field at once (`unsafe_of_early`).
-/
import Lmsel4.System

namespace Lmsel4.Interrupt

/-- A field of the token is none until it is written. -/
structure IRQData (I H D : Type) where
  realHandler : Option H
  irq : Option I
  dev : Option D

/-- In `request_threaded_irq`; from `inside` on, the server has the token. -/
inductive Place
  | malloc
  | enter
  | inside
  | setHandler
  | setIrq
  | setDev
  | done
  deriving DecidableEq

def Place.registered : Place → Bool
  | .malloc | .enter => false
  | _ => true

/-- A call of `request_threaded_irq`, with the arguments it keeps. -/
structure Call (H D : Type) where
  place : Place
  handler : H
  dev : D

/-- In `lmseL4_InterruptHandler`. The two fields are loaded in either order;
what is loaded is none if it has not been written. -/
inductive Delivery (H D : Type)
  | idle
  | loading (handler : Option (Option H)) (dev : Option (Option D))
  | running
  | returned

inductive Event (I H D : Type)
  | called (irq : I) (handler : Option H) (dev : Option D)
  | returned
  | acked

/-- One IRQ: its call, if it has been made, its token and its delivery. Of
its history, the deliveries begun, what they did, and whether one has read
a field not yet written. -/
structure Line (I H D : Type) where
  call : Option (Call H D)
  token : IRQData I H D
  delivery : Delivery H D
  begun : Nat
  log : List (Event I H D)
  early : Bool

inductive Act (H D : Type)
  | call (handler : H) (dev : D)
  | next
  | deliver
  | loadHandler
  | loadDev
  | callHandler
  | handlerReturns
  | ack

section Model

variable {I H D : Type}

def Line.at (l : Line I H D) (c : Call H D) (place : Place) : Line I H D :=
  { l with call := some { c with place } }

/-- A step of `request_threaded_irq` for `irq`. -/
def requestStep (irq : I) (l : Line I H D) (c : Call H D) : Option (Line I H D) :=
  match c.place with
  | .malloc => some ({ l with token := { realHandler := none, irq := none, dev := none } }.at c .enter)
  | .enter => some (l.at c .inside)
  | .inside => some (l.at c .setHandler)
  | .setHandler => some ({ l with token := { l.token with realHandler := some c.handler } }.at c .setIrq)
  | .setIrq => some ({ l with token := { l.token with irq := some irq } }.at c .setDev)
  | .setDev => some ({ l with token := { l.token with dev := some c.dev } }.at c .done)
  | .done => none

def step (irq : I) (l : Line I H D) : Act H D → Option (Line I H D)
  | .call handler dev =>
    if l.call.isNone then some { l with call := some { place := .malloc, handler, dev } } else none
  | .next => l.call.bind (requestStep irq l)
  -- One delivery is outstanding until it is acknowledged.
  | .deliver =>
    match l.call, l.delivery with
    | some c, .idle =>
      if c.place.registered then some { l with delivery := .loading none none, begun := l.begun + 1 } else none
    | _, _ => none
  | .loadHandler =>
    match l.delivery with
    | .loading none dev =>
      some { l with
        delivery := .loading (some l.token.realHandler) dev
        early := l.early || l.token.realHandler.isNone }
    | _ => none
  | .loadDev =>
    match l.delivery with
    | .loading handler none =>
      some { l with
        delivery := .loading handler (some l.token.dev)
        early := l.early || l.token.dev.isNone }
    | _ => none
  | .callHandler =>
    match l.delivery with
    | .loading (some handler) (some dev) =>
      some { l with delivery := .running, log := l.log ++ [.called irq handler dev] }
    | _ => none
  | .handlerReturns =>
    match l.delivery with
    | .running => some { l with delivery := .returned, log := l.log ++ [.returned] }
    | _ => none
  -- `irq_data_ack_irq`.
  | .ack =>
    match l.delivery with
    | .returned => some { l with delivery := .idle, log := l.log ++ [.acked] }
    | _ => none

def line (irq : I) : System (Line I H D) (Act H D) where
  init := { call := none, token := { realHandler := none, irq := none, dev := none }, delivery := .idle,
            begun := 0, log := [], early := false }
  step := step irq

/-- Every IRQ with its own call and deliveries. -/
def system (I H D : Type) [DecidableEq I] : System (I → Line I H D) (I × Act H D) := System.family line

/-- What one delivery is to do: call what was passed to
`request_threaded_irq`, and acknowledge when it has returned. -/
def round (irq : I) (c : Option (Call H D)) : List (Event I H D) :=
  [.called irq (c.map (·.handler)) (c.map (·.dev)), .returned, .acked]

/-- How many events of its round a delivery has behind it. -/
def Delivery.progress : Delivery H D → Nat
  | .idle | .loading _ _ => 0
  | .running => 1
  | .returned => 2

def Delivery.outstanding : Delivery H D → Nat
  | .idle => 0
  | _ => 1

/-- No field was read before it was written, and what the deliveries have
done is a round for each that is over, and the beginning of one for the one
outstanding. -/
def Safe (irq : I) (l : Line I H D) : Prop :=
  l.early = false ∧ ∃ n, l.begun = n + l.delivery.outstanding ∧
    l.log = (List.replicate n (round irq l.call)).flatten ++ (round irq l.call).take l.delivery.progress

/-- `lmseL4_InterruptHandler` is entered only when the call for its IRQ has
executed `token->dev = dev`. -/
def EnteredLate (l : Line I H D) : Act H D → Prop
  | .deliver => l.call.map (·.place) = some .done
  | _ => True

instance (l : Line I H D) : ∀ a, Decidable (EnteredLate l a)
  | .deliver => inferInstanceAs (Decidable (_ = _))
  | .call _ _ | .next | .loadHandler | .loadDev | .callHandler | .handlerReturns | .ack => .isTrue trivial

/-- The step does not read a field that has not been written. -/
def ReadsWritten (l : Line I H D) : Act H D → Prop
  | .loadHandler => l.token.realHandler.isSome = true
  | .loadDev => l.token.dev.isSome = true
  | _ => True

/-- What is written in the token, and what a delivery has loaded from it, is
what was passed to the call. -/
structure Inv (irq : I) (l : Line I H D) : Prop where
  safe : Safe irq l
  fresh : l.call = none → l.begun = 0 ∧ l.delivery = .idle
  handler : l.token.realHandler = none ∨ l.token.realHandler = l.call.map (·.handler)
  dev : l.token.dev = none ∨ l.token.dev = l.call.map (·.dev)
  loaded : ∀ handler dev, l.delivery = .loading handler dev →
    (handler = none ∨ handler = some (l.call.map (·.handler))) ∧ (dev = none ∨ dev = some (l.call.map (·.dev)))

end Model

/-! ## Steps of the call -/

section Steps

variable {I H D : Type} {irq : I} {l l' : Line I H D} {c : Call H D} {a : Act H D}

theorem init_inv : Inv irq (line irq : System (Line I H D) (Act H D)).init where
  safe := ⟨rfl, 0, rfl, rfl⟩
  fresh := fun _ => ⟨rfl, rfl⟩
  handler := .inl rfl
  dev := .inl rfl
  loaded := fun _ _ h => by cases h

/-- The call moves on, with the same arguments. -/
theorem Inv.moves (h : Inv irq l) (hc : l.call = some c) (place : Place) : Inv irq (l.at c place) := by
  obtain ⟨⟨hearly, n, hbegun, hlog⟩, -, hh, hd, hload⟩ := h
  rw [hc] at hlog hh hd hload
  exact ⟨⟨hearly, n, hbegun, hlog⟩, fun hnone => (by cases hnone), hh, hd, hload⟩

/-- The call writes the token, with what was passed. -/
theorem Inv.writes (h : Inv irq l) (hc : l.call = some c) {place : Place} {token : IRQData I H D}
    (hh : token.realHandler = none ∨ token.realHandler = some c.handler)
    (hd : token.dev = none ∨ token.dev = some c.dev) : Inv irq ({ l with token }.at c place) := by
  have hwritten : Inv irq { l with token } := by
    refine ⟨h.safe, h.fresh, ?_, ?_, h.loaded⟩
    · simpa only [hc, Option.map_some] using hh
    · simpa only [hc, Option.map_some] using hd
  exact hwritten.moves hc place

theorem Inv.calls (h : Inv irq l) (hc : l.call = none) (handler : H) (dev : D) :
    Inv irq { l with call := some { place := .malloc, handler, dev } } := by
  obtain ⟨⟨hearly, n, hbegun, hlog⟩, hfresh, hh, hd, -⟩ := h
  obtain ⟨h₀, hidle⟩ := hfresh hc
  have hn : n = 0 := by omega
  rw [hc] at hh hd
  subst hn
  rw [hidle] at hlog
  refine ⟨⟨hearly, 0, by rw [h₀, hidle]; rfl, by rw [hidle]; exact hlog⟩, fun hnone => (by cases hnone),
    .inl (hh.elim id id), .inl (hd.elim id id), fun _ _ hl => ?_⟩
  rw [show l.delivery = .idle from hidle] at hl
  cases hl

theorem requestStep_inv (h : Inv irq l) (hc : l.call = some c) (hs : requestStep irq l c = some l') : Inv irq l' := by
  have hh := h.handler
  have hd := h.dev
  rw [hc] at hh hd
  unfold requestStep at hs
  split at hs <;> cases hs
  · exact h.writes hc (.inl rfl) (.inl rfl)
  · exact h.moves hc .inside
  · exact h.moves hc .setHandler
  · exact h.writes hc (.inr rfl) hd
  · exact h.writes hc hh hd
  · exact h.writes hc hh (.inr rfl)

/-! ## Steps of a delivery -/

theorem Inv.delivers (h : Inv irq l) (hc : l.call = some c) (hidle : l.delivery = .idle) :
    Inv irq { l with delivery := .loading none none, begun := l.begun + 1 } := by
  obtain ⟨⟨hearly, n, hbegun, hlog⟩, -, hh, hd, -⟩ := h
  rw [hidle] at hbegun hlog
  refine ⟨⟨hearly, n, ?_, hlog⟩, fun hnone => ?_, hh, hd, fun _ _ hl => ?_⟩
  · rw [hbegun]
    rfl
  · rw [show l.call = some c from hc] at hnone
    cases hnone
  · cases hl
    exact ⟨.inl rfl, .inl rfl⟩

/-- A field of the token that is written is what was passed, and loading it
is not early. -/
theorem passed_of_written {α : Type} {field passed : Option α} {early : Bool} (hearly : early = false)
    (h : field = none ∨ field = passed) (hsome : field.isSome = true) :
    (early || field.isNone) = false ∧ field = passed := by
  refine ⟨?_, h.resolve_left (Option.isSome_iff_ne_none.mp hsome)⟩
  rw [hearly, Bool.false_or, Option.isNone_eq_false_iff]
  exact hsome

/-- A load that finds its field written. -/
theorem Inv.loads (h : Inv irq l) {handler handler' : Option (Option H)} {dev dev' : Option (Option D)} {early : Bool}
    (hl : l.delivery = .loading handler dev) (hearly : early = false)
    (hh : handler' = handler ∨ handler' = some (l.call.map (·.handler)))
    (hd : dev' = dev ∨ dev' = some (l.call.map (·.dev))) :
    Inv irq { l with delivery := .loading handler' dev', early } := by
  obtain ⟨⟨-, n, hbegun, hlog⟩, hfresh, hth, htd, hload⟩ := h
  obtain ⟨hhandler, hdev⟩ := hload _ _ hl
  rw [hl] at hbegun hlog
  refine ⟨⟨hearly, n, hbegun, hlog⟩, fun hnone => ?_, hth, htd, fun _ _ hl' => ?_⟩
  · have hidle := (hfresh hnone).2
    rw [hl] at hidle
    cases hidle
  · cases hl'
    refine ⟨?_, ?_⟩
    · rcases hh with rfl | hh
      · exact hhandler
      · exact .inr hh
    · rcases hd with rfl | hd
      · exact hdev
      · exact .inr hd

/-- The delivery does the next thing of its round. -/
theorem Inv.advances (h : Inv irq l) {p : Delivery H D} {e : Event I H D}
    (hout : p.outstanding = l.delivery.outstanding) (hnot : l.delivery ≠ .idle)
    (hp : ∀ handler dev, p ≠ .loading handler dev)
    (he : (round irq l.call).take p.progress = (round irq l.call).take l.delivery.progress ++ [e]) :
    Inv irq { l with delivery := p, log := l.log ++ [e] } := by
  obtain ⟨⟨hearly, n, hbegun, hlog⟩, hfresh, hth, htd, -⟩ := h
  refine ⟨⟨hearly, n, hbegun.trans (by rw [hout]), ?_⟩, fun hnone => ?_, hth, htd, fun _ _ hl => ?_⟩
  · rw [he, hlog, List.append_assoc]
  · exact absurd (hfresh hnone).2 hnot
  · exact absurd hl (hp _ _)

theorem Inv.acks (h : Inv irq l) (hl : l.delivery = .returned) :
    Inv irq { l with delivery := .idle, log := l.log ++ [.acked] } := by
  obtain ⟨⟨hearly, n, hbegun, hlog⟩, hfresh, hth, htd, -⟩ := h
  rw [hl] at hbegun hlog
  refine ⟨⟨hearly, n + 1, hbegun, ?_⟩, fun hnone => ?_, hth, htd, fun _ _ hl' => by cases hl'⟩
  · rw [hlog, List.replicate_succ', List.flatten_append]
    simp [round, Delivery.progress]
  · have hidle := (hfresh hnone).2
    rw [hl] at hidle
    cases hidle

/-! ## Every step -/

theorem step_inv (h : Inv irq l) (hok : ReadsWritten l a) (hs : step irq l a = some l') : Inv irq l' := by
  cases a with
  | call handler dev =>
    simp only [step, Option.isNone_iff_eq_none, Option.ite_none_right_eq_some, Option.some.injEq] at hs
    obtain ⟨hc, rfl⟩ := hs
    exact h.calls hc handler dev
  | next =>
    obtain ⟨c, hc, hs⟩ := Option.bind_eq_some_iff.mp hs
    exact requestStep_inv h hc hs
  | deliver =>
    simp only [step] at hs
    split at hs
    · next c hc hidle =>
      split at hs <;> cases hs
      exact h.delivers hc hidle
    · cases hs
  | loadHandler =>
    simp only [step] at hs
    split at hs <;> cases hs
    next dev hl =>
    obtain ⟨hintime, hpassed⟩ := passed_of_written h.safe.1 h.handler hok
    exact h.loads hl hintime (.inr (congrArg some hpassed)) (.inl rfl)
  | loadDev =>
    simp only [step] at hs
    split at hs <;> cases hs
    next handler hl =>
    obtain ⟨hintime, hpassed⟩ := passed_of_written h.safe.1 h.dev hok
    exact h.loads hl hintime (.inl rfl) (.inr (congrArg some hpassed))
  | callHandler =>
    simp only [step] at hs
    split at hs <;> cases hs
    next handler dev hl =>
    obtain ⟨hh, hd⟩ := h.loaded _ _ hl
    have hh : handler = l.call.map (·.handler) := by simpa using hh
    have hd : dev = l.call.map (·.dev) := by simpa using hd
    refine h.advances (by rw [hl]; rfl) (by rw [hl]; simp) (fun _ _ => by simp) ?_
    rw [hl, hh, hd]
    rfl
  | handlerReturns =>
    simp only [step] at hs
    split at hs <;> cases hs
    next hl =>
    refine h.advances (by rw [hl]; rfl) (by rw [hl]; simp) (fun _ _ => by simp) ?_
    rw [hl]
    rfl
  | ack =>
    simp only [step] at hs
    split at hs <;> cases hs
    next hl => exact h.acks hl

end Steps

/-! ## How far the token is filled in -/

section Token

variable {I H D : Type} {irq : I} {l l' : Line I H D} {c : Call H D} {a : Act H D}

/-- The token as the call has filled it in so far. -/
def tokenAt (irq : I) : Option (Call H D) → IRQData I H D
  | none => { realHandler := none, irq := none, dev := none }
  | some c =>
    match c.place with
    | .malloc | .enter | .inside | .setHandler => { realHandler := none, irq := none, dev := none }
    | .setIrq => { realHandler := some c.handler, irq := none, dev := none }
    | .setDev => { realHandler := some c.handler, irq := some irq, dev := none }
    | .done => { realHandler := some c.handler, irq := some irq, dev := some c.dev }

theorem requestStep_token (h : l.token = tokenAt irq l.call) (hc : l.call = some c)
    (hs : requestStep irq l c = some l') : l'.token = tokenAt irq l'.call := by
  rw [hc] at h
  cases hp : c.place with
  | done =>
    simp only [requestStep, hp] at hs
    cases hs
  | malloc | enter | inside | setHandler | setIrq | setDev =>
    simp only [requestStep, hp] at hs
    cases hs
    simp [Line.at, tokenAt, h, hp]

theorem step_token (h : l.token = tokenAt irq l.call) (hs : step irq l a = some l') :
    l'.token = tokenAt irq l'.call := by
  cases a with
  | call handler dev =>
    simp only [step, Option.isNone_iff_eq_none, Option.ite_none_right_eq_some, Option.some.injEq] at hs
    obtain ⟨hc, rfl⟩ := hs
    rw [hc] at h
    exact h
  | next =>
    obtain ⟨c, hc, hs⟩ := Option.bind_eq_some_iff.mp hs
    exact requestStep_token h hc hs
  | deliver =>
    simp only [step] at hs
    split at hs
    · split at hs <;> cases hs
      exact h
    · cases hs
  | loadHandler | loadDev | callHandler | handlerReturns | ack =>
    simp only [step] at hs
    split at hs <;> cases hs
    exact h

/-- Where a delivery is outstanding, the call is over. -/
structure Late (irq : I) (l : Line I H D) : Prop where
  token : l.token = tokenAt irq l.call
  entered : l.delivery ≠ .idle → l.call.map (·.place) = some .done

theorem step_late (h : Late irq l) (hok : EnteredLate l a) (hs : step irq l a = some l') : Late irq l' := by
  refine ⟨step_token h.token hs, ?_⟩
  cases a with
  | call handler dev =>
    simp only [step, Option.isNone_iff_eq_none, Option.ite_none_right_eq_some, Option.some.injEq] at hs
    obtain ⟨hc, rfl⟩ := hs
    intro hne
    have hdone := h.entered hne
    rw [hc] at hdone
    cases hdone
  | next =>
    -- A call that is over makes no step, so no delivery is outstanding.
    obtain ⟨c, hc, hs⟩ := Option.bind_eq_some_iff.mp hs
    have hidle : l.delivery = .idle := by
      by_contra hne
      have hdone := h.entered hne
      rw [hc, Option.map_some, Option.some.injEq] at hdone
      simp only [requestStep, hdone] at hs
      cases hs
    have hsame : l'.delivery = l.delivery := by
      unfold requestStep at hs
      split at hs <;> cases hs <;> rfl
    exact fun hne => absurd (hsame.trans hidle) hne
  | deliver =>
    have hdone : l.call.map (·.place) = some .done := hok
    simp only [step] at hs
    split at hs
    · split at hs <;> cases hs
      exact fun _ => hdone
    · cases hs
  | loadHandler | loadDev | callHandler | handlerReturns | ack =>
    simp only [step] at hs
    split at hs <;> cases hs
    next hl => exact fun _ => h.entered (by rw [hl]; exact fun he => by cases he)

/-- A delivery that was entered late finds both fields written. -/
theorem Late.readsWritten (h : Late irq l) (hs : step irq l a = some l') : ReadsWritten l a := by
  have hfilled : l.delivery ≠ .idle → l.token.realHandler.isSome = true ∧ l.token.dev.isSome = true := by
    intro hne
    obtain ⟨c, hc, hplace⟩ := Option.map_eq_some_iff.mp (h.entered hne)
    rw [h.token, hc]
    simp [tokenAt, hplace]
  cases a with
  | loadHandler =>
    simp only [step] at hs
    split at hs <;> cases hs
    next hl => exact (hfilled (by rw [hl]; exact fun he => by cases he)).1
  | loadDev =>
    simp only [step] at hs
    split at hs <;> cases hs
    next hl => exact (hfilled (by rw [hl]; exact fun he => by cases he)).2
  | call | next | deliver | callHandler | handlerReturns | ack => trivial

end Token

/-! ## Runs -/

section Runs

variable {I H D : Type} [DecidableEq I] {s s' : I → Line I H D}

/-- **When deliveries are safe.** In any run, of calls for any IRQs and
deliveries in any interleaving, in which each delivery is entered only after
the call for its IRQ has executed `token->dev = dev`, every delivery calls
what was passed for its IRQ, acknowledges once after it, and reads nothing
that is not written. -/
theorem delivery_safe (h : (system I H D).ReachableBy (fun s x => EnteredLate (s x.1) x.2) s) (irq : I) :
    Safe irq (s irq) := by
  have hinv : ∀ irq, Inv irq (s irq) ∧ Late irq (s irq) := by
    refine h.invariant (I := fun s => ∀ irq, Inv irq (s irq) ∧ Late irq (s irq))
      (fun _ => ⟨init_inv, rfl, fun hne => absurd rfl hne⟩) ?_
    rintro s ⟨irq, a⟩ s' hI hok hs
    obtain ⟨l, hl, rfl⟩ := System.family_step.mp hs
    obtain ⟨hinv, hlate⟩ := hI irq
    exact (Function.forall_update_iff _ fun irq l => Inv irq l ∧ Late irq l).mpr
      ⟨⟨step_inv hinv (hlate.readsWritten hl) hl, step_late hlate hok hl⟩, fun irq' _ => hI irq'⟩
  exact (hinv irq).1.safe

/-- A delivery that is entered earlier can read `dev` at once, before it is
written. -/
theorem unsafe_of_early (h : (system I H D).Reachable s) {irq : I} {a : Act H D} (hearly : ¬ EnteredLate (s irq) a)
    (hs : (system I H D).step s (irq, a) = some s') :
    (system I H D).Can 1 (fun t => ¬ Safe irq (t irq)) s' := by
  have htoken : (s irq).token = tokenAt irq (s irq).call := by
    refine h.invariant (I := fun s => ∀ irq, (s irq).token = tokenAt irq (s irq).call) (fun _ => rfl) ?_ irq
    rintro s ⟨irq, a⟩ s' hI - hs
    obtain ⟨l, hl, rfl⟩ := System.family_step.mp hs
    exact (Function.forall_update_iff _ fun irq (l : Line I H D) => l.token = tokenAt irq l.call).mpr
      ⟨step_token (hI irq) hl, fun irq' _ => hI irq'⟩
  obtain ⟨l, hl, rfl⟩ := System.family_step.mp hs
  cases a with
  | deliver =>
    have hnot : (s irq).call.map (·.place) ≠ some .done := hearly
    have hdev : (s irq).token.dev = none := by
      rw [htoken]
      cases hc : (s irq).call with
      | none => rfl
      | some c =>
        rw [hc, Option.map_some, ne_eq, Option.some.injEq] at hnot
        cases hp : c.place with
        | done => exact absurd hp hnot
        | malloc | enter | inside | setHandler | setIrq | setDev => simp only [tokenAt, hp]
    simp only [line, step] at hl
    split at hl
    · split at hl <;> cases hl
      refine (System.Can.here ?_).head (a := (irq, .loadDev))
        (System.family_step.mpr ⟨_, by rw [Function.update_self]; rfl, rfl⟩)
      intro hsafe
      have hread := hsafe.1
      simp [hdev] at hread
    · cases hl
  | call | next | loadHandler | loadDev | callHandler | handlerReturns | ack => exact absurd trivial hearly

end Runs

/-- The calls for IRQ 3 and IRQ 4 are made at the same time, and each is
delivered as soon as its own is over. -/
def requestTwo : List (Nat × Act Char Char) :=
  [(3, .call 'g' 'c'), (4, .call 'h' 'd')] ++ (List.replicate 6 [(4, .next), (3, .next)]).flatten.take 11 ++
    [(4, .deliver), (4, .loadDev), (3, .next), (3, .deliver), (4, .loadHandler), (3, .loadHandler), (4, .callHandler),
      (3, .loadDev), (4, .handlerReturns), (4, .ack), (3, .callHandler)]

theorem delivery_safe_requestTwo : ∃ s, (system Nat Char Char).exec (system _ _ _).init requestTwo = some s ∧
    (s 4).log = [.called 4 (some 'h') (some 'd'), .returned, .acked] ∧
    (s 3).log = [.called 3 (some 'g') (some 'c')] ∧ Safe 4 (s 4) ∧ Safe 3 (s 3) := by
  have hsteps : (system Nat Char Char).Steps (fun s x => EnteredLate (s x.1) x.2) (system _ _ _).init requestTwo := by
    decide
  refine ⟨_, rfl, rfl, rfl, delivery_safe (System.ReachableBy.steps .init requestTwo hsteps rfl) 4,
    delivery_safe (System.ReachableBy.steps .init requestTwo hsteps rfl) 3⟩

/-- IRQ 4 is delivered while its call is still in the server. -/
def deliverInside : List (Nat × Act Char Char) :=
  [(4, .call 'h' 'd'), (4, .next), (4, .next), (4, .deliver), (4, .loadHandler), (4, .loadDev), (4, .callHandler)]

theorem delivery_of_unwritten : ∃ s, (system Nat Char Char).Reachable s ∧
    (s 4).log = [.called 4 none none] ∧ ¬ Safe 4 (s 4) := by
  refine ⟨_, System.Reachable.exec .init deliverInside rfl, rfl, fun h => ?_⟩
  cases h.1

end Lmsel4.Interrupt
