import Mathlib.Logic.Basic

/-!
# Effects with exceptions and a trace

Methods that read and write a state, may raise, and leave a trace of the calls they made.  What
was done before an exception stays done: an exception does not roll the state or the trace back.

`Triple P x Q` is the specification of such a method: from every state that meets `P`, it appends
some events to the trace, and its result, the state it leaves and those events meet `Q`.
`Triple.bind` composes two of them; its last premise is the case where the first one raises.

`Respects R x` is the same for two runs at once: from states that `R` relates, the method returns
the same, leaves the same events, and ends in states that `R` relates.
-/

namespace Effect

/-- A state with the trace of what happened so far. -/
structure Traced (σ E : Type) where
  state : σ
  trace : List E := []

/-- A method. -/
def Eff (ε σ E α : Type) := Traced σ E → Except ε α × Traced σ E

variable {ε σ E α β : Type}

instance : Monad (Eff ε σ E) where
  pure a := fun c => (.ok a, c)
  bind x f := fun c =>
    match x c with
    | (.ok a, c) => f a c
    | (.error e, c) => (.error e, c)

/-- Raise an exception. -/
def raise (e : ε) : Eff ε σ E α := fun c => (.error e, c)

/-- Append an event to the trace. -/
def emit (e : E) : Eff ε σ E Unit := fun c => (.ok (), { c with trace := c.trace ++ [e] })

/-- Read the state. -/
def gets (f : σ → α) : Eff ε σ E α := fun c => (.ok (f c.state), c)

/-- Write the state. -/
def modify (f : σ → σ) : Eff ε σ E Unit := fun c => (.ok (), { c with state := f c.state })

/-- Call a function on the state that may raise. -/
def perform (f : σ → Except ε α × σ) : Eff ε σ E α :=
  fun c => ((f c.state).1, { c with state := (f c.state).2 })

/-- Call such a function and note afterwards how it came back. -/
def performNoting (note : Except ε α → E) (f : σ → Except ε α × σ) : Eff ε σ E α :=
  fun c => ((f c.state).1, { state := (f c.state).2, trace := c.trace ++ [note (f c.state).1] })

/-- `begin .. rescue e; handler; raise; end`, for the exceptions that `p` selects. -/
def onError (p : ε → Bool) (handler : Eff ε σ E Unit) (x : Eff ε σ E α) : Eff ε σ E α := fun c =>
  match x c with
  | (.error e, c) =>
      if p e then (do handler; raise e : Eff ε σ E α) c else (.error e, c)
  | r => r

/-- From a state that meets `P`, the method appends events to the trace such that `Q` holds of its
result, the state it leaves and these events. -/
def Triple (P : σ → Prop) (x : Eff ε σ E α) (Q : Except ε α → σ → List E → Prop) : Prop :=
  ∀ c, P c.state → ∃ es, (x c).2.trace = c.trace ++ es ∧ Q (x c).1 (x c).2.state es

variable {P P' : σ → Prop} {Q Q' : Except ε α → σ → List E → Prop}
  {R : Except ε β → σ → List E → Prop} {x : Eff ε σ E α} {f : α → Eff ε σ E β}

lemma Triple.mono (h : Triple P x Q) (hP : ∀ s, P' s → P s)
    (hQ : ∀ r s es, Q r s es → Q' r s es) : Triple P' x Q' := by
  intro c hc
  obtain ⟨es, htrace, hq⟩ := h c (hP _ hc)
  exact ⟨es, htrace, hQ _ _ _ hq⟩

lemma Triple.pure {a : α} (h : ∀ s, P s → Q (.ok a) s []) :
    Triple P (Pure.pure a : Eff ε σ E α) Q :=
  fun _ hc => ⟨[], (List.append_nil _).symm, h _ hc⟩

lemma Triple.raise {e : ε} (h : ∀ s, P s → Q (.error e) s []) :
    Triple P (Effect.raise e : Eff ε σ E α) Q :=
  fun _ hc => ⟨[], (List.append_nil _).symm, h _ hc⟩

lemma Triple.emit {e : E} {Q : Except ε Unit → σ → List E → Prop}
    (h : ∀ s, P s → Q (.ok ()) s [e]) : Triple P (Effect.emit e) Q :=
  fun _ hc => ⟨[e], rfl, h _ hc⟩

lemma Triple.gets {g : σ → α} (h : ∀ s, P s → Q (.ok (g s)) s []) :
    Triple P (Effect.gets g) Q :=
  fun _ hc => ⟨[], (List.append_nil _).symm, h _ hc⟩

lemma Triple.modify {g : σ → σ} {Q : Except ε Unit → σ → List E → Prop}
    (h : ∀ s, P s → Q (.ok ()) (g s) []) : Triple P (Effect.modify g) Q :=
  fun _ hc => ⟨[], (List.append_nil _).symm, h _ hc⟩

lemma Triple.perform {g : σ → Except ε α × σ} (h : ∀ s, P s → Q (g s).1 (g s).2 []) :
    Triple P (Effect.perform g) Q :=
  fun _ hc => ⟨[], (List.append_nil _).symm, h _ hc⟩

lemma Triple.performNoting {note : Except ε α → E} {g : σ → Except ε α × σ}
    (h : ∀ s, P s → Q (g s).1 (g s).2 [note (g s).1]) :
    Triple P (Effect.performNoting note g) Q :=
  fun c hc => ⟨[note (g c.state).1], rfl, h _ hc⟩

lemma bind_of_ok {c c' : Traced σ E} {a : α} (h : x c = (.ok a, c')) :
    (x >>= f) c = f a c' := by
  change (match x c with | (.ok a, c) => f a c | (.error e, c) => (.error e, c)) = _
  rw [h]

lemma bind_of_error {c c' : Traced σ E} {e : ε} (h : x c = (.error e, c')) :
    (x >>= f) c = (.error e, c') := by
  change (match x c with | (.ok a, c) => f a c | (.error e, c) => (.error e, c)) = _
  rw [h]

/-- What returned needed no handler. -/
lemma of_onError_ok {p : ε → Bool} {handler : Eff ε σ E Unit} {c c' : Traced σ E} {a : α}
    (h : onError p handler x c = (.ok a, c')) : x c = (.ok a, c') := by
  unfold onError at h
  rcases hxc : x c with ⟨r, t⟩
  simp only [hxc] at h
  cases r with
  | ok b => exact h
  | error e =>
      by_cases he : p e
      · simp only [he, if_true] at h
        rcases ht : handler t with ⟨r, t'⟩
        cases r with
        | ok _ => simp [bind_of_ok ht, raise] at h
        | error e' => simp [bind_of_error ht] at h
      · simp [he] at h

/-- **Sequencing.**  The events of both parts, in order; if the first part raises, its own. -/
theorem Triple.bind (hx : Triple P x Q)
    (hf : ∀ a es, Triple (fun s => Q (.ok a) s es) (f a) fun r s es' => R r s (es ++ es'))
    (he : ∀ e s es, Q (.error e) s es → R (.error e) s es) : Triple P (x >>= f) R := by
  intro c hc
  obtain ⟨es, htrace, hq⟩ := hx c hc
  rcases hxc : x c with ⟨r, c'⟩
  rw [hxc] at htrace hq
  cases r with
  | error e =>
      rw [bind_of_error hxc]
      exact ⟨es, htrace, he e _ es hq⟩
  | ok a =>
      obtain ⟨es', htrace', hr⟩ := hf a es c' hq
      rw [bind_of_ok hxc]
      exact ⟨es ++ es', by rw [htrace', htrace, List.append_assoc], hr⟩

/-- A fact that the precondition implies may be assumed. -/
lemma Triple.of_fact {p : Prop} (hp : ∀ s, P s → p) (h : p → Triple P x Q) : Triple P x Q :=
  fun c hc => h (hp _ hc) c hc

/-- Reading the state does not raise and leaves no event. -/
lemma Triple.gets_bind {g : σ → α}
    (h : ∀ a, Triple (fun s => P s ∧ g s = a) (f a) R) : Triple P (Effect.gets g >>= f) R :=
  fun c hc => h (g c.state) c ⟨hc, rfl⟩

/-- Nor does emitting an event raise. -/
lemma Triple.emit_bind {e : E} {k : Unit → Eff ε σ E β}
    (h : Triple P (k ()) fun r s es => R r s (e :: es)) : Triple P (Effect.emit e >>= k) R := by
  intro c hc
  obtain ⟨es, htrace, hr⟩ := h { c with trace := c.trace ++ [e] } hc
  exact ⟨e :: es, htrace.trans (by simp), hr⟩

/-- Nor does writing the state. -/
lemma Triple.modify_bind {g : σ → σ} {k : Unit → Eff ε σ E β} (h : Triple P' (k ()) R)
    (hP : ∀ s, P s → P' (g s)) : Triple P (Effect.modify g >>= k) R :=
  fun c hc => h { c with state := g c.state } (hP _ hc)

/-- A first part that leaves no event and keeps what is known about the state. -/
lemma Triple.bind_silent (hx : Triple P x fun _ s es => es = [] ∧ P' s)
    (hf : ∀ a, Triple P' (f a) R) (he : ∀ e s, P' s → R (.error e) s []) :
    Triple P (x >>= f) R := by
  refine hx.bind (fun a es => ?_) fun e s es h => ?_
  · rintro c ⟨rfl, hc⟩
    exact hf a c hc
  · obtain ⟨rfl, h⟩ := h
    exact he e s h

/-! ## Two runs of one method -/

/-- From related states the method returns the same and leaves the same events, and the states it
leaves are related. -/
def Respects (R : σ → σ → Prop) (x : Eff ε σ E α) : Prop :=
  ∀ c c' : Traced σ E, R c.state c'.state → c.trace = c'.trace →
    (x c).1 = (x c').1 ∧ (x c).2.trace = (x c').2.trace ∧ R (x c).2.state (x c').2.state

section Respects

variable {S : σ → σ → Prop}

lemma Respects.pure {a : α} : Respects S (Pure.pure a : Eff ε σ E α) :=
  fun _ _ hs htrace => ⟨rfl, htrace, hs⟩

lemma Respects.raise {e : ε} : Respects S (Effect.raise e : Eff ε σ E α) :=
  fun _ _ hs htrace => ⟨rfl, htrace, hs⟩

lemma Respects.emit {e : E} : Respects S (Effect.emit e : Eff ε σ E Unit) :=
  fun _ _ hs htrace => ⟨rfl, congrArg (· ++ [e]) htrace, hs⟩

lemma Respects.gets {g : σ → α} (h : ∀ s s', S s s' → g s = g s') :
    Respects S (Effect.gets g : Eff ε σ E α) :=
  fun _ _ hs htrace => ⟨congrArg Except.ok (h _ _ hs), htrace, hs⟩

lemma Respects.modify {g : σ → σ} (h : ∀ s s', S s s' → S (g s) (g s')) :
    Respects S (Effect.modify g : Eff ε σ E Unit) :=
  fun _ _ hs htrace => ⟨rfl, htrace, h _ _ hs⟩

lemma Respects.perform {g : σ → Except ε α × σ}
    (h : ∀ s s', S s s' → (g s).1 = (g s').1 ∧ S (g s).2 (g s').2) :
    Respects S (Effect.perform g : Eff ε σ E α) :=
  fun _ _ hs htrace => ⟨(h _ _ hs).1, htrace, (h _ _ hs).2⟩

lemma Respects.performNoting {note : Except ε α → E} {g : σ → Except ε α × σ}
    (h : ∀ s s', S s s' → (g s).1 = (g s').1 ∧ S (g s).2 (g s').2) :
    Respects S (Effect.performNoting note g : Eff ε σ E α) := by
  intro c c' hs htrace
  obtain ⟨hresult, hstate⟩ := h _ _ hs
  refine ⟨hresult, ?_, hstate⟩
  change c.trace ++ [note (g c.state).1] = c'.trace ++ [note (g c'.state).1]
  rw [htrace, hresult]

/-- **Sequencing, for two runs.** -/
theorem Respects.bind (hx : Respects S x) (hf : ∀ a, Respects S (f a)) :
    Respects S (x >>= f) := by
  intro c c' hs htrace
  obtain ⟨hresult, htrace', hstate⟩ := hx c c' hs htrace
  rcases hxc : x c with ⟨r, t⟩
  rcases hxc' : x c' with ⟨r', t'⟩
  simp only [hxc, hxc'] at hresult htrace' hstate
  subst hresult
  cases r with
  | error e =>
      rw [bind_of_error hxc, bind_of_error hxc']
      exact ⟨rfl, htrace', hstate⟩
  | ok a =>
      rw [bind_of_ok hxc, bind_of_ok hxc']
      exact hf a t t' hstate htrace'

end Respects

end Effect
