import Yrby.Framework.Transition

/-!
# Objects that call back into their environment

An object's method runs without interruption until it calls a function that was injected into
it.  That function belongs to the environment: before it returns or throws, it may call any
public method of the same object, at any nesting.  `Machine` describes such an object by the
stretches of code between these calls.  `call` starts a public method, `back` carries on after
the injected function that the top `Frame` waits for has come back with a `Ret`.

A configuration is the object's state, the stack of frames still waiting, and the trace of
events so far.  The environment moves in every configuration: it calls a public method, or it
lets the innermost injected function come back.  So a run of `Machine.step` is one possible
schedule of arbitrarily nested re-entrant calls.

`Keeps` and `Config.Inv.step` are the invariant rule: an invariant of the state and trace
together with a property of every waiting frame is preserved by all schedules as soon as each
single stretch of code preserves it.
-/

namespace Reentrant

/-- Where control goes at the end of a stretch of code: back to the caller, normally or with an
exception, or into an injected function, with a frame that waits for it. -/
inductive Control (Frame : Type*)
  | returned
  | threw
  | awaits (frame : Frame)

/-- What a stretch of code leaves behind. -/
structure Outcome (σ Frame Event : Type*) where
  state : σ
  events : List Event := []
  control : Control Frame := .returned

/-- An object with injected functions. -/
structure Machine (σ Call Frame Ret Event : Type*) where
  /-- Run a public method up to its first injected call, or to its end. -/
  call : σ → Call → Outcome σ Frame Event
  /-- Carry on after an injected call; `none` when the frame does not wait for such a result. -/
  back : σ → Frame → Ret → Option (Outcome σ Frame Event)

/-- A configuration: the object, the frames that wait (innermost first), the events so far. -/
structure Config (σ Frame Event : Type*) where
  state : σ
  stack : List Frame := []
  trace : List Event := []

/-- A move of the environment. -/
inductive Move (Call Ret : Type*)
  | call (c : Call)
  | back (r : Ret)

variable {σ Call Frame Ret Event : Type*}

/-- The stack once a stretch of code ends in `control`. -/
def Control.push (stack : List Frame) : Control Frame → List Frame
  | .awaits f => f :: stack
  | _ => stack

/-- The configuration once a stretch of code with frames `stack` below it has ended. -/
def Config.resume (c : Config σ Frame Event) (stack : List Frame)
    (o : Outcome σ Frame Event) : Config σ Frame Event :=
  { state := o.state, stack := o.control.push stack, trace := c.trace ++ o.events }

/-- One move of the environment. -/
def Machine.step (M : Machine σ Call Frame Ret Event) (c : Config σ Frame Event) :
    Move Call Ret → Option (Config σ Frame Event)
  | .call x => some (c.resume c.stack (M.call c.state x))
  | .back r =>
      match c.stack with
      | [] => none
      | f :: rest => (M.back c.state f r).map (c.resume rest)

section Invariants

variable {M : Machine σ Call Frame Ret Event} {c c' : Config σ Frame Event}

lemma Machine.step_call (x : Call) :
    M.step c (.call x) = some (c.resume c.stack (M.call c.state x)) := rfl

lemma Machine.step_back_eq_some {r : Ret} :
    M.step c (.back r) = some c' ↔
      ∃ f rest o, c.stack = f :: rest ∧ M.back c.state f r = some o ∧ c' = c.resume rest o := by
  cases hst : c.stack with
  | nil => simp [Machine.step, hst]
  | cons f rest => simp [Machine.step, hst, eq_comm]

/-- One move is a stretch of code `o` run over some frames below it. -/
lemma Machine.step_eq_some {m : Move Call Ret} (h : M.step c m = some c') :
    ∃ o stack, c' = c.resume stack o ∧ stack ⊆ c.stack ∧
      ((∃ x, m = .call x ∧ o = M.call c.state x) ∨
        ∃ f rest r, c.stack = f :: rest ∧ m = .back r ∧ M.back c.state f r = some o) := by
  cases m with
  | call x =>
      obtain rfl := Option.some.inj h
      exact ⟨_, _, rfl, List.Subset.refl _, .inl ⟨x, rfl, rfl⟩⟩
  | back r =>
      obtain ⟨f, rest, o, hst, ho, rfl⟩ := Machine.step_back_eq_some.1 h
      refine ⟨o, rest, rfl, ?_, .inr ⟨f, rest, r, hst, rfl, ho⟩⟩
      simp [hst]

/-- An invariant of the state and trace, with a property of every waiting frame. -/
structure Config.Inv (I : σ → List Event → Prop) (F : σ → List Event → Frame → Prop)
    (c : Config σ Frame Event) : Prop where
  state : I c.state c.trace
  frames : ∀ f ∈ c.stack, F c.state c.trace f

/-- A stretch of code that starts in `s` after `trace` keeps the invariant: of the state, of
every frame that was waiting before, and of the frame it leaves waiting. -/
structure Keeps (I : σ → List Event → Prop) (F : σ → List Event → Frame → Prop)
    (s : σ) (trace : List Event) (o : Outcome σ Frame Event) : Prop where
  state : I o.state (trace ++ o.events)
  frames : ∀ f, F s trace f → F o.state (trace ++ o.events) f
  awaits : ∀ f, o.control = .awaits f → F o.state (trace ++ o.events) f

variable {I : σ → List Event → Prop} {F : σ → List Event → Frame → Prop}

/-- A stretch of code that first moves the object from `s` to `s'` without calling out. -/
lemma Keeps.of_state {s s' : σ} {trace : List Event} {o : Outcome σ Frame Event}
    (h : Keeps I F s' trace o) (hF : ∀ f, F s trace f → F s' trace f) : Keeps I F s trace o :=
  ⟨h.state, fun f hf => h.frames f (hF f hf), h.awaits⟩

/-- A stretch of code that first emits `e`. -/
lemma Keeps.emit {s : σ} {trace : List Event} {o : Outcome σ Frame Event} {e : Event}
    (h : Keeps I F s (trace ++ [e]) o) (hF : ∀ f, F s trace f → F s (trace ++ [e]) f) :
    Keeps I F s trace { o with events := e :: o.events } := by
  refine ⟨?_, fun f hf => ?_, fun f hf => ?_⟩
  · simpa using h.state
  · simpa using h.frames f (hF f hf)
  · simpa using h.awaits f hf

/-- A stretch of code that ends at once in state `s'`. -/
lemma Keeps.of_end {s s' : σ} {trace : List Event} {o : Outcome σ Frame Event}
    (ho : o.state = s') (he : o.events = []) (hc : ∀ f, o.control ≠ .awaits f)
    (hI : I s' trace) (hF : ∀ f, F s trace f → F s' trace f) : Keeps I F s trace o := by
  refine ⟨?_, fun f hf => ?_, fun f hf => absurd hf (hc f)⟩
  · simpa [ho, he] using hI
  · simpa [ho, he] using hF f hf

/-- A stretch of code that emits `e` and calls an injected function. -/
lemma Keeps.of_await {s s' : σ} {trace : List Event} {o : Outcome σ Frame Event} {e : Event}
    {f : Frame} (ho : o.state = s') (he : o.events = [e]) (hc : o.control = .awaits f)
    (hI : I s' (trace ++ [e])) (hF : ∀ f, F s trace f → F s' (trace ++ [e]) f)
    (hf : F s' (trace ++ [e]) f) : Keeps I F s trace o := by
  refine ⟨?_, fun f hf => ?_, fun g hg => ?_⟩
  · simpa [ho, he] using hI
  · simpa [ho, he] using hF f hf
  · obtain rfl : f = g := by simpa [hc] using hg
    simpa [ho, he] using hf

lemma Config.Inv.resume (h : c.Inv I F) {stack : List Frame} (hst : stack ⊆ c.stack)
    {o : Outcome σ Frame Event} (ho : Keeps I F c.state c.trace o) :
    (c.resume stack o).Inv I F := by
  refine ⟨ho.state, fun f hf => ?_⟩
  have old : ∀ f ∈ stack, F o.state (c.trace ++ o.events) f :=
    fun f hf => ho.frames f (h.frames f (hst hf))
  cases hc : o.control with
  | awaits g =>
      have hf' : f = g ∨ f ∈ stack := by simpa [Config.resume, Control.push, hc] using hf
      rcases hf' with rfl | hf'
      · exact ho.awaits f hc
      · exact old f hf'
  | returned => exact old f (by simpa [Config.resume, Control.push, hc] using hf)
  | threw => exact old f (by simpa [Config.resume, Control.push, hc] using hf)

/-- **The invariant rule for re-entrant objects.**  If the method a move calls, and every
continuation, keeps the invariant from wherever it starts, so does the move. -/
theorem Config.Inv.step (h : c.Inv I F) {m : Move Call Ret}
    (hcall : ∀ x, m = .call x → Keeps I F c.state c.trace (M.call c.state x))
    (hback : ∀ f rest r o, c.stack = f :: rest → m = .back r → F c.state c.trace f →
      M.back c.state f r = some o → Keeps I F c.state c.trace o)
    (hm : M.step c m = some c') : c'.Inv I F := by
  obtain ⟨o, stack, rfl, hst, ⟨x, hx, rfl⟩ | ⟨f, rest, r, hf, hr, ho⟩⟩ := Machine.step_eq_some hm
  · exact h.resume hst (hcall x hx)
  · exact h.resume hst (hback f rest r o hf hr (h.frames f (by simp [hf])) ho)

end Invariants

end Reentrant
