import Yrby.Client.ActionCableProvider

/-!
# The provider's invariant, and its session (`actioncable_provider.ts`)

`Inv` is what holds of the provider wherever it is.  One `#stop` is under way exactly while the
provider is stopping, one `connect` while it is subscribing; and unless the provider is connected,
or a `#stop` has not paused the session yet, delivery is paused and nobody is about to resume it.

Most of the time the provider is inside its session or the session's queue.  `Steady` and `Stays`
say what a stretch of these two objects can do, and `Inner` what it can do to the provider;
`Inv.inner` is the one lemma that says that such a stretch keeps the invariant.
-/

namespace Yrby

open Reentrant Wire

namespace ReliableSync

/-- The queue is destroyed, and holds nothing. -/
def State.Dead (s : State) : Prop := s.phase = .destroyed ∧ s.pending = []

/-- A stretch of the queue that starts in `s` and stays in its phase, unless delivery is `woken`. -/
structure Steady (woken : Prop) (s : State) (o : Out) : Prop where
  sends : Sends (fun _ _ => True) s [] o
  phase : o.state.phase = s.phase ∨ (woken ∧ o.state.phase = .live)
  dead : s.Dead → o.state.Dead

lemma steady_updateTimer {s : State} (h : TailInv (fun _ _ => True) s []) (next : Next) :
    Steady False s (updateTimer s next) :=
  ⟨sends_updateTimer h next, .inl (by simp), fun hd => by simpa [State.Dead] using hd⟩

/-- `pause` and `destroy` are the calls that leave the phase. -/
lemma steady_call {s : State} (h : TailInv (fun _ _ => True) s []) {c : Call} (hp : c ≠ .pause)
    (hd : c ≠ .destroy) : Steady (c = .resume) s (call s c) := by
  refine ⟨sends_call h c, ?_, fun hdead => ?_⟩
  · cases c with
    | enqueue update =>
        simp only [call, enqueue]
        split
        · exact .inl rfl
        · exact .inl (by simp)
    | acknowledge id =>
        cases id with
        | other => exact .inl rfl
        | integer n =>
            simp only [call, acknowledge]
            split
            · exact .inl (by simp)
            · exact .inl rfl
    | resume =>
        simp only [call, resume]
        split
        · exact .inl rfl
        · exact .inr ⟨trivial, by simp⟩
    | pause => exact absurd rfl hp
    | retransmit => exact .inl (by simp [call, retransmit])
    | destroy => exact absurd rfl hd
    | tick timer =>
        simp only [call, tick]
        split
        · exact .inl (by simp)
        · exact .inl rfl
  · obtain ⟨hphase, hpending⟩ := hdead
    cases c with
    | enqueue update => simpa [call, enqueue, hphase] using ⟨hphase, hpending⟩
    | acknowledge id =>
        cases id with
        | other => exact ⟨hphase, hpending⟩
        | integer n =>
            have : ackAccepted s (.integer n) = false := by simp [ackAccepted, hphase]
            simpa [call, acknowledge, this] using ⟨hphase, hpending⟩
    | resume => simpa [call, resume, hphase] using ⟨hphase, hpending⟩
    | pause => exact absurd rfl hp
    | retransmit => simp [call, retransmit, State.Dead, hphase, hpending]
    | destroy => exact absurd rfl hd
    | tick timer =>
        simp only [call, tick]
        split
        · simp [State.Dead, hphase, hpending]
        · exact ⟨hphase, hpending⟩

lemma steady_back {s : State} (h : TailInv (fun _ _ => True) s []) {f : Frame} {r : Ret} {o : Out}
    (hf : MergeFrame s [] f) (ho : back s f r = some o) : Steady False s o := by
  refine ⟨sends_back h hf (fun _ _ _ _ _ => trivial) ho, .inl (back_keeps ho).2, fun hdead => ?_⟩
  exact ⟨by rw [(back_keeps ho).2]; exact hdead.1, by rw [(back_keeps ho).1]; exact hdead.2⟩

end ReliableSync

namespace Session

/-! ## What a stretch of the session does to its cycle -/

/-- The cycle that a waiting `resume` checks before it goes on. -/
def Frame.cycle? : Frame → Option ℕ
  | .hello cycle | .presence cycle => some cycle
  | _ => none

/-- What only `pause` and `destroy` call. -/
def External.Stops : External → Prop
  | .deliveryPause | .deliveryDestroy => True
  | _ => False

/-- The frame that a stretch leaves waiting, and what it calls.  `cycle` is the cycle that whoever
carried on was waiting in: only there is delivery resumed. -/
def Calls (s : State) (cycle : Option ℕ) (o : Out) : Prop :=
  ∀ g, o.control = .awaits g → (g.cycle? = none ∨ g.cycle? = cycle) ∧
    ∃ x, ActionCableProvider.externalOf o.events = some x ∧ ¬x.Stops ∧
      (x = .deliveryResume → ∃ n, cycle = some n ∧ s.current n)

/-- A stretch that starts in `s` and stays in its cycle. -/
structure Stays (s : State) (cycle : Option ℕ) (o : Out) : Prop where
  cycles : o.state.cycles = s.cycles
  protocol : o.state.cycle? = s.cycle?
  calls : Calls s cycle o

lemma stays_state {s s' : State} {cycle : Option ℕ} {events : List Event} {control : Control Frame}
    (hn : s'.cycles = s.cycles) (hc : s'.cycle? = s.cycle?) (he : ∀ g, control ≠ .awaits g) :
    Stays s cycle { state := s', events, control } :=
  ⟨hn, hc, fun g hg => absurd hg (he g)⟩

lemma stays_await {s s' : State} {cycle : Option ℕ} {x : External} {g : Frame}
    (hn : s'.cycles = s.cycles) (hc : s'.cycle? = s.cycle?)
    (hg : g.cycle? = none ∨ g.cycle? = cycle) (hx : ¬x.Stops)
    (hr : x = .deliveryResume → ∃ n, cycle = some n ∧ s.current n) :
    Stays s cycle (await s' x g) := by
  refine ⟨hn, hc, fun f hf => ?_⟩
  obtain rfl : g = f := by simpa [await] using hf
  exact ⟨hg, x, rfl, hx, hr⟩

lemma stays_fail (s : State) (cycle : Option ℕ) (n : ℕ) : Stays s cycle (fail s n) := by
  unfold fail
  split
  · exact stays_await rfl rfl (.inl rfl) (by simp [External.Stops]) (by simp)
  · exact stays_state rfl rfl (by simp)

lemma stays_emitting {s : State} {cycle : Option ℕ} {o : Out} {e : Event}
    (he : ∀ x, e ≠ .call x) (h : Stays s cycle o) : Stays s cycle (emitting e o) := by
  refine ⟨h.cycles, h.protocol, fun g hg => ?_⟩
  obtain ⟨hcycle, x, hx, hrest⟩ := h.calls g hg
  refine ⟨hcycle, x, ?_, hrest⟩
  cases e with
  | call y => exact absurd rfl (he y)
  | _ => simpa [emitting, ActionCableProvider.externalOf] using hx

lemma current_iff {s : State} {n : ℕ} : s.current n ↔ s.cycle? = some n := by
  unfold State.current State.cycle?
  cases s.protocol <;> simp

lemma stays_afterRead (s : State) (cycle : Option ℕ) (step2 : Option ℕ) (n : ℕ) :
    Stays s cycle (afterRead s step2 n) := by
  unfold afterRead
  split
  · rename_i h
    exact stays_state rfl (current_iff.1 h.2).symm (by simp)
  · exact stays_state rfl rfl (by simp)

lemma stays_readSyncMessage (s : State) (cycle : Option ℕ) (n type : ℕ) (payload : Bytes) :
    Stays s cycle (readSyncMessage s n type payload) := by
  unfold readSyncMessage
  split
  · exact stays_await rfl rfl (.inl rfl) (by simp [External.Stops]) (by simp)
  · refine stays_emitting (by simp) ?_
    exact stays_await rfl rfl (.inl rfl) (by simp [External.Stops]) (by simp)
  · exact stays_await rfl rfl (.inl rfl) (by simp [External.Stops]) (by simp)
  · exact stays_fail s cycle n

lemma stays_receive (parsesJson : Bytes → Bool) (s : State) (frame : Bytes) :
    Stays s none (receive parsesJson s frame) := by
  have stay : Stays s none { state := s } := stays_state rfl rfl (by simp)
  unfold receive
  split
  · exact stay
  · rename_i n hn
    split
    · exact stays_fail s none n
    · exact stay
    · split
      · exact stays_fail s none n
      · exact stays_readSyncMessage s none n _ _
      · split
        · exact stays_await rfl rfl (.inl rfl) (by simp [External.Stops]) (by simp)
        · exact stay

/-- `resume`, `pause` and `destroy` are the calls that leave the cycle. -/
lemma stays_call (parsesJson : Bytes → Bool) (s : State) {c : Call} (hr : c ≠ .resume)
    (hp : c ≠ .pause) (hd : c ≠ .destroy) : Stays s none (call parsesJson s c) := by
  have stay : Stays s none { state := s } := stays_state rfl rfl (by simp)
  cases c with
  | resume => exact absurd rfl hr
  | pause => exact absurd rfl hp
  | destroy => exact absurd rfl hd
  | applyRemoteUpdate update =>
      simp only [call, applyRemoteUpdate]
      split
      · exact stay
      · exact stays_await rfl rfl (.inl rfl) (by simp [External.Stops]) (by simp)
  | receive frame => exact stays_receive parsesJson s frame
  | removeLocalAwareness =>
      simp only [call, removeLocalAwareness]
      split
      · exact stays_await rfl rfl (.inl rfl) (by simp [External.Stops]) (by simp)
      · exact stay
  | acknowledge id =>
      exact stays_await rfl rfl (.inl rfl) (by simp [External.Stops]) (by simp)
  | docUpdate update own =>
      simp only [call, onDocUpdate]
      split
      · exact stay
      · exact stays_await rfl rfl (.inl rfl) (by simp [External.Stops]) (by simp)
  | awarenessUpdate changed own =>
      simp only [call, onAwarenessUpdate]
      split
      · exact stay
      · exact stays_await rfl rfl (.inl rfl) (by simp [External.Stops]) (by simp)
  | awarenessIs hasLocalState remote => exact stays_state rfl rfl (by simp)

lemma stays_back {s : State} {f : Frame} {r : Ret} {o : Out} (h : back s f r = some o) :
    Stays s f.cycle? o := by
  cases f with
  | last =>
      cases r <;> simp only [back, Option.some.injEq, reduceCtorEq] at h <;> subst h <;>
        exact stays_state rfl rfl (by simp)
  | hello cycle =>
      cases r <;> simp only [back, Option.some.injEq, reduceCtorEq] at h
      · split at h
        · obtain rfl := Option.some.inj h
          exact stays_state rfl rfl (by simp)
        · rename_i hcur
          have hcur : s.current cycle = true := by simpa using hcur
          split at h <;> obtain rfl := Option.some.inj h
          · exact stays_await rfl rfl (.inr rfl) (by simp [External.Stops]) (by simp)
          · exact stays_await rfl rfl (.inl rfl) (by simp [External.Stops])
              fun _ => ⟨cycle, rfl, hcur⟩
      · subst h
        exact stays_state rfl rfl (by simp)
  | presence cycle =>
      cases r <;> simp only [back, Option.some.injEq, reduceCtorEq] at h
      · split at h <;> obtain rfl := Option.some.inj h
        · rename_i hcur
          exact stays_await rfl rfl (.inl rfl) (by simp [External.Stops])
            fun _ => ⟨cycle, rfl, hcur⟩
        · exact stays_state rfl rfl (by simp)
      · subst h
        exact stays_state rfl rfl (by simp)
  | pausing =>
      cases r <;> simp only [back, Option.some.injEq, reduceCtorEq] at h
      · split at h <;> obtain rfl := Option.some.inj h
        · exact stays_await rfl rfl (.inl rfl) (by simp [External.Stops]) (by simp)
        · exact stays_state rfl rfl (by simp)
      · subst h
        exact stays_state rfl rfl (by simp)
  | answering cycle =>
      cases r <;> simp only [back, Option.some.injEq, reduceCtorEq] at h <;> subst h
      · exact stays_state rfl rfl (by simp)
      · exact stays_fail s none cycle
  | applyingAwareness cycle =>
      cases r <;> simp only [back, Option.some.injEq, reduceCtorEq] at h <;> subst h
      · exact stays_state rfl rfl (by simp)
      · exact stays_fail s none cycle
  | applying step2 cycle =>
      cases r <;> simp only [back, reduceCtorEq] at h
      · split at h <;> obtain rfl := Option.some.inj h
        · exact stays_emitting (by simp) (stays_afterRead s none _ cycle)
        · exact stays_afterRead s none _ cycle
      · split at h <;> obtain rfl := Option.some.inj h
        · exact stays_await rfl rfl (.inl rfl) (by simp [External.Stops]) (by simp)
        · exact stays_afterRead s none _ cycle
  | reporting step2 cycle =>
      cases r <;> simp only [back, Option.some.injEq, reduceCtorEq] at h <;> subst h
      · exact stays_afterRead s none _ cycle
      · exact stays_fail s none cycle

end Session

namespace ActionCableProvider

open ReliableSync (TailInv MergeFrame Steady)

/-! ## Frames -/

def Cont.next : Cont → SessionNext
  | .session _ next => next
  | .delivery _ (some (_, next)) => next
  | _ => .done

def Cont.session? : Cont → Option Session.Frame
  | .session f _ | .delivery _ (some (f, _)) => some f
  | _ => none

def Cont.queue? : Cont → Option ReliableSync.Frame
  | .delivery f _ => some f
  | _ => none

namespace Frame

/-- What follows the method of the session that the frame is part of. -/
def under : Frame → SessionNext
  | .within _ cont => cont.next
  | .after _ next => next
  | _ => .done

def cycle? : Frame → Option ℕ
  | .within _ cont => cont.session?.bind Session.Frame.cycle?
  | _ => none

def queue? : Frame → Option ReliableSync.Frame
  | .within _ cont => cont.queue?
  | _ => none

/-- The frame belongs to a `#stop` that has not let go of the subscription yet. -/
def stop? (f : Frame) : Option (ℕ × Subscription) :=
  match f.under with
  | .pausing a sub _ | .unsubscribing a sub _ => some (a, sub)
  | _ => none

/-- The `#stop` has not paused the session yet. -/
def isPausing (f : Frame) : Bool :=
  match f.under with
  | .pausing _ _ _ => true
  | _ => false

def attempt? : Frame → Option ℕ
  | .restoring a _ | .creating a => some a
  | _ => none

/-- `destroy` ends when the listeners have been told. -/
def Clears : Frame → Prop
  | .notifying _ _ (.stopped true _) | .listenerFailed _ _ (.stopped true _) => True
  | _ => False

/-- The frame belongs to a `destroy`. -/
def Destroys : Frame → Prop
  | .destroyingAwareness _ => True
  | .after _ (.destroying _) => True
  | .within _ cont => ∃ renewing, cont.next = .destroying renewing
  | f => f.Clears

/-- A frame inside a method of the session. -/
def Inside : Frame → Prop
  | .within _ _ | .after _ _ => True
  | _ => False

/-- What a `#stop` waits for: it cannot throw. -/
inductive Calm : Frame → Prop
  | localState (next : SessionNext) :
      Calm (.within (.session .setLocalStateNull) (.session .last next))
  | remoteStates (clients : List ℕ) (next : SessionNext) :
      Calm (.within (.session (.removeAwarenessStates clients)) (.session .last next))
  | inner {f : Session.Frame} (hf : f = .last ∨ f = .pausing) (next : SessionNext) :
      Calm (.within (.inner false) (.session f next))
  | timer {f : Session.Frame} (hf : f = .last ∨ f = .pausing) (next : SessionNext) :
      Calm (.within .queue (.delivery (.clearInterval .done) (some (f, next))))
  | after (reply : Option Bytes) (next : SessionNext) : Calm (.after reply next)

end Frame

/-! ## The invariant -/

def idle : StatusEvent := ⟨.disconnected, false⟩

/-- What a stretch inside the session may emit, while the provider is in state `st`: a reliable
frame only while delivery is live. -/
inductive Passes (st : ProviderState) (live : Prop) : Event → Prop
  | complained (context : String) : Passes st live (.complained context)
  | sent {sub : Subscription} {frame : Outgoing} {tag : Option ℕ} {whispered : Bool}
      (hsub : st.subscription? = some sub) (htag : tag.isSome → ¬st.isStopping ∧ live) :
      Passes st live (.sent st sub.number frame tag whispered)

/-- The session may be delivering. -/
def Loud (s : State) (stack : List Frame) : Prop :=
  (∃ a sub, s.state = .connected a sub) ∨ ∃ f ∈ stack, f.isPausing = true

/-- Delivery is paused, and nobody is about to resume it. -/
structure Hushed (s : State) (stack : List Frame) : Prop where
  paused : s.delivery.phase ≠ .live
  stale : ∀ f ∈ stack, ∀ n, f.cycle? = some n → s.session.cycle? ≠ some n

structure FrameOk (s : State) (trace : List Event) (f : Frame) : Prop where
  merge : ∀ q, f.queue? = some q → MergeFrame s.delivery [] q
  cycle : ∀ n, f.cycle? = some n → n < s.session.cycles
  stop : ∀ a sub, f.stop? = some (a, sub) → (∃ r, s.state = .stopping a sub r) ∧ f.Calm
  destroys : f.Destroys → s.state = .destroyed
  clears : f.Clears → s.last.2 = idle
  event : ∀ e, f.event? = some e → .destroyed ∈ trace → e = s.last.1 → s.statusListeners = []

structure Inv (s : State) (stack : List Frame) (trace : List Event) : Prop where
  frames : ∀ f ∈ stack, FrameOk s trace f
  tail : TailInv (fun _ _ => True) s.delivery []
  ended : s.state = .destroyed → s.session.cycle? = none ∧ s.delivery.Dead
  alive : s.state ≠ .destroyed → s.session.cycle? ≠ none ∧ s.delivery.phase ≠ .destroyed
  /-- There is one `#stop` under way exactly while the provider is stopping. -/
  stops : stack.countP (fun f => f.stop?.isSome) = if s.state.isStopping then 1 else 0
  /-- A `connect` is under way while the provider is subscribing. -/
  subscribing : ∀ a, s.state = .subscribing a → a < s.attempts ∧ ∃ f ∈ stack, f.attempt? = some a
  attempts : ∀ a params, .create a params ∈ trace → a < s.attempts
  cycles : ∀ n, s.session.cycle? = some n → n < s.session.cycles
  hush : Loud s stack ∨ Hushed s stack
  created : trace.filterMap Event.creates = List.range s.subscriptions
  custody : (held s ++ queued s ++ trace.filterMap Event.unsubscribes).Perm
    (List.range s.subscriptions)
  reliable : ∀ e ∈ trace, e.Reliable
  completed : .destroyed ∈ trace → s.state = .destroyed ∧ s.last.2 = idle
  silent : ∀ pre post, trace = pre ++ .destroyed :: post → ∀ e ∈ post, e.Silent

/-- The invariant after a stretch of code over the frames `rest`. -/
abbrev After (rest : List Frame) (trace : List Event) (o : Out) : Prop :=
  Inv o.state (o.control.push rest) (trace ++ o.events)

/-! ## Stretches inside the session -/

/-- A stretch of the session or the queue that starts in `s` and carries on for the frame `f`. -/
structure Inner (s : State) (f : Frame) (o : Out) : Prop where
  state : o.state = { s with session := o.state.session, delivery := o.state.delivery }
  cycles : o.state.session.cycles = s.session.cycles
  cycle : o.state.session.cycle? = s.session.cycle?
  tail : TailInv (fun _ _ => True) o.state.delivery []
  merge : ∀ q, MergeFrame s.delivery [] q → MergeFrame o.state.delivery [] q
  phase : o.state.delivery.phase = s.delivery.phase ∨
    (o.state.delivery.phase = .live ∧ ∃ n, f.cycle? = some n ∧ s.session.cycle? = some n)
  dead : s.delivery.Dead → o.state.delivery.Dead
  events : ∀ e ∈ o.events, Passes s.state (o.state.delivery.phase = .live) e
  awaits : ∀ g, o.control = .awaits g → g.Inside ∧ g.under = f.under ∧
    (g.cycle? = none ∨ g.cycle? = f.cycle?) ∧
    (∀ q, g.queue? = some q → MergeFrame o.state.delivery [] q) ∧ (f.stop?.isSome → g.Calm)
  ends : (∀ g, o.control ≠ .awaits g) → f.stop? = none

section Inner

variable {s : State} {f : Frame} {o : Out} {rest stack : List Frame} {trace : List Event}

lemma stop?_congr {f g : Frame} (h : g.under = f.under) : g.stop? = f.stop? := by
  simp only [Frame.stop?, h]

lemma isPausing_congr {f g : Frame} (h : g.under = f.under) : g.isPausing = f.isPausing := by
  simp only [Frame.isPausing, h]

/-- The frames that wait after a stretch: the new one, and those below. -/
lemma mem_push {control : Control Frame} {g : Frame} (h : g ∈ control.push rest) :
    control = .awaits g ∨ g ∈ rest := by
  cases control with
  | awaits f =>
      rcases List.mem_cons.1 h with rfl | hmem
      · exact .inl rfl
      · exact .inr hmem
  | returned => exact .inr h
  | threw => exact .inr h

lemma Frame.Inside.destroys {g f : Frame} (hg : g.Inside) (h : g.under = f.under) (hf : f.Inside)
    (hd : g.Destroys) : f.Destroys := by
  have destroying : ∃ renewing, g.under = .destroying renewing := by
    cases g with
    | within callee cont => exact hd
    | after reply next =>
        cases next with
        | destroying renewing => exact ⟨renewing, rfl⟩
        | _ => exact absurd hd (by simp [Frame.Destroys, Frame.Clears])
    | _ => exact absurd hg (by simp [Frame.Inside])
  obtain ⟨renewing, hunder⟩ := destroying
  rw [h] at hunder
  cases f with
  | within callee cont => exact ⟨renewing, hunder⟩
  | after reply next =>
      obtain rfl : next = .destroying renewing := hunder
      trivial
  | _ => exact absurd hf (by simp [Frame.Inside])

lemma Passes.filterMap {st : ProviderState} {live : Prop} {events : List Event}
    (h : ∀ e ∈ events, Passes st live e) :
    events.filterMap Event.creates = [] ∧ events.filterMap Event.unsubscribes = [] := by
  constructor
  · refine List.filterMap_eq_nil_iff.2 fun e he => ?_
    cases h e he <;> rfl
  · refine List.filterMap_eq_nil_iff.2 fun e he => ?_
    cases h e he <;> rfl

/-- Another frame for the same `#stop` or `destroy`, if any. -/
structure Continues (f g : Frame) : Prop where
  inside : g.Inside
  under : g.under = f.under
  cycle : g.cycle? = none ∨ g.cycle? = f.cycle?
  calm : f.stop?.isSome → g.Calm

lemma Frame.Inside.attempt?_eq {g : Frame} (h : g.Inside) : g.attempt? = none := by
  cases g <;> first | rfl | exact absurd h (by simp [Frame.Inside])

lemma Frame.Inside.event?_eq {g : Frame} (h : g.Inside) : g.event? = none := by
  cases g <;> first | rfl | exact absurd h (by simp [Frame.Inside])

lemma Frame.Inside.not_clears {g : Frame} (h : g.Inside) : ¬g.Clears := by
  cases g <;> simp_all [Frame.Inside, Frame.Clears]

lemma FrameOk.continues {g : Frame} (h : FrameOk s trace f) (hf : f.Inside) (hg : Continues f g)
    (hmerge : ∀ q, g.queue? = some q → MergeFrame s.delivery [] q) : FrameOk s trace g where
  merge := hmerge
  cycle n hn := by
    rcases hg.cycle with hnone | hsame
    · simp [hnone] at hn
    · exact h.cycle n (hsame ▸ hn)
  stop a sub hstop := by
    rw [stop?_congr hg.under] at hstop
    exact ⟨(h.stop a sub hstop).1, hg.calm (by simp [hstop])⟩
  destroys hd := h.destroys (hg.inside.destroys hg.under hf hd)
  clears hc := absurd hc hg.inside.not_clears
  event e he := by simp [hg.inside.event?_eq] at he

/-- A stretch inside the session leaves every frame as it was. -/
lemma FrameOk.inner {g : Frame} (h : FrameOk s trace g) {s' : State} {events : List Event}
    {session : Session.State} {delivery : ReliableSync.State}
    (hs : s' = { s with session, delivery }) (hcycles : session.cycles = s.session.cycles)
    (hmerge : ∀ q, MergeFrame s.delivery [] q → MergeFrame delivery [] q)
    (hevents : .destroyed ∉ events) : FrameOk s' (trace ++ events) g := by
  subst hs
  refine ⟨fun q hq => hmerge q (h.merge q hq), fun n hn => ?_, h.stop, h.destroys, h.clears,
    fun e he hmem => h.event e he ?_⟩
  · rw [hcycles]
    exact h.cycle n hn
  · exact (List.mem_append.1 hmem).resolve_right hevents

/-- A split of a longer trace at an event that is not in its end. -/
lemma split_append {pre post trace events : List Event}
    (h : trace ++ events = pre ++ .destroyed :: post) (hevents : .destroyed ∉ events) :
    ∃ front, trace = pre ++ .destroyed :: front ∧ post = front ++ events := by
  rcases List.append_eq_append_iff.1 h with ⟨as, rfl, hrest⟩ | ⟨bs, hbs, hrest⟩
  · exact absurd (hrest ▸ List.mem_append_right as List.mem_cons_self) hevents
  · cases bs with
    | nil =>
        obtain rfl : .destroyed :: post = events := hrest
        exact absurd List.mem_cons_self hevents
    | cons b bs =>
        obtain ⟨rfl, rfl⟩ := List.cons.inj hrest
        exact ⟨bs, hbs, rfl⟩

/-- After a `destroyed` of a longer trace all is silent, when its end is. -/
lemma silent_append {trace events : List Event}
    (silent : ∀ pre post, trace = pre ++ .destroyed :: post → ∀ e ∈ post, e.Silent)
    (hevents : .destroyed ∉ events) (hs : .destroyed ∈ trace → ∀ e ∈ events, e.Silent)
    (pre post : List Event) (h : trace ++ events = pre ++ .destroyed :: post) :
    ∀ e ∈ post, e.Silent := by
  intro e he
  obtain ⟨front, htrace, rfl⟩ := split_append h hevents
  rcases List.mem_append.1 he with he | he
  · exact silent pre front htrace e he
  · exact hs (by simp [htrace]) e he

lemma mem_push_of_mem {control : Control Frame} {g : Frame} (h : g ∈ rest) :
    g ∈ control.push rest := by
  cases control with
  | awaits f => exact List.mem_cons_of_mem f h
  | _ => exact h

namespace Inner

lemma state_eq (ho : Inner s f o) : o.state.state = s.state := by rw [ho.state]

lemma continues (ho : Inner s f o) {g : Frame} (hg : o.control = .awaits g) : Continues f g :=
  ⟨(ho.awaits g hg).1, (ho.awaits g hg).2.1, (ho.awaits g hg).2.2.1, (ho.awaits g hg).2.2.2.2⟩

lemma destroyed_notMem (ho : Inner s f o) : .destroyed ∉ o.events :=
  fun hmem => nomatch ho.events _ hmem

/-- The number of frames that belong to a `#stop` does not change. -/
lemma countP_push (ho : Inner s f o) :
    (o.control.push rest).countP (fun g => g.stop?.isSome) =
      (f :: rest).countP fun g => g.stop?.isSome := by
  cases hc : o.control with
  | awaits g => simp only [Control.push, List.countP_cons, stop?_congr (ho.continues hc).under]
  | returned => simp [Control.push, ho.ends (by simp [hc])]
  | threw => simp [Control.push, ho.ends (by simp [hc])]

lemma loud (ho : Inner s f o) (h : Loud s (f :: rest)) : Loud o.state (o.control.push rest) := by
  rcases h with hconn | ⟨g, hg, hpausing⟩
  · exact .inl (by rwa [ho.state_eq])
  · rcases List.mem_cons.1 hg with rfl | hg
    · have pausing : g.stop? ≠ none := fun hstop => by
        cases hu : g.under <;> simp_all [Frame.isPausing, Frame.stop?]
      cases hc : o.control with
      | awaits g' =>
          refine .inr ⟨g', List.mem_cons_self, ?_⟩
          rw [isPausing_congr (ho.continues hc).under]
          exact hpausing
      | returned => exact absurd (ho.ends (by simp [hc])) pausing
      | threw => exact absurd (ho.ends (by simp [hc])) pausing
    · exact .inr ⟨g, mem_push_of_mem hg, hpausing⟩

/-- Delivery goes live only if it was live, or for a frame that waits in the current cycle. -/
lemma not_hushed (ho : Inner s f o) (hlive : o.state.delivery.phase = .live) :
    ¬Hushed s (f :: rest) := by
  intro hq
  rcases ho.phase with hsame | ⟨-, n, hn, hcur⟩
  · exact hq.paused (hsame ▸ hlive)
  · exact hq.stale f List.mem_cons_self n hn hcur

lemma hushed (ho : Inner s f o) (h : Hushed s (f :: rest)) :
    Hushed o.state (o.control.push rest) := by
  refine ⟨fun hlive => ho.not_hushed hlive h, fun g hg n hn => ?_⟩
  rw [ho.cycle]
  rcases mem_push hg with hg | hg
  · rcases (ho.continues hg).cycle with hnone | hsame
    · simp [hnone] at hn
    · exact h.stale f List.mem_cons_self n (hsame ▸ hn)
  · exact h.stale g (List.mem_cons_of_mem f hg) n hn

/-- A reliable frame that a stretch sends goes out while the provider is connected. -/
lemma reliable (h : Inv s (f :: rest) trace) (ho : Inner s f o) {e : Event} (he : e ∈ o.events) :
    e.Reliable := by
  cases ho.events e he with
  | complained context => trivial
  | @sent sub frame tag whispered hsub htag =>
      cases tag with
      | none => trivial
      | some tag =>
          obtain ⟨hstop, hlive⟩ := htag rfl
          rcases h.hush.resolve_right (ho.not_hushed hlive) with
            ⟨a, sub', hconn⟩ | ⟨g, hg, hpausing⟩
          · rw [hconn] at hsub
            obtain rfl : sub' = sub := Option.some.inj hsub
            exact ⟨a, sub'.whispers, hconn⟩
          · -- a `#stop` is under way, so the provider is stopping
            refine absurd ?_ hstop
            cases hu : g.under with
            | pausing a sub' renewing =>
                have hst : g.stop? = some (a, sub') := by simp [Frame.stop?, hu]
                obtain ⟨⟨r, hr⟩, -⟩ := (h.frames g hg).stop a sub' hst
                simp [hr, ProviderState.isStopping]
            | _ => simp [Frame.isPausing, hu] at hpausing

lemma frameOk (h : Inv s (f :: rest) trace) (hf : f.Inside) (ho : Inner s f o) {g : Frame}
    (hg : g ∈ o.control.push rest) : FrameOk o.state (trace ++ o.events) g := by
  have old : ∀ g' ∈ f :: rest, FrameOk o.state (trace ++ o.events) g' := fun g' hg' =>
    (h.frames g' hg').inner ho.state ho.cycles ho.merge ho.destroyed_notMem
  rcases mem_push hg with hg | hg
  · exact (old f List.mem_cons_self).continues hf (ho.continues hg) (ho.awaits g hg).2.2.2.1
  · exact old g (List.mem_cons_of_mem f hg)

end Inner

/-- **Stretches inside the session keep the invariant.** -/
lemma Inv.inner (h : Inv s (f :: rest) trace) (hf : f.Inside) (ho : Inner s f o) :
    After rest trace o := by
  have hsubs : o.state.subscriptions = s.subscriptions := by rw [ho.state]
  have hattempts : o.state.attempts = s.attempts := by rw [ho.state]
  have hlast : o.state.last = s.last := by rw [ho.state]
  have hheld : held o.state = held s := by
    rw [ho.state]
    rfl
  have hqueued : queued o.state = queued s := by
    rw [ho.state]
    rfl
  obtain ⟨hcreates, hunsubscribes⟩ := Passes.filterMap ho.events
  constructor
  case frames => exact fun g hg => ho.frameOk h hf hg
  case tail => exact ho.tail
  case ended =>
    rw [ho.state_eq]
    exact fun hs => ⟨ho.cycle.trans (h.ended hs).1, ho.dead (h.ended hs).2⟩
  case alive =>
    rw [ho.state_eq]
    intro hs
    obtain ⟨hsession, hdelivery⟩ := h.alive hs
    refine ⟨ho.cycle.trans_ne hsession, ?_⟩
    rcases ho.phase with hsame | ⟨hlive, -⟩
    · exact hsame.trans_ne hdelivery
    · simp [hlive]
  case stops => rw [ho.countP_push, h.stops, ho.state_eq]
  case subscribing =>
    rw [ho.state_eq, hattempts]
    intro a ha
    obtain ⟨hlt, g, hg, hattempt⟩ := h.subscribing a ha
    refine ⟨hlt, g, ?_, hattempt⟩
    rcases List.mem_cons.1 hg with rfl | hg
    · simp [hf.attempt?_eq] at hattempt
    · exact mem_push_of_mem hg
  case attempts =>
    intro a params hmem
    rw [hattempts]
    rcases List.mem_append.1 hmem with hmem | hmem
    · exact h.attempts a params hmem
    · exact nomatch ho.events _ hmem
  case cycles =>
    rw [ho.cycle, ho.cycles]
    exact h.cycles
  case hush => exact h.hush.imp ho.loud ho.hushed
  case created => rw [List.filterMap_append, hcreates, List.append_nil, hsubs, h.created]
  case custody =>
    rw [List.filterMap_append, hunsubscribes, List.append_nil, hheld, hqueued, hsubs]
    exact h.custody
  case reliable =>
    exact fun e he => (List.mem_append.1 he).elim (h.reliable e) fun he => ho.reliable h he
  case completed =>
    rw [ho.state_eq, hlast]
    exact fun hmem => h.completed ((List.mem_append.1 hmem).resolve_right ho.destroyed_notMem)
  case silent =>
    refine silent_append h.silent ho.destroyed_notMem fun hd e he => ?_
    have hover := (h.completed hd).1
    cases ho.events e he with
    | complained context => trivial
    | sent hsub htag => simp [hover, ProviderState.subscription?] at hsub

/-- The session and the queue have moved on from `s`, for the frame `f`. -/
structure Moved (s : State) (f : Frame) (s' : State) : Prop where
  state : s' = { s with session := s'.session, delivery := s'.delivery }
  cycles : s'.session.cycles = s.session.cycles
  cycle : s'.session.cycle? = s.session.cycle?
  tail : TailInv (fun _ _ => True) s'.delivery []
  merge : ∀ q, MergeFrame s.delivery [] q → MergeFrame s'.delivery [] q
  phase : s'.delivery.phase = s.delivery.phase ∨
    (s'.delivery.phase = .live ∧ ∃ n, f.cycle? = some n ∧ s.session.cycle? = some n)
  dead : s.delivery.Dead → s'.delivery.Dead

lemma Moved.refl (h : TailInv (fun _ _ => True) s.delivery []) : Moved s f s :=
  ⟨rfl, rfl, rfl, h, fun _ hq => hq, .inl rfl, fun hd => hd⟩

lemma Moved.session {s' : State} (h : Moved s f s') {session : Session.State}
    (hcycles : session.cycles = s'.session.cycles)
    (hcycle : session.cycle? = s'.session.cycle?) : Moved s f { s' with session } :=
  ⟨by rw [h.state], hcycles.trans h.cycles, hcycle.trans h.cycle, h.tail, h.merge, h.phase, h.dead⟩

lemma Moved.delivery {s' : State} (h : Moved s f s') {woken : Prop} {o : ReliableSync.Out}
    (ho : Steady woken s'.delivery o)
    (hwoken : woken → ∃ n, f.cycle? = some n ∧ s.session.cycle? = some n) :
    Moved s f { s' with delivery := o.state } := by
  refine ⟨by rw [h.state], h.cycles, h.cycle, ?_, fun q hq => ?_, ?_, fun hd =>
    ho.dead (h.dead hd)⟩
  · exact ho.sends.keeps.state.congr rfl rfl rfl
  · exact (ho.sends.keeps.frames q (h.merge q hq)).congr rfl rfl rfl
  · rcases ho.phase with hsame | ⟨hw, hgo⟩
    · dsimp only
      rw [hsame]
      exact h.phase
    · exact .inr ⟨hgo, hwoken hw⟩

lemma Moved.ends {s' : State} (h : Moved s f s') (hstop : f.stop? = none)
    {control : Control Frame} (hc : ∀ g, control ≠ .awaits g) :
    Inner s f { state := s', control } :=
  ⟨h.state, h.cycles, h.cycle, h.tail, h.merge, h.phase, h.dead, by simp,
    fun g hg => absurd hg (hc g), fun _ => hstop⟩

lemma Moved.awaits {s' : State} (h : Moved s f s') {g : Frame} (hg : Continues f g)
    (hmerge : ∀ q, g.queue? = some q → MergeFrame s'.delivery [] q) {events : List Event}
    (hevents : ∀ e ∈ events, Passes s.state (s'.delivery.phase = .live) e) :
    Inner s f { state := s', events, control := .awaits g } := by
  refine ⟨h.state, h.cycles, h.cycle, h.tail, h.merge, h.phase, h.dead, hevents, ?_, ?_⟩
  · intro g' hg'
    obtain rfl : g = g' := Control.awaits.inj hg'
    exact ⟨hg.inside, hg.under, hg.cycle, hmerge, hg.calm⟩
  · exact fun hc => absurd rfl (hc g)

/-- What a `Cont` keeps of the frame it carries on for. -/
structure Cont.Fits (cont : Cont) (f : Frame) : Prop where
  under : cont.next = f.under
  cycle : cont.session?.bind Session.Frame.cycle? = none ∨
    cont.session?.bind Session.Frame.cycle? = f.cycle?

lemma Cont.Fits.continues {cont : Cont} (h : cont.Fits f) (hstop : f.stop? = none)
    (callee : Callee) : Continues f (.within callee cont) :=
  ⟨trivial, h.under, h.cycle, by simp [hstop]⟩

lemma inner_send {s' : State} (h : Moved s f s') {cont : Cont} (hcont : cont.Fits f)
    (hstop : f.stop? = none)
    (hmerge : ∀ q, cont.queue? = some q → MergeFrame s'.delivery [] q) (frame : Outgoing)
    {tag : Option ℕ} (htag : tag.isSome → frame.isAwareness = false ∧ s'.delivery.phase = .live) :
    Inner s f (send s' frame tag cont) := by
  have hstate : s'.state = s.state := by rw [h.state]
  have silent : Inner s f { state := s', control := .awaits (.within (.inner false) cont) } :=
    h.awaits (hcont.continues hstop _) hmerge (by simp)
  unfold send
  split
  · exact silent
  · rename_i sub hsub
    split
    · exact silent
    · rename_i hgo
      refine h.awaits (hcont.continues hstop _) hmerge fun e he => ?_
      obtain rfl := List.mem_singleton.1 he
      rw [hstate] at hsub hgo ⊢
      refine .sent hsub fun ht => ⟨fun hs => hgo ⟨hs, ?_⟩, (htag ht).2⟩
      simp [(htag ht).1]

/-- The frame that waits for a stretch of the queue. -/
lemma fits_below {below : Option (Session.Frame × SessionNext)} {q : ReliableSync.Frame}
    (hunder : (Cont.delivery q below).next = f.under)
    (hcycle : ∀ g next, below = some (g, next) → g.cycle? = none ∨ g.cycle? = f.cycle?) :
    (Cont.delivery q below).Fits f := by
  refine ⟨hunder, ?_⟩
  cases below with
  | none => exact .inl rfl
  | some b => exact hcycle b.1 b.2 rfl

lemma inner_runDelivery {s' : State} (h : Moved s f s') {woken : Prop} {o : ReliableSync.Out}
    (ho : Steady woken s'.delivery o)
    (hwoken : woken → ∃ n, f.cycle? = some n ∧ s.session.cycle? = some n)
    {below : Option (Session.Frame × SessionNext)} (hstop : f.stop? = none)
    (hunder : ∀ q, (Cont.delivery q below).next = f.under)
    (hcycle : ∀ g next, below = some (g, next) → g.cycle? = none ∨ g.cycle? = f.cycle?) :
    Inner s f (runDelivery s' o below) := by
  have hm := h.delivery ho hwoken
  have hmerge : ∀ q, o.control = .awaits q → MergeFrame o.state [] q := fun q hq =>
    (ho.sends.keeps.awaits q hq).congr rfl rfl rfl
  have inner : ∀ g next threw, below = some (g, next) → Inner s f
      { state := { s' with delivery := o.state }
        control := .awaits (.within (.inner threw) (.session g next)) } := by
    rintro g next threw rfl
    have hfits : (Cont.session g next).Fits f := ⟨hunder .send, hcycle g next rfl⟩
    exact hm.awaits (hfits.continues hstop _) (by simp [Frame.queue?, Cont.queue?]) (by simp)
  cases hc : o.control with
  | awaits q =>
      have hfits : (Cont.delivery q below).Fits f := fits_below (hunder q) hcycle
      have hqueue : ∀ q', (Cont.delivery q below).queue? = some q' → MergeFrame o.state [] q' := by
        intro q' hq'
        obtain rfl : q = q' := Option.some.inj hq'
        exact hmerge q hc
      simp only [runDelivery, hc]
      split
      · rename_i update tag hdelta
        obtain ⟨e, he, hsend⟩ := List.exists_of_findSome?_eq_some hdelta
        refine inner_send hm hfits hstop hqueue _ fun _ => ⟨rfl, ?_⟩
        cases e with
        | send u id parts => exact (ho.sends.sends u id parts he).live
        | _ => simp at hsend
      · exact hm.awaits (hfits.continues hstop _) hqueue (by simp)
  | returned =>
      cases below with
      | none => simpa only [runDelivery, hc] using hm.ends hstop (by simp)
      | some b => simpa only [runDelivery, hc] using inner b.1 b.2 false rfl
  | threw =>
      cases below with
      | none => simpa only [runDelivery, hc] using hm.ends hstop (by simp)
      | some b => simpa only [runDelivery, hc] using inner b.1 b.2 true rfl

lemma inner_callOut {s' : State} (h : Moved s f s') {x : Session.External} {g : Session.Frame}
    (hg : g.cycle? = none ∨ g.cycle? = f.cycle?) (hx : ¬x.Stops)
    (hresume : x = .deliveryResume → ∃ n, f.cycle? = some n ∧ s.session.cycle? = some n)
    (hstop : f.stop? = none) : Inner s f (callOut s' x g f.under) := by
  have hfits : (Cont.session g f.under).Fits f := ⟨rfl, hg⟩
  have below : ∀ g' next, some (g, f.under) = some (g', next) →
      g'.cycle? = none ∨ g'.cycle? = f.cycle? := by
    rintro g' next heq
    obtain ⟨rfl, -⟩ := Prod.mk.inj (Option.some.inj heq)
    exact hg
  have outside : ∀ y, Inner s f
      { state := s', control := .awaits (.within (.session y) (.session g f.under)) } := fun y =>
    h.awaits (hfits.continues hstop _) (by simp [Frame.queue?, Cont.queue?]) (by simp)
  have queue : ∀ c : ReliableSync.Call, c ≠ .pause → c ≠ .destroy →
      (c = .resume → x = .deliveryResume) →
      Inner s f (runDelivery s' (ReliableSync.call s'.delivery c) (some (g, f.under))) :=
    fun c hp hd hc => inner_runDelivery h (ReliableSync.steady_call h.tail hp hd)
      (fun hw => hresume (hc hw)) hstop (fun _ => rfl) below
  cases x with
  | sendSyncStep1 =>
      exact inner_send h hfits hstop (by simp [Cont.queue?]) _ (by simp)
  | sendAwareness clients =>
      exact inner_send h hfits hstop (by simp [Cont.queue?]) _ (by simp)
  | deliveryResume => exact queue .resume (by simp) (by simp) fun _ => rfl
  | deliveryPause => exact absurd trivial hx
  | deliveryDestroy => exact absurd trivial hx
  | deliveryEnqueue update => exact queue (.enqueue update) (by simp) (by simp) (by simp)
  | deliveryAcknowledge id => exact queue (.acknowledge id) (by simp) (by simp) (by simp)
  | onError =>
      refine h.awaits (hfits.continues hstop _) (by simp [Frame.queue?, Cont.queue?]) fun e he => ?_
      obtain rfl := List.mem_singleton.1 he
      exact .complained _
  | setLocalStateNull => exact outside _
  | removeAwarenessStates clients => exact outside _
  | applyUpdate update => exact outside _
  | applyAwarenessUpdate payload => exact outside _
  | encodeStateAsUpdate stateVector => exact outside _

/-- A method of the session that calls nothing. -/
lemma inner_returned {s' : State} (h : Moved s f s') {o : Session.Out}
    (hcycles : o.state.cycles = s'.session.cycles) (hcycle : o.state.cycle? = s'.session.cycle?)
    (hc : o.control = .returned) : Inner s f (runSession s' o f.under) := by
  have hm := h.session hcycles hcycle
  have after : ∀ next, next = f.under → Inner s f
      { state := { s' with session := o.state }
        control := .awaits (.after (replyOf o.events) next) } := by
    rintro next rfl
    have hg : Continues f (.after (replyOf o.events) f.under) :=
      ⟨trivial, rfl, .inl rfl, fun _ => .after _ _⟩
    exact hm.awaits hg (by simp [Frame.queue?]) (by simp)
  cases hu : f.under with
  | done => simpa only [runSession, hc] using hm.ends (by simp [Frame.stop?, hu]) (by simp)
  | _ => simpa only [runSession, hc] using after _ hu.symm

lemma inner_runSession {s' : State} (h : Moved s f s') {o : Session.Out} {cycle : Option ℕ}
    (ho : Session.Stays s'.session cycle o) (hcycle : cycle = none ∨ cycle = f.cycle?)
    (hstop : f.stop? = none) : Inner s f (runSession s' o f.under) := by
  have hm := h.session ho.cycles ho.protocol
  cases hc : o.control with
  | awaits g =>
      obtain ⟨hcyc, x, hx, hstops, hresume⟩ := ho.calls g hc
      simp only [runSession, hc, hx]
      refine inner_callOut hm ?_ hstops (fun hr => ?_) hstop
      · rcases hcycle with rfl | rfl
        · exact .inl (hcyc.elim (fun h => h) fun h => h)
        · exact hcyc
      · obtain ⟨n, rfl, hcur⟩ := hresume hr
        rcases hcycle with hnone | hsome
        · simp at hnone
        · exact ⟨n, hsome.symm, by rw [← h.cycle]; exact Session.current_iff.1 hcur⟩
  | threw => simpa only [runSession, hc] using hm.ends hstop (by simp)
  | returned => exact inner_returned h ho.cycles ho.protocol hc

lemma inner_carryOn {H : Host} {callee : Callee} {cont : Cont}
    (h : Inv s (.within callee cont :: rest) trace)
    (hstop : (Frame.within callee cont).stop? = none) (hcont : cont ≠ .refresh) {r : Ret}
    (ho : carryOn H s r cont = some o) : Inner s (.within callee cont) o := by
  cases cont with
  | refresh => exact absurd rfl hcont
  | session g next =>
      obtain ⟨o', ho', rfl⟩ := Option.map_eq_some_iff.1 ho
      exact inner_runSession (.refl h.tail) (Session.stays_back ho') (.inr rfl) hstop
  | delivery q below =>
      obtain ⟨o', ho', rfl⟩ := Option.map_eq_some_iff.1 ho
      have hq : MergeFrame s.delivery [] q := (h.frames _ List.mem_cons_self).merge q rfl
      refine inner_runDelivery (.refl h.tail) (ReliableSync.steady_back h.tail hq ho') False.elim
        hstop (fun q' => ?_) fun g next hb => ?_
      · cases below <;> rfl
      · subst hb
        exact .inr rfl

/-- What a `#stop` waits for goes on to wait for something of the kind. -/
lemma inner_calm {H : Host} {callee : Callee} {cont : Cont}
    (h : TailInv (fun _ _ => True) s.delivery []) (hcalm : (Frame.within callee cont).Calm)
    {r : Ret} (hr : callee.answers cont r) (ho : carryOn H s r cont = some o) :
    Inner s (.within callee cont) o := by
  have hm : ∀ f, Moved s f s := fun f => .refl h
  cases hcalm with
  | localState next =>
      cases r <;> simp only [Callee.answers, Bool.false_eq_true] at hr
      obtain rfl := Option.some.inj ho
      exact inner_returned (hm _) rfl rfl rfl
  | remoteStates clients next =>
      cases r <;> simp only [Callee.answers, Bool.false_eq_true] at hr
      obtain rfl := Option.some.inj ho
      exact inner_returned (hm _) rfl rfl rfl
  | @inner g hg next =>
      cases r <;> simp only [Callee.answers, Bool.false_eq_true] at hr
      rcases hg with rfl | rfl
      · obtain rfl := Option.some.inj ho
        exact inner_returned (hm _) rfl rfl rfl
      · obtain ⟨o', ho', rfl⟩ := Option.map_eq_some_iff.1 ho
        simp only [Ret.toSession, Session.back] at ho'
        split at ho' <;> obtain rfl := Option.some.inj ho'
        · rename_i client clients _
          have hg : Continues (.within (.inner false) (.session .pausing next))
              (.within (.session (.removeAwarenessStates (client :: clients)))
                (.session .last next)) :=
            ⟨trivial, rfl, .inl rfl, fun _ => .remoteStates _ _⟩
          exact (hm _).awaits hg (by simp [Frame.queue?, Cont.queue?]) (by simp)
        · exact inner_returned (hm _) rfl rfl rfl
  | @timer g hg next =>
      cases r <;> simp only [Callee.answers, Bool.false_eq_true] at hr
      · obtain rfl := Option.some.inj ho
        have hc : Continues (.within .queue (.delivery (.clearInterval .done) (some (g, next))))
            (.within (.inner false) (.session g next)) :=
          ⟨trivial, rfl, .inr rfl, fun _ => .inner hg next⟩
        exact (hm _).awaits hc (by simp [Frame.queue?, Cont.queue?]) (by simp)
      · simp [carryOn, Ret.toDelivery, ReliableSync.back] at ho
      · simp [carryOn, Ret.toDelivery, ReliableSync.back] at ho

/-- The timer is not wanted: it is stopped, and nothing is sent. -/
lemma updateTimer_unwanted {d : ReliableSync.State} (hd : ¬(d.phase = .live ∧ d.pending ≠ [])) :
    (∃ d', ReliableSync.updateTimer d .done = { state := d' }) ∨
      ∃ d' handle, ReliableSync.updateTimer d .done =
        { state := d', events := [.clearInterval handle],
          control := .awaits (.clearInterval .done) } := by
  simp only [ReliableSync.updateTimer, if_neg hd]
  split
  · unfold ReliableSync.stopTimer
    split
    · exact .inl ⟨_, rfl⟩
    · exact .inr ⟨_, _, rfl⟩
  · exact .inl ⟨_, rfl⟩

/-- The queue stops its timer, for a `pause` or a `destroy` of the session. -/
lemma inner_stopTimer {g : Session.Frame} {next : SessionNext}
    (h : TailInv (fun _ _ => True) s.delivery [])
    (hd : ¬(s.delivery.phase = .live ∧ s.delivery.pending ≠ [])) (hg : g = .last ∨ g = .pausing) :
    Inner s (.within (.inner false) (.session g next))
      (runDelivery s (ReliableSync.updateTimer s.delivery .done) (some (g, next))) := by
  have hm := (Moved.refl (f := .within (.inner false) (.session g next)) h).delivery
    (ReliableSync.steady_updateTimer h .done) False.elim
  have hcycle : g.cycle? = none := by rcases hg with rfl | rfl <;> rfl
  rcases updateTimer_unwanted hd with ⟨d', ho⟩ | ⟨d', handle, ho⟩
  · rw [ho] at hm ⊢
    have hc : Continues (.within (.inner false) (.session g next))
        (.within (.inner false) (.session g next)) :=
      ⟨trivial, rfl, .inl hcycle, fun _ => .inner hg next⟩
    exact hm.awaits hc (by simp [Frame.queue?, Cont.queue?]) (by simp)
  · rw [ho] at hm ⊢
    have hc : Continues (.within (.inner false) (.session g next))
        (.within .queue (.delivery (.clearInterval .done) (some (g, next)))) :=
      ⟨trivial, rfl, .inl hcycle, fun _ => .timer hg next⟩
    refine hm.awaits hc (fun q hq => ?_) (by simp)
    obtain rfl := Option.some.inj hq
    trivial

lemma inner_removeLocalAwareness (h : TailInv (fun _ _ => True) s.delivery [])
    (reply : Option Bytes) (next : SessionNext) :
    Inner s (.after reply next)
      (runSession s (Session.removeLocalAwareness s.session) next) := by
  have hm : Moved s (.after reply next) s := .refl h
  unfold Session.removeLocalAwareness
  split
  · have hc : Continues (.after reply next)
        (.within (.session .setLocalStateNull) (.session .last next)) :=
      ⟨trivial, rfl, .inl rfl, fun _ => .localState next⟩
    exact hm.awaits hc (by simp [Frame.queue?, Cont.queue?]) (by simp)
  · exact inner_returned hm rfl rfl rfl

end Inner

end ActionCableProvider

end Yrby
