import Yrby.Client.ActionCableProvider
import Mathlib.Logic.Relation

/-!
# Where the presence is (`actioncable_provider.ts`)

The application's presence is in the awareness object, or in `#presence` once a `#stop` has removed
it, or with the page's handlers once `pagehide` has.  `World` is the provider among the awareness
object of y-protocols, the page and the application: the awareness object does what it is asked
before anything else happens, and tells the provider; the page's events come when nothing runs.
Whoever hears of a change of presence may call the provider, at any nesting; only listeners for the
awareness object's `change` event, which come before the provider's own, are left out.

`View` is what of the provider has to do with presence, and `View.Step` says once what a stretch of
code can do to it: every method is a few such steps (`shifts_call`, `shifts_back`).
-/

namespace Yrby

open Reentrant Wire

/-! ## The session and the awareness object -/

namespace Session

/-- A stretch that leaves the local state alone, and the session alive. -/
structure Quiet (s : State) (o : Out) : Prop where
  awareness : o.state.awareness = s.awareness
  destroyed : o.state.protocol = .destroyed ↔ s.protocol = .destroyed
  calls : ActionCableProvider.externalOf o.events ≠ some .setLocalStateNull

lemma quiet_state {s s' : State} {events : List Event} {control : Control Frame}
    (ha : s'.awareness = s.awareness) (hd : s'.protocol = .destroyed ↔ s.protocol = .destroyed)
    (hc : ActionCableProvider.externalOf events = none) :
    Quiet s { state := s', events, control } :=
  ⟨ha, hd, by simp [hc]⟩

lemma quiet_await {s s' : State} {x : External} (frame : Frame)
    (ha : s'.awareness = s.awareness) (hd : s'.protocol = .destroyed ↔ s.protocol = .destroyed)
    (hx : x ≠ .setLocalStateNull) : Quiet s (await s' x frame) :=
  ⟨ha, hd, by simpa [await, ActionCableProvider.externalOf] using hx⟩

lemma quiet_emitting {s : State} {o : Out} {e : Event} (he : ∀ x, e ≠ .call x) (h : Quiet s o) :
    Quiet s (emitting e o) := by
  refine ⟨h.awareness, h.destroyed, ?_⟩
  cases e with
  | call x => exact absurd rfl (he x)
  | _ => exact h.calls

lemma quiet_fail (s : State) (cycle : ℕ) : Quiet s (fail s cycle) := by
  unfold fail
  split
  · exact quiet_await _ rfl .rfl (by simp)
  · exact quiet_state rfl .rfl rfl

lemma quiet_newCycle {s : State} (hs : s.protocol ≠ .destroyed) {x : External}
    (hx : x ≠ .setLocalStateNull) (frame : Frame) :
    Quiet s (emitting .newCycle (await (beginCycle s) x frame)) :=
  quiet_emitting (by simp) (quiet_await _ rfl (by simp [beginCycle, hs]) hx)

lemma quiet_resume (s : State) : Quiet s (resume s) := by
  unfold resume
  split
  · exact quiet_state rfl .rfl rfl
  · rename_i hs
    exact quiet_newCycle hs (by simp) _

lemma quiet_pause (s : State) : Quiet s (pause s) := by
  unfold pause
  split
  · exact quiet_state rfl .rfl rfl
  · rename_i hs
    exact quiet_newCycle hs (by simp) _

lemma quiet_readSyncMessage (s : State) (cycle type : ℕ) (payload : Bytes) :
    Quiet s (readSyncMessage s cycle type payload) := by
  unfold readSyncMessage
  split
  · exact quiet_await _ rfl .rfl (by simp)
  · exact quiet_emitting (by simp) (quiet_await _ rfl .rfl (by simp))
  · exact quiet_await _ rfl .rfl (by simp)
  · exact quiet_fail s cycle

lemma quiet_receive (parsesJson : Bytes → Bool) (s : State) (frame : Bytes) :
    Quiet s (receive parsesJson s frame) := by
  have stay : Quiet s { state := s } := quiet_state rfl .rfl rfl
  unfold receive
  split
  · exact stay
  · rename_i cycle _
    split
    · exact quiet_fail s cycle
    · exact stay
    · split
      · exact quiet_fail s cycle
      · exact quiet_readSyncMessage s cycle _ _
      · split
        · exact quiet_await _ rfl .rfl (by simp)
        · exact stay

/-- What `readSyncMessage` leaves. -/
lemma quiet_afterRead (s : State) (step2 : Option ℕ) (cycle : ℕ) :
    Quiet s (afterRead s step2 cycle) := by
  unfold afterRead
  split
  · rename_i h
    refine quiet_state rfl ⟨nofun, fun hd => ?_⟩ rfl
    simp [State.current, hd] at h
  · exact quiet_state rfl .rfl rfl

lemma quiet_back {s : State} {f : Frame} {r : Ret} {o : Out} (h : back s f r = some o) :
    Quiet s o := by
  have stay : ∀ {events : List Event} {control : Control Frame},
      ActionCableProvider.externalOf events = none → Quiet s { state := s, events, control } :=
    fun he => quiet_state rfl .rfl he
  cases f with
  | last => cases r <;> cases h <;> exact stay rfl
  | hello cycle =>
      cases r <;> simp only [back, Option.some.injEq, reduceCtorEq] at h
      · split at h
        · obtain rfl := Option.some.inj h
          exact stay rfl
        · split at h <;> obtain rfl := Option.some.inj h <;>
            exact quiet_await _ rfl .rfl (by simp)
      · exact h ▸ stay rfl
  | presence cycle =>
      cases r <;> simp only [back, Option.some.injEq, reduceCtorEq] at h
      · split at h <;> obtain rfl := Option.some.inj h
        · exact quiet_await _ rfl .rfl (by simp)
        · exact stay rfl
      · exact h ▸ stay rfl
  | pausing =>
      cases r <;> simp only [back, Option.some.injEq, reduceCtorEq] at h
      · split at h <;> obtain rfl := Option.some.inj h
        · exact quiet_await _ rfl .rfl (by simp)
        · exact stay rfl
      · exact h ▸ stay rfl
  | answering cycle =>
      cases r <;> simp only [back, Option.some.injEq, reduceCtorEq] at h <;> subst h
      · refine stay ?_
        split <;> rfl
      · exact quiet_fail s cycle
  | applyingAwareness cycle =>
      cases r <;> simp only [back, Option.some.injEq, reduceCtorEq] at h <;> subst h
      · exact stay rfl
      · exact quiet_fail s cycle
  | applying step2 cycle =>
      cases r <;> simp only [back, reduceCtorEq] at h
      · split at h <;> obtain rfl := Option.some.inj h
        · exact quiet_emitting (by simp) (quiet_afterRead s _ cycle)
        · exact quiet_afterRead s _ cycle
      · split at h <;> obtain rfl := Option.some.inj h
        · exact quiet_await _ rfl .rfl (by simp)
        · exact quiet_afterRead s step2 cycle
  | reporting step2 cycle =>
      cases r <;> simp only [back, Option.some.injEq, reduceCtorEq] at h <;> subst h
      · exact quiet_afterRead s step2 cycle
      · exact quiet_fail s cycle

end Session

namespace ActionCableProvider

/-! ## The awareness object, the page and the application -/

/-- What the provider asks of the awareness object.  What `destroy` asks is left out: the provider
is destroyed by then. -/
inductive Ask
  | restore (presence : String)
  | show (presence : Option String)
  | remove
  deriving DecidableEq

/-- The local state that is asked for. -/
def Ask.localState : Ask → Option String
  | .restore presence => some presence
  | .show presence => presence
  | .remove => none

/-- The presence that the page's handlers keep, `stashed`. -/
def stashed (s : State) : Option String := s.page.bind Prod.snd

def Frame.ask? (s : State) : Frame → Option Ask
  | .restoring _ presence => some (.restore presence)
  | .restored _ => some (.show (stashed s))
  | .within (.session .setLocalStateNull) _ => some .remove
  | _ => none

/-- What a stretch of code ends with asking. -/
def asking (o : Out) : Option Ask :=
  match o.control with
  | .awaits f => f.ask? o.state
  | _ => none

/-- The presence is put away by `pagehide`, and nowhere else. -/
def Away (s : State) : Prop := (stashed s).isSome ∧ s.localState = none

instance (s : State) : Decidable (Away s) := inferInstanceAs (Decidable (_ ∧ _))

/-- The move is a `disconnect` or `renew`, or a rejection takes effect. -/
def stops (s : State) : Move Call Ret → Bool
  | .call .disconnect | .call (.renew _) => true
  | .call (.cable attempt .rejected) => s.state.active attempt
  | .call .microtask =>
      match s.microtasks with
      | .run attempt .rejected :: _ => s.state.active attempt
      | _ => false
  | _ => false

structure World where
  cfg : Cfg
  /-- What the awareness object has been asked and has not done yet. -/
  asked : Option Ask := none
  /-- The application's last value, and whether the page is hidden.  Not in the source. -/
  last : Option String := some "\x7b\x7d"
  hidden : Bool := false

inductive Act
  /-- A move of the environment that is none of the others. -/
  | move (m : Move Call Ret)
  /-- The awareness object does what it was asked. -/
  | serve
  /-- The application sets its presence. -/
  | setLocalState (localState : Option String)
  /-- The awareness object's timer sets the local state again. -/
  | touch
  /-- Other clients come and go. -/
  | peers (clients : List ℕ)
  | pagehide
  | pageshow (persisted : Bool)

/-- The moves that are not free: they are the awareness object's and the page's. -/
def reserved : Move Call Ret → Bool
  | .call (.awarenessIs _ _) | .call (.onAwarenessUpdate _) | .call (.pagehide _)
  | .call (.pageshow _ _) => true
  | _ => false

section World

variable (H : Host)

/-- What a move leaves the provider asking. -/
def asks (c : Cfg) : Move Call Ret → Option Ask
  | .call x => asking (call H c.state x)
  | .back r => c.stack.head?.bind fun f => (back H c.state f r).bind asking

/-- The clients that the awareness object knows. -/
def remotes (s : State) : List ℕ := (s.session.awareness.map Session.Awareness.remote).getD []

/-- `setLocalState` of the awareness object, up to the provider's listener. -/
def setLocalState (c : Cfg) (localState : Option String) : Option Cfg :=
  Transition.run (step H) c
    [.call (.awarenessIs localState (remotes c.state)), .call (.onAwarenessUpdate true)]

namespace World

/-- A move of the provider's environment. -/
def move (w : World) (m : Move Call Ret) : Option World :=
  (step H w.cfg m).map fun c => { w with cfg := c, asked := asks H w.cfg m }

/-- What is asked is done before anything else happens. -/
def step (w : World) (act : Act) : Option World :=
  match w.asked with
  | some ask =>
      match act with
      | .serve => (setLocalState H w.cfg ask.localState).map fun c =>
          { w with cfg := c, asked := none }
      | _ => none
  | none =>
      match act with
      | .move m => if reserved m then none else w.move H m
      | .serve => none
      | .setLocalState localState => (setLocalState H w.cfg localState).map fun c =>
          { w with cfg := c, last := localState }
      | .touch =>
          if w.cfg.state.localState.isSome then w.move H (.call (.onAwarenessUpdate true)) else none
      | .peers clients => w.move H (.call (.awarenessIs w.cfg.state.localState clients))
      | .pagehide =>
          if w.cfg.stack.isEmpty then
            match w.cfg.state.page with
            | some (page, _) => { w with hidden := true }.move H (.call (.pagehide page))
            | none => some { w with hidden := true }
          else none
      | .pageshow persisted =>
          let w := { w with hidden := w.hidden && !persisted }
          if w.cfg.stack.isEmpty then
            match w.cfg.state.page with
            | some (page, _) => w.move H (.call (.pageshow page persisted))
            | none => some w
          else none

/-- The provider as it is constructed; the awareness object begins with an empty presence. -/
def init (channelParams : Params) : World := { cfg := ActionCableProvider.init channelParams }

/-! ## The promise -/

/-- Presence is where the application left it. -/
structure Presented (w : World) : Prop where
  /-- Connected and shown, the local state is the application's last value. -/
  shown : ∀ a sub, w.cfg.state.state = .connected a sub → w.hidden = false → w.asked = none →
    w.cfg.state.localState = w.last
  /-- No older presence is ever told. -/
  latest : ∀ a sub, w.cfg.state.state = .connected a sub → w.cfg.state.localState.isSome →
    w.cfg.state.localState = w.last
  /-- A connection that opens announces it. -/
  announces : ∀ a sub callee cycle next rest c, w.cfg.state.state = .connected a sub →
    w.cfg.stack = .within callee (.session (.hello cycle) next) :: rest →
    w.cfg.state.session.current cycle → w.cfg.state.localState.isSome →
    ActionCableProvider.step H w.cfg (.back .unit) = some c →
      c.trace = w.cfg.trace ++ [.sent (.connected a sub) sub.number
        (.awareness [w.cfg.state.session.clientID]) none sub.whispers]

/-- While `pagehide` keeps the presence, the provider is not stopped, the page not hidden again and
the presence not cleared; and the application does not set its presence from within a `#stop`. -/
def Safe (w : World) : Act → Prop
  | .move m => stops w.cfg.state m → ¬Away w.cfg.state
  | .pagehide => ¬Away w.cfg.state
  | .setLocalState localState =>
      (localState = none → stashed w.cfg.state = none) ∧ ¬w.cfg.state.state.isStopping
  | _ => True

instance (w : World) : (act : Act) → Decidable (Safe w act)
  | .move _ => inferInstanceAs (Decidable (_ → _))
  | .pagehide => inferInstanceAs (Decidable (¬_))
  | .setLocalState _ => inferInstanceAs (Decidable (_ ∧ _))
  | .serve | .touch | .peers _ | .pageshow _ => isTrue trivial

end World

/-! ## What has to do with presence -/

/-- The subscription is there and not given up. -/
def ProviderState.isOpen : ProviderState → Bool
  | .connecting _ _ | .connected _ _ => true
  | _ => false

structure View where
  state : ProviderState
  localState : Option String
  presence : Option String
  page : Option (ℕ × Option String)
  /-- The session is not destroyed, and what it knows of the local state. -/
  alive : Bool
  hasLocalState : Option Bool
  asked : Option Ask

def view (s : State) (asked : Option Ask) : View where
  state := s.state
  localState := s.localState
  presence := s.presence
  page := s.page
  alive := decide (s.session.protocol ≠ .destroyed)
  hasLocalState := s.session.awareness.map Session.Awareness.hasLocalState
  asked := asked

namespace View

/-- The page keeps the presence, and nobody else does. -/
def Away (v : View) : Prop := (v.page.bind Prod.snd).isSome ∧ v.localState = none

/-- What a stretch of code can do, with nothing asked before. -/
inductive Step (v : View) (quiet : v.asked = none) : View → Prop
  /-- `connect` takes `#presence`, to put it back. -/
  | subscribe (n : ℕ) (hs : v.state = .disconnected) :
      Step v quiet { v with
        state := .subscribing n, presence := none, asked := v.presence.map .restore }
  | install {a : ℕ} (sub : Subscription) (page : Option (ℕ × Option String))
      (hs : v.state = .subscribing a) (hpage : page = v.page ∨ ∃ n, page = some (n, none)) :
      Step v quiet { v with state := .connecting a sub, page := page }
  | unsubscribed {a : ℕ} (hs : v.state = .subscribing a) :
      Step v quiet { v with state := .disconnected }
  /-- The connection opens, or is lost. -/
  | turn (state : ProviderState) (hs : v.state.isOpen) (hs' : state.isOpen) :
      Step v quiet { v with state := state }
  /-- `#stop` takes the local state, and asks to remove it. -/
  | stop (a : ℕ) (sub : Subscription) (reason : StopReason) (hs : v.state.isOpen)
      (haway : reason ≠ .destroy → ¬v.Away) :
      Step v quiet { v with
        state := .stopping a sub reason, page := none, presence := v.localState
        asked := if v.alive ∧ v.hasLocalState = some true then some .remove else none }
  | upgrade {a : ℕ} {sub : Subscription} {reason : StopReason}
      (hs : v.state = .stopping a sub reason) :
      Step v quiet { v with state := .stopping a sub .destroy }
  | stopped {a : ℕ} {sub : Subscription} {reason : StopReason}
      (hs : v.state = .stopping a sub reason) (hreason : reason ≠ .destroy) :
      Step v quiet { v with state := .disconnected }
  | destroyed (alive : Bool) (hs : v.state.isOpen = false) :
      Step v quiet { v with state := .destroyed, alive := alive }

/-- One step after another. -/
def Steps : View → View → Prop := Relation.ReflTransGen fun v v' => ∃ quiet, Step v quiet v'

lemma Step.asked_ne_show {v v' : View} {quiet : v.asked = none} (h : Step v quiet v')
    (presence : Option String) : v'.asked ≠ some (.show presence) := by
  cases h with
  | subscribe n hs => cases v.presence <;> simp
  | stop a sub reason hs haway => dsimp only; split <;> simp
  | _ => simp [quiet]

end View

section Stretches

variable {H : Host} {s s' : State} {o : Out}

/-- What a stretch of code does to presence. -/
abbrev Shifts (s : State) (o : Out) : Prop := View.Steps (view s none) (view o.state (asking o))

/-- Nothing. -/
abbrev Quiet (s : State) (o : Out) : Prop := view o.state (asking o) = view s none

lemma Quiet.shifts (h : Quiet s o) : Shifts s o := by
  rw [Shifts, show view o.state (asking o) = view s none from h]
  exact .refl

lemma Shifts.asked_ne_show (h : Shifts s o) (presence : Option String) :
    asking o ≠ some (.show presence) := by
  rcases Relation.ReflTransGen.cases_tail h with same | ⟨v, -, quiet, last⟩
  · have := congrArg View.asked same
    simp only [view] at this
    simp [this]
  · exact last.asked_ne_show presence

lemma Shifts.congr (h : Shifts s' o) (hs : view s' none = view s none) : Shifts s o := by
  rw [Shifts, ← hs]
  exact h

/-- A step, and then the rest. -/
lemma Shifts.of_step (rest : Shifts s' o) (h : View.Step (view s none) rfl (view s' none)) :
    Shifts s o :=
  Relation.ReflTransGen.head ⟨rfl, h⟩ rest

/-! ### Inside the session -/

lemma quiet_send (frame : Outgoing) (tag : Option ℕ) (cont : Cont) :
    Quiet s (send s frame tag cont) := by
  unfold send
  split
  · rfl
  · split <;> rfl

lemma quiet_runDelivery (o : ReliableSync.Out) (below : Option (Session.Frame × SessionNext)) :
    Quiet s (runDelivery s o below) := by
  unfold runDelivery
  split
  · split
    · exact quiet_send _ _ _
    · rfl
  all_goals rfl

lemma quiet_callOut {x : Session.External} (hx : x ≠ .setLocalStateNull) (f : Session.Frame)
    (next : SessionNext) : Quiet s (callOut s x f next) := by
  unfold callOut
  split
  · exact quiet_send _ _ _
  · exact quiet_send _ _ _
  · exact quiet_runDelivery _ _
  · exact quiet_runDelivery _ _
  · exact quiet_runDelivery _ _
  · exact quiet_runDelivery _ _
  · exact quiet_runDelivery _ _
  · rfl
  · cases x <;> first | rfl | exact absurd rfl hx

lemma view_session {session : Session.State} (ha : session.awareness = s.session.awareness)
    (hd : session.protocol = .destroyed ↔ s.session.protocol = .destroyed) (ask : Option Ask) :
    view { s with session } ask = view s ask := by
  simp only [view, ha, ne_eq, hd]

lemma quiet_runSession {o : Session.Out} (ho : Session.Quiet s.session o) (next : SessionNext) :
    Quiet s (runSession s o next) := by
  have same : ∀ ask, view { s with session := o.state } ask = view s ask :=
    view_session ho.awareness ho.destroyed
  unfold runSession
  split
  · rename_i f _
    split
    · rename_i x hx
      have called : x ≠ .setLocalStateNull := fun h => ho.calls (h ▸ hx)
      exact (quiet_callOut called f next).trans (same none)
    · exact same none
  · exact same none
  · split <;> exact same none

/-! ### The provider's own methods -/

lemma shifts_connect : Shifts s (connect H s) := by
  unfold connect
  split
  · exact .refl
  · split
    · exact .refl
    · rename_i hs
      have subscribes : View.Step (view s none) rfl { view s none with
          state := .subscribing s.attempts, presence := none, asked := s.presence.map .restore } :=
        .subscribe s.attempts (not_not.1 hs)
      refine .single ⟨rfl, ?_⟩
      cases hp : s.presence with
      | none =>
          rw [hp] at subscribes
          exact subscribes
      | some presence =>
          rw [hp] at subscribes
          exact subscribes

lemma shifts_stopped (renewing : Bool) : Shifts s (stopped H s renewing) := by
  unfold stopped
  split
  · exact shifts_connect
  · exact .refl

lemma shifts_refreshed (next : Next) : Shifts s (refreshed H s next) := by
  unfold refreshed
  split
  · exact .refl
  · exact .refl
  · exact shifts_stopped _
  · rename_i renewing
    have cleared : Shifts { s with statusListeners := [] }
        (stopped H { s with statusListeners := [] } renewing) := shifts_stopped renewing
    exact cleared.congr rfl

lemma shifts_notify (event entry : ℕ) (next : Next) : Shifts s (notify H s event entry next) := by
  unfold notify
  split
  · exact shifts_refreshed next
  · split
    · exact shifts_refreshed next
    · exact .refl

lemma shifts_refreshStatus (next : Next) : Shifts s (refreshStatus H s next) := by
  unfold refreshStatus
  dsimp only
  split
  · exact shifts_refreshed next
  · exact (shifts_notify s.statusEvents 0 next).congr rfl

lemma shifts_installed (attempt : ℕ) (whispers : Bool) :
    Shifts s (installed H s attempt whispers) := by
  unfold installed
  dsimp only
  split
  · exact .refl
  · rename_i hs
    have watched : ∀ s : State, ∃ page,
        view (watchPage H s) none = { view s none with page := page } ∧
        (page = s.page ∨ ∃ n, page = some (n, none)) := by
      intro s
      unfold watchPage
      split
      · exact ⟨_, rfl, .inr ⟨_, rfl⟩⟩
      · exact ⟨_, rfl, .inl rfl⟩
    let connecting : State := { s with
      subscriptions := s.subscriptions + 1
      state := .connecting attempt ⟨s.subscriptions, whispers⟩ }
    obtain ⟨page, hview, hpage⟩ := watched connecting
    have rest : Shifts (watchPage H connecting)
        (refreshStatus H (watchPage H connecting) .done) := shifts_refreshStatus .done
    refine rest.of_step ?_
    rw [hview]
    exact .install _ page (not_not.1 hs) hpage

lemma shifts_createFailed (attempt : ℕ) : Shifts s (createFailed H s attempt) := by
  unfold createFailed
  split
  · exact .refl
  · rename_i hs
    have rest : Shifts { s with state := .disconnected }
        (refreshStatus H { s with state := .disconnected } .rethrow) :=
      shifts_refreshStatus .rethrow
    exact rest.of_step (.unsubscribed (not_not.1 hs))

/-- `#stop` ends, from wherever it may. -/
lemma shifts_finishStop {reason : StopReason} (renewing : Bool)
    (hs : s.state = .disconnected ∨ (∃ a, s.state = .subscribing a) ∨
      ∃ a sub, s.state = .stopping a sub reason) : Shifts s (finishStop H s reason renewing) := by
  have ends : reason ≠ .destroy → ∀ {o : Out}, Shifts { s with state := .disconnected } o →
      Shifts s o := by
    intro hreason o rest
    rcases hs with hs | ⟨a, hs⟩ | ⟨a, sub, hs⟩
    · rwa [show { s with state := .disconnected } = s by rw [← hs]] at rest
    · exact rest.of_step (.unsubscribed hs)
    · exact rest.of_step (.stopped hs hreason)
  unfold finishStop
  split
  · have paused : Quiet { s with state := .destroyed, session := (Session.destroy s.session).state }
        (runSession { s with state := .destroyed } (Session.destroy s.session)
          (.destroying renewing)) := by
      unfold Session.destroy
      split
      · rfl
      · exact quiet_runDelivery _ _
    refine paused.shifts.of_step ?_
    have same : (Session.destroy s.session).state.awareness = s.session.awareness := by
      unfold Session.destroy
      split <;> rfl
    have closed : s.state.isOpen = false := by
      rcases hs with hs | ⟨a, hs⟩ | ⟨a, sub, hs⟩ <;> rw [hs] <;> rfl
    have gone : View.Step (view s none) rfl _ :=
      .destroyed (decide ((Session.destroy s.session).state.protocol ≠ .destroyed)) closed
    simpa only [view, same] using gone
  · exact ends (by simp) .refl
  · exact ends (by simp) (shifts_refreshStatus _)

/-- A session that is asked to remove the local state asks the awareness object, unless there is
none. -/
lemma view_removeLocalAwareness (next : SessionNext) :
    let o := runSession s (Session.removeLocalAwareness s.session) next
    view o.state (asking o) =
      view s (if (view s none).alive ∧ (view s none).hasLocalState = some true then some .remove
        else none) := by
  have flags : (s.session.protocol ≠ .destroyed ∧
      s.session.awareness.any Session.Awareness.hasLocalState) ↔
        (view s none).alive ∧ (view s none).hasLocalState = some true := by
    simp [view, Option.any_eq_true]
  unfold Session.removeLocalAwareness
  dsimp only
  split
  · rename_i h
    rw [if_pos (flags.1 h)]
    rfl
  · rename_i h
    rw [if_neg fun hf => h (flags.2 hf)]
    cases next <;> rfl

lemma shifts_stop (reason : StopReason) (renewing : Bool)
    (haway : reason ≠ .destroy → ¬Away s) : Shifts s (stop H s reason renewing) := by
  have begins : ∀ a sub, s.state.isOpen → Shifts s (runSession
      { s with state := .stopping a sub reason, page := none, presence := s.localState }
      (Session.removeLocalAwareness s.session) (.pausing a sub renewing)) := by
    intro a sub hs
    have step : View.Step (view s none) rfl _ := .stop a sub reason hs haway
    refine .single ⟨rfl, ?_⟩
    have removes := view_removeLocalAwareness (s := { s with
      state := .stopping a sub reason, page := none, presence := s.localState })
      (.pausing a sub renewing)
    dsimp only at removes
    rw [removes]
    exact step
  unfold stop
  split
  · exact shifts_stopped renewing
  · rename_i a sub r hs
    split
    · exact (shifts_stopped renewing).of_step (.upgrade hs)
    · exact shifts_stopped renewing
  · rename_i hs
    split
    · exact shifts_stopped renewing
    · exact shifts_finishStop renewing (.inl hs)
  · rename_i a hs
    exact shifts_finishStop renewing (.inr (.inl ⟨a, hs⟩))
  · rename_i a sub hs
    exact begins a sub (by rw [hs]; rfl)
  · rename_i a sub hs
    exact begins a sub (by rw [hs]; rfl)

lemma shifts_proceed (reply : Option Bytes) (next : SessionNext) :
    Shifts s (proceed H s reply next) := by
  cases next with
  | done => exact .refl
  | refresh => exact shifts_refreshStatus .done
  | reply attempt =>
      simp only [proceed]
      split
      · split
        · exact (quiet_send _ _ _).shifts
        · exact shifts_refreshStatus .done
      · exact shifts_refreshStatus .done
  | pausing a sub renewing => exact (quiet_runSession (Session.quiet_pause _) _).shifts
  | unsubscribing a sub renewing =>
      simp only [proceed]
      split
      · rename_i a' sub' reason hs
        split
        · exact (shifts_finishStop renewing (.inr (.inr ⟨a', sub', hs⟩))).congr rfl
        · exact (shifts_stopped renewing).congr rfl
      · exact (shifts_stopped renewing).congr rfl
  | destroying renewing => exact .refl

lemma shifts_receive (message : Option CableMessage) (attempt : ℕ) :
    Shifts s (receive H s message attempt) := by
  unfold receive
  split
  · exact .refl
  · split
    · exact (quiet_runSession (Session.quiet_await _ rfl .rfl (by simp)) _).shifts
    · split
      · exact .refl
      · split
        · exact .refl
        · split
          · exact .refl
          · exact (quiet_runSession (Session.quiet_receive _ _ _) _).shifts

lemma shifts_callback (attempt : ℕ) (cb : Callback) (haway : cb = .rejected → ¬Away s) :
    Shifts s (callback H s attempt cb) := by
  cases cb with
  | received message => exact shifts_receive message attempt
  | connected =>
      simp only [callback]
      split
      · rename_i a sub hs
        exact (quiet_runSession (Session.quiet_resume _) _).shifts.of_step
          (.turn (.connected a sub) (by simp [view, hs, ProviderState.isOpen]) rfl)
      · exact .refl
  | disconnected =>
      simp only [callback]
      split
      · rename_i a sub hs
        exact (quiet_runSession (Session.quiet_pause _) _).shifts.of_step
          (.turn (.connecting a sub) (by simp [view, hs, ProviderState.isOpen]) rfl)
      · rename_i a sub hs
        exact (quiet_runSession (Session.quiet_pause _) _).shifts.of_step
          (.turn (.connecting a sub) (by simp [view, hs, ProviderState.isOpen]) rfl)
      · exact .refl
  | rejected => exact shifts_stop .reject false fun _ => haway rfl

lemma shifts_run (attempt : ℕ) (cb : Callback)
    (haway : cb = .rejected → s.state.active attempt → ¬Away s) :
    Shifts s (run H s attempt cb) := by
  unfold run
  split
  · rename_i active
    exact shifts_callback attempt cb fun rejected => haway rejected active
  · exact .refl

lemma shifts_cable (attempt : ℕ) (cb : Callback)
    (haway : cb = .rejected → s.state.active attempt → ¬Away s) :
    Shifts s (cable H s attempt cb) := by
  unfold cable
  split
  · exact .refl
  · exact shifts_run attempt cb haway

lemma shifts_microtask (haway : stops s (.call .microtask) → ¬Away s) :
    Shifts s (microtask H s) := by
  unfold microtask
  split
  · exact .refl
  · rename_i attempt cb rest hm
    refine (shifts_run attempt cb fun rejected active => ?_).congr rfl
    subst rejected
    exact haway (by simpa [stops, hm] using active)
  · exact .refl

/-! ### Every move -/

lemma shifts_call {x : Call} (free : reserved (.call x) = false)
    (haway : stops s (.call x) → ¬Away s) : Shifts s (call H s x) := by
  cases x with
  | connect => exact shifts_connect
  | disconnect => exact shifts_stop .disconnect false fun _ => haway rfl
  | renew params =>
      simp only [call, renew]
      split
      · exact .refl
      · refine (shifts_stop .disconnect true fun _ => ?_).congr rfl
        exact haway rfl
  | destroy => exact shifts_stop .destroy false fun h => absurd rfl h
  | onStatusChange listener =>
      simp only [call, onStatusChange]
      split <;> exact .refl
  | offStatusChange listener => exact .refl
  | applyRemoteUpdate update =>
      refine (quiet_runSession ?_ _).shifts
      simp only [Session.call, Session.applyRemoteUpdate]
      split
      · exact Session.quiet_state rfl .rfl rfl
      · exact Session.quiet_await _ rfl .rfl (by simp)
  | cable attempt cb =>
      refine shifts_cable attempt cb fun rejected active => haway ?_
      subst rejected
      exact active
  | microtask => exact shifts_microtask haway
  | sessionDocUpdate update own =>
      refine (quiet_runSession ?_ _).shifts
      simp only [Session.call, Session.onDocUpdate]
      split
      · exact Session.quiet_state rfl .rfl rfl
      · exact Session.quiet_await _ rfl .rfl (by simp)
  | onDocUpdate => exact shifts_refreshStatus .done
  | sessionAwarenessUpdate changed own =>
      refine (quiet_runSession ?_ _).shifts
      simp only [Session.call, Session.onAwarenessUpdate]
      split
      · exact Session.quiet_state rfl .rfl rfl
      · exact Session.quiet_await _ rfl .rfl (by simp)
  | tick timer => exact (quiet_runDelivery _ _).shifts
  | sendRejected sub =>
      simp only [call]
      split <;> exact .refl
  | _ => simp [reserved] at free

lemma shifts_carryOn {r : Ret} {cont : Cont} (h : carryOn H s r cont = some o) : Shifts s o := by
  cases cont with
  | refresh =>
      obtain rfl := Option.some.inj h
      exact shifts_refreshStatus .done
  | session f next =>
      obtain ⟨o', ho', rfl⟩ := Option.map_eq_some_iff.1 h
      exact (quiet_runSession (Session.quiet_back ho') next).shifts
  | delivery f below =>
      obtain ⟨o', -, rfl⟩ := Option.map_eq_some_iff.1 h
      exact (quiet_runDelivery o' below).shifts

/-- But for a page that has been shown, whose handler keeps nothing from then on. -/
lemma shifts_back {f : Frame} {r : Ret} (h : back H s f r = some o)
    (hf : ∀ page, f ≠ .restored page) : Shifts s o := by
  cases f with
  | restoring attempt presence =>
      cases r <;> simp only [back, Option.some.injEq, reduceCtorEq] at h
      subst h
      split <;> exact .refl
  | creating attempt =>
      cases r <;> simp only [back, Option.some.injEq, reduceCtorEq] at h
      · exact h ▸ shifts_createFailed attempt
      · exact h ▸ shifts_installed attempt _
  | restored page => exact absurd rfl (hf page)
  | rejecting renewing =>
      cases r <;> simp only [back, Option.some.injEq, reduceCtorEq] at h
      exact h ▸ shifts_refreshStatus _
  | destroyingAwareness renewing =>
      cases r <;> simp only [back, Option.some.injEq, reduceCtorEq] at h
      exact h ▸ shifts_refreshStatus _
  | notifying event entry next =>
      cases r <;> simp only [back, Option.some.injEq, reduceCtorEq] at h
      · exact h ▸ shifts_notify event entry next
      · exact h ▸ .refl
  | listenerFailed event entry next =>
      cases r <;> simp only [back, Option.some.injEq, reduceCtorEq] at h
      exact h ▸ shifts_notify event entry next
  | unsubscribing =>
      cases r <;> simp only [back, Option.some.injEq, reduceCtorEq] at h <;> exact h ▸ .refl
  | ending =>
      cases r <;> simp only [back, Option.some.injEq, reduceCtorEq] at h
      exact h ▸ .refl
  | within callee cont =>
      simp only [back] at h
      split at h
      · split at h
        · split at h
          · exact Option.some.inj h ▸ .refl
          · exact shifts_carryOn h
        · exact shifts_carryOn h
      · simp at h
  | after reply next =>
      cases r <;> simp only [back, Option.some.injEq, reduceCtorEq] at h
      exact h ▸ shifts_proceed reply next

end Stretches

end World

end ActionCableProvider

end Yrby
