import Yrby.Client.Retransmission
import Yrby.Client.Session

/-!
# The provider (`actioncable_provider.ts`)

`ActionCableProvider` runs one session over cable subscriptions.  Each `connect` is an *attempt*
with a subscription of its own, and the callbacks of an attempt count only while its subscription
is connecting or connected.

The provider, its session and the session's delivery queue are three re-entrant objects that run as
one: `Session` and `ReliableSync` are embedded as they are, what they call is the provider's `#send`
or the environment, and a `Cont` says who waits for it.  Everything outside may call back: the
consumer in `create`, a subscription in `send`, awareness and document observers, status listeners
and `onError`.  A call between the three objects that returns at once is a frame too, so the
environment may also step in there, which only adds schedules.  Microtasks run when nothing else
does.

`ProviderAwareness` reports what its listeners throw, `#onError` reports what the application's
handler throws, and the host's timers do not throw.

`Isolated` is what the provider promises.  There is one hole: a listener that is registered after
`destroy` has completed hears the status event that is still being delivered.  `isolated_of_run`
says that the promise holds in every run in which nobody does that.
-/

namespace Yrby.ActionCableProvider

open Reentrant Wire

/-! ## The provider -/

/-- A subscription that `create` returned, and whether it has a `whisper`. -/
structure Subscription where
  number : ℕ
  whispers : Bool
  deriving DecidableEq

inductive StopReason
  | disconnect
  | reject
  | destroy
  deriving DecidableEq

/-- `ProviderState`, with numbers for attempts. -/
inductive ProviderState
  | disconnected
  | destroyed
  | subscribing (attempt : ℕ)
  | connecting (attempt : ℕ) (subscription : Subscription)
  | connected (attempt : ℕ) (subscription : Subscription)
  | stopping (attempt : ℕ) (subscription : Subscription) (reason : StopReason)
  deriving DecidableEq

namespace ProviderState

/-- `"subscription" in state` -/
def subscription? : ProviderState → Option Subscription
  | .connecting _ sub | .connected _ sub | .stopping _ sub _ => some sub
  | _ => none

def isStopping : ProviderState → Bool
  | .stopping _ _ _ => true
  | _ => false

/-- `#destroying` -/
def destroying : ProviderState → Bool
  | .destroyed | .stopping _ _ .destroy => true
  | _ => false

/-- `#active` -/
def active (attempt : ℕ) : ProviderState → Bool
  | .connecting a _ | .connected a _ => decide (a = attempt)
  | _ => false

end ProviderState

inductive ProviderStatus
  | connecting
  | connected
  | synced
  | disconnected
  deriving DecidableEq

structure StatusEvent where
  status : ProviderStatus
  pending : Bool
  deriving DecidableEq

/-- A frame on its way to the cable. -/
inductive Outgoing
  | syncStep1
  | awareness (clients : List ℕ)
  | update (update : Bytes)
  | reply (frame : Bytes)

/-- `frame[0] === MessageType.Awareness` -/
def Outgoing.isAwareness : Outgoing → Bool
  | .awareness _ => true
  | .reply frame => decide (frame.head? = some 1)
  | _ => false

/-- A field of a cable message. -/
inductive Field
  | undefined
  | null
  | string (text : String)
  | other
  deriving DecidableEq

structure CableMessage where
  update : Field := .undefined
  awareness : Field := .undefined
  ack : Option JsValue := none

/-- `awareness ?? update`, if it is a string. -/
def CableMessage.payload (m : CableMessage) : Option String :=
  match m.awareness with
  | .undefined | .null =>
      match m.update with
      | .string text => some text
      | _ => none
  | .string text => some text
  | .other => none

/-- The handlers that `connect` gives to `create`. -/
inductive Callback
  | received (message : Option CableMessage)
  | connected
  | disconnected
  | rejected

inductive Microtask
  | run (attempt : ℕ) (callback : Callback)
  | unsubscribe (subscription : Subscription)

abbrev Params := String → Option String

structure State where
  state : ProviderState := .disconnected
  session : Session.State := { awareness := some ⟨true, []⟩ }
  delivery : ReliableSync.State := {}
  /-- `awareness.getLocalState()` -/
  localState : Option String := some "\x7b\x7d"
  presence : Option String := none
  /-- The last status event, with its number: another event with the same fields is another one. -/
  last : ℕ × StatusEvent := (0, ⟨.disconnected, false⟩)
  statusEvents : ℕ := 1
  /-- The listeners in the order in which they were added, with the number of the entry. -/
  statusListeners : List (ℕ × ℕ) := []
  entries : ℕ := 0
  /-- `whenSynced` has resolved. -/
  resolved : Bool := false
  channelParams : Params := fun _ => none
  /-- The page handlers in place, and the presence they keep. -/
  page : Option (ℕ × Option String) := none
  pages : ℕ := 0
  microtasks : List Microtask := []
  /-- How many attempts there were, and how many subscriptions `create` has returned. -/
  attempts : ℕ := 0
  subscriptions : ℕ := 0

inductive Event
  | create (attempt : ℕ) (params : Params)
  | created (subscription : ℕ)
  /-- A frame is handed to a subscription; `state` is the provider's state as it is. -/
  | sent (state : ProviderState) (subscription : ℕ) (frame : Outgoing) (tag : Option ℕ)
    (whispered : Bool)
  | unsubscribed (subscription : ℕ)
  | notified (listener : ℕ) (event : StatusEvent)
  | complained (context : String)
  /-- `destroy` completes. -/
  | destroyed

/-- What the provider does when a method of the session has returned. -/
inductive SessionNext
  | done
  | refresh
  | reply (attempt : ℕ)
  | pausing (attempt : ℕ) (subscription : Subscription) (renewing : Bool)
  | unsubscribing (attempt : ℕ) (subscription : Subscription) (renewing : Bool)
  | destroying (renewing : Bool)

/-- What the provider does when the listeners have been told. -/
inductive Next
  | done
  | rethrow
  | stopped (destroyed renewing : Bool)

/-- Who waits for something that the session or the queue calls. -/
inductive Cont
  | refresh
  | session (f : Session.Frame) (next : SessionNext)
  | delivery (f : ReliableSync.Frame) (below : Option (Session.Frame × SessionNext))

/-- What they wait for: a call among themselves that is over, a frame to be sent, a report of its
failure, or something outside. -/
inductive Callee
  | inner (threw : Bool)
  | send (subscription : Subscription)
  | report
  | session (x : Session.External)
  | queue

/-- What the provider waits for. -/
inductive Frame
  | restoring (attempt : ℕ) (presence : String)
  | creating (attempt : ℕ)
  | restored (page : ℕ)
  | rejecting (renewing : Bool)
  | destroyingAwareness (renewing : Bool)
  | notifying (event entry : ℕ) (next : Next)
  | listenerFailed (event entry : ℕ) (next : Next)
  | unsubscribing
  | ending
  | within (callee : Callee) (cont : Cont)
  | after (reply : Option Bytes) (next : SessionNext)

inductive Ret
  | unit
  | threw
  | bytes (b : Bytes)
  | handle (h : ReliableSync.Handle)
  /-- `create` returns a subscription. -/
  | subscription (whispers : Bool)

def Ret.toSession : Ret → Session.Ret
  | .bytes b => .bytes b
  | .threw => .threw
  | _ => .unit

def Ret.toDelivery : Ret → ReliableSync.Ret
  | .bytes b => .bytes b
  | .handle h => .handle h
  | .threw => .threw
  | _ => .unit

abbrev Out := Outcome State Frame Event
abbrev Cfg := Config State Frame Event

/-- What the provider takes from outside: `atob`, `JSON.parse`, whether there is a `window`, and the
channel's name. -/
structure Host where
  fromBase64 : String → Option Bytes
  parsesJson : Bytes → Bool
  hasWindow : Bool
  channelName : String

/-! ## Frames on their way out -/

/-- `#send` -/
def send (s : State) (frame : Outgoing) (tag : Option ℕ) (cont : Cont) : Out :=
  match s.state.subscription? with
  | none => { state := s, control := .awaits (.within (.inner false) cont) }
  | some sub =>
      if s.state.isStopping ∧ ¬frame.isAwareness then
        { state := s, control := .awaits (.within (.inner false) cont) }
      else
        { state := s
          events := [.sent s.state sub.number frame tag (frame.isAwareness && sub.whispers)]
          control := .awaits (.within (.send sub) cont) }

/-- The delta and the id of the `send` that a stretch of the queue ends with. -/
def deltaOf (events : List ReliableSync.Event) : Option (Bytes × ℕ) :=
  events.findSome? fun
    | .send update tag _ => some (update, tag)
    | _ => none

/-- A stretch of the delivery queue, called by the session or by its timer. -/
def runDelivery (s : State) (o : ReliableSync.Out) (below : Option (Session.Frame × SessionNext)) :
    Out :=
  let s := { s with delivery := o.state }
  match o.control, below with
  | .awaits f, _ =>
      match deltaOf o.events with
      | some (update, tag) => send s (.update update) (some tag) (.delivery f below)
      | none => { state := s, control := .awaits (.within .queue (.delivery f below)) }
  | .returned, some (f, next) =>
      { state := s, control := .awaits (.within (.inner false) (.session f next)) }
  | .threw, some (f, next) =>
      { state := s, control := .awaits (.within (.inner true) (.session f next)) }
  | .returned, none => { state := s }
  | .threw, none => { state := s, control := .threw }

/-- What the session calls. -/
def callOut (s : State) (x : Session.External) (f : Session.Frame) (next : SessionNext) : Out :=
  match x with
  | .sendSyncStep1 => send s .syncStep1 none (.session f next)
  | .sendAwareness clients => send s (.awareness clients) none (.session f next)
  | .deliveryResume => runDelivery s (ReliableSync.resume s.delivery) (some (f, next))
  | .deliveryPause => runDelivery s (ReliableSync.pause s.delivery) (some (f, next))
  | .deliveryDestroy => runDelivery s (ReliableSync.destroy s.delivery) (some (f, next))
  | .deliveryEnqueue update =>
      runDelivery s (ReliableSync.enqueue s.delivery update) (some (f, next))
  | .deliveryAcknowledge id =>
      runDelivery s (ReliableSync.acknowledge s.delivery id) (some (f, next))
  | .onError =>
      { state := s, events := [.complained "receive"],
        control := .awaits (.within (.session x) (.session f next)) }
  | _ => { state := s, control := .awaits (.within (.session x) (.session f next)) }

/-- What a stretch of the session calls at its end. -/
def externalOf (events : List Session.Event) : Option Session.External :=
  events.findSome? fun
    | .call x => some x
    | _ => none

/-- The frame that `receive` returns. -/
def replyOf (events : List Session.Event) : Option Bytes :=
  events.findSome? fun
    | .reply frame => some frame
    | _ => none

/-- A stretch of the session. -/
def runSession (s : State) (o : Session.Out) (next : SessionNext) : Out :=
  let s := { s with session := o.state }
  match o.control with
  | .awaits f =>
      match externalOf o.events with
      | some x => callOut s x f next
      | none => { state := s, control := .threw }
  | .threw => { state := s, control := .threw }
  | .returned =>
      match next with
      | .done => { state := s }
      | next => { state := s, control := .awaits (.after (replyOf o.events) next) }

/-! ## Status -/

/-- `#computeStatus` -/
def computeStatus (s : State) : ProviderStatus :=
  match s.state with
  | .subscribing _ | .connecting _ _ => .connecting
  | .connected _ _ => if s.session.isSynced then .synced else .connected
  | _ => .disconnected

section Methods

variable (H : Host)

/-- `create`, once the presence is restored. -/
def create (s : State) (attempt : ℕ) : Out where
  state := s
  events := [.create attempt fun key =>
    (s.channelParams key).or (if key = "channel" then some H.channelName else none)]
  control := .awaits (.creating attempt)

def connect (s : State) : Out :=
  if s.state.destroying then { state := s, control := .threw }
  else if s.state ≠ .disconnected then { state := s }
  else
    let subscribing :=
      { s with state := .subscribing s.attempts, attempts := s.attempts + 1, presence := none }
    match s.presence with
    | some presence =>
        { state := subscribing, control := .awaits (.restoring s.attempts presence) }
    | none => create H subscribing s.attempts

/-- `#stop` returns, to `renew` or to another caller. -/
def stopped (s : State) (renewing : Bool) : Out := if renewing then connect H s else { state := s }

/-- `#refreshStatus` returns. -/
def refreshed (s : State) : Next → Out
  | .done => { state := s }
  | .rethrow => { state := s, control := .threw }
  | .stopped false renewing => stopped H s renewing
  | .stopped true renewing =>
      let o := stopped H { s with statusListeners := [] } renewing
      { o with events := .destroyed :: o.events }

/-- The loop over the listeners, from an entry on. -/
def notify (s : State) (event entry : ℕ) (next : Next) : Out :=
  -- a listener caused a newer transition
  if s.last.1 ≠ event then refreshed H s next
  else
    match s.statusListeners.find? fun l => decide (entry ≤ l.1) with
    | none => refreshed H s next
    | some l =>
        { state := s, events := [.notified l.2 s.last.2],
          control := .awaits (.notifying event (l.1 + 1) next) }

/-- `#refreshStatus` -/
def refreshStatus (s : State) (next : Next) : Out :=
  let event : StatusEvent := ⟨computeStatus s, s.delivery.hasPending⟩
  if event = s.last.2 then refreshed H s next
  else
    notify H
      { s with
        last := (s.statusEvents, event)
        statusEvents := s.statusEvents + 1
        resolved := s.resolved || decide (event.status = .synced) }
      s.statusEvents 0 next

/-! ## Connecting and stopping -/

/-- `#watchPage` -/
def watchPage (s : State) : State :=
  if H.hasWindow && s.page.isNone then { s with page := some (s.pages, none), pages := s.pages + 1 }
  else s

/-- `#unsubscribe` -/
def unsubscribe (s : State) (sub : Subscription) : State :=
  { s with microtasks := s.microtasks ++ [.unsubscribe sub] }

/-- `connect`, once `create` has returned a subscription. -/
def installed (s : State) (attempt : ℕ) (whispers : Bool) : Out :=
  let sub : Subscription := ⟨s.subscriptions, whispers⟩
  let s := { s with subscriptions := s.subscriptions + 1 }
  -- disconnect() or destroy() ran inside create()
  if s.state ≠ .subscribing attempt then
    { state := unsubscribe s sub, events := [.created sub.number] }
  else
    let o := refreshStatus H (watchPage H { s with state := .connecting attempt sub }) .done
    { o with events := .created sub.number :: o.events }

/-- `connect`, once `create` has thrown. -/
def createFailed (s : State) (attempt : ℕ) : Out :=
  if s.state ≠ .subscribing attempt then { state := s }
  else refreshStatus H { s with state := .disconnected } .rethrow

/-- `#stop`, once nothing holds a subscription any more. -/
def finishStop (s : State) (reason : StopReason) (renewing : Bool) : Out :=
  match reason with
  | .destroy =>
      runSession { s with state := .destroyed } (Session.destroy s.session) (.destroying renewing)
  | .reject =>
      { state := { s with state := .disconnected }, events := [.complained "rejected"],
        control := .awaits (.rejecting renewing) }
  | .disconnect => refreshStatus H { s with state := .disconnected } (.stopped false renewing)

/-- `#stop` -/
def stop (s : State) (reason : StopReason) (renewing : Bool) : Out :=
  match s.state with
  | .destroyed => stopped H s renewing
  | .stopping a sub _ =>
      stopped H (if reason = .destroy then { s with state := .stopping a sub .destroy } else s)
        renewing
  | .disconnected =>
      if reason = .disconnect then stopped H s renewing else finishStop H s reason renewing
  | .subscribing _ => finishStop H s reason renewing
  | .connecting a sub | .connected a sub =>
      runSession { s with state := .stopping a sub reason, page := none, presence := s.localState }
        (Session.removeLocalAwareness s.session) (.pausing a sub renewing)

def renew (s : State) (params : Params) : Out :=
  if s.state.destroying then { state := s }
  else
    stop H { s with channelParams := fun key => (params key).or (s.channelParams key) } .disconnect
      true

/-- What follows a method of the session. -/
def proceed (s : State) (reply : Option Bytes) : SessionNext → Out
  | .done => { state := s }
  | .refresh => refreshStatus H s .done
  | .reply attempt =>
      match reply with
      | some frame =>
          -- doc observers may have replaced the connection
          if s.state.active attempt then send s (.reply frame) none .refresh
          else refreshStatus H s .done
      | none => refreshStatus H s .done
  | .pausing a sub renewing =>
      runSession s (Session.pause s.session) (.unsubscribing a sub renewing)
  | .unsubscribing a sub renewing =>
      let s := unsubscribe s sub
      match s.state with
      | .stopping a' _ reason =>
          if a' = a then finishStop H s reason renewing else stopped H s renewing
      | _ => stopped H s renewing
  | .destroying renewing => { state := s, control := .awaits (.destroyingAwareness renewing) }

/-! ## The callbacks of a subscription -/

/-- `#receive` -/
def receive (s : State) (message : Option CableMessage) (attempt : ℕ) : Out :=
  match message with
  | none => { state := s }
  | some m =>
      match m.ack with
      | some ack => runSession s (Session.call H.parsesJson s.session (.acknowledge ack)) .refresh
      | none =>
          match m.payload with
          | none => { state := s }
          | some text =>
              match H.fromBase64 text with
              | none =>
                  { state := s, events := [.complained "received"], control := .awaits .ending }
              | some frame =>
                  if m.awareness ≠ .undefined ∧ frame.head? ≠ some 1 then
                    { state := s, events := [.complained "received"], control := .awaits .ending }
                  else
                    runSession s (Session.receive H.parsesJson s.session frame) (.reply attempt)

def callback (s : State) (attempt : ℕ) : Callback → Out
  | .received message => receive H s message attempt
  | .connected =>
      match s.state with
      | .connecting a sub =>
          runSession { s with state := .connected a sub } (Session.resume s.session) .refresh
      | _ => { state := s }
  | .disconnected =>
      match s.state with
      | .connecting a sub | .connected a sub =>
          runSession { s with state := .connecting a sub } (Session.pause s.session) .refresh
      | _ => { state := s }
  | .rejected => stop H s .reject false

/-- `run` of `on` -/
def run (s : State) (attempt : ℕ) (cb : Callback) : Out :=
  if s.state.active attempt then callback H s attempt cb else { state := s }

/-- The cable invokes a callback that `on` wrapped. -/
def cable (s : State) (attempt : ℕ) (cb : Callback) : Out :=
  match s.state with
  | .subscribing _ => { state := { s with microtasks := s.microtasks ++ [.run attempt cb] } }
  | _ => run H s attempt cb

def microtask (s : State) : Out :=
  match s.microtasks with
  | [] => { state := s }
  | .run attempt cb :: rest => run H { s with microtasks := rest } attempt cb
  | .unsubscribe sub :: rest =>
      { state := { s with microtasks := rest }, events := [.unsubscribed sub.number],
        control := .awaits .unsubscribing }

/-! ## The machine -/

/-- The public methods, the callbacks of the cable, the listeners on the document and the awareness
object, the handlers of the page and the timer.  `awarenessIs` is the awareness object changing by
itself, and `sendRejected` a promise of `send` that is rejected later. -/
inductive Call
  | connect
  | disconnect
  | renew (params : Params)
  | destroy
  | onStatusChange (listener : ℕ)
  | offStatusChange (listener : ℕ)
  | applyRemoteUpdate (update : Bytes)
  | cable (attempt : ℕ) (callback : Callback)
  | microtask
  | sessionDocUpdate (update : Bytes) (own : Bool)
  | onDocUpdate
  | sessionAwarenessUpdate (changed : List ℕ) (own : Bool)
  | onAwarenessUpdate (mine : Bool)
  | awarenessIs (localState : Option String) (remote : List ℕ)
  | tick (timer : ℕ)
  | pagehide (page : ℕ)
  | pageshow (page : ℕ) (persisted : Bool)
  | sendRejected (subscription : Subscription)

def onStatusChange (s : State) (listener : ℕ) : State :=
  if s.statusListeners.any fun l => decide (l.2 = listener) then s
  else
    { s with
      statusListeners := s.statusListeners ++ [(s.entries, listener)], entries := s.entries + 1 }

/-- `hide` of `#watchPage` -/
def hide (s : State) (page : ℕ) : Out :=
  match s.page with
  | some (p, _) =>
      if p = page then
        runSession { s with page := some (p, s.localState) }
          (Session.removeLocalAwareness s.session) .done
      else { state := s }
  | none => { state := s }

/-- `show` of `#watchPage` -/
def unhide (s : State) (page : ℕ) (persisted : Bool) : Out :=
  match s.page with
  | some (p, some _) =>
      if p = page ∧ persisted then
        if s.localState.isNone then { state := s, control := .awaits (.restored p) }
        else { state := { s with page := some (p, none) } }
      else { state := s }
  | _ => { state := s }

def call (s : State) : Call → Out
  | .connect => connect H s
  | .disconnect => stop H s .disconnect false
  | .renew params => renew H s params
  | .destroy => stop H s .destroy false
  | .onStatusChange listener => { state := onStatusChange s listener }
  | .offStatusChange listener =>
      { state := { s with
          statusListeners := s.statusListeners.filter fun l => decide (l.2 ≠ listener) } }
  | .applyRemoteUpdate update =>
      runSession s (Session.call H.parsesJson s.session (.applyRemoteUpdate update)) .done
  | .cable attempt cb => cable H s attempt cb
  | .microtask => microtask H s
  | .sessionDocUpdate update own =>
      runSession s (Session.call H.parsesJson s.session (.docUpdate update own)) .done
  | .onDocUpdate => refreshStatus H s .done
  | .sessionAwarenessUpdate changed own =>
      runSession s (Session.call H.parsesJson s.session (.awarenessUpdate changed own)) .done
  | .onAwarenessUpdate mine =>
      { state := if s.state = .disconnected ∧ mine then { s with presence := none } else s }
  | .awarenessIs localState remote =>
      runSession { s with localState := localState }
        (Session.call H.parsesJson s.session (.awarenessIs localState.isSome remote)) .done
  | .tick timer => runDelivery s (ReliableSync.tick s.delivery timer) none
  | .pagehide page => hide s page
  | .pageshow page persisted => unhide s page persisted
  | .sendRejected sub =>
      if s.state.subscription? = some sub then
        { state := s, events := [.complained "send"], control := .awaits .ending }
      else { state := s }

/-- How a callee can come back. -/
def Callee.answers (cont : Cont) : Callee → Ret → Bool
  | .inner threw, .unit => !threw
  | .inner threw, .threw => threw
  | .send _, .unit | .send _, .threw | .report, .unit => true
  | .session (.applyUpdate _), .unit | .session (.applyUpdate _), .threw => true
  | .session (.applyAwarenessUpdate _), .unit | .session (.applyAwarenessUpdate _), .threw => true
  | .session (.encodeStateAsUpdate _), .bytes _ | .session (.encodeStateAsUpdate _), .threw => true
  | .session (.encodeStateAsUpdate _), .unit => false
  | .session _, .unit => true
  | .queue, .threw =>
      match cont with
      | .delivery (.merge _ _) _ => true
      | _ => false
  | .queue, .bytes _ | .queue, .handle _ | .queue, .unit => true
  | _, _ => false

/-- Whoever waits carries on. -/
def carryOn (s : State) (r : Ret) : Cont → Option Out
  | .refresh => some (refreshStatus H s .done)
  | .session f next => (Session.back s.session f r.toSession).map fun o => runSession s o next
  | .delivery f below =>
      (ReliableSync.back s.delivery f r.toDelivery).map fun o => runDelivery s o below

def back (s : State) : Frame → Ret → Option Out
  | .restoring attempt _, .unit =>
      some (if s.state = .subscribing attempt then create H s attempt else { state := s })
  | .creating attempt, .subscription whispers => some (installed H s attempt whispers)
  | .creating attempt, .threw => some (createFailed H s attempt)
  | .restored page, .unit =>
      some { state :=
        match s.page with
        | some (p, stash) => { s with page := some (p, if p = page then none else stash) }
        | none => s }
  | .rejecting renewing, .unit => some (refreshStatus H s (.stopped false renewing))
  | .destroyingAwareness renewing, .unit => some (refreshStatus H s (.stopped true renewing))
  | .notifying event entry next, .unit => some (notify H s event entry next)
  | .notifying event entry next, .threw =>
      some { state := s, events := [.complained "listener"],
             control := .awaits (.listenerFailed event entry next) }
  | .listenerFailed event entry next, .unit => some (notify H s event entry next)
  | .unsubscribing, .unit => some { state := s }
  | .unsubscribing, .threw =>
      some { state := s, events := [.complained "unsubscribe"], control := .awaits .ending }
  | .ending, .unit => some { state := s }
  | .within callee cont, r =>
      if callee.answers cont r then
        match callee, r with
        | .send sub, .threw =>
            if s.state.subscription? = some sub then
              some { state := s, events := [.complained "send"],
                     control := .awaits (.within .report cont) }
            else carryOn H s .unit cont
        | _, r => carryOn H s r cont
      else none
  | .after reply next, .unit => some (proceed H s reply next)
  | _, _ => none

def machine : Machine State Call Frame Ret Event := ⟨call H, back H⟩

/-- A move is possible: a microtask waits for the stack to unwind, and an attempt has callbacks once
it has begun. -/
def enabled (c : Cfg) : Move Call Ret → Bool
  | .call .microtask => c.stack.isEmpty
  | .call (.cable attempt _) => decide (attempt < c.state.attempts)
  | _ => true

def step (c : Cfg) (m : Move Call Ret) : Option Cfg :=
  if enabled c m then (machine H).step c m else none

/-- `new ActionCableProvider(doc, consumer, channelName, channelParams, opts)` -/
def init (channelParams : Params) : Cfg := { state := { channelParams } }

/-! ## The promise -/

/-- The status event that is being delivered. -/
def Frame.event? : Frame → Option ℕ
  | .notifying event _ _ | .listenerFailed event _ _ => some event
  | _ => none

/-- A reliable frame goes to the current subscription, and the provider is connected. -/
def Event.Reliable : Event → Prop
  | .sent st sub _ (some _) _ => ∃ a whispers, st = .connected a ⟨sub, whispers⟩
  | _ => True

/-- The event is neither a frame nor a call of a listener. -/
def Event.Silent : Event → Prop
  | .sent _ _ _ _ _ | .notified _ _ => False
  | _ => True

/-- The number of the subscription that the provider holds. -/
def held (s : State) : List ℕ := (s.state.subscription?.map Subscription.number).toList

def Microtask.unsubscribes : Microtask → Option ℕ
  | .unsubscribe sub => some sub.number
  | .run _ _ => none

/-- The subscriptions that a microtask is about to unsubscribe. -/
def queued (s : State) : List ℕ := s.microtasks.filterMap Microtask.unsubscribes

def Event.unsubscribes : Event → Option ℕ
  | .unsubscribed sub => some sub
  | _ => none

def Event.creates : Event → Option ℕ
  | .created sub => some sub
  | _ => none

/-- No listener is registered once `destroy` has completed, while the last status event is still
being delivered. -/
def InTime (c : Cfg) : Move Call Ret → Prop
  | .call (.onStatusChange _) =>
      .destroyed ∈ c.trace → ∀ f ∈ c.stack, f.event? ≠ some c.state.last.1
  | _ => True

structure Isolated (H : Host) (c : Cfg) : Prop where
  /-- A callback of an attempt that is not the current one has no effect, and none when a microtask
  runs it. -/
  ignored : ∀ a cb, c.state.state.active a = false →
    call H c.state (.cable a cb) = { state := c.state } ∨
      call H c.state (.cable a cb) =
        { state := { c.state with microtasks := c.state.microtasks ++ [.run a cb] } }
  deferred : ∀ a cb rest, c.state.microtasks = .run a cb :: rest →
    c.state.state.active a = false →
    call H c.state .microtask = { state := { c.state with microtasks := rest } }
  current : ∀ a a', c.state.state.active a → c.state.state.active a' → a = a'
  /-- Every subscription that `create` returned is the current one, about to be unsubscribed by
  one microtask, or has been unsubscribed once. -/
  custody : (held c.state ++ queued c.state ++ c.trace.filterMap Event.unsubscribes).Perm
    (c.trace.filterMap Event.creates)
  distinct : (c.trace.filterMap Event.creates).Nodup
  reliable : ∀ e ∈ c.trace, e.Reliable
  /-- A `create` that throws leaves the provider disconnected. -/
  failed : ∀ a rest c', c.stack = .creating a :: rest → c.state.state = .subscribing a →
    step H c (.back .threw) = some c' → c'.state.state = .disconnected
  /-- A rejection begins a `#stop`, which leaves the provider disconnected. -/
  rejecting : ∀ a, c.state.state.active a →
    ∃ sub, (call H c.state (.cable a .rejected)).state.state = .stopping a sub .reject
  rejected : ∀ a sub renewing reply rest c',
    c.stack = .after reply (.unsubscribing a sub renewing) :: rest →
    c.state.state = .stopping a sub .reject → step H c (.back .unit) = some c' →
    c'.state.state = .disconnected
  /-- When nothing is under way, every `connect` and every `#stop` has come to its end. -/
  finished : c.stack = [] → ∀ a sub reason,
    c.state.state ≠ .subscribing a ∧ c.state.state ≠ .stopping a sub reason
  /-- A disconnected provider connects with an attempt that is new. -/
  connects : c.state.state = .disconnected →
    (call H c.state .connect).state.state = .subscribing c.state.attempts ∧
      ∀ params, .create c.state.attempts params ∉ c.trace
  /-- After `destroy` completes no frame is sent and no listener is called. -/
  silent : ∀ pre post, c.trace = pre ++ .destroyed :: post → ∀ e ∈ post, e.Silent
  final : .destroyed ∈ c.trace → c.state.state = .destroyed

end Methods

end Yrby.ActionCableProvider
