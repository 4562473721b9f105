import Yrby.Framework.Reentrant

/-!
# Document sessions and their leases (`document_session.ts`)

A store holds one session for each document.  Editors hold leases on a session, which closes when
it has neither leases nor unacknowledged edits, or when the application discards it.  A rejected
session fetches a new grant once, and blocks when that does not help; what it does then about its
leases waits for a microtask (`settle`).

Releasing a lease runs the application's abort handlers, which may call the store and the sessions
again.  So the store with its sessions is a re-entrant machine, whose injected call is the abort of
a lease.  The environment may also let a microtask, a cable event or a refresh result come while
abort handlers run; JavaScript has fewer schedules.

The provider of a session is described as far as the session sees it, each method in one go: what
it calls back is the session's own listener.  Frames of an earlier subscription have no effect.
A `Note` is what happens to one session; the claims are about the notes of each session.
-/

namespace Yrby

open Reentrant

namespace DocumentSession

/-! ## Descriptors -/

/-- What an application asks for. -/
structure Descriptor where
  channel : Option String := none
  grant : String
  name : String
  refresh : Option String := none
  deriving DecidableEq

structure ResolvedDescriptor where
  channel : String
  grant : String
  name : String
  refresh : Option String
  deriving DecidableEq

abbrev Key := String × String × String

def defaultChannel : String := "Y::DocumentChannel"

/-- An optional string, where an empty one counts as none. -/
def present (value : Option String) : Option String := value.filter (· ≠ "")

def resolve (input : Descriptor) : ResolvedDescriptor where
  channel := (present input.channel).getD defaultChannel
  grant := input.grant
  name := input.name
  refresh := present input.refresh

/-- The tuple that `documentKey` writes as JSON. -/
def ResolvedDescriptor.key (d : ResolvedDescriptor) : Key := (d.channel, d.grant, d.name)

/-! ## Phases -/

inductive SessionState
  | open
  | blocked
  | closed
  deriving DecidableEq

inductive Phase
  | open
  | refreshing
  | renewed
  | blocked
  | closed
  deriving DecidableEq

inductive PhaseEvent
  | refresh
  | renew
  | accept
  | block
  | retry
  | close
  deriving DecidableEq

/-- `PHASES[phase].state` -/
def Phase.state : Phase → SessionState
  | .open | .refreshing | .renewed => .open
  | .blocked => .blocked
  | .closed => .closed

/-- `PHASES[phase].connects` -/
def Phase.connects : Phase → Bool
  | .open | .renewed => true
  | .refreshing | .blocked | .closed => false

/-- `PHASES[phase].on` -/
def Phase.on : Phase → PhaseEvent → Option Phase
  | .open, .refresh => some .refreshing
  | .open, .block => some .blocked
  | .open, .close => some .closed
  | .refreshing, .renew => some .renewed
  | .refreshing, .block => some .blocked
  | .refreshing, .close => some .closed
  | .renewed, .accept => some .open
  | .renewed, .block => some .blocked
  | .renewed, .close => some .closed
  | .blocked, .retry => some .open
  | .blocked, .close => some .closed
  | _, _ => none

/-! ## The provider -/

inductive Status
  | connecting
  | connected
  | synced
  | disconnected
  deriving DecidableEq

inductive Transport
  | disconnected
  | connecting
  | connected
  | destroyed
  deriving DecidableEq

/-- `ActionCableProvider`, between two of its methods.  `attempt` numbers the subscriptions. -/
structure Provider where
  transport : Transport := .disconnected
  attempt : ℕ := 0
  grant : String
  /-- The edits that await an acknowledgment. -/
  queued : ℕ := 0
  synced : Bool := false
  /-- `#last` -/
  last : Status × Bool := (.disconnected, false)
  deriving DecidableEq

def Provider.hasPending (p : Provider) : Bool := p.queued ≠ 0

/-- `#computeStatus` -/
def Provider.status (p : Provider) : Status :=
  match p.transport with
  | .connecting => .connecting
  | .connected => if p.synced then .synced else .connected
  | .disconnected | .destroyed => .disconnected

/-- What a subscription reports. -/
inductive CableEvent
  | connected
  | lost
  | rejected
  /-- An acknowledgment of this many edits. -/
  | acked (count : ℕ)
  /-- A frame, and whether it completes the sync. -/
  | received (step2 : Bool)

/-! ## Sessions -/

/-- A lease, by its number. -/
abbrev LeaseId := ℕ

/-- What happens to a session. -/
inductive Note
  /-- The refresh URL is fetched, with this lifecycle as the attempt. -/
  | fetch (attempt : ℕ)
  /-- The server accepts a subscription. -/
  | accepted
  /-- A `retry` takes effect. -/
  | retried
  /-- The session blocks, with these leases. -/
  | blocked (held : List LeaseId)
  /-- A settle begins in this phase, and will release these leases. -/
  | settles (phase : Phase) (releases : List LeaseId)
  /-- The session closes. -/
  | closed
  deriving DecidableEq

structure Session where
  descriptor : ResolvedDescriptor
  provider : Provider
  phase : Phase := .open
  /-- The identity of the lifecycle object: a transition makes a new one. -/
  lifecycle : ℕ := 0
  leases : List LeaseId := []
  retiring : Option (List LeaseId) := none
  error : Option String := none
  dirty : Bool := false
  settleQueued : Bool := false
  /-- The attempts whose fetch is under way or has come back. -/
  fetches : List ℕ := []
  deriving DecidableEq

namespace Session

/-- What a method leaves: the session, and the notes it made. -/
abbrev Noted := Session × List Note

def state (s : Session) : SessionState := s.phase.state

/-- `new DocumentSession(…)` -/
def new (descriptor : ResolvedDescriptor) : Session where
  descriptor := descriptor
  provider := { grant := descriptor.grant }

/-- `#changed` -/
def changed (s : Session) : Session := { s with dirty := true, settleQueued := true }

/-- `#transition`; `none` when it is not allowed. -/
def transition (s : Session) (event : PhaseEvent) (error : Option String) : Option Session :=
  (s.phase.on event).map fun phase =>
    changed { s with
      phase
      lifecycle := s.lifecycle + 1
      retiring := if phase = .blocked then some s.leases else none
      error :=
        match event with
        | .retry => none
        | .block => error
        | _ => s.error }

/-- The session's listener for status changes. -/
def onStatus (s : Session) (status : Status) : Session :=
  if s.state ≠ .open then s
  else if status = .connected ∨ status = .synced then
    changed ((s.transition .accept none).getD s)
  else changed s

/-- The provider's `#refreshStatus`. -/
def refreshStatus (s : Session) : Session :=
  if (s.provider.status, s.provider.hasPending) = s.provider.last then s
  else
    onStatus { s with provider.last := (s.provider.status, s.provider.hasPending) }
      s.provider.status

/-- The provider has changed, and tells its listeners. -/
def refreshed (s : Session) (p : Provider) : Session := refreshStatus { s with provider := p }

def block (s : Session) (error : String) : Noted :=
  match s.transition .block (some error) with
  | some s' => (s', [.blocked s.leases])
  | none => (s, [])

/-- The provider's `connect`, where `failure` is what `create` throws; and what `connect` throws. -/
def providerConnect (s : Session) (failure : Option String) : Session × Option String :=
  match s.provider.transport with
  | .destroyed => (s, some "provider is destroyed")
  | .connecting | .connected => (s, none)
  | .disconnected =>
    match failure with
    | some error => (refreshStatus s, some error)
    | none =>
      (s.refreshed { s.provider with
        transport := .connecting
        attempt := s.provider.attempt + 1 }, none)

/-- The provider's `disconnect`. -/
def providerDisconnect (s : Session) : Session :=
  match s.provider.transport with
  | .disconnected | .destroyed => s
  | .connecting | .connected =>
    s.refreshed { s.provider with transport := .disconnected, synced := false }

/-- The provider's `renew`. -/
def providerRenew (s : Session) (grant : String) (failure : Option String) :
    Session × Option String :=
  if s.provider.transport = .destroyed then (s, none)
  else (providerDisconnect { s with provider.grant := grant }).providerConnect failure

/-- `#connect` -/
def connect (s : Session) (grant : Option String) (failure : Option String) : Noted :=
  let connection :=
    match grant with
    | none => s.providerConnect failure
    | some grant => s.providerRenew grant failure
  match connection with
  | (s, none) => (s, [])
  | (s, some error) => s.block error

/-- `#rejected` -/
def rejected (s : Session) (error : String) : Noted :=
  match s.descriptor.refresh.bind fun _ => s.transition .refresh none with
  | some s' => ({ s' with fetches := s'.lifecycle :: s'.fetches }, [.fetch s'.lifecycle])
  | none => s.block error

/-- An event of the current subscription. -/
def onCable (s : Session) : CableEvent → Noted
  | .connected =>
    if s.provider.transport = .connecting then
      (s.refreshed { s.provider with transport := .connected, synced := false }, [.accepted])
    else (s, [])
  | .lost => (s.refreshed { s.provider with transport := .connecting, synced := false }, [])
  | .rejected =>
    let stopped : Session :=
      { s with provider := { s.provider with transport := .disconnected, synced := false } }
    let told := stopped.rejected "subscription rejected by the server"
    (told.1.refreshStatus, told.2)
  | .acked count => (s.refreshed { s.provider with queued := s.provider.queued - count }, [])
  | .received step2 => (s.refreshed { s.provider with synced := s.provider.synced || step2 }, [])

/-- An event of the subscription with a number; the provider ignores those of an earlier one. -/
def cable (s : Session) (attempt : ℕ) (event : CableEvent) : Noted :=
  if (s.provider.transport = .connecting ∨ s.provider.transport = .connected) ∧
      attempt = s.provider.attempt then s.onCable event
  else (s, [])

/-- A local edit of the document. -/
def edit (s : Session) : Noted :=
  if s.provider.transport = .destroyed then (s, [])
  else (s.refreshed { s.provider with queued := s.provider.queued + 1 }, [])

/-- `onError`, for another reason than a rejection. -/
def providerError (s : Session) (error : String) : Noted :=
  if s.state = .closed then (s, []) else (changed { s with error := some error }, [])

/-- `[attachLease]` of an unclosed session. -/
def attachLease (s : Session) (lease : LeaseId) (failure : Option String) : Noted :=
  let s := changed { s with leases := s.leases ++ [lease] }
  if s.phase.connects then s.connect none failure else (s, [])

/-- `#release` -/
def onRelease (s : Session) (lease : LeaseId) : Noted :=
  if lease ∈ s.leases then (changed { s with leases := s.leases.filter (· ≠ lease) }, [])
  else (s, [])

def retry (s : Session) (failure : Option String) : Noted :=
  match s.transition .retry none with
  | some s' =>
    let o := s'.connect none failure
    (o.1, .retried :: o.2)
  | none => (s, [])

/-- `#refresh`, once the fetch has come back with a grant or an error. -/
def onRefreshed (s : Session) (attempt : ℕ) (result : Except String String)
    (failure : Option String) : Noted :=
  if attempt ∉ s.fetches then (s, [])
  else if s.lifecycle ≠ attempt then (s, [])
  else
    match result with
    | .error error => s.block error
    | .ok grant =>
      match s.transition .renew none with
      | some s' => s'.connect (some grant) failure
      | none => (s, [])

/-- `#needed` -/
def needed (s : Session) : Bool := !s.leases.isEmpty || s.provider.hasPending

/-- The provider's `destroy`. -/
def providerDestroy (s : Session) : Noted :=
  if s.provider.transport = .destroyed then (s, [])
  else (s.refreshed { s.provider with transport := .destroyed, synced := false }, [])

/-- The transition of `#close`. -/
def close (s : Session) : Option Noted := (s.transition .close none).map fun s' => (s', [.closed])

/-- The start of `#settle`: the leases a blocked session releases are taken. -/
def settle (s : Session) : Noted :=
  let releases := if s.state = .blocked then s.retiring.getD [] else []
  ({ s with settleQueued := false, retiring := if s.state = .blocked then none else s.retiring },
    [.settles s.phase releases])

/-- The end of `#settle`: observers are notified. -/
def settled (s : Session) : Noted := ({ s with dirty := false }, [])

end Session

/-! ## The store -/

structure Lease where
  session : ℕ
  /-- `signal.aborted` -/
  aborted : Bool := false
  deriving DecidableEq

/-- A store with all sessions and leases that it ever had; `live` is the map of its sessions. -/
structure Store where
  sessions : List Session := []
  live : List (Key × ℕ) := []
  leases : List Lease := []
  deriving DecidableEq

inductive Call
  | acquire (input : Descriptor) (failure : Option String)
  | release (lease : LeaseId)
  | retry (session : ℕ) (failure : Option String)
  | discard (session : ℕ)
  | edit (session : ℕ)
  | cable (session attempt : ℕ) (event : CableEvent)
  | providerError (session : ℕ) (error : String)
  | refreshed (session attempt : ℕ) (result : Except String String) (failure : Option String)
  /-- The microtask that `#changed` queued. -/
  | settle (session : ℕ)

inductive Event
  | session (id : ℕ) (note : Note)
  /-- `acquire` returns a lease of a session in this phase. -/
  | acquired (lease : LeaseId) (session : ℕ) (phase : Phase)
  deriving DecidableEq

/-- What is left of a method that releases leases. -/
inductive Next
  /-- `release` itself. -/
  | done
  /-- `#settle` of a blocked session. -/
  | settle (session : ℕ)
  /-- `#close`, by `discard` or inside a `#settle`. -/
  | close (session : ℕ) (settling : Bool)
  deriving DecidableEq

/-- The abort handlers of a lease run, in a loop over the remaining leases. -/
structure Frame where
  lease : LeaseId
  rest : List LeaseId
  next : Next
  deriving DecidableEq

abbrev Out := Outcome Store Frame Event
abbrev Cfg := Config Store Frame Event

namespace Store

/-- Run a method of a session. -/
def modify (st : Store) (id : ℕ) (f : Session → Session.Noted) : Store × List Event :=
  match st.sessions[id]? with
  | some s => ({ st with sessions := st.sessions.set id (f s).1 }, (f s).2.map (.session id))
  | none => (st, [])

/-- The same as a stretch of code. -/
def run (st : Store) (id : ℕ) (f : Session → Session.Noted) : Out :=
  { state := (st.modify id f).1, events := (st.modify id f).2 }

/-- What follows the releases. -/
def finish (st : Store) : Next → Out
  | .done => { state := st }
  | .settle id => st.run id Session.settled
  | .close id settling =>
    st.run id fun s =>
      let destroyed := s.providerDestroy
      if settling then (destroyed.1.settled.1, destroyed.2) else destroyed

/-- Release these leases, then go on. -/
def releaseAll (st : Store) (next : Next) : List LeaseId → Out
  | [] => st.finish next
  | l :: ls =>
    match st.leases[l]? with
    | some ⟨id, false⟩ =>
      { state := { st with leases := st.leases.set l ⟨id, true⟩ }
        control := .awaits ⟨l, ls, next⟩ }
    | _ => st.releaseAll next ls

/-- The outcome after these events. -/
def after (events : List Event) (o : Out) : Out := { o with events := events ++ o.events }

/-- `acquire`, once the session is there. -/
def attach (st : Store) (id : ℕ) (failure : Option String) : Out :=
  let lease := st.leases.length
  let leased : Store := { st with leases := st.leases ++ [{ session := id }] }
  let attached := leased.modify id fun s => s.attachLease lease failure
  { state := attached.1
    events := attached.2 ++
      (attached.1.sessions[id]?).toList.map fun s => .acquired lease id s.phase }

/-- `acquire` -/
def acquire (st : Store) (input : Descriptor) (failure : Option String) : Out :=
  if input.grant = "" ∨ input.name = "" then { state := st, control := .threw }
  else
    let descriptor := resolve input
    match st.live.lookup descriptor.key with
    | some id =>
      if ((st.sessions[id]?).map Session.state) = some .closed then
        { state := st, control := .threw }
      else st.attach id failure
    | none =>
      let created : Store := { st with
        sessions := st.sessions ++ [Session.new descriptor]
        live := st.live ++ [(descriptor.key, st.sessions.length)] }
      created.attach st.sessions.length failure

/-- `#close`: a session that closes leaves the store before its leases are released. -/
def close (st : Store) (id : ℕ) (settling : Bool) : Out :=
  match st.sessions[id]? with
  | none => { state := st }
  | some s =>
    match s.close with
    | none => st.finish (if settling then .settle id else .done)
    | some (s', notes) =>
      let removed : Store := { st with
        sessions := st.sessions.set id s'
        live := st.live.filter fun entry => entry.1 ≠ s.descriptor.key }
      after (notes.map (.session id)) (removed.releaseAll (.close id settling) s.leases)

/-- `#settle` -/
def settle (st : Store) (id : ℕ) : Out :=
  match st.sessions[id]? with
  | none => { state := st }
  | some s =>
    if s.settleQueued then
      let begun := st.modify id Session.settle
      after begun.2
        (match s.state with
        | .closed => begun.1.finish (.settle id)
        | .blocked => begun.1.releaseAll (.settle id) (s.retiring.getD [])
        | .open => if s.needed then begun.1.finish (.settle id) else begun.1.close id true)
    else { state := st }

end Store

def call (st : Store) : Call → Out
  | .acquire input failure => st.acquire input failure
  | .release lease => st.releaseAll .done [lease]
  | .retry id failure => st.run id fun s => s.retry failure
  | .discard id => st.close id false
  | .edit id => st.run id Session.edit
  | .cable id attempt event => st.run id fun s => s.cable attempt event
  | .providerError id error => st.run id fun s => s.providerError error
  | .refreshed id attempt result failure =>
    st.run id fun s => s.onRefreshed attempt result failure
  | .settle id => st.settle id

/-- The abort handlers of a lease have run. -/
def back (st : Store) (frame : Frame) (_ : Unit) : Option Out :=
  (st.leases[frame.lease]?).map fun lease =>
    let released := st.modify lease.session fun s => s.onRelease frame.lease
    Store.after released.2 (released.1.releaseAll frame.next frame.rest)

/-- The store with its sessions as a re-entrant machine. -/
def machine : Machine Store Call Frame Unit Event := ⟨call, back⟩

/-- `DocumentSessionStore.for(consumer)`, for a new consumer. -/
def init : Cfg := { state := {} }

end DocumentSession

end Yrby
