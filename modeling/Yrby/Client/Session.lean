import Yrby.Client.ReliableSync

/-!
# The client's session (`y_protocol_session.ts`)

`YProtocolSession` speaks the y-protocols framing for one document: it sends the handshake when
the transport comes up, answers and applies incoming frames, and reports `synced` once the server's
SyncStep2 has arrived.  The document, the awareness object, the delivery queue, `send` and `onError`
can all call back into the session before they return, so the class is a re-entrant machine, and
everything the session calls is an injected call that comes back with a `Ret`.  In particular the
delivery queue may do anything here; `ReliableSync` is its own model.

Each `resume` and `pause` begins a new cycle, a fresh number here and a fresh object in the source.
`readSyncMessage` of y-protocols applies the payload of a SyncStep2 or an Update, catches what that
throws, hands it to the error handler, and returns the sync type either way.

`synced_iff` says exactly on which schedules `synced` is true only after a SyncStep2 of the current
cycle was applied.
-/

namespace Yrby

open Wire Reentrant Transition

namespace Session

/-! ## Frames -/

/-- What `receive` reads from a frame. -/
inductive Incoming
  /-- A sync message: the sync type and its payload. -/
  | sync (type : ℕ) (payload : Bytes)
  | awareness (payload : Bytes)

section Frames

-- Whether a string is well-formed and `JSON.parse` accepts it.
variable (parsesJson : Bytes → Bool)

/-- One entry of an awareness payload: clientID, clock and state. -/
def readAwarenessEntry (bytes : Bytes) : Option (ℕ × Bytes) :=
  (readVarUint bytes).bind fun (client, bytes) =>
    (readVarUint bytes).bind fun (_, bytes) =>
      (readBuf bytes).bind fun (state, bytes) =>
        if parsesJson state then some (client, bytes) else none

/-- `validateAwareness`; `false` means that it throws. -/
def validateAwareness (payload : Bytes) : Bool :=
  match readList (readAwarenessEntry parsesJson) payload with
  | some (_, []) => true
  | _ => false

/-- `validateFrame`: `none` if it throws, `some false` for a type that is not used. -/
def validateFrame (frame : Bytes) : Option Bool :=
  (readVarUint frame).bind fun (type, bytes) =>
    if type = 0 then
      (readVarUint bytes).bind fun (_, bytes) =>
        (readBuf bytes).bind fun (_, bytes) => if bytes = [] then some true else none
    else if type = 1 then
      (readBuf bytes).bind fun (payload, bytes) =>
        if validateAwareness parsesJson payload ∧ bytes = [] then some true else none
    else some false

/-- The frame once it is validated. -/
def readFrame (frame : Bytes) : Option Incoming :=
  (readVarUint frame).bind fun (type, bytes) =>
    if type = 0 then
      (readVarUint bytes).bind fun (syncType, bytes) =>
        (readBuf bytes).map fun (payload, _) => .sync syncType payload
    else (readBuf bytes).map fun (payload, _) => .awareness payload

end Frames

/-! ## The object -/

/-- `ProtocolState` -/
inductive ProtocolState
  | unsynced (cycle : ℕ)
  | synced (cycle : ℕ)
  | destroyed
  deriving DecidableEq

/-- The awareness object: whether there is a local state, and the other clients it knows. -/
structure Awareness where
  hasLocalState : Bool
  remote : List ℕ

structure State where
  /-- `doc.clientID` -/
  clientID : ℕ := 0
  protocol : ProtocolState := .unsynced 0
  awareness : Option Awareness := none
  /-- How many cycles have begun. -/
  cycles : ℕ := 1
  /-- How many SyncStep2 messages have been received.  Not in the source. -/
  step2s : ℕ := 0

/-- `get synced` -/
def State.isSynced (s : State) : Bool :=
  match s.protocol with
  | .synced _ => true
  | _ => false

/-- `#current` -/
def State.current (s : State) (cycle : ℕ) : Bool :=
  match s.protocol with
  | .unsynced c | .synced c => decide (c = cycle)
  | .destroyed => false

/-- The public methods and the two event listeners.  `own` says that the origin of an event is the
session itself.  `awarenessIs` is the awareness object changing by itself. -/
inductive Call
  | resume
  | pause
  | destroy
  | applyRemoteUpdate (update : Bytes)
  | receive (frame : Bytes)
  | removeLocalAwareness
  | acknowledge (id : JsValue)
  | docUpdate (update : Bytes) (own : Bool)
  | awarenessUpdate (changed : List ℕ) (own : Bool)
  | awarenessIs (hasLocalState : Bool) (remote : List ℕ)

/-- What the session calls. -/
inductive External
  | sendSyncStep1
  | sendAwareness (clients : List ℕ)
  | deliveryResume
  | deliveryPause
  | deliveryDestroy
  | deliveryEnqueue (update : Bytes)
  | deliveryAcknowledge (id : JsValue)
  | setLocalStateNull
  | removeAwarenessStates (clients : List ℕ)
  | applyUpdate (update : Bytes)
  | applyAwarenessUpdate (payload : Bytes)
  | encodeStateAsUpdate (stateVector : Bytes)
  | onError

/-- The call that is in progress, with what its caller remembers. -/
inductive Frame
  /-- The method ends when the call does. -/
  | last
  /-- `resume` sends the SyncStep1, then its presence. -/
  | hello (cycle : ℕ)
  | presence (cycle : ℕ)
  /-- `pause` pauses the delivery. -/
  | pausing
  /-- `receive` answers a SyncStep1. -/
  | answering (cycle : ℕ)
  /-- `receive` applies an awareness payload. -/
  | applyingAwareness (cycle : ℕ)
  /-- `receive` applies the payload of an Update, or of the SyncStep2 with a number. -/
  | applying (step2 : Option ℕ) (cycle : ℕ)
  /-- The payload threw, and `onError` is told. -/
  | reporting (step2 : Option ℕ) (cycle : ℕ)

inductive Ret
  | unit
  | bytes (b : Bytes)
  | threw

inductive Event
  | call (x : External)
  /-- A `resume` or `pause` begins a new cycle. -/
  | newCycle
  /-- A SyncStep2 with a number is received, and its payload applied without an exception. -/
  | step2 (n : ℕ)
  | applied (n : ℕ)
  /-- `receive` returns a frame to send. -/
  | reply (bytes : Bytes)

abbrev Out := Outcome State Frame Event
abbrev Cfg := Config State Frame Event

/-! ## The methods -/

/-- Call something and wait for it in a frame. -/
def await (s : State) (x : External) (frame : Frame) : Out :=
  { state := s, events := [.call x], control := .awaits frame }

/-- `this.#state = { phase: "unsynced", cycle: {} }` -/
def beginCycle (s : State) : State :=
  { s with protocol := .unsynced s.cycles, cycles := s.cycles + 1 }

/-- The object after a first event, then the rest. -/
def emitting (e : Event) (o : Out) : Out := { o with events := e :: o.events }

def resume (s : State) : Out :=
  if s.protocol = .destroyed then { state := s }
  else emitting .newCycle (await (beginCycle s) .sendSyncStep1 (.hello s.cycles))

def pause (s : State) : Out :=
  if s.protocol = .destroyed then { state := s }
  else emitting .newCycle (await (beginCycle s) .deliveryPause .pausing)

def destroy (s : State) : Out :=
  if s.protocol = .destroyed then { state := s }
  else await { s with protocol := .destroyed } .deliveryDestroy .last

def applyRemoteUpdate (s : State) (update : Bytes) : Out :=
  if s.protocol = .destroyed then { state := s } else await s (.applyUpdate update) .last

def removeLocalAwareness (s : State) : Out :=
  if s.protocol ≠ .destroyed ∧ s.awareness.any Awareness.hasLocalState then
    await s .setLocalStateNull .last
  else { state := s }

/-- `#onDocUpdate` -/
def onDocUpdate (s : State) (update : Bytes) (own : Bool) : Out :=
  if own then { state := s } else await s (.deliveryEnqueue update) .last

/-- `#onAwarenessUpdate` -/
def onAwarenessUpdate (s : State) (changed : List ℕ) (own : Bool) : Out :=
  if own ∨ s.protocol = .destroyed then { state := s } else await s (.sendAwareness changed) .last

/-- The `catch` of `receive`. -/
def fail (s : State) (cycle : ℕ) : Out :=
  if s.current cycle then await s .onError .last else { state := s }

/-- The `cycle` of the current state, unless it is destroyed. -/
def State.cycle? (s : State) : Option ℕ :=
  match s.protocol with
  | .unsynced cycle | .synced cycle => some cycle
  | .destroyed => none

/-- `readSyncMessage`, up to its first call.  Sync types beyond 2 throw. -/
def readSyncMessage (s : State) (cycle type : ℕ) (payload : Bytes) : Out :=
  match type with
  | 0 => await s (.encodeStateAsUpdate payload) (.answering cycle)
  | 1 =>
      emitting (.step2 s.step2s)
        (await { s with step2s := s.step2s + 1 } (.applyUpdate payload)
          (.applying (some s.step2s) cycle))
  | 2 => await s (.applyUpdate payload) (.applying none cycle)
  | _ => fail s cycle

def receive (parsesJson : Bytes → Bool) (s : State) (frame : Bytes) : Out :=
  match s.cycle? with
  | none => { state := s }
  | some cycle =>
      match validateFrame parsesJson frame with
      | none => fail s cycle
      | some false => { state := s }
      | some true =>
          match readFrame frame with
          | none => fail s cycle
          | some (.sync type payload) => readSyncMessage s cycle type payload
          | some (.awareness payload) =>
              if s.awareness.isSome then
                await s (.applyAwarenessUpdate payload) (.applyingAwareness cycle)
              else { state := s }

def call (parsesJson : Bytes → Bool) (s : State) : Call → Out
  | .resume => resume s
  | .pause => pause s
  | .destroy => destroy s
  | .applyRemoteUpdate update => applyRemoteUpdate s update
  | .receive frame => receive parsesJson s frame
  | .removeLocalAwareness => removeLocalAwareness s
  | .acknowledge id => await s (.deliveryAcknowledge id) .last
  | .docUpdate update own => onDocUpdate s update own
  | .awarenessUpdate changed own => onAwarenessUpdate s changed own
  | .awarenessIs hasLocalState remote =>
      { state := { s with awareness := s.awareness.map fun _ => ⟨hasLocalState, remote⟩ } }

/-- `receive`, once `readSyncMessage` has returned. -/
def afterRead (s : State) (step2 : Option ℕ) (cycle : ℕ) : Out :=
  if step2.isSome ∧ s.current cycle then { state := { s with protocol := .synced cycle } }
  else { state := s }

/-- What follows a call. -/
def back (s : State) : Frame → Ret → Option Out
  | .last, .unit => some { state := s }
  | .last, .threw => some { state := s, control := .threw }
  | .hello cycle, .unit =>
      if ¬s.current cycle then some { state := s }
      else if s.awareness.any Awareness.hasLocalState then
        some (await s (.sendAwareness [s.clientID]) (.presence cycle))
      else some (await s .deliveryResume .last)
  | .hello _, .threw => some { state := s, control := .threw }
  | .presence cycle, .unit =>
      if s.current cycle then some (await s .deliveryResume .last) else some { state := s }
  | .presence _, .threw => some { state := s, control := .threw }
  | .pausing, .unit =>
      match s.awareness with
      | some ⟨_, client :: clients⟩ =>
          some (await s (.removeAwarenessStates (client :: clients)) .last)
      | _ => some { state := s }
  | .pausing, .threw => some { state := s, control := .threw }
  | .answering cycle, .bytes update =>
      let reply := writeVarUint 0 ++ writeVarUint 1 ++ writeBuf update
      some { state := s, events := if s.current cycle then [.reply reply] else [] }
  | .answering cycle, .threw => some (fail s cycle)
  | .applyingAwareness _, .unit => some { state := s }
  | .applyingAwareness cycle, .threw => some (fail s cycle)
  | .applying step2 cycle, .unit =>
      match step2 with
      | some n => some (emitting (.applied n) (afterRead s step2 cycle))
      | none => some (afterRead s step2 cycle)
  | .applying step2 cycle, .threw =>
      if s.current cycle then some (await s .onError (.reporting step2 cycle))
      else some (afterRead s step2 cycle)
  | .reporting step2 cycle, .unit => some (afterRead s step2 cycle)
  | .reporting _ cycle, .threw => some (fail s cycle)
  | _, _ => none

/-- The class as a re-entrant machine. -/
def machine (parsesJson : Bytes → Bool) : Machine State Call Frame Ret Event :=
  ⟨call parsesJson, back⟩

/-- `new YProtocolSession(doc, opts)` -/
def init (awareness : Option Awareness) : Cfg := { state := { awareness } }

/-! ## What `synced` promises -/

/-- A SyncStep2 with number `n` was received in the current cycle. -/
def ReceivedInCycle (trace : List Event) (n : ℕ) : Prop :=
  ∃ pre post, trace = pre ++ .step2 n :: post ∧ .newCycle ∉ post

/-- A SyncStep2 that was received since the latest `resume` or `pause` was applied. -/
def AppliedInCycle (trace : List Event) : Prop :=
  ∃ pre post n, trace = pre ++ .step2 n :: post ∧ .newCycle ∉ post ∧ .applied n ∈ post

lemma ReceivedInCycle.append {trace es : List Event} {n : ℕ} (h : ReceivedInCycle trace n)
    (hes : .newCycle ∉ es) : ReceivedInCycle (trace ++ es) n := by
  obtain ⟨pre, post, rfl, hpost⟩ := h
  exact ⟨pre, post ++ es, by simp, by simp [hpost, hes]⟩

lemma AppliedInCycle.append {trace es : List Event} (h : AppliedInCycle trace)
    (hes : .newCycle ∉ es) : AppliedInCycle (trace ++ es) := by
  obtain ⟨pre, post, n, rfl, hpost, happlied⟩ := h
  exact ⟨pre, post ++ es, n, by simp, by simp [hpost, hes], by simp [happlied]⟩

lemma ReceivedInCycle.applied {trace : List Event} {n : ℕ} (h : ReceivedInCycle trace n) :
    AppliedInCycle (trace ++ [.applied n]) := by
  obtain ⟨pre, post, rfl, hpost⟩ := h
  exact ⟨pre, post ++ [.applied n], n, by simp, by simp [hpost], by simp⟩

/-- What holds between calls. -/
structure SyncInv (s : State) (trace : List Event) : Prop where
  /-- Cycles are fresh. -/
  cycle_lt : ∀ cycle, s.current cycle → cycle < s.cycles
  synced : s.isSynced → AppliedInCycle trace

/-- A SyncStep2 that is being applied was received in the cycle its frame remembers. -/
def FrameInv (s : State) (trace : List Event) : Frame → Prop
  | .applying (some n) cycle => cycle < s.cycles ∧ (s.current cycle → ReceivedInCycle trace n)
  | _ => True

abbrev SyncKeeps := Keeps SyncInv FrameInv

lemma syncInv_init (awareness : Option Awareness) : SyncInv (init awareness).state [] := by
  refine ⟨fun cycle h => ?_, by simp [init, State.isSynced]⟩
  obtain rfl : 0 = cycle := by simpa [init, State.current] using h
  exact Nat.zero_lt_one

/-- From `s` to `s'` no cycle begins. -/
structure SameCycle (s s' : State) (es : List Event) : Prop where
  cycles : s'.cycles = s.cycles
  current : ∀ cycle, s'.current cycle → s.current cycle
  events : .newCycle ∉ es

lemma SameCycle.refl {s : State} {es : List Event} (h : .newCycle ∉ es) : SameCycle s s es :=
  ⟨rfl, fun _ h => h, h⟩

lemma FrameInv.sameCycle {s s' : State} {trace es : List Event} {f : Frame}
    (h : FrameInv s trace f) (hs : SameCycle s s' es) : FrameInv s' (trace ++ es) f := by
  cases f with
  | applying step2 cycle =>
      cases step2 with
      | none => trivial
      | some n =>
          obtain ⟨hlt, hreceived⟩ := h
          exact ⟨hs.cycles ▸ hlt, fun hc => (hreceived (hs.current _ hc)).append hs.events⟩
  | _ => trivial

/-- Code that begins no cycle, and sets `synced` only after a SyncStep2 was applied. -/
lemma keeps_sameCycle {s : State} {trace : List Event} {o : Out} (h : SyncInv s trace)
    (hs : SameCycle s o.state o.events)
    (hsynced : o.state.isSynced → s.isSynced ∨ AppliedInCycle (trace ++ o.events))
    (hf : ∀ f, o.control = .awaits f → FrameInv o.state (trace ++ o.events) f) :
    SyncKeeps s trace o := by
  refine ⟨⟨fun cycle hc => ?_, fun hsync => ?_⟩, fun f hf => hf.sameCycle hs, hf⟩
  · exact hs.cycles ▸ h.cycle_lt cycle (hs.current cycle hc)
  · rcases hsynced hsync with hsync | happlied
    · exact (h.synced hsync).append hs.events
    · exact happlied

section Keeps

variable {s : State} {trace : List Event} (h : SyncInv s trace)
include h

lemma keeps_end : SyncKeeps s trace { state := s } :=
  keeps_sameCycle h (.refl (by simp)) .inl (by simp)

lemma keeps_await (x : External) {frame : Frame}
    (hf : FrameInv s (trace ++ [.call x]) frame) : SyncKeeps s trace (await s x frame) := by
  refine keeps_sameCycle h (.refl (by simp [await])) .inl fun f hf' => ?_
  obtain rfl : frame = f := by simpa [await] using hf'
  exact hf

lemma keeps_fail (cycle : ℕ) : SyncKeeps s trace (fail s cycle) := by
  unfold fail
  split
  · exact keeps_await h _ trivial
  · exact keeps_end h

omit h in
/-- A new cycle is not synced, and makes every waiting frame stale. -/
lemma keeps_beginCycle (x : External) {frame : Frame} (hf : ∀ s trace, FrameInv s trace frame) :
    SyncKeeps s trace (emitting .newCycle (await (beginCycle s) x frame)) := by
  refine ⟨⟨fun cycle hc => ?_, fun hc => ?_⟩, fun f hf' => ?_, fun f hf' => ?_⟩
  · obtain rfl : s.cycles = cycle := by
      simpa [emitting, await, beginCycle, State.current] using hc
    exact Nat.lt_succ_self _
  · simp [emitting, await, beginCycle, State.isSynced] at hc
  · cases f with
    | applying step2 cycle =>
        cases step2 with
        | none => trivial
        | some n =>
            obtain ⟨hlt, -⟩ := hf'
            refine ⟨hlt.trans (Nat.lt_succ_self _), fun hc => ?_⟩
            obtain rfl : s.cycles = cycle := by
              simpa [emitting, await, beginCycle, State.current] using hc
            exact absurd hlt (lt_irrefl _)
    | _ => trivial
  · obtain rfl : frame = f := by simpa [emitting, await] using hf'
    exact hf _ _

lemma keeps_destroy : SyncKeeps s trace (destroy s) := by
  unfold destroy
  split
  · exact keeps_end h
  · refine keeps_sameCycle h ⟨rfl, fun cycle hc => ?_, by simp [await]⟩ (fun hc => ?_)
      fun f hf => ?_
    · simp [await, State.current] at hc
    · simp [await, State.isSynced] at hc
    · obtain rfl : Frame.last = f := by simpa [await] using hf
      trivial

/-- A SyncStep2 is received in the current cycle. -/
lemma keeps_readSyncMessage {cycle : ℕ} (hc : s.cycle? = some cycle) (type : ℕ) (payload : Bytes) :
    SyncKeeps s trace (readSyncMessage s cycle type payload) := by
  have hcurrent : s.current cycle := by
    unfold State.cycle? at hc
    unfold State.current
    split at hc <;> simp_all
  unfold readSyncMessage
  split
  · exact keeps_await h _ trivial
  · refine keeps_sameCycle h ⟨rfl, fun _ hc => hc, by simp [emitting, await]⟩ .inl fun f hf => ?_
    obtain rfl : Frame.applying (some s.step2s) cycle = f := by simpa [emitting, await] using hf
    have hreceived : ReceivedInCycle (trace ++ [.step2 s.step2s, .call (.applyUpdate payload)])
        s.step2s := ⟨trace, [.call (.applyUpdate payload)], rfl, by simp⟩
    exact ⟨h.cycle_lt cycle hcurrent, fun _ => hreceived⟩
  · exact keeps_await h _ trivial
  · exact keeps_fail h cycle

lemma keeps_receive (parsesJson : Bytes → Bool) (frame : Bytes) :
    SyncKeeps s trace (receive parsesJson s frame) := by
  unfold receive
  split
  · exact keeps_end h
  · rename_i cycle hcycle
    split
    · exact keeps_fail h cycle
    · exact keeps_end h
    · split
      · exact keeps_fail h cycle
      · exact keeps_readSyncMessage h hcycle _ _
      · split
        · exact keeps_await h _ trivial
        · exact keeps_end h

/-- Every public method keeps the invariant. -/
lemma keeps_call (parsesJson : Bytes → Bool) (c : Call) :
    SyncKeeps s trace (call parsesJson s c) := by
  cases c with
  | resume =>
      simp only [call, resume]
      split
      · exact keeps_end h
      · exact keeps_beginCycle _ fun _ _ => trivial
  | pause =>
      simp only [call, pause]
      split
      · exact keeps_end h
      · exact keeps_beginCycle _ fun _ _ => trivial
  | destroy => exact keeps_destroy h
  | applyRemoteUpdate update =>
      simp only [call, applyRemoteUpdate]
      split
      · exact keeps_end h
      · exact keeps_await h _ trivial
  | receive frame => exact keeps_receive h parsesJson frame
  | removeLocalAwareness =>
      simp only [call, removeLocalAwareness]
      split
      · exact keeps_await h _ trivial
      · exact keeps_end h
  | acknowledge id => exact keeps_await h _ trivial
  | docUpdate update own =>
      simp only [call, onDocUpdate]
      split
      · exact keeps_end h
      · exact keeps_await h _ trivial
  | awarenessUpdate changed own =>
      simp only [call, onAwarenessUpdate]
      split
      · exact keeps_end h
      · exact keeps_await h _ trivial
  | awarenessIs hasLocalState remote =>
      exact keeps_sameCycle h ⟨rfl, fun _ hc => hc, by simp [call]⟩ .inl (by simp [call])

/-- `readSyncMessage` returns: `synced` is set for a SyncStep2 of the current cycle. -/
lemma keeps_afterRead {step2 : Option ℕ} {cycle : ℕ}
    (happlied : step2.isSome → s.current cycle → AppliedInCycle trace) :
    SyncKeeps s trace (afterRead s step2 cycle) := by
  unfold afterRead
  split
  · rename_i hs
    refine keeps_sameCycle h ⟨rfl, fun k hk => ?_, by simp⟩ (fun _ => .inr ?_) (by simp)
    · obtain rfl : cycle = k := by simpa [State.current] using hk
      exact hs.2
    · simpa using happlied hs.1 hs.2
  · exact keeps_end h

/-- So does everything that follows a call, except that a failed SyncStep2 may set `synced`. -/
lemma keeps_back {f : Frame} {r : Ret} {o : Out} (hf : FrameInv s trace f)
    (hok : ∀ n cycle, f = .reporting (some n) cycle → r = .unit → s.current cycle →
      AppliedInCycle trace) (ho : back s f r = some o) : SyncKeeps s trace o := by
  have hend : ∀ control, (∀ f, control ≠ .awaits f) →
      SyncKeeps s trace { state := s, control := control } := by
    intro control hcontrol
    exact keeps_sameCycle h (.refl (by simp)) .inl fun f hf => absurd hf (hcontrol f)
  cases f with
  | last =>
      cases r <;> simp only [back, Option.some.injEq, reduceCtorEq] at ho <;> subst ho <;>
        exact hend _ (by simp)
  | hello cycle =>
      cases r with
      | unit =>
          simp only [back] at ho
          split at ho
          · obtain rfl := Option.some.inj ho
            exact keeps_end h
          · split at ho <;> obtain rfl := Option.some.inj ho <;> exact keeps_await h _ trivial
      | threw =>
          obtain rfl := Option.some.inj ho
          exact hend _ (by simp)
      | bytes => simp [back] at ho
  | presence cycle =>
      cases r with
      | unit =>
          simp only [back] at ho
          split at ho <;> obtain rfl := Option.some.inj ho
          · exact keeps_await h _ trivial
          · exact keeps_end h
      | threw =>
          obtain rfl := Option.some.inj ho
          exact hend _ (by simp)
      | bytes => simp [back] at ho
  | pausing =>
      cases r with
      | unit =>
          simp only [back] at ho
          split at ho <;> obtain rfl := Option.some.inj ho
          · exact keeps_await h _ trivial
          · exact keeps_end h
      | threw =>
          obtain rfl := Option.some.inj ho
          exact hend _ (by simp)
      | bytes => simp [back] at ho
  | answering cycle =>
      cases r with
      | bytes update =>
          obtain rfl := Option.some.inj ho
          refine keeps_sameCycle h (.refl ?_) .inl (by simp)
          split <;> simp
      | threw =>
          obtain rfl := Option.some.inj ho
          exact keeps_fail h cycle
      | unit => simp [back] at ho
  | applyingAwareness cycle =>
      cases r with
      | unit =>
          obtain rfl := Option.some.inj ho
          exact keeps_end h
      | threw =>
          obtain rfl := Option.some.inj ho
          exact keeps_fail h cycle
      | bytes => simp [back] at ho
  | applying step2 cycle =>
      cases r with
      | unit =>
          cases step2 with
          | none =>
              obtain rfl := Option.some.inj ho
              exact keeps_afterRead h (by simp)
          | some n =>
              obtain rfl := Option.some.inj ho
              have hquiet : SameCycle s s [.applied n] := .refl (by simp)
              have happlied : SyncInv s (trace ++ [.applied n]) :=
                ⟨h.cycle_lt, fun hs => (h.synced hs).append (by simp)⟩
              refine (keeps_afterRead happlied fun _ hc => ?_).emit fun f hf => hf.sameCycle hquiet
              exact (hf.2 hc).applied
      | threw =>
          simp only [back] at ho
          split at ho <;> obtain rfl := Option.some.inj ho
          · exact keeps_await h _ trivial
          · rename_i hc
            exact keeps_afterRead h fun _ hc' => absurd hc' hc
      | bytes => simp [back] at ho
  | reporting step2 cycle =>
      cases r with
      | unit =>
          obtain rfl := Option.some.inj ho
          refine keeps_afterRead h fun hs hc => ?_
          obtain ⟨n, rfl⟩ := Option.isSome_iff_exists.1 hs
          exact hok n cycle rfl rfl hc
      | threw =>
          obtain rfl := Option.some.inj ho
          exact keeps_fail h cycle
      | bytes => simp [back] at ho

end Keeps

/-! ## When `synced` is true -/

/-- After the move, `synced` is true only if a SyncStep2 received since the latest `resume` or
`pause` was applied. -/
def SyncedIsTrue (parsesJson : Bytes → Bool) (c : Cfg) (m : Move Call Ret) : Prop :=
  ∀ c', (machine parsesJson).step c m = some c' → c'.state.isSynced → AppliedInCycle c'.trace

/-- `onError` does not return from a report about a SyncStep2 while its cycle is current, unless
another SyncStep2 of the cycle was applied. -/
def NoSwallowedFailure (c : Cfg) (m : Move Call Ret) : Prop :=
  ∀ n cycle rest, c.stack = .reporting (some n) cycle :: rest → m = .back .unit →
    c.state.current cycle → AppliedInCycle c.trace

abbrev CfgInv (c : Cfg) : Prop := c.Inv SyncInv FrameInv

lemma cfgInv_init (awareness : Option Awareness) : CfgInv (init awareness) :=
  ⟨syncInv_init awareness, by simp [init]⟩

lemma cfgInv_step {parsesJson : Bytes → Bool} {c c' : Cfg} {m : Move Call Ret} (h : CfgInv c)
    (hok : NoSwallowedFailure c m) (hm : (machine parsesJson).step c m = some c') : CfgInv c' := by
  refine h.step (fun x _ => keeps_call h.state parsesJson x) (fun f rest r o hst hr hf ho => ?_) hm
  refine keeps_back h.state hf (fun n cycle hframe hunit hc => ?_) ho
  exact hok n cycle rest (hframe ▸ hst) (hunit ▸ hr) hc

/-- One move, from a configuration whose history was right. -/
lemma syncedIsTrue_iff {parsesJson : Bytes → Bool} {c : Cfg} (h : CfgInv c) (m : Move Call Ret) :
    SyncedIsTrue parsesJson c m ↔ NoSwallowedFailure c m := by
  constructor
  · rintro htrue n cycle rest hst rfl hc
    -- the report returns, and `synced` is set
    have hback : (machine parsesJson).step c (.back .unit) =
        some (c.resume rest (afterRead c.state (some n) cycle)) := by
      simp [Machine.step, hst, machine, back]
    have hsynced : (afterRead c.state (some n) cycle).state.isSynced := by
      simp [afterRead, hc, State.isSynced]
    have := htrue _ hback hsynced
    simpa [Config.resume, afterRead, hc] using this
  · intro hok c' hc' hsynced
    exact (cfgInv_step h hok hc').state.synced hsynced

/-- **When `synced` is true.**  On every schedule of public calls and re-entrant callbacks, `synced`
is true only after a SyncStep2 of the current cycle was applied, if and only if no `onError` returns
from a report about a SyncStep2 of the current cycle before one was applied. -/
theorem synced_iff (parsesJson : Bytes → Bool) (awareness : Option Awareness)
    (moves : List (Move Call Ret)) :
    Along (machine parsesJson).step (SyncedIsTrue parsesJson) (init awareness) moves ↔
      Along (machine parsesJson).step NoSwallowedFailure (init awareness) moves := by
  exact along_iff (I := CfgInv) (fun c m hc => syncedIsTrue_iff hc m)
    (fun c m c' hc hok hm => cfgInv_step hc hok hm) (cfgInv_init awareness)

lemma AppliedInCycle.exists_applied {trace : List Event} (h : AppliedInCycle trace) :
    ∃ n, .applied n ∈ trace := by
  obtain ⟨pre, post, n, rfl, -, happlied⟩ := h
  exact ⟨n, by simp [happlied]⟩

/-- A SyncStep2 with a payload of one byte, which is no update: the payload throws, `onError` is
told and returns, and the session is synced. -/
theorem corrupt_step2_syncs :
    ¬Along (machine fun _ => true).step (SyncedIsTrue fun _ => true) (init none)
      [.call .resume, .back .unit, .back .unit, .call (.receive [0, 1, 1, 1]), .back .threw,
        .back .unit] := by
  rintro ⟨-, h₁⟩
  obtain ⟨-, h₂⟩ := h₁ _ rfl
  obtain ⟨-, h₃⟩ := h₂ _ rfl
  obtain ⟨-, h₄⟩ := h₃ _ rfl
  obtain ⟨-, h₅⟩ := h₄ _ rfl
  obtain ⟨htrue, -⟩ := h₅ _ rfl
  obtain ⟨n, hn⟩ := (htrue _ rfl rfl).exists_applied
  have htrace : Event.applied n ∈ [.newCycle, .call .sendSyncStep1, .call .deliveryResume, .step2 0,
      .call (.applyUpdate [1]), .call .onError] := hn
  simp at htrace

end Session

end Yrby
