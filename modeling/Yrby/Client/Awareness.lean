import Yrby.Client.Session

/-!
# Frames and presence on the client

Two promises of `y_protocol_session.ts` about what it accepts and what it tells others.

`receive` checks the structure of a whole frame before it applies anything.  `IsMessage` says what
a complete message is, as a format of bytes and not as a parser; `validateFrame_iff` says that the
check accepts exactly these.  y-protocols' `applyAwarenessUpdate` reads the payload a second time:
it processes entry by entry, throws at the first one that it cannot read, and tells listeners at
the end.  How an entry changes the awareness states is a parameter.  `receive_all_or_nothing` is
what both parsers together promise.

The listener for awareness events sends the clients an event names, unless the event's origin is
the session.  `sends_own_presence_iff` says on which runs it names only the session's own client.
-/

namespace Yrby

open Wire Reentrant Transition

namespace Session

/-! ## The format of a message -/

section Formats

-- Whether a string is well-formed and `JSON.parse` accepts it.
variable (parsesJson : Bytes → Bool)

/-- One entry of an awareness update: the client, its clock and its state as JSON. -/
structure AwarenessEntry where
  client : ℕ
  clock : ℕ
  state : Bytes

/-- The bytes of an entry: two numbers and a string that holds JSON. -/
def EntryFormat (e : AwarenessEntry) (w : Bytes) : Prop :=
  ∃ client clock state, Encodes e.client client ∧ Encodes e.clock clock ∧ Buffer e.state state ∧
    parsesJson e.state ∧ w = client ++ clock ++ state

/-- The bytes of an awareness update: the entries under their number, and nothing after them. -/
abbrev AwarenessFormat (entries : List AwarenessEntry) (payload : Bytes) : Prop :=
  Elements (EntryFormat parsesJson) entries payload

/-- Exactly one complete message: a sync tag, a subtype and one payload, or an awareness tag and
one awareness update. -/
inductive IsMessage : Bytes → Prop
  | sync {tag subtype payload b : Bytes} {type : ℕ} (htag : Encodes 0 tag)
      (htype : Encodes type subtype) (hpayload : Buffer b payload) :
      IsMessage (tag ++ subtype ++ payload)
  | awareness {tag payload b : Bytes} {entries : List AwarenessEntry} (htag : Encodes 1 tag)
      (hpayload : Buffer b payload) (hentries : AwarenessFormat parsesJson entries b) :
      IsMessage (tag ++ payload)

/-- What `applyAwarenessUpdate` reads of one entry. -/
def readEntry (bytes : Bytes) : Option (AwarenessEntry × Bytes) :=
  (readVarUint bytes).bind fun (client, bytes) =>
    (readVarUint bytes).bind fun (clock, bytes) =>
      (readBuf bytes).bind fun (state, bytes) =>
        if parsesJson state then some (⟨client, clock, state⟩, bytes) else none

/-- The check reads what the apply reads. -/
lemma readAwarenessEntry_eq :
    readAwarenessEntry parsesJson =
      fun bytes => (readEntry parsesJson bytes).map fun p => (p.1.client, p.2) := by
  funext bytes
  unfold readAwarenessEntry readEntry
  cases readVarUint bytes with
  | none => rfl
  | some client =>
      simp only [Option.bind_some]
      cases readVarUint client.2 with
      | none => rfl
      | some clock =>
          simp only [Option.bind_some]
          cases readBuf clock.2 with
          | none => rfl
          | some state =>
              simp only [Option.bind_some]
              split <;> rfl

lemma reads_readEntry : Reads (readEntry parsesJson) (EntryFormat parsesJson) := by
  intro bs e rest
  simp only [readEntry, Option.bind_eq_some_iff, Prod.exists]
  constructor
  · rintro ⟨n, bs₁, hn, m, bs₂, hm, state, bs₃, hstate, h⟩
    split at h
    · rename_i hjson
      obtain ⟨rfl, rfl⟩ := Prod.mk.inj (Option.some.inj h)
      obtain ⟨client, hclient, rfl⟩ := (reads_readVarUint _ _ _).1 hn
      obtain ⟨clock, hclock, rfl⟩ := (reads_readVarUint _ _ _).1 hm
      obtain ⟨w, hw, rfl⟩ := (reads_readBuf _ _ _).1 hstate
      exact ⟨_, ⟨client, clock, w, hclient, hclock, hw, hjson, rfl⟩, by simp⟩
    · simp at h
  · rintro ⟨w, ⟨client, clock, state, hclient, hclock, hstate, hjson, rfl⟩, rfl⟩
    refine ⟨e.client, clock ++ state ++ rest, (reads_readVarUint _ _ _).2 ⟨_, hclient, by simp⟩,
      e.clock, state ++ rest, (reads_readVarUint _ _ _).2 ⟨_, hclock, by simp⟩,
      e.state, rest, (reads_readBuf _ _ _).2 ⟨_, hstate, rfl⟩, ?_⟩
    simp [hjson]

lemma validateAwareness_iff {payload : Bytes} :
    validateAwareness parsesJson payload ↔
      ∃ entries, AwarenessFormat parsesJson entries payload := by
  have hread : readList (readAwarenessEntry parsesJson) payload =
      (readList (readEntry parsesJson) payload).map
        fun q => (q.1.map AwarenessEntry.client, q.2) := by
    rw [readAwarenessEntry_eq]
    unfold readList
    cases readVarUint payload with
    | none => rfl
    | some p => exact readMany_map _ AwarenessEntry.client _ _
  have hreads := reads_readList (reads_readEntry parsesJson)
  unfold validateAwareness
  rw [hread]
  constructor
  · intro h
    cases hlist : readList (readEntry parsesJson) payload with
    | none => simp [hlist] at h
    | some q =>
        obtain ⟨entries, rest⟩ := q
        cases rest with
        | cons b rest => simp [hlist] at h
        | nil =>
            obtain ⟨w, hw, rfl⟩ := (hreads _ _ _).1 hlist
            exact ⟨entries, by simpa using hw⟩
  · rintro ⟨entries, h⟩
    have hlist : readList (readEntry parsesJson) payload = some (entries, []) :=
      (hreads _ _ _).2 ⟨payload, h, by simp⟩
    simp [hlist]

/-- **The check accepts exactly the complete messages.** -/
theorem validateFrame_iff {frame : Bytes} :
    validateFrame parsesJson frame = some true ↔ IsMessage parsesJson frame := by
  constructor
  · intro h
    simp only [validateFrame, Option.bind_eq_some_iff, Prod.exists] at h
    obtain ⟨type, bytes, htype, h⟩ := h
    obtain ⟨tag, htag, rfl⟩ := (reads_readVarUint _ _ _).1 htype
    split at h
    · rename_i htype₀
      subst htype₀
      simp only [Option.bind_eq_some_iff, Prod.exists] at h
      obtain ⟨n, bytes, hn, b, rest, hb, h⟩ := h
      obtain ⟨subtype, hsub, rfl⟩ := (reads_readVarUint _ _ _).1 hn
      obtain ⟨payload, hpayload, rfl⟩ := (reads_readBuf _ _ _).1 hb
      obtain rfl : rest = [] := by
        by_contra hne
        simp [hne] at h
      simpa using IsMessage.sync htag hsub hpayload
    · split at h
      · rename_i htype₁
        subst htype₁
        simp only [Option.bind_eq_some_iff, Prod.exists] at h
        obtain ⟨b, rest, hb, h⟩ := h
        obtain ⟨payload, hpayload, rfl⟩ := (reads_readBuf _ _ _).1 hb
        split at h
        · rename_i hvalid
          obtain ⟨hvalid, rfl⟩ := hvalid
          obtain ⟨entries, hentries⟩ := (validateAwareness_iff parsesJson).1 hvalid
          simpa using IsMessage.awareness htag hpayload hentries
        · simp at h
      · simp at h
  · intro h
    cases h with
    | @sync tag subtype payload b type htag htype hpayload =>
        have h₀ : readVarUint (tag ++ (subtype ++ payload)) = some (0, subtype ++ payload) :=
          (reads_readVarUint _ _ _).2 ⟨tag, htag, rfl⟩
        have h₁ : readVarUint (subtype ++ payload) = some (type, payload) :=
          (reads_readVarUint _ _ _).2 ⟨subtype, htype, rfl⟩
        have h₂ : readBuf payload = some (b, []) :=
          (reads_readBuf _ _ _).2 ⟨payload, hpayload, by simp⟩
        simp [validateFrame, h₀, h₁, h₂]
    | @awareness tag payload b entries htag hpayload hentries =>
        have h₀ : readVarUint (tag ++ payload) = some (1, payload) :=
          (reads_readVarUint _ _ _).2 ⟨tag, htag, rfl⟩
        have h₁ : readBuf payload = some (b, []) :=
          (reads_readBuf _ _ _).2 ⟨payload, hpayload, by simp⟩
        have hvalid := (validateAwareness_iff parsesJson).2 ⟨entries, hentries⟩
        simp [validateFrame, h₀, h₁, hvalid]

/-! ## Applying an awareness update -/

/-- What `applyAwarenessUpdate` does, in order. -/
inductive AwarenessStep
  | processed (e : AwarenessEntry)
  /-- The listeners are told what changed. -/
  | notified

/-- What `applyAwarenessUpdate` leaves: the states, what it did, and whether it threw. -/
structure AwarenessRun (σ : Type) where
  states : σ
  steps : List AwarenessStep
  threw : Bool

section Apply

-- What processing an entry does to the awareness states.
variable {σ : Type} (process : σ → AwarenessEntry → σ)

/-- The loop of `applyAwarenessUpdate`: process entry by entry, throw at an unreadable one. -/
def applyEntries : ℕ → σ → Bytes → AwarenessRun σ
  | 0, states, _ => ⟨states, [.notified], false⟩
  | n + 1, states, bytes =>
      match readEntry parsesJson bytes with
      | none => ⟨states, [], true⟩
      | some (e, rest) =>
          let r := applyEntries n (process states e) rest
          { r with steps := .processed e :: r.steps }

/-- `applyAwarenessUpdate` of y-protocols. -/
def applyAwarenessUpdate (states : σ) (payload : Bytes) : AwarenessRun σ :=
  match readVarUint payload with
  | none => ⟨states, [], true⟩
  | some (count, bytes) => applyEntries parsesJson process count states bytes

lemma applyEntries_of_format {entries : List AwarenessEntry} {ws : List Bytes}
    (h : List.Forall₂ (EntryFormat parsesJson) entries ws) (states : σ) (rest : Bytes) :
    applyEntries parsesJson process entries.length states (ws.flatten ++ rest) =
      ⟨entries.foldl process states, entries.map .processed ++ [.notified], false⟩ := by
  induction h generalizing states with
  | nil => rfl
  | @cons e w entries ws he hrest ih =>
      have hread : readEntry parsesJson (w ++ (ws.flatten ++ rest)) =
          some (e, ws.flatten ++ rest) := (reads_readEntry parsesJson _ _ _).2 ⟨w, he, rfl⟩
      simp [applyEntries, hread, ih]

/-- A well-formed update is applied in full: every entry in order, and then the listeners. -/
lemma applyAwarenessUpdate_of_format {entries : List AwarenessEntry} {payload : Bytes}
    (h : AwarenessFormat parsesJson entries payload) (states : σ) :
    applyAwarenessUpdate parsesJson process states payload =
      ⟨entries.foldl process states, entries.map .processed ++ [.notified], false⟩ := by
  obtain ⟨e, ws, he, hws, rfl⟩ := h
  have hread : readVarUint (e ++ ws.flatten) = some (entries.length, ws.flatten) :=
    (reads_readVarUint _ _ _).2 ⟨e, he, rfl⟩
  have happly := applyEntries_of_format parsesJson process hws states []
  simp only [List.append_nil] at happly
  simp [applyAwarenessUpdate, hread, happly]

end Apply

/-! ## What `receive` does with a frame -/

/-- All that a stretch of code does is to tell `onError`, and when that is back the method returns
with nothing to send. -/
structure ReportsOnly (s : State) (o : Out) : Prop where
  state : o.state = s
  events : ∀ e ∈ o.events, e = .call .onError
  control : o.control = .returned ∨ ∃ f, o.control = .awaits f ∧
    ∀ s', back s' f .unit = some { state := s' }

lemma reportsOnly_end (s : State) : ReportsOnly s { state := s } :=
  ⟨rfl, by simp, .inl rfl⟩

lemma reportsOnly_fail (s : State) (cycle : ℕ) : ReportsOnly s (fail s cycle) := by
  unfold fail
  split
  · exact ⟨rfl, by simp [await], .inr ⟨.last, rfl, fun _ => rfl⟩⟩
  · exact reportsOnly_end s

/-- A frame that is not one complete message. -/
lemma reportsOnly_receive {frame : Bytes} (h : ¬IsMessage parsesJson frame) (s : State) :
    ReportsOnly s (receive parsesJson s frame) := by
  unfold receive
  split
  · exact reportsOnly_end s
  · rename_i cycle _
    split
    · exact reportsOnly_fail s cycle
    · exact reportsOnly_end s
    · rename_i hvalid
      exact absurd ((validateFrame_iff parsesJson).1 hvalid) h

/-- What the awareness branch of `receive` hands on is the payload that was checked. -/
lemma format_of_readFrame {frame payload : Bytes}
    (hvalid : validateFrame parsesJson frame = some true)
    (hread : readFrame frame = some (.awareness payload)) :
    ∃ entries, AwarenessFormat parsesJson entries payload := by
  cases (validateFrame_iff parsesJson).1 hvalid with
  | @sync tag subtype w b type htag htype hpayload =>
      have h₀ : readVarUint (tag ++ (subtype ++ w)) = some (0, subtype ++ w) :=
        (reads_readVarUint _ _ _).2 ⟨tag, htag, rfl⟩
      have h₁ : readVarUint (subtype ++ w) = some (type, w) :=
        (reads_readVarUint _ _ _).2 ⟨subtype, htype, rfl⟩
      have h₂ : readBuf w = some (b, []) := (reads_readBuf _ _ _).2 ⟨w, hpayload, by simp⟩
      simp [readFrame, h₀, h₁, h₂] at hread
  | @awareness tag w b entries htag hpayload hentries =>
      have h₀ : readVarUint (tag ++ w) = some (1, w) :=
        (reads_readVarUint _ _ _).2 ⟨tag, htag, rfl⟩
      have h₁ : readBuf w = some (b, []) := (reads_readBuf _ _ _).2 ⟨w, hpayload, by simp⟩
      obtain rfl : b = payload := by simpa [readFrame, h₀, h₁] using hread
      exact ⟨entries, hentries⟩

/-- **Receiving is all or nothing.**  A frame that is not exactly one complete message changes
nothing and is answered by nothing; at most `onError` is told.  An awareness frame that passes the
check is handed to `applyAwarenessUpdate`, which processes every entry, then tells the listeners,
and does not throw. -/
theorem receive_all_or_nothing {σ : Type} (process : σ → AwarenessEntry → σ) (s : State)
    (frame : Bytes) :
    (¬IsMessage parsesJson frame → ReportsOnly s (receive parsesJson s frame)) ∧
    ∀ payload, validateFrame parsesJson frame = some true →
      readFrame frame = some (.awareness payload) →
      (∀ cycle, s.cycle? = some cycle → s.awareness.isSome →
        receive parsesJson s frame =
          await s (.applyAwarenessUpdate payload) (.applyingAwareness cycle)) ∧
      ∃ entries, AwarenessFormat parsesJson entries payload ∧
        ∀ states, applyAwarenessUpdate parsesJson process states payload =
          ⟨entries.foldl process states, entries.map .processed ++ [.notified], false⟩ := by
  refine ⟨fun h => reportsOnly_receive parsesJson h s, fun payload hvalid hread => ⟨?_, ?_⟩⟩
  · intro cycle hcycle haware
    simp [receive, hcycle, hvalid, hread, haware]
  · obtain ⟨entries, hentries⟩ := format_of_readFrame parsesJson hvalid hread
    exact ⟨entries, hentries, applyAwarenessUpdate_of_format parsesJson process hentries⟩

end Formats

/-- One entry, for client 7 at clock 1, with a state that is an empty object. -/
def presenceFrame : Bytes := [1, 6, 1, 7, 1, 2, 123, 125]

/-- The entry is applied and the listeners are told; the same frame with a byte after it changes
nothing. -/
theorem receive_all_or_nothing_presenceFrame :
    ReportsOnly { awareness := some ⟨false, []⟩ }
      (receive (fun _ => true) { awareness := some ⟨false, []⟩ } (presenceFrame ++ [0])) ∧
    ∃ entries, AwarenessFormat (fun _ => true) entries (presenceFrame.drop 2) ∧
      ∀ states : List ℕ, applyAwarenessUpdate (fun _ => true) (fun s e => e.client :: s) states
          (presenceFrame.drop 2) =
        ⟨entries.foldl (fun s e => e.client :: s) states, entries.map .processed ++ [.notified],
          false⟩ := by
  refine ⟨?_, ?_⟩
  · refine (receive_all_or_nothing (fun _ => true) (fun (s : List ℕ) e => e.client :: s) _ _).1 ?_
    rw [← validateFrame_iff]
    decide
  · exact ((receive_all_or_nothing (fun _ => true) (fun (s : List ℕ) e => e.client :: s)
      { awareness := some ⟨false, []⟩ } presenceFrame).2 _ (by decide) rfl).2

/-! ## Whose presence a session sends -/

/-- `new YProtocolSession(doc, opts)` for a document with a client id. -/
def start (clientID : ℕ) (awareness : Option Awareness) : Cfg :=
  { state := { clientID, awareness } }

/-- The events of the awareness object, by what caused them: the application sets, clears or
renews the local state, `receive` applies a peer's update, `pause` removes the peers, the timeout
of y-protocols removes the peers that have been silent. -/
inductive AwarenessChange
  | localState
  | remoteApplied (clients : List ℕ)
  | pauseCleanup (clients : List ℕ)
  | timeout (clients : List ℕ)

/-- How an event reaches the session's listener: the clients it names, and whether the session is
its origin. -/
def AwarenessChange.call (clientID : ℕ) : AwarenessChange → Call
  | .localState => .awarenessUpdate [clientID] false
  | .remoteApplied clients => .awarenessUpdate clients true
  | .pauseCleanup clients => .awarenessUpdate clients true
  | .timeout clients => .awarenessUpdate clients false

/-- Every awareness frame that the move sends lists only the session's own client. -/
def SendsOwnPresence (parsesJson : Bytes → Bool) (c : Cfg) (m : Move Call Ret) : Prop :=
  ∀ c', (machine parsesJson).step c m = some c' → ∀ clients,
    Event.call (.sendAwareness clients) ∈ c'.trace.drop c.trace.length →
      ∀ client ∈ clients, client = c.state.clientID

/-- No event of an origin other than the session names another client, as long as the session is
not destroyed. -/
def NamesOwnClient (c : Cfg) (m : Move Call Ret) : Prop :=
  ∀ clients, m = .call (.awarenessUpdate clients false) → c.state.protocol ≠ .destroyed →
    ∀ client ∈ clients, client = c.state.clientID

/-- Of y-protocols' own events, those of the timeout are the ones that name others. -/
lemma namesOwnClient_change {c : Cfg} (change : AwarenessChange)
    (h : ∀ clients, change = .timeout clients → ∀ client ∈ clients, client = c.state.clientID) :
    NamesOwnClient c (.call (change.call c.state.clientID)) := by
  rintro clients hm - client hclient
  cases change with
  | localState =>
      obtain rfl : [c.state.clientID] = clients := by simpa [AwarenessChange.call] using hm
      exact List.mem_singleton.1 hclient
  | remoteApplied => simp [AwarenessChange.call] at hm
  | pauseCleanup => simp [AwarenessChange.call] at hm
  | timeout removed =>
      obtain rfl : removed = clients := by simpa [AwarenessChange.call] using hm
      exact h _ rfl client hclient

/-- The awareness frames of a stretch of code. -/
def Announces (o : Out) (clients : List ℕ) : Prop := Event.call (.sendAwareness clients) ∈ o.events

@[simp] lemma announces_await {s : State} {x : External} {f : Frame} {clients : List ℕ} :
    Announces (await s x f) clients ↔ .sendAwareness clients = x := by
  simp [Announces, await]

@[simp] lemma announces_emitting {e : Event} {o : Out} {clients : List ℕ} :
    Announces (emitting e o) clients ↔
      .call (.sendAwareness clients) = e ∨ Announces o clients := by
  simp [Announces, emitting]

@[simp] lemma not_announces_end (s : State) (control : Control Frame) (clients : List ℕ) :
    ¬Announces { state := s, control := control } clients := by
  simp [Announces]

@[simp] lemma not_announces_fail (s : State) (cycle : ℕ) (clients : List ℕ) :
    ¬Announces (fail s cycle) clients := by
  unfold fail
  split <;> simp

@[simp] lemma not_announces_afterRead (s : State) (step2 : Option ℕ) (cycle : ℕ)
    (clients : List ℕ) : ¬Announces (afterRead s step2 cycle) clients := by
  unfold afterRead
  split <;> simp

@[simp] lemma not_announces_readSyncMessage (s : State) (cycle type : ℕ) (payload : Bytes)
    (clients : List ℕ) : ¬Announces (readSyncMessage s cycle type payload) clients := by
  unfold readSyncMessage
  split <;> simp

lemma not_announces_receive (parsesJson : Bytes → Bool) (s : State) (frame : Bytes)
    (clients : List ℕ) : ¬Announces (receive parsesJson s frame) clients := by
  unfold receive
  repeat' split
  all_goals simp

/-- Of the public methods, only the listener for awareness events sends presence at once. -/
lemma announces_call {parsesJson : Bytes → Bool} {s : State} {x : Call} {clients : List ℕ}
    (h : Announces (call parsesJson s x) clients) :
    x = .awarenessUpdate clients false ∧ s.protocol ≠ .destroyed := by
  cases x with
  | awarenessUpdate changed own =>
      simp only [call, onAwarenessUpdate] at h
      split at h
      · simp at h
      · rename_i hown
        push Not at hown
        obtain rfl : clients = changed := by simpa using h
        exact ⟨by simpa using hown.1, hown.2⟩
  | receive frame => exact absurd h (not_announces_receive parsesJson s frame clients)
  | awarenessIs => exact absurd h (not_announces_end _ _ _)
  | acknowledge => simp [call] at h
  | _ =>
      simp only [call, resume, pause, destroy, applyRemoteUpdate, removeLocalAwareness,
        onDocUpdate] at h
      split at h <;> simp at h

/-- After a call, only `resume` sends presence, its own. -/
lemma announces_back {s : State} {f : Frame} {r : Ret} {o : Out} {clients : List ℕ}
    (ho : back s f r = some o) (h : Announces o clients) : clients = [s.clientID] := by
  cases f with
  | hello cycle =>
      cases r with
      | unit =>
          simp only [back] at ho
          repeat' split at ho
          all_goals obtain rfl := Option.some.inj ho
          all_goals simp_all
      | threw =>
          obtain rfl := Option.some.inj ho
          simp at h
      | bytes => simp [back] at ho
  | answering cycle =>
      cases r with
      | bytes update =>
          obtain rfl := Option.some.inj ho
          simp only [Announces] at h
          split at h <;> simp at h
      | threw =>
          obtain rfl := Option.some.inj ho
          simp at h
      | unit => simp [back] at ho
  | _ =>
      cases r <;> simp only [back, Option.some.injEq, reduceCtorEq] at ho <;>
        (repeat' split at ho) <;> (try obtain rfl := Option.some.inj ho) <;> (try subst ho) <;>
        simp at h

lemma sendsOwnPresence_iff {parsesJson : Bytes → Bool} (c : Cfg) (m : Move Call Ret) :
    SendsOwnPresence parsesJson c m ↔ NamesOwnClient c m := by
  constructor
  · rintro h clients rfl hlive client hclient
    refine h _ (Machine.step_call _) clients ?_ client hclient
    simp [Config.resume, machine, call, onAwarenessUpdate, hlive, await]
  · intro h c' hc' clients hsent client hclient
    obtain ⟨o, stack, rfl, -, ⟨x, rfl, rfl⟩ | ⟨f, rest, r, -, -, ho⟩⟩ := Machine.step_eq_some hc'
    · have hsent : Announces (call parsesJson c.state x) clients := by
        simpa [Config.resume, Announces, machine] using hsent
      obtain ⟨rfl, hlive⟩ := announces_call hsent
      exact h clients rfl hlive client hclient
    · have hsent : Announces o clients := by simpa [Config.resume, Announces] using hsent
      obtain rfl := announces_back ho hsent
      exact List.mem_singleton.1 hclient

/-- **Whose presence a session sends.**  On every schedule of public calls, awareness events and
re-entrant callbacks, all awareness frames list only the session's own client, if and only if no
event with an origin other than the session names another client while the session lives. -/
theorem sends_own_presence_iff (parsesJson : Bytes → Bool) (clientID : ℕ)
    (awareness : Option Awareness) (moves : List (Move Call Ret)) :
    Along (machine parsesJson).step (SendsOwnPresence parsesJson) (start clientID awareness) moves ↔
      Along (machine parsesJson).step NamesOwnClient (start clientID awareness) moves :=
  along_iff (I := fun _ => True) (fun c m _ => sendsOwnPresence_iff c m)
    (fun _ _ _ _ _ _ => trivial) trivial

/-- Client 7 announces itself, falls silent, and is removed by the timeout: the session of client 1
broadcasts the removal. -/
theorem timeout_broadcasts_removal :
    ¬Along (machine fun _ => true).step (SendsOwnPresence fun _ => true)
      (start 1 (some ⟨true, []⟩))
      [.call .resume, .back .unit, .back .unit, .back .unit, .call (.receive presenceFrame),
        .call ((AwarenessChange.remoteApplied [7]).call 1), .back .unit,
        .call ((AwarenessChange.timeout [7]).call 1)] := by
  rintro ⟨-, h₁⟩
  obtain ⟨-, h₂⟩ := h₁ _ rfl
  obtain ⟨-, h₃⟩ := h₂ _ rfl
  obtain ⟨-, h₄⟩ := h₃ _ rfl
  obtain ⟨-, h₅⟩ := h₄ _ rfl
  obtain ⟨-, h₆⟩ := h₅ _ rfl
  obtain ⟨-, h₇⟩ := h₆ _ rfl
  obtain ⟨hown, -⟩ := h₇ _ rfl
  have : 7 = 1 := hown _ rfl [7] (by
    show Event.call (.sendAwareness [7]) ∈ [Event.call (.sendAwareness [7])]
    exact List.mem_singleton_self _) 7 (List.mem_singleton_self _)
  omega

end Session

end Yrby
