import Yrby.Engine.Reference
import Yrby.Framework.Base64
import Yrby.Framework.Effect

/-!
# The channel concern (`sync.rb`)

What a channel does with the envelopes a client sends.  The storage hooks, `broadcast` and
`transmit` belong to the application and its transport: each is a function on a `world` that may
raise, and that has done what it did to the world also when it raises.  A method of the channel
is an `Eff` on a `Chan`, the document key and the world, and leaves a trace of what the channel
did.

The trace records the calls the claims are about: the record of an update (with whether
`on_change` raised), broadcasts, answers and acks.  Log lines are `dropped` and `gap` events
without their text.

`Segment` lists everything one envelope can cause, in order; `segment_receive` proves it of
`sync_receive`.  From it follow record before relay before ack, for every sequence of envelopes,
and when the frame relayed to the peers is the update that was recorded.
-/

namespace Yrby.Sync

open Wire Base64 Effect Yrs

/-! ## Envelopes -/

/-- A JSON value.  Strings are bytes; a number is an integer, or the text of another one. -/
inductive Json
  | null
  | bool (b : Bool)
  | integer (n : ℤ)
  | decimal (text : String)
  | string (bytes : Bytes)
  | array (elements : List Json)
  | object (fields : List (String × Json))

/-- `data[field]` if `data` is a Hash. -/
def Json.get? (field : String) : Json → Option Json
  | .object fields => fields.lookup field
  | _ => none

/-- An exception.  `exception` is not a `StandardError`. -/
inductive RubyError
  | yError
  | standard
  | exception
  deriving DecidableEq

def RubyError.isStandard : RubyError → Bool
  | .exception => false
  | _ => true

/-! ## Channels -/

inductive Transmission
  | update (encoded : Bytes)
  | ack (id : Json)

inductive Event
  /-- `on_change` returned, or raised. -/
  | recorded (update : Bytes)
  | recordFailed (update : Bytes)
  | broadcast (encoded : Bytes)
  | transmit (encoded : Bytes)
  | ack (id : Json)
  | dropped
  | gap
  | streamFrom (name : Bytes)
  | reject

/-- An injected function: it acts on the world and may raise. -/
abbrev Hook (ω α : Type) := ω → Except RubyError α × ω

/-- What a channel class and its transport provide.  Hooks get the document key. -/
structure ChannelClass (ω : Type) where
  onLoad : Option (Bytes → Hook ω (Option Bytes))
  onChange : Option (Bytes → Bytes → Hook ω Unit)
  onGap : Option (Bytes → Hook ω Unit) := none
  maxFrameBytes : Option ℕ := some (8 * 1024 * 1024)
  authorized : Bytes → Hook ω Bool := fun _ w => (.ok false, w)
  broadcast : Bytes → Bytes → Hook ω Unit
  transmit : Transmission → Hook ω Unit
  /-- `respond_to?(:whispers_to)` -/
  whispers : Bool := false

/-- A channel instance and the world around it. -/
structure Chan (ω : Type) where
  key : Option Bytes := none
  world : ω

/-- A method of the channel. -/
abbrev Method (ω α : Type) := Eff RubyError (Chan ω) Event α

variable {ω α β : Type}

/-- An injected function as a method. -/
def callHook (f : Hook ω α) (c : Chan ω) : Except RubyError α × Chan ω :=
  ((f c.world).1, { c with world := (f c.world).2 })

/-- `@sync_key` -/
def syncKey : Method ω Bytes := gets fun c => c.key.getD []

/-- The value of a native call; an `Err` raises `Y::Error`. -/
def orRaise : Option α → Method ω α
  | some a => pure a
  | none => raise .yError

inductive Outcome
  | recorded
  | noop
  deriving DecidableEq

variable (Y : Yrs) (K : ChannelClass ω)

/-! ## The methods -/

/-- `sync_validate_required_hooks!` -/
def syncValidateRequiredHooks : Method ω Unit :=
  if K.onLoad.isSome && K.onChange.isSome then pure () else raise .yError

/-- `sync_validate_key!` -/
def syncValidateKey : Method ω Unit := do
  if ← gets fun c => c.key.all List.isEmpty then raise .yError

/-- `sync_load_doc` -/
def syncLoadDoc : Method ω Y.Doc := do
  let key ← syncKey
  match K.onLoad with
  | none => raise .standard
  | some hook => do
      let state ← perform (callHook (hook key))
      orRaise (Y.applyOptional Y.new state)

/-- `sync_record_change` -/
def syncRecordChange (update : Bytes) : Method ω Unit := do
  let key ← syncKey
  match K.onChange with
  | none => raise .standard
  | some hook =>
      performNoting (fun
        | .ok _ => .recorded update
        | .error _ => .recordFailed update) (callHook (hook key update))

/-- `sync_distribute` -/
def syncDistribute (encoded : Bytes) : Method ω Unit := do
  let key ← syncKey
  emit (.broadcast encoded)
  perform (callHook (K.broadcast key encoded))

/-- `sync_transmit` -/
def syncTransmit (bytes : Bytes) : Method ω Unit := do
  emit (.transmit (strictEncode64 bytes))
  perform (callHook (K.transmit (.update (strictEncode64 bytes))))

/-- `begin .. rescue StandardError .. end` around a hook. -/
def swallow (f : Hook ω Unit) : Hook ω Unit := fun w =>
  match f w with
  | (.error e, w) => (if e.isStandard then .ok () else .error e, w)
  | r => r

/-- `sync_observe_gap` -/
def syncObserveGap : Method ω Unit := do
  let key ← syncKey
  emit .gap
  match K.onGap with
  | none => pure ()
  | some hook => perform (callHook (swallow (hook key)))

/-- `sync_observe_gap if doc.pending?` -/
def syncObservePending (doc : Y.Doc) : Method ω Unit :=
  if Y.hasPending doc then syncObserveGap K else pure ()

/-- `sync_send_ack` -/
def syncSendAck (id : Option Json) (outcome : Outcome) : Method ω Unit :=
  match id, outcome with
  | none, _ | some .null, _ | _, .noop => pure ()
  | some id, .recorded => do
      emit (.ack id)
      perform (callHook (K.transmit (.ack id)))

/-- `sync_relay_frame`: a SyncStep2, told by its second byte, goes to the peers as an update. -/
def syncRelayFrame (update encoded bytes : Bytes) : Bytes :=
  if bytes[1]? ≠ some 1 then encoded else strictEncode64 (Y.wrapUpdate update)

/-- `sync_handle_document_update` -/
def syncHandleDocumentUpdate (update encoded : Bytes) : Method ω Outcome := do
  syncRecordChange K update
  syncDistribute K encoded
  pure .recorded

/-- The SyncStep1 branch of `sync_handle_frame`. -/
def syncAnswerStep1 (bytes : Bytes) : Method ω Outcome := do
  let doc ← syncLoadDoc Y K
  let result ← orRaise (Y.handleSyncMessage doc bytes)
  syncTransmit K result.2.2.2
  syncObservePending Y K result.1
  pure .noop

/-- The update branch of `sync_handle_frame`. -/
def syncTakeUpdate (encoded bytes : Bytes) : Method ω Outcome := do
  match ← orRaise (Y.mergedDocUpdate bytes) with
  | none => pure .noop
  | some update => syncHandleDocumentUpdate K update (syncRelayFrame Y update encoded bytes)

/-- `sync_handle_frame` -/
def syncHandleFrame (encoded bytes : Bytes) : Method ω Outcome := do
  syncValidateRequiredHooks K
  syncValidateKey
  match Y.classifyMessage bytes with
  | 1 => syncAnswerStep1 Y K bytes
  | 2 => syncTakeUpdate Y K encoded bytes
  | 3 => do
      syncDistribute K encoded
      pure .noop
  | _ => pure .noop

/-- The encoded form is over the cap. -/
def encodedOverCap (cap : Option ℕ) (encoded : Bytes) : Bool :=
  cap.any fun cap => decide (cap * 4 / 3 + 4 < encoded.length)

/-- The decoded form is over the cap. -/
def bytesOverCap (cap : Option ℕ) (bytes : Bytes) : Bool :=
  cap.any fun cap => decide (cap < bytes.length)

/-- `sync_receive` -/
def syncReceive (data : Json) (key : Option Bytes) : Method ω Unit := do
  modify fun c => { c with key := key.or c.key }
  match data.get? "update" with
  | some (.string encoded) =>
      if encodedOverCap K.maxFrameBytes encoded then emit .dropped
      else
        match strictDecode64 encoded with
        | none => emit .dropped
        | some bytes =>
            if bytesOverCap K.maxFrameBytes bytes then emit .dropped
            else do
              let outcome ← syncHandleFrame Y K encoded bytes
              syncSendAck K (data.get? "id") outcome
  | _ => pure ()

/-- `Y::ActionCable.stream_name` -/
def streamName (key : Bytes) : Bytes := "yrby:".toUTF8.toList ++ key

/-- `sync_subscribed` -/
def syncSubscribed (key : Bytes) : Method ω Bool := do
  modify fun c => { c with key := some key }
  syncValidateRequiredHooks K
  if ← perform (callHook (K.authorized key)) then do
    emit (.streamFrom (streamName key))
    (if K.whispers then emit (.streamFrom (streamName key ++ ":awareness".toUTF8.toList))
      else pure ())
    let doc ← syncLoadDoc Y K
    syncTransmit K (Y.syncStep1 doc)
    syncObservePending Y K doc
    pure true
  else do
    emit .reject
    pure false

/-! ## What one envelope causes -/

/-- Neither a record, nor a relay, nor an ack. -/
def Event.isQuiet : Event → Bool
  | .transmit _ | .dropped | .gap => true
  | _ => false

/-- The frame an envelope carries past the checks of `sync_receive`, encoded and decoded. -/
def frameOf (cap : Option ℕ) (data : Json) : Option (Bytes × Bytes) :=
  match data.get? "update" with
  | some (.string encoded) =>
      if encodedOverCap cap encoded then none
      else
        (strictDecode64 encoded).bind fun bytes =>
          if bytesOverCap cap bytes then none else some (encoded, bytes)
  | _ => none

/-- The update that is recorded for a frame. -/
def updateOf (bytes : Bytes) : Option Bytes :=
  if Y.classifyMessage bytes = 2 then (Y.mergedDocUpdate bytes).join else none

/-- Everything a frame can cause, with the outcome where it has one. -/
inductive FrameEvents (encoded bytes : Bytes) : Except RubyError Outcome → List Event → Prop
  | quiet {r es} (hr : r ≠ .ok .recorded) (hes : ∀ e ∈ es, e.isQuiet) :
      FrameEvents encoded bytes r es
  | awareness {r} (hr : r ≠ .ok .recorded) (hkind : Y.classifyMessage bytes = 3) :
      FrameEvents encoded bytes r [.broadcast encoded]
  | failed {r update} (hr : r ≠ .ok .recorded) (hupdate : updateOf Y bytes = some update) :
      FrameEvents encoded bytes r [.recordFailed update]
  | relayed {r update} (hupdate : updateOf Y bytes = some update) :
      FrameEvents encoded bytes r
        [.recorded update, .broadcast (syncRelayFrame Y update encoded bytes)]

/-- Everything an envelope can cause, in order. -/
inductive Segment (cap : Option ℕ) (data : Json) : List Event → Prop
  | quiet {es} (hes : ∀ e ∈ es, e.isQuiet) : Segment cap data es
  | awareness {encoded bytes} (hframe : frameOf cap data = some (encoded, bytes))
      (hkind : Y.classifyMessage bytes = 3) : Segment cap data [.broadcast encoded]
  | failed {encoded bytes update} (hframe : frameOf cap data = some (encoded, bytes))
      (hupdate : updateOf Y bytes = some update) : Segment cap data [.recordFailed update]
  | relayed {encoded bytes update} (hframe : frameOf cap data = some (encoded, bytes))
      (hupdate : updateOf Y bytes = some update) :
      Segment cap data [.recorded update, .broadcast (syncRelayFrame Y update encoded bytes)]
  | acked {encoded bytes update id} (hframe : frameOf cap data = some (encoded, bytes))
      (hupdate : updateOf Y bytes = some update) (hid : data.get? "id" = some id) :
      Segment cap data
        [.recorded update, .broadcast (syncRelayFrame Y update encoded bytes), .ack id]

variable {Y K}

lemma FrameEvents.segment {cap : Option ℕ} {data : Json} {encoded bytes : Bytes}
    {r : Except RubyError Outcome} {es : List Event} (h : FrameEvents Y encoded bytes r es)
    (hframe : frameOf cap data = some (encoded, bytes)) : Segment Y cap data es := by
  cases h with
  | quiet _ hes => exact .quiet hes
  | awareness _ hkind => exact .awareness hframe hkind
  | failed _ hupdate => exact .failed hframe hupdate
  | relayed hupdate => exact .relayed hframe hupdate

/-- The method does only quiet things, and what it returns is `ok`. -/
def Quiet (x : Method ω α) (ok : α → Prop) : Prop :=
  Triple (fun _ => True) x fun r _ es => (∀ a, r = .ok a → ok a) ∧ ∀ e ∈ es, e.isQuiet

section Quiet

variable {ok : β → Prop} {x : Method ω α} {f : α → Method ω β}

lemma Quiet.bind (hx : Quiet x fun _ => True) (hf : ∀ a, Quiet (f a) ok) : Quiet (x >>= f) ok := by
  refine Triple.bind hx (fun a es => ?_) fun e _ es h => ⟨by simp, h.2⟩
  intro c hc
  obtain ⟨es', htrace, hok, hquiet⟩ := hf a c trivial
  refine ⟨es', htrace, hok, fun e he => ?_⟩
  rcases List.mem_append.1 he with he | he
  · exact hc.2 e he
  · exact hquiet e he

lemma quiet_pure {b : β} (h : ok b) : Quiet (pure b : Method ω β) ok :=
  Triple.pure fun _ _ => ⟨fun a ha => by simpa [← Except.ok.inj ha] using h, by simp⟩

lemma quiet_raise {e : RubyError} : Quiet (raise e : Method ω β) ok :=
  Triple.raise fun _ _ => ⟨by simp, by simp⟩

lemma quiet_perform (g : Hook ω α) : Quiet (perform (callHook g)) fun _ => True :=
  Triple.perform fun _ _ => ⟨by simp, by simp⟩

lemma quiet_gets (g : Chan ω → α) : Quiet (gets g : Method ω α) fun _ => True :=
  Triple.gets fun _ _ => ⟨by simp, by simp⟩

lemma quiet_emit {e : Event} (h : e.isQuiet) : Quiet (emit e : Method ω Unit) fun _ => True :=
  Triple.emit fun _ _ => ⟨by simp, by simpa using h⟩

lemma quiet_orRaise (o : Option α) : Quiet (orRaise o : Method ω α) fun _ => True := by
  cases o with
  | none => exact quiet_raise
  | some a => exact quiet_pure trivial

lemma quiet_loadDoc : Quiet (syncLoadDoc Y K) fun _ => True := by
  refine (quiet_gets _).bind fun key => ?_
  split
  · exact quiet_raise
  · exact (quiet_perform _).bind fun state => quiet_orRaise _

lemma quiet_transmit (bytes : Bytes) : Quiet (syncTransmit K bytes) fun _ => True :=
  (quiet_emit rfl).bind fun _ => quiet_perform _

lemma quiet_observePending (doc : Y.Doc) : Quiet (syncObservePending Y K doc) fun _ => True := by
  unfold syncObservePending syncObserveGap
  split
  · refine (quiet_gets _).bind fun key => (quiet_emit rfl).bind fun _ => ?_
    split
    · exact quiet_pure trivial
    · exact quiet_perform _
  · exact quiet_pure trivial

/-- Answering a SyncStep1 records, relays and acks nothing. -/
lemma quiet_answerStep1 (bytes : Bytes) : Quiet (syncAnswerStep1 Y K bytes) (· = .noop) :=
  quiet_loadDoc.bind fun _ => (quiet_orRaise _).bind fun _ => (quiet_transmit _).bind fun _ =>
    (quiet_observePending _).bind fun _ => quiet_pure rfl

end Quiet

section Silent

variable {P : Chan ω → Prop}

lemma silent_validate :
    Triple P (syncValidateRequiredHooks K) fun _ s es => es = [] ∧ P s := by
  unfold syncValidateRequiredHooks
  split
  · exact Triple.pure fun _ h => ⟨rfl, h⟩
  · exact Triple.raise fun _ h => ⟨rfl, h⟩

lemma silent_validateKey :
    Triple P (syncValidateKey : Method ω Unit) fun _ s es => es = [] ∧ P s := by
  refine Triple.gets_bind fun missing => ?_
  split
  · exact Triple.raise fun _ h => ⟨rfl, h.1⟩
  · exact Triple.pure fun _ h => ⟨rfl, h.1⟩

end Silent

/-- `on_change` is called, and noted, exactly once, unless there is none. -/
lemma triple_recordChange (update : Bytes) :
    Triple (fun _ => True) (syncRecordChange K update) fun r _ es =>
      (r = .ok () ∧ es = [.recorded update]) ∨
        (r ≠ .ok () ∧ (es = [.recordFailed update] ∨ es = [] ∧ K.onChange = none)) := by
  refine Triple.gets_bind fun key => ?_
  split
  · rename_i hnone
    exact Triple.raise fun _ _ => .inr ⟨by simp, .inr ⟨rfl, hnone⟩⟩
  · rename_i hook _
    refine Triple.performNoting fun c _ => ?_
    cases hr : (callHook (hook key update) c).1 with
    | ok u => exact .inl ⟨rfl, rfl⟩
    | error e => exact .inr ⟨by simp, .inl rfl⟩

lemma triple_distribute (encoded : Bytes) :
    Triple (fun _ => True) (syncDistribute K encoded) fun _ _ es => es = [.broadcast encoded] :=
  Triple.gets_bind fun _ => Triple.emit_bind (Triple.perform fun _ _ => rfl)

/-- Record, then relay, and only then `:recorded`. -/
lemma triple_handleDocumentUpdate (update encoded : Bytes) :
    Triple (fun _ => True) (syncHandleDocumentUpdate K update encoded) fun r _ es =>
      es = [.recorded update, .broadcast encoded] ∨
        (r ≠ .ok .recorded ∧ (es = [.recordFailed update] ∨ es = [] ∧ K.onChange = none)) := by
  refine (triple_recordChange update).bind (fun a es => ?_) fun e _ es h => ?_
  · refine Triple.of_fact (p := es = [.recorded update]) (fun s h => ?_) fun hes => ?_
    · exact (h.resolve_right fun h => h.1 rfl).2
    · refine Triple.mono (P := fun _ => True) ?_ (fun _ _ => trivial) fun _ _ _ h => .inl h
      refine (triple_distribute encoded).bind (fun _ es' => ?_) fun e _ es' h => ?_
      · refine Triple.pure fun _ h => ?_
        rw [h, hes]
        rfl
      · rw [h, hes]
        rfl
  · rcases h with ⟨hr, -⟩ | ⟨-, h⟩
    · simp at hr
    · exact .inr ⟨by simp, h⟩

lemma updateOf_eq_some {bytes update : Bytes} :
    updateOf Y bytes = some update ↔
      Y.classifyMessage bytes = 2 ∧ Y.mergedDocUpdate bytes = some (some update) := by
  unfold updateOf
  split
  · rename_i h
    simp [h, Option.join_eq_some_iff]
  · rename_i h
    simp [h]

/-- **What a frame causes.** -/
theorem frameEvents_handleFrame (encoded bytes : Bytes) :
    Triple (fun _ => True) (syncHandleFrame Y K encoded bytes) fun r _ es =>
      FrameEvents Y encoded bytes r es := by
  have of_error : ∀ (e : RubyError) (_ : Chan ω), True →
      FrameEvents Y encoded bytes (.error e) [] :=
    fun _ _ _ => .quiet (by simp) (by simp)
  refine silent_validate.bind_silent (fun _ => ?_) of_error
  refine silent_validateKey.bind_silent (fun _ => ?_) of_error
  split
  · refine (quiet_answerStep1 bytes).mono (fun _ h => h) fun r _ es h => .quiet (fun hr => ?_) h.2
    exact absurd (h.1 _ hr) (by decide)
  · rename_i hkind
    unfold syncTakeUpdate
    cases hm : Y.mergedDocUpdate bytes with
    | none => exact Triple.raise fun _ _ => .quiet (by simp) (by simp)
    | some update =>
        cases update with
        | none => exact Triple.pure fun _ _ => .quiet (by simp) (by simp)
        | some update =>
            have hupdate : updateOf Y bytes = some update := updateOf_eq_some.2 ⟨hkind, hm⟩
            refine (triple_handleDocumentUpdate update _).mono (fun _ h => h) fun r _ es h => ?_
            rcases h with rfl | ⟨hr, rfl | ⟨rfl, -⟩⟩
            · exact .relayed hupdate
            · exact .failed hr hupdate
            · exact .quiet hr (by simp)
  · rename_i hkind
    refine (triple_distribute encoded).bind (fun _ es => ?_) fun e _ es h => ?_
    · exact Triple.pure fun _ h => h ▸ .awareness (by simp) hkind
    · exact h ▸ .awareness (by simp) hkind
  · exact Triple.pure fun _ _ => .quiet (by simp) (by simp)

/-- An ack is sent for a recorded frame only, and only if it has an id. -/
lemma triple_sendAck (id : Option Json) (outcome : Outcome) :
    Triple (fun _ => True) (syncSendAck K id outcome) fun _ _ es =>
      es = [] ∨ ∃ i, id = some i ∧ outcome = .recorded ∧ es = [.ack i] := by
  unfold syncSendAck
  split
  · exact Triple.pure fun _ _ => .inl rfl
  · exact Triple.pure fun _ _ => .inl rfl
  · exact Triple.pure fun _ _ => .inl rfl
  · exact Triple.emit_bind (Triple.perform fun _ _ => .inr ⟨_, rfl, rfl, rfl⟩)

variable (Y K) in
/-- Handle the frame that passes the checks of `sync_receive`, drop everything else. -/
def handleEnvelope (data : Json) : Method ω Unit :=
  match frameOf K.maxFrameBytes data with
  | some (encoded, bytes) => do
      let outcome ← syncHandleFrame Y K encoded bytes
      syncSendAck K (data.get? "id") outcome
  | none =>
      match data.get? "update" with
      | some (.string _) => emit .dropped
      | _ => pure ()

lemma syncReceive_eq (data : Json) (key : Option Bytes) :
    syncReceive Y K data key = (do
      modify fun c => { c with key := key.or c.key }
      handleEnvelope Y K data) := by
  unfold syncReceive handleEnvelope frameOf
  refine congrArg _ (funext fun _ => ?_)
  cases data.get? "update" with
  | none => rfl
  | some value =>
      cases value with
      | string encoded =>
          by_cases hcap : encodedOverCap K.maxFrameBytes encoded
          · simp [hcap]
          · cases hdecode : strictDecode64 encoded with
            | none => simp [hcap, hdecode]
            | some bytes =>
                by_cases hcap' : bytesOverCap K.maxFrameBytes bytes <;> simp [hcap, hdecode, hcap']
      | _ => rfl

lemma segment_handleEnvelope (data : Json) :
    Triple (fun _ => True) (handleEnvelope Y K data) fun _ _ es =>
      Segment Y K.maxFrameBytes data es := by
  unfold handleEnvelope
  split
  · rename_i encoded bytes hframe
    refine (frameEvents_handleFrame encoded bytes).bind (fun outcome es => ?_) fun e _ es h => ?_
    · refine Triple.of_fact (fun _ h => h) fun h => ?_
      refine Triple.mono (triple_sendAck _ outcome) (fun _ _ => trivial) fun _ _ es' hack => ?_
      rcases hack with rfl | ⟨id, hid, rfl, rfl⟩
      · rw [List.append_nil]
        exact h.segment hframe
      · -- an ack: the frame was recorded and relayed
        cases h with
        | relayed hupdate => exact .acked hframe hupdate hid
        | quiet hr | awareness hr | failed hr => exact absurd rfl hr
    · exact h.segment hframe
  · split
    · exact Triple.emit fun _ _ => .quiet (by simp [Event.isQuiet])
    · exact Triple.pure fun _ _ => .quiet (by simp)

/-- **What an envelope causes.** -/
theorem segment_receive (data : Json) (key : Option Bytes) :
    Triple (fun _ => True) (syncReceive Y K data key) fun _ _ es =>
      Segment Y K.maxFrameBytes data es := by
  rw [syncReceive_eq]
  exact Triple.modify_bind (segment_handleEnvelope data) fun _ _ => trivial

/-! ## Record before relay before ack -/

/-- The envelope carries one well-formed update frame under the cap, with payload `update`. -/
def CarriesUpdate (Y : Yrs) (cap : Option ℕ) (data : Json) (update : Bytes) : Prop :=
  ∃ encoded bytes, data.get? "update" = some (.string encoded) ∧
    strictDecode64 encoded = some bytes ∧ (∀ c ∈ cap, bytes.length ≤ c) ∧
      IsUpdateFrame Y bytes update

/-- The broadcast sends the peers a document update. -/
def IsUpdateBroadcast (Y : Yrs) (encoded : Bytes) : Prop :=
  ∃ bytes, strictDecode64 encoded = some bytes ∧ Y.classifyMessage bytes = 2

/-- One envelope delivered to a channel, and what the channel did. -/
structure Delivery (ω : Type) where
  before : Chan ω
  data : Json
  key : Option Bytes
  events : List Event

/-- Deliver envelopes one after the other.  An exception ends the handling of one envelope, not
the channel. -/
def deliveries (Y : Yrs) (K : ChannelClass ω) : Chan ω → List (Json × Option Bytes) →
    List (Delivery ω)
  | _, [] => []
  | c, (data, key) :: envelopes =>
      let after := (syncReceive Y K data key { state := c }).2
      ⟨c, data, key, after.trace⟩ :: deliveries Y K after.state envelopes

/-- What holds of every single delivery holds of every delivery of a sequence. -/
lemma forall_deliveries {P : Delivery ω → Prop}
    (h : ∀ c data key, P ⟨c, data, key, (syncReceive Y K data key { state := c }).2.trace⟩)
    (c : Chan ω) (envelopes : List (Json × Option Bytes)) :
    ∀ d ∈ deliveries Y K c envelopes, P d := by
  induction envelopes generalizing c with
  | nil => simp [deliveries]
  | cons envelope envelopes ih =>
      obtain ⟨data, key⟩ := envelope
      intro d hd
      rcases List.mem_cons.1 hd with rfl | hd
      · exact h c data key
      · exact ih _ d hd

/-- What the channel promises of every delivery. -/
structure RecordedFirst (Y : Yrs) (K : ChannelClass ω) (d : Delivery ω) : Prop where
  /-- An update goes to the peers only after the payload of that frame was recorded. -/
  broadcast : ∀ pre encoded post, d.events = pre ++ .broadcast encoded :: post →
    IsUpdateBroadcast Y encoded →
      ∃ update, CarriesUpdate Y K.maxFrameBytes d.data update ∧ .recorded update ∈ pre
  /-- An ack carries the id of the frame, and comes after its record. -/
  ack : ∀ pre id post, d.events = pre ++ .ack id :: post →
    d.data.get? "id" = some id ∧
      ∃ update, CarriesUpdate Y K.maxFrameBytes d.data update ∧ .recorded update ∈ pre
  /-- `on_change` gets exactly the payload of the frame. -/
  payload : ∀ update, .recorded update ∈ d.events ∨ .recordFailed update ∈ d.events →
    CarriesUpdate Y K.maxFrameBytes d.data update
  /-- If `on_change` raises, nothing is relayed or acked. -/
  failed : ∀ update, .recordFailed update ∈ d.events → d.events = [.recordFailed update]
  /-- Every update frame with content reaches `on_change`. -/
  passed : K.onLoad.isSome → K.onChange.isSome → (∃ k ∈ d.key.or d.before.key, k ≠ []) →
    ∀ update, CarriesUpdate Y K.maxFrameBytes d.data update → (Y.contentOf update).Nonempty →
      .recorded update ∈ d.events ∨ .recordFailed update ∈ d.events

section Recorded

variable (hw : Y.WireFormat)
include hw

omit hw in
lemma frameOf_of_carriesUpdate {cap : Option ℕ} {data : Json} {update : Bytes}
    (h : CarriesUpdate Y cap data update) :
    ∃ encoded bytes, frameOf cap data = some (encoded, bytes) ∧ IsUpdateFrame Y bytes update := by
  obtain ⟨encoded, bytes, hget, hdecode, hcap, hframe⟩ := h
  refine ⟨encoded, bytes, ?_, hframe⟩
  have hencoded : encodedOverCap cap encoded = false := by
    cases cap with
    | none => rfl
    | some c => simpa [encodedOverCap] using length_le_of_strictDecode64 hdecode (hcap c rfl)
  have hbytes : bytesOverCap cap bytes = false := by
    cases cap with
    | none => rfl
    | some c => simpa [bytesOverCap] using hcap c rfl
  simp [frameOf, hget, hencoded, hdecode, hbytes]

omit hw in
lemma decode_of_frameOf {cap : Option ℕ} {data : Json} {encoded bytes : Bytes}
    (hframe : frameOf cap data = some (encoded, bytes)) : strictDecode64 encoded = some bytes := by
  unfold frameOf at hframe
  split at hframe
  · split at hframe
    · simp at hframe
    · obtain ⟨bytes', hdecode, hframe⟩ := Option.bind_eq_some_iff.1 hframe
      split at hframe
      · simp at hframe
      · obtain ⟨rfl, rfl⟩ := Prod.mk.inj (Option.some.inj hframe)
        exact hdecode
  · simp at hframe

lemma carriesUpdate_of_frameOf {cap : Option ℕ} {data : Json} {encoded bytes update : Bytes}
    (hframe : frameOf cap data = some (encoded, bytes)) (hupdate : updateOf Y bytes = some update) :
    CarriesUpdate Y cap data update := by
  obtain ⟨hkind, hmerged⟩ := updateOf_eq_some.1 hupdate
  obtain ⟨payload, hpayload⟩ := classifyMessage_eq_two.1 hkind
  obtain ⟨rfl, -⟩ := payload_of_mergedDocUpdate hw hpayload hmerged
  unfold frameOf at hframe
  split at hframe
  · rename_i encoded' hget
    split at hframe
    · simp at hframe
    · obtain ⟨bytes', hdecode, hframe⟩ := Option.bind_eq_some_iff.1 hframe
      split at hframe
      · simp at hframe
      · rename_i hcap
        obtain ⟨rfl, rfl⟩ := Prod.mk.inj (Option.some.inj hframe)
        refine ⟨_, _, hget, hdecode, ?_, hpayload⟩
        rintro c rfl
        simpa [bytesOverCap] using hcap
  · simp at hframe

/-- The frame handler passes an update with content to `on_change`. -/
lemma handleFrame_records {encoded bytes update : Bytes} (hload : K.onLoad.isSome)
    (hchange : K.onChange.isSome) (hframe : IsUpdateFrame Y bytes update)
    (hcontent : (Y.contentOf update).Nonempty) :
    Triple (fun c : Chan ω => ∃ k ∈ c.key, k ≠ []) (syncHandleFrame Y K encoded bytes)
      fun _ _ es => .recorded update ∈ es ∨ .recordFailed update ∈ es := by
  have hkind : Y.classifyMessage bytes = 2 := classifyMessage_eq_two.2 ⟨update, hframe⟩
  have hmerged := mergedDocUpdate_of_content hw hframe hcontent
  have hrecord : Triple (fun _ : Chan ω => True)
      (syncHandleDocumentUpdate K update (syncRelayFrame Y update encoded bytes))
      fun _ _ es => .recorded update ∈ es ∨ .recordFailed update ∈ es := by
    refine (triple_handleDocumentUpdate update _).mono (fun _ h => h) fun _ _ es h => ?_
    rcases h with rfl | ⟨-, rfl | ⟨rfl, hnone⟩⟩
    · simp
    · simp
    · simp [hnone] at hchange
  have hvalidate : Triple (fun c : Chan ω => ∃ k ∈ c.key, k ≠ []) (syncValidateRequiredHooks K)
      fun r c es => (es = [] ∧ r = .ok ()) ∧ ∃ k ∈ c.key, k ≠ [] := by
    simp only [syncValidateRequiredHooks, hload, hchange, Bool.and_self, if_true]
    exact Triple.pure fun _ h => ⟨⟨rfl, rfl⟩, h⟩
  refine hvalidate.bind (fun _ es => ?_) fun e _ es h => by simp at h
  refine Triple.bind (Q := fun r _ es' => es = [] ∧ es' = [] ∧ r = .ok ()) ?_ (fun _ es' => ?_)
    fun e _ es' h => by simp at h
  · refine Triple.gets_bind fun missing => ?_
    intro c hc
    obtain ⟨⟨⟨hes, -⟩, k, hk, hne⟩, hmissing⟩ := hc
    have hpresent : missing = false := by
      rw [← hmissing, Option.mem_def.1 hk]
      simpa using hne
    subst hpresent
    exact ⟨[], (List.append_nil _).symm, hes, rfl, rfl⟩
  · refine Triple.of_fact (fun _ h => h) fun h => ?_
    obtain ⟨rfl, rfl, -⟩ := h
    rw [hkind]
    unfold syncTakeUpdate
    rw [hmerged]
    exact hrecord.mono (fun _ _ => trivial) fun _ _ _ h => h

/-- So does the whole of `sync_receive`. -/
lemma receive_records {data : Json} {key : Option Bytes} {update : Bytes} (hload : K.onLoad.isSome)
    (hchange : K.onChange.isSome) (hdata : CarriesUpdate Y K.maxFrameBytes data update)
    (hcontent : (Y.contentOf update).Nonempty) :
    Triple (fun c : Chan ω => ∃ k ∈ key.or c.key, k ≠ []) (syncReceive Y K data key)
      fun _ _ es => .recorded update ∈ es ∨ .recordFailed update ∈ es := by
  obtain ⟨encoded, bytes, hframe, hupdate⟩ := frameOf_of_carriesUpdate hdata
  have hhandle : Triple (fun c : Chan ω => ∃ k ∈ c.key, k ≠ []) (handleEnvelope Y K data)
      fun _ _ es => .recorded update ∈ es ∨ .recordFailed update ∈ es := by
    unfold handleEnvelope
    rw [hframe]
    refine (handleFrame_records hw hload hchange hupdate hcontent).bind (fun outcome es => ?_)
      fun _ _ _ h => h
    refine Triple.of_fact (fun _ h => h) fun h => ?_
    refine Triple.mono (triple_sendAck _ outcome) (fun _ _ => trivial) fun _ _ es' _ => ?_
    simp only [List.mem_append]
    exact h.imp .inl .inl
  rw [syncReceive_eq]
  exact Triple.modify_bind hhandle fun _ h => h

omit hw in
/-- The first event of a list comes before any other one. -/
lemma first_mem_of_append {a x : Event} {es pre post : List Event} (h : a :: es = pre ++ x :: post)
    (hne : a ≠ x) : a ∈ pre := by
  cases pre with
  | nil => exact absurd (List.cons.inj h).1 hne
  | cons b pre =>
      obtain ⟨rfl, -⟩ := List.cons.inj h
      exact List.mem_cons_self

lemma Segment.broadcast {cap : Option ℕ} {data : Json} {es pre post : List Event} {encoded : Bytes}
    (h : Segment Y cap data es) (hes : es = pre ++ .broadcast encoded :: post)
    (hup : IsUpdateBroadcast Y encoded) :
    ∃ update, CarriesUpdate Y cap data update ∧ .recorded update ∈ pre := by
  have hmem : .broadcast encoded ∈ es := by simp [hes]
  cases h with
  | quiet hquiet => simpa [Event.isQuiet] using hquiet _ hmem
  | awareness hframe hkind =>
      obtain rfl := Event.broadcast.inj (List.mem_singleton.1 hmem)
      obtain ⟨bytes', hdecode, hkind'⟩ := hup
      obtain rfl := Option.some.inj ((decode_of_frameOf hframe).symm.trans hdecode)
      omega
  | failed => simp at hmem
  | relayed hframe hupdate =>
      exact ⟨_, carriesUpdate_of_frameOf hw hframe hupdate, first_mem_of_append hes (by simp)⟩
  | acked hframe hupdate =>
      exact ⟨_, carriesUpdate_of_frameOf hw hframe hupdate, first_mem_of_append hes (by simp)⟩

lemma Segment.ack {cap : Option ℕ} {data id : Json} {es pre post : List Event}
    (h : Segment Y cap data es) (hes : es = pre ++ .ack id :: post) :
    data.get? "id" = some id ∧
      ∃ update, CarriesUpdate Y cap data update ∧ .recorded update ∈ pre := by
  have hmem : .ack id ∈ es := by simp [hes]
  cases h with
  | quiet hquiet => simpa [Event.isQuiet] using hquiet _ hmem
  | awareness | failed | relayed => simp at hmem
  | acked hframe hupdate hid =>
      obtain rfl : id = _ := by simpa using hmem
      exact ⟨hid, _, carriesUpdate_of_frameOf hw hframe hupdate,
        first_mem_of_append hes (by simp)⟩

lemma Segment.payload {cap : Option ℕ} {data : Json} {es : List Event} {update : Bytes}
    (h : Segment Y cap data es) (hmem : .recorded update ∈ es ∨ .recordFailed update ∈ es) :
    CarriesUpdate Y cap data update := by
  cases h with
  | quiet hquiet =>
      rcases hmem with hmem | hmem <;> simpa [Event.isQuiet] using hquiet _ hmem
  | awareness => simp at hmem
  | failed hframe hupdate | relayed hframe hupdate | acked hframe hupdate =>
      obtain rfl : update = _ := by simpa using hmem
      exact carriesUpdate_of_frameOf hw hframe hupdate

omit hw in
lemma Segment.failed_only {cap : Option ℕ} {data : Json} {es : List Event} {update : Bytes}
    (h : Segment Y cap data es) (hmem : .recordFailed update ∈ es) :
    es = [.recordFailed update] := by
  cases h with
  | quiet hquiet => simpa [Event.isQuiet] using hquiet _ hmem
  | awareness | relayed | acked => simp at hmem
  | failed => rw [List.mem_singleton.1 hmem]

/-- One envelope. -/
lemma recordedFirst_receive (c : Chan ω) (data : Json) (key : Option Bytes) :
    RecordedFirst Y K ⟨c, data, key, (syncReceive Y K data key { state := c }).2.trace⟩ := by
  obtain ⟨es, htrace, hseg⟩ := segment_receive (Y := Y) (K := K) data key { state := c } trivial
  obtain rfl : _ = es := htrace
  refine ⟨fun _ _ _ => hseg.broadcast hw, fun _ _ _ => hseg.ack hw, fun _ => hseg.payload hw,
    fun _ => hseg.failed_only, fun hload hchange hkey update hdata hcontent => ?_⟩
  obtain ⟨es, htrace, hmem⟩ :=
    receive_records hw hload hchange hdata hcontent { state := c } hkey
  obtain rfl : _ = es := htrace
  exact hmem

/-- **Record before relay before ack.**  Whatever envelopes a channel is sent, and whenever its
hooks raise: each update broadcast and each ack comes after the successful record of the payload
of the same frame, anything but a well-formed update frame under the cap causes none of them, and
every such frame with content reaches `on_change`. -/
theorem recorded_before_relay_before_ack (c : Chan ω) (envelopes : List (Json × Option Bytes)) :
    ∀ d ∈ deliveries Y K c envelopes, RecordedFirst Y K d :=
  forall_deliveries (recordedFirst_receive hw) c envelopes

end Recorded

section Example

open Reference

/-- A channel whose store is the list of what was recorded. -/
def listChannel : ChannelClass (List Bytes) where
  onLoad := some fun _ w => (.ok none, w)
  onChange := some fun _ update w => (.ok (), update :: w)
  broadcast _ _ w := (.ok (), w)
  transmit _ w := (.ok (), w)

def listChan : Chan (List Bytes) := ⟨some [97], []⟩

/-- An envelope with a frame and the id 1. -/
def envelope (bytes : Bytes) : Json :=
  .object [("update", .string (strictEncode64 bytes)), ("id", .integer 1)]

/-- An Update frame with one block. -/
def updateFrame : Bytes := (engine []).wrapUpdate (encodePieces [.block ⟨1, 0⟩])

/-- Such a frame is recorded, relayed as it came, and acked. -/
def updateDelivery : Delivery (List Bytes) :=
  ⟨listChan, envelope updateFrame, none, [.recorded (encodePieces [.block ⟨1, 0⟩]),
    .broadcast (strictEncode64 updateFrame), .ack (.integer 1)]⟩

lemma updateDelivery_mem :
    updateDelivery ∈ deliveries (engine []) listChannel listChan [(envelope updateFrame, none)] :=
  List.mem_cons_self

theorem recorded_before_relay_before_ack_updateFrame :
    RecordedFirst (engine []) listChannel updateDelivery :=
  recorded_before_relay_before_ack (wireFormat []) listChan _ _ updateDelivery_mem

end Example

/-! ## Relaying what was recorded -/

/-- A Yjs client reads a sync message of this kind from the frame.  It reads both tags as
variable-length integers, in any encoding. -/
def ClientReads (kind : ℕ) (encoded payload : Bytes) : Prop :=
  ∃ bytes rest, strictDecode64 encoded = some bytes ∧ ReadsSync bytes kind payload rest

/-- The relayed frame never reads as a SyncStep2, and reads as an Update of what was recorded. -/
structure RelayAgrees (relayed update : Bytes) : Prop where
  notStep2 : ∀ payload, ¬ClientReads 1 relayed payload
  update : ClientReads 2 relayed update

/-- The frame is an Update, or a SyncStep2 whose two tags take one byte each. -/
def TagsAreSeen (bytes : Bytes) : Prop :=
  (∃ payload, ReadsSync bytes 2 payload []) ∨ [0, 1] <+: bytes

section Relay

variable {bytes payload payload' rest rest' : Bytes} {kind kind' : ℕ}

lemma readsSync_unique (h : ReadsSync bytes kind payload rest)
    (h' : ReadsSync bytes kind' payload' rest') : kind = kind' ∧ payload = payload' := by
  obtain ⟨r₁, r₂, hr₁, hr₂, hbuf⟩ := h
  obtain ⟨r₁', r₂', hr₁', hr₂', hbuf'⟩ := h'
  obtain rfl : r₁ = r₁' := by simpa [hr₁] using hr₁'
  obtain ⟨rfl, rfl⟩ : kind = kind' ∧ r₂ = r₂' := by simpa [hr₂] using hr₂'
  obtain ⟨rfl, -⟩ : payload = payload' ∧ rest = rest' := by simpa [hbuf] using hbuf'
  exact ⟨rfl, rfl⟩

/-- A number whose encoding starts with the byte 1 is 1. -/
lemma readVarUint_of_first {n : ℕ} (h : readVarUint bytes = some (n, rest))
    (h₁ : bytes[0]? = some 1) : n = 1 := by
  cases bytes with
  | nil => simp at h₁
  | cons b bs =>
      obtain rfl : b = 1 := by simpa using h₁
      rcases readVarUint_cons_eq_some.1 h with ⟨-, hn, -⟩ | ⟨hge, -⟩
      · simpa using hn.symm
      · simp at hge

/-- In a sync message whose second byte is 1, both tags take one byte, and the second is 1. -/
lemma prefix_of_second (h : ReadsSync bytes kind payload rest) (h₁ : bytes[1]? = some 1) :
    [0, 1] <+: bytes ∧ kind = 1 := by
  obtain ⟨r₁, r₂, hr₁, hr₂, -⟩ := h
  cases bytes with
  | nil => simp at h₁
  | cons b bs =>
      rw [List.getElem?_cons_succ] at h₁
      rcases readVarUint_cons_eq_some.1 hr₁ with ⟨-, hb, rfl⟩ | ⟨hge, m, hm, hsum⟩
      · obtain rfl : b = 0 := UInt8.toNat_inj.1 hb
        refine ⟨?_, readVarUint_of_first hr₂ h₁⟩
        cases bs with
        | nil => simp at h₁
        | cons b' bs =>
            obtain rfl : b' = 1 := by simpa using h₁
            exact ⟨bs, rfl⟩
      · -- the first tag goes on in the second byte, so that byte is not 1
        have := readVarUint_of_first hm h₁
        omega

variable (hw : Y.WireFormat)
include hw

lemma isUpdateFrame_iff :
    IsUpdateFrame Y bytes payload ↔
      ReadsSync bytes 2 payload [] ∨ ReadsSync bytes 1 payload [] := by
  simp only [IsUpdateFrame, documentPayload_eq_some]
  constructor
  · rintro ⟨m, hm, rfl | rfl⟩
    · exact .inl (hw.decode_update.1 hm)
    · exact .inr (hw.decode_syncStep2.1 hm)
  · rintro (h | h)
    · exact ⟨_, hw.decode_update.2 h, .inl rfl⟩
    · exact ⟨_, hw.decode_syncStep2.2 h, .inr rfl⟩

lemma readsSync_wrapUpdate (update : Bytes) : ReadsSync (Y.wrapUpdate update) 2 update [] := by
  unfold wrapUpdate
  rw [hw.encode_update]
  exact ⟨writeVarUint 2 ++ writeBuf update, writeBuf update, by simp, by simp, by simp⟩

/-- For the frame of an update: relay and record agree exactly when the relay decision, which
looks at the second byte, sees the tag that the decoder read. -/
lemma relayAgrees_relayFrame {encoded update : Bytes}
    (hdecode : strictDecode64 encoded = some bytes) (hupdate : updateOf Y bytes = some update) :
    RelayAgrees (syncRelayFrame Y update encoded bytes) update ↔ TagsAreSeen bytes := by
  obtain ⟨hkind, hmerged⟩ := updateOf_eq_some.1 hupdate
  obtain ⟨payload, hpayload⟩ := classifyMessage_eq_two.1 hkind
  obtain ⟨rfl, -⟩ := payload_of_mergedDocUpdate hw hpayload hmerged
  unfold syncRelayFrame
  split
  · rename_i hsecond
    have hunseen : ¬[0, 1] <+: bytes := by
      rintro ⟨tail, rfl⟩
      exact hsecond rfl
    rcases (isUpdateFrame_iff hw).1 hpayload with h | h
    · refine iff_of_true ⟨fun p hp => ?_, bytes, [], hdecode, h⟩ (.inl ⟨_, h⟩)
      obtain ⟨bytes', rest, hdecode', hp⟩ := hp
      obtain rfl := Option.some.inj (hdecode.symm.trans hdecode')
      exact absurd (readsSync_unique h hp).1 (by decide)
    · -- a SyncStep2 that is relayed as it came
      refine iff_of_false (fun hagrees => ?_) ?_
      · exact hagrees.notStep2 _ ⟨bytes, [], hdecode, h⟩
      · rintro (⟨p, hp⟩ | hp)
        · exact absurd (readsSync_unique h hp).1 (by decide)
        · exact hunseen hp
  · rename_i hsecond
    have hsecond := not_not.1 hsecond
    have hprefix : [0, 1] <+: bytes := by
      rcases (isUpdateFrame_iff hw).1 hpayload with h | h
      · exact (prefix_of_second h hsecond).1
      · exact (prefix_of_second h hsecond).1
    have hwrap := readsSync_wrapUpdate hw update
    have hdecode' := strictDecode64_encode (Y.wrapUpdate update)
    refine iff_of_true ⟨fun p hp => ?_, _, [], hdecode', hwrap⟩ (.inr hprefix)
    obtain ⟨bytes', rest, hbytes', hp⟩ := hp
    obtain rfl := Option.some.inj (hdecode'.symm.trans hbytes')
    exact absurd (readsSync_unique hwrap hp).1 (by decide)

/-- **When recording and relaying agree.**  For every delivered frame of kind 2 that is relayed,
the relayed frame is an Update of exactly what was recorded if and only if the frame was an
Update, or a SyncStep2 whose two tags take one byte each. -/
theorem relay_agrees_iff (c : Chan ω) (envelopes : List (Json × Option Bytes)) :
    ∀ d ∈ deliveries Y K c envelopes, ∀ encoded bytes relayed,
      frameOf K.maxFrameBytes d.data = some (encoded, bytes) → Y.classifyMessage bytes = 2 →
      .broadcast relayed ∈ d.events →
        ∃ update, .recorded update ∈ d.events ∧
          (RelayAgrees relayed update ↔ TagsAreSeen bytes) := by
  refine forall_deliveries (fun c data key => ?_) c envelopes
  intro encoded bytes relayed hframe hkind hmem
  obtain ⟨es, htrace, hseg⟩ := segment_receive (Y := Y) (K := K) data key { state := c } trivial
  obtain rfl : _ = es := htrace
  have same : ∀ {encoded' bytes'}, frameOf K.maxFrameBytes data = some (encoded', bytes') →
      encoded = encoded' ∧ bytes = bytes' := by
    intro encoded' bytes' h
    simpa [hframe] using h
  generalize (syncReceive Y K data key { state := c }).2.trace = es at hseg hmem
  cases hseg with
  | quiet hquiet => simpa [Event.isQuiet] using hquiet _ hmem
  | awareness hframe' hkind' =>
      obtain ⟨rfl, rfl⟩ := same hframe'
      omega
  | failed => simp at hmem
  | relayed hframe' hupdate | acked hframe' hupdate =>
      obtain ⟨rfl, rfl⟩ := same hframe'
      obtain rfl : relayed = _ := by simpa using hmem
      exact ⟨_, by simp, relayAgrees_relayFrame hw (decode_of_frameOf hframe) hupdate⟩

end Relay

section Example

open Reference

/-- A SyncStep2 whose sync tag is written in two bytes. -/
def paddedStep2 : Bytes := [0, 0x81, 0] ++ writeBuf (encodePieces [.block ⟨1, 0⟩])

/-- The update in an ordinary frame is relayed as it was recorded. -/
theorem relay_agrees_updateFrame :
    ∃ update, .recorded update ∈ updateDelivery.events ∧
      (RelayAgrees (strictEncode64 updateFrame) update ↔ TagsAreSeen updateFrame) :=
  relay_agrees_iff (wireFormat []) listChan _ _ updateDelivery_mem _ _ _
    (show frameOf listChannel.maxFrameBytes (envelope updateFrame) =
      some (strictEncode64 updateFrame, updateFrame) from rfl) rfl (by simp [updateDelivery])

/-- A SyncStep2 with a padded tag is recorded as an update, and relayed to the peers as a
SyncStep2. -/
theorem relay_forwards_paddedStep2 :
    ∃ d ∈ deliveries (engine []) listChannel listChan [(envelope paddedStep2, none)],
      (engine []).classifyMessage paddedStep2 = 2 ∧
        .broadcast (strictEncode64 paddedStep2) ∈ d.events ∧
          .recorded (encodePieces [.block ⟨1, 0⟩]) ∈ d.events ∧
            ClientReads 1 (strictEncode64 paddedStep2) (encodePieces [.block ⟨1, 0⟩]) ∧
              ¬RelayAgrees (strictEncode64 paddedStep2) (encodePieces [.block ⟨1, 0⟩]) := by
  have hreads : ClientReads 1 (strictEncode64 paddedStep2) (encodePieces [.block ⟨1, 0⟩]) :=
    ⟨paddedStep2, [], strictDecode64_encode _, _, _, rfl, rfl, rfl⟩
  refine ⟨⟨listChan, envelope paddedStep2, none, [.recorded (encodePieces [.block ⟨1, 0⟩]),
    .broadcast (strictEncode64 paddedStep2), .ack (.integer 1)]⟩, List.mem_cons_self, rfl,
    by simp, by simp, hreads, fun h => h.notStep2 _ hreads⟩

end Example

end Yrby.Sync
