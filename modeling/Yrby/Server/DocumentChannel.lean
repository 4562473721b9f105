import Yrby.Server.Sync

/-!
# The shipped channel on two transports (`document_channel.rb`)

`Y::DocumentChannel` opens the document a signed grant verifies to.  Action Cable keeps the channel
instance, with the record it located at subscribe, for the whole subscription.  AnyCable builds an
instance for every command and keeps only the params and `authorized_document_key`, so a storage
hook locates the record again from the grant, which may have expired by then.

A transport is what it leaves of a channel between two commands.  `transports_agree` compares the
two over every sequence of frames and clock advances: they agree as long as the grant still
verifies when a frame reaches a storage hook.  `expired_grant_refuses_update` is a subscription
that AnyCable does not keep open past the expiry of its grant.

The located record is a value of an arbitrary type; nothing destroys it while the subscription is
open.
-/

namespace Yrby.Sync

open Wire Effect Yrs

/-! ## Two runs of the channel -/

variable {ω α : Type}

/-- From related worlds the hook returns the same and leaves related worlds. -/
def HookRespects (R : ω → ω → Prop) (f : Hook ω α) : Prop :=
  ∀ w w', R w w' → (f w).1 = (f w').1 ∧ R (f w).2 (f w').2

/-- Channels with the same key in related worlds. -/
def Chan.Related (R : ω → ω → Prop) (c c' : Chan ω) : Prop :=
  c.key = c'.key ∧ R c.world c'.world

/-- The hooks of a confirmed subscription that do not touch the storage. -/
structure HooksRespect (K : ChannelClass ω) (R : ω → ω → Prop) : Prop where
  onGap : ∀ hook ∈ K.onGap, ∀ key, HookRespects R (hook key)
  broadcast : ∀ key encoded, HookRespects R (K.broadcast key encoded)
  transmit : ∀ t, HookRespects R (K.transmit t)

def LoadRespects (K : ChannelClass ω) (R : ω → ω → Prop) : Prop :=
  ∀ hook ∈ K.onLoad, ∀ key, HookRespects R (hook key)

def ChangeRespects (K : ChannelClass ω) (R : ω → ω → Prop) : Prop :=
  ∀ hook ∈ K.onChange, ∀ key update, HookRespects R (hook key update)

variable {Y : Yrs} {K : ChannelClass ω} {R : ω → ω → Prop}

lemma respects_callHook {f : Hook ω α} (h : HookRespects R f) :
    Respects (Chan.Related R) (perform (callHook f) : Method ω α) :=
  Respects.perform fun _ _ hc => ⟨(h _ _ hc.2).1, hc.1, (h _ _ hc.2).2⟩

lemma respects_syncKey : Respects (Chan.Related R) (syncKey : Method ω Bytes) :=
  Respects.gets fun _ _ hc => congrArg (Option.getD · []) hc.1

lemma respects_orRaise (o : Option α) : Respects (Chan.Related R) (orRaise o : Method ω α) := by
  cases o with
  | none => exact Respects.raise
  | some a => exact Respects.pure

lemma respects_loadDoc (hload : LoadRespects K R) :
    Respects (Chan.Related R) (syncLoadDoc Y K) := by
  refine respects_syncKey.bind fun key => ?_
  split
  · exact Respects.raise
  · rename_i hook hhook
    exact (respects_callHook (hload hook hhook key)).bind fun state => respects_orRaise _

lemma respects_recordChange (hchange : ChangeRespects K R) (update : Bytes) :
    Respects (Chan.Related R) (syncRecordChange K update) := by
  refine respects_syncKey.bind fun key => ?_
  split
  · exact Respects.raise
  · rename_i hook hhook
    refine Respects.performNoting fun c c' hc => ?_
    obtain ⟨hresult, hworld⟩ := hchange hook hhook key update _ _ hc.2
    exact ⟨hresult, hc.1, hworld⟩

lemma respects_validate :
    Respects (Chan.Related R) (syncValidateRequiredHooks K : Method ω Unit) := by
  unfold syncValidateRequiredHooks
  split
  · exact Respects.pure
  · exact Respects.raise

lemma respects_validateKey : Respects (Chan.Related R) (syncValidateKey : Method ω Unit) := by
  refine (Respects.gets fun c c' hc => ?_).bind fun missing => ?_
  · rw [hc.1]
  · split
    · exact Respects.raise
    · exact Respects.pure

variable (hK : HooksRespect K R)
include hK

lemma respects_distribute (encoded : Bytes) :
    Respects (Chan.Related R) (syncDistribute K encoded) :=
  respects_syncKey.bind fun key => Respects.emit.bind fun _ =>
    respects_callHook (hK.broadcast key encoded)

lemma respects_transmit (bytes : Bytes) : Respects (Chan.Related R) (syncTransmit K bytes) :=
  Respects.emit.bind fun _ => respects_callHook (hK.transmit _)

lemma respects_observePending (doc : Y.Doc) :
    Respects (Chan.Related R) (syncObservePending Y K doc) := by
  unfold syncObservePending syncObserveGap
  split
  · refine respects_syncKey.bind fun key => Respects.emit.bind fun _ => ?_
    split
    · exact Respects.pure
    · rename_i hook hhook
      refine respects_callHook fun w w' hw => ?_
      obtain ⟨hresult, hworld⟩ := hK.onGap hook hhook key w w' hw
      unfold swallow
      rcases h : hook key w with ⟨r, v⟩
      rcases h' : hook key w' with ⟨r', v'⟩
      simp only [h, h'] at hresult hworld ⊢
      subst hresult
      cases r with
      | ok _ => exact ⟨rfl, hworld⟩
      | error e => exact ⟨rfl, hworld⟩
  · exact Respects.pure

lemma respects_sendAck (id : Option Json) (outcome : Outcome) :
    Respects (Chan.Related R) (syncSendAck K id outcome) := by
  unfold syncSendAck
  split
  · exact Respects.pure
  · exact Respects.pure
  · exact Respects.pure
  · exact Respects.emit.bind fun _ => respects_callHook (hK.transmit _)

/-- A frame consults a storage hook only if it is a SyncStep1, or an update that is recorded. -/
lemma respects_handleFrame {encoded bytes : Bytes}
    (hload : Y.classifyMessage bytes = 1 → LoadRespects K R)
    (hchange : (updateOf Y bytes).isSome → ChangeRespects K R) :
    Respects (Chan.Related R) (syncHandleFrame Y K encoded bytes) := by
  refine respects_validate.bind fun _ => respects_validateKey.bind fun _ => ?_
  split
  · rename_i hkind
    exact (respects_loadDoc (hload hkind)).bind fun doc => (respects_orRaise _).bind fun result =>
      (respects_transmit hK _).bind fun _ => (respects_observePending hK _).bind fun _ =>
        Respects.pure
  · rename_i hkind
    unfold syncTakeUpdate
    cases hmerged : Y.mergedDocUpdate bytes with
    | none => exact Respects.raise
    | some update =>
        cases update with
        | none => exact Respects.pure
        | some update =>
            have hupdate : updateOf Y bytes = some update := updateOf_eq_some.2 ⟨hkind, hmerged⟩
            refine (respects_recordChange (hchange ?_) update).bind fun _ =>
              (respects_distribute hK _).bind fun _ => Respects.pure
            rw [hupdate]
            rfl
  · exact (respects_distribute hK encoded).bind fun _ => Respects.pure
  · exact Respects.pure

/-- The envelope carries a frame that reaches a storage hook. -/
def ReachesStorage (Y : Yrs) (cap : Option ℕ) (data : Json) : Prop :=
  ∃ encoded bytes, frameOf cap data = some (encoded, bytes) ∧
    (Y.classifyMessage bytes = 1 ∨ (updateOf Y bytes).isSome)

/-- **Two runs of `sync_receive`.**  They agree if the storage hooks do, where it comes to them. -/
theorem respects_handleEnvelope {data : Json}
    (hstorage : ReachesStorage Y K.maxFrameBytes data → LoadRespects K R ∧ ChangeRespects K R) :
    Respects (Chan.Related R) (handleEnvelope Y K data) := by
  unfold handleEnvelope
  split
  · rename_i encoded bytes hframe
    refine (respects_handleFrame hK (fun h => ?_) fun h => ?_).bind fun outcome =>
      respects_sendAck hK _ outcome
    · exact (hstorage ⟨encoded, bytes, hframe, .inl h⟩).1
    · exact (hstorage ⟨encoded, bytes, hframe, .inr h⟩).2
  · split
    · exact Respects.emit
    · exact Respects.pure

lemma respects_subscribed (hload : LoadRespects K R) {key : Bytes}
    (hauthorized : HookRespects R (K.authorized key)) :
    Respects (Chan.Related R) (syncSubscribed Y K key) := by
  refine (Respects.modify fun _ _ hc => ⟨rfl, hc.2⟩).bind fun _ => respects_validate.bind fun _ =>
    (respects_callHook hauthorized).bind fun authorized => ?_
  split
  · refine Respects.emit.bind fun _ => Respects.bind ?_ fun _ =>
      (respects_loadDoc hload).bind fun doc => (respects_transmit hK _).bind fun _ =>
        (respects_observePending hK doc).bind fun _ => Respects.pure
    split
    · exact Respects.emit
    · exact Respects.pure
  · exact Respects.emit.bind fun _ => Respects.pure

end Yrby.Sync

namespace Yrby.DocumentChannel

open Wire Base64 Effect Yrs Sync

/-! ## The channel -/

variable {ρ ω α : Type}

/-- What the application and the transport provide.  `ρ` is the type of records, and the storage
functions are those of the record's document for an attribute. -/
structure App (ρ ω : Type) where
  /-- `GlobalID::Locator.locate_signed`: the grant, its purpose and the time.  `none` is also
  `ActiveRecord::RecordNotFound`. -/
  locateSigned : Option Bytes → Bytes → ℕ → Option ρ
  key : ρ → Bytes → Hook ω Bytes
  loadState : ρ → Bytes → Hook ω (Option Bytes)
  append : ρ → Bytes → Bytes → Hook ω Unit
  documentAuthorizer : Option (Option ρ → Bytes → Hook ω Bool) := none
  maxFrameBytes : Option ℕ := some (8 * 1024 * 1024)
  broadcast : Bytes → Bytes → Hook ω Unit
  transmit : Transmission → Hook ω Unit
  whispers : Bool := false

structure Params where
  grant : Option Bytes
  name : Bytes

/-- The instance variables of the channel, the clock, and the application. -/
structure Instance (ρ ω : Type) where
  /-- `@record` -/
  record : Option ρ := none
  authorizedDocumentKey : Option Bytes := none
  now : ℕ
  app : ω

/-- `Y::Collaborative.sgid_purpose`: `yrby/` and the name. -/
def sgidPurpose (name : Bytes) : Bytes := [121, 114, 98, 121, 47] ++ name

/-- Call a function of the application from the channel. -/
def onApp (f : Hook ω α) : Hook (Instance ρ ω) α := fun s =>
  ((f s.app).1, { s with app := (f s.app).2 })

section Channel

variable (Y : Yrs) (A : App ρ ω) (params : Params)

/-- `Y::Collaborative.locate` -/
def locate (now : ℕ) : Option ρ := A.locateSigned params.grant (sgidPurpose params.name) now

/-- `locate_record` -/
def locateRecord : Hook (Instance ρ ω) (Option ρ) := fun s =>
  (.ok (locate A params s.now), { s with record := locate A params s.now })

/-- `document`: the record whose document it is, or nil. -/
def document : Hook (Instance ρ ω) (Option ρ) := fun s =>
  match s.record with
  | some record => (.ok (some record), s)
  | none => locateRecord A params s

/-- Call a method of `document`, which on nil is a NoMethodError. -/
def onDocument (f : ρ → Hook ω α) : Hook (Instance ρ ω) α := fun s =>
  match document A params s with
  | (.ok (some record), s) => onApp (f record) s
  | (.ok none, s) => (.error .standard, s)
  | (.error e, s) => (.error e, s)

/-- `authorized?` -/
def authorized : Hook (Instance ρ ω) Bool := fun s =>
  match A.documentAuthorizer with
  | none => (.ok true, s)
  | some authorizer => onApp (authorizer s.record params.name) s

/-- The class `Y::DocumentChannel`, as the concern sees it. -/
def channelClass : ChannelClass (Instance ρ ω) where
  onLoad := some fun _ => onDocument A params fun record => A.loadState record params.name
  onChange := some fun _ update =>
    onDocument A params fun record => A.append record params.name update
  maxFrameBytes := A.maxFrameBytes
  authorized _ := authorized A params
  broadcast key encoded := onApp (A.broadcast key encoded)
  transmit t := onApp (A.transmit t)
  whispers := A.whispers

/-- `reject_document_subscription` -/
def rejectDocumentSubscription : Method (Instance ρ ω) Unit := emit .reject

/-- `subscribed`, once the grant has located a record. -/
def openDocument : Method (Instance ρ ω) Unit := do
  let key ← perform (callHook (onDocument A params fun record => A.key record params.name))
  if ← syncSubscribed Y (channelClass A params) key then
    modify fun c => { c with world := { c.world with authorizedDocumentKey := some key } }
  else pure ()

/-- `subscribed` -/
def subscribed : Method (Instance ρ ω) Unit :=
  onError RubyError.isStandard rejectDocumentSubscription do
    match ← perform (callHook (locateRecord A params)) with
    | none => emit .reject
    | some _ => openDocument Y A params

/-- `receive` -/
def receive (data : Json) : Method (Instance ρ ω) Unit := do
  match ← gets fun c => c.world.authorizedDocumentKey with
  | none => rejectDocumentSubscription
  | some key => syncReceive Y (channelClass A params) data (some key)

/-! ## Transports -/

/-- What a transport leaves of a channel for the next command. -/
abbrev Transport (ρ ω : Type) := Chan (Instance ρ ω) → Chan (Instance ρ ω)

/-- The instance stays. -/
def actionCable : Transport ρ ω := id

/-- A new instance, with the declared state of the last one. -/
def anyCable : Transport ρ ω := fun c => { key := none, world := { c.world with record := none } }

inductive Command
  | receive (data : Json)
  | advance (seconds : ℕ)

/-- How a frame came back, and what it caused. -/
structure Reply where
  result : Except RubyError Unit
  events : List Event

/-- Let the clock advance. -/
def advance (seconds : ℕ) (c : Chan (Instance ρ ω)) : Chan (Instance ρ ω) :=
  { c with world := { c.world with now := c.world.now + seconds } }

/-- Serve a subscription: the replies, one to a frame, and the channel that is left. -/
def serve (T : Transport ρ ω) :
    Chan (Instance ρ ω) → List Command → List Reply × Chan (Instance ρ ω)
  | c, [] => ([], c)
  | c, .advance seconds :: commands => serve T (advance seconds c) commands
  | c, .receive data :: commands =>
      let reply := receive Y A params data { state := T c }
      let rest := serve T reply.2.state commands
      (⟨reply.1, reply.2.trace⟩ :: rest.1, rest.2)

/-- The state a confirmed subscription starts from: `subscribed` returned on a new instance and
did not reject. -/
def IsConfirmed (c : Chan (Instance ρ ω)) : Prop :=
  ∃ (now : ℕ) (app : ω) (events : List Event), .reject ∉ events ∧
    subscribed Y A params { state := { world := { now, app } } } = (.ok (), ⟨c, events⟩)

/-- A grant locates one record, as long as it locates any. -/
def App.LocatesOne (A : App ρ ω) : Prop :=
  ∀ grant purpose now later record record', A.locateSigned grant purpose now = some record →
    A.locateSigned grant purpose later = some record' → record' = record

/-- Whenever a frame reaches a storage hook, the grant still verifies. -/
def VerifiesAtStorage : ℕ → List Command → Prop
  | _, [] => True
  | now, .advance seconds :: commands => VerifiesAtStorage (now + seconds) commands
  | now, .receive data :: commands =>
      (ReachesStorage Y A.maxFrameBytes data → (locate A params now).isSome) ∧
        VerifiesAtStorage now commands

end Channel

/-! ## The transports agree -/

variable {Y : Yrs} {A : App ρ ω} {params : Params} {R : Instance ρ ω → Instance ρ ω → Prop}
  {record : ρ} {now : ℕ}

/-- Related instances see one application, and stay related whatever happens to it. -/
def SharesApp (R : Instance ρ ω → Instance ρ ω → Prop) : Prop :=
  ∀ w w', R w w' → w'.app = w.app ∧ ∀ app, R { w with app } { w' with app }

lemma hookRespects_onApp (hR : SharesApp R) (f : Hook ω α) : HookRespects R (onApp f) := by
  intro w w' hw
  obtain ⟨happ, hkeep⟩ := hR w w' hw
  unfold onApp
  rw [happ]
  exact ⟨rfl, hkeep _⟩

lemma hooksRespect (hR : SharesApp R) : HooksRespect (channelClass A params) R where
  onGap _ h := by simp [channelClass] at h
  broadcast _ _ := hookRespects_onApp hR _
  transmit _ := hookRespects_onApp hR _

/-- The same instance, with the record that was located at this time. -/
def Located (record : ρ) (now : ℕ) (w w' : Instance ρ ω) : Prop :=
  w' = w ∧ w.record = some record ∧ w.now = now

lemma sharesApp_located : SharesApp (Located record now : Instance ρ ω → _) := by
  rintro w _ ⟨rfl, hrecord, hnow⟩
  exact ⟨rfl, fun _ => ⟨rfl, hrecord, hnow⟩⟩

/-- The instance that stays, and one that was rebuilt and may have located the record again. -/
structure Rebuilt (record : ρ) (now : ℕ) (w w' : Instance ρ ω) : Prop where
  kept : w.record = some record
  again : w'.record = none ∨ w'.record = some record
  key : w'.authorizedDocumentKey = w.authorizedDocumentKey
  now_left : w.now = now
  now_right : w'.now = now
  app : w'.app = w.app

lemma sharesApp_rebuilt : SharesApp (Rebuilt record now : Instance ρ ω → _) :=
  fun _ _ h => ⟨h.app, fun _ => ⟨h.kept, h.again, h.key, h.now_left, h.now_right, rfl⟩⟩

lemma onDocument_of_record {w : Instance ρ ω} (h : w.record = some record) (f : ρ → Hook ω α) :
    onDocument A params f w = onApp (f record) w := by
  simp [onDocument, document, h]

lemma hookRespects_located (f : ρ → Hook ω α) :
    HookRespects (Located record now) (onDocument A params f) := by
  rintro w w' ⟨rfl, hw⟩
  rw [onDocument_of_record hw.1]
  exact hookRespects_onApp sharesApp_located _ _ _ ⟨rfl, hw⟩

/-- The rebuilt instance finds the document as long as the grant verifies. -/
lemma hookRespects_rebuilt (hlocate : locate A params now = some record) (f : ρ → Hook ω α) :
    HookRespects (Rebuilt record now) (onDocument A params f) := by
  intro w w' hw
  rw [onDocument_of_record hw.kept]
  rcases hw.again with hnone | hsome
  · -- located again, at the same time as in the hypothesis
    have heq : onDocument A params f w' = onApp (f record) { w' with record := some record } := by
      simp [onDocument, document, hnone, locateRecord, hw.now_right, hlocate]
    rw [heq]
    refine hookRespects_onApp sharesApp_rebuilt _ _ _ ?_
    exact { hw with again := .inr rfl }
  · rw [onDocument_of_record hsome]
    exact hookRespects_onApp sharesApp_rebuilt _ _ _ hw

lemma hookRespects_authorized : HookRespects (Located record now) (authorized A params) := by
  rintro w w' ⟨rfl, hw⟩
  unfold authorized
  split
  · exact ⟨rfl, rfl, hw⟩
  · exact hookRespects_onApp sharesApp_located _ _ _ ⟨rfl, hw⟩

lemma respects_openDocument :
    Respects (Chan.Related (Located record now)) (openDocument Y A params) := by
  refine (respects_callHook (hookRespects_located _)).bind fun key => Respects.bind ?_ fun _ => ?_
  · refine respects_subscribed (hooksRespect sharesApp_located) ?_ ?_
    · rintro hook ⟨⟩ key
      exact hookRespects_located _
    · exact hookRespects_authorized
  · split
    · refine Respects.modify fun c c' hc => ⟨hc.1, ?_, hc.2.2⟩
      rw [hc.2.1]
    · exact Respects.pure

/-- A confirmed subscription holds the record its grant located. -/
lemma exists_record_of_isConfirmed {c : Chan (Instance ρ ω)} (h : IsConfirmed Y A params c) :
    ∃ record, c.world.record = some record ∧ locate A params c.world.now = some record := by
  obtain ⟨now, app, events, hreject, h⟩ := h
  have hbody := of_onError_ok h
  rw [bind_of_ok (show perform (callHook (locateRecord A params)) _ = (.ok (locate A params now), _)
    from rfl)] at hbody
  cases hlocate : locate A params now with
  | none =>
      rw [hlocate] at hbody
      obtain rfl : [.reject] = events := congrArg (fun r => r.2.trace) hbody
      simp at hreject
  | some record =>
      rw [hlocate] at hbody
      let opened : Traced (Chan (Instance ρ ω)) Event :=
        { state := (callHook (locateRecord A params) { world := { now, app } }).2 }
      have hopened : Chan.Related (Located record now) opened.state opened.state :=
        ⟨rfl, rfl, hlocate, rfl⟩
      have hrespects : Respects (Chan.Related (Located record now)) (openDocument Y A params) :=
        respects_openDocument
      have hlocated := (hrespects opened opened hopened rfl).2.2.2
      rw [show openDocument Y A params opened = _ from hbody] at hlocated
      obtain ⟨-, hrecord, rfl⟩ := hlocated
      exact ⟨record, hrecord, hlocate⟩

/-- One frame: the two instances answer it alike. -/
lemma receive_agrees {c c' : Chan (Instance ρ ω)} {data : Json}
    (hc : Rebuilt record now c.world c'.world)
    (hlocate : ReachesStorage Y A.maxFrameBytes data → locate A params now = some record) :
    let reply := receive Y A params data { state := c }
    let reply' := receive Y A params data { state := c' }
    reply.1 = reply'.1 ∧ reply.2.trace = reply'.2.trace ∧
      Rebuilt record now reply.2.state.world reply'.2.state.world := by
  have hkey := hc.key
  unfold receive
  rw [bind_of_ok (show gets _ _ = (.ok c.world.authorizedDocumentKey, _) from rfl),
    bind_of_ok (show gets _ _ = (.ok c'.world.authorizedDocumentKey, _) from rfl), hkey]
  cases c.world.authorizedDocumentKey with
  | none => exact ⟨rfl, rfl, hc⟩
  | some key =>
      have hrespects : Respects (Chan.Related (Rebuilt record now))
          (handleEnvelope Y (channelClass A params) data) := by
        refine respects_handleEnvelope (hooksRespect sharesApp_rebuilt) fun hstorage => ⟨?_, ?_⟩
        · rintro hook ⟨⟩ _
          exact hookRespects_rebuilt (hlocate hstorage) _
        · rintro hook ⟨⟩ _ update
          exact hookRespects_rebuilt (hlocate hstorage) _
      simp only [syncReceive_eq]
      obtain ⟨hresult, htrace, hstate⟩ := hrespects ⟨{ c with key := some key }, []⟩
        ⟨{ c' with key := some key }, []⟩ ⟨rfl, hc⟩ rfl
      exact ⟨hresult, htrace, hstate.2⟩

/-- Every sequence of commands: the channel that stays and the one that is rebuilt. -/
lemma serve_agrees {c c' : Chan (Instance ρ ω)} {commands : List Command}
    (hone : A.LocatesOne) (hlocated : locate A params now = some record) :
    Rebuilt record c.world.now c.world c'.world →
      VerifiesAtStorage Y A params c.world.now commands →
        (serve Y A params anyCable c' commands).1 = (serve Y A params actionCable c commands).1 ∧
          (serve Y A params anyCable c' commands).2.world.app =
            (serve Y A params actionCable c commands).2.world.app := by
  induction commands generalizing c c' with
  | nil => exact fun hc _ => ⟨rfl, hc.app⟩
  | cons command commands ih =>
      intro hc hverifies
      cases command with
      | advance seconds =>
          have hadvance : Rebuilt record (advance seconds c).world.now (advance seconds c).world
              (advance seconds c').world :=
            { hc with
              now_left := rfl
              now_right := congrArg (· + seconds) hc.now_right }
          exact ih hadvance hverifies
      | receive data =>
          obtain ⟨hstorage, hverifies⟩ := hverifies
          have hrebuilt : Rebuilt record c.world.now c.world (anyCable c').world :=
            { hc with again := .inl rfl }
          have hlocate : ReachesStorage Y A.maxFrameBytes data →
              locate A params c.world.now = some record := by
            intro h
            obtain ⟨record', hrecord'⟩ := Option.isSome_iff_exists.1 (hstorage h)
            rw [hrecord', hone _ _ _ _ _ _ hlocated hrecord']
          obtain ⟨hresult, htrace, hnext⟩ := receive_agrees hrebuilt hlocate
          have hnow := hnext.now_left
          obtain ⟨hrest, happ⟩ := ih (hnow.symm ▸ hnext) (hnow.symm ▸ hverifies)
          refine ⟨?_, happ⟩
          change Reply.mk _ _ :: _ = Reply.mk _ _ :: _
          rw [hrest, ← hresult, ← htrace]
          rfl

/-- **Transport independence.**  For every confirmed subscription and every sequence of frames and
clock advances in which the grant verifies whenever a frame reaches the storage, both transports
give the same replies, frame by frame, and leave the application in the same state. -/
theorem transports_agree (hone : A.LocatesOne) {c : Chan (Instance ρ ω)}
    (hc : IsConfirmed Y A params c) {commands : List Command}
    (hverifies : VerifiesAtStorage Y A params c.world.now commands) :
    (serve Y A params anyCable c commands).1 = (serve Y A params actionCable c commands).1 ∧
      (serve Y A params anyCable c commands).2.world.app =
        (serve Y A params actionCable c commands).2.world.app := by
  obtain ⟨record, hrecord, hlocate⟩ := exists_record_of_isConfirmed hc
  exact serve_agrees hone hlocate ⟨hrecord, .inr hrecord, rfl, rfl, rfl, rfl⟩ hverifies

section Example

open Reference

/-- An application whose one grant expires after a minute, and whose store is a list. -/
def minuteApp : App Unit (List Bytes) where
  locateSigned grant purpose now :=
    if grant = some [1] ∧ purpose = sgidPurpose [98] ∧ now < 60 then some () else none
  key _ _ w := (.ok [107], w)
  loadState _ _ w := (.ok none, w)
  append _ _ update w := (.ok (), update :: w)
  broadcast _ _ w := (.ok (), w)
  transmit _ w := (.ok (), w)

def minuteParams : Params := ⟨some [1], [98]⟩

/-- The channel after its `subscribed`. -/
def minuteChannel : Chan (Instance Unit (List Bytes)) :=
  ⟨some [107], { record := some (), authorizedDocumentKey := some [107], now := 0, app := [] }⟩

lemma isConfirmed_minuteChannel : IsConfirmed (engine []) minuteApp minuteParams minuteChannel :=
  ⟨0, [], [.streamFrom (streamName [107]), .transmit (strictEncode64 [0, 0, 1, 0])], by simp, rfl⟩

lemma locatesOne_minuteApp : minuteApp.LocatesOne :=
  fun _ _ _ _ _ _ _ _ => rfl

/-- An edit within the minute. -/
theorem transports_agree_minuteChannel :
    let commands := [.advance 30, .receive (envelope updateFrame), .advance 60]
    (serve (engine []) minuteApp minuteParams anyCable minuteChannel commands).1 =
        (serve (engine []) minuteApp minuteParams actionCable minuteChannel commands).1 ∧
      (serve (engine []) minuteApp minuteParams anyCable minuteChannel commands).2.world.app =
        (serve (engine []) minuteApp minuteParams actionCable minuteChannel commands).2.world.app :=
  transports_agree locatesOne_minuteApp isConfirmed_minuteChannel ⟨fun _ => rfl, trivial⟩

/-- An edit after the minute: Action Cable records, relays and acks it, AnyCable raises and records
nothing. -/
theorem expired_grant_refuses_update :
    IsConfirmed (engine []) minuteApp minuteParams minuteChannel ∧
      let commands := [.advance 120, .receive (envelope updateFrame)]
      (serve (engine []) minuteApp minuteParams actionCable minuteChannel commands).1 =
          [⟨.ok (), updateDelivery.events⟩] ∧
        (serve (engine []) minuteApp minuteParams anyCable minuteChannel commands).1 =
          [⟨.error .standard, [.recordFailed (encodePieces [.block ⟨1, 0⟩])]⟩] ∧
        (serve (engine []) minuteApp minuteParams actionCable minuteChannel commands).2.world.app ≠
          (serve (engine []) minuteApp minuteParams anyCable minuteChannel commands).2.world.app :=
  ⟨isConfirmed_minuteChannel, rfl, rfl, by decide⟩

end Example

end Yrby.DocumentChannel
