import Yrby.Server.Loadable

/-!
# The join handshake

When a client joins, each side sends the other a SyncStep1 with its state vector and answers the
other's with a SyncStep2.  A state vector says nothing about parked content or about blocks past a
hole, and both sides go on changing in between: other clients' updates are recorded, compacted and
loaded by any number of processes, and the client's document takes local edits and relayed updates.

The server side here is the store of `Store`, whose processes run statement by statement, together
with what `sync_subscribed` and `sync_handle_frame` do with a loaded state (`transmit_subscribed`,
`transmit_answerStep1`).  The client's document is a document of the same engine.  The two sides
exchange frames over a network that keeps every frame forever and delivers it any number of times,
in any order, or never.

`handshake_converges` is what one exchange achieves in every run: what the client held is in the
store once its answer is recorded, what the store held is in the client once the server's answer is
applied, and every gap of the store that the client could fill is closed at the next load.
-/

namespace Yrby.Handshake

open Wire Base64 Effect Transition Interleaving Yrs Sync

/-! ## What the channel transmits -/

section Channel

variable (Y : Yrs)

/-- The opening frame of `sync_subscribed`, from what `on_load` returned. -/
def greeting (state : Option Bytes) : Option Bytes :=
  (Y.applyOptional Y.new state).map Y.syncStep1

/-- The answer of `sync_handle_frame` to a SyncStep1, from what `on_load` returned. -/
def answer (state : Option Bytes) (frame : Bytes) : Option Bytes :=
  (Y.applyOptional Y.new state).bind fun doc =>
    (Y.handleSyncMessage doc frame).map fun result => result.2.2.2

variable {Y} {ω : Type} {K : ChannelClass ω} {hook : Bytes → Hook ω (Option Bytes)} {key : Bytes}

/-- The document was built from a state that the hook returned. -/
def LoadedBy (hook : Bytes → Hook ω (Option Bytes)) (key : Bytes) (doc : Y.Doc) : Prop :=
  ∃ w state, (hook key w).1 = .ok state ∧ Y.applyOptional Y.new state = some doc

/-- The method keeps the key and transmits only frames that meet `ok`. -/
def Transmits (key : Bytes) (x : Method ω α) (ok : Bytes → Prop) : Prop :=
  Triple (fun c => c.key = some key) x fun _ c es =>
    c.key = some key ∧ ∀ encoded, .transmit encoded ∈ es → ok encoded

variable {α β : Type} {x : Method ω α} {f : α → Method ω β} {ok : Bytes → Prop}

lemma Transmits.bind (hx : Transmits key x ok) (hf : ∀ a, Transmits key (f a) ok) :
    Transmits key (x >>= f) ok := by
  refine Triple.bind hx (fun a es c hc => ?_) fun _ _ _ h => h
  obtain ⟨es', htrace, hkey, hes'⟩ := hf a c hc.1
  refine ⟨es', htrace, hkey, fun encoded he => ?_⟩
  rcases List.mem_append.1 he with he | he
  · exact hc.2 encoded he
  · exact hes' encoded he

lemma transmits_pure {a : α} : Transmits key (pure a : Method ω α) ok :=
  Triple.pure fun _ h => ⟨h, by simp⟩

lemma transmits_raise {e : RubyError} : Transmits key (raise e : Method ω α) ok :=
  Triple.raise fun _ h => ⟨h, by simp⟩

lemma transmits_emit {e : Event} (he : ∀ encoded, e ≠ .transmit encoded) :
    Transmits key (emit e : Method ω Unit) ok :=
  Triple.emit fun _ h =>
    ⟨h, fun encoded hmem => absurd (List.mem_singleton.1 hmem).symm (he encoded)⟩

lemma transmits_perform (g : Hook ω α) : Transmits key (perform (callHook g)) ok :=
  Triple.perform fun _ h => ⟨h, by simp⟩

lemma transmits_transmit {bytes : Bytes} (h : ok (strictEncode64 bytes)) :
    Transmits key (syncTransmit K bytes) ok := by
  refine Triple.emit_bind (Triple.perform fun _ hkey => ⟨hkey, fun encoded hmem => ?_⟩)
  obtain rfl := Event.transmit.inj (List.mem_singleton.1 hmem)
  exact h

lemma transmits_observePending (doc : Y.Doc) :
    Transmits key (syncObservePending Y K doc) ok := by
  unfold syncObservePending syncObserveGap
  split
  · refine Transmits.bind (Triple.gets fun _ h => ⟨h, by simp⟩) fun _ =>
      (transmits_emit (by simp)).bind fun _ => ?_
    split
    · exact transmits_pure
    · exact transmits_perform _
  · exact transmits_pure

/-- What is done with the loaded document may rely on where it came from. -/
lemma transmits_loadDoc (hhook : K.onLoad = some hook) {f : Y.Doc → Method ω β}
    (hf : ∀ doc, LoadedBy hook key doc → Transmits key (f doc) ok) :
    Transmits key (syncLoadDoc Y K >>= f) ok := by
  have hload : Triple (fun c : Chan ω => c.key = some key) (syncLoadDoc Y K) fun r c es =>
      (es = [] ∧ c.key = some key) ∧ ∀ doc, r = .ok doc → LoadedBy (Y := Y) hook key doc := by
    refine Triple.gets_bind fun k => ?_
    rw [hhook]
    refine Triple.bind (Q := fun r c es => (es = [] ∧ c.key = some key) ∧
      ∀ state, r = .ok state → ∃ w, (hook key w).1 = .ok state) ?_ (fun state es => ?_)
      fun e _ es h => ⟨h.1, by simp⟩
    · refine Triple.perform ?_
      rintro c ⟨hkey, rfl⟩
      refine ⟨⟨rfl, hkey⟩, fun state hstate => ⟨c.world, ?_⟩⟩
      simpa [callHook, hkey] using hstate
    · cases hdoc : Y.applyOptional Y.new state with
      | none => exact Triple.raise fun _ h => ⟨by simpa using h.1, by simp⟩
      | some doc =>
          refine Triple.pure fun _ h => ⟨by simpa using h.1, fun doc' hdoc' => ?_⟩
          obtain rfl := Except.ok.inj hdoc'
          obtain ⟨w, hw⟩ := h.2 state rfl
          exact ⟨w, state, hw, hdoc⟩
  refine hload.bind (fun doc es => ?_) fun e _ es h => ⟨h.1.2, by simp [h.1.1]⟩
  refine Triple.of_fact (p := es = [] ∧ LoadedBy hook key doc)
    (fun _ h => ⟨h.1.1, h.2 doc rfl⟩) ?_
  rintro ⟨rfl, hdoc⟩
  exact (hf doc hdoc).mono (fun _ h => h.1.2) fun _ _ _ h => h

/-- **The opening handshake.**  `sync_subscribed` transmits the greeting for a state that
`on_load` returned, and nothing else. -/
theorem transmit_subscribed (hhook : K.onLoad = some hook) :
    Triple (fun _ => True) (syncSubscribed Y K key) fun _ _ es =>
      ∀ encoded, .transmit encoded ∈ es → ∃ w state frame, (hook key w).1 = .ok state ∧
        greeting Y state = some frame ∧ encoded = strictEncode64 frame := by
  have hopen : ∀ doc, LoadedBy hook key doc →
      Transmits key (syncTransmit K (Y.syncStep1 doc)) fun encoded =>
        ∃ w state frame, (hook key w).1 = .ok state ∧
          greeting Y state = some frame ∧ encoded = strictEncode64 frame := by
    rintro doc ⟨w, state, hw, hdoc⟩
    exact transmits_transmit ⟨w, state, Y.syncStep1 doc, hw, by simp [greeting, hdoc], rfl⟩
  have hrest : Transmits key (do
      syncValidateRequiredHooks K
      if ← perform (callHook (K.authorized key)) then do
        emit (.streamFrom (streamName key))
        (if K.whispers then emit (.streamFrom (streamName key ++ ":awareness".toUTF8.toList))
          else pure ())
        let doc ← syncLoadDoc Y K
        syncTransmit K (Y.syncStep1 doc)
        syncObservePending Y K doc
        pure true
      else do
        emit .reject
        pure false) fun encoded => ∃ w state frame, (hook key w).1 = .ok state ∧
          greeting Y state = some frame ∧ encoded = strictEncode64 frame := by
    refine Transmits.bind ?_ fun _ => (transmits_perform _).bind fun authorized => ?_
    · exact silent_validate.mono (fun _ h => h) fun _ _ es h => ⟨h.2, by simp [h.1]⟩
    · split
      · refine (transmits_emit (by simp)).bind fun _ => Transmits.bind ?_ fun _ =>
          transmits_loadDoc hhook fun doc hdoc => (hopen doc hdoc).bind fun _ =>
            (transmits_observePending doc).bind fun _ => transmits_pure
        split
        · exact transmits_emit (by simp)
        · exact transmits_pure
      · exact (transmits_emit (by simp)).bind fun _ => transmits_pure
  exact Triple.modify_bind (hrest.mono (fun _ h => h) fun _ _ _ h => h.2) fun _ _ => rfl

/-- **The answer to a SyncStep1.**  `sync_handle_frame` transmits the answer for a state that
`on_load` returned, and nothing else. -/
theorem transmit_answerStep1 (hhook : K.onLoad = some hook) (frame : Bytes) :
    Triple (fun c => c.key = some key) (syncAnswerStep1 Y K frame) fun _ _ es =>
      ∀ encoded, .transmit encoded ∈ es → ∃ w state reply, (hook key w).1 = .ok state ∧
        answer Y state frame = some reply ∧ encoded = strictEncode64 reply := by
  refine Triple.mono (transmits_loadDoc hhook fun doc hdoc => ?_) (fun _ h => h) fun _ _ _ h => h.2
  obtain ⟨w, state, hw, hdoc⟩ := hdoc
  cases hresult : Y.handleSyncMessage doc frame with
  | none => exact transmits_raise
  | some result =>
      have hreply : answer Y state frame = some result.2.2.2 := by simp [answer, hdoc, hresult]
      exact (transmits_transmit ⟨w, state, _, hw, hreply, rfl⟩).bind fun _ =>
        (transmits_observePending _).bind fun _ => transmits_pure

end Channel

/-! ## Both sides and the network -/

/-- A client's answer to the server's SyncStep1: the update it carries, the document it was made
from, and the log of the store at that time. -/
structure Answer (Y : Yrs) where
  update : Bytes
  doc : Y.Doc
  log : List (ℕ × Bytes)

/-- The store, the client's document and the frames sent so far.  The last three fields are
history: the client's answers, the server's answers with the log at the beginning of the load they
were made from, and the frames whose update the client has applied. -/
structure State (Y : Yrs) where
  store : Store.Cfg := Store.init
  client : Y.Doc
  toServer : List Bytes := []
  toClient : List Bytes := []
  answers : List (Answer Y) := []
  served : List (Bytes × List (ℕ × Bytes)) := []
  applied : List Bytes := []

inductive Action
  /-- A statement of any process, for this client or for others. -/
  | store (p : ℕ) (a : Store.Action)
  /-- The subscription is confirmed, after the process has loaded the document. -/
  | greet (p : ℕ)
  /-- A SyncStep1 of the client is answered, after the process has loaded the document. -/
  | answer (p : ℕ) (frame : Bytes)
  /-- An update frame of the client is recorded: the process calls `append`. -/
  | record (p : ℕ) (frame : Bytes)
  /-- The client sends its SyncStep1. -/
  | resume
  /-- The client handles a frame of the server. -/
  | receive (frame : Bytes)
  /-- Anything else that changes the client's document, such as an edit. -/
  | change (update : Bytes)

section Steps

variable (Y : Yrs) (compactEvery : ℕ)

/-- The client applies the update of a frame; an update that yrs refuses is reported and changes
nothing. -/
def applyFrame (s : State Y) (frame update : Bytes) : State Y :=
  match Y.applyBytes s.client update with
  | some client => { s with client, applied := frame :: s.applied }
  | none => s

/-- The client reads a frame. -/
def receiveFrame (s : State Y) (frame : Bytes) : State Y :=
  match Y.decodeMessage frame with
  | .ok (.sync (.syncStep1 sv), []) =>
      let update := Y.encodeStateAsUpdate s.client sv
      { s with
        toServer := Y.encodeMessage (.sync (.syncStep2 update)) :: s.toServer
        answers := ⟨update, s.client, s.store.shared.log⟩ :: s.answers }
  | .ok (.sync (.syncStep2 update), []) | .ok (.sync (.update update), []) =>
      applyFrame Y s frame update
  | _ => s

/-- A frame is looked for by comparing bytes. -/
local instance lawfulBytes : LawfulBEq Bytes := inferInstance

def step (s : State Y) : Action → Option (State Y)
  | .store p a =>
      ((Store.system Y compactEvery).act s.store (p, a)).map fun store => { s with store }
  | .greet p =>
      match s.store.locals p with
      | .loaded _ result =>
          (greeting Y result).map fun frame => { s with toClient := frame :: s.toClient }
      | _ => none
  | .answer p frame =>
      match s.store.locals p with
      | .loaded seen result =>
          if frame ∈ s.toServer ∧ Y.classifyMessage frame = 1 then
            (answer Y result frame).map fun reply =>
              { s with toClient := reply :: s.toClient, served := (reply, seen) :: s.served }
          else none
      | _ => none
  | .record p frame =>
      if frame ∈ s.toServer then
        (updateOf Y frame).bind fun update =>
          ((Store.system Y compactEvery).act s.store (p, .append update)).map fun store =>
            { s with store }
      else none
  | .resume => some { s with toServer := Y.syncStep1 s.client :: s.toServer }
  | .receive frame => if frame ∈ s.toClient then some (receiveFrame Y s frame) else none
  | .change update => some { s with client := (Y.applyBytes s.client update).getD s.client }

end Steps

/-! ## What an encoding leaves out -/

section Encoding

variable {Y : Yrs} {needs : Piece → Piece → Prop} {refused : Piece → Prop}

/-- The blocks below a state vector are in `S`. -/
def Below (sv : StateVector) (S : Set Piece) : Prop :=
  ∀ client clock, clock < sv.get client → Piece.block ⟨client, clock⟩ ∈ S

lemma Below.mono {sv : StateVector} {S T : Set Piece} (h : Below sv S) (hST : S ⊆ T) :
    Below sv T :=
  fun client clock hlt => hST (h client clock hlt)

variable (hY : Y.Crdt needs refused)
include hY

/-- A document has what its state vector lists. -/
lemma below_stateVector (d : Y.Doc) : Below (Y.stateVector d) (Y.held d) :=
  fun _ _ hlt => integrated_subset_held (hY.stateVector_lt hlt)

/-- What an encoding against a state vector leaves out, whoever sent the state vector has. -/
lemma held_subset_encode {d : Y.Doc} {sv : StateVector} {S : Set Piece} (h : Below sv S) :
    Y.held d ⊆ Y.contentOf (Y.encodeStateAsUpdate d sv) ∪ S := by
  rw [hY.contentOf_encode]
  rintro a (ha | ha)
  · by_cases hbeyond : Beyond sv a
    · exact .inl (.inl ⟨ha, hbeyond⟩)
    · -- only a block can be below a state vector
      cases a with
      | block id => exact .inr (h id.client id.clock (not_le.1 hbeyond))
      | deletion id => exact absurd trivial hbeyond
  · exact .inl (.inr ha)

end Encoding

/-! ## The invariant -/

section Invariant

variable (Y : Yrs) (needs : Piece → Piece → Prop) (refused : Piece → Prop)

/-- A SyncStep1 lists only what is in `S`. -/
def ListsOnly (S : Set Piece) (frame : Bytes) : Prop :=
  ∀ sv, Y.decodeMessage frame = .ok (.sync (.syncStep1 sv), []) → Below sv S

/-- The client's answer and the store at that time contain the client's document. -/
def Answer.Complete (a : Answer Y) : Prop :=
  Y.held a.doc ⊆ Y.contentOf a.update ∪ Store.contentOfLog Y a.log

/-- A served SyncStep2 and the client's document contain what the store held. -/
def ServesAll (held : Set Piece) (e : Bytes × List (ℕ × Bytes)) : Prop :=
  ∃ update, Y.decodeMessage e.1 = .ok (.sync (.syncStep2 update), []) ∧
    Store.contentOfLog Y e.2 ⊆ Y.contentOf update ∪ held

/-- The update of a SyncStep2 is in `held`. -/
def Applied (held : Set Piece) (frame : Bytes) : Prop :=
  ∀ update, Y.decodeMessage frame = .ok (.sync (.syncStep2 update), []) →
    Y.contentOf update ⊆ held

structure HandshakeInv (s : State Y) : Prop where
  store : Store.CfgInv Y needs refused s.store
  greetings : ∀ frame ∈ s.toClient, ListsOnly Y (Store.contentOfLog Y s.store.shared.log) frame
  hellos : ∀ frame ∈ s.toServer, ListsOnly Y (Y.held s.client) frame
  answers : ∀ a ∈ s.answers, a.Complete Y
  served : ∀ e ∈ s.served, ServesAll Y (Y.held s.client) e
  applied : ∀ frame ∈ s.applied, Applied Y (Y.held s.client) frame

variable {Y needs refused} {s : State Y}

lemma ListsOnly.mono {S T : Set Piece} {frame : Bytes} (h : ListsOnly Y S frame) (hST : S ⊆ T) :
    ListsOnly Y T frame :=
  fun sv hsv => (h sv hsv).mono hST

lemma ServesAll.mono {S T : Set Piece} {e : Bytes × List (ℕ × Bytes)} (h : ServesAll Y S e)
    (hST : S ⊆ T) : ServesAll Y T e := by
  obtain ⟨update, hdecode, hsub⟩ := h
  exact ⟨update, hdecode, hsub.trans (Set.union_subset_union_right _ hST)⟩

/-- The store moves on. -/
lemma HandshakeInv.with_store (h : HandshakeInv Y needs refused s) {store : Store.Cfg}
    (hstore : Store.CfgInv Y needs refused store) (hlog : s.store.shared.log ⊆ store.shared.log) :
    HandshakeInv Y needs refused { s with store } :=
  { h with
    store := hstore
    greetings := fun frame hframe =>
      (h.greetings frame hframe).mono (Store.contentOfLog_mono hlog) }

/-- The client's document grows. -/
lemma HandshakeInv.with_client (h : HandshakeInv Y needs refused s) {client : Y.Doc}
    (hclient : Y.held s.client ⊆ Y.held client) :
    HandshakeInv Y needs refused { s with client } :=
  { h with
    hellos := fun frame hframe => (h.hellos frame hframe).mono hclient
    served := fun e he => (h.served e he).mono hclient
    applied := fun frame hframe update hupdate =>
      (h.applied frame hframe update hupdate).trans hclient }

variable (hY : Y.Crdt needs refused) (hw : Y.WireFormat)
include hY hw

omit hw in
lemma held_of_load {result : Option Bytes} {doc : Y.Doc}
    (h : Y.applyOptional Y.new result = some doc) : Y.held doc = Y.contentOf? result := by
  rw [held_applyOptional hY h, hY.held_new, Set.empty_union]

/-- A SyncStep1 lists only what the document it is made from holds. -/
lemma listsOnly_syncStep1 (d : Y.Doc) : ListsOnly Y (Y.held d) (Y.syncStep1 d) := by
  intro sv hsv
  unfold syncStep1 at hsv
  rw [hw.decode_encode_sync] at hsv
  obtain rfl : Y.stateVector d = sv := by simpa using hsv
  exact below_stateVector hY d

omit hY in
/-- A SyncStep2 lists nothing. -/
lemma listsOnly_syncStep2 (S : Set Piece) (update : Bytes) :
    ListsOnly Y S (Y.encodeMessage (.sync (.syncStep2 update))) := by
  intro sv hsv
  rw [hw.decode_encode_sync] at hsv
  simp at hsv

lemma inv_greet (h : HandshakeInv Y needs refused s) {p : ℕ} {seen : List (ℕ × Bytes)}
    {result : Option Bytes} (hp : s.store.locals p = .loaded seen result) {frame : Bytes}
    (hframe : greeting Y result = some frame) :
    HandshakeInv Y needs refused { s with toClient := frame :: s.toClient } := by
  have hloaded := h.store.locals p
  rw [hp] at hloaded
  obtain ⟨doc, hdoc, rfl⟩ := Option.map_eq_some_iff.1 hframe
  refine { h with greetings := List.forall_mem_cons.2 ⟨?_, h.greetings⟩ }
  refine (listsOnly_syncStep1 hY hw doc).mono ?_
  rw [held_of_load hY hdoc]
  exact hloaded.2

/-- The server's answer, together with what the client has, contains what the server read. -/
lemma inv_answer (h : HandshakeInv Y needs refused s) {p : ℕ} {seen : List (ℕ × Bytes)}
    {result : Option Bytes} (hp : s.store.locals p = .loaded seen result) {frame reply : Bytes}
    (hframe : frame ∈ s.toServer) (hkind : Y.classifyMessage frame = 1)
    (hreply : answer Y result frame = some reply) :
    HandshakeInv Y needs refused
      { s with toClient := reply :: s.toClient, served := (reply, seen) :: s.served } := by
  have hloaded := h.store.locals p
  rw [hp] at hloaded
  obtain ⟨doc, hdoc, hhandled⟩ := Option.bind_eq_some_iff.1 hreply
  obtain ⟨sv, hsv⟩ := classifyMessage_eq_one.1 hkind
  obtain rfl : Y.encodeMessage (.sync (.syncStep2 (Y.encodeStateAsUpdate doc sv))) = reply := by
    simpa [handleSyncMessage, hsv] using hhandled
  have hcontent : Store.contentOfLog Y seen ⊆
      Y.contentOf (Y.encodeStateAsUpdate doc sv) ∪ Y.held s.client := by
    refine (Set.iUnion₂_subset hloaded.1).trans ?_
    rw [← held_of_load hY hdoc]
    exact held_subset_encode hY (h.hellos frame hframe sv hsv)
  have hserves : ServesAll Y (Y.held s.client)
      (Y.encodeMessage (.sync (.syncStep2 (Y.encodeStateAsUpdate doc sv))), seen) :=
    ⟨_, hw.decode_encode_sync _, hcontent⟩
  exact { h with
    greetings := List.forall_mem_cons.2 ⟨listsOnly_syncStep2 hw _ _, h.greetings⟩
    served := List.forall_mem_cons.2 ⟨hserves, h.served⟩ }

/-- The client's answer, together with what is in the store, contains what the client held. -/
lemma inv_receive (h : HandshakeInv Y needs refused s) {frame : Bytes}
    (hframe : frame ∈ s.toClient) : HandshakeInv Y needs refused (receiveFrame Y s frame) := by
  have happly : ∀ update, Y.decodeMessage frame = .ok (.sync (.syncStep2 update), []) ∨
      Y.decodeMessage frame = .ok (.sync (.update update), []) →
        HandshakeInv Y needs refused (applyFrame Y s frame update) := by
    intro update hdecode
    unfold applyFrame
    split
    · rename_i client hclient
      have hheld := held_applyBytes hY hclient
      have hgrown := h.with_client (hheld ▸ Set.subset_union_left)
      have happlied : Applied Y (Y.held client) frame := by
        intro update' h'
        obtain rfl : update' = update := by simpa [h'] using hdecode
        exact hheld ▸ Set.subset_union_right
      exact { hgrown with applied := List.forall_mem_cons.2 ⟨happlied, hgrown.applied⟩ }
    · exact h
  unfold receiveFrame
  split
  · rename_i sv hsv
    exact { h with
      hellos := List.forall_mem_cons.2 ⟨listsOnly_syncStep2 hw _ _, h.hellos⟩
      answers := List.forall_mem_cons.2
        ⟨held_subset_encode hY (h.greetings frame hframe sv hsv), h.answers⟩ }
  · rename_i update hupdate
    exact happly update (.inl hupdate)
  · rename_i update hupdate
    exact happly update (.inr hupdate)
  · exact h

omit hw in
lemma inv_change (h : HandshakeInv Y needs refused s) (update : Bytes) :
    HandshakeInv Y needs refused
      { s with client := (Y.applyBytes s.client update).getD s.client } := by
  refine h.with_client ?_
  cases hclient : Y.applyBytes s.client update with
  | none => exact subset_rfl
  | some client =>
      rw [Option.getD_some, held_applyBytes hY hclient]
      exact Set.subset_union_left

omit hw in
lemma inv_store (h : HandshakeInv Y needs refused s) {compactEvery : ℕ} {pa : ℕ × Store.Action}
    {store : Store.Cfg} (hact : (Store.system Y compactEvery).act s.store pa = some store) :
    HandshakeInv Y needs refused { s with store } :=
  h.with_store (Store.cfgInv_act hY h.store hact) (Store.log_subset_act hY h.store hact)

/-- **The invariant is kept.** -/
theorem inv_step {compactEvery : ℕ} {a : Action} {t : State Y} (h : HandshakeInv Y needs refused s)
    (hs : step Y compactEvery s a = some t) : HandshakeInv Y needs refused t := by
  cases a with
  | store p a =>
      obtain ⟨store, hact, rfl⟩ := Option.map_eq_some_iff.1 hs
      exact inv_store hY h hact
  | greet p =>
      simp only [step] at hs
      split at hs
      · rename_i seen result hp
        obtain ⟨frame, hframe, rfl⟩ := Option.map_eq_some_iff.1 hs
        exact inv_greet hY hw h hp hframe
      · simp at hs
  | answer p frame =>
      simp only [step] at hs
      split at hs
      · rename_i seen result hp
        split at hs
        · rename_i hframe
          obtain ⟨reply, hreply, rfl⟩ := Option.map_eq_some_iff.1 hs
          exact inv_answer hY hw h hp hframe.1 hframe.2 hreply
        · simp at hs
      · simp at hs
  | record p frame =>
      simp only [step] at hs
      split at hs
      · obtain ⟨update, -, hs⟩ := Option.bind_eq_some_iff.1 hs
        obtain ⟨store, hact, rfl⟩ := Option.map_eq_some_iff.1 hs
        exact inv_store hY h hact
      · simp at hs
  | resume =>
      obtain rfl := Option.some.inj hs
      exact { h with
        hellos := List.forall_mem_cons.2 ⟨listsOnly_syncStep1 hY hw s.client, h.hellos⟩ }
  | receive frame =>
      simp only [step] at hs
      split at hs
      · rename_i hframe
        obtain rfl := Option.some.inj hs
        exact inv_receive hY hw h hframe
      · simp at hs
  | change update =>
      obtain rfl := Option.some.inj hs
      exact inv_change hY h update

end Invariant

/-! ## The handshake converges -/

section Convergence

variable (Y : Yrs) (needs : Piece → Piece → Prop)

/-- A store with this log has recorded the answer, after it was given.  An update without content
is not recorded, and need not be. -/
def Answer.RecordedIn (a : Answer Y) (log : List (ℕ × Bytes)) : Prop :=
  a.log ⊆ log ∧ ((∃ id, (id, a.update) ∈ log) ∨ Y.contentOf a.update = ∅)

/-- What a handshake achieves. -/
structure Converged (s : State Y) : Prop where
  /-- Once the client's answer is recorded, everything the client held is in the store, and what
  it had integrated is integrated there. -/
  client_in_store : ∀ a ∈ s.answers, a.RecordedIn Y s.store.shared.log →
    Y.held a.doc ⊆ Y.stored s.store.shared.doc ∧
      Y.integrated a.doc ⊆ Causal.integrated needs (Y.stored s.store.shared.doc)
  /-- Once the server's answer is applied, everything the store held when the server read it is in
  the client. -/
  store_in_client : ∀ e ∈ s.served, e.1 ∈ s.applied →
    Store.contentOfLog Y e.2 ⊆ Y.held s.client
  /-- A load that begins after the record integrates every piece of the store whose missing
  dependencies the client had integrated. -/
  gaps_closed : ∀ a ∈ s.answers, ∀ p seen result doc, s.store.locals p = .loaded seen result →
    a.RecordedIn Y seen → Y.applyOptional Y.new result = some doc →
      ∀ x ∈ Store.contentOfLog Y seen,
        (∀ b, needs x b → b ∈ Causal.integrated needs (Store.contentOfLog Y seen) ∨
          b ∈ Y.integrated a.doc) → x ∈ Y.integrated doc

variable {Y needs} {refused : Piece → Prop} {s : State Y}

lemma Answer.Complete.held_subset {a : Answer Y} (h : a.Complete Y) {log : List (ℕ × Bytes)}
    (hlog : a.RecordedIn Y log) : Y.held a.doc ⊆ Store.contentOfLog Y log := by
  obtain ⟨hsub, hrecorded⟩ := hlog
  refine h.trans (Set.union_subset ?_ (Store.contentOfLog_mono hsub))
  rcases hrecorded with ⟨id, hid⟩ | hempty
  · exact Store.contentOf_subset_contentOfLog hid
  · exact hempty ▸ Set.empty_subset _

lemma HandshakeInv.converged (hY : Y.Crdt needs refused) (h : HandshakeInv Y needs refused s) :
    Converged Y needs s := by
  refine ⟨fun a ha hlog => ?_, fun e he happlied => ?_, ?_⟩
  · have hheld := (h.answers a ha).held_subset hlog
    rw [Store.stored_eq_contentOfLog h.store.shared]
    exact ⟨hheld, (hY.selfContained_integrated a.doc).subset_integrated
      (integrated_subset_held.trans hheld)⟩
  · obtain ⟨update, hdecode, hsub⟩ := h.served e he
    exact hsub.trans (Set.union_subset (h.applied e.1 happlied update hdecode) subset_rfl)
  · intro a ha p seen result doc hp hlog hdoc x hx hneeds
    have hloaded := h.store.locals p
    rw [hp] at hloaded
    have hdoc' : Store.contentOfLog Y seen ⊆ Y.held doc := by
      rw [held_of_load hY hdoc]
      exact Set.iUnion₂_subset hloaded.1
    have hheld : Y.integrated a.doc ⊆ Y.held doc :=
      (integrated_subset_held.trans ((h.answers a ha).held_subset hlog)).trans hdoc'
    rw [hY.integrated_eq, ← Set.union_eq_self_of_subset_right hheld]
    refine Causal.mem_integrated_union (hdoc' hx) (hY.selfContained_integrated a.doc) fun b hb => ?_
    exact (hneeds b hb).imp_left fun hb => Causal.integrated_mono hdoc' hb

/-- **The join handshake converges and heals gaps.**  From any client document and any store, in
every run of the two sides over a network that loses, repeats and reorders frames, with any other
processes recording, compacting and loading in between. -/
theorem handshake_converges (hY : Y.Crdt needs refused) (hw : Y.WireFormat) {compactEvery : ℕ}
    {d : Y.Doc} {as : List Action}
    (h : run (step Y compactEvery) { client := d } as = some s) : Converged Y needs s := by
  have hinit : HandshakeInv Y needs refused { client := d } :=
    ⟨Store.cfgInv_init, by simp, by simp, by simp, by simp, by simp⟩
  exact (run_invariant (fun _ _ _ hs h => inv_step hY hw hs h) hinit h).converged hY

end Convergence

section Example

open Reference

/-- A client with the block the store lacks, and with a gap of its own. -/
def joiningDoc : Doc := [.block ⟨1, 0⟩, .block ⟨2, 1⟩]

def gappedRow : Row := ⟨1, encodePieces [.block ⟨1, 1⟩], false⟩

/-- The client's answer, as a row. -/
def answerRow : Row := ⟨2, encodePieces joiningDoc, false⟩

/-- The load of a process, from a tail. -/
def loadActions (p : ℕ) (rows : List Row) : List Action :=
  [.store p .load, .store p (.readTail rows), .store p .readSnapshot]

/-- Another client's row with a gap, the handshake of a client that fills it, and the next load. -/
def joinActions : List Action :=
  let greeting := (engine []).syncStep1 [.block ⟨1, 1⟩]
  let hello := (engine []).syncStep1 joiningDoc
  let step2 (payload : Bytes) := (engine []).encodeMessage (.sync (.syncStep2 payload))
  [.store 0 (.append gappedRow.payload), .store 0 (.insert 1), .store 0 .count] ++
    loadActions 1 [gappedRow] ++ [.greet 1, .resume, .answer 1 hello, .receive greeting,
      .receive (step2 gappedRow.payload), .record 2 (step2 answerRow.payload),
      .store 2 (.insert 2), .store 2 .count] ++ loadActions 1 [gappedRow, answerRow]

/-- The run exists, both answers arrive, and in the end the document loads without the gap. -/
theorem handshake_converges_join :
    ∃ s, run (step (engine []) 64) { client := joiningDoc } joinActions = some s ∧
      Converged (engine []) Reference.needs s ∧
        s.answers.map Answer.update = [answerRow.payload] ∧ s.applied.length = 1 ∧
          ∃ seen result, s.store.locals 1 = .loaded seen (some result) ∧
            ((engine []).applyBytes (engine []).new result).any fun doc =>
              isIntegrated doc (.block ⟨1, 1⟩) :=
  ⟨_, rfl, handshake_converges (crdt []) (wireFormat [])
    (show run (step (engine []) 64) { client := joiningDoc } joinActions = some _ from rfl),
    rfl, rfl, _, _, rfl, by decide⟩

end Example

end Yrby.Handshake
