import Yrby.Client.ReliableSync
import Yrby.Server.Store
import Yrby.Server.Sync

/-!
# No acknowledged edit is lost

The guarantee of the whole write path.  One client's delivery queue (`ReliableSync`) sends merged
deltas, a network loses, delays, reorders and repeats them, any number of server processes run
`sync_receive` on the envelopes they get, the document store (`Store`) records, compacts and loads
for this client and for all others, and acks find their way back or do not.

The parts keep their own models and move in any order.  The network keeps every envelope and every
ack forever; whoever reads it may read any of them, any number of times.  A server process runs the
channel's `sync_receive` with hooks whose answers are guessed in advance, and performs the events it
left one by one.  A record that returned is performed only when the process's `append` has returned;
a process may fail between any two events, and its `append` at any statement.

`acknowledged_edits_are_kept`: whatever an acknowledgement has removed from the queue is in the
result of every load that begins later.  What carries it is one chain: an ack names a delta that was
sent, the delta was recorded before it was acked, and a delta sent under an id contains every update
that is still queued with a number up to it.
-/

namespace Yrby.Delivery

open Wire Base64 Effect Reentrant Transition Interleaving Yrs Sync ReliableSync

/-! ## Between the client and the channel -/

/-- `YProtocolSession#frameUpdate` -/
def frameUpdate (update : Bytes) : Bytes := writeVarUint 0 ++ writeVarUint 2 ++ writeBuf update

/-- The envelope the provider sends for a delta. -/
def deltaEnvelope (update : Bytes) (id : ℕ) : Json :=
  .object [("update", .string (strictEncode64 (frameUpdate update))), ("id", .integer id)]

/-- The envelopes the client has sent. -/
def sentEnvelopes (trace : List ReliableSync.Event) : List Json :=
  trace.filterMap fun
    | .send update id _ => some (deltaEnvelope update id)
    | _ => none

/-- What `acknowledge` is called with for an ack. -/
def ackValue : Json → JsValue
  | .integer n => .integer n
  | _ => .other

lemma mem_sentEnvelopes {trace : List ReliableSync.Event} {data : Json} :
    data ∈ sentEnvelopes trace ↔
      ∃ update id parts, .send update id parts ∈ trace ∧ deltaEnvelope update id = data := by
  simp only [sentEnvelopes, List.mem_filterMap]
  constructor
  · rintro ⟨e, he, hdata⟩
    cases e with
    | send update id parts => exact ⟨update, id, parts, he, by simpa using hdata⟩
    | _ => simp at hdata
  · rintro ⟨update, id, parts, he, rfl⟩
    exact ⟨_, he, rfl⟩

/-- The frame the channel takes from a delta's envelope carries the delta. -/
lemma eq_of_carriesUpdate {Y : Yrs} (hw : Y.WireFormat) {cap : Option ℕ} {update carried : Bytes}
    {id : ℕ} (h : CarriesUpdate Y cap (deltaEnvelope update id) carried) : carried = update := by
  obtain ⟨encoded, bytes, hget, hdecode, -, hframe⟩ := h
  obtain rfl : strictEncode64 (frameUpdate update) = encoded := by
    simpa [deltaEnvelope, Json.get?] using hget
  rw [strictDecode64_encode] at hdecode
  obtain rfl := Option.some.inj hdecode
  have hreads : ReadsSync (frameUpdate update) 2 update [] :=
    ⟨writeVarUint 2 ++ writeBuf update, writeBuf update, by simp [frameUpdate], by simp, by simp⟩
  rcases (isUpdateFrame_iff hw).1 hframe with h | h <;> exact (readsSync_unique h hreads).2

/-! ## The system -/

/-- The client, the acks sent to its subscription, the store, and what each server process still
does with the envelope it handles.  The last two fields are history: the updates that
acknowledgements have removed from the queue, and those removed when a process began to load. -/
structure State where
  client : ReliableSync.Cfg := ReliableSync.init
  acks : List Json := []
  store : Store.Cfg := Store.init
  todo : ℕ → List Sync.Event := fun _ => []
  removed : List Pending := []
  removedBefore : ℕ → List Pending := fun _ => []

inductive Action (ω : Type)
  /-- A call on the client's queue but an acknowledgement, or an injected call coming back. -/
  | client (m : Move ReliableSync.Call ReliableSync.Ret)
  /-- The client gets an ack. -/
  | acknowledge (k : ℕ)
  /-- A server process gets an envelope. -/
  | handle (p k : ℕ) (key : Option Bytes) (channel : Chan ω)
  | perform (p : ℕ)
  | fail (p : ℕ)
  /-- A statement of the store, for this client or for any other. -/
  | store (p : ℕ) (a : Store.Action)

/-- The moves of the environment on the queue: no acknowledgement, and `merge` returns what the
engine's merge does. -/
def clientMay (Y : Yrs) (c : ReliableSync.Cfg) : Move ReliableSync.Call ReliableSync.Ret → Bool
  | .call (.acknowledge _) => false
  | .back (.bytes b) =>
      match c.stack with
      | .merge _ parts :: _ => decide (Y.mergeUpdates (parts.map Pending.update) = some b)
      | _ => true
  | _ => true

section Steps

variable {ω : Type} (Y : Yrs) (K : ChannelClass ω) (compactEvery : ℕ)

/-- Process `p` performs its next event. -/
def performEvent (s : State) (p : ℕ) : Option State :=
  match s.todo p with
  | [] => none
  | .recorded update :: rest =>
      match s.store.locals p with
      | .returned (some bytes) =>
          if bytes = update then some { s with todo := Function.update s.todo p rest } else none
      | _ => none
  | .ack id :: rest =>
      some { s with acks := id :: s.acks, todo := Function.update s.todo p rest }
  | _ :: rest => some { s with todo := Function.update s.todo p rest }

/-- The client acknowledges an id. -/
def acknowledgeId (s : State) (id : Json) : Option State :=
  (ReliableSync.machine.step s.client (.call (.acknowledge (ackValue id)))).map fun client =>
    { s with
      client
      removed := s.client.state.pending.filter (fun q => decide (q ∉ client.state.pending)) ++
        s.removed }

/-- A load remembers what had been removed when it began. -/
def noteLoad (s : State) (p : ℕ) : Store.Action → ℕ → List Pending
  | .load => Function.update s.removedBefore p s.removed
  | _ => s.removedBefore

def step (s : State) : Action ω → Option State
  | .client m =>
      if clientMay Y s.client m then
        (ReliableSync.machine.step s.client m).map fun client => { s with client }
      else none
  | .acknowledge k => s.acks[k]?.bind (acknowledgeId s)
  | .handle p k key channel =>
      if (s.todo p).isEmpty then
        (sentEnvelopes s.client.trace)[k]?.map fun data =>
          let events := (syncReceive Y K data key { state := channel }).2.trace
          { s with todo := Function.update s.todo p events }
      else none
  | .perform p => performEvent s p
  | .fail p => some { s with todo := Function.update s.todo p [] }
  | .store p a =>
      ((Store.system Y compactEvery).act s.store (p, a)).map fun store =>
        { s with store, removedBefore := noteLoad s p a }

end Steps

/-! ## The invariant -/

section Invariant

variable (Y : Yrs) (needs : Piece → Piece → Prop) (refused : Piece → Prop) (cap : Option ℕ)

/-- The bytes carry exactly the content of the queued updates. -/
def Merged (bytes : Bytes) (parts : List Pending) : Prop :=
  Y.contentOf bytes = ⋃ q ∈ parts, Y.contentOf q.update

/-- The store has the content of the updates. -/
def Kept (log : List (ℕ × Bytes)) (updates : List Pending) : Prop :=
  ∀ q ∈ updates, Y.contentOf q.update ⊆ Store.contentOfLog Y log

/-- What a process does with the envelope of a delta: what it has recorded is in the log. -/
def Handles (trace : List ReliableSync.Event) (log : List (ℕ × Bytes)) (todo : List Sync.Event) :
    Prop :=
  todo ≠ [] → ∃ data ∈ sentEnvelopes trace, ∃ done, Segment Y cap data (done ++ todo) ∧
    ∀ update, .recorded update ∈ done → ∃ row, (row, update) ∈ log

/-- An ack names a delta that was sent and recorded. -/
def Acked (trace : List ReliableSync.Event) (log : List (ℕ × Bytes)) (ack : Json) : Prop :=
  ∃ (update : Bytes) (id : ℕ) (parts : List Pending) (row : ℕ),
    .send update id parts ∈ trace ∧ ack = .integer id ∧ (row, update) ∈ log

structure DeliveryInv (s : State) : Prop where
  client : ReliableSync.CfgInv (Merged Y) s.client
  store : Store.CfgInv Y needs refused s.store
  handles : ∀ p, Handles Y cap s.client.trace s.store.shared.log (s.todo p)
  acks : ∀ ack ∈ s.acks, Acked s.client.trace s.store.shared.log ack
  removed : Kept Y s.store.shared.log s.removed
  removedBefore : ∀ p, ∀ seen ∈ (s.store.locals p).seen?, Kept Y seen (s.removedBefore p)

variable {Y needs refused cap} {s : State} {trace trace' : List ReliableSync.Event}
  {log log' : List (ℕ × Bytes)}

lemma Kept.mono {updates : List Pending} (h : Kept Y log updates) (hlog : log ⊆ log') :
    Kept Y log' updates :=
  fun q hq => (h q hq).trans (Store.contentOfLog_mono hlog)

lemma Handles.mono {todo : List Sync.Event} (h : Handles Y cap trace log todo)
    (htrace : trace ⊆ trace') (hlog : log ⊆ log') : Handles Y cap trace' log' todo := by
  intro hne
  obtain ⟨data, hdata, done, hseg, hdone⟩ := h hne
  obtain ⟨update, id, parts, hsend, rfl⟩ := mem_sentEnvelopes.1 hdata
  refine ⟨_, mem_sentEnvelopes.2 ⟨update, id, parts, htrace hsend, rfl⟩, done, hseg, ?_⟩
  intro update hrecorded
  obtain ⟨row, hrow⟩ := hdone update hrecorded
  exact ⟨row, hlog hrow⟩

lemma Acked.mono {ack : Json} (h : Acked trace log ack) (htrace : trace ⊆ trace')
    (hlog : log ⊆ log') : Acked trace' log' ack := by
  obtain ⟨update, id, parts, row, hsend, hack, hrow⟩ := h
  exact ⟨update, id, parts, row, htrace hsend, hack, hlog hrow⟩

/-- An acknowledgement of a recorded delta removes only what the delta carried. -/
lemma contentOf_subset_of_acked {c : ReliableSync.Cfg} (hc : ReliableSync.CfgInv (Merged Y) c)
    {update : Bytes} {id row : ℕ} {parts : List Pending}
    (hsend : .send update id parts ∈ c.trace) (hrow : (row, update) ∈ log) {q : Pending}
    (hq : q ∈ c.state.pending) (hle : q.seq ≤ id) :
    Y.contentOf q.update ⊆ Store.contentOfLog Y log := by
  have hpart := hc.state.sent_parts update id parts hsend q hq hle
  have hmerged : Y.contentOf update = _ := hc.state.sent_merged update id parts hsend
  refine Set.Subset.trans ?_ (Store.contentOf_subset_contentOfLog hrow)
  rw [hmerged]
  exact Set.subset_iUnion₂ (s := fun (q : Pending) (_ : q ∈ parts) => Y.contentOf q.update) q hpart

/-! ## Every step keeps it -/

lemma merged_single (q : Pending) : Merged Y q.update [q] := by
  simp [Merged]

lemma mergesQueue_of_clientMay (hmerge : Y.MergeIsUnion) {c : ReliableSync.Cfg}
    {m : Move ReliableSync.Call ReliableSync.Ret} (h : clientMay Y c m) :
    MergesQueue (Merged Y) c m := by
  rintro version parts rest b hst rfl
  simp only [clientMay, hst, decide_eq_true_eq] at h
  rw [Merged, hmerge _ _ h]
  simp

lemma trace_subset_step {c c' : ReliableSync.Cfg} {m : Move ReliableSync.Call ReliableSync.Ret}
    (h : ReliableSync.machine.step c m = some c') : c.trace ⊆ c'.trace := by
  obtain ⟨o, stack, rfl, -⟩ := Machine.step_eq_some h
  exact List.subset_append_left _ _

/-- The client's queue moves on, and nothing is removed that is not kept. -/
lemma DeliveryInv.with_client (h : DeliveryInv Y needs refused cap s) {client : ReliableSync.Cfg}
    (hclient : ReliableSync.CfgInv (Merged Y) client) (htrace : s.client.trace ⊆ client.trace)
    {removed : List Pending} (hremoved : Kept Y s.store.shared.log removed) :
    DeliveryInv Y needs refused cap { s with client, removed } :=
  ⟨hclient, h.store, fun p => (h.handles p).mono htrace (List.Subset.refl _),
    fun ack hack => (h.acks ack hack).mono htrace (List.Subset.refl _), hremoved, h.removedBefore⟩

lemma inv_client (hmerge : Y.MergeIsUnion) (h : DeliveryInv Y needs refused cap s)
    {m : Move ReliableSync.Call ReliableSync.Ret} (hmay : clientMay Y s.client m)
    {client : ReliableSync.Cfg} (hstep : ReliableSync.machine.step s.client m = some client) :
    DeliveryInv Y needs refused cap { s with client } := by
  have hok : AckWithinSent s.client m := by
    rintro n rfl
    simp [clientMay] at hmay
  exact h.with_client (cfgInv_step merged_single h.client hok (mergesQueue_of_clientMay hmerge hmay)
    hstep) (trace_subset_step hstep) h.removed

/-- An ack removes only updates that a recorded delta carried. -/
lemma inv_acknowledge (h : DeliveryInv Y needs refused cap s) {ack : Json} (hack : ack ∈ s.acks)
    {t : State} (hstep : acknowledgeId s ack = some t) : DeliveryInv Y needs refused cap t := by
  obtain ⟨client, hclient, rfl⟩ := Option.map_eq_some_iff.1 hstep
  obtain ⟨update, id, parts, row, hsend, rfl, hrow⟩ := h.acks ack hack
  have hok : AckWithinSent s.client (.call (.acknowledge (ackValue (.integer id)))) := by
    intro n hn _ _
    obtain rfl : (id : ℤ) = n := by simpa [ackValue] using hn
    exact_mod_cast le_lastSent hsend
  have hinv := cfgInv_step merged_single h.client hok (fun _ _ _ _ _ hm => by simp at hm) hclient
  refine h.with_client hinv (trace_subset_step hclient) fun q hq => ?_
  rcases List.mem_append.1 hq with hq | hq
  · obtain ⟨hmem, hgone⟩ := List.mem_filter.1 hq
    refine contentOf_subset_of_acked h.client hsend hrow hmem ?_
    obtain rfl := Option.some.inj hclient
    obtain ⟨n, hn, -, hle⟩ := le_of_acknowledge_removes hmem (of_decide_eq_true hgone)
    obtain rfl : (id : ℤ) = n := by simpa [ackValue] using hn
    exact_mod_cast hle
  · exact h.removed q hq

/-- One process has something else to do. -/
lemma DeliveryInv.with_todo (h : DeliveryInv Y needs refused cap s) {p : ℕ}
    {rest : List Sync.Event} (hrest : Handles Y cap s.client.trace s.store.shared.log rest) :
    DeliveryInv Y needs refused cap { s with todo := Function.update s.todo p rest } := by
  refine { h with handles := fun q => ?_ }
  by_cases hq : q = p
  · subst hq
    simpa using hrest
  · simpa [Function.update_of_ne hq] using h.handles q

/-- A process takes an envelope, and starts with everything `sync_receive` did on it. -/
lemma inv_handle {ω : Type} {K : ChannelClass ω}
    (h : DeliveryInv Y needs refused K.maxFrameBytes s) {p : ℕ} {data : Json}
    (hdata : data ∈ sentEnvelopes s.client.trace) (key : Option Bytes) (channel : Chan ω) :
    let events := (syncReceive Y K data key { state := channel }).2.trace
    DeliveryInv Y needs refused K.maxFrameBytes
      { s with todo := Function.update s.todo p events } := by
  obtain ⟨es, htrace, hseg⟩ :=
    segment_receive (Y := Y) (K := K) data key { state := channel } trivial
  obtain rfl : _ = es := htrace
  exact h.with_todo fun _ => ⟨data, hdata, [], hseg, by simp⟩

/-- One event less to do. -/
lemma Handles.next {e : Sync.Event} {rest : List Sync.Event}
    (h : Handles Y cap trace log (e :: rest))
    (he : ∀ update, e = .recorded update → ∃ row, (row, update) ∈ log) :
    Handles Y cap trace log rest := by
  intro _
  obtain ⟨data, hdata, done, hseg, hdone⟩ := h (by simp)
  refine ⟨data, hdata, done ++ [e], by simpa using hseg, fun update hupdate => ?_⟩
  rcases List.mem_append.1 hupdate with hupdate | hupdate
  · exact hdone update hupdate
  · exact he update (List.mem_singleton.1 hupdate).symm

/-- The ack that a process performs names a recorded delta. -/
lemma Handles.acked (hw : Y.WireFormat) {ack : Json} {rest : List Sync.Event}
    (h : Handles Y cap trace log (.ack ack :: rest)) : Acked trace log ack := by
  obtain ⟨data, hdata, done, hseg, hdone⟩ := h (by simp)
  obtain ⟨update, id, parts, hsend, rfl⟩ := mem_sentEnvelopes.1 hdata
  obtain ⟨hid, carried, hcarries, hrecorded⟩ := hseg.ack hw rfl
  obtain rfl := eq_of_carriesUpdate hw hcarries
  obtain ⟨row, hrow⟩ := hdone carried hrecorded
  have hown : (deltaEnvelope carried id).get? "id" = some (.integer id) := rfl
  exact ⟨carried, id, parts, row, hsend, Option.some.inj (hid.symm.trans hown), hrow⟩

lemma inv_perform (hw : Y.WireFormat) (h : DeliveryInv Y needs refused cap s) {p : ℕ} {t : State}
    (hstep : performEvent s p = some t) : DeliveryInv Y needs refused cap t := by
  have hhandles := h.handles p
  unfold performEvent at hstep
  split at hstep
  · simp at hstep
  · rename_i update rest htodo
    rw [htodo] at hhandles
    split at hstep
    · rename_i bytes hreturned
      split at hstep
      · rename_i heq
        subst heq
        obtain rfl := Option.some.inj hstep
        -- the `append` of this process has returned, so its row has committed
        have hlogged := h.store.locals p
        rw [hreturned] at hlogged
        refine h.with_todo (hhandles.next fun update hupdate => ?_)
        obtain rfl := Event.recorded.inj hupdate
        exact hlogged _ rfl
      · simp at hstep
    · simp at hstep
  · rename_i id rest htodo
    obtain rfl := Option.some.inj hstep
    rw [htodo] at hhandles
    have hrest := h.with_todo (p := p) (hhandles.next (by simp))
    exact { hrest with acks := List.forall_mem_cons.2 ⟨hhandles.acked hw, h.acks⟩ }
  · rename_i e rest hrecorded hack htodo
    obtain rfl := Option.some.inj hstep
    rw [htodo] at hhandles
    exact h.with_todo (hhandles.next fun update hupdate => absurd hupdate (hrecorded update))

lemma noteLoad_of_ne {p : ℕ} {a : Store.Action} (ha : a ≠ .load) :
    noteLoad s p a = s.removedBefore := by
  cases a <;> first | rfl | exact absurd rfl ha

lemma noteLoad_of_process {p q : ℕ} (hq : q ≠ p) {a : Store.Action} :
    noteLoad s p a q = s.removedBefore q := by
  cases a <;> simp [noteLoad, Function.update_of_ne hq]

lemma inv_store (hY : Y.Crdt needs refused) (h : DeliveryInv Y needs refused cap s)
    {compactEvery p : ℕ} {a : Store.Action} {store : Store.Cfg}
    (hact : (Store.system Y compactEvery).act s.store (p, a) = some store) :
    DeliveryInv Y needs refused cap { s with store, removedBefore := noteLoad s p a } := by
  have hlog := Store.log_subset_act hY h.store hact
  refine ⟨h.client, Store.cfgInv_act hY h.store hact,
    fun q => (h.handles q).mono (List.Subset.refl _) hlog,
    fun ack hack => (h.acks ack hack).mono (List.Subset.refl _) hlog, h.removed.mono hlog, ?_⟩
  obtain ⟨g, l, hs, rfl⟩ := System.act_eq_some.1 hact
  intro q seen hseen
  by_cases hq : q = p
  · subst hq
    rcases Store.seen_of_step hs (by simpa using hseen) with ⟨rfl, rfl⟩ | ⟨ha, hseen'⟩
    · -- a load begins: everything removed so far is in the log
      simpa [noteLoad] using h.removed
    · rw [noteLoad_of_ne ha]
      exact h.removedBefore q seen hseen'
  · have hother : noteLoad s p a q = s.removedBefore q := noteLoad_of_process hq
    simp only [hother]
    exact h.removedBefore q seen (by simpa [Function.update_of_ne hq] using hseen)

end Invariant

/-! ## No acknowledged edit is lost -/

section Main

variable {Y : Yrs} {needs : Piece → Piece → Prop} {refused : Piece → Prop} {ω : Type}
  {K : ChannelClass ω} {compactEvery : ℕ}

lemma inv_step (hY : Y.Crdt needs refused) (hw : Y.WireFormat) (hmerge : Y.MergeIsUnion)
    {s t : State} {a : Action ω} (h : DeliveryInv Y needs refused K.maxFrameBytes s)
    (hs : step Y K compactEvery s a = some t) : DeliveryInv Y needs refused K.maxFrameBytes t := by
  cases a with
  | client m =>
      simp only [step, Option.ite_none_right_eq_some] at hs
      obtain ⟨hmay, hs⟩ := hs
      obtain ⟨client, hclient, rfl⟩ := Option.map_eq_some_iff.1 hs
      exact inv_client hmerge h hmay hclient
  | acknowledge k =>
      obtain ⟨ack, hack, hs⟩ := Option.bind_eq_some_iff.1 hs
      exact inv_acknowledge h (List.mem_of_getElem? hack) hs
  | handle p k key channel =>
      simp only [step, Option.ite_none_right_eq_some] at hs
      obtain ⟨data, hdata, rfl⟩ := Option.map_eq_some_iff.1 hs.2
      exact inv_handle h (List.mem_of_getElem? hdata) key channel
  | perform p => exact inv_perform hw h hs
  | fail p =>
      obtain rfl := Option.some.inj hs
      exact h.with_todo fun hne => absurd rfl hne
  | store p a =>
      obtain ⟨store, hact, rfl⟩ := Option.map_eq_some_iff.1 hs
      exact inv_store hY h hact

lemma inv_init {cap : Option ℕ} : DeliveryInv Y needs refused cap {} :=
  ⟨cfgInv_init, Store.cfgInv_init, fun _ h => absurd rfl h, by simp, by simp [Kept],
    fun _ _ _ => by simp [Kept]⟩

/-- **No acknowledged edit is lost.**  In every interleaving of the client's queue, the network,
the server processes and the store, a load that begins after acknowledgements have removed updates
from the queue returns their content, and a document made from it holds that content, integrated or
parked. -/
theorem acknowledged_edits_are_kept (hY : Y.Crdt needs refused) (hw : Y.WireFormat)
    (hmerge : Y.MergeIsUnion) {as : List (Action ω)} {s : State}
    (h : run (step Y K compactEvery) {} as = some s) {p : ℕ} {seen : List (ℕ × Bytes)}
    {result : Option Bytes} (hp : s.store.locals p = .loaded seen result) :
    ∀ q ∈ s.removedBefore p, Y.contentOf q.update ⊆ Y.contentOf? result ∧
      ∀ doc, Y.applyOptional Y.new result = some doc →
        Y.contentOf q.update ⊆ Y.integrated doc ∪ Y.parked doc := by
  have hinv := run_invariant (fun _ _ _ hs h => inv_step hY hw hmerge hs h) inv_init h
  intro q hq
  have hkept : Y.contentOf q.update ⊆ Store.contentOfLog Y seen :=
    hinv.removedBefore p seen (by rw [hp]; rfl) q hq
  have hloaded := hinv.store.locals p
  rw [hp] at hloaded
  have hresult : Y.contentOf q.update ⊆ Y.contentOf? result :=
    hkept.trans (Set.iUnion₂_subset hloaded.1)
  refine ⟨hresult, fun doc hdoc => hresult.trans ?_⟩
  change _ ⊆ Y.held doc
  rw [held_applyOptional hY hdoc]
  exact Set.subset_union_right

end Main

section Example

open Reference

def firstEdit : Bytes := encodePieces [.block ⟨1, 0⟩]
def secondEdit : Bytes := encodePieces [.block ⟨1, 1⟩]
def bothEdits : Bytes := encodePieces [.block ⟨1, 0⟩, .block ⟨1, 1⟩]

/-- Two edits.  The envelope of the first is lost, that of both is recorded, compacted and acked;
the ack removes both, and another process loads. -/
def deliveryActions : List (Action (List Bytes)) :=
  [.client (.call .resume), .client (.call (.enqueue firstEdit)), .client (.back (.handle 0)),
    .client (.back .unit), .client (.call (.enqueue secondEdit)),
    .client (.back (.bytes bothEdits)), .client (.back .unit),
    .handle 0 1 (some [97]) listChan, .store 0 (.append bothEdits), .store 0 (.insert 1),
    .store 0 .count, .store 0 .lock, .store 0 (.readRows [⟨1, bothEdits, false⟩]),
    .store 0 .commit, .perform 0, .perform 0, .perform 0, .acknowledge 0, .client (.back .unit),
    .store 1 .load, .store 1 (.readTail []), .store 1 .readSnapshot]

/-- The run exists, the ack has removed both edits, and the load has them. -/
theorem acknowledged_edits_are_kept_example :
    ∃ s, run (step (engine []) listChannel 1) {} deliveryActions = some s ∧
      (s.removedBefore 1).map Pending.update = [firstEdit, secondEdit] ∧
        s.client.state.pending = [] ∧ ∃ seen result, s.store.locals 1 = .loaded seen (some result) ∧
          ∀ q ∈ s.removedBefore 1, (engine []).contentOf q.update ⊆
              (engine []).contentOf? (some result) ∧
            ∀ doc, (engine []).applyOptional (engine []).new (some result) = some doc →
              (engine []).contentOf q.update ⊆
                (engine []).integrated doc ∪ (engine []).parked doc :=
  ⟨_, rfl, rfl, rfl, _, _, rfl,
    acknowledged_edits_are_kept (crdt []) (wireFormat []) (mergeIsUnion [])
      (show run (step (engine []) listChannel 1) {} deliveryActions = some _ from rfl) rfl⟩

end Example

end Yrby.Delivery
