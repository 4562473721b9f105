import Yrby.Engine.Update
import Yrby.Framework.Causal

/-!
# The CRDT engine as a parameter

yrs is not part of the repository.  `Yrs` lists the functions of it that the modelled code
calls, and what may be observed of a document: the pieces it has integrated and the pieces it
has parked.  What the code relies on is stated as named hypotheses about these functions.

* `Yrs.Crdt` is the CRDT: applying an update adds its content, a document integrates exactly
  the causally closed part of what it holds and parks the rest, a state vector lists the
  contiguous integrated prefix of every client, an encoding carries the integrated blocks beyond
  a state vector, all deletions and all parked content, and pruning drops what is parked.
  `apply_update` returns an error exactly when a block that yrs refuses would integrate.
* `Yrs.WireFormat` is the framing of messages: the two leading tags are variable-length
  integers in any encoding, and a document payload is a length-prefixed buffer.

`Engine/Reference.lean` builds an engine that satisfies both.
-/

namespace Yrby

open Wire

inductive SyncMessage
  | syncStep1 (sv : StateVector)
  | syncStep2 (update : Bytes)
  | update (update : Bytes)
  deriving DecidableEq

/-- A protocol message.  The payloads of the other kinds are not read by the modelled code. -/
inductive Message
  | sync (m : SyncMessage)
  | auth
  | awareness
  | awarenessQuery
  | custom
  deriving DecidableEq

inductive DecodeError
  | endOfBuffer
  | other
  deriving DecidableEq

/-- The functions of yrs the code calls.  `none` is an `Err`. -/
structure Yrs where
  Doc : Type
  /-- `Doc::new()` -/
  new : Doc
  /-- `Update::decode_v1` -/
  decodeUpdate : Bytes → Option Update
  /-- `txn.apply_update` -/
  applyUpdate : Doc → Update → Option Doc
  /-- `txn.state_vector` -/
  stateVector : Doc → StateVector
  /-- `txn.encode_state_as_update_v1` -/
  encodeStateAsUpdate : Doc → StateVector → Bytes
  /-- `store.pending_update().is_some()` -/
  pendingUpdate : Doc → Bool
  /-- `store.pending_ds().is_some()` -/
  pendingDs : Doc → Bool
  /-- `txn.prune_pending` -/
  prunePending : Doc → Doc
  /-- `Message::decode`, with the bytes it leaves. -/
  decodeMessage : Bytes → Except DecodeError (Message × Bytes)
  /-- `Message::encode_v1` -/
  encodeMessage : Message → Bytes
  /-- `merge_updates_v1`, and `Y.mergeUpdates` on the client -/
  mergeUpdates : List Bytes → Option Bytes
  /-- The pieces of a document that are part of its visible state. -/
  integrated : Doc → Set Piece
  /-- The pieces of a document that wait for a dependency. -/
  parked : Doc → Set Piece

namespace Yrs

variable (Y : Yrs)

/-- Everything a document holds. -/
def held (d : Y.Doc) : Set Piece := Y.integrated d ∪ Y.parked d

/-- The content of a byte string, read as an update. -/
def contentOf (b : Bytes) : Set Piece :=
  match Y.decodeUpdate b with
  | some u => u.content
  | none => ∅

/-- The content of an optional byte string, such as a nullable column. -/
def contentOf? : Option Bytes → Set Piece
  | some b => Y.contentOf b
  | none => ∅

/-- The pieces an encoding against `sv` does not leave out. -/
def Beyond (sv : StateVector) : Piece → Prop
  | .block id => sv.get id.client ≤ id.clock
  | .deletion _ => True

/-- Nothing that integrates from `S` is refused. -/
def Accepts (needs : Piece → Piece → Prop) (refused : Piece → Prop) (S : Set Piece) : Prop :=
  ∀ a ∈ Causal.integrated needs S, ¬refused a

/-- What the code relies on about documents.  `needs` is the causal order of pieces, `refused`
the blocks that yrs reports as an error when they come up for integration. -/
structure Crdt (needs : Piece → Piece → Prop) (refused : Piece → Prop) : Prop where
  integrated_eq (d : Y.Doc) : Y.integrated d = Causal.integrated needs (Y.held d)
  parked_eq (d : Y.Doc) : Y.parked d = Causal.parked needs (Y.held d)
  held_new : Y.held Y.new = ∅
  held_apply {d d' : Y.Doc} {u : Update} :
    Y.applyUpdate d u = some d' → Y.held d' = Y.held d ∪ u.content
  apply_isSome {d : Y.Doc} {u : Update} :
    (Y.applyUpdate d u).isSome ↔ Accepts needs refused (Y.held d ∪ u.content)
  stateVector_lt {d : Y.Doc} {client clock : ℕ} :
    clock < (Y.stateVector d).get client → Piece.block ⟨client, clock⟩ ∈ Y.integrated d
  stateVector_stop (d : Y.Doc) (client : ℕ) :
    Piece.block ⟨client, (Y.stateVector d).get client⟩ ∉ Y.integrated d
  decode_encode (d : Y.Doc) (sv : StateVector) :
    ∃ u, Y.decodeUpdate (Y.encodeStateAsUpdate d sv) = some u ∧
      u.content = {a ∈ Y.integrated d | Beyond sv a} ∪ Y.parked d
  pendingUpdate_iff (d : Y.Doc) : Y.pendingUpdate d ↔ ∃ id, Piece.block id ∈ Y.parked d
  pendingDs_iff (d : Y.Doc) : Y.pendingDs d ↔ ∃ id, Piece.deletion id ∈ Y.parked d
  held_prune (d : Y.Doc) : Y.held (Y.prunePending d) = Y.integrated d

/-- Merging updates is the union of their contents. -/
def MergeIsUnion : Prop :=
  ∀ bs b, Y.mergeUpdates bs = some b → Y.contentOf b = ⋃ x ∈ bs, Y.contentOf x

/-- The message tag `type` followed by the sync tag `kind` and a buffer, in any encoding of the
three numbers. -/
def ReadsSync (bs : Bytes) (kind : ℕ) (payload rest : Bytes) : Prop :=
  ∃ r₁ r₂, readVarUint bs = some (0, r₁) ∧ readVarUint r₁ = some (kind, r₂) ∧
    readBuf r₂ = some (payload, rest)

/-- What the code relies on about frames. -/
structure WireFormat : Prop where
  decode_nil : Y.decodeMessage [] = .error .endOfBuffer
  decode_shortens {bs rest : Bytes} {m : Message} :
    Y.decodeMessage bs = .ok (m, rest) → rest.length < bs.length
  decode_syncStep2 {bs payload rest : Bytes} :
    Y.decodeMessage bs = .ok (.sync (.syncStep2 payload), rest) ↔ ReadsSync bs 1 payload rest
  decode_update {bs payload rest : Bytes} :
    Y.decodeMessage bs = .ok (.sync (.update payload), rest) ↔ ReadsSync bs 2 payload rest
  encode_update (payload : Bytes) :
    Y.encodeMessage (.sync (.update payload)) =
      writeVarUint 0 ++ writeVarUint 2 ++ writeBuf payload
  decode_encode_sync (m : SyncMessage) :
    Y.decodeMessage (Y.encodeMessage (.sync m)) = .ok (.sync m, [])

variable {Y} {needs : Piece → Piece → Prop} {refused : Piece → Prop}

lemma integrated_subset_held {d : Y.Doc} : Y.integrated d ⊆ Y.held d := Set.subset_union_left

@[simp] lemma contentOf?_none : Y.contentOf? none = ∅ := rfl

@[simp] lemma contentOf?_some (b : Bytes) : Y.contentOf? (some b) = Y.contentOf b := rfl

lemma contentOf_of_decode {b : Bytes} {u : Update} (h : Y.decodeUpdate b = some u) :
    Y.contentOf b = u.content := by
  simp [contentOf, h]

lemma Accepts.mono {S T : Set Piece} (h : Accepts needs refused T) (hST : S ⊆ T) :
    Accepts needs refused S :=
  fun a ha => h a (Causal.integrated_mono hST ha)

@[simp] lemma accepts_empty : Accepts needs refused ∅ := by
  simp [Accepts]

lemma beyond_empty (a : Piece) : Beyond {} a := by
  cases a <;> simp [Beyond]

namespace Crdt

variable (hY : Y.Crdt needs refused) {d d' : Y.Doc} {u : Update}
include hY

lemma integrated_new : Y.integrated Y.new = ∅ := by
  rw [hY.integrated_eq, hY.held_new, Causal.integrated_empty]

/-- Nothing parked means that everything held is integrated. -/
lemma parked_eq_empty_iff : Y.parked d = ∅ ↔ Causal.SelfContained needs (Y.held d) := by
  rw [hY.parked_eq, Causal.parked_eq_empty]

lemma selfContained_integrated (d : Y.Doc) : Causal.SelfContained needs (Y.integrated d) := by
  rw [hY.integrated_eq]
  exact Causal.selfContained_integrated _

/-- A full encoding carries everything the document holds. -/
lemma contentOf_encode (d : Y.Doc) (sv : StateVector) :
    Y.contentOf (Y.encodeStateAsUpdate d sv) = {a ∈ Y.integrated d | Beyond sv a} ∪ Y.parked d := by
  obtain ⟨u, hu, hc⟩ := hY.decode_encode d sv
  rw [contentOf_of_decode hu, hc]

lemma contentOf_encode_full (d : Y.Doc) : Y.contentOf (Y.encodeStateAsUpdate d {}) = Y.held d := by
  rw [hY.contentOf_encode]
  simp [beyond_empty, held]

end Crdt

end Yrs

end Yrby
