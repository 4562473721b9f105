import Yrby.Engine.Yrs

/-!
# The protocol helpers (`protocol.rs`) and the native document (`lib.rs`)

A translation of the Rust side over the engine `Yrs`, function by function, with one lemma per
function saying what it computes in terms of content.  `none` stands for an `Err`, which the
bindings raise as `Y::Error`.

The lemmas the store builds on are `contentOf_compactedStateUpdate` (a compacted encoding carries
exactly the integrated part) and `subset_of_updateIsReady` (an update that is ready against a
document adds nothing to the integrated part of any larger content it came from).
-/

namespace Yrby.Yrs

open Wire

variable (Y : Yrs)

/-! ## Frames -/

/-- `classify_message`: a non-zero code only for exactly one well-formed message that consumes
the whole buffer. -/
def classifyMessage (bytes : Bytes) : ℕ :=
  match Y.decodeMessage bytes with
  | .error _ => 0
  | .ok (msg, rest) =>
      if rest ≠ [] then 0
      else
        match msg with
        | .sync (.syncStep1 _) => 1
        | .sync (.syncStep2 _) | .sync (.update _) => 2
        | .awareness => 3
        | .awarenessQuery => 4
        | .auth | .custom => 0

/-- `MessageReader`: the messages of a buffer.  A truncated message ends the iteration, any
other decoding error aborts it.  Every message takes a byte, so `fuel` is the buffer's length. -/
def readMessages : ℕ → Bytes → Option (List Message)
  | 0, _ => some []
  | fuel + 1, bytes =>
      match Y.decodeMessage bytes with
      | .error .endOfBuffer => some []
      | .error .other => none
      | .ok (msg, rest) => (readMessages fuel rest).map (msg :: ·)

/-- The payload of a message that changes the document. -/
def documentPayload : Message → Option Bytes
  | .sync (.update u) | .sync (.syncStep2 u) => some u
  | _ => none

/-- `merged_doc_update`: the update a frame carries, or `some none` when it carries no document
change. -/
def mergedDocUpdate (bytes : Bytes) : Option (Option Bytes) :=
  match Y.readMessages bytes.length bytes with
  | none => none
  | some msgs =>
      match msgs.filterMap documentPayload with
      | [] => some none
      | updates =>
          let merged :=
            match updates with
            | [u] => some u
            | _ => Y.mergeUpdates updates
          merged.bind fun merged =>
            (Y.decodeUpdate merged).map fun update => if update.isNoOp then none else some merged

/-! ## Documents -/

/-- `RbDoc::apply_update`: decode, then apply. -/
def applyBytes (d : Y.Doc) (bytes : Bytes) : Option Y.Doc :=
  (Y.decodeUpdate bytes).bind (Y.applyUpdate d)

/-- Apply updates one after the other. -/
def applyAll (d : Y.Doc) (updates : List Bytes) : Option Y.Doc := updates.foldlM Y.applyBytes d

/-- `doc.apply_update(state) if state` -/
def applyOptional (d : Y.Doc) : Option Bytes → Option Y.Doc
  | none => some d
  | some bytes => Y.applyBytes d bytes

/-- `has_pending` -/
def hasPending (d : Y.Doc) : Bool := Y.pendingUpdate d || Y.pendingDs d

/-- `integrated_update`: the integrated state against `sv`, without anything parked. -/
def integratedUpdate (d : Y.Doc) (sv : StateVector) : Option Bytes :=
  if !Y.pendingUpdate d && !Y.pendingDs d then some (Y.encodeStateAsUpdate d sv)
  else
    (Y.applyBytes Y.new (Y.encodeStateAsUpdate d {})).map fun clean =>
      Y.encodeStateAsUpdate (Y.prunePending clean) sv

/-- `RbDoc::compacted_state_update` -/
def compactedStateUpdate (d : Y.Doc) : Option Bytes := Y.integratedUpdate d {}

/-- `update_is_ready`: the clock bound rejects, a trial integration decides. -/
def updateIsReady (d : Y.Doc) (bytes : Bytes) : Option Bool :=
  (Y.decodeUpdate bytes).bind fun update =>
    if !(Y.stateVector d).covers update.stateVectorLower then some false
    else
      (Y.integratedUpdate d {}).bind fun seed =>
        (Y.applyBytes Y.new seed).bind fun probe =>
          (Y.applyUpdate probe update).map fun probe => !Y.hasPending probe

/-- An insertion past a non-zero cap reveals a gap hidden behind a skip. -/
def hidesGap (update : Update) : Bool :=
  update.insertions.any fun e =>
    decide (0 < update.stateVector.get e.1) &&
      e.2.any fun range => decide (update.stateVector.get e.1 < range.2)

/-- `update_advances_doc` -/
def updateAdvancesDoc (d : Y.Doc) (bytes : Bytes) : Option Bool :=
  (Y.decodeUpdate bytes).bind fun update =>
    let hasDeletes := !update.deleteSetIsEmpty
    if hidesGap update then some true
    else if !hasDeletes && !(Y.stateVector d).covers update.stateVector then some true
    else
      (Y.applyBytes Y.new (Y.encodeStateAsUpdate d {})).bind fun probe =>
        (Y.applyUpdate probe update).map fun after =>
          if hasDeletes then
            decide (Y.encodeStateAsUpdate probe {} ≠ Y.encodeStateAsUpdate after {})
          else if !(Y.stateVector probe).same (Y.stateVector after) then true
          else Y.hasPending after != Y.hasPending probe

/-- `RbDoc::sync_step1` -/
def syncStep1 (d : Y.Doc) : Bytes := Y.encodeMessage (.sync (.syncStep1 (Y.stateVector d)))

/-- `RbDoc::handle_sync_message`: the document afterwards, and the message type, sync type and
response. -/
def handleSyncMessage (d : Y.Doc) (bytes : Bytes) : Option (Y.Doc × ℕ × ℕ × Bytes) :=
  match Y.decodeMessage bytes with
  | .error _ => none
  | .ok (.sync (.syncStep1 sv), _) =>
      some (d, 0, 0, Y.encodeMessage (.sync (.syncStep2 (Y.encodeStateAsUpdate d sv))))
  | .ok (.sync (.syncStep2 update), _) => (Y.applyBytes d update).map fun d => (d, 0, 1, [])
  | .ok (.sync (.update update), _) => (Y.applyBytes d update).map fun d => (d, 0, 2, [])
  | .ok (.awareness, _) => some (d, 1, 0, [])
  | .ok (_, _) => none

/-- `Y.wrap_update` -/
def wrapUpdate (update : Bytes) : Bytes := Y.encodeMessage (.sync (.update update))

variable {Y} {needs : Piece → Piece → Prop} {refused : Piece → Prop}

/-! ## What the frame helpers read -/

section Frames

variable {bytes payload : Bytes}

/-- The frame is one document update, whichever of the two tags carries it. -/
def IsUpdateFrame (Y : Yrs) (bytes payload : Bytes) : Prop :=
  ∃ m, Y.decodeMessage bytes = .ok (m, []) ∧ documentPayload m = some payload

lemma documentPayload_eq_some {m : Message} :
    documentPayload m = some payload ↔
      m = .sync (.update payload) ∨ m = .sync (.syncStep2 payload) := by
  unfold documentPayload
  split <;> simp_all [eq_comm]

/-- The code of a message, zero for a kind that is not handled. -/
def messageKind : Message → ℕ
  | .sync (.syncStep1 _) => 1
  | .sync (.syncStep2 _) | .sync (.update _) => 2
  | .awareness => 3
  | .awarenessQuery => 4
  | .auth | .custom => 0

/-- A frame with a code is exactly one well-formed message of that kind. -/
lemma classifyMessage_eq_iff {kind : ℕ} (hkind : kind ≠ 0) :
    Y.classifyMessage bytes = kind ↔
      ∃ m, Y.decodeMessage bytes = .ok (m, []) ∧ messageKind m = kind := by
  unfold classifyMessage
  split
  · rename_i e he
    simp [he, hkind.symm]
  · rename_i m rest hm
    simp only [hm, Except.ok.injEq, Prod.mk.injEq]
    by_cases hrest : rest = []
    · subst hrest
      simp only [ne_eq, not_true_eq_false, if_false]
      split <;> simp [messageKind]
    · simp [hrest, hkind.symm]

/-- Kind 1 is exactly one SyncStep1. -/
lemma classifyMessage_eq_one :
    Y.classifyMessage bytes = 1 ↔
      ∃ sv, Y.decodeMessage bytes = .ok (.sync (.syncStep1 sv), []) := by
  rw [classifyMessage_eq_iff one_ne_zero]
  constructor
  · rintro ⟨m, hm, hkind⟩
    unfold messageKind at hkind
    split at hkind <;> simp_all
  · rintro ⟨sv, hsv⟩
    exact ⟨_, hsv, rfl⟩

/-- Kind 2 is exactly one well-formed document update. -/
lemma classifyMessage_eq_two :
    Y.classifyMessage bytes = 2 ↔ ∃ payload, IsUpdateFrame Y bytes payload := by
  rw [classifyMessage_eq_iff two_ne_zero]
  simp only [IsUpdateFrame, documentPayload_eq_some]
  constructor
  · rintro ⟨m, hm, hkind⟩
    unfold messageKind at hkind
    split at hkind <;> simp_all
  · rintro ⟨payload, m, hm, rfl | rfl⟩ <;> exact ⟨_, hm, rfl⟩

/-- A frame of one update carries its payload, unless the payload is a no-op. -/
lemma mergedDocUpdate_of_isUpdateFrame (hw : Y.WireFormat) (h : IsUpdateFrame Y bytes payload) :
    Y.mergedDocUpdate bytes =
      (Y.decodeUpdate payload).map fun u => if u.isNoOp then none else some payload := by
  obtain ⟨m, hm, hpayload⟩ := h
  obtain ⟨n, hn⟩ : ∃ n, bytes.length = n + 1 :=
    Nat.exists_eq_succ_of_ne_zero (Nat.ne_of_gt (hw.decode_shortens hm))
  have hnil : Y.readMessages n [] = some [] := by
    cases n with
    | zero => rfl
    | succ n => simp [readMessages, hw.decode_nil]
  simp [mergedDocUpdate, hn, readMessages, hm, hnil, hpayload]

/-- The update recorded for a frame is the payload the frame carries. -/
lemma payload_of_mergedDocUpdate (hw : Y.WireFormat) {update : Bytes}
    (h : IsUpdateFrame Y bytes payload) (hm : Y.mergedDocUpdate bytes = some (some update)) :
    update = payload ∧ (Y.decodeUpdate payload).isSome := by
  rw [mergedDocUpdate_of_isUpdateFrame hw h] at hm
  obtain ⟨u, hu, hm⟩ := Option.map_eq_some_iff.1 hm
  split at hm
  · simp at hm
  · exact ⟨(Option.some.inj hm).symm, by simp [hu]⟩

/-- The no-op filter lets every payload with content through. -/
lemma mergedDocUpdate_of_content (hw : Y.WireFormat) (h : IsUpdateFrame Y bytes payload)
    (hc : (Y.contentOf payload).Nonempty) : Y.mergedDocUpdate bytes = some (some payload) := by
  rw [mergedDocUpdate_of_isUpdateFrame hw h]
  unfold contentOf at hc
  split at hc
  · rename_i u hu
    have hno : ¬u.isNoOp := fun hno => by
      rw [Update.content_eq_empty_of_isNoOp hno] at hc
      exact Set.not_nonempty_empty hc
    simp [hu, hno]
  · exact absurd hc Set.not_nonempty_empty

end Frames

/-! ## What the helpers compute -/

section Documents

variable (hY : Y.Crdt needs refused) {d d' : Y.Doc} {bytes : Bytes}
include hY

lemma held_applyBytes (h : Y.applyBytes d bytes = some d') :
    Y.held d' = Y.held d ∪ Y.contentOf bytes := by
  obtain ⟨u, hu, ha⟩ := Option.bind_eq_some_iff.1 h
  rw [contentOf_of_decode hu]
  exact hY.held_apply ha

lemma held_applyOptional {state : Option Bytes} (h : Y.applyOptional d state = some d') :
    Y.held d' = Y.held d ∪ Y.contentOf? state := by
  cases state with
  | none => simpa using (Option.some.inj h) ▸ rfl
  | some bytes => exact held_applyBytes hY h

lemma held_applyAll {updates : List Bytes} (h : Y.applyAll d updates = some d') :
    Y.held d' = Y.held d ∪ ⋃ b ∈ updates, Y.contentOf b := by
  induction updates generalizing d with
  | nil => simpa [applyAll] using congrArg Y.held (Option.some.inj h).symm
  | cons b updates ih =>
      obtain ⟨m, hm, hrest⟩ : ∃ m, Y.applyBytes d b = some m ∧ Y.applyAll m updates = some d' := by
        simpa [applyAll, List.foldlM_cons, Option.bind_eq_some_iff] using h
      rw [ih hrest, held_applyBytes hY hm]
      simp [Set.union_assoc]

lemma hasPending_iff : Y.hasPending d ↔ (Y.parked d).Nonempty := by
  simp only [hasPending, Bool.or_eq_true, hY.pendingUpdate_iff, hY.pendingDs_iff]
  constructor
  · rintro (⟨id, h⟩ | ⟨id, h⟩) <;> exact ⟨_, h⟩
  · rintro ⟨a, ha⟩
    cases a with
    | block id => exact .inl ⟨id, ha⟩
    | deletion id => exact .inr ⟨id, ha⟩

lemma hasPending_eq_false_iff : Y.hasPending d = false ↔ Y.parked d = ∅ := by
  rw [← Bool.not_eq_true, hasPending_iff hY, Set.not_nonempty_iff_eq_empty]

/-- A document with nothing pending has integrated all it holds. -/
lemma integrated_eq_held_of_not_hasPending (h : Y.hasPending d = false) :
    Y.integrated d = Y.held d := by
  rw [hY.integrated_eq]
  exact ((hY.parked_eq_empty_iff).1 ((hasPending_eq_false_iff hY).1 h)).integrated_eq

lemma parked_prunePending (d : Y.Doc) : Y.parked (Y.prunePending d) = ∅ := by
  rw [hY.parked_eq_empty_iff, hY.held_prune]
  exact hY.selfContained_integrated d

lemma integrated_prunePending (d : Y.Doc) : Y.integrated (Y.prunePending d) = Y.integrated d := by
  rw [hY.integrated_eq, hY.held_prune]
  exact (hY.selfContained_integrated d).integrated_eq

/-- Both paths of `integrated_update` encode the integrated part beyond `sv`, and nothing else. -/
theorem contentOf_integratedUpdate {sv : StateVector} (h : Y.integratedUpdate d sv = some bytes) :
    Y.contentOf bytes = {a ∈ Y.integrated d | Beyond sv a} := by
  unfold integratedUpdate at h
  split at h
  · rename_i hclean
    obtain rfl := Option.some.inj h
    have hpark : Y.parked d = ∅ := by
      rw [← hasPending_eq_false_iff hY]
      simpa [hasPending] using hclean
    rw [hY.contentOf_encode, hpark, Set.union_empty]
  · obtain ⟨clean, hclean, rfl⟩ := Option.map_eq_some_iff.1 h
    have hheld : Y.held clean = Y.held d := by
      rw [held_applyBytes hY hclean, hY.held_new, Set.empty_union, hY.contentOf_encode_full]
    rw [hY.contentOf_encode, parked_prunePending hY, Set.union_empty, integrated_prunePending hY,
      hY.integrated_eq, hheld, ← hY.integrated_eq]

lemma contentOf_compactedStateUpdate (h : Y.compactedStateUpdate d = some bytes) :
    Y.contentOf bytes = Y.integrated d := by
  rw [contentOf_integratedUpdate hY h]
  simp [beyond_empty]

/-- A ready update integrates completely over the document's integrated content. -/
theorem selfContained_of_updateIsReady (h : Y.updateIsReady d bytes = some true) :
    Causal.SelfContained needs (Y.integrated d ∪ Y.contentOf bytes) := by
  obtain ⟨u, hu, h⟩ := Option.bind_eq_some_iff.1 h
  split at h
  · simp at h
  · obtain ⟨seed, hseed, h⟩ := Option.bind_eq_some_iff.1 h
    obtain ⟨probe, hprobe, h⟩ := Option.bind_eq_some_iff.1 h
    obtain ⟨after, hafter, h⟩ := Option.map_eq_some_iff.1 h
    have hheld : Y.held after = Y.integrated d ∪ Y.contentOf bytes := by
      rw [hY.held_apply hafter, held_applyBytes hY hprobe, hY.held_new, Set.empty_union,
        contentOf_compactedStateUpdate hY hseed, contentOf_of_decode hu]
    rw [← hheld, ← hY.parked_eq_empty_iff, ← hasPending_eq_false_iff hY]
    simpa using h

/-- If a document's integrated content is the integrated part of `S`, an update that came from
`S` and is ready against the document carries nothing the document lacks. -/
theorem subset_of_updateIsReady {S : Set Piece} (hd : Y.integrated d = Causal.integrated needs S)
    (hS : Y.contentOf bytes ⊆ S) (h : Y.updateIsReady d bytes = some true) :
    Y.contentOf bytes ⊆ Y.integrated d := by
  have := selfContained_of_updateIsReady hY h
  rw [hd] at this ⊢
  exact Causal.subset_of_selfContained_union hS this

end Documents

/-! ## What the helpers accept -/

section Acceptance

variable (hY : Y.Crdt needs refused) {d d₀ : Y.Doc} {bytes : Bytes}
include hY

/-- An update is applied exactly when it decodes and nothing that would integrate is refused. -/
lemma applyBytes_isSome :
    (Y.applyBytes d bytes).isSome ↔
      (Y.decodeUpdate bytes).isSome ∧ Accepts needs refused (Y.held d ∪ Y.contentOf bytes) := by
  cases hu : Y.decodeUpdate bytes with
  | none => simp [applyBytes, hu]
  | some u => simp [applyBytes, hu, hY.apply_isSome, contentOf_of_decode hu]

/-- A list of updates is applied exactly when all of them decode and nothing that integrates from
all of them together is refused: the order does not matter. -/
theorem applyAll_isSome {updates : List Bytes} (hd : Accepts needs refused (Y.held d)) :
    (Y.applyAll d updates).isSome ↔
      (∀ b ∈ updates, (Y.decodeUpdate b).isSome) ∧
        Accepts needs refused (Y.held d ∪ ⋃ b ∈ updates, Y.contentOf b) := by
  induction updates generalizing d with
  | nil => simp [applyAll, hd]
  | cons b updates ih =>
      have hcons : Y.applyAll d (b :: updates) =
          (Y.applyBytes d b).bind fun m => Y.applyAll m updates := by
        simp [applyAll, List.foldlM_cons]
      have hunion : Y.held d ∪ ⋃ x ∈ b :: updates, Y.contentOf x =
          (Y.held d ∪ Y.contentOf b) ∪ ⋃ x ∈ updates, Y.contentOf x := by
        simp [Set.union_assoc]
      rw [hcons, hunion]
      have happly : (Y.applyBytes d b).isSome ↔ _ := applyBytes_isSome hY
      cases hb : Y.applyBytes d b with
      | none =>
          -- the first update already fails, and a larger union fails with it
          simp only [hb, Option.isSome_none, Bool.false_eq_true, false_iff, not_and] at happly
          simp only [Option.bind_none, Option.isSome_none, Bool.false_eq_true, false_iff, not_and]
          exact fun hdec hacc => happly (hdec b (by simp)) (hacc.mono Set.subset_union_left)
      | some m =>
          simp only [hb, Option.isSome_some, true_iff] at happly
          have hheld := held_applyBytes hY hb
          simp only [Option.bind_some]
          rw [ih (by rw [hheld]; exact happly.2), hheld]
          simp [happly.1]

lemma applyOptional_isSome {state : Option Bytes} (hd : Accepts needs refused (Y.held d)) :
    (Y.applyOptional d state).isSome ↔
      (∀ b ∈ state, (Y.decodeUpdate b).isSome) ∧
        Accepts needs refused (Y.held d ∪ Y.contentOf? state) := by
  cases state with
  | none => simp [applyOptional, hd]
  | some bytes => simp [applyOptional, applyBytes_isSome hY]

/-- What a document encodes decodes again. -/
lemma decodeUpdate_encode_isSome (d : Y.Doc) (sv : StateVector) :
    (Y.decodeUpdate (Y.encodeStateAsUpdate d sv)).isSome := by
  obtain ⟨u, hu, -⟩ := hY.decode_encode d sv
  simp [hu]

lemma contentOf_encode_subset (d : Y.Doc) (sv : StateVector) :
    Y.contentOf (Y.encodeStateAsUpdate d sv) ⊆ Y.held d := by
  rw [hY.contentOf_encode]
  exact Set.union_subset_union_left _ fun a ha => ha.1

lemma applyBytes_encode (sv : StateVector) (h : Accepts needs refused (Y.held d₀ ∪ Y.held d)) :
    (Y.applyBytes d₀ (Y.encodeStateAsUpdate d sv)).isSome :=
  (applyBytes_isSome hY).2 ⟨decodeUpdate_encode_isSome hY d sv,
    h.mono (Set.union_subset_union_right _ (contentOf_encode_subset hY d sv))⟩

lemma applyBytes_new_encode (sv : StateVector) (h : Accepts needs refused (Y.held d)) :
    (Y.applyBytes Y.new (Y.encodeStateAsUpdate d sv)).isSome :=
  applyBytes_encode hY sv (by rwa [hY.held_new, Set.empty_union])

lemma integratedUpdate_isSome (sv : StateVector) (h : Accepts needs refused (Y.held d)) :
    (Y.integratedUpdate d sv).isSome := by
  unfold integratedUpdate
  split
  · rfl
  · simpa using applyBytes_new_encode hY {} h

lemma compactedStateUpdate_isSome (h : Accepts needs refused (Y.held d)) :
    (Y.compactedStateUpdate d).isSome :=
  integratedUpdate_isSome hY {} h

lemma decodeUpdate_of_integratedUpdate {sv : StateVector}
    (h : Y.integratedUpdate d sv = some bytes) : (Y.decodeUpdate bytes).isSome := by
  unfold integratedUpdate at h
  split at h
  · rw [← Option.some.inj h]
    exact decodeUpdate_encode_isSome hY d sv
  · obtain ⟨clean, -, rfl⟩ := Option.map_eq_some_iff.1 h
    exact decodeUpdate_encode_isSome hY _ sv

/-- The trial integration of `update_is_ready` fails only on content that yrs refuses. -/
lemma updateIsReady_isSome (hdec : (Y.decodeUpdate bytes).isSome)
    (h : Accepts needs refused (Y.held d ∪ Y.contentOf bytes)) :
    (Y.updateIsReady d bytes).isSome := by
  obtain ⟨u, hu⟩ := Option.isSome_iff_exists.1 hdec
  rw [contentOf_of_decode hu] at h
  simp only [updateIsReady, hu, Option.bind_some]
  split
  · rfl
  · have hd := h.mono Set.subset_union_left
    obtain ⟨seed, hseed⟩ := Option.isSome_iff_exists.1 (integratedUpdate_isSome hY {} hd)
    have hcontent := contentOf_compactedStateUpdate hY hseed
    obtain ⟨probe, hprobe⟩ : ∃ probe, Y.applyBytes Y.new seed = some probe := by
      refine Option.isSome_iff_exists.1 ((applyBytes_isSome hY).2
        ⟨decodeUpdate_of_integratedUpdate hY hseed, ?_⟩)
      rw [hY.held_new, Set.empty_union, hcontent]
      exact hd.mono integrated_subset_held
    have hheld : Y.held probe = Y.integrated d := by
      rw [held_applyBytes hY hprobe, hY.held_new, Set.empty_union, hcontent]
    have happly : (Y.applyUpdate probe u).isSome := by
      rw [hY.apply_isSome, hheld]
      exact h.mono (Set.union_subset_union_left _ integrated_subset_held)
    simpa [hseed, hprobe] using happly

/-- So does the one of `update_advances_doc`. -/
lemma updateAdvancesDoc_isSome (hdec : (Y.decodeUpdate bytes).isSome)
    (h : Accepts needs refused (Y.held d ∪ Y.contentOf bytes)) :
    (Y.updateAdvancesDoc d bytes).isSome := by
  obtain ⟨u, hu⟩ := Option.isSome_iff_exists.1 hdec
  rw [contentOf_of_decode hu] at h
  simp only [updateAdvancesDoc, hu, Option.bind_some]
  split
  · rfl
  · split
    · rfl
    · obtain ⟨probe, hprobe⟩ := Option.isSome_iff_exists.1
        (applyBytes_new_encode hY {} (h.mono Set.subset_union_left))
      have hheld : Y.held probe = Y.held d := by
        rw [held_applyBytes hY hprobe, hY.held_new, Set.empty_union, hY.contentOf_encode_full]
      have happly : (Y.applyUpdate probe u).isSome := by
        rw [hY.apply_isSome, hheld]
        exact h
      simpa [hprobe] using happly

end Acceptance

end Yrby.Yrs
