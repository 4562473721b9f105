import Yrby.Engine.Reference
import Mathlib.Data.List.Nodup

/-!
# The document store (`Y::Document`)

One document: the `state` column of its `y_documents` row, and its rows of
`y_document_updates`, the uncompacted tail.  `load_state` folds the snapshot and the tail;
`compact!` moves everything integrable into the snapshot, deletes the rows it captured and marks
the others pending.

The functions are translated as what they compute from what they read.  A compaction is computed
by `compaction` from the state and rows read under the lock, as a `Compaction` (the new state
and the ids to delete and to mark), and written by `Document.commit`; `none` is an exception,
which rolls the transaction back.

`Compacts` is the one specification of both paths of `compact!`: the new state carries exactly
the integrated part of what was read, and a deleted row is contained in it.  The last section
derives that a compaction neither loses nor changes anything a reader can see, as long as the
snapshot it starts from has nothing parked, which is so for every snapshot it writes.
-/

namespace Yrby

open Wire

/-! ## Tables -/

/-- A row of `y_document_updates`. -/
structure Row where
  id : ℕ
  payload : Bytes
  pending : Bool := false
  deriving DecidableEq

/-- The update rows of one document.  `id` is the primary key. -/
structure Table where
  rows : List Row
  nodup : (rows.map Row.id).Nodup

namespace Table

def empty : Table := ⟨[], List.nodup_nil⟩

/-- `updates.create!`, under an id the database picks; `none` when the id is taken. -/
def insert (t : Table) (id : ℕ) (payload : Bytes) : Option Table :=
  if h : id ∈ t.rows.map Row.id then none
  else some ⟨t.rows ++ [⟨id, payload, false⟩], by
    simpa [List.nodup_append] using
      ⟨t.nodup, fun r hr hid => h (List.mem_map.2 ⟨r, hr, hid⟩)⟩⟩

/-- `updates.where(id: ids).delete_all` -/
def deleteAll (t : Table) (ids : List ℕ) : Table :=
  ⟨t.rows.filter fun r => decide (r.id ∉ ids), t.nodup.sublist (List.filter_sublist.map _)⟩

/-- The row as `update_all(pending: true)` on `ids` leaves it. -/
def mark (ids : List ℕ) (r : Row) : Row := if r.id ∈ ids then { r with pending := true } else r

@[simp] lemma mark_id (ids : List ℕ) (r : Row) : (mark ids r).id = r.id := by
  unfold mark
  split <;> rfl

@[simp] lemma mark_payload (ids : List ℕ) (r : Row) : (mark ids r).payload = r.payload := by
  unfold mark
  split <;> rfl

/-- `updates.where(id: ids).update_all(pending: true)` -/
def markPending (t : Table) (ids : List ℕ) : Table :=
  ⟨t.rows.map (mark ids), by simpa [List.map_map, Function.comp_def] using t.nodup⟩

/-- `updates.where(pending: false).count` -/
def cleanCount (t : Table) : ℕ := (t.rows.filter fun r => !r.pending).length

@[simp] lemma deleteAll_nil (t : Table) : t.deleteAll [] = t := by
  simp [deleteAll]

@[simp] lemma markPending_nil (t : Table) : t.markPending [] = t := by
  have hmark : mark [] = id := funext fun r => by simp [mark]
  simp [markPending, hmark]

/-- Two rows of a table with the same id are the same row. -/
lemma eq_of_id {t : Table} {r q : Row} (hr : r ∈ t.rows) (hq : q ∈ t.rows) (h : r.id = q.id) :
    r = q :=
  List.inj_on_of_nodup_map t.nodup hr hq h

lemma mem_insert {t t' : Table} {id : ℕ} {payload : Bytes} (h : t.insert id payload = some t')
    {r : Row} : r ∈ t'.rows ↔ r ∈ t.rows ∨ r = ⟨id, payload, false⟩ := by
  unfold insert at h
  split at h
  · simp at h
  · rw [← Option.some.inj h]
    simp

lemma mem_deleteAll {t : Table} {ids : List ℕ} {r : Row} :
    r ∈ (t.deleteAll ids).rows ↔ r ∈ t.rows ∧ r.id ∉ ids := by
  simp [deleteAll]

lemma mem_markPending {t : Table} {ids : List ℕ} {r : Row} :
    r ∈ (t.markPending ids).rows ↔ ∃ q ∈ t.rows, mark ids q = r := by
  simp [markPending]

end Table

/-- One document: the snapshot column and the tail. -/
structure Document where
  state : Option Bytes := none
  updates : Table := .empty

/-- What a compaction writes: the state column, the rows to delete and the rows to mark. -/
structure Compaction where
  state : Option Bytes
  deleted : List ℕ := []
  marked : List ℕ := []
  deriving DecidableEq

/-- The writes of a compaction, at its commit. -/
def Document.commit (d : Document) (c : Compaction) : Document where
  state := c.state
  updates := (d.updates.deleteAll c.deleted).markPending c.marked

/-- Writing back the state that was read changes nothing. -/
@[simp] lemma Document.commit_self (d : Document) : d.commit { state := d.state } = d := by
  simp [Document.commit]

/-! ## Loading and compacting -/

namespace Yrs

variable (Y : Yrs)

/-- A fresh document with the state, then every row, applied to it. -/
def fold (state : Option Bytes) (payloads : List Bytes) : Option Y.Doc :=
  (Y.applyOptional Y.new state).bind fun doc => Y.applyAll doc payloads

/-- `load_state`, from the tail and the snapshot it read.  The result is the nullable state. -/
def loadState (tail : List Bytes) (snapshot : Option Bytes) : Option (Option Bytes) :=
  if tail = [] then some snapshot
  else (Y.fold snapshot tail).map fun doc => some (Y.encodeStateAsUpdate doc {})

/-- `compact_rows`: `some none` reports a gap. -/
def compactRows (state : Option Bytes) (rows : List Row) : Option (Option Compaction) :=
  if rows = [] then some (some { state := state })
  else
    (Y.fold state (rows.map Row.payload)).bind fun doc =>
      if Y.hasPending doc then some none
      else
        (Y.compactedStateUpdate doc).map fun newState =>
          some { state := some newState, deleted := rows.map Row.id }

/-- The row carries the gap, builds on it, or adds something: it stays in the tail. -/
def staysPending (base : Y.Doc) (payload : Bytes) : Option Bool :=
  (Y.updateIsReady base payload).bind fun ready =>
    if !ready then some true else Y.updateAdvancesDoc base payload

/-- `rows.partition`, with a predicate that may raise. -/
def partitionRows (stays : Row → Option Bool) : List Row → Option (List Row × List Row)
  | [] => some ([], [])
  | r :: rows =>
      (stays r).bind fun s =>
        (partitionRows stays rows).map fun (tail, captured) =>
          if s then (r :: tail, captured) else (tail, r :: captured)

/-- `state || Y::Doc.new.compacted_state_update` -/
def currentState : Option Bytes → Option Bytes
  | some state => some state
  | none => Y.compactedStateUpdate Y.new

/-- `compact_around_gap` -/
def compactAroundGap (state : Option Bytes) (rows : List Row) : Option Compaction :=
  (Y.fold state (rows.map Row.payload)).bind fun folded =>
    (Y.compactedStateUpdate folded).bind fun newState =>
      (Y.currentState state).bind fun current =>
        (Y.applyBytes Y.new newState).bind fun base =>
          (partitionRows (fun r => Y.staysPending base r.payload) rows).map fun (tail, captured) =>
            { state := if newState = current then state else some newState,
              deleted := captured.map Row.id, marked := tail.map Row.id }

/-- The body of `compact!`, from the state and rows read under the lock. -/
def compaction (state : Option Bytes) (rows : List Row) : Option Compaction :=
  if rows = [] then some { state := state }
  else
    (Y.compactRows state rows).bind fun
      | some c => some c
      | none => Y.compactAroundGap state rows

/-- `load_state` on a document that nothing else touches. -/
def load (d : Document) : Option (Option Bytes) :=
  Y.loadState (d.updates.rows.map Row.payload) d.state

/-- `compact!` on a document that nothing else touches. -/
def compact (d : Document) : Option Document :=
  (Y.compaction d.state d.updates.rows).map d.commit

/-- `sync_load_doc` with the default storage: a fresh document with the loaded state applied. -/
def loadDoc (d : Document) : Option Y.Doc := (Y.load d).bind (Y.applyOptional Y.new)

/-- The content of a list of rows. -/
def contentOfRows (rows : List Row) : Set Piece := ⋃ r ∈ rows, Y.contentOf r.payload

/-- Everything a document has stored. -/
def stored (d : Document) : Set Piece := Y.contentOf? d.state ∪ Y.contentOfRows d.updates.rows

variable {Y} {needs : Piece → Piece → Prop} {refused : Piece → Prop}

lemma contentOfRows_eq (rows : List Row) :
    Y.contentOfRows rows = ⋃ b ∈ rows.map Row.payload, Y.contentOf b := by
  simp [contentOfRows]

lemma contentOf_subset_contentOfRows {rows : List Row} {r : Row} (hr : r ∈ rows) :
    Y.contentOf r.payload ⊆ Y.contentOfRows rows :=
  Set.subset_iUnion₂ (s := fun (q : Row) (_ : q ∈ rows) => Y.contentOf q.payload) r hr

lemma contentOfRows_subset {rows : List Row} {S : Set Piece} :
    Y.contentOfRows rows ⊆ S ↔ ∀ r ∈ rows, Y.contentOf r.payload ⊆ S :=
  Set.iUnion₂_subset_iff

lemma mem_partitionRows {stays : Row → Option Bool} {rows tail captured : List Row}
    (h : partitionRows stays rows = some (tail, captured)) (r : Row) :
    (r ∈ tail ↔ r ∈ rows ∧ stays r = some true) ∧
      (r ∈ captured ↔ r ∈ rows ∧ stays r = some false) := by
  induction rows generalizing tail captured with
  | nil =>
      obtain ⟨rfl, rfl⟩ : [] = tail ∧ [] = captured := by simpa [partitionRows] using h
      simp
  | cons q rows ih =>
      obtain ⟨s, hs, h⟩ := Option.bind_eq_some_iff.1 h
      obtain ⟨⟨tail', captured'⟩, hrest, h⟩ := Option.map_eq_some_iff.1 h
      have := ih hrest
      cases s with
      | true =>
          obtain ⟨rfl, rfl⟩ : q :: tail' = tail ∧ captured' = captured := by simpa using h
          constructor <;> grind
      | false =>
          obtain ⟨rfl, rfl⟩ : tail' = tail ∧ q :: captured' = captured := by simpa using h
          constructor <;> grind

lemma isSome_of_partitionRows {stays : Row → Option Bool} {rows : List Row}
    {parts : List Row × List Row} (h : partitionRows stays rows = some parts) {r : Row}
    (hr : r ∈ rows) : (stays r).isSome := by
  induction rows generalizing parts with
  | nil => simp at hr
  | cons q rows ih =>
      obtain ⟨s, hs, h⟩ := Option.bind_eq_some_iff.1 h
      obtain ⟨rest, hrest, -⟩ := Option.map_eq_some_iff.1 h
      rcases List.mem_cons.1 hr with rfl | hr
      · simp [hs]
      · exact ih hrest hr

lemma partitionRows_isSome {stays : Row → Option Bool} {rows : List Row}
    (h : ∀ r ∈ rows, (stays r).isSome) : (partitionRows stays rows).isSome := by
  induction rows with
  | nil => rfl
  | cons r rows ih =>
      obtain ⟨s, hs⟩ := Option.isSome_iff_exists.1 (h r (by simp))
      simpa [partitionRows, hs] using ih fun q hq => h q (by simp [hq])

section Store

variable (hY : Y.Crdt needs refused)
include hY

/-! ## Loading -/

lemma held_fold {state : Option Bytes} {payloads : List Bytes} {doc : Y.Doc}
    (h : Y.fold state payloads = some doc) :
    Y.held doc = Y.contentOf? state ∪ ⋃ b ∈ payloads, Y.contentOf b := by
  obtain ⟨d, hd, h⟩ := Option.bind_eq_some_iff.1 h
  rw [held_applyAll hY h, held_applyOptional hY hd, hY.held_new, Set.empty_union]

/-- A fold goes through exactly when everything decodes and yrs accepts the whole. -/
lemma fold_isSome {state : Option Bytes} {payloads : List Bytes} :
    (Y.fold state payloads).isSome ↔
      (∀ b ∈ state, (Y.decodeUpdate b).isSome) ∧ (∀ b ∈ payloads, (Y.decodeUpdate b).isSome) ∧
        Accepts needs refused (Y.contentOf? state ∪ ⋃ b ∈ payloads, Y.contentOf b) := by
  have hstate : (Y.applyOptional Y.new state).isSome ↔ _ :=
    applyOptional_isSome hY (by simp [hY.held_new])
  rw [hY.held_new, Set.empty_union] at hstate
  cases hd : Y.applyOptional Y.new state with
  | none =>
      simp only [fold, hd, Option.bind_none, Option.isSome_none, Bool.false_eq_true, false_iff]
      rintro ⟨hdec, -, hacc⟩
      simpa [hd] using hstate.2 ⟨hdec, hacc.mono Set.subset_union_left⟩
  | some d =>
      simp only [hd, Option.isSome_some, true_iff] at hstate
      have hheld : Y.held d = Y.contentOf? state := by
        rw [held_applyOptional hY hd, hY.held_new, Set.empty_union]
      simp only [fold, hd, Option.bind_some]
      rw [applyAll_isSome hY (by rw [hheld]; exact hstate.2), hheld]
      exact ⟨fun h => ⟨hstate.1, h⟩, fun h => h.2⟩

/-- What `load_state` returns carries the snapshot and the whole tail. -/
theorem contentOf_loadState {tail : List Bytes} {snapshot result : Option Bytes}
    (h : Y.loadState tail snapshot = some result) :
    Y.contentOf? result = Y.contentOf? snapshot ∪ ⋃ b ∈ tail, Y.contentOf b := by
  unfold loadState at h
  split at h
  · rename_i htail
    obtain rfl := Option.some.inj h
    simp [htail]
  · obtain ⟨doc, hdoc, rfl⟩ := Option.map_eq_some_iff.1 h
    rw [contentOf?_some, hY.contentOf_encode_full, held_fold hY hdoc]

lemma contentOf_load {d : Document} {result : Option Bytes} (h : Y.load d = some result) :
    Y.contentOf? result = Y.stored d := by
  rw [contentOf_loadState hY h, stored, contentOfRows_eq]

lemma held_loadDoc {d : Document} {doc : Y.Doc} (h : Y.loadDoc d = some doc) :
    Y.held doc = Y.stored d := by
  obtain ⟨result, hres, h⟩ := Option.bind_eq_some_iff.1 h
  rw [held_applyOptional hY h, hY.held_new, Set.empty_union, contentOf_load hY hres]

/-- A document opens exactly when everything in it decodes and yrs accepts the whole. -/
theorem loadDoc_isSome {d : Document} :
    (Y.loadDoc d).isSome ↔
      (∀ b ∈ d.state, (Y.decodeUpdate b).isSome) ∧
        (∀ r ∈ d.updates.rows, (Y.decodeUpdate r.payload).isSome) ∧
          Accepts needs refused (Y.stored d) := by
  have hnew : Accepts needs refused (Y.held Y.new) := by simp [hY.held_new]
  have hrows : (∀ b ∈ d.updates.rows.map Row.payload, (Y.decodeUpdate b).isSome) ↔
      ∀ r ∈ d.updates.rows, (Y.decodeUpdate r.payload).isSome := by simp
  rw [← hrows, stored, contentOfRows_eq]
  unfold loadDoc load loadState
  split
  · rename_i htail
    rw [Option.bind_some, applyOptional_isSome hY hnew, hY.held_new, Set.empty_union, htail]
    simp
  · rw [← fold_isSome hY]
    cases hdoc : Y.fold d.state (d.updates.rows.map Row.payload) with
    | none => simp
    | some doc =>
        -- the second application, of the encoded fold, cannot fail any more
        have hacc := ((fold_isSome hY).1 (Option.isSome_of_eq_some hdoc)).2.2
        rw [← held_fold hY hdoc] at hacc
        simpa [applyOptional] using applyBytes_new_encode hY {} hacc

/-! ## Compacting -/

/-- What `compact!` does with the state and rows it read, on either path. -/
structure Compacts (Y : Yrs) (needs : Piece → Piece → Prop) (state : Option Bytes)
    (rows : List Row) (c : Compaction) : Prop where
  /-- The new state is the integrated part of everything read. -/
  content :
    Y.contentOf? c.state = Causal.integrated needs (Y.contentOf? state ∪ Y.contentOfRows rows)
  /-- A deleted row was read, and its content is in the new state. -/
  captured :
    ∀ id ∈ c.deleted, ∃ r ∈ rows, r.id = id ∧ Y.contentOf r.payload ⊆ Y.contentOf? c.state
  marked : ∀ id ∈ c.marked, ∃ r ∈ rows, r.id = id
  covered : ∀ r ∈ rows, r.id ∈ c.deleted ∨ r.id ∈ c.marked

lemma held_foldRows {state : Option Bytes} {rows : List Row} {doc : Y.Doc}
    (h : Y.fold state (rows.map Row.payload) = some doc) :
    Y.held doc = Y.contentOf? state ∪ Y.contentOfRows rows := by
  rw [held_fold hY h, contentOfRows_eq]

/-- The clean path: with nothing pending, everything read is integrated. -/
lemma compacts_of_compactRows {state : Option Bytes} {rows : List Row} {c : Compaction}
    (hne : rows ≠ []) (h : Y.compactRows state rows = some (some c)) :
    Compacts Y needs state rows c := by
  rw [compactRows, if_neg hne] at h
  obtain ⟨doc, hdoc, h⟩ := Option.bind_eq_some_iff.1 h
  have hheld := held_foldRows hY hdoc
  split at h
  · simp at h
  · rename_i hpending
    obtain ⟨newState, hnew, h⟩ := Option.map_eq_some_iff.1 h
    obtain rfl := Option.some.inj h
    have hcontent : Y.contentOf newState = Y.integrated doc :=
      contentOf_compactedStateUpdate hY hnew
    have hall : Y.integrated doc = Y.held doc :=
      integrated_eq_held_of_not_hasPending hY (by simpa using hpending)
    refine ⟨?_, ?_, by simp, fun r hr => .inl (List.mem_map_of_mem hr)⟩
    · rw [contentOf?_some, hcontent, hY.integrated_eq, hheld]
    · intro id hid
      obtain ⟨r, hr, rfl⟩ := List.mem_map.1 hid
      refine ⟨r, hr, rfl, ?_⟩
      rw [contentOf?_some, hcontent, hall, hheld]
      exact (contentOf_subset_contentOfRows hr).trans Set.subset_union_right

/-- The path around a gap: a row that is ready against the folded state is contained in it. -/
lemma compacts_of_compactAroundGap {state : Option Bytes} {rows : List Row} {c : Compaction}
    (h : Y.compactAroundGap state rows = some c) : Compacts Y needs state rows c := by
  obtain ⟨folded, hfold, h⟩ := Option.bind_eq_some_iff.1 h
  obtain ⟨newState, hnew, h⟩ := Option.bind_eq_some_iff.1 h
  obtain ⟨current, hcurrent, h⟩ := Option.bind_eq_some_iff.1 h
  obtain ⟨base, hbase, h⟩ := Option.bind_eq_some_iff.1 h
  obtain ⟨⟨tail, captured⟩, hpart, rfl⟩ := Option.map_eq_some_iff.1 h
  have hheld := held_foldRows hY hfold
  have hcontent : Y.contentOf newState =
      Causal.integrated needs (Y.contentOf? state ∪ Y.contentOfRows rows) := by
    rw [contentOf_compactedStateUpdate hY hnew, hY.integrated_eq, hheld]
  -- whether or not the state column is written, it ends up with this content
  have hstate : Y.contentOf? (if newState = current then state else some newState) =
      Y.contentOf newState := by
    split
    · rename_i heq
      subst heq
      cases state with
      | some s => rw [← Option.some.inj hcurrent, contentOf?_some]
      | none =>
          rw [contentOf_compactedStateUpdate hY hcurrent, hY.integrated_new, contentOf?_none]
    · rfl
  have hbaseIntegrated : Y.integrated base =
      Causal.integrated needs (Y.contentOf? state ∪ Y.contentOfRows rows) := by
    rw [hY.integrated_eq, held_applyBytes hY hbase, hY.held_new, Set.empty_union, hcontent,
      Causal.integrated_integrated]
  have hmem := mem_partitionRows hpart
  refine ⟨hstate.trans hcontent, ?_, ?_, ?_⟩
  · intro id hid
    obtain ⟨r, hr, rfl⟩ := List.mem_map.1 hid
    obtain ⟨hrow, hstays⟩ := (hmem r).2.1 hr
    refine ⟨r, hrow, rfl, ?_⟩
    obtain ⟨ready, hready, hstays⟩ := Option.bind_eq_some_iff.1 hstays
    have hready : Y.updateIsReady base r.payload = some true := by
      cases ready with
      | true => exact hready
      | false => simp at hstays
    rw [hstate, hcontent, ← hbaseIntegrated]
    exact subset_of_updateIsReady hY hbaseIntegrated
      ((contentOf_subset_contentOfRows hrow).trans Set.subset_union_right) hready
  · intro id hid
    obtain ⟨r, hr, rfl⟩ := List.mem_map.1 hid
    exact ⟨r, ((hmem r).1.1 hr).1, rfl⟩
  · intro r hr
    -- the partition judged every row, one way or the other
    have hjudged : (Y.staysPending base r.payload).isSome :=
      isSome_of_partitionRows hpart hr
    obtain ⟨s, hs⟩ := Option.isSome_iff_exists.1 hjudged
    cases s with
    | true => exact .inr (List.mem_map_of_mem ((hmem r).1.2 ⟨hr, hs⟩))
    | false => exact .inl (List.mem_map_of_mem ((hmem r).2.2 ⟨hr, hs⟩))

/-- **Both paths of `compact!` meet one specification.** -/
theorem compacts_of_compaction {state : Option Bytes} {rows : List Row} {c : Compaction}
    (hfree : rows = [] → Causal.SelfContained needs (Y.contentOf? state))
    (h : Y.compaction state rows = some c) : Compacts Y needs state rows c := by
  unfold compaction at h
  split at h
  · rename_i hnil
    subst hnil
    obtain rfl := Option.some.inj h
    refine ⟨?_, by simp, by simp, by simp⟩
    simpa [contentOfRows] using (hfree rfl).integrated_eq.symm
  · rename_i hne
    obtain ⟨o, ho, h⟩ := Option.bind_eq_some_iff.1 h
    cases o with
    | some c' =>
        obtain rfl := Option.some.inj h
        exact compacts_of_compactRows hY hne ho
    | none => exact compacts_of_compactAroundGap hY h

lemma compactRows_isSome {state : Option Bytes} {rows : List Row}
    (h : (Y.fold state (rows.map Row.payload)).isSome) : (Y.compactRows state rows).isSome := by
  obtain ⟨doc, hdoc⟩ := Option.isSome_iff_exists.1 h
  unfold compactRows
  split
  · rfl
  · simp only [hdoc, Option.bind_some]
    split
    · rfl
    · have hacc := ((fold_isSome hY).1 h).2.2
      rw [← held_fold hY hdoc] at hacc
      simpa using compactedStateUpdate_isSome hY hacc

lemma compactAroundGap_isSome {state : Option Bytes} {rows : List Row}
    (h : (Y.fold state (rows.map Row.payload)).isSome) :
    (Y.compactAroundGap state rows).isSome := by
  obtain ⟨folded, hfold⟩ := Option.isSome_iff_exists.1 h
  obtain ⟨-, hdec, hacc⟩ := (fold_isSome hY).1 h
  rw [← contentOfRows_eq] at hacc
  have hfolded : Accepts needs refused (Y.held folded) := by rwa [held_foldRows hY hfold]
  obtain ⟨newState, hnew⟩ := Option.isSome_iff_exists.1 (compactedStateUpdate_isSome hY hfolded)
  obtain ⟨current, hcurrent⟩ : ∃ current, Y.currentState state = some current := by
    cases state with
    | some s => exact ⟨s, rfl⟩
    | none =>
        exact Option.isSome_iff_exists.1 (compactedStateUpdate_isSome hY (by simp [hY.held_new]))
  have hsub : Y.contentOf newState ⊆ Y.contentOf? state ∪ Y.contentOfRows rows := by
    rw [contentOf_compactedStateUpdate hY hnew, ← held_foldRows hY hfold]
    exact integrated_subset_held
  obtain ⟨base, hbase⟩ : ∃ base, Y.applyBytes Y.new newState = some base := by
    refine Option.isSome_iff_exists.1 ((applyBytes_isSome hY).2
      ⟨decodeUpdate_of_integratedUpdate hY hnew, ?_⟩)
    rw [hY.held_new, Set.empty_union]
    exact hacc.mono hsub
  have hheld : Y.held base = Y.contentOf newState := by
    rw [held_applyBytes hY hbase, hY.held_new, Set.empty_union]
  -- judging a row folds it over the new state, and so stays within what was accepted
  have hjudge : ∀ r ∈ rows, (Y.staysPending base r.payload).isSome := by
    intro r hr
    have hrow : Accepts needs refused (Y.held base ∪ Y.contentOf r.payload) := by
      refine hacc.mono (Set.union_subset (hheld ▸ hsub) ?_)
      exact (contentOf_subset_contentOfRows hr).trans Set.subset_union_right
    have hrdec := hdec r.payload (List.mem_map_of_mem hr)
    obtain ⟨ready, hready⟩ := Option.isSome_iff_exists.1 (updateIsReady_isSome hY hrdec hrow)
    simp only [staysPending, hready, Option.bind_some]
    split
    · rfl
    · exact updateAdvancesDoc_isSome hY hrdec hrow
  obtain ⟨parts, hparts⟩ := Option.isSome_iff_exists.1 (partitionRows_isSome hjudge)
  have hnew' : Y.compactedStateUpdate folded = some newState := hnew
  simp [compactAroundGap, hfold, hnew', hcurrent, hbase, hparts]

/-- The state a compaction leaves decodes, if the one it read does. -/
lemma decodeUpdate_of_compaction {state : Option Bytes} {rows : List Row} {c : Compaction}
    (hstate : ∀ b ∈ state, (Y.decodeUpdate b).isSome) (h : Y.compaction state rows = some c) :
    ∀ b ∈ c.state, (Y.decodeUpdate b).isSome := by
  unfold compaction at h
  split at h
  · obtain rfl := Option.some.inj h
    exact hstate
  · rename_i hne
    obtain ⟨o, ho, h⟩ := Option.bind_eq_some_iff.1 h
    cases o with
    | some c' =>
        obtain rfl := Option.some.inj h
        rw [compactRows, if_neg hne] at ho
        obtain ⟨doc, -, ho⟩ := Option.bind_eq_some_iff.1 ho
        split at ho
        · simp at ho
        · obtain ⟨newState, hnew, ho⟩ := Option.map_eq_some_iff.1 ho
          obtain rfl := Option.some.inj ho
          rintro b ⟨⟩
          exact decodeUpdate_of_integratedUpdate hY hnew
    | none =>
        obtain ⟨folded, -, h⟩ := Option.bind_eq_some_iff.1 h
        obtain ⟨newState, hnew, h⟩ := Option.bind_eq_some_iff.1 h
        obtain ⟨current, -, h⟩ := Option.bind_eq_some_iff.1 h
        obtain ⟨base, -, h⟩ := Option.bind_eq_some_iff.1 h
        obtain ⟨parts, -, rfl⟩ := Option.map_eq_some_iff.1 h
        intro b hb
        simp only at hb
        split at hb
        · exact hstate b hb
        · obtain rfl := Option.some.inj hb
          exact decodeUpdate_of_integratedUpdate hY hnew

/-- **When `compact!` returns.**  It reads nothing, or everything it reads decodes and yrs
accepts the whole. -/
theorem compaction_isSome {state : Option Bytes} {rows : List Row} :
    (Y.compaction state rows).isSome ↔
      rows = [] ∨ (∀ b ∈ state, (Y.decodeUpdate b).isSome) ∧
        (∀ r ∈ rows, (Y.decodeUpdate r.payload).isSome) ∧
          Accepts needs refused (Y.contentOf? state ∪ Y.contentOfRows rows) := by
  have hfold : (Y.fold state (rows.map Row.payload)).isSome ↔ _ := fold_isSome hY
  rw [← contentOfRows_eq] at hfold
  simp only [List.forall_mem_map] at hfold
  rw [← hfold]
  unfold compaction
  split
  · simp [*]
  · rename_i hne
    simp only [hne, false_or]
    constructor
    · intro h
      -- without the fold, `compact_rows` raises
      by_contra hnone
      rw [Bool.not_eq_true, Option.isSome_eq_false_iff, Option.isNone_iff_eq_none] at hnone
      simp [compactRows, hne, hnone] at h
    · intro h
      obtain ⟨o, ho⟩ := Option.isSome_iff_exists.1 (compactRows_isSome hY h)
      simp only [ho, Option.bind_some]
      cases o with
      | some c => rfl
      | none => exact compactAroundGap_isSome hY h

end Store

/-! ## What a compaction leaves -/

/-- The state a compaction leaves is accepted, if the one it reads is. -/
lemma accepts_of_compaction (hY : Y.Crdt needs refused) {state : Option Bytes} {rows : List Row}
    {c : Compaction} (hacc : Accepts needs refused (Y.contentOf? state))
    (hfree : Causal.SelfContained needs (Y.contentOf? state))
    (h : Y.compaction state rows = some c) : Accepts needs refused (Y.contentOf? c.state) := by
  have hc := compacts_of_compaction hY (fun _ => hfree) h
  rcases (compaction_isSome hY).1 (Option.isSome_of_eq_some h) with rfl | ⟨-, -, hall⟩
  · refine hacc.mono ?_
    rw [hc.content]
    simpa [contentOfRows] using Causal.integrated_subset
  · refine hall.mono ?_
    rw [hc.content]
    exact Causal.integrated_subset

section Commit

variable {state : Option Bytes} {rows : List Row} {c : Compaction} {d : Document}

/-- The new state has nothing parked. -/
lemma Compacts.selfContained (h : Compacts Y needs state rows c) :
    Causal.SelfContained needs (Y.contentOf? c.state) := by
  rw [h.content]
  exact Causal.selfContained_integrated _

/-- The new state contains a snapshot that has nothing parked. -/
lemma Compacts.state_subset (h : Compacts Y needs state rows c)
    (hfree : Causal.SelfContained needs (Y.contentOf? state)) :
    Y.contentOf? state ⊆ Y.contentOf? c.state := by
  rw [h.content]
  exact hfree.subset_integrated Set.subset_union_left

lemma Compacts.content_subset (h : Compacts Y needs state rows c) :
    Y.contentOf? c.state ⊆ Y.contentOf? state ∪ Y.contentOfRows rows := by
  rw [h.content]
  exact Causal.integrated_subset

/-- A row of the table survives the commit or is contained in the new state. -/
lemma Compacts.row_commit (h : Compacts Y needs state rows c) (hrows : rows ⊆ d.updates.rows)
    {r : Row} (hr : r ∈ d.updates.rows) :
    Table.mark c.marked r ∈ (d.commit c).updates.rows ∨
      Y.contentOf r.payload ⊆ Y.contentOf? (d.commit c).state := by
  by_cases hid : r.id ∈ c.deleted
  · obtain ⟨q, hq, hqid, hsub⟩ := h.captured r.id hid
    obtain rfl := d.updates.eq_of_id (hrows hq) hr hqid
    exact .inr hsub
  · exact .inl (Table.mem_markPending.2 ⟨r, Table.mem_deleteAll.2 ⟨hr, hid⟩, rfl⟩)

/-- A row left by the commit was there before. -/
lemma exists_row_of_mem_commit {q : Row} (hq : q ∈ (d.commit c).updates.rows) :
    ∃ r ∈ d.updates.rows, r.id ∉ c.deleted ∧ Table.mark c.marked r = q := by
  obtain ⟨r, hr, rfl⟩ := Table.mem_markPending.1 hq
  obtain ⟨hr, hid⟩ := Table.mem_deleteAll.1 hr
  exact ⟨r, hr, hid, rfl⟩

/-- A compaction that started from a snapshot with nothing parked keeps everything stored. -/
lemma Compacts.stored_commit (h : Compacts Y needs d.state d.updates.rows c)
    (hfree : Causal.SelfContained needs (Y.contentOf? d.state)) :
    Y.stored (d.commit c) = Y.stored d := by
  refine Set.Subset.antisymm ?_ ?_
  · refine Set.union_subset h.content_subset (contentOfRows_subset.2 fun q hq => ?_)
    obtain ⟨r, hr, -, rfl⟩ := exists_row_of_mem_commit hq
    rw [Table.mark_payload]
    exact (contentOf_subset_contentOfRows hr).trans Set.subset_union_right
  · refine Set.union_subset ?_ (contentOfRows_subset.2 fun r hr => ?_)
    · exact (h.state_subset hfree).trans Set.subset_union_left
    · rcases h.row_commit (List.Subset.refl _) hr with hmem | hsub
      · have := contentOf_subset_contentOfRows (Y := Y) hmem
        rw [Table.mark_payload] at this
        exact this.trans Set.subset_union_right
      · exact hsub.trans Set.subset_union_left

/-- Every row that was read is deleted or pending afterwards: among the clean rows of the table
at the commit are only those inserted since the read. -/
lemma Compacts.clean_rows (h : Compacts Y needs state rows c) {t : Table} {later : List Row}
    (ht : t.rows = rows ++ later) :
    ((t.deleteAll c.deleted).markPending c.marked).rows.filter (fun r => !r.pending) =
      later.filter fun r => !r.pending := by
  have hnodup := t.nodup
  rw [ht, List.map_append, List.nodup_append] at hnodup
  -- a row inserted later shares no id with a row that was read, and so is left alone
  have hfresh : ∀ q ∈ later, q.id ∉ c.deleted ∧ q.id ∉ c.marked := by
    intro q hq
    have hne : ∀ r ∈ rows, r.id ≠ q.id := fun r hr =>
      hnodup.2.2 _ (List.mem_map_of_mem hr) _ (List.mem_map_of_mem hq)
    constructor
    · intro hid
      obtain ⟨r, hr, hrq, -⟩ := h.captured _ hid
      exact hne r hr hrq
    · intro hid
      obtain ⟨r, hr, hrq⟩ := h.marked _ hid
      exact hne r hr hrq
  have hread : ((rows.filter fun r => decide (r.id ∉ c.deleted)).map (Table.mark c.marked)).filter
      (fun r => !r.pending) = [] := by
    refine List.filter_eq_nil_iff.2 fun r hr => ?_
    obtain ⟨q, hq, rfl⟩ := List.mem_map.1 hr
    obtain ⟨hq, hdel⟩ := List.mem_filter.1 hq
    have hmark : q.id ∈ c.marked := (h.covered q hq).resolve_left (by simpa using hdel)
    simp [Table.mark, hmark]
  have hlater : (later.filter fun r => decide (r.id ∉ c.deleted)).map (Table.mark c.marked) =
      later := by
    rw [List.filter_eq_self.2 fun q hq => by simpa using (hfresh q hq).1]
    conv_rhs => rw [← List.map_id later]
    refine List.map_congr_left fun q hq => ?_
    simp [Table.mark, (hfresh q hq).2]
  simp only [Table.markPending, Table.deleteAll, ht, List.filter_append, List.map_append, hread,
    hlater, List.nil_append]

end Commit

/-! ## Compaction is lossless and normalising -/

variable (Y) in
/-- What a reader sees of a document. -/
def view (doc : Y.Doc) : Set Piece × Set Piece := (Y.integrated doc, Y.parked doc)

variable (Y) in
/-- Load a document and apply further updates to it. -/
def reopen (d : Document) (updates : List Bytes) : Option Y.Doc :=
  (Y.loadDoc d).bind fun doc => Y.applyAll doc updates

variable (Y) in
/-- The state column holds no pending structs and no pending deletes. -/
def SnapshotClean (state : Option Bytes) : Prop :=
  ∀ doc, Y.applyOptional Y.new state = some doc → Y.hasPending doc = false

/-- What `compact!` promises, on a document it compacts with `c`. -/
structure Lossless (Y : Yrs) (d : Document) (c : Compaction) : Prop where
  /-- Loading and going on shows the same before and after. -/
  loads : ∀ updates, (Y.reopen (d.commit c) updates).map Y.view = (Y.reopen d updates).map Y.view
  snapshot : Y.SnapshotClean c.state
  /-- Every row read is gone or pending. -/
  rows : ∀ r ∈ (d.commit c).updates.rows, r.pending = true
  /-- With rows inserted between the read and the commit, only these count as clean. -/
  cleanCount : ∀ (t : Table) (later : List Row), t.rows = d.updates.rows ++ later →
    ((t.deleteAll c.deleted).markPending c.marked).cleanCount =
      (later.filter fun r => !r.pending).length

section Lossless

variable (hY : Y.Crdt needs refused)
include hY

lemma view_eq_of_held {x y : Y.Doc} (h : Y.held x = Y.held y) : Y.view x = Y.view y := by
  simp only [view, hY.integrated_eq, hY.parked_eq, h]

/-- Documents that hold the same, and are accepted, go on the same way. -/
lemma applyAll_view_eq {x y : Y.Doc} (h : Y.held x = Y.held y)
    (hacc : Accepts needs refused (Y.held y)) (updates : List Bytes) :
    (Y.applyAll x updates).map Y.view = (Y.applyAll y updates).map Y.view := by
  have hsome : (Y.applyAll x updates).isSome ↔ (Y.applyAll y updates).isSome := by
    rw [applyAll_isSome hY (h ▸ hacc), applyAll_isSome hY hacc, h]
  cases hx : Y.applyAll x updates with
  | none =>
      have hy : Y.applyAll y updates = none := by simpa [hx] using hsome
      rw [hy]
  | some x' =>
      obtain ⟨y', hy'⟩ := Option.isSome_iff_exists.1 (hsome.1 (by simp [hx]))
      rw [hy', Option.map_some, Option.map_some]
      have hheld : Y.held x' = Y.held y' := by
        rw [held_applyAll hY hx, held_applyAll hY hy', h]
      rw [view_eq_of_held hY hheld]

lemma snapshotClean_iff {state : Option Bytes} (h : (Y.applyOptional Y.new state).isSome) :
    Y.SnapshotClean state ↔ Causal.SelfContained needs (Y.contentOf? state) := by
  obtain ⟨doc, hdoc⟩ := Option.isSome_iff_exists.1 h
  have hheld : Y.held doc = Y.contentOf? state := by
    rw [held_applyOptional hY hdoc, hY.held_new, Set.empty_union]
  rw [← hheld, ← hY.parked_eq_empty_iff, ← hasPending_eq_false_iff hY]
  constructor
  · exact fun hclean => hclean doc hdoc
  · intro hpending doc' hdoc'
    obtain rfl := Option.some.inj (hdoc.symm.trans hdoc')
    exact hpending

/-- A state column whose content has nothing parked is clean, also when it does not apply. -/
lemma snapshotClean_of_selfContained {state : Option Bytes}
    (h : Causal.SelfContained needs (Y.contentOf? state)) : Y.SnapshotClean state := by
  intro doc hdoc
  exact (snapshotClean_iff hY (by simp [hdoc])).2 h doc hdoc

/-- **Compaction is lossless and normalising**, for every snapshot with nothing parked and every
tail. -/
theorem compaction_lossless {d : Document} {c : Compaction} (hclean : Y.SnapshotClean d.state)
    (h : Y.compaction d.state d.updates.rows = some c) : Lossless Y d c := by
  by_cases hnil : d.updates.rows = []
  · -- nothing was read, and nothing is written
    obtain rfl : { state := d.state } = c := by simpa [compaction, hnil] using h
    refine ⟨fun updates => by rw [Document.commit_self], hclean, ?_, fun t later ht => ?_⟩
    · simp [hnil]
    · simp [Table.cleanCount, ht, hnil]
  · obtain ⟨hstate, hdec, hacc⟩ :=
      ((compaction_isSome hY).1 (Option.isSome_of_eq_some h)).resolve_left hnil
    have happly : (Y.applyOptional Y.new d.state).isSome := by
      rw [applyOptional_isSome hY (by simp [hY.held_new]), hY.held_new, Set.empty_union]
      exact ⟨hstate, hacc.mono Set.subset_union_left⟩
    have hfree := (snapshotClean_iff hY happly).1 hclean
    have hc := compacts_of_compaction hY (fun _ => hfree) h
    have hstored := hc.stored_commit hfree
    have hbefore : (Y.loadDoc d).isSome := (loadDoc_isSome hY).2 ⟨hstate, hdec, hacc⟩
    have hafter : (Y.loadDoc (d.commit c)).isSome := by
      refine (loadDoc_isSome hY).2 ⟨?_, ?_, by rwa [hstored]⟩
      · exact decodeUpdate_of_compaction hY hstate h
      · intro q hq
        obtain ⟨r, hr, -, rfl⟩ := exists_row_of_mem_commit hq
        simpa using hdec r hr
    obtain ⟨x, hx⟩ := Option.isSome_iff_exists.1 hafter
    obtain ⟨y, hy⟩ := Option.isSome_iff_exists.1 hbefore
    have hheld : Y.held x = Y.held y := by
      rw [held_loadDoc hY hx, held_loadDoc hY hy, hstored]
    refine ⟨fun updates => ?_, snapshotClean_of_selfContained hY hc.selfContained, ?_, ?_⟩
    · simp only [reopen, hx, hy, Option.bind_some]
      exact applyAll_view_eq hY hheld (by rw [held_loadDoc hY hy]; exact hacc) updates
    · have := hc.clean_rows (List.append_nil d.updates.rows).symm
      simpa [Document.commit, List.filter_eq_nil_iff] using this
    · exact fun t later ht => congrArg List.length (hc.clean_rows ht)

end Lossless

end Yrs

section Examples

open Reference

/-- Two rows, the second of which waits for a block nobody has sent. -/
def gappedTail : Document where
  updates := ⟨[⟨1, encodePieces [.block ⟨1, 0⟩], false⟩, ⟨2, encodePieces [.block ⟨2, 1⟩], false⟩],
    by decide⟩

/-- A compaction around a gap: the first row is captured, the second one stays. -/
theorem compaction_lossless_gappedTail :
    Yrs.Lossless (engine []) gappedTail
      { state := some (encodePieces [.block ⟨1, 0⟩]), deleted := [1], marked := [2] } :=
  Yrs.compaction_lossless (crdt []) (fun doc h => by
    obtain rfl : [] = doc := Option.some.inj h
    rfl) (by decide)

/-- A snapshot that itself holds a parked block, and an independent row. -/
def gappedSnapshot : Document where
  state := some (encodePieces [.block ⟨1, 1⟩])
  updates := ⟨[⟨1, encodePieces [.block ⟨2, 0⟩], false⟩], by decide⟩

/-- Compacting such a document prunes the parked block away: once its dependency comes in, it is
missing. -/
theorem compaction_loses_parked_snapshot :
    (engine []).compaction gappedSnapshot.state gappedSnapshot.updates.rows =
        some { state := some (encodePieces [.block ⟨2, 0⟩]), deleted := [1] } ∧
      ¬Yrs.Lossless (engine []) gappedSnapshot
        { state := some (encodePieces [.block ⟨2, 0⟩]), deleted := [1] } := by
  refine ⟨by decide, fun h => ?_⟩
  have hviews := h.loads [encodePieces [.block ⟨1, 0⟩]]
  have hbefore : (engine []).reopen gappedSnapshot [encodePieces [.block ⟨1, 0⟩]] =
      some [.block ⟨1, 1⟩, .block ⟨2, 0⟩, .block ⟨1, 0⟩] := by decide
  have hafter : (engine []).reopen
      (gappedSnapshot.commit { state := some (encodePieces [.block ⟨2, 0⟩]), deleted := [1] })
      [encodePieces [.block ⟨1, 0⟩]] = some [.block ⟨2, 0⟩, .block ⟨1, 0⟩] := by decide
  rw [hbefore, hafter] at hviews
  have hsets := congrArg Prod.fst (Option.some.inj hviews)
  have hmem : Piece.block ⟨1, 1⟩ ∈
      ((engine []).view [.block ⟨1, 1⟩, .block ⟨2, 0⟩, .block ⟨1, 0⟩]).1 := by
    change isIntegrated _ _ = true
    decide
  rw [← hsets] at hmem
  change isIntegrated _ _ = true at hmem
  exact absurd hmem (by decide)

end Examples

end Yrby
