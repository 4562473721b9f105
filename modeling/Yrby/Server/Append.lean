import Yrby.Server.Loadable

/-!
# An append that raises

`Y::Document#append` is two steps: `updates.create!` commits the row, and when enough clean rows
have collected, `compact!` runs in a transaction of its own.  A raise in the second step rolls
back the compaction and nothing else, so the caller hears that its change was rejected while the
row stays.

`append` follows the statements with a `fault`: the statement at which the database fails.  From
there on every statement fails, so a transaction that has reached it cannot commit.
`append_rejected_iff` says exactly when a rejected change leaves the content alone.
-/

namespace Yrby.Yrs

open Wire

/-- The statements of an `append`, in their order. -/
inductive Statement
  | insert
  | count
  | lock
  | pluck
  | update
  | delete
  | mark
  | commit
  deriving DecidableEq

/-- How a call ends: whether it raised, and the document it leaves. -/
structure Outcome where
  raised : Bool
  doc : Document

variable (Y : Yrs)

/-- `compact!` under `with_lock`: a raise anywhere in the transaction leaves the document. -/
def compactLocked (fault : Option Statement) (d : Document) : Outcome :=
  if fault = some .lock ∨ fault = some .pluck then ⟨true, d⟩
  else
    match Y.compaction d.state d.updates.rows with
    | none => ⟨true, d⟩
    | some c => if fault.isSome then ⟨true, d⟩ else ⟨false, d.commit c⟩

/-- The document with a row added to its tail. -/
def withRow (d : Document) (updates : Table) : Document := { d with updates }

/-- `append`: the insert commits on its own, then the compaction runs if it is due. -/
def append (compactEvery : ℕ) (d : Document) (id : ℕ) (bytes : Bytes)
    (fault : Option Statement) : Outcome :=
  if fault = some .insert then ⟨true, d⟩
  else
    match d.updates.insert id bytes with
    | none => ⟨true, d⟩
    | some updates =>
        if fault = some .count then ⟨true, withRow d updates⟩
        else if updates.cleanCount < compactEvery then ⟨false, withRow d updates⟩
        else Y.compactLocked fault (withRow d updates)

/-- `load_state` returns the same content from both documents, or raises for both. -/
def SameContent (d d' : Document) : Prop :=
  (Y.load d').map Y.contentOf? = (Y.load d).map Y.contentOf?

/-- The promise of `on_change`: a change that raises is not stored. -/
def RejectionHolds (compactEvery : ℕ) (d : Document) (id : ℕ) (bytes : Bytes)
    (fault : Option Statement) : Prop :=
  (Y.append compactEvery d id bytes fault).raised →
    Y.SameContent d (Y.append compactEvery d id bytes fault).doc

variable (needs : Piece → Piece → Prop) (refused : Piece → Prop)

/-- The snapshot and the tail decode, and yrs accepts them together with `extra`. -/
structure Replays (d : Document) (extra : Set Piece) : Prop where
  state : ∀ b ∈ d.state, (Y.decodeUpdate b).isSome
  rows : ∀ r ∈ d.updates.rows, (Y.decodeUpdate r.payload).isSome
  accepts : Accepts needs refused (Y.stored d ∪ extra)

/-- The document loads: a snapshot without a tail is returned as it is. -/
def Opens (d : Document) : Prop := d.updates.rows = [] ∨ Y.Replays needs refused d ∅

/-- The document still replays with the payload in its tail. -/
def OpensWith (d : Document) (bytes : Bytes) : Prop :=
  (Y.decodeUpdate bytes).isSome ∧ Y.Replays needs refused d (Y.contentOf bytes)

/-- A row with this payload changes nothing about what `load_state` returns. -/
def Absorbs (d : Document) (bytes : Bytes) : Prop :=
  ¬Y.Opens needs refused d ∨
    Y.OpensWith needs refused d bytes ∧ Y.contentOf bytes ⊆ Y.stored d

/-- Nothing after the insert fails. -/
def RunsOn (compactEvery : ℕ) (d : Document) (bytes : Bytes) (fault : Option Statement) : Prop :=
  fault ≠ some .count ∧
    (compactEvery ≤ d.updates.cleanCount + 1 → fault = none ∧ Y.OpensWith needs refused d bytes)

variable {Y needs refused} {d : Document} {id compactEvery : ℕ} {bytes : Bytes}
  {fault : Option Statement} {updates : Table}

/-! ## The document with the row -/

lemma insert_eq_none : d.updates.insert id bytes = none ↔ id ∈ d.updates.rows.map Row.id := by
  unfold Table.insert
  by_cases h : id ∈ d.updates.rows.map Row.id <;> simp [h]

/-- An insert appends one clean row. -/
lemma rows_of_insert (h : d.updates.insert id bytes = some updates) :
    updates.rows = d.updates.rows ++ [⟨id, bytes, false⟩] := by
  unfold Table.insert at h
  by_cases hid : id ∈ d.updates.rows.map Row.id
  · rw [dif_pos hid] at h
    simp at h
  · rw [dif_neg hid] at h
    rw [← Option.some.inj h]

lemma cleanCount_of_insert (h : d.updates.insert id bytes = some updates) :
    updates.cleanCount = d.updates.cleanCount + 1 := by
  simp [Table.cleanCount, rows_of_insert h]

lemma stored_withRow (h : d.updates.insert id bytes = some updates) :
    Y.stored (withRow d updates) = Y.stored d ∪ Y.contentOf bytes := by
  have hrows : Y.contentOfRows updates.rows =
      Y.contentOfRows d.updates.rows ∪ Y.contentOf bytes := by
    rw [rows_of_insert h]
    ext a
    simp [contentOfRows, or_and_right, exists_or]
  show Y.contentOf? d.state ∪ Y.contentOfRows updates.rows = _
  rw [hrows, stored, Set.union_assoc]

/-- A row makes the tail non-empty, so the document with it loads exactly when it replays. -/
lemma opens_withRow (h : d.updates.insert id bytes = some updates) :
    Y.Opens needs refused (withRow d updates) ↔ Y.OpensWith needs refused d bytes := by
  have hrows : (withRow d updates).updates.rows = d.updates.rows ++ [⟨id, bytes, false⟩] :=
    rows_of_insert h
  constructor
  · rintro (hnil | ⟨hstate, hdec, hacc⟩)
    · simp [hrows] at hnil
    · rw [hrows] at hdec
      rw [stored_withRow h, Set.union_empty] at hacc
      exact ⟨hdec ⟨id, bytes, false⟩ (by simp), hstate, fun r hr => hdec r (by simp [hr]), hacc⟩
  · rintro ⟨hbytes, hstate, hdec, hacc⟩
    refine .inr ⟨hstate, fun r hr => ?_, by rwa [stored_withRow h, Set.union_empty]⟩
    rw [hrows, List.mem_append] at hr
    rcases hr with hr | hr
    · exact hdec r hr
    · obtain rfl := List.mem_singleton.1 hr
      exact hbytes

/-- A document that replays with more in its tail loads without it. -/
lemma OpensWith.opens (h : Y.OpensWith needs refused d bytes) : Y.Opens needs refused d := by
  obtain ⟨-, hstate, hdec, hacc⟩ := h
  refine .inr ⟨hstate, hdec, hacc.mono ?_⟩
  rw [Set.union_empty]
  exact Set.subset_union_left

lemma replays_iff :
    Y.Replays needs refused d ∅ ↔
      (∀ b ∈ d.state, (Y.decodeUpdate b).isSome) ∧
        (∀ r ∈ d.updates.rows, (Y.decodeUpdate r.payload).isSome) ∧
          Accepts needs refused (Y.stored d) := by
  constructor
  · rintro ⟨hstate, hdec, hacc⟩
    exact ⟨hstate, hdec, by rwa [Set.union_empty] at hacc⟩
  · rintro ⟨hstate, hdec, hacc⟩
    exact ⟨hstate, hdec, by rwa [Set.union_empty]⟩

section Store

variable (hY : Y.Crdt needs refused)
include hY

lemma compaction_isSome_iff :
    (Y.compaction d.state d.updates.rows).isSome ↔ Y.Opens needs refused d := by
  rw [compaction_isSome hY, Opens, replays_iff, stored]

lemma load_isSome_iff : (Y.load d).isSome ↔ Y.Opens needs refused d := by
  unfold load loadState Opens
  by_cases hnil : d.updates.rows = []
  · simp [hnil]
  · have hmap : d.updates.rows.map Row.payload ≠ [] := by simpa using hnil
    rw [if_neg hmap, Option.isSome_map, fold_isSome hY, ← contentOfRows_eq, List.forall_mem_map,
      replays_iff, stored]
    simp [hnil]

/-- What `load_state` returns, as content. -/
lemma load_content :
    (Y.load d).map Y.contentOf? = some (Y.stored d) ∨
      (Y.load d).map Y.contentOf? = none ∧ ¬Y.Opens needs refused d := by
  cases hload : Y.load d with
  | none =>
      refine .inr ⟨rfl, fun h => ?_⟩
      simpa [hload] using (load_isSome_iff hY).2 h
  | some result => exact .inl (by simp [contentOf_load hY hload])

lemma load_content_of_opens (h : Y.Opens needs refused d) :
    (Y.load d).map Y.contentOf? = some (Y.stored d) :=
  (load_content hY).resolve_right fun hno => hno.2 h

lemma load_content_of_not_opens (h : ¬Y.Opens needs refused d) :
    (Y.load d).map Y.contentOf? = none := by
  have : ¬(Y.load d).isSome := fun hs => h ((load_isSome_iff hY).1 hs)
  simpa using this

/-- The row is invisible to `load_state` exactly when the document absorbs its payload. -/
lemma sameContent_withRow (h : d.updates.insert id bytes = some updates) :
    Y.SameContent d (withRow d updates) ↔ Y.Absorbs needs refused d bytes := by
  unfold SameContent Absorbs
  by_cases hopen : Y.Opens needs refused d
  · by_cases hwith : Y.OpensWith needs refused d bytes
    · rw [load_content_of_opens hY hopen,
        load_content_of_opens hY ((opens_withRow h).2 hwith), stored_withRow h]
      simp [hopen, hwith]
    · rw [load_content_of_opens hY hopen,
        load_content_of_not_opens hY fun hw => hwith ((opens_withRow h).1 hw)]
      simp [hopen, hwith]
  · have hwith : ¬Y.Opens needs refused (withRow d updates) := fun hw =>
      hopen ((opens_withRow h).1 hw).opens
    rw [load_content_of_not_opens hY hopen, load_content_of_not_opens hY hwith]
    simp [hopen]

/-! ## The call -/

lemma compactLocked_raised (hfault : fault ≠ some .insert ∧ fault ≠ some .count) :
    (Y.compactLocked fault d).raised ↔ ¬(fault = none ∧ Y.Opens needs refused d) := by
  rw [← compaction_isSome_iff hY]
  unfold compactLocked
  cases Y.compaction d.state d.updates.rows <;> cases fault <;> simp

omit hY in
/-- A compaction that raises leaves the document as it was. -/
lemma compactLocked_doc (h : (Y.compactLocked fault d).raised) :
    (Y.compactLocked fault d).doc = d := by
  unfold compactLocked at h ⊢
  by_cases hread : fault = some .lock ∨ fault = some .pluck
  · rw [if_pos hread]
  · rw [if_neg hread] at h ⊢
    cases hc : Y.compaction d.state d.updates.rows with
    | none => rfl
    | some c =>
        rw [hc] at h
        by_cases hfault : fault.isSome
        · simp [hfault]
        · simp [hfault] at h

/-- Once the row is in, the call raises exactly when something after the insert fails, and then
the row is what it leaves behind. -/
lemma append_of_insert (hinsert : fault ≠ some .insert)
    (h : d.updates.insert id bytes = some updates) :
    ((Y.append compactEvery d id bytes fault).raised ↔
        ¬Y.RunsOn needs refused compactEvery d bytes fault) ∧
      ((Y.append compactEvery d id bytes fault).raised →
        (Y.append compactEvery d id bytes fault).doc = withRow d updates) := by
  have hcount := cleanCount_of_insert h
  unfold append RunsOn
  rw [if_neg hinsert, h, ← hcount]
  by_cases hc : fault = some .count
  · simp [hc]
  · by_cases hdue : updates.cleanCount < compactEvery
    · have hnot : ¬compactEvery ≤ updates.cleanCount := by omega
      simp [hc, hdue, hnot]
    · have hle : compactEvery ≤ updates.cleanCount := by omega
      simp only [hc, hdue, if_false]
      refine ⟨?_, compactLocked_doc⟩
      rw [compactLocked_raised hY ⟨hinsert, hc⟩, opens_withRow h]
      simp [hle, hc]

/-- **When a rejected append is not stored.**  Whatever fails, the content that `load_state`
returns is what it was exactly when the insert itself failed, or nothing after it did, or the
document absorbs the payload. -/
theorem append_rejected_iff :
    Y.RejectionHolds compactEvery d id bytes fault ↔
      (fault = some .insert ∨ id ∈ d.updates.rows.map Row.id) ∨
        Y.RunsOn needs refused compactEvery d bytes fault ∨ Y.Absorbs needs refused d bytes := by
  unfold RejectionHolds
  by_cases hinsert : fault = some .insert
  · simp [append, hinsert, SameContent]
  cases hrow : d.updates.insert id bytes with
  | none =>
      have hid := insert_eq_none.1 hrow
      simp [append, hinsert, hrow, SameContent, hid]
  | some updates =>
      have hid : id ∉ d.updates.rows.map Row.id := fun hid => by
        rw [insert_eq_none.2 hid] at hrow
        simp at hrow
      obtain ⟨hraised, hdoc⟩ : ((Y.append compactEvery d id bytes fault).raised ↔ _) ∧ _ :=
        append_of_insert hY hinsert hrow
      simp only [hinsert, hid, or_false, false_or]
      rw [← sameContent_withRow hY hrow]
      constructor
      · intro h
        by_cases hruns : Y.RunsOn needs refused compactEvery d bytes fault
        · exact .inl hruns
        · have hr := hraised.2 hruns
          exact .inr (hdoc hr ▸ h hr)
      · rintro (hruns | hsame) hr
        · exact absurd hruns (hraised.1 hr)
        · rw [hdoc hr]
          exact hsame

end Store

section Examples

open Reference Store

/-- An append that triggers the compaction, on the engine that refuses part of the payload. -/
theorem append_poison_stored :
    (strictEngine.append 1 {} 0 poison none).raised = true ∧
      ¬strictEngine.RejectionHolds 1 {} 0 poison none := by
  refine ⟨by decide, fun h => ?_⟩
  have hsame := h (by decide)
  have hbefore : strictEngine.load {} = some none := by decide
  have hafter : strictEngine.load (strictEngine.append 1 {} 0 poison none).doc = none := by decide
  simp [SameContent, hbefore, hafter] at hsame

/-- The same append on an engine that refuses nothing, before a compaction is due. -/
theorem append_rejected_iff_healthy : (engine []).RejectionHolds 64 {} 0 poison none :=
  (append_rejected_iff (crdt [])).2
    (.inr (.inl ⟨by decide, fun hdue => absurd hdue (by decide)⟩))

end Examples

end Yrby.Yrs
