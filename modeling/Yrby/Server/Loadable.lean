import Yrby.Server.Store
import Yrby.Server.Sync

/-!
# Which documents can still be loaded

The write path of the default storage accepts a frame when it is one well-formed message whose
payload decodes (`updateOf`); nothing applies the payload to a document.  The read path and
`compact!` apply every row, and yrs may refuse an update that decodes.

`loadable_iff` closes the gap from both sides.  In every state the store reaches from accepted
frames, `load_state` and `compact!` both return exactly when nothing that yrs refuses integrates
from everything recorded.  `poisoned_unloadable` is a frame that a client can send and that makes
the document unloadable for everyone.
-/

namespace Yrby.Store

open Wire Interleaving Transition Yrs Sync

variable {Y : Yrs} {needs : Piece → Piece → Prop} {refused : Piece → Prop} {compactEvery : ℕ}

/-- The store holds exactly what was logged. -/
lemma stored_eq_contentOfLog {g : Shared} (hI : SharedInv Y needs refused g) :
    Y.stored g.doc = contentOfLog Y g.log := by
  refine Set.Subset.antisymm ?_ (Set.iUnion₂_subset fun e he => ?_)
  · refine Set.union_subset hI.state_logged (contentOfRows_subset.2 fun r hr => ?_)
    exact contentOf_subset_contentOfLog (hI.rows_logged r hr)
  · rcases hI.kept e he with ⟨r, hr, -, hpayload⟩ | hsub
    · rw [← hpayload]
      exact (contentOf_subset_contentOfRows hr).trans Set.subset_union_right
    · exact hsub.trans Set.subset_union_left

/-- `load_state` and `compact!` both return. -/
def Loadable (Y : Yrs) (d : Document) : Prop :=
  (Y.load d).isSome ∧ (Y.compaction d.state d.updates.rows).isSome

/-- Every update the store was given came from a frame the channel accepts. -/
def FromAcceptedFrames (Y : Yrs) (g : Shared) : Prop :=
  ∀ b ∈ g.supplied, ∃ frame, updateOf Y frame = some b

/-- An accepted frame carries an update that decodes. -/
lemma decodes_of_updateOf (hw : Y.WireFormat) {frame update : Bytes}
    (h : updateOf Y frame = some update) : (Y.decodeUpdate update).isSome := by
  obtain ⟨hkind, hmerged⟩ := updateOf_eq_some.1 h
  obtain ⟨payload, hpayload⟩ := classifyMessage_eq_two.1 hkind
  obtain ⟨rfl, hdecodes⟩ := payload_of_mergedDocUpdate hw hpayload hmerged
  exact hdecodes

/-- Whether a document in the store's invariant is loadable depends only on what yrs refuses. -/
lemma loadable_iff_accepts (hY : Y.Crdt needs refused) {g : Shared}
    (hI : SharedInv Y needs refused g)
    (hdec : ∀ r ∈ g.doc.updates.rows, (Y.decodeUpdate r.payload).isSome) :
    Loadable Y g.doc ↔ Accepts needs refused (Y.stored g.doc) := by
  have hcompact : (Y.compaction g.doc.state g.doc.updates.rows).isSome ↔ _ := compaction_isSome hY
  by_cases hnil : g.doc.updates.rows = []
  · -- an empty tail: the snapshot was accepted when it was written
    refine iff_of_true ⟨?_, hcompact.2 (.inl hnil)⟩ ?_
    · simp [load, loadState, hnil]
    · simpa [stored, contentOfRows, hnil] using hI.state_accepted
  · have hmap : g.doc.updates.rows.map Row.payload ≠ [] := by simpa using hnil
    have hfold : (Y.fold g.doc.state (g.doc.updates.rows.map Row.payload)).isSome ↔ _ :=
      fold_isSome hY
    rw [← contentOfRows_eq, List.forall_mem_map] at hfold
    rw [Loadable, hcompact, load, loadState, if_neg hmap, Option.isSome_map, hfold]
    simp only [hnil, false_or, and_self]
    exact ⟨fun h => h.2.2, fun h => ⟨hI.state_decodes, hdec, h⟩⟩

/-- **When a document stays loadable.**  In every state reached from accepted frames,
`load_state` and `compact!` return if and only if no refused block integrates from what was
recorded. -/
theorem loadable_iff (hY : Y.Crdt needs refused) (hw : Y.WireFormat) {as : List (ℕ × Action)}
    {c : Cfg} (h : run (system Y compactEvery).act init as = some c)
    (hframes : FromAcceptedFrames Y c.shared) :
    Loadable Y c.shared.doc ↔ Accepts needs refused (contentOfLog Y c.shared.log) := by
  have hI := (cfgInv_run hY h).shared
  rw [← stored_eq_contentOfLog hI]
  refine loadable_iff_accepts hY hI fun r hr => ?_
  obtain ⟨frame, hframe⟩ := hframes _ (hI.log_supplied _ (hI.rows_logged r hr))
  exact decodes_of_updateOf hw hframe

section Examples

open Reference

/-- An update that decodes: two string items, the second of which names the first as its parent. -/
def poison : Bytes := [1, 2, 1, 0, 4, 1, 1, 116, 1, 97, 4, 0, 1, 0, 1, 98, 0]

/-- The engine that refuses the second item, as an item whose parent is no container. -/
abbrev strictEngine : Yrs := engine [⟨1, 1⟩]

def poisonRun : List (ℕ × Action) := [(0, .append poison), (0, .insert 1), (0, .count)]

/-- The frame with the poisoned update is accepted, its append returns, and from then on the
document can be neither loaded nor compacted. -/
theorem poisoned_unloadable :
    updateOf strictEngine (strictEngine.wrapUpdate poison) = some poison ∧
      ∃ c, run (system strictEngine 64).act init poisonRun = some c ∧
        c.locals 0 = .returned (some poison) ∧ ¬Loadable strictEngine c.shared.doc := by
  refine ⟨by decide, _, rfl, rfl, fun h => ?_⟩
  exact absurd h.1 (by decide)

/-- The same append on an engine that refuses nothing. -/
theorem loadable_iff_poisonRun :
    ∃ c, run (system (engine []) 64).act init poisonRun = some c ∧
      (Loadable (engine []) c.shared.doc ↔
        Accepts Reference.needs (fun a => isRefused [] a)
          (contentOfLog (engine []) c.shared.log)) :=
  ⟨_, rfl, loadable_iff (crdt []) (wireFormat [])
    (show run (system (engine []) 64).act init poisonRun = some _ from rfl) (by
      intro b hb
      obtain rfl := List.mem_singleton.1 hb
      exact ⟨(engine []).wrapUpdate poison, by decide⟩)⟩

end Examples

end Yrby.Store
