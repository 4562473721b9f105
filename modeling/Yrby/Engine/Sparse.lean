import Yrby.Engine.Reference

/-!
# A reference engine with holes

The second reference engine models what the source's comments say of merged updates: blocks past
a gap integrate when nothing they refer to is missing.  The updates that `Reference.decodeUpdate`
reads carry blocks without origins, so here a block needs nothing and only a deletion waits, for
its target.  A state vector still stops at the first hole of a client.

`addNew` takes each piece once, so that applying an update with nothing new leaves the document,
and with it its encoding, as it was.  `tidy` is the engine of `Reference.lean` with it.
-/

namespace Yrby.Reference

/-- A deletion needs the block it deletes. -/
def targetOf : Piece → Piece → Prop
  | .deletion a, .block b => a = b
  | _, _ => False

/-- A block integrates wherever it stands, a deletion next to its target. -/
def isPlaced (d : Doc) : Piece → Bool
  | .block id => decide (.block id ∈ d)
  | .deletion id => decide (.deletion id ∈ d) && decide (.block id ∈ d)

/-- The pieces a document does not have yet. -/
def addNew (d : Doc) (ps : List Piece) : Doc := d ++ ps.filter fun a => decide (a ∉ d)

lemma mem_addNew (d : Doc) (ps : List Piece) (a : Piece) : a ∈ addNew d ps ↔ a ∈ d ∨ a ∈ ps := by
  simp only [addNew, List.mem_append, List.mem_filter, decide_eq_true_eq]
  by_cases h : a ∈ d <;> simp [h]

/-- Nothing new, no change. -/
lemma addNew_eq_self {d : Doc} {ps : List Piece} (h : ∀ a ∈ ps, a ∈ d) : addNew d ps = d := by
  have : ps.filter (fun a => decide (a ∉ d)) = [] := by
    rw [List.filter_eq_nil_iff]
    intro a ha
    simp [h a ha]
  rw [addNew, this, List.append_nil]

/-- What integrates is there. -/
lemma mem_of_integrated {d : Doc} {a : Piece}
    (h : a ∈ Causal.integrated targetOf {a | a ∈ d}) : a ∈ d := by
  have : a ∈ {a | a ∈ d} := Causal.integrated_subset h
  exact this

lemma isPlaced_iff (d : Doc) (a : Piece) :
    isPlaced d a ↔ a ∈ Causal.integrated targetOf {a | a ∈ d} := by
  have hblock : ∀ id, .block id ∈ d → .block id ∈ Causal.integrated targetOf {a | a ∈ d} :=
    fun id h => Causal.mem_integrated h fun b hb => False.elim (by simp [targetOf] at hb)
  cases a with
  | block id =>
      rw [isPlaced, decide_eq_true_eq]
      exact ⟨hblock id, mem_of_integrated⟩
  | deletion id =>
      rw [isPlaced, Bool.and_eq_true, decide_eq_true_eq, decide_eq_true_eq]
      constructor
      · rintro ⟨hdel, hid⟩
        refine Causal.mem_integrated hdel fun b hb => ?_
        cases b with
        | block b =>
            obtain rfl : id = b := hb
            exact hblock id hid
        | deletion b => simp [targetOf] at hb
      · intro h
        have htarget : targetOf (.deletion id) (.block id) := rfl
        exact ⟨mem_of_integrated h, mem_of_integrated (Causal.integrated_of_needs h htarget)⟩

/-- The engine with holes. -/
abbrev sparse (bad : List BlockId) : Yrs := engineOf isPlaced addNew bad

/-- **The engine with holes is a CRDT.** -/
theorem crdt_sparse (bad : List BlockId) :
    (sparse bad).Crdt targetOf fun a => isRefused bad a := by
  refine crdt_engineOf bad isPlaced_iff mem_addNew fun d client clock h => ?_
  rw [isPlaced, decide_eq_true_eq]
  exact h clock le_rfl

/-- The engine without holes, with documents that take each piece once. -/
abbrev tidy (bad : List BlockId) : Yrs := engineOf isIntegrated addNew bad

theorem crdt_tidy (bad : List BlockId) : (tidy bad).Crdt needs fun a => isRefused bad a :=
  crdt_engineOf bad (fun _ _ => isIntegrated_iff) mem_addNew fun _ _ _ h => hasPrefix_iff.2 h

end Yrby.Reference
