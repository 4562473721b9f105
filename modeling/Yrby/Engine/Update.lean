import Yrby.Framework.Wire
import Mathlib.Data.Set.Lattice

/-!
# Updates and state vectors

The decoded form of a Yjs update, as `protocol.rs` reads it through yrs: for every client a
list of blocks (`item` and `gc` blocks carry content, a `skip` stands for a missing range), and
a delete set.  A `Piece` is the unit of content: one clock of a block, or the deletion of one.

The accessors follow what the source and its comments rely on.  `Update.stateVector` omits a
client whose first block starts above clock 0 and stops at the first `skip`;
`Update.stateVectorLower` gives every client with a content block the clock of the first one.
`isNoOp_iff` is what `merged_doc_update` builds on: an update whose two vectors and delete set
are all empty carries no content block and no deletion.
-/

namespace Yrby

open Wire

/-- A block's client and clock. -/
structure BlockId where
  client : ℕ
  clock : ℕ
  deriving DecidableEq

/-- A unit of content: one clock of an inserted block, or the deletion of one. -/
inductive Piece
  | block (id : BlockId)
  | deletion (id : BlockId)
  deriving DecidableEq

/-! ## State vectors -/

/-- Per client, how many clocks are covered.  A client without an entry counts as zero. -/
structure StateVector where
  entries : List (ℕ × ℕ) := []
  deriving DecidableEq

namespace StateVector

def get (sv : StateVector) (client : ℕ) : ℕ := (sv.entries.lookup client).getD 0

def isEmpty (sv : StateVector) : Bool := sv.entries.isEmpty

/-- `self >= other` in the partial order on state vectors. -/
def covers (sv other : StateVector) : Bool :=
  other.entries.all fun e => decide (other.get e.1 ≤ sv.get e.1)

/-- Equality as maps. -/
def same (sv other : StateVector) : Bool := sv.covers other && other.covers sv

@[simp] lemma get_empty (client : ℕ) : ({} : StateVector).get client = 0 := rfl

lemma get_eq_zero_of_notMem {sv : StateVector} {client : ℕ}
    (h : ∀ e ∈ sv.entries, e.1 ≠ client) : sv.get client = 0 := by
  have : sv.entries.lookup client = none := by
    rw [List.lookup_eq_none_iff]
    intro p hp
    simpa using (h p hp).symm
  simp [get, this]

/-- `covers` looks only at the clients of `other`; it decides the pointwise order. -/
lemma covers_iff {sv other : StateVector} :
    sv.covers other ↔ ∀ client, other.get client ≤ sv.get client := by
  simp only [covers, List.all_eq_true, decide_eq_true_eq]
  constructor
  · intro h client
    by_cases hc : ∃ e ∈ other.entries, e.1 = client
    · obtain ⟨e, he, rfl⟩ := hc
      exact h e he
    · push Not at hc
      rw [get_eq_zero_of_notMem hc]
      exact Nat.zero_le _
  · intro h e _
    exact h e.1

end StateVector

/-! ## Updates -/

/-- A block of an update: content, collected garbage, or a gap. -/
inductive Carrier
  | item (clock : ℕ) (len : ℕ)
  | gc (clock : ℕ) (len : ℕ)
  | skip (clock : ℕ) (len : ℕ)
  deriving DecidableEq

namespace Carrier

def clock : Carrier → ℕ
  | item clock _ | gc clock _ | skip clock _ => clock

def len : Carrier → ℕ
  | item _ len | gc _ len | skip _ len => len

def isSkip : Carrier → Bool
  | skip _ _ => true
  | _ => false

/-- The first clock past the block. -/
def stop (b : Carrier) : ℕ := b.clock + b.len

end Carrier

/-- A decoded update. -/
structure Update where
  clients : List (ℕ × List Carrier) := []
  deletes : List (ℕ × List (ℕ × ℕ)) := []
  deriving DecidableEq

namespace Update

/-- The block is one of the update's content blocks. -/
def CarriesBlock (u : Update) (id : BlockId) : Prop :=
  ∃ e ∈ u.clients, e.1 = id.client ∧
    ∃ b ∈ e.2, b.isSkip = false ∧ b.clock ≤ id.clock ∧ id.clock < b.stop

/-- The update deletes the block. -/
def CarriesDeletion (u : Update) (id : BlockId) : Prop :=
  ∃ e ∈ u.deletes, e.1 = id.client ∧ ∃ r ∈ e.2, r.1 ≤ id.clock ∧ id.clock < r.1 + r.2

/-- The content of an update. -/
def content (u : Update) : Set Piece
  | .block id => u.CarriesBlock id
  | .deletion id => u.CarriesDeletion id

lemma mem_content_block {u : Update} {id : BlockId} :
    Piece.block id ∈ u.content ↔ u.CarriesBlock id := Iff.rfl

lemma mem_content_deletion {u : Update} {id : BlockId} :
    Piece.deletion id ∈ u.content ↔ u.CarriesDeletion id := Iff.rfl

/-- The end of the contiguous run of blocks before the first `skip`. -/
def contiguousEnd : List Carrier → ℕ
  | [] => 0
  | b :: bs => if b.isSkip then 0 else max b.stop (contiguousEnd bs)

/-- `update.state_vector()` -/
def stateVector (u : Update) : StateVector where
  entries := u.clients.filterMap fun e =>
    match e.2 with
    | [] => none
    | b :: bs =>
        if b.clock = 0 ∧ contiguousEnd (b :: bs) ≠ 0 then some (e.1, contiguousEnd (b :: bs))
        else none

/-- `update.state_vector_lower()` -/
def stateVectorLower (u : Update) : StateVector where
  entries := u.clients.filterMap fun e =>
    (e.2.find? fun b => !b.isSkip).map fun b => (e.1, b.clock)

/-- `update.delete_set().is_empty()` -/
def deleteSetIsEmpty (u : Update) : Bool :=
  u.deletes.all fun e => e.2.all fun r => decide (r.2 = 0)

/-- `update.insertions(true)`: the ranges of all content blocks. -/
def insertions (u : Update) : List (ℕ × List (ℕ × ℕ)) :=
  u.clients.map fun e => (e.1, (e.2.filter fun b => !b.isSkip).map fun b => (b.clock, b.stop))

lemma not_carriesBlock_of_lower_isEmpty {u : Update} (h : u.stateVectorLower.isEmpty)
    (id : BlockId) : ¬u.CarriesBlock id := by
  rintro ⟨e, he, -, b, hb, hskip, -⟩
  have hfind : (e.2.find? fun b => !b.isSkip).isSome := by
    rw [List.find?_isSome]
    exact ⟨b, hb, by simp [hskip]⟩
  obtain ⟨b', hb'⟩ := Option.isSome_iff_exists.1 hfind
  have hmem : (e.1, b'.clock) ∈ u.stateVectorLower.entries :=
    List.mem_filterMap.2 ⟨e, he, by simp [hb']⟩
  simp [StateVector.isEmpty] at h
  simp [h] at hmem

lemma deleteSetIsEmpty_iff {u : Update} :
    u.deleteSetIsEmpty ↔ ∀ id, ¬u.CarriesDeletion id := by
  simp only [deleteSetIsEmpty, List.all_eq_true, decide_eq_true_eq]
  constructor
  · rintro h id ⟨e, he, -, r, hr, hlo, hhi⟩
    have := h e he r hr
    omega
  · intro h e he r hr
    by_contra hne
    exact h ⟨e.1, r.1⟩ ⟨e, he, rfl, r, hr, le_rfl, by simp; omega⟩

/-- The no-op test of `merged_doc_update`: no structs, no deletes, no dependencies. -/
def isNoOp (u : Update) : Bool :=
  u.stateVector.isEmpty && u.deleteSetIsEmpty && u.stateVectorLower.isEmpty

/-- The no-op test drops only updates that carry nothing. -/
theorem content_eq_empty_of_isNoOp {u : Update} (h : u.isNoOp) : u.content = ∅ := by
  simp only [isNoOp, Bool.and_eq_true] at h
  obtain ⟨⟨-, hdel⟩, hlower⟩ := h
  refine Set.eq_empty_iff_forall_notMem.2 fun a ha => ?_
  cases a with
  | block id => exact not_carriesBlock_of_lower_isEmpty hlower id ha
  | deletion id => exact deleteSetIsEmpty_iff.1 hdel id ha

end Update

end Yrby
