import Mathlib.Data.List.Destutter
import Mathlib.Data.List.Sort
import Yrby.Writer.Ordinals

/-!
# Which blocks an update touched (`apply_update_changes`)

The observer of a commit walks the root as it was and the root as it is, both at once: the events'
delta and paths count units, the report counts blocks.  What is reported are the blocks added and
those with a change inside, under their new ordinals, and the blocks removed, under their old ones
(`applyUpdateChanges_exact`).

What yrs tells is a parameter: the delta is an edit script from the old root to the new one
(`Body.Tells`), and an event below the root begins its path at the child it happened in
(`Reports.inside`).
-/

namespace Yrby.Sequence

open HtmlCore Offsets

/-! ## Events -/

/-- `yrs::types::Change` -/
inductive Change
  | added (items : List Inserted)
  | removed (n : ℕ)
  | retain (n : ℕ)

/-- `yrs::types::Delta`.  Formatting is not read. -/
inductive Delta
  | inserted (item : Inserted)
  | deleted (n : ℕ)
  | retain (n : ℕ)

/-- `yrs::types::PathSegment` -/
inductive PathSegment
  | key (name : String)
  | index (i : ℕ)

/-- `yrs::types::Event` by its type. -/
inductive Body
  | xmlFragment (delta : List Change)
  | xmlText (delta : List Delta)
  | other

structure Event where
  path : List PathSegment
  body : Body

/-- What the observer gets from a commit. -/
structure Commit where
  origin : Option String
  events : List Event
  /-- The root as it now is. -/
  root : Sequence

/-! ## The functions -/

/-- The units of a piece: `encode_utf16().count() as u32`, or one. -/
def Inserted.len (piece : Inserted) : ℕ :=
  match piece.string? with
  | some s => (s.toList.flatMap utf16).length % 2 ^ 32
  | none => 1

/-- `Children` -/
abbrev Children := List (ℕ × Bool)

/-- The loop of `Children::of`. -/
def childrenFrom : ℕ → List Inserted → Option Children
  | _, [] => some []
  | start, piece :: pieces => do
    let next ← u32 (start + piece.len)
    let children ← childrenFrom next pieces
    some ((start, piece.block?.isSome) :: children)

/-- `Children::of` -/
def Children.of (root : Sequence) : Option Children := childrenFrom 0 root.pieces

/-- `Children::ordinal` -/
def Children.ordinal (children : Children) (index : ℕ) : ℕ :=
  (children.filter fun child => child.2 && decide (child.1 < index)).length % 2 ^ 32

/-- `Children::is_block` -/
def Children.isBlock (children : Children) (index : ℕ) : Bool :=
  children.any fun child => child.2 && decide (child.1 = index)

/-- `Children::blocks_in` -/
def Children.blocksIn (children : Children) (first last : ℕ) : ℕ :=
  (children.filter fun child =>
    child.2 && decide (first ≤ child.1 ∧ child.1 < last)).length % 2 ^ 32

/-- The cursors of `root_positions` and what it has reported. -/
structure Cursors where
  old : ℕ
  new : ℕ
  hits : List ℕ

/-- `added` -/
def added (after : Children) (c : Cursors) (item : Inserted) : Option Cursors := do
  let hits := if item.block?.isSome then c.hits ++ [after.ordinal c.new] else c.hits
  let new ← u32 (c.new + item.len)
  some { c with new, hits }

/-- `removed`, and `old += n`. -/
def removed (before : Children) (c : Cursors) (n : ℕ) : Option Cursors := do
  let first := before.ordinal c.old
  let old ← u32 (c.old + n)
  let last ← u32 (first + before.blocksIn c.old old)
  some { c with old, hits := c.hits ++ List.range' first (last - first) }

/-- A retained span. -/
def retained (c : Cursors) (n : ℕ) : Option Cursors := do
  let old ← u32 (c.old + n)
  let new ← u32 (c.new + n)
  some { c with old, new }

def Change.step (before after : Children) (c : Cursors) : Change → Option Cursors
  | .retain n => retained c n
  | .added items => items.foldlM (Sequence.added after) c
  | .removed n => Sequence.removed before c n

def Delta.step (before after : Children) (c : Cursors) : Delta → Option Cursors
  | .retain n => retained c n
  | .inserted item => added after c item
  | .deleted n => removed before c n

/-- `root_positions` -/
def rootPositions (event : Event) (before after : Children) (hits : List ℕ) : Option (List ℕ) :=
  match event.body with
  | .xmlFragment delta => (delta.foldlM (Change.step before after) ⟨0, 0, hits⟩).map Cursors.hits
  | .xmlText delta => (delta.foldlM (Delta.step before after) ⟨0, 0, hits⟩).map Cursors.hits
  | .other => some hits

/-- What the observer does with one event. -/
def observeEvent (before children : Children) (hits : List ℕ) (event : Event) : Option (List ℕ) :=
  match event.path with
  | .index i :: _ => some (if children.isBlock i then hits ++ [children.ordinal i] else hits)
  | .key _ :: _ => some hits
  | [] => rootPositions event before children hits

/-- The observer. -/
def observe (ours : String) (before : Children) (hits : List ℕ) (commit : Commit) :
    Option (List ℕ) :=
  if commit.origin ≠ some ours then some hits
  else do
    let children ← Children.of commit.root
    commit.events.foldlM (observeEvent before children) hits

/-- `sort_unstable` and `dedup`. -/
def sortDedup (hits : List ℕ) : List ℕ := (hits.mergeSort (· ≤ ·)).destutter (· ≠ ·)

/-- `apply_update_changes`: `commits` are those that are made while it observes, `applied` is what
decoding and applying the update came to. -/
def applyUpdateChanges (ours : String) (before : Sequence) (commits : List Commit)
    (applied : Except String Unit) : Option (Except String (List ℕ)) := do
  let before ← Children.of before
  let hits ← commits.foldlM (observe ours before) []
  some (applied.map fun _ => sortDedup hits)

/-! ## What yrs tells -/

/-- A stretch of an edit of the root, in units. -/
inductive Op
  | kept (us : List CodeUnit)
  | added (us : List CodeUnit)
  | removed (us : List CodeUnit)

/-- The stretch in the root as it was. -/
def Op.old : Op → List CodeUnit
  | .kept us => us
  | .added _ => []
  | .removed us => us

/-- The stretch in the root as it is. -/
def Op.new : Op → List CodeUnit
  | .kept us => us
  | .added us => us
  | .removed _ => []

def oldUnits (ops : List Op) : List CodeUnit := ops.flatMap Op.old

def newUnits (ops : List Op) : List CodeUnit := ops.flatMap Op.new

/-- The units of a piece that was written. -/
def Inserted.units : Inserted → List CodeUnit
  | .any (.string s) => (s.toList.flatMap utf16).map .code
  | .any v => [.embed (.plain v)]
  | .xmlText block => [.embed (.xmlText block)]
  | .shared id => [.embed (.shared id)]

def Change.Tells : Change → Op → Prop
  | .retain n, .kept us => us.length = n
  | .added items, .added us => us = items.flatMap Inserted.units
  | .removed n, .removed us => us.length = n
  | _, _ => False

def Delta.Tells : Delta → Op → Prop
  | .retain n, .kept us => us.length = n
  | .inserted item, .added us => us = item.units
  | .deleted n, .removed us => us.length = n
  | _, _ => False

/-- The delta tells the edit.  What is kept at the end may be left out. -/
def Body.Tells (body : Body) (ops : List Op) : Prop :=
  ∃ told rest, ops = told ++ [.kept rest] ∧
    match body with
    | .xmlFragment delta => List.Forall₂ Change.Tells delta told
    | .xmlText delta => List.Forall₂ Delta.Tells delta told
    | .other => False

/-- The events of a commit report an edit of the root and the changes inside its children. -/
structure Reports (events : List Event) (ops : List Op) (changed : Embed → Prop) : Prop where
  root : ∀ event ∈ events, event.path = [] → event.body.Tells ops
  rootSome : (∀ op ∈ ops, ∃ us, op = .kept us) ∨ ∃ event ∈ events, event.path = []
  inside : ∀ i, (∃ event ∈ events, ∃ rest, event.path = .index i :: rest) ↔
    ∃ e, (newUnits ops)[i]? = some (.embed e) ∧ changed e

/-! ## What is to be reported -/

def CodeUnit.block? : CodeUnit → Option ℕ
  | .embed (.xmlText block) => some block
  | _ => none

/-- The blocks among units. -/
def unitBlocks (us : List CodeUnit) : List ℕ := us.filterMap CodeUnit.block?

/-- The ordinals of the blocks that an edit touched: of those added and those changed inside in the
root as it is, of those removed in the root as it was. -/
inductive Touched (ops : List Op) (changed : Embed → Prop) : ℕ → Prop
  | added {before after first rest block} :
    ops = before ++ .added (first ++ .embed (.xmlText block) :: rest) :: after →
      Touched ops changed (unitBlocks (newUnits before ++ first)).length
  | removed {before after first rest block} :
    ops = before ++ .removed (first ++ .embed (.xmlText block) :: rest) :: after →
      Touched ops changed (unitBlocks (oldUnits before ++ first)).length
  | changed {before after first rest block} :
    ops = before ++ .kept (first ++ .embed (.xmlText block) :: rest) :: after →
      changed (.xmlText block) →
        Touched ops changed (unitBlocks (newUnits before ++ first)).length

/-! ## Children -/

@[simp] lemma unitBlocks_append (us vs : List CodeUnit) :
    unitBlocks (us ++ vs) = unitBlocks us ++ unitBlocks vs :=
  List.filterMap_append

lemma unitBlocks_codes (ns : List ℕ) : unitBlocks (ns.map .code) = [] := by
  rw [unitBlocks, List.filterMap_map]
  exact List.filterMap_eq_nil_iff.2 fun _ _ => rfl

lemma length_unitBlocks_le (us : List CodeUnit) : (unitBlocks us).length ≤ us.length :=
  List.length_filterMap_le _ _

lemma CodeUnit.block?_eq_some {u : CodeUnit} {b : ℕ} :
    u.block? = some b ↔ u = .embed (.xmlText b) := by
  constructor
  · intro h
    cases u with
    | code n => simp [CodeUnit.block?] at h
    | embed e =>
      cases e with
      | xmlText block => rw [Option.some.inj h]
      | _ => simp [CodeUnit.block?] at h
  · rintro rfl
    rfl

/-- A piece is text, or one embed. -/
lemma Inserted.units_cases (piece : Inserted) :
    (∃ s, piece = .any (.string s) ∧ piece.units = (s.toList.flatMap utf16).map .code) ∨
      ∃ e, piece.units = [.embed e] ∧ piece.string? = none ∧
        piece.block? = (CodeUnit.embed e).block? := by
  cases piece with
  | any v =>
    cases v with
    | string s => exact .inl ⟨s, rfl, rfl⟩
    | _ => exact .inr ⟨_, rfl, rfl, rfl⟩
  | xmlText block => exact .inr ⟨_, rfl, rfl, rfl⟩
  | shared id => exact .inr ⟨_, rfl, rfl, rfl⟩

lemma Inserted.len_eq {piece : Inserted} (h : piece.units.length < 2 ^ 32) :
    piece.len = piece.units.length := by
  obtain ⟨s, rfl, units⟩ | ⟨e, units, embed, -⟩ := piece.units_cases
  · rw [units, List.length_map] at h ⊢
    exact Nat.mod_eq_of_lt h
  · rw [Inserted.len, embed, units]
    rfl

lemma Inserted.unitBlocks_take (piece : Inserted) (n : ℕ) :
    (unitBlocks (piece.units.take n)).length =
      if piece.block?.isSome && decide (0 < n) then 1 else 0 := by
  obtain ⟨s, rfl, units⟩ | ⟨e, units, -, block⟩ := piece.units_cases
  · rw [units, ← List.map_take, unitBlocks_codes]
    rfl
  · rw [units, block]
    cases n with
    | zero => simp [unitBlocks]
    | succ n =>
      rw [List.take_succ_cons, List.take_nil, unitBlocks, List.filterMap_cons, List.filterMap_nil]
      cases (CodeUnit.embed e).block? <;> simp

lemma Inserted.units_getElem? (piece : Inserted) (j : ℕ) :
    (∃ b, piece.units[j]? = some (.embed (.xmlText b))) ↔ piece.block?.isSome ∧ j = 0 := by
  obtain ⟨s, rfl, units⟩ | ⟨e, units, -, block⟩ := piece.units_cases
  · rw [units]
    simp [Inserted.block?]
  · rw [units, block]
    cases j with
    | zero =>
      simp only [List.getElem?_cons_zero, Option.some.injEq, and_true, Option.isSome_iff_exists,
        CodeUnit.block?_eq_some]
    | succ j => simp

/-- The children of a sequence whose units from `start` on are `us`. -/
structure Children.Of (children : Children) (start : ℕ) (us : List CodeUnit) : Prop where
  count : ∀ index,
    (children.filter fun child => child.2 && decide (child.1 < index)).length =
      (unitBlocks (us.take (index - start))).length
  isBlock : ∀ index, children.isBlock index ↔
    start ≤ index ∧ ∃ b, us[index - start]? = some (.embed (.xmlText b))

lemma childrenFrom_eq (pieces : List Inserted) (start : ℕ)
    (h : start + (pieces.flatMap Inserted.units).length < 2 ^ 32) :
    ∃ children, childrenFrom start pieces = some children ∧
      children.Of start (pieces.flatMap Inserted.units) := by
  induction pieces generalizing start with
  | nil =>
    refine ⟨[], rfl, fun index => by simp [unitBlocks], fun index => ?_⟩
    simp [Children.isBlock]
  | cons piece pieces ih =>
    rw [List.flatMap_cons, List.length_append] at h
    obtain ⟨rest, hrest, of⟩ := ih (start + piece.units.length) (by omega)
    refine ⟨(start, piece.block?.isSome) :: rest, ?_, ?_, ?_⟩
    · rw [childrenFrom, Inserted.len_eq (by omega), u32_eq (by omega)]
      simp only [Option.bind_eq_bind, Option.bind_some, hrest]
    · intro index
      have behind := of.count index
      have own := piece.unitBlocks_take (index - start)
      have place : 0 < index - start ↔ start < index := by omega
      simp only [place] at own
      rw [List.flatMap_cons, List.take_append, unitBlocks_append, List.length_append, own,
        Nat.sub_sub, ← behind]
      simp only [List.filter_cons]
      split
      · rw [List.length_cons, Nat.add_comm]
      · rw [Nat.zero_add]
    · intro index
      have own := piece.units_getElem? (index - start)
      have behind := of.isBlock index
      have here : Children.isBlock ((start, piece.block?.isSome) :: rest) index =
          ((piece.block?.isSome && decide (start = index)) || Children.isBlock rest index) := rfl
      rw [here, Bool.or_eq_true, behind, Bool.and_eq_true, decide_eq_true_eq, List.flatMap_cons]
      by_cases before : index < start + piece.units.length
      · have out : ¬start + piece.units.length ≤ index := by omega
        constructor
        · rintro (⟨block, rfl⟩ | ⟨past, -⟩)
          · refine ⟨le_rfl, ?_⟩
            rw [List.getElem?_append_left (by omega)]
            exact own.2 ⟨block, Nat.sub_self _⟩
          · exact absurd past out
        · rintro ⟨past, b, hb⟩
          rw [List.getElem?_append_left (by omega)] at hb
          obtain ⟨block, first⟩ := own.1 ⟨b, hb⟩
          exact .inl ⟨block, by omega⟩
      · constructor
        · rintro (⟨block, rfl⟩ | ⟨past, b, hb⟩)
          · -- A block is one unit long.
            obtain ⟨b, hb⟩ := own.2 ⟨block, Nat.sub_self _⟩
            obtain ⟨inside, -⟩ := List.getElem?_eq_some_iff.1 hb
            omega
          · refine ⟨by omega, b, ?_⟩
            rw [List.getElem?_append_right (by omega), Nat.sub_sub]
            exact hb
        · rintro ⟨past, b, hb⟩
          rw [List.getElem?_append_right (by omega), Nat.sub_sub] at hb
          exact .inr ⟨by omega, b, hb⟩

lemma flatMap_units {stored : List Stored} (h : NoStrings stored) :
    (stored.map Stored.inserted).flatMap Inserted.units = encode (elems stored) := by
  induction stored with
  | nil => rfl
  | cons x stored ih =>
    have first : x.inserted.units = encode x.elems := by
      cases x with
      | string s =>
        simp only [Stored.inserted, Inserted.units, Stored.elems, encode, List.flatMap_map,
          List.map_flatMap]
        rfl
      | embed e =>
        cases e with
        | plain v =>
          cases v with
          | string t => exact absurd List.mem_cons_self (h t)
          | _ => rfl
        | _ => rfl
    rw [List.map_cons, List.flatMap_cons, ih h.tail, first, elems_cons, encode_append]

/-- What `Children::of` finds. -/
lemma Children.of_eq {root : Sequence} (h : NoStrings root.stored) :
    ∃ children, Children.of root = some children ∧ children.Of 0 root.units := by
  have size : (encode root.elements).length < 2 ^ 32 := (length_encode _ _).trans_lt root.fits
  have units : root.pieces.flatMap Inserted.units = root.units := flatMap_units h
  obtain ⟨children, hchildren, of⟩ := childrenFrom_eq root.pieces 0 (by
    rw [units, Nat.zero_add]
    exact size)
  exact ⟨children, hchildren, units ▸ of⟩

section

variable {children : Children} {us : List CodeUnit} (of : children.Of 0 us)
  (small : us.length < 2 ^ 32)

include of small

lemma Children.Of.ordinal (index : ℕ) :
    children.ordinal index = (unitBlocks (us.take index)).length := by
  have few := length_unitBlocks_le (us.take index)
  rw [List.length_take] at few
  rw [Children.ordinal, of.count, Nat.sub_zero, Nat.mod_eq_of_lt (by omega)]

/-- The blocks of a span are those before its end without those before its start. -/
lemma Children.Of.blocksIn (front span rest : List CodeUnit) (split : us = front ++ span ++ rest) :
    children.blocksIn front.length (front ++ span).length = (unitBlocks span).length := by
  have cut : ∀ last, front.length ≤ last →
      (children.filter fun child => child.2 && decide (child.1 < front.length)).length +
        (children.filter fun child =>
          child.2 && decide (front.length ≤ child.1 ∧ child.1 < last)).length =
      (children.filter fun child => child.2 && decide (child.1 < last)).length := by
    intro last order
    clear of
    induction children with
    | nil => rfl
    | cons child children ih =>
      obtain ⟨start, block⟩ := child
      simp only [List.filter_cons]
      cases block with
      | false => simpa using ih
      | true =>
        rcases Nat.lt_or_ge start front.length with before | behind
        · have all : start < last := by omega
          have out : ¬front.length ≤ start := by omega
          simp only [before, all, out, false_and, decide_true, decide_false, Bool.true_and, if_true,
            Bool.false_eq_true, if_false, List.length_cons]
          omega
        · have out : ¬start < front.length := by omega
          by_cases inside : start < last
          · simp only [behind, inside, out, decide_true, decide_false, Bool.true_and, if_true,
              Bool.false_eq_true, if_false, and_self, List.length_cons]
            omega
          · simp only [inside, out, decide_false, Bool.true_and, Bool.false_eq_true, if_false,
              and_false]
            exact ih
  have both := cut (front ++ span).length (by simp)
  have sum : (unitBlocks (front ++ span)).length =
      (unitBlocks front).length + (unitBlocks span).length := by
    rw [unitBlocks_append, List.length_append]
  rw [of.count, of.count, Nat.sub_zero, Nat.sub_zero, split, List.take_left, List.append_assoc,
    List.take_left, sum] at both
  have few := length_unitBlocks_le span
  have whole : us.length = front.length + span.length + rest.length := by
    rw [split, List.length_append, List.length_append]
  rw [Children.blocksIn, Nat.mod_eq_of_lt (by omega)]
  omega

end

/-! ## The walk -/

/-- What the walk reports of an edit: `old` and `new` are what lies behind the cursors. -/
def opHits : List CodeUnit → List CodeUnit → List Op → List ℕ
  | _, _, [] => []
  | old, new, .kept us :: ops => opHits (old ++ us) (new ++ us) ops
  | old, new, .added us :: ops =>
    List.range' (unitBlocks new).length (unitBlocks us).length ++ opHits old (new ++ us) ops
  | old, new, .removed us :: ops =>
    List.range' (unitBlocks old).length (unitBlocks us).length ++ opHits (old ++ us) new ops

section

variable {before after : Children} {oldUs newUs : List CodeUnit} (ofOld : before.Of 0 oldUs)
  (ofNew : after.Of 0 newUs) (smallOld : oldUs.length < 2 ^ 32) (smallNew : newUs.length < 2 ^ 32)

include ofNew smallNew in
lemma added_eq {c : Cursors} {item : Inserted} {new rest : List CodeUnit}
    (here : c.new = new.length) (split : newUs = new ++ item.units ++ rest) :
    added after c item = some { c with
      new := (new ++ item.units).length
      hits := c.hits ++ List.range' (unitBlocks new).length (unitBlocks item.units).length } := by
  have whole : newUs.length = new.length + item.units.length + rest.length := by
    rw [split, List.length_append, List.length_append]
  have ordinal : after.ordinal new.length = (unitBlocks new).length := by
    rw [ofNew.ordinal smallNew, split, List.append_assoc, List.take_left]
  have own := item.unitBlocks_take item.units.length
  rw [List.take_length] at own
  rw [added, here, Inserted.len_eq (by omega), u32_eq (by omega), ordinal, own]
  simp only [Option.bind_eq_bind, Option.bind_some, List.length_append]
  obtain ⟨s, rfl, -⟩ | ⟨e, units, -⟩ := item.units_cases
  · simp [Inserted.block?]
  · rw [units]
    cases item.block? <;> simp

include ofNew smallNew in
lemma foldlM_added_eq {items : List Inserted} {c : Cursors} {new rest : List CodeUnit}
    (here : c.new = new.length) (split : newUs = new ++ items.flatMap Inserted.units ++ rest) :
    items.foldlM (added after) c = some { c with
      new := (new ++ items.flatMap Inserted.units).length
      hits := c.hits ++ List.range' (unitBlocks new).length
        (unitBlocks (items.flatMap Inserted.units)).length } := by
  induction items generalizing c new with
  | nil => simp [unitBlocks, ← here]
  | cons item items ih =>
    rw [List.flatMap_cons, ← List.append_assoc] at split ⊢
    have first : newUs = new ++ item.units ++ (items.flatMap Inserted.units ++ rest) := by
      rw [split, List.append_assoc]
    rw [List.foldlM_cons, added_eq ofNew smallNew here first]
    simp only [Option.bind_eq_bind, Option.bind_some]
    rw [ih rfl split]
    simp only [unitBlocks_append, List.length_append, List.append_assoc, List.range'_append_1]

include ofOld smallOld in
lemma removed_eq {c : Cursors} {old us rest : List CodeUnit} (here : c.old = old.length)
    (split : oldUs = old ++ us ++ rest) :
    removed before c us.length = some { c with
      old := (old ++ us).length
      hits := c.hits ++ List.range' (unitBlocks old).length (unitBlocks us).length } := by
  have whole : oldUs.length = old.length + us.length + rest.length := by
    rw [split, List.length_append, List.length_append]
  have ordinal : before.ordinal old.length = (unitBlocks old).length := by
    rw [ofOld.ordinal smallOld, split, List.append_assoc, List.take_left]
  have span := ofOld.blocksIn smallOld old us rest split
  have fewOld := length_unitBlocks_le old
  have few := length_unitBlocks_le us
  rw [List.length_append] at span
  rw [removed, here, ordinal, u32_eq (by omega)]
  simp only [Option.bind_eq_bind, Option.bind_some]
  rw [span, u32_eq (by omega), Option.bind_some, Nat.add_sub_cancel_left, List.length_append]

/-- The cursors behind `old` and `new`, with what was reported on the way. -/
def cursors (old new : List CodeUnit) (hits : List ℕ) : Cursors := ⟨old.length, new.length, hits⟩

/-- A step that tells a stretch reports its blocks and goes behind it. -/
def StepTells (step : Cursors → Option Cursors) (oldUs newUs : List CodeUnit) (op : Op) : Prop :=
  ∀ old new restOld restNew hits, oldUs = old ++ op.old ++ restOld →
    newUs = new ++ op.new ++ restNew →
      step (cursors old new hits) =
        some (cursors (old ++ op.old) (new ++ op.new) (hits ++ opHits old new [op]))

include smallOld smallNew in
lemma retained_tells (us : List CodeUnit) :
    StepTells (retained · us.length) oldUs newUs (.kept us) := by
  intro old new restOld restNew hits splitOld splitNew
  have wholeOld : oldUs.length = old.length + us.length + restOld.length := by
    rw [splitOld, List.length_append, List.length_append]
    rfl
  have wholeNew : newUs.length = new.length + us.length + restNew.length := by
    rw [splitNew, List.length_append, List.length_append]
    rfl
  simp only [retained, cursors, Option.bind_eq_bind]
  rw [u32_eq (by omega), Option.bind_some, u32_eq (by omega), Option.bind_some]
  simp [Op.old, Op.new, opHits]

include ofOld smallOld in
lemma removed_tells (us : List CodeUnit) :
    StepTells (removed before · us.length) oldUs newUs (.removed us) := by
  intro old new restOld restNew hits splitOld splitNew
  have split : oldUs = old ++ us ++ restOld := splitOld
  simp only [cursors]
  rw [removed_eq ofOld smallOld rfl split]
  simp [Op.old, Op.new, opHits]

include ofNew smallNew in
lemma added_tells (items : List Inserted) :
    StepTells (fun c => items.foldlM (added after) c) oldUs newUs
      (.added (items.flatMap Inserted.units)) := by
  intro old new restOld restNew hits splitOld splitNew
  have split : newUs = new ++ items.flatMap Inserted.units ++ restNew := splitNew
  simp only [cursors]
  rw [foldlM_added_eq ofNew smallNew rfl split]
  simp [Op.old, Op.new, opHits]

include ofOld ofNew smallOld smallNew in
lemma Change.step_tells {change : Change} {op : Op} (h : change.Tells op) :
    StepTells (Change.step before after · change) oldUs newUs op := by
  cases change with
  | added items =>
    cases op with
    | added us =>
      obtain rfl : us = _ := h
      exact added_tells ofNew smallNew items
    | _ => exact h.elim
  | removed n =>
    cases op with
    | removed us =>
      obtain rfl : us.length = n := h
      exact removed_tells ofOld smallOld us
    | _ => exact h.elim
  | retain n =>
    cases op with
    | kept us =>
      obtain rfl : us.length = n := h
      exact retained_tells smallOld smallNew us
    | _ => exact h.elim

include ofOld ofNew smallOld smallNew in
lemma Delta.step_tells {delta : Delta} {op : Op} (h : delta.Tells op) :
    StepTells (Delta.step before after · delta) oldUs newUs op := by
  cases delta with
  | inserted item =>
    cases op with
    | added us =>
      obtain rfl : us = _ := h
      have alone : StepTells (fun c => added after c item) oldUs newUs (.added item.units) := by
        simpa [List.foldlM_cons] using added_tells ofNew smallNew [item]
      exact alone
    | _ => exact h.elim
  | deleted n =>
    cases op with
    | removed us =>
      obtain rfl : us.length = n := h
      exact removed_tells ofOld smallOld us
    | _ => exact h.elim
  | retain n =>
    cases op with
    | kept us =>
      obtain rfl : us.length = n := h
      exact retained_tells smallOld smallNew us
    | _ => exact h.elim

end

lemma opHits_append (old new : List CodeUnit) (ops more : List Op) :
    opHits old new (ops ++ more) =
      opHits old new ops ++ opHits (old ++ oldUnits ops) (new ++ newUnits ops) more := by
  induction ops generalizing old new with
  | nil => simp [opHits, oldUnits, newUnits]
  | cons op ops ih =>
    cases op <;> simp [opHits, ih, oldUnits, newUnits, Op.old, Op.new]

/-- A walk whose steps tell the stretches reports what the edit touched. -/
lemma foldlM_tells {α : Type} {step : Cursors → α → Option Cursors} {oldUs newUs : List CodeUnit}
    {deltas : List α} {ops : List Op}
    (tells : List.Forall₂ (fun delta op => StepTells (step · delta) oldUs newUs op) deltas ops)
    {old new restOld restNew : List CodeUnit} {hits : List ℕ}
    (splitOld : oldUs = old ++ oldUnits ops ++ restOld)
    (splitNew : newUs = new ++ newUnits ops ++ restNew) :
    deltas.foldlM step (cursors old new hits) =
      some (cursors (old ++ oldUnits ops) (new ++ newUnits ops) (hits ++ opHits old new ops)) := by
  induction tells generalizing old new hits with
  | nil => simp [oldUnits, newUnits, opHits]
  | @cons delta op deltas ops first rest ih =>
    have cutOld : oldUnits (op :: ops) = op.old ++ oldUnits ops := List.flatMap_cons
    have cutNew : newUnits (op :: ops) = op.new ++ newUnits ops := List.flatMap_cons
    have hitsCut := opHits_append old new [op] ops
    have oneOld : oldUnits [op] = op.old := List.flatMap_singleton ..
    have oneNew : newUnits [op] = op.new := List.flatMap_singleton ..
    rw [List.singleton_append, oneOld, oneNew] at hitsCut
    rw [cutOld, ← List.append_assoc] at splitOld
    rw [cutNew, ← List.append_assoc] at splitNew
    have here : step (cursors old new hits) delta =
        some (cursors (old ++ op.old) (new ++ op.new) (hits ++ opHits old new [op])) :=
      first old new _ _ hits (by rw [splitOld, List.append_assoc])
        (by rw [splitNew, List.append_assoc])
    rw [List.foldlM_cons, here]
    simp only [Option.bind_eq_bind, Option.bind_some]
    rw [ih splitOld splitNew, hitsCut, cutOld, cutNew]
    simp only [List.append_assoc]

lemma rootPositions_eq {before after : Children} {oldUs newUs : List CodeUnit}
    (ofOld : before.Of 0 oldUs) (ofNew : after.Of 0 newUs) (smallOld : oldUs.length < 2 ^ 32)
    (smallNew : newUs.length < 2 ^ 32) {event : Event} {ops : List Op}
    (old : oldUnits ops = oldUs) (new : newUnits ops = newUs) (h : event.body.Tells ops)
    (hits : List ℕ) :
    rootPositions event before after hits = some (hits ++ opHits [] [] ops) := by
  obtain ⟨told, rest, rfl, tells⟩ := h
  -- What is kept at the end reports nothing.
  have last : opHits [] [] (told ++ [.kept rest]) = opHits [] [] told := by
    rw [opHits_append]
    simp [opHits]
  have splitOld : oldUs = [] ++ oldUnits told ++ rest := by
    rw [← old, oldUnits, List.flatMap_append]
    simp [oldUnits, Op.old]
  have splitNew : newUs = [] ++ newUnits told ++ rest := by
    rw [← new, newUnits, List.flatMap_append]
    simp [newUnits, Op.new]
  unfold rootPositions
  rw [last]
  cases body : event.body with
  | xmlFragment delta =>
    rw [body] at tells
    have steps := List.Forall₂.imp
      (fun _ _ tell => Change.step_tells ofOld ofNew smallOld smallNew tell) tells
    exact congrArg (Option.map Cursors.hits) (foldlM_tells steps splitOld splitNew)
  | xmlText delta =>
    rw [body] at tells
    have steps := List.Forall₂.imp
      (fun _ _ tell => Delta.step_tells ofOld ofNew smallOld smallNew tell) tells
    exact congrArg (Option.map Cursors.hits) (foldlM_tells steps splitOld splitNew)
  | other =>
    rw [body] at tells
    exact tells.elim

/-! ## What the walk reports -/

/-- The blocks of a stretch, numbered on from those before it. -/
lemma mem_range'_unitBlocks {front us : List CodeUnit} {i : ℕ} :
    i ∈ List.range' (unitBlocks front).length (unitBlocks us).length ↔
      ∃ first block rest, us = first ++ .embed (.xmlText block) :: rest ∧
        i = (unitBlocks (front ++ first)).length := by
  rw [List.mem_range'_1]
  constructor
  · rintro ⟨lo, hi⟩
    have inside : i - (unitBlocks front).length < (unitBlocks us).length := by omega
    obtain ⟨first, u, rest, split, hu, number⟩ :=
      exists_of_getElem?_filterMap (List.getElem?_eq_getElem inside)
    rw [CodeUnit.block?_eq_some] at hu
    refine ⟨first, _, rest, hu ▸ split, ?_⟩
    have own : (unitBlocks first).length = i - (unitBlocks front).length := number
    rw [unitBlocks_append, List.length_append, own]
    omega
  · rintro ⟨first, block, rest, rfl, rfl⟩
    have one : unitBlocks (.embed (.xmlText block) :: rest) = block :: unitBlocks rest := rfl
    rw [unitBlocks_append, unitBlocks_append, one, List.length_append, List.length_append,
      List.length_cons]
    omega

/-- A block that was added or removed, `old` and `new` lying before the edit. -/
def IsHit (old new : List CodeUnit) (ops : List Op) (i : ℕ) : Prop :=
  (∃ before after first rest block,
    ops = before ++ .added (first ++ .embed (.xmlText block) :: rest) :: after ∧
      i = (unitBlocks (new ++ (newUnits before ++ first))).length) ∨
  ∃ before after first rest block,
    ops = before ++ .removed (first ++ .embed (.xmlText block) :: rest) :: after ∧
      i = (unitBlocks (old ++ (oldUnits before ++ first))).length

lemma mem_opHits {old new : List CodeUnit} {ops : List Op} {i : ℕ} :
    i ∈ opHits old new ops ↔ IsHit old new ops i := by
  constructor
  · intro h
    induction ops generalizing old new with
    | nil => simp [opHits] at h
    | cons op ops ih =>
      -- A later stretch has this one before it.
      have later : i ∈ opHits (old ++ op.old) (new ++ op.new) ops →
          IsHit old new (op :: ops) i := by
        intro behind
        rcases ih behind with ⟨before, after, first, rest, block, rfl, number⟩ |
          ⟨before, after, first, rest, block, rfl, number⟩
        · refine Or.inl ⟨op :: before, after, first, rest, block, rfl, ?_⟩
          rw [number, newUnits, newUnits, List.flatMap_cons, List.append_assoc, List.append_assoc]
        · refine Or.inr ⟨op :: before, after, first, rest, block, rfl, ?_⟩
          rw [number, oldUnits, oldUnits, List.flatMap_cons, List.append_assoc, List.append_assoc]
      cases op with
      | kept us => exact later h
      | added us =>
        rcases List.mem_append.1 h with here | behind
        · obtain ⟨first, block, rest, rfl, number⟩ := mem_range'_unitBlocks.1 here
          exact .inl ⟨[], ops, first, rest, block, rfl, number⟩
        · exact later (by simpa [Op.old, Op.new] using behind)
      | removed us =>
        rcases List.mem_append.1 h with here | behind
        · obtain ⟨first, block, rest, rfl, number⟩ := mem_range'_unitBlocks.1 here
          exact .inr ⟨[], ops, first, rest, block, rfl, number⟩
        · exact later (by simpa [Op.old, Op.new] using behind)
  · rintro (⟨before, after, first, rest, block, rfl, rfl⟩ |
      ⟨before, after, first, rest, block, rfl, rfl⟩)
    · rw [opHits_append, List.mem_append, opHits, List.mem_append]
      refine .inr (.inl (mem_range'_unitBlocks.2 ⟨first, block, rest, rfl, ?_⟩))
      rw [List.append_assoc]
    · rw [opHits_append, List.mem_append, opHits, List.mem_append]
      refine .inr (.inl (mem_range'_unitBlocks.2 ⟨first, block, rest, rfl, ?_⟩))
      rw [List.append_assoc]

/-- What the observer reports of one event of an edit. -/
def eventHits (children : Children) (ops : List Op) (event : Event) : List ℕ :=
  match event.path with
  | .index i :: _ => if children.isBlock i then [children.ordinal i] else []
  | .key _ :: _ => []
  | [] => opHits [] [] ops

lemma foldlM_append {α : Type} {f : List ℕ → α → Option (List ℕ)} {g : α → List ℕ} {xs : List α}
    (h : ∀ x ∈ xs, ∀ hits, f hits x = some (hits ++ g x)) (hits : List ℕ) :
    xs.foldlM f hits = some (hits ++ xs.flatMap g) := by
  induction xs generalizing hits with
  | nil => simp
  | cons x xs ih =>
    rw [List.foldlM_cons, h x List.mem_cons_self]
    simp only [Option.bind_eq_bind, Option.bind_some]
    rw [ih fun y hy => h y (List.mem_cons_of_mem x hy), List.flatMap_cons, List.append_assoc]

/-- What the events of a commit report is what the edit touched. -/
lemma mem_eventHits {children : Children} {ops : List Op} {changed : Embed → Prop}
    {events : List Event} (of : children.Of 0 (newUnits ops))
    (small : (newUnits ops).length < 2 ^ 32) (reports : Reports events ops changed) {i : ℕ} :
    i ∈ events.flatMap (eventHits children ops) ↔ Touched ops changed i := by
  have ordinal : ∀ front rest : List CodeUnit, newUnits ops = front ++ rest →
      children.ordinal front.length = (unitBlocks front).length := by
    intro front rest split
    rw [of.ordinal small, split, List.take_left]
  constructor
  · intro h
    obtain ⟨event, member, hit⟩ := List.mem_flatMap.1 h
    rw [eventHits] at hit
    cases path : event.path with
    | nil =>
      rw [path] at hit
      rcases mem_opHits.1 hit with ⟨before, after, first, rest, block, split, rfl⟩ |
        ⟨before, after, first, rest, block, split, rfl⟩
      · exact .added split
      · exact .removed split
    | cons segment more =>
      rw [path] at hit
      cases segment with
      | key name => simp at hit
      | index u =>
        simp only at hit
        split at hit
        · rename_i block
          rw [List.mem_singleton] at hit
          obtain ⟨-, b, here⟩ := (of.isBlock u).1 block
          obtain ⟨e, there, change⟩ := (reports.inside u).1 ⟨event, member, more, path⟩
          rw [Nat.sub_zero, there] at here
          obtain rfl : e = .xmlText b := CodeUnit.embed.inj (Option.some.inj here)
          obtain ⟨before, op, after, first, rest, rfl, cut, rfl⟩ := exists_of_getElem?_flatMap there
          rw [hit, ordinal (before.flatMap Op.new ++ first)
            (.embed (.xmlText b) :: rest ++ after.flatMap Op.new)
            (by simp [newUnits, cut])]
          -- The child is one that was kept, or a new one.
          cases op with
          | kept us =>
            obtain rfl : us = first ++ _ := cut
            exact .changed rfl change
          | added us =>
            obtain rfl : us = first ++ _ := cut
            exact .added rfl
          | removed us => simp [Op.new] at cut
        · simp at hit
  · -- An edit that added or removed anything has an event of the root.
    have rooted : (∃ op ∈ ops, ∀ us, op ≠ .kept us) → i ∈ opHits [] [] ops →
        i ∈ events.flatMap (eventHits children ops) := by
      rintro ⟨op, member, other⟩ hit
      rcases reports.rootSome with all | ⟨event, here, path⟩
      · obtain ⟨us, kept⟩ := all op member
        exact absurd kept (other us)
      · refine List.mem_flatMap.2 ⟨event, here, ?_⟩
        rw [eventHits, path]
        exact hit
    rintro (⟨split⟩ | ⟨split⟩ | ⟨split, change⟩)
    · exact rooted ⟨.added _, split ▸ List.mem_append_right _ List.mem_cons_self, fun _ => nofun⟩
        (mem_opHits.2 (.inl ⟨_, _, _, _, _, split, rfl⟩))
    · exact rooted ⟨.removed _, split ▸ List.mem_append_right _ List.mem_cons_self,
        fun _ => nofun⟩ (mem_opHits.2 (.inr ⟨_, _, _, _, _, split, rfl⟩))
    · rename_i before after first rest block
      have cut : newUnits ops = newUnits before ++ first ++
          (.embed (.xmlText block) :: rest ++ newUnits after) := by
        rw [split]
        simp [newUnits, Op.new]
      have here : (newUnits ops)[(newUnits before ++ first).length]? =
          some (.embed (.xmlText block)) := by
        rw [cut, List.getElem?_append_right (Nat.le_refl _), Nat.sub_self]
        rfl
      obtain ⟨event, member, more, path⟩ := (reports.inside _).2 ⟨_, here, change⟩
      have isBlock : children.isBlock (newUnits before ++ first).length :=
        (of.isBlock _).2 ⟨Nat.zero_le _, block, here⟩
      refine List.mem_flatMap.2 ⟨event, member, ?_⟩
      rw [eventHits, path]
      simp only [isBlock, if_true, List.mem_singleton]
      exact (ordinal _ _ cut).symm

/-! ## Sorting -/

lemma mem_destutter' {a i : ℕ} {l : List ℕ} :
    i ∈ l.destutter' (· ≠ ·) a ↔ i ∈ a :: l := by
  induction l generalizing a with
  | nil => simp
  | cons b l ih =>
    by_cases same : a = b
    · subst same
      rw [List.destutter'_cons_neg _ (not_not.2 rfl), ih]
      simp
    · rw [List.destutter'_cons_pos _ same, List.mem_cons, ih, List.mem_cons (b := a)]

lemma mem_sortDedup {hits : List ℕ} {i : ℕ} : i ∈ sortDedup hits ↔ i ∈ hits := by
  have sorted : i ∈ hits.mergeSort (· ≤ ·) ↔ i ∈ hits := List.mem_mergeSort
  rw [sortDedup, ← sorted]
  cases hits.mergeSort (· ≤ ·) with
  | nil => rfl
  | cons a l => exact mem_destutter'

/-- Ascending, and no two neighbours alike. -/
lemma pairwise_lt {l : List ℕ} (rising : l.Pairwise (· ≤ ·)) (apart : l.IsChain (· ≠ ·)) :
    l.Pairwise (· < ·) := by
  rw [← List.isChain_iff_pairwise]
  induction l with
  | nil => exact .nil
  | cons a l ih =>
    cases l with
    | nil => exact .singleton a
    | cons b l =>
      rw [List.pairwise_cons] at rising
      rw [List.isChain_cons_cons] at apart ⊢
      exact ⟨lt_of_le_of_ne (rising.1 b List.mem_cons_self) apart.1, ih rising.2 apart.2⟩

lemma sortDedup_pairwise (hits : List ℕ) : (sortDedup hits).Pairwise (· < ·) := by
  have sorted : (hits.mergeSort (· ≤ ·)).Pairwise (· ≤ ·) := List.pairwise_mergeSort' _ hits
  exact pairwise_lt (sorted.sublist (List.destutter_sublist _ _)) (List.isChain_destutter _ _)

/-! ## Exactness -/

/-- **The report is exact.**  What is reported is ascending and names each touched block once; the
commits of other origins report nothing. -/
theorem applyUpdateChanges_exact (ours : String) (before : Sequence) (own : Commit)
    (earlier later : List Commit) (ops : List Op) (changed : Embed → Prop)
    (hbefore : NoStrings before.stored) (hroot : NoStrings own.root.stored)
    (mine : own.origin = some ours) (foreign : ∀ c ∈ earlier ++ later, c.origin ≠ some ours)
    (old : oldUnits ops = before.units) (new : newUnits ops = own.root.units)
    (reports : Reports own.events ops changed) :
    (∃ out, applyUpdateChanges ours before (earlier ++ own :: later) (.ok ()) = some (.ok out) ∧
      out.Pairwise (· < ·) ∧ ∀ i, i ∈ out ↔ Touched ops changed i) ∧
    applyUpdateChanges ours before (earlier ++ later) (.ok ()) = some (.ok []) := by
  obtain ⟨children, hchildren, ofOld⟩ := Children.of_eq hbefore
  obtain ⟨after, hafter, ofNew⟩ := Children.of_eq hroot
  have smallOld : before.units.length < 2 ^ 32 := (length_encode _ _).trans_lt before.fits
  have smallNew : own.root.units.length < 2 ^ 32 := (length_encode _ _).trans_lt own.root.fits
  have others : ∀ commits : List Commit, (∀ c ∈ commits, c.origin ≠ some ours) → ∀ hits,
      commits.foldlM (observe ours children) hits = some hits := by
    intro commits all hits
    have none := foldlM_append (f := observe ours children) (g := fun _ => [])
      (fun c hc hits => by rw [observe, if_pos (all c hc), List.append_nil]) hits
    rwa [List.flatMap_eq_nil_iff.2 fun _ _ => rfl, List.append_nil] at none
  have one : ∀ hits, observe ours children hits own =
      some (hits ++ own.events.flatMap (eventHits after ops)) := by
    intro hits
    rw [observe, if_neg (not_not.2 mine), hafter]
    simp only [Option.bind_eq_bind, Option.bind_some]
    refine foldlM_append (fun event member hits => ?_) hits
    rw [observeEvent, eventHits]
    cases path : event.path with
    | nil =>
      exact rootPositions_eq ofOld ofNew smallOld smallNew old new
        (reports.root event member path) hits
    | cons segment more =>
      cases segment with
      | key name => simp
      | index u =>
        simp only
        split <;> simp
  constructor
  · refine ⟨sortDedup (own.events.flatMap (eventHits after ops)), ?_, sortDedup_pairwise _, ?_⟩
    · rw [applyUpdateChanges, hchildren]
      simp only [Option.bind_eq_bind, Option.bind_some]
      rw [List.foldlM_append, others _ fun c hc => foreign c (List.mem_append_left _ hc)]
      simp only [Option.bind_eq_bind, Option.bind_some]
      rw [List.foldlM_cons, one]
      simp only [Option.bind_eq_bind, Option.bind_some]
      rw [others _ fun c hc => foreign c (List.mem_append_right _ hc)]
      rfl
    · intro i
      rw [mem_sortDedup]
      exact mem_eventHits (new ▸ ofNew) (new ▸ smallNew) reports
  · rw [applyUpdateChanges, hchildren]
    simp only [Option.bind_eq_bind, Option.bind_some]
    rw [others _ foreign]
    simp [Except.map, sortDedup]

/-- Two blocks. -/
def twoBlocks : Sequence where
  stored := [.embed (.xmlText 1), .embed (.xmlText 2)]
  fits := by decide
  readFits := by decide

/-- The first block is deleted, the second one changed and a third one added. -/
def replaced : Commit where
  origin := some "remote:0"
  events := [⟨[.index 0], .other⟩, ⟨[], .xmlText [.deleted 1, .retain 1, .inserted (.xmlText 3)]⟩]
  root :=
    { stored := [.embed (.xmlText 2), .embed (.xmlText 3)]
      fits := by decide
      readFits := by decide }

def replacedOps : List Op :=
  [.removed [.embed (.xmlText 1)], .kept [.embed (.xmlText 2)], .added [.embed (.xmlText 3)],
    .kept []]

theorem applyUpdateChanges_exact_replaced :
    (∃ out, applyUpdateChanges "remote:0" twoBlocks ([] ++ replaced :: []) (.ok ()) =
        some (.ok out) ∧
      out.Pairwise (· < ·) ∧ ∀ i, i ∈ out ↔ Touched replacedOps (· = .xmlText 2) i) ∧
    applyUpdateChanges "remote:0" twoBlocks ([] ++ []) (.ok ()) = some (.ok []) := by
  refine applyUpdateChanges_exact "remote:0" twoBlocks replaced [] [] replacedOps (· = .xmlText 2)
    (by simp [NoStrings, twoBlocks]) (by simp [NoStrings, replaced]) rfl (by simp) rfl rfl ?_
  constructor
  · intro event member path
    obtain rfl | rfl : event = _ ∨ event = _ := by simpa [replaced] using member
    · simp at path
    · refine ⟨[.removed [.embed (.xmlText 1)], .kept [.embed (.xmlText 2)],
        .added [.embed (.xmlText 3)]], [], rfl, ?_⟩
      exact .cons rfl (.cons rfl (.cons rfl .nil))
  · exact .inr ⟨_, List.mem_cons_of_mem _ List.mem_cons_self, rfl⟩
  · intro i
    have root : newUnits replacedOps = [.embed (.xmlText 2), .embed (.xmlText 3)] := rfl
    rw [root]
    rcases i with - | - | i <;> simp [replaced]

end Yrby.Sequence
