import Yrby.Writer.Ordinals
import Yrby.Writer.SharedValues

/-!
# `Y::Array` handles

The calls on one handle of a shared array, and the Ruby Array they amount to: it holds what
`asRead` makes of the values, an insertion takes any index, clamped to the range of
`Array#insert`, and a call at an index outside either reads `nil` or raises.
-/

namespace Yrby.SharedArray

open SharedValues Offsets
open Sequence (IsI64 insertIndex elementIndex insertPlace startPlace stringInsert clampIndex)

/-! ## The handle -/

/-- An index, which is an `i64`. -/
abbrev Index := {n : ℤ // IsI64 n}

/-- What the handle resolves to: nothing once the array is deleted. -/
abbrev Live := Option (List Cell)

inductive ArrayError
  | convert (e : ConvertError)
  /-- `"array no longer exists"` -/
  | gone
  /-- `"index out of range"` -/
  | outOfRange
  /-- An overflow of the arithmetic on indexes. -/
  | overflow

/-- What a call returns: the array itself, the handle of a new text, or a Ruby value. -/
inductive Answer
  | self
  | text
  | value (v : Obj)

/-- A call that writes. -/
inductive Call
  | push (value : Obj)
  | insert (index : Index) (value : Obj)
  | insertText (index : Index) (content : String)
  | set (index : Index) (value : Obj)
  | deleteAt (index : Index)
  | clear

/-- `Array::insert` of yrs. -/
def yrsInsert (cells : List Cell) (place : ℕ) (cell : Cell) : List Cell :=
  splice cells place place [cell]

/-- `Array::remove` of yrs. -/
def yrsRemove (cells : List Cell) (place : ℕ) : List Cell := splice cells place (place + 1) []

section

variable (toS : Obj → String)

/-- The transaction of `insert_at` and `insert_text`. -/
def insertCell (a : Live) (index : Index) (cell : Cell) (answer : Answer) :
    Live × Except ArrayError Answer :=
  match a with
  | none => (none, .error .gone)
  | some cells =>
    match insertIndex index cells.length with
    | none => (a, .error .overflow)
    | some place => (some (yrsInsert cells place cell), .ok answer)

/-- `RbArray::insert` -/
def insert (a : Live) (index : Index) (value : Obj) : Live × Except ArrayError Answer :=
  match rubyToInvalue toS value with
  | .error e => (a, .error (.convert e))
  | .ok iv => insertCell a index (toIn iv) .self

/-- `RbArray::push` -/
def push (a : Live) (value : Obj) : Live × Except ArrayError Answer :=
  insert toS a ⟨-1, by decide⟩ value

/-- `RbArray::insert_text` -/
def insertText (a : Live) (index : Index) (content : String) : Live × Except ArrayError Answer :=
  insertCell a index (.text content) .text

/-- `RbArray::set` -/
def set (a : Live) (index : Index) (value : Obj) : Live × Except ArrayError Answer :=
  match rubyToInvalue toS value with
  | .error e => (a, .error (.convert e))
  | .ok iv =>
    match a with
    | none => (none, .error .gone)
    | some cells =>
      match elementIndex index cells.length with
      | none => (a, .error .overflow)
      | some none => (a, .error .outOfRange)
      | some (some i) => (some (yrsInsert (yrsRemove cells i) i (toIn iv)), .ok (.value value))

/-- `RbArray::delete_at` -/
def deleteAt (a : Live) (index : Index) : Live × Except ArrayError Answer :=
  match a with
  | none => (none, .ok (.value .nil))
  | some cells =>
    match elementIndex index cells.length with
    | none => (a, .error .overflow)
    | some none => (a, .ok (.value .nil))
    | some (some i) =>
      (some (yrsRemove cells i), .ok (.value ((cells[i]?.map readCell).getD .nil)))

/-- `RbArray::clear` -/
def clear (a : Live) : Live × Except ArrayError Answer :=
  (a.map fun cells => splice cells 0 cells.length [], .ok (.value .nil))

def call (a : Live) : Call → Live × Except ArrayError Answer
  | .push value => push toS a value
  | .insert index value => insert toS a index value
  | .insertText index content => insertText a index content
  | .set index value => set toS a index value
  | .deleteAt index => deleteAt a index
  | .clear => clear a

/-- The calls in their order, with what each returns. -/
def run : Live → List Call → Live × List (Except ArrayError Answer)
  | a, [] => (a, [])
  | a, c :: calls =>
    let after := call toS a c
    let rest := run after.1 calls
    (rest.1, after.2 :: rest.2)

end

/-- `RbArray::get`, or an overflow. -/
def get (a : Live) (index : Index) : Option Obj :=
  match a with
  | none => some .nil
  | some cells =>
    (elementIndex index cells.length).map fun i =>
      ((i.bind fun i => cells[i]?).map readCell).getD .nil

/-- `RbArray::size` -/
def size (a : Live) : ℕ := (a.map List.length).getD 0

/-- `RbArray::to_a` -/
def toA (a : Live) : List Obj := (a.map fun cells => cells.map readCell).getD []

/-! ## The Array it amounts to -/

/-- The element that an index names: a negative one counts from the end. -/
def elementAt (xs : List Obj) (index : ℤ) : Option ℕ :=
  if 0 ≤ startPlace index xs.length ∧ startPlace index xs.length < xs.length then
    some (startPlace index xs.length).toNat
  else none

/-- `Array#insert` at the index, clamped. -/
def insertClamped (xs : List Obj) (index : ℤ) (v : Obj) : List Obj :=
  (stringInsert xs (clampIndex index xs.length) [v]).getD xs

section

variable (toS : Obj → String)

/-- A call on the Array, with the answer unless the call raises. -/
def RubyArray.call (xs : List Obj) : Call → List Obj × Option Answer
  | .push value =>
    if Writable 0 value then (xs ++ [asRead toS value], some .self) else (xs, none)
  | .insert index value =>
    if Writable 0 value then (insertClamped xs index (asRead toS value), some .self)
    else (xs, none)
  | .insertText index content => (insertClamped xs index (.string content), some .text)
  | .set index value =>
    if Writable 0 value then
      match elementAt xs index with
      | some i => (xs.set i (asRead toS value), some (.value value))
      | none => (xs, none)
    else (xs, none)
  | .deleteAt index =>
    match elementAt xs index with
    | some i => (xs.eraseIdx i, some (.value (xs[i]?.getD .nil)))
    | none => (xs, some (.value .nil))
  | .clear => ([], some (.value .nil))

def RubyArray.run : List Obj → List Call → List Obj × List (Option Answer)
  | xs, [] => (xs, [])
  | xs, c :: calls =>
    let after := RubyArray.call toS xs c
    let rest := RubyArray.run after.1 calls
    (rest.1, after.2 :: rest.2)

end

/-! ## Places -/

lemma map_splice {α β : Type} (f : α → β) (xs : List α) (i j : ℕ) (ys : List α) :
    (splice xs i j ys).map f = splice (xs.map f) i j (ys.map f) := by
  simp only [splice, List.map_append, List.map_take, List.map_drop]

lemma length_yrsInsert {cells : List Cell} {place : ℕ} {cell : Cell}
    (h : place ≤ cells.length) : (yrsInsert cells place cell).length = cells.length + 1 := by
  simp only [yrsInsert, splice, List.length_append, List.length_take, List.length_drop,
    List.length_singleton]
  omega

lemma yrsRemove_eq (cells : List Cell) (place : ℕ) :
    yrsRemove cells place = cells.eraseIdx place := by
  rw [yrsRemove, splice, List.append_nil, List.eraseIdx_eq_take_drop_succ]

/-- Removing an element and inserting another in its place sets it. -/
lemma yrsInsert_yrsRemove {cells : List Cell} {place : ℕ} {cell : Cell}
    (h : place < cells.length) :
    yrsInsert (yrsRemove cells place) place cell = cells.set place cell := by
  have front : (cells.take place).length = place := List.length_take_of_le h.le
  rw [List.set_eq_take_append_cons_drop, if_pos h, yrsRemove, splice, List.append_nil, yrsInsert,
    splice, List.take_left' front, List.drop_left' front, List.append_assoc, List.singleton_append]

/-- At -1 it appends. -/
lemma insertClamped_neg_one (xs : List Obj) (v : Obj) : insertClamped xs (-1) v = xs ++ [v] := by
  have place : insertPlace (-1) xs.length = xs.length := by
    simp only [insertPlace, Sequence.clamp]
    omega
  rw [insertClamped, Sequence.stringInsert_clampIndex, Option.getD_some, place, splice,
    List.take_length, List.drop_length, List.append_nil]

lemma elementIndex_eq_elementAt {cells : List Cell} (index : Index)
    (small : cells.length < 2 ^ 32) :
    elementIndex index cells.length = some (elementAt (cells.map readCell) index) := by
  rw [Sequence.elementIndex_eq index.2 small, elementAt, List.length_map]

lemma lt_of_elementAt {xs : List Obj} {index : ℤ} {i : ℕ} (h : elementAt xs index = some i) :
    i < xs.length := by
  unfold elementAt at h
  split at h
  · rename_i inside
    rw [← Option.some.inj h]
    omega
  · cases h

/-! ## The refinement -/

section

variable (toS : Obj → String)

/-- The handle's array `a` reads as `xs` and leaves room for `n` elements. -/
def Shows (a : Live) (xs : List Obj) (n : ℕ) : Prop :=
  ∃ cells, a = some cells ∧ cells.map readCell = xs ∧ cells.length + n < 2 ^ 32

lemma shows_insertCell {cells : List Cell} {n : ℕ} (small : cells.length + (n + 1) < 2 ^ 32)
    (index : Index) (cell : Cell) (answer : Answer) :
    Shows (insertCell (some cells) index cell answer).1
        (insertClamped (cells.map readCell) index (readCell cell)) n ∧
      (insertCell (some cells) index cell answer).2 = .ok answer := by
  have place : insertIndex index cells.length = some (insertPlace index cells.length) :=
    Sequence.insertIndex_eq index.2 (by omega)
  rw [insertCell, place]
  refine ⟨⟨_, rfl, ?_, ?_⟩, rfl⟩
  · rw [insertClamped, Sequence.stringInsert_clampIndex, Option.getD_some, List.length_map,
      yrsInsert, map_splice]
    rfl
  · rw [length_yrsInsert (Sequence.insertPlace_le _ _)]
    omega

lemma shows_insert {cells : List Cell} {n : ℕ} (small : cells.length + (n + 1) < 2 ^ 32)
    (index : Index) (value : Obj) :
    Shows (insert toS (some cells) index value).1
        (RubyArray.call toS (cells.map readCell) (.insert index value)).1 n ∧
      (insert toS (some cells) index value).2.toOption =
        (RubyArray.call toS (cells.map readCell) (.insert index value)).2 := by
  obtain ⟨iv, made, fine, reads⟩ | ⟨⟨e, failed⟩, barred⟩ := reads_rubyToInvalue toS value
  · obtain ⟨shown, answer⟩ := shows_insertCell small index (toIn iv) .self
    rw [show readCell (toIn iv) = asRead toS value from reads] at shown
    simp only [insert, made, RubyArray.call, if_pos fine, answer]
    exact ⟨shown, rfl⟩
  · simp only [insert, failed, RubyArray.call, if_neg barred]
    exact ⟨⟨cells, rfl, rfl, by omega⟩, rfl⟩

lemma shows_set {cells : List Cell} {n : ℕ} (small : cells.length + (n + 1) < 2 ^ 32)
    (index : Index) (value : Obj) :
    Shows (set toS (some cells) index value).1
        (RubyArray.call toS (cells.map readCell) (.set index value)).1 n ∧
      (set toS (some cells) index value).2.toOption =
        (RubyArray.call toS (cells.map readCell) (.set index value)).2 := by
  have place := elementIndex_eq_elementAt index (show cells.length < 2 ^ 32 by omega)
  have kept : Shows (some cells) (cells.map readCell) n := ⟨cells, rfl, rfl, by omega⟩
  obtain ⟨iv, made, fine, reads⟩ | ⟨⟨e, failed⟩, barred⟩ := reads_rubyToInvalue toS value
  · simp only [set, made, place, RubyArray.call, if_pos fine]
    cases found : elementAt (cells.map readCell) index with
    | none => exact ⟨kept, rfl⟩
    | some i =>
      have inside : i < cells.length := by
        have lt := lt_of_elementAt found
        rwa [List.length_map] at lt
      have read : readCell (toIn iv) = asRead toS value := reads
      refine ⟨⟨_, rfl, ?_, ?_⟩, rfl⟩
      · show _ = (cells.map readCell).set i (asRead toS value)
        rw [yrsInsert_yrsRemove inside, List.map_set, read]
      · rw [yrsInsert_yrsRemove inside, List.length_set]
        omega
  · simp only [set, failed, RubyArray.call, if_neg barred]
    exact ⟨kept, rfl⟩

lemma shows_deleteAt {cells : List Cell} {n : ℕ} (small : cells.length + (n + 1) < 2 ^ 32)
    (index : Index) :
    Shows (deleteAt (some cells) index).1
        (RubyArray.call toS (cells.map readCell) (.deleteAt index)).1 n ∧
      (deleteAt (some cells) index).2.toOption =
        (RubyArray.call toS (cells.map readCell) (.deleteAt index)).2 := by
  have place := elementIndex_eq_elementAt index (show cells.length < 2 ^ 32 by omega)
  simp only [deleteAt, place, RubyArray.call]
  cases found : elementAt (cells.map readCell) index with
  | none => exact ⟨⟨cells, rfl, rfl, by omega⟩, rfl⟩
  | some i =>
    refine ⟨⟨_, rfl, ?_, ?_⟩, by simp [Except.toOption]⟩
    · show _ = (cells.map readCell).eraseIdx i
      rw [yrsRemove_eq, List.eraseIdx_map]
    · have fewer := List.length_eraseIdx_le cells i
      rw [yrsRemove_eq]
      omega

lemma shows_call {a : Live} {xs : List Obj} {n : ℕ} (shows : Shows a xs (n + 1)) (c : Call) :
    Shows (call toS a c).1 (RubyArray.call toS xs c).1 n ∧
      (call toS a c).2.toOption = (RubyArray.call toS xs c).2 := by
  obtain ⟨cells, rfl, rfl, small⟩ := shows
  cases c with
  | push value =>
    have appended : RubyArray.call toS (cells.map readCell) (.push value) =
        RubyArray.call toS (cells.map readCell) (.insert ⟨-1, by decide⟩ value) := by
      rw [RubyArray.call, RubyArray.call, insertClamped_neg_one]
    rw [appended]
    exact shows_insert toS small ⟨-1, by decide⟩ value
  | insert index value => exact shows_insert toS small index value
  | insertText index content =>
    obtain ⟨shown, answer⟩ := shows_insertCell small index (.text content) .text
    have reads : readCell (.text content) = .string content := by
      rw [readCell, outToAny, anyToRuby]
    rw [reads] at shown
    simp only [call, insertText, RubyArray.call, answer]
    exact ⟨shown, rfl⟩
  | set index value => exact shows_set toS small index value
  | deleteAt index => exact shows_deleteAt toS small index
  | clear =>
    refine ⟨⟨_, rfl, ?_, ?_⟩, rfl⟩
    · simp [splice, RubyArray.call]
    · simp only [splice, List.drop_length, List.take_zero, List.append_nil, List.length_nil]
      omega

lemma shows_run {a : Live} {xs : List Obj} {calls : List Call}
    (shows : Shows a xs calls.length) :
    Shows (run toS a calls).1 (RubyArray.run toS xs calls).1 0 ∧
      (run toS a calls).2.map Except.toOption = (RubyArray.run toS xs calls).2 := by
  induction calls generalizing a xs with
  | nil => exact ⟨shows, rfl⟩
  | cons c calls ih =>
    obtain ⟨after, answer⟩ := shows_call toS shows c
    obtain ⟨rest, answers⟩ := ih after
    refine ⟨rest, ?_⟩
    rw [run, RubyArray.run, List.map_cons, answer, answers]

lemma get_of_shows {a : Live} {xs : List Obj} {n : ℕ} (shows : Shows a xs n) (index : Index) :
    get a index = some (((elementAt xs index).bind fun i => xs[i]?).getD .nil) := by
  obtain ⟨cells, rfl, rfl, small⟩ := shows
  rw [get, elementIndex_eq_elementAt index (by omega), Option.map_some]
  cases elementAt (cells.map readCell) index with
  | none => rfl
  | some i => simp

/-- **Runs of calls on one handle.**  While the elements fit a `u32`, the calls answer as they do
on an Array of what the shared one shows, and raise exactly where a value cannot be written or
`[]=` names no element.  Reading the shared array then reads that Array. -/
theorem runs_as_array (cells : List Cell) (calls : List Call)
    (room : cells.length + calls.length < 2 ^ 32) :
    let a := (run toS (some cells) calls).1
    let xs := (RubyArray.run toS (cells.map readCell) calls).1
    (run toS (some cells) calls).2.map Except.toOption =
        (RubyArray.run toS (cells.map readCell) calls).2 ∧
      toA a = xs ∧ size a = xs.length ∧
      ∀ index, get a index = some (((elementAt xs index).bind fun i => xs[i]?).getD .nil) := by
  intro a xs
  obtain ⟨shows, answers⟩ := shows_run toS ⟨cells, rfl, rfl, room⟩
  refine ⟨answers, ?_, ?_, get_of_shows shows⟩
  · obtain ⟨after, ha, hxs, -⟩ := shows
    show toA (run toS (some cells) calls).1 = _
    rw [ha]
    exact hxs
  · obtain ⟨after, ha, hxs, -⟩ := shows
    show size (run toS (some cells) calls).1 = List.length (RubyArray.run toS _ calls).1
    rw [ha, ← hxs, List.length_map]
    rfl

/-- A value pushed onto an empty array and then set. -/
theorem runs_as_array_set :
    let toS := fun _ => ""
    let calls : List Call := [.push (.string "draft"), .set ⟨0, by decide⟩ (.other "ready")]
    let a := (run toS (some []) calls).1
    let xs := (RubyArray.run toS [] calls).1
    (run toS (some []) calls).2.map Except.toOption = (RubyArray.run toS [] calls).2 ∧
      toA a = xs ∧ size a = xs.length ∧
      ∀ index, get a index = some (((elementAt xs index).bind fun i => xs[i]?).getD .nil) :=
  runs_as_array (fun _ => "") [] _ (by decide)

/-- A negative index counts from the end, and every index is clamped. -/
example :
    toA (run (fun _ => "") (some [.any (.int 1), .any (.int 3)])
      [.insert ⟨1, by decide⟩ (.integer 2), .insert ⟨-1, by decide⟩ (.integer 4),
        .insert ⟨99, by decide⟩ (.integer 5), .insert ⟨-99, by decide⟩ (.integer 0)]).1 =
      [.integer 0, .integer 1, .integer 2, .integer 3, .integer 4, .integer 5] := rfl

/-- **A deleted array.**  No call brings it back, and it reads as empty. -/
lemma run_gone (calls : List Call) :
    (run toS none calls).1 = none ∧ toA none = [] ∧ ∀ index, get none index = some .nil := by
  refine ⟨?_, rfl, fun _ => rfl⟩
  induction calls with
  | nil => rfl
  | cons c calls ih =>
    have unwritten : ∀ index value, (insert toS none index value).1 = none := by
      intro index value
      rw [insert]
      cases rubyToInvalue toS value <;> rfl
    have still : (call toS none c).1 = none := by
      cases c with
      | push value => exact unwritten _ value
      | insert index value => exact unwritten index value
      | insertText index content => rfl
      | set index value =>
        rw [call, set]
        cases rubyToInvalue toS value <;> rfl
      | deleteAt index => rfl
      | clear => rfl
    rw [run, still]
    exact ih

end

end Yrby.SharedArray
