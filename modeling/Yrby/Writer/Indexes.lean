import Yrby.Framework.Offsets
import Yrby.Render.HtmlCore

/-!
# Character indexes (`shared.rs`, `text.rs`, `xml_text.rs`)

Ruby counts characters, an embed being one; yrs counts UTF-16 units, an embed being one.  `to_units`
and `to_chars` cross over by walking what yrs's `diff` lists: strings, and embeds by their value.

An embed whose value is a plain string is listed as that string, so the walk takes it for text.
Where that makes no difference to the widths (`ReadsAlike`), an edit at a character index is the
edit that Ruby's `String` makes (`actsAsString_iff`).

Machine integers are checked: `none` is an overflow, or a call of yrs outside the text.
-/

namespace Yrby

namespace Sequence

open HtmlCore Offsets

/-! ## What yrs stores -/

/-- An embed: a plain value, a nested `XmlText`, or another shared type (a marker, a decorator). -/
inductive Embed
  | plain (v : Value)
  | xmlText (block : ℕ)
  | shared (id : ℕ)

/-- A stored string or embed. -/
inductive Stored
  | string (s : String)
  | embed (e : Embed)

/-- One character of a sequence. -/
inductive Elem
  | char (c : Char)
  | embed (e : Embed)

/-- One UTF-16 unit of a sequence. -/
inductive CodeUnit
  | code (n : ℕ)
  | embed (e : Embed)

/-- `char::encode_utf16` -/
def utf16 (c : Char) : List ℕ :=
  if c.toNat < 0x10000 then [c.toNat]
  else [0xD800 + (c.toNat - 0x10000) / 0x400, 0xDC00 + (c.toNat - 0x10000) % 0x400]

/-- `char::len_utf16` -/
def lenUtf16 (c : Char) : ℕ := if c.toNat < 0x10000 then 1 else 2

def Elem.units : Elem → List CodeUnit
  | .char c => (utf16 c).map .code
  | .embed e => [.embed e]

def Stored.elems : Stored → List Elem
  | .string s => s.toList.map .char
  | .embed e => [.embed e]

/-- The characters of a sequence, an embed being one. -/
def elems (stored : List Stored) : List Elem := stored.flatMap Stored.elems

/-- The units of characters. -/
def encode (xs : List Elem) : List CodeUnit := xs.flatMap Elem.units

/-- The units of each character. -/
abbrev elemWidths (xs : List Elem) : List ℕ := widths Elem.units xs

/-- What `diff` lists: `d.insert`. -/
inductive Inserted
  | any (v : Value)
  | xmlText (block : ℕ)
  | shared (id : ℕ)

def Stored.inserted : Stored → Inserted
  | .string s => .any (.string s)
  | .embed (.plain v) => .any v
  | .embed (.xmlText block) => .xmlText block
  | .embed (.shared id) => .shared id

/-- `Out::Any(Any::String(s))` -/
def Inserted.string? : Inserted → Option String
  | .any (.string s) => some s
  | _ => none

/-- The widths of the characters that a listed piece is read as. -/
def Inserted.widths (piece : Inserted) : List ℕ :=
  match piece.string? with
  | some s => s.toList.map lenUtf16
  | none => [1]

/-- The widths of the characters that a sequence is read as. -/
def readWidths (stored : List Stored) : List ℕ := stored.flatMap fun s => s.inserted.widths

end Sequence

open Sequence Offsets HtmlCore

/-- The content of a text.  yrs's lengths are `u32`. -/
structure Sequence where
  stored : List Stored
  fits : (elemWidths (elems stored)).sum < 2 ^ 32
  readFits : (readWidths stored).sum < 2 ^ 32

namespace Sequence

def elements (s : Sequence) : List Elem := elems s.stored

/-- What yrs edits. -/
def units (s : Sequence) : List CodeUnit := encode s.elements

/-- `pieces` -/
def pieces (s : Sequence) : List Inserted := s.stored.map Stored.inserted

/-- `Text::len` -/
def len (s : Sequence) : ℕ := s.units.length

/-! ## Machine integers -/

def IsI64 (n : ℤ) : Prop := -2 ^ 63 ≤ n ∧ n < 2 ^ 63

instance (n : ℤ) : Decidable (IsI64 n) := inferInstanceAs (Decidable (_ ∧ _))

/-- An `i64`, or an overflow. -/
def i64 (n : ℤ) : Option ℤ := if IsI64 n then some n else none

/-- A `u32`, or an overflow. -/
def u32 (n : ℕ) : Option ℕ := if n < 2 ^ 32 then some n else none

/-- A subtraction of `u32`s. -/
def sub32 (a b : ℕ) : Option ℕ := if b ≤ a then some (a - b) else none

/-- `i as u32` -/
def asU32 (i : ℤ) : ℕ := (i % 2 ^ 32).toNat

/-- `Ord::clamp` -/
def clamp (i lo hi : ℤ) : ℤ := max lo (min i hi)

/-! ## Indexes -/

/-- `insert_index` -/
def insertIndex (index : ℤ) (len : ℕ) : Option ℕ :=
  (if index < 0 then (i64 (len + index)).bind fun i => i64 (i + 1) else some index).map fun i =>
    asU32 (clamp i 0 len)

/-- `element_index` -/
def elementIndex (index : ℤ) (len : ℕ) : Option (Option ℕ) :=
  (if index < 0 then i64 (len + index) else some index).map fun i : ℤ =>
    if 0 ≤ i ∧ i < len then some (asU32 i) else none

/-- `delete_span` -/
def deleteSpan (index length : ℤ) (len : ℕ) : Option (Option (ℕ × ℕ)) :=
  (if index < 0 then i64 (len + index) else some index).bind fun start =>
    if start < 0 ∨ len < start then some none
    else do
      let rest ← i64 (len - start)
      let stop ← i64 (start + clamp length 0 rest)
      some (some (asU32 start, asU32 stop))

/-- What a piece adds to `char_len`: `count() as u32`, or one. -/
def Inserted.chars (piece : Inserted) : ℕ :=
  match piece.string? with
  | some s => s.toList.length % 2 ^ 32
  | none => 1

/-- `char_len` -/
def charLen (pieces : List Inserted) : Option ℕ :=
  pieces.foldlM (fun n piece => u32 (n + piece.chars)) 0

/-- The inner loop of `to_units`. -/
def unitsOfChars : ℕ → ℕ → List Char → Option (ℕ × ℕ)
  | left, units, [] => some (left, units)
  | left, units, c :: cs =>
    if left = 0 then some (left, units)
    else do
      let units ← u32 (units + lenUtf16 c)
      let left ← sub32 left 1
      unitsOfChars left units cs

/-- The loop of `to_units`. -/
def unitsOfPieces : ℕ → ℕ → List Inserted → Option ℕ
  | _, units, [] => some units
  | left, units, piece :: pieces =>
    if left = 0 then some units
    else
      match piece.string? with
      | some s => do
        let (left, units) ← unitsOfChars left units s.toList
        unitsOfPieces left units pieces
      | none => do
        let units ← u32 (units + 1)
        let left ← sub32 left 1
        unitsOfPieces left units pieces

/-- `to_units` -/
def toUnits (s : Sequence) (chars : ℕ) : Option ℕ := unitsOfPieces chars 0 s.pieces

/-- The inner loop of `to_chars`. -/
def charsOfChars : ℕ → ℕ → List Char → Option (ℕ × ℕ)
  | left, chars, [] => some (left, chars)
  | left, chars, c :: cs =>
    if left = 0 then some (left, chars)
    else do
      -- `saturating_sub`
      let left := left - lenUtf16 c
      let chars ← u32 (chars + 1)
      charsOfChars left chars cs

/-- The loop of `to_chars`. -/
def charsOfPieces : ℕ → ℕ → List Inserted → Option ℕ
  | _, chars, [] => some chars
  | left, chars, piece :: pieces =>
    if left = 0 then some chars
    else
      match piece.string? with
      | some s => do
        let (left, chars) ← charsOfChars left chars s.toList
        charsOfPieces left chars pieces
      | none => do
        let left ← sub32 left 1
        let chars ← u32 (chars + 1)
        charsOfPieces left chars pieces

/-- `to_chars` -/
def toChars (s : Sequence) (units : ℕ) : Option ℕ := charsOfPieces units 0 s.pieces

/-- `to_units(insert_index(index, char_len))` -/
def indexToUnits (s : Sequence) (index : ℤ) : Option ℕ := do
  let n ← charLen s.pieces
  let k ← insertIndex index n
  s.toUnits k

/-- `end_or_units` -/
def endOrUnits (s : Sequence) (index : ℤ) : Option ℕ :=
  if index = -1 then some s.len else s.indexToUnits index

/-! ## Edits -/

/-- `Text::insert` and `Text::insert_embed` of yrs. -/
def yrsInsert (us : List CodeUnit) (place : ℕ) (added : List CodeUnit) : Option (List CodeUnit) :=
  if place ≤ us.length then some (splice us place place added) else none

/-- `Text::remove_range` of yrs. -/
def yrsRemove (us : List CodeUnit) (place n : ℕ) : Option (List CodeUnit) :=
  if place + n ≤ us.length then some (splice us place (place + n) []) else none

/-- `insert` of a text and of a block. -/
def insert (s : Sequence) (index : ℤ) (chunk : String) : Option (List CodeUnit) := do
  let place ← s.endOrUnits index
  yrsInsert s.units place (encode (chunk.toList.map .char))

/-- `insert_embed` -/
def insertEmbed (s : Sequence) (index : ℤ) (e : Embed) : Option (List CodeUnit) := do
  let place ← s.indexToUnits index
  yrsInsert s.units place (encode [.embed e])

/-- `delete` of a text and of a block. -/
def delete (s : Sequence) (index length : ℤ) : Option (List CodeUnit) := do
  let n ← charLen s.pieces
  match ← deleteSpan index length n with
  | none => some s.units
  | some (first, last) => do
    let first ← s.toUnits first
    let last ← s.toUnits last
    if first < last then do
      let n ← sub32 last first
      yrsRemove s.units first n
    else some s.units

/-! ## Ruby's strings -/

/-- `String#insert`.  A negative index names the character to insert behind; `none` is an
`IndexError`. -/
def stringInsert {α : Type} (xs : List α) (index : ℤ) (ys : List α) : Option (List α) :=
  let i := if index < 0 then xs.length + index + 1 else index
  if 0 ≤ i ∧ i ≤ xs.length then some (splice xs i.toNat i.toNat ys) else none

/-- An index clamped into the range of `String#insert`. -/
def clampIndex (index : ℤ) (n : ℕ) : ℤ := max (-(n + 1)) (min index n)

/-- What `String#slice!` leaves. -/
def stringSlice {α : Type} (xs : List α) (index length : ℤ) : List α :=
  let i := if index < 0 then xs.length + index else index
  if 0 ≤ i ∧ i ≤ xs.length ∧ 0 ≤ length then splice xs i.toNat (i + length).toNat [] else xs

/-- A place between two characters, in units. -/
def IsPlace (s : Sequence) (u : ℕ) : Prop := ∃ k, u = offset (elemWidths s.elements) k

/-- Edits at character indexes are those of Ruby's strings. -/
structure ActsAsString (s : Sequence) : Prop where
  length : charLen s.pieces = some s.elements.length
  insert : ∀ index, IsI64 index → ∀ chunk, ∃ r,
    stringInsert s.elements (clampIndex index s.elements.length) (chunk.toList.map .char) = some r ∧
      s.insert index chunk = some (encode r)
  insertEmbed : ∀ index, IsI64 index → ∀ e, ∃ r,
    stringInsert s.elements (clampIndex index s.elements.length) [.embed e] = some r ∧
      s.insertEmbed index e = some (encode r)
  delete : ∀ index length, IsI64 index → IsI64 length →
    s.delete index length = some (encode (stringSlice s.elements index length))
  /-- No offset that yrs is given lies inside a surrogate pair. -/
  whole : ∀ k, ∃ u, s.toUnits k = some u ∧ s.IsPlace u
  /-- The fast path writes where the general path would. -/
  append : s.endOrUnits (-1) = s.indexToUnits (-1)
  round : ∀ k, (s.toUnits k).bind s.toChars = some (min k s.elements.length)
  monotone : ∀ j k u v, j ≤ k → s.toUnits j = some u → s.toUnits k = some v → u ≤ v

/-- Every character is read in its own width: no embedded string is taken for text, unless that
makes no difference. -/
def ReadsAlike (s : Sequence) : Prop := readWidths s.stored = elemWidths s.elements

/-! ## What the functions compute -/

lemma i64_eq {n : ℤ} (h : IsI64 n) : i64 n = some n := if_pos h

lemma u32_eq {n : ℕ} (h : n < 2 ^ 32) : u32 n = some n := if_pos h

lemma sub32_eq {a b : ℕ} (h : b ≤ a) : sub32 a b = some (a - b) := if_pos h

lemma asU32_eq {i : ℤ} (lo : 0 ≤ i) (hi : i < 2 ^ 32) : asU32 i = i.toNat := by
  rw [asU32, Int.emod_eq_of_lt lo hi]

/-- The place that an insertion at an index goes to. -/
def insertPlace (index : ℤ) (n : ℕ) : ℕ :=
  (clamp (if index < 0 then n + index + 1 else index) 0 n).toNat

lemma insertPlace_le (index : ℤ) (n : ℕ) : insertPlace index n ≤ n := by
  simp only [insertPlace, clamp]
  omega

lemma insertIndex_eq {index : ℤ} {n : ℕ} (hindex : IsI64 index) (hn : n < 2 ^ 32) :
    insertIndex index n = some (insertPlace index n) := by
  obtain ⟨lo, hi⟩ := hindex
  have small : ∀ i : ℤ, asU32 (clamp i 0 n) = (clamp i 0 n).toNat := fun i =>
    asU32_eq (by simp only [clamp]; omega) (by simp only [clamp]; omega)
  unfold insertIndex insertPlace
  split
  · have sum : IsI64 (n + index) := ⟨by omega, by omega⟩
    have next : IsI64 (n + index + 1) := ⟨by omega, by omega⟩
    simp [i64_eq sum, i64_eq next, small]
  · simp [small]

lemma stringInsert_clampIndex {α : Type} (xs : List α) (index : ℤ) (ys : List α) :
    stringInsert xs (clampIndex index xs.length) ys =
      some (splice xs (insertPlace index xs.length) (insertPlace index xs.length) ys) := by
  have range : ∀ i : ℤ, i = (if clampIndex index xs.length < 0 then
      xs.length + clampIndex index xs.length + 1 else clampIndex index xs.length) →
      0 ≤ i ∧ i ≤ xs.length ∧ i.toNat = insertPlace index xs.length := by
    rintro i rfl
    simp only [clampIndex, insertPlace, clamp]
    omega
  obtain ⟨lo, hi, place⟩ := range _ rfl
  rw [stringInsert, if_pos ⟨lo, hi⟩, place]

/-- The start of a deletion. -/
def startPlace (index : ℤ) (n : ℕ) : ℤ := if index < 0 then n + index else index

lemma deleteSpan_eq {index length : ℤ} {n : ℕ} (hindex : IsI64 index) (hn : n < 2 ^ 32) :
    deleteSpan index length n = some (
      if 0 ≤ startPlace index n ∧ startPlace index n ≤ n then
        some ((startPlace index n).toNat,
          (startPlace index n + clamp length 0 (n - startPlace index n)).toNat)
      else none) := by
  obtain ⟨lo, hi⟩ := hindex
  have start : (if index < 0 then i64 (n + index) else some index) =
      some (startPlace index n) := by
    unfold startPlace
    split
    · exact i64_eq ⟨by omega, by omega⟩
    · rfl
  unfold deleteSpan
  rw [start]
  obtain ⟨i, hi⟩ : ∃ i, i = startPlace index n := ⟨_, rfl⟩
  simp only [← hi, Option.bind_eq_bind, Option.bind_some]
  by_cases inside : 0 ≤ i ∧ i ≤ n
  · have within : ¬(i < 0 ∨ ↑n < i) := by omega
    have rest : IsI64 (n - i) := ⟨by omega, by omega⟩
    have bounds : 0 ≤ clamp length 0 (n - i) ∧ clamp length 0 (n - i) ≤ n - i := by
      simp only [clamp]
      omega
    have stop : IsI64 (i + clamp length 0 (n - i)) := ⟨by omega, by omega⟩
    rw [if_neg within, if_pos inside, i64_eq rest, Option.bind_some, i64_eq stop, Option.bind_some,
      asU32_eq inside.1 (by omega), asU32_eq (by omega) (by omega)]
  · have outside : i < 0 ∨ ↑n < i := by omega
    rw [if_pos outside, if_neg inside]

lemma lenUtf16_pos (c : Char) : 0 < lenUtf16 c := by
  unfold lenUtf16
  split <;> decide

lemma Inserted.widths_pos (piece : Inserted) : ∀ w ∈ piece.widths, 0 < w := by
  intro w hw
  unfold Inserted.widths at hw
  cases text : piece.string? with
  | some s =>
    rw [text] at hw
    obtain ⟨c, -, rfl⟩ := List.mem_map.1 hw
    exact lenUtf16_pos c
  | none =>
    rw [text] at hw
    rw [List.mem_singleton.1 hw]
    exact Nat.one_pos

lemma readWidths_pos (stored : List Stored) : ∀ w ∈ readWidths stored, 0 < w := by
  intro w hw
  obtain ⟨piece, -, hpiece⟩ := List.mem_flatMap.1 hw
  exact piece.inserted.widths_pos w hpiece

lemma charLen_fold (pieces : List Inserted) (n : ℕ)
    (h : n + (pieces.flatMap Inserted.widths).sum < 2 ^ 32) :
    pieces.foldlM (fun n piece => u32 (n + piece.chars)) n =
      some (n + (pieces.flatMap Inserted.widths).length) := by
  induction pieces generalizing n with
  | nil => rfl
  | cons piece pieces ih =>
    rw [List.flatMap_cons, List.sum_append] at h
    have few := length_le_sum piece.widths_pos
    have chars : piece.chars = piece.widths.length := by
      unfold Inserted.widths at few h ⊢
      unfold Inserted.chars
      cases text : piece.string? with
      | some s =>
        simp only [text, List.length_map] at few h ⊢
        exact Nat.mod_eq_of_lt (by omega)
      | none => rfl
    rw [List.foldlM_cons, chars, u32_eq (by omega)]
    simp only [Option.bind_eq_bind, Option.bind_some]
    rw [ih _ (by omega), List.flatMap_cons, List.length_append, Nat.add_assoc]

lemma unitsOfChars_eq (cs : List Char) (left units : ℕ)
    (h : units + (cs.map lenUtf16).sum < 2 ^ 32) :
    unitsOfChars left units cs =
      some (left - cs.length, units + offset (cs.map lenUtf16) left) := by
  induction cs generalizing left units with
  | nil => simp [unitsOfChars]
  | cons c cs ih =>
    rw [List.map_cons, List.sum_cons] at h
    rw [unitsOfChars]
    cases left with
    | zero => simp
    | succ left =>
      rw [if_neg (Nat.succ_ne_zero left), u32_eq (by omega), sub32_eq (by omega)]
      simp only [Option.bind_eq_bind, Option.bind_some]
      rw [ih _ _ (by omega), List.map_cons, Nat.add_sub_cancel, offset_cons_succ, List.length_cons,
        Nat.add_sub_add_right, Nat.add_assoc]

lemma unitsOfPieces_eq (pieces : List Inserted) (left units : ℕ)
    (h : units + (pieces.flatMap Inserted.widths).sum < 2 ^ 32) :
    unitsOfPieces left units pieces =
      some (units + offset (pieces.flatMap Inserted.widths) left) := by
  induction pieces generalizing left units with
  | nil => simp [unitsOfPieces]
  | cons piece pieces ih =>
    rw [List.flatMap_cons, List.sum_append] at h
    have more := offset_le_sum piece.widths left
    rw [List.flatMap_cons, offset_append, unitsOfPieces]
    by_cases none : left = 0
    · simp [none]
    · rw [if_neg none]
      cases text : piece.string? with
      | some s =>
        have own : piece.widths = s.toList.map lenUtf16 := by rw [Inserted.widths, text]
        rw [own] at h more ⊢
        simp only [Option.bind_eq_bind]
        rw [unitsOfChars_eq _ _ _ (by omega), Option.bind_some, ih _ _ (by omega), List.length_map,
          Nat.add_assoc]
      | none =>
        have own : piece.widths = [1] := by rw [Inserted.widths, text]
        obtain ⟨m, rfl⟩ := Nat.exists_eq_succ_of_ne_zero none
        rw [own, List.sum_singleton] at h
        simp only [Option.bind_eq_bind]
        rw [u32_eq (by omega), Option.bind_some, sub32_eq (by omega), Option.bind_some,
          ih _ _ (by omega), own]
        simp [Nat.add_assoc]

lemma charsOfChars_eq (cs : List Char) (left chars : ℕ) (h : chars + cs.length < 2 ^ 32) :
    charsOfChars left chars cs =
      some (left - (cs.map lenUtf16).sum, chars + count (cs.map lenUtf16) left) := by
  induction cs generalizing left chars with
  | nil => simp [charsOfChars, count]
  | cons c cs ih =>
    rw [List.length_cons] at h
    rw [charsOfChars, List.map_cons, List.sum_cons, count]
    by_cases none : left = 0
    · simp [none]
    · rw [if_neg none, if_neg none, u32_eq (by omega)]
      simp only [Option.bind_eq_bind, Option.bind_some]
      rw [ih _ _ (by omega), Nat.sub_sub]
      congr 2
      omega

lemma charsOfPieces_eq (pieces : List Inserted) (left chars : ℕ)
    (h : chars + (pieces.flatMap Inserted.widths).length < 2 ^ 32) :
    charsOfPieces left chars pieces =
      some (chars + count (pieces.flatMap Inserted.widths) left) := by
  induction pieces generalizing left chars with
  | nil => simp [charsOfPieces, count]
  | cons piece pieces ih =>
    rw [List.flatMap_cons, List.length_append] at h
    have more := count_le_length piece.widths left
    rw [List.flatMap_cons, count_append, charsOfPieces]
    by_cases none : left = 0
    · simp [none]
    · rw [if_neg none]
      cases text : piece.string? with
      | some s =>
        have own : piece.widths = s.toList.map lenUtf16 := by rw [Inserted.widths, text]
        rw [own, List.length_map] at h more
        simp only [Option.bind_eq_bind]
        rw [charsOfChars_eq _ _ _ (by omega), Option.bind_some,
          ih _ _ (by rw [own] at *; omega), own, Nat.add_assoc]
      | none =>
        have own : piece.widths = [1] := by rw [Inserted.widths, text]
        rw [own, List.length_singleton] at h
        simp only [Option.bind_eq_bind]
        rw [sub32_eq (by omega), Option.bind_some, u32_eq (by omega), Option.bind_some,
          ih _ _ (by omega), own]
        simp [count, none, Nat.add_assoc]

section

variable (s : Sequence)

lemma flatMap_pieces : s.pieces.flatMap Inserted.widths = readWidths s.stored := by
  simp [pieces, readWidths, List.flatMap_map]

lemma charLen_eq : charLen s.pieces = some (readWidths s.stored).length := by
  have h := charLen_fold s.pieces 0 (by rw [flatMap_pieces]; have := s.readFits; omega)
  rwa [flatMap_pieces, Nat.zero_add] at h

lemma toUnits_eq (k : ℕ) : s.toUnits k = some (offset (readWidths s.stored) k) := by
  have h := unitsOfPieces_eq s.pieces k 0 (by rw [flatMap_pieces]; have := s.readFits; omega)
  rwa [flatMap_pieces, Nat.zero_add] at h

lemma toChars_eq (u : ℕ) : s.toChars u = some (count (readWidths s.stored) u) := by
  have few := length_le_sum (readWidths_pos s.stored)
  have h := charsOfPieces_eq s.pieces u 0 (by rw [flatMap_pieces]; have := s.readFits; omega)
  rwa [flatMap_pieces, Nat.zero_add] at h

lemma length_utf16 (c : Char) : (utf16 c).length = lenUtf16 c := by
  unfold utf16 lenUtf16
  split <;> rfl

lemma elemWidths_pos (xs : List Elem) : ∀ w ∈ elemWidths xs, 0 < w := by
  intro w hw
  obtain ⟨x, -, rfl⟩ := List.mem_map.1 hw
  cases x with
  | char c =>
    rw [Elem.units, List.length_map, length_utf16]
    exact lenUtf16_pos c
  | embed e => exact Nat.one_pos

lemma length_elements_lt : s.elements.length < 2 ^ 32 := by
  have few := length_le_sum (elemWidths_pos s.elements)
  rw [length_widths] at few
  have := s.fits
  rw [elements] at *
  omega

lemma len_eq : s.len = offset (elemWidths s.elements) s.elements.length :=
  (offset_widths_length _ _).symm

/-- An edit of the units between two places is the edit of the characters. -/
lemma splice_units (i j : ℕ) (ys : List Elem) :
    splice s.units (offset (elemWidths s.elements) i) (offset (elemWidths s.elements) j)
        (encode ys) = encode (splice s.elements i j ys) :=
  splice_encode _ _ _ _ _

lemma offset_le_len (k : ℕ) : offset (elemWidths s.elements) k ≤ s.units.length := by
  rw [units, encode, length_encode]
  exact offset_le_sum _ _

lemma yrsInsert_place (k : ℕ) (ys : List Elem) :
    yrsInsert s.units (offset (elemWidths s.elements) k) (encode ys) =
      some (encode (splice s.elements k k ys)) := by
  rw [yrsInsert, if_pos (s.offset_le_len k), splice_units]

end

/-! ## Reading alike is enough -/

section

variable {s : Sequence} (h : s.ReadsAlike)

include h

lemma ReadsAlike.charLen : charLen s.pieces = some s.elements.length := by
  rw [charLen_eq, h, length_widths]

lemma ReadsAlike.toUnits (k : ℕ) : s.toUnits k = some (offset (elemWidths s.elements) k) := by
  rw [toUnits_eq, h]

lemma ReadsAlike.indexToUnits {index : ℤ} (hindex : IsI64 index) :
    s.indexToUnits index =
      some (offset (elemWidths s.elements) (insertPlace index s.elements.length)) := by
  rw [Sequence.indexToUnits, h.charLen]
  simp only [Option.bind_eq_bind, Option.bind_some]
  rw [insertIndex_eq hindex s.length_elements_lt, Option.bind_some, h.toUnits]

lemma ReadsAlike.endOrUnits {index : ℤ} (hindex : IsI64 index) :
    s.endOrUnits index =
      some (offset (elemWidths s.elements) (insertPlace index s.elements.length)) := by
  rw [Sequence.endOrUnits]
  split
  · rename_i last
    have place : insertPlace index s.elements.length = s.elements.length := by
      simp only [insertPlace, clamp, last]
      omega
    rw [place, len_eq]
  · exact h.indexToUnits hindex

lemma ReadsAlike.delete {index length : ℤ} (hindex : IsI64 index) :
    s.delete index length = some (encode (stringSlice s.elements index length)) := by
  obtain ⟨n, hn⟩ : ∃ n, n = s.elements.length := ⟨_, rfl⟩
  obtain ⟨i, hi⟩ : ∃ i, i = startPlace index n := ⟨_, rfl⟩
  have slice : stringSlice s.elements index length =
      if 0 ≤ i ∧ i ≤ n ∧ 0 ≤ length then splice s.elements i.toNat (i + length).toNat []
      else s.elements := by
    rw [hi, hn]
    rfl
  have small : n < 2 ^ 32 := hn ▸ s.length_elements_lt
  rw [Sequence.delete, h.charLen, ← hn]
  simp only [Option.bind_eq_bind, Option.bind_some]
  rw [deleteSpan_eq hindex small, Option.bind_some, ← hi]
  by_cases inside : 0 ≤ i ∧ i ≤ n
  · obtain ⟨j, hj⟩ : ∃ j, j = (i + clamp length 0 (n - i)).toNat := ⟨_, rfl⟩
    have order : i.toNat ≤ j := by
      simp only [hj, clamp]
      omega
    -- A length past the end, or a negative one, leaves what the clamped one leaves.
    have same : stringSlice s.elements index length = splice s.elements i.toNat j [] := by
      rw [slice]
      by_cases positive : 0 ≤ length
      · rw [if_pos ⟨inside.1, inside.2, positive⟩]
        rcases le_total length (n - i) with short | long
        · have stop : j = (i + length).toNat := by
            simp only [hj, clamp]
            omega
          rw [stop]
        · have stop : n ≤ j ∧ n ≤ (i + length).toNat := by
            simp only [hj, clamp]
            omega
          rw [splice, splice, List.drop_of_length_le (by omega), List.drop_of_length_le (by omega)]
      · have none : j = i.toNat := by
          simp only [hj, clamp]
          omega
        rw [if_neg (by tauto), none, splice_self]
    rw [if_pos inside, ← hj, same, ← splice_units]
    simp only [h.toUnits, Option.bind_some]
    have span := offset_mono (elemWidths s.elements) order
    have last := s.offset_le_len j
    split
    · rw [sub32_eq span, Option.bind_some, yrsRemove, if_pos (by omega), Nat.add_sub_cancel' span]
      rfl
    · have empty : offset (elemWidths s.elements) j = offset (elemWidths s.elements) i.toNat := by
        omega
      rw [empty]
      exact congrArg some (splice_self _ _).symm
  · rw [if_neg inside, slice, if_neg (by tauto)]
    rfl

/-- Read alike, a sequence is edited as Ruby's string is. -/
lemma ReadsAlike.actsAsString : ActsAsString s where
  length := h.charLen
  insert index hindex chunk := by
    refine ⟨_, stringInsert_clampIndex _ _ _, ?_⟩
    rw [Sequence.insert, h.endOrUnits hindex]
    exact s.yrsInsert_place _ _
  insertEmbed index hindex e := by
    refine ⟨_, stringInsert_clampIndex _ _ _, ?_⟩
    rw [Sequence.insertEmbed, h.indexToUnits hindex]
    exact s.yrsInsert_place _ _
  delete index length hindex _ := h.delete hindex
  whole k := ⟨_, h.toUnits k, k, rfl⟩
  append := by
    have last : IsI64 (-1) := by decide
    rw [h.endOrUnits last, h.indexToUnits last]
  round k := by
    rw [h.toUnits, Option.bind_some, toChars_eq, h, count_offset (elemWidths_pos _), length_widths]
  monotone j k u v order hu hv := by
    rw [h.toUnits] at hu hv
    rw [← Option.some.inj hu, ← Option.some.inj hv]
    exact offset_mono _ order

end

/-! ## Reading alike is necessary -/

/-- Where insertions act as on a string, the places have the right offsets: no two offsets give the
same result for two different letters. -/
lemma ActsAsString.offset_eq {s : Sequence} (h : ActsAsString s) {k : ℕ}
    (hk : k ≤ s.elements.length) :
    offset (readWidths s.stored) k = offset (elemWidths s.elements) k := by
  have small := s.length_elements_lt
  have hindex : IsI64 k := ⟨by omega, by omega⟩
  have place : insertPlace k s.elements.length = k := by
    simp only [insertPlace, clamp]
    omega
  have read : s.endOrUnits k = some (offset (readWidths s.stored) k) := by
    rw [endOrUnits, if_neg (by omega), indexToUnits, h.length]
    simp only [Option.bind_eq_bind, Option.bind_some]
    rw [insertIndex_eq hindex small, Option.bind_some, place, toUnits_eq]
  have written : ∀ c : Char, offset (readWidths s.stored) k ≤ s.units.length ∧
      splice s.units (offset (readWidths s.stored) k) (offset (readWidths s.stored) k)
          (encode [.char c]) =
        splice s.units (offset (elemWidths s.elements) k) (offset (elemWidths s.elements) k)
          (encode [.char c]) := by
    intro c
    obtain ⟨r, hr, result⟩ := h.insert k hindex (String.singleton c)
    rw [stringInsert_clampIndex, place] at hr
    rw [Sequence.insert, read, ← Option.some.inj hr] at result
    simp only [Option.bind_eq_bind, Option.bind_some, String.toList_singleton, List.map_cons,
      List.map_nil] at result
    rw [yrsInsert] at result
    split at result
    · rename_i inside
      exact ⟨inside, by rw [Option.some.inj result, splice_units]⟩
    · simp at result
  have letter : ∀ c : Char, c.toNat < 0x10000 → encode [.char c] = [.code c.toNat] := by
    intro c hc
    simp [encode, Elem.units, utf16, hc]
  have a := (written 'a').2
  have b := (written 'b').2
  rw [letter 'a' (by decide)] at a
  rw [letter 'b' (by decide)] at b
  exact eq_of_splice_eq (written 'a').1 (s.offset_le_len k) (by simp) a b

lemma ActsAsString.readsAlike {s : Sequence} (h : ActsAsString s) : ReadsAlike s := by
  have length : (readWidths s.stored).length = (elemWidths s.elements).length := by
    have read := h.length
    rw [charLen_eq] at read
    rw [length_widths, Option.some.inj read]
  apply eq_of_offset_eq length
  intro k
  rcases Nat.le_total k s.elements.length with inside | behind
  · exact h.offset_eq inside
  · have whole := h.offset_eq (Nat.le_refl s.elements.length)
    have here : (elemWidths s.elements).length = s.elements.length := length_widths _ _
    rw [offset_of_length_le (by omega), offset_of_length_le (by omega)] at whole
    rw [offset_of_length_le (by omega), offset_of_length_le (by omega), whole]

/-- **When character indexes are exact.**  Inserting and deleting at character indexes is what
Ruby's `String` does, whatever the indexes, if and only if every character is read in its own
width. -/
theorem actsAsString_iff (s : Sequence) : ActsAsString s ↔ ReadsAlike s :=
  ⟨ActsAsString.readsAlike, ReadsAlike.actsAsString⟩

/-- Without embedded strings every character is read in its own width. -/
lemma readsAlike_of_noStrings (s : Sequence) (h : ∀ t, .embed (.plain (.string t)) ∉ s.stored) :
    ReadsAlike s := by
  have own : ∀ x ∈ s.stored, x.inserted.widths = elemWidths x.elems := by
    intro x hx
    cases x with
    | string t =>
      simp [Stored.inserted, Inserted.widths, Inserted.string?, Stored.elems, widths, Elem.units,
        length_utf16]
    | embed e =>
      cases e with
      | plain v =>
        cases v with
        | string t => exact absurd hx (h t)
        | _ => rfl
      | xmlText block => rfl
      | shared id => rfl
  have all : elemWidths s.elements = s.stored.flatMap fun x => elemWidths x.elems :=
    List.map_flatMap
  rw [ReadsAlike, readWidths, all]
  exact List.flatMap_congr own

/-- The string "ab" embedded before an emoji. -/
def embeddedString : Sequence where
  stored := [.embed (.plain (.string "ab")), .string "😀"]
  fits := by decide
  readFits := by decide

/-- Index 2 is the end, and is taken for the middle of the emoji's surrogate pair. -/
theorem embeddedString_splits :
    ¬ActsAsString embeddedString ∧ embeddedString.elements.length = 2 ∧
      embeddedString.endOrUnits 2 = some 2 ∧ ¬embeddedString.IsPlace 2 := by
  refine ⟨?_, by decide, by decide, ?_⟩
  · intro h
    exact absurd h.length (by decide)
  · rintro ⟨k, hk⟩
    match k, hk with
    | 0, hk => exact absurd hk (by decide)
    | 1, hk => exact absurd hk (by decide)
    | k + 2, hk =>
      have behind : offset (elemWidths embeddedString.elements) (k + 2) = 3 :=
        offset_of_length_le (Nat.le_add_left 2 k)
      omega

end Sequence

end Yrby
