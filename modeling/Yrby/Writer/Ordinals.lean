import Yrby.Writer.Indexes

/-!
# Block ordinals (`embedded_xml_texts`, `embedded_xml_text_index`)

A handle counts the `XmlText` blocks of its parent; yrs is told a unit.  Between the two stands
whatever else the parent embeds: text, markers, decorators.  Inserting before block `n` and deleting
block `n` change the parent at that block and nowhere else (`insertXmlText_exact`,
`deleteXmlText_exact`).
-/

namespace Yrby.Sequence

open HtmlCore Offsets

/-! ## The functions -/

/-- `Out::YXmlText(x)` -/
def Inserted.block? : Inserted → Option ℕ
  | .xmlText block => some block
  | _ => none

/-- `embedded_xml_texts` -/
def embeddedXmlTexts (s : Sequence) : List ℕ := s.pieces.filterMap Inserted.block?

/-- The loop of `embedded_xml_text_index`. -/
def xmlTextIndexFrom (n : ℕ) : ℕ → ℕ → List Inserted → Option (Option ℕ)
  | _, _, [] => some none
  | seen, index, .xmlText _ :: pieces =>
    if seen = n then some (some index)
    else do
      let seen ← u32 (seen + 1)
      let index ← u32 (index + 1)
      xmlTextIndexFrom n seen index pieces
  | seen, index, piece :: pieces => do
    let index ← u32 <| index +
      match piece.string? with
      | some s => (s.toList.flatMap utf16).length % 2 ^ 32
      | none => 1
    xmlTextIndexFrom n seen index pieces

/-- `embedded_xml_text_index` -/
def embeddedXmlTextIndex (s : Sequence) (n : ℕ) : Option (Option ℕ) :=
  xmlTextIndexFrom n 0 0 s.pieces

/-- `insert_xml_text`: the block `new` is written at an ordinal. -/
def insertXmlText (s : Sequence) (n : ℤ) (new : ℕ) : Option (List CodeUnit) := do
  let count := s.embeddedXmlTexts.length % 2 ^ 32
  let ordinal ← insertIndex n count
  let index ← s.embeddedXmlTextIndex ordinal
  yrsInsert s.units (index.getD s.len) (encode [.embed (.xmlText new)])

/-- `xml_text` -/
def xmlText (s : Sequence) (n : ℤ) : Option (Option ℕ) := do
  let blocks := s.embeddedXmlTexts
  match ← elementIndex n (blocks.length % 2 ^ 32) with
  | none => some none
  | some n => do
    let block ← blocks[n]?
    some (some block)

/-- `delete_xml_text` -/
def deleteXmlText (s : Sequence) (n : ℤ) : Option (Bool × List CodeUnit) := do
  let count := s.embeddedXmlTexts.length % 2 ^ 32
  match ← elementIndex n count with
  | none => some (false, s.units)
  | some ordinal => do
    match ← s.embeddedXmlTextIndex ordinal with
    | none => some (false, s.units)
    | some index => do
      let units ← yrsRemove s.units index 1
      some (true, units)

/-! ## Blocks -/

def Elem.block? : Elem → Option ℕ
  | .embed (.xmlText block) => some block
  | _ => none

/-- The blocks among characters. -/
def blocks (xs : List Elem) : List ℕ := xs.filterMap Elem.block?

@[simp] lemma blocks_append (xs ys : List Elem) : blocks (xs ++ ys) = blocks xs ++ blocks ys :=
  List.filterMap_append

@[simp] lemma blocks_chars (cs : List Char) : blocks (cs.map .char) = [] := by
  rw [blocks, List.filterMap_map]
  exact List.filterMap_eq_nil_iff.2 fun _ _ => rfl

lemma Elem.block?_eq_some {x : Elem} {b : ℕ} (h : x.block? = some b) :
    x = .embed (.xmlText b) := by
  cases x with
  | char c => simp [Elem.block?] at h
  | embed e =>
    cases e with
    | xmlText block => rw [Option.some.inj h]
    | _ => simp [Elem.block?] at h

lemma Stored.block?_eq_some {x : Stored} {b : ℕ} (h : x.inserted.block? = some b) :
    x = .embed (.xmlText b) := by
  cases x with
  | string s => simp [Stored.inserted, Inserted.block?] at h
  | embed e =>
    cases e with
    | xmlText block => rw [Option.some.inj h]
    | _ => simp [Stored.inserted, Inserted.block?] at h

/-- Characters up to the `k`th block. -/
lemma exists_block {xs : List Elem} {k b : ℕ} (h : (blocks xs)[k]? = some b) :
    ∃ front back, xs = front ++ .embed (.xmlText b) :: back ∧ (blocks front).length = k := by
  obtain ⟨front, x, back, rfl, hx, number⟩ := exists_of_getElem?_filterMap h
  exact ⟨front, back, by rw [Elem.block?_eq_some hx], number⟩

lemma elems_cons (x : Stored) (stored : List Stored) :
    elems (x :: stored) = x.elems ++ elems stored :=
  List.flatMap_cons

lemma encode_append (xs ys : List Elem) : encode (xs ++ ys) = encode xs ++ encode ys :=
  List.flatMap_append

lemma length_encode_cons (x : Stored) (stored : List Stored) :
    (encode (elems (x :: stored))).length =
      (encode x.elems).length + (encode (elems stored)).length := by
  rw [elems_cons, encode_append, List.length_append]

lemma length_blocks_cons (x : Stored) (stored : List Stored) :
    (blocks (elems (x :: stored))).length =
      (blocks x.elems).length + (blocks (elems stored)).length := by
  rw [elems_cons, blocks_append, List.length_append]

/-- No embed's value is a plain string. -/
def NoStrings (stored : List Stored) : Prop := ∀ t, .embed (.plain (.string t)) ∉ stored

lemma NoStrings.tail {x : Stored} {stored : List Stored} (h : NoStrings (x :: stored)) :
    NoStrings stored := fun t ht => h t (List.mem_cons_of_mem x ht)

lemma NoStrings.string? {e : Embed} {stored : List Stored} (h : NoStrings (.embed e :: stored)) :
    (Stored.embed e).inserted.string? = none := by
  cases e with
  | plain v =>
    cases v with
    | string t => exact absurd List.mem_cons_self (h t)
    | _ => rfl
  | _ => rfl

/-- The blocks that are listed are the blocks that are stored. -/
lemma filterMap_inserted (stored : List Stored) :
    (stored.map Stored.inserted).filterMap Inserted.block? = blocks (elems stored) := by
  induction stored with
  | nil => rfl
  | cons x stored ih =>
    have first : blocks x.elems = x.inserted.block?.toList := by
      cases x with
      | string s => exact blocks_chars _
      | embed e => cases e <;> rfl
    rw [elems_cons, blocks_append, first, ← ih, List.map_cons, List.filterMap_cons]
    cases x.inserted.block? <;> rfl

lemma embeddedXmlTexts_eq (s : Sequence) : s.embeddedXmlTexts = blocks s.elements :=
  filterMap_inserted s.stored

lemma length_blocks_lt (s : Sequence) : (blocks s.elements).length < 2 ^ 32 :=
  (List.length_filterMap_le _ _).trans_lt s.length_elements_lt

/-! ## Where a block is -/

/-- Text before an embed lies whole before it. -/
lemma chars_before_embed {cs : List Char} {ys front back : List Elem} {e : Embed}
    (h : cs.map .char ++ ys = front ++ .embed e :: back) :
    ∃ rest, front = cs.map .char ++ rest ∧ ys = rest ++ .embed e :: back := by
  rcases List.append_eq_append_iff.1 h with ⟨rest, hfront, hys⟩ | ⟨rest, hcs, hback⟩
  · exact ⟨rest, hfront, hys⟩
  · cases rest with
    | nil => exact ⟨[], by simpa using hcs.symm, hback.symm⟩
    | cons x rest =>
      have first : x = .embed e := (List.cons.inj hback).1.symm
      have text : x ∈ cs.map Elem.char := by simp [hcs]
      simp [first] at text

/-- One step of the loop over a piece that is no block. -/
lemma xmlTextIndexFrom_cons {x : Stored} {stored : List Stored} (h : NoStrings (x :: stored))
    (other : x.inserted.block? = none) {n seen index : ℕ}
    (small : index + (encode (elems (x :: stored))).length < 2 ^ 32) :
    xmlTextIndexFrom n seen index ((x :: stored).map Stored.inserted) =
      xmlTextIndexFrom n seen (index + (encode x.elems).length) (stored.map Stored.inserted) := by
  rw [length_encode_cons] at small
  have step : u32 (index + (encode x.elems).length) = some (index + (encode x.elems).length) :=
    u32_eq (by omega)
  cases x with
  | string s =>
    have units : (s.toList.flatMap utf16).length = (encode (Stored.string s).elems).length := by
      simp [encode, Stored.elems, Elem.units, List.flatMap_map, List.length_flatMap]
    have whole : (encode (Stored.string s).elems).length < 2 ^ 32 := by omega
    simp only [List.map_cons, Stored.inserted, xmlTextIndexFrom, Inserted.string?, units,
      Nat.mod_eq_of_lt whole, step, Option.bind_eq_bind, Option.bind_some]
  | embed e =>
    have plain := h.string?
    have one : (encode (Stored.embed e).elems).length = 1 := rfl
    rw [one] at step ⊢
    cases e with
    | xmlText block => simp [Stored.inserted, Inserted.block?] at other
    | plain v =>
      rw [Stored.inserted] at plain
      simp only [List.map_cons, Stored.inserted, xmlTextIndexFrom, plain, step,
        Option.bind_eq_bind, Option.bind_some]
    | shared id =>
      simp only [List.map_cons, Stored.inserted, xmlTextIndexFrom, Inserted.string?, step,
        Option.bind_eq_bind, Option.bind_some]

/-- The loop finds the block that `k` others precede. -/
lemma xmlTextIndexFrom_eq {stored : List Stored} (h : NoStrings stored) {front back : List Elem}
    {b : ℕ} (split : elems stored = front ++ .embed (.xmlText b) :: back) {seen index : ℕ}
    (small : index + (encode (elems stored)).length < 2 ^ 32)
    (few : seen + (blocks (elems stored)).length < 2 ^ 32) :
    xmlTextIndexFrom (seen + (blocks front).length) seen index (stored.map Stored.inserted) =
      some (some (index + (encode front).length)) := by
  induction stored generalizing front seen index with
  | nil => simp [elems] at split
  | cons x stored ih =>
    have cut := elems_cons x stored
    have size := length_encode_cons x stored
    have number := length_blocks_cons x stored
    -- A piece before the block: the loop goes on behind it.
    have on : ∀ rest, front = x.elems ++ rest → x.inserted.block? = none →
        xmlTextIndexFrom (seen + (blocks front).length) seen index
          ((x :: stored).map Stored.inserted) = some (some (index + (encode front).length)) := by
      rintro rest rfl other
      have none : blocks x.elems = [] := by
        have listed := filterMap_inserted [x]
        rw [List.map_singleton, List.filterMap_cons_none other] at listed
        simpa [elems] using listed.symm
      have behind : elems stored = rest ++ .embed (.xmlText b) :: back := by
        rw [cut, List.append_assoc] at split
        exact List.append_cancel_left split
      rw [xmlTextIndexFrom_cons h other small, blocks_append, none, List.nil_append,
        ih h.tail behind (by omega) (by omega), encode_append, List.length_append, Nat.add_assoc]
    cases x with
    | string s =>
      obtain ⟨rest, hfront, -⟩ := chars_before_embed (cut ▸ split)
      exact on rest hfront rfl
    | embed e =>
      cases front with
      | nil =>
        have here : e = .xmlText b := Elem.embed.inj (List.cons.inj split).1
        subst here
        simp [Stored.inserted, xmlTextIndexFrom, blocks, encode]
      | cons y rest =>
        have first : y = .embed e := (List.cons.inj split).1.symm
        subst first
        cases e with
        | xmlText block =>
          have behind : elems stored = rest ++ .embed (.xmlText b) :: back :=
            (List.cons.inj split).2
          have more :
              (blocks (.embed (.xmlText block) :: rest)).length = (blocks rest).length + 1 := rfl
          have one : (encode (Stored.embed (.xmlText block)).elems).length = 1 := rfl
          have another : (blocks (Stored.embed (.xmlText block)).elems).length = 1 := rfl
          have later : ¬seen = seen + ((blocks rest).length + 1) := by omega
          simp only [List.map_cons, Stored.inserted, xmlTextIndexFrom, more, if_neg later,
            Option.bind_eq_bind]
          rw [u32_eq (by omega), Option.bind_some, u32_eq (by omega), Option.bind_some,
            show seen + ((blocks rest).length + 1) = seen + 1 + (blocks rest).length by omega,
            ih h.tail behind (by omega) (by omega)]
          simp only [encode, List.flatMap_cons, List.length_append, Elem.units,
            List.length_singleton]
          congr 2
          omega
        | plain v =>
          refine on rest rfl ?_
          rfl
        | shared id => exact on rest rfl rfl

/-- Past the last block the loop finds none. -/
lemma xmlTextIndexFrom_none {stored : List Stored} (h : NoStrings stored) {n seen index : ℕ}
    (past : seen + (blocks (elems stored)).length ≤ n) (few : n < 2 ^ 32)
    (small : index + (encode (elems stored)).length < 2 ^ 32) :
    xmlTextIndexFrom n seen index (stored.map Stored.inserted) = some none := by
  induction stored generalizing seen index with
  | nil => rfl
  | cons x stored ih =>
    have size := length_encode_cons x stored
    have number := length_blocks_cons x stored
    cases block : x.inserted.block? with
    | none =>
      rw [xmlTextIndexFrom_cons h block small]
      exact ih h.tail (by omega) (by omega)
    | some b =>
      obtain rfl := Stored.block?_eq_some block
      have one : (encode (Stored.embed (.xmlText b)).elems).length = 1 := rfl
      have another : (blocks (Stored.embed (.xmlText b)).elems).length = 1 := rfl
      have before : ¬seen = n := by omega
      simp only [List.map_cons, Stored.inserted, xmlTextIndexFrom, if_neg before,
        Option.bind_eq_bind]
      rw [u32_eq (by omega), Option.bind_some, u32_eq (by omega), Option.bind_some]
      exact ih h.tail (by omega) (by omega)

lemma embeddedXmlTextIndex_eq {s : Sequence} (h : NoStrings s.stored) {front back : List Elem}
    {b : ℕ} (split : s.elements = front ++ .embed (.xmlText b) :: back) :
    s.embeddedXmlTextIndex (blocks front).length = some (some (encode front).length) := by
  have size : (encode s.elements).length < 2 ^ 32 := (length_encode _ _).trans_lt s.fits
  have number := s.length_blocks_lt
  have found := xmlTextIndexFrom_eq h split (by rw [Nat.zero_add]; exact size)
    (by rw [Nat.zero_add]; exact number)
  rwa [Nat.zero_add, Nat.zero_add] at found

lemma embeddedXmlTextIndex_none {s : Sequence} (h : NoStrings s.stored) :
    s.embeddedXmlTextIndex (blocks s.elements).length = some none := by
  have size : (encode s.elements).length < 2 ^ 32 := (length_encode _ _).trans_lt s.fits
  exact xmlTextIndexFrom_none h (by rw [Nat.zero_add]; exact Nat.le_refl _) s.length_blocks_lt
    (by rw [Nat.zero_add]; exact size)

lemma elementIndex_eq {index : ℤ} {n : ℕ} (hindex : IsI64 index) (hn : n < 2 ^ 32) :
    elementIndex index n = some (if 0 ≤ startPlace index n ∧ startPlace index n < n then
      some (startPlace index n).toNat else none) := by
  obtain ⟨lo, hi⟩ := hindex
  have start : (if index < 0 then i64 (n + index) else some index) =
      some (startPlace index n) := by
    unfold startPlace
    split
    · exact i64_eq ⟨by omega, by omega⟩
    · rfl
  rw [elementIndex, start, Option.map_some]
  split
  · rename_i inside
    rw [asU32_eq inside.1 (by omega)]
  · rfl

/-! ## Exactness -/

/-- A block is inserted before the one that had its number, or behind everything. -/
lemma insertXmlText_exact {s : Sequence} (h : NoStrings s.stored) {n : ℤ} (hn : IsI64 n)
    (new : ℕ) :
    ∃ front back, s.elements = front ++ back ∧
      insertIndex n (blocks s.elements).length = some (blocks front).length ∧
      s.insertXmlText n new = some (encode (front ++ .embed (.xmlText new) :: back)) := by
  have small := s.length_blocks_lt
  obtain ⟨k, hk⟩ : ∃ k, k = insertPlace n (blocks s.elements).length := ⟨_, rfl⟩
  have ordinal : insertIndex n (blocks s.elements).length = some k := hk ▸ insertIndex_eq hn small
  have write : ∀ front back, s.elements = front ++ back →
      yrsInsert s.units (encode front).length (encode [.embed (.xmlText new)]) =
        some (encode (front ++ .embed (.xmlText new) :: back)) := by
    intro front back split
    have place : (encode front).length = offset (elemWidths s.elements) front.length := by
      rw [split]
      exact (offset_widths_append _ _ _).symm
    rw [place, yrsInsert_place, splice, split, List.take_left, List.drop_left, List.append_assoc]
    rfl
  unfold insertXmlText
  rw [embeddedXmlTexts_eq]
  simp only [Nat.mod_eq_of_lt small, ordinal, Option.bind_eq_bind, Option.bind_some]
  rcases Nat.lt_or_ge k (blocks s.elements).length with inside | past
  · obtain ⟨front, back, split, rfl⟩ := exists_block (List.getElem?_eq_getElem inside)
    refine ⟨front, _, split, rfl, ?_⟩
    rw [embeddedXmlTextIndex_eq h split]
    exact write _ _ split
  · have last : k = (blocks s.elements).length :=
      Nat.le_antisymm (hk ▸ insertPlace_le _ _) past
    refine ⟨s.elements, [], (List.append_nil _).symm, congrArg some last, ?_⟩
    rw [last, embeddedXmlTextIndex_none h]
    exact write _ _ (List.append_nil _).symm

/-- The block that is deleted is the one that `xmlText` names. -/
lemma deleteXmlText_exact {s : Sequence} (h : NoStrings s.stored) {n : ℤ} (hn : IsI64 n) :
    (∃ b front back, s.xmlText n = some (some b) ∧
        s.elements = front ++ .embed (.xmlText b) :: back ∧
        elementIndex n (blocks s.elements).length = some (some (blocks front).length) ∧
        s.deleteXmlText n = some (true, encode (front ++ back))) ∨
      s.xmlText n = some none ∧ s.deleteXmlText n = some (false, s.units) := by
  have small := s.length_blocks_lt
  unfold deleteXmlText xmlText
  rw [embeddedXmlTexts_eq]
  have index := elementIndex_eq hn small
  simp only [Nat.mod_eq_of_lt small]
  by_cases inside : 0 ≤ startPlace n (blocks s.elements).length ∧
      startPlace n (blocks s.elements).length < (blocks s.elements).length
  · obtain ⟨k, hk⟩ : ∃ k, k = (startPlace n (blocks s.elements).length).toNat := ⟨_, rfl⟩
    have here : k < (blocks s.elements).length := by omega
    obtain ⟨front, back, split, number⟩ := exists_block (List.getElem?_eq_getElem here)
    rw [if_pos inside, ← hk] at index
    refine .inl ⟨_, front, back, ?_, split, by rw [index, number], ?_⟩
    · simp only [index, Option.bind_eq_bind, Option.bind_some, List.getElem?_eq_getElem here]
    · have place : (encode front).length = offset (elemWidths s.elements) front.length := by
        rw [split]
        exact (offset_widths_append _ _ _).symm
      have behind : (encode front).length + 1 =
          offset (elemWidths s.elements) (front.length + 1) := by
        have prefixed := offset_widths_append Elem.units
          (front ++ [.embed (.xmlText (blocks s.elements)[k])]) back
        rw [List.append_assoc, List.singleton_append, ← split, List.length_append,
          List.length_singleton, List.flatMap_append, List.length_append] at prefixed
        exact prefixed.symm
      have inside : (encode front).length + 1 ≤ s.units.length := behind ▸ s.offset_le_len _
      have cut : splice s.elements front.length (front.length + 1) [] = front ++ back := by
        rw [splice, split, List.take_left, List.append_nil, List.append_cons]
        rw [List.drop_left' (by simp)]
      have found := embeddedXmlTextIndex_eq h split
      rw [number] at found
      simp only [index, found, Option.bind_eq_bind, Option.bind_some]
      rw [yrsRemove, if_pos inside, behind, place, ← cut, ← splice_units]
      rfl
  · rw [if_neg inside] at index
    refine .inr ⟨?_, ?_⟩
    · simp only [index, Option.bind_eq_bind, Option.bind_some]
    · simp only [index, Option.bind_eq_bind, Option.bind_some]

/-- **Ordinals are exact.**  The new block gets the number that was asked for; the block that is
deleted is the one that has the number, and there is nothing to delete where none has it.  The rest
of the parent stays as it was. -/
theorem ordinals_exact (s : Sequence) (h : NoStrings s.stored) (n : ℤ) (hn : IsI64 n) :
    (∀ new, ∃ front back ordinal, s.elements = front ++ back ∧
      insertIndex n (blocks s.elements).length = some ordinal ∧
      (blocks (front ++ .embed (.xmlText new) :: back))[ordinal]? = some new ∧
      (blocks front).length = ordinal ∧
      s.insertXmlText n new = some (encode (front ++ .embed (.xmlText new) :: back))) ∧
    ((∃ b front back, s.xmlText n = some (some b) ∧
        s.elements = front ++ .embed (.xmlText b) :: back ∧
        elementIndex n (blocks s.elements).length = some (some (blocks front).length) ∧
        s.deleteXmlText n = some (true, encode (front ++ back))) ∨
      s.xmlText n = some none ∧ s.deleteXmlText n = some (false, s.units)) := by
  refine ⟨fun new => ?_, deleteXmlText_exact h hn⟩
  obtain ⟨front, back, split, ordinal, result⟩ := insertXmlText_exact h hn new
  refine ⟨front, back, _, split, ordinal, ?_, rfl, result⟩
  rw [blocks_append, List.getElem?_append_right (Nat.le_refl _), Nat.sub_self]
  rfl

/-- An emoji, a marker, a block, a decorator and a block. -/
def mixed : Sequence where
  stored := [.string "a😀", .embed (.shared 1), .embed (.xmlText 7), .embed (.shared 2),
    .embed (.xmlText 8)]
  fits := by decide
  readFits := by decide

theorem ordinals_exact_mixed :
    mixed.xmlText (-1) = some (some 8) ∧
      ((∃ b front back, mixed.xmlText (-1) = some (some b) ∧
          mixed.elements = front ++ .embed (.xmlText b) :: back ∧
          elementIndex (-1) (blocks mixed.elements).length = some (some (blocks front).length) ∧
          mixed.deleteXmlText (-1) = some (true, encode (front ++ back))) ∨
        mixed.xmlText (-1) = some none ∧ mixed.deleteXmlText (-1) = some (false, mixed.units)) :=
  ⟨by decide, (ordinals_exact mixed (by intro t; simp [mixed]) (-1) (by decide)).2⟩

end Yrby.Sequence
