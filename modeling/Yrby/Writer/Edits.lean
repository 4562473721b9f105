import Yrby.Writer.InPlace
import Yrby.Writer.MarkdownAppend
import Mathlib.Data.List.Flatten
import Mathlib.Data.List.Forall2

/-!
# Editing a document from Ruby (`lexical_writer.rb`)

`Edit` is a call of `Y::Lexical` or `Y::Lexxy` on a document.  A `Sheet` is what a document of such
calls says: its blocks, as they could have been appended, with their identities.  On a sheet,
`append_text` lengthens the last run of a block, unless that run is a link; `replace_runs` and
`write_runs` change the runs; blocks come and go by their number.

The document follows the sheet (`Represents`), and renders as its blocks (`edits_render`).  Where a
call would write runs into a list, a code block, a quote of Lexxy's or the root, a sheet has no
answer.
-/

namespace Yrby

namespace Writer

namespace InPlace

open HtmlCore LexicalHtml XmlText Outline

/-! ## Calls -/

/-- A call of `Y::Lexical` on a document. -/
inductive Edit
  | append (b : NewBlock)
  | insertParagraph (place : ℤ) (runs : List Run)
  | replaceRuns (h : Handle) (runs : List Run)
  | writeRuns (h : Handle) (runs : List Run)
  | appendText (h : Handle) (s : String)
  | deleteBlock (place : ℤ)

def Edit.call (flavor : Flavor) : Edit → Call
  | .append b => InPlace.append flavor b
  | .insertParagraph place runs => InPlace.insertParagraph flavor place runs
  | .replaceRuns h runs => InPlace.replaceRuns flavor h runs
  | .writeRuns h runs => InPlace.writeRuns flavor h runs
  | .appendText h s => appendPlain h s
  | .deleteBlock place => InPlace.deleteBlock place

/-! ## Sheets -/

/-- A block: its identity, those of the blocks inside it, and what it says. -/
structure Entry where
  id : ℕ
  inner : List ℕ
  block : NewBlock

def Entry.ids (e : Entry) : List ℕ := e.id :: e.inner

/-- The blocks of a document, and the identity of the next one. -/
structure Sheet where
  entries : List Entry
  clock : ℕ

/-- Plain text. -/
def plainRun (s : String) : Run := ⟨s, fun _ => false, none, none⟩

/-- Runs with a text at their end. -/
def addText (s : String) (runs : List Run) : List Run :=
  match runs.getLast? with
  | none => [plainRun s]
  | some last =>
    if last.link.isSome then runs ++ [plainRun s]
    else runs.dropLast ++ [{ last with text := last.text ++ s }]

/-- Change the runs of a block.  `none` for a block that holds its runs in other blocks, or code. -/
def withRuns (flavor : Flavor) (f : List Run → List Run) : NewBlock → Option NewBlock
  | .paragraph runs => some (.paragraph (f runs))
  | .heading tag runs => some (.heading tag (f runs))
  | .quote runs =>
    match flavor with
    | .lexical => some (.quote (f runs))
    | .lexxy => none
  | .code _ _ => none
  | .list _ _ => none

/-- Change the entry with this identity. -/
def changeEntry (id : ℕ) (f : Entry → Option Entry) : List Entry → Option (List Entry)
  | [] => none
  | e :: es =>
    if e.id = id then (f e).map (· :: es) else (changeEntry id f es).map (e :: ·)

/-- A block is put at a place. -/
def Sheet.put (flavor : Flavor) (s : Sheet) (place : ℤ) (b : NewBlock) : Sheet × Answer :=
  let new := writePieces (s.clock + 1) (layout flavor b).2
  let i := Sequence.insertPlace place s.entries.length
  let entry : Entry := ⟨s.clock, ids new.1, b⟩
  (⟨s.entries.take i ++ entry :: s.entries.drop i, new.2⟩, .handle (.block s.clock))

/-- Runs are written at the end of a block, or in the place of its own: `write` says what becomes
of the runs, and `inner` of the blocks inside. -/
def Sheet.onRuns (flavor : Flavor) (s : Sheet) (h : Handle) (write : List Run → List Run)
    (inner : List ℕ → List ℕ) (clock : ℕ) : Option (Sheet × Answer) :=
  match h with
  | .root => none
  | .block id =>
    if id ∈ s.entries.map Entry.id then
      (changeEntry id
        (fun e => (withRuns flavor write e.block).map fun b => ⟨id, inner e.inner, b⟩)
        s.entries).map fun entries => (⟨entries, clock⟩, .handle h)
    else if id ∈ s.entries.flatMap Entry.inner then none
    else some (s, .gone)

/-- What a call means on a sheet. -/
def Sheet.step (flavor : Flavor) (s : Sheet) : Edit → Option (Sheet × Answer)
  | .append b => some (s.put flavor (-1) b)
  | .insertParagraph place runs => some (s.put flavor place (.paragraph runs))
  | .replaceRuns h runs =>
    let new := writePieces s.clock (content flavor runs)
    s.onRuns flavor h (fun _ => runs) (fun _ => ids new.1) new.2
  | .writeRuns h runs =>
    let new := writePieces s.clock (content flavor runs)
    s.onRuns flavor h (· ++ runs) (· ++ ids new.1) new.2
  | .appendText h text => s.onRuns flavor h (addText text) id s.clock
  | .deleteBlock place =>
    match elementPlace place s.entries.length with
    | none => some (s, .found false)
    | some i => some ({ s with entries := s.entries.take i ++ s.entries.drop (i + 1) }, .found true)

def Sheet.run (flavor : Flavor) (s : Sheet) : List Edit → Option (Sheet × List Answer)
  | [] => some (s, [])
  | e :: es =>
    (s.step flavor e).bind fun next =>
      (next.1.run flavor es).map fun rest => (rest.1, next.2 :: rest.2)

/-! ## What a document of a sheet looks like -/

/-- The block of an entry. -/
def Shows (flavor : Flavor) (x : Cell Leaf Attrs) (e : Entry) : Prop :=
  ∃ content, x = .block e.id (layout flavor e.block).1 content ∧
    items content = writeAll (layout flavor e.block).2 ∧ ids content = e.inner

/-- Identities that were given before this clock, each once. -/
def Given (ids : List ℕ) (clock : ℕ) : Prop := ids.Nodup ∧ ∀ i ∈ ids, i < clock

/-- The document shows the entries in their order, and every identity was given once. -/
structure Represents (flavor : Flavor) (d : Doc) (s : Sheet) : Prop where
  shows : List.Forall₂ (Shows flavor) d.root s.entries
  clock : d.clock = s.clock
  given : Given (s.entries.flatMap Entry.ids) s.clock

/-! ## Identities that are given -/

mutual

lemma writePiece_ids (clock : ℕ) : ∀ p : Piece,
    clock ≤ (writePiece clock p).2 ∧ (ids (writePiece clock p).1).Nodup ∧
      ∀ i ∈ ids (writePiece clock p).1, clock ≤ i ∧ i < (writePiece clock p).2
  | .text s => by
    have none := ids_leaves (A := Attrs) (s.toList.map Leaf.char)
    rw [List.map_map] at none
    have same : (s.toList.map fun c => .leaf (.char c) : Content) =
        s.toList.map (Cell.leaf ∘ Leaf.char) := rfl
    rw [writePiece, same, none]
    simp
  | .embed attrs => by simp [writePiece]
  | .block attrs content => by
    obtain ⟨le, nodup, between⟩ := writePieces_ids (clock + 1) content
    simp only [writePiece, ids_cons, Cell.ids_block, ids_nil, List.append_nil, List.nodup_cons,
      List.mem_cons]
    refine ⟨by omega, ⟨fun mem => ?_, nodup⟩, ?_⟩
    · have := (between clock mem).1
      omega
    · rintro i (rfl | mem)
      · omega
      · have := between i mem
        omega

/-- Pieces give the identities from the clock on, each once. -/
lemma writePieces_ids (clock : ℕ) : ∀ ps : List Piece,
    clock ≤ (writePieces clock ps).2 ∧ (ids (writePieces clock ps).1).Nodup ∧
      ∀ i ∈ ids (writePieces clock ps).1, clock ≤ i ∧ i < (writePieces clock ps).2
  | [] => by simp [writePieces]
  | p :: ps => by
    obtain ⟨le, nodup, between⟩ := writePiece_ids clock p
    obtain ⟨le', nodup', between'⟩ := writePieces_ids (writePiece clock p).2 ps
    simp only [writePieces, ids_append, List.nodup_append, List.mem_append]
    refine ⟨by omega, ⟨nodup, nodup', fun i hi j hj => ?_⟩, ?_⟩
    · have := between i hi
      have := between' j hj
      omega
    · rintro i (hi | hi)
      · have := between i hi
        omega
      · have := between' i hi
        omega

end

/-- Some identities go, and new ones come. -/
lemma Given.replace {front mid mid' back : List ℕ} {k k' : ℕ} (h : Given (front ++ mid ++ back) k)
    (later : k ≤ k') (nodup : mid'.Nodup) (sub : ∀ i ∈ mid', i ∈ mid ∨ k ≤ i ∧ i < k') :
    Given (front ++ mid' ++ back) k' := by
  obtain ⟨distinct, below⟩ := h
  simp only [List.nodup_append, List.mem_append] at distinct below
  obtain ⟨⟨hf, -, apart⟩, hb, apart'⟩ := distinct
  rw [Given, List.nodup_append, List.nodup_append]
  simp only [List.mem_append]
  refine ⟨⟨⟨hf, nodup, fun i hi j hj same => ?_⟩, hb, ?_⟩, ?_⟩
  · rcases sub j hj with old | new
    · exact apart i hi j old same
    · have := below i (.inl (.inl hi))
      omega
  · rintro i (hi | hi) j hj same
    · exact apart' i (.inl hi) j hj same
    · rcases sub i hi with old | new
      · exact apart' i (.inr old) j hj same
      · have := below j (.inr hj)
        omega
  · rintro i ((hi | hi) | hi)
    · have := below i (.inl (.inl hi))
      omega
    · rcases sub i hi with old | new
      · have := below i (.inl (.inr old))
        omega
      · exact new.2
    · have := below i (.inr hi)
      omega

/-! ## Entries and blocks -/

section

variable {flavor : Flavor} {xs : Content} {es : List Entry}

lemma shows_blocks (h : List.Forall₂ (Shows flavor) xs es) : ∀ x ∈ xs, x.id?.isSome := by
  induction h with
  | nil => simp
  | cons head _ ih =>
    obtain ⟨content, rfl, -, -⟩ := head
    rintro x hx
    rcases List.mem_cons.1 hx with rfl | old
    · rfl
    · exact ih x old

lemma shows_ids (h : List.Forall₂ (Shows flavor) xs es) : ids xs = es.flatMap Entry.ids := by
  induction h with
  | nil => simp
  | cons head _ ih =>
    obtain ⟨content, rfl, -, inner⟩ := head
    rw [ids_cons, Cell.ids_block, inner, ih, List.flatMap_cons, Entry.ids]

/-- The block of an entry, and what stands around it. -/
lemma shows_split {front back : List Entry} {e : Entry}
    (h : List.Forall₂ (Shows flavor) xs (front ++ e :: back)) :
    ∃ front' x back', xs = front' ++ x :: back' ∧ List.Forall₂ (Shows flavor) front' front ∧
      Shows flavor x e ∧ List.Forall₂ (Shows flavor) back' back := by
  have before := List.forall₂_take_append xs front (e :: back) h
  have behind := List.forall₂_drop_append xs front (e :: back) h
  obtain ⟨x, back', here, rest, split⟩ := List.forall₂_cons_right_iff.1 behind
  exact ⟨xs.take front.length, x, back', by rw [← split, List.take_append_drop], before, here, rest⟩

lemma changeEntry_eq_some {id : ℕ} {f : Entry → Option Entry} {es' : List Entry}
    (h : changeEntry id f es = some es') :
    ∃ front e back e', es = front ++ e :: back ∧ e.id = id ∧ f e = some e' ∧
      es' = front ++ e' :: back := by
  induction es generalizing es' with
  | nil => cases h
  | cons e es ih =>
    rw [changeEntry] at h
    split at h
    · rename_i here
      obtain ⟨e', changed, rfl⟩ := Option.map_eq_some_iff.1 h
      exact ⟨[], e, es, e', rfl, here, changed, rfl⟩
    · obtain ⟨es', changed, rfl⟩ := Option.map_eq_some_iff.1 h
      obtain ⟨front, d, back, d', rfl, here, at_d, rfl⟩ := ih changed
      exact ⟨e :: front, d, back, d', rfl, here, at_d, rfl⟩

lemma layout_withRuns {f : List Run → List Run} {b b' : NewBlock}
    (h : withRuns flavor f b = some b') :
    ∃ runs, (layout flavor b).2 = content flavor runs ∧
      (layout flavor b').1 = (layout flavor b).1 ∧
      (layout flavor b').2 = content flavor (f runs) := by
  cases b with
  | paragraph runs =>
    obtain rfl := Option.some.inj h
    exact ⟨runs, rfl, rfl, rfl⟩
  | heading tag runs =>
    obtain rfl := Option.some.inj h
    exact ⟨runs, rfl, rfl, rfl⟩
  | quote runs =>
    cases flavor with
    | lexical =>
      obtain rfl := Option.some.inj h
      exact ⟨runs, rfl, rfl, rfl⟩
    | lexxy => cases h
  | code language code => cases h
  | list ordered items => cases h

end

/-! ## Writing runs -/

section

variable {flavor : Flavor} {d : Doc} {s s' : Sheet}

/-- An id that no entry has is the id of no block. -/
lemma Represents.resolve_eq_none (rep : Represents flavor d s) {id : ℕ}
    (notHere : id ∉ s.entries.map Entry.id) (notInside : id ∉ s.entries.flatMap Entry.inner) :
    d.resolve (.block id) = none := by
  refine find_eq_none ?_
  rw [shows_ids rep.shows, List.mem_flatMap]
  rintro ⟨e, he, mem⟩
  rcases List.mem_cons.1 mem with same | deep
  · exact notHere (List.mem_map.2 ⟨e, he, same.symm⟩)
  · exact notInside (List.mem_flatMap.2 ⟨e, he, deep⟩)

/-- The ids of an entry stay apart from the others' when those inside it change. -/
lemma Given.changeInner {front back : List Entry} {e : Entry} {inner : List ℕ → List ℕ}
    {clock clock' : ℕ} (given : Given ((front ++ e :: back).flatMap Entry.ids) clock)
    (later : clock ≤ clock')
    (new : ∀ l, Given l clock → (inner l).Nodup ∧ ∀ i ∈ inner l, i ∈ l ∨ clock ≤ i ∧ i < clock') :
    (∀ mem ∈ front.flatMap Entry.ids, e.id ≠ mem) ∧
      Given (front.flatMap Entry.ids ++ (e.id :: inner e.inner ++ back.flatMap Entry.ids))
        clock' := by
  rw [List.flatMap_append, List.flatMap_cons, ← List.append_assoc] at given
  obtain ⟨⟨hf, own, apart⟩, -, -⟩ := (List.nodup_append.1 given.1).imp_left List.nodup_append.1
  rw [Entry.ids, List.nodup_cons] at own
  have below : ∀ i ∈ e.ids, i < clock := fun i mem =>
    given.2 i (List.mem_append_left _ (List.mem_append_right _ mem))
  obtain ⟨nodup, from'⟩ := new e.inner ⟨own.2, fun i mem => below i (.tail _ mem)⟩
  refine ⟨fun i mem same => apart i mem e.id List.mem_cons_self same.symm, ?_⟩
  rw [← List.append_assoc]
  refine given.replace later (List.nodup_cons.2 ⟨fun mem => ?_, nodup⟩) fun i mem => ?_
  · rcases from' _ mem with old | ⟨late, -⟩
    · exact own.1 old
    · exact Nat.not_lt.2 late (below e.id List.mem_cons_self)
  · rcases List.mem_cons.1 mem with rfl | mem
    · exact .inl List.mem_cons_self
    · exact (from' i mem).imp_left (List.mem_cons_of_mem _)

/-- A call that writes runs, on a document that shows a sheet. -/
lemma Represents.onRuns (rep : Represents flavor d s) {h : Handle} {answer : Answer}
    {write : List Run → List Run} {inner : List ℕ → List ℕ} {clock : ℕ}
    (hs : s.onRuns flavor h write inner clock = some (s', answer)) {g : Content → Content}
    (writes : ∀ c runs, items c = writeAll (content flavor runs) →
      items (g c) = writeAll (content flavor (write runs)))
    (inside : ∀ c, ids (g c) = inner (ids c)) (later : s.clock ≤ clock)
    (new : ∀ l, Given l s.clock → (inner l).Nodup ∧
      ∀ i ∈ inner l, i ∈ l ∨ s.clock ≤ i ∧ i < clock) :
    (d.resolve h = none ∧ answer = .gone ∧ s' = s) ∨
      ((d.resolve h).isSome ∧ answer = .handle h ∧
        Represents flavor { d.change h g with clock := clock } s') := by
  cases h with
  | root => cases hs
  | block id =>
    simp only [Sheet.onRuns] at hs
    split at hs
    · obtain ⟨entries, changed, same⟩ := Option.map_eq_some_iff.1 hs
      obtain ⟨rfl, rfl⟩ := Prod.mk.inj same
      obtain ⟨front, e, back, e', split, rfl, at_e, rfl⟩ := changeEntry_eq_some changed
      obtain ⟨b', withB, rfl⟩ := Option.map_eq_some_iff.1 at_e
      obtain ⟨runs, before, attrs, after⟩ := layout_withRuns withB
      have shows := rep.shows
      rw [split] at shows
      obtain ⟨front', x, back', root, hfront, ⟨c, rfl, held, ownIds⟩, hback⟩ := shows_split shows
      have given := rep.given
      rw [split] at given
      obtain ⟨apart, given⟩ := given.changeInner later new
      have notMem : e.id ∉ ids front' := by
        rw [shows_ids hfront]
        exact fun mem => apart e.id mem rfl
      have edited : (d.change (.block e.id) g).root =
          front' ++ .block e.id (layout flavor e.block).1 (g c) :: back' := by
        rw [Doc.change, root, edit_block_of_notMem notMem, Option.getD_some]
      refine .inr ⟨?_, rfl, ⟨?_, rfl, ?_⟩⟩
      · rw [Doc.resolve, root, find_block_of_notMem notMem]
        rfl
      · show List.Forall₂ (Shows flavor) (d.change (.block e.id) g).root _
        rw [edited]
        refine List.rel_append hfront (.cons ⟨g c, ?_, ?_, ?_⟩ hback)
        · rw [attrs]
        · rw [after]
          exact writes c runs (held.trans (congrArg writeAll before))
        · rw [inside, ownIds]
      · show Given (List.flatMap Entry.ids (front ++ _ :: back)) clock
        rw [List.flatMap_append, List.flatMap_cons]
        exact given
    · split at hs
      · cases hs
      · rename_i notHere notInside
        obtain ⟨rfl, rfl⟩ := Prod.mk.inj (Option.some.inj hs)
        exact .inl ⟨rep.resolve_eq_none notHere notInside, rfl, rfl⟩

end

/-! ## Appended text -/

lemma items_isEmpty (c : Content) : (items c).isEmpty = c.isEmpty := by
  cases c <;> simp

lemma endsWithXmlText_items (c : Content) : endsWithXmlText (items c) = endsWithBlock c := by
  rcases List.eq_nil_or_concat c with rfl | ⟨front, last, rfl⟩
  · simp [endsWithXmlText, endsWithBlock]
  · rw [List.concat_eq_append, items_append, items_cons, items_nil]
    simp only [endsWithXmlText, endsWithBlock, List.getLast?_concat, Option.any_some]
    cases last with
    | block id attrs content => simp [item, Cell.id?]
    | leaf x => cases x <;> simp [item, Cell.id?]

/-- Without identities, `append_text` is the one on items. -/
lemma items_appendText (s : String) (marker : Attrs) (c : Content) :
    items (appendText s marker c) = XmlText.appendText (items c) s.toList marker := by
  rw [appendText, XmlText.appendText, needsMarker, items_isEmpty, endsWithXmlText_items,
    items_append, items_chars]
  split <;> simp [item]

lemma ids_appendText (s : String) (marker : Attrs) (c : Content) :
    ids (appendText s marker c) = ids c := by
  have chars := ids_leaves (A := Attrs) (s.toList.map Leaf.char)
  rw [List.map_map] at chars
  have same : (s.toList.map fun c => .leaf (.char c) : Content) =
      s.toList.map (Cell.leaf ∘ Leaf.char) := rfl
  rw [appendText, ids_append, same, chars]
  split <;> simp

lemma content_append (flavor : Flavor) (runs more : List Run) :
    content flavor (runs ++ more) = content flavor runs ++ content flavor more :=
  List.flatMap_append

lemma writeAll_unlinked (flavor : Flavor) {run : Run} (alone : run.link = none) :
    writeAll (content flavor [run]) =
      .map (textAttributes run.bits) :: run.text.toList.map .char := by
  simp [content, alone, writeAll, Piece.write]

lemma writeAll_linked (flavor : Flavor) {run : Run} {url : String} (link : run.link = some url) :
    ∃ inside, writeAll (content flavor [run]) =
      [.text (linkAttributes flavor url run.title) inside] := by
  refine ⟨writeAll [.embed (textAttributes run.bits), .text run.text], ?_⟩
  simp [content, link, writeAll, Piece.write]

lemma writeAll_plainRun (flavor : Flavor) (s : String) :
    writeAll (content flavor [plainRun s]) =
      .map XmlText.textAttributes :: s.toList.map .char := by
  have bits : (plainRun s).bits = 0 := by simp [Run.bits, plainRun]
  have written : writeAll (content flavor [plainRun s]) = _ := writeAll_unlinked flavor rfl
  rw [written, bits]
  rfl

/-- A text at the end of runs is written as the runs with the text. -/
lemma appendText_content (flavor : Flavor) (s : String) (runs : List Run) :
    XmlText.appendText (writeAll (content flavor runs)) s.toList XmlText.textAttributes =
      writeAll (content flavor (addText s runs)) := by
  have marked : ∀ items : List Item, needsMarker items = true →
      XmlText.appendText items s.toList XmlText.textAttributes =
        items ++ writeAll (content flavor [plainRun s]) := by
    intro items needs
    rw [XmlText.appendText, if_pos needs, writeAll_plainRun, List.append_assoc]
    rfl
  rcases List.eq_nil_or_concat runs with rfl | ⟨front, last, rfl⟩
  · exact marked _ rfl
  · rw [List.concat_eq_append, addText, List.getLast?_concat, List.dropLast_concat]
    dsimp only
    have whole : writeAll (content flavor (front ++ [last])) =
        writeAll (content flavor front) ++ writeAll (content flavor [last]) := by
      rw [content_append, writeAll_append]
    by_cases linked : last.link.isSome = true
    · obtain ⟨url, link⟩ := Option.isSome_iff_exists.1 linked
      obtain ⟨inside, written⟩ := writeAll_linked flavor link
      have needs : needsMarker (writeAll (content flavor (front ++ [last]))) = true := by
        rw [whole, written]
        simp [needsMarker, endsWithXmlText]
      rw [if_pos linked, marked _ needs, content_append flavor (front ++ [last]), writeAll_append]
    · have link : last.link = none := Option.not_isSome_iff_eq_none.1 linked
      have written := writeAll_unlinked flavor link
      have longer : writeAll (content flavor [{ last with text := last.text ++ s }]) =
          .map (textAttributes last.bits) :: (last.text ++ s).toList.map .char :=
        writeAll_unlinked flavor link
      have needs : needsMarker (writeAll (content flavor (front ++ [last]))) = false := by
        rw [whole, written, needsMarker, Bool.or_eq_false_iff]
        refine ⟨by simp, ?_⟩
        rcases List.eq_nil_or_concat last.text.toList with none | ⟨cs, c, some⟩
        · simp [none, endsWithXmlText]
        · rw [some, List.concat_eq_append, List.map_append, List.map_cons, List.map_nil,
            ← List.cons_append, ← List.append_assoc, endsWithXmlText, List.getLast?_concat]
      rw [if_neg linked, XmlText.appendText, if_neg (by rw [needs]; exact Bool.false_ne_true)]
      rw [whole, written, content_append, writeAll_append, longer]
      simp

/-! ## The contents of Ruby's blocks do not nest too deep -/

lemma levels_append (ps qs : List Piece) : levels (ps ++ qs) = max (levels ps) (levels qs) := by
  induction ps with
  | nil => simp [levels]
  | cons p ps ih => simp [levels, ih, Nat.max_assoc]

lemma levels_content (flavor : Flavor) (runs : List Run) : levels (content flavor runs) ≤ 1 := by
  induction runs with
  | nil => simp [content, levels]
  | cons run runs ih =>
    have one : levels (pieces flavor run) ≤ 1 := by
      unfold pieces
      cases run.link <;> simp [levels, levelsOf]
    rw [content_cons, levels_append]
    omega

lemma levels_entries (flavor : Flavor) (items : List (List Run)) (value : ℕ) :
    levels (entries flavor value items) ≤ 2 := by
  induction items generalizing value with
  | nil => simp [entries, levels]
  | cons runs items ih =>
    have inside := levels_content flavor runs
    have rest := ih (value + 1)
    rw [entries, levels, levelsOf]
    omega

lemma levels_layout (flavor : Flavor) (b : NewBlock) : levels (layout flavor b).2 ≤ 2 := by
  cases b with
  | paragraph runs => exact Nat.le_succ_of_le (levels_content flavor runs)
  | heading tag runs => exact Nat.le_succ_of_le (levels_content flavor runs)
  | quote runs =>
    have inside := levels_content flavor runs
    cases flavor with
    | lexical => exact Nat.le_succ_of_le inside
    | lexxy =>
      simp only [layout, levels, levelsOf]
      omega
  | code language code => simp [layout, levels, levelsOf]
  | list ordered items => exact levels_entries flavor items 1

lemma not_tooDeep {ps : List Piece} (h : levels ps ≤ 2) : ¬ tooDeep ps = true := by
  intro deep
  have more : 100 < levels ps := of_decide_eq_true deep
  omega

/-! ## The document follows the sheet -/

section

variable {flavor : Flavor} {d : Doc} {s s' : Sheet} {answer : Answer}

/-- A block is put at its place. -/
lemma Represents.put (rep : Represents flavor d s) (place : ℤ) (b : NewBlock) :
    ∃ d', d.step (.insertXmlText .root place (layout flavor b).1 (layout flavor b).2) =
        (d', (s.put flavor place b).2) ∧ Represents flavor d' (s.put flavor place b).1 := by
  have all := shows_blocks rep.shows
  have length := rep.shows.length_eq
  obtain ⟨le, nodup, between⟩ := writePieces_ids (s.clock + 1) (layout flavor b).2
  have index : insertionIndex place d.root = Sequence.insertPlace place s.entries.length := by
    have le := Sequence.insertPlace_le place d.root.length
    rw [insertionIndex, length_blocks all, blockIndex_eq all, ← length]
    by_cases inside : Sequence.insertPlace place d.root.length < d.root.length
    · rw [if_pos inside, Option.getD_some]
    · rw [if_neg inside, Option.getD_none]
      omega
  set i := Sequence.insertPlace place s.entries.length with hi
  set new := writePieces (s.clock + 1) (layout flavor b).2 with hnew
  refine ⟨⟨d.root.take i ++ [.block s.clock (layout flavor b).1 new.1] ++ d.root.drop i, new.2⟩,
    ?_, ?_, rfl, ?_⟩
  · rw [Doc.step, if_neg (not_tooDeep (levels_layout flavor b))]
    simp only [Doc.resolve, Doc.change, writePiece, rep.clock, index]
    rfl
  · rw [List.append_assoc, List.singleton_append]
    refine List.rel_append (List.forall₂_take i rep.shows)
      (.cons ?_ (List.forall₂_drop i rep.shows))
    exact ⟨_, rfl, items_writePieces _ _, rfl⟩
  · have given := rep.given
    rw [← List.take_append_drop i s.entries, List.flatMap_append, ← List.append_nil (List.flatMap
      Entry.ids (s.entries.take i))] at given
    show Given (List.flatMap Entry.ids (s.entries.take i ++ _ :: s.entries.drop i)) new.2
    rw [List.flatMap_append, List.flatMap_cons, ← List.append_assoc]
    refine given.replace (by omega) (List.nodup_cons.2 ⟨fun mem => ?_, nodup⟩) fun j mem => ?_
    · have := between s.clock mem
      omega
    · refine .inr ?_
      rcases List.mem_cons.1 mem with rfl | mem
      · exact ⟨Nat.le_refl _, Nat.lt_of_succ_le le⟩
      · have := between j mem
        omega

/-- The block with a number goes. -/
lemma Represents.delete (rep : Represents flavor d s) {place : ℤ}
    (h : s.step flavor (.deleteBlock place) = some (s', answer)) :
    ∃ d', d.step (deleteBlock place) = (d', answer) ∧ Represents flavor d' s' := by
  have all := shows_blocks rep.shows
  have length := rep.shows.length_eq
  have index : deletionIndex place d.root = elementPlace place s.entries.length := by
    rw [deletionIndex, length_blocks all, length]
    cases found : elementPlace place s.entries.length with
    | none => rfl
    | some i =>
      have inside : i < s.entries.length := by
        simp only [elementPlace] at found
        split at found
        · obtain rfl := Option.some.inj found
          omega
        · cases found
      rw [Option.bind_some, blockIndex_eq all, length, if_pos inside]
  simp only [Sheet.step] at h
  simp only [deleteBlock, Doc.step, Doc.resolve, index]
  cases found : elementPlace place s.entries.length with
  | none =>
    rw [found] at h
    obtain ⟨rfl, rfl⟩ := Prod.mk.inj (Option.some.inj h)
    exact ⟨d, rfl, rep⟩
  | some i =>
    rw [found] at h
    obtain ⟨rfl, rfl⟩ := Prod.mk.inj (Option.some.inj h)
    refine ⟨_, rfl, ?_, rep.clock, ?_⟩
    · exact List.rel_append (List.forall₂_take i rep.shows) (List.forall₂_drop (i + 1) rep.shows)
    · have sub : ((s.entries.take i ++ s.entries.drop (i + 1)).flatMap Entry.ids).Sublist
          (s.entries.flatMap Entry.ids) := by
        refine List.Sublist.flatMap ?_ _
        rw [← List.eraseIdx_eq_take_drop_succ]
        exact List.eraseIdx_sublist _ _
      exact ⟨rep.given.1.sublist sub, fun j mem => rep.given.2 j (sub.subset mem)⟩

/-- Runs are written into a block. -/
lemma Represents.write (rep : Represents flavor d s) {h : Handle} {runs : List Run} (clear : Bool)
    {write : List Run → List Run} {inner : List ℕ → List ℕ}
    (hs : s.onRuns flavor h write inner (writePieces s.clock (content flavor runs)).2 =
      some (s', answer))
    (writes : ∀ own, write own = (if clear then [] else own) ++ runs)
    (inside : ∀ own, inner own =
      (if clear then [] else own) ++ ids (writePieces s.clock (content flavor runs)).1) :
    ∃ d', d.step (.writeContent h (content flavor runs) clear) = (d', answer) ∧
      Represents flavor d' s' := by
  obtain ⟨le, nodup, between⟩ := writePieces_ids s.clock (content flavor runs)
  have shallow := not_tooDeep (Nat.le_succ_of_le (levels_content flavor runs))
  set new := writePieces s.clock (content flavor runs) with hnew
  have found := rep.onRuns hs (g := fun c => (if clear then [] else c) ++ new.1) ?_ ?_ le ?_
  · simp only [Doc.step, if_neg shallow, rep.clock]
    rcases found with ⟨none, rfl, rfl⟩ | ⟨some, rfl, rep'⟩
    · rw [none]
      exact ⟨d, rfl, rep⟩
    · obtain ⟨c, there⟩ := Option.isSome_iff_exists.1 some
      rw [there]
      exact ⟨_, rfl, rep'⟩
  · intro c own held
    rw [writes, items_append, items_writePieces, content_append, writeAll_append]
    cases clear with
    | true => simp [content, writeAll]
    | false => simp [held]
  · intro c
    rw [inside, ids_append]
    cases clear with
    | true => simp
    | false => simp
  · intro l old
    rw [inside]
    cases clear with
    | true =>
      rw [if_pos rfl, List.nil_append]
      exact ⟨nodup, fun i mem => .inr (between i mem)⟩
    | false =>
      rw [if_neg Bool.false_ne_true]
      refine ⟨List.nodup_append.2 ⟨old.1, nodup, fun i hi j hj same => ?_⟩, fun i mem => ?_⟩
      · have := old.2 i hi
        have := between j hj
        omega
      · exact (List.mem_append.1 mem).imp_right (between i)

/-- A text is appended to a block. -/
lemma Represents.appendText (rep : Represents flavor d s) {h : Handle} {text : String}
    (hs : s.onRuns flavor h (addText text) id s.clock = some (s', answer)) :
    ∃ d', d.step (appendPlain h text) = (d', answer) ∧ Represents flavor d' s' := by
  have found := rep.onRuns hs (g := InPlace.appendText text XmlText.textAttributes) ?_ ?_
    (Nat.le_refl _) ?_
  · simp only [appendPlain, Doc.step]
    rcases found with ⟨none, rfl, rfl⟩ | ⟨some, rfl, rep'⟩
    · rw [none]
      exact ⟨d, rfl, rep⟩
    · obtain ⟨c, there⟩ := Option.isSome_iff_exists.1 some
      rw [there]
      refine ⟨_, rfl, ?_⟩
      have clock : (d.change h (InPlace.appendText text XmlText.textAttributes)).clock =
          s.clock := by
        rw [← rep.clock]
        cases h <;> rfl
      rwa [← clock] at rep'
  · intro c own held
    rw [items_appendText, held, appendText_content]
  · exact fun c => ids_appendText text _ c
  · exact fun l old => ⟨old.1, fun i mem => .inl mem⟩

/-- A call on a document that shows a sheet is the call on the sheet. -/
lemma Represents.step (rep : Represents flavor d s) {edit : Edit}
    (h : s.step flavor edit = some (s', answer)) :
    ∃ d', d.step (edit.call flavor) = (d', answer) ∧ Represents flavor d' s' := by
  cases edit with
  | append b =>
    obtain ⟨rfl, rfl⟩ := Prod.mk.inj (Option.some.inj h)
    exact rep.put (-1) b
  | insertParagraph place runs =>
    obtain ⟨rfl, rfl⟩ := Prod.mk.inj (Option.some.inj h)
    exact rep.put place (.paragraph runs)
  | replaceRuns b runs =>
    simp only [Sheet.step] at h
    exact rep.write true h (fun own => by simp) fun own => by simp
  | writeRuns b runs =>
    simp only [Sheet.step] at h
    exact rep.write false h (fun own => by simp) fun own => by simp
  | appendText b text => exact rep.appendText h
  | deleteBlock place => exact rep.delete h

lemma Represents.run (rep : Represents flavor d s) {edits : List Edit} {answers : List Answer}
    (h : s.run flavor edits = some (s', answers)) :
    ∃ d', d.run (edits.map (Edit.call flavor)) = (d', answers) ∧ Represents flavor d' s' := by
  induction edits generalizing d s answers with
  | nil =>
    obtain ⟨rfl, rfl⟩ := Prod.mk.inj (Option.some.inj h)
    exact ⟨d, rfl, rep⟩
  | cons edit edits ih =>
    obtain ⟨⟨t, answer⟩, one, rest⟩ := Option.bind_eq_some_iff.1 h
    obtain ⟨⟨r, more⟩, run, same⟩ := Option.map_eq_some_iff.1 rest
    obtain ⟨rfl, rfl⟩ := Prod.mk.inj same
    obtain ⟨e, stepped, rep'⟩ := rep.step one
    obtain ⟨d', ran, rep''⟩ := ih rep' run
    exact ⟨d', by rw [List.map_cons, Doc.run, stepped, ran], rep''⟩

end

/-! ## Rendering -/

lemma append_eq_push (flavor : Flavor) (root : List Item) (b : NewBlock) :
    Writer.append flavor root b = pushXmlText root (layout flavor b).1 (layout flavor b).2 := by
  cases b with
  | quote runs => cases flavor <;> rfl
  | _ => rfl

/-- A document of a sheet looks as if the blocks had been appended in their order. -/
lemma items_shows {flavor : Flavor} {xs : Content} {es : List Entry}
    (h : List.Forall₂ (Shows flavor) xs es) (root : List Item) :
    (es.map Entry.block).foldl (Writer.append flavor) root = root ++ items xs := by
  induction h generalizing root with
  | nil => simp
  | @cons x e xs es head _ ih =>
    obtain ⟨content, rfl, held, -⟩ := head
    rw [List.map_cons, List.foldl_cons, ih, append_eq_push, pushXmlText, Piece.write, ← held,
      List.append_assoc, items_cons, item]
    rfl

/-- What a sheet renders as. -/
def Sheet.markup (flavor : Flavor) (s : Sheet) : String :=
  String.join (s.entries.map fun e => blockMarkup flavor e.block)

/-- **Edits render as what they say.**  In any run of calls on a new document that a sheet has
answers to, the calls return what the sheet says, and the document renders as the blocks of the
sheet, in their order and with their texts joined: what was appended to a block, replaced, put
between two blocks or removed shows just so. -/
theorem edits_render (flavor : Flavor) (F : Foreign) (decode : String → Dict Value)
    (toS : Value → String) (ints : ∀ n : ℤ, toS (.int n) = toString n) (edits : List Edit)
    {s : Sheet} {answers : List Answer} (h : Sheet.run flavor ⟨[], 0⟩ edits = some (s, answers))
    (reads : ∀ e ∈ s.entries, ∀ n ∈ itemNumbers e.block, flavor = .lexxy →
      Reads F.toJson decode (listItemAttributes .lexxy n)) :
    (Doc.run ⟨[], 0⟩ (edits.map (Edit.call flavor))).2 = answers ∧
      toHtml flavor F decode toS
          (items (Doc.run ⟨[], 0⟩ (edits.map (Edit.call flavor))).1.root) =
        some (some (s.markup flavor)) := by
  have start : Represents flavor ⟨[], 0⟩ ⟨[], 0⟩ :=
    ⟨.nil, rfl, List.nodup_nil, fun i mem => absurd mem List.not_mem_nil⟩
  obtain ⟨d, ran, rep⟩ := start.run h
  have root : items d.root = (s.entries.map Entry.block).foldl (Writer.append flavor) [] := by
    rw [items_shows rep.shows, List.nil_append]
  obtain ⟨html, shaped⟩ := @Markdown.blocksHtml_foldl flavor F decode toS ints
    (s.entries.map Entry.block) [] fun b hb => by
      obtain ⟨e, he, rfl⟩ := List.mem_map.1 hb
      exact reads e he
  have shaped' : isLexicalShaped (children
      ((s.entries.map Entry.block).foldl (Writer.append flavor) [])) = true := by
    by_cases none : s.entries.map Entry.block = []
    · rw [none]
      rfl
    · exact shaped none
  have empty : blocksHtml flavor F decode toS [] = some "" := rfl
  rw [ran, root, toHtml_eq shaped', html, empty, Sheet.markup]
  simp [Function.comp_def]

/-- A bold paragraph, one put before it and removed again, and a text for each. -/
def boldEdits : List Edit :=
  [.append (.paragraph [boldRun "a"]), .insertParagraph 0 [plainRun "b"],
    .appendText (.block 0) "c", .deleteBlock 0, .appendText (.block 1) "d"]

theorem edits_render_bold :
    (Doc.run ⟨[], 0⟩ (boldEdits.map (Edit.call .lexical))).2 =
        [.handle (.block 0), .handle (.block 1), .handle (.block 0), .found true, .gone] ∧
      toHtml .lexical plainForeign (fun _ => itemValues) writeInt
          (items (Doc.run ⟨[], 0⟩ (boldEdits.map (Edit.call .lexical))).1.root) =
        some (some (Sheet.markup .lexical
          ⟨[⟨0, [], .paragraph [{ boldRun "a" with text := "a" ++ "c" }]⟩], 2⟩)) :=
  edits_render .lexical plainForeign (fun _ => itemValues) writeInt (fun _ => rfl) boldEdits rfl
    fun _ _ _ _ same => Flavor.noConfusion same

end InPlace

end Writer

end Yrby
