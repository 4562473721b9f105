import Yrby.Framework.Outline
import Yrby.Writer.Blocks
import Yrby.Writer.Indexes

/-!
# Handles (`xml_text.rs`, `lexical_writer.rb`)

A `Y::XmlText` handle names a block by its identity, and every call of it looks the block up again,
in a transaction of its own.  A block that is gone raises from a write and is empty to a read.

`Doc.step` is one call of a handle.  A document is its root and the clock that the next identity
comes from; the calls of `Y::Lexical` are calls of the root's handle or of a block's.

Places are numbers of elements here, and indexes are not bounded; what a handle does with UTF-16
units and `u32`s is the business of `Sequence`.
-/

namespace Yrby

namespace Writer

namespace InPlace

open HtmlCore LexicalHtml XmlText Outline

/-! ## Documents -/

/-- What a block holds beside blocks. -/
inductive Leaf
  | char (c : Char)
  | map (attrs : Attrs)
  | element (attrs : Attrs)
  | other

/-- The content of a block. -/
abbrev Content := List (Cell Leaf Attrs)

/-- `BranchID` -/
inductive Handle
  | root
  | block (id : ℕ)
  deriving DecidableEq

/-- A root, and the identity of the next block. -/
structure Doc where
  root : Content
  clock : ℕ

/-- `resolve` -/
def Doc.resolve (d : Doc) : Handle → Option Content
  | .root => some d.root
  | .block id => find id d.root

/-- Change the block of a handle. -/
def Doc.change (d : Doc) (h : Handle) (f : Content → Content) : Doc :=
  match h with
  | .root => { d with root := f d.root }
  | .block id => { d with root := (edit id f d.root).getD d.root }

/-! ## Pieces -/

/-- `MAX_NESTING` -/
def maxNesting : ℕ := 100

mutual

def levelsOf : Piece → ℕ
  | .block _ content => levels content + 1
  | _ => 0

/-- How deep blocks nest in a content. -/
def levels : List Piece → ℕ
  | [] => 0
  | p :: ps => max (levelsOf p) (levels ps)

end

/-- `Piece::read_all` refuses the content. -/
def tooDeep (content : List Piece) : Bool := maxNesting < levels content

mutual

/-- `Piece::write` at the end of a block, and the clock after it. -/
def writePiece (clock : ℕ) : Piece → Content × ℕ
  | .text s => (s.toList.map fun c => .leaf (.char c), clock)
  | .embed attrs => ([.leaf (.map attrs)], clock)
  | .block attrs content =>
    let inside := writePieces (clock + 1) content
    ([.block clock attrs inside.1], inside.2)

/-- Pieces, one behind the other. -/
def writePieces (clock : ℕ) : List Piece → Content × ℕ
  | [] => ([], clock)
  | p :: ps =>
    let front := writePiece clock p
    let back := writePieces front.2 ps
    (front.1 ++ back.1, back.2)

end

/-! ## Calls of a handle -/

inductive Call
  /-- `insert_xml_text` -/
  | insertXmlText (h : Handle) (n : ℤ) (attrs : Attrs) (content : List Piece)
  /-- `append`, or with `clear` `replace` -/
  | writeContent (h : Handle) (content : List Piece) (clear : Bool)
  /-- `append_text` -/
  | appendText (h : Handle) (text : String) (marker : Attrs)
  /-- `delete_xml_text` -/
  | deleteXmlText (h : Handle) (n : ℤ)
  /-- `xml_text` -/
  | xmlText (h : Handle) (n : ℤ)
  /-- A peer's update comes in and leaves this root. -/
  | peer (root : Content) (clock : ℕ)

/-- What a call returns. -/
inductive Answer
  | handle (h : Handle)
  | nil
  | found (b : Bool)
  /-- "the block no longer exists" -/
  | gone
  /-- "blocks nest too deep (at most 100)" -/
  | tooDeep
  deriving DecidableEq

/-- `element_index` -/
def elementPlace (n : ℤ) (count : ℕ) : Option ℕ :=
  let place := Sequence.startPlace n count
  if 0 ≤ place ∧ place < count then some place.toNat else none

section

variable {L : Type}

/-- Where `insert_xml_text` puts its block: before the block that has the ordinal, or last. -/
def insertionIndex (n : ℤ) (content : List (Cell L Attrs)) : ℕ :=
  let ordinal := Sequence.insertPlace n (blocks content).length
  (blockIndex ordinal content).getD content.length

/-- The block that `delete_xml_text` removes. -/
def deletionIndex (n : ℤ) (content : List (Cell L Attrs)) : Option ℕ :=
  (elementPlace n (blocks content).length).bind fun ordinal => blockIndex ordinal content

/-- `remove_range` of one element -/
def removeOne (content : List (Cell L Attrs)) (i : ℕ) : List (Cell L Attrs) :=
  content.take i ++ content.drop (i + 1)

/-- The block that `xml_text` returns. -/
def nthBlock (n : ℤ) (content : List (Cell L Attrs)) : Option ℕ :=
  (elementPlace n (blocks content).length).bind fun ordinal => (blocks content)[ordinal]?

end

/-- `append_text` on the content of a block -/
def appendText (text : String) (marker : Attrs) (content : Content) : Content :=
  (if content.isEmpty || endsWithBlock content then content ++ [.leaf (.map marker)]
    else content) ++ text.toList.map fun c => .leaf (.char c)

/-- One call. -/
def Doc.step (d : Doc) : Call → Doc × Answer
  | .insertXmlText h n attrs content =>
    if tooDeep content then (d, .tooDeep) else
    match d.resolve h with
    | none => (d, .gone)
    | some _ =>
      let new := writePiece d.clock (.block attrs content)
      let put : Content → Content := fun c =>
        c.take (insertionIndex n c) ++ new.1 ++ c.drop (insertionIndex n c)
      ({ d.change h put with clock := new.2 }, .handle (.block d.clock))
  | .writeContent h content clear =>
    if tooDeep content then (d, .tooDeep) else
    match d.resolve h with
    | none => (d, .gone)
    | some _ =>
      let new := writePieces d.clock content
      let put : Content → Content := fun c => (if clear then [] else c) ++ new.1
      ({ d.change h put with clock := new.2 }, .handle h)
  | .appendText h text marker =>
    match d.resolve h with
    | none => (d, .gone)
    | some _ => (d.change h (appendText text marker), .handle h)
  | .deleteXmlText h n =>
    match d.resolve h with
    | none => (d, .gone)
    | some c =>
      match deletionIndex n c with
      | none => (d, .found false)
      | some i => (d.change h fun c => removeOne c i, .found true)
  | .xmlText h n =>
    match (d.resolve h).bind (nthBlock n) with
    | none => (d, .nil)
    | some id => (d, .handle (.block id))
  | .peer root clock => (⟨root, clock⟩, .nil)

/-- Calls, one after the other, with their answers. -/
def Doc.run (d : Doc) : List Call → Doc × List Answer
  | [] => (d, [])
  | c :: cs =>
    let next := d.step c
    let rest := next.1.run cs
    (rest.1, next.2 :: rest.2)

/-! ## The calls of `Y::Lexical` -/

/-- The attributes and the content of a new block. -/
def layout (flavor : Flavor) : NewBlock → Attrs × List Piece
  | .paragraph runs => (paragraphAttributes, content flavor runs)
  | .heading tag runs => (headingAttributes tag, content flavor runs)
  | .quote runs =>
    match flavor with
    | .lexical => (quoteAttributes, content flavor runs)
    | .lexxy => (quoteAttributes, [.block paragraphAttributes (content flavor runs)])
  | .code language code => (codeAttributes flavor language, [.embed codeTextAttributes, .text code])
  | .list ordered items => (listAttributes ordered, entries flavor 1 items)

/-- `append_paragraph`, `append_heading` and so on: `push_xml_text` on the root. -/
def append (flavor : Flavor) (b : NewBlock) : Call :=
  .insertXmlText .root (-1) (layout flavor b).1 (layout flavor b).2

/-- `insert_paragraph` -/
def insertParagraph (flavor : Flavor) (place : ℤ) (runs : List Run) : Call :=
  .insertXmlText .root place paragraphAttributes (content flavor runs)

/-- `replace_runs` -/
def replaceRuns (flavor : Flavor) (h : Handle) (runs : List Run) : Call :=
  .writeContent h (content flavor runs) true

/-- `write_runs` -/
def writeRuns (flavor : Flavor) (h : Handle) (runs : List Run) : Call :=
  .writeContent h (content flavor runs) false

/-- `append_text` of `Y::Lexical` -/
def appendPlain (h : Handle) (text : String) : Call := .appendText h text XmlText.textAttributes

/-- `delete_block` -/
def deleteBlock (place : ℤ) : Call := .deleteXmlText .root place

/-! ## Without identities -/

mutual

def item : Cell Leaf Attrs → Item
  | .leaf (.char c) => .char c
  | .leaf (.map attrs) => .map attrs
  | .leaf (.element attrs) => .element attrs
  | .leaf .other => .other
  | .block _ attrs content => .text attrs (items content)

/-- A content without the identities of its blocks. -/
def items : Content → List Item
  | [] => []
  | x :: xs => item x :: items xs

end

@[simp] lemma items_nil : items [] = [] := by
  rw [items]

@[simp] lemma items_cons (x : Cell Leaf Attrs) (xs : Content) :
    items (x :: xs) = item x :: items xs := by
  rw [items]

@[simp] lemma items_append (xs ys : Content) : items (xs ++ ys) = items xs ++ items ys := by
  induction xs with
  | nil => simp
  | cons x xs ih => simp [ih]

lemma items_chars (cs : List Char) :
    items (cs.map fun c => .leaf (.char c)) = cs.map .char := by
  induction cs with
  | nil => simp
  | cons c cs ih => simp [ih, item]

mutual

lemma items_writePiece (clock : ℕ) : ∀ p : Piece, items (writePiece clock p).1 = p.write
  | .text s => by rw [writePiece, items_chars, Piece.write]
  | .embed attrs => by simp [writePiece, Piece.write, item]
  | .block attrs content => by
    have inside := items_writePieces (clock + 1) content
    simp [writePiece, Piece.write, item, inside]

/-- Pieces are written as they are without identities. -/
lemma items_writePieces (clock : ℕ) : ∀ ps : List Piece,
    items (writePieces clock ps).1 = writeAll ps
  | [] => by simp [writePieces, writeAll]
  | p :: ps => by
    have front := items_writePiece clock p
    have back := items_writePieces (writePiece clock p).2 ps
    simp [writePieces, writeAll, front, back]

end

end InPlace

end Writer

end Yrby
