import Yrby.Render.LexicalHtml

/-!
# Writing into a block (`xml_text.rs`)

A block holds characters and embeds: maps (the markers of text nodes, tabs and linebreaks), nested
blocks and decorator elements.  A Lexical editor keeps a character only behind the marker of a text
node, and the one tab character of a tab node behind its map (`Kept`).

`append_text` writes a marker of its own only into an empty block and after a nested block.  After a
linebreak, a tab or a decorator its text has no marker.
-/

namespace Yrby

namespace XmlText

open HtmlCore LexicalHtml

/-- One element of a block. -/
inductive Item
  | char (c : Char)
  | map (attrs : Attrs)
  | text (attrs : Attrs) (content : List Item)
  | element (attrs : Attrs)
  | other

/-! ## Lexical's rule -/

/-- The nearest embed before a place, as far as a character there may stand behind it. -/
inductive Nearest
  /-- The marker of a text node. -/
  | marker
  /-- The map of a tab node, whose character is still to come. -/
  | tab
  /-- Another embed, or none. -/
  | other
  deriving DecidableEq

/-- What a map opens.  All maps but linebreaks and tabs belong to text nodes. -/
def opens (attrs : Attrs) : Nearest :=
  match typeOf attrs with
  | "linebreak" => .other
  | "tab" => .tab
  | _ => .marker

def Nearest.next (n : Nearest) : Item → Nearest
  | .char _ => if n = .tab then .other else n
  | .map attrs => opens attrs
  | _ => .other

/-- The nearest embed before the end of a block's content. -/
def nearest (content : List Item) : Nearest := content.foldl Nearest.next .other

/-- A character may stand behind this embed. -/
def Nearest.Keeps : Nearest → Char → Prop
  | .marker, _ => True
  | .tab, c => c = '\t'
  | .other, _ => False

/-- Every character stands behind its embed, from this one on. -/
def Kept : Nearest → List Item → Prop
  | _, [] => True
  | n, .char c :: items => n.Keeps c ∧ Kept (n.next (.char c)) items
  | n, item :: items => Kept (n.next item) items

/-- A string may stand behind this embed. -/
def Nearest.Accepts : Nearest → List Char → Prop
  | _, [] => True
  | .marker, _ => True
  | .tab, text => text = ['\t']
  | .other, _ => False

/-! ## Appending -/

def endsWithXmlText (content : List Item) : Bool :=
  match content.getLast? with
  | some (.text _ _) => true
  | _ => false

/-- The block is empty or ends with a nested block. -/
def needsMarker (content : List Item) : Bool := content.isEmpty || endsWithXmlText content

/-- `append_text` -/
def appendText (content : List Item) (text : List Char) (marker : Attrs) : List Item :=
  (if needsMarker content then content ++ [.map marker] else content) ++ text.map .char

/-- The marker `Y::Lexical.append_text` passes. -/
def textAttributes : Attrs :=
  [("__type", .any (.string "text")), ("__format", .any (.int 0)), ("__style", .any (.string "")),
    ("__mode", .any (.int 0)), ("__detail", .any (.int 0))]

/-- The embed that appended text stands behind. -/
def behind (content : List Item) (marker : Attrs) : Nearest :=
  if needsMarker content then opens marker else nearest content

lemma kept_append (n : Nearest) (items more : List Item) :
    Kept n (items ++ more) ↔ Kept n items ∧ Kept (items.foldl Nearest.next n) more := by
  induction items generalizing n with
  | nil => simp [Kept]
  | cons item items ih =>
    cases item <;> simp [Kept, ih, and_assoc]

lemma kept_chars (n : Nearest) (text : List Char) :
    Kept n (text.map .char) ↔ n.Accepts text := by
  induction text generalizing n with
  | nil => cases n <;> simp [Kept, Nearest.Accepts]
  | cons c text ih =>
    rw [List.map_cons, Kept, ih]
    cases n with
    | marker => cases text <;> simp [Nearest.Keeps, Nearest.next, Nearest.Accepts]
    | tab => cases text <;> simp [Nearest.Keeps, Nearest.next, Nearest.Accepts]
    | other => simp [Nearest.Keeps, Nearest.Accepts]

/-- What was there stays, and the text comes last. -/
lemma appendText_eq (content : List Item) (text : List Char) (marker : Attrs) :
    ∃ front, (front = [] ∨ front = [.map marker]) ∧
      appendText content text marker = content ++ front ++ text.map .char := by
  unfold appendText
  by_cases h : needsMarker content = true
  · exact ⟨[.map marker], .inr rfl, by rw [if_pos h]⟩
  · exact ⟨[], .inl rfl, by rw [if_neg h, List.append_nil]⟩

/-- Appended text is kept exactly when it stands behind an embed that keeps it: the marker written
with it, or else the nearest embed of the block. -/
theorem appendText_kept_iff (content : List Item) (text : List Char) (marker : Attrs)
    (kept : Kept .other content) :
    (Kept .other (appendText content text marker) ∧
        ∃ front, (front = [] ∨ front = [.map marker]) ∧
          appendText content text marker = content ++ front ++ text.map .char) ↔
      (behind content marker).Accepts text := by
  rw [and_iff_left (appendText_eq content text marker)]
  unfold appendText behind
  by_cases h : needsMarker content = true
  · rw [if_pos h, if_pos h, kept_append, kept_append, kept_chars, List.foldl_append]
    simp [kept, Kept, Nearest.next]
  · rw [if_neg h, if_neg h, kept_append, kept_chars]
    simp [kept, nearest]

/-- A paragraph that ends with a linebreak. -/
def lineEnd : List Item :=
  [.map textAttributes, .char 'a', .map [("__type", .any (.string "linebreak"))]]

theorem appendText_kept_iff_text :
    (Kept .other (appendText [.map textAttributes, .char 'a'] ['b'] textAttributes) ∧
        ∃ front, (front = [] ∨ front = [.map textAttributes]) ∧
          appendText [.map textAttributes, .char 'a'] ['b'] textAttributes =
            [.map textAttributes, .char 'a'] ++ front ++ ['b'].map .char) ↔
      (behind [.map textAttributes, .char 'a'] textAttributes).Accepts ['b'] :=
  appendText_kept_iff _ _ _ ⟨trivial, trivial⟩

/-- Text appended after a linebreak is dropped. -/
theorem appendText_lineEnd :
    Kept .other lineEnd ∧ ¬ Kept .other (appendText lineEnd ['b'] textAttributes) := by
  refine ⟨⟨trivial, trivial⟩, ?_⟩
  rintro ⟨-, dropped, -⟩
  exact dropped

end XmlText

end Yrby
