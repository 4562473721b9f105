import Yrby.Render.Transparent
import Yrby.Writer.XmlText

/-!
# Writing blocks from Ruby (`lexical_writer.rb`, `lexxy.rb`, `xml_text.rs`)

`Y::Lexical` and `Y::Lexxy` append blocks to a document.  Ruby lays a block out as pieces, Rust
writes the pieces into the root (`pushXmlText`), and what is stored there is what the renderer
reads: `chunks` is the `diff` of a block's content, in which characters that stand together are one
run.

The schema of `Y::Lexxy` is a rule set, `lexxyNodes`.  Ruby's `to_s` of a stored value is a
parameter.
-/

namespace Yrby

namespace Writer

open HtmlCore LexicalHtml XmlText RenderRules

/-! ## What is stored -/

/-- A character in front of the chunks after it. -/
def pushChar (c : Char) : List Chunk → List Chunk
  | .run s :: rest =>
    .run ⟨String.singleton c ++ s.text, by simp [s.nonempty]⟩ :: rest
  | rest => .run ⟨String.singleton c, by simp⟩ :: rest

mutual

def prependItem : Item → List Chunk → List Chunk
  | .char c, rest => pushChar c rest
  | .map attrs, rest => .map attrs :: rest
  | .text attrs content, rest => .text attrs (chunks content) :: rest
  | .element attrs, rest => .element attrs :: rest
  | .other, rest => .other :: rest

/-- The `diff` of a block's content. -/
def chunks : List Item → List Chunk
  | [] => []
  | item :: items => prependItem item (chunks items)

end

/-- The children of a root. -/
def children (root : List Item) : List RootNode :=
  root.filterMap fun item =>
    match item with
    | .text attrs content => some (.text ⟨attrs, chunks content⟩)
    | .element attrs => some (.element attrs)
    | _ => none

/-- A piece of a block's content. -/
inductive Piece
  | text (s : String)
  | embed (attrs : Attrs)
  | block (attrs : Attrs) (content : List Piece)

mutual

def Piece.write : Piece → List Item
  | .text s => s.toList.map .char
  | .embed attrs => [.map attrs]
  | .block attrs content => [.text attrs (writeAll content)]

/-- Pieces written one after the other. -/
def writeAll : List Piece → List Item
  | [] => []
  | p :: ps => p.write ++ writeAll ps

end

/-- `push_xml_text`: a block at the end. -/
def pushXmlText (root : List Item) (attrs : Attrs) (content : List Piece) : List Item :=
  root ++ (Piece.block attrs content).write

/-! ## Attributes -/

/-- The two classes. -/
inductive Flavor
  | lexical
  | lexxy
  deriving DecidableEq

def str (s : String) : Out := .any (.string s)

def num (n : ℤ) : Out := .any (.int n)

def null : Out := .any .null

def elementAttributes : Attrs :=
  [("__format", num 0), ("__style", str ""), ("__indent", num 0), ("__dir", null),
    ("__textFormat", num 0), ("__textStyle", str "")]

def paragraphAttributes : Attrs := ("__type", str "paragraph") :: elementAttributes

def headingAttributes (tag : String) : Attrs :=
  ("__type", str "heading") :: ("__tag", str tag) :: elementAttributes

def quoteAttributes : Attrs := ("__type", str "quote") :: elementAttributes

def codeAttributes (flavor : Flavor) (language : String) : Attrs :=
  match flavor with
  | .lexical => ("__type", str "code") :: ("__language", str language) :: elementAttributes
  | .lexxy =>
    ("__type", str "early_escape_code") :: ("__language", str language) :: elementAttributes ++
      [("__isSyntaxHighlightSupported", .any (.bool true))]

/-- A text node's marker. -/
def textMarker (type : String) (bits : ℕ) : Attrs :=
  [("__type", str type), ("__format", num bits), ("__style", str ""), ("__mode", num 0),
    ("__detail", num 0)]

def textAttributes (bits : ℕ) : Attrs := textMarker "text" bits

def codeTextAttributes : Attrs := textMarker "code-highlight" 0

def listAttributes (ordered : Bool) : Attrs :=
  ("__type", str "list") :: ("__tag", str (if ordered then "ol" else "ul")) ::
    ("__listType", str (if ordered then "number" else "bullet")) :: ("__start", num 1) ::
    elementAttributes

def listItemType : Flavor → String
  | .lexical => "listitem"
  | .lexxy => "early_escape_listitem"

def listItemAttributes (flavor : Flavor) (value : ℕ) : Attrs :=
  ("__type", str (listItemType flavor)) :: ("__value", num value) :: elementAttributes

def linkAttributes (flavor : Flavor) (url : String) (title : Option String) : Attrs :=
  ("__type", str "link") :: ("__url", str url) :: ("__target", null) ::
    ("__rel", match flavor with | .lexical => null | .lexxy => str "noreferrer") ::
    ("__title", match title with | some t => str t | none => null) :: elementAttributes

/-! ## Runs -/

/-- The keys of `FORMAT`. -/
inductive Format
  | bold
  | italic
  | strikethrough
  | underline
  | code
  deriving DecidableEq

/-- `FORMAT` -/
def Format.bit : Format → ℕ
  | .bold => 1
  | .italic => 2
  | .strikethrough => 4
  | .underline => 8
  | .code => 16

structure Run where
  text : String
  on : Format → Bool
  link : Option String
  title : Option String

/-- The bits of a run's formats. -/
def Run.bits (run : Run) : ℕ :=
  ([Format.bold, .italic, .strikethrough, .underline, .code].map fun f =>
    if run.on f then f.bit else 0).sum

/-- A text node per run, its marker then its text, and a link element around it for a run with a
link. -/
def content (flavor : Flavor) (runs : List Run) : List Piece :=
  runs.flatMap fun run =>
    let text : List Piece := [.embed (textAttributes run.bits), .text run.text]
    match run.link with
    | some url => [.block (linkAttributes flavor url run.title) text]
    | none => text

/-! ## Appending blocks -/

def appendParagraph (flavor : Flavor) (root : List Item) (runs : List Run) : List Item :=
  pushXmlText root paragraphAttributes (content flavor runs)

def appendHeading (flavor : Flavor) (root : List Item) (tag : String) (runs : List Run) :
    List Item :=
  pushXmlText root (headingAttributes tag) (content flavor runs)

/-- Lexxy puts a quote's text inside a paragraph. -/
def appendQuote (flavor : Flavor) (root : List Item) (runs : List Run) : List Item :=
  match flavor with
  | .lexical => pushXmlText root quoteAttributes (content flavor runs)
  | .lexxy =>
    pushXmlText root quoteAttributes [.block paragraphAttributes (content flavor runs)]

def appendCode (flavor : Flavor) (root : List Item) (language code : String) : List Item :=
  pushXmlText root (codeAttributes flavor language) [.embed codeTextAttributes, .text code]

/-- The items, numbered from a value on. -/
def entries (flavor : Flavor) : ℕ → List (List Run) → List Piece
  | _, [] => []
  | value, runs :: items =>
    .block (listItemAttributes flavor value) (content flavor runs) ::
      entries flavor (value + 1) items

def appendList (flavor : Flavor) (root : List Item) (ordered : Bool) (items : List (List Run)) :
    List Item :=
  pushXmlText root (listAttributes ordered) (entries flavor 1 items)

/-- What one call appends. -/
inductive NewBlock
  | paragraph (runs : List Run)
  | heading (tag : String) (runs : List Run)
  | quote (runs : List Run)
  | code (language code : String)
  | list (ordered : Bool) (items : List (List Run))

def append (flavor : Flavor) (root : List Item) : NewBlock → List Item
  | .paragraph runs => appendParagraph flavor root runs
  | .heading tag runs => appendHeading flavor root tag runs
  | .quote runs => appendQuote flavor root runs
  | .code language code => appendCode flavor root language code
  | .list ordered items => appendList flavor root ordered items

/-! ## The schema of Lexxy -/

section

variable (toS : Value → String)

/-- A stored attribute; `nil` when it is not there. -/
def Node.attr (node : RenderRules.Node) (name : String) : Option Value :=
  match node.attrs.get name with
  | some .null => none
  | some .undefined => none
  | v => v

def provisionalParagraph : Block := fun node =>
  some (if node.content.isEmpty then "" else "<p>" ++ node.content ++ "</p>")

def gallery : Block := fun node =>
  some ("<div class=\"attachment-gallery attachment-gallery--" ++
    toString node.childTypes.length ++ "\">" ++ node.content ++ "</div>")

def table : Block := fun node =>
  some ("<figure class=\"lexxy-content__table-wrapper\"><table><tbody>" ++ node.content ++
    "</tbody></table></figure>")

def isHeader (node : RenderRules.Node) : Bool :=
  match Node.attr node "__headerState" with
  | some (.int n) => n > 0
  | some (.bigInt n) => n > 0
  | some (.float n) => n.positive
  | _ => false

def tableCell : Block := fun node =>
  some (if isHeader node then
      "<th class=\"lexxy-content__table-cell--header\" " ++
        "style=\"background-color: rgb(242, 243, 245);\">" ++ node.content ++ "</th>"
    else "<td>" ++ node.content ++ "</td>")

/-- `node.attrs["__value"] || 1` -/
def itemNumber (node : RenderRules.Node) : Value :=
  match Node.attr node "__value" with
  | some (.bool false) => .int 1
  | some v => v
  | none => .int 1

def listItem : Block := fun node =>
  some ("<li" ++
    (match Node.attr node "__checked" with
      | some checked => " aria-checked=\"" ++ escapeAttr (toS checked) ++ "\""
      | none => "") ++
    " value=\"" ++ escapeAttr (toS (itemNumber node)) ++ "\"" ++
    (if "list" ∈ node.childTypes then " class=\"lexxy-nested-listitem\"" else "") ++
    ">" ++ node.content ++ "</li>")

/-- A stored `nil` is skipped; a stored empty string is not. -/
def attachmentAttr (node : RenderRules.Node) (htmlName stored : String) : String :=
  match Node.attr node stored with
  | some v => " " ++ htmlName ++ "=\"" ++ escapeAttr (toS v) ++ "\""
  | none => ""

def isAsciiLetter (c : Char) : Bool := ('a' ≤ c && c ≤ 'z') || ('A' ≤ c && c ≤ 'Z')

/-- The stored tag, when it looks like a tag name. -/
def attachmentTag (node : RenderRules.Node) : String :=
  let tag := match Node.attr node "tagName" with
    | some v => toS v
    | none => ""
  let valid := tag.toList.head?.any isAsciiLetter &&
    tag.toList.tail.all fun c => isAsciiLetter c || c.isDigit || c = '-'
  if valid then tag else "action-text-attachment"

def upload : Block := fun node =>
  let tag := attachmentTag toS node
  let previewable :=
    match Node.attr node "previewable" with
    | some (.bool true) => " previewable=\"true\""
    | _ => ""
  let rest := [("url", "src"), ("alt", "altText"), ("caption", "caption"),
    ("content-type", "contentType"), ("filename", "fileName"), ("filesize", "fileSize"),
    ("width", "width"), ("height", "height")].map fun pair => attachmentAttr toS node pair.1 pair.2
  some ("<" ++ tag ++ attachmentAttr toS node "sgid" "sgid" ++ previewable ++ String.join rest ++
    " presentation=\"gallery\"></" ++ tag ++ ">")

def mention : Block := fun node =>
  let tag := attachmentTag toS node
  some ("<" ++ tag ++ attachmentAttr toS node "sgid" "sgid" ++
    attachmentAttr toS node "content" "innerHtml" ++
    attachmentAttr toS node "content-type" "contentType" ++ "></" ++ tag ++ ">")

def pendingUpload : Block := fun _ => some ""

/-- `Y::Lexxy::NODES` -/
def lexxyNodes : Dict Rule :=
  [("quote", .declarative "blockquote" false [] none .blocks),
    ("early_escape_code",
      .declarative "pre" false [("data-language", [.ref "language"])] none .inline),
    ("horizontal_divider", .declarative "hr" true [] none .inline),
    ("provisonal_paragraph", .callback .inline provisionalParagraph),
    ("image_gallery", .callback .inline gallery),
    ("table", .callback .blocks table),
    ("wrapped_table_node", .callback .blocks table),
    ("tablecell", .callback .blocks tableCell),
    ("listitem", .callback .blocks (listItem toS)),
    ("early_escape_listitem", .callback .blocks (listItem toS)),
    ("action_text_attachment", .callback .inline (upload toS)),
    ("action_text_attachment_upload", .callback .inline pendingUpload),
    ("custom_action_text_attachment", .callback .inline (mention toS))]

/-- The rules that a class starts with. -/
def nodes : Flavor → Dict Rule
  | .lexical => []
  | .lexxy => lexxyNodes toS

end

/-- `to_html` of a document root, by the class that wrote it. -/
def toHtml (flavor : Flavor) (F : Foreign) (decode : String → Dict Value) (toS : Value → String)
    (root : List Item) : Option (Option String) :=
  LexicalHtml.toHtml F decode (nodes toS flavor) (children root)

end Writer

end Yrby
