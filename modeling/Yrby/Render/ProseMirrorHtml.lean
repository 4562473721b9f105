import Yrby.Render.Walk

/-!
# The ProseMirror renderer

HTML for a document as the y-prosemirror binding stores it.  A node is an `XmlElement` whose tag is
the node type; text is an `XmlText` whose runs carry their marks as formatting attributes.

The runs of one text share the wrappers of equal marks: `renderRuns` keeps the wrappers that
adjacent runs have in common open, comparing the printed tags.  Inline content is rendered by
recursion, blocks are walked on an explicit stack.
-/

namespace Yrby

namespace ProseMirrorHtml

open HtmlCore Emitter

/-- One entry of a text's `diff`. -/
inductive TextDiff
  | run (s : Run) (marks : Option (Dict Value))
  | embed

inductive Node
  | element (tag : String) (attrs : Attrs) (children : List Node)
  | text (diffs : List TextDiff)
  /-- A nested fragment, as its `get_string`. -/
  | fragment (content : String)

structure XmlElement where
  tag : String
  attrs : Attrs
  children : List Node

def maxDepth : ℕ := 1024

def elementChildren (e : XmlElement) : List XmlElement :=
  e.children.filterMap fun c =>
    match c with
    | .element tag attrs children => some ⟨tag, attrs, children⟩
    | _ => none

/-- The types of the element children, for callback rules. -/
def elementChildTypes (e : XmlElement) : List String := (elementChildren e).map XmlElement.tag

def hasElementChild (e : XmlElement) : Bool := !(elementChildren e).isEmpty

def numAttr (attrs : Attrs) (name : String) : Option ℤ :=
  match attrs.get name with
  | some (.any (.int n)) => some n
  | some (.any (.float n)) => some n.toI64
  | _ => none

/-! ## Marks -/

/-- A mark is present and not claimed by a rule. -/
def has (rules : Rules) (marks : Dict Value) (keys : List String) : Bool :=
  keys.any fun k => marks.containsKey k && !rules.marks.containsKey k

def hexDigit (c : Char) : Option ℕ :=
  if c.isDigit then some (c.toNat - '0'.toNat)
  else if 'a' ≤ c ∧ c ≤ 'f' then some (c.toNat - 'a'.toNat + 10)
  else if 'A' ≤ c ∧ c ≤ 'F' then some (c.toNat - 'A'.toNat + 10)
  else none

/-- `u8::from_str_radix(_, 16)` of two characters; a leading plus sign is allowed. -/
def hexByte : Char → Char → Option ℕ
  | '+', b => hexDigit b
  | a, b =>
    match hexDigit a, hexDigit b with
    | some x, some y => some (16 * x + y)
    | _, _ => none

/-- A hex color as `rgb(r, g, b)`. -/
def hexToRgb (value : String) : Option String :=
  match value.toList with
  | '#' :: hex =>
    if !hex.all fun c => c.toNat < 128 then none
    else
      let bytes :=
        match hex with
        | [a, b, c] => some (hexByte a a, hexByte b b, hexByte c c)
        | [a, b, c, d, e, f] => some (hexByte a b, hexByte c d, hexByte e f)
        | _ => none
      match bytes with
      | some (some r, some g, some b) =>
        some ("rgb(" ++ toString r ++ ", " ++ toString g ++ ", " ++ toString b ++ ")")
      | _ => none
  | _ => none

/-- camelCase to kebab-case. -/
def kebab (key : String) : String :=
  .ofList (key.toList.flatMap fun ch => if ch.isUpper then ['-', ch.toLower] else [ch])

/-- The string values of a textStyle mark, by key. -/
def stylePairs (style : Dict Value) : List (String × String) :=
  (style.keys.filterMap fun k => (stringOf (style.get k)).map fun s => (k, s)).mergeSort
    fun a b => a.1 ≤ b.1

/-- The `style` of a textStyle mark. -/
def textStyleCss (style : Dict Value) : String :=
  (stylePairs style).foldl
    (fun css pair =>
      (if css.isEmpty then css else css ++ " ") ++ kebab pair.1 ++ ": " ++
        (hexToRgb pair.2).getD pair.2 ++ ";") ""

def linkSchemes : List String :=
  ["http", "https", "ftp", "ftps", "mailto", "tel", "callto", "sms", "cid", "xmpp"]

def unsafeHref (key v : String) : Bool :=
  key = "href" && (urlScheme v).any fun scheme => scheme ∉ linkSchemes

def linkKeys : List String := ["target", "rel", "class", "href", "title"]

/-- One attribute of a link mark, when it is a string. -/
def linkAttr (key : String) (value : Option Value) : String :=
  match stringOf value with
  | some v => " " ++ key ++ "=\"" ++ escapeAttr (if unsafeHref key v then "" else v) ++ "\""
  | none => ""

/-- The opening tag of a link mark. -/
def linkOpen (link : Dict Value) : String :=
  "<a" ++ String.join (linkKeys.map fun key => linkAttr key (link.get key)) ++ ">"

/-- A reference to an attribute of a custom mark. -/
def markRefAttr (value : Option Value) (name : String) : Option String :=
  (mapOf value).bind fun entries => (entries.get name).bind anyAttrString

def customAttr (attr : String) : Option String → String
  | some v => " " ++ attr ++ "=\"" ++ escapeAttr v ++ "\""
  | none => ""

/-- The opening tag of a custom mark. -/
def customMarkOpen (rule : MarkRule) (value : Option Value) : String :=
  let attrs := rule.attrs.map fun (attr, parts) =>
    customAttr attr (resolveParts parts (markRefAttr value))
  "<" ++ rule.tag ++ String.join attrs ++ ">"

/-- The names of the custom marks a run has, sorted.  A code run keeps only `code` and `link`. -/
def customNames (rules : Rules) (marks : Dict Value) : List String :=
  let code := marks.containsKey "code"
  (rules.marks.keys.filter fun name =>
    marks.containsKey name && (!code || name ∈ ["code", "link"])).mergeSort fun a b => a ≤ b

def tagPair (t : String) : String × String := ("<" ++ t ++ ">", "</" ++ t ++ ">")

/-- The span of a textStyle mark. -/
def styleStack (value : Option Value) : List (String × String) :=
  match mapOf value with
  | some style =>
    if (textStyleCss style).isEmpty then []
    else [("<span style=\"" ++ escapeAttr (textStyleCss style) ++ "\">", "</span>")]
  | none => []

/-- The formatting wrappers of a run, innermost first. -/
def formatStack (rules : Rules) (marks : Dict Value) : List (String × String) :=
  if has rules marks ["code"] then [tagPair "code"]
  else if !marks.containsKey "code" then
    (if has rules marks ["subscript", "sub"] then [tagPair "sub"]
      else if has rules marks ["superscript", "sup"] then [tagPair "sup"] else []) ++
    (if has rules marks ["highlight"] then [tagPair "mark"] else []) ++
    (if has rules marks ["underline", "u"] then [tagPair "u"] else []) ++
    (if has rules marks ["strike", "s"] then [tagPair "s"] else []) ++
    (if has rules marks ["italic", "em"] then [tagPair "em"] else []) ++
    (if has rules marks ["bold", "strong"] then [tagPair "strong"] else []) ++
    (if rules.marks.containsKey "textStyle" then [] else styleStack (marks.get "textStyle"))
  else []

/-- The link wrapper of a run. -/
def linkStack (rules : Rules) (value : Option Value) : List (String × String) :=
  if rules.marks.containsKey "link" then []
  else
    match mapOf value with
    | some link => [(linkOpen link, "</a>")]
    | none => []

/-- The custom wrappers of a run, innermost first. -/
def customStack (rules : Rules) (marks : Dict Value) : List (String × String) :=
  (customNames rules marks).filterMap fun name =>
    (rules.marks.get name).map fun rule =>
      (customMarkOpen rule (marks.get name), "</" ++ rule.tag ++ ">")

/-- A run's wrappers as opening and closing tags, outermost first. -/
def runStack (rules : Rules) : Option (Dict Value) → List (String × String)
  | none => []
  | some marks =>
    (formatStack rules marks ++ linkStack rules (marks.get "link") ++
      customStack rules marks).reverse

/-! ## Inline content -/

/-- How many wrappers two stacks share from the outside. -/
def shared (opened stack : List (String × String)) : ℕ :=
  ((opened.zip stack).takeWhile fun p => p.1 = p.2).length

def pushOpens (stack : List (String × String)) : Render Unit := stack.forM fun w => pushStr w.1

/-- Close wrappers, the innermost first. -/
def pushCloses (stack : List (String × String)) : Render Unit :=
  stack.reverse.forM fun w => pushStr w.2

variable (json : Json) (rules : Rules)

/-- The runs of a text, with these wrappers open. -/
def renderRuns : List (String × String) → List TextDiff → Render Unit
  | opened, [] => pushCloses opened
  | opened, .embed :: diffs => renderRuns opened diffs
  | opened, .run s marks :: diffs => do
    let stack := runStack rules marks
    pushCloses (opened.drop (shared opened stack))
    pushOpens (stack.drop (shared opened stack))
    pushStr (escapeText s.text)
    renderRuns stack diffs

def renderTextRuns (diffs : List TextDiff) : Render Unit := renderRuns rules [] diffs

/-- `<img>`. -/
def renderImage (attrs : Attrs) : Render Unit := do
  pushStr "<img"
  ["src", "alt", "title"].forM fun name =>
    match strAttr attrs name with
    | some v => pushAttr name v
    | none => pure ()
  push '>'

/-- What a callback on a node gets. -/
def deferredElement (e : XmlElement) : Deferred :=
  ⟨e.tag, xmlAttrsJson json e.attrs, elementChildTypes e⟩

/-- A rule node in inline position; a blocks content slot behaves like inline.  `body` renders the
content one level deeper. -/
def renderRuleInline (e : XmlElement) (rule : NodeRule) (depth : ℕ) (body : Render Unit) :
    Render Unit :=
  renderRuleNode (xmlRefAttr e.attrs) (deferredElement json e) rule fun content =>
    if content ≠ .none ∧ depth < maxDepth then body else pure ()

mutual

/-- A child of a text block. -/
def renderNode (depth : ℕ) : Node → Render Unit
  | .text diffs => renderTextRuns rules diffs
  | .element tag attrs children =>
    match rules.nodes.get tag with
    | some rule => renderRuleInline json ⟨tag, attrs, children⟩ rule depth
        (renderNodes (depth + 1) children)
    | none =>
      if tag ∈ ["hardBreak", "hard_break"] then pushStr "<br>"
      else if tag = "image" then renderImage attrs
      else if depth < maxDepth then renderNodes (depth + 1) children
      else pure ()
  | .fragment _ => pure ()

def renderNodes (depth : ℕ) : List Node → Render Unit
  | [] => pure ()
  | c :: cs => do
    renderNode depth c
    renderNodes depth cs

end

/-- Render a text block's inline content. -/
def renderInline (e : XmlElement) (depth : ℕ) : Render Unit :=
  renderNodes json rules depth e.children

/-! ## Blocks -/

/-- Text runs directly in a container. -/
def renderStrayText (e : XmlElement) : Render Unit :=
  e.children.forM fun c =>
    match c with
    | .text diffs => renderTextRuns rules diffs
    | _ => pure ()

/-- The child elements, above the depth cap. -/
def childBlocks (e : XmlElement) (depth : ℕ) : List XmlElement :=
  if depth < maxDepth then elementChildren e else []

/-- A container's stray text now, its child elements and its end tag for the stack. -/
def pushBlockChildren (e : XmlElement) (depth : ℕ) (close : String) :
    Render (List (Work XmlElement)) := do
  renderStrayText rules e
  pure ((childBlocks e depth).map (.open · (depth + 1)) ++ [.close close])

def renderContent (e : XmlElement) : Content → Render Unit
  | .inline => renderInline json rules e 0
  | .blocks => renderStrayText rules e
  | .none => pure ()

def contentBlocks (e : XmlElement) (depth : ℕ) (content : Content) : List XmlElement :=
  if content = .blocks then childBlocks e depth else []

/-- A block with a rule. -/
def openRuleBlock (e : XmlElement) (rule : NodeRule) (depth : ℕ) :
    Render (List (Work XmlElement)) :=
  openRuleNode (xmlRefAttr e.attrs) (deferredElement json e) rule (renderContent json rules e)
    fun content => (contentBlocks e depth content).map (.open · (depth + 1))

def openContainer (e : XmlElement) (depth : ℕ) (opening close : String) :
    Render (List (Work XmlElement)) := do
  pushStr opening
  pushBlockChildren rules e depth close

/-- A table cell, with its spans. -/
def openCell (e : XmlElement) (depth : ℕ) (tag close : String) :
    Render (List (Work XmlElement)) := do
  push '<'
  pushStr tag
  pushStr " colspan=\""
  pushStr (toString ((numAttr e.attrs "colspan").getD 1))
  pushStr "\" rowspan=\""
  pushStr (toString ((numAttr e.attrs "rowspan").getD 1))
  pushStr "\">"
  pushBlockChildren rules e depth close

/-- A heading's level as its digit. -/
def headingDigit (e : XmlElement) : Char :=
  let level := max 1 (min 6 ((numAttr e.attrs "level").getD 1))
  ['1', '2', '3', '4', '5', '6'].getD (level - 1).toNat '1'

/-- The opening tag of an ordered list. -/
def orderedOpen (e : XmlElement) : String :=
  match numAttr e.attrs "start" with
  | some start => if start ≠ 1 then "<ol start=\"" ++ toString start ++ "\">" else "<ol>"
  | none => "<ol>"

/-- The text of a code block, without marks. -/
def codeText (e : XmlElement) : String :=
  String.join (e.children.flatMap fun c =>
    match c with
    | .text diffs => diffs.filterMap fun d =>
        match d with
        | .run s _ => some s.text
        | .embed => none
    | _ => [])

def pushLanguage : Option String → Render Unit
  | some lang => do
    pushStr " class=\"language-"
    pushStr (escapeAttr lang)
    push '"'
  | none => pure ()

/-- An unknown block without child elements: a paragraph, when it has content. -/
def renderUnknownLeaf (e : XmlElement) : Render Unit :=
  renderParagraph (renderInline json rules e 0) ""

/-- The built-in spellings of a node type. -/
inductive Builtin
  | paragraph
  | heading
  | codeBlock
  | blockquote
  | bulletList
  | orderedList
  | listItem
  | table
  | tableRow
  | tableHeader
  | tableCell
  | horizontalRule
  | image
  | hardBreak
  deriving DecidableEq

def builtinOf : String → Option Builtin
  | "paragraph" => some .paragraph
  | "heading" => some .heading
  | "codeBlock" | "code_block" => some .codeBlock
  | "blockquote" => some .blockquote
  | "bulletList" | "bullet_list" => some .bulletList
  | "orderedList" | "ordered_list" => some .orderedList
  | "listItem" | "list_item" => some .listItem
  | "table" => some .table
  | "tableRow" | "table_row" => some .tableRow
  | "tableHeader" | "table_header" => some .tableHeader
  | "tableCell" | "table_cell" => some .tableCell
  | "horizontalRule" | "horizontal_rule" => some .horizontalRule
  | "image" => some .image
  | "hardBreak" | "hard_break" => some .hardBreak
  | _ => none

/-- Render one block.  A rule wins over the built-in arms. -/
def openBlock (e : XmlElement) (depth : ℕ) : Render (List (Work XmlElement)) :=
  match rules.nodes.get e.tag with
  | some rule => openRuleBlock json rules e rule depth
  | none =>
    match builtinOf e.tag with
    | some .paragraph => do
      pushStr "<p>"
      renderInline json rules e 0
      pushStr "</p>"
      pure []
    | some .heading => do
      pushStr "<h"
      push (headingDigit e)
      push '>'
      renderInline json rules e 0
      pushStr "</h"
      push (headingDigit e)
      push '>'
      pure []
    | some .codeBlock => do
      pushStr "<pre><code"
      pushLanguage ((strAttr e.attrs "language").filter fun l => !l.isEmpty)
      push '>'
      pushStr (escapeText (codeText e))
      pushStr "</code></pre>"
      pure []
    | some .blockquote => openContainer rules e depth "<blockquote>" "</blockquote>"
    | some .bulletList => openContainer rules e depth "<ul>" "</ul>"
    | some .orderedList => do
      pushStr (orderedOpen e)
      pushBlockChildren rules e depth "</ol>"
    | some .listItem => openContainer rules e depth "<li>" "</li>"
    | some .table => openContainer rules e depth "<table><tbody>" "</tbody></table>"
    | some .tableRow => openContainer rules e depth "<tr>" "</tr>"
    | some .tableHeader => openCell rules e depth "th" "</th>"
    | some .tableCell => openCell rules e depth "td" "</td>"
    | some .horizontalRule => do
      pushStr "<hr>"
      pure []
    | some .image => do
      renderImage e.attrs
      pure []
    | some .hardBreak => do
      pushStr "<br>"
      pure []
    | none =>
      if hasElementChild e then pushBlockChildren rules e depth ""
      else do
        renderUnknownLeaf json rules e
        pure []

/-! ## The walk terminates -/

mutual

/-- The nested elements of a node, each counted twice: for itself and for its end tag. -/
def Node.size : Node → ℕ
  | .element _ _ children => 2 + sizes children
  | _ => 0

def sizes : List Node → ℕ
  | [] => 0
  | c :: cs => c.size + sizes cs

end

def XmlElement.size (e : XmlElement) : ℕ := 2 + sizes e.children

/-- An element weighs more than all its child elements and an end tag. -/
lemma weight_elementChildren (e : XmlElement) (depth : ℕ) :
    weight XmlElement.size ((elementChildren e).map (Work.open · depth)) + 1 < e.size := by
  obtain ⟨tag, attrs, children⟩ := e
  suffices h : weight XmlElement.size
      ((elementChildren ⟨tag, attrs, children⟩).map (Work.open · depth)) ≤ sizes children by
    simp only [XmlElement.size]
    omega
  induction children with
  | nil => simp [elementChildren, weight]
  | cons c cs ih =>
    simp only [elementChildren] at ih
    cases c with
    | element tag' attrs' children' =>
      simp [elementChildren, weight, XmlElement.size, sizes, Node.size]
      omega
    | text diffs =>
      simp [elementChildren, sizes, Node.size]
      omega
    | fragment content =>
      simp [elementChildren, sizes, Node.size]
      omega

lemma weight_childBlocks (e : XmlElement) (depth depth' : ℕ) :
    weight XmlElement.size ((childBlocks e depth).map (Work.open · depth')) + 1 < e.size := by
  unfold childBlocks
  split
  · exact weight_elementChildren e depth'
  · have few := weight_elementChildren e 0
    simp only [List.map_nil, weight]
    omega

lemma weight_contentBlocks (e : XmlElement) (depth depth' : ℕ) (content : Content) :
    weight XmlElement.size ((contentBlocks e depth content).map (Work.open · depth')) + 1 <
      e.size := by
  have some := weight_childBlocks e depth depth'
  unfold contentBlocks
  split
  · exact some
  · simp only [List.map_nil, weight]
    omega

lemma weight_nil (e : XmlElement) :
    weight XmlElement.size ([] : List (Work XmlElement)) < e.size := by
  have some := weight_childBlocks e 0 0
  simp only [weight]
  omega

lemma pushBlockChildren_lighter (e : XmlElement) (depth : ℕ) (close : String) :
    Returns (fun ws => weight XmlElement.size ws < e.size)
      (pushBlockChildren rules e depth close) := by
  refine Returns.bind fun _ => Returns.pure ?_
  simpa [weight] using weight_childBlocks e depth (depth + 1)

lemma openContainer_lighter (e : XmlElement) (depth : ℕ) (opening close : String) :
    Returns (fun ws => weight XmlElement.size ws < e.size)
      (openContainer rules e depth opening close) :=
  Returns.bind fun _ => pushBlockChildren_lighter rules e depth close

lemma openCell_lighter (e : XmlElement) (depth : ℕ) (tag close : String) :
    Returns (fun ws => weight XmlElement.size ws < e.size)
      (openCell rules e depth tag close) := by
  refine Returns.bind fun _ => Returns.bind fun _ => Returns.bind fun _ => Returns.bind fun _ => ?_
  refine Returns.bind fun _ => Returns.bind fun _ => Returns.bind fun _ => ?_
  exact pushBlockChildren_lighter rules e depth close

/-- What a block leaves on the stack weighs less than the block. -/
lemma openBlock_lighter (e : XmlElement) (depth : ℕ) :
    Returns (fun ws => weight XmlElement.size ws < e.size) (openBlock json rules e depth) := by
  have leaf : ∀ x : Render Unit,
      Returns (fun ws => weight XmlElement.size ws < e.size) (do x; pure []) :=
    fun x => Returns.bind fun _ => Returns.pure (weight_nil e)
  have within : ∀ (x : Render Unit) (y : Render (List (Work XmlElement))),
      Returns (fun ws => weight XmlElement.size ws < e.size) y →
        Returns (fun ws => weight XmlElement.size ws < e.size) (do x; y) :=
    fun x y hy => Returns.bind fun _ => hy
  unfold openBlock
  split
  · exact openRuleNode_lighter (weight_contentBlocks e depth (depth + 1)) _ _ _ _
  · split
    case h_1 => exact within _ _ (within _ _ (leaf _))
    case h_2 =>
      exact within _ _ (within _ _ (within _ _ (within _ _ (within _ _ (within _ _ (leaf _))))))
    case h_3 => exact within _ _ (within _ _ (within _ _ (within _ _ (leaf _))))
    case h_4 => exact openContainer_lighter rules e depth _ _
    case h_5 => exact openContainer_lighter rules e depth _ _
    case h_6 => exact within _ _ (pushBlockChildren_lighter rules e depth _)
    case h_7 => exact openContainer_lighter rules e depth _ _
    case h_8 => exact openContainer_lighter rules e depth _ _
    case h_9 => exact openContainer_lighter rules e depth _ _
    case h_10 => exact openCell_lighter rules e depth _ _
    case h_11 => exact openCell_lighter rules e depth _ _
    case h_12 => exact leaf _
    case h_13 => exact leaf _
    case h_14 => exact leaf _
    case h_15 =>
      split
      · exact pushBlockChildren_lighter rules e depth _
      · exact leaf _

/-- The ProseMirror renderer's walk. -/
def walker : Walker XmlElement where
  size := XmlElement.size
  openBlock := openBlock json rules
  lighter := openBlock_lighter json rules _ _ _ _ _

/-! ## Documents -/

/-- An empty root, or one whose first child is an element that Lexical did not stamp. -/
def isProsemirrorShaped : List Node → Bool
  | .element _ attrs _ :: _ => !attrs.containsKey "__type"
  | _ :: _ => false
  | [] => true

def renderRoot : Node → Render Unit
  | .element tag attrs children => (walker json rules).renderBlockTree ⟨tag, attrs, children⟩
  | .text diffs => renderTextRuns rules diffs
  | .fragment content => pushStr (escapeText content)

/-- Render a root.  The outer `none` is a frame ended out of turn, or left over; the inner one is
a root of another schema. -/
def renderSegments (root : List Node) : Option (Option (List Segment)) :=
  if isProsemirrorShaped root then
    (emitted (root.forM (renderRoot json rules))).map some
  else some none

end ProseMirrorHtml

end Yrby
