import Yrby.Render.Walk
import Mathlib.Algebra.Group.Int.Defs
import Mathlib.Algebra.GroupWithZero.Nat
import Mathlib.Data.List.DropRight

/-!
# The Lexical renderer

HTML for a document as Lexical's Yjs binding stores it.  A block is an `XmlText` with a `__type`
attribute; its chunks are what yrs's `diff` lists: text runs, each after a metadata map, nested
`XmlText`s, and decorator elements.

Inline content is rendered by recursion on the chunks, with the format, style and tab state that
the last metadata map left (`RunState`).  Blocks are opened one at a time (`openBlock`) and walked
on an explicit stack.  A node with a rule is rendered by its rule.

yrs's `get_string`, which an over-deep link falls back to, and the JSON encoders are parameters
(`Foreign`).
-/

namespace Yrby

namespace LexicalHtml

open HtmlCore Emitter

/-- One entry of an `XmlText`'s `diff`. -/
inductive Chunk
  | map (attrs : Attrs)
  | run (s : Run)
  | text (attrs : Attrs) (chunks : List Chunk)
  | element (attrs : Attrs)
  | other

structure XmlText where
  attrs : Attrs
  chunks : List Chunk

/-- The third-party code a rendering calls. -/
structure Foreign extends Json where
  /-- `XmlTextRef::get_string` -/
  getString : XmlText → String

def maxBlockDepth : ℕ := 1024

def maxInlineDepth : ℕ := 1024

/-- A `__type` attribute, of a block, a decorator or a metadata map. -/
def typeOf (attrs : Attrs) : String := (strAttr attrs "__type").getD ""

def nodeType (t : XmlText) : String := typeOf t.attrs

def isBuiltin (ty : String) : Bool :=
  ty ∈ ["paragraph", "heading", "quote", "code", "list", "listitem", "table", "tablerow",
    "tablecell", "link", "autolink", "linebreak", "tab", "text", "horizontalrule"]

def isInlineType (ty : String) : Bool := ty ∈ ["link", "autolink"]

/-- The `XmlText` children that are blocks. -/
def blockChildren (t : XmlText) : List XmlText :=
  t.chunks.filterMap fun c =>
    match c with
    | .text attrs chunks => if isInlineType (typeOf attrs) then none else some ⟨attrs, chunks⟩
    | _ => none

/-- The types of the element and block children, for callback rules. -/
def textChildTypes (t : XmlText) : List String :=
  t.chunks.filterMap fun c =>
    match c with
    | .text attrs _ => some (typeOf attrs)
    | .element attrs => some (typeOf attrs)
    | _ => none

/-! ## Text runs -/

def fmtBold : ℕ := 1
def fmtItalic : ℕ := 2
def fmtStrikethrough : ℕ := 4
def fmtUnderline : ℕ := 8
def fmtCode : ℕ := 16
def fmtSubscript : ℕ := 32
def fmtSuperscript : ℕ := 64
def fmtHighlight : ℕ := 128

/-- The bit is set. -/
def hasFormat (format bit : ℕ) : Bool := format &&& bit ≠ 0

def trim (s : List Char) : List Char := (s.dropWhile isWhitespace).rdropWhile isWhitespace

/-- Keep the colors of a run's style. -/
def lexxyStyle (style : String) : Option String :=
  let css := (style.toList.splitOn ';').flatMap fun decl =>
    match splitOnce ':' decl with
    | none => []
    | some (prop, value) =>
      let prop := String.ofList (trim prop)
      let value := String.ofList (trim value)
      if (prop = "color" || prop = "background-color") && !value.isEmpty then
        (prop ++ ": " ++ value ++ ";").toList
      else []
  if css.isEmpty then none else some (.ofList css)

def formatWrap (inner tag : String) (style : Option String) : String :=
  match style with
  | some css => "<" ++ tag ++ " style=\"" ++ escapeAttr css ++ "\">" ++ inner ++ "</" ++ tag ++ ">"
  | none => "<" ++ tag ++ ">" ++ inner ++ "</" ++ tag ++ ">"

/-- The tag outside the semantic one, first match first. -/
def outerTag (format : ℕ) : Option String :=
  if hasFormat format fmtCode then some "code"
  else if hasFormat format fmtHighlight then some "mark"
  else if hasFormat format fmtSubscript then some "sub"
  else if hasFormat format fmtSuperscript then some "sup"
  else none

/-- One text run with its format bits, wrapped from the inside out. -/
def renderRun (text : String) (format : ℕ) (style : String) : String :=
  let html := escapeText text
  let css := lexxyStyle style
  let outer := outerTag format
  let innerStyle := if outer.isNone then css else none
  let html :=
    if hasFormat format fmtBold then formatWrap html "strong" innerStyle
    else if hasFormat format fmtItalic then formatWrap html "em" innerStyle
    else html
  let html :=
    match outer with
    | some tag => formatWrap html tag css
    | none => html
  let html :=
    if hasFormat format fmtItalic && hasFormat format fmtBold then formatWrap html "i" none
    else html
  let html := if hasFormat format fmtStrikethrough then formatWrap html "s" none else html
  if hasFormat format fmtUnderline then formatWrap html "u" none else html

/-- What the runs so far leave for the next one. -/
structure RunState where
  format : ℕ
  style : String
  isTab : Bool
  deriving DecidableEq

def RunState.init : RunState := ⟨0, "", false⟩

/-- A metadata map's format bits, as a `u32`. -/
def formatAttr (attrs : Attrs) : ℕ :=
  match attrs.get "__format" with
  | some (.any (.int n)) => (n % 2 ^ 32).toNat
  | some (.any (.float n)) => n.toU32
  | _ => 0

/-- The state after a chunk.  A map sets it for the run that follows, except a linebreak; a run
uses up a tab. -/
def RunState.next (run : RunState) : Chunk → RunState
  | .map attrs =>
    match typeOf attrs with
    | "linebreak" => run
    | "tab" => ⟨0, "", true⟩
    | _ => ⟨formatAttr attrs, (strAttr attrs "__style").getD "", false⟩
  | .run _ => if run.isTab then { run with isTab := false } else run
  | _ => run

/-! ## Inline content -/

def linkSchemes : List String := ["http", "https", "mailto", "sms", "tel"]

def safeHref (url : String) : String :=
  match urlScheme url with
  | some scheme => if scheme ∈ linkSchemes then url else "about:blank"
  | none => url

variable (F : Foreign) (rules : Rules)

/-- What a callback on a block or an inline node gets. -/
def deferredText (t : XmlText) : Deferred :=
  ⟨nodeType t, xmlAttrsJson F.toJson t.attrs, textChildTypes t⟩

def pushHref : Option String → Render Unit
  | some url => pushAttr "href" (safeHref url)
  | none => pure ()

/-- `link` and `autolink`.  `body` renders the link's own chunks one level deeper. -/
def renderLink (t : XmlText) (depth : ℕ) (body : Render Unit) : Render Unit := do
  pushStr "<a"
  pushHref (strAttr t.attrs "__url")
  pushOptionalAttr "title" ((strAttr t.attrs "__title").filter fun s => !s.isEmpty)
  push '>'
  (if depth < maxInlineDepth then body else pushStr (escapeText (F.getString t)))
  pushStr "</a>"

/-- A rule node in inline position; a blocks content slot behaves like inline. -/
def renderRuleInline (t : XmlText) (rule : NodeRule) (depth : ℕ) (body : Render Unit) :
    Render Unit :=
  renderRuleNode (xmlRefAttr t.attrs) (deferredText F t) rule fun content =>
    if content ≠ .none ∧ depth < maxInlineDepth then body else pure ()

/-- A decorator element rendered through a rule; content slots are ignored. -/
def renderRuleElement (attrs : Attrs) (rule : NodeRule) : Render Unit :=
  match rule with
  | .callback _ => emitDeferred ⟨typeOf attrs, xmlAttrsJson F.toJson attrs, []⟩ []
  | .declarative tag void slots text _ => do
    pushOpenTag tag slots (xmlRefAttr attrs)
    if void then pure ()
    else
      pushTemplate text (xmlRefAttr attrs)
      pushCloseTag tag

/-- A decorator element, at the root or inline. -/
def renderDecorator (attrs : Attrs) : Render Unit :=
  match rules.nodes.get (typeOf attrs) with
  | some rule => renderRuleElement F attrs rule
  | none => if typeOf attrs = "horizontalrule" then pushStr "<hr>" else pure ()

mutual

/-- The inline content of one chunk.  `ruledInline` says whether an `XmlText` of no core type is
rendered here; block children are not. -/
def renderChunk (depth : ℕ) (ruledInline : Bool) (run : RunState) : Chunk → Render Unit
  | .map attrs => if typeOf attrs = "linebreak" then pushStr "<br>" else pure ()
  | .run s =>
    if run.isTab then pushStr "<span>\t</span>"
    else pushStr (renderRun s.text run.format run.style)
  | .text attrs chunks =>
    let ty := typeOf attrs
    if isInlineType ty then
      match rules.nodes.get ty with
      | some rule => renderRuleInline F ⟨attrs, chunks⟩ rule depth
          (renderChunks (depth + 1) true .init chunks)
      | none => renderLink F ⟨attrs, chunks⟩ depth (renderChunks (depth + 1) true .init chunks)
    else if ruledInline && !isBuiltin ty then
      match rules.nodes.get ty with
      | some rule => renderRuleInline F ⟨attrs, chunks⟩ rule depth
          (renderChunks (depth + 1) true .init chunks)
      | none =>
        if depth < maxInlineDepth then renderChunks (depth + 1) ruledInline .init chunks
        else pure ()
    else pure ()
  | .element attrs => renderDecorator F rules attrs
  | .other => pure ()

def renderChunks (depth : ℕ) (ruledInline : Bool) (run : RunState) : List Chunk → Render Unit
  | [] => pure ()
  | c :: cs => do
    renderChunk depth ruledInline run c
    renderChunks depth ruledInline (run.next c) cs

end

/-- Render a block's inline content. -/
def renderInline (t : XmlText) (depth : ℕ) (ruledInline : Bool) : Render Unit :=
  renderChunks F rules depth ruledInline .init t.chunks

/-! ## Blocks -/

/-- A container's block children, with its end tag under them. -/
def pushBlockChildren (t : XmlText) (depth : ℕ) (close : String) (onlyLists : Bool) :
    List (Work XmlText) :=
  (if maxBlockDepth ≤ depth then []
    else (blockChildren t).filter fun child => !(onlyLists && nodeType child ≠ "list")).map
    (.open · (depth + 1)) ++ [.close close]

/-- The inline content of a rule block.  A block in blocks mode holds its own text beside its
nested blocks. -/
def renderContent (t : XmlText) : Content → Render Unit
  | .inline => renderInline F rules t 0 true
  | .blocks => renderInline F rules t 0 false
  | .none => pure ()

/-- The blocks of a rule block. -/
def contentBlocks (t : XmlText) (depth : ℕ) (content : Content) : List XmlText :=
  if content = .blocks ∧ depth < maxBlockDepth then blockChildren t else []

/-- A block with a rule. -/
def openRuleBlock (t : XmlText) (rule : NodeRule) (depth : ℕ) : Render (List (Work XmlText)) :=
  openRuleNode (xmlRefAttr t.attrs) (deferredText F t) rule (renderContent F rules t)
    fun content => (contentBlocks t depth content).map (.open · (depth + 1))

/-- A list item's number. -/
def itemValue (t : XmlText) : ℤ :=
  match t.attrs.get "__value" with
  | some (.any (.int n)) => n
  | some (.any (.float n)) => n.toI64
  | _ => 1

/-- A check list item's state. -/
def itemChecked (t : XmlText) : Option Bool :=
  match t.attrs.get "__checked" with
  | some (.any (.bool b)) => some b
  | _ => none

def pushChecked : Option Bool → Render Unit
  | some c => do
    pushStr " aria-checked=\""
    pushStr (if c then "true" else "false")
    push '"'
  | none => pure ()

/-- `<li>`: its inline content now, its nested lists from the stack. -/
def openListitem (t : XmlText) (depth : ℕ) : Render (List (Work XmlText)) := do
  pushStr "<li"
  pushChecked (itemChecked t)
  pushStr " value=\""
  pushStr (toString (itemValue t))
  push '"'
  push '>'
  renderInline F rules t 0 true
  pure (pushBlockChildren t depth "</li>" true)

/-- A heading's tag. -/
def headingTag (t : XmlText) : String :=
  match strAttr t.attrs "__tag" with
  | some tag => if tag ∈ ["h1", "h2", "h3", "h4", "h5", "h6"] then tag else "h1"
  | none => "h1"

def listTag (t : XmlText) : String := if strAttr t.attrs "__tag" = some "ol" then "ol" else "ul"

def isHeaderCell (t : XmlText) : Bool :=
  match t.attrs.get "__headerState" with
  | some (.any (.int n)) => n > 0
  | some (.any (.float n)) => n.positive
  | _ => false

/-- Render one block.  A rule wins over the built-in arms.  A container emits its opening tag now
and leaves its children and its end tag; a leaf renders in full. -/
def openBlock (t : XmlText) (depth : ℕ) : Render (List (Work XmlText)) :=
  match rules.nodes.get (nodeType t) with
  | some rule => openRuleBlock F rules t rule depth
  | none =>
    match nodeType t with
    | "paragraph" => do
      renderParagraph (renderInline F rules t 0 true) "<p><br></p>"
      pure []
    | "heading" => do
      push '<'
      pushStr (headingTag t)
      push '>'
      renderInline F rules t 0 true
      pushCloseTag (headingTag t)
      pure []
    | "quote" => do
      pushStr "<blockquote>"
      renderInline F rules t 0 true
      pushStr "</blockquote>"
      pure []
    | "code" => do
      pushStr "<pre"
      pushOptionalAttr "data-language"
        ((strAttr t.attrs "__language").filter fun l => !l.isEmpty)
      push '>'
      renderInline F rules t 0 true
      pushStr "</pre>"
      pure []
    | "list" => do
      push '<'
      pushStr (listTag t)
      push '>'
      renderInline F rules t 0 false
      pure (pushBlockChildren t depth (if listTag t = "ol" then "</ol>" else "</ul>") false)
    | "listitem" => openListitem F rules t depth
    | "table" => do
      pushStr "<table><tbody>"
      renderInline F rules t 0 false
      pure (pushBlockChildren t depth "</tbody></table>" false)
    | "tablerow" => do
      pushStr "<tr>"
      renderInline F rules t 0 false
      pure (pushBlockChildren t depth "</tr>" false)
    | "tablecell" => do
      pushStr (if isHeaderCell t then "<th>" else "<td>")
      renderInline F rules t 0 false
      pure (pushBlockChildren t depth (if isHeaderCell t then "</th>" else "</td>") false)
    | _ =>
      if !(blockChildren t).isEmpty then do
        renderInline F rules t 0 false
        pure (pushBlockChildren t depth "" false)
      else do
        renderParagraph (renderInline F rules t 0 true) ""
        pure []

/-! ## The walk terminates -/

mutual

/-- The nested texts of a chunk, each counted twice: for itself and for its end tag. -/
def Chunk.size : Chunk → ℕ
  | .text _ chunks => 2 + sizes chunks
  | _ => 0

def sizes : List Chunk → ℕ
  | [] => 0
  | c :: cs => c.size + sizes cs

end

def XmlText.size (t : XmlText) : ℕ := 2 + sizes t.chunks

/-- A node weighs more than all its block children and an end tag. -/
lemma weight_blockChildren (t : XmlText) (p : XmlText → Bool) (depth : ℕ) :
    weight XmlText.size (((blockChildren t).filter p).map (Work.open · depth)) + 1 < t.size := by
  obtain ⟨attrs, chunks⟩ := t
  suffices h : weight XmlText.size
      (((blockChildren ⟨attrs, chunks⟩).filter p).map (Work.open · depth)) ≤ sizes chunks by
    simp only [XmlText.size]
    omega
  induction chunks with
  | nil => simp [blockChildren, weight]
  | cons c cs ih =>
    have skip : weight XmlText.size
        (((blockChildren ⟨attrs, cs⟩).filter p).map (Work.open · depth)) ≤ sizes (c :: cs) := by
      rw [sizes]
      omega
    cases c with
    | text attrs' chunks' =>
      by_cases inl : isInlineType (typeOf attrs') = true
      · simpa [blockChildren, inl] using skip
      · by_cases keep : p ⟨attrs', chunks'⟩ = true
        · simp only [blockChildren] at ih
          simp [blockChildren, inl, keep, weight, XmlText.size, sizes, Chunk.size]
          omega
        · simpa [blockChildren, inl, keep] using skip
    | map attrs' => simpa [blockChildren] using skip
    | run s => simpa [blockChildren] using skip
    | element attrs' => simpa [blockChildren] using skip
    | other => simpa [blockChildren] using skip

lemma weight_children (t : XmlText) (depth : ℕ) :
    weight XmlText.size ((blockChildren t).map (Work.open · depth)) + 1 < t.size := by
  have all := weight_blockChildren t (fun _ => true) depth
  rwa [List.filter_true] at all

lemma weight_nil (t : XmlText) : weight XmlText.size ([] : List (Work XmlText)) < t.size := by
  have some := weight_children t 0
  simp only [weight]
  omega

lemma weight_pushBlockChildren (t : XmlText) (depth : ℕ) (close : String) (onlyLists : Bool) :
    weight XmlText.size (pushBlockChildren t depth close onlyLists) < t.size := by
  have some := weight_blockChildren t
    (fun child => !(onlyLists && nodeType child ≠ "list")) (depth + 1)
  have none := weight_nil t
  unfold pushBlockChildren
  split
  · have few := weight_children t 0
    simp only [List.map_nil, List.nil_append, weight]
    omega
  · simpa [weight, Nat.add_comm] using some

lemma weight_contentBlocks (t : XmlText) (depth depth' : ℕ) (content : Content) :
    weight XmlText.size ((contentBlocks t depth content).map (Work.open · depth')) + 1 <
      t.size := by
  unfold contentBlocks
  split
  · exact weight_children t depth'
  · have few := weight_children t 0
    simp only [List.map_nil, weight]
    omega

lemma openListitem_lighter (t : XmlText) (depth : ℕ) :
    Returns (fun ws => weight XmlText.size ws < t.size) (openListitem F rules t depth) := by
  refine Returns.bind fun _ => Returns.bind fun _ => Returns.bind fun _ => Returns.bind fun _ => ?_
  refine Returns.bind fun _ => Returns.bind fun _ => Returns.bind fun _ => ?_
  exact Returns.pure (weight_pushBlockChildren t depth "</li>" true)

/-- What a block leaves on the stack weighs less than the block. -/
lemma openBlock_lighter (t : XmlText) (depth : ℕ) :
    Returns (fun ws => weight XmlText.size ws < t.size) (openBlock F rules t depth) := by
  have leaf : ∀ x : Render Unit,
      Returns (fun ws => weight XmlText.size ws < t.size) (do x; pure []) :=
    fun x => Returns.bind fun _ => Returns.pure (weight_nil t)
  have container : ∀ (x : Render Unit) (close : String) (onlyLists : Bool),
      Returns (fun ws => weight XmlText.size ws < t.size)
        (do x; pure (pushBlockChildren t depth close onlyLists)) :=
    fun x close onlyLists =>
      Returns.bind fun _ => Returns.pure (weight_pushBlockChildren t depth close onlyLists)
  unfold openBlock
  split
  · exact openRuleNode_lighter (weight_contentBlocks t depth (depth + 1)) _ _ _ _
  · split
    case h_1 => exact leaf _
    case h_2 =>
      refine Returns.bind fun _ => Returns.bind fun _ => Returns.bind fun _ => ?_
      exact Returns.bind fun _ => leaf _
    case h_3 => exact Returns.bind fun _ => Returns.bind fun _ => leaf _
    case h_4 =>
      refine Returns.bind fun _ => Returns.bind fun _ => Returns.bind fun _ => ?_
      exact Returns.bind fun _ => leaf _
    case h_5 =>
      refine Returns.bind fun _ => Returns.bind fun _ => Returns.bind fun _ => ?_
      exact container _ _ _
    case h_6 => exact openListitem_lighter F rules t depth
    case h_7 => exact Returns.bind fun _ => container _ _ _
    case h_8 => exact Returns.bind fun _ => container _ _ _
    case h_9 => exact Returns.bind fun _ => container _ _ _
    case h_10 =>
      split
      · exact container _ _ _
      · exact leaf _

/-- The Lexical renderer's walk. -/
def walker : Walker XmlText where
  size := XmlText.size
  openBlock := openBlock F rules
  lighter := openBlock_lighter F rules _ _ _ _ _

/-! ## Documents -/

/-- A child of the root. -/
inductive RootNode
  | text (t : XmlText)
  | element (attrs : Attrs)
  /-- A nested fragment, as its `get_string`. -/
  | fragment (content : String)

/-- The child carries the attribute Lexical stamps on every node. -/
def isTyped : RootNode → Bool
  | .text t => t.attrs.containsKey "__type"
  | .element attrs => attrs.containsKey "__type"
  | .fragment _ => false

def isLexicalShaped (root : List RootNode) : Bool := root.isEmpty || root.any isTyped

def renderRoot : RootNode → Render Unit
  | .text t => (walker F rules).renderBlockTree t
  | .element attrs => renderDecorator F rules attrs
  | .fragment content => pushStr (escapeText content)

/-- Render a root.  The outer `none` is a frame ended out of turn, or left over; the inner one is
a root of another schema. -/
def renderSegments (root : List RootNode) : Option (Option (List Segment)) :=
  if isLexicalShaped root then
    (emitted (root.forM (renderRoot F rules))).map some
  else some none

end LexicalHtml

end Yrby
