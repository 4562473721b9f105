import Yrby.Render.Schema
import Yrby.Writer.Blocks

/-!
# The schemas of `Y::Tiptap` and `Y::Lexxy`

The two classes with callbacks of their own, as `Schema`s: each callback with the trees whose print
it writes.

Stored strings reach these callbacks as they are.  `Tiptap.reads_back` and
`Lexxy.reads_back_unless_raw` say that they stay strings: what a browser reads in the result are the
renderer's own tags, those of the application's declarative rules and the fixed ones of the schema.
The one tag that a document chooses is that of Lexxy's attachments.  It looks like a tag name; when
it is that of a raw-text element (`plaintext`, say) a browser does not read on.
-/

namespace Yrby

open HtmlCore RenderRules

/-! ## Attribute slots -/

/-- What a drawing has of a node. -/
def bare (attrs : Dict Value) (childTypes : List String) : RenderRules.Node :=
  ⟨"", attrs, "", childTypes⟩

section

variable (toS : Value → String)

/-- An attribute, unless the stored value is `nil`. -/
def storedSlot (name : String) (value : Option Value) : List Html.Attr :=
  value.toList.map fun v => ⟨name, toS v, false⟩

/-- ` name="value"` for a stored value, or nothing. -/
def storedAttr (name : String) (value : Option Value) : String :=
  match value with
  | some v => " " ++ name ++ "=\"" ++ escapeAttr (toS v) ++ "\""
  | none => ""

lemma print_storedSlot (name : String) (value : Option Value) :
    (storedSlot toS name value).flatMap Html.Attr.print = (storedAttr toS name value).toList := by
  cases value with
  | none => rfl
  | some v => simp [storedSlot, storedAttr, Html.Attr.print, Html.Attr.present, toList_escapeAttr]

lemma name_of_mem_storedSlot {name : String} {value : Option Value} {a : Html.Attr}
    (h : a ∈ storedSlot toS name value) : a.name = name := by
  obtain ⟨v, -, rfl⟩ := List.mem_map.mp h
  rfl

end

/-- A written attribute. -/
lemma print_slot (name value : String) : Html.Attr.print ⟨name, value, false⟩ =
    (" " ++ name ++ "=\"" ++ escapeAttr value ++ "\"").toList := by
  simp [Html.Attr.print, Html.Attr.present, toList_escapeAttr]

/-- The print of tags around a content that is printed. -/
lemma pieces_around {us : List Tree} {content before after : String} {opening closing : List Char}
    (printed : Html.pieces us = Html.chars content) (hopening : opening = before.toList)
    (hclosing : closing = after.toList) :
    opening.map .char ++ Html.pieces us ++ closing.map .char =
      Html.chars (before ++ content ++ after) := by
  rw [Html.chars_append, Html.chars_append, printed, hopening, hclosing]
  rfl

/-- An element around a content that is printed. -/
lemma pieces_elem {us : List Tree} {content before after tag : String} {slots : List Html.Attr}
    (printed : Html.pieces us = Html.chars content)
    (hopening : Html.openTag tag slots = before.toList)
    (hclosing : Html.closeTag tag = after.toList) :
    Html.pieces [.elem tag slots us] = Html.chars (before ++ content ++ after) := by
  rw [← pieces_around printed hopening hclosing, Html.pieces_cons, Html.pieces_nil,
    List.append_nil, Html.Tree.pieces]

/-! ## Tiptap -/

namespace Tiptap

variable (toS : Value → String)

/-- `node.attrs[name] == true` -/
def isTrue (node : RenderRules.Node) (name : String) : Bool :=
  match Writer.Node.attr node name with
  | some (.bool true) => true
  | _ => false

/-- `node.attrs[name] || other` -/
def attrOr (node : RenderRules.Node) (name : String) (other : Option Value) : Option Value :=
  match Writer.Node.attr node name with
  | some (.bool false) => other
  | some v => some v
  | none => other

/-- The data-checked flag, a label around the checkbox, and the item body in a div. -/
def taskItem : Block := fun node =>
  let checked := isTrue node "checked"
  some ("<li data-checked=\"" ++ (if checked then "true" else "false") ++
    "\" data-type=\"taskItem\">" ++ "<label><input type=\"checkbox\"" ++
    (if checked then " checked=\"checked\"" else "") ++ "><span></span></label><div>" ++
    node.content ++ "</div></li>")

/-- Data attributes when present, the suggestion character, and the label as the text. -/
def mention : Block := fun node =>
  let char := toS ((attrOr node "mentionSuggestionChar" none).getD (.string "@"))
  let text := toS ((attrOr node "label" (attrOr node "id" none)).getD (.string ""))
  some ("<span data-type=\"mention\"" ++ storedAttr toS "data-id" (Writer.Node.attr node "id") ++
    storedAttr toS "data-label" (Writer.Node.attr node "label") ++
    " data-mention-suggestion-char=\"" ++ escapeAttr char ++ "\">" ++ escapeText char ++
    escapeText text ++ "</span>")

def details : Block := fun node =>
  some ("<details" ++ (if isTrue node "open" then " open=\"open\"" else "") ++ ">" ++
    node.content ++ "</details>")

/-- `Y::Tiptap::NODES` -/
def nodes : Dict Rule :=
  [("taskList", .declarative "ul" false [("data-type", [.lit "taskList"])] none .blocks),
    ("taskItem", .callback .blocks taskItem),
    ("mention", .callback .inline (mention toS)),
    ("details", .callback .blocks details),
    ("detailsSummary", .declarative "summary" false [] none .inline),
    ("detailsContent",
      .declarative "div" false [("data-type", [.lit "detailsContent"])] none .blocks)]

/-! ### What the callbacks draw -/

def drawTaskItem : Drawing := fun attrs childTypes us =>
  let checked := isTrue (bare attrs childTypes) "checked"
  [.elem "li" [⟨"data-checked", if checked then "true" else "false", false⟩,
      ⟨"data-type", "taskItem", false⟩]
    [.elem "label" []
      [.void "input" (⟨"type", "checkbox", false⟩ ::
        if checked then [⟨"checked", "checked", false⟩] else []),
        .elem "span" [] []],
      .elem "div" [] us]]

def drawMention : Drawing := fun attrs childTypes _ =>
  let node := bare attrs childTypes
  let char := toS ((attrOr node "mentionSuggestionChar" none).getD (.string "@"))
  let text := toS ((attrOr node "label" (attrOr node "id" none)).getD (.string ""))
  [.elem "span" (⟨"data-type", "mention", false⟩ ::
      (storedSlot toS "data-id" (Writer.Node.attr node "id") ++
        storedSlot toS "data-label" (Writer.Node.attr node "label") ++
        [⟨"data-mention-suggestion-char", char, false⟩]))
    [.text char, .text text]]

def drawDetails : Drawing := fun attrs childTypes us =>
  [.elem "details" (if isTrue (bare attrs childTypes) "open" then [⟨"open", "open", false⟩] else [])
    us]

variable {toS}

lemma draws_taskItem : taskItem.Draws drawTaskItem := by
  intro node us out printed written
  obtain rfl := Option.some.inj written
  have same : isTrue (bare node.attrs node.childTypes) "checked" = isTrue node "checked" := rfl
  have around : ∀ slots boxSlots : List Html.Attr, Html.pieces [(.elem "li" slots
      [.elem "label" [] [.void "input" boxSlots, .elem "span" [] []], .elem "div" [] us] : Tree)] =
      (Html.openTag "li" slots ++ Html.openTag "label" [] ++ Html.openTag "input" boxSlots ++
        Html.openTag "span" [] ++ Html.closeTag "span" ++ Html.closeTag "label" ++
        Html.openTag "div" []).map .char ++ Html.pieces us ++
        (Html.closeTag "div" ++ Html.closeTag "li").map .char := by
    intro slots boxSlots
    simp only [Html.pieces_cons, Html.pieces_nil, Html.Tree.pieces, List.map_append,
      List.append_assoc, List.append_nil]
  rw [drawTaskItem, same, around]
  cases isTrue node "checked" with
  | true => exact pieces_around printed (by simp only [String.toList_append]; decide) (by decide)
  | false => exact pieces_around printed (by simp only [String.toList_append]; decide) (by decide)

lemma draws_mention : (mention toS).Draws (drawMention toS) := by
  intro node us out printed written
  obtain rfl := Option.some.inj written
  have same : ∀ name, Writer.Node.attr (bare node.attrs node.childTypes) name =
      Writer.Node.attr node name := fun _ => rfl
  have same' : ∀ name other, attrOr (bare node.attrs node.childTypes) name other =
      attrOr node name other := fun _ _ => rfl
  have type : Html.Attr.print ⟨"data-type", "mention", false⟩ =
      " data-type=\"mention\"".toList := by
    decide
  simp only [drawMention, same, same']
  simp [Html.Tree.pieces, Html.openTag, Html.closeTag, print_storedSlot, print_slot, type,
    Html.chars, toList_escapeText]

lemma draws_details : details.Draws drawDetails := by
  intro node us out printed written
  obtain rfl := Option.some.inj written
  have same : isTrue (bare node.attrs node.childTypes) "open" = isTrue node "open" := rfl
  rw [drawDetails, same]
  cases isTrue node "open" with
  | true => exact pieces_elem printed (by decide) (by decide)
  | false => exact pieces_elem printed (by decide) (by decide)

variable (toS)

/-- The schema of `Y::Tiptap`. -/
def schema : Schema :=
  [("taskList", .declarative "ul" false [("data-type", [.lit "taskList"])] none .blocks
      ⟨by decide, by decide, by decide⟩),
    ("taskItem", .callback .blocks taskItem drawTaskItem (fun _ => rfl) draws_taskItem),
    ("mention", .callback .inline (mention toS) (drawMention toS) (fun _ => rfl) draws_mention),
    ("details", .callback .blocks details drawDetails (fun _ => rfl) draws_details),
    ("detailsSummary", .declarative "summary" false [] none .inline
      ⟨by decide, by decide, by decide⟩),
    ("detailsContent",
      .declarative "div" false [("data-type", [.lit "detailsContent"])] none .blocks
        ⟨by decide, by decide, by decide⟩)]

lemma nodes_schema : (schema toS).nodes = nodes toS := rfl

/-! ### What is read in the result -/

/-- The void element of a task item. -/
def voids : List String := ["input"]

/-- The other elements that the callbacks write. -/
def tags : List String := ["li", "label", "span", "div", "details"]

/-- The attributes that the callbacks write. -/
def attrNames : List String :=
  ["data-checked", "data-type", "type", "checked", "data-id", "data-label",
    "data-mention-suggestion-char", "open"]

/-- The names in a rendering: built-in ones, those of declarative rules, and those above. -/
def names (app : Dict Rule) (marks : Dict MarkRule) : Html.Local Deferred :=
  Known (compile (app ++ nodes toS) marks) (ProseMirrorHtml.builtinVoids ++ voids)
    (ProseMirrorHtml.builtinTags ++ tags) (ProseMirrorHtml.builtinAttrs ++ attrNames)

variable {toS} {app : Dict Rule} {marks : Dict MarkRule}

/-- Names that a callback of the schema writes. -/
lemma names_elem {tag : String} (htag : tag ∈ tags) {slots : List Html.Attr}
    (hslots : ∀ a ∈ slots, a.name ∈ attrNames) : (names toS app marks).elem tag slots :=
  .inl ⟨List.mem_append_right _ htag, fun a ha => List.mem_append_right _ (hslots a ha)⟩

lemma each_taskItem (attrs : Dict Value) (childTypes : List String) {us : List Tree}
    (h : Html.Each (names toS app marks) us) :
    Html.Each (names toS app marks) (drawTaskItem attrs childTypes us) := by
  have input : (names toS app marks).void "input" (⟨"type", "checkbox", false⟩ ::
      if isTrue (bare attrs childTypes) "checked" then [⟨"checked", "checked", false⟩]
      else []) := by
    refine .inl ⟨List.mem_append_right _ (by decide), fun a ha => List.mem_append_right _ ?_⟩
    split at ha
    · simp only [List.mem_cons, List.not_mem_nil, or_false] at ha
      rcases ha with rfl | rfl <;> decide
    · rw [List.mem_singleton.mp ha]
      decide
  simp only [drawTaskItem, Html.each_cons, Html.Tree.Each, Html.each_nil, and_true]
  refine ⟨names_elem (by decide) ?_, ⟨names_elem (by decide) (by simp), input,
    names_elem (by decide) (by simp)⟩, names_elem (by decide) (by simp), h⟩
  intro a ha
  simp only [List.mem_cons, List.not_mem_nil, or_false] at ha
  rcases ha with rfl | rfl
  · show "data-checked" ∈ attrNames
    decide
  · decide

lemma each_mention (attrs : Dict Value) (childTypes : List String) (us : List Tree) :
    Html.Each (names toS app marks) (drawMention toS attrs childTypes us) := by
  simp only [drawMention, Html.each_cons, Html.Tree.Each, Html.each_nil, and_true]
  apply names_elem (by decide)
  intro a ha
  simp only [List.mem_cons, List.mem_append, List.not_mem_nil, or_false] at ha
  rcases ha with rfl | (id | label) | rfl
  · decide
  · rw [name_of_mem_storedSlot toS id]
    decide
  · rw [name_of_mem_storedSlot toS label]
    decide
  · show "data-mention-suggestion-char" ∈ attrNames
    decide

lemma each_details (attrs : Dict Value) (childTypes : List String) {us : List Tree}
    (h : Html.Each (names toS app marks) us) :
    Html.Each (names toS app marks) (drawDetails attrs childTypes us) := by
  simp only [drawDetails, Html.each_cons, Html.Tree.Each, Html.each_nil, and_true]
  refine ⟨names_elem (by decide) fun a ha => ?_, h⟩
  split at ha
  · rw [List.mem_singleton.mp ha]
    decide
  · cases ha

/-- Every callback of the schema keeps to the names. -/
lemma each_drawing (type : String) (attrs : Dict Value) (childTypes : List String)
    {us : List Tree} (h : Html.Each (names toS app marks) us) :
    Html.Each (names toS app marks) ((schema toS).drawing type attrs childTypes us) := by
  rcases (schema toS).drawing_cases type with ⟨rule, listed, same⟩ | same
  · rw [same]
    simp only [schema, List.mem_cons, Prod.mk.injEq, List.not_mem_nil, or_false] at listed
    rcases listed with ⟨-, rfl⟩ | ⟨-, rfl⟩ | ⟨-, rfl⟩ | ⟨-, rfl⟩ | ⟨-, rfl⟩ | ⟨-, rfl⟩
    · exact h
    · exact each_taskItem attrs childTypes h
    · exact each_mention attrs childTypes us
    · exact each_details attrs childTypes h
    · exact h
    · exact h
  · rw [same]
    exact h

lemma known_implies_names :
    (Known (compile (app ++ nodes toS) marks) ProseMirrorHtml.builtinVoids
      ProseMirrorHtml.builtinTags ProseMirrorHtml.builtinAttrs).Implies (names toS app marks) where
  void := fun _ _ h =>
    h.imp (fun known => ⟨List.mem_append_left _ known.1, fun a ha =>
      List.mem_append_left _ (known.2 a ha)⟩) id
  elem := fun _ _ h =>
    h.imp (fun known => ⟨List.mem_append_left _ known.1, fun a ha =>
      List.mem_append_left _ (known.2 a ha)⟩) id
  hole := fun _ _ h => h

lemma wellFormed :
    (∀ tag ∈ (ProseMirrorHtml.builtinVoids ++ voids) ++ (ProseMirrorHtml.builtinTags ++ tags),
      Html.isTagName tag.toList = true ∧ Html.isRawText tag.toList = false) ∧
    ∀ name ∈ ProseMirrorHtml.builtinAttrs ++ attrNames, Html.isAttrName name.toList = true := by
  have own : (∀ tag ∈ voids ++ tags,
      Html.isTagName tag.toList = true ∧ Html.isRawText tag.toList = false) ∧
      ∀ name ∈ attrNames, Html.isAttrName name.toList = true := by
    decide
  have builtin := ProseMirrorHtml.builtin_names
  simp only [List.forall_mem_append] at own builtin ⊢
  exact ⟨⟨⟨builtin.1.1, own.1.1⟩, builtin.1.2, own.1.2⟩, builtin.2, own.2⟩

variable (toS) in
/-- What `Y::Tiptap` renders, as trees. -/
def markup (json : Json) (decode : String → Dict Value) (app : Dict Rule) (marks : Dict MarkRule)
    (root : List ProseMirrorHtml.Node) : List Tree :=
  (schema toS).drawn decode
    (ProseMirrorHtml.forest json (compile (app ++ nodes toS) marks) root)

/-- `Y::Tiptap#to_html`, with an application's declarative rules and marks, raises when
`JSON.parse` refuses the attributes of a callback node, and for no other reason.  What it returns
is the print of trees in which the names are known, and a browser reads the tokens of these trees
in it. -/
theorem reads_back (json : Json) (decode : String → Dict Value)
    (named : (compile app marks).Named) (root : List ProseMirrorHtml.Node) :
    (ProseMirrorHtml.toHtml json decode (app ++ nodes toS) marks root = none ↔
      ProseMirrorHtml.isProsemirrorShaped root = true ∧
        ∃ label ∈ Html.holes (ProseMirrorHtml.forest json (compile (app ++ nodes toS) marks) root),
          maxNesting < nesting label.attrsJson) ∧
    ∀ out, ProseMirrorHtml.toHtml json decode (app ++ nodes toS) marks root = some (some out) →
      Html.Each (names toS app marks) (markup toS json decode app marks root) ∧
        Html.scan [(.html out : Segment)] =
          some (Html.tokens (markup toS json decode app marks root)) := by
  have owning : Html.Each ((names toS app marks).owning fun _ => True)
      (ProseMirrorHtml.forest json (compile (app ++ (schema toS).nodes) marks) root) :=
    ProseMirrorHtml.each_owning known_implies_names fun _ _ _ => trivial
  have known : Html.Each (names toS app marks) (markup toS json decode app marks root) :=
    Html.each_expand (fun label _ us h => each_drawing _ _ _ h) _ owning
  have wellNamed : Html.WellNamed (markup toS json decode app marks root) :=
    Html.Each.imp ((schema toS).known_implies named wellFormed.1 wellFormed.2) _ known
  by_cases shaped : ProseMirrorHtml.isProsemirrorShaped root = true
  · rw [ProseMirrorHtml.toHtml, ProseMirrorHtml.renderSegments_eq shaped, and_iff_right shaped]
    constructor
    · rw [← nodes_schema]
      exact Schema.toHtml_eq_none_iff ProseMirrorHtml.holes_callbacks named
    · intro out h
      exact ⟨known, Html.scan_print wellNamed (Schema.toHtml_prints named h)⟩
  · rw [ProseMirrorHtml.toHtml, ProseMirrorHtml.renderSegments, if_neg shaped]
    constructor
    · simp [RenderRules.toHtml, shaped]
    · simp [RenderRules.toHtml]

/-- A figure for every video. -/
def videoRule : Dict Rule :=
  [("video", .declarative "figure" false [("src", [.ref "src"])] none .none)]

lemma named_videoRule : (compile videoRule []).Named where
  node := fun h => named_figureRules.node h
  mark := fun h => by simp [compile, Dict.get] at h

/-- Ruby's `to_s` of a string. -/
def stringToS (v : Value) : String := (stringOf (some v)).getD ""

/-- Somebody whose name is markup. -/
theorem reads_back_mention :
    Html.scan [(.html ("<span data-type=\"mention\" data-label=\"&lt;b&gt;\"" ++
      " data-mention-suggestion-char=\"@\">@&lt;b&gt;</span>") : Segment)] =
      some [.startTag "span" [("data-type", "mention"), ("data-label", "<b>"),
        ("data-mention-suggestion-char", "@")], .char '@', .char '<', .char 'b', .char '>',
        .endTag "span"] := by
  have named : (compile videoRule figureRules.marks).Named := named_figureRules
  have rendered : ProseMirrorHtml.toHtml ⟨id, fun _ => ""⟩ (fun _ => [("label", .string "<b>")])
      (videoRule ++ nodes stringToS) figureRules.marks [.element "mention" [] []] =
        some (some ("<span data-type=\"mention\" data-label=\"&lt;b&gt;\"" ++
          " data-mention-suggestion-char=\"@\">@&lt;b&gt;</span>")) := by
    decide +kernel
  rw [((reads_back _ _ named _).2 _ rendered).2]
  rfl

end Tiptap

/-! ## Lexxy -/

namespace Lexxy

open Writer

variable (toS : Value → String)

/-! ### What the callbacks draw -/

def drawParagraph : Drawing := fun _ _ us => paragraphForest us []

def drawGallery : Drawing := fun _ childTypes us =>
  [.elem "div" [⟨"class",
    "attachment-gallery attachment-gallery--" ++ toString childTypes.length, false⟩] us]

def drawTable : Drawing := fun _ _ us =>
  [.elem "figure" [⟨"class", "lexxy-content__table-wrapper", false⟩]
    [.elem "table" [] [.elem "tbody" [] us]]]

def drawTableCell : Drawing := fun attrs childTypes us =>
  if isHeader (bare attrs childTypes) then
    [.elem "th" [⟨"class", "lexxy-content__table-cell--header", false⟩,
      ⟨"style", "background-color: rgb(242, 243, 245);", false⟩] us]
  else [.elem "td" [] us]

def drawListItem : Drawing := fun attrs childTypes us =>
  let node := bare attrs childTypes
  [.elem "li" (storedSlot toS "aria-checked" (Node.attr node "__checked") ++
    [⟨"value", toS (itemNumber node), false⟩] ++
    if "list" ∈ childTypes then [⟨"class", "lexxy-nested-listitem", false⟩] else []) us]

/-- The attributes of an upload, by the name they are stored under. -/
def uploadAttrs : List (String × String) :=
  [("url", "src"), ("alt", "altText"), ("caption", "caption"), ("content-type", "contentType"),
    ("filename", "fileName"), ("filesize", "fileSize"), ("width", "width"), ("height", "height")]

def drawUpload : Drawing := fun attrs childTypes _ =>
  let node := bare attrs childTypes
  [.elem (attachmentTag toS node) (storedSlot toS "sgid" (Node.attr node "sgid") ++
    (if Tiptap.isTrue node "previewable" then [⟨"previewable", "true", false⟩] else []) ++
    uploadAttrs.flatMap (fun pair => storedSlot toS pair.1 (Node.attr node pair.2)) ++
    [⟨"presentation", "gallery", false⟩]) []]

def drawMention : Drawing := fun attrs childTypes _ =>
  let node := bare attrs childTypes
  [.elem (attachmentTag toS node) (storedSlot toS "sgid" (Node.attr node "sgid") ++
    storedSlot toS "content" (Node.attr node "innerHtml") ++
    storedSlot toS "content-type" (Node.attr node "contentType")) []]

variable {toS}

lemma draws_paragraph : provisionalParagraph.Draws drawParagraph := by
  intro node us out printed written
  obtain rfl := Option.some.inj written
  rw [drawParagraph, paragraphForest, printed]
  by_cases empty : node.content = ""
  · simp [empty]
  · have full : (Html.chars (η := Deferred) node.content).isEmpty = false := by
      simpa [Html.chars] using empty
    rw [full]
    simp [empty, Html.Tree.pieces, Html.openTag, Html.closeTag, printed, Html.chars]

lemma draws_gallery : gallery.Draws drawGallery := by
  intro node us out printed written
  obtain rfl := Option.some.inj written
  have digits : (toString node.childTypes.length).toList.flatMap Html.attrChar =
      (toString node.childTypes.length).toList := by
    have same : toString (node.childTypes.length : ℤ) = toString node.childTypes.length := rfl
    rw [← same]
    exact flatMap_attrChar_toString node.childTypes.length
  have value : escapeAttr ("attachment-gallery attachment-gallery--" ++
      toString node.childTypes.length) =
      "attachment-gallery attachment-gallery--" ++ toString node.childTypes.length := by
    have fixed : "attachment-gallery attachment-gallery--".toList.flatMap Html.attrChar =
        "attachment-gallery attachment-gallery--".toList := by
      decide
    rw [← String.toList_inj, toList_escapeAttr, String.toList_append, List.flatMap_append, fixed,
      digits]
  apply pieces_elem printed _ (by decide)
  have opening : "<div class=\"attachment-gallery attachment-gallery--" =
      "<div" ++ (" " ++ "class" ++ "=\"" ++ "attachment-gallery attachment-gallery--") := by
    decide
  rw [opening, Html.openTag, List.flatMap_singleton, print_slot, value]
  simp

lemma draws_table : table.Draws drawTable := by
  intro node us out printed written
  obtain rfl := Option.some.inj written
  have around : ∀ slots : List Html.Attr,
      Html.pieces [(.elem "figure" slots [.elem "table" [] [.elem "tbody" [] us]] : Tree)] =
      (Html.openTag "figure" slots ++ Html.openTag "table" [] ++ Html.openTag "tbody" []).map
        .char ++ Html.pieces us ++
        (Html.closeTag "tbody" ++ Html.closeTag "table" ++ Html.closeTag "figure").map .char := by
    intro slots
    simp only [Html.pieces_cons, Html.pieces_nil, Html.Tree.pieces, List.map_append,
      List.append_assoc, List.append_nil]
  rw [drawTable, around]
  exact pieces_around printed (by decide) (by decide)

lemma draws_tableCell : tableCell.Draws drawTableCell := by
  intro node us out printed written
  obtain rfl := Option.some.inj written
  have same : isHeader (bare node.attrs node.childTypes) = isHeader node := rfl
  rw [drawTableCell, same]
  by_cases header : isHeader node = true
  · rw [if_pos header, if_pos header]
    exact pieces_elem printed (by simp only [String.toList_append]; decide) (by decide)
  · rw [if_neg header, if_neg header]
    exact pieces_elem printed (by decide) (by decide)

/-- The two ways to write an optional attribute agree. -/
lemma attachmentAttr_eq (node : RenderRules.Node) (name stored : String) :
    attachmentAttr toS node name stored = storedAttr toS name (Node.attr node stored) := rfl

lemma draws_listItem : (listItem toS).Draws (drawListItem toS) := by
  intro node us out printed written
  obtain rfl := Option.some.inj written
  have same : Node.attr (bare node.attrs node.childTypes) "__checked" =
      Node.attr node "__checked" := rfl
  have same' : itemNumber (bare node.attrs node.childTypes) = itemNumber node := rfl
  have class' : Html.Attr.print ⟨"class", "lexxy-nested-listitem", false⟩ =
      " class=\"lexxy-nested-listitem\"".toList := by
    decide
  simp only [drawListItem, same, same']
  by_cases nested : "list" ∈ node.childTypes
  · rw [if_pos nested, if_pos nested]
    cases Node.attr node "__checked" with
    | none =>
      simp [Html.Tree.pieces, Html.openTag, Html.closeTag, print_slot, class', printed, Html.chars,
        storedSlot]
    | some checked =>
      simp [Html.Tree.pieces, Html.openTag, Html.closeTag, print_slot, class', printed, Html.chars,
        storedSlot]
  · rw [if_neg nested, if_neg nested]
    cases Node.attr node "__checked" with
    | none =>
      simp [Html.Tree.pieces, Html.openTag, Html.closeTag, print_slot, printed, Html.chars,
        storedSlot]
    | some checked =>
      simp [Html.Tree.pieces, Html.openTag, Html.closeTag, print_slot, printed, Html.chars,
        storedSlot]

variable (toS) in
/-- Several stored attributes. -/
lemma print_storedSlots (node : RenderRules.Node) (pairs : List (String × String)) :
    (pairs.flatMap fun pair => storedSlot toS pair.1 (Node.attr node pair.2)).flatMap
        Html.Attr.print =
      (String.join (pairs.map fun pair => attachmentAttr toS node pair.1 pair.2)).toList := by
  induction pairs with
  | nil => rfl
  | cons pair pairs ih =>
    rw [List.flatMap_cons, List.flatMap_append, print_storedSlot, ih, List.map_cons,
      String.join_cons, String.toList_append, attachmentAttr_eq]

lemma upload_eq (node : RenderRules.Node) : upload toS node =
    some ("<" ++ attachmentTag toS node ++ attachmentAttr toS node "sgid" "sgid" ++
      (if Tiptap.isTrue node "previewable" then " previewable=\"true\"" else "") ++
      String.join (uploadAttrs.map fun pair => attachmentAttr toS node pair.1 pair.2) ++
      " presentation=\"gallery\"></" ++ attachmentTag toS node ++ ">") := by
  unfold upload Tiptap.isTrue
  generalize Node.attr node "previewable" = stored
  cases stored with
  | none => rfl
  | some v =>
    cases v with
    | bool b => cases b <;> rfl
    | _ => rfl

lemma draws_upload : (upload toS).Draws (drawUpload toS) := by
  intro node us out printed written
  rw [upload_eq] at written
  obtain rfl := Option.some.inj written
  have same : attachmentTag toS (bare node.attrs node.childTypes) = attachmentTag toS node := rfl
  have same' : ∀ name, Node.attr (bare node.attrs node.childTypes) name = Node.attr node name :=
    fun _ => rfl
  have flag : Tiptap.isTrue (bare node.attrs node.childTypes) "previewable" =
      Tiptap.isTrue node "previewable" := rfl
  have slots := print_storedSlots toS node uploadAttrs
  have shown : Html.Attr.print ⟨"previewable", "true", false⟩ =
      " previewable=\"true\"".toList := by
    decide
  have presentation : Html.Attr.print ⟨"presentation", "gallery", false⟩ =
      " presentation=\"gallery\"".toList := by
    decide
  simp only [drawUpload, same, same', flag]
  by_cases previewable : Tiptap.isTrue node "previewable" = true
  · rw [if_pos previewable, if_pos previewable]
    simp only [Html.pieces_cons, Html.pieces_nil, Html.Tree.pieces, Html.openTag, Html.closeTag,
      List.flatMap_append, slots, print_storedSlot, attachmentAttr_eq]
    simp [Html.chars, shown, presentation]
  · rw [if_neg previewable, if_neg previewable]
    simp only [Html.pieces_cons, Html.pieces_nil, Html.Tree.pieces, Html.openTag, Html.closeTag,
      List.flatMap_append, slots, print_storedSlot, attachmentAttr_eq]
    simp [Html.chars, presentation]

lemma draws_mention : (mention toS).Draws (drawMention toS) := by
  intro node us out printed written
  obtain rfl := Option.some.inj written
  have same : attachmentTag toS (bare node.attrs node.childTypes) = attachmentTag toS node := rfl
  have same' : ∀ name, Node.attr (bare node.attrs node.childTypes) name = Node.attr node name :=
    fun _ => rfl
  simp only [drawMention, same, same', attachmentAttr_eq]
  simp [Html.Tree.pieces, Html.openTag, Html.closeTag, print_storedSlot, Html.chars]

lemma draws_pendingUpload : pendingUpload.Draws fun _ _ _ => [] := by
  intro node us out printed written
  obtain rfl := Option.some.inj written
  rfl

variable (toS)

/-- The schema of `Y::Lexxy`. -/
def schema : Schema :=
  [("quote", .declarative "blockquote" false [] none .blocks ⟨by decide, by decide, by decide⟩),
    ("early_escape_code", .declarative "pre" false [("data-language", [.ref "language"])] none
      .inline ⟨by decide, by decide, by decide⟩),
    ("horizontal_divider", .declarative "hr" true [] none .inline
      ⟨by decide, by decide, by decide⟩),
    ("provisonal_paragraph",
      .callback .inline provisionalParagraph drawParagraph (fun _ => rfl) draws_paragraph),
    ("image_gallery", .callback .inline gallery drawGallery (fun _ => rfl) draws_gallery),
    ("table", .callback .blocks table drawTable (fun _ => rfl) draws_table),
    ("wrapped_table_node", .callback .blocks table drawTable (fun _ => rfl) draws_table),
    ("tablecell", .callback .blocks tableCell drawTableCell (fun _ => rfl) draws_tableCell),
    ("listitem", .callback .blocks (listItem toS) (drawListItem toS) (fun _ => rfl)
      draws_listItem),
    ("early_escape_listitem", .callback .blocks (listItem toS) (drawListItem toS) (fun _ => rfl)
      draws_listItem),
    ("action_text_attachment", .callback .inline (upload toS) (drawUpload toS) (fun _ => rfl)
      draws_upload),
    ("action_text_attachment_upload", .callback .inline pendingUpload (fun _ _ _ => [])
      (fun _ => rfl) draws_pendingUpload),
    ("custom_action_text_attachment", .callback .inline (mention toS) (drawMention toS)
      (fun _ => rfl) draws_mention)]

lemma nodes_schema : (schema toS).nodes = lexxyNodes toS := rfl

/-! ### What is read in the result -/

/-- `/\A[a-zA-Z][a-zA-Z0-9-]*\z/` -/
def LooksLikeTag (tag : String) : Prop :=
  (tag.toList.head?.any isAsciiLetter &&
    tag.toList.tail.all fun c => isAsciiLetter c || c.isDigit || c = '-') = true

lemma looksLikeTag_attachmentTag (node : RenderRules.Node) :
    LooksLikeTag (attachmentTag toS node) := by
  have default : LooksLikeTag "action-text-attachment" := by
    unfold LooksLikeTag
    decide
  have either : ∀ tag : String, LooksLikeTag
      (if (tag.toList.head?.any isAsciiLetter &&
        tag.toList.tail.all fun c => isAsciiLetter c || c.isDigit || c = '-') = true
      then tag else "action-text-attachment") := by
    intro tag
    split
    · assumption
    · exact default
  exact either _

/-- The elements that the callbacks write, attachments apart. -/
def tags : List String := ["div", "figure"]

/-- The attributes that the callbacks write, those of attachments apart. -/
def attrNames : List String := ["class"]

/-- The attributes of an attachment. -/
def attachmentNames : List String :=
  ["sgid", "previewable", "url", "alt", "caption", "content-type", "filename", "filesize",
    "width", "height", "presentation", "content"]

/-- The names in a rendering: built-in ones, those of declarative rules, those above, and the
attachment tags that are `allowed`. -/
def names (app : Dict Rule) (allowed : String → Prop) : Html.Local Deferred where
  void tag slots := (Known (compile (app ++ lexxyNodes toS) []) LexicalHtml.builtinVoids
    (LexicalHtml.builtinTags ++ tags) (LexicalHtml.builtinAttrs ++ attrNames)).void tag slots
  elem tag slots := (Known (compile (app ++ lexxyNodes toS) []) LexicalHtml.builtinVoids
    (LexicalHtml.builtinTags ++ tags) (LexicalHtml.builtinAttrs ++ attrNames)).elem tag slots ∨
      LooksLikeTag tag ∧ allowed tag ∧ ∀ a ∈ slots, a.name ∈ attachmentNames
  hole _ _ := False

/-- The types of the attachments. -/
def attachments : List String := ["action_text_attachment", "custom_action_text_attachment"]

variable {toS} {app : Dict Rule} {allowed : String → Prop}

/-- Names that a callback of the schema writes. -/
lemma names_elem {tag : String} (htag : tag ∈ LexicalHtml.builtinTags ++ tags)
    {slots : List Html.Attr}
    (hslots : ∀ a ∈ slots, a.name ∈ LexicalHtml.builtinAttrs ++ attrNames) :
    (names toS app allowed).elem tag slots :=
  .inl (.inl ⟨htag, hslots⟩)

lemma each_tableCell (attrs : Dict Value) (childTypes : List String) {us : List Tree}
    (h : Html.Each (names toS app allowed) us) :
    Html.Each (names toS app allowed) (drawTableCell attrs childTypes us) := by
  unfold drawTableCell
  split
  · rw [Html.each_cons, Html.Tree.Each]
    refine ⟨⟨names_elem (by decide) fun a ha => ?_, h⟩, Html.each_nil⟩
    simp only [List.mem_cons, List.not_mem_nil, or_false] at ha
    rcases ha with rfl | rfl <;> decide
  · rw [Html.each_cons, Html.Tree.Each]
    exact ⟨⟨names_elem (by decide) (by simp), h⟩, Html.each_nil⟩

lemma each_listItem (attrs : Dict Value) (childTypes : List String) {us : List Tree}
    (h : Html.Each (names toS app allowed) us) :
    Html.Each (names toS app allowed) (drawListItem toS attrs childTypes us) := by
  rw [drawListItem, Html.each_cons, Html.Tree.Each]
  refine ⟨⟨names_elem (by decide) fun a ha => ?_, h⟩, Html.each_nil⟩
  rw [List.mem_append, List.mem_append, List.mem_singleton] at ha
  rcases ha with (checked | rfl) | nested
  · rw [name_of_mem_storedSlot toS checked]
    decide
  · show "value" ∈ LexicalHtml.builtinAttrs ++ attrNames
    decide
  · split at nested
    · rw [List.mem_singleton.mp nested]
      decide
    · cases nested

lemma each_upload (attrs : Dict Value) (childTypes : List String)
    (tag : allowed (attachmentTag toS (bare attrs childTypes))) (us : List Tree) :
    Html.Each (names toS app allowed) (drawUpload toS attrs childTypes us) := by
  rw [drawUpload, Html.each_cons, Html.Tree.Each]
  refine ⟨⟨.inr ⟨looksLikeTag_attachmentTag toS _, tag, fun a ha => ?_⟩, Html.each_nil⟩,
    Html.each_nil⟩
  rw [List.mem_append, List.mem_append, List.mem_append, List.mem_singleton] at ha
  rcases ha with ((sgid | previewable) | stored) | rfl
  · rw [name_of_mem_storedSlot toS sgid]
    decide
  · split at previewable
    · rw [List.mem_singleton.mp previewable]
      decide
    · cases previewable
  · obtain ⟨pair, listed, hslot⟩ := List.mem_flatMap.mp stored
    rw [name_of_mem_storedSlot toS hslot]
    have all : ∀ pair ∈ uploadAttrs, pair.1 ∈ attachmentNames := by decide
    exact all pair listed
  · decide

lemma each_mention (attrs : Dict Value) (childTypes : List String)
    (tag : allowed (attachmentTag toS (bare attrs childTypes))) (us : List Tree) :
    Html.Each (names toS app allowed) (drawMention toS attrs childTypes us) := by
  rw [drawMention, Html.each_cons, Html.Tree.Each]
  refine ⟨⟨.inr ⟨looksLikeTag_attachmentTag toS _, tag, fun a ha => ?_⟩, Html.each_nil⟩,
    Html.each_nil⟩
  rw [List.mem_append, List.mem_append] at ha
  rcases ha with (sgid | content) | type
  · rw [name_of_mem_storedSlot toS sgid]
    decide
  · rw [name_of_mem_storedSlot toS content]
    decide
  · rw [name_of_mem_storedSlot toS type]
    decide

/-- Every callback of the schema keeps to the names, an attachment if its tag is allowed. -/
lemma each_drawing (type : String) (attrs : Dict Value) (childTypes : List String)
    (tag : type ∈ attachments → allowed (attachmentTag toS (bare attrs childTypes)))
    {us : List Tree} (h : Html.Each (names toS app allowed) us) :
    Html.Each (names toS app allowed) ((schema toS).drawing type attrs childTypes us) := by
  have boxed : ∀ {tag slots}, tag ∈ LexicalHtml.builtinTags ++ tags →
      (∀ a ∈ slots, a.name ∈ LexicalHtml.builtinAttrs ++ attrNames) → ∀ {ts : List Tree},
      Html.Each (names toS app allowed) ts →
        Html.Each (names toS app allowed) [.elem tag slots ts] := by
    intro tag slots htag hslots ts hts
    rw [Html.each_cons, Html.Tree.Each]
    exact ⟨⟨names_elem htag hslots, hts⟩, Html.each_nil⟩
  have figure : Html.Each (names toS app allowed) (drawTable attrs childTypes us) :=
    boxed (by decide) (by decide) (boxed (by decide) (by simp) (boxed (by decide) (by simp) h))
  rcases (schema toS).drawing_cases type with ⟨rule, listed, same⟩ | same
  · rw [same]
    simp only [schema, List.mem_cons, Prod.mk.injEq, List.not_mem_nil, or_false] at listed
    rcases listed with ⟨-, rfl⟩ | ⟨-, rfl⟩ | ⟨-, rfl⟩ | ⟨-, rfl⟩ | ⟨-, rfl⟩ | ⟨-, rfl⟩ | ⟨-, rfl⟩ |
      ⟨-, rfl⟩ | ⟨-, rfl⟩ | ⟨-, rfl⟩ | ⟨rfl, rfl⟩ | ⟨-, rfl⟩ | ⟨rfl, rfl⟩
    · exact h
    · exact h
    · exact h
    · exact each_paragraphForest (names_elem (by decide) (by simp)) h Html.each_nil
    · apply boxed (by decide) _ h
      intro a ha
      rw [List.mem_singleton.mp ha]
      show "class" ∈ LexicalHtml.builtinAttrs ++ attrNames
      decide
    · exact figure
    · exact figure
    · exact each_tableCell attrs childTypes h
    · exact each_listItem attrs childTypes h
    · exact each_listItem attrs childTypes h
    · exact each_upload attrs childTypes (tag (by decide)) us
    · exact Html.each_nil
    · exact each_mention attrs childTypes (tag (by decide)) us
  · rw [same]
    exact h

lemma known_implies_names :
    (Known (compile (app ++ lexxyNodes toS) []) LexicalHtml.builtinVoids LexicalHtml.builtinTags
      LexicalHtml.builtinAttrs).Implies (names toS app allowed) where
  void := fun _ _ h => h.imp (fun known => ⟨known.1, fun a ha =>
    List.mem_append_left _ (known.2 a ha)⟩) id
  elem := fun _ _ h => .inl (h.imp (fun known => ⟨List.mem_append_left _ known.1, fun a ha =>
    List.mem_append_left _ (known.2 a ha)⟩) id)
  hole := fun _ _ h => h

lemma wellFormed :
    (∀ tag ∈ LexicalHtml.builtinVoids ++ (LexicalHtml.builtinTags ++ tags),
      Html.isTagName tag.toList = true ∧ Html.isRawText tag.toList = false) ∧
    (∀ name ∈ LexicalHtml.builtinAttrs ++ attrNames, Html.isAttrName name.toList = true) ∧
    ∀ name ∈ attachmentNames, Html.isAttrName name.toList = true := by
  have own : (∀ tag ∈ tags, Html.isTagName tag.toList = true ∧ Html.isRawText tag.toList = false) ∧
      (∀ name ∈ attrNames, Html.isAttrName name.toList = true) ∧
      ∀ name ∈ attachmentNames, Html.isAttrName name.toList = true := by
    decide
  have builtin := LexicalHtml.builtin_names
  simp only [List.forall_mem_append] at builtin ⊢
  exact ⟨⟨builtin.1.1, builtin.1.2, own.1⟩, ⟨builtin.2, own.2.1⟩, own.2.2⟩

/-- What the pattern for a tag takes is a tag name. -/
lemma LooksLikeTag.isTagName {tag : String} (h : LooksLikeTag tag) :
    Html.isTagName tag.toList = true := by
  have letter : ∀ c, isAsciiLetter c = true → c.isAlpha = true := by
    intro c hc
    have alpha : c.isAlpha = (c.isUpper || c.isLower) := rfl
    have upper : c.isUpper = decide (c.val ≥ 'A'.val ∧ c.val ≤ 'Z'.val) := rfl
    have lower : c.isLower = (c.val ≥ 'a'.val && c.val ≤ 'z'.val) := rfl
    unfold isAsciiLetter at hc
    rw [Bool.or_comm] at hc
    simpa only [alpha, upper, lower, Char.le_def, Bool.or_eq_true, Bool.and_eq_true,
      decide_eq_true_eq, ge_iff_le] using hc
  have inside : ∀ c, (isAsciiLetter c || c.isDigit || c = '-') = true →
      Html.nameChar c = true := by
    intro c hc
    rw [Html.nameChar, decide_eq_true_eq]
    intro excluded
    simp only [List.mem_cons, List.not_mem_nil, or_false] at excluded
    rcases excluded with rfl | rfl | rfl | rfl | rfl | rfl | rfl | rfl | rfl | rfl | rfl | rfl <;>
      revert hc <;> decide
  unfold LooksLikeTag at h
  unfold Html.isTagName
  cases there : tag.toList with
  | nil => simp [there] at h
  | cons c cs =>
    simp only [there, List.head?_cons, Option.any_some, List.tail_cons, Bool.and_eq_true] at h
    simp only [List.head?_cons, Option.any_some, Bool.and_eq_true, List.all_cons]
    rw [List.all_eq_true] at h ⊢
    exact ⟨letter c h.1, inside c (by simp [h.1]), fun d hd => inside d (h.2 d hd)⟩

/-- A tag whose content a browser reads as markup. -/
def Plain (tag : String) : Prop := Html.isRawText tag.toList = false

/-- With plain attachment tags, the names are well formed. -/
lemma names_implies (named : (compile app []).Named) :
    (names toS app Plain).Implies Html.names := by
  have known := (schema toS).known_implies named wellFormed.1 wellFormed.2.1
  refine ⟨known.void, ?_, fun _ _ hole => hole.elim⟩
  rintro tag slots (h | ⟨looks, plain, listed⟩)
  · exact known.elem tag slots h
  · exact ⟨looks.isTagName, plain, fun a ha => wellFormed.2.2 _ (listed a ha)⟩

variable (toS) in
/-- What `Y::Lexxy` renders, as trees. -/
def markup (F : LexicalHtml.Foreign) (decode : String → Dict Value) (app : Dict Rule)
    (root : List LexicalHtml.RootNode) : List Tree :=
  (schema toS).drawn decode (LexicalHtml.forest F (compile (app ++ lexxyNodes toS) []) root)

variable (toS) in
/-- Every attachment of the document has an allowed tag. -/
def AttachmentsAllowed (allowed : String → Prop) (F : LexicalHtml.Foreign)
    (decode : String → Dict Value) (root : List LexicalHtml.RootNode) : Prop :=
  ∀ attrs ∈ LexicalHtml.documentDecorators root ++
      (LexicalHtml.documentTexts root).map LexicalHtml.XmlText.attrs,
    LexicalHtml.typeOf attrs ∈ attachments → ∀ childTypes,
      allowed (attachmentTag toS (bare (decode (xmlAttrsJson F.toJson attrs)) childTypes))

/-- The names in a rendering. -/
lemma each_markup {F : LexicalHtml.Foreign} {decode : String → Dict Value}
    {root : List LexicalHtml.RootNode} (tags : AttachmentsAllowed toS allowed F decode root) :
    Html.Each (names toS app allowed) (markup toS F decode app root) := by
  have owning : Html.Each ((names toS app allowed).owning fun label =>
      label.nodeType ∈ attachments → allowed (attachmentTag toS
        (bare (decode label.attrsJson) label.childTypes)))
      (LexicalHtml.forest F (compile (app ++ (schema toS).nodes) []) root) := by
    apply LexicalHtml.each_owning known_implies_names
    · intro t ht _ own
      exact tags t.attrs (List.mem_append_right _ (List.mem_map_of_mem ht)) own _
    · intro attrs ha _ own
      exact tags attrs (List.mem_append_left _ ha) own _
  exact Html.each_expand (fun label own us h => each_drawing _ _ _ own h) _ owning

/-- `Y::Lexxy#to_html`, with an application's declarative rules, raises when `JSON.parse` refuses
the attributes of a callback node, and for no other reason.  What it returns is the print of trees
in which the names are known, the tags of attachments apart, which look like tags.  If none of
these is the tag of a raw-text element, a browser reads the tokens of these trees in it. -/
theorem reads_back_unless_raw (F : LexicalHtml.Foreign) (decode : String → Dict Value)
    (named : (compile app []).Named) (root : List LexicalHtml.RootNode) :
    (LexicalHtml.toHtml F decode (app ++ lexxyNodes toS) root = none ↔
      LexicalHtml.isLexicalShaped root = true ∧
        ∃ label ∈ Html.holes (LexicalHtml.forest F (compile (app ++ lexxyNodes toS) []) root),
          maxNesting < nesting label.attrsJson) ∧
    ∀ out, LexicalHtml.toHtml F decode (app ++ lexxyNodes toS) root = some (some out) →
      Html.pieces (markup toS F decode app root) = Html.chars out ∧
        Html.Each (names toS app fun _ => True) (markup toS F decode app root) ∧
        (AttachmentsAllowed toS Plain F decode root →
          Html.scan [(.html out : Segment)] =
            some (Html.tokens (markup toS F decode app root))) := by
  by_cases shaped : LexicalHtml.isLexicalShaped root = true
  · rw [LexicalHtml.toHtml, LexicalHtml.renderSegments_eq shaped, and_iff_right shaped]
    constructor
    · rw [← nodes_schema]
      exact Schema.toHtml_eq_none_iff LexicalHtml.holes_callbacks named
    · intro out h
      have printed := Schema.toHtml_prints (S := schema toS) named h
      refine ⟨printed, each_markup fun _ _ _ _ => trivial, fun tags => ?_⟩
      have wellNamed : Html.WellNamed (markup toS F decode app root) :=
        Html.Each.imp (names_implies named) _ (each_markup tags)
      exact Html.scan_print wellNamed printed
  · rw [LexicalHtml.toHtml, LexicalHtml.renderSegments, if_neg shaped]
    constructor
    · simp [RenderRules.toHtml, shaped]
    · simp [RenderRules.toHtml]

/-- An attachment whose content is markup. -/
theorem reads_back_unless_raw_mention :
    Html.scan [(.html ("<p><action-text-attachment content=\"&lt;b&gt;\">" ++
      "</action-text-attachment></p>") : Segment)] =
      some [.startTag "p" [], .startTag "action-text-attachment" [("content", "<b>")],
        .endTag "action-text-attachment", .endTag "p"] := by
  let attachment : Attrs := [("__type", .any (.string "custom_action_text_attachment"))]
  let root : List LexicalHtml.RootNode :=
    [.text ⟨[("__type", .any (.string "paragraph"))], [.element attachment]⟩]
  have named : (compile Tiptap.videoRule []).Named := Tiptap.named_videoRule
  have rendered : LexicalHtml.toHtml ⟨⟨id, fun _ => ""⟩, fun _ => ""⟩
      (fun _ => [("innerHtml", .string "<b>")])
      (Tiptap.videoRule ++ lexxyNodes Tiptap.stringToS) root =
        some (some ("<p><action-text-attachment content=\"&lt;b&gt;\">" ++
          "</action-text-attachment></p>")) := by
    decide +kernel
  have allowed : AttachmentsAllowed Tiptap.stringToS Plain ⟨⟨id, fun _ => ""⟩, fun _ => ""⟩
      (fun _ => [("innerHtml", .string "<b>")]) root := by
    intro attrs _ _ childTypes
    have tag : attachmentTag Tiptap.stringToS (bare [("innerHtml", .string "<b>")] childTypes) =
        "action-text-attachment" := by
      simp [attachmentTag, Node.attr, bare, Dict.get, List.lookup_cons]
    rw [tag, Plain]
    decide
  rw [((reads_back_unless_raw _ _ named _).2 _ rendered).2.2 allowed]
  rfl

end Lexxy

end Yrby
