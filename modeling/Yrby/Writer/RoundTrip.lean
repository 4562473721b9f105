import Yrby.Writer.Blocks

/-!
# What Ruby writes renders as it was given

`runMarkup`, `contentMarkup` and the markup of a block say what a block should render as, from what
the caller gave and not from what is stored.  The stored content of a list of runs prints the
markup of the runs (`pieces_content`), in any place and under both rule sets, since neither has a
rule for links.

A run without text prints nothing, and a paragraph that prints nothing is `<p><br></p>`.
-/

namespace Yrby

namespace Writer

open HtmlCore LexicalHtml XmlText RenderRules

/-! ## The markup -/

/-- The escaped text, once, between two strings. -/
def Around (f : String → String) : Prop :=
  ∃ opening closing : String, ∀ text, f text = opening ++ escapeText text ++ closing

lemma Around.wrap {f : String → String} (h : Around f) (tag : String) (css : Option String) :
    Around fun text => formatWrap (f text) tag css := by
  obtain ⟨opening, closing, same⟩ := h
  cases css with
  | none =>
    refine ⟨"<" ++ tag ++ ">" ++ opening, closing ++ "</" ++ tag ++ ">", fun text => ?_⟩
    simp [formatWrap, same, String.append_assoc]
  | some css =>
    refine ⟨"<" ++ tag ++ " style=\"" ++ escapeAttr css ++ "\">" ++ opening,
      closing ++ "</" ++ tag ++ ">", fun text => ?_⟩
    simp [formatWrap, same, String.append_assoc]

lemma Around.wrap_if {f : String → String} (h : Around f) (p : Bool) (tag : String) :
    Around fun text => if p then formatWrap (f text) tag none else f text := by
  cases p with
  | true => exact h.wrap tag none
  | false => exact h

lemma Around.wrap_outer {f : String → String} (h : Around f) (outer css : Option String) :
    Around fun text =>
      match outer with
      | some tag => formatWrap (f text) tag css
      | none => f text := by
  cases outer with
  | some tag => exact h.wrap tag css
  | none => exact h

/-- A run is its escaped text between tags that its format and style alone choose. -/
theorem around_renderRun (format : ℕ) (style : String) :
    Around fun text => renderRun text format style := by
  have plain : Around escapeText := ⟨"", "", fun text => by simp⟩
  have semantic : ∀ css, Around fun text =>
      if hasFormat format fmtBold then formatWrap (escapeText text) "strong" css
      else if hasFormat format fmtItalic then formatWrap (escapeText text) "em" css
      else escapeText text := by
    intro css
    by_cases bold : hasFormat format fmtBold = true
    · simpa [bold] using plain.wrap "strong" css
    · by_cases italic : hasFormat format fmtItalic = true
      · simpa [bold, italic] using plain.wrap "em" css
      · simpa [bold, italic] using plain
  exact ((((semantic _).wrap_outer _ _).wrap_if _ "i").wrap_if _ "s").wrap_if _ "u"

/-- The text of a run in the tags of its formats. -/
def textMarkup (run : Run) : String :=
  if run.text.isEmpty then "" else renderRun run.text run.bits ""

/-- An attribute, when there is a value and it is not empty. -/
def attrMarkup (name : String) : Option String → String
  | some value => if value.isEmpty then "" else " " ++ name ++ "=\"" ++ escapeAttr value ++ "\""
  | none => ""

def runMarkup (run : Run) : String :=
  match run.link with
  | some url =>
    "<a href=\"" ++ escapeAttr (safeHref url) ++ "\"" ++ attrMarkup "title" run.title ++ ">" ++
      textMarkup run ++ "</a>"
  | none => textMarkup run

def contentMarkup (runs : List Run) : String := String.join (runs.map runMarkup)

def paragraphMarkup (runs : List Run) : String :=
  if (contentMarkup runs).isEmpty then "<p><br></p>" else "<p>" ++ contentMarkup runs ++ "</p>"

/-- The tag of a heading: the one that was asked for, if it is one. -/
def tagOfHeading (tag : String) : String :=
  if tag ∈ ["h1", "h2", "h3", "h4", "h5", "h6"] then tag else "h1"

def headingMarkup (tag : String) (runs : List Run) : String :=
  "<" ++ tagOfHeading tag ++ ">" ++ contentMarkup runs ++ "</" ++ tagOfHeading tag ++ ">"

def quoteMarkup (flavor : Flavor) (runs : List Run) : String :=
  "<blockquote>" ++
    (match flavor with
      | .lexical => contentMarkup runs
      | .lexxy => paragraphMarkup runs) ++ "</blockquote>"

def codeMarkup (language code : String) : String :=
  "<pre" ++ attrMarkup "data-language" (some language) ++ ">" ++ escapeText code ++ "</pre>"

/-- The items, numbered from a value on. -/
def itemsMarkup : ℕ → List (List Run) → String
  | _, [] => ""
  | value, runs :: items =>
    "<li value=\"" ++ toString value ++ "\">" ++ contentMarkup runs ++ "</li>" ++
      itemsMarkup (value + 1) items

def listMarkup (ordered : Bool) (items : List (List Run)) : String :=
  "<" ++ (if ordered then "ol" else "ul") ++ ">" ++ itemsMarkup 1 items ++
    "</" ++ (if ordered then "ol" else "ul") ++ ">"

def blockMarkup (flavor : Flavor) : NewBlock → String
  | .paragraph runs => paragraphMarkup runs
  | .heading tag runs => headingMarkup tag runs
  | .quote runs => quoteMarkup flavor runs
  | .code language code => codeMarkup language code
  | .list ordered items => listMarkup ordered items

/-! ## The chunks of a content -/

/-- The run that a text is stored as; no text is none. -/
def textChunks (s : String) : List Chunk :=
  if h : s = "" then [] else [.run ⟨s, h⟩]

/-- The chunks do not begin with a run. -/
def Clean (cs : List Chunk) : Prop := ∀ s rest, cs ≠ .run s :: rest

lemma clean_nil : Clean [] := by
  intro s rest h
  cases h

lemma pushChar_clean (c : Char) {cs : List Chunk} (clean : Clean cs) :
    pushChar c cs = .run ⟨String.singleton c, by simp⟩ :: cs := by
  unfold pushChar
  split
  · next s rest => exact absurd rfl (clean s rest)
  · rfl

/-- Text in front of other content is one run. -/
lemma chunks_text (s : String) {items : List Item} (clean : Clean (chunks items)) :
    chunks (s.toList.map .char ++ items) = textChunks s ++ chunks items := by
  suffices all : ∀ cs : List Char,
      chunks (cs.map .char ++ items) = textChunks (String.ofList cs) ++ chunks items by
    simpa using all s.toList
  intro cs
  induction cs with
  | nil => simp [textChunks]
  | cons c cs ih =>
    have joined : String.ofList (c :: cs) = String.singleton c ++ String.ofList cs := by
      rw [← String.toList_inj]
      simp
    rw [List.map_cons, List.cons_append, chunks, prependItem, ih]
    by_cases empty : cs = []
    · subst empty
      simp [textChunks, pushChar_clean c clean]
    · simp [textChunks, empty, pushChar, joined]

lemma writeAll_append (ps qs : List Piece) :
    writeAll (ps ++ qs) = writeAll ps ++ writeAll qs := by
  induction ps with
  | nil => simp [writeAll]
  | cons p ps ih => simp [writeAll, ih]

/-- What is written for one run. -/
def pieces (flavor : Flavor) (run : Run) : List Piece :=
  let text : List Piece := [.embed (textAttributes run.bits), .text run.text]
  match run.link with
  | some url => [.block (linkAttributes flavor url run.title) text]
  | none => text

lemma content_cons (flavor : Flavor) (run : Run) (runs : List Run) :
    content flavor (run :: runs) = pieces flavor run ++ content flavor runs := rfl

/-- The chunks of a marker and its text. -/
def nodeChunks (type : String) (bits : ℕ) (s : String) : List Chunk :=
  .map (textMarker type bits) :: textChunks s

lemma chunks_node (type : String) (bits : ℕ) (s : String) {items : List Item}
    (clean : Clean (chunks items)) :
    chunks (writeAll [.embed (textMarker type bits), .text s] ++ items) =
      nodeChunks type bits s ++ chunks items := by
  have text := chunks_text s clean
  simp only [writeAll, Piece.write, List.append_nil, List.cons_append, List.nil_append]
  rw [chunks, prependItem, text]
  rfl

lemma chunks_node_alone (type : String) (bits : ℕ) (s : String) :
    chunks (writeAll [.embed (textMarker type bits), .text s]) = nodeChunks type bits s := by
  have clean : Clean (chunks []) := clean_nil
  have alone := chunks_node type bits s clean
  rwa [List.append_nil, chunks, List.append_nil] at alone

/-- The chunks of a run. -/
def runChunks (flavor : Flavor) (run : Run) : List Chunk :=
  match run.link with
  | some url =>
    [.text (linkAttributes flavor url run.title) (nodeChunks "text" run.bits run.text)]
  | none => nodeChunks "text" run.bits run.text

lemma clean_runChunks (flavor : Flavor) (run : Run) (cs : List Chunk) :
    Clean (runChunks flavor run ++ cs) := by
  intro s rest
  unfold runChunks
  cases run.link <;> simp [nodeChunks]

lemma chunks_content (flavor : Flavor) (runs : List Run) :
    chunks (writeAll (content flavor runs)) = runs.flatMap (runChunks flavor) ∧
      Clean (chunks (writeAll (content flavor runs))) := by
  induction runs with
  | nil => exact ⟨rfl, clean_nil⟩
  | cons run runs ih =>
    obtain ⟨same, clean⟩ := ih
    have own : chunks (writeAll (content flavor (run :: runs))) =
        runChunks flavor run ++ chunks (writeAll (content flavor runs)) := by
      rw [content_cons, writeAll_append]
      unfold pieces runChunks
      cases run.link with
      | none => exact chunks_node "text" run.bits run.text clean
      | some url =>
        have inside := chunks_node_alone "text" run.bits run.text
        simp only [writeAll, Piece.write, List.append_nil, List.cons_append, List.nil_append]
          at inside ⊢
        rw [chunks, prependItem, textAttributes, inside]
    refine ⟨by rw [own, same, List.flatMap_cons], ?_⟩
    rw [own]
    exact clean_runChunks flavor run _

/-! ## What a content prints -/

section

variable {F : Foreign} {rules : Rules}

lemma chunksForest_append (depth : ℕ) (ruled : Bool) (run : RunState) (cs ds : List Chunk) :
    chunksForest F rules depth ruled run (cs ++ ds) =
      chunksForest F rules depth ruled run cs ++
        chunksForest F rules depth ruled (cs.foldl RunState.next run) ds := by
  induction cs generalizing run with
  | nil => simp [chunksForest]
  | cons c cs ih => simp [chunksForest, ih]

/-- The tree of a text in its formats. -/
def textForest (s : String) (bits : ℕ) : List Tree :=
  if s = "" then [] else [runTree s bits ""]

/-- The types of text nodes that Ruby writes. -/
def IsTextType (type : String) : Prop := type = "text" ∨ type = "code-highlight"

lemma next_marker {type : String} (h : IsTextType type) {bits : ℕ} (small : bits < 2 ^ 32)
    (run : RunState) : run.next (.map (textMarker type bits)) = ⟨bits, "", false⟩ := by
  have format : formatAttr (textMarker type bits) = bits := by
    have stored : formatAttr (textMarker type bits) = ((bits : ℤ) % 2 ^ 32).toNat := rfl
    rw [stored]
    omega
  have style : (strAttr (textMarker type bits) "__style").getD "" = "" := rfl
  rcases h with rfl | rfl
  · exact congrArg₂ (fun f s => RunState.mk f s false) format style
  · exact congrArg₂ (fun f s => RunState.mk f s false) format style

lemma chunksForest_node {type : String} (h : IsTextType type) {bits : ℕ} (small : bits < 2 ^ 32)
    (s : String) (depth : ℕ) (ruled : Bool) (run : RunState) :
    chunksForest F rules depth ruled run (nodeChunks type bits s) = textForest s bits := by
  have marker : chunkForest F rules depth ruled run (.map (textMarker type bits)) = [] := by
    have notBreak : typeOf (textMarker type bits) ≠ "linebreak" := by
      rcases h with rfl | rfl
      · exact (by decide : ("text" : String) ≠ "linebreak")
      · exact (by decide : ("code-highlight" : String) ≠ "linebreak")
    rw [chunkForest, if_neg notBreak]
  rw [nodeChunks, chunksForest, marker, next_marker h small, List.nil_append]
  by_cases empty : s = ""
  · simp [textChunks, textForest, empty, chunksForest]
  · simp [textChunks, textForest, empty, chunksForest, chunkForest]

lemma pieces_textForest (s : String) (bits : ℕ) :
    Html.pieces (textForest s bits) =
      Html.chars (if s.isEmpty then "" else renderRun s bits "") := by
  by_cases empty : s = ""
  · simp [textForest, empty]
  · simp [textForest, empty, chars_renderRun]

lemma print_filtered (name : String) (value : Option String) :
    (optionalAttr name (value.filter fun v => !v.isEmpty)).print =
      (attrMarkup name value).toList := by
  cases value with
  | none => rfl
  | some v =>
    by_cases empty : v = ""
    · subst empty
      rfl
    · simp [attrMarkup, optionalAttr, empty, Html.Attr.print, Html.Attr.present, toList_escapeAttr,
        Option.filter]

lemma bits_small (run : Run) : run.bits < 2 ^ 32 := by
  simp only [Run.bits, List.map_cons, List.map_nil, List.sum_cons, List.sum_nil, Format.bit]
  split_ifs <;> omega

/-- A run prints its markup. -/
lemma pieces_run (hlink : rules.nodes.get "link" = none) (flavor : Flavor) (run : Run)
    (ruled : Bool) (state : RunState) :
    Html.pieces (chunksForest F rules 0 ruled state (runChunks flavor run)) =
      Html.chars (runMarkup run) := by
  have text : ∀ depth ruled state, chunksForest F rules depth ruled state
      (nodeChunks "text" run.bits run.text) = textForest run.text run.bits :=
    chunksForest_node (.inl rfl) (bits_small run) run.text
  unfold runChunks runMarkup textMarkup
  cases run.link with
  | none =>
    dsimp only
    rw [text, pieces_textForest]
  | some url =>
    have inl : isInlineType (typeOf (linkAttributes flavor url run.title)) = true := rfl
    have rule : rules.nodes.get (typeOf (linkAttributes flavor url run.title)) = none := hlink
    have href : strAttr (linkAttributes flavor url run.title) "__url" = some url := rfl
    have title : strAttr (linkAttributes flavor url run.title) "__title" = run.title := by
      cases run.title <;> rfl
    dsimp only
    rw [chunksForest, chunksForest, chunkForest, if_pos inl, rule]
    dsimp only
    rw [text, List.append_nil, Html.pieces_cons, Html.pieces_nil, List.append_nil, linkTree,
      if_pos (by decide), Html.Tree.pieces, pieces_textForest]
    simp only [LexicalHtml.linkAttrs, href, title]
    have address : (Html.Attr.mk "href" (safeHref url) false).print =
        (" href=\"" ++ escapeAttr (safeHref url) ++ "\"").toList := by
      simp [Html.Attr.print, Html.Attr.present, toList_escapeAttr]
    have slot := print_filtered "title" run.title
    simp [Html.openTag, Html.closeTag, Html.chars, slot, address]

/-- The content of a block prints the markup of its runs. -/
lemma pieces_content (hlink : rules.nodes.get "link" = none) (flavor : Flavor) (runs : List Run)
    (attrs : Attrs) (ruled : Bool) :
    Html.pieces (inlineForest F rules ⟨attrs, chunks (writeAll (content flavor runs))⟩ 0 ruled) =
      Html.chars (contentMarkup runs) := by
  have all : ∀ (runs : List Run) (state : RunState),
      Html.pieces (chunksForest F rules 0 ruled state (runs.flatMap (runChunks flavor))) =
        Html.chars (contentMarkup runs) := by
    intro runs
    induction runs with
    | nil => intro state; simp [chunksForest, contentMarkup]
    | cons run runs ih =>
      intro state
      have joined : contentMarkup (run :: runs) = runMarkup run ++ contentMarkup runs := by
        simp [contentMarkup]
      rw [List.flatMap_cons, chunksForest_append, Html.pieces_append, pieces_run hlink, ih, joined,
        Html.chars_append]
  rw [inlineForest, (chunks_content flavor runs).1]
  exact all runs .init

/-- Content has no blocks. -/
lemma blockChunks_content (flavor : Flavor) (runs : List Run) (onlyLists : Bool) (depth : ℕ) :
    blockChunksForest F rules onlyLists depth (chunks (writeAll (content flavor runs))) = [] := by
  have all : ∀ cs : List Chunk, (∀ c ∈ cs, blockChunkForest F rules onlyLists depth c = []) →
      blockChunksForest F rules onlyLists depth cs = [] := by
    intro cs h
    induction cs with
    | nil => rw [blockChunksForest]
    | cons c cs ih =>
      rw [blockChunksForest, h c (by simp), ih fun d hd => h d (by simp [hd]), List.nil_append]
  apply all
  intro c hc
  rw [(chunks_content flavor runs).1, List.mem_flatMap] at hc
  obtain ⟨run, -, hc⟩ := hc
  have node : ∀ c ∈ nodeChunks "text" run.bits run.text,
      blockChunkForest F rules onlyLists depth c = [] := by
    intro c hc
    unfold nodeChunks textChunks at hc
    split at hc
    · rw [List.mem_singleton.mp hc, blockChunkForest]
      simp
    · simp only [List.mem_cons, List.not_mem_nil, or_false] at hc
      rcases hc with rfl | rfl
      · simp [blockChunkForest]
      · simp [blockChunkForest]
  unfold runChunks at hc
  cases hlink : run.link with
  | none =>
    rw [hlink] at hc
    exact node c hc
  | some url =>
    rw [hlink] at hc
    have inl : isInlineType (typeOf (linkAttributes flavor url run.title)) = true := rfl
    rw [List.mem_singleton.mp hc, blockChunkForest, if_pos inl]

end

/-! ## Documents -/

section

variable (flavor : Flavor) (F : Foreign) (decode : String → Dict Value) (toS : Value → String)

/-- The native rules of a class. -/
def rulesOf : Rules := compile (nodes toS flavor) []

/-- What fills the holes of a rendering. -/
def fills : Deferred → String → Option String := supply decode (callbacks (nodes toS flavor))

/-- The blocks of a root, rendered one after the other.  `none` is an exception. -/
def blocksHtml (root : List Item) : Option String :=
  Html.fill (fills flavor decode toS)
    (Html.segments (forest F (rulesOf flavor toS) (children root)))

variable {flavor F decode toS}

/-- `to_html` of a root of Lexical's shape is that of its blocks. -/
lemma toHtml_eq {root : List Item} (shaped : isLexicalShaped (children root) = true) :
    toHtml flavor F decode toS root = (blocksHtml flavor F decode toS root).map some := by
  rw [toHtml, LexicalHtml.toHtml, renderSegments_eq shaped, toHtml_segments]
  rfl

lemma children_push (root : List Item) (attrs : Attrs) (content : List Piece) :
    children (pushXmlText root attrs content) =
      children root ++ [.text ⟨attrs, chunks (writeAll content)⟩] := by
  simp [children, pushXmlText, Piece.write, List.filterMap_append]

lemma filled_append (ts us : List Tree) {supply : Deferred → String → Option String} :
    Html.filled supply (ts ++ us) =
      (Html.filled supply ts).bind fun head => (Html.filled supply us).map (head ++ ·) := by
  rw [← Html.fillPieces_pieces, Html.pieces_append, Html.fillPieces_append,
    Html.fillPieces_pieces, Html.fillPieces_pieces]

/-- A new block comes after the blocks that were there, which render as before. -/
lemma toHtml_push {root : List Item} {attrs : Attrs} {content : List Piece} {markup : String}
    (typed : attrs.containsKey "__type" = true)
    (block : Html.filled (fills flavor decode toS)
      (blockForest F (rulesOf flavor toS) ⟨attrs, chunks (writeAll content)⟩ 0) =
        some markup.toList) :
    toHtml flavor F decode toS (pushXmlText root attrs content) =
      (blocksHtml flavor F decode toS root).map fun old => some (old ++ markup) := by
  have shaped : isLexicalShaped (children (pushXmlText root attrs content)) = true := by
    simp [children_push, isLexicalShaped, isTyped, typed]
  have last : forest F (rulesOf flavor toS)
      (children root ++ [.text ⟨attrs, chunks (writeAll content)⟩]) =
      forest F (rulesOf flavor toS) (children root) ++
        blockForest F (rulesOf flavor toS) ⟨attrs, chunks (writeAll content)⟩ 0 := by
    simp [forest, rootForest]
  rw [toHtml_eq shaped, blocksHtml, blocksHtml, children_push, last, Html.fill_segments,
    Html.fill_segments, filled_append, block]
  cases Html.filled (fills flavor decode toS) (forest F (rulesOf flavor toS) (children root)) with
  | none => rfl
  | some old => simp

end

/-! ## The blocks -/

section

variable {flavor : Flavor} {F : Foreign} {decode : String → Dict Value} {toS : Value → String}
  {rules : Rules}

lemma filled_of_pieces {supply : Deferred → String → Option String} {ts : List Tree} {s : String}
    (h : Html.pieces ts = Html.chars s) : Html.filled supply ts = some s.toList := by
  rw [← Html.fillPieces_pieces, h, Html.chars, Html.fillPieces_chars]

/-- Neither class has a rule for these. -/
lemma get_plain {type : String} (h : type ∈ ["paragraph", "heading", "list", "link"]) :
    (rulesOf flavor toS).nodes.get type = none := by
  simp only [List.mem_cons, List.not_mem_nil, or_false] at h
  rw [rulesOf, get_compile]
  cases flavor with
  | lexical => rfl
  | lexxy =>
    rcases h with rfl | rfl | rfl | rfl <;> simp [nodes, lexxyNodes, Dict.get, List.lookup_cons]

lemma pieces_element {tag : String} {attrs : List Html.Attr} {opening closing : String}
    {ts : List Tree} {s : String} (hopen : Html.openTag tag attrs = opening.toList)
    (hclose : Html.closeTag tag = closing.toList) (h : Html.pieces ts = Html.chars s) :
    Html.pieces [.elem tag attrs ts] = Html.chars (opening ++ s ++ closing) := by
  simp [Html.Tree.pieces, hopen, h, Html.chars, hclose]

lemma closeTag_plain (tag : String) : Html.closeTag tag = ("</" ++ tag ++ ">").toList := by
  simp [Html.closeTag]

lemma openTag_plain (tag : String) : Html.openTag tag [] = ("<" ++ tag ++ ">").toList := by
  simp [Html.openTag]

lemma pieces_paragraph (plain : rules.nodes.get "paragraph" = none)
    (hlink : rules.nodes.get "link" = none) (runs : List Run) (blocks : Bool → List Tree) :
    Html.pieces (blockTrees F rules
      ⟨paragraphAttributes, chunks (writeAll (content flavor runs))⟩ blocks) =
        Html.chars (paragraphMarkup runs) := by
  have inline := pieces_content (F := F) hlink flavor runs paragraphAttributes true
  have type : nodeType ⟨paragraphAttributes, chunks (writeAll (content flavor runs))⟩ =
      "paragraph" := rfl
  simp only [blockTrees, type, plain]
  unfold paragraphForest paragraphMarkup
  by_cases empty : contentMarkup runs = ""
  · simp [inline, empty, Html.Tree.pieces, Html.openTag, Html.closeTag, Html.chars]
  · have shown : (Html.pieces (inlineForest F rules ⟨paragraphAttributes,
        chunks (writeAll (content flavor runs))⟩ 0 true)).isEmpty = false := by
      rw [inline]
      simpa [Html.chars] using empty
    have full : (contentMarkup runs).isEmpty = false := by simpa using empty
    rw [shown, full]
    simp only [Bool.false_eq_true, if_false]
    exact pieces_element (by decide) (by decide) inline

lemma pieces_heading (plain : rules.nodes.get "heading" = none)
    (hlink : rules.nodes.get "link" = none) (tag : String) (runs : List Run)
    (blocks : Bool → List Tree) :
    Html.pieces (blockTrees F rules
      ⟨headingAttributes tag, chunks (writeAll (content flavor runs))⟩ blocks) =
        Html.chars (headingMarkup tag runs) := by
  have inline := pieces_content (F := F) hlink flavor runs (headingAttributes tag) true
  have type : nodeType ⟨headingAttributes tag, chunks (writeAll (content flavor runs))⟩ =
      "heading" := rfl
  have stored : headingTag ⟨headingAttributes tag, chunks (writeAll (content flavor runs))⟩ =
      tagOfHeading tag := rfl
  simp only [blockTrees, type, plain, stored]
  have element := pieces_element (openTag_plain (tagOfHeading tag))
    (closeTag_plain (tagOfHeading tag)) inline
  rw [element]
  simp [headingMarkup, String.append_assoc]

lemma pieces_quote_lexical (hlink : rules.nodes.get "link" = none)
    (plain : rules.nodes.get "quote" = none) (runs : List Run) (blocks : Bool → List Tree) :
    Html.pieces (blockTrees F rules
      ⟨quoteAttributes, chunks (writeAll (content flavor runs))⟩ blocks) =
        Html.chars ("<blockquote>" ++ contentMarkup runs ++ "</blockquote>") := by
  have inline := pieces_content (F := F) hlink flavor runs quoteAttributes true
  have type : nodeType ⟨quoteAttributes, chunks (writeAll (content flavor runs))⟩ = "quote" := rfl
  simp only [blockTrees, type, plain]
  exact pieces_element (by decide) (by decide) inline

/-- The language of a code block as an attribute. -/
lemma openTag_language (language : String) :
    Html.openTag "pre" [optionalAttr "data-language"
      ((some language).filter fun l => !l.isEmpty)] =
        ("<pre" ++ attrMarkup "data-language" (some language) ++ ">").toList := by
  have slot := print_filtered "data-language" (some language)
  simp only [Html.openTag, List.flatMap_cons, List.flatMap_nil, slot]
  simp

lemma renderRun_plain (s : String) : renderRun s 0 "" = escapeText s := by
  simp [renderRun, hasFormat, outerTag]

lemma pieces_code (rules : Rules) (code : String) (attrs : Attrs) (ruled : Bool) :
    Html.pieces (inlineForest F rules
      ⟨attrs, chunks (writeAll [.embed codeTextAttributes, .text code])⟩ 0 ruled) =
        Html.chars (escapeText code) := by
  have node : chunks (writeAll [.embed codeTextAttributes, .text code]) =
      nodeChunks "code-highlight" 0 code := chunks_node_alone "code-highlight" 0 code
  rw [inlineForest, node, chunksForest_node (.inr rfl) (by decide), pieces_textForest,
    renderRun_plain]
  by_cases empty : code = ""
  · subst empty
    rfl
  · simp [empty]

/-- The rules of Lexxy for what Ruby writes. -/
lemma get_lexxy :
    (rulesOf .lexxy toS).nodes.get "quote" =
      some (.declarative "blockquote" false [] none .blocks) ∧
    (rulesOf .lexxy toS).nodes.get "early_escape_code" =
      some (.declarative "pre" false [("data-language", [.ref "language"])] none .inline) ∧
    (rulesOf .lexxy toS).nodes.get "early_escape_listitem" = some (.callback .blocks) := by
  refine ⟨?_, ?_, ?_⟩
  all_goals
    rw [rulesOf, get_compile]
    simp [nodes, lexxyNodes, Dict.get, List.lookup_cons, compileNode]

/-- One block in another, as a chunk and as a tree. -/
lemma chunks_block (attrs : Attrs) (content : List Piece) (rest : List Item) :
    chunks ((Piece.block attrs content).write ++ rest) =
      .text attrs (chunks (writeAll content)) :: chunks rest := by
  rw [Piece.write, List.singleton_append, chunks, prependItem]

lemma blockChunkForest_block {attrs : Attrs} (own : isInlineType (typeOf attrs) = false)
    (cs : List Chunk) (depth : ℕ) :
    blockChunkForest F rules false depth (.text attrs cs) =
      blockTrees F rules ⟨attrs, cs⟩ fun only =>
        if maxBlockDepth ≤ depth then [] else blockChunksForest F rules only (depth + 1) cs := by
  rw [blockChunkForest, own]
  simp

lemma pieces_quote_lexxy (hlink : rules.nodes.get "link" = none)
    (plain : rules.nodes.get "paragraph" = none)
    (rule : rules.nodes.get "quote" = some (.declarative "blockquote" false [] none .blocks))
    (runs : List Run) :
    Html.pieces (blockForest F rules
      ⟨quoteAttributes, chunks (writeAll [.block paragraphAttributes (content flavor runs)])⟩ 0) =
        Html.chars ("<blockquote>" ++ paragraphMarkup runs ++ "</blockquote>") := by
  have stored : chunks (writeAll [.block paragraphAttributes (content flavor runs)]) =
      [.text paragraphAttributes (chunks (writeAll (content flavor runs)))] := by
    have one := chunks_block paragraphAttributes (content flavor runs) []
    simpa [writeAll, chunks] using one
  have outer : isInlineType (typeOf paragraphAttributes) = false := rfl
  have inline : ∀ attrs, inlineForest F rules ⟨attrs,
      [.text paragraphAttributes (chunks (writeAll (content flavor runs)))]⟩ 0 false = [] := by
    intro attrs
    rw [inlineForest, chunksForest, chunksForest, chunkForest, outer]
    simp
  have paragraph : Html.pieces (childForest F rules ⟨quoteAttributes,
      [.text paragraphAttributes (chunks (writeAll (content flavor runs)))]⟩ 0 false) =
      Html.chars (paragraphMarkup runs) := by
    rw [childForest, if_neg (by decide), blockChunksForest, blockChunksForest, List.append_nil,
      blockChunkForest_block outer]
    exact pieces_paragraph plain hlink runs _
  have type : nodeType ⟨quoteAttributes,
      [.text paragraphAttributes (chunks (writeAll (content flavor runs)))]⟩ = "quote" := rfl
  rw [stored, blockForest]
  simp only [blockTrees, type, rule, ruleTree, contentForest, inline, List.nil_append]
  apply pieces_element (by decide) (by decide)
  rw [Html.pieces_cons, paragraph]
  rfl

lemma pieces_code_lexical (plain : rules.nodes.get "code" = none) (language code : String)
    (blocks : Bool → List Tree) :
    Html.pieces (blockTrees F rules ⟨codeAttributes .lexical language,
      chunks (writeAll [.embed codeTextAttributes, .text code])⟩ blocks) =
        Html.chars (codeMarkup language code) := by
  have inline := pieces_code (F := F) rules code (codeAttributes .lexical language) true
  have type : nodeType ⟨codeAttributes .lexical language,
      chunks (writeAll [.embed codeTextAttributes, .text code])⟩ = "code" := rfl
  have stored : strAttr (codeAttributes .lexical language) "__language" = some language := rfl
  simp only [blockTrees, type, plain, stored]
  exact pieces_element (openTag_language language) (by decide) inline

lemma pieces_code_lexxy (rule : rules.nodes.get "early_escape_code" =
      some (.declarative "pre" false [("data-language", [.ref "language"])] none .inline))
    (language code : String) (blocks : Bool → List Tree) :
    Html.pieces (blockTrees F rules ⟨codeAttributes .lexxy language,
      chunks (writeAll [.embed codeTextAttributes, .text code])⟩ blocks) =
        Html.chars (codeMarkup language code) := by
  have inline := pieces_code (F := F) rules code (codeAttributes .lexxy language) true
  have type : nodeType ⟨codeAttributes .lexxy language,
      chunks (writeAll [.embed codeTextAttributes, .text code])⟩ = "early_escape_code" := rfl
  have stored : xmlRefAttr (codeAttributes .lexxy language) "language" = some language := rfl
  have slots : ruleAttrs (xmlRefAttr (codeAttributes .lexxy language))
      [("data-language", [.ref "language"])] =
      [optionalAttr "data-language" ((some language).filter fun l => !l.isEmpty)] := by
    have resolved : resolveParts [.ref "language"] (xmlRefAttr (codeAttributes .lexxy language)) =
        (some language).filter fun l => !l.isEmpty := by
      simp only [resolveParts, List.foldl_cons, List.foldl_nil, stored, String.empty_append]
      by_cases empty : language.isEmpty = true
      · simp [Option.filter, empty]
      · simp [Option.filter, empty]
    rw [ruleAttrs, List.map_singleton]
    dsimp only
    rw [resolved]
  simp only [blockTrees, type, rule, ruleTree, slots, contentForest]
  apply pieces_element (openTag_language language) (by decide)
  have noText : Html.Tree.pieces (η := Deferred) (.text (templateText
      (xmlRefAttr (codeAttributes .lexxy language)) none)) = [] := by
    simp [templateText, Html.Tree.pieces]
  rw [Html.pieces_cons, inline, noText, List.nil_append]

/-! ### Lists -/

/-- `JSON.parse` reads the object of these attributes as it was stored. -/
def Reads (json : Json) (decode : String → Dict Value) (attrs : Attrs) : Prop :=
  ∃ parsed, parseJson decode (xmlAttrsJson json attrs) = some parsed ∧
    ∀ key, parsed.get key =
      match attrs.get key with
      | some (.any v) => some v
      | _ => none

/-- The text of a list item, as a block of its own. -/
def itemText (flavor : Flavor) (value : ℕ) (runs : List Run) : XmlText :=
  ⟨listItemAttributes flavor value, chunks (writeAll (content flavor runs))⟩

lemma pieces_item_lexical (plain : rules.nodes.get "listitem" = none)
    (hlink : rules.nodes.get "link" = none) (value : ℕ) (runs : List Run)
    {blocks : Bool → List Tree} (leaf : ∀ only, blocks only = []) :
    Html.pieces (blockTrees F rules (itemText .lexical value runs) blocks) =
      Html.chars ("<li value=\"" ++ toString value ++ "\">" ++ contentMarkup runs ++ "</li>") := by
  have inline :=
    pieces_content (F := F) hlink .lexical runs (listItemAttributes .lexical value) true
  have type : nodeType (itemText .lexical value runs) = "listitem" := rfl
  have slots : LexicalHtml.itemAttrs (itemText .lexical value runs) =
      [⟨"value", toString (value : ℤ), false⟩] := rfl
  have opened : Html.openTag "li" [⟨"value", toString (value : ℤ), false⟩] =
      ("<li value=\"" ++ toString value ++ "\">").toList := by
    have digits : List.flatMap Html.attrChar (Nat.toDigits 10 value) = Nat.toDigits 10 value := by
      have integer := flatMap_attrChar_toString value
      have same : toString (value : ℤ) = toString value := rfl
      simpa [same] using integer
    have same : toString (value : ℤ) = toString value := rfl
    simp [Html.openTag, Html.Attr.print, Html.Attr.present, same, digits]
  simp only [blockTrees, type, plain, slots, leaf, List.append_nil]
  exact pieces_element opened (by decide) inline

/-- The children of a list item are links. -/
lemma list_not_mem (flavor : Flavor) (attrs : Attrs) (runs : List Run) :
    "list" ∉ textChildTypes ⟨attrs, chunks (writeAll (content flavor runs))⟩ := by
  rw [(chunks_content flavor runs).1]
  unfold textChildTypes
  rw [List.mem_filterMap]
  rintro ⟨c, hc, type⟩
  obtain ⟨run, -, hc⟩ := List.mem_flatMap.mp hc
  have node : ∀ c ∈ nodeChunks "text" run.bits run.text, ∀ attrs cs, c ≠ .text attrs cs ∧
      c ≠ .element attrs := by
    intro c hc attrs cs
    unfold nodeChunks textChunks at hc
    split at hc
    · rw [List.mem_singleton.mp hc]
      simp
    · simp only [List.mem_cons, List.not_mem_nil, or_false] at hc
      rcases hc with rfl | rfl
      · simp
      · simp
  unfold runChunks at hc
  cases hlink : run.link with
  | none =>
    rw [hlink] at hc
    cases c with
    | text attrs cs => exact (node _ hc attrs cs).1 rfl
    | element attrs => exact (node _ hc attrs []).2 rfl
    | map attrs => simp at type
    | run s => simp at type
    | other => simp at type
  | some url =>
    rw [hlink] at hc
    have own : typeOf (linkAttributes flavor url run.title) = "link" := rfl
    rw [List.mem_singleton.mp hc] at type
    simp [own] at type

lemma filled_item_lexxy (ints : ∀ n : ℤ, toS (.int n) = toString n) {value : ℕ}
    (reads : Reads F.toJson decode (listItemAttributes .lexxy value)) (runs : List Run)
    {blocks : Bool → List Tree} (leaf : ∀ only, blocks only = []) :
    Html.filled (fills .lexxy decode toS)
      (blockTrees F (rulesOf .lexxy toS) (itemText .lexxy value runs) blocks) =
        some ("<li value=\"" ++ toString value ++ "\">" ++ contentMarkup runs ++
          "</li>").toList := by
  obtain ⟨parsed, parses, same⟩ := reads
  have hlink : (rulesOf .lexxy toS).nodes.get "link" = none := get_plain (by decide)
  have inline := pieces_content (F := F) hlink .lexxy runs (listItemAttributes .lexxy value) false
  have type : nodeType (itemText .lexxy value runs) = "early_escape_listitem" := rfl
  have block : callbacks (nodes toS .lexxy) "early_escape_listitem" = some (listItem toS) := by
    simp [callbacks, nodes, lexxyNodes, Dict.get, List.lookup_cons]
  have checked : parsed.get "__checked" = none := same "__checked"
  have number : parsed.get "__value" = some (.int value) := same "__value"
  have noList := list_not_mem .lexxy (listItemAttributes .lexxy value) runs
  have supplied : fills .lexxy decode toS (deferredText F (itemText .lexxy value runs))
      (contentMarkup runs) =
        some ("<li value=\"" ++ toString value ++ "\">" ++ contentMarkup runs ++ "</li>") := by
    have label : deferredText F (itemText .lexxy value runs) = ⟨"early_escape_listitem",
        xmlAttrsJson F.toJson (listItemAttributes .lexxy value),
        textChildTypes (itemText .lexxy value runs)⟩ := rfl
    have digits : escapeAttr (toS (.int value)) = toString value := by
      rw [ints, ← String.toList_inj, toList_escapeAttr, flatMap_attrChar_toString]
      rfl
    rw [label, fills, supply, parses, Option.bind_some, block, Option.bind_some, listItem]
    simp [Node.attr, itemNumber, checked, number, digits, itemText, noList]
    rw [← String.toList_inj]
    simp
  have inside : Html.filled (fills .lexxy decode toS)
      (inlineForest F (rulesOf .lexxy toS) (itemText .lexxy value runs) 0 false) =
        some (contentMarkup runs).toList := filled_of_pieces inline
  simp only [blockTrees, type, get_lexxy.2.2, ruleTree, contentForest, leaf, List.append_nil]
  rw [Html.filled, Html.filled, Html.Tree.filled, inside]
  simp [supplied]

/-- The numbers of the list items that a call writes. -/
def itemNumbers : NewBlock → List ℕ
  | .list _ items => List.range' 1 items.length
  | _ => []

/-- One item of a list, under either class. -/
lemma filled_item (ints : ∀ n : ℤ, toS (.int n) = toString n) {value : ℕ}
    (reads : flavor = .lexxy → Reads F.toJson decode (listItemAttributes .lexxy value))
    (runs : List Run) {blocks : Bool → List Tree} (leaf : ∀ only, blocks only = []) :
    Html.filled (fills flavor decode toS)
      (blockTrees F (rulesOf flavor toS) (itemText flavor value runs) blocks) =
        some ("<li value=\"" ++ toString value ++ "\">" ++ contentMarkup runs ++
          "</li>").toList := by
  cases flavor with
  | lexical => exact filled_of_pieces (pieces_item_lexical rfl rfl value runs leaf)
  | lexxy => exact filled_item_lexxy ints (reads rfl) runs leaf

/-- The items of a list as chunks. -/
lemma chunks_entries (flavor : Flavor) (items : List (List Run)) (value : ℕ) :
    (∀ c ∈ chunks (writeAll (entries flavor value items)), ∃ runs n, c =
      .text (listItemAttributes flavor n) (chunks (writeAll (content flavor runs)))) := by
  induction items generalizing value with
  | nil => simp [entries, writeAll, chunks]
  | cons runs items ih =>
    rw [entries, writeAll, chunks_block]
    intro c hc
    rcases List.mem_cons.mp hc with rfl | rest
    · exact ⟨runs, value, rfl⟩
    · exact ih (value + 1) c rest

lemma item_not_inline (flavor : Flavor) (value : ℕ) :
    isInlineType (typeOf (listItemAttributes flavor value)) = false := by
  cases flavor <;> rfl

/-- The items are no inline content of a list. -/
lemma inline_entries (flavor : Flavor) (items : List (List Run)) (value : ℕ) (attrs : Attrs) :
    inlineForest F rules ⟨attrs, chunks (writeAll (entries flavor value items))⟩ 0 false = [] := by
  have all : ∀ (cs : List Chunk) (run : RunState), (∀ c ∈ cs, ∃ runs n, c =
      .text (listItemAttributes flavor n) (chunks (writeAll (content flavor runs)))) →
      chunksForest F rules 0 false run cs = [] := by
    intro cs
    induction cs with
    | nil => intro run _; rw [chunksForest]
    | cons c cs ih =>
      intro run h
      obtain ⟨runs, n, rfl⟩ := h c (by simp)
      have own := item_not_inline flavor n
      rw [chunksForest, ih _ fun d hd => h d (by simp [hd]), chunkForest, own]
      simp
  exact all _ _ (chunks_entries flavor items value)

/-- The items of a list, numbered from a value on. -/
lemma filled_entries (ints : ∀ n : ℤ, toS (.int n) = toString n) (items : List (List Run))
    (value : ℕ) (reads : ∀ n, value ≤ n → n < value + items.length → flavor = .lexxy →
      Reads F.toJson decode (listItemAttributes .lexxy n)) :
    Html.filled (fills flavor decode toS)
      (blockChunksForest F (rulesOf flavor toS) false 1
        (chunks (writeAll (entries flavor value items)))) =
      some (itemsMarkup value items).toList := by
  induction items generalizing value with
  | nil => simp [entries, writeAll, chunks, blockChunksForest, Html.filled, itemsMarkup]
  | cons runs items ih =>
    have leaf : ∀ only, (if maxBlockDepth ≤ 1 then [] else blockChunksForest F
        (rulesOf flavor toS) only (1 + 1) (chunks (writeAll (content flavor runs)))) = [] := by
      intro only
      rw [if_neg (by decide)]
      exact blockChunks_content flavor runs only _
    have item := filled_item ints (reads value (by omega) (by simp)) runs leaf
    have rest := ih (value + 1) fun n low high =>
      reads n (by omega) (by simp only [List.length_cons]; omega)
    rw [entries, writeAll, chunks_block, blockChunksForest, filled_append, rest,
      blockChunkForest_block (item_not_inline flavor value)]
    rw [itemText] at item
    rw [item]
    simp [itemsMarkup]

lemma filled_list (ints : ∀ n : ℤ, toS (.int n) = toString n) (ordered : Bool)
    (items : List (List Run)) (reads : ∀ n, 1 ≤ n → n < 1 + items.length → flavor = .lexxy →
      Reads F.toJson decode (listItemAttributes .lexxy n)) :
    Html.filled (fills flavor decode toS) (blockForest F (rulesOf flavor toS)
      ⟨listAttributes ordered, chunks (writeAll (entries flavor 1 items))⟩ 0) =
        some (listMarkup ordered items).toList := by
  have type : nodeType ⟨listAttributes ordered, chunks (writeAll (entries flavor 1 items))⟩ =
      "list" := rfl
  have plain : (rulesOf flavor toS).nodes.get "list" = none := get_plain (by decide)
  have tag : listTag ⟨listAttributes ordered, chunks (writeAll (entries flavor 1 items))⟩ =
      if ordered then "ol" else "ul" := by
    cases ordered <;> rfl
  have inside := filled_entries (F := F) ints items 1 reads
  have children : childForest F (rulesOf flavor toS)
      ⟨listAttributes ordered, chunks (writeAll (entries flavor 1 items))⟩ 0 false =
        blockChunksForest F (rulesOf flavor toS) false 1
          (chunks (writeAll (entries flavor 1 items))) := by
    rw [childForest, if_neg (by decide)]
  rw [blockForest]
  simp only [blockTrees, type, plain, inline_entries, List.nil_append, children, tag]
  rw [Html.filled, Html.filled, Html.Tree.filled, inside]
  cases ordered <;> simp [listMarkup, Html.openTag, Html.closeTag]

/-- A new block renders as its markup. -/
lemma filled_block (ints : ∀ n : ℤ, toS (.int n) = toString n) (b : NewBlock)
    (reads : ∀ n ∈ itemNumbers b, flavor = .lexxy →
      Reads F.toJson decode (listItemAttributes .lexxy n)) :
    ∃ attrs content, (∀ root, append flavor root b = pushXmlText root attrs content) ∧
      attrs.containsKey "__type" = true ∧
      Html.filled (fills flavor decode toS)
        (blockForest F (rulesOf flavor toS) ⟨attrs, chunks (writeAll content)⟩ 0) =
          some (blockMarkup flavor b).toList := by
  have hlink : (rulesOf flavor toS).nodes.get "link" = none := get_plain (by decide)
  have paragraph : (rulesOf flavor toS).nodes.get "paragraph" = none := get_plain (by decide)
  have heading : (rulesOf flavor toS).nodes.get "heading" = none := get_plain (by decide)
  cases b with
  | paragraph runs =>
    refine ⟨paragraphAttributes, content flavor runs, fun _ => rfl, rfl, ?_⟩
    exact filled_of_pieces (pieces_paragraph paragraph hlink runs _)
  | heading tag runs =>
    refine ⟨headingAttributes tag, content flavor runs, fun _ => rfl, rfl, ?_⟩
    exact filled_of_pieces (pieces_heading heading hlink tag runs _)
  | quote runs =>
    cases flavor with
    | lexical =>
      refine ⟨quoteAttributes, content .lexical runs, fun _ => rfl, rfl, ?_⟩
      exact filled_of_pieces (pieces_quote_lexical hlink rfl runs _)
    | lexxy =>
      refine ⟨quoteAttributes, [.block paragraphAttributes (content .lexxy runs)],
        fun _ => rfl, rfl, ?_⟩
      exact filled_of_pieces (pieces_quote_lexxy hlink paragraph get_lexxy.1 runs)
  | code language code =>
    refine ⟨codeAttributes flavor language, [.embed codeTextAttributes, .text code],
      fun _ => rfl, ?_, ?_⟩
    · cases flavor <;> rfl
    · cases flavor with
      | lexical => exact filled_of_pieces (pieces_code_lexical rfl language code _)
      | lexxy => exact filled_of_pieces (pieces_code_lexxy get_lexxy.2.1 language code _)
  | list ordered items =>
    refine ⟨listAttributes ordered, entries flavor 1 items, fun _ => rfl, rfl, ?_⟩
    apply filled_list ints ordered items
    intro n low high
    apply reads n
    rw [itemNumbers, List.mem_range'_1]
    exact ⟨low, high⟩

end

/-! ## The round trip -/

/-- Appending a block leaves the rendering of the blocks before it as it is, and adds the markup of
the block, in both classes and to every root.  What the root held renders as the root did, when
that was a root of Lexical's shape. -/
theorem append_renders (flavor : Flavor) (F : Foreign) (decode : String → Dict Value)
    (toS : Value → String) (ints : ∀ n : ℤ, toS (.int n) = toString n) (root : List Item)
    (b : NewBlock) (reads : ∀ n ∈ itemNumbers b, flavor = .lexxy →
      Reads F.toJson decode (listItemAttributes .lexxy n)) :
    toHtml flavor F decode toS (append flavor root b) =
        ((blocksHtml flavor F decode toS root).map fun old =>
          some (old ++ blockMarkup flavor b)) ∧
      (isLexicalShaped (children root) = true →
        toHtml flavor F decode toS root = (blocksHtml flavor F decode toS root).map some) := by
  obtain ⟨attrs, content, same, typed, block⟩ := filled_block ints b reads
  refine ⟨?_, toHtml_eq⟩
  rw [same]
  exact toHtml_push typed block

/-! ### One item, and a run without text -/

/-- A bold run. -/
def boldRun (text : String) : Run := ⟨text, fun f => f = .bold, none, none⟩

/-- What `listItemAttributes .lexxy 1` stores. -/
def itemValues : Dict Value :=
  [("__type", .string "early_escape_listitem"), ("__value", .int 1), ("__format", .int 0),
    ("__style", .string ""), ("__indent", .int 0), ("__dir", .null), ("__textFormat", .int 0),
    ("__textStyle", .string "")]

lemma get_stored (values : Dict Value) (key : String) :
    Dict.get (values.map fun entry => (entry.1, Out.any entry.2)) key =
      (values.get key).map .any := by
  induction values with
  | nil => rfl
  | cons entry values ih =>
    obtain ⟨name, v⟩ := entry
    simp only [Dict.get] at ih ⊢
    by_cases here : key = name
    · simp [here]
    · simp only [List.map_cons, List.lookup_cons, beq_eq_false_iff_ne.mpr here]
      exact ih

set_option maxRecDepth 4000 in
lemma reads_item :
    Reads plainForeign.toJson (fun _ => itemValues) (listItemAttributes .lexxy 1) := by
  refine ⟨itemValues, ?_, ?_⟩
  · have shallow : nesting (xmlAttrsJson plainForeign.toJson (listItemAttributes .lexxy 1)) ≤
        maxNesting := by decide
    rw [parseJson, if_pos shallow]
  · intro key
    have stored : listItemAttributes .lexxy 1 =
        itemValues.map fun entry => (entry.1, Out.any entry.2) := rfl
    rw [stored, get_stored]
    cases itemValues.get key <;> rfl

/-- `Integer#to_s` -/
def writeInt : Value → String
  | .int n => toString n
  | _ => ""

theorem append_renders_item :
    toHtml .lexxy plainForeign (fun _ => itemValues) writeInt
        (append .lexxy [] (.list false [[boldRun "a"]])) =
        ((blocksHtml .lexxy plainForeign (fun _ => itemValues) writeInt []).map fun old =>
          some (old ++ blockMarkup .lexxy (.list false [[boldRun "a"]]))) ∧
      (isLexicalShaped (children []) = true →
        toHtml .lexxy plainForeign (fun _ => itemValues) writeInt [] =
          (blocksHtml .lexxy plainForeign (fun _ => itemValues) writeInt []).map some) := by
  apply append_renders .lexxy plainForeign (fun _ => itemValues) writeInt (fun _ => rfl) []
  intro n hn _
  obtain rfl : n = 1 := by simpa [itemNumbers] using hn
  exact reads_item

/-- A paragraph with an empty bold run is an empty paragraph, without the tags of the run. -/
theorem empty_run_untagged :
    renderRun (boldRun "").text (boldRun "").bits "" = "<strong></strong>" ∧
      toHtml .lexical plainForeign (fun _ => []) writeInt
        (append .lexical [] (.paragraph [boldRun ""])) = some (some "<p><br></p>") := by
  refine ⟨by decide, ?_⟩
  have block : Html.filled (fills .lexical (fun _ => []) writeInt)
      (blockForest plainForeign (rulesOf .lexical writeInt)
        ⟨paragraphAttributes, chunks (writeAll (content .lexical [boldRun ""]))⟩ 0) =
        some (paragraphMarkup [boldRun ""]).toList :=
    filled_of_pieces (pieces_paragraph rfl rfl [boldRun ""] _)
  have markup : paragraphMarkup [boldRun ""] = "<p><br></p>" := by decide
  have empty : blocksHtml .lexical plainForeign (fun _ => []) writeInt [] = some "" := rfl
  have pushed : toHtml .lexical plainForeign (fun _ => []) writeInt
      (pushXmlText [] paragraphAttributes (content .lexical [boldRun ""])) = _ :=
    toHtml_push rfl block
  rw [append, appendParagraph, pushed, empty, markup]
  rfl

end Writer

end Yrby
