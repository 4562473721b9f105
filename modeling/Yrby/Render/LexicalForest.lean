import Yrby.Render.LexicalHtml

/-!
# The markup of a Lexical document

`inlineForest` and `blockForest` say which markup trees the Lexical renderer stands for, by
recursion on the document: no emitter, no frames, no stack, no strings.  The renderer prints
exactly these trees (`renderSegments_eq`), from whatever the emitter held before.
-/

namespace Yrby

namespace LexicalHtml

open HtmlCore Emitter

/-! ## Text runs -/

/-- The tree of a run.  The style sits on the outermost of the semantic tags. -/
def runTree (text : String) (format : ℕ) (style : String) : Tree :=
  let slot := [optionalAttr "style" (lexxyStyle style)]
  let outer := outerTag format
  let innerSlot := if outer.isNone then slot else []
  let t : Tree := .text text
  let t :=
    if hasFormat format fmtBold then .elem "strong" innerSlot [t]
    else if hasFormat format fmtItalic then .elem "em" innerSlot [t]
    else t
  let t :=
    match outer with
    | some tag => .elem tag slot [t]
    | none => t
  let t := if hasFormat format fmtItalic && hasFormat format fmtBold then .elem "i" [] [t] else t
  let t := if hasFormat format fmtStrikethrough then .elem "s" [] [t] else t
  if hasFormat format fmtUnderline then .elem "u" [] [t] else t

lemma lexxyStyle_ne_empty (style : String) : lexxyStyle style ≠ some "" := by
  simp only [lexxyStyle]
  split
  · simp
  · next nonempty =>
    intro h
    apply nonempty
    exact List.isEmpty_iff.mpr (String.ofList_eq_empty_iff.mp (Option.some.inj h))

/-- The print of a style slot. -/
lemma print_style {style : Option String} (nonempty : style ≠ some "") :
    (optionalAttr "style" style).print =
      match style with
      | some css => " style=\"".toList ++ css.toList.flatMap Html.attrChar ++ ['"']
      | none => [] := by
  cases style with
  | none => simp [optionalAttr, Html.Attr.print, Html.Attr.present]
  | some css =>
    have full : css ≠ "" := by simpa using nonempty
    simp [optionalAttr, Html.Attr.print, Html.Attr.present, full]

lemma chars_formatWrap_none {inner : String} {t : Tree} (h : Html.chars inner = t.pieces)
    (tag : String) :
    Html.chars (formatWrap inner tag none) =
      Html.Tree.pieces (η := Deferred) (.elem tag [] [t]) := by
  simp only [Html.chars] at h
  simp [formatWrap, Html.chars, Html.Tree.pieces, Html.openTag, Html.closeTag, h]

lemma chars_formatWrap {inner : String} {t : Tree} (h : Html.chars inner = t.pieces) (tag : String)
    {style : Option String} (nonempty : style ≠ some "") :
    Html.chars (formatWrap inner tag style) =
      Html.Tree.pieces (η := Deferred) (.elem tag [optionalAttr "style" style] [t]) := by
  have slot := print_style nonempty
  simp only [Html.chars] at h
  cases style with
  | none =>
    simp [formatWrap, Html.chars, Html.Tree.pieces, Html.openTag, Html.closeTag, h, slot]
  | some css =>
    simp [formatWrap, Html.chars, Html.Tree.pieces, Html.openTag, Html.closeTag, h, slot,
      toList_escapeAttr]

/-- A wrap that a format bit asks for. -/
lemma chars_wrap_if {inner : String} {t : Tree} (h : Html.chars inner = t.pieces) (p : Bool)
    (tag : String) :
    Html.chars (if p then formatWrap inner tag none else inner) =
      Html.Tree.pieces (if p then .elem tag [] [t] else t) := by
  cases p with
  | true => exact chars_formatWrap_none h tag
  | false => exact h

/-- A wrap in the outer tag, when there is one. -/
lemma chars_wrap_outer {inner : String} {t : Tree} (h : Html.chars inner = t.pieces)
    {style : Option String} (nonempty : style ≠ some "") (outer : Option String) :
    Html.chars
        (match outer with
        | some tag => formatWrap inner tag style
        | none => inner) =
      Html.Tree.pieces
        (match outer with
        | some tag => .elem tag [optionalAttr "style" style] [t]
        | none => t) := by
  cases outer with
  | some tag => exact chars_formatWrap h tag nonempty
  | none => exact h

/-- A run prints its tree. -/
lemma chars_renderRun (text : String) (format : ℕ) (style : String) :
    Html.chars (renderRun text format style) = (runTree text format style).pieces := by
  have nonempty := lexxyStyle_ne_empty style
  have inner : ∀ tag : String, Html.chars (formatWrap (escapeText text) tag
      (if (outerTag format).isNone then lexxyStyle style else none)) =
        Html.Tree.pieces (η := Deferred) (.elem tag (if (outerTag format).isNone then
          [optionalAttr "style" (lexxyStyle style)] else []) [.text text]) := by
    intro tag
    split
    · exact chars_formatWrap (chars_escapeText text) tag nonempty
    · exact chars_formatWrap_none (chars_escapeText text) tag
  have semantic : Html.chars
      (if hasFormat format fmtBold then formatWrap (escapeText text) "strong"
          (if (outerTag format).isNone then lexxyStyle style else none)
        else if hasFormat format fmtItalic then formatWrap (escapeText text) "em"
          (if (outerTag format).isNone then lexxyStyle style else none)
        else escapeText text) =
      Html.Tree.pieces (η := Deferred)
        (if hasFormat format fmtBold then .elem "strong" (if (outerTag format).isNone then
            [optionalAttr "style" (lexxyStyle style)] else []) [.text text]
          else if hasFormat format fmtItalic then .elem "em" (if (outerTag format).isNone then
            [optionalAttr "style" (lexxyStyle style)] else []) [.text text]
          else .text text) := by
    split
    · exact inner "strong"
    · split
      · exact inner "em"
      · exact chars_escapeText text
  have outside := chars_wrap_outer semantic nonempty (outerTag format)
  exact chars_wrap_if (chars_wrap_if (chars_wrap_if outside _ "i") _ "s") _ "u"

/-! ## Inline content -/

variable (F : Foreign) (rules : Rules)

/-- The attribute slots of a link. -/
def linkAttrs (t : XmlText) : List Html.Attr :=
  (match strAttr t.attrs "__url" with
    | some url => [⟨"href", safeHref url, false⟩]
    | none => []) ++
  [optionalAttr "title" ((strAttr t.attrs "__title").filter fun s => !s.isEmpty)]

/-- The tree of a link; over the cap, its text alone. -/
def linkTree (t : XmlText) (depth : ℕ) (body : List Tree) : Tree :=
  .elem "a" (linkAttrs t) (if depth < maxInlineDepth then body else [.text (F.getString t)])

/-- The tree of a rule node in inline position. -/
def ruleInlineTree (t : XmlText) (rule : NodeRule) (depth : ℕ) (body : List Tree) : Tree :=
  ruleTree (xmlRefAttr t.attrs) (deferredText F t)
    (fun content => if content ≠ .none ∧ depth < maxInlineDepth then body else []) rule

/-- The trees of a decorator. -/
def decoratorForest (attrs : Attrs) : List Tree :=
  match rules.nodes.get (typeOf attrs) with
  | some rule => [ruleTree (xmlRefAttr attrs) ⟨typeOf attrs, xmlAttrsJson F.toJson attrs, []⟩
      (fun _ => []) rule]
  | none => if typeOf attrs = "horizontalrule" then [.void "hr" []] else []

mutual

/-- The trees of one chunk in inline position. -/
def chunkForest (depth : ℕ) (ruledInline : Bool) (run : RunState) : Chunk → List Tree
  | .map attrs => if typeOf attrs = "linebreak" then [.void "br" []] else []
  | .run s =>
    if run.isTab then [.elem "span" [] [.text "\t"]]
    else [runTree s.text run.format run.style]
  | .text attrs chunks =>
    let ty := typeOf attrs
    if isInlineType ty then
      match rules.nodes.get ty with
      | some rule =>
        [ruleInlineTree F ⟨attrs, chunks⟩ rule depth (chunksForest (depth + 1) true .init chunks)]
      | none => [linkTree F ⟨attrs, chunks⟩ depth (chunksForest (depth + 1) true .init chunks)]
    else if ruledInline && !isBuiltin ty then
      match rules.nodes.get ty with
      | some rule =>
        [ruleInlineTree F ⟨attrs, chunks⟩ rule depth (chunksForest (depth + 1) true .init chunks)]
      | none =>
        if depth < maxInlineDepth then chunksForest (depth + 1) ruledInline .init chunks else []
    else []
  | .element attrs => decoratorForest F rules attrs
  | .other => []

def chunksForest (depth : ℕ) (ruledInline : Bool) (run : RunState) : List Chunk → List Tree
  | [] => []
  | c :: cs =>
    chunkForest depth ruledInline run c ++ chunksForest depth ruledInline (run.next c) cs

end

/-- The trees of a block's inline content. -/
def inlineForest (t : XmlText) (depth : ℕ) (ruledInline : Bool) : List Tree :=
  chunksForest F rules depth ruledInline .init t.chunks

variable {F rules}

lemma yields_renderLink {t : XmlText} {depth : ℕ} {body : Render Unit} {trees : List Tree}
    (hbody : Yields body () (Html.pieces trees)) :
    Yields (renderLink F t depth body) () (linkTree F t depth trees).pieces := by
  have href : Yields (pushHref (strAttr t.attrs "__url")) ()
      ((List.flatMap Html.Attr.print (match strAttr t.attrs "__url" with
        | some url => [⟨"href", safeHref url, false⟩]
        | none => [])).map .char) := by
    cases strAttr t.attrs "__url" with
    | none => exact Yields.pure ()
    | some url => exact (Yields.pushAttr "href" (safeHref url)).congr (by simp)
  have title : Yields
      (pushOptionalAttr "title" ((strAttr t.attrs "__title").filter fun s => !s.isEmpty)) () _ :=
    Yields.pushOptionalAttr "title" _ (by simp [Option.filter_eq_some_iff])
  have inside : Yields (if depth < maxInlineDepth then body else
      pushStr (escapeText (F.getString t))) ()
      (Html.pieces (if depth < maxInlineDepth then trees else [.text (F.getString t)])) := by
    split
    · exact hbody
    · apply (Yields.pushStr (escapeText (F.getString t))).congr
      simp [chars_escapeText]
  have whole := (Yields.pushStr "<a").seq (href.seq (title.seq ((Yields.push '>').seq
    (inside.seq (Yields.pushStr "</a>")))))
  apply whole.congr
  simp [linkTree, linkAttrs, Html.Tree.pieces, Html.openTag, Html.closeTag, Html.chars]

lemma yields_renderRuleInline {t : XmlText} {rule : NodeRule} {depth : ℕ} {body : Render Unit}
    {trees : List Tree} (hbody : Yields body () (Html.pieces trees)) :
    Yields (renderRuleInline F t rule depth body) ()
      (ruleInlineTree F t rule depth trees).pieces := by
  have inside : ∀ content : Content,
      Yields (if content ≠ .none ∧ depth < maxInlineDepth then body else pure ()) ()
        (Html.pieces (if content ≠ .none ∧ depth < maxInlineDepth then trees else [])) := by
    intro content
    split
    · exact hbody
    · exact Yields.pure ()
  exact Yields.renderRuleNode (xmlRefAttr t.attrs) (deferredText F t) rule inside

lemma yields_renderDecorator (attrs : Attrs) :
    Yields (renderDecorator F rules attrs) () (Html.pieces (decoratorForest F rules attrs)) := by
  unfold renderDecorator decoratorForest
  cases rules.nodes.get (typeOf attrs) with
  | none =>
    by_cases rule : typeOf attrs = "horizontalrule"
    · rw [if_pos rule, if_pos rule]
      exact (Yields.pushStr "<hr>").congr (by simp [Html.Tree.pieces, Html.openTag, Html.chars])
    · rw [if_neg rule, if_neg rule]
      exact Yields.pure ()
  | some rule =>
    cases rule with
    | callback content =>
      apply (Yields.emitDeferred _ _).congr
      simp [ruleTree, Html.Tree.pieces, Html.group]
    | declarative tag void slots text content =>
      have opened := Yields.pushOpenTag tag slots (xmlRefAttr attrs)
      cases void with
      | true => exact (opened.seq (Yields.pure ())).congr (by simp [ruleTree, Html.Tree.pieces])
      | false =>
        have whole := opened.seq ((Yields.pushTemplate text (xmlRefAttr attrs)).seq
          (Yields.pushCloseTag tag))
        apply whole.congr
        simp [ruleTree, Html.Tree.pieces]

mutual

/-- Inline rendering prints the inline trees: one chunk. -/
lemma yields_renderChunk : ∀ (c : Chunk) (depth : ℕ) (ruledInline : Bool) (run : RunState),
    Yields (renderChunk F rules depth ruledInline run c) ()
      (Html.pieces (chunkForest F rules depth ruledInline run c))
  | .map attrs, depth, ruledInline, run => by
    rw [renderChunk, chunkForest]
    split
    · exact (Yields.pushStr "<br>").congr (by simp [Html.Tree.pieces, Html.openTag, Html.chars])
    · exact Yields.pure ()
  | .run s, depth, ruledInline, run => by
    rw [renderChunk, chunkForest]
    split
    · apply (Yields.pushStr "<span>\t</span>").congr
      rfl
    · apply (Yields.pushStr _).congr
      rw [chars_renderRun]
      simp
  | .text attrs chunks, depth, ruledInline, run => by
    have body := yields_renderChunks chunks (depth + 1) true .init
    rw [renderChunk, chunkForest]
    by_cases inl : isInlineType (typeOf attrs) = true
    · rw [if_pos inl, if_pos inl]
      cases rules.nodes.get (typeOf attrs) with
      | some rule => exact (yields_renderRuleInline body).congr (by simp)
      | none => exact (yields_renderLink body).congr (by simp)
    · rw [if_neg inl, if_neg inl]
      by_cases ruled : (ruledInline && !isBuiltin (typeOf attrs)) = true
      · rw [if_pos ruled, if_pos ruled]
        cases rules.nodes.get (typeOf attrs) with
        | some rule => exact (yields_renderRuleInline body).congr (by simp)
        | none =>
          dsimp only
          split
          · exact yields_renderChunks chunks (depth + 1) ruledInline .init
          · exact Yields.pure ()
      · rw [if_neg ruled, if_neg ruled]
        exact Yields.pure ()
  | .element attrs, depth, ruledInline, run => by
    rw [renderChunk, chunkForest]
    exact yields_renderDecorator attrs
  | .other, depth, ruledInline, run => by
    rw [renderChunk, chunkForest]
    exact Yields.pure ()

lemma yields_renderChunks : ∀ (cs : List Chunk) (depth : ℕ) (ruledInline : Bool) (run : RunState),
    Yields (renderChunks F rules depth ruledInline run cs) ()
      (Html.pieces (chunksForest F rules depth ruledInline run cs))
  | [], depth, ruledInline, run => by
    rw [renderChunks, chunksForest]
    exact Yields.pure ()
  | c :: cs, depth, ruledInline, run => by
    have first := yields_renderChunk c depth ruledInline run
    have rest := yields_renderChunks cs depth ruledInline (run.next c)
    rw [renderChunks, chunksForest, Html.pieces_append]
    exact first.seq rest

end

variable (F rules) in
lemma yields_renderInline (t : XmlText) (depth : ℕ) (ruledInline : Bool) :
    Yields (renderInline F rules t depth ruledInline) ()
      (Html.pieces (inlineForest F rules t depth ruledInline)) :=
  yields_renderChunks t.chunks depth ruledInline .init

/-! ## Blocks -/

variable (F rules)

/-- What the content slot of a rule block holds. -/
def contentForest (t : XmlText) (blocks : List Tree) :
    Content → List Tree
  | .inline => inlineForest F rules t 0 true
  | .blocks => inlineForest F rules t 0 false ++ blocks
  | .none => []

def itemAttrs (t : XmlText) : List Html.Attr :=
  (match itemChecked t with
    | some c => [⟨"aria-checked", if c then "true" else "false", false⟩]
    | none => []) ++
  [⟨"value", toString (itemValue t), false⟩]

/-- The trees of a block, given those of its block children: all of them, or the lists alone. -/
def blockTrees (t : XmlText) (blocks : Bool → List Tree) : List Tree :=
  match rules.nodes.get (nodeType t) with
  | some rule =>
    [ruleTree (xmlRefAttr t.attrs) (deferredText F t) (contentForest F rules t (blocks false)) rule]
  | none =>
    match nodeType t with
    | "paragraph" => paragraphForest (inlineForest F rules t 0 true) [.elem "p" [] [.void "br" []]]
    | "heading" => [.elem (headingTag t) [] (inlineForest F rules t 0 true)]
    | "quote" => [.elem "blockquote" [] (inlineForest F rules t 0 true)]
    | "code" =>
      [.elem "pre" [optionalAttr "data-language"
        ((strAttr t.attrs "__language").filter fun l => !l.isEmpty)]
        (inlineForest F rules t 0 true)]
    | "list" => [.elem (listTag t) [] (inlineForest F rules t 0 false ++ blocks false)]
    | "listitem" => [.elem "li" (itemAttrs t) (inlineForest F rules t 0 true ++ blocks true)]
    | "table" =>
      [.elem "table" [] [.elem "tbody" [] (inlineForest F rules t 0 false ++ blocks false)]]
    | "tablerow" => [.elem "tr" [] (inlineForest F rules t 0 false ++ blocks false)]
    | "tablecell" =>
      [.elem (if isHeaderCell t then "th" else "td") []
        (inlineForest F rules t 0 false ++ blocks false)]
    | _ =>
      if !(blockChildren t).isEmpty then inlineForest F rules t 0 false ++ blocks false
      else paragraphForest (inlineForest F rules t 0 true) []

mutual

/-- The trees of a chunk in block position. -/
def blockChunkForest (onlyLists : Bool) (depth : ℕ) : Chunk → List Tree
  | .text attrs chunks =>
    if isInlineType (typeOf attrs) then []
    else if onlyLists && typeOf attrs ≠ "list" then []
    else blockTrees F rules ⟨attrs, chunks⟩ fun only =>
      if maxBlockDepth ≤ depth then [] else blockChunksForest only (depth + 1) chunks
  | _ => []

def blockChunksForest (onlyLists : Bool) (depth : ℕ) : List Chunk → List Tree
  | [] => []
  | c :: cs => blockChunkForest onlyLists depth c ++ blockChunksForest onlyLists depth cs

end

/-- The trees of a block's children. -/
def childForest (t : XmlText) (depth : ℕ) (onlyLists : Bool) : List Tree :=
  if maxBlockDepth ≤ depth then [] else blockChunksForest F rules onlyLists (depth + 1) t.chunks

/-- The trees of a block and everything under it. -/
def blockForest (t : XmlText) (depth : ℕ) : List Tree :=
  blockTrees F rules t (childForest F rules t depth)

variable {F rules}

/-- The block children, each with its own trees. -/
lemma blockChunksForest_eq (onlyLists : Bool) (depth : ℕ) (attrs : Attrs) (chunks : List Chunk) :
    blockChunksForest F rules onlyLists depth chunks =
      ((blockChildren ⟨attrs, chunks⟩).filter fun child =>
        !(onlyLists && nodeType child ≠ "list")).flatMap fun c => blockForest F rules c depth := by
  induction chunks with
  | nil => simp [blockChunksForest, blockChildren]
  | cons c cs ih =>
    rw [blockChunksForest, ih]
    cases c with
    | text attrs' chunks' =>
      rw [blockChunkForest]
      by_cases inl : isInlineType (typeOf attrs') = true
      · simp [blockChildren, inl]
      · by_cases skip : (onlyLists && decide (typeOf attrs' ≠ "list")) = true
        · have dropped :
              (!(onlyLists && decide (nodeType ⟨attrs', chunks'⟩ ≠ "list"))) = false := by
            rw [nodeType, skip]
            rfl
          rw [if_neg inl, if_pos skip]
          simp only [blockChildren, List.filterMap_cons, if_neg inl, List.filter_cons, dropped,
            List.nil_append]
          rfl
        · have kept : (!(onlyLists && decide (nodeType ⟨attrs', chunks'⟩ ≠ "list"))) = true := by
            rw [nodeType, Bool.eq_false_iff.mpr skip]
            rfl
          rw [if_neg inl, if_neg skip]
          simp only [blockChildren, List.filterMap_cons, if_neg inl, List.filter_cons, kept,
            if_true, List.flatMap_cons]
          rfl
    | map attrs' => simp [blockChunkForest, blockChildren]
    | run s => simp [blockChunkForest, blockChildren]
    | element attrs' => simp [blockChunkForest, blockChildren]
    | other => simp [blockChunkForest, blockChildren]

lemma childForest_eq (t : XmlText) (depth : ℕ) (onlyLists : Bool) :
    childForest F rules t depth onlyLists =
      (if maxBlockDepth ≤ depth then [] else (blockChildren t).filter fun child =>
        !(onlyLists && nodeType child ≠ "list")).flatMap fun c =>
          blockForest F rules c (depth + 1) := by
  unfold childForest
  split
  · rfl
  · exact blockChunksForest_eq onlyLists (depth + 1) t.attrs t.chunks

/-- A container renders as its opening, its inline content, its blocks and its end tag. -/
lemma rendered_container {t : XmlText} {depth : ℕ} {close : String} {onlyLists : Bool}
    {pre : List HtmlCore.Piece}
    (hopen : Yields (openBlock F rules t depth) (pushBlockChildren t depth close onlyLists) pre)
    (hchildren : ∀ c ∈ blockChildren t,
      (walker F rules).Rendered c (depth + 1) (Html.pieces (blockForest F rules c (depth + 1)))) :
    (walker F rules).Rendered t depth
      (pre ++ Html.pieces (childForest F rules t depth onlyLists) ++ Html.chars close) := by
  have children := Walker.Rendered.container (w := walker F rules) hopen
    (fun c => Html.pieces (blockForest F rules c (depth + 1))) fun c hc => by
      apply hchildren
      split at hc
      · simp at hc
      · exact (List.mem_filter.mp hc).1
  rw [childForest_eq, Html.pieces_flatMap]
  exact children

lemma childForest_all (t : XmlText) (depth : ℕ) :
    childForest F rules t depth false =
      (if depth < maxBlockDepth then blockChildren t else []).flatMap fun c =>
        blockForest F rules c (depth + 1) := by
  rw [childForest_eq]
  by_cases below : depth < maxBlockDepth
  · simp [below, Nat.not_le.mpr below]
  · simp [below, Nat.not_lt.mp below]

variable (F rules) in
/-- The inline part and the blocks of a content slot make up its trees. -/
lemma pieces_contentForest (t : XmlText) (depth : ℕ) (content : Content) :
    ∃ pre : List HtmlCore.Piece, Yields (renderContent F rules t content) () pre ∧
      Html.pieces (contentForest F rules t (childForest F rules t depth false) content) =
        pre ++ (contentBlocks t depth content).flatMap
          fun c => Html.pieces (blockForest F rules c (depth + 1)) := by
  cases content with
  | inline => exact ⟨_, yields_renderInline F rules t 0 true, by
      simp [contentForest, contentBlocks]⟩
  | none => exact ⟨[], Yields.pure (), by simp [contentForest, contentBlocks]⟩
  | blocks =>
    refine ⟨_, yields_renderInline F rules t 0 false, ?_⟩
    rw [contentForest, Html.pieces_append, childForest_all, Html.pieces_flatMap]
    simp [contentBlocks]

/-- A block with a rule renders its rule's tree. -/
lemma rendered_rule {t : XmlText} {depth : ℕ} {rule : NodeRule}
    (hopen : openBlock F rules t depth = openRuleBlock F rules t rule depth)
    (hchildren : ∀ c ∈ blockChildren t,
      (walker F rules).Rendered c (depth + 1) (Html.pieces (blockForest F rules c (depth + 1)))) :
    (walker F rules).Rendered t depth
      (Html.Tree.pieces (ruleTree (xmlRefAttr t.attrs) (deferredText F t)
        (contentForest F rules t (childForest F rules t depth false)) rule)) := by
  apply Walker.Rendered.rule (w := walker F rules) hopen
  · intro content leaf
    simp [contentBlocks, leaf]
  · intro content c hc
    unfold contentBlocks at hc
    split at hc
    · exact hchildren c hc
    · simp at hc
  · exact pieces_contentForest F rules t depth

lemma yields_pushChecked (checked : Option Bool) :
    Yields (pushChecked checked) ()
      ((List.flatMap Html.Attr.print
        (match checked with
          | some c => [⟨"aria-checked", if c then "true" else "false", false⟩]
          | none => [])).map .char) := by
  cases checked with
  | none => exact Yields.pure ()
  | some c =>
    have whole := (Yields.pushStr " aria-checked=\"").seq
      ((Yields.pushStr (if c then "true" else "false")).seq (Yields.push '"'))
    apply whole.congr
    cases c <;> rfl

lemma yields_openListitem (t : XmlText) (depth : ℕ) :
    Yields (openListitem F rules t depth) (pushBlockChildren t depth "</li>" true)
      ((Html.openTag "li" (itemAttrs t)).map .char ++
        Html.pieces (inlineForest F rules t 0 true)) := by
  have inline := yields_renderInline F rules t 0 true
  have whole := (Yields.pushStr "<li").seq ((yields_pushChecked (itemChecked t)).seq
    ((Yields.pushStr " value=\"").seq ((Yields.pushStr (toString (itemValue t))).seq
      ((Yields.push '"').seq ((Yields.push '>').seq (inline.seq (Yields.pure
        (pushBlockChildren t depth "</li>" true))))))))
  apply whole.congr
  simp [Html.openTag, itemAttrs, Html.Attr.print, Html.Attr.present, Html.chars,
    flatMap_attrChar_repr]

lemma size_lt_of_mem {t c : XmlText} (h : c ∈ blockChildren t) : c.size < t.size := by
  have total := weight_children t 0
  have each := size_le_weight XmlText.size h 0
  omega

/-- The walk renders a block as its trees, whatever is under it on the stack and whatever the
emitter holds. -/
theorem rendered_block (t : XmlText) (depth : ℕ) :
    (walker F rules).Rendered t depth (Html.pieces (blockForest F rules t depth)) := by
  have hchildren : ∀ c ∈ blockChildren t,
      (walker F rules).Rendered c (depth + 1)
        (Html.pieces (blockForest F rules c (depth + 1))) := by
    intro c hc
    have smaller := size_lt_of_mem hc
    exact rendered_block c (depth + 1)
  have container : ∀ {close onlyLists pre},
      Yields (openBlock F rules t depth) (pushBlockChildren t depth close onlyLists) pre →
        (walker F rules).Rendered t depth
          (pre ++ Html.pieces (childForest F rules t depth onlyLists) ++ Html.chars close) :=
    fun hopen => rendered_container hopen hchildren
  have leaf := fun {pre} (hopen : Yields (openBlock F rules t depth) [] pre) =>
    Walker.Rendered.leaf (w := walker F rules) hopen
  have inline := fun ruled => yields_renderInline F rules t 0 ruled
  unfold blockForest blockTrees
  cases hrule : rules.nodes.get (nodeType t) with
  | some rule =>
    have hopen : openBlock F rules t depth = openRuleBlock F rules t rule depth := by
      rw [openBlock, hrule]
    have whole := rendered_rule hopen hchildren
    rw [Html.pieces_cons, Html.pieces_nil, List.append_nil]
    exact whole
  | none =>
    dsimp only
    split
    case h_1 ty =>
      apply leaf
      rw [openBlock, hrule]
      simp only [ty]
      have paragraph := Yields.paragraph (inline true) "<p><br></p>"
        [.elem "p" [] [.void "br" []]]
        (by simp [Html.Tree.pieces, Html.openTag, Html.closeTag, Html.chars])
      exact (paragraph.seq (Yields.pure [])).congr (List.append_nil _)
    case h_2 ty =>
      apply leaf
      rw [openBlock, hrule]
      simp only [ty]
      apply ((Yields.push '<').seq ((Yields.pushStr (headingTag t)).seq ((Yields.push '>').seq
        ((inline true).seq ((Yields.pushCloseTag (headingTag t)).seq (Yields.pure _)))))).congr
      simp [Html.Tree.pieces, Html.openTag, Html.chars]
    case h_3 ty =>
      apply leaf
      rw [openBlock, hrule]
      simp only [ty]
      apply ((Yields.pushStr "<blockquote>").seq ((inline true).seq
        ((Yields.pushStr "</blockquote>").seq (Yields.pure _)))).congr
      simp [Html.Tree.pieces, Html.openTag, Html.closeTag, Html.chars]
    case h_4 ty =>
      have language := Yields.pushOptionalAttr "data-language"
        ((strAttr t.attrs "__language").filter fun l => !l.isEmpty)
        (by simp [Option.filter_eq_some_iff])
      apply leaf
      rw [openBlock, hrule]
      simp only [ty]
      apply ((Yields.pushStr "<pre").seq (language.seq ((Yields.push '>').seq
        ((inline true).seq ((Yields.pushStr "</pre>").seq (Yields.pure _)))))).congr
      simp [Html.Tree.pieces, Html.openTag, Html.closeTag, Html.chars]
    case h_5 ty =>
      have hopen : Yields (openBlock F rules t depth)
          (pushBlockChildren t depth (if listTag t = "ol" then "</ol>" else "</ul>") false)
          ((Html.openTag (listTag t) []).map .char ++
            Html.pieces (inlineForest F rules t 0 false)) := by
        rw [openBlock, hrule]
        simp only [ty]
        apply ((Yields.push '<').seq ((Yields.pushStr (listTag t)).seq ((Yields.push '>').seq
          ((inline false).seq (Yields.pure _))))).congr
        simp [Html.openTag, Html.chars]
      have close : (if listTag t = "ol" then "</ol>" else "</ul>") = "</" ++ listTag t ++ ">" := by
        unfold listTag
        split <;> decide
      apply (container hopen).congr
      simp [Html.Tree.pieces, Html.closeTag, Html.chars, close]
    case h_6 ty =>
      have hopen : Yields (openBlock F rules t depth) (pushBlockChildren t depth "</li>" true)
          ((Html.openTag "li" (itemAttrs t)).map .char ++
            Html.pieces (inlineForest F rules t 0 true)) := by
        rw [openBlock, hrule]
        simp only [ty]
        exact yields_openListitem t depth
      apply (container hopen).congr
      simp [Html.Tree.pieces, Html.closeTag, Html.chars]
    case h_7 ty =>
      have hopen : Yields (openBlock F rules t depth)
          (pushBlockChildren t depth "</tbody></table>" false)
          (Html.chars "<table><tbody>" ++ Html.pieces (inlineForest F rules t 0 false)) := by
        rw [openBlock, hrule]
        simp only [ty]
        exact ((Yields.pushStr "<table><tbody>").seq ((inline false).seq (Yields.pure _))).congr
          (by simp)
      apply (container hopen).congr
      simp [Html.Tree.pieces, Html.openTag, Html.closeTag, Html.chars]
    case h_8 ty =>
      have hopen : Yields (openBlock F rules t depth)
          (pushBlockChildren t depth "</tr>" false)
          (Html.chars "<tr>" ++ Html.pieces (inlineForest F rules t 0 false)) := by
        rw [openBlock, hrule]
        simp only [ty]
        exact ((Yields.pushStr "<tr>").seq ((inline false).seq (Yields.pure _))).congr (by simp)
      apply (container hopen).congr
      simp [Html.Tree.pieces, Html.openTag, Html.closeTag, Html.chars]
    case h_9 ty =>
      have hopen : Yields (openBlock F rules t depth)
          (pushBlockChildren t depth (if isHeaderCell t then "</th>" else "</td>") false)
          (Html.chars (if isHeaderCell t then "<th>" else "<td>") ++
            Html.pieces (inlineForest F rules t 0 false)) := by
        rw [openBlock, hrule]
        simp only [ty]
        exact ((Yields.pushStr (if isHeaderCell t then "<th>" else "<td>")).seq
          ((inline false).seq (Yields.pure _))).congr (by simp)
      apply (container hopen).congr
      cases isHeaderCell t <;> simp [Html.Tree.pieces, Html.openTag, Html.closeTag, Html.chars]
    case h_10 =>
      have hopen : openBlock F rules t depth =
          (if !(blockChildren t).isEmpty then (do
            renderInline F rules t 0 false
            pure (pushBlockChildren t depth "" false))
          else (do
            renderParagraph (renderInline F rules t 0 true) ""
            pure [])) := by
        rw [openBlock, hrule]
        dsimp only
        split <;> first | rfl | contradiction
      split
      · next blocks =>
        have hyields : Yields (openBlock F rules t depth) (pushBlockChildren t depth "" false)
            (Html.pieces (inlineForest F rules t 0 false)) := by
          rw [hopen, if_pos blocks]
          exact ((inline false).seq (Yields.pure _)).congr (List.append_nil _)
        apply (container hyields).congr
        simp
      · next blocks =>
        have paragraph := Yields.paragraph (inline true) "" [] (by simp)
        apply leaf
        rw [hopen, if_neg blocks]
        exact (paragraph.seq (Yields.pure [])).congr (List.append_nil _)
termination_by t.size

/-! ## Documents -/

variable (F rules)

def rootForest : RootNode → List Tree
  | .text t => blockForest F rules t 0
  | .element attrs => decoratorForest F rules attrs
  | .fragment content => [.text content]

/-- The trees of a document. -/
def forest (root : List RootNode) : List Tree := root.flatMap (rootForest F rules)

variable {F rules}

variable (F rules) in
lemma yields_renderRoot (node : RootNode) :
    Yields (renderRoot F rules node) () (Html.pieces (rootForest F rules node)) := by
  cases node with
  | text t => exact (rendered_block t 0).yields
  | element attrs => exact yields_renderDecorator attrs
  | fragment content =>
    apply (Yields.pushStr (escapeText content)).congr
    simp [rootForest, chars_escapeText]

/-- The renderer prints the trees of the document, and ends every frame it began. -/
theorem renderSegments_eq {root : List RootNode} (shaped : isLexicalShaped root = true) :
    renderSegments F rules root = some (some (Html.segments (forest F rules root))) := by
  have all := Yields.forM root fun node _ => yields_renderRoot F rules node
  rw [renderSegments, if_pos shaped, all.emitted]
  simp [forest, Html.segments, Html.pieces_flatMap]

/-! ## What every tree of a document meets -/

mutual

/-- The texts of a chunk, at any depth. -/
def Chunk.texts : Chunk → List XmlText
  | .text attrs chunks => ⟨attrs, chunks⟩ :: texts chunks
  | _ => []

def texts : List Chunk → List XmlText
  | [] => []
  | c :: cs => c.texts ++ texts cs

end

mutual

/-- The decorators of a chunk, at any depth. -/
def Chunk.decorators : Chunk → List Attrs
  | .text _ chunks => decorators chunks
  | .element attrs => [attrs]
  | _ => []

def decorators : List Chunk → List Attrs
  | [] => []
  | c :: cs => c.decorators ++ decorators cs

end

/-- The texts of a document. -/
def documentTexts (root : List RootNode) : List XmlText :=
  root.flatMap fun node =>
    match node with
    | .text t => t :: texts t.chunks
    | _ => []

/-- The decorators of a document. -/
def documentDecorators (root : List RootNode) : List Attrs :=
  root.flatMap fun node =>
    match node with
    | .text t => decorators t.chunks
    | .element attrs => [attrs]
    | .fragment _ => []

def builtinTags : List String :=
  ["p", "h1", "h2", "h3", "h4", "h5", "h6", "blockquote", "pre", "ul", "ol", "li", "table",
    "tbody", "tr", "th", "td", "a", "span", "strong", "em", "code", "mark", "sub", "sup", "i",
    "s", "u"]

def builtinVoids : List String := ["br", "hr"]

def builtinAttrs : List String :=
  ["style", "href", "title", "data-language", "aria-checked", "value"]

variable (F rules)

/-- What `P` has to say of the built-in tags, of the rules, and of the callback nodes among these
texts and decorators. -/
structure Meets (P : Html.Local Deferred) (ts : List XmlText) (ds : List Attrs) : Prop extends
    RulesMeet P rules where
  builtinVoid : ∀ tag ∈ builtinVoids, P.void tag []
  builtinElem : ∀ tag ∈ builtinTags, ∀ attrs, (∀ a ∈ attrs, a.name ∈ builtinAttrs) →
    P.elem tag attrs
  inline : ∀ t ∈ ts, ∀ content, rules.nodes.get (nodeType t) = some (.callback content) →
    ∀ depth, P.hole (deferredText F t) (Html.segments
      (if content ≠ .none ∧ depth < maxInlineDepth then inlineForest F rules t (depth + 1) true
        else []))
  block : ∀ t ∈ ts, ∀ content, rules.nodes.get (nodeType t) = some (.callback content) →
    ∀ depth, P.hole (deferredText F t)
      (Html.segments (contentForest F rules t (childForest F rules t depth false) content))
  decorator : ∀ attrs ∈ ds, ∀ content, rules.nodes.get (typeOf attrs) = some (.callback content) →
    P.hole ⟨typeOf attrs, xmlAttrsJson F.toJson attrs, []⟩ []

variable {F rules} {P : Html.Local Deferred} {ts : List XmlText} {ds : List Attrs}

lemma Meets.mono (h : Meets F rules P ts ds) {ts' : List XmlText} {ds' : List Attrs}
    (hts : ts' ⊆ ts) (hds : ds' ⊆ ds) : Meets F rules P ts' ds' where
  void := h.void
  elem := h.elem
  builtinVoid := h.builtinVoid
  builtinElem := h.builtinElem
  inline := fun t ht => h.inline t (hts ht)
  block := fun t ht => h.block t (hts ht)
  decorator := fun attrs ha => h.decorator attrs (hds ha)

/-- A built-in element around trees that meet `P`. -/
lemma Meets.builtin (h : Meets F rules P ts ds) {tag : String} (htag : tag ∈ builtinTags)
    {attrs : List Html.Attr} (hattrs : ∀ a ∈ attrs, a.name ∈ builtinAttrs) {children : List Tree}
    (hchildren : Html.Each P children) : Html.Each P [.elem tag attrs children] := by
  rw [Html.each_cons, Html.Tree.Each]
  exact ⟨⟨h.builtinElem tag htag attrs hattrs, hchildren⟩, Html.each_nil⟩

lemma Meets.plain (h : Meets F rules P ts ds) {tag : String} (htag : tag ∈ builtinTags)
    {children : List Tree} (hchildren : Html.Each P children) :
    Html.Each P [.elem tag [] children] :=
  h.builtin htag (by simp) hchildren

lemma outerTag_mem {format : ℕ} {tag : String} (h : outerTag format = some tag) :
    tag ∈ builtinTags := by
  unfold outerTag at h
  split_ifs at h <;> simp only [Option.some.injEq] at h <;> subst h <;> decide

lemma Meets.eachRun (h : Meets F rules P ts ds) (text : String) (format : ℕ) (style : String) :
    Html.Each P [runTree text format style] := by
  have style_mem : ∀ a ∈ [optionalAttr "style" (lexxyStyle style)], a.name ∈ builtinAttrs := by
    intro a ha
    rw [List.mem_singleton.mp ha]
    change "style" ∈ builtinAttrs
    decide
  have inner_mem : ∀ a ∈ (if (outerTag format).isNone then
      [optionalAttr "style" (lexxyStyle style)] else []), a.name ∈ builtinAttrs := by
    intro a ha
    split at ha
    · exact style_mem a ha
    · simp at ha
  have leaf : Html.Each P [(.text text : Tree)] := by simp [Html.Tree.Each]
  have wrap : ∀ (p : Bool) (tag : String), tag ∈ builtinTags → ∀ t : Tree, Html.Each P [t] →
      Html.Each P [if p then .elem tag [] [t] else t] := by
    intro p tag htag t ht
    cases p with
    | true => exact h.plain htag ht
    | false => exact ht
  have semantic : Html.Each P
      [if hasFormat format fmtBold then .elem "strong" (if (outerTag format).isNone then
          [optionalAttr "style" (lexxyStyle style)] else []) [(.text text : Tree)]
        else if hasFormat format fmtItalic then .elem "em" (if (outerTag format).isNone then
          [optionalAttr "style" (lexxyStyle style)] else []) [.text text]
        else .text text] := by
    split
    · exact h.builtin (by decide) inner_mem leaf
    · split
      · exact h.builtin (by decide) inner_mem leaf
      · exact leaf
  unfold runTree
  apply wrap _ "u" (by decide)
  apply wrap _ "s" (by decide)
  apply wrap _ "i" (by decide)
  split
  · next tag outer => exact h.builtin (outerTag_mem outer) style_mem semantic
  · exact semantic

lemma Meets.eachDecorator (h : Meets F rules P ts ds) {attrs : Attrs} (hmem : attrs ∈ ds) :
    Html.Each P (decoratorForest F rules attrs) := by
  unfold decoratorForest
  cases hrule : rules.nodes.get (typeOf attrs) with
  | some rule =>
    rw [Html.each_cons]
    refine ⟨h.each hrule (fun _ => Html.each_nil) ?_, Html.each_nil⟩
    intro content callback
    subst callback
    exact h.decorator attrs hmem content hrule
  | none =>
    dsimp only
    split
    · rw [Html.each_cons, Html.Tree.Each]
      exact ⟨h.builtinVoid "hr" (by decide), Html.each_nil⟩
    · exact Html.each_nil

lemma Meets.eachLink (h : Meets F rules P ts ds) (t : XmlText) (depth : ℕ) {body : List Tree}
    (hbody : Html.Each P body) : Html.Each P [linkTree F t depth body] := by
  apply h.builtin (by decide)
  · intro a ha
    unfold linkAttrs at ha
    rcases List.mem_append.mp ha with href | title
    · split at href
      · rw [List.mem_singleton.mp href]
        change "href" ∈ builtinAttrs
        decide
      · simp at href
    · rw [List.mem_singleton.mp title]
      change "title" ∈ builtinAttrs
      decide
  · split
    · exact hbody
    · simp [Html.Tree.Each]

mutual

/-- The trees of inline content meet `P`: one chunk. -/
lemma Meets.eachChunk : ∀ (c : Chunk), Meets F rules P c.texts c.decorators →
    ∀ (depth : ℕ) (ruledInline : Bool) (run : RunState),
      Html.Each P (chunkForest F rules depth ruledInline run c)
  | .map attrs, h, depth, ruledInline, run => by
    rw [chunkForest]
    split
    · rw [Html.each_cons, Html.Tree.Each]
      exact ⟨h.builtinVoid "br" (by decide), Html.each_nil⟩
    · exact Html.each_nil
  | .run s, h, depth, ruledInline, run => by
    rw [chunkForest]
    split
    · exact h.plain (by decide) (by simp [Html.Tree.Each])
    · exact h.eachRun s.text run.format run.style
  | .text attrs chunks, h, depth, ruledInline, run => by
    have inside : Meets F rules P (texts chunks) (decorators chunks) := by
      apply h.mono
      · intro t ht
        simp [Chunk.texts, ht]
      · intro d hd
        simp [Chunk.decorators, hd]
    have self : (⟨attrs, chunks⟩ : XmlText) ∈ (Chunk.text attrs chunks).texts := by
      simp [Chunk.texts]
    have body := Meets.eachChunks chunks inside (depth + 1) true .init
    have ruled : ∀ rule, rules.nodes.get (typeOf attrs) = some rule →
        Html.Each P [ruleInlineTree F ⟨attrs, chunks⟩ rule depth
          (chunksForest F rules (depth + 1) true .init chunks)] := by
      intro rule hrule
      rw [Html.each_cons]
      refine ⟨h.each hrule ?_ ?_, Html.each_nil⟩
      · intro content
        split
        · exact body
        · exact Html.each_nil
      · intro content callback
        subst callback
        exact h.inline ⟨attrs, chunks⟩ self content hrule depth
    rw [chunkForest]
    by_cases inl : isInlineType (typeOf attrs) = true
    · rw [if_pos inl]
      cases hrule : rules.nodes.get (typeOf attrs) with
      | some rule => exact ruled rule hrule
      | none => exact h.eachLink ⟨attrs, chunks⟩ depth body
    · rw [if_neg inl]
      by_cases custom : (ruledInline && !isBuiltin (typeOf attrs)) = true
      · rw [if_pos custom]
        cases hrule : rules.nodes.get (typeOf attrs) with
        | some rule => exact ruled rule hrule
        | none =>
          dsimp only
          split
          · exact Meets.eachChunks chunks inside (depth + 1) ruledInline .init
          · exact Html.each_nil
      · rw [if_neg custom]
        exact Html.each_nil
  | .element attrs, h, depth, ruledInline, run => by
    rw [chunkForest]
    exact h.eachDecorator (by simp [Chunk.decorators])
  | .other, h, depth, ruledInline, run => by
    rw [chunkForest]
    exact Html.each_nil

lemma Meets.eachChunks : ∀ (cs : List Chunk), Meets F rules P (texts cs) (decorators cs) →
    ∀ (depth : ℕ) (ruledInline : Bool) (run : RunState),
      Html.Each P (chunksForest F rules depth ruledInline run cs)
  | [], h, depth, ruledInline, run => by
    rw [chunksForest]
    exact Html.each_nil
  | c :: cs, h, depth, ruledInline, run => by
    have first : Meets F rules P c.texts c.decorators := by
      apply h.mono
      · intro t ht
        simp [texts, ht]
      · intro d hd
        simp [decorators, hd]
    have rest : Meets F rules P (texts cs) (decorators cs) := by
      apply h.mono
      · intro t ht
        simp [texts, ht]
      · intro d hd
        simp [decorators, hd]
    rw [chunksForest, Html.each_append]
    exact ⟨Meets.eachChunk c first depth ruledInline run,
      Meets.eachChunks cs rest depth ruledInline (run.next c)⟩

end

lemma Meets.eachInline {t : XmlText} (h : Meets F rules P (texts t.chunks) (decorators t.chunks))
    (depth : ℕ) (ruledInline : Bool) :
    Html.Each P (inlineForest F rules t depth ruledInline) :=
  Meets.eachChunks t.chunks h depth ruledInline .init

lemma itemAttrs_mem (t : XmlText) : ∀ a ∈ itemAttrs t, a.name ∈ builtinAttrs := by
  intro a ha
  unfold itemAttrs at ha
  rcases List.mem_append.mp ha with checked | value
  · split at checked
    · rw [List.mem_singleton.mp checked]
      change "aria-checked" ∈ builtinAttrs
      decide
    · simp at checked
  · rw [List.mem_singleton.mp value]
    change "value" ∈ builtinAttrs
    decide

lemma headingTag_mem (t : XmlText) : headingTag t ∈ builtinTags := by
  unfold headingTag
  split
  · split
    · next tag _ level =>
      simp only [List.mem_cons, List.not_mem_nil, or_false] at level
      rcases level with rfl | rfl | rfl | rfl | rfl | rfl <;> decide
    · decide
  · decide

/-- The trees of a block meet `P` when those of its blocks do. -/
lemma Meets.eachBlockTrees {t : XmlText} {blocks : Bool → List Tree}
    (h : Meets F rules P (texts t.chunks) (decorators t.chunks))
    (hblocks : ∀ b, Html.Each P (blocks b))
    (hhole : ∀ content, rules.nodes.get (nodeType t) = some (.callback content) →
      P.hole (deferredText F t) (Html.segments (contentForest F rules t (blocks false) content))) :
    Html.Each P (blockTrees F rules t blocks) := by
  have inline := fun ruled => h.eachInline 0 ruled
  have container : ∀ b : Bool, Html.Each P (inlineForest F rules t 0 b ++ blocks b) ∧
      Html.Each P (inlineForest F rules t 0 b ++ blocks false) := by
    intro b
    rw [Html.each_append, Html.each_append]
    exact ⟨⟨inline b, hblocks b⟩, inline b, hblocks false⟩
  have paragraph : ∀ empty : List Tree, Html.Each P empty →
      Html.Each P (paragraphForest (inlineForest F rules t 0 true) empty) := by
    intro empty hempty
    exact each_paragraphForest (h.builtinElem "p" (by decide) [] (by simp)) (inline true) hempty
  unfold blockTrees
  cases hrule : rules.nodes.get (nodeType t) with
  | some rule =>
    rw [Html.each_cons]
    refine ⟨h.each hrule ?_ ?_, Html.each_nil⟩
    · intro content
      cases content with
      | inline => exact inline true
      | blocks => exact (container false).1
      | none => exact Html.each_nil
    · intro content callback
      subst callback
      exact hhole content hrule
  | none =>
    dsimp only
    split
    case h_1 =>
      apply paragraph
      apply h.plain (by decide)
      rw [Html.each_cons, Html.Tree.Each]
      exact ⟨h.builtinVoid "br" (by decide), Html.each_nil⟩
    case h_2 => exact h.plain (headingTag_mem t) (inline true)
    case h_3 => exact h.plain (by decide) (inline true)
    case h_4 =>
      apply h.builtin (by decide) _ (inline true)
      intro a ha
      rw [List.mem_singleton.mp ha]
      change "data-language" ∈ builtinAttrs
      decide
    case h_5 =>
      apply h.plain _ (container false).1
      unfold listTag
      split <;> decide
    case h_6 => exact h.builtin (by decide) (itemAttrs_mem t) (container true).1
    case h_7 => exact h.plain (by decide) (h.plain (by decide) (container false).1)
    case h_8 => exact h.plain (by decide) (container false).1
    case h_9 =>
      apply h.plain _ (container false).1
      split <;> decide
    case h_10 =>
      split
      · exact (container false).1
      · exact paragraph [] Html.each_nil

mutual

lemma Meets.eachBlockChunk : ∀ (c : Chunk), Meets F rules P c.texts c.decorators →
    ∀ (onlyLists : Bool) (depth : ℕ), Html.Each P (blockChunkForest F rules onlyLists depth c)
  | .text attrs chunks, h, onlyLists, depth => by
    have inside : Meets F rules P (texts chunks) (decorators chunks) := by
      apply h.mono
      · intro t ht
        simp [Chunk.texts, ht]
      · intro d hd
        simp [Chunk.decorators, hd]
    have self : (⟨attrs, chunks⟩ : XmlText) ∈ (Chunk.text attrs chunks).texts := by
      simp [Chunk.texts]
    rw [blockChunkForest]
    split
    · exact Html.each_nil
    · split
      · exact Html.each_nil
      · apply Meets.eachBlockTrees inside
        · intro only
          split
          · exact Html.each_nil
          · exact Meets.eachBlockChunks chunks inside only (depth + 1)
        · intro content hrule
          exact h.block ⟨attrs, chunks⟩ self content hrule depth
  | .map attrs, h, onlyLists, depth => by simp [blockChunkForest]
  | .run s, h, onlyLists, depth => by simp [blockChunkForest]
  | .element attrs, h, onlyLists, depth => by simp [blockChunkForest]
  | .other, h, onlyLists, depth => by simp [blockChunkForest]

lemma Meets.eachBlockChunks : ∀ (cs : List Chunk), Meets F rules P (texts cs) (decorators cs) →
    ∀ (onlyLists : Bool) (depth : ℕ), Html.Each P (blockChunksForest F rules onlyLists depth cs)
  | [], h, onlyLists, depth => by simp [blockChunksForest]
  | c :: cs, h, onlyLists, depth => by
    have first : Meets F rules P c.texts c.decorators := by
      apply h.mono
      · intro t ht
        simp [texts, ht]
      · intro d hd
        simp [decorators, hd]
    have rest : Meets F rules P (texts cs) (decorators cs) := by
      apply h.mono
      · intro t ht
        simp [texts, ht]
      · intro d hd
        simp [decorators, hd]
    rw [blockChunksForest, Html.each_append]
    exact ⟨Meets.eachBlockChunk c first onlyLists depth,
      Meets.eachBlockChunks cs rest onlyLists depth⟩

end

lemma Meets.eachBlock {t : XmlText}
    (h : Meets F rules P (t :: texts t.chunks) (decorators t.chunks)) (depth : ℕ) :
    Html.Each P (blockForest F rules t depth) := by
  have inside : Meets F rules P (texts t.chunks) (decorators t.chunks) :=
    h.mono (List.subset_cons_self _ _) (List.Subset.refl _)
  apply Meets.eachBlockTrees inside
  · intro only
    unfold childForest
    split
    · exact Html.each_nil
    · exact Meets.eachBlockChunks t.chunks inside only (depth + 1)
  · intro content hrule
    exact h.block t (by simp) content hrule depth

/-- Every tag and every hole of a document's markup meets what the built-in tags, the rules and
the document's own callback nodes meet. -/
theorem Meets.eachForest {root : List RootNode}
    (h : Meets F rules P (documentTexts root) (documentDecorators root)) :
    Html.Each P (forest F rules root) := by
  apply Html.each_flatMap
  intro node hnode
  cases node with
  | text t =>
    apply Meets.eachBlock
    apply h.mono
    · intro t' ht
      exact List.mem_flatMap.mpr ⟨_, hnode, ht⟩
    · intro d hd
      exact List.mem_flatMap.mpr ⟨_, hnode, hd⟩
  | element attrs =>
    apply h.eachDecorator
    exact List.mem_flatMap.mpr ⟨_, hnode, by simp⟩
  | fragment content => simp [rootForest, Html.Tree.Each]

end LexicalHtml

end Yrby
