import Yrby.Render.LexicalForest
import Yrby.Render.ProseMirrorForest

/-!
# Both renderers print balanced markup

For every document, of any depth and shape, and every set of rules, a rendering comes to an end
with every frame ended and its segments balanced: each opening tag but those of void elements is
closed once, in proper nesting, in the segment list it stands in.  The content of every deferred
segment is balanced as well, and it is what the content slot of a callback node of the document
emits on its own (`OwnContent`).

A node of the walk, and an inline node, appends its own output to the frame on top of whatever
emitter it is run from, and leaves the frames below and the work under it alone: it ends the frames
it begins, and no other.
-/

namespace Yrby

open HtmlCore

/-! ## Lexical -/

namespace LexicalHtml

variable (F : Foreign) (rules : Rules)

/-- The content slot of a block. -/
def blockSlot (t : XmlText) (depth : ℕ) (content : Content) : Render Unit := do
  renderContent F rules t content
  (walker F rules).walk ((contentBlocks t depth content).map (.open · (depth + 1)))

/-- The content slot of an inline node. -/
def inlineSlot (t : XmlText) (depth : ℕ) (content : Content) : Render Unit :=
  if content ≠ .none ∧ depth < maxInlineDepth then renderInline F rules t (depth + 1) true
  else pure ()

/-- The deferred segments a document may have: of its callback nodes, each with what the node's
own content slot emits. -/
inductive OwnContent (root : List RootNode) : Deferred → List Segment → Prop
  | block (t : XmlText) (ht : t ∈ documentTexts root) (content : Content)
      (hrule : rules.nodes.get (nodeType t) = some (.callback content)) (depth : ℕ)
      (segs : List Segment) (hsegs : emitted (blockSlot F rules t depth content) = some segs) :
      OwnContent root (deferredText F t) segs
  | inline (t : XmlText) (ht : t ∈ documentTexts root) (content : Content)
      (hrule : rules.nodes.get (nodeType t) = some (.callback content)) (depth : ℕ)
      (segs : List Segment) (hsegs : emitted (inlineSlot F rules t depth content) = some segs) :
      OwnContent root (deferredText F t) segs
  | decorator (attrs : Attrs) (hattrs : attrs ∈ documentDecorators root) (content : Content)
      (hrule : rules.nodes.get (typeOf attrs) = some (.callback content)) :
      OwnContent root ⟨typeOf attrs, xmlAttrsJson F.toJson attrs, []⟩ []

/-- The tags that stand alone: the built-in ones and those of void rules. -/
def VoidTag (tag : String) : Prop :=
  tag ∈ builtinVoids ∨ ∃ name attrs text content,
    rules.nodes.get name = some (.declarative tag true attrs text content)

variable {F rules}

lemma emitted_blockSlot (t : XmlText) (depth : ℕ) (content : Content) :
    emitted (blockSlot F rules t depth content) = some (Html.segments
      (contentForest F rules t (childForest F rules t depth false) content)) := by
  obtain ⟨pre, hpre, split⟩ := pieces_contentForest F rules t depth content
  have children : Yields
      ((walker F rules).walk ((contentBlocks t depth content).map (.open · (depth + 1)))) ()
      ((contentBlocks t depth content).flatMap
        fun c => Html.pieces (blockForest F rules c (depth + 1))) :=
    Walker.yields_children fun c _ => rendered_block c (depth + 1)
  rw [Html.segments, split]
  exact (hpre.seq children).emitted

lemma emitted_inlineSlot (t : XmlText) (depth : ℕ) (content : Content) :
    emitted (inlineSlot F rules t depth content) = some (Html.segments
      (if content ≠ .none ∧ depth < maxInlineDepth then inlineForest F rules t (depth + 1) true
        else [])) := by
  unfold inlineSlot
  split
  · exact (yields_renderInline F rules t (depth + 1) true).emitted
  · exact (Yields.pure ()).emitted

/-- Every document meets the property of voids and holes that balance asks for. -/
lemma meets_ownContent (root : List RootNode) :
    Meets F rules ⟨fun tag _ => VoidTag rules tag, fun _ _ => True, OwnContent F rules root⟩
      (documentTexts root) (documentDecorators root) where
  void := fun hrule _ => .inr ⟨_, _, _, _, hrule⟩
  elem := fun _ _ => trivial
  builtinVoid := fun _ htag => .inl htag
  builtinElem := fun _ _ _ _ => trivial
  inline := fun t ht content hrule depth =>
    .inline t ht content hrule depth _ (emitted_inlineSlot t depth content)
  block := fun t ht content hrule depth =>
    .block t ht content hrule depth _ (emitted_blockSlot t depth content)
  decorator := fun attrs hattrs content hrule => .decorator attrs hattrs content hrule

lemma renderSegments_balanced {root : List RootNode} (shaped : isLexicalShaped root = true) :
    ∃ segs, renderSegments F rules root = some (some segs) ∧
      Html.Balanced (VoidTag rules) (OwnContent F rules root) segs :=
  ⟨_, renderSegments_eq shaped,
    Html.balanced_segments (fun _ _ h => h) (meets_ownContent root).eachForest⟩

end LexicalHtml

/-! ## ProseMirror -/

namespace ProseMirrorHtml

variable (json : Json) (rules : Rules)

/-- The content slot of a block. -/
def blockSlot (e : XmlElement) (depth : ℕ) (content : Content) : Render Unit := do
  renderContent json rules e content
  (walker json rules).walk ((contentBlocks e depth content).map (.open · (depth + 1)))

/-- The content slot of an inline node. -/
def inlineSlot (e : XmlElement) (depth : ℕ) (content : Content) : Render Unit :=
  if content ≠ .none ∧ depth < maxDepth then renderInline json rules e (depth + 1) else pure ()

/-- The deferred segments a document may have: of its callback nodes, each with what the node's
own content slot emits. -/
inductive OwnContent (root : List Node) : Deferred → List Segment → Prop
  | block (e : XmlElement) (he : e ∈ elements root) (content : Content)
      (hrule : rules.nodes.get e.tag = some (.callback content)) (depth : ℕ)
      (segs : List Segment) (hsegs : emitted (blockSlot json rules e depth content) = some segs) :
      OwnContent root (deferredElement json e) segs
  | inline (e : XmlElement) (he : e ∈ elements root) (content : Content)
      (hrule : rules.nodes.get e.tag = some (.callback content)) (depth : ℕ)
      (segs : List Segment) (hsegs : emitted (inlineSlot json rules e depth content) = some segs) :
      OwnContent root (deferredElement json e) segs

/-- The tags that stand alone: the built-in ones and those of void rules. -/
def VoidTag (tag : String) : Prop :=
  tag ∈ builtinVoids ∨ ∃ name attrs text content,
    rules.nodes.get name = some (.declarative tag true attrs text content)

variable {json rules}

lemma emitted_blockSlot (e : XmlElement) (depth : ℕ) (content : Content) :
    emitted (blockSlot json rules e depth content) = some (Html.segments
      (contentForest json rules e (childForest json rules e depth) content)) := by
  obtain ⟨pre, hpre, split⟩ := pieces_contentForest json rules e depth content
  have children : Yields
      ((walker json rules).walk ((contentBlocks e depth content).map (.open · (depth + 1)))) ()
      ((contentBlocks e depth content).flatMap
        fun c => Html.pieces (blockForest json rules c (depth + 1))) :=
    Walker.yields_children fun c _ => rendered_block c (depth + 1)
  rw [Html.segments, split]
  exact (hpre.seq children).emitted

lemma emitted_inlineSlot (e : XmlElement) (depth : ℕ) (content : Content) :
    emitted (inlineSlot json rules e depth content) = some (Html.segments
      (if content ≠ .none ∧ depth < maxDepth then nodesForest json rules (depth + 1) e.children
        else [])) := by
  unfold inlineSlot
  split
  · exact (yields_renderNodes e.children (depth + 1)).emitted
  · exact (Yields.pure ()).emitted

/-- Every document meets the property of voids and holes that balance asks for. -/
lemma meets_ownContent (root : List Node) :
    Meets json rules ⟨fun tag _ => VoidTag rules tag, fun _ _ => True, OwnContent json rules root⟩
      (elements root) where
  void := fun hrule _ => .inr ⟨_, _, _, _, hrule⟩
  elem := fun _ _ => trivial
  mark := fun _ _ => trivial
  builtinVoid := fun _ htag _ _ => .inl htag
  builtinElem := fun _ _ _ _ => trivial
  inline := fun e he content hrule depth =>
    .inline e he content hrule depth _ (emitted_inlineSlot e depth content)
  block := fun e he content hrule depth =>
    .block e he content hrule depth _ (emitted_blockSlot e depth content)

lemma renderSegments_balanced {root : List Node} (shaped : isProsemirrorShaped root = true) :
    ∃ segs, renderSegments json rules root = some (some segs) ∧
      Html.Balanced (VoidTag rules) (OwnContent json rules root) segs :=
  ⟨_, renderSegments_eq shaped,
    Html.balanced_segments (fun _ _ h => h) (meets_ownContent root).eachForest⟩

end ProseMirrorHtml

/-! ## The claim for both -/

/-- Every rendering ends with its frames ended and its segments balanced, the content of every
deferred segment being the output of that node's own content slot; and every node, in block and in
inline position, appends the same output to whatever frame is on top and touches nothing else. -/
theorem renderings_balanced :
    (∀ (F : LexicalHtml.Foreign) (rules : Rules) (root : List LexicalHtml.RootNode),
      LexicalHtml.isLexicalShaped root = true →
        ∃ segs, LexicalHtml.renderSegments F rules root = some (some segs) ∧
          Html.Balanced (LexicalHtml.VoidTag rules) (LexicalHtml.OwnContent F rules root) segs) ∧
    (∀ (json : Json) (rules : Rules) (root : List ProseMirrorHtml.Node),
      ProseMirrorHtml.isProsemirrorShaped root = true →
        ∃ segs, ProseMirrorHtml.renderSegments json rules root = some (some segs) ∧
          Html.Balanced (ProseMirrorHtml.VoidTag rules) (ProseMirrorHtml.OwnContent json rules root)
            segs) ∧
    (∀ (F : LexicalHtml.Foreign) (rules : Rules) (t : LexicalHtml.XmlText) (depth : ℕ),
      (∃ out, ∀ stack em, (LexicalHtml.walker F rules).walk (.open t depth :: stack) em =
        (LexicalHtml.walker F rules).walk stack (em.add out)) ∧
      ∀ ruledInline, ∃ out, Yields (LexicalHtml.renderInline F rules t depth ruledInline) () out) ∧
    (∀ (json : Json) (rules : Rules) (e : ProseMirrorHtml.XmlElement) (depth : ℕ),
      (∃ out, ∀ stack em, (ProseMirrorHtml.walker json rules).walk (.open e depth :: stack) em =
        (ProseMirrorHtml.walker json rules).walk stack (em.add out)) ∧
      ∃ out, Yields (ProseMirrorHtml.renderInline json rules e depth) () out) := by
  refine ⟨?_, ?_, ?_, ?_⟩
  · intro F rules root shaped
    exact LexicalHtml.renderSegments_balanced shaped
  · intro json rules root shaped
    exact ProseMirrorHtml.renderSegments_balanced shaped
  · intro F rules t depth
    constructor
    · exact ⟨_, LexicalHtml.rendered_block t depth⟩
    · intro ruledInline
      exact ⟨_, LexicalHtml.yields_renderInline F rules t depth ruledInline⟩
  · intro json rules e depth
    constructor
    · exact ⟨_, ProseMirrorHtml.rendered_block e depth⟩
    · exact ⟨_, ProseMirrorHtml.yields_renderNodes e.children depth⟩

/-- A callback block around a paragraph, in both schemas. -/
theorem renderings_balanced_callback :
    (∃ segs, LexicalHtml.renderSegments ⟨⟨id, fun _ => ""⟩, fun _ => ""⟩
        ⟨[("video", .callback .blocks)], []⟩
        [.text ⟨[("__type", .any (.string "video"))],
          [.text [("__type", .any (.string "paragraph"))] []]⟩] = some (some segs) ∧
      Html.Balanced (LexicalHtml.VoidTag ⟨[("video", .callback .blocks)], []⟩)
        (LexicalHtml.OwnContent ⟨⟨id, fun _ => ""⟩, fun _ => ""⟩
          ⟨[("video", .callback .blocks)], []⟩
          [.text ⟨[("__type", .any (.string "video"))],
            [.text [("__type", .any (.string "paragraph"))] []]⟩]) segs) ∧
    ∃ segs, ProseMirrorHtml.renderSegments ⟨id, fun _ => ""⟩ ⟨[("video", .callback .blocks)], []⟩
        [.element "video" [] [.element "paragraph" [] []]] = some (some segs) ∧
      Html.Balanced (ProseMirrorHtml.VoidTag ⟨[("video", .callback .blocks)], []⟩)
        (ProseMirrorHtml.OwnContent ⟨id, fun _ => ""⟩ ⟨[("video", .callback .blocks)], []⟩
          [.element "video" [] [.element "paragraph" [] []]]) segs :=
  ⟨renderings_balanced.1 _ _ _ (by decide), renderings_balanced.2.1 _ _ _ (by decide)⟩

end Yrby
