import Yrby.Render.Alike
import Yrby.Render.LexicalForest

/-!
# Lexical documents that differ in their strings

Two documents are alike when they differ in text runs and stored strings alone.  Two kinds of
strings are not free: a `__type` names what a node is, and the `__tag` of a heading or a list names
its element, from a fixed choice.  Alike documents have forests of one shape (`forest_shape`).
-/

namespace Yrby

namespace LexicalHtml

open HtmlCore

/-! ## Alike documents -/

/-- Stored attributes of one type that differ in strings alone. -/
abbrev SameButStrings (attrs attrs' : Attrs) : Prop := AttrsAlike ["__type"] attrs attrs'

/-- The element a heading or a list asks for is the same. -/
def SameElement (t t' : XmlText) : Prop :=
  (nodeType t = "heading" → headingTag t = headingTag t') ∧
    (nodeType t = "list" → listTag t = listTag t')

mutual

def Chunk.Alike : Chunk → Chunk → Prop
  | .map attrs, .map attrs' => SameButStrings attrs attrs'
  | .run _, .run _ => True
  | .text attrs chunks, .text attrs' chunks' =>
    SameButStrings attrs attrs' ∧ SameElement ⟨attrs, chunks⟩ ⟨attrs', chunks'⟩ ∧
      Alike chunks chunks'
  | .element attrs, .element attrs' => SameButStrings attrs attrs'
  | .other, .other => True
  | _, _ => False

/-- The chunks differ in strings alone. -/
def Alike : List Chunk → List Chunk → Prop
  | [], [] => True
  | c :: cs, c' :: cs' => c.Alike c' ∧ Alike cs cs'
  | _, _ => False

end

def RootNode.Alike : RootNode → RootNode → Prop
  | .text t, .text t' => (Chunk.text t.attrs t.chunks).Alike (.text t'.attrs t'.chunks)
  | .element attrs, .element attrs' => SameButStrings attrs attrs'
  | .fragment _, .fragment _ => True
  | _, _ => False

/-- The documents differ in strings alone. -/
def DocumentAlike (root root' : List RootNode) : Prop := List.Forall₂ RootNode.Alike root root'

section

variable {attrs attrs' : Attrs}

lemma typeOf_alike (h : SameButStrings attrs attrs') : typeOf attrs = typeOf attrs' := by
  rw [typeOf, typeOf, h.strAttr_kept (by simp)]

lemma formatAttr_alike (h : SameButStrings attrs attrs') :
    formatAttr attrs = formatAttr attrs' := by
  rw [formatAttr, formatAttr]
  rcases h.get_cases "__format" with same | ⟨v, v', left, right, both⟩
  · rw [same]
  · rw [left, right]
    cases both <;> rfl

end

/-! ## Inline content -/

variable {F : Foreign} {rules : Rules}

lemma linkTree_shape {t t' : XmlText} (h : SameButStrings t.attrs t'.attrs) (depth : ℕ)
    {body body' : List Tree} (hbody : Html.shape body = Html.shape body') :
    (linkTree F t depth body).shape = (linkTree F t' depth body').shape := by
  have url := h.strAttr_isSome "__url"
  have slots : (linkAttrs t).map Html.Attr.shape = (linkAttrs t').map Html.Attr.shape := by
    unfold linkAttrs
    cases hurl : strAttr t.attrs "__url" with
    | none =>
      have hurl' : strAttr t'.attrs "__url" = none := by simpa [hurl] using url.symm
      simp [hurl']
    | some u =>
      obtain ⟨u', hurl'⟩ : ∃ u', strAttr t'.attrs "__url" = some u' := by
        rw [← Option.isSome_iff_exists, ← url, hurl]
        rfl
      simp only [hurl', List.map_append, List.map_singleton, optionalAttr_shape]
      rfl
  rw [linkTree, linkTree, Html.Tree.shape, Html.Tree.shape, slots]
  congr 1
  split
  · exact hbody
  · simp [Html.Tree.shape]

lemma ruleInlineTree_shape {t t' : XmlText} {rule : NodeRule} (named : rule.Named) (depth : ℕ)
    {body body' : List Tree} (hbody : Html.shape body = Html.shape body') :
    (ruleInlineTree F t rule depth body).shape = (ruleInlineTree F t' rule depth body').shape := by
  apply ruleTree_shape named
  intro content
  split
  · exact hbody
  · rfl

lemma runTree_shape (text text' : String) (format : ℕ) (style style' : String) :
    (runTree text format style).shape = (runTree text' format style').shape := by
  have slot : ∀ p : Bool, List.map Html.Attr.shape
      (if p then [optionalAttr "style" (lexxyStyle style)] else []) =
        List.map Html.Attr.shape
          (if p then [optionalAttr "style" (lexxyStyle style')] else []) := by
    intro p
    cases p <;> rfl
  have wrap : ∀ (p : Bool) (tag : String) (t t' : Tree), t.shape = t'.shape →
      Html.Tree.shape (if p then .elem tag [] [t] else t) =
        Html.Tree.shape (if p then .elem tag [] [t'] else t') := by
    intro p tag t t' same
    cases p with
    | true => simp [Html.Tree.shape, same]
    | false => exact same
  unfold runTree
  apply wrap _ "u"
  apply wrap _ "s"
  apply wrap _ "i"
  cases outerTag format with
  | some tag =>
    dsimp only
    split
    · simp [Html.Tree.shape]
    · split <;> simp [Html.Tree.shape]
  | none =>
    dsimp only
    split
    · simp [Html.Tree.shape]
    · split <;> simp [Html.Tree.shape]

lemma runTree_pieces_ne_nil {text : String} (nonempty : text ≠ "") (format : ℕ) (style : String) :
    (runTree text format style).pieces ≠ [] := by
  have wrap : ∀ (p : Bool) (tag : String) (t : Tree), t.pieces ≠ [] →
      Html.Tree.pieces (if p then .elem tag [] [t] else t) ≠ [] := by
    intro p tag t ht
    cases p with
    | true => exact Html.Tree.pieces_elem_ne_nil _ _ _
    | false => exact ht
  unfold runTree
  apply wrap _ "u"
  apply wrap _ "s"
  apply wrap _ "i"
  cases outerTag format with
  | some tag => exact Html.Tree.pieces_elem_ne_nil _ _ _
  | none =>
    dsimp only
    split
    · exact Html.Tree.pieces_elem_ne_nil _ _ _
    · split
      · exact Html.Tree.pieces_elem_ne_nil _ _ _
      · exact Html.Tree.pieces_text_ne_nil nonempty

lemma decoratorForest_shape (named : rules.Named) {attrs attrs' : Attrs}
    (h : SameButStrings attrs attrs') :
    Html.shape (decoratorForest F rules attrs) = Html.shape (decoratorForest F rules attrs') := by
  unfold decoratorForest
  rw [← typeOf_alike h]
  cases hrule : rules.nodes.get (typeOf attrs) with
  | none => rfl
  | some rule =>
    rw [Html.shape_cons, Html.shape_cons, ruleTree_shape (named.node hrule)]
    intro content
    rfl

lemma decoratorForest_pieces_ne_nil (attrs : Attrs) :
    ∀ t ∈ decoratorForest F rules attrs, t.pieces ≠ [] := by
  intro t ht
  unfold decoratorForest at ht
  split at ht
  · rw [List.mem_singleton.mp ht]
    exact ruleTree_pieces_ne_nil _ _ _
  · split at ht
    · rw [List.mem_singleton.mp ht]
      exact Html.Tree.pieces_void_ne_nil _ _
    · simp at ht

mutual

/-- Every inline tree prints something: one chunk. -/
lemma chunkForest_pieces_ne_nil : ∀ (c : Chunk) (depth : ℕ) (ruledInline : Bool) (run : RunState),
    ∀ t ∈ chunkForest F rules depth ruledInline run c, t.pieces ≠ []
  | .map attrs, depth, ruledInline, run, t, ht => by
    rw [chunkForest] at ht
    split at ht
    · rw [List.mem_singleton.mp ht]
      exact Html.Tree.pieces_void_ne_nil _ _
    · simp at ht
  | .run s, depth, ruledInline, run, t, ht => by
    rw [chunkForest] at ht
    split at ht
    · rw [List.mem_singleton.mp ht]
      exact Html.Tree.pieces_elem_ne_nil _ _ _
    · rw [List.mem_singleton.mp ht]
      exact runTree_pieces_ne_nil s.nonempty _ _
  | .text attrs chunks, depth, ruledInline, run, t, ht => by
    rw [chunkForest] at ht
    by_cases inl : isInlineType (typeOf attrs) = true
    · rw [if_pos inl] at ht
      cases hrule : rules.nodes.get (typeOf attrs) with
      | some rule =>
        simp only [hrule, List.mem_singleton] at ht
        rw [ht]
        exact ruleTree_pieces_ne_nil _ _ _
      | none =>
        simp only [hrule, List.mem_singleton] at ht
        rw [ht]
        exact Html.Tree.pieces_elem_ne_nil _ _ _
    · rw [if_neg inl] at ht
      by_cases ruled : (ruledInline && !isBuiltin (typeOf attrs)) = true
      · rw [if_pos ruled] at ht
        cases hrule : rules.nodes.get (typeOf attrs) with
        | some rule =>
          simp only [hrule, List.mem_singleton] at ht
          rw [ht]
          exact ruleTree_pieces_ne_nil _ _ _
        | none =>
          simp only [hrule] at ht
          split at ht
          · exact chunksForest_pieces_ne_nil chunks (depth + 1) ruledInline .init t ht
          · simp at ht
      · rw [if_neg ruled] at ht
        simp at ht
  | .element attrs, depth, ruledInline, run, t, ht => by
    rw [chunkForest] at ht
    exact decoratorForest_pieces_ne_nil attrs t ht
  | .other, depth, ruledInline, run, t, ht => by
    rw [chunkForest] at ht
    simp at ht

lemma chunksForest_pieces_ne_nil : ∀ (cs : List Chunk) (depth : ℕ) (ruledInline : Bool)
    (run : RunState), ∀ t ∈ chunksForest F rules depth ruledInline run cs, t.pieces ≠ []
  | [], depth, ruledInline, run, t, ht => by
    rw [chunksForest] at ht
    simp at ht
  | c :: cs, depth, ruledInline, run, t, ht => by
    rw [chunksForest, List.mem_append] at ht
    rcases ht with first | rest
    · exact chunkForest_pieces_ne_nil c depth ruledInline run t first
    · exact chunksForest_pieces_ne_nil cs depth ruledInline (run.next c) t rest

end

/-- Runs in these states are wrapped in the same tags. -/
def RunState.Alike (run run' : RunState) : Prop :=
  run.format = run'.format ∧ run.isTab = run'.isTab

lemma RunState.Alike.next {run run' : RunState} (h : run.Alike run') {c c' : Chunk}
    (hc : c.Alike c') : (run.next c).Alike (run'.next c') := by
  cases c <;> cases c' <;> try exact hc.elim
  case map.map attrs attrs' =>
    rw [Chunk.Alike] at hc
    unfold RunState.next
    dsimp only
    rw [← typeOf_alike hc, formatAttr_alike hc]
    split
    · exact h
    · exact ⟨rfl, rfl⟩
    · exact ⟨rfl, rfl⟩
  case run.run s s' =>
    unfold RunState.next
    dsimp only
    rw [← h.2]
    split
    · exact ⟨h.1, rfl⟩
    · exact h
  case text.text => exact h
  case element.element => exact h
  case other.other => exact h

mutual

/-- Alike inline content has forests of one shape: one chunk. -/
lemma chunkForest_shape (named : rules.Named) : ∀ (c c' : Chunk), c.Alike c' →
    ∀ (depth : ℕ) (ruledInline : Bool) (run run' : RunState), run.Alike run' →
      Html.shape (chunkForest F rules depth ruledInline run c) =
        Html.shape (chunkForest F rules depth ruledInline run' c')
  | .map attrs, c', h, depth, ruledInline, run, run', hrun => by
    cases c' <;> simp only [Chunk.Alike] at h
    next attrs' =>
    rw [chunkForest, chunkForest, typeOf_alike h]
  | .run s, c', h, depth, ruledInline, run, run', hrun => by
    cases c' <;> simp only [Chunk.Alike] at h
    next s' =>
    rw [chunkForest, chunkForest, hrun.2, hrun.1]
    split
    · rfl
    · rw [Html.shape_cons, Html.shape_cons, runTree_shape]
  | .text attrs chunks, c', h, depth, ruledInline, run, run', hrun => by
    cases c' <;> simp only [Chunk.Alike] at h
    next attrs' chunks' =>
    have inside := chunksForest_shape named chunks chunks' h.2.2 (depth + 1)
    have body := inside true .init .init ⟨rfl, rfl⟩
    rw [chunkForest, chunkForest, ← typeOf_alike h.1]
    by_cases inl : isInlineType (typeOf attrs) = true
    · rw [if_pos inl, if_pos inl]
      cases hrule : rules.nodes.get (typeOf attrs) with
      | some rule =>
        dsimp only
        rw [Html.shape_cons, Html.shape_cons, ruleInlineTree_shape (named.node hrule) depth body]
      | none =>
        dsimp only
        rw [Html.shape_cons, Html.shape_cons]
        congr 1
        exact linkTree_shape h.1 depth body
    · rw [if_neg inl, if_neg inl]
      by_cases ruled : (ruledInline && !isBuiltin (typeOf attrs)) = true
      · rw [if_pos ruled, if_pos ruled]
        cases hrule : rules.nodes.get (typeOf attrs) with
        | some rule =>
          dsimp only
          rw [Html.shape_cons, Html.shape_cons, ruleInlineTree_shape (named.node hrule) depth body]
        | none =>
          dsimp only
          split
          · exact inside ruledInline .init .init ⟨rfl, rfl⟩
          · rfl
      · rw [if_neg ruled, if_neg ruled]
  | .element attrs, c', h, depth, ruledInline, run, run', hrun => by
    cases c' <;> simp only [Chunk.Alike] at h
    rw [chunkForest, chunkForest]
    exact decoratorForest_shape named h
  | .other, c', h, depth, ruledInline, run, run', hrun => by
    cases c' <;> simp only [Chunk.Alike] at h
    rw [chunkForest, chunkForest]

lemma chunksForest_shape (named : rules.Named) : ∀ (cs cs' : List Chunk), Alike cs cs' →
    ∀ (depth : ℕ) (ruledInline : Bool) (run run' : RunState), run.Alike run' →
      Html.shape (chunksForest F rules depth ruledInline run cs) =
        Html.shape (chunksForest F rules depth ruledInline run' cs')
  | [], cs', h, depth, ruledInline, run, run', hrun => by
    cases cs' <;> simp only [Alike] at h
    rw [chunksForest, chunksForest]
  | c :: cs, cs', h, depth, ruledInline, run, run', hrun => by
    cases cs' <;> simp only [Alike] at h
    next c' cs' =>
    rw [chunksForest, chunksForest, Html.shape_append, Html.shape_append,
      chunkForest_shape named c c' h.1 depth ruledInline run run' hrun,
      chunksForest_shape named cs cs' h.2 depth ruledInline _ _ (hrun.next h.1)]

end

lemma inlineForest_shape (named : rules.Named) {t t' : XmlText} (h : Alike t.chunks t'.chunks)
    (ruledInline : Bool) :
    Html.shape (inlineForest F rules t 0 ruledInline) =
      Html.shape (inlineForest F rules t' 0 ruledInline) :=
  chunksForest_shape named t.chunks t'.chunks h 0 ruledInline .init .init ⟨rfl, rfl⟩

/-! ## Blocks -/

lemma itemChecked_alike {t t' : XmlText} (h : SameButStrings t.attrs t'.attrs) :
    itemChecked t = itemChecked t' := by
  rw [itemChecked, itemChecked]
  rcases h.get_cases "__checked" with same | ⟨v, v', left, right, both⟩
  · rw [same]
  · rw [left, right]
    cases both <;> rfl

lemma isHeaderCell_alike {t t' : XmlText} (h : SameButStrings t.attrs t'.attrs) :
    isHeaderCell t = isHeaderCell t' := by
  rw [isHeaderCell, isHeaderCell]
  rcases h.get_cases "__headerState" with same | ⟨v, v', left, right, both⟩
  · rw [same]
  · rw [left, right]
    cases both <;> rfl

lemma itemAttrs_shape {t t' : XmlText} (h : SameButStrings t.attrs t'.attrs) :
    (itemAttrs t).map Html.Attr.shape = (itemAttrs t').map Html.Attr.shape := by
  unfold itemAttrs
  rw [itemChecked_alike h, List.map_append, List.map_append]
  rfl

lemma blockChildren_isEmpty {attrs attrs' : Attrs} {cs cs' : List Chunk} (h : Alike cs cs') :
    (blockChildren ⟨attrs, cs⟩).isEmpty = (blockChildren ⟨attrs', cs'⟩).isEmpty := by
  induction cs generalizing cs' with
  | nil =>
    cases cs' with
    | nil => rfl
    | cons c' cs' => exact h.elim
  | cons c cs ih =>
    cases cs' with
    | nil => exact h.elim
    | cons c' cs' =>
      rw [Alike] at h
      have rest := ih h.2
      unfold blockChildren at rest ⊢
      cases c <;> cases c' <;> try exact h.1.elim
      case text.text a as a' as' =>
        have parts := h.1
        rw [Chunk.Alike] at parts
        by_cases inl : isInlineType (typeOf a) = true
        · have inl' : isInlineType (typeOf a') = true := by rwa [← typeOf_alike parts.1]
          simpa [inl, inl'] using rest
        · have inl' : ¬ isInlineType (typeOf a') = true := by rwa [← typeOf_alike parts.1]
          simp [inl, inl']
      all_goals simpa using rest

lemma contentForest_shape (named : rules.Named) {t t' : XmlText} (h : Alike t.chunks t'.chunks)
    {blocks blocks' : List Tree} (hblocks : Html.shape blocks = Html.shape blocks')
    (content : Content) :
    Html.shape (contentForest F rules t blocks content) =
      Html.shape (contentForest F rules t' blocks' content) := by
  cases content with
  | inline => exact inlineForest_shape named h true
  | blocks =>
    rw [contentForest, contentForest, Html.shape_append, Html.shape_append,
      inlineForest_shape named h false, hblocks]
  | none => rfl

/-- Alike blocks have trees of one shape, when those of their children have. -/
lemma blockTrees_shape (named : rules.Named) {t t' : XmlText}
    (h : (Chunk.text t.attrs t.chunks).Alike (.text t'.attrs t'.chunks))
    {blocks blocks' : Bool → List Tree}
    (hblocks : ∀ only, Html.shape (blocks only) = Html.shape (blocks' only)) :
    Html.shape (blockTrees F rules t blocks) = Html.shape (blockTrees F rules t' blocks') := by
  rw [Chunk.Alike] at h
  obtain ⟨attrs, element, chunks⟩ := h
  have inline := inlineForest_shape (F := F) named chunks
  have type : nodeType t' = nodeType t := (typeOf_alike attrs).symm
  have container : ∀ ruled only,
      Html.shape (inlineForest F rules t 0 ruled ++ blocks only) =
        Html.shape (inlineForest F rules t' 0 ruled ++ blocks' only) := by
    intro ruled only
    rw [Html.shape_append, Html.shape_append, inline, hblocks]
  have paragraph : ∀ empty,
      Html.shape (paragraphForest (inlineForest F rules t 0 true) empty) =
        Html.shape (paragraphForest (inlineForest F rules t' 0 true) empty) := by
    intro empty
    exact paragraphForest_shape (chunksForest_pieces_ne_nil _ _ _ _)
      (chunksForest_pieces_ne_nil _ _ _ _) (inline true)
  unfold blockTrees
  rw [type]
  cases hrule : rules.nodes.get (nodeType t) with
  | some rule =>
    dsimp only
    rw [Html.shape_cons, Html.shape_cons, ruleTree_shape (named.node hrule)]
    intro content
    exact contentForest_shape named chunks (hblocks false) content
  | none =>
    dsimp only
    split
    case h_1 => exact paragraph _
    case h_2 ty =>
      rw [element.1 ty]
      exact shape_elem _ rfl (inline true)
    case h_3 => exact shape_elem _ rfl (inline true)
    case h_4 => exact shape_elem _ rfl (inline true)
    case h_5 ty =>
      rw [element.2 ty]
      exact shape_elem _ rfl (container false false)
    case h_6 => exact shape_elem _ (itemAttrs_shape attrs) (container true true)
    case h_7 =>
      exact shape_elem _ rfl (shape_elem _ rfl (container false false))
    case h_8 => exact shape_elem _ rfl (container false false)
    case h_9 =>
      rw [isHeaderCell_alike attrs]
      exact shape_elem _ rfl (container false false)
    case h_10 =>
      have bare : (blockChildren t).isEmpty = (blockChildren t').isEmpty :=
        blockChildren_isEmpty chunks
      rw [bare]
      split
      · exact container false false
      · exact paragraph []

mutual

lemma blockChunkForest_shape (named : rules.Named) : ∀ (c c' : Chunk), c.Alike c' →
    ∀ (onlyLists : Bool) (depth : ℕ),
      Html.shape (blockChunkForest F rules onlyLists depth c) =
        Html.shape (blockChunkForest F rules onlyLists depth c')
  | .text attrs chunks, c', h, onlyLists, depth => by
    cases c' <;> simp only [Chunk.Alike] at h
    next attrs' chunks' =>
    rw [blockChunkForest, blockChunkForest, ← typeOf_alike h.1]
    split
    · rfl
    · split
      · rfl
      · apply blockTrees_shape named
        · rw [Chunk.Alike]
          exact h
        · intro only
          split
          · rfl
          · exact blockChunksForest_shape named chunks chunks' h.2.2 only (depth + 1)
  | .map attrs, c', h, onlyLists, depth => by
    cases c' <;> simp only [Chunk.Alike] at h
    rw [blockChunkForest, blockChunkForest] <;> simp
  | .run s, c', h, onlyLists, depth => by
    cases c' <;> simp only [Chunk.Alike] at h
    rw [blockChunkForest, blockChunkForest] <;> simp
  | .element attrs, c', h, onlyLists, depth => by
    cases c' <;> simp only [Chunk.Alike] at h
    rw [blockChunkForest, blockChunkForest] <;> simp
  | .other, c', h, onlyLists, depth => by
    cases c' <;> simp only [Chunk.Alike] at h
    rfl

lemma blockChunksForest_shape (named : rules.Named) : ∀ (cs cs' : List Chunk), Alike cs cs' →
    ∀ (onlyLists : Bool) (depth : ℕ),
      Html.shape (blockChunksForest F rules onlyLists depth cs) =
        Html.shape (blockChunksForest F rules onlyLists depth cs')
  | [], cs', h, onlyLists, depth => by
    cases cs' <;> simp only [Alike] at h
    rfl
  | c :: cs, cs', h, onlyLists, depth => by
    cases cs' <;> simp only [Alike] at h
    next c' cs' =>
    rw [blockChunksForest, blockChunksForest, Html.shape_append, Html.shape_append,
      blockChunkForest_shape named c c' h.1 onlyLists depth,
      blockChunksForest_shape named cs cs' h.2 onlyLists depth]

end

/-! ## Documents -/

lemma rootForest_shape (named : rules.Named) {node node' : RootNode} (h : node.Alike node') :
    Html.shape (rootForest F rules node) = Html.shape (rootForest F rules node') := by
  cases node <;> cases node' <;> try exact h.elim
  case text.text t t' =>
    apply blockTrees_shape named h
    intro only
    have chunks : Alike t.chunks t'.chunks := by
      rw [RootNode.Alike, Chunk.Alike] at h
      exact h.2.2
    unfold childForest
    split
    · rfl
    · exact blockChunksForest_shape named t.chunks t'.chunks chunks only (0 + 1)
  case element.element attrs attrs' => exact decoratorForest_shape named h
  case fragment.fragment content content' => simp [rootForest, Html.Tree.shape]

/-- Alike documents have forests of one shape. -/
theorem forest_shape (named : rules.Named) {root root' : List RootNode}
    (h : DocumentAlike root root') :
    Html.shape (forest F rules root) = Html.shape (forest F rules root') := by
  induction h with
  | nil => rfl
  | cons node _ ih =>
    unfold forest at ih ⊢
    rw [List.flatMap_cons, List.flatMap_cons, Html.shape_append, Html.shape_append,
      rootForest_shape named node, ih]

end LexicalHtml

end Yrby
