import Yrby.Render.RenderRules
import Yrby.Render.LexicalForest
import Yrby.Render.ProseMirrorForest

/-!
# The nodes with a rule that a rendering reaches

`reached` lists the nodes of a document that are rendered by a rule, in their order, by recursion
on the document alone: down to the depth caps, and not below a rule that has no content.  The holes
of a document's forest are those among them whose rule is a callback (`holes_forest`).
-/

namespace Yrby

open HtmlCore RenderRules

namespace RenderRules

/-- What renders inside a rule's node. -/
def ruleContent : NodeRule → Content
  | .declarative _ void _ _ content => if void then .none else content
  | .callback content => content

/-- The node's rule is a callback. -/
def isCallback (rules : Rules) (label : Deferred) : Bool :=
  match rules.nodes.get label.nodeType with
  | some (.callback _) => true
  | _ => false

lemma holes_ruleTree {rules : Rules} {label : Deferred} {rule : NodeRule}
    (there : rules.nodes.get label.nodeType = some rule) (lookup : String → Option String)
    {body : Content → List Tree} {inside : List Deferred} (empty : Html.holes (body .none) = [])
    (hbody : Html.holes (body (ruleContent rule)) = inside.filter (isCallback rules)) :
    Html.holes [ruleTree lookup label body rule] =
      (label :: inside).filter (isCallback rules) := by
  cases rule with
  | callback content =>
    have own : isCallback rules label = true := by rw [isCallback, there]
    rw [List.filter_cons_of_pos own, ← hbody]
    simp [ruleTree, Html.Tree.holes, ruleContent]
  | declarative tag void attrs text content =>
    have own : ¬ isCallback rules label = true := by simp [isCallback, there]
    rw [List.filter_cons_of_neg own, ← hbody]
    cases void with
    | true => simpa [ruleTree, Html.Tree.holes, ruleContent] using empty.symm
    | false => simp [ruleTree, Html.Tree.holes, ruleContent]

lemma holes_paragraphForest {inline empty : List Tree} (hempty : Html.holes empty = []) :
    Html.holes (paragraphForest inline empty) = Html.holes inline := by
  unfold paragraphForest
  by_cases nothing : Html.pieces inline = []
  · simp [nothing, hempty, Html.holes_of_pieces nothing]
  · simp [nothing, Html.Tree.holes]

end RenderRules

/-! ## Lexical documents -/

namespace LexicalHtml

section

variable (F : Foreign) (rules : Rules)

/-- A decorator with a rule. -/
def decoratorReached (attrs : Attrs) : List Deferred :=
  match rules.nodes.get (typeOf attrs) with
  | some _ => [⟨typeOf attrs, xmlAttrsJson F.toJson attrs, []⟩]
  | none => []

mutual

/-- The nodes with a rule in inline position. -/
def chunkReached (depth : ℕ) (ruledInline : Bool) : Chunk → List Deferred
  | .text attrs chunks =>
    if isInlineType (typeOf attrs) || (ruledInline && !isBuiltin (typeOf attrs)) then
      match rules.nodes.get (typeOf attrs) with
      | some rule =>
        deferredText F ⟨attrs, chunks⟩ ::
          if ruleContent rule ≠ .none ∧ depth < maxInlineDepth then
            chunksReached (depth + 1) true chunks
          else []
      | none => if depth < maxInlineDepth then chunksReached (depth + 1) true chunks else []
    else []
  | .element attrs => decoratorReached F rules attrs
  | .map _ => []
  | .run _ => []
  | .other => []

def chunksReached (depth : ℕ) (ruledInline : Bool) : List Chunk → List Deferred
  | [] => []
  | c :: cs => chunkReached depth ruledInline c ++ chunksReached depth ruledInline cs

end

/-- The nodes with a rule in a block's content slot. -/
def contentReached (t : XmlText) (blocks : List Deferred) : Content → List Deferred
  | .inline => chunksReached F rules 0 true t.chunks
  | .blocks => chunksReached F rules 0 false t.chunks ++ blocks
  | .none => []

/-- A block's own, given those of its block children: all of them, or the lists alone. -/
def blockReached (t : XmlText) (blocks : Bool → List Deferred) : List Deferred :=
  match rules.nodes.get (nodeType t) with
  | some rule => deferredText F t :: contentReached F rules t (blocks false) (ruleContent rule)
  | none =>
    if nodeType t ∈ ["paragraph", "heading", "quote", "code"] then
      contentReached F rules t [] .inline
    else if nodeType t = "listitem" then contentReached F rules t [] .inline ++ blocks true
    else if nodeType t ∈ ["list", "table", "tablerow", "tablecell"] ∨
        !(blockChildren t).isEmpty then
      contentReached F rules t (blocks false) .blocks
    else contentReached F rules t [] .inline

mutual

def blockChunkReached (onlyLists : Bool) (depth : ℕ) : Chunk → List Deferred
  | .text attrs chunks =>
    if isInlineType (typeOf attrs) then []
    else if onlyLists && typeOf attrs ≠ "list" then []
    else blockReached F rules ⟨attrs, chunks⟩ fun only =>
      if maxBlockDepth ≤ depth then [] else blockChunksReached only (depth + 1) chunks
  | _ => []

def blockChunksReached (onlyLists : Bool) (depth : ℕ) : List Chunk → List Deferred
  | [] => []
  | c :: cs => blockChunkReached onlyLists depth c ++ blockChunksReached onlyLists depth cs

end

def rootReached : RootNode → List Deferred
  | .text t => blockReached F rules t fun only =>
      if maxBlockDepth ≤ 0 then [] else blockChunksReached F rules only 1 t.chunks
  | .element attrs => decoratorReached F rules attrs
  | .fragment _ => []

/-- The nodes with a rule that a rendering of the document reaches. -/
def reached (root : List RootNode) : List Deferred :=
  if isLexicalShaped root then root.flatMap (rootReached F rules) else []

variable {F rules}

lemma whole_run (text : String) (format : ℕ) (style : String) :
    Html.Each Html.whole [runTree text format style] := by
  have meets : Meets ⟨⟨fun s => s, fun _ => ""⟩, fun _ => ""⟩ Rules.empty Html.whole [] [] :=
    { void := fun h => by simp [Rules.empty, Dict.get] at h
      elem := fun h => by simp [Rules.empty, Dict.get] at h
      builtinVoid := fun _ _ => trivial
      builtinElem := fun _ _ _ _ => trivial
      inline := by simp
      block := by simp
      decorator := by simp }
  exact meets.eachRun text format style

lemma holes_decoratorForest (attrs : Attrs) :
    Html.holes (decoratorForest F rules attrs) =
      (decoratorReached F rules attrs).filter (isCallback rules) := by
  unfold decoratorForest decoratorReached
  cases there : rules.nodes.get (typeOf attrs) with
  | none =>
    dsimp only
    split
    · simp [Html.Tree.holes]
    · simp
  | some rule =>
    have label : rules.nodes.get
        (Deferred.mk (typeOf attrs) (xmlAttrsJson F.toJson attrs) []).nodeType = some rule := there
    exact holes_ruleTree label _ Html.holes_nil Html.holes_nil

lemma holes_ruleInlineTree {t : XmlText} {rule : NodeRule}
    (there : rules.nodes.get (nodeType t) = some rule) (depth : ℕ) {body : List Tree}
    {inside : List Deferred} (hbody : Html.holes body = inside.filter (isCallback rules)) :
    Html.holes [ruleInlineTree F t rule depth body] =
      (deferredText F t :: if ruleContent rule ≠ .none ∧ depth < maxInlineDepth then inside
        else []).filter (isCallback rules) := by
  have label : rules.nodes.get (deferredText F t).nodeType = some rule := there
  apply holes_ruleTree label
  · simp
  · split
    · exact hbody
    · simp

lemma holes_linkTree (t : XmlText) (depth : ℕ) {body : List Tree} {inside : List Deferred}
    (hbody : Html.holes body = inside.filter (isCallback rules)) :
    Html.holes [linkTree F t depth body] =
      (if depth < maxInlineDepth then inside else []).filter (isCallback rules) := by
  rw [linkTree, Html.holes_element]
  split
  · exact hbody
  · simp [Html.Tree.holes]

mutual

lemma holes_chunkForest : ∀ (c : Chunk) (depth : ℕ) (ruledInline : Bool) (run : RunState),
    Html.holes (chunkForest F rules depth ruledInline run c) =
      (chunkReached F rules depth ruledInline c).filter (isCallback rules)
  | .map attrs, depth, ruledInline, run => by
    rw [chunkForest, chunkReached]
    split
    · simp [Html.Tree.holes]
    · simp
  | .run s, depth, ruledInline, run => by
    rw [chunkForest, chunkReached]
    split
    · simp [Html.Tree.holes]
    · exact Html.holes_of_whole _ (whole_run s.text run.format run.style)
  | .text attrs chunks, depth, ruledInline, run => by
    have body := holes_chunksForest chunks (depth + 1) true .init
    rw [chunkForest, chunkReached]
    by_cases inl : isInlineType (typeOf attrs) = true
    · simp only [inl, if_true, Bool.true_or]
      cases there : rules.nodes.get (typeOf attrs) with
      | some rule => exact holes_ruleInlineTree there depth body
      | none => exact holes_linkTree ⟨attrs, chunks⟩ depth body
    · simp only [Bool.eq_false_iff.mpr inl, Bool.false_or, Bool.false_eq_true, if_false]
      by_cases ruled : (ruledInline && !isBuiltin (typeOf attrs)) = true
      · have inline : ruledInline = true := (Bool.and_eq_true _ _ ▸ ruled).1
        simp only [ruled, if_true]
        cases there : rules.nodes.get (typeOf attrs) with
        | some rule => exact holes_ruleInlineTree there depth body
        | none =>
          dsimp only
          rw [inline]
          split
          · exact body
          · simp
      · rw [if_neg ruled, if_neg ruled]
        simp
  | .element attrs, depth, ruledInline, run => by
    rw [chunkForest, chunkReached]
    exact holes_decoratorForest attrs
  | .other, depth, ruledInline, run => by
    rw [chunkForest, chunkReached]
    simp

lemma holes_chunksForest : ∀ (cs : List Chunk) (depth : ℕ) (ruledInline : Bool) (run : RunState),
    Html.holes (chunksForest F rules depth ruledInline run cs) =
      (chunksReached F rules depth ruledInline cs).filter (isCallback rules)
  | [], depth, ruledInline, run => by
    rw [chunksForest, chunksReached]
    simp
  | c :: cs, depth, ruledInline, run => by
    rw [chunksForest, chunksReached, Html.holes_append, List.filter_append,
      holes_chunkForest c depth ruledInline run,
      holes_chunksForest cs depth ruledInline (run.next c)]

end

lemma holes_contentForest (t : XmlText) {blocks : List Tree} {inside : List Deferred}
    (hblocks : Html.holes blocks = inside.filter (isCallback rules)) (content : Content) :
    Html.holes (contentForest F rules t blocks content) =
      (contentReached F rules t inside content).filter (isCallback rules) := by
  have inline : ∀ ruled, Html.holes (inlineForest F rules t 0 ruled) =
      (chunksReached F rules 0 ruled t.chunks).filter (isCallback rules) :=
    fun ruled => holes_chunksForest t.chunks 0 ruled .init
  cases content with
  | inline => exact inline true
  | blocks =>
    rw [contentForest, contentReached, Html.holes_append, List.filter_append, hblocks,
      inline false]
  | none => simp [contentForest, contentReached]

lemma holes_blockTrees (t : XmlText) {blocks : Bool → List Tree} {inside : Bool → List Deferred}
    (hblocks : ∀ only, Html.holes (blocks only) = (inside only).filter (isCallback rules)) :
    Html.holes (blockTrees F rules t blocks) =
      (blockReached F rules t inside).filter (isCallback rules) := by
  have inline : Html.holes (inlineForest F rules t 0 true) =
      (contentReached F rules t [] .inline).filter (isCallback rules) :=
    holes_chunksForest t.chunks 0 true .init
  have both : Html.holes (inlineForest F rules t 0 false ++ blocks false) =
      (contentReached F rules t (inside false) .blocks).filter (isCallback rules) :=
    holes_contentForest t (hblocks false) .blocks
  unfold blockTrees blockReached
  cases there : rules.nodes.get (nodeType t) with
  | some rule =>
    have label : rules.nodes.get (deferredText F t).nodeType = some rule := there
    exact holes_ruleTree label _ (by simp [contentForest]) (holes_contentForest t (hblocks false) _)
  | none =>
    dsimp only
    split
    case h_1 ty =>
      rw [if_pos (by simp [ty]), holes_paragraphForest (by simp [Html.Tree.holes]), inline]
    case h_2 ty => rw [if_pos (by simp [ty]), Html.holes_element, inline]
    case h_3 ty => rw [if_pos (by simp [ty]), Html.holes_element, inline]
    case h_4 ty => rw [if_pos (by simp [ty]), Html.holes_element, inline]
    case h_5 ty =>
      rw [if_neg (by simp [ty]), if_neg (by simp [ty]), if_pos (by simp [ty]), Html.holes_element,
        both]
    case h_6 ty =>
      rw [if_neg (by simp [ty]), if_pos ty, Html.holes_element, Html.holes_append,
        List.filter_append, inline, hblocks]
    case h_7 ty =>
      rw [if_neg (by simp [ty]), if_neg (by simp [ty]), if_pos (by simp [ty]), Html.holes_element,
        Html.holes_element, both]
    case h_8 ty =>
      rw [if_neg (by simp [ty]), if_neg (by simp [ty]), if_pos (by simp [ty]), Html.holes_element,
        both]
    case h_9 ty =>
      rw [Html.holes_element, both, if_neg (by simp [ty]), if_neg (by simp [ty]),
        if_pos (by simp [ty])]
    case h_10 paragraph heading quote code list item table row cell =>
      have leaf : nodeType t ∉ ["paragraph", "heading", "quote", "code"] := by
        simp only [List.mem_cons, List.not_mem_nil, or_false, not_or]
        exact ⟨paragraph, heading, quote, code⟩
      have container : nodeType t ∉ ["list", "table", "tablerow", "tablecell"] := by
        simp only [List.mem_cons, List.not_mem_nil, or_false, not_or]
        exact ⟨list, table, row, cell⟩
      by_cases blocks : (!(blockChildren t).isEmpty) = true
      · rw [if_pos blocks, both, if_neg leaf, if_neg item, if_pos (.inr blocks)]
      · rw [if_neg blocks, holes_paragraphForest Html.holes_nil, inline, if_neg leaf, if_neg item,
          if_neg fun either => either.elim container blocks]

mutual

lemma holes_blockChunkForest : ∀ (c : Chunk) (onlyLists : Bool) (depth : ℕ),
    Html.holes (blockChunkForest F rules onlyLists depth c) =
      (blockChunkReached F rules onlyLists depth c).filter (isCallback rules)
  | .text attrs chunks, onlyLists, depth => by
    rw [blockChunkForest, blockChunkReached]
    by_cases inl : isInlineType (typeOf attrs) = true
    · simp [inl]
    · rw [if_neg inl, if_neg inl]
      by_cases skip : (onlyLists && decide (typeOf attrs ≠ "list")) = true
      · rw [if_pos skip, if_pos skip]
        simp
      · rw [if_neg skip, if_neg skip]
        apply holes_blockTrees
        intro only
        split
        · simp
        · exact holes_blockChunksForest chunks only (depth + 1)
  | .map attrs, onlyLists, depth => by simp [blockChunkForest, blockChunkReached]
  | .run s, onlyLists, depth => by simp [blockChunkForest, blockChunkReached]
  | .element attrs, onlyLists, depth => by simp [blockChunkForest, blockChunkReached]
  | .other, onlyLists, depth => by simp [blockChunkForest, blockChunkReached]

lemma holes_blockChunksForest : ∀ (cs : List Chunk) (onlyLists : Bool) (depth : ℕ),
    Html.holes (blockChunksForest F rules onlyLists depth cs) =
      (blockChunksReached F rules onlyLists depth cs).filter (isCallback rules)
  | [], onlyLists, depth => by simp [blockChunksForest, blockChunksReached]
  | c :: cs, onlyLists, depth => by
    rw [blockChunksForest, blockChunksReached, Html.holes_append, List.filter_append,
      holes_blockChunkForest c onlyLists depth, holes_blockChunksForest cs onlyLists depth]

end

lemma holes_rootForest (node : RootNode) :
    Html.holes (rootForest F rules node) =
      (rootReached F rules node).filter (isCallback rules) := by
  cases node with
  | text t =>
    rw [rootForest, rootReached, blockForest]
    apply holes_blockTrees
    intro only
    unfold childForest
    split
    · simp
    · exact holes_blockChunksForest t.chunks only 1
  | element attrs => exact holes_decoratorForest attrs
  | fragment content => simp [rootForest, rootReached, Html.Tree.holes]

/-- The holes of a document are the callback nodes that its rendering reaches. -/
theorem holes_forest {root : List RootNode} (shaped : isLexicalShaped root = true) :
    Html.holes (forest F rules root) = (reached F rules root).filter (isCallback rules) := by
  rw [reached, if_pos shaped, forest, Html.holes_flatMap, List.filter_flatMap]
  congr 1
  funext node
  exact holes_rootForest node

end

end LexicalHtml

/-! ## ProseMirror documents -/

namespace ProseMirrorHtml

section

variable (json : Json) (rules : Rules)

mutual

/-- The nodes with a rule in inline position. -/
def nodeReached (depth : ℕ) : Node → List Deferred
  | .element tag attrs children =>
    match rules.nodes.get tag with
    | some rule =>
      deferredElement json ⟨tag, attrs, children⟩ ::
        if ruleContent rule ≠ .none ∧ depth < maxDepth then nodesReached (depth + 1) children
        else []
    | none =>
      if tag ∉ ["hardBreak", "hard_break", "image"] ∧ depth < maxDepth then
        nodesReached (depth + 1) children
      else []
  | .text _ => []
  | .fragment _ => []

def nodesReached (depth : ℕ) : List Node → List Deferred
  | [] => []
  | c :: cs => nodeReached depth c ++ nodesReached depth cs

end

/-- The nodes with a rule in a block's content slot. -/
def contentReached (e : XmlElement) (blocks : List Deferred) : Content → List Deferred
  | .inline => nodesReached json rules 0 e.children
  | .blocks => blocks
  | .none => []

/-- A block's own, given those of its child elements. -/
def blockReached (e : XmlElement) (blocks : List Deferred) : List Deferred :=
  match rules.nodes.get e.tag with
  | some rule => deferredElement json e :: contentReached json rules e blocks (ruleContent rule)
  | none =>
    match builtinOf e.tag with
    | some .paragraph => contentReached json rules e blocks .inline
    | some .heading => contentReached json rules e blocks .inline
    | some .codeBlock => []
    | some .horizontalRule => []
    | some .image => []
    | some .hardBreak => []
    | some _ => blocks
    | none => if hasElementChild e then blocks else contentReached json rules e blocks .inline

mutual

def blockNodeReached (depth : ℕ) : Node → List Deferred
  | .element tag attrs children => blockReached json rules ⟨tag, attrs, children⟩
      (if depth < maxDepth then blockNodesReached (depth + 1) children else [])
  | .text _ => []
  | .fragment _ => []

def blockNodesReached (depth : ℕ) : List Node → List Deferred
  | [] => []
  | c :: cs => blockNodeReached depth c ++ blockNodesReached depth cs

end

/-- The nodes with a rule that a rendering of the document reaches. -/
def reached (root : List Node) : List Deferred :=
  if isProsemirrorShaped root then blockNodesReached json rules 0 root else []

variable {json rules}

lemma whole_runs (diffs : List TextDiff) : Html.Each Html.whole (runsForest rules diffs) := by
  induction diffs with
  | nil => exact Html.each_nil
  | cons d diffs ih =>
    cases d with
    | embed => exact ih
    | run s marks =>
      apply each_wrapRun (fun _ _ => trivial) _ ih
      rw [Html.Tree.Each]
      exact trivial

lemma holes_runsForest (diffs : List TextDiff) : Html.holes (runsForest rules diffs) = [] :=
  Html.holes_of_whole _ (whole_runs diffs)

mutual

lemma holes_nodeForest : ∀ (c : Node) (depth : ℕ),
    Html.holes (nodeForest json rules depth c) =
      (nodeReached json rules depth c).filter (isCallback rules)
  | .text diffs, depth => by simp [nodeForest, nodeReached, holes_runsForest]
  | .element tag attrs children, depth => by
    have body := holes_nodesForest children (depth + 1)
    rw [nodeForest, nodeReached]
    cases there : rules.nodes.get tag with
    | some rule =>
      have label : rules.nodes.get
          (deferredElement json ⟨tag, attrs, children⟩).nodeType = some rule := there
      apply holes_ruleTree label
      · simp
      · split
        · exact body
        · simp
    | none =>
      dsimp only
      by_cases leaf : tag ∈ ["hardBreak", "hard_break"]
      · rw [if_pos leaf, if_neg (by simp at leaf; simp; tauto)]
        simp [Html.Tree.holes]
      · rw [if_neg leaf]
        by_cases image : tag = "image"
        · rw [if_pos image, if_neg (by simp [image])]
          simp [Html.Tree.holes]
        · rw [if_neg image]
          by_cases below : depth < maxDepth
          · rw [if_pos below, if_pos (by simp at leaf; simp [leaf, image, below]), body]
          · rw [if_neg below, if_neg (by simp [below])]
            simp
  | .fragment content, depth => by simp [nodeForest, nodeReached]

lemma holes_nodesForest : ∀ (cs : List Node) (depth : ℕ),
    Html.holes (nodesForest json rules depth cs) =
      (nodesReached json rules depth cs).filter (isCallback rules)
  | [], depth => by simp [nodesForest, nodesReached]
  | c :: cs, depth => by
    rw [nodesForest, nodesReached, Html.holes_append, List.filter_append,
      holes_nodeForest c depth, holes_nodesForest cs depth]

end

lemma holes_strayForest (e : XmlElement) : Html.holes (strayForest rules e) = [] := by
  rw [strayForest, Html.holes_flatMap, List.flatMap_eq_nil_iff]
  intro c _
  cases c with
  | text diffs => exact holes_runsForest diffs
  | element tag attrs children => exact Html.holes_nil
  | fragment content => exact Html.holes_nil

lemma holes_blockTrees (e : XmlElement) {blocks : List Tree} {inside : List Deferred}
    (hblocks : Html.holes blocks = inside.filter (isCallback rules)) :
    Html.holes (blockTrees json rules e blocks) =
      (blockReached json rules e inside).filter (isCallback rules) := by
  have inline : Html.holes (inlineForest json rules e) =
      (contentReached json rules e inside .inline).filter (isCallback rules) :=
    holes_nodesForest e.children 0
  have both : Html.holes (strayForest rules e ++ blocks) = inside.filter (isCallback rules) := by
    rw [Html.holes_append, holes_strayForest, hblocks, List.nil_append]
  unfold blockTrees blockReached
  cases there : rules.nodes.get e.tag with
  | some rule =>
    have label : rules.nodes.get (deferredElement json e).nodeType = some rule := there
    apply holes_ruleTree label
    · simp [contentForest]
    · cases ruleContent rule with
      | inline => exact inline
      | blocks => exact both
      | none => simp [contentForest, contentReached]
  | none =>
    dsimp only
    cases builtinOf e.tag with
    | none =>
      dsimp only
      split
      · exact both
      · rw [holes_paragraphForest Html.holes_nil, inline]
    | some spelling =>
      cases spelling with
      | paragraph => rw [Html.holes_element, inline]
      | heading => rw [Html.holes_element, inline]
      | codeBlock => simp [Html.Tree.holes]
      | blockquote => rw [Html.holes_element, both]
      | bulletList => rw [Html.holes_element, both]
      | orderedList => rw [Html.holes_element, both]
      | listItem => rw [Html.holes_element, both]
      | table => rw [Html.holes_element, Html.holes_element, both]
      | tableRow => rw [Html.holes_element, both]
      | tableHeader => rw [Html.holes_element, both]
      | tableCell => rw [Html.holes_element, both]
      | horizontalRule => simp [Html.Tree.holes]
      | image => simp [Html.Tree.holes]
      | hardBreak => simp [Html.Tree.holes]

mutual

lemma holes_blockNodeForest : ∀ (c : Node) (depth : ℕ),
    Html.holes (blockNodeForest json rules depth c) =
      (blockNodeReached json rules depth c).filter (isCallback rules)
  | .element tag attrs children, depth => by
    rw [blockNodeForest, blockNodeReached]
    apply holes_blockTrees
    split
    · exact holes_blockNodesForest children (depth + 1)
    · simp
  | .text diffs, depth => by simp [blockNodeForest, blockNodeReached]
  | .fragment content, depth => by simp [blockNodeForest, blockNodeReached]

lemma holes_blockNodesForest : ∀ (cs : List Node) (depth : ℕ),
    Html.holes (blockNodesForest json rules depth cs) =
      (blockNodesReached json rules depth cs).filter (isCallback rules)
  | [], depth => by simp [blockNodesForest, blockNodesReached]
  | c :: cs, depth => by
    rw [blockNodesForest, blockNodesReached, Html.holes_append, List.filter_append,
      holes_blockNodeForest c depth, holes_blockNodesForest cs depth]

end

lemma holes_rootForest (node : Node) :
    Html.holes (rootForest json rules node) =
      (blockNodeReached json rules 0 node).filter (isCallback rules) := by
  cases node with
  | element tag attrs children => exact holes_blockNodeForest (.element tag attrs children) 0
  | text diffs => simp [rootForest, blockNodeReached, holes_runsForest]
  | fragment content => simp [rootForest, blockNodeReached, Html.Tree.holes]

/-- The holes of a document are the callback nodes that its rendering reaches. -/
theorem holes_forest {root : List Node} (shaped : isProsemirrorShaped root = true) :
    Html.holes (forest json rules root) =
      (reached json rules root).filter (isCallback rules) := by
  have all : ∀ nodes : List Node, Html.holes (nodes.flatMap (rootForest json rules)) =
      (blockNodesReached json rules 0 nodes).filter (isCallback rules) := by
    intro nodes
    induction nodes with
    | nil => simp [blockNodesReached]
    | cons node nodes ih =>
      rw [List.flatMap_cons, Html.holes_append, holes_rootForest, blockNodesReached,
        List.filter_append, ih]
  rw [reached, if_pos shaped]
  exact all root

end

end ProseMirrorHtml

end Yrby
