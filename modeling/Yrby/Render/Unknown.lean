import Yrby.Render.NodeTypes
import Yrby.Render.Reached
import Yrby.Render.Text

/-!
# The nodes a rendering has no markup for

A node has markup of its own when it has a rule, or an arm of the renderer for the position it
stands in.  Otherwise its content is rendered without it, or it is not rendered at all.
`documentNodes` lists the nodes of a document with their positions, down to the rules and the
leaves that have no content.

`unknown_types` does not know positions.  `unknown_complete_iff` says when it lists every type of a
node without markup: when no built-in type stands where the renderer has no arm for it.
-/

namespace Yrby

open HtmlCore RenderRules

namespace RenderRules

/-- Where a node stands. -/
inductive Position
  | inline
  | block
  | decorator
  /-- No arm visits it. -/
  | unseen
  deriving DecidableEq

/-- A rule for the type has no content, so that nothing inside the node is rendered. -/
def hides (rules : Rules) (ty : String) : Bool :=
  (rules.nodes.get ty).any fun rule => ruleContent rule = .none

/-- A node of the type is rendered with markup of its own, by its rule or by an arm. -/
def HasMarkup (rules : Rules) (arms : Position → List String) (pos : Position) (ty : String) :
    Prop :=
  pos ≠ .unseen ∧ (rules.nodes.get ty ≠ none ∨ ty ∈ arms pos)

/-- The types of nodes without markup are among the unknown types. -/
structure ListsAll (rules : Rules) (arms : Position → List String)
    (nodes : List (Position × String)) (unknown : List String) : Prop where
  listed : ∀ pos ty, (pos, ty) ∈ nodes → ¬ HasMarkup rules arms pos ty → ty ∈ unknown
  /-- So an empty answer means that every node has markup. -/
  empty : unknown = [] → ∀ pos ty, (pos, ty) ∈ nodes → HasMarkup rules arms pos ty

lemma not_hasMarkup {rules : Rules} {arms : Position → List String} {pos : Position} {ty : String}
    (bare : ¬ HasMarkup rules arms pos ty) (seen : pos ≠ .unseen) :
    rules.nodes.get ty = none ∧ ty ∉ arms pos := by
  rw [HasMarkup, not_and] at bare
  obtain ⟨unruled, unarmed⟩ := not_or.mp (bare seen)
  exact ⟨not_not.mp unruled, unarmed⟩

/-- A known type is one with a rule or a built-in one.  When the walk has found the types of all
nodes, all is listed when every node of a known type has markup. -/
lemma listsAll_iff {rules : Rules} {arms : Position → List String} {isBuiltin : String → Bool}
    {nodes : List (Position × String)} {map : TypeMap}
    (found : ∀ pos ty, (pos, ty) ∈ nodes → ty ∈ map.types) :
    ListsAll rules arms nodes (unknownTypes isBuiltin rules (some map)) ↔
      ∀ pos ty, (pos, ty) ∈ nodes →
        rules.nodes.get ty ≠ none ∨ isBuiltin ty = true → HasMarkup rules arms pos ty := by
  have known : ∀ pos ty, (pos, ty) ∈ nodes → (rules.nodes.get ty ≠ none ∨ isBuiltin ty = true ↔
      ty ∉ unknownTypes isBuiltin rules (some map)) := by
    intro pos ty hmem
    rw [mem_unknownTypes, and_iff_right (found pos ty hmem), not_and_or, Bool.not_eq_false]
  constructor
  · intro all pos ty hmem hknown
    by_contra bare
    exact (known pos ty hmem).1 hknown (all.listed pos ty hmem bare)
  · intro marked
    refine ⟨fun pos ty hmem bare => ?_, fun none pos ty hmem => ?_⟩
    · by_contra unlisted
      exact bare (marked pos ty hmem ((known pos ty hmem).2 unlisted))
    · refine marked pos ty hmem ((known pos ty hmem).2 ?_)
      rw [none]
      exact List.not_mem_nil

end RenderRules

/-! ## Lexical documents -/

namespace LexicalHtml

/-- The built-in types with an arm of their own. -/
def arms : Position → List String
  | .inline => ["link", "autolink"]
  | .block => ["paragraph", "heading", "quote", "code", "list", "listitem", "table", "tablerow",
    "tablecell"]
  | .decorator => ["horizontalrule"]
  | .unseen => []

/-- The position of a nested text, in a text of this mode or in one that no arm visits. -/
def position : Option Mode → String → Position
  | none, _ => .unseen
  | some m, ty =>
    match place m ty with
    | .inline => .inline
    | .block => .block
    | .nowhere => .unseen

section

variable (rules : Rules)

/-- How the content of a text in this position is rendered. -/
def modeInside (t : XmlText) : Position → Option Mode
  | .inline => some .leaf
  | .block =>
    match rules.nodes.get (nodeType t) with
    | some rule => some (if ruleContent rule = .blocks then .container else .leaf)
    | none => some (modeOf t)
  | .decorator => none
  | .unseen => none

mutual

/-- The nodes of a chunk of such a text, at any depth. -/
def Chunk.nodes (m : Option Mode) : Chunk → List (Position × String)
  | .text attrs chunks =>
    (position m (typeOf attrs), typeOf attrs) ::
      if hides rules (typeOf attrs) then []
      else nodes (modeInside rules ⟨attrs, chunks⟩ (position m (typeOf attrs))) chunks
  | .element attrs => [(if m.isSome then .decorator else .unseen, typeOf attrs)]
  | _ => []

def nodes (m : Option Mode) : List Chunk → List (Position × String)
  | [] => []
  | c :: cs => c.nodes m ++ nodes m cs

end

def RootNode.nodes : RootNode → List (Position × String)
  | .text t =>
    (.block, nodeType t) ::
      if hides rules (nodeType t) then []
      else LexicalHtml.nodes rules (modeInside rules t .block) t.chunks
  | .element attrs => [(.decorator, typeOf attrs)]
  | .fragment _ => []

def documentNodes (root : List RootNode) : List (Position × String) :=
  root.flatMap (RootNode.nodes rules)

/-- No built-in type stands where the renderer has no arm for it. -/
structure Placed (root : List RootNode) : Prop where
  seen : ∀ ty, (.unseen, ty) ∉ documentNodes rules root
  blocks : ∀ ty, (.block, ty) ∈ documentNodes rules root → rules.nodes.get ty = none →
    isBuiltin ty = true → ty ∈ arms .block
  decorators : ∀ ty, (.decorator, ty) ∈ documentNodes rules root → rules.nodes.get ty = none →
    isBuiltin ty = true → ty = "horizontalrule"

variable {rules}

lemma place_of_inline {m : Mode} {ty : String} (h : position (some m) ty = .inline) :
    place m ty = .inline := by
  rw [position] at h
  cases there : place m ty <;> simp [there] at h ⊢

lemma place_of_unseen {m : Mode} {ty : String} (h : position (some m) ty = .unseen) :
    place m ty = .nowhere := by
  rw [position] at h
  cases there : place m ty <;> simp [there] at h ⊢

/-! ### What is rendered at each position -/

section

variable {F : Foreign} {attrs : Attrs} {t : XmlText} {m : Mode}

lemma decoratorForest_of_hasMarkup (h : HasMarkup rules arms .decorator (typeOf attrs)) :
    ∃ tree, decoratorForest F rules attrs = [tree] := by
  unfold decoratorForest
  cases there : rules.nodes.get (typeOf attrs) with
  | some rule => exact ⟨_, rfl⟩
  | none =>
    have rule := List.mem_singleton.mp (h.2.resolve_left (not_not.mpr there))
    exact ⟨_, if_pos rule⟩

lemma decoratorForest_of_not_hasMarkup (h : ¬ HasMarkup rules arms .decorator (typeOf attrs)) :
    decoratorForest F rules attrs = [] := by
  obtain ⟨unruled, unarmed⟩ := not_hasMarkup h (by decide)
  unfold decoratorForest
  rw [unruled]
  exact if_neg fun rule => unarmed (List.mem_singleton.mpr rule)

lemma chunkForest_of_hasMarkup (h : position (some m) (typeOf attrs) = .inline)
    (markup : HasMarkup rules arms .inline (typeOf attrs)) (depth : ℕ) (run : RunState)
    (chunks : List Chunk) :
    ∃ tree, chunkForest F rules depth m.ruledInline run (.text attrs chunks) = [tree] := by
  rw [chunkForest]
  by_cases inl : isInlineType (typeOf attrs) = true
  · rw [if_pos inl]
    cases rules.nodes.get (typeOf attrs) <;> exact ⟨_, rfl⟩
  · have ruled := (place_eq_inline.mp (place_of_inline h)).resolve_left inl
    have unarmed : typeOf attrs ∉ arms .inline := fun arm => inl (decide_eq_true arm)
    obtain ⟨rule, there⟩ := Option.ne_none_iff_exists'.mp (markup.2.resolve_right unarmed)
    rw [if_neg inl, if_pos (by simp [ruled]), there]
    exact ⟨_, rfl⟩

/-- The unknown-inline fallback: the content alone. -/
lemma chunkForest_of_not_hasMarkup (h : position (some m) (typeOf attrs) = .inline)
    (bare : ¬ HasMarkup rules arms .inline (typeOf attrs)) {depth : ℕ}
    (below : depth < maxInlineDepth) (run : RunState) (chunks : List Chunk) :
    chunkForest F rules depth m.ruledInline run (.text attrs chunks) =
      chunksForest F rules (depth + 1) true .init chunks := by
  obtain ⟨unruled, unarmed⟩ := not_hasMarkup bare (by decide)
  have inl : ¬ isInlineType (typeOf attrs) = true := fun link => unarmed (of_decide_eq_true link)
  have ruled := (place_eq_inline.mp (place_of_inline h)).resolve_left inl
  rw [chunkForest, if_neg inl, if_pos (by simp [ruled]), unruled]
  dsimp only
  rw [if_pos below, ruled.1]

lemma blockTrees_of_hasMarkup (markup : HasMarkup rules arms .block (nodeType t))
    (blocks : Bool → List Tree) : ∃ tree, blockTrees F rules t blocks = [tree] := by
  unfold blockTrees
  cases there : rules.nodes.get (nodeType t) with
  | some rule => exact ⟨_, rfl⟩
  | none =>
    have arm := markup.2.resolve_left (not_not.mpr there)
    dsimp only
    split
    next =>
      unfold paragraphForest
      split <;> exact ⟨_, rfl⟩
    next => exact ⟨_, rfl⟩
    next => exact ⟨_, rfl⟩
    next => exact ⟨_, rfl⟩
    next => exact ⟨_, rfl⟩
    next => exact ⟨_, rfl⟩
    next => exact ⟨_, rfl⟩
    next => exact ⟨_, rfl⟩
    next => exact ⟨_, rfl⟩
    next => simp_all [arms]

/-- The unknown-block arm: the inline content and the blocks, or a paragraph of the content. -/
lemma blockTrees_of_not_hasMarkup (bare : ¬ HasMarkup rules arms .block (nodeType t))
    (blocks : Bool → List Tree) :
    blockTrees F rules t blocks =
      if !(blockChildren t).isEmpty then inlineForest F rules t 0 false ++ blocks false
      else paragraphForest (inlineForest F rules t 0 true) [] := by
  obtain ⟨unruled, unarmed⟩ := not_hasMarkup bare (by decide)
  simp only [arms, List.mem_cons, List.not_mem_nil, or_false, not_or] at unarmed
  unfold blockTrees
  rw [unruled]
  dsimp only
  split <;> first | rfl | simp_all

/-- Which of a block's children are rendered as blocks: all, the lists alone, or none. -/
def Mode.asks : Mode → Bool → Prop
  | .leaf, _ => False
  | .container, only => only = false
  | .item, only => only = true

/-- A block renders the block children its mode asks for, and no others. -/
lemma blockTrees_congr (h : modeInside rules t .block = some m) {blocks blocks' : Bool → List Tree}
    (asked : ∀ only, m.asks only → blocks only = blocks' only) :
    blockTrees F rules t blocks = blockTrees F rules t blocks' := by
  have container : m = .container → blocks false = blocks' false := by
    rintro rfl
    exact asked false rfl
  have item : m = .item → blocks true = blocks' true := by
    rintro rfl
    exact asked true rfl
  unfold modeInside at h
  unfold blockTrees
  cases there : rules.nodes.get (nodeType t) with
  | some rule =>
    rw [there] at h
    dsimp only at h ⊢
    split at h
    next =>
      obtain rfl := Option.some.inj h
      rw [container rfl]
    next slot =>
      cases rule with
      | callback content => cases content <;> first | rfl | exact absurd rfl slot
      | declarative tag void attrs text content =>
        cases void with
        | true => rfl
        | false => cases content <;> first | rfl | exact absurd rfl slot
  | none =>
    rw [there] at h
    obtain rfl := Option.some.inj h
    dsimp only
    split
    case h_5 ty => rw [container (by simp [modeOf, ty])]
    case h_6 ty => rw [item (by simp [modeOf, ty])]
    case h_7 ty => rw [container (by simp [modeOf, ty])]
    case h_8 ty => rw [container (by simp [modeOf, ty])]
    case h_9 ty => rw [container (by simp [modeOf, ty])]
    case h_10 =>
      by_cases bare : (blockChildren t).isEmpty = true
      · simp [bare]
      · rw [container]
        unfold modeOf
        split <;> first | contradiction | exact if_neg bare
    all_goals rfl

/-- A text in a position that no arm visits is rendered neither with the inline content nor among
the blocks. -/
lemma forests_of_unseen (h : position (some m) (typeOf attrs) = .unseen) (depth : ℕ)
    (run : RunState) (chunks : List Chunk) :
    chunkForest F rules depth m.ruledInline run (.text attrs chunks) = [] ∧
      ∀ only, m.asks only → blockChunkForest F rules only depth (.text attrs chunks) = [] := by
  have nowhere := place_of_unseen h
  have notInline : ¬ (isInlineType (typeOf attrs) = true ∨
      (m.ruledInline = true ∧ isBuiltin (typeOf attrs) = false)) := by
    rw [← place_eq_inline, nowhere]
    decide
  have notBlock : ¬ (isInlineType (typeOf attrs) = false ∧
      (m = .container ∨ (m = .item ∧ typeOf attrs = "list"))) := by
    rw [← place_eq_block, nowhere]
    decide
  obtain ⟨inl, foreign⟩ := not_or.mp notInline
  constructor
  · rw [chunkForest, if_neg inl, if_neg]
    simpa using foreign
  · intro only asks
    rw [blockChunkForest, if_neg inl]
    cases m with
    | leaf => exact asks.elim
    | container => simp_all
    | item =>
      obtain rfl : only = true := asks
      exact if_pos (by simp_all)

end

/-- A text in inline position is a link, or of no built-in type. -/
lemma inline_position {m : Option Mode} {ty : String} (h : position m ty = .inline) :
    isInlineType ty = true ∨ isBuiltin ty = false := by
  cases m with
  | none => cases h
  | some m => exact (place_eq_inline.mp (place_of_inline h)).imp_right And.right

/-- A text that no arm visits, in one that is rendered, is of a built-in type. -/
lemma unseen_position {m : Mode} {ty : String} (h : position (some m) ty = .unseen) :
    isBuiltin ty = true := by
  have nowhere := place_of_unseen h
  unfold place at nowhere
  split at nowhere
  next => cases nowhere
  next => cases m <;> grind

lemma exists_modeInside_block (t : XmlText) : ∃ m, modeInside rules t .block = some m := by
  rw [modeInside]
  split <;> exact ⟨_, rfl⟩

lemma exists_modeInside {t : XmlText} {m : Mode} {ty : String}
    (seen : position (some m) ty ≠ .unseen) :
    ∃ m', modeInside rules t (position (some m) ty) = some m' := by
  rw [position] at seen ⊢
  split
  next => exact ⟨.leaf, rfl⟩
  next => exact exists_modeInside_block t
  next nowhere => simp [nowhere] at seen

mutual

/-- A node that is listed is one of the document; in inline position it is a link, or of no
built-in type. -/
lemma Chunk.mem_nodes {pos : Position} {ty : String} : ∀ (c : Chunk) (m : Option Mode),
    (pos, ty) ∈ c.nodes rules m →
      ty ∈ c.types ∧ (pos = .inline → isInlineType ty = true ∨ isBuiltin ty = false)
  | .text attrs chunks, m, h => by
    rw [Chunk.nodes, List.mem_cons] at h
    rw [Chunk.types]
    rcases h with own | inside
    · obtain ⟨rfl, rfl⟩ := Prod.mk.inj own
      exact ⟨List.mem_cons_self, inline_position⟩
    · split at inside
      · cases inside
      · obtain ⟨there, inline⟩ := mem_nodes chunks _ inside
        exact ⟨List.mem_cons_of_mem _ there, inline⟩
  | .element attrs, m, h => by
    obtain ⟨rfl, rfl⟩ := Prod.mk.inj (List.mem_singleton.mp h)
    refine ⟨List.mem_singleton_self _, fun inline => ?_⟩
    split at inline <;> cases inline
  | .map _, m, h => by simp [Chunk.nodes] at h
  | .run _, m, h => by simp [Chunk.nodes] at h
  | .other, m, h => by simp [Chunk.nodes] at h

lemma mem_nodes {pos : Position} {ty : String} : ∀ (cs : List Chunk) (m : Option Mode),
    (pos, ty) ∈ nodes rules m cs →
      ty ∈ types cs ∧ (pos = .inline → isInlineType ty = true ∨ isBuiltin ty = false)
  | [], m, h => by simp [nodes] at h
  | c :: cs, m, h => by
    rw [nodes, List.mem_append] at h
    rw [types, List.mem_append]
    rcases h with first | rest
    · exact (Chunk.mem_nodes c m first).imp_left .inl
    · exact (mem_nodes cs m rest).imp_left .inr

end

mutual

/-- Where an arm visits a text and not all that is in it, the outermost node it leaves out is of a
built-in type. -/
lemma Chunk.exists_unseen {ty : String} : ∀ (c : Chunk) (m : Mode),
    (.unseen, ty) ∈ c.nodes rules (some m) →
      ∃ ty', (.unseen, ty') ∈ c.nodes rules (some m) ∧ isBuiltin ty' = true
  | .text attrs chunks, m, h => by
    rw [Chunk.nodes] at h ⊢
    by_cases unseen : position (some m) (typeOf attrs) = .unseen
    · refine ⟨typeOf attrs, ?_, unseen_position unseen⟩
      rw [unseen]
      exact List.mem_cons_self
    · obtain ⟨m', inside⟩ : ∃ m', modeInside rules ⟨attrs, chunks⟩
          (position (some m) (typeOf attrs)) = some m' := exists_modeInside unseen
      rw [inside] at h ⊢
      rcases List.mem_cons.mp h with own | h
      · exact absurd (Prod.mk.inj own).1.symm unseen
      · split at h
        · cases h
        · next hidden =>
          obtain ⟨ty', there, core⟩ := exists_unseen chunks m' h
          exact ⟨ty', List.mem_cons_of_mem _ (by rwa [if_neg hidden]), core⟩
  | .element attrs, m, h => by cases Prod.mk.inj (List.mem_singleton.mp h) |>.1
  | .map _, m, h => by simp [Chunk.nodes] at h
  | .run _, m, h => by simp [Chunk.nodes] at h
  | .other, m, h => by simp [Chunk.nodes] at h

lemma exists_unseen {ty : String} : ∀ (cs : List Chunk) (m : Mode),
    (.unseen, ty) ∈ nodes rules (some m) cs →
      ∃ ty', (.unseen, ty') ∈ nodes rules (some m) cs ∧ isBuiltin ty' = true
  | [], m, h => by simp [nodes] at h
  | c :: cs, m, h => by
    simp only [nodes, List.mem_append] at h ⊢
    rcases h with first | rest
    · obtain ⟨ty', there, core⟩ := Chunk.exists_unseen c m first
      exact ⟨ty', .inl there, core⟩
    · obtain ⟨ty', there, core⟩ := exists_unseen cs m rest
      exact ⟨ty', .inr there, core⟩

end

lemma mem_documentNodes {root : List RootNode} {pos : Position} {ty : String}
    (h : (pos, ty) ∈ documentNodes rules root) :
    ty ∈ documentTypes root ∧ (pos = .inline → isInlineType ty = true ∨ isBuiltin ty = false) := by
  obtain ⟨node, hnode, h⟩ := List.mem_flatMap.mp h
  suffices ty ∈ node.types ∧ (pos = .inline → isInlineType ty = true ∨ isBuiltin ty = false) from
    this.imp_left fun there => List.mem_flatMap.mpr ⟨node, hnode, there⟩
  cases node with
  | text t =>
    rw [RootNode.nodes, List.mem_cons] at h
    rcases h with own | inside
    · obtain ⟨rfl, rfl⟩ := Prod.mk.inj own
      exact ⟨List.mem_cons_self, fun inline => by cases inline⟩
    · split at inside
      · cases inside
      · exact (mem_nodes t.chunks _ inside).imp_left (List.mem_cons_of_mem _)
  | element attrs =>
    obtain ⟨rfl, rfl⟩ := Prod.mk.inj (List.mem_singleton.mp h)
    exact ⟨List.mem_singleton_self _, fun inline => by cases inline⟩
  | fragment content => cases h

lemma exists_unseen_document {root : List RootNode} {ty : String}
    (h : (.unseen, ty) ∈ documentNodes rules root) :
    ∃ ty', (.unseen, ty') ∈ documentNodes rules root ∧ isBuiltin ty' = true := by
  obtain ⟨node, hnode, h⟩ := List.mem_flatMap.mp h
  suffices ∃ ty', (.unseen, ty') ∈ node.nodes rules ∧ isBuiltin ty' = true by
    obtain ⟨ty', there, core⟩ := this
    exact ⟨ty', List.mem_flatMap.mpr ⟨node, hnode, there⟩, core⟩
  cases node with
  | text t =>
    rw [RootNode.nodes, List.mem_cons] at h
    rcases h with own | inside
    · cases (Prod.mk.inj own).1
    · split at inside
      · cases inside
      · next hidden =>
        obtain ⟨m, hm⟩ : ∃ m, modeInside rules t .block = some m := exists_modeInside_block t
        rw [hm] at inside
        obtain ⟨ty', there, core⟩ := exists_unseen t.chunks m inside
        refine ⟨ty', ?_, core⟩
        rw [RootNode.nodes, if_neg hidden, hm]
        exact List.mem_cons_of_mem _ there
  | element attrs => cases (Prod.mk.inj (List.mem_singleton.mp h)).1
  | fragment content => cases h

/-- For a Lexical document. -/
lemma listsAll_iff {root : List RootNode} (shaped : isLexicalShaped root = true)
    (shallow : DocumentShallow root) :
    ListsAll rules arms (documentNodes rules root)
        (unknownTypes isBuiltin rules (collectNodeTypes root)) ↔ Placed rules root := by
  obtain ⟨map, collected, found⟩ := mem_collectNodeTypes shaped shallow
  have walked : ∀ pos ty, (pos, ty) ∈ documentNodes rules root → ty ∈ map.types :=
    fun pos ty hmem => (found ty).2 (mem_documentNodes hmem).1
  rw [collected, RenderRules.listsAll_iff walked]
  constructor
  · intro marked
    refine ⟨fun ty hmem => ?_, fun ty hmem unruled core => ?_, fun ty hmem unruled core => ?_⟩
    · obtain ⟨ty', hmem', core⟩ := exists_unseen_document hmem
      exact (marked _ ty' hmem' (.inr core)).1 rfl
    · exact (marked _ ty hmem (.inr core)).2.resolve_left (not_not.mpr unruled)
    · have arm := (marked _ ty hmem (.inr core)).2.resolve_left (not_not.mpr unruled)
      exact List.mem_singleton.mp arm
  · intro placed pos ty hmem known
    have seen : pos ≠ .unseen := by
      rintro rfl
      exact placed.seen ty hmem
    refine ⟨seen, ?_⟩
    by_cases unruled : rules.nodes.get ty = none
    · have core : isBuiltin ty = true := known.resolve_left (not_not.mpr unruled)
      right
      cases pos with
      | inline =>
        have link := ((mem_documentNodes hmem).2 rfl).resolve_right (by rw [core]; decide)
        exact of_decide_eq_true link
      | block => exact placed.blocks ty hmem unruled core
      | decorator => exact List.mem_singleton.mpr (placed.decorators ty hmem unruled core)
      | unseen => exact absurd rfl seen
    · exact .inl unruled

end

end LexicalHtml

/-! ## ProseMirror documents -/

namespace ProseMirrorHtml

/-- The built-in types with an arm of their own. -/
def arms : Position → List String
  | .inline => ["hardBreak", "hard_break", "image"]
  | .block => ["paragraph", "heading", "codeBlock", "code_block", "blockquote", "bulletList",
    "bullet_list", "orderedList", "ordered_list", "listItem", "list_item", "table", "tableRow",
    "table_row", "tableHeader", "table_header", "tableCell", "table_cell", "horizontalRule",
    "horizontal_rule", "image", "hardBreak", "hard_break"]
  | .decorator => []
  | .unseen => []

/-- A node that has no content where it stands. -/
def isLeaf (tag : String) : Position → Bool
  | .inline => tag ∈ ["hardBreak", "hard_break", "image"]
  | _ => tag ∈ ["horizontalRule", "horizontal_rule", "image", "hardBreak", "hard_break"]

section

variable (rules : Rules)

/-- The position of the nodes in an element. -/
def inside (e : XmlElement) : Position → Position
  | .block =>
    match rules.nodes.get e.tag with
    | some rule => if ruleContent rule = .blocks then .block else .inline
    | none =>
      match builtinOf e.tag with
      | some .paragraph => .inline
      | some .heading => .inline
      | some .codeBlock => .unseen
      | some _ => .block
      | none => if hasElementChild e then .block else .inline
  | pos => pos

/-- What is inside the node is not rendered: its rule has no content, or it is a leaf. -/
def isClosed (pos : Position) (tag : String) : Bool :=
  hides rules tag || (!rules.nodes.containsKey tag && isLeaf tag pos)

mutual

/-- A node in this position, and the nodes in it, at any depth. -/
def Node.nodes (pos : Position) : Node → List (Position × String)
  | .element tag attrs children =>
    (pos, tag) ::
      if isClosed rules pos tag then []
      else nodes (inside rules ⟨tag, attrs, children⟩ pos) children
  | .text _ => []
  | .fragment _ => []

def nodes (pos : Position) : List Node → List (Position × String)
  | [] => []
  | c :: cs => c.nodes pos ++ nodes pos cs

end

def documentNodes (root : List Node) : List (Position × String) := nodes rules .block root

/-- No built-in type stands in inline position unless it has an arm there, and in a code block no
node that is built in or has a rule. -/
structure Placed (root : List Node) : Prop where
  unseen : ∀ ty, (.unseen, ty) ∈ documentNodes rules root →
    rules.nodes.get ty = none ∧ isBuiltin ty = false
  inlines : ∀ ty, (.inline, ty) ∈ documentNodes rules root → rules.nodes.get ty = none →
    isBuiltin ty = true → ty ∈ arms .inline

variable {rules}

lemma builtinOf_eq_none_iff {ty : String} : builtinOf ty = none ↔ ty ∉ arms .block := by
  constructor
  · intro none arm
    simp only [arms, List.mem_cons, List.not_mem_nil, or_false] at arm
    rcases arm with rfl | rfl | rfl | rfl | rfl | rfl | rfl | rfl | rfl | rfl | rfl | rfl | rfl |
      rfl | rfl | rfl | rfl | rfl | rfl | rfl | rfl | rfl | rfl <;> cases none
  · intro unarmed
    simp only [arms, List.mem_cons, List.not_mem_nil, or_false, not_or] at unarmed
    unfold builtinOf
    split <;> first | rfl | simp_all

/-! ### What is rendered at each position -/

section

variable {json : Json} {tag : String} {e : XmlElement}

lemma nodeForest_of_hasMarkup (markup : HasMarkup rules arms .inline tag) (depth : ℕ)
    (attrs : Attrs) (children : List Node) :
    ∃ tree, nodeForest json rules depth (.element tag attrs children) = [tree] := by
  rw [nodeForest]
  cases there : rules.nodes.get tag with
  | some rule => exact ⟨_, rfl⟩
  | none =>
    have arm := markup.2.resolve_left (not_not.mpr there)
    simp only [arms, List.mem_cons, List.not_mem_nil, or_false] at arm
    rcases arm with rfl | rfl | rfl <;> exact ⟨_, rfl⟩

/-- The content of an unknown inline node alone. -/
lemma nodeForest_of_not_hasMarkup (bare : ¬ HasMarkup rules arms .inline tag) {depth : ℕ}
    (below : depth < maxDepth) (attrs : Attrs) (children : List Node) :
    nodeForest json rules depth (.element tag attrs children) =
      nodesForest json rules (depth + 1) children := by
  obtain ⟨unruled, unarmed⟩ := not_hasMarkup bare (by decide)
  simp only [arms, List.mem_cons, List.not_mem_nil, or_false, not_or] at unarmed
  rw [nodeForest, unruled]
  simp [unarmed, below]

lemma blockTrees_of_hasMarkup (markup : HasMarkup rules arms .block e.tag) (blocks : List Tree) :
    ∃ tree, blockTrees json rules e blocks = [tree] := by
  unfold blockTrees
  cases there : rules.nodes.get e.tag with
  | some rule => exact ⟨_, rfl⟩
  | none =>
    have arm := markup.2.resolve_left (not_not.mpr there)
    dsimp only
    cases spelling : builtinOf e.tag with
    | none => exact absurd arm (builtinOf_eq_none_iff.mp spelling)
    | some builtin => cases builtin <;> exact ⟨_, rfl⟩

/-- The unknown-block arm. -/
lemma blockTrees_of_not_hasMarkup (bare : ¬ HasMarkup rules arms .block e.tag)
    (blocks : List Tree) :
    blockTrees json rules e blocks =
      if hasElementChild e then strayForest rules e ++ blocks
      else paragraphForest (inlineForest json rules e) [] := by
  obtain ⟨unruled, unarmed⟩ := not_hasMarkup bare (by decide)
  rw [blockTrees, unruled]
  dsimp only
  rw [builtinOf_eq_none_iff.mpr unarmed]

/-- No arm visits the elements in a code block. -/
lemma blockTrees_of_unseen (h : inside rules e .block = .unseen) (blocks : List Tree) :
    blockTrees json rules e blocks =
      [.elem "pre" [] [.elem "code" (codeAttrs e) [.text (codeText e)]]] := by
  rw [inside] at h
  unfold blockTrees
  cases there : rules.nodes.get e.tag with
  | some rule =>
    rw [there] at h
    dsimp only at h
    split at h <;> cases h
  | none =>
    rw [there] at h
    dsimp only at h ⊢
    cases spelling : builtinOf e.tag with
    | none =>
      rw [spelling] at h
      dsimp only at h
      split at h <;> cases h
    | some builtin =>
      rw [spelling] at h
      cases builtin <;> first | rfl | cases h

end

lemma inside_ne_decorator {e : XmlElement} {pos : Position} (h : pos ≠ .decorator) :
    inside rules e pos ≠ .decorator := by
  cases pos with
  | block =>
    rw [inside]
    cases rules.nodes.get e.tag with
    | some rule =>
      dsimp only
      split <;> simp
    | none =>
      dsimp only
      repeat' split
      all_goals simp
  | decorator => exact absurd rfl h
  | inline => simp [inside]
  | unseen => simp [inside]

mutual

lemma Node.mem_nodes {pos : Position} {ty : String} : ∀ (c : Node) (there : Position),
    there ≠ .decorator → (pos, ty) ∈ c.nodes rules there → ty ∈ c.types ∧ pos ≠ .decorator
  | .element tag attrs children, there, hthere, h => by
    rw [Node.nodes, List.mem_cons] at h
    rw [Node.types]
    rcases h with own | h
    · obtain ⟨rfl, rfl⟩ := Prod.mk.inj own
      exact ⟨List.mem_cons_self, hthere⟩
    · split at h
      · cases h
      · obtain ⟨found, hpos⟩ := mem_nodes children _ (inside_ne_decorator hthere) h
        exact ⟨List.mem_cons_of_mem _ found, hpos⟩
  | .text _, there, _, h => by simp [Node.nodes] at h
  | .fragment _, there, _, h => by simp [Node.nodes] at h

lemma mem_nodes {pos : Position} {ty : String} : ∀ (cs : List Node) (there : Position),
    there ≠ .decorator → (pos, ty) ∈ nodes rules there cs → ty ∈ types cs ∧ pos ≠ .decorator
  | [], there, _, h => by simp [nodes] at h
  | c :: cs, there, hthere, h => by
    rw [nodes, List.mem_append] at h
    rw [types, List.mem_append]
    rcases h with first | rest
    · exact (Node.mem_nodes c there hthere first).imp_left .inl
    · exact (mem_nodes cs there hthere rest).imp_left .inr

end

/-- For a ProseMirror document. -/
lemma listsAll_iff {root : List Node} (shaped : isProsemirrorShaped root = true)
    (shallow : Shallow 0 root) :
    ListsAll rules arms (documentNodes rules root)
        (unknownTypes isBuiltin rules (collectNodeTypes root)) ↔ Placed rules root := by
  obtain ⟨map, collected, found⟩ := mem_collectNodeTypes shaped shallow
  have mem : ∀ {pos ty}, (pos, ty) ∈ documentNodes rules root →
      ty ∈ types root ∧ pos ≠ .decorator :=
    fun h => mem_nodes root .block (by decide) h
  rw [collected, RenderRules.listsAll_iff fun pos ty hmem => (found ty).2 (mem hmem).1]
  constructor
  · intro marked
    refine ⟨fun ty hmem => ?_, fun ty hmem unruled core => ?_⟩
    · by_contra known
      rw [not_and_or, Bool.not_eq_false] at known
      exact (marked _ ty hmem known).1 rfl
    · exact (marked _ ty hmem (.inr core)).2.resolve_left (not_not.mpr unruled)
  · intro placed pos ty hmem known
    have seen : pos ≠ .unseen := by
      rintro rfl
      obtain ⟨unruled, foreign⟩ := placed.unseen ty hmem
      rcases known with ruled | core
      · exact ruled unruled
      · rw [core] at foreign
        cases foreign
    refine ⟨seen, ?_⟩
    by_cases unruled : rules.nodes.get ty = none
    · have core : isBuiltin ty = true := known.resolve_left (not_not.mpr unruled)
      right
      cases pos with
      | inline => exact placed.inlines ty hmem unruled core
      | block => exact of_decide_eq_true core
      | decorator => exact absurd rfl (mem hmem).2
      | unseen => exact absurd rfl seen
    · exact .inl unruled

end

end ProseMirrorHtml

/-! ## The claim of `unknown_types` -/

/-- Below the depth caps, `unknown_types` lists the type of every node without markup exactly when
the built-in types stand where they have an arm. -/
theorem unknown_complete_iff (rules : Rules) :
    (∀ root, LexicalHtml.isLexicalShaped root = true → LexicalHtml.DocumentShallow root →
      (ListsAll rules LexicalHtml.arms (LexicalHtml.documentNodes rules root)
          (unknownTypes LexicalHtml.isBuiltin rules (LexicalHtml.collectNodeTypes root)) ↔
        LexicalHtml.Placed rules root)) ∧
    ∀ root, ProseMirrorHtml.isProsemirrorShaped root = true → ProseMirrorHtml.Shallow 0 root →
      (ListsAll rules ProseMirrorHtml.arms (ProseMirrorHtml.documentNodes rules root)
          (unknownTypes ProseMirrorHtml.isBuiltin rules (ProseMirrorHtml.collectNodeTypes root)) ↔
        ProseMirrorHtml.Placed rules root) :=
  ⟨fun _ shaped shallow => LexicalHtml.listsAll_iff shaped shallow,
    fun _ shaped shallow => ProseMirrorHtml.listsAll_iff shaped shallow⟩

/-- A mark without a rule, in a paragraph. -/
def markedText : List LexicalHtml.RootNode :=
  [.text ⟨[("__type", .any (.string "paragraph"))],
    [.text [("__type", .any (.string "mark"))] [.run ⟨"a", LexicalHtml.a_ne_empty⟩]]⟩]

/-- A mention without a rule, in a paragraph. -/
def mentionText : List ProseMirrorHtml.Node :=
  [.element "paragraph" [] [.element "mention" [] [.text []]]]

/-- A mark and a mention are listed. -/
theorem unknown_complete_iff_mark :
    ListsAll .empty LexicalHtml.arms (LexicalHtml.documentNodes .empty markedText)
        (unknownTypes LexicalHtml.isBuiltin .empty (LexicalHtml.collectNodeTypes markedText)) ∧
      ListsAll .empty ProseMirrorHtml.arms (ProseMirrorHtml.documentNodes .empty mentionText)
        (unknownTypes ProseMirrorHtml.isBuiltin .empty
          (ProseMirrorHtml.collectNodeTypes mentionText)) := by
  constructor
  · have nodes : LexicalHtml.documentNodes .empty markedText =
        [(.block, "paragraph"), (.inline, "mark")] := by decide
    refine ((unknown_complete_iff .empty).1 markedText rfl ?_).2 ?_
    · intro t ht
      obtain rfl := LexicalHtml.RootNode.text.inj (List.mem_singleton.mp ht)
      exact ⟨⟨by decide, trivial, trivial⟩, trivial⟩
    · constructor <;> simp [nodes, LexicalHtml.arms]
  · have nodes : ProseMirrorHtml.documentNodes .empty mentionText =
        [(.block, "paragraph"), (.inline, "mention")] := by decide
    refine ((unknown_complete_iff .empty).2 mentionText rfl ?_).2 ?_
    · exact ⟨⟨by decide, ⟨by decide, trivial, trivial⟩, trivial⟩, trivial⟩
    · constructor
      · simp [nodes]
      · simp [nodes, ProseMirrorHtml.isBuiltin]

/-- A heading in a paragraph is not rendered, and not listed. -/
theorem not_listsAll_nestedHeading :
    LexicalHtml.isLexicalShaped LexicalHtml.nestedHeading = true ∧
      LexicalHtml.DocumentShallow LexicalHtml.nestedHeading ∧
      ¬ ListsAll .empty LexicalHtml.arms
        (LexicalHtml.documentNodes .empty LexicalHtml.nestedHeading)
        (unknownTypes LexicalHtml.isBuiltin .empty
          (LexicalHtml.collectNodeTypes LexicalHtml.nestedHeading)) := by
  have shallow : LexicalHtml.DocumentShallow LexicalHtml.nestedHeading := by
    intro t ht
    obtain rfl := LexicalHtml.RootNode.text.inj (List.mem_singleton.mp ht)
    exact ⟨⟨by decide, trivial, trivial⟩, trivial⟩
  refine ⟨rfl, shallow, fun all => ?_⟩
  have listed := all.listed .unseen "heading" (by decide) fun markup => markup.1 rfl
  obtain ⟨map, collected, -⟩ := LexicalHtml.mem_collectNodeTypes rfl shallow
  rw [collected, mem_unknownTypes] at listed
  have foreign := listed.2.2
  revert foreign
  decide

end Yrby
