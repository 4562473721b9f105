import Yrby.Render.LexicalHtml
import Yrby.Render.ProseMirrorHtml
import Mathlib.Data.Finset.Basic
import Mathlib.Data.Finset.Dedup

/-!
# The node types of a document (`html-core`, `rendering.rb`)

`collect_node_types` walks a document and records what each node type looks like.  `unknown_types`
are the types it found that no rule and no built-in name covers; which position a node of the type
stands in plays no part.

Both walks find the type of every node above the depth cap (`mem_collectNodeTypes`).
-/

namespace Yrby

namespace HtmlCore

/-! ## Type maps -/

/-- What a walk observed of one type. -/
structure TypeInfo where
  count : ℕ := 0
  attrs : Finset String := ∅
  children : Finset String := ∅
  text : Bool := false

/-- `TypeMap`, in the order of the types. -/
abbrev TypeMap := Dict TypeInfo

/-- `entry(ty).or_default()`, with a change to it. -/
def TypeMap.entry (ty : String) (change : TypeInfo → TypeInfo) : TypeMap → TypeMap
  | [] => [(ty, change {})]
  | (key, info) :: map =>
    if ty = key then (key, change info) :: map
    else if ty < key then (ty, change {}) :: (key, info) :: map
    else (key, info) :: TypeMap.entry ty change map

/-- A node of the type, with its attributes. -/
def TypeInfo.observe (attrs : List String) (info : TypeInfo) : TypeInfo where
  __ := info
  count := info.count + 1
  attrs := info.attrs ∪ attrs.toFinset

def TypeInfo.withChild (ty : String) (info : TypeInfo) : TypeInfo where
  __ := info
  children := insert ty info.children

def TypeInfo.withText (info : TypeInfo) : TypeInfo where
  __ := info
  text := true

def TypeMap.types (map : TypeMap) : List String := map.map Prod.fst

lemma mem_types_entry {ty key : String} {change : TypeInfo → TypeInfo} {map : TypeMap} :
    key ∈ (map.entry ty change).types ↔ key = ty ∨ key ∈ map.types := by
  induction map with
  | nil => simp [TypeMap.entry, TypeMap.types]
  | cons head map ih =>
    obtain ⟨first, info⟩ := head
    rw [TypeMap.entry]
    by_cases same : ty = first
    · simp [same, TypeMap.types]
    · by_cases before : ty < first
      · simp [same, before, TypeMap.types]
      · simp only [TypeMap.types] at ih
        simp [same, before, TypeMap.types, ih, or_left_comm]

/-! ## What handles a type -/

/-- `"handled"` -/
inductive Handled
  | rule
  | builtin

section

variable (isBuiltin : String → Bool) (rules : Rules)

def handled (ty : String) : Option Handled :=
  if rules.nodes.containsKey ty then some .rule
  else if isBuiltin ty then some .builtin
  else none

/-- `node_types`, from the map the walk collected. -/
def nodeTypes (map : Option TypeMap) : Option (Dict (TypeInfo × Option Handled)) :=
  map.map fun map => map.map fun (ty, info) => (ty, info, handled isBuiltin rules ty)

/-- `unknown_types` -/
def unknownTypes (map : Option TypeMap) : List String :=
  match nodeTypes isBuiltin rules map with
  | some types => types.filterMap fun (ty, _, by_) => if by_.isNone then some ty else none
  | none => []

variable {isBuiltin rules}

/-- A type of the document is unknown when it has no rule and is not built in. -/
lemma mem_unknownTypes {map : TypeMap} {ty : String} :
    ty ∈ unknownTypes isBuiltin rules (some map) ↔
      ty ∈ map.types ∧ rules.nodes.get ty = none ∧ isBuiltin ty = false := by
  have unhandled : (handled isBuiltin rules ty).isNone = true ↔
      rules.nodes.get ty = none ∧ isBuiltin ty = false := by
    unfold handled Dict.containsKey
    cases rules.nodes.get ty <;> cases isBuiltin ty <;> simp
  rw [← unhandled]
  simp only [unknownTypes, nodeTypes, Option.map_some, List.filterMap_map, List.mem_filterMap,
    TypeMap.types, List.mem_map, Function.comp_apply, Option.ite_none_right_eq_some,
    Option.some.injEq]
  constructor
  · rintro ⟨entry, hmem, none, rfl⟩
    exact ⟨⟨entry, hmem, rfl⟩, none⟩
  · rintro ⟨⟨entry, hmem, rfl⟩, none⟩
    exact ⟨entry, hmem, none, rfl⟩

end

end HtmlCore

open HtmlCore

/-! ## Lexical documents -/

namespace LexicalHtml

/-- The names of a node's attributes, without the type. -/
def attrNames (attrs : Attrs) : List String := (Dict.keys attrs).filter fun key => key ≠ "__type"

def observeElement (map : TypeMap) (attrs : Attrs) : TypeMap :=
  map.entry (typeOf attrs) (.observe (attrNames attrs))

/-- What one entry of a text's `diff` adds to the text's own type, and a decorator to its own. -/
def observeChunk (ty : String) (map : TypeMap) : Chunk → TypeMap
  | .run _ => map.entry ty .withText
  | .text attrs _ => map.entry ty (.withChild (typeOf attrs))
  | .element attrs => observeElement (map.entry ty (.withChild (typeOf attrs))) attrs
  | .map _ => map
  | .other => map

/-- A text, and then the texts in it. -/
def observeTextNode (t : XmlText) (depth : ℕ) (map : TypeMap) (children : TypeMap → TypeMap) :
    TypeMap :=
  let map := map.entry (nodeType t) (.observe (attrNames t.attrs))
  if maxBlockDepth ≤ depth then map
  else children (t.chunks.foldl (observeChunk (nodeType t)) map)

mutual

def observeChild (depth : ℕ) (map : TypeMap) : Chunk → TypeMap
  | .text attrs chunks =>
    observeTextNode ⟨attrs, chunks⟩ depth map fun map => observeChildren (depth + 1) map chunks
  | _ => map

def observeChildren (depth : ℕ) (map : TypeMap) : List Chunk → TypeMap
  | [] => map
  | c :: cs => observeChildren depth (observeChild depth map c) cs

end

def observeRoot (map : TypeMap) : RootNode → TypeMap
  | .text t => observeTextNode t 0 map fun map => observeChildren 1 map t.chunks
  | .element attrs => observeElement map attrs
  | .fragment _ => map

def collectNodeTypes (root : List RootNode) : Option TypeMap :=
  if isLexicalShaped root then some (root.foldl observeRoot []) else none

mutual

/-- The types of the nodes of a chunk, at any depth. -/
def Chunk.types : Chunk → List String
  | .text attrs chunks => typeOf attrs :: types chunks
  | .element attrs => [typeOf attrs]
  | _ => []

def types : List Chunk → List String
  | [] => []
  | c :: cs => c.types ++ types cs

end

def RootNode.types : RootNode → List String
  | .text t => nodeType t :: LexicalHtml.types t.chunks
  | .element attrs => [typeOf attrs]
  | .fragment _ => []

def documentTypes (root : List RootNode) : List String := root.flatMap RootNode.types

mutual

/-- No node stands in a text at the depth cap; `depth` is that of the text around the chunk. -/
def Chunk.Shallow (depth : ℕ) : Chunk → Prop
  | .text _ chunks => depth < maxBlockDepth ∧ Shallow (depth + 1) chunks
  | .element _ => depth < maxBlockDepth
  | _ => True

def Shallow (depth : ℕ) : List Chunk → Prop
  | [] => True
  | c :: cs => c.Shallow depth ∧ Shallow depth cs

end

def DocumentShallow (root : List RootNode) : Prop := ∀ t, .text t ∈ root → Shallow 0 t.chunks

lemma mem_types {key : String} {cs : List Chunk} :
    key ∈ types cs ↔ (∃ attrs, .element attrs ∈ cs ∧ key = typeOf attrs) ∨
      ∃ attrs chunks, .text attrs chunks ∈ cs ∧ (key = typeOf attrs ∨ key ∈ types chunks) := by
  induction cs with
  | nil => simp [types]
  | cons c cs ih =>
    rw [types, List.mem_append, ih]
    cases c <;> simp [Chunk.types, or_and_right, exists_or, or_assoc, or_left_comm]

lemma mem_types_observeElement {key : String} {map : TypeMap} {attrs : Attrs} :
    key ∈ (observeElement map attrs).types ↔ key ∈ map.types ∨ key = typeOf attrs := by
  rw [observeElement, mem_types_entry, or_comm]

/-- A text's own chunks add the types of its decorators. -/
lemma mem_types_foldl_observeChunk {ty key : String} {map : TypeMap} {cs : List Chunk}
    (own : ty ∈ map.types) :
    key ∈ (cs.foldl (observeChunk ty) map).types ↔
      key ∈ map.types ∨ ∃ attrs, .element attrs ∈ cs ∧ key = typeOf attrs := by
  induction cs generalizing map with
  | nil => simp
  | cons c cs ih =>
    have noted : ∀ {change}, key ∈ (map.entry ty change).types ↔ key ∈ map.types := by
      intro change
      rw [mem_types_entry, or_iff_right_iff_imp]
      rintro rfl
      exact own
    have kept : ty ∈ (observeChunk ty map c).types := by
      cases c <;> simp [observeChunk, observeElement, mem_types_entry, own]
    rw [List.foldl_cons, ih kept]
    cases c with
    | element attrs =>
      simp [observeChunk, mem_types_observeElement, noted, or_and_right, exists_or, or_assoc]
    | _ => simp [observeChunk, noted]

/-- A text at the cap has no nodes. -/
lemma Shallow.types_eq_nil {depth : ℕ} (cap : maxBlockDepth ≤ depth) {cs : List Chunk}
    (h : Shallow depth cs) : types cs = [] := by
  induction cs with
  | nil => rfl
  | cons c cs ih =>
    rw [Shallow] at h
    rw [types, ih h.2, List.append_nil]
    cases c with
    | text attrs chunks =>
      rw [Chunk.Shallow] at h
      omega
    | element attrs =>
      rw [Chunk.Shallow] at h
      omega
    | _ => rfl

lemma mem_types_observeTextNode {key : String} {t : XmlText} {depth : ℕ} {map : TypeMap}
    {children : TypeMap → TypeMap} (shallow : Shallow depth t.chunks)
    (hchildren : ∀ map, key ∈ (children map).types ↔ key ∈ map.types ∨
      ∃ attrs chunks, .text attrs chunks ∈ t.chunks ∧ (key = typeOf attrs ∨ key ∈ types chunks)) :
    key ∈ (observeTextNode t depth map children).types ↔
      key ∈ map.types ∨ key = nodeType t ∨ key ∈ types t.chunks := by
  have own : ∀ key, key ∈ (map.entry (nodeType t) (.observe (attrNames t.attrs))).types ↔
      key ∈ map.types ∨ key = nodeType t := by
    intro key
    rw [mem_types_entry, or_comm]
  unfold observeTextNode
  split
  next cap => rw [own, shallow.types_eq_nil cap, List.mem_nil_iff, or_false]
  next =>
    rw [hchildren, mem_types_foldl_observeChunk ((own _).2 (.inr rfl)), own, mem_types, or_assoc,
      or_assoc]

mutual

lemma mem_types_observeChild {key : String} : ∀ (c : Chunk) (depth : ℕ) (map : TypeMap),
    c.Shallow depth → (key ∈ (observeChild (depth + 1) map c).types ↔
      key ∈ map.types ∨
        ∃ attrs chunks, c = .text attrs chunks ∧ (key = typeOf attrs ∨ key ∈ types chunks))
  | .text attrs chunks, depth, map, h => by
    rw [Chunk.Shallow] at h
    rw [observeChild, mem_types_observeTextNode h.2 fun map =>
      mem_types_observeChildren chunks (depth + 1) map h.2]
    simp [nodeType]
  | .map _, depth, map, h => by simp [observeChild]
  | .run _, depth, map, h => by simp [observeChild]
  | .element _, depth, map, h => by simp [observeChild]
  | .other, depth, map, h => by simp [observeChild]

lemma mem_types_observeChildren {key : String} : ∀ (cs : List Chunk) (depth : ℕ) (map : TypeMap),
    Shallow depth cs → (key ∈ (observeChildren (depth + 1) map cs).types ↔
      key ∈ map.types ∨ ∃ attrs chunks, .text attrs chunks ∈ cs ∧
        (key = typeOf attrs ∨ key ∈ types chunks))
  | [], depth, map, h => by simp [observeChildren]
  | c :: cs, depth, map, h => by
    rw [Shallow] at h
    rw [observeChildren, mem_types_observeChildren cs depth _ h.2,
      mem_types_observeChild c depth map h.1, or_assoc]
    simp only [List.mem_cons, or_and_right, exists_or, eq_comm (a := c)]

end

/-- The walk finds the types of all nodes, and no others. -/
theorem mem_collectNodeTypes {root : List RootNode} (shaped : isLexicalShaped root = true)
    (shallow : DocumentShallow root) :
    ∃ map, collectNodeTypes root = some map ∧ ∀ ty, ty ∈ map.types ↔ ty ∈ documentTypes root := by
  refine ⟨_, if_pos shaped, fun ty => ?_⟩
  have all : ∀ (nodes : List RootNode) (map : TypeMap), DocumentShallow nodes →
      (ty ∈ (nodes.foldl observeRoot map).types ↔ ty ∈ map.types ∨ ty ∈ documentTypes nodes) := by
    intro nodes
    induction nodes with
    | nil => simp [documentTypes]
    | cons node nodes ih =>
      intro map h
      have types : documentTypes (node :: nodes) = node.types ++ documentTypes nodes :=
        List.flatMap_cons
      rw [List.foldl_cons, ih _ fun t ht => h t (List.mem_cons_of_mem _ ht), types,
        List.mem_append, ← or_assoc]
      refine or_congr_left ?_
      cases node with
      | text t =>
        have own := h t List.mem_cons_self
        rw [observeRoot, RootNode.types, List.mem_cons, mem_types_observeTextNode own fun map =>
          mem_types_observeChildren t.chunks 0 map own]
      | element attrs => simp [observeRoot, RootNode.types, mem_types_observeElement]
      | fragment content => simp [observeRoot, RootNode.types]
  simpa [TypeMap.types] using all root [] shallow

end LexicalHtml

/-! ## ProseMirror documents -/

namespace ProseMirrorHtml

def isBuiltin (ty : String) : Bool :=
  ty ∈ ["paragraph", "heading", "codeBlock", "code_block", "blockquote", "bulletList",
    "bullet_list", "orderedList", "ordered_list", "listItem", "list_item", "table", "tableRow",
    "table_row", "tableHeader", "table_header", "tableCell", "table_cell", "horizontalRule",
    "horizontal_rule", "image", "hardBreak", "hard_break"]

/-- What a child adds to the type of the element around it. -/
def observeChild (ty : String) (map : TypeMap) : Node → TypeMap
  | .text _ => map.entry ty .withText
  | .element tag _ _ => map.entry ty (.withChild tag)
  | .fragment _ => map

mutual

def observe (depth : ℕ) (map : TypeMap) : Node → TypeMap
  | .element tag attrs children =>
    let map := map.entry tag (.observe (Dict.keys attrs))
    if maxDepth ≤ depth then map else observeChildren tag (depth + 1) map children
  | .text _ => map
  | .fragment _ => map

def observeChildren (ty : String) (depth : ℕ) (map : TypeMap) : List Node → TypeMap
  | [] => map
  | c :: cs => observeChildren ty depth (observe depth (observeChild ty map c) c) cs

end

def collectNodeTypes (root : List Node) : Option TypeMap :=
  if isProsemirrorShaped root then some (root.foldl (observe 0) []) else none

mutual

/-- The types of a node and of those in it, at any depth. -/
def Node.types : Node → List String
  | .element tag _ children => tag :: types children
  | _ => []

def types : List Node → List String
  | [] => []
  | c :: cs => c.types ++ types cs

end

mutual

/-- No element stands in an element at the depth cap. -/
def Node.Shallow (depth : ℕ) : Node → Prop
  | .element _ _ children => depth ≤ maxDepth ∧ Shallow (depth + 1) children
  | _ => True

def Shallow (depth : ℕ) : List Node → Prop
  | [] => True
  | c :: cs => c.Shallow depth ∧ Shallow depth cs

end

/-- An element at the cap has no child elements. -/
lemma Shallow.types_eq_nil {depth : ℕ} (cap : maxDepth < depth) {cs : List Node}
    (h : Shallow depth cs) : types cs = [] := by
  induction cs with
  | nil => rfl
  | cons c cs ih =>
    rw [Shallow] at h
    rw [types, ih h.2, List.append_nil]
    cases c with
    | element tag attrs children =>
      rw [Node.Shallow] at h
      omega
    | _ => rfl

lemma mem_types_observeChild {ty key : String} {map : TypeMap} (own : ty ∈ map.types) (c : Node) :
    key ∈ (observeChild ty map c).types ↔ key ∈ map.types := by
  have noted : ∀ {change}, key ∈ (map.entry ty change).types ↔ key ∈ map.types := by
    intro change
    rw [mem_types_entry, or_iff_right_iff_imp]
    rintro rfl
    exact own
  cases c <;> simp [observeChild, noted]

mutual

lemma mem_types_observe {key : String} : ∀ (c : Node) (depth : ℕ) (map : TypeMap),
    c.Shallow depth →
      (key ∈ (observe depth map c).types ↔ key ∈ map.types ∨ key ∈ c.types)
  | .element tag attrs children, depth, map, h => by
    rw [Node.Shallow] at h
    have own : ∀ key, key ∈ (map.entry tag (.observe (Dict.keys attrs))).types ↔
        key ∈ map.types ∨ key = tag := by
      intro key
      rw [mem_types_entry, or_comm]
    rw [observe, Node.types, List.mem_cons]
    split
    next cap => rw [own, h.2.types_eq_nil (by omega), List.mem_nil_iff, or_false]
    next =>
      rw [mem_types_observeChildren children tag (depth + 1) _ ((own tag).2 (.inr rfl)) h.2, own,
        or_assoc]
  | .text _, depth, map, h => by simp [observe, Node.types]
  | .fragment _, depth, map, h => by simp [observe, Node.types]

lemma mem_types_observeChildren {key : String} : ∀ (cs : List Node) (ty : String) (depth : ℕ)
    (map : TypeMap), ty ∈ map.types → Shallow depth cs →
      (key ∈ (observeChildren ty depth map cs).types ↔ key ∈ map.types ∨ key ∈ types cs)
  | [], ty, depth, map, own, h => by simp [observeChildren, types]
  | c :: cs, ty, depth, map, own, h => by
    rw [Shallow] at h
    have noted : ty ∈ (observeChild ty map c).types := (mem_types_observeChild own c).2 own
    have kept : ty ∈ (observe depth (observeChild ty map c) c).types :=
      (mem_types_observe c depth _ h.1).2 (.inl noted)
    rw [observeChildren, mem_types_observeChildren cs ty depth _ kept h.2,
      mem_types_observe c depth _ h.1, mem_types_observeChild own, types, List.mem_append,
      or_assoc]

end

/-- The walk finds the types of all nodes, and no others. -/
theorem mem_collectNodeTypes {root : List Node} (shaped : isProsemirrorShaped root = true)
    (shallow : Shallow 0 root) :
    ∃ map, collectNodeTypes root = some map ∧ ∀ ty, ty ∈ map.types ↔ ty ∈ types root := by
  refine ⟨_, if_pos shaped, fun ty => ?_⟩
  have all : ∀ (nodes : List Node) (map : TypeMap), Shallow 0 nodes →
      (ty ∈ (nodes.foldl (observe 0) map).types ↔ ty ∈ map.types ∨ ty ∈ types nodes) := by
    intro nodes
    induction nodes with
    | nil => simp [types]
    | cons node nodes ih =>
      intro map h
      rw [Shallow] at h
      rw [List.foldl_cons, ih _ h.2, mem_types_observe node 0 map h.1, types, List.mem_append,
        or_assoc]
  simpa [TypeMap.types] using all root [] shallow

end ProseMirrorHtml

end Yrby
