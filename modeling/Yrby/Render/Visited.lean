import Yrby.Render.Unknown

/-!
# The nodes with a rule stand where an arm visits them

`documentNodes` gives every node of a document a position, by recursion on the document and not on
what is rendered.  The renderers agree with it: below the depth caps, the nodes with a rule that a
rendering reaches are those in a position that some arm visits, each as often as it is listed.
-/

namespace Yrby

open HtmlCore RenderRules

namespace RenderRules

/-- The types of the nodes with a rule that some arm visits. -/
def ruledTypes (rules : Rules) (nodes : List (Position × String)) : List String :=
  (nodes.filter fun n => n.1 ≠ .unseen ∧ (rules.nodes.get n.2).isSome).map Prod.snd

variable {rules : Rules}

@[simp] lemma ruledTypes_nil : ruledTypes rules [] = [] := rfl

@[simp] lemma ruledTypes_append (nodes nodes' : List (Position × String)) :
    ruledTypes rules (nodes ++ nodes') = ruledTypes rules nodes ++ ruledTypes rules nodes' := by
  simp [ruledTypes]

@[simp] lemma ruledTypes_unseen (ty : String) (nodes : List (Position × String)) :
    ruledTypes rules ((.unseen, ty) :: nodes) = ruledTypes rules nodes := by
  simp [ruledTypes]

lemma ruledTypes_of_some {pos : Position} (seen : pos ≠ .unseen) {ty : String} {rule : NodeRule}
    (ruled : rules.nodes.get ty = some rule) (nodes : List (Position × String)) :
    ruledTypes rules ((pos, ty) :: nodes) = ty :: ruledTypes rules nodes := by
  simp [ruledTypes, seen, ruled]

lemma ruledTypes_of_none {ty : String} (unruled : rules.nodes.get ty = none) (pos : Position)
    (nodes : List (Position × String)) :
    ruledTypes rules ((pos, ty) :: nodes) = ruledTypes rules nodes := by
  simp [ruledTypes, unruled]

lemma hides_of_some {ty : String} {rule : NodeRule} (ruled : rules.nodes.get ty = some rule) :
    hides rules ty = true ↔ ruleContent rule = .none := by
  rw [hides, ruled]
  exact decide_eq_true_iff

lemma hides_of_none {ty : String} (unruled : rules.nodes.get ty = none) :
    hides rules ty = false := by
  rw [hides, unruled]
  rfl

end RenderRules

/-! ## Lexical documents -/

namespace LexicalHtml

section

variable {F : Foreign} {rules : Rules}

mutual

/-- In a text that no arm visits nothing is visited. -/
lemma Chunk.ruledTypes_none : ∀ c : Chunk, ruledTypes rules (c.nodes rules none) = []
  | .text attrs chunks => by
    rw [Chunk.nodes]
    split
    · exact ruledTypes_unseen ..
    · exact (ruledTypes_unseen ..).trans (ruledTypes_nodes_none chunks)
  | .element attrs => ruledTypes_unseen ..
  | .map _ => rfl
  | .run _ => rfl
  | .other => rfl

lemma ruledTypes_nodes_none : ∀ cs : List Chunk, ruledTypes rules (nodes rules none cs) = []
  | [] => rfl
  | c :: cs => by
    rw [nodes, ruledTypes_append, Chunk.ruledTypes_none c, ruledTypes_nodes_none cs,
      List.append_nil]

end

/-- The block children that a text of this mode renders. -/
def Mode.select {α : Type} : Mode → (Bool → List α) → List α
  | .leaf, _ => []
  | .container, blocks => blocks false
  | .item, blocks => blocks true

/-- A block reaches itself when it has a rule, its inline content and its block children. -/
lemma blockReached_eq {t : XmlText} {m : Mode} (h : modeInside rules t .block = some m)
    (blocks : Bool → List Deferred) :
    blockReached F rules t blocks =
      (if (rules.nodes.get (nodeType t)).isSome then [deferredText F t] else []) ++
        if hides rules (nodeType t) then []
        else chunksReached F rules 0 m.ruledInline t.chunks ++ m.select blocks := by
  rw [modeInside] at h
  rw [blockReached]
  cases there : rules.nodes.get (nodeType t) with
  | some rule =>
    rw [there] at h
    have closed := hides_of_some there
    cases content : ruleContent rule with
    | none => simp_all [contentReached]
    | inline =>
      obtain rfl : .leaf = m := by simpa [content] using h
      simp_all [contentReached, Mode.select, Mode.ruledInline]
    | blocks =>
      obtain rfl : .container = m := by simpa [content] using h
      simp_all [contentReached, Mode.select, Mode.ruledInline]
  | none =>
    rw [there] at h
    obtain rfl := Option.some.inj h
    rw [hides_of_none there]
    dsimp only
    generalize hm : modeOf t = m
    unfold modeOf at hm
    split at hm
    case h_10 =>
      split at hm <;> subst hm <;> simp_all [contentReached, Mode.select, Mode.ruledInline]
    all_goals
      subst hm
      simp_all [contentReached, Mode.select, Mode.ruledInline]

/-- A decorator, in a document or in a text. -/
lemma ruledTypes_decorator (attrs : Attrs) :
    ruledTypes rules [(.decorator, typeOf attrs)] =
      (decoratorReached F rules attrs).map Deferred.nodeType := by
  rw [decoratorReached]
  cases there : rules.nodes.get (typeOf attrs) with
  | some rule => rw [ruledTypes_of_some (by decide) there]; rfl
  | none => rw [ruledTypes_of_none there]; rfl

/-- A block, given what is in it. -/
lemma perm_blockReached {t : XmlText} {m : Mode} (mode : modeInside rules t .block = some m)
    {blocks : Bool → List Deferred}
    (inside : (ruledTypes rules (nodes rules (some m) t.chunks)).Perm
      ((chunksReached F rules 0 m.ruledInline t.chunks ++ m.select blocks).map Deferred.nodeType)) :
    (ruledTypes rules ((.block, nodeType t) ::
        if hides rules (nodeType t) then [] else nodes rules (some m) t.chunks)).Perm
      ((blockReached F rules t blocks).map Deferred.nodeType) := by
  rw [blockReached_eq mode, List.map_append]
  cases there : rules.nodes.get (nodeType t) with
  | some rule =>
    rw [ruledTypes_of_some (by decide) there, Option.isSome_some, if_pos rfl]
    refine .cons _ ?_
    split
    · exact .nil
    · exact inside
  | none =>
    rw [ruledTypes_of_none there, hides_of_none there]
    exact inside

/-- What is not in inline position is not among the inline content. -/
lemma chunkReached_of_place {m : Mode} {attrs : Attrs} (h : place m (typeOf attrs) ≠ .inline)
    (depth : ℕ) (chunks : List Chunk) :
    chunkReached F rules depth m.ruledInline (.text attrs chunks) = [] := by
  obtain ⟨inl, foreign⟩ := not_or.mp (mt place_eq_inline.mpr h)
  rw [chunkReached, if_neg]
  simpa [inl] using foreign

/-- What is not in block position is not among the blocks. -/
lemma select_of_place {m : Mode} {attrs : Attrs} (h : place m (typeOf attrs) ≠ .block) (depth : ℕ)
    (chunks : List Chunk) :
    m.select (fun only => blockChunkReached F rules only depth (.text attrs chunks)) = [] := by
  have notBlock := mt place_eq_block.mpr h
  by_cases inl : isInlineType (typeOf attrs) = true
  · cases m <;> simp [Mode.select, blockChunkReached, inl]
  · cases m with
    | leaf => rfl
    | container => simp [inl] at notBlock
    | item =>
      have noList : typeOf attrs ≠ "list" := by simpa [inl] using notBlock
      simp [Mode.select, blockChunkReached, inl, noList]

lemma select_of_block {m : Mode} {attrs : Attrs} (h : place m (typeOf attrs) = .block) (depth : ℕ)
    (chunks : List Chunk) :
    m.select (fun only => blockChunkReached F rules only depth (.text attrs chunks)) =
      blockReached F rules ⟨attrs, chunks⟩ fun only =>
        if maxBlockDepth ≤ depth then []
        else blockChunksReached F rules only (depth + 1) chunks := by
  obtain ⟨inl, rfl | ⟨rfl, list⟩⟩ := place_eq_block.mp h
  · simp [Mode.select, blockChunkReached, inl]
  · rw [list] at inl
    simp [Mode.select, blockChunkReached, inl, list]

/-- A text at the cap has no block children. -/
lemma Shallow.blockChunksReached_eq_nil {depth : ℕ} (cap : maxBlockDepth ≤ depth)
    {cs : List Chunk} (h : Shallow depth cs) (only : Bool) (below : ℕ) :
    blockChunksReached F rules only below cs = [] := by
  induction cs with
  | nil => rfl
  | cons c cs ih =>
    rw [Shallow] at h
    rw [blockChunksReached, ih h.2, List.append_nil]
    cases c with
    | text attrs chunks =>
      rw [Chunk.Shallow] at h
      omega
    | _ => rfl

lemma select_append {α : Type} (m : Mode) (blocks blocks' : Bool → List α) :
    m.select (fun only => blocks only ++ blocks' only) = m.select blocks ++ m.select blocks' := by
  cases m <;> rfl

mutual

/-- The nodes with a rule in a chunk that some arm visits are rendered with the inline content or
among the blocks.  The inline depth and the block depth are at most that of the chunk. -/
lemma Chunk.perm_reached {i b d : ℕ} (hi : i ≤ d) (hb : b ≤ d + 1) : ∀ (c : Chunk) (m : Mode),
    c.Shallow d → (ruledTypes rules (c.nodes rules (some m))).Perm
      ((chunkReached F rules i m.ruledInline c ++
        m.select fun only => blockChunkReached F rules only b c).map Deferred.nodeType)
  | .text attrs chunks, m, shallow => by
    rw [Chunk.Shallow] at shallow
    rw [Chunk.nodes, position]
    cases there : place m (typeOf attrs) with
    | nowhere =>
      rw [chunkReached_of_place (by rw [there]; decide), select_of_place (by rw [there]; decide),
        ruledTypes_unseen]
      split
      · exact .nil
      · rw [modeInside, ruledTypes_nodes_none]
        exact .nil
    | inline =>
      have visited : (isInlineType (typeOf attrs) || (m.ruledInline && !isBuiltin (typeOf attrs))) =
          true := by
        simpa using place_eq_inline.mp there
      have below : i < maxInlineDepth := hi.trans_lt shallow.1
      have inside := perm_reached (i := i + 1) (b := 0) (by omega) (by omega) chunks .leaf shallow.2
      rw [Mode.select, List.append_nil] at inside
      rw [select_of_place (by rw [there]; decide), List.append_nil, chunkReached, if_pos visited]
      cases rule : rules.nodes.get (typeOf attrs) with
      | some rule' =>
        rw [ruledTypes_of_some (by decide) rule, List.map_cons]
        refine .cons _ ?_
        by_cases closed : ruleContent rule' = .none
        · rw [if_pos ((hides_of_some rule).mpr closed), if_neg (by simp [closed])]
          exact .nil
        · rw [if_neg (by rwa [hides_of_some rule]), if_pos ⟨closed, below⟩]
          exact inside
      | none =>
        rw [ruledTypes_of_none rule, hides_of_none rule]
        dsimp only
        rw [if_pos below]
        exact inside
    | block =>
      obtain ⟨m', mode⟩ : ∃ m', modeInside rules ⟨attrs, chunks⟩ .block = some m' :=
        exists_modeInside_block _
      have inside := perm_reached (i := 0) (b := b + 1) (by omega) (by omega) chunks m' shallow.2
      have uncut : (fun only => if maxBlockDepth ≤ b then [] else
          blockChunksReached F rules only (b + 1) chunks) =
            fun only => blockChunksReached F rules only (b + 1) chunks := by
        funext only
        split
        next cap =>
          exact (shallow.2.blockChunksReached_eq_nil (cap.trans hb) only (b + 1)).symm
        next => rfl
      rw [chunkReached_of_place (by rw [there]; decide), select_of_block there, uncut,
        List.nil_append]
      dsimp only
      rw [mode]
      exact perm_blockReached mode inside
  | .element attrs, m, _ => by
    have noBlocks :
        (m.select fun only => blockChunkReached F rules only b (.element attrs)) = [] := by
      cases m <;> rfl
    rw [noBlocks, List.append_nil, Chunk.nodes, chunkReached, Option.isSome_some, if_pos rfl]
    exact .of_eq (ruledTypes_decorator attrs)
  | .map _, m, _ => by cases m <;> exact .nil
  | .run _, m, _ => by cases m <;> exact .nil
  | .other, m, _ => by cases m <;> exact .nil

lemma perm_reached {i b d : ℕ} (hi : i ≤ d) (hb : b ≤ d + 1) : ∀ (cs : List Chunk) (m : Mode),
    Shallow d cs → (ruledTypes rules (nodes rules (some m) cs)).Perm
      ((chunksReached F rules i m.ruledInline cs ++
        m.select fun only => blockChunksReached F rules only b cs).map Deferred.nodeType)
  | [], m, _ => by cases m <;> exact .nil
  | c :: cs, m, shallow => by
    rw [Shallow] at shallow
    have first := Chunk.perm_reached hi hb c m shallow.1
    have rest := perm_reached hi hb cs m shallow.2
    simp only [nodes, ruledTypes_append, chunksReached, blockChunksReached, select_append,
      List.map_append] at first rest ⊢
    refine (first.append rest).trans ?_
    simpa only [List.append_assoc] using (List.perm_append_comm_assoc _ _ _).append_left _

end

/-- **Below the depth caps, the nodes with a rule that a rendering reaches are those that stand
where an arm visits them.** -/
theorem perm_reached_documentNodes {root : List RootNode} (shaped : isLexicalShaped root = true)
    (shallow : DocumentShallow root) :
    (ruledTypes rules (documentNodes rules root)).Perm
      ((reached F rules root).map Deferred.nodeType) := by
  rw [reached, if_pos shaped, documentNodes]
  clear shaped
  induction root with
  | nil => exact .nil
  | cons node root ih =>
    rw [List.flatMap_cons, List.flatMap_cons, ruledTypes_append, List.map_append]
    refine .append ?_ (ih fun t ht => shallow t (List.mem_cons_of_mem _ ht))
    cases node with
    | text t =>
      obtain ⟨m, mode⟩ : ∃ m, modeInside rules t .block = some m := exists_modeInside_block t
      rw [RootNode.nodes, mode, rootReached]
      exact perm_blockReached mode
        (perm_reached (le_refl 0) (le_refl 1) t.chunks m (shallow t List.mem_cons_self))
    | element attrs => exact .of_eq (ruledTypes_decorator attrs)
    | fragment content => exact .nil

end

end LexicalHtml

/-! ## ProseMirror documents -/

namespace ProseMirrorHtml

section

variable {json : Json} {rules : Rules}

mutual

/-- In an element that no arm visits nothing is visited. -/
lemma Node.ruledTypes_unseen : ∀ c : Node, ruledTypes rules (c.nodes rules .unseen) = []
  | .element tag attrs children => by
    rw [Node.nodes, RenderRules.ruledTypes_unseen]
    split
    · rfl
    · exact ruledTypes_nodes_unseen children
  | .text _ => rfl
  | .fragment _ => rfl

lemma ruledTypes_nodes_unseen : ∀ cs : List Node, ruledTypes rules (nodes rules .unseen cs) = []
  | [] => rfl
  | c :: cs => by
    rw [nodes, ruledTypes_append, Node.ruledTypes_unseen c, ruledTypes_nodes_unseen cs,
      List.append_nil]

end

/-- An element at the cap has no elements in it. -/
lemma Shallow.nodes_eq_nil {depth : ℕ} (cap : maxDepth < depth) {cs : List Node}
    (h : Shallow depth cs) (pos : Position) : nodes rules pos cs = [] := by
  induction cs with
  | nil => rfl
  | cons c cs ih =>
    rw [Shallow] at h
    rw [nodes, ih h.2, List.append_nil]
    cases c with
    | element tag attrs children =>
      rw [Node.Shallow] at h
      omega
    | _ => rfl

lemma isClosed_of_some {tag : String} {rule : NodeRule} (ruled : rules.nodes.get tag = some rule)
    (pos : Position) : isClosed rules pos tag = hides rules tag := by
  simp [isClosed, Dict.containsKey, ruled]

lemma isClosed_of_none {tag : String} (unruled : rules.nodes.get tag = none) (pos : Position) :
    isClosed rules pos tag = isLeaf tag pos := by
  simp [isClosed, Dict.containsKey, unruled, hides_of_none unruled]

lemma isLeaf_block (tag : String) :
    isLeaf tag .block =
      match builtinOf tag with
      | some .horizontalRule => true
      | some .image => true
      | some .hardBreak => true
      | _ => false := by
  generalize spelling : builtinOf tag = builtin
  unfold builtinOf at spelling
  split at spelling <;> subst spelling <;> simp_all [isLeaf]

mutual

/-- The nodes with a rule in inline position. -/
lemma Node.ruledTypes_inline {i d : ℕ} (hi : i ≤ d) : ∀ c : Node, c.Shallow d →
    ruledTypes rules (c.nodes rules .inline) =
      (nodeReached json rules i c).map Deferred.nodeType
  | .element tag attrs children, shallow => by
    rw [Node.Shallow] at shallow
    have below : ruledTypes rules (nodes rules .inline children) =
        (if i < maxDepth then nodesReached json rules (i + 1) children else []).map
          Deferred.nodeType := by
      split
      next => exact ruledTypes_inline (Nat.succ_le_succ hi) children shallow.2
      next cap => rw [shallow.2.nodes_eq_nil (by omega)]; rfl
    have here : inside rules ⟨tag, attrs, children⟩ .inline = .inline := rfl
    rw [Node.nodes, nodeReached, here]
    cases rule : rules.nodes.get tag with
    | some rule' =>
      rw [ruledTypes_of_some (by decide) rule, isClosed_of_some rule]
      refine congrArg (tag :: ·) ?_
      by_cases closed : ruleContent rule' = .none
      · rw [if_pos ((hides_of_some rule).mpr closed), if_neg (by simp [closed])]
        rfl
      · rw [if_neg (by rwa [hides_of_some rule])]
        simpa only [ne_eq, closed, not_false_eq_true, true_and] using below
    | none =>
      rw [ruledTypes_of_none rule, isClosed_of_none rule, isLeaf]
      dsimp only
      by_cases leaf : tag ∈ ["hardBreak", "hard_break", "image"]
      · rw [if_pos (decide_eq_true leaf), if_neg fun visited => visited.1 leaf]
        rfl
      · rw [if_neg fun closed => leaf (of_decide_eq_true closed)]
        simpa only [leaf, not_false_eq_true, true_and] using below
  | .text _, _ => rfl
  | .fragment _, _ => rfl

lemma ruledTypes_inline {i d : ℕ} (hi : i ≤ d) : ∀ cs : List Node, Shallow d cs →
    ruledTypes rules (nodes rules .inline cs) =
      (nodesReached json rules i cs).map Deferred.nodeType
  | [], _ => rfl
  | c :: cs, shallow => by
    rw [Shallow] at shallow
    rw [nodes, ruledTypes_append, Node.ruledTypes_inline hi c shallow.1,
      ruledTypes_inline hi cs shallow.2, nodesReached, List.map_append]

end

/-- A block, given what is in it. -/
lemma ruledTypes_block {e : XmlElement} {blocks : List Deferred}
    (inline : ruledTypes rules (nodes rules .inline e.children) =
      (nodesReached json rules 0 e.children).map Deferred.nodeType)
    (block : ruledTypes rules (nodes rules .block e.children) = blocks.map Deferred.nodeType) :
    ruledTypes rules ((.block, e.tag) ::
        if isClosed rules .block e.tag then []
        else nodes rules (inside rules e .block) e.children) =
      (blockReached json rules e blocks).map Deferred.nodeType := by
  rw [blockReached, inside]
  cases rule : rules.nodes.get e.tag with
  | some rule' =>
    rw [ruledTypes_of_some (by decide) rule, isClosed_of_some rule]
    refine congrArg (e.tag :: ·) ?_
    dsimp only
    cases content : ruleContent rule' with
    | none => rw [if_pos ((hides_of_some rule).mpr content)]; rfl
    | inline =>
      rw [if_neg (by simp [hides_of_some rule, content]), if_neg (by decide)]
      exact inline
    | blocks =>
      rw [if_neg (by simp [hides_of_some rule, content]), if_pos rfl]
      exact block
  | none =>
    rw [ruledTypes_of_none rule, isClosed_of_none rule, isLeaf_block]
    dsimp only
    cases builtinOf e.tag with
    | none =>
      dsimp only
      rw [if_neg Bool.false_ne_true]
      split
      next => exact block
      next => exact inline
    | some builtin =>
      cases builtin
      case paragraph => exact inline
      case heading => exact inline
      case codeBlock => exact ruledTypes_nodes_unseen e.children
      case horizontalRule => rfl
      case image => rfl
      case hardBreak => rfl
      all_goals exact block

mutual

lemma Node.ruledTypes_blocks {d : ℕ} : ∀ c : Node, c.Shallow d →
    ruledTypes rules (c.nodes rules .block) =
      (blockNodeReached json rules d c).map Deferred.nodeType
  | .element tag attrs children, shallow => by
    rw [Node.Shallow] at shallow
    rw [Node.nodes, blockNodeReached]
    refine ruledTypes_block (e := ⟨tag, attrs, children⟩)
      (ruledTypes_inline (Nat.zero_le _) children shallow.2) ?_
    split
    next => exact ruledTypes_blocks children shallow.2
    next cap => rw [shallow.2.nodes_eq_nil (by omega)]; rfl
  | .text _, _ => rfl
  | .fragment _, _ => rfl

lemma ruledTypes_blocks {d : ℕ} : ∀ cs : List Node, Shallow d cs →
    ruledTypes rules (nodes rules .block cs) =
      (blockNodesReached json rules d cs).map Deferred.nodeType
  | [], _ => rfl
  | c :: cs, shallow => by
    rw [Shallow] at shallow
    rw [nodes, ruledTypes_append, Node.ruledTypes_blocks c shallow.1,
      ruledTypes_blocks cs shallow.2, blockNodesReached, List.map_append]

end

/-- The same for a ProseMirror document, in the order of the document. -/
theorem ruledTypes_documentNodes {root : List Node} (shaped : isProsemirrorShaped root = true)
    (shallow : Shallow 0 root) :
    ruledTypes rules (documentNodes rules root) =
      (reached json rules root).map Deferred.nodeType := by
  rw [reached, if_pos shaped, documentNodes, ruledTypes_blocks root shallow]

end

end ProseMirrorHtml

end Yrby
