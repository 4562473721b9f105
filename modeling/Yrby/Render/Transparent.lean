import Yrby.Render.Reached

/-!
# Callback rules are transparent

A callback rule that writes a tag around its content renders as the declarative rule with that tag
does.  By recursion on the document: under rule sets that differ in such rules, the forests of a
document differ in deferred elements only, whichever position the nodes are in.  What is left
between the two renderings is `JSON.parse` (`callbacks_transparent_iff`).
-/

namespace Yrby

open HtmlCore RenderRules

/-! ## Lexical documents -/

namespace LexicalHtml

/-- `Y::Lexical#to_html` -/
def toHtml (F : Foreign) (decode : String → Dict Value) (nodes : Dict Rule)
    (root : List RootNode) : Option (Option String) :=
  RenderRules.toHtml decode (callbacks nodes) (renderSegments F (compile nodes []) root)

section

variable {F : Foreign} {tagOf : Deferred → Option String} {rules rules' : Rules}

lemma deferring_run (text : String) (format : ℕ) (style : String) :
    Html.Deferring tagOf [runTree text format style] [runTree text format style] :=
  Html.deferring_self _ (whole_run text format style)

lemma deferring_decorator (h : Defers tagOf rules rules') (attrs : Attrs) :
    Html.Deferring tagOf (decoratorForest F rules attrs) (decoratorForest F rules' attrs) := by
  unfold decoratorForest
  rcases h.nodes (typeOf attrs) with ⟨absent, absent'⟩ | ⟨rule, rule', there, there', defers⟩
  · rw [absent, absent']
    dsimp only
    split
    · exact .void "hr" [] .nil
    · exact .nil
  · rw [there, there']
    exact defers.ruleTree ⟨typeOf attrs, xmlAttrsJson F.toJson attrs, []⟩ _ fun _ => .nil

lemma deferring_ruleInline {rule rule' : NodeRule} {t : XmlText}
    (defers : DefersRule tagOf (nodeType t) rule rule') (depth : ℕ) {body body' : List Tree}
    (inside : Html.Deferring tagOf body body') :
    Html.Deferring tagOf [ruleInlineTree F t rule depth body]
      [ruleInlineTree F t rule' depth body'] := by
  apply defers.ruleTree (deferredText F t)
  intro content
  split
  · exact inside
  · exact .nil

lemma deferring_link (t : XmlText) (depth : ℕ) {body body' : List Tree}
    (inside : Html.Deferring tagOf body body') :
    Html.Deferring tagOf [linkTree F t depth body] [linkTree F t depth body'] := by
  apply Html.Deferring.element
  split
  · exact inside
  · exact .text _ .nil

mutual

lemma deferring_chunk (h : Defers tagOf rules rules') : ∀ (c : Chunk) (depth : ℕ)
    (ruledInline : Bool) (run : RunState),
    Html.Deferring tagOf (chunkForest F rules depth ruledInline run c)
      (chunkForest F rules' depth ruledInline run c)
  | .map attrs, depth, ruledInline, run => by
    rw [chunkForest, chunkForest]
    split
    · exact .void "br" [] .nil
    · exact .nil
  | .run s, depth, ruledInline, run => by
    rw [chunkForest, chunkForest]
    split
    · exact .elem "span" [] (.text _ .nil) .nil
    · exact deferring_run s.text run.format run.style
  | .text attrs chunks, depth, ruledInline, run => by
    have body := deferring_chunks h chunks (depth + 1) true .init
    rw [chunkForest, chunkForest]
    by_cases inl : isInlineType (typeOf attrs) = true
    · rw [if_pos inl, if_pos inl]
      rcases h.nodes (typeOf attrs) with ⟨absent, absent'⟩ | ⟨rule, rule', there, there', defers⟩
      · rw [absent, absent']
        exact deferring_link ⟨attrs, chunks⟩ depth body
      · rw [there, there']
        exact deferring_ruleInline defers depth body
    · rw [if_neg inl, if_neg inl]
      by_cases ruled : (ruledInline && !isBuiltin (typeOf attrs)) = true
      · rw [if_pos ruled, if_pos ruled]
        rcases h.nodes (typeOf attrs) with ⟨absent, absent'⟩ | ⟨rule, rule', there, there', defers⟩
        · rw [absent, absent']
          dsimp only
          split
          · exact deferring_chunks h chunks (depth + 1) ruledInline .init
          · exact .nil
        · rw [there, there']
          exact deferring_ruleInline defers depth body
      · rw [if_neg ruled, if_neg ruled]
        exact .nil
  | .element attrs, depth, ruledInline, run => by
    rw [chunkForest, chunkForest]
    exact deferring_decorator h attrs
  | .other, depth, ruledInline, run => by
    rw [chunkForest, chunkForest]
    exact .nil

/-- Inline content differs in deferred elements. -/
lemma deferring_chunks (h : Defers tagOf rules rules') : ∀ (cs : List Chunk) (depth : ℕ)
    (ruledInline : Bool) (run : RunState),
    Html.Deferring tagOf (chunksForest F rules depth ruledInline run cs)
      (chunksForest F rules' depth ruledInline run cs)
  | [], depth, ruledInline, run => by
    rw [chunksForest, chunksForest]
    exact .nil
  | c :: cs, depth, ruledInline, run => by
    have first := deferring_chunk h c depth ruledInline run
    have rest := deferring_chunks h cs depth ruledInline (run.next c)
    rw [chunksForest, chunksForest]
    exact first.append rest

end

lemma deferring_inline (h : Defers tagOf rules rules') (t : XmlText) (depth : ℕ)
    (ruledInline : Bool) :
    Html.Deferring tagOf (inlineForest F rules t depth ruledInline)
      (inlineForest F rules' t depth ruledInline) :=
  deferring_chunks h t.chunks depth ruledInline .init

lemma deferring_content (h : Defers tagOf rules rules') (t : XmlText) {blocks blocks' : List Tree}
    (hblocks : Html.Deferring tagOf blocks blocks') (content : Content) :
    Html.Deferring tagOf (contentForest F rules t blocks content)
      (contentForest F rules' t blocks' content) := by
  cases content with
  | inline => exact deferring_inline h t 0 true
  | blocks => exact (deferring_inline h t 0 false).append hblocks
  | none => exact .nil

/-- A block differs in deferred elements when its block children do. -/
lemma deferring_blockTrees (h : Defers tagOf rules rules') (t : XmlText)
    {blocks blocks' : Bool → List Tree}
    (hblocks : ∀ only, Html.Deferring tagOf (blocks only) (blocks' only)) :
    Html.Deferring tagOf (blockTrees F rules t blocks) (blockTrees F rules' t blocks') := by
  have inline := fun ruled => deferring_inline (F := F) h t 0 ruled
  have both := (inline false).append (hblocks false)
  unfold blockTrees
  rcases h.nodes (nodeType t) with ⟨absent, absent'⟩ | ⟨rule, rule', there, there', defers⟩
  · rw [absent, absent']
    dsimp only
    split
    case h_1 =>
      exact deferring_paragraphForest (inline true) (.elem "p" [] (.void "br" [] .nil) .nil)
    case h_2 => exact (inline true).element _ _
    case h_3 => exact (inline true).element _ _
    case h_4 => exact (inline true).element _ _
    case h_5 => exact both.element _ _
    case h_6 => exact ((inline true).append (hblocks true)).element _ _
    case h_7 => exact (both.element "tbody" []).element "table" []
    case h_8 => exact both.element _ _
    case h_9 => exact both.element _ _
    case h_10 =>
      split
      · exact both
      · exact deferring_paragraphForest (inline true) .nil
  · rw [there, there']
    exact defers.ruleTree (deferredText F t) _ (deferring_content h t (hblocks false))

mutual

lemma deferring_blockChunk (h : Defers tagOf rules rules') : ∀ (c : Chunk) (onlyLists : Bool)
    (depth : ℕ),
    Html.Deferring tagOf (blockChunkForest F rules onlyLists depth c)
      (blockChunkForest F rules' onlyLists depth c)
  | .text attrs chunks, onlyLists, depth => by
    rw [blockChunkForest, blockChunkForest]
    split
    · exact .nil
    · split
      · exact .nil
      · apply deferring_blockTrees h
        intro only
        split
        · exact .nil
        · exact deferring_blockChunks h chunks only (depth + 1)
  | .map attrs, onlyLists, depth => by
    simp only [blockChunkForest]
    exact .nil
  | .run s, onlyLists, depth => by
    simp only [blockChunkForest]
    exact .nil
  | .element attrs, onlyLists, depth => by
    simp only [blockChunkForest]
    exact .nil
  | .other, onlyLists, depth => by
    simp only [blockChunkForest]
    exact .nil

lemma deferring_blockChunks (h : Defers tagOf rules rules') : ∀ (cs : List Chunk)
    (onlyLists : Bool) (depth : ℕ),
    Html.Deferring tagOf (blockChunksForest F rules onlyLists depth cs)
      (blockChunksForest F rules' onlyLists depth cs)
  | [], onlyLists, depth => by
    rw [blockChunksForest, blockChunksForest]
    exact .nil
  | c :: cs, onlyLists, depth => by
    have first := deferring_blockChunk h c onlyLists depth
    have rest := deferring_blockChunks h cs onlyLists depth
    rw [blockChunksForest, blockChunksForest]
    exact first.append rest

end

lemma deferring_block (h : Defers tagOf rules rules') (t : XmlText) (depth : ℕ) :
    Html.Deferring tagOf (blockForest F rules t depth) (blockForest F rules' t depth) := by
  apply deferring_blockTrees h
  intro only
  unfold childForest
  split
  · exact .nil
  · exact deferring_blockChunks h t.chunks only (depth + 1)

/-- The two renderings of a document differ in deferred elements. -/
lemma deferring_forest (h : Defers tagOf rules rules') (root : List RootNode) :
    Html.Deferring tagOf (forest F rules root) (forest F rules' root) := by
  apply Html.Deferring.flatMap
  intro node _
  cases node with
  | text t => exact deferring_block h t 0
  | element attrs => exact deferring_decorator h attrs
  | fragment content => exact .text content .nil

end

end LexicalHtml

/-! ## ProseMirror documents -/

namespace ProseMirrorHtml

/-- `Y::ProseMirror#to_html` -/
def toHtml (json : Json) (decode : String → Dict Value) (nodes : Dict Rule)
    (marks : Dict MarkRule) (root : List Node) : Option (Option String) :=
  RenderRules.toHtml decode (callbacks nodes) (renderSegments json (compile nodes marks) root)

section

variable {json : Json} {tagOf : Deferred → Option String} {rules rules' : Rules}

/-- The wrappers of a run come from the mark rules. -/
lemma runWrappers_congr (h : rules'.marks = rules.marks) (marks : Option (Dict Value)) :
    runWrappers rules' marks = runWrappers rules marks := by
  cases marks with
  | none => rfl
  | some marks =>
    have claimed : ∀ keys, has rules' marks keys = has rules marks keys := by
      intro keys
      rw [has, has, h]
    simp only [runWrappers, formatWrappers, linkWrappers, customWrappers, customNames, claimed, h]

lemma runsForest_congr (h : rules'.marks = rules.marks) (diffs : List TextDiff) :
    runsForest rules' diffs = runsForest rules diffs := by
  induction diffs with
  | nil => rfl
  | cons d diffs ih =>
    cases d with
    | embed => exact ih
    | run s marks => rw [runsForest, runsForest, ih, runWrappers_congr h]

lemma deferring_runs (h : Defers tagOf rules rules') (diffs : List TextDiff) :
    Html.Deferring tagOf (runsForest rules diffs) (runsForest rules' diffs) := by
  rw [runsForest_congr h.marks]
  exact Html.deferring_self _ (whole_runs diffs)

lemma deferring_ruleInline {rule rule' : NodeRule} {e : XmlElement}
    (defers : DefersRule tagOf e.tag rule rule') (depth : ℕ) {body body' : List Tree}
    (inside : Html.Deferring tagOf body body') :
    Html.Deferring tagOf [ruleInlineTree json e rule depth body]
      [ruleInlineTree json e rule' depth body'] := by
  apply defers.ruleTree (deferredElement json e)
  intro content
  split
  · exact inside
  · exact .nil

mutual

lemma deferring_node (h : Defers tagOf rules rules') : ∀ (c : Node) (depth : ℕ),
    Html.Deferring tagOf (nodeForest json rules depth c) (nodeForest json rules' depth c)
  | .text diffs, depth => by
    rw [nodeForest, nodeForest]
    exact deferring_runs h diffs
  | .element tag attrs children, depth => by
    have body := deferring_nodes h children (depth + 1)
    rw [nodeForest, nodeForest]
    rcases h.nodes tag with ⟨absent, absent'⟩ | ⟨rule, rule', there, there', defers⟩
    · rw [absent, absent']
      dsimp only
      split
      · exact .void "br" [] .nil
      · split
        · exact .void "img" _ .nil
        · split
          · exact body
          · exact .nil
    · rw [there, there']
      exact deferring_ruleInline defers depth body
  | .fragment content, depth => by
    rw [nodeForest, nodeForest]
    exact .nil

/-- Inline content differs in deferred elements. -/
lemma deferring_nodes (h : Defers tagOf rules rules') : ∀ (cs : List Node) (depth : ℕ),
    Html.Deferring tagOf (nodesForest json rules depth cs) (nodesForest json rules' depth cs)
  | [], depth => by
    rw [nodesForest, nodesForest]
    exact .nil
  | c :: cs, depth => by
    have first := deferring_node h c depth
    have rest := deferring_nodes h cs depth
    rw [nodesForest, nodesForest]
    exact first.append rest

end

lemma deferring_stray (h : Defers tagOf rules rules') (e : XmlElement) :
    Html.Deferring tagOf (strayForest rules e) (strayForest rules' e) := by
  apply Html.Deferring.flatMap
  intro c _
  cases c with
  | text diffs => exact deferring_runs h diffs
  | element tag attrs children => exact .nil
  | fragment content => exact .nil

/-- A block differs in deferred elements when its child elements do. -/
lemma deferring_blockTrees (h : Defers tagOf rules rules') (e : XmlElement)
    {blocks blocks' : List Tree} (hblocks : Html.Deferring tagOf blocks blocks') :
    Html.Deferring tagOf (blockTrees json rules e blocks) (blockTrees json rules' e blocks') := by
  have inline : Html.Deferring tagOf (inlineForest json rules e) (inlineForest json rules' e) :=
    deferring_nodes h e.children 0
  have both := (deferring_stray h e).append hblocks
  unfold blockTrees
  rcases h.nodes e.tag with ⟨absent, absent'⟩ | ⟨rule, rule', there, there', defers⟩
  · rw [absent, absent']
    dsimp only
    split
    case h_1 => exact inline.element _ _
    case h_2 => exact inline.element _ _
    case h_3 => exact .elem "pre" [] (.elem "code" _ (.text _ .nil) .nil) .nil
    case h_4 => exact both.element _ _
    case h_5 => exact both.element _ _
    case h_6 => exact both.element _ _
    case h_7 => exact both.element _ _
    case h_8 => exact (both.element "tbody" []).element "table" []
    case h_9 => exact both.element _ _
    case h_10 => exact both.element _ _
    case h_11 => exact both.element _ _
    case h_12 => exact .void "hr" [] .nil
    case h_13 => exact .void "img" _ .nil
    case h_14 => exact .void "br" [] .nil
    case h_15 =>
      split
      · exact both
      · exact deferring_paragraphForest inline .nil
  · rw [there, there']
    apply defers.ruleTree (deferredElement json e)
    intro content
    cases content with
    | inline => exact inline
    | blocks => exact both
    | none => exact .nil

mutual

lemma deferring_blockNode (h : Defers tagOf rules rules') : ∀ (c : Node) (depth : ℕ),
    Html.Deferring tagOf (blockNodeForest json rules depth c)
      (blockNodeForest json rules' depth c)
  | .element tag attrs children, depth => by
    rw [blockNodeForest, blockNodeForest]
    apply deferring_blockTrees h
    split
    · exact deferring_blockNodes h children (depth + 1)
    · exact .nil
  | .text diffs, depth => by
    simp only [blockNodeForest]
    exact .nil
  | .fragment content, depth => by
    simp only [blockNodeForest]
    exact .nil

lemma deferring_blockNodes (h : Defers tagOf rules rules') : ∀ (cs : List Node) (depth : ℕ),
    Html.Deferring tagOf (blockNodesForest json rules depth cs)
      (blockNodesForest json rules' depth cs)
  | [], depth => by
    rw [blockNodesForest, blockNodesForest]
    exact .nil
  | c :: cs, depth => by
    have first := deferring_blockNode h c depth
    have rest := deferring_blockNodes h cs depth
    rw [blockNodesForest, blockNodesForest]
    exact first.append rest

end

lemma deferring_block (h : Defers tagOf rules rules') (e : XmlElement) (depth : ℕ) :
    Html.Deferring tagOf (blockForest json rules e depth) (blockForest json rules' e depth) := by
  apply deferring_blockTrees h
  unfold childForest
  split
  · exact deferring_blockNodes h e.children (depth + 1)
  · exact .nil

/-- The two renderings of a document differ in deferred elements. -/
lemma deferring_forest (h : Defers tagOf rules rules') (root : List Node) :
    Html.Deferring tagOf (forest json rules root) (forest json rules' root) := by
  apply Html.Deferring.flatMap
  intro node _
  cases node with
  | element tag attrs children => exact deferring_block h ⟨tag, attrs, children⟩ 0
  | text diffs => exact deferring_runs h diffs
  | fragment content => exact .text content .nil

end

end ProseMirrorHtml

/-! ## The results -/

open LexicalHtml ProseMirrorHtml

/-- The attributes of every node whose rule was replaced can be parsed. -/
def Parses (nodes nodes' : Dict Rule) (reached : List Deferred) : Prop :=
  ∀ label ∈ reached, (tagOf nodes nodes' label).isSome → nesting label.attrsJson ≤ maxNesting

lemma parses_iff_holes {nodes nodes' : Dict Rule} (marks : Dict MarkRule) {us : List Tree}
    {reached : List Deferred}
    (holes : Html.holes us = reached.filter (isCallback (compile nodes' marks))) :
    Parses nodes nodes' (Html.holes us) ↔ Parses nodes nodes' reached := by
  have callback : ∀ label, (tagOf nodes nodes' label).isSome →
      isCallback (compile nodes' marks) label = true := by
    intro label stands
    unfold tagOf at stands
    rw [isCallback, get_compile]
    cases there : nodes'.get label.nodeType with
    | none => simp [there] at stands
    | some rule =>
      cases rule with
      | declarative tag void attrs text contains => simp [there] at stands
      | callback contains block => rfl
  rw [holes]
  constructor
  · intro parses label hl stands
    exact parses label (List.mem_filter.mpr ⟨hl, callback label stands⟩) stands
  · intro parses label hl stands
    exact parses label (List.mem_filter.mp hl).1 stands

/-- A rule set with callbacks in place of plain declarative rules renders every document as the rule
set without them does, just if the original rendering raises as well, or `JSON.parse` accepts the
attributes of every node that is reached and whose rule was replaced. -/
theorem callbacks_transparent_iff (decode : String → Dict Value) {nodes nodes' : Dict Rule}
    (h : ReplacesAll nodes nodes') :
    (∀ (F : Foreign) (root : List RootNode),
      LexicalHtml.toHtml F decode nodes' root = LexicalHtml.toHtml F decode nodes root ↔
        LexicalHtml.toHtml F decode nodes root = none ∨
          Parses nodes nodes' (LexicalHtml.reached F (compile nodes' []) root)) ∧
    (∀ (json : Json) (marks : Dict MarkRule) (root : List ProseMirrorHtml.Node),
      ProseMirrorHtml.toHtml json decode nodes' marks root =
          ProseMirrorHtml.toHtml json decode nodes marks root ↔
        ProseMirrorHtml.toHtml json decode nodes marks root = none ∨
          Parses nodes nodes' (ProseMirrorHtml.reached json (compile nodes' marks) root)) := by
  constructor
  · intro F root
    unfold LexicalHtml.toHtml
    by_cases shaped : isLexicalShaped root = true
    · have forests := LexicalHtml.deferring_forest (F := F) (h.defers []) root
      rw [LexicalHtml.renderSegments_eq shaped, LexicalHtml.renderSegments_eq shaped,
        h.toHtml_eq_iff forests]
      exact or_congr_right (parses_iff_holes [] (LexicalHtml.holes_forest shaped))
    · rw [LexicalHtml.renderSegments, LexicalHtml.renderSegments, if_neg shaped, if_neg shaped,
        LexicalHtml.reached, if_neg shaped]
      simp [RenderRules.toHtml, Parses]
  · intro json marks root
    unfold ProseMirrorHtml.toHtml
    by_cases shaped : isProsemirrorShaped root = true
    · have forests : Html.Deferring (tagOf nodes nodes')
          (ProseMirrorHtml.forest json (compile nodes marks) root)
          (ProseMirrorHtml.forest json (compile nodes' marks) root) :=
        ProseMirrorHtml.deferring_forest (h.defers marks) root
      rw [ProseMirrorHtml.renderSegments_eq shaped, ProseMirrorHtml.renderSegments_eq shaped,
        h.toHtml_eq_iff forests]
      exact or_congr_right (parses_iff_holes marks (ProseMirrorHtml.holes_forest shaped))
    · rw [ProseMirrorHtml.renderSegments, ProseMirrorHtml.renderSegments, if_neg shaped,
        if_neg shaped, ProseMirrorHtml.reached, if_neg shaped]
      simp [RenderRules.toHtml, Parses]

/-! ## A node with deep attributes -/

section

/-- The opening characters of nested arrays. -/
lemma scan_replicate (n : ℕ) (s : Scan) (quoted : s.quoted = false) (escaped : s.escaped = false) :
    s.depth + n ≤ ((List.replicate n '[').foldl Scan.step s).deepest ∨ n = 0 := by
  induction n generalizing s with
  | zero => exact .inr rfl
  | succ n ih =>
    have one : s.step '[' =
        { s with depth := s.depth + 1, deepest := max s.deepest (s.depth + 1) } := by
      simp [Scan.step, quoted, escaped]
    left
    rw [List.replicate_succ, List.foldl_cons, one]
    rcases ih { s with depth := s.depth + 1, deepest := max s.deepest (s.depth + 1) } quoted escaped
      with more | rfl
    · dsimp only at more
      omega
    · simp

/-- What was deepest stays at least as deep. -/
lemma deepest_le_foldl (cs : List Char) (s : Scan) :
    s.deepest ≤ (cs.foldl Scan.step s).deepest := by
  induction cs generalizing s with
  | nil => exact le_rfl
  | cons c cs ih =>
    have one : s.deepest ≤ (s.step c).deepest := by
      unfold Scan.step
      split_ifs <;> simp
    exact one.trans (ih (s.step c))

mutual

/-- An encoder of arrays, of integers, of `null` and of strings that need no escapes. -/
def writeValue : Value → String
  | .array items => "[" ++ writeItems items ++ "]"
  | .string s => "\"" ++ s ++ "\""
  | .int n => toString n
  | _ => "null"

def writeItems : List Value → String
  | [] => ""
  | [v] => writeValue v
  | v :: vs => writeValue v ++ "," ++ writeItems vs

end

def plainForeign : Foreign := ⟨⟨fun key => "\"" ++ key ++ "\"", writeValue⟩, fun _ => ""⟩

/-- Arrays in each other. -/
def nested : ℕ → Value
  | 0 => .array []
  | n + 1 => .array [nested n]

lemma toList_writeValue_nested (n : ℕ) :
    (writeValue (nested n)).toList = List.replicate (n + 1) '[' ++ List.replicate (n + 1) ']' := by
  induction n with
  | zero => simp [nested, writeValue, writeItems]
  | succ n ih =>
    have around : writeValue (nested (n + 1)) = "[" ++ writeValue (nested n) ++ "]" := by
      rw [nested, writeValue, writeItems]
    have front : List.replicate (n + 1 + 1) '[' = '[' :: List.replicate (n + 1) '[' :=
      List.replicate_succ
    have back : List.replicate (n + 1 + 1) ']' = List.replicate (n + 1) ']' ++ [']'] :=
      List.replicate_succ'
    rw [around, String.toList_append, String.toList_append, ih, front, back]
    simp

/-- A decorator of type `note` that stores `value`. -/
def note (value : Value) : List RootNode :=
  [.element [("__type", .any (.string "note")), ("deep", .any value)]]

def noteRule : Dict Rule := [("note", .declarative "aside" false [] none .inline)]

def noteCallback : Dict Rule := [("note", .callback .inline (wrapping "aside"))]

lemma note_replaced : ReplacesAll noteRule noteCallback :=
  .cons ⟨rfl, .callback "aside" .inline⟩ .nil

/-- What the callback gets. -/
def noteLabel (value : Value) : Deferred :=
  ⟨"note", "\x7b\"__type\":\"note\",\"deep\":" ++ writeValue value ++ "\x7d", []⟩

lemma reached_note (value : Value) :
    LexicalHtml.reached plainForeign (compile noteCallback []) (note value) =
      [noteLabel value] := by
  have shaped : isLexicalShaped (note value) = true := by
    simp [note, isLexicalShaped, isTyped, Dict.containsKey, Dict.get]
  have type : typeOf [("__type", Out.any (.string "note")), ("deep", Out.any value)] = "note" := rfl
  have rule : (compile noteCallback []).nodes.get "note" = some (.callback .inline) := rfl
  have json : xmlAttrsJson plainForeign.toJson
      [("__type", .any (.string "note")), ("deep", .any value)] = (noteLabel value).attrsJson := by
    have keys : Dict.keys [("__type", Out.any (.string "note")), ("deep", Out.any value)] =
        ["__type", "deep"] := rfl
    rw [xmlAttrsJson, keys]
    simp [Dict.get, List.lookup_cons, noteLabel, plainForeign, writeValue, ← String.append_assoc]
  rw [LexicalHtml.reached, if_pos shaped, note, List.flatMap_singleton, rootReached,
    decoratorReached, type, rule]
  dsimp only
  rw [json]
  rfl

/-- The object around the arrays counts as well. -/
lemma nesting_note (n : ℕ) : n < nesting (noteLabel (nested n)).attrsJson := by
  have start : ("\x7b\"__type\":\"note\",\"deep\":".toList.foldl Scan.step Scan.init) =
      ⟨1, 1, false, false⟩ := by decide
  have opened := scan_replicate (n + 1) ⟨1, 1, false, false⟩ rfl rfl
  have closed := deepest_le_foldl (List.replicate (n + 1) ']' ++ ['\x7d'])
    ((List.replicate (n + 1) '[').foldl Scan.step ⟨1, 1, false, false⟩)
  have text : (noteLabel (nested n)).attrsJson.toList =
      "\x7b\"__type\":\"note\",\"deep\":".toList ++ (List.replicate (n + 1) '[' ++
        (List.replicate (n + 1) ']' ++ ['\x7d'])) := by
    simp [noteLabel, toList_writeValue_nested]
  unfold nesting
  rw [text, List.foldl_append, List.foldl_append, start]
  simp only [Nat.succ_ne_zero, or_false] at opened
  omega

theorem shallow_note_transparent :
    LexicalHtml.toHtml plainForeign (fun _ => []) noteCallback (note (.string "")) =
      LexicalHtml.toHtml plainForeign (fun _ => []) noteRule (note (.string "")) := by
  refine ((callbacks_transparent_iff (fun _ => []) note_replaced).1 _ _).mpr (.inr ?_)
  rw [reached_note]
  intro label hl _
  rw [List.mem_singleton.mp hl]
  decide

theorem deep_note_raises :
    ReplacesAll noteRule noteCallback ∧
      LexicalHtml.toHtml plainForeign (fun _ => []) noteRule (note (nested 100)) =
        some (some "<aside></aside>") ∧
      LexicalHtml.toHtml plainForeign (fun _ => []) noteCallback (note (nested 100)) = none := by
  have shaped : isLexicalShaped (note (nested 100)) = true := by
    simp [note, isLexicalShaped, isTyped, Dict.containsKey, Dict.get]
  refine ⟨note_replaced, ?_, ?_⟩
  · have trees : LexicalHtml.forest plainForeign (compile noteRule []) (note (nested 100)) =
        [.elem "aside" [] [.text ""]] := rfl
    rw [LexicalHtml.toHtml, LexicalHtml.renderSegments_eq shaped, trees, toHtml_segments,
      Html.fill_segments]
    rfl
  · have refused : ∀ inside, supply (fun _ => []) (callbacks noteCallback)
        (noteLabel (nested 100)) inside = none := by
      intro inside
      have deep := nesting_note 100
      rw [supply, parseJson, if_neg (by unfold maxNesting; omega), Option.bind_none]
    have hole : noteLabel (nested 100) ∈ Html.holes
        (LexicalHtml.forest plainForeign (compile noteCallback []) (note (nested 100))) := by
      rw [LexicalHtml.holes_forest shaped, reached_note]
      exact List.mem_filter.mpr ⟨by simp, rfl⟩
    rw [LexicalHtml.toHtml, LexicalHtml.renderSegments_eq shaped, toHtml_segments,
      Html.fill_segments, Html.filled_of_refused refused _ hole]
    rfl

end

end Yrby
