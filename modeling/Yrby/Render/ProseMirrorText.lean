import Yrby.Render.Text

/-!
# Where the text of a ProseMirror document goes

Rendered without rules, a block prints its content as inline content, as a code string or as stray
text and blocks (`modeOf`).  The runs a node prints are `printed`, and those of the elements in a
code block, which takes only the text directly in it, are `lost`.  Together they are all runs of the
document (`printed_lost`), so all text is kept exactly when none is lost.
-/

namespace Yrby

namespace ProseMirrorHtml

open HtmlCore

/-! ## Modes -/

/-- How a block renders its content. -/
inductive Mode
  | inline
  | code
  | container
  | leaf
  deriving DecidableEq

/-- The mode of a block.  A block of no built-in type is a container when it has child elements. -/
def modeOf (e : XmlElement) : Mode :=
  match builtinOf e.tag with
  | some .paragraph | some .heading => .inline
  | some .codeBlock => .code
  | some .horizontalRule | some .image | some .hardBreak => .leaf
  | some _ => .container
  | none => if hasElementChild e then .container else .inline

def leafTags : List String :=
  ["image", "horizontalRule", "horizontal_rule", "hardBreak", "hard_break"]

/-! ## Runs -/

/-- The texts of the runs of a text. -/
def diffRuns (diffs : List TextDiff) : List String :=
  diffs.filterMap fun d =>
    match d with
    | .run s _ => some s.text
    | .embed => none

mutual

/-- The texts of the runs of a node, at any depth. -/
def Node.runs : Node → List String
  | .text diffs => diffRuns diffs
  | .element _ _ children => runs children
  | .fragment _ => []

def runs : List Node → List String
  | [] => []
  | c :: cs => c.runs ++ runs cs

end

/-- The runs directly in an element. -/
def directRuns (children : List Node) : List String :=
  children.flatMap fun c =>
    match c with
    | .text diffs => diffRuns diffs
    | _ => []

/-- The runs of the child elements. -/
def elementRuns (children : List Node) : List String :=
  children.flatMap fun c =>
    match c with
    | .element _ _ children => runs children
    | _ => []

mutual

/-- The runs that a block prints, in the order they are printed. -/
def Node.printed : Node → List String
  | .element tag attrs children =>
    match modeOf ⟨tag, attrs, children⟩ with
    | .inline => runs children
    | .code => directRuns children
    | .container => directRuns children ++ printed children
    | .leaf => []
  | _ => []

def printed : List Node → List String
  | [] => []
  | c :: cs => c.printed ++ printed cs

end

mutual

/-- The runs of elements in code blocks. -/
def Node.lost : Node → List String
  | .element tag attrs children =>
    match modeOf ⟨tag, attrs, children⟩ with
    | .code => elementRuns children
    | .container => lost children
    | .inline | .leaf => []
  | _ => []

def lost : List Node → List String
  | [] => []
  | c :: cs => c.lost ++ lost cs

end

mutual

/-- No run stands in a leaf. -/
def Node.BareLeaves : Node → Prop
  | .element tag _ children => (tag ∈ leafTags → runs children = []) ∧ BareLeaves children
  | _ => True

def BareLeaves : List Node → Prop
  | [] => True
  | c :: cs => c.BareLeaves ∧ BareLeaves cs

end

mutual

/-- No element of inline content stands at the cap. -/
def Node.InlineBelowCap (depth : ℕ) : Node → Prop
  | .element _ _ children => depth < maxDepth ∧ InlineBelowCap (depth + 1) children
  | _ => True

def InlineBelowCap (depth : ℕ) : List Node → Prop
  | [] => True
  | c :: cs => c.InlineBelowCap depth ∧ InlineBelowCap depth cs

end

mutual

/-- No block stands at the cap, and none of their inline content. -/
def Node.BelowCap (depth : ℕ) : Node → Prop
  | .element tag attrs children =>
    depth < maxDepth ∧
      match modeOf ⟨tag, attrs, children⟩ with
      | .inline => InlineBelowCap 0 children
      | .container => BelowCap (depth + 1) children
      | .code | .leaf => True
  | _ => True

def BelowCap (depth : ℕ) : List Node → Prop
  | [] => True
  | c :: cs => c.BelowCap depth ∧ BelowCap depth cs

end

/-! ## Printed and lost runs are all runs -/

lemma mem_leafTags {e : XmlElement} (h : modeOf e = .leaf) : e.tag ∈ leafTags := by
  have leaf : ∀ b, builtinOf e.tag = some b →
      b = .horizontalRule ∨ b = .image ∨ b = .hardBreak → e.tag ∈ leafTags := by
    rintro b hb (rfl | rfl | rfl)
    all_goals
      unfold builtinOf at hb
      split at hb <;> simp_all [leafTags]
  unfold modeOf at h
  split at h
  all_goals first
    | contradiction
    | exact leaf _ ‹_› (by simp)
    | (split at h <;> contradiction)

lemma runs_perm (children : List Node) :
    (runs children).Perm (directRuns children ++ elementRuns children) := by
  induction children with
  | nil => exact .nil
  | cons c cs ih =>
    cases c with
    | text diffs =>
      simp only [runs, Node.runs, directRuns, elementRuns, List.flatMap_cons, List.nil_append,
        List.append_assoc]
      exact ih.append_left _
    | element tag attrs children =>
      simp only [runs, Node.runs, directRuns, elementRuns, List.flatMap_cons, List.nil_append]
      exact (ih.append_left _).trans (List.perm_append_comm_assoc _ _ _)
    | fragment content =>
      simp only [runs, Node.runs, directRuns, elementRuns, List.flatMap_cons, List.nil_append]
      exact ih

mutual

lemma Node.printed_lost : ∀ (c : Node), c.BareLeaves →
    (match c with
      | .element _ _ children => runs children
      | _ => []).Perm (c.printed ++ c.lost)
  | .element tag attrs children, bare => by
    rw [Node.BareLeaves] at bare
    rw [Node.printed, Node.lost]
    cases hmode : modeOf ⟨tag, attrs, children⟩ with
    | inline => simp
    | code => exact runs_perm children
    | container =>
      have inside := printed_lost children bare.2
      simp only [List.append_assoc]
      exact (runs_perm children).trans (inside.append_left _)
    | leaf =>
      simp [bare.1 (mem_leafTags hmode)]
  | .text diffs, _ => by simp [Node.printed, Node.lost]
  | .fragment content, _ => by simp [Node.printed, Node.lost]

lemma printed_lost : ∀ (cs : List Node), BareLeaves cs →
    (elementRuns cs).Perm (printed cs ++ lost cs)
  | [], _ => by simp [elementRuns, printed, lost]
  | c :: cs, bare => by
    rw [BareLeaves] at bare
    have first := Node.printed_lost c bare.1
    have rest := printed_lost cs bare.2
    rw [printed, lost, elementRuns, List.flatMap_cons]
    refine (first.append rest).trans ?_
    simp only [List.append_assoc]
    refine List.Perm.append_left _ ?_
    rw [← List.append_assoc, ← List.append_assoc]
    exact List.perm_append_comm.append_right _

end

/-! ## What is printed -/

section

variable {json : Json}

lemma texts_enter {w : Wrapper} {ts children rest : List Tree}
    (h : enter w ts = some (children, rest)) :
    Html.texts ts = Html.texts children ++ Html.texts rest := by
  unfold enter at h
  split at h
  · next tag attrs children' rest' =>
    split at h
    · obtain ⟨rfl, rfl⟩ : children' = children ∧ rest' = rest := by simpa using h
      simp
    · simp at h
  · simp at h

lemma texts_wrapRun (ws : List Wrapper) (s : String) (ts : List Tree) :
    Html.texts (wrapRun ws (.text s) ts) = s :: Html.texts ts := by
  induction ws generalizing ts with
  | nil => simp [wrapRun, Html.Tree.texts]
  | cons w ws ih =>
    rw [wrapRun]
    cases h : enter w ts with
    | none => simp [Wrapper.tree, ih]
    | some parts =>
      obtain ⟨children, rest⟩ := parts
      simp [Wrapper.tree, ih, texts_enter h]

lemma texts_runsForest (rules : Rules) (diffs : List TextDiff) :
    Html.texts (runsForest rules diffs) = diffRuns diffs := by
  induction diffs with
  | nil => simp [runsForest, diffRuns]
  | cons d diffs ih =>
    cases d with
    | embed => simpa [runsForest, diffRuns] using ih
    | run s marks =>
      rw [runsForest, texts_wrapRun, ih]
      simp [diffRuns]

lemma texts_strayForest (rules : Rules) (e : XmlElement) :
    Html.texts (strayForest rules e) = directRuns e.children := by
  obtain ⟨tag, attrs, children⟩ := e
  unfold strayForest directRuns
  induction children with
  | nil => simp
  | cons c cs ih =>
    simp only [List.flatMap_cons, Html.texts_append]
    rw [ih]
    cases c <;> simp [texts_runsForest]

mutual

lemma texts_nodeForest : ∀ (c : Node) (depth : ℕ), c.BareLeaves → c.InlineBelowCap depth →
    Html.texts (nodeForest json .empty depth c) = c.runs
  | .text diffs, depth, _, _ => by rw [nodeForest, Node.runs, texts_runsForest]
  | .element tag attrs children, depth, bare, below => by
    rw [Node.BareLeaves] at bare
    rw [Node.InlineBelowCap] at below
    have none : Rules.empty.nodes.get tag = none := rfl
    rw [nodeForest, Node.runs, none]
    dsimp only
    split_ifs with hbreak himage
    · have leaf : tag ∈ leafTags := by
        simp only [List.mem_cons, List.not_mem_nil, or_false] at hbreak
        rcases hbreak with rfl | rfl <;> decide
      simp [bare.1 leaf, Html.Tree.texts]
    · have leaf : tag ∈ leafTags := by
        rw [himage]
        decide
      simp [bare.1 leaf, Html.Tree.texts]
    · exact texts_nodesForest children (depth + 1) bare.2 below.2
    · exact absurd below.1 ‹_›
  | .fragment content, depth, _, _ => by rw [nodeForest, Node.runs, Html.texts_nil]

lemma texts_nodesForest : ∀ (cs : List Node) (depth : ℕ), BareLeaves cs →
    InlineBelowCap depth cs → Html.texts (nodesForest json .empty depth cs) = runs cs
  | [], depth, _, _ => by rw [nodesForest, runs, Html.texts_nil]
  | c :: cs, depth, bare, below => by
    rw [BareLeaves] at bare
    rw [InlineBelowCap] at below
    rw [nodesForest, runs, Html.texts_append, texts_nodeForest c depth bare.1 below.1,
      texts_nodesForest cs depth bare.2 below.2]

end

lemma toList_join (ss : List String) : (String.join ss).toList = ss.flatMap String.toList := by
  have fold : ∀ (ss : List String) (s : String),
      (ss.foldl (· ++ ·) s).toList = s.toList ++ ss.flatMap String.toList := by
    intro ss
    induction ss with
    | nil => simp
    | cons t ss ih =>
      intro s
      rw [List.foldl_cons, ih, String.toList_append, List.flatMap_cons, List.append_assoc]
  exact fold ss ""

lemma toList_codeText (e : XmlElement) :
    (codeText e).toList = (directRuns e.children).flatMap String.toList :=
  toList_join (directRuns e.children)

/-- The characters that a block prints, given those of its child elements. -/
lemma chars_blockTrees (e : XmlElement) (blocks : List Tree) (bare : BareLeaves e.children)
    (below : modeOf e = .inline → InlineBelowCap 0 e.children) :
    (Html.texts (blockTrees json .empty e blocks)).flatMap String.toList =
      match modeOf e with
      | .inline => (runs e.children).flatMap String.toList
      | .code => (directRuns e.children).flatMap String.toList
      | .container =>
        (directRuns e.children).flatMap String.toList ++
          (Html.texts blocks).flatMap String.toList
      | .leaf => [] := by
  have none : Rules.empty.nodes.get e.tag = none := rfl
  have inline (h : modeOf e = .inline) :
      Html.texts (inlineForest json .empty e) = runs e.children :=
    texts_nodesForest e.children 0 bare (below h)
  unfold blockTrees
  rw [none]
  dsimp only
  cases hb : builtinOf e.tag with
  | some b =>
    cases b
    case paragraph =>
      have mode : modeOf e = .inline := by simp [modeOf, hb]
      simp [mode, inline mode]
    case heading =>
      have mode : modeOf e = .inline := by simp [modeOf, hb]
      simp [mode, inline mode]
    case codeBlock => simp [modeOf, hb, Html.Tree.texts, toList_codeText]
    all_goals simp [modeOf, hb, texts_strayForest, Html.Tree.texts]
  | none =>
    by_cases hc : hasElementChild e = true
    · simp [modeOf, hb, hc, texts_strayForest]
    · have mode : modeOf e = .inline := by simp [modeOf, hb, hc]
      have nonempty : ∀ t ∈ inlineForest json .empty e, t.pieces ≠ [] :=
        nodesForest_pieces_ne_nil e.children 0
      simp only [mode, if_neg hc, paragraphForest, Html.pieces_isEmpty nonempty]
      split_ifs with hempty
      · rw [← inline mode, List.isEmpty_iff.mp hempty]
      · simp [inline mode]

mutual

lemma chars_blockNodeForest : ∀ (c : Node) (depth : ℕ), c.BareLeaves → c.BelowCap depth →
    (Html.texts (blockNodeForest json .empty depth c)).flatMap String.toList =
      c.printed.flatMap String.toList
  | .element tag attrs children, depth, bare, below => by
    rw [Node.BareLeaves] at bare
    rw [Node.BelowCap] at below
    have inline : modeOf ⟨tag, attrs, children⟩ = .inline → InlineBelowCap 0 children := by
      intro mode
      simpa [mode] using below.2
    rw [blockNodeForest, if_pos below.1, chars_blockTrees _ _ bare.2 inline, Node.printed]
    cases hmode : modeOf ⟨tag, attrs, children⟩ with
    | container =>
      have inside := chars_blockNodesForest children (depth + 1) bare.2 (by
        simpa [hmode] using below.2)
      simp [inside]
    | inline => rfl
    | code => rfl
    | leaf => rfl
  | .text diffs, depth, _, _ => by simp [blockNodeForest, Node.printed]
  | .fragment content, depth, _, _ => by simp [blockNodeForest, Node.printed]

lemma chars_blockNodesForest : ∀ (cs : List Node) (depth : ℕ), BareLeaves cs →
    BelowCap depth cs →
    (Html.texts (blockNodesForest json .empty depth cs)).flatMap String.toList =
      (printed cs).flatMap String.toList
  | [], depth, _, _ => by simp [blockNodesForest, printed]
  | c :: cs, depth, bare, below => by
    rw [BareLeaves] at bare
    rw [BelowCap] at below
    rw [blockNodesForest, printed, Html.texts_append, List.flatMap_append, List.flatMap_append,
      chars_blockNodeForest c depth bare.1 below.1, chars_blockNodesForest cs depth bare.2 below.2]

end

end

/-! ## Documents -/

/-- The runs of a node of the root.  A nested fragment stands for its text. -/
def rootRuns : Node → List String
  | .fragment content => [content]
  | node => node.runs

def rootPrinted : Node → List String
  | .element tag attrs children => Node.printed (.element tag attrs children)
  | node => rootRuns node

/-- The texts of all runs of a document. -/
def documentRuns (root : List Node) : List String := root.flatMap rootRuns

/-- No run stands in an element of a code block. -/
def TextKept (root : List Node) : Prop := lost root = []

lemma rootRuns_perm {c : Node} (bare : c.BareLeaves) :
    (rootRuns c).Perm (rootPrinted c ++ c.lost) := by
  cases c with
  | element tag attrs children =>
    have parts := Node.printed_lost (.element tag attrs children) bare
    simpa only [rootRuns, rootPrinted, Node.runs] using parts
  | text diffs => simp [rootRuns, rootPrinted, Node.lost]
  | fragment content => simp [rootRuns, rootPrinted, Node.lost]

lemma documentRuns_perm {root : List Node} (bare : BareLeaves root) :
    (documentRuns root).Perm (root.flatMap rootPrinted ++ lost root) := by
  induction root with
  | nil => simp [documentRuns, lost]
  | cons c cs ih =>
    rw [BareLeaves] at bare
    have first := rootRuns_perm bare.1
    have rest := ih bare.2
    rw [lost, List.flatMap_cons]
    refine (first.append rest).trans ?_
    simp only [List.append_assoc]
    exact List.Perm.append_left _ (List.perm_append_comm_assoc _ _ _)

lemma chars_forest (json : Json) {root : List Node} (bare : BareLeaves root)
    (below : BelowCap 0 root) :
    (Html.texts (forest json .empty root)).flatMap String.toList =
      (root.flatMap rootPrinted).flatMap String.toList := by
  induction root with
  | nil => simp [forest]
  | cons c cs ih =>
    rw [BareLeaves] at bare
    rw [BelowCap] at below
    have rest := ih bare.2 below.2
    unfold forest at rest ⊢
    rw [List.flatMap_cons, List.flatMap_cons, Html.texts_append, List.flatMap_append,
      List.flatMap_append, rest]
    congr 1
    cases c with
    | element tag attrs children => exact chars_blockNodeForest _ 0 bare.1 below.1
    | text diffs => simp [rootForest, rootPrinted, rootRuns, Node.runs, texts_runsForest]
    | fragment content => simp [rootForest, rootPrinted, rootRuns, Html.Tree.texts]

mutual

lemma Node.runs_ne_empty : ∀ (c : Node), ∀ s ∈ c.runs, s ≠ ""
  | .text diffs, s, hs => by
    rw [Node.runs, diffRuns, List.mem_filterMap] at hs
    obtain ⟨d, -, hd⟩ := hs
    cases d with
    | run r marks => exact (Option.some.inj hd) ▸ r.nonempty
    | embed => simp at hd
  | .element tag attrs children, s, hs => by
    rw [Node.runs] at hs
    exact runs_ne_empty children s hs
  | .fragment content, s, hs => by simp [Node.runs] at hs

lemma runs_ne_empty : ∀ (cs : List Node), ∀ s ∈ runs cs, s ≠ ""
  | [], s, hs => by simp [runs] at hs
  | c :: cs, s, hs => by
    rw [runs, List.mem_append] at hs
    rcases hs with first | rest
    · exact Node.runs_ne_empty c s first
    · exact runs_ne_empty cs s rest

end

mutual

lemma Node.lost_subset : ∀ (c : Node), c.lost ⊆ c.runs
  | .text diffs => by simp [Node.lost]
  | .element tag attrs children => by
    rw [Node.lost, Node.runs]
    split
    · exact fun s hs => (runs_perm children).mem_iff.mpr (List.mem_append_right _ hs)
    · exact lost_subset children
    · simp
    · simp
  | .fragment content => by simp [Node.lost]

lemma lost_subset : ∀ cs : List Node, lost cs ⊆ runs cs
  | [] => by simp [lost]
  | c :: cs => by
    rw [lost, runs]
    exact List.append_subset.mpr
      ⟨List.Subset.trans (Node.lost_subset c) (List.subset_append_left _ _),
        List.Subset.trans (lost_subset cs) (List.subset_append_right _ _)⟩

end

/-- Rendered without rules, a document below the depth cap whose leaves hold no text keeps all its
text, each run once, exactly when no run stands in an element of a code block. -/
theorem runs_once_iff (json : Json) (root : List Node) (shaped : isProsemirrorShaped root = true)
    (bare : BareLeaves root) (below : BelowCap 0 root) :
    ∃ toks, readBack (renderSegments json .empty root) = some toks ∧
      (LexicalHtml.TextOnce toks (documentRuns root) ↔ TextKept root) := by
  refine ⟨_, readBack_renderSegments named_empty shaped, ?_⟩
  have printed := chars_forest json bare below
  have all := documentRuns_perm bare
  constructor
  · rintro ⟨parts, text, once⟩
    have chars := (once.trans all).flatMap_right String.toList
    rw [← text, Html.text_tokens, printed, List.flatMap_append] at chars
    have none : (lost root).flatMap String.toList = [] := by
      have lengths := chars.length_eq
      rw [List.length_append] at lengths
      exact List.length_eq_zero_iff.mp (by omega)
    by_contra some
    obtain ⟨s, hs⟩ := List.exists_mem_of_ne_nil _ some
    have empty : s.toList = [] := List.flatMap_eq_nil_iff.mp none s hs
    exact runs_ne_empty root s (lost_subset root hs) (String.toList_eq_nil_iff.mp empty)
  · intro kept
    refine ⟨root.flatMap rootPrinted, by rw [Html.text_tokens, printed], ?_⟩
    rw [show lost root = [] from kept, List.append_nil] at all
    exact all.symm

lemma x_ne_empty : "x" ≠ "" := by decide

/-- A mention inside a paragraph, after a code block. -/
def mentionAfterCode : List Node :=
  [.element "codeBlock" [] [.text [.run ⟨"x", x_ne_empty⟩ none]],
    .element "paragraph" []
      [.element "mention" [] [.text [.run ⟨"a", LexicalHtml.a_ne_empty⟩ none]]]]

theorem runs_once_iff_mention :
    ∃ toks, readBack (renderSegments ⟨id, fun _ => ""⟩ .empty mentionAfterCode) = some toks ∧
      (LexicalHtml.TextOnce toks (documentRuns mentionAfterCode) ↔ TextKept mentionAfterCode) := by
  apply runs_once_iff _ _ rfl
  · exact ⟨⟨fun h => absurd h (by decide), trivial, trivial⟩,
      ⟨fun h => absurd h (by decide), ⟨fun h => absurd h (by decide), trivial, trivial⟩, trivial⟩,
      trivial⟩
  · exact ⟨⟨by decide, trivial⟩, ⟨by decide, ⟨by decide, trivial, trivial⟩, trivial⟩, trivial⟩

/-- A mention inside a code block. -/
def mentionInCode : List Node :=
  [.element "codeBlock" []
    [.element "mention" [] [.text [.run ⟨"a", LexicalHtml.a_ne_empty⟩ none]]]]

/-- The text of an element inside a code block is lost. -/
theorem mentionInCode_lost :
    isProsemirrorShaped mentionInCode = true ∧ BareLeaves mentionInCode ∧
      BelowCap 0 mentionInCode ∧
      ¬ ∃ toks, readBack (renderSegments ⟨id, fun _ => ""⟩ .empty mentionInCode) = some toks ∧
        LexicalHtml.TextOnce toks (documentRuns mentionInCode) := by
  refine ⟨rfl, ?_, ⟨⟨by decide, trivial⟩, trivial⟩, ?_⟩
  · exact ⟨⟨fun h => absurd h (by decide), ⟨fun h => absurd h (by decide), trivial, trivial⟩,
      trivial⟩, trivial⟩
  · rintro ⟨toks, back, once⟩
    rw [readBack_renderSegments named_empty rfl, Option.some.injEq] at back
    have silent : Html.text toks = [] := by
      rw [← back]
      rfl
    have held : "a" ∈ documentRuns mentionInCode := by decide
    exact LexicalHtml.not_textOnce silent held LexicalHtml.a_ne_empty once

end ProseMirrorHtml

end Yrby
