import Yrby.Render.ProseMirrorHtml

/-!
# The markup of a ProseMirror document

The markup trees the ProseMirror renderer stands for, by recursion on the document, and that the
renderer prints exactly these trees (`renderSegments_eq`).

The runs of a text become trees by `wrapRun`, which puts a run in front of a forest: as long as its
outermost wrapper prints as the first tree does, the run goes inside that tree.  The renderer works
from the other side, keeping wrappers open from one run to the next; `resume` is what a forest
still prints when some wrappers are open already.
-/

namespace Yrby

namespace ProseMirrorHtml

open HtmlCore Emitter

/-! ## Wrappers -/

/-- A mark's tag with its attribute slots. -/
structure Wrapper where
  tag : String
  attrs : List Html.Attr
  deriving DecidableEq

/-- The opening and the closing tag. -/
def Wrapper.print (w : Wrapper) : String × String :=
  (.ofList (Html.openTag w.tag w.attrs), .ofList (Html.closeTag w.tag))

/-- One attribute slot of a link mark. -/
def linkSlot (key : String) (value : Option Value) : List Html.Attr :=
  match stringOf value with
  | some v => [⟨key, if unsafeHref key v then "" else v, false⟩]
  | none => []

/-- The attribute slots of a link mark. -/
def linkAttrs (link : Dict Value) : List Html.Attr :=
  linkKeys.flatMap fun key => linkSlot key (link.get key)

/-- The span of a textStyle mark. -/
def styleWrappers (value : Option Value) : List Wrapper :=
  match mapOf value with
  | some style =>
    if (textStyleCss style).isEmpty then []
    else [⟨"span", [⟨"style", textStyleCss style, false⟩]⟩]
  | none => []

/-- The formatting wrappers of a run, innermost first. -/
def formatWrappers (rules : Rules) (marks : Dict Value) : List Wrapper :=
  if has rules marks ["code"] then [⟨"code", []⟩]
  else if !marks.containsKey "code" then
    (if has rules marks ["subscript", "sub"] then [⟨"sub", []⟩]
      else if has rules marks ["superscript", "sup"] then [⟨"sup", []⟩] else []) ++
    (if has rules marks ["highlight"] then [⟨"mark", []⟩] else []) ++
    (if has rules marks ["underline", "u"] then [⟨"u", []⟩] else []) ++
    (if has rules marks ["strike", "s"] then [⟨"s", []⟩] else []) ++
    (if has rules marks ["italic", "em"] then [⟨"em", []⟩] else []) ++
    (if has rules marks ["bold", "strong"] then [⟨"strong", []⟩] else []) ++
    (if rules.marks.containsKey "textStyle" then [] else styleWrappers (marks.get "textStyle"))
  else []

def linkWrappers (rules : Rules) (value : Option Value) : List Wrapper :=
  if rules.marks.containsKey "link" then []
  else
    match mapOf value with
    | some link => [⟨"a", linkAttrs link⟩]
    | none => []

def customWrappers (rules : Rules) (marks : Dict Value) : List Wrapper :=
  (customNames rules marks).filterMap fun name =>
    (rules.marks.get name).map fun rule =>
      ⟨rule.tag, ruleAttrs (markRefAttr (marks.get name)) rule.attrs⟩

/-- A run's wrappers, outermost first. -/
def runWrappers (rules : Rules) : Option (Dict Value) → List Wrapper
  | none => []
  | some marks =>
    (formatWrappers rules marks ++ linkWrappers rules (marks.get "link") ++
      customWrappers rules marks).reverse

/-- Two strings with the same characters. -/
lemma Wrapper.print_eq {w : Wrapper} {opening closing : String}
    (hopen : opening.toList = Html.openTag w.tag w.attrs)
    (hclose : closing.toList = Html.closeTag w.tag) : (opening, closing) = w.print := by
  rw [Wrapper.print, ← hopen, ← hclose, String.ofList_toList, String.ofList_toList]

lemma tagPair_eq (t : String) : tagPair t = Wrapper.print ⟨t, []⟩ := by
  apply Wrapper.print_eq
  · simp [Html.openTag]
  · simp [Html.closeTag]

lemma styleStack_eq (value : Option Value) :
    styleStack value = (styleWrappers value).map Wrapper.print := by
  unfold styleStack styleWrappers
  cases mapOf value with
  | none => rfl
  | some style =>
    by_cases empty : (textStyleCss style).isEmpty = true
    · simp [empty]
    · simp only [empty, Bool.false_eq_true, if_false, List.map_singleton, List.singleton_inj]
      apply Wrapper.print_eq
      · simp [Html.openTag, Html.Attr.print, Html.Attr.present, toList_escapeAttr]
      · simp [Html.closeTag]

lemma formatStack_eq (rules : Rules) (marks : Dict Value) :
    formatStack rules marks = (formatWrappers rules marks).map Wrapper.print := by
  have one : ∀ (p : Bool) (t : String),
      (if p then [tagPair t] else []) = (if p then [⟨t, []⟩] else []).map Wrapper.print := by
    intro p t
    cases p with
    | true => simp [tagPair_eq]
    | false => rfl
  have script : (if has rules marks ["subscript", "sub"] then [tagPair "sub"]
      else if has rules marks ["superscript", "sup"] then [tagPair "sup"] else []) =
      (if has rules marks ["subscript", "sub"] then [⟨"sub", []⟩]
        else if has rules marks ["superscript", "sup"] then [⟨"sup", []⟩] else []).map
        Wrapper.print := by
    split
    · simp [tagPair_eq]
    · exact one _ _
  have style : (if rules.marks.containsKey "textStyle" then []
      else styleStack (marks.get "textStyle")) =
      (if rules.marks.containsKey "textStyle" then []
        else styleWrappers (marks.get "textStyle")).map Wrapper.print := by
    split
    · rfl
    · exact styleStack_eq _
  unfold formatStack formatWrappers
  split
  · simp [tagPair_eq]
  · split
    · rw [script, style]
      simp only [List.map_append, one]
    · rfl

lemma linkStack_eq (rules : Rules) (value : Option Value) :
    linkStack rules value = (linkWrappers rules value).map Wrapper.print := by
  have slot : ∀ (key : String) (v : Option Value),
      (linkAttr key v).toList = (linkSlot key v).flatMap Html.Attr.print := by
    intro key v
    unfold linkAttr linkSlot
    cases stringOf v with
    | some s => simp [Html.Attr.print, Html.Attr.present, toList_escapeAttr]
    | none => rfl
  unfold linkStack linkWrappers
  split
  · rfl
  · cases mapOf value with
    | none => rfl
    | some link =>
      rw [List.map_singleton, List.singleton_inj]
      apply Wrapper.print_eq
      · simp [linkOpen, Html.openTag, linkAttrs, List.flatMap_map, List.flatMap_assoc, slot]
      · simp [Html.closeTag]

lemma customStack_eq (rules : Rules) (marks : Dict Value) :
    customStack rules marks = (customWrappers rules marks).map Wrapper.print := by
  have slot : ∀ (attr : String) (parts : List AttrPart) (value : Option Value),
      (customAttr attr (resolveParts parts (markRefAttr value))).toList =
        (optionalAttr attr (resolveParts parts (markRefAttr value))).print := by
    intro attr parts value
    cases h : resolveParts parts (markRefAttr value) with
    | none => simp [customAttr, optionalAttr, Html.Attr.print, Html.Attr.present]
    | some v =>
      have full : v ≠ "" := resolveParts_ne_empty h
      simp [customAttr, optionalAttr, Html.Attr.print, Html.Attr.present, toList_escapeAttr, full]
  unfold customStack customWrappers
  rw [List.map_filterMap]
  congr 1
  funext name
  cases rules.marks.get name with
  | none => rfl
  | some rule =>
    rw [Option.map_some, Option.map_some, Option.map_some, Option.some_inj]
    apply Wrapper.print_eq
    · simp [customMarkOpen, Html.openTag, ruleAttrs, List.flatMap_map, slot]
    · simp [Html.closeTag]

/-- The strings the renderer compares and pushes are the prints of the wrappers. -/
lemma runStack_eq (rules : Rules) (marks : Option (Dict Value)) :
    runStack rules marks = (runWrappers rules marks).map Wrapper.print := by
  cases marks with
  | none => rfl
  | some marks => simp [runStack, runWrappers, formatStack_eq, linkStack_eq, customStack_eq]

/-! ## Runs -/

def Wrapper.tree (w : Wrapper) (children : List Tree) : Tree := .elem w.tag w.attrs children

/-- The content of the first tree and what follows it, when that tree prints as `w`. -/
def enter (w : Wrapper) : List Tree → Option (List Tree × List Tree)
  | .elem tag attrs children :: rest =>
    if Wrapper.print ⟨tag, attrs⟩ = w.print then some (children, rest) else none
  | _ => none

/-- Put a run in front of a forest, inside what its wrappers share with the first trees. -/
def wrapRun : List Wrapper → Tree → List Tree → List Tree
  | [], t, ts => t :: ts
  | w :: ws, t, ts =>
    match enter w ts with
    | some (children, rest) => w.tree (wrapRun ws t children) :: rest
    | none => w.tree (wrapRun ws t []) :: ts

/-- The trees of a text's runs. -/
def runsForest (rules : Rules) : List TextDiff → List Tree
  | [] => []
  | .embed :: diffs => runsForest rules diffs
  | .run s marks :: diffs =>
    wrapRun (runWrappers rules marks) (.text s.text) (runsForest rules diffs)

/-- What a forest still prints when these wrappers are open. -/
def resume : List Wrapper → List Tree → List HtmlCore.Piece
  | [], ts => Html.pieces ts
  | w :: ws, ts =>
    match enter w ts with
    | some (children, rest) => resume ws children ++ Html.chars w.print.2 ++ Html.pieces rest
    | none => resume ws [] ++ Html.chars w.print.2 ++ Html.pieces ts

def opens (ws : List Wrapper) : List HtmlCore.Piece := ws.flatMap fun w => Html.chars w.print.1

def closes (ws : List Wrapper) : List HtmlCore.Piece :=
  ws.reverse.flatMap fun w => Html.chars w.print.2

@[simp] lemma opens_cons (w : Wrapper) (ws : List Wrapper) :
    opens (w :: ws) = Html.chars w.print.1 ++ opens ws := rfl

@[simp] lemma closes_cons (w : Wrapper) (ws : List Wrapper) :
    closes (w :: ws) = closes ws ++ Html.chars w.print.2 := by
  simp [closes]

lemma Wrapper.pieces_tree (w : Wrapper) (children : List Tree) :
    (w.tree children).pieces =
      Html.chars w.print.1 ++ Html.pieces children ++ Html.chars w.print.2 := by
  simp [Wrapper.tree, Html.Tree.pieces, Html.chars, Wrapper.print]

lemma enter_tree (w v : Wrapper) (children rest : List Tree) :
    enter w (v.tree children :: rest) =
      if v.print = w.print then some (children, rest) else none := rfl

lemma resume_nil (ws : List Wrapper) : resume ws [] = closes ws := by
  induction ws with
  | nil => simp [resume, closes]
  | cons w ws ih => simp [resume, enter, ih]

/-- A run in front of a forest prints its wrappers, its text, and what the forest still prints
inside them. -/
lemma pieces_wrapRun (ws : List Wrapper) (t : Tree) (ts : List Tree) :
    Html.pieces (wrapRun ws t ts) = opens ws ++ t.pieces ++ resume ws ts := by
  induction ws generalizing ts with
  | nil => simp [wrapRun, resume, opens]
  | cons w ws ih =>
    rw [wrapRun, resume]
    cases enter w ts with
    | some inside => simp [Wrapper.pieces_tree, ih]
    | none => simp [Wrapper.pieces_tree, ih]

lemma shared_cons (p q : String × String) (ps qs : List (String × String)) :
    shared (p :: ps) (q :: qs) = if p = q then shared ps qs + 1 else 0 := by
  by_cases same : p = q
  · simp [shared, same]
  · simp [shared, same]

/-- Continuing in open wrappers with a run in front: the wrappers it does not share are closed, its
own are opened. -/
lemma resume_wrapRun (os ws : List Wrapper) (s : String) (ts : List Tree) :
    resume os (wrapRun ws (.text s) ts) =
      closes (os.drop (shared (os.map Wrapper.print) (ws.map Wrapper.print))) ++
        opens (ws.drop (shared (os.map Wrapper.print) (ws.map Wrapper.print))) ++
        Html.Tree.pieces (.text s) ++ resume ws ts := by
  induction os generalizing ws ts with
  | nil => simp [resume, shared, closes, pieces_wrapRun]
  | cons o os ih =>
    cases ws with
    | nil =>
      have outside : enter o (.text s :: ts) = none := rfl
      simp [wrapRun, resume, outside, resume_nil, shared, opens]
    | cons w ws =>
      rw [List.map_cons, List.map_cons, shared_cons]
      by_cases same : o.print = w.print
      · have tail : ∀ inside rest : List Tree,
            resume (o :: os) (w.tree (wrapRun ws (.text s) inside) :: rest) =
              resume os (wrapRun ws (.text s) inside) ++ Html.chars w.print.2 ++
                Html.pieces rest := by
          intro inside rest
          rw [resume, enter_tree, if_pos same.symm, same]
        rw [if_pos same]
        cases entered : enter w ts with
        | some inside =>
          have front : wrapRun (w :: ws) (.text s) ts =
              w.tree (wrapRun ws (.text s) inside.1) :: inside.2 := by rw [wrapRun, entered]
          have behind : resume (w :: ws) ts =
              resume ws inside.1 ++ Html.chars w.print.2 ++ Html.pieces inside.2 := by
            rw [resume, entered]
          rw [front, behind, tail, ih]
          simp
        | none =>
          have front : wrapRun (w :: ws) (.text s) ts = w.tree (wrapRun ws (.text s) []) :: ts := by
            rw [wrapRun, entered]
          have behind : resume (w :: ws) ts =
              resume ws [] ++ Html.chars w.print.2 ++ Html.pieces ts := by rw [resume, entered]
          rw [front, behind, tail, ih]
          simp
      · have apart : ∀ inside rest : List Tree,
            resume (o :: os) (w.tree inside :: rest) =
              closes (o :: os) ++ Html.pieces (w.tree inside :: rest) := by
          intro inside rest
          rw [resume, enter_tree, if_neg (Ne.symm same), resume_nil, closes_cons]
        have front : resume (o :: os) (wrapRun (w :: ws) (.text s) ts) =
            closes (o :: os) ++ Html.pieces (wrapRun (w :: ws) (.text s) ts) := by
          rw [wrapRun]
          cases enter w ts with
          | some inside => exact apart _ _
          | none => exact apart _ _
        rw [front, pieces_wrapRun, if_neg same]
        simp

lemma yields_pushOpens (ws : List Wrapper) :
    Yields (pushOpens (ws.map Wrapper.print)) () (opens ws) := by
  have all := Yields.forM (ws.map Wrapper.print) fun w _ => Yields.pushStr w.1
  exact all.congr (by simp [opens, List.flatMap_map])

lemma yields_pushCloses (ws : List Wrapper) :
    Yields (pushCloses (ws.map Wrapper.print)) () (closes ws) := by
  have all := Yields.forM (ws.map Wrapper.print).reverse fun w _ => Yields.pushStr w.2
  apply all.congr
  rw [← List.map_reverse, List.flatMap_map]
  rfl

/-- With wrappers open, the renderer prints what the forest of the remaining runs still prints. -/
lemma yields_renderRuns (rules : Rules) (diffs : List TextDiff) (ws : List Wrapper) :
    Yields (renderRuns rules (ws.map Wrapper.print) diffs) ()
      (resume ws (runsForest rules diffs)) := by
  induction diffs generalizing ws with
  | nil =>
    rw [renderRuns, runsForest, resume_nil]
    exact yields_pushCloses ws
  | cons d diffs ih =>
    cases d with
    | embed => exact ih ws
    | run s marks =>
      have rest := ih (runWrappers rules marks)
      rw [renderRuns, runsForest, resume_wrapRun, runStack_eq, ← List.map_drop, ← List.map_drop]
      apply ((yields_pushCloses _).seq ((yields_pushOpens _).seq
        ((Yields.pushStr (escapeText s.text)).seq rest))).congr
      simp [chars_escapeText]

lemma yields_renderTextRuns (rules : Rules) (diffs : List TextDiff) :
    Yields (renderTextRuns rules diffs) () (Html.pieces (runsForest rules diffs)) :=
  yields_renderRuns rules diffs []

/-! ## Inline content -/

variable (json : Json) (rules : Rules)

def imageAttrs (attrs : Attrs) : List Html.Attr :=
  ["src", "alt", "title"].flatMap fun name =>
    match strAttr attrs name with
    | some v => [⟨name, v, false⟩]
    | none => []

/-- The tree of a rule node in inline position. -/
def ruleInlineTree (e : XmlElement) (rule : NodeRule) (depth : ℕ) (body : List Tree) : Tree :=
  ruleTree (xmlRefAttr e.attrs) (deferredElement json e)
    (fun content => if content ≠ .none ∧ depth < maxDepth then body else []) rule

mutual

/-- The trees of a child of a text block. -/
def nodeForest (depth : ℕ) : Node → List Tree
  | .text diffs => runsForest rules diffs
  | .element tag attrs children =>
    match rules.nodes.get tag with
    | some rule =>
      [ruleInlineTree json ⟨tag, attrs, children⟩ rule depth (nodesForest (depth + 1) children)]
    | none =>
      if tag ∈ ["hardBreak", "hard_break"] then [.void "br" []]
      else if tag = "image" then [.void "img" (imageAttrs attrs)]
      else if depth < maxDepth then nodesForest (depth + 1) children
      else []
  | .fragment _ => []

def nodesForest (depth : ℕ) : List Node → List Tree
  | [] => []
  | c :: cs => nodeForest depth c ++ nodesForest depth cs

end

/-- The trees of a text block's content. -/
def inlineForest (e : XmlElement) : List Tree := nodesForest json rules 0 e.children

/-- The trees of the text runs directly in a container. -/
def strayForest (e : XmlElement) : List Tree :=
  e.children.flatMap fun c =>
    match c with
    | .text diffs => runsForest rules diffs
    | _ => []

variable {json rules}

lemma yields_renderImage (attrs : Attrs) :
    Yields (renderImage attrs) () (Html.Tree.pieces (.void "img" (imageAttrs attrs))) := by
  have slots : Yields
      (["src", "alt", "title"].forM fun name =>
        match strAttr attrs name with
        | some v => pushAttr name v
        | none => pure ()) ⟨⟩
      (["src", "alt", "title"].flatMap fun name =>
        (List.flatMap Html.Attr.print (match strAttr attrs name with
          | some v => [⟨name, v, false⟩]
          | none => [])).map .char) := by
    apply Yields.forM
    intro name _
    cases strAttr attrs name with
    | some v => exact (Yields.pushAttr name v).congr (by simp)
    | none => exact Yields.pure ()
  apply ((Yields.pushStr "<img").seq (slots.seq (Yields.push '>'))).congr
  simp [Html.Tree.pieces, Html.openTag, Html.chars, imageAttrs]

lemma yields_renderRuleInline {e : XmlElement} {rule : NodeRule} {depth : ℕ} {body : Render Unit}
    {trees : List Tree} (hbody : Yields body () (Html.pieces trees)) :
    Yields (renderRuleInline json e rule depth body) ()
      (ruleInlineTree json e rule depth trees).pieces := by
  have inside : ∀ content : Content,
      Yields (if content ≠ .none ∧ depth < maxDepth then body else pure ()) ()
        (Html.pieces (if content ≠ .none ∧ depth < maxDepth then trees else [])) := by
    intro content
    split
    · exact hbody
    · exact Yields.pure ()
  exact Yields.renderRuleNode (xmlRefAttr e.attrs) (deferredElement json e) rule inside

mutual

/-- Inline rendering prints the inline trees: one node. -/
lemma yields_renderNode : ∀ (c : Node) (depth : ℕ),
    Yields (renderNode json rules depth c) () (Html.pieces (nodeForest json rules depth c))
  | .text diffs, depth => by
    rw [renderNode, nodeForest]
    exact yields_renderTextRuns rules diffs
  | .element tag attrs children, depth => by
    have body := yields_renderNodes children (depth + 1)
    rw [renderNode, nodeForest]
    cases rules.nodes.get tag with
    | some rule => exact (yields_renderRuleInline body).congr (by simp)
    | none =>
      dsimp only
      split
      · exact (Yields.pushStr "<br>").congr (by simp [Html.Tree.pieces, Html.openTag, Html.chars])
      · split
        · exact (yields_renderImage attrs).congr (by simp)
        · split
          · exact body
          · exact Yields.pure ()
  | .fragment content, depth => by
    rw [renderNode, nodeForest]
    exact Yields.pure ()

lemma yields_renderNodes : ∀ (cs : List Node) (depth : ℕ),
    Yields (renderNodes json rules depth cs) () (Html.pieces (nodesForest json rules depth cs))
  | [], depth => by
    rw [renderNodes, nodesForest]
    exact Yields.pure ()
  | c :: cs, depth => by
    have first := yields_renderNode c depth
    have rest := yields_renderNodes cs depth
    rw [renderNodes, nodesForest, Html.pieces_append]
    exact first.seq rest

end

variable (json rules) in
lemma yields_renderInline (e : XmlElement) :
    Yields (renderInline json rules e 0) () (Html.pieces (inlineForest json rules e)) :=
  yields_renderNodes e.children 0

variable (rules) in
lemma yields_renderStrayText (e : XmlElement) :
    Yields (renderStrayText rules e) () (Html.pieces (strayForest rules e)) := by
  have all : Yields (renderStrayText rules e) () (e.children.flatMap fun c =>
      Html.pieces (match c with
        | .text diffs => runsForest rules diffs
        | _ => [])) := by
    apply Yields.forM
    intro c _
    cases c with
    | text diffs => exact yields_renderTextRuns rules diffs
    | element tag attrs children => exact Yields.pure ()
    | fragment content => exact Yields.pure ()
  apply all.congr
  rw [strayForest, Html.pieces_flatMap]

/-! ## Blocks -/

variable (json rules)

def codeAttrs (e : XmlElement) : List Html.Attr :=
  [optionalAttr "class"
    (((strAttr e.attrs "language").filter fun l => !l.isEmpty).map fun l => "language-" ++ l)]

def orderedAttrs (e : XmlElement) : List Html.Attr :=
  match numAttr e.attrs "start" with
  | some start => if start ≠ 1 then [⟨"start", toString start, false⟩] else []
  | none => []

def cellAttrs (e : XmlElement) : List Html.Attr :=
  [⟨"colspan", toString ((numAttr e.attrs "colspan").getD 1), false⟩,
    ⟨"rowspan", toString ((numAttr e.attrs "rowspan").getD 1), false⟩]

/-- A heading's tag. -/
def headingTag (e : XmlElement) : String := "h" ++ String.singleton (headingDigit e)

/-- What the content slot of a rule block holds. -/
def contentForest (e : XmlElement) (blocks : List Tree) : Content → List Tree
  | .inline => inlineForest json rules e
  | .blocks => strayForest rules e ++ blocks
  | .none => []

/-- The trees of a block, given those of its child elements. -/
def blockTrees (e : XmlElement) (blocks : List Tree) : List Tree :=
  match rules.nodes.get e.tag with
  | some rule =>
    [ruleTree (xmlRefAttr e.attrs) (deferredElement json e) (contentForest json rules e blocks)
      rule]
  | none =>
    match builtinOf e.tag with
    | some .paragraph => [.elem "p" [] (inlineForest json rules e)]
    | some .heading => [.elem (headingTag e) [] (inlineForest json rules e)]
    | some .codeBlock => [.elem "pre" [] [.elem "code" (codeAttrs e) [.text (codeText e)]]]
    | some .blockquote => [.elem "blockquote" [] (strayForest rules e ++ blocks)]
    | some .bulletList => [.elem "ul" [] (strayForest rules e ++ blocks)]
    | some .orderedList => [.elem "ol" (orderedAttrs e) (strayForest rules e ++ blocks)]
    | some .listItem => [.elem "li" [] (strayForest rules e ++ blocks)]
    | some .table => [.elem "table" [] [.elem "tbody" [] (strayForest rules e ++ blocks)]]
    | some .tableRow => [.elem "tr" [] (strayForest rules e ++ blocks)]
    | some .tableHeader => [.elem "th" (cellAttrs e) (strayForest rules e ++ blocks)]
    | some .tableCell => [.elem "td" (cellAttrs e) (strayForest rules e ++ blocks)]
    | some .horizontalRule => [.void "hr" []]
    | some .image => [.void "img" (imageAttrs e.attrs)]
    | some .hardBreak => [.void "br" []]
    | none =>
      if hasElementChild e then strayForest rules e ++ blocks
      else paragraphForest (inlineForest json rules e) []

mutual

/-- The trees of a node in block position. -/
def blockNodeForest (depth : ℕ) : Node → List Tree
  | .element tag attrs children => blockTrees json rules ⟨tag, attrs, children⟩
      (if depth < maxDepth then blockNodesForest (depth + 1) children else [])
  | _ => []

def blockNodesForest (depth : ℕ) : List Node → List Tree
  | [] => []
  | c :: cs => blockNodeForest depth c ++ blockNodesForest depth cs

end

/-- The trees of a block's child elements. -/
def childForest (e : XmlElement) (depth : ℕ) : List Tree :=
  if depth < maxDepth then blockNodesForest json rules (depth + 1) e.children else []

/-- The trees of a block and everything under it. -/
def blockForest (e : XmlElement) (depth : ℕ) : List Tree :=
  blockTrees json rules e (childForest json rules e depth)

variable {json rules}

/-- The child elements, each with its own trees. -/
lemma blockNodesForest_eq (depth : ℕ) (tag : String) (attrs : Attrs) (children : List Node) :
    blockNodesForest json rules depth children =
      (elementChildren ⟨tag, attrs, children⟩).flatMap fun c => blockForest json rules c depth := by
  induction children with
  | nil => simp [blockNodesForest, elementChildren]
  | cons c cs ih =>
    rw [blockNodesForest, ih]
    cases c with
    | element tag' attrs' children' =>
      rw [blockNodeForest]
      simp only [elementChildren, List.filterMap_cons, List.flatMap_cons]
      rfl
    | text diffs => simp [blockNodeForest, elementChildren]
    | fragment content => simp [blockNodeForest, elementChildren]

lemma childForest_eq (e : XmlElement) (depth : ℕ) :
    childForest json rules e depth =
      (childBlocks e depth).flatMap fun c => blockForest json rules c (depth + 1) := by
  unfold childForest childBlocks
  split
  · exact blockNodesForest_eq (depth + 1) e.tag e.attrs e.children
  · rfl

lemma mem_childBlocks {e c : XmlElement} {depth : ℕ} (h : c ∈ childBlocks e depth) :
    c ∈ elementChildren e := by
  unfold childBlocks at h
  split at h
  · exact h
  · simp at h

/-- A container renders as its opening, its stray text, its child elements and its end tag. -/
lemma rendered_container {e : XmlElement} {depth : ℕ} {opening close : String} {x : Render Unit}
    (hopen : openBlock json rules e depth = do
      x
      pushBlockChildren rules e depth close)
    (hx : Yields x () (Html.chars opening))
    (hchildren : ∀ c ∈ elementChildren e, (walker json rules).Rendered c (depth + 1)
      (Html.pieces (blockForest json rules c (depth + 1)))) :
    (walker json rules).Rendered e depth (Html.chars opening ++
      Html.pieces (strayForest rules e ++ childForest json rules e depth) ++ Html.chars close) := by
  have hyields : Yields (openBlock json rules e depth)
      ((childBlocks e depth).map (.open · (depth + 1)) ++ [.close close])
      (Html.chars opening ++ Html.pieces (strayForest rules e)) := by
    rw [hopen]
    exact (hx.seq ((yields_renderStrayText rules e).seq (Yields.pure _))).congr (by simp)
  have whole := Walker.Rendered.container (w := walker json rules) hyields
    (fun c => Html.pieces (blockForest json rules c (depth + 1)))
    fun c hc => hchildren c (mem_childBlocks hc)
  apply whole.congr
  rw [childForest_eq, Html.pieces_append, Html.pieces_flatMap]
  simp

variable (json rules) in
/-- The inline part and the blocks of a content slot make up its trees. -/
lemma pieces_contentForest (e : XmlElement) (depth : ℕ) (content : Content) :
    ∃ pre : List HtmlCore.Piece, Yields (renderContent json rules e content) () pre ∧
      Html.pieces (contentForest json rules e (childForest json rules e depth) content) =
        pre ++ (contentBlocks e depth content).flatMap
          fun c => Html.pieces (blockForest json rules c (depth + 1)) := by
  cases content with
  | inline => exact ⟨_, yields_renderInline json rules e, by simp [contentForest, contentBlocks]⟩
  | none => exact ⟨[], Yields.pure (), by simp [contentForest, contentBlocks]⟩
  | blocks =>
    refine ⟨_, yields_renderStrayText rules e, ?_⟩
    rw [contentForest, Html.pieces_append, childForest_eq, Html.pieces_flatMap]
    simp [contentBlocks]

/-- A block with a rule renders its rule's tree. -/
lemma rendered_rule {e : XmlElement} {depth : ℕ} {rule : NodeRule}
    (hopen : openBlock json rules e depth = openRuleBlock json rules e rule depth)
    (hchildren : ∀ c ∈ elementChildren e, (walker json rules).Rendered c (depth + 1)
      (Html.pieces (blockForest json rules c (depth + 1)))) :
    (walker json rules).Rendered e depth
      (Html.Tree.pieces (ruleTree (xmlRefAttr e.attrs) (deferredElement json e)
        (contentForest json rules e (childForest json rules e depth)) rule)) := by
  apply Walker.Rendered.rule (w := walker json rules) hopen
  · intro content leaf
    simp [contentBlocks, leaf]
  · intro content c hc
    unfold contentBlocks at hc
    split at hc
    · exact hchildren c (mem_childBlocks hc)
    · simp at hc
  · exact pieces_contentForest json rules e depth

lemma yields_renderUnknownLeaf (e : XmlElement) :
    Yields (renderUnknownLeaf json rules e) ()
      (Html.pieces (paragraphForest (inlineForest json rules e) [])) :=
  Yields.paragraph (yields_renderInline json rules e) "" [] (by simp)

lemma yields_pushLanguage (e : XmlElement) :
    Yields (pushLanguage ((strAttr e.attrs "language").filter fun l => !l.isEmpty)) ()
      ((List.flatMap Html.Attr.print (codeAttrs e)).map .char) := by
  rw [codeAttrs]
  cases (strAttr e.attrs "language").filter fun l => !l.isEmpty with
  | none =>
    apply (Yields.pure ()).congr
    simp [optionalAttr, Html.Attr.print, Html.Attr.present]
  | some lang =>
    have plain : "language-".toList.flatMap Html.attrChar = "language-".toList := rfl
    apply ((Yields.pushStr " class=\"language-").seq ((Yields.pushStr (escapeAttr lang)).seq
      (Yields.push '"'))).congr
    simp only [optionalAttr, Option.map_some, Option.getD_some, List.flatMap_singleton,
      Html.Attr.print, Html.Attr.present, Html.chars, toList_escapeAttr, String.toList_append,
      List.flatMap_append, plain, List.append_assoc]
    simp

lemma chars_orderedOpen (e : XmlElement) :
    Html.chars (orderedOpen e) =
      (Html.openTag "ol" (orderedAttrs e)).map (Html.Piece.char (η := Deferred)) := by
  unfold orderedOpen orderedAttrs
  cases numAttr e.attrs "start" with
  | none => simp [Html.openTag, Html.chars]
  | some start =>
    by_cases one : start = 1
    · simp [one, Html.openTag, Html.chars]
    · simp [one, Html.openTag, Html.chars, Html.Attr.print, Html.Attr.present,
        flatMap_attrChar_repr]

lemma size_lt_of_mem {e c : XmlElement} (h : c ∈ elementChildren e) : c.size < e.size := by
  have total := weight_elementChildren e 0
  have each := size_le_weight XmlElement.size h 0
  omega

/-- The opening of a cell. -/
lemma yields_cellOpen (e : XmlElement) (tag : String) :
    Yields (do
        push '<'
        pushStr tag
        pushStr " colspan=\""
        pushStr (toString ((numAttr e.attrs "colspan").getD 1))
        pushStr "\" rowspan=\""
        pushStr (toString ((numAttr e.attrs "rowspan").getD 1))
        pushStr "\">") ()
      (Html.chars (.ofList (Html.openTag tag (cellAttrs e)))) := by
  apply ((Yields.push '<').seq ((Yields.pushStr tag).seq ((Yields.pushStr " colspan=\"").seq
    ((Yields.pushStr (toString ((numAttr e.attrs "colspan").getD 1))).seq
      ((Yields.pushStr "\" rowspan=\"").seq
        ((Yields.pushStr (toString ((numAttr e.attrs "rowspan").getD 1))).seq
          (Yields.pushStr "\">"))))))).congr
  simp [Html.chars, Html.openTag, cellAttrs, Html.Attr.print, Html.Attr.present,
    flatMap_attrChar_repr]

/-- The walk renders a block as its trees, whatever is under it on the stack and whatever the
emitter holds. -/
theorem rendered_block (e : XmlElement) (depth : ℕ) :
    (walker json rules).Rendered e depth (Html.pieces (blockForest json rules e depth)) := by
  have hchildren : ∀ c ∈ elementChildren e, (walker json rules).Rendered c (depth + 1)
      (Html.pieces (blockForest json rules c (depth + 1))) := by
    intro c hc
    have smaller := size_lt_of_mem hc
    exact rendered_block c (depth + 1)
  have container : ∀ {opening close : String} {x : Render Unit},
      openBlock json rules e depth = (do x; pushBlockChildren rules e depth close) →
        Yields x () (Html.chars opening) → (walker json rules).Rendered e depth
          (Html.chars opening ++
            Html.pieces (strayForest rules e ++ childForest json rules e depth) ++
            Html.chars close) :=
    fun hopen hx => rendered_container hopen hx hchildren
  have leaf : ∀ {pre : List HtmlCore.Piece}, Yields (openBlock json rules e depth) [] pre →
      (walker json rules).Rendered e depth pre :=
    fun hopen => Walker.Rendered.leaf (w := walker json rules) hopen
  have inline := yields_renderInline json rules e
  unfold blockForest blockTrees
  cases hrule : rules.nodes.get e.tag with
  | some rule =>
    have hopen : openBlock json rules e depth = openRuleBlock json rules e rule depth := by
      rw [openBlock, hrule]
    have whole := rendered_rule hopen hchildren
    rw [Html.pieces_cons, Html.pieces_nil, List.append_nil]
    exact whole
  | none =>
    dsimp only
    cases hty : builtinOf e.tag with
    | none =>
      have hopen : openBlock json rules e depth =
          (if hasElementChild e then pushBlockChildren rules e depth ""
          else (do
            renderUnknownLeaf json rules e
            pure [])) := by
        rw [openBlock, hrule, hty]
      dsimp only
      by_cases blocks : hasElementChild e = true
      · rw [if_pos blocks] at hopen
        rw [if_pos blocks]
        have nothing : Yields (pure ()) () (Html.chars "") := Yields.pure ()
        have whole := container hopen nothing
        simpa using whole
      · rw [if_neg blocks] at hopen
        rw [if_neg blocks]
        apply leaf
        rw [hopen]
        exact ((yields_renderUnknownLeaf e).seq (Yields.pure [])).congr (List.append_nil _)
    | some ty =>
      cases ty with
      | paragraph =>
        apply leaf
        rw [openBlock, hrule, hty]
        apply ((Yields.pushStr "<p>").seq (inline.seq ((Yields.pushStr "</p>").seq
          (Yields.pure _)))).congr
        simp [Html.Tree.pieces, Html.openTag, Html.closeTag, Html.chars]
      | heading =>
        apply leaf
        rw [openBlock, hrule, hty]
        apply ((Yields.pushStr "<h").seq ((Yields.push (headingDigit e)).seq ((Yields.push '>').seq
          (inline.seq ((Yields.pushStr "</h").seq ((Yields.push (headingDigit e)).seq
            ((Yields.push '>').seq (Yields.pure _)))))))).congr
        simp [Html.Tree.pieces, Html.openTag, Html.closeTag, Html.chars, headingTag]
      | codeBlock =>
        apply leaf
        rw [openBlock, hrule, hty]
        apply ((Yields.pushStr "<pre><code").seq ((yields_pushLanguage e).seq
          ((Yields.push '>').seq ((Yields.pushStr (escapeText (codeText e))).seq
            ((Yields.pushStr "</code></pre>").seq (Yields.pure _)))))).congr
        rw [chars_escapeText]
        simp [Html.Tree.pieces, Html.openTag, Html.closeTag, Html.chars]
      | blockquote =>
        have hopen : openBlock json rules e depth =
            openContainer rules e depth "<blockquote>" "</blockquote>" := by
          rw [openBlock, hrule, hty]
        apply (container hopen (Yields.pushStr _)).congr
        simp [Html.Tree.pieces, Html.openTag, Html.closeTag, Html.chars]
      | bulletList =>
        have hopen : openBlock json rules e depth = openContainer rules e depth "<ul>" "</ul>" := by
          rw [openBlock, hrule, hty]
        apply (container hopen (Yields.pushStr _)).congr
        simp [Html.Tree.pieces, Html.openTag, Html.closeTag, Html.chars]
      | orderedList =>
        have hopen : openBlock json rules e depth = (do
            pushStr (orderedOpen e)
            pushBlockChildren rules e depth "</ol>") := by
          rw [openBlock, hrule, hty]
        apply (container hopen (Yields.pushStr _)).congr
        rw [chars_orderedOpen]
        simp [Html.Tree.pieces, Html.closeTag, Html.chars]
      | listItem =>
        have hopen : openBlock json rules e depth = openContainer rules e depth "<li>" "</li>" := by
          rw [openBlock, hrule, hty]
        apply (container hopen (Yields.pushStr _)).congr
        simp [Html.Tree.pieces, Html.openTag, Html.closeTag, Html.chars]
      | table =>
        have hopen : openBlock json rules e depth =
            openContainer rules e depth "<table><tbody>" "</tbody></table>" := by
          rw [openBlock, hrule, hty]
        apply (container hopen (Yields.pushStr _)).congr
        simp [Html.Tree.pieces, Html.openTag, Html.closeTag, Html.chars]
      | tableRow =>
        have hopen : openBlock json rules e depth = openContainer rules e depth "<tr>" "</tr>" := by
          rw [openBlock, hrule, hty]
        apply (container hopen (Yields.pushStr _)).congr
        simp [Html.Tree.pieces, Html.openTag, Html.closeTag, Html.chars]
      | tableHeader =>
        have hopen : openBlock json rules e depth = openCell rules e depth "th" "</th>" := by
          rw [openBlock, hrule, hty]
        apply (container hopen (yields_cellOpen e "th")).congr
        simp [Html.Tree.pieces, Html.closeTag, Html.chars]
      | tableCell =>
        have hopen : openBlock json rules e depth = openCell rules e depth "td" "</td>" := by
          rw [openBlock, hrule, hty]
        apply (container hopen (yields_cellOpen e "td")).congr
        simp [Html.Tree.pieces, Html.closeTag, Html.chars]
      | horizontalRule =>
        apply leaf
        rw [openBlock, hrule, hty]
        apply ((Yields.pushStr "<hr>").seq (Yields.pure _)).congr
        simp [Html.Tree.pieces, Html.openTag, Html.chars]
      | image =>
        apply leaf
        rw [openBlock, hrule, hty]
        exact ((yields_renderImage e.attrs).seq (Yields.pure _)).congr (by simp)
      | hardBreak =>
        apply leaf
        rw [openBlock, hrule, hty]
        apply ((Yields.pushStr "<br>").seq (Yields.pure _)).congr
        simp [Html.Tree.pieces, Html.openTag, Html.chars]
termination_by e.size

/-! ## Documents -/

variable (json rules)

def rootForest : Node → List Tree
  | .element tag attrs children => blockForest json rules ⟨tag, attrs, children⟩ 0
  | .text diffs => runsForest rules diffs
  | .fragment content => [.text content]

/-- The trees of a document. -/
def forest (root : List Node) : List Tree := root.flatMap (rootForest json rules)

lemma yields_renderRoot (node : Node) :
    Yields (renderRoot json rules node) () (Html.pieces (rootForest json rules node)) := by
  cases node with
  | element tag attrs children => exact (rendered_block ⟨tag, attrs, children⟩ 0).yields
  | text diffs => exact yields_renderTextRuns rules diffs
  | fragment content =>
    apply (Yields.pushStr (escapeText content)).congr
    simp [rootForest, chars_escapeText]

variable {json rules}

/-- The renderer prints the trees of the document, and ends every frame it began. -/
theorem renderSegments_eq {root : List Node} (shaped : isProsemirrorShaped root = true) :
    renderSegments json rules root = some (some (Html.segments (forest json rules root))) := by
  have all := Yields.forM root fun node _ => yields_renderRoot json rules node
  rw [renderSegments, if_pos shaped, all.emitted]
  simp [forest, Html.segments, Html.pieces_flatMap]

/-! ## What every tree of a document meets -/

mutual

/-- The elements of a node, at any depth. -/
def Node.elements : Node → List XmlElement
  | .element tag attrs children => ⟨tag, attrs, children⟩ :: elements children
  | _ => []

def elements : List Node → List XmlElement
  | [] => []
  | c :: cs => c.elements ++ elements cs

end

def builtinTags : List String :=
  ["p", "h1", "h2", "h3", "h4", "h5", "h6", "blockquote", "pre", "code", "ul", "ol", "li",
    "table", "tbody", "tr", "th", "td", "a", "span", "strong", "em", "s", "u", "mark", "sub",
    "sup"]

def builtinVoids : List String := ["br", "hr", "img"]

def builtinAttrs : List String :=
  ["target", "rel", "class", "href", "title", "style", "start", "colspan", "rowspan", "src", "alt"]

variable (json rules)

/-- What `P` has to say of the built-in tags, of the rules, and of the callback nodes among these
elements. -/
structure Meets (P : Html.Local Deferred) (es : List XmlElement) : Prop extends
    RulesMeet P rules where
  mark : ∀ {name rule}, rules.marks.get name = some rule →
    ∀ lookup, P.elem rule.tag (ruleAttrs lookup rule.attrs)
  builtinVoid : ∀ tag ∈ builtinVoids, ∀ attrs, (∀ a ∈ attrs, a.name ∈ builtinAttrs) →
    P.void tag attrs
  builtinElem : ∀ tag ∈ builtinTags, ∀ attrs, (∀ a ∈ attrs, a.name ∈ builtinAttrs) →
    P.elem tag attrs
  inline : ∀ e ∈ es, ∀ content, rules.nodes.get e.tag = some (.callback content) →
    ∀ depth, P.hole (deferredElement json e) (Html.segments
      (if content ≠ .none ∧ depth < maxDepth then nodesForest json rules (depth + 1) e.children
        else []))
  block : ∀ e ∈ es, ∀ content, rules.nodes.get e.tag = some (.callback content) →
    ∀ depth, P.hole (deferredElement json e)
      (Html.segments (contentForest json rules e (childForest json rules e depth) content))

variable {json rules} {P : Html.Local Deferred} {es : List XmlElement}

lemma Meets.mono (h : Meets json rules P es) {es' : List XmlElement} (hes : es' ⊆ es) :
    Meets json rules P es' where
  void := h.void
  elem := h.elem
  mark := h.mark
  builtinVoid := h.builtinVoid
  builtinElem := h.builtinElem
  inline := fun e he => h.inline e (hes he)
  block := fun e he => h.block e (hes he)

/-- A built-in element around trees that meet `P`. -/
lemma Meets.builtin (h : Meets json rules P es) {tag : String} (htag : tag ∈ builtinTags)
    {attrs : List Html.Attr} (hattrs : ∀ a ∈ attrs, a.name ∈ builtinAttrs) {children : List Tree}
    (hchildren : Html.Each P children) : Html.Each P [.elem tag attrs children] := by
  rw [Html.each_cons, Html.Tree.Each]
  exact ⟨⟨h.builtinElem tag htag attrs hattrs, hchildren⟩, Html.each_nil⟩

lemma Meets.plain (h : Meets json rules P es) {tag : String} (htag : tag ∈ builtinTags)
    {children : List Tree} (hchildren : Html.Each P children) :
    Html.Each P [.elem tag [] children] :=
  h.builtin htag (by simp) hchildren

lemma Meets.builtinVoidTree (h : Meets json rules P es) {tag : String} (htag : tag ∈ builtinVoids)
    {attrs : List Html.Attr} (hattrs : ∀ a ∈ attrs, a.name ∈ builtinAttrs) :
    Html.Each P [(.void tag attrs : Tree)] := by
  rw [Html.each_cons, Html.Tree.Each]
  exact ⟨h.builtinVoid tag htag attrs hattrs, Html.each_nil⟩

/-! ### Runs -/

lemma linkAttrs_mem (link : Dict Value) : ∀ a ∈ linkAttrs link, a.name ∈ builtinAttrs := by
  intro a ha
  obtain ⟨key, hkey, hslot⟩ := List.mem_flatMap.mp ha
  have named : a.name = key := by
    unfold linkSlot at hslot
    split at hslot
    · rw [List.mem_singleton.mp hslot]
    · simp at hslot
  have known : ∀ k ∈ linkKeys, k ∈ builtinAttrs := by decide
  rw [named]
  exact known key hkey

/-- Every wrapper of a run meets `P`. -/
lemma Meets.wrappers (h : Meets json rules P es) (marks : Option (Dict Value)) :
    ∀ w ∈ runWrappers rules marks, P.elem w.tag w.attrs := by
  intro w hw
  cases marks with
  | none => simp [runWrappers] at hw
  | some marks =>
    have one : ∀ (p : Bool) (t : String), t ∈ builtinTags →
        ∀ w ∈ (if p then [(⟨t, []⟩ : Wrapper)] else []), P.elem w.tag w.attrs := by
      intro p t ht w hw
      cases p with
      | true =>
        rw [List.mem_singleton.mp hw]
        exact h.builtinElem t ht [] (by simp)
      | false => simp at hw
    have style : ∀ w ∈ styleWrappers (marks.get "textStyle"), P.elem w.tag w.attrs := by
      intro w hw
      unfold styleWrappers at hw
      split at hw
      · split at hw
        · simp at hw
        · rw [List.mem_singleton.mp hw]
          apply h.builtinElem "span" (by decide)
          intro a ha
          rw [List.mem_singleton.mp ha]
          change "style" ∈ builtinAttrs
          decide
      · simp at hw
    have format : ∀ w ∈ formatWrappers rules marks, P.elem w.tag w.attrs := by
      intro w hw
      unfold formatWrappers at hw
      split at hw
      · rw [List.mem_singleton.mp hw]
        exact h.builtinElem "code" (by decide) [] (by simp)
      · split at hw
        · simp only [List.mem_append] at hw
          rcases hw with (((((script | mark) | u) | s) | em) | strong) | span
          · split at script
            · exact one true "sub" (by decide) w script
            · exact one _ "sup" (by decide) w script
          · exact one _ "mark" (by decide) w mark
          · exact one _ "u" (by decide) w u
          · exact one _ "s" (by decide) w s
          · exact one _ "em" (by decide) w em
          · exact one _ "strong" (by decide) w strong
          · split at span
            · simp at span
            · exact style w span
        · simp at hw
    have link : ∀ w ∈ linkWrappers rules (marks.get "link"), P.elem w.tag w.attrs := by
      intro w hw
      unfold linkWrappers at hw
      split at hw
      · simp at hw
      · split at hw
        · rw [List.mem_singleton.mp hw]
          exact h.builtinElem "a" (by decide) _ (linkAttrs_mem _)
        · simp at hw
    have custom : ∀ w ∈ customWrappers rules marks, P.elem w.tag w.attrs := by
      intro w hw
      obtain ⟨name, -, hrule⟩ := List.mem_filterMap.mp hw
      obtain ⟨rule, hget, rfl⟩ := Option.map_eq_some_iff.mp hrule
      exact h.mark hget _
    rw [runWrappers, List.mem_reverse, List.mem_append, List.mem_append] at hw
    rcases hw with (hformat | hlink) | hcustom
    · exact format w hformat
    · exact link w hlink
    · exact custom w hcustom

lemma each_enter {w : Wrapper} {ts children rest : List Tree} (hts : Html.Each P ts)
    (h : enter w ts = some (children, rest)) : Html.Each P children ∧ Html.Each P rest := by
  unfold enter at h
  split at h
  · next tag attrs children' rest' =>
    split at h
    · obtain ⟨rfl, rfl⟩ : children' = children ∧ rest' = rest := by simpa using h
      rw [Html.each_cons, Html.Tree.Each] at hts
      exact ⟨hts.1.2, hts.2⟩
    · simp at h
  · simp at h

lemma each_wrapRun {ws : List Wrapper} (hws : ∀ w ∈ ws, P.elem w.tag w.attrs) {t : Tree}
    (ht : t.Each P) {ts : List Tree} (hts : Html.Each P ts) :
    Html.Each P (wrapRun ws t ts) := by
  induction ws generalizing ts with
  | nil =>
    rw [wrapRun, Html.each_cons]
    exact ⟨ht, hts⟩
  | cons w ws ih =>
    have own := hws w (by simp)
    have deeper : ∀ {us : List Tree}, Html.Each P us → Html.Each P (wrapRun ws t us) :=
      fun hus => ih (fun v hv => hws v (by simp [hv])) hus
    rw [wrapRun]
    cases entered : enter w ts with
    | some inside =>
      have parts := each_enter hts entered
      rw [Html.each_cons, Wrapper.tree, Html.Tree.Each]
      exact ⟨⟨own, deeper parts.1⟩, parts.2⟩
    | none =>
      rw [Html.each_cons, Wrapper.tree, Html.Tree.Each]
      exact ⟨⟨own, deeper Html.each_nil⟩, hts⟩

lemma each_runsForest {rules : Rules}
    (h : ∀ marks, ∀ w ∈ runWrappers rules marks, P.elem w.tag w.attrs) (diffs : List TextDiff) :
    Html.Each P (runsForest rules diffs) := by
  induction diffs with
  | nil => simp [runsForest]
  | cons d diffs ih =>
    cases d with
    | embed => exact ih
    | run s marks =>
      rw [runsForest]
      apply each_wrapRun (h marks) _ ih
      rw [Html.Tree.Each]
      exact trivial

lemma Meets.eachRuns (h : Meets json rules P es) (diffs : List TextDiff) :
    Html.Each P (runsForest rules diffs) :=
  each_runsForest h.wrappers diffs

/-! ### Inline content and blocks -/

lemma imageAttrs_mem (attrs : Attrs) : ∀ a ∈ imageAttrs attrs, a.name ∈ builtinAttrs := by
  intro a ha
  obtain ⟨name, hname, hslot⟩ := List.mem_flatMap.mp ha
  have named : a.name = name := by
    split at hslot
    · rw [List.mem_singleton.mp hslot]
    · simp at hslot
  have known : ∀ k ∈ ["src", "alt", "title"], k ∈ builtinAttrs := by decide
  rw [named]
  exact known name hname

mutual

/-- The trees of inline content meet `P`: one node. -/
lemma Meets.eachNode : ∀ (c : Node), Meets json rules P c.elements →
    ∀ depth : ℕ, Html.Each P (nodeForest json rules depth c)
  | .text diffs, h, depth => by
    rw [nodeForest]
    exact h.eachRuns diffs
  | .element tag attrs children, h, depth => by
    have inside : Meets json rules P (elements children) := by
      apply h.mono
      intro e he
      simp [Node.elements, he]
    have self : (⟨tag, attrs, children⟩ : XmlElement) ∈
        (Node.element tag attrs children).elements := by simp [Node.elements]
    have body := Meets.eachNodes children inside (depth + 1)
    rw [nodeForest]
    cases hrule : rules.nodes.get tag with
    | some rule =>
      rw [Html.each_cons]
      refine ⟨h.each hrule ?_ ?_, Html.each_nil⟩
      · intro content
        split
        · exact body
        · exact Html.each_nil
      · intro content callback
        subst callback
        exact h.inline ⟨tag, attrs, children⟩ self content hrule depth
    | none =>
      dsimp only
      split
      · exact h.builtinVoidTree (by decide) (by simp)
      · split
        · exact h.builtinVoidTree (by decide) (imageAttrs_mem attrs)
        · split
          · exact body
          · exact Html.each_nil
  | .fragment content, h, depth => by simp [nodeForest]

lemma Meets.eachNodes : ∀ (cs : List Node), Meets json rules P (elements cs) →
    ∀ depth : ℕ, Html.Each P (nodesForest json rules depth cs)
  | [], h, depth => by simp [nodesForest]
  | c :: cs, h, depth => by
    have first : Meets json rules P c.elements := by
      apply h.mono
      intro e he
      simp [elements, he]
    have rest : Meets json rules P (elements cs) := by
      apply h.mono
      intro e he
      simp [elements, he]
    rw [nodesForest, Html.each_append]
    exact ⟨Meets.eachNode c first depth, Meets.eachNodes cs rest depth⟩

end

lemma Meets.eachStray (h : Meets json rules P es) (e : XmlElement) :
    Html.Each P (strayForest rules e) := by
  apply Html.each_flatMap
  intro c _
  cases c with
  | text diffs => exact h.eachRuns diffs
  | element tag attrs children => exact Html.each_nil
  | fragment content => exact Html.each_nil

lemma headingTag_mem (e : XmlElement) : headingTag e ∈ builtinTags := by
  have digits : headingDigit e ∈ ['1', '2', '3', '4', '5', '6'] := by
    unfold headingDigit
    rw [List.getD_eq_getElem?_getD]
    cases h : ['1', '2', '3', '4', '5', '6'][(max 1 (min 6 ((numAttr e.attrs "level").getD 1)) -
      1).toNat]? with
    | none => decide
    | some d => exact List.mem_of_getElem? h
  unfold headingTag
  revert digits
  generalize headingDigit e = d
  intro digits
  simp only [List.mem_cons, List.not_mem_nil, or_false] at digits
  rcases digits with rfl | rfl | rfl | rfl | rfl | rfl <;> decide

lemma cellAttrs_mem (e : XmlElement) : ∀ a ∈ cellAttrs e, a.name ∈ builtinAttrs := by
  intro a ha
  simp only [cellAttrs, List.mem_cons, List.not_mem_nil, or_false] at ha
  rcases ha with rfl | rfl
  · change "colspan" ∈ builtinAttrs
    decide
  · change "rowspan" ∈ builtinAttrs
    decide

lemma orderedAttrs_mem (e : XmlElement) : ∀ a ∈ orderedAttrs e, a.name ∈ builtinAttrs := by
  intro a ha
  unfold orderedAttrs at ha
  split at ha
  · split at ha
    · rw [List.mem_singleton.mp ha]
      change "start" ∈ builtinAttrs
      decide
    · simp at ha
  · simp at ha

/-- The trees of a block meet `P` when those of its child elements do. -/
lemma Meets.eachBlockTrees {e : XmlElement} {blocks : List Tree}
    (h : Meets json rules P (elements e.children)) (hblocks : Html.Each P blocks)
    (hhole : ∀ content, rules.nodes.get e.tag = some (.callback content) →
      P.hole (deferredElement json e) (Html.segments (contentForest json rules e blocks content))) :
    Html.Each P (blockTrees json rules e blocks) := by
  have inline : Html.Each P (inlineForest json rules e) := Meets.eachNodes e.children h 0
  have container : Html.Each P (strayForest rules e ++ blocks) := by
    rw [Html.each_append]
    exact ⟨h.eachStray e, hblocks⟩
  unfold blockTrees
  cases hrule : rules.nodes.get e.tag with
  | some rule =>
    rw [Html.each_cons]
    refine ⟨h.each hrule ?_ ?_, Html.each_nil⟩
    · intro content
      cases content with
      | inline => exact inline
      | blocks => exact container
      | none => exact Html.each_nil
    · intro content callback
      subst callback
      exact hhole content hrule
  | none =>
    dsimp only
    cases builtinOf e.tag with
    | none =>
      dsimp only
      split
      · exact container
      · exact each_paragraphForest (h.builtinElem "p" (by decide) [] (by simp)) inline
          Html.each_nil
    | some ty =>
      cases ty with
      | paragraph => exact h.plain (by decide) inline
      | heading => exact h.plain (headingTag_mem e) inline
      | codeBlock =>
        apply h.plain (by decide)
        apply h.builtin (by decide)
        · intro a ha
          rw [List.mem_singleton.mp ha]
          change "class" ∈ builtinAttrs
          decide
        · simp [Html.Tree.Each]
      | blockquote => exact h.plain (by decide) container
      | bulletList => exact h.plain (by decide) container
      | orderedList => exact h.builtin (by decide) (orderedAttrs_mem e) container
      | listItem => exact h.plain (by decide) container
      | table => exact h.plain (by decide) (h.plain (by decide) container)
      | tableRow => exact h.plain (by decide) container
      | tableHeader => exact h.builtin (by decide) (cellAttrs_mem e) container
      | tableCell => exact h.builtin (by decide) (cellAttrs_mem e) container
      | horizontalRule => exact h.builtinVoidTree (by decide) (by simp)
      | image => exact h.builtinVoidTree (by decide) (imageAttrs_mem e.attrs)
      | hardBreak => exact h.builtinVoidTree (by decide) (by simp)

mutual

lemma Meets.eachBlockNode : ∀ (c : Node), Meets json rules P c.elements →
    ∀ depth : ℕ, Html.Each P (blockNodeForest json rules depth c)
  | .element tag attrs children, h, depth => by
    have inside : Meets json rules P (elements children) := by
      apply h.mono
      intro e he
      simp [Node.elements, he]
    have self : (⟨tag, attrs, children⟩ : XmlElement) ∈
        (Node.element tag attrs children).elements := by simp [Node.elements]
    rw [blockNodeForest]
    apply Meets.eachBlockTrees inside
    · split
      · exact Meets.eachBlockNodes children inside (depth + 1)
      · exact Html.each_nil
    · intro content hrule
      exact h.block ⟨tag, attrs, children⟩ self content hrule depth
  | .text diffs, h, depth => by simp [blockNodeForest]
  | .fragment content, h, depth => by simp [blockNodeForest]

lemma Meets.eachBlockNodes : ∀ (cs : List Node), Meets json rules P (elements cs) →
    ∀ depth : ℕ, Html.Each P (blockNodesForest json rules depth cs)
  | [], h, depth => by simp [blockNodesForest]
  | c :: cs, h, depth => by
    have first : Meets json rules P c.elements := by
      apply h.mono
      intro e he
      simp [elements, he]
    have rest : Meets json rules P (elements cs) := by
      apply h.mono
      intro e he
      simp [elements, he]
    rw [blockNodesForest, Html.each_append]
    exact ⟨Meets.eachBlockNode c first depth, Meets.eachBlockNodes cs rest depth⟩

end

lemma Meets.eachBlock {e : XmlElement} (h : Meets json rules P (e :: elements e.children))
    (depth : ℕ) : Html.Each P (blockForest json rules e depth) := by
  have inside : Meets json rules P (elements e.children) := h.mono (List.subset_cons_self _ _)
  apply Meets.eachBlockTrees inside
  · unfold childForest
    split
    · exact Meets.eachBlockNodes e.children inside (depth + 1)
    · exact Html.each_nil
  · intro content hrule
    exact h.block e (by simp) content hrule depth

/-- Every tag and every hole of a document's markup meets what the built-in tags, the rules and
the document's own callback nodes meet. -/
theorem Meets.eachForest {root : List Node} (h : Meets json rules P (elements root)) :
    Html.Each P (forest json rules root) := by
  induction root with
  | nil => simp [forest]
  | cons node nodes ih =>
    have first : Meets json rules P node.elements := by
      apply h.mono
      intro e he
      simp [elements, he]
    have rest : Meets json rules P (elements nodes) := by
      apply h.mono
      intro e he
      simp [elements, he]
    rw [forest, List.flatMap_cons, Html.each_append]
    refine ⟨?_, ih rest⟩
    cases node with
    | element tag attrs children =>
      rw [Node.elements] at first
      exact Meets.eachBlock first 0
    | text diffs => exact first.eachRuns diffs
    | fragment content => simp [rootForest, Html.Tree.Each]

end ProseMirrorHtml

end Yrby
