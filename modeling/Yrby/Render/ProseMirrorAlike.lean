import Yrby.Render.Alike
import Yrby.Render.ProseMirrorForest

/-!
# ProseMirror documents that differ in their strings

Two documents are alike when they differ in text runs and stored strings alone, at any depth of an
attribute or of a mark's value.  Adjacent runs of a text stand in one element as far as their
opening tags are equal, so how many wrappers they share depends on strings; alike documents share
as many (`RunsAlike`).  Alike documents have forests of one shape (`forest_shape`).
-/

namespace Yrby

namespace ProseMirrorHtml

open HtmlCore

/-! ## Wrappers -/

/-- A wrapper without the values of its attributes. -/
def Wrapper.shape (w : Wrapper) : Wrapper := ⟨w.tag, w.attrs.map Html.Attr.shape⟩

/-- The marks of two runs differ in strings alone. -/
def MarksAlike (marks marks' : Option (Dict Value)) : Prop :=
  marks.map blankEntries = marks'.map blankEntries

section

variable {marks marks' : Dict Value}

lemma has_alike (rules : Rules) (h : DictAlike marks marks') (keys : List String) :
    has rules marks keys = has rules marks' keys := by
  unfold has
  simp only [h.containsKey]

/-- A textStyle mark has no style exactly when none of its values is a string. -/
lemma textStyleCss_isEmpty (style : Dict Value) :
    (textStyleCss style).isEmpty = style.keys.all fun k => (stringOf (style.get k)).isNone := by
  have listed : (stylePairs style).isEmpty =
      style.keys.all fun k => (stringOf (style.get k)).isNone := by
    rw [stylePairs, Bool.eq_iff_iff, List.isEmpty_iff_length_eq_zero, List.length_mergeSort,
      List.length_eq_zero_iff, List.filterMap_eq_nil_iff]
    simp
  rw [← listed, textStyleCss]
  rcases List.eq_nil_or_concat (stylePairs style) with empty | ⟨front, last, pairs⟩
  · rw [empty]
    rfl
  · have ends : ∀ t : String, (t ++ ";").isEmpty = false := by
      intro t
      rw [Bool.eq_false_iff, ne_eq, String.isEmpty_iff]
      simp
    rw [pairs, List.concat_eq_append, List.foldl_append, List.foldl_cons, List.foldl_nil, ends]
    simp

lemma styleWrappers_alike {v v' : Option Value} (h : v.map Value.blank = v'.map Value.blank) :
    (styleWrappers v).map Wrapper.shape = (styleWrappers v').map Wrapper.shape := by
  unfold styleWrappers
  rcases mapOf_alike h with ⟨none, none'⟩ | ⟨d, d', some, some', alike⟩
  · rw [none, none']
  · have same : (textStyleCss d).isEmpty = (textStyleCss d').isEmpty := by
      rw [textStyleCss_isEmpty, textStyleCss_isEmpty, alike.keys]
      congr 1
      funext k
      have strings := stringOf_isSome (alike.get k)
      rw [← Option.not_isSome, ← Option.not_isSome, strings]
    rw [some, some']
    dsimp only
    rw [same]
    split
    · rfl
    · rfl

lemma formatWrappers_alike (rules : Rules) (h : DictAlike marks marks') :
    (formatWrappers rules marks).map Wrapper.shape =
      (formatWrappers rules marks').map Wrapper.shape := by
  have style := styleWrappers_alike (h.get "textStyle")
  unfold formatWrappers
  simp only [has_alike rules h, h.containsKey]
  split
  · rfl
  · split
    · simp only [List.map_append]
      congr 1
      split
      · rfl
      · exact style
    · rfl

lemma linkAttrs_alike (h : DictAlike marks marks') :
    (linkAttrs marks).map Html.Attr.shape = (linkAttrs marks').map Html.Attr.shape := by
  unfold linkAttrs
  rw [List.map_flatMap, List.map_flatMap]
  congr 1
  funext key
  have same := stringOf_isSome (h.get key)
  unfold linkSlot
  cases hv : stringOf (marks.get key) with
  | none =>
    have hv' : stringOf (marks'.get key) = none := by simpa [hv] using same.symm
    rw [hv']
  | some s =>
    obtain ⟨s', hv'⟩ : ∃ s', stringOf (marks'.get key) = some s' := by
      rw [← Option.isSome_iff_exists, ← same, hv]
      rfl
    rw [hv']
    rfl

lemma linkWrappers_alike (rules : Rules) {v v' : Option Value}
    (h : v.map Value.blank = v'.map Value.blank) :
    (linkWrappers rules v).map Wrapper.shape = (linkWrappers rules v').map Wrapper.shape := by
  unfold linkWrappers
  split
  · rfl
  · rcases mapOf_alike h with ⟨none, none'⟩ | ⟨d, d', some, some', alike⟩
    · rw [none, none']
    · rw [some, some']
      simp only [List.map_singleton, Wrapper.shape, linkAttrs_alike alike]

lemma customWrappers_alike (rules : Rules) (h : DictAlike marks marks') :
    (customWrappers rules marks).map Wrapper.shape =
      (customWrappers rules marks').map Wrapper.shape := by
  have names : customNames rules marks = customNames rules marks' := by
    unfold customNames
    simp only [h.containsKey]
  unfold customWrappers
  rw [names, List.map_filterMap, List.map_filterMap]
  congr 1
  funext name
  simp only [Option.map_map]
  congr 1
  funext rule
  simp [Wrapper.shape, ruleAttrs_shape]

end

/-- Alike runs stand in the same tags, with the same attribute slots. -/
lemma runWrappers_alike (rules : Rules) {marks marks' : Option (Dict Value)}
    (h : MarksAlike marks marks') :
    (runWrappers rules marks).map Wrapper.shape = (runWrappers rules marks').map Wrapper.shape := by
  cases marks with
  | none =>
    cases marks' with
    | none => rfl
    | some d' => simp [MarksAlike] at h
  | some d =>
    cases marks' with
    | none => simp [MarksAlike] at h
    | some d' =>
      have alike : DictAlike d d' := by simpa [MarksAlike, DictAlike] using h
      rw [runWrappers, runWrappers, List.map_reverse, List.map_reverse]
      simp only [List.map_append, formatWrappers_alike rules alike,
        linkWrappers_alike rules (alike.get "link"), customWrappers_alike rules alike]

/-! ## Runs -/

/-- Runs that differ in strings alone and share as many wrappers, with these wrappers open. -/
def RunsAlike (rules : Rules) :
    List (String × String) → List (String × String) → List TextDiff → List TextDiff → Prop
  | _, _, [], [] => True
  | opened, opened', .embed :: diffs, .embed :: diffs' =>
    RunsAlike rules opened opened' diffs diffs'
  | opened, opened', .run _ marks :: diffs, .run _ marks' :: diffs' =>
    MarksAlike marks marks' ∧
      shared opened (runStack rules marks) = shared opened' (runStack rules marks') ∧
      RunsAlike rules (runStack rules marks) (runStack rules marks') diffs diffs'
  | _, _, _, _ => False

/-- How many trees, one inside the other, a run in these wrappers goes into. -/
def entered : List Wrapper → List Tree → ℕ
  | [], _ => 0
  | w :: ws, ts =>
    match enter w ts with
    | some (children, _) => entered ws children + 1
    | none => 0

/-- A run goes into the trees of the run behind it as far as they share wrappers. -/
lemma entered_wrapRun (os ws : List Wrapper) (s : String) (ts : List Tree) :
    entered os (wrapRun ws (.text s) ts) =
      shared (os.map Wrapper.print) (ws.map Wrapper.print) := by
  induction os generalizing ws ts with
  | nil => simp [entered, shared]
  | cons o os ih =>
    cases ws with
    | nil =>
      have outside : enter o (.text s :: ts) = none := rfl
      simp [wrapRun, entered, outside, shared]
    | cons w ws =>
      have tree : ∀ inside rest, entered (o :: os) (w.tree inside :: rest) =
          if w.print = o.print then entered os inside + 1 else 0 := by
        intro inside rest
        rw [entered, enter_tree]
        by_cases same : w.print = o.print
        · simp [same]
        · simp [same]
      rw [List.map_cons, List.map_cons, shared_cons, wrapRun]
      by_cases same : o.print = w.print
      · rw [if_pos same]
        cases enter w ts with
        | some parts => simp only [tree, if_pos same.symm, ih]
        | none => simp only [tree, if_pos same.symm, ih]
      · rw [if_neg same]
        cases enter w ts with
        | some parts => simp only [tree, if_neg (Ne.symm same)]
        | none => simp only [tree, if_neg (Ne.symm same)]

lemma elem_of_enter {w : Wrapper} {ts children rest : List Tree}
    (h : enter w ts = some (children, rest)) :
    ∃ tag attrs, ts = .elem tag attrs children :: rest := by
  unfold enter at h
  split at h
  · next tag attrs children' rest' =>
    split at h
    · obtain ⟨rfl, rfl⟩ : children' = children ∧ rest' = rest := by simpa using h
      exact ⟨tag, attrs, rfl⟩
    · simp at h
  · simp at h

lemma entered_nil (ws : List Wrapper) : entered ws [] = 0 := by
  cases ws <;> rfl

/-- Putting a run in front of a forest keeps one shape, when both go equally deep. -/
lemma wrapRun_shape {ws ws' : List Wrapper} (hws : ws.map Wrapper.shape = ws'.map Wrapper.shape)
    (s s' : String) {ts ts' : List Tree} (hts : Html.shape ts = Html.shape ts')
    (deep : entered ws ts = entered ws' ts') :
    Html.shape (wrapRun ws (.text s) ts) = Html.shape (wrapRun ws' (.text s') ts') := by
  induction ws generalizing ws' ts ts' with
  | nil =>
    have empty : ws' = [] := by simpa [eq_comm] using hws
    subst empty
    simp [wrapRun, Html.Tree.shape, hts]
  | cons w ws ih =>
    cases ws' with
    | nil => simp at hws
    | cons w' ws' =>
      obtain ⟨first, rest⟩ : w.shape = w'.shape ∧ ws.map Wrapper.shape = ws'.map Wrapper.shape := by
        simpa using hws
      have tree : ∀ children children', Html.shape children = Html.shape children' →
          (w.tree children).shape = (w'.tree children').shape := by
        intro children children' same
        obtain ⟨tag, slots⟩ : w.tag = w'.tag ∧
            w.attrs.map Html.Attr.shape = w'.attrs.map Html.Attr.shape := by
          simpa [Wrapper.shape] using first
        simp only [Wrapper.tree, Html.Tree.shape, tag, slots, same]
      rw [entered, entered] at deep
      rw [wrapRun, wrapRun]
      cases hin : enter w ts with
      | none =>
        cases hin' : enter w' ts' with
        | some parts' => simp [hin, hin'] at deep
        | none =>
          have inside : Html.shape (wrapRun ws (.text s) []) =
              Html.shape (wrapRun ws' (.text s') []) :=
            ih rest rfl (by rw [entered_nil, entered_nil])
          simp only [Html.shape_cons, hts, tree _ _ inside]
      | some parts =>
        cases hin' : enter w' ts' with
        | none => simp [hin, hin'] at deep
        | some parts' =>
          obtain ⟨children, after⟩ := parts
          obtain ⟨children', after'⟩ := parts'
          obtain ⟨tag, attrs, rfl⟩ := elem_of_enter hin
          obtain ⟨tag', attrs', rfl⟩ := elem_of_enter hin'
          simp only [Html.shape_cons, Html.Tree.shape, List.cons.injEq, Html.Tree.elem.injEq] at hts
          simp only [hin, hin', Nat.add_right_cancel_iff] at deep
          have inside := ih rest hts.1.2.2 deep
          simp only [Html.shape_cons, tree _ _ inside, hts.2]

lemma wrapRun_pieces_ne_nil {ws : List Wrapper} {t : Tree} (ht : t.pieces ≠ []) {ts : List Tree}
    (hts : ∀ u ∈ ts, u.pieces ≠ []) : ∀ u ∈ wrapRun ws t ts, u.pieces ≠ [] := by
  intro u hu
  cases ws with
  | nil =>
    rw [wrapRun, List.mem_cons] at hu
    rcases hu with rfl | hu
    · exact ht
    · exact hts u hu
  | cons w ws =>
    rw [wrapRun] at hu
    cases hin : enter w ts with
    | none =>
      simp only [hin, List.mem_cons] at hu
      rcases hu with rfl | hu
      · exact Html.Tree.pieces_elem_ne_nil _ _ _
      · exact hts u hu
    | some parts =>
      obtain ⟨children, after⟩ := parts
      obtain ⟨tag, attrs, rfl⟩ := elem_of_enter hin
      simp only [hin, List.mem_cons] at hu
      rcases hu with rfl | hu
      · exact Html.Tree.pieces_elem_ne_nil _ _ _
      · exact hts u (by simp [hu])

lemma runsForest_pieces_ne_nil (rules : Rules) (diffs : List TextDiff) :
    ∀ t ∈ runsForest rules diffs, t.pieces ≠ [] := by
  induction diffs with
  | nil => simp [runsForest]
  | cons d diffs ih =>
    cases d with
    | embed => exact ih
    | run s marks =>
      rw [runsForest]
      exact wrapRun_pieces_ne_nil (Html.Tree.pieces_text_ne_nil s.nonempty) ih

/-- Alike runs have forests of one shape, and what stands in front of both goes equally deep. -/
lemma runsForest_alike (rules : Rules) {diffs diffs' : List TextDiff} {ws ws' : List Wrapper}
    (h : RunsAlike rules (ws.map Wrapper.print) (ws'.map Wrapper.print) diffs diffs') :
    Html.shape (runsForest rules diffs) = Html.shape (runsForest rules diffs') ∧
      entered ws (runsForest rules diffs) = entered ws' (runsForest rules diffs') := by
  induction diffs generalizing diffs' ws ws' with
  | nil =>
    cases diffs' with
    | nil => exact ⟨rfl, by rw [runsForest, entered_nil, entered_nil]⟩
    | cons d' diffs' => simp [RunsAlike] at h
  | cons d diffs ih =>
    cases diffs' with
    | nil => simp [RunsAlike] at h
    | cons d' diffs' =>
      cases d <;> cases d' <;> try exact h.elim
      case embed.embed =>
        rw [RunsAlike] at h
        rw [runsForest, runsForest]
        exact ih h
      case run.run s marks s' marks' =>
        rw [RunsAlike] at h
        obtain ⟨alike, sharing, rest⟩ := h
        rw [runStack_eq, runStack_eq] at sharing rest
        have behind := ih rest
        rw [runsForest, runsForest]
        constructor
        · exact wrapRun_shape (runWrappers_alike rules alike) s.text s'.text behind.1 behind.2
        · rw [entered_wrapRun, entered_wrapRun, sharing]

lemma runsForest_shape (rules : Rules) {diffs diffs' : List TextDiff}
    (h : RunsAlike rules [] [] diffs diffs') :
    Html.shape (runsForest rules diffs) = Html.shape (runsForest rules diffs') := by
  have whole :
      RunsAlike rules (List.map Wrapper.print []) (List.map Wrapper.print []) diffs diffs' :=
    h
  exact (runsForest_alike rules whole).1

/-! ## Alike documents -/

/-- Stored attributes that differ in strings alone. -/
abbrev SameButStrings (attrs attrs' : Attrs) : Prop := AttrsAlike [] attrs attrs'

mutual

def Node.Alike (rules : Rules) : Node → Node → Prop
  | .element tag attrs children, .element tag' attrs' children' =>
    tag = tag' ∧ SameButStrings attrs attrs' ∧ Alike rules children children'
  | .text diffs, .text diffs' => RunsAlike rules [] [] diffs diffs'
  | .fragment _, .fragment _ => True
  | _, _ => False

/-- The nodes differ in strings alone, and alike texts share as many wrappers. -/
def Alike (rules : Rules) : List Node → List Node → Prop
  | [], [] => True
  | c :: cs, c' :: cs' => c.Alike rules c' ∧ Alike rules cs cs'
  | _, _ => False

end

section

variable {attrs attrs' : Attrs}

lemma numAttr_alike (h : SameButStrings attrs attrs') (name : String) :
    numAttr attrs name = numAttr attrs' name := by
  rw [numAttr, numAttr]
  rcases h.get_cases name with same | ⟨v, v', left, right, both⟩
  · rw [same]
  · rw [left, right]
    cases both <;> rfl

lemma imageAttrs_shape (h : SameButStrings attrs attrs') :
    (imageAttrs attrs).map Html.Attr.shape = (imageAttrs attrs').map Html.Attr.shape := by
  unfold imageAttrs
  rw [List.map_flatMap, List.map_flatMap]
  congr 1
  funext name
  have same := h.strAttr_isSome name
  cases hv : strAttr attrs name with
  | none =>
    have hv' : strAttr attrs' name = none := by simpa [hv] using same.symm
    rw [hv']
  | some s =>
    obtain ⟨s', hv'⟩ : ∃ s', strAttr attrs' name = some s' := by
      rw [← Option.isSome_iff_exists, ← same, hv]
      rfl
    rw [hv']
    rfl

end

variable {json : Json} {rules : Rules}

lemma ruleInlineTree_shape {e e' : XmlElement} {rule : NodeRule} (named : rule.Named) (depth : ℕ)
    {body body' : List Tree} (hbody : Html.shape body = Html.shape body') :
    (ruleInlineTree json e rule depth body).shape =
      (ruleInlineTree json e' rule depth body').shape := by
  apply ruleTree_shape named
  intro content
  split
  · exact hbody
  · rfl

mutual

/-- Alike inline content has forests of one shape: one node. -/
lemma nodeForest_shape (named : rules.Named) : ∀ (c c' : Node), c.Alike rules c' → ∀ depth : ℕ,
    Html.shape (nodeForest json rules depth c) = Html.shape (nodeForest json rules depth c')
  | .text diffs, c', h, depth => by
    cases c' <;> simp only [Node.Alike] at h
    rw [nodeForest, nodeForest]
    exact runsForest_shape rules h
  | .element tag attrs children, c', h, depth => by
    cases c' <;> simp only [Node.Alike] at h
    next tag' attrs' children' =>
    obtain ⟨rfl, alike, inside⟩ := h
    have body := nodesForest_shape named children children' inside (depth + 1)
    rw [nodeForest, nodeForest]
    cases hrule : rules.nodes.get tag with
    | some rule =>
      dsimp only
      rw [Html.shape_cons, Html.shape_cons, ruleInlineTree_shape (named.node hrule) depth body]
    | none =>
      dsimp only
      split
      · rfl
      · split
        · simp only [Html.shape_cons, Html.Tree.shape, imageAttrs_shape alike]
        · split
          · exact body
          · rfl
  | .fragment content, c', h, depth => by
    cases c' <;> simp only [Node.Alike] at h
    rw [nodeForest, nodeForest]

lemma nodesForest_shape (named : rules.Named) : ∀ (cs cs' : List Node), Alike rules cs cs' →
    ∀ depth : ℕ,
      Html.shape (nodesForest json rules depth cs) = Html.shape (nodesForest json rules depth cs')
  | [], cs', h, depth => by
    cases cs' <;> simp only [Alike] at h
    rfl
  | c :: cs, cs', h, depth => by
    cases cs' <;> simp only [Alike] at h
    next c' cs' =>
    rw [nodesForest, nodesForest, Html.shape_append, Html.shape_append,
      nodeForest_shape named c c' h.1 depth, nodesForest_shape named cs cs' h.2 depth]

end

mutual

/-- Every inline tree prints something: one node. -/
lemma nodeForest_pieces_ne_nil : ∀ (c : Node) (depth : ℕ),
    ∀ t ∈ nodeForest json rules depth c, t.pieces ≠ []
  | .text diffs, depth, t, ht => by
    rw [nodeForest] at ht
    exact runsForest_pieces_ne_nil rules diffs t ht
  | .element tag attrs children, depth, t, ht => by
    rw [nodeForest] at ht
    cases hrule : rules.nodes.get tag with
    | some rule =>
      simp only [hrule, List.mem_singleton] at ht
      rw [ht]
      exact ruleTree_pieces_ne_nil _ _ _
    | none =>
      simp only [hrule] at ht
      split at ht
      · rw [List.mem_singleton.mp ht]
        exact Html.Tree.pieces_void_ne_nil _ _
      · split at ht
        · rw [List.mem_singleton.mp ht]
          exact Html.Tree.pieces_void_ne_nil _ _
        · split at ht
          · exact nodesForest_pieces_ne_nil children (depth + 1) t ht
          · simp at ht
  | .fragment content, depth, t, ht => by
    rw [nodeForest] at ht
    simp at ht

lemma nodesForest_pieces_ne_nil : ∀ (cs : List Node) (depth : ℕ),
    ∀ t ∈ nodesForest json rules depth cs, t.pieces ≠ []
  | [], depth, t, ht => by
    rw [nodesForest] at ht
    simp at ht
  | c :: cs, depth, t, ht => by
    rw [nodesForest, List.mem_append] at ht
    rcases ht with first | rest
    · exact nodeForest_pieces_ne_nil c depth t first
    · exact nodesForest_pieces_ne_nil cs depth t rest

end

/-! ## Blocks -/

lemma strayForest_shape {e e' : XmlElement} (h : Alike rules e.children e'.children) :
    Html.shape (strayForest rules e) = Html.shape (strayForest rules e') := by
  unfold strayForest
  generalize e.children = cs at h
  generalize e'.children = cs' at h
  induction cs generalizing cs' with
  | nil =>
    cases cs' with
    | nil => rfl
    | cons c' cs' => exact h.elim
  | cons c cs ih =>
    cases cs' with
    | nil => exact h.elim
    | cons c' cs' =>
      rw [Alike] at h
      rw [List.flatMap_cons, List.flatMap_cons, Html.shape_append, Html.shape_append, ih cs' h.2]
      congr 1
      cases c <;> cases c' <;> try exact h.1.elim
      case text.text diffs diffs' =>
        have runs := h.1
        rw [Node.Alike] at runs
        exact runsForest_shape rules runs
      case element.element => rfl
      case fragment.fragment => rfl

lemma hasElementChild_alike {e e' : XmlElement} (h : Alike rules e.children e'.children) :
    hasElementChild e = hasElementChild e' := by
  unfold hasElementChild elementChildren
  generalize e.children = cs at h
  generalize e'.children = cs' at h
  induction cs generalizing cs' with
  | nil =>
    cases cs' with
    | nil => rfl
    | cons c' cs' => exact h.elim
  | cons c cs ih =>
    cases cs' with
    | nil => exact h.elim
    | cons c' cs' =>
      rw [Alike] at h
      have rest := ih cs' h.2
      cases c <;> cases c' <;> try exact h.1.elim
      case element.element => rfl
      all_goals simpa using rest

lemma contentForest_shape (named : rules.Named) {e e' : XmlElement}
    (h : Alike rules e.children e'.children) {blocks blocks' : List Tree}
    (hblocks : Html.shape blocks = Html.shape blocks') (content : Content) :
    Html.shape (contentForest json rules e blocks content) =
      Html.shape (contentForest json rules e' blocks' content) := by
  cases content with
  | inline => exact nodesForest_shape named e.children e'.children h 0
  | blocks =>
    rw [contentForest, contentForest, Html.shape_append, Html.shape_append, strayForest_shape h,
      hblocks]
  | none => rfl

/-- Alike blocks have trees of one shape, when those of their children have. -/
lemma blockTrees_shape (named : rules.Named) {e e' : XmlElement}
    (h : (Node.element e.tag e.attrs e.children).Alike rules (.element e'.tag e'.attrs e'.children))
    {blocks blocks' : List Tree} (hblocks : Html.shape blocks = Html.shape blocks') :
    Html.shape (blockTrees json rules e blocks) =
      Html.shape (blockTrees json rules e' blocks') := by
  rw [Node.Alike] at h
  obtain ⟨tag, attrs, children⟩ := h
  have inline : Html.shape (inlineForest json rules e) = Html.shape (inlineForest json rules e') :=
    nodesForest_shape named e.children e'.children children 0
  have container : Html.shape (strayForest rules e ++ blocks) =
      Html.shape (strayForest rules e' ++ blocks') := by
    rw [Html.shape_append, Html.shape_append, strayForest_shape children, hblocks]
  have heading : headingTag e = headingTag e' := by
    unfold headingTag headingDigit
    rw [numAttr_alike attrs]
  have cell : (cellAttrs e).map Html.Attr.shape = (cellAttrs e').map Html.Attr.shape := rfl
  have ordered : orderedAttrs e = orderedAttrs e' := by
    unfold orderedAttrs
    rw [numAttr_alike attrs]
  unfold blockTrees
  rw [← tag]
  cases hrule : rules.nodes.get e.tag with
  | some rule =>
    dsimp only
    rw [Html.shape_cons, Html.shape_cons, ruleTree_shape (named.node hrule)]
    intro content
    exact contentForest_shape named children hblocks content
  | none =>
    dsimp only
    split
    case h_1 => exact shape_elem _ rfl inline
    case h_2 =>
      rw [heading]
      exact shape_elem _ rfl inline
    case h_3 => exact shape_elem _ rfl (shape_elem _ rfl (by simp [Html.Tree.shape]))
    case h_4 => exact shape_elem _ rfl container
    case h_5 => exact shape_elem _ rfl container
    case h_6 =>
      rw [ordered]
      exact shape_elem _ rfl container
    case h_7 => exact shape_elem _ rfl container
    case h_8 => exact shape_elem _ rfl (shape_elem _ rfl container)
    case h_9 => exact shape_elem _ rfl container
    case h_10 => exact shape_elem _ cell container
    case h_11 => exact shape_elem _ cell container
    case h_12 => rfl
    case h_13 => simp only [Html.shape_cons, Html.Tree.shape, imageAttrs_shape attrs]
    case h_14 => rfl
    case h_15 =>
      rw [hasElementChild_alike children]
      split
      · exact container
      · exact paragraphForest_shape (nodesForest_pieces_ne_nil _ _)
          (nodesForest_pieces_ne_nil _ _) inline

mutual

lemma blockNodeForest_shape (named : rules.Named) : ∀ (c c' : Node), c.Alike rules c' →
    ∀ depth : ℕ, Html.shape (blockNodeForest json rules depth c) =
      Html.shape (blockNodeForest json rules depth c')
  | .element tag attrs children, c', h, depth => by
    cases c' <;> try exact h.elim
    next tag' attrs' children' =>
    rw [blockNodeForest, blockNodeForest]
    apply blockTrees_shape named h
    rw [Node.Alike] at h
    split
    · exact blockNodesForest_shape named children children' h.2.2 (depth + 1)
    · rfl
  | .text diffs, c', h, depth => by
    cases c' <;> try exact h.elim
    rw [blockNodeForest, blockNodeForest] <;> simp
  | .fragment content, c', h, depth => by
    cases c' <;> try exact h.elim
    rw [blockNodeForest, blockNodeForest] <;> simp

lemma blockNodesForest_shape (named : rules.Named) : ∀ (cs cs' : List Node), Alike rules cs cs' →
    ∀ depth : ℕ, Html.shape (blockNodesForest json rules depth cs) =
      Html.shape (blockNodesForest json rules depth cs')
  | [], cs', h, depth => by
    cases cs' <;> simp only [Alike] at h
    rfl
  | c :: cs, cs', h, depth => by
    cases cs' <;> simp only [Alike] at h
    next c' cs' =>
    rw [blockNodesForest, blockNodesForest, Html.shape_append, Html.shape_append,
      blockNodeForest_shape named c c' h.1 depth, blockNodesForest_shape named cs cs' h.2 depth]

end

/-! ## Documents -/

lemma rootForest_shape (named : rules.Named) {node node' : Node} (h : node.Alike rules node') :
    Html.shape (rootForest json rules node) = Html.shape (rootForest json rules node') := by
  cases node <;> cases node' <;> try exact h.elim
  case element.element tag attrs children tag' attrs' children' =>
    apply blockTrees_shape named h
    rw [Node.Alike] at h
    unfold childForest
    split
    · exact blockNodesForest_shape named children children' h.2.2 (0 + 1)
    · rfl
  case text.text diffs diffs' =>
    rw [Node.Alike] at h
    exact runsForest_shape rules h
  case fragment.fragment content content' => simp [rootForest, Html.Tree.shape]

/-- Alike documents have forests of one shape. -/
theorem forest_shape (named : rules.Named) {root root' : List Node} (h : Alike rules root root') :
    Html.shape (forest json rules root) = Html.shape (forest json rules root') := by
  induction root generalizing root' with
  | nil =>
    cases root' with
    | nil => rfl
    | cons node' root' => exact h.elim
  | cons node root ih =>
    cases root' with
    | nil => exact h.elim
    | cons node' root' =>
      rw [Alike] at h
      have rest := ih h.2
      unfold forest at rest ⊢
      rw [List.flatMap_cons, List.flatMap_cons, Html.shape_append, Html.shape_append,
        rootForest_shape named h.1, rest]

end ProseMirrorHtml

end Yrby
