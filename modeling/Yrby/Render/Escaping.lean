import Yrby.Render.LexicalAlike
import Yrby.Render.ProseMirrorAlike

/-!
# No string of a document becomes markup

With declarative rules, a rendering reads back as the tokens of its forest, where each text and
each attribute value is the document's string, or what the renderer makes of it, as it is.  Tags
and attribute names are the built-in ones and those of the rules, and documents that differ in
strings alone have the same ones, but for attributes that are left out when their value is empty.

A stored string may choose between elements: `__type` and `__tag` are such strings, and equal or
different mark values join or split the elements around adjacent ProseMirror runs
(`strings_choose_tags`).
-/

namespace Yrby

open HtmlCore

/-- The tokens a browser reads in a rendering. -/
def readBack (rendering : Option (Option (List Segment))) : Option (List (Html.Token Deferred)) :=
  rendering.join.bind Html.scan

namespace LexicalHtml

variable {F : Foreign} {rules : Rules}

/-- The names in a document's markup are the built-in ones and those of the rules. -/
lemma known_forest (named : rules.Named) (root : List RootNode) :
    Html.Each (Known rules builtinVoids builtinTags builtinAttrs) (forest F rules root) := by
  have meets : Meets F rules (Known rules builtinVoids builtinTags builtinAttrs)
      (documentTexts root) (documentDecorators root) := {
    knownRules rules builtinVoids builtinTags builtinAttrs with
    builtinVoid := fun tag htag => .inl ⟨htag, by simp⟩
    builtinElem := fun tag htag attrs hattrs => .inl ⟨htag, hattrs⟩
    inline := fun t _ content hrule _ => (named.node hrule).elim
    block := fun t _ content hrule _ => (named.node hrule).elim
    decorator := fun attrs _ content hrule => (named.node hrule).elim }
  exact meets.eachForest

lemma builtin_names :
    (∀ tag ∈ builtinVoids ++ builtinTags,
      Html.isTagName tag.toList = true ∧ Html.isRawText tag.toList = false) ∧
    ∀ name ∈ builtinAttrs, Html.isAttrName name.toList = true := by
  decide

/-- A rendering reads back as its forest. -/
lemma readBack_renderSegments (named : rules.Named) {root : List RootNode}
    (shaped : isLexicalShaped root = true) :
    readBack (renderSegments F rules root) = some (Html.tokens (forest F rules root)) := by
  have wellNamed : Html.WellNamed (forest F rules root) :=
    Html.Each.imp (named.known_implies builtin_names.1 builtin_names.2) _ (known_forest named root)
  rw [renderSegments_eq shaped]
  exact Html.scan_segments wellNamed

end LexicalHtml

namespace ProseMirrorHtml

variable {json : Json} {rules : Rules}

/-- The names in a document's markup are the built-in ones and those of the rules. -/
lemma known_forest (named : rules.Named) (root : List Node) :
    Html.Each (Known rules builtinVoids builtinTags builtinAttrs) (forest json rules root) := by
  have meets : Meets json rules (Known rules builtinVoids builtinTags builtinAttrs)
      (elements root) := {
    knownRules rules builtinVoids builtinTags builtinAttrs with
    mark := fun hrule lookup => .inr (.inr ⟨_, _, hrule, ruleAttrs_names lookup _⟩)
    builtinVoid := fun tag htag attrs hattrs => .inl ⟨htag, hattrs⟩
    builtinElem := fun tag htag attrs hattrs => .inl ⟨htag, hattrs⟩
    inline := fun t _ content hrule _ => (named.node hrule).elim
    block := fun t _ content hrule _ => (named.node hrule).elim }
  exact meets.eachForest

lemma builtin_names :
    (∀ tag ∈ builtinVoids ++ builtinTags,
      Html.isTagName tag.toList = true ∧ Html.isRawText tag.toList = false) ∧
    ∀ name ∈ builtinAttrs, Html.isAttrName name.toList = true := by
  decide

/-- A rendering reads back as its forest. -/
lemma readBack_renderSegments (named : rules.Named) {root : List Node}
    (shaped : isProsemirrorShaped root = true) :
    readBack (renderSegments json rules root) = some (Html.tokens (forest json rules root)) := by
  have wellNamed : Html.WellNamed (forest json rules root) :=
    Html.Each.imp (named.known_implies builtin_names.1 builtin_names.2) _ (known_forest named root)
  rw [renderSegments_eq shaped]
  exact Html.scan_segments wellNamed

end ProseMirrorHtml

/-! ## The claim for both -/

/-- With declarative, well-named rules a rendering reads back as the forest of the document, its
strings as they are.  All tags and attribute names are known ones, and in documents that differ in
strings alone they are the same, each optional attribute being left out where its value is
empty. -/
theorem strings_escaped :
    (∀ (F : LexicalHtml.Foreign) (rules : Rules) (root : List LexicalHtml.RootNode),
      rules.Named → LexicalHtml.isLexicalShaped root = true →
        readBack (LexicalHtml.renderSegments F rules root) =
            some (Html.tokens (LexicalHtml.forest F rules root)) ∧
          Html.Each (Known rules LexicalHtml.builtinVoids LexicalHtml.builtinTags
            LexicalHtml.builtinAttrs) (LexicalHtml.forest F rules root) ∧
          ∀ root', LexicalHtml.isLexicalShaped root' = true → LexicalHtml.DocumentAlike root root' →
            Html.shape (LexicalHtml.forest F rules root) =
                Html.shape (LexicalHtml.forest F rules root') ∧
              (readBack (LexicalHtml.renderSegments F rules root)).map Html.tags =
                (readBack (LexicalHtml.renderSegments F rules root')).map Html.tags) ∧
    (∀ (json : Json) (rules : Rules) (root : List ProseMirrorHtml.Node),
      rules.Named → ProseMirrorHtml.isProsemirrorShaped root = true →
        readBack (ProseMirrorHtml.renderSegments json rules root) =
            some (Html.tokens (ProseMirrorHtml.forest json rules root)) ∧
          Html.Each (Known rules ProseMirrorHtml.builtinVoids ProseMirrorHtml.builtinTags
            ProseMirrorHtml.builtinAttrs) (ProseMirrorHtml.forest json rules root) ∧
          ∀ root', ProseMirrorHtml.isProsemirrorShaped root' = true →
            ProseMirrorHtml.Alike rules root root' →
            Html.shape (ProseMirrorHtml.forest json rules root) =
                Html.shape (ProseMirrorHtml.forest json rules root') ∧
              (readBack (ProseMirrorHtml.renderSegments json rules root)).map Html.tags =
                (readBack (ProseMirrorHtml.renderSegments json rules root')).map Html.tags) := by
  constructor
  · intro F rules root named shaped
    have back := LexicalHtml.readBack_renderSegments (F := F) named shaped
    refine ⟨back, LexicalHtml.known_forest named root, ?_⟩
    intro root' shaped' alike
    have same := LexicalHtml.forest_shape (F := F) named alike
    have back' := LexicalHtml.readBack_renderSegments (F := F) named shaped'
    refine ⟨same, ?_⟩
    rw [back, back', Option.map_some, Option.map_some, Html.tags_tokens _ _ same]
  · intro json rules root named shaped
    have back : readBack (ProseMirrorHtml.renderSegments json rules root) =
        some (Html.tokens (ProseMirrorHtml.forest json rules root)) :=
      ProseMirrorHtml.readBack_renderSegments named shaped
    refine ⟨back, ProseMirrorHtml.known_forest named root, ?_⟩
    intro root' shaped' alike
    have same : Html.shape (ProseMirrorHtml.forest json rules root) =
        Html.shape (ProseMirrorHtml.forest json rules root') :=
      ProseMirrorHtml.forest_shape named alike
    have back' : readBack (ProseMirrorHtml.renderSegments json rules root') =
        some (Html.tokens (ProseMirrorHtml.forest json rules root')) :=
      ProseMirrorHtml.readBack_renderSegments named shaped'
    refine ⟨same, ?_⟩
    rw [back, back', Option.map_some, Option.map_some, Html.tags_tokens _ _ same]

/-- A figure for every video, and a span for every comment. -/
def figureRules : Rules where
  nodes := [("video", .declarative "figure" false [("src", [.ref "src"])] none .none)]
  marks := [("comment", ⟨"span", [("data-id", [.lit "c-", .ref "id"])]⟩)]

lemma named_figureRules : figureRules.Named where
  node := fun {name rule} h => by
    have only : rule = .declarative "figure" false [("src", [.ref "src"])] none .none := by
      by_cases video : name = "video"
      · subst video
        exact (Option.some.inj h).symm
      · simp [figureRules, Dict.get, List.lookup_cons, beq_false_of_ne video] at h
    rw [only]
    exact ⟨by decide, by decide, by decide⟩
  mark := fun {name rule} h => by
    have only : rule = ⟨"span", [("data-id", [.lit "c-", .ref "id"])]⟩ := by
      by_cases comment : name = "comment"
      · subst comment
        exact (Option.some.inj h).symm
      · simp [figureRules, Dict.get, List.lookup_cons, beq_false_of_ne comment] at h
    rw [only]
    exact ⟨by decide, by decide, by decide⟩

/-- A paragraph of one run. -/
def lexicalParagraph (s : Run) : List LexicalHtml.RootNode :=
  [.text ⟨[("__type", .any (.string "paragraph"))], [.run s]⟩]

/-- A paragraph of one run. -/
def proseMirrorParagraph (s : Run) : List ProseMirrorHtml.Node :=
  [.element "paragraph" [] [.text [.run s none]]]

/-- Markup typed into a paragraph. -/
theorem strings_escaped_script :
    (readBack (LexicalHtml.renderSegments ⟨⟨id, fun _ => ""⟩, fun _ => ""⟩ figureRules
        (lexicalParagraph ⟨"a", by decide⟩))).map Html.tags =
      (readBack (LexicalHtml.renderSegments ⟨⟨id, fun _ => ""⟩, fun _ => ""⟩ figureRules
        (lexicalParagraph ⟨"<script>", by decide⟩))).map Html.tags ∧
    (readBack (ProseMirrorHtml.renderSegments ⟨id, fun _ => ""⟩ figureRules
        (proseMirrorParagraph ⟨"a", by decide⟩))).map Html.tags =
      (readBack (ProseMirrorHtml.renderSegments ⟨id, fun _ => ""⟩ figureRules
        (proseMirrorParagraph ⟨"<script>", by decide⟩))).map Html.tags := by
  constructor
  · refine ((strings_escaped.1 _ _ _ named_figureRules rfl).2.2 _ rfl (.cons ?_ .nil)).2
    refine ⟨rfl, ⟨?_, ?_⟩, trivial, trivial⟩
    · intro heading
      exact absurd heading (by decide)
    · intro list
      exact absurd list (by decide)
  · have alike : ProseMirrorHtml.Alike figureRules (proseMirrorParagraph ⟨"a", by decide⟩)
        (proseMirrorParagraph ⟨"<script>", by decide⟩) :=
      ⟨⟨rfl, rfl, ⟨rfl, rfl, trivial⟩, trivial⟩, trivial⟩
    exact ((strings_escaped.2 _ _ _ named_figureRules rfl).2.2 _ rfl alike).2

lemma named_empty : Rules.empty.Named where
  node := fun h => by simp [Rules.empty, Dict.get] at h
  mark := fun h => by simp [Rules.empty, Dict.get] at h

/-- An empty heading whose `__tag` is this string. -/
def heading (tag : String) : List LexicalHtml.RootNode :=
  [.text ⟨[("__type", .any (.string "heading")), ("__tag", .any (.string tag))], []⟩]

/-- A paragraph of two linked runs, the second to this URL. -/
def linkedRuns (url : String) : List ProseMirrorHtml.Node :=
  [.element "paragraph" [] [.text
    [.run ⟨"a", by decide⟩ (some [("link", .map [("href", .string "x")])]),
      .run ⟨"b", by decide⟩ (some [("link", .map [("href", .string url)])])]]]

lemma runWrappers_link (url : String) (safe : ProseMirrorHtml.unsafeHref "href" url = false) :
    ProseMirrorHtml.runWrappers .empty (some [("link", .map [("href", .string url)])]) =
      [⟨"a", [⟨"href", url, false⟩]⟩] := by
  have slot : ProseMirrorHtml.linkSlot "href" (some (.string url)) = [⟨"href", url, false⟩] := by
    rw [ProseMirrorHtml.linkSlot, stringOf]
    simp [safe]
  have link : ProseMirrorHtml.linkWrappers .empty
      (Dict.get [("link", .map [("href", .string url)])] "link") =
        [⟨"a", [⟨"href", url, false⟩]⟩] := by
    change [ProseMirrorHtml.Wrapper.mk "a"
      (ProseMirrorHtml.linkSlot "href" (some (.string url)))] = _
    rw [slot]
  have custom : ProseMirrorHtml.customWrappers .empty
      [("link", .map [("href", .string url)])] = [] := by
    simp [ProseMirrorHtml.customWrappers, ProseMirrorHtml.customNames, Rules.empty, Dict.keys]
  have format : ProseMirrorHtml.formatWrappers .empty
      [("link", .map [("href", .string url)])] = [] := rfl
  rw [ProseMirrorHtml.runWrappers, format, link, custom]
  rfl

lemma forest_linkedRuns (json : Json) (url : String)
    (safe : ProseMirrorHtml.unsafeHref "href" url = false) :
    ProseMirrorHtml.forest json .empty (linkedRuns url) =
      [.elem "p" [] (ProseMirrorHtml.wrapRun [⟨"a", [⟨"href", "x", false⟩]⟩] (.text "a")
        [.elem "a" [⟨"href", url, false⟩] [.text "b"]])] := by
  change [(.elem "p" [] (ProseMirrorHtml.wrapRun (ProseMirrorHtml.runWrappers .empty _) _
    (ProseMirrorHtml.wrapRun (ProseMirrorHtml.runWrappers .empty _) _ []) ++ []) : Tree)] = _
  rw [runWrappers_link "x" (by decide), runWrappers_link url safe, List.append_nil]
  rfl

/-- Two strings that choose tags: the `__tag` of a heading, and the URL of a run behind a linked
one. -/
theorem strings_choose_tags :
    ¬ (∀ tag tag' : String,
      (readBack (LexicalHtml.renderSegments ⟨⟨id, fun _ => ""⟩, fun _ => ""⟩ .empty
        (heading tag))).map Html.tags =
      (readBack (LexicalHtml.renderSegments ⟨⟨id, fun _ => ""⟩, fun _ => ""⟩ .empty
        (heading tag'))).map Html.tags) ∧
    ¬ (∀ url url' : String,
      (readBack (ProseMirrorHtml.renderSegments ⟨id, fun _ => ""⟩ .empty
        (linkedRuns url))).map Html.tags =
      (readBack (ProseMirrorHtml.renderSegments ⟨id, fun _ => ""⟩ .empty
        (linkedRuns url'))).map Html.tags) := by
  constructor
  · intro same
    have chosen := same "h1" "h2"
    have shaped : ∀ tag, LexicalHtml.isLexicalShaped (heading tag) = true := fun _ => rfl
    rw [LexicalHtml.readBack_renderSegments named_empty (shaped "h1"),
      LexicalHtml.readBack_renderSegments named_empty (shaped "h2")] at chosen
    have names : (Html.Token.startTag "h1" [] : Html.Token Deferred) = .startTag "h2" [] :=
      congrArg (fun toks => (toks.getD []).headD (.endTag "")) chosen
    simp at names
  · intro same
    have chosen := same "x" "y"
    have shaped : ∀ url, ProseMirrorHtml.isProsemirrorShaped (linkedRuns url) = true := fun _ => rfl
    rw [ProseMirrorHtml.readBack_renderSegments named_empty (shaped "x"),
      ProseMirrorHtml.readBack_renderSegments named_empty (shaped "y")] at chosen
    rw [forest_linkedRuns _ "x" (by decide), forest_linkedRuns _ "y" (by decide)] at chosen
    have apart : ProseMirrorHtml.Wrapper.print ⟨"a", [⟨"href", "y", false⟩]⟩ ≠
        ProseMirrorHtml.Wrapper.print ⟨"a", [⟨"href", "x", false⟩]⟩ := by decide
    simp [ProseMirrorHtml.wrapRun, ProseMirrorHtml.enter, ProseMirrorHtml.Wrapper.tree, apart,
      Html.tokens, Html.Tree.tokens, Html.tags] at chosen

end Yrby
