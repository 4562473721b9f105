import Yrby.Render.ProseMirrorForest

/-!
# Mark runs

`render_text_runs` keeps the wrappers that adjacent runs share open.  Its output is the print of a
forest (`runsForest`), so it is balanced, and the tags that are open around a run's text are the
ancestors of that text in the forest.

`wrapRun` adds a run in front of a forest: it descends into the first tree as long as that tree
prints as the run's next wrapper.  So the run gets its own wrappers for ancestors and no other run's
ancestors change (`around_wrapRun`), which is what wrapping each run alone would give.
-/

namespace Yrby

namespace ProseMirrorHtml

open HtmlCore

/-! ## The tags around a text -/

mutual

/-- The texts of a tree, each with the opening and closing tags around it, outermost first. -/
def treeAround (outer : List (String × String)) : Tree → List (List (String × String) × String)
  | .text s => [(outer, s)]
  | .void _ _ => []
  | .elem tag attrs children => around (outer ++ [Wrapper.print ⟨tag, attrs⟩]) children
  | .hole _ content => around outer content

def around (outer : List (String × String)) : List Tree → List (List (String × String) × String)
  | [] => []
  | t :: ts => treeAround outer t ++ around outer ts

end

lemma around_tree (outer : List (String × String)) (w : Wrapper) (children ts : List Tree) :
    around outer (w.tree children :: ts) =
      around (outer ++ [w.print]) children ++ around outer ts := by
  rw [around, Wrapper.tree, treeAround]

/-- The first tree, when it is entered, is around its content what the wrapper is. -/
lemma around_enter {w : Wrapper} {ts children rest : List Tree}
    (h : enter w ts = some (children, rest)) (outer : List (String × String)) :
    around outer ts = around (outer ++ [w.print]) children ++ around outer rest := by
  unfold enter at h
  split at h
  · rename_i tag attrs inside behind
    split at h
    · rename_i same
      obtain ⟨rfl, rfl⟩ : inside = children ∧ behind = rest := by simpa using h
      rw [around, treeAround, same]
    · simp at h
  · simp at h

/-- A run in front of a forest is wrapped by its own wrappers, and the texts behind it by theirs. -/
lemma around_wrapRun (ws : List Wrapper) (s : String) (ts : List Tree)
    (outer : List (String × String)) :
    around outer (wrapRun ws (.text s) ts) =
      (outer ++ ws.map Wrapper.print, s) :: around outer ts := by
  induction ws generalizing ts outer with
  | nil => simp [wrapRun, around, treeAround]
  | cons w ws ih =>
    rw [wrapRun]
    cases entered : enter w ts with
    | some inside =>
      obtain ⟨children, rest⟩ := inside
      have behind := around_enter entered outer
      simp only [around_tree, ih, behind]
      simp
    | none =>
      simp only [around_tree, ih]
      simp [around]

/-- The runs among a text's diffs. -/
def textRuns (diffs : List TextDiff) : List (Run × Option (Dict Value)) :=
  diffs.filterMap fun d =>
    match d with
    | .run s marks => some (s, marks)
    | .embed => none

lemma around_runsForest (rules : Rules) (diffs : List TextDiff) :
    around [] (runsForest rules diffs) =
      (textRuns diffs).map fun r => (runStack rules r.2, r.1.text) := by
  induction diffs with
  | nil => rfl
  | cons d diffs ih =>
    cases d with
    | embed => exact ih
    | run s marks =>
      have first : textRuns (.run s marks :: diffs) = (s, marks) :: textRuns diffs := rfl
      rw [runsForest, around_wrapRun, ih, first, List.map_cons, runStack_eq, List.nil_append]

/-! ## Balance -/

/-- Elements and texts only. -/
def noVoids : Html.Local Deferred where
  void _ _ := False
  elem _ _ := True
  hole _ _ := False

/-! ## The code mark -/

/-- A wrapper that a run with the code mark may have: the built-in code tag, a link, or what a rule
makes of the code or the link mark. -/
inductive CodeOrLink (rules : Rules) (marks : Dict Value) : String × String → Prop
  | code : CodeOrLink rules marks (tagPair "code")
  | link {entries : Dict Value} (h : mapOf (marks.get "link") = some entries) :
      CodeOrLink rules marks (linkOpen entries, "</a>")
  | rule {name : String} {rule : MarkRule} (hname : name ∈ ["code", "link"])
      (hmark : marks.containsKey name) (hrule : rules.marks.get name = some rule) :
      CodeOrLink rules marks (customMarkOpen rule (marks.get name), "</" ++ rule.tag ++ ">")

lemma formatStack_of_code {rules : Rules} {marks : Dict Value} (hcode : marks.containsKey "code") :
    ∀ w ∈ formatStack rules marks, w = tagPair "code" := by
  intro w hw
  unfold formatStack at hw
  split at hw
  · exact List.mem_singleton.1 hw
  · simp [hcode] at hw

lemma codeOrLink_of_mem {rules : Rules} {marks : Dict Value} (hcode : marks.containsKey "code")
    {w : String × String} (hw : w ∈ runStack rules (some marks)) : CodeOrLink rules marks w := by
  simp only [runStack, List.mem_reverse, List.mem_append] at hw
  rcases hw with (format | link) | custom
  · rw [formatStack_of_code hcode w format]
    exact .code
  · unfold linkStack at link
    split at link
    · simp at link
    · split at link
      · rename_i entries hmap
        rw [List.mem_singleton.1 link]
        exact .link hmap
      · simp at link
  · obtain ⟨name, hname, hrule⟩ := List.mem_filterMap.1 custom
    obtain ⟨rule, hget, rfl⟩ := Option.map_eq_some_iff.1 hrule
    simp only [customNames, List.mem_mergeSort, List.mem_filter, Bool.and_eq_true, hcode,
      Bool.not_true, Bool.false_or, decide_eq_true_eq] at hname
    exact .rule hname.2.2 hname.2.1 hget

/-! ## The theorem -/

/-- What wrapping each run alone would promise of an output. -/
structure WrappedAlone (rules : Rules) (diffs : List TextDiff) (out : List Segment) : Prop where
  /-- Every tag is closed, innermost first. -/
  balanced : Html.Balanced (fun _ => False) (fun _ _ => False) out
  /-- The output prints a forest whose texts are the runs, in order, each between the tags of its
  own stack. -/
  runs : ∃ forest, out = Html.segments forest ∧
    around [] forest = (textRuns diffs).map fun r => (runStack rules r.2, r.1.text)
  /-- A run with the code mark is wrapped by code and link only. -/
  code : ∀ s marks, (s, some marks) ∈ textRuns diffs → marks.containsKey "code" →
    ∀ w ∈ runStack rules (some marks), CodeOrLink rules marks w

/-- **Sharing wrappers changes nothing.**  Whatever the runs, their marks and the rules, the output
is balanced, and the tags around each run's text are those of its own marks. -/
theorem runs_wrapped_alone (rules : Rules) (diffs : List TextDiff) :
    ∃ out, emitted (renderTextRuns rules diffs) = some out ∧ WrappedAlone rules diffs out := by
  refine ⟨Html.segments (runsForest rules diffs), (yields_renderTextRuns rules diffs).emitted, ?_⟩
  refine ⟨?_, ⟨_, rfl, around_runsForest rules diffs⟩, ?_⟩
  · have plain : Html.Each noVoids (runsForest rules diffs) :=
      each_runsForest (fun _ _ _ => trivial) diffs
    exact Html.balanced_segments (fun _ _ h => h) plain
  · intro s marks _ hcode w hw
    exact codeOrLink_of_mem hcode hw

end ProseMirrorHtml

end Yrby
