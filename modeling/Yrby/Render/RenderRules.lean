import Yrby.Framework.Splice
import Yrby.Render.HtmlCore

/-!
# Custom rules in Ruby

The Ruby side of a rendering: a rule set is compiled for the native renderer (`compile`), which
leaves a hole where a callback rule stands, and `splice` calls the callbacks on what comes back.

Two rule sets may differ in that some plain declarative rules are callbacks that write the same tag
around their content (`Replaces`).  `Defers` is what this means to a native renderer, and
`Defers.toHtml_eq_iff` what it means to the result: the two agree as soon as the forests of the two
renderings are `Html.Deferring`, but for the attributes that `JSON.parse` refuses.

What `JSON.parse` returns is a parameter; when it raises is not (`parseJson`).
-/

namespace Yrby

namespace RenderRules

open HtmlCore

/-! ## JSON -/

/-- JSON's default `max_nesting`. -/
def maxNesting : ℕ := 100

/-- Where a reader of JSON text is. -/
structure Scan where
  depth : ℕ
  deepest : ℕ
  quoted : Bool
  escaped : Bool
  deriving DecidableEq

def Scan.init : Scan := ⟨0, 0, false, false⟩

/-- One more character.  Brackets and braces in a string do not count. -/
def Scan.step (s : Scan) (c : Char) : Scan :=
  if s.escaped then { s with escaped := false }
  else if s.quoted then
    if c = '\\' then { s with escaped := true }
    else if c = '"' then { s with quoted := false }
    else s
  else if c = '"' then { s with quoted := true }
  else if c = '[' ∨ c = '\x7b' then
    { s with depth := s.depth + 1, deepest := max s.deepest (s.depth + 1) }
  else if c = ']' ∨ c = '\x7d' then { s with depth := s.depth - 1 }
  else s

/-- How deep arrays and objects nest in a JSON text. -/
def nesting (text : String) : ℕ := (text.toList.foldl Scan.step Scan.init).deepest

/-- `JSON.parse` of an object that an encoder wrote.  `none` is a `JSON::NestingError`. -/
def parseJson (decode : String → Dict Value) (text : String) : Option (Dict Value) :=
  if nesting text ≤ maxNesting then some (decode text) else none

/-! ## Rules -/

/-- What a callback receives. -/
structure Node where
  type : String
  attrs : Dict Value
  content : String
  childTypes : List String

/-- A callback.  `none` is an exception. -/
abbrev Block := Node → Option String

/-- A rule as the application gives it. -/
inductive Rule
  | declarative (tag : String) (void : Bool) (attrs : List (String × List AttrPart))
    (text : Option (List AttrPart)) (contains : Content)
  | callback (contains : Content) (block : Block)

/-- What the native renderer gets of a rule. -/
def compileNode : Rule → NodeRule
  | .declarative tag void attrs text contains => .declarative tag void attrs text contains
  | .callback contains _ => .callback contains

/-- The rules for the native renderer. -/
def compile (nodes : Dict Rule) (marks : Dict MarkRule) : Rules :=
  ⟨nodes.map fun entry => (entry.1, compileNode entry.2), marks⟩

/-- The callbacks, by type. -/
def callbacks (nodes : Dict Rule) (type : String) : Option Block :=
  match nodes.get type with
  | some (.callback _ block) => some block
  | _ => none

/-! ## Splicing -/

/-- What flattening produced. -/
inductive Flattened
  | html (s : String)
  | deferred (segments : List Segment)

def isDeferred : Segment → Bool
  | .html _ => false
  | .hole _ _ => true

/-- Join the segments when every one is finished markup. -/
def flatten (segments : List Segment) : Flattened :=
  if segments.any isDeferred then .deferred segments
  else
    .html (segments.foldl (fun out seg =>
      match seg with
      | .html s => if out.isEmpty then s else out ++ s
      | .hole _ _ => out) "")

section

variable (decode : String → Dict Value) (callbacks : String → Option Block)

mutual

def spliceSegment : Segment → Option String
  | .html s => some s
  | .hole label content => do
    let attrs ← parseJson decode label.attrsJson
    let content ← splice content
    let block ← callbacks label.nodeType
    block ⟨label.nodeType, attrs, content, label.childTypes⟩

/-- Resolve the callbacks, depth first. -/
def splice : List Segment → Option String
  | [] => some ""
  | seg :: segs => do
    let head ← spliceSegment seg
    let rest ← splice segs
    some (head ++ rest)

end

/-- The result of `to_html`, given that of the native renderer.  The outer `none` is an exception,
the inner one is `nil`. -/
def toHtml : Option (Option (List Segment)) → Option (Option String)
  | none => none
  | some none => some none
  | some (some segments) =>
    match flatten segments with
    | .html s => some (some s)
    | .deferred segments => (splice decode callbacks segments).map some

/-- The markup of one callback node. -/
def supply (label : Deferred) (content : String) : Option String :=
  (parseJson decode label.attrsJson).bind fun attrs =>
    (callbacks label.nodeType).bind fun block =>
      block ⟨label.nodeType, attrs, content, label.childTypes⟩

variable {decode callbacks}

mutual

lemma spliceSegment_eq_fill : ∀ seg : Segment,
    spliceSegment decode callbacks seg = seg.fill (supply decode callbacks)
  | .html s => by rw [spliceSegment, Html.Segment.fill]
  | .hole label content => by
    have inside := splice_eq_fill content
    rw [spliceSegment, Html.Segment.fill, inside]
    unfold supply
    cases parseJson decode label.attrsJson with
    | none => cases Html.fill _ content <;> rfl
    | some attrs => rfl

/-- Splicing is filling the holes with what the callbacks make of them. -/
lemma splice_eq_fill : ∀ segs : List Segment,
    splice decode callbacks segs = Html.fill (supply decode callbacks) segs
  | [] => by rw [splice, Html.fill]
  | seg :: segs => by
    rw [splice, Html.fill, spliceSegment_eq_fill seg, splice_eq_fill segs]
    cases seg.fill (supply decode callbacks) with
    | none => rfl
    | some head => cases Html.fill (supply decode callbacks) segs <;> rfl

end

lemma fill_finished (segs : List Segment) (finished : segs.any isDeferred = false) (out : String) :
    (Html.fill (supply decode callbacks) segs).map (out ++ ·) =
      some (segs.foldl (fun out seg =>
        match seg with
        | .html s => if out.isEmpty then s else out ++ s
        | .hole _ _ => out) out) := by
  induction segs generalizing out with
  | nil => simp [Html.fill]
  | cons seg segs ih =>
    rw [List.any_cons, Bool.or_eq_false_iff] at finished
    cases seg with
    | hole label content => simp [isDeferred] at finished
    | html s =>
      have joined : (if out.isEmpty then s else out ++ s) = out ++ s := by
        by_cases empty : out = ""
        · simp [empty]
        · simp [empty]
      rw [List.foldl_cons]
      dsimp only
      rw [joined, ← ih finished.2, Html.fill, Html.Segment.fill, Option.bind_some, Option.map_map]
      simp [Function.comp_def, String.append_assoc]

/-- Finished markup or not, the result is the segments with their holes filled. -/
lemma toHtml_segments (segs : List Segment) :
    toHtml decode callbacks (some (some segs)) =
      (Html.fill (supply decode callbacks) segs).map some := by
  rw [toHtml, flatten]
  by_cases deferred : segs.any isDeferred = true
  · rw [if_pos deferred]
    dsimp only
    rw [splice_eq_fill]
  · rw [if_neg deferred]
    have joined : (Html.fill (supply decode callbacks) segs).map ("" ++ ·) = _ :=
      fill_finished segs (Bool.eq_false_iff.mpr deferred) ""
    simp only [String.empty_append, Option.map_id'] at joined
    rw [joined]
    rfl

end

/-! ## Callbacks instead of declarative rules -/

/-- A block that writes a tag around the content. -/
def wrapping (tag : String) : Block := fun node =>
  some ("<" ++ tag ++ ">" ++ node.content ++ "</" ++ tag ++ ">")

/-- A rule is the same, or a callback in place of a declarative rule with a tag, no attributes and
no text, that is not void. -/
inductive Replaces : Rule → Rule → Prop
  | same (rule : Rule) : Replaces rule rule
  | callback (tag : String) (contains : Content) :
    Replaces (.declarative tag false [] none contains) (.callback contains (wrapping tag))

/-- Rule by rule. -/
def ReplacesAll : Dict Rule → Dict Rule → Prop :=
  List.Forall₂ fun a b => a.1 = b.1 ∧ Replaces a.2 b.2

/-- The tag of the rule that was replaced for this node. -/
def tagOf (nodes nodes' : Dict Rule) (label : Deferred) : Option String :=
  match nodes.get label.nodeType, nodes'.get label.nodeType with
  | some (.declarative tag _ _ _ _), some (.callback _ _) => some tag
  | _, _ => none

/-- A native rule is the same and stands for no tag, or it is deferred and stands for its own. -/
inductive DefersRule (tagOf : Deferred → Option String) (type : String) : NodeRule → NodeRule → Prop
  | same (rule : NodeRule) (own : ∀ label, label.nodeType = type → tagOf label = none) :
    DefersRule tagOf type rule rule
  | callback (tag : String) (content : Content)
    (stands : ∀ label, label.nodeType = type → tagOf label = some tag) :
    DefersRule tagOf type (.declarative tag false [] none content) (.callback content)

/-- Rule sets of a native renderer, one of which defers some plain rules of the other. -/
structure Defers (tagOf : Deferred → Option String) (rules rules' : Rules) : Prop where
  marks : rules'.marks = rules.marks
  nodes : ∀ type, (rules.nodes.get type = none ∧ rules'.nodes.get type = none) ∨
    ∃ rule rule', rules.nodes.get type = some rule ∧ rules'.nodes.get type = some rule' ∧
      DefersRule tagOf type rule rule'

lemma ReplacesAll.get {nodes nodes' : Dict Rule} (h : ReplacesAll nodes nodes') (type : String) :
    (nodes.get type = none ∧ nodes'.get type = none) ∨
      ∃ rule rule', nodes.get type = some rule ∧ nodes'.get type = some rule' ∧
        Replaces rule rule' := by
  induction h with
  | nil => exact .inl ⟨rfl, rfl⟩
  | @cons a b as bs head _ ih =>
    obtain ⟨key, rule⟩ := a
    obtain ⟨key', rule'⟩ := b
    obtain ⟨rfl, replaces⟩ : key = key' ∧ Replaces rule rule' := head
    by_cases here : type = key
    · subst here
      exact .inr ⟨rule, rule', by simp [Dict.get], by simp [Dict.get], replaces⟩
    · simpa [Dict.get, List.lookup_cons, beq_eq_false_iff_ne.mpr here] using ih

lemma get_compile (nodes : Dict Rule) (marks : Dict MarkRule) (type : String) :
    (compile nodes marks).nodes.get type = (nodes.get type).map compileNode := by
  unfold compile
  induction nodes with
  | nil => rfl
  | cons entry nodes ih =>
    obtain ⟨key, rule⟩ := entry
    simp only [Dict.get] at ih ⊢
    by_cases here : type = key
    · simp [here]
    · simp only [List.map_cons, List.lookup_cons, beq_eq_false_iff_ne.mpr here]
      exact ih

/-- Compiled, the rules that were replaced are deferred. -/
lemma ReplacesAll.defers {nodes nodes' : Dict Rule} (h : ReplacesAll nodes nodes')
    (marks : Dict MarkRule) :
    Defers (tagOf nodes nodes') (compile nodes marks) (compile nodes' marks) := by
  refine ⟨rfl, fun type => ?_⟩
  rw [get_compile, get_compile]
  rcases h.get type with ⟨absent, absent'⟩ | ⟨rule, rule', there, there', replaces⟩
  · left
    rw [absent, absent']
    exact ⟨rfl, rfl⟩
  · right
    refine ⟨compileNode rule, compileNode rule', by rw [there]; rfl, by rw [there']; rfl, ?_⟩
    cases replaces with
    | same =>
      apply DefersRule.same
      rintro label rfl
      rw [tagOf, there, there']
      cases rule <;> rfl
    | callback tag contains =>
      apply DefersRule.callback
      rintro label rfl
      rw [tagOf, there, there']

section

variable {decode : String → Dict Value} {nodes nodes' : Dict Rule}

/-- A node whose rule was kept is supplied as before. -/
lemma ReplacesAll.supply_kept (h : ReplacesAll nodes nodes') (label : Deferred) (inside : String)
    (own : tagOf nodes nodes' label = none) :
    supply decode (callbacks nodes') label inside =
      supply decode (callbacks nodes) label inside := by
  have same : callbacks nodes' label.nodeType = callbacks nodes label.nodeType := by
    rcases h.get label.nodeType with ⟨absent, absent'⟩ | ⟨rule, rule', there, there', replaces⟩
    · rw [callbacks, callbacks, absent, absent']
    · cases replaces with
      | same => rw [callbacks, callbacks, there, there']
      | callback tag contains => simp [tagOf, there, there'] at own
  rw [supply, supply, same]

/-- A node whose rule was replaced gets its tag back, when its attributes can be parsed. -/
lemma ReplacesAll.supply_replaced (h : ReplacesAll nodes nodes') (label : Deferred) (tag : String)
    (inside : String) (stands : tagOf nodes nodes' label = some tag) :
    supply decode (callbacks nodes') label inside =
      if nesting label.attrsJson ≤ maxNesting then
        some ("<" ++ tag ++ ">" ++ inside ++ "</" ++ tag ++ ">")
      else none := by
  rcases h.get label.nodeType with ⟨absent, absent'⟩ | ⟨rule, rule', there, there', replaces⟩
  · simp [tagOf, absent] at stands
  · cases replaces with
    | same => cases rule <;> simp [tagOf, there, there'] at stands
    | callback tag' contains =>
      obtain rfl : tag' = tag := by simpa [tagOf, there, there'] using stands
      have block : callbacks nodes' label.nodeType = some (wrapping tag') := by
        rw [callbacks, there']
      unfold supply parseJson
      rw [block]
      split
      · rfl
      · rfl

/-- Two native renderings whose forests differ in deferred elements have the same result, unless
`JSON.parse` refuses the attributes of a node that is deferred in the second alone. -/
theorem ReplacesAll.toHtml_eq_iff (h : ReplacesAll nodes nodes') {ts us : List Tree}
    (forests : Html.Deferring (tagOf nodes nodes') ts us) :
    toHtml decode (callbacks nodes') (some (some (Html.segments us))) =
        toHtml decode (callbacks nodes) (some (some (Html.segments ts))) ↔
      toHtml decode (callbacks nodes) (some (some (Html.segments ts))) = none ∨
        ∀ label ∈ Html.holes us, (tagOf nodes nodes' label).isSome →
          nesting label.attrsJson ≤ maxNesting := by
  have filled : Html.fill (supply decode (callbacks nodes')) (Html.segments us) =
      Html.fill (supply decode (callbacks nodes)) (Html.segments ts) ↔
      Html.fill (supply decode (callbacks nodes)) (Html.segments ts) = none ∨
        ∀ label ∈ Html.holes us, (tagOf nodes nodes' label).isSome →
          nesting label.attrsJson ≤ maxNesting := by
    apply forests.fill_eq_iff h.supply_kept
    · intro label tag inside stands fits
      rw [h.supply_replaced label tag inside stands, if_pos fits]
    · intro label tag inside stands deep
      rw [h.supply_replaced label tag inside stands, if_neg deep]
  have injective : ∀ a b : Option String, a.map some = b.map some ↔ a = b := by
    intro a b
    cases a <;> cases b <;> simp
  rw [toHtml_segments, toHtml_segments, injective, filled, Option.map_eq_none_iff]

end

/-! ## What a rule's node becomes -/

section

variable {tagOf : Deferred → Option String}

lemma DefersRule.ruleTree (label : Deferred) {rule rule' : NodeRule}
    (h : DefersRule tagOf label.nodeType rule rule') (lookup : String → Option String)
    {body body' : Content → List Tree}
    (inside : ∀ content, Html.Deferring tagOf (body content) (body' content)) :
    Html.Deferring tagOf [ruleTree lookup label body rule] [ruleTree lookup label body' rule'] := by
  cases h with
  | callback tag content stands => exact .defer (stands label rfl) (inside content) .nil
  | same rule own =>
    cases rule with
    | callback content => exact .hole (own label rfl) (inside content) .nil
    | declarative tag void attrs text content =>
      cases void with
      | true => exact .void tag _ .nil
      | false => exact .elem tag _ (.text _ (inside content)) .nil

lemma deferring_paragraphForest {inline inline' empty : List Tree}
    (h : Html.Deferring tagOf inline inline') (hempty : Html.Deferring tagOf empty empty) :
    Html.Deferring tagOf (paragraphForest inline empty) (paragraphForest inline' empty) := by
  have same := h.pieces_eq_nil
  unfold paragraphForest
  by_cases nothing : Html.pieces inline = []
  · simpa [nothing, same.mpr nothing] using hempty
  · have something : Html.pieces inline' ≠ [] := fun none => nothing (same.mp none)
    simpa [nothing, something] using h.element "p" []

end

end RenderRules

end Yrby
