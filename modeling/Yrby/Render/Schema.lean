import Yrby.Framework.Expand
import Yrby.Render.Escaping
import Yrby.Render.Transparent

/-!
# Rule sets whose callbacks write markup

A class such as `Y::Tiptap` or `Y::Lexxy` is a renderer under a rule set of its own, a `Schema`: its
declarative rules have well-formed names, and each callback comes with a `Drawing`, the trees whose
print the callback writes.  An application's rules go in front of a schema's (`rules.nodes`).

`Schema.toHtml_eq_none_iff` says when such a class raises, and `Schema.toHtml_prints` what it
returns otherwise: the print of the renderer's forest with the drawings in the places of the holes
(`Schema.drawn`).  `LexicalHtml.each_owning` and `ProseMirrorHtml.each_owning` say which names and
which holes stand in a rendering.
-/

namespace Yrby

namespace RenderRules

open HtmlCore

/-! ## Drawings -/

/-- What a callback writes, as trees: of the attributes, the child types and the content. -/
abbrev Drawing := Dict Value → List String → List Tree → List Tree

/-- What the callback returns is the print of what is drawn. -/
def Block.Draws (block : Block) (draw : Drawing) : Prop :=
  ∀ (node : Node) (us : List Tree) (out : String), Html.pieces us = Html.chars node.content →
    block node = some out → Html.pieces (draw node.attrs node.childTypes us) = Html.chars out

/-- A rule of a schema: declarative with well-formed names, or a callback that never raises, with
what it draws. -/
inductive SchemaRule
  | declarative (tag : String) (void : Bool) (attrs : List (String × List AttrPart))
    (text : Option (List AttrPart)) (contains : Content)
    (named : (NodeRule.declarative tag void attrs text contains).Named)
  | callback (contains : Content) (block : Block) (draw : Drawing)
    (returns : ∀ node, (block node).isSome) (draws : block.Draws draw)

/-- The rule as the class gives it. -/
def SchemaRule.rule : SchemaRule → Rule
  | .declarative tag void attrs text contains _ => .declarative tag void attrs text contains
  | .callback contains block _ _ _ => .callback contains block

def SchemaRule.drawing : SchemaRule → Drawing
  | .declarative .. => fun _ _ us => us
  | .callback _ _ draw _ _ => draw

abbrev Schema := Dict SchemaRule

namespace Schema

variable (S : Schema)

/-- `NODES` -/
def nodes : Dict Rule := S.map fun entry => (entry.1, entry.2.rule)

/-- What the callback for a type draws. -/
def drawing (type : String) : Drawing :=
  match S.get type with
  | some rule => rule.drawing
  | none => fun _ _ us => us

end Schema

lemma get_map {α β : Type} (d : Dict α) (f : α → β) (key : String) :
    Dict.get (d.map fun entry => (entry.1, f entry.2)) key = (d.get key).map f := by
  induction d with
  | nil => rfl
  | cons entry d ih =>
    obtain ⟨key', value⟩ := entry
    simp only [Dict.get] at ih ⊢
    by_cases here : key = key'
    · simp [here]
    · simp only [List.map_cons, List.lookup_cons, beq_eq_false_iff_ne.mpr here]
      exact ih

lemma mem_of_get {α : Type} {d : Dict α} {key : String} {value : α} (h : d.get key = some value) :
    (key, value) ∈ d := by
  induction d with
  | nil => simp [Dict.get] at h
  | cons entry d ih =>
    obtain ⟨key', value'⟩ := entry
    simp only [Dict.get, List.lookup_cons] at h ih
    by_cases here : key = key'
    · simp_all
    · rw [beq_eq_false_iff_ne.mpr here] at h
      exact List.mem_cons_of_mem _ (ih h)

/-- Another type than those of a schema's callbacks draws its content. -/
lemma Schema.drawing_cases (S : Schema) (type : String) :
    (∃ rule, (type, rule) ∈ S ∧ S.drawing type = rule.drawing) ∨
      S.drawing type = fun _ _ us => us := by
  unfold drawing
  cases there : S.get type with
  | none => exact .inr rfl
  | some rule => exact .inl ⟨rule, mem_of_get there, rfl⟩

/-- A callback of a schema never raises, and writes the print of what is drawn. -/
lemma Schema.draws {S : Schema} {type : String} {block : Block}
    (h : callbacks S.nodes type = some block) :
    (∀ node, (block node).isSome) ∧ block.Draws (S.drawing type) := by
  rw [callbacks, nodes, get_map] at h
  rw [drawing]
  cases there : S.get type with
  | none => simp [there] at h
  | some rule =>
    rw [there, Option.map_some] at h
    cases rule with
    | declarative => simp [SchemaRule.rule] at h
    | callback contains own draw returns draws =>
      obtain rfl : own = block := by simpa [SchemaRule.rule] using h
      exact ⟨returns, draws⟩

/-- A declarative rule of a schema has well-formed names. -/
lemma Schema.named {S : Schema} {type tag : String} {void : Bool}
    {attrs : List (String × List AttrPart)} {text : Option (List AttrPart)} {contains : Content}
    (h : S.nodes.get type = some (.declarative tag void attrs text contains)) :
    (NodeRule.declarative tag void attrs text contains).Named := by
  rw [nodes, get_map] at h
  obtain ⟨rule, there, same⟩ := Option.map_eq_some_iff.mp h
  cases rule with
  | declarative tag' void' attrs' text' contains' named =>
    simp only [SchemaRule.rule, Rule.declarative.injEq] at same
    obtain ⟨rfl, rfl, rfl, rfl, rfl⟩ := same
    exact named
  | callback => simp [SchemaRule.rule] at same

/-! ## Rules in front of a schema -/

lemma get_append {α : Type} (front back : Dict α) (type : String) :
    Dict.get (front ++ back) type = (front.get type).or (back.get type) :=
  List.lookup_append

/-- Declarative rules are no callbacks. -/
lemma callbacks_of_named {app : Dict Rule} {marks : Dict MarkRule}
    (named : (compile app marks).Named) (type : String) : callbacks app type = none := by
  cases there : app.get type with
  | none => rw [callbacks, there]
  | some rule =>
    have kept : (compile app marks).nodes.get type = some (compileNode rule) := by
      rw [get_compile, there, Option.map_some]
    cases rule with
    | declarative tag void attrs text contains => rw [callbacks, there]
    | callback contains block => exact (named.node kept).elim

/-- With declarative rules in front, a callback is one of the schema's. -/
lemma callbacks_append {app nodes : Dict Rule} {marks : Dict MarkRule}
    (named : (compile app marks).Named) {type : String} {block : Block}
    (h : callbacks (app ++ nodes) type = some block) : callbacks nodes type = some block := by
  have own := callbacks_of_named named type
  rw [callbacks, get_append] at h
  rw [callbacks] at own
  cases there : app.get type with
  | none =>
    rw [there, Option.none_or] at h
    exact h
  | some rule =>
    rw [there] at own h
    rw [Option.some_or] at h
    rw [h] at own
    simp at own

/-- A rule of the whole set is the application's or the schema's. -/
lemma rule_append {app nodes : Dict Rule} {type : String} {rule : Rule}
    (h : Dict.get (app ++ nodes) type = some rule) :
    app.get type = some rule ∨ nodes.get type = some rule := by
  rw [get_append, Option.or_eq_some_iff] at h
  exact h.imp id And.right

lemma callback_of_compile {nodes : Dict Rule} {marks : Dict MarkRule} {type : String}
    {content : Content}
    (h : (compile nodes marks).nodes.get type = some (.callback content)) :
    (callbacks nodes type).isSome := by
  rw [get_compile] at h
  obtain ⟨rule, there, compiled⟩ := Option.map_eq_some_iff.mp h
  cases rule with
  | declarative tag void attrs text contains => simp [compileNode] at compiled
  | callback contains block => simp [callbacks, there]

/-! ## The names of a rule set -/

/-- A declarative rule in place of a callback. -/
def plain : NodeRule → NodeRule
  | .declarative tag void attrs text content => .declarative tag void attrs text content
  | .callback content => .declarative "p" false [] none content

/-- The names in the markup of built-in nodes and declarative rules are well formed, when those of
the application and of the schema are. -/
lemma Schema.known_implies (S : Schema) {app : Dict Rule} {marks : Dict MarkRule}
    (named : (compile app marks).Named) {voids tags attrs : List String}
    (htags : ∀ tag ∈ voids ++ tags,
      Html.isTagName tag.toList = true ∧ Html.isRawText tag.toList = false)
    (hattrs : ∀ name ∈ attrs, Html.isAttrName name.toList = true) :
    (Known (compile (app ++ S.nodes) marks) voids tags attrs).Implies Html.names := by
  set rules := compile (app ++ S.nodes) marks with hrules
  let plainly : Rules := ⟨rules.nodes.map fun entry => (entry.1, plain entry.2), marks⟩
  have lookup : ∀ type, plainly.nodes.get type = (rules.nodes.get type).map plain := by
    intro type
    exact get_map rules.nodes plain type
  have namedPlainly : plainly.Named := by
    constructor
    · intro type rule h
      rw [lookup, hrules, get_compile, Option.map_map, Option.map_eq_some_iff] at h
      obtain ⟨given, there, rfl⟩ := h
      cases given with
      | callback contains block => exact ⟨by decide, by decide, by simp⟩
      | declarative tag void slots text contains =>
        rcases rule_append there with own | own
        · exact named.node (by rw [get_compile, own, Option.map_some]; rfl)
        · exact Schema.named own
    · exact named.mark
  refine Html.Local.Implies.mk ?_ ?_ (fun _ _ hole => hole.elim)
  · intro tag slots h
    apply (namedPlainly.known_implies htags hattrs).void
    refine h.imp id ?_
    rintro ⟨name, slots', text, content, hrule, same⟩
    exact ⟨name, slots', text, content, by rw [lookup, hrule]; rfl, same⟩
  · intro tag slots h
    apply (namedPlainly.known_implies htags hattrs).elem
    refine h.imp id (Or.imp ?_ id)
    rintro ⟨name, slots', text, content, hrule, same⟩
    exact ⟨name, slots', text, content, by rw [lookup, hrule]; rfl, same⟩

/-! ## What a class with a schema returns -/

namespace Schema

variable (S : Schema) (decode : String → Dict Value)

/-- What is drawn for a hole. -/
def draw (label : Deferred) (us : List Tree) : List Tree :=
  S.drawing label.nodeType (decode label.attrsJson) label.childTypes us

/-- A rendering with what the callbacks write in it. -/
def drawn (ts : List Tree) : List Tree := Html.expand (S.draw decode) ts

variable {S decode} {app : Dict Rule} {marks : Dict MarkRule}

lemma supplies (named : (compile app marks).Named) (label : Deferred) :
    Html.Supplies (supply decode (callbacks (app ++ S.nodes))) (S.draw decode) label := by
  intro us inside out printed supplied
  obtain ⟨attrs, parsed, rest⟩ := Option.bind_eq_some_iff.mp supplied
  obtain ⟨block, there, called⟩ := Option.bind_eq_some_iff.mp rest
  have same : attrs = decode label.attrsJson := by
    unfold parseJson at parsed
    split at parsed
    · exact (Option.some.inj parsed).symm
    · cases parsed
  subst same
  exact (S.draws (callbacks_append named there)).2 ⟨label.nodeType, _, inside, label.childTypes⟩ us
    out printed called

/-- A callback node is written if and only if `JSON.parse` reads its attributes. -/
lemma supply_isSome (named : (compile app marks).Named) {label : Deferred}
    (own : (callbacks (app ++ S.nodes) label.nodeType).isSome) (inside : String) :
    (supply decode (callbacks (app ++ S.nodes)) label inside).isSome ↔
      nesting label.attrsJson ≤ maxNesting := by
  obtain ⟨block, there⟩ := Option.isSome_iff_exists.mp own
  unfold supply parseJson
  by_cases fits : nesting label.attrsJson ≤ maxNesting
  · rw [if_pos fits, Option.bind_some, there, Option.bind_some]
    exact iff_of_true ((S.draws (callbacks_append named there)).1 _) fits
  · rw [if_neg fits]
    exact iff_of_false (by simp) fits

section

variable {ts : List Tree}
  (own : ∀ label ∈ Html.holes ts, (callbacks (app ++ S.nodes) label.nodeType).isSome)

include own

/-- A class with a schema raises when `JSON.parse` refuses the attributes of a callback node, and
for no other reason. -/
theorem toHtml_eq_none_iff (named : (compile app marks).Named) :
    toHtml decode (callbacks (app ++ S.nodes)) (some (some (Html.segments ts))) = none ↔
      ∃ label ∈ Html.holes ts, maxNesting < nesting label.attrsJson := by
  rw [toHtml_segments, Option.map_eq_none_iff, Html.fill_segments, Option.map_eq_none_iff]
  constructor
  · intro refused
    by_contra fits
    push Not at fits
    have written : (Html.filled (supply decode (callbacks (app ++ S.nodes))) ts).isSome :=
      Html.filled_isSome ts fun label h inside =>
        (supply_isSome named (own label h) inside).mpr (fits label h)
    rw [refused] at written
    cases written
  · rintro ⟨label, h, deep⟩
    apply Html.filled_of_refused ?_ ts h
    intro inside
    rw [← Option.not_isSome_iff_eq_none, supply_isSome named (own label h)]
    exact Nat.not_le.mpr deep

end

/-- A result is the print of the forest with the drawings in it. -/
theorem toHtml_prints (named : (compile app marks).Named) {ts : List Tree} {out : String}
    (h : toHtml decode (callbacks (app ++ S.nodes)) (some (some (Html.segments ts))) =
      some (some out)) :
    Html.pieces (S.drawn decode ts) = Html.chars out := by
  rw [toHtml_segments, Option.map_eq_some_iff] at h
  obtain ⟨written, filled, same⟩ := h
  obtain rfl := Option.some.inj same
  rw [Html.fill_segments] at filled
  obtain ⟨cs, chars, rfl⟩ := Option.map_eq_some_iff.mp filled
  have printed := Html.filled_eq_expand ts (fun label _ => supplies named label) cs chars
  rw [drawn, printed, Html.chars, String.toList_ofList]

end Schema

end RenderRules

/-! ## The names in what a class returns -/

open HtmlCore RenderRules

namespace LexicalHtml

variable {F : Foreign} {S : Schema} {app : Dict Rule} {root : List RootNode}
  {P : Html.Local Deferred} {owned : Deferred → Prop}

/-- The tags of a rendering meet what known tags meet, and its holes what callback nodes of the
document meet. -/
lemma each_owning
    (known : (Known (compile (app ++ S.nodes) []) builtinVoids builtinTags builtinAttrs).Implies P)
    (texts : ∀ t ∈ documentTexts root, (callbacks (app ++ S.nodes) (nodeType t)).isSome →
      owned (deferredText F t))
    (decorators : ∀ attrs ∈ documentDecorators root,
      (callbacks (app ++ S.nodes) (typeOf attrs)).isSome →
        owned ⟨typeOf attrs, xmlAttrsJson F.toJson attrs, []⟩) :
    Html.Each (P.owning owned) (forest F (compile (app ++ S.nodes) []) root) := by
  have rules := knownRules (compile (app ++ S.nodes) []) builtinVoids builtinTags builtinAttrs
  have meets : Meets F (compile (app ++ S.nodes) []) (P.owning owned) (documentTexts root)
      (documentDecorators root) := {
    void := fun hrule lookup => known.void _ _ (rules.void hrule lookup)
    elem := fun hrule lookup => known.elem _ _ (rules.elem hrule lookup)
    builtinVoid := fun tag htag => known.void _ _ (.inl ⟨htag, by simp⟩)
    builtinElem := fun tag htag attrs hattrs => known.elem _ _ (.inl ⟨htag, hattrs⟩)
    inline := fun t ht content hrule _ => texts t ht (callback_of_compile hrule)
    block := fun t ht content hrule _ => texts t ht (callback_of_compile hrule)
    decorator := fun attrs ha content hrule => decorators attrs ha (callback_of_compile hrule) }
  exact meets.eachForest

/-- Every hole of a rendering is for a callback. -/
lemma holes_callbacks (label : Deferred)
    (h : label ∈ Html.holes (forest F (compile (app ++ S.nodes) []) root)) :
    (callbacks (app ++ S.nodes) label.nodeType).isSome := by
  have each : Html.Each ((Known (compile (app ++ S.nodes) []) builtinVoids builtinTags
      builtinAttrs).owning fun label => (callbacks (app ++ S.nodes) label.nodeType).isSome)
      (forest F (compile (app ++ S.nodes) []) root) :=
    each_owning ⟨fun _ _ h => h, fun _ _ h => h, fun _ _ h => h⟩ (fun _ _ own => own)
      fun _ _ own => own
  exact Html.owned_of_each (fun _ _ own => own) _ each label h

end LexicalHtml

namespace ProseMirrorHtml

variable {json : Json} {S : Schema} {app : Dict Rule} {marks : Dict MarkRule} {root : List Node}
  {P : Html.Local Deferred} {owned : Deferred → Prop}

/-- The tags of a rendering meet what known tags meet, and its holes what callback nodes of the
document meet. -/
lemma each_owning
    (known : (Known (compile (app ++ S.nodes) marks) builtinVoids builtinTags
      builtinAttrs).Implies P)
    (nodes : ∀ e ∈ elements root, (callbacks (app ++ S.nodes) e.tag).isSome →
      owned (deferredElement json e)) :
    Html.Each (P.owning owned) (forest json (compile (app ++ S.nodes) marks) root) := by
  have rules := knownRules (compile (app ++ S.nodes) marks) builtinVoids builtinTags builtinAttrs
  have meets : Meets json (compile (app ++ S.nodes) marks) (P.owning owned) (elements root) := {
    void := fun hrule lookup => known.void _ _ (rules.void hrule lookup)
    elem := fun hrule lookup => known.elem _ _ (rules.elem hrule lookup)
    mark := fun hrule lookup =>
      known.elem _ _ (.inr (.inr ⟨_, _, hrule, ruleAttrs_names lookup _⟩))
    builtinVoid := fun tag htag attrs hattrs => known.void _ _ (.inl ⟨htag, hattrs⟩)
    builtinElem := fun tag htag attrs hattrs => known.elem _ _ (.inl ⟨htag, hattrs⟩)
    inline := fun e he content hrule _ => nodes e he (callback_of_compile hrule)
    block := fun e he content hrule _ => nodes e he (callback_of_compile hrule) }
  exact meets.eachForest

/-- Every hole of a rendering is for a callback. -/
lemma holes_callbacks (label : Deferred)
    (h : label ∈ Html.holes (forest json (compile (app ++ S.nodes) marks) root)) :
    (callbacks (app ++ S.nodes) label.nodeType).isSome := by
  have each : Html.Each ((Known (compile (app ++ S.nodes) marks) builtinVoids builtinTags
      builtinAttrs).owning fun label => (callbacks (app ++ S.nodes) label.nodeType).isSome)
      (forest json (compile (app ++ S.nodes) marks) root) :=
    each_owning ⟨fun _ _ h => h, fun _ _ h => h, fun _ _ h => h⟩ fun _ _ own => own
  exact Html.owned_of_each (fun _ _ own => own) _ each label h

end ProseMirrorHtml

end Yrby
