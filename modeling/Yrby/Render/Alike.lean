import Yrby.Render.Walk

/-!
# Documents that differ in their strings

`Value.blank` empties every string in a value, at any depth, and keeps its keys and everything
else; `blankAttrs` does so for stored attributes, but for the keys it is told to keep.  Attributes
with the same blank are *alike*.  What a renderer reads off alike attributes besides strings is the
same (`AttrsAlike.read`), and a rule makes trees of one shape of them.

`Known` and `Rules.Named` say where the names in the markup come from: the built-in ones and those
of declarative rules, which are well formed.
-/

namespace Yrby

namespace HtmlCore

/-! ## Values -/

mutual

/-- The value with every string emptied. -/
def Value.blank : Value → Value
  | .string _ => .string ""
  | .array items => .array (blankItems items)
  | .map entries => .map (blankEntries entries)
  | .null => .null
  | .undefined => .undefined
  | .bool b => .bool b
  | .int n => .int n
  | .float n => .float n
  | .bigInt n => .bigInt n
  | .buffer bytes => .buffer bytes

def blankItems : List Value → List Value
  | [] => []
  | v :: vs => v.blank :: blankItems vs

def blankEntry : String × Value → String × Value
  | (key, v) => (key, v.blank)

def blankEntries : List (String × Value) → List (String × Value)
  | [] => []
  | e :: es => blankEntry e :: blankEntries es

end

/-- Two values of one kind, a kind that holds strings. -/
inductive Value.BothHoldStrings : Value → Value → Prop
  | string (s s' : String) : BothHoldStrings (.string s) (.string s')
  | array (items items' : List Value) : BothHoldStrings (.array items) (.array items')
  | map (entries entries' : List (String × Value)) : BothHoldStrings (.map entries) (.map entries')

/-- Values with one blank are the same, or both of a kind that holds strings. -/
lemma Value.blank_cases {v v' : Value} (h : v.blank = v'.blank) :
    v = v' ∨ v.BothHoldStrings v' := by
  cases v <;> cases v' <;> simp only [blank, reduceCtorEq] at h
  case null.null => exact .inl rfl
  case undefined.undefined => exact .inl rfl
  case string.string s s' => exact .inr (.string s s')
  case array.array items items' => exact .inr (.array items items')
  case map.map entries entries' => exact .inr (.map entries entries')
  all_goals exact .inl h

lemma blankEntries_eq_map (entries : List (String × Value)) :
    blankEntries entries = entries.map fun e => (e.1, e.2.blank) := by
  induction entries with
  | nil => rw [blankEntries, List.map_nil]
  | cons e es ih => rw [blankEntries, ih, List.map_cons, blankEntry]

lemma Dict.get_map {α β : Type} (f : String → α → β) (d : Dict α) (key : String) :
    Dict.get (d.map fun e => (e.1, f e.1 e.2)) key = (d.get key).map (f key) := by
  induction d with
  | nil => rfl
  | cons e d ih =>
    obtain ⟨k, v⟩ := e
    unfold Dict.get at ih ⊢
    rw [List.map_cons, List.lookup_cons, List.lookup_cons]
    by_cases here : key = k
    · subst here
      simp
    · have apart : (key == k) = false := by simpa using here
      rw [apart]
      exact ih

/-- Dictionaries with the same keys, whose values differ in strings alone. -/
def DictAlike (d d' : Dict Value) : Prop := blankEntries d = blankEntries d'

namespace DictAlike

variable {d d' : Dict Value}

lemma get (h : DictAlike d d') (key : String) :
    (d.get key).map Value.blank = (d'.get key).map Value.blank := by
  have left := Dict.get_map (fun _ => Value.blank) d key
  have right := Dict.get_map (fun _ => Value.blank) d' key
  rw [← blankEntries_eq_map] at left right
  rw [← left, h, right]

lemma keys (h : DictAlike d d') : Dict.keys d = Dict.keys d' := by
  have erased : ∀ e : Dict Value, (blankEntries e).map Prod.fst = e.map Prod.fst := by
    intro e
    rw [blankEntries_eq_map, List.map_map]
    rfl
  rw [Dict.keys, Dict.keys, ← erased d, ← erased d', h]

lemma containsKey (h : DictAlike d d') (key : String) :
    Dict.containsKey d key = Dict.containsKey d' key := by
  have same := congrArg Option.isSome (h.get key)
  simpa [Dict.containsKey] using same

end DictAlike

/-- Whether a value is a string does not depend on which string. -/
lemma stringOf_isSome {v v' : Option Value} (h : v.map Value.blank = v'.map Value.blank) :
    (stringOf v).isSome = (stringOf v').isSome := by
  have erased : ∀ w : Option Value,
      (stringOf (w.map Value.blank)).isSome = (stringOf w).isSome := by
    intro w
    cases w with
    | none => rfl
    | some w => cases w <;> rfl
  rw [← erased v, ← erased v', h]

/-- The maps of alike values are alike. -/
lemma mapOf_alike {v v' : Option Value} (h : v.map Value.blank = v'.map Value.blank) :
    (mapOf v = none ∧ mapOf v' = none) ∨
      ∃ d d', mapOf v = some d ∧ mapOf v' = some d' ∧ DictAlike d d' := by
  have erased : ∀ w : Option Value, mapOf (w.map Value.blank) = (mapOf w).map blankEntries := by
    intro w
    cases w with
    | none => rfl
    | some w => cases w <;> rfl
  have maps : (mapOf v).map blankEntries = (mapOf v').map blankEntries := by
    rw [← erased v, ← erased v', h]
  cases hv : mapOf v with
  | none =>
    rw [hv, Option.map_none, eq_comm, Option.map_eq_none_iff] at maps
    exact .inl ⟨rfl, maps⟩
  | some d =>
    rw [hv, Option.map_some, eq_comm, Option.map_eq_some_iff] at maps
    obtain ⟨d', hd', same⟩ := maps
    exact .inr ⟨d, d', rfl, hd', same.symm⟩

/-! ## Stored attributes -/

def Out.blank : Out → Out
  | .any v => .any v.blank
  | .shared => .shared

/-- Stored attributes with their strings emptied, but for the kept keys. -/
def blankAttrs (kept : List String) (attrs : Attrs) : Attrs :=
  attrs.map fun e => (e.1, if e.1 ∈ kept then e.2 else e.2.blank)

/-- Stored attributes that differ in strings alone, and not in the kept ones. -/
def AttrsAlike (kept : List String) (attrs attrs' : Attrs) : Prop :=
  blankAttrs kept attrs = blankAttrs kept attrs'

namespace AttrsAlike

variable {kept : List String} {attrs attrs' : Attrs}

lemma get (h : AttrsAlike kept attrs attrs') (key : String) :
    (attrs.get key).map (fun out => if key ∈ kept then out else out.blank) =
      (attrs'.get key).map fun out => if key ∈ kept then out else out.blank := by
  have left := Dict.get_map (fun key out => if key ∈ kept then out else Out.blank out) attrs key
  have right := Dict.get_map (fun key out => if key ∈ kept then out else Out.blank out) attrs' key
  rw [← left, ← right]
  exact congrArg (Dict.get · key) h

/-- A kept key has the same value. -/
lemma get_kept (h : AttrsAlike kept attrs attrs') {key : String} (hkey : key ∈ kept) :
    attrs.get key = attrs'.get key := by
  have same := h.get key
  simpa only [if_pos hkey, Option.map_id'] using same

lemma get_blank (h : AttrsAlike kept attrs attrs') (key : String) :
    (attrs.get key).map Out.blank = (attrs'.get key).map Out.blank := by
  by_cases hkey : key ∈ kept
  · rw [h.get_kept hkey]
  · have same := h.get key
    simpa only [if_neg hkey] using same

/-- Alike attributes hold the same under a key, or two values that may differ in strings. -/
lemma get_cases (h : AttrsAlike kept attrs attrs') (key : String) :
    attrs.get key = attrs'.get key ∨ ∃ v v', attrs.get key = some (.any v) ∧
      attrs'.get key = some (.any v') ∧ v.BothHoldStrings v' := by
  have same := h.get_blank key
  rcases hleft : attrs.get key with - | (v | -) <;> rcases hright : attrs'.get key with - | (v' | -)
  all_goals simp only [hleft, hright, Option.map_some, Option.map_none, Out.blank, reduceCtorEq,
    Option.some.injEq, Out.any.injEq] at same
  · exact .inl rfl
  · rcases Value.blank_cases same with rfl | both
    · exact .inl rfl
    · exact .inr ⟨v, v', rfl, rfl, both⟩
  · exact .inl rfl

/-- An attribute that is a string in one is a string in the other. -/
lemma strAttr_isSome (h : AttrsAlike kept attrs attrs') (name : String) :
    (strAttr attrs name).isSome = (strAttr attrs' name).isSome := by
  rw [strAttr, strAttr]
  rcases h.get_cases name with same | ⟨v, v', left, right, both⟩
  · rw [same]
  · rw [left, right]
    cases both <;> rfl

lemma strAttr_kept (h : AttrsAlike kept attrs attrs') {name : String} (hname : name ∈ kept) :
    strAttr attrs name = strAttr attrs' name := by
  rw [strAttr, strAttr, h.get_kept hname]

end AttrsAlike

/-! ## Rules -/

/-- The shape of an attribute slot is its name and whether it may be left out. -/
@[simp] lemma optionalAttr_shape (name : String) (value : Option String) :
    (optionalAttr name value).shape = ⟨name, "", true⟩ := rfl

/-- The shape of an element is that of its attributes and of what it holds. -/
lemma shape_elem (tag : String) {slots slots' : List Html.Attr} {ts ts' : List Tree}
    (hslots : slots.map Html.Attr.shape = slots'.map Html.Attr.shape)
    (hts : Html.shape ts = Html.shape ts') :
    Html.shape [(.elem tag slots ts : Tree)] = Html.shape [.elem tag slots' ts'] := by
  simp only [Html.shape_cons, Html.Tree.shape, hslots, hts]

lemma ruleAttrs_shape (lookup : String → Option String) (attrs : List (String × List AttrPart)) :
    (ruleAttrs lookup attrs).map Html.Attr.shape = attrs.map fun slot => ⟨slot.1, "", true⟩ := by
  simp [ruleAttrs]

lemma ruleAttrs_names (lookup : String → Option String) (attrs : List (String × List AttrPart)) :
    (ruleAttrs lookup attrs).map Html.Attr.name = attrs.map Prod.fst := by
  simp [ruleAttrs, optionalAttr]

/-- A declarative rule, of a node or a mark, with well-formed names. -/
def NodeRule.Named : NodeRule → Prop
  | .declarative tag _ attrs _ _ => Html.isTagName tag.toList = true ∧
      Html.isRawText tag.toList = false ∧ ∀ slot ∈ attrs, Html.isAttrName slot.1.toList = true
  | .callback _ => False

/-- Every rule is declarative, its tags and attribute names are well formed, and no tag is that of
a raw-text element. -/
structure Rules.Named (rules : Rules) : Prop where
  node : ∀ {name rule}, rules.nodes.get name = some rule → rule.Named
  mark : ∀ {name rule}, rules.marks.get name = some rule →
    Html.isTagName rule.tag.toList = true ∧ Html.isRawText rule.tag.toList = false ∧
      ∀ slot ∈ rule.attrs, Html.isAttrName slot.1.toList = true

/-- The shape of a rule's tree comes from the rule and the shape of the body. -/
lemma ruleTree_shape {rule : NodeRule} (named : rule.Named)
    (lookup lookup' : String → Option String)
    (label label' : Deferred) {body body' : Content → List Tree}
    (hbody : ∀ content, Html.shape (body content) = Html.shape (body' content)) :
    (ruleTree lookup label body rule).shape = (ruleTree lookup' label' body' rule).shape := by
  cases rule with
  | callback content => exact named.elim
  | declarative tag void attrs text content =>
    cases void with
    | true => simp only [ruleTree, Html.Tree.shape, ruleAttrs_shape]
    | false =>
      simp only [ruleTree, Html.Tree.shape, ruleAttrs_shape, Html.shape_cons, hbody]

/-- A leaf is a paragraph for both of two forests of one shape, when their trees print. -/
lemma paragraphForest_shape {inline inline' empty : List Tree}
    (hinline : ∀ t ∈ inline, t.pieces ≠ []) (hinline' : ∀ t ∈ inline', t.pieces ≠ [])
    (same : Html.shape inline = Html.shape inline') :
    Html.shape (paragraphForest inline empty) = Html.shape (paragraphForest inline' empty) := by
  have bare : inline.isEmpty = inline'.isEmpty := by
    rw [Bool.eq_iff_iff, List.isEmpty_iff, List.isEmpty_iff, ← Html.shape_eq_nil, same,
      Html.shape_eq_nil]
  unfold paragraphForest
  rw [Html.pieces_isEmpty hinline, Html.pieces_isEmpty hinline', bare]
  split
  · rfl
  · simp only [Html.shape_cons, Html.Tree.shape, same]

/-- A tree with a tag prints it. -/
lemma ruleTree_pieces_ne_nil {rule : NodeRule} (lookup : String → Option String) (label : Deferred)
    (body : Content → List Tree) : (ruleTree lookup label body rule).pieces ≠ [] := by
  cases rule with
  | callback content => simp [ruleTree, Html.Tree.pieces]
  | declarative tag void attrs text content =>
    cases void with
    | true => exact Html.Tree.pieces_void_ne_nil _ _
    | false => exact Html.Tree.pieces_elem_ne_nil _ _ _

/-- The names in the markup are these or those of a rule, and no hole is left to a callback. -/
def Known (rules : Rules) (voids tags attrs : List String) : Html.Local Deferred where
  void tag slots :=
    (tag ∈ voids ∧ ∀ a ∈ slots, a.name ∈ attrs) ∨
      ∃ name slots' text content,
        rules.nodes.get name = some (.declarative tag true slots' text content) ∧
          slots.map Html.Attr.name = slots'.map Prod.fst
  elem tag slots :=
    (tag ∈ tags ∧ ∀ a ∈ slots, a.name ∈ attrs) ∨
      (∃ name slots' text content,
        rules.nodes.get name = some (.declarative tag false slots' text content) ∧
          slots.map Html.Attr.name = slots'.map Prod.fst) ∨
      ∃ name slots', rules.marks.get name = some ⟨tag, slots'⟩ ∧
        slots.map Html.Attr.name = slots'.map Prod.fst
  hole _ _ := False

lemma knownRules (rules : Rules) (voids tags attrs : List String) :
    RulesMeet (Known rules voids tags attrs) rules where
  void := fun hrule lookup => .inr ⟨_, _, _, _, hrule, ruleAttrs_names lookup _⟩
  elem := fun hrule lookup => .inr (.inl ⟨_, _, _, _, hrule, ruleAttrs_names lookup _⟩)

/-- Well-formed names, given well-formed built-in names and rules. -/
lemma Rules.Named.known_implies {rules : Rules} (named : rules.Named)
    {voids tags attrs : List String}
    (htags : ∀ tag ∈ voids ++ tags,
      Html.isTagName tag.toList = true ∧ Html.isRawText tag.toList = false)
    (hattrs : ∀ name ∈ attrs, Html.isAttrName name.toList = true) :
    (Known rules voids tags attrs).Implies Html.names := by
  have slots : ∀ {slots : List Html.Attr} {slots' : List (String × List AttrPart)},
      slots.map Html.Attr.name = slots'.map Prod.fst →
      (∀ slot ∈ slots', Html.isAttrName slot.1.toList = true) →
      ∀ a ∈ slots, Html.isAttrName a.name.toList = true := by
    intro slots slots' same wf a ha
    have listed : a.name ∈ slots'.map Prod.fst := same ▸ List.mem_map_of_mem ha
    obtain ⟨slot, hslot, hname⟩ := List.mem_map.mp listed
    rw [← hname]
    exact wf slot hslot
  constructor
  · rintro tag as (⟨htag, hslots⟩ | ⟨name, slots', text, content, hrule, same⟩)
    · have wf := htags tag (List.mem_append_left tags htag)
      exact ⟨wf.1, wf.2, fun a ha => hattrs _ (hslots a ha)⟩
    · have wf : NodeRule.Named (.declarative tag true slots' text content) := named.node hrule
      exact ⟨wf.1, wf.2.1, slots same wf.2.2⟩
  · rintro tag as (⟨htag, hslots⟩ | ⟨name, slots', text, content, hrule, same⟩ |
      ⟨name, slots', hrule, same⟩)
    · have wf := htags tag (List.mem_append_right voids htag)
      exact ⟨wf.1, wf.2, fun a ha => hattrs _ (hslots a ha)⟩
    · have wf : NodeRule.Named (.declarative tag false slots' text content) := named.node hrule
      exact ⟨wf.1, wf.2.1, slots same wf.2.2⟩
    · have wf := named.mark hrule
      exact ⟨wf.1, wf.2.1, slots same wf.2.2⟩
  · exact fun _ _ hole => hole.elim

end HtmlCore

end Yrby
