import Yrby.Render.CompileRules

/-!
# What a rule means

`meaning` says what a rule means, or why it means nothing, without any JSON.  The compiler in Ruby
and the parser in the native renderer together do what it says, rule by rule
(`parseNodeRule_compileNode`) and for a whole rule set (`accepts_meaningful`): a rule set is
accepted exactly when every rule in it means something, and the renderer then works with these
meanings.  An error is about a rule that means nothing.  Of the errors that the parser knows, those
about malformed attributes and templates never occur.
-/

namespace Yrby.RuleText

open HtmlCore RenderRules

/-! ## What a rule means -/

/-- One part of a template. -/
def partOf : Val → AttrPart
  | .symbol name => .ref name
  | part => .lit part.toS

def templateOf (template : Template) : List AttrPart := template.toArray.map partOf

def attrsOf (o : Options) : List (String × List AttrPart) :=
  (o.attrs.getD []).map fun entry => (entry.1.toS, templateOf entry.2)

def textOf (o : Options) : Option (List AttrPart) :=
  if o.text.isTruthy then some (templateOf o.text) else none

def contentKinds : Dict Content := [("blocks", .blocks), ("inline", .inline), ("none", .none)]

def contentOf (contains : Val) : Option Content :=
  if contains.isTruthy then contentKinds.get contains.toS else some .inline

/-- What a node rule means, or why it means nothing. -/
def meaning (name : String) : RuleArg → Except RuleError Rule
  | .callable block => .ok (.callback .inline block)
  | .other => .error (.notRule name)
  | .options o =>
    match contentOf o.contains with
    | none => .error (.unknownContent name o.contains.toS)
    | some content =>
      match o.render with
      | some block => .ok (.callback content block)
      | none =>
        if o.tag.isTruthy then
          .ok (.declarative o.tag.toS o.void.isTruthy (attrsOf o) (textOf o) content)
        else .error (.needsTag name)

/-- What a mark rule means, or why it means nothing. -/
def markMeaning (name : String) : RuleArg → Except RuleError MarkRule
  | .options o =>
    if o.tag.isTruthy then .ok ⟨o.tag.toS, attrsOf o⟩ else .error (.markNeedsTag name)
  | _ => .error (.notMarkRule name)

/-! ## One rule, through the JSON and back -/

lemma get_fieldIf {given : Bool} {field key : String} {value : Json} :
    Dict.get (fieldIf given field value) key =
      if key = field ∧ given = true then some value else none := by
  unfold fieldIf
  cases given with
  | false => simp [Dict.get]
  | true =>
    by_cases same : key = field
    · simp [Dict.get, same]
    · simp [Dict.get, List.lookup_cons, same, beq_eq_false_iff_ne.mpr same]

lemma parseParts_compileParts (name : String) (template : Template) :
    parseParts name (compileParts template) = .ok (templateOf template) := by
  unfold compileParts templateOf
  induction template.toArray with
  | nil => rfl
  | cons part parts ih =>
    rw [List.map_cons, List.map_cons, parseParts, ih]
    cases part <;> rfl

lemma parseEntries_compileAttrs (name : String) (attrs : List (Val × Template)) :
    parseEntries name (compileAttrs attrs) =
      .ok (attrs.map fun entry => (entry.1.toS, templateOf entry.2)) := by
  induction attrs with
  | nil => rfl
  | cons entry attrs ih =>
    have first : parseEntries name (compileAttrs (entry :: attrs)) = (do
        let first ← (parseParts name (compileParts entry.2)).map fun template =>
          (entry.1.toS, template)
        let rest ← parseEntries name (compileAttrs attrs)
        .ok (first :: rest)) := rfl
    rw [first, parseParts_compileParts, ih]
    rfl

/-- The attributes of a rule arrive whole, given or not. -/
lemma parseAttrs_field (name : String) (o : Options) :
    parseAttrs name (if o.attrs.isSome = true then
      some (.array (compileAttrs (o.attrs.getD []))) else none) = .ok (attrsOf o) := by
  unfold attrsOf
  cases o.attrs with
  | none => rfl
  | some attrs => exact parseEntries_compileAttrs name attrs

lemma parseText_field (name : String) (o : Options) :
    parseText name (if o.text.isTruthy = true then some (.array (compileParts o.text)) else none) =
      .ok (textOf o) := by
  unfold textOf
  split
  · show (parseParts name (compileParts o.text)).map some = _
    rw [parseParts_compileParts]
    rfl
  · rfl

/-- The content kind of a rule is read, or refused, as it was written. -/
lemma parseContent_field (name : String) (o : Options) :
    parseContent name ((if o.contains.isTruthy = true then
      some (Json.string o.contains.toS) else none).bind Json.asStr) =
        match contentOf o.contains with
        | some content => .ok content
        | none => .error (.unknownContent name o.contains.toS) := by
  unfold contentOf
  split
  · show parseContent name (some o.contains.toS) = _
    unfold parseContent contentKinds
    by_cases blocks : o.contains.toS = "blocks"
    · simp [blocks, Dict.get]
    · by_cases inline : o.contains.toS = "inline"
      · simp [inline, Dict.get, List.lookup_cons]
      · by_cases nothing : o.contains.toS = "none"
        · simp [nothing, Dict.get, List.lookup_cons]
        · simp [Dict.get, List.lookup_cons, blocks, inline, nothing,
            beq_eq_false_iff_ne.mpr blocks, beq_eq_false_iff_ne.mpr inline,
            beq_eq_false_iff_ne.mpr nothing]
  · rfl

section

variable {o : Options}

lemma declarative_fields :
    (Json.object (compileDeclarativeNode o)).get? "content" =
        (if o.contains.isTruthy = true then some (.string o.contains.toS) else none) ∧
      (Json.object (compileDeclarativeNode o)).get? "callback" = none ∧
      (Json.object (compileDeclarativeNode o)).get? "tag" =
        (if o.tag.isTruthy = true then some (.string o.tag.toS) else none) ∧
      (Json.object (compileDeclarativeNode o)).get? "void" =
        (if o.void.isTruthy = true then some (.bool true) else none) ∧
      (Json.object (compileDeclarativeNode o)).get? "attrs" =
        (if o.attrs.isSome = true then some (.array (compileAttrs (o.attrs.getD []))) else none) ∧
      (Json.object (compileDeclarativeNode o)).get? "text" =
        if o.text.isTruthy = true then some (.array (compileParts o.text)) else none := by
  simp [Json.get?, compileDeclarativeNode, compileTag, compileAttrsField, compileContains,
    get_append, get_fieldIf]

lemma callback_fields :
    (Json.object ([("callback", .bool true)] ++ compileContains o)).get? "content" =
        (if o.contains.isTruthy = true then some (.string o.contains.toS) else none) ∧
      (Json.object ([("callback", .bool true)] ++ compileContains o)).get? "callback" =
        some (.bool true) := by
  have callback (key : String) (other : key ≠ "callback") :
      Dict.get [("callback", Json.bool true)] key = none := by
    simp [Dict.get, List.lookup_cons, beq_eq_false_iff_ne.mpr other]
  refine ⟨?_, ?_⟩
  · rw [Json.get?, get_append, callback "content" (by decide), compileContains, get_fieldIf]
    simp
  · simp [Json.get?, Dict.get]

lemma mark_fields :
    (Json.object (compileTag o ++ compileAttrsField o)).get? "tag" =
        (if o.tag.isTruthy = true then some (.string o.tag.toS) else none) ∧
      (Json.object (compileTag o ++ compileAttrsField o)).get? "attrs" =
        if o.attrs.isSome = true then some (.array (compileAttrs (o.attrs.getD []))) else none := by
  simp [Json.get?, compileTag, compileAttrsField, get_append, get_fieldIf]

end

/-- The callback that Ruby keeps of a rule. -/
def blockOf : Rule → Option Block
  | .callback _ block => some block
  | .declarative .. => none

/-- **One node rule.**  Compiled and parsed it is what it means, or the error it has. -/
lemma parseNodeRule_compileNode (name : String) (rule : RuleArg) :
    (compileNode name rule).bind (fun compiled =>
        (parseNodeRule name compiled.1).map fun parsed => (parsed, compiled.2)) =
      (meaning name rule).map fun rule => (RenderRules.compileNode rule, blockOf rule) := by
  cases rule with
  | callable block => rfl
  | other => rfl
  | options o =>
    cases rendered : o.render with
    | some block =>
      obtain ⟨content, callback⟩ := callback_fields (o := o)
      simp only [compileNode, meaning, rendered, Except.bind, parseNodeRule, content, callback,
        parseContent_field]
      cases contentOf o.contains <;> rfl
    | none =>
      obtain ⟨content, callback, tag, void, attrs, text⟩ := declarative_fields (o := o)
      simp only [compileNode, meaning, rendered, Except.bind, parseNodeRule, content, callback, tag,
        void, attrs, text, parseContent_field, parseAttrs_field, parseText_field]
      cases contentOf o.contains with
      | none => rfl
      | some kind =>
        cases o.tag.isTruthy with
        | false => rfl
        | true => cases o.void.isTruthy <;> rfl

lemma compiled_of_meaning {name : String} {arg : RuleArg} {rule : Rule}
    (h : meaning name arg = .ok rule) :
    ∃ json, compileNode name arg = .ok (json, blockOf rule) ∧
      parseNodeRule name json = .ok (RenderRules.compileNode rule) := by
  have whole := parseNodeRule_compileNode name arg
  rw [h] at whole
  cases compiled : compileNode name arg with
  | error error => simp [compiled, Except.bind, Except.map] at whole
  | ok result =>
    obtain ⟨json, block⟩ := result
    cases parsed : parseNodeRule name json with
    | error error => simp [compiled, parsed, Except.bind, Except.map] at whole
    | ok rule' =>
      simp only [compiled, parsed, Except.bind, Except.map, Except.ok.injEq, Prod.mk.injEq] at whole
      obtain ⟨rfl, rfl⟩ := whole
      exact ⟨json, rfl, parsed⟩

lemma meaning_of_parsed {name : String} {arg : RuleArg} {compiled : Json × Option Block}
    {parsed : NodeRule} (h : compileNode name arg = .ok compiled)
    (hparsed : parseNodeRule name compiled.1 = .ok parsed) :
    ∃ rule, meaning name arg = .ok rule := by
  have whole := parseNodeRule_compileNode name arg
  cases there : meaning name arg with
  | error error => simp [h, hparsed, there, Except.bind, Except.map] at whole
  | ok rule => exact ⟨rule, rfl⟩

lemma meaning_of_error {name : String} {arg : RuleArg} {error : RuleError}
    (h : (compileNode name arg).bind (fun compiled => parseNodeRule name compiled.1) =
      .error error) : meaning name arg = .error error := by
  have whole := parseNodeRule_compileNode name arg
  cases compiled : compileNode name arg with
  | error first =>
    obtain rfl : first = error := by simpa [compiled, Except.bind] using h
    cases there : meaning name arg with
    | error second => simpa [compiled, there, Except.bind, Except.map] using whole.symm
    | ok rule => simp [compiled, there, Except.bind, Except.map] at whole
  | ok result =>
    have parsed : parseNodeRule name result.1 = .error error := by
      simpa [compiled, Except.bind] using h
    cases there : meaning name arg with
    | error second => simpa [compiled, parsed, there, Except.bind, Except.map] using whole.symm
    | ok rule => simp [compiled, parsed, there, Except.bind, Except.map] at whole

/-- One mark rule. -/
lemma parseMarkRule_compileMark (name : String) (rule : RuleArg) :
    (compileMark name rule).bind (parseMarkRule name) = markMeaning name rule := by
  cases rule with
  | callable block => rfl
  | other => rfl
  | options o =>
    obtain ⟨tag, attrs⟩ := mark_fields (o := o)
    simp only [compileMark, markMeaning, Except.bind, parseMarkRule, tag, attrs, parseAttrs_field]
    cases o.tag.isTruthy <;> rfl

/-! ## All rules of a kind -/

section

variable {α β γ : Type} {f : String → α → Except RuleError β} {d e : Dict α} {d' : Dict β}

lemma eachEntry_cons {name : String} {value : α} (h : eachEntry f ((name, value) :: d) = .ok d') :
    ∃ value' rest, f name value = .ok value' ∧ eachEntry f d = .ok rest ∧
      d' = (name, value') :: rest := by
  unfold eachEntry at h
  cases first : f name value with
  | error e => simp [first, bind, Except.bind] at h
  | ok value' =>
    cases others : eachEntry f d with
    | error e => simp [first, others, bind, Except.bind] at h
    | ok rest =>
      refine ⟨value', rest, rfl, rfl, ?_⟩
      simpa [first, others, bind, Except.bind] using h.symm

lemma keys_eachEntry (h : eachEntry f d = .ok d') : d'.map Prod.fst = d.map Prod.fst := by
  induction d generalizing d' with
  | nil =>
    obtain rfl := Except.ok.inj h
    rfl
  | cons entry d ih =>
    obtain ⟨value', rest, -, others, rfl⟩ := eachEntry_cons h
    rw [List.map_cons, List.map_cons, ih others]

lemma get_eachEntry (h : eachEntry f d = .ok d') (key : String) :
    d'.get key = (d.get key).bind fun value => (f key value).toOption := by
  induction d generalizing d' with
  | nil =>
    obtain rfl := Except.ok.inj h
    rfl
  | cons entry d ih =>
    obtain ⟨name, value⟩ := entry
    obtain ⟨value', rest, first, others, rfl⟩ := eachEntry_cons h
    have := ih others
    simp only [Dict.get] at this ⊢
    by_cases same : key = name
    · simp [same, first, Except.toOption]
    · simp [List.lookup_cons, beq_eq_false_iff_ne.mpr same, this]

/-- Every entry goes through, or one of them has the error. -/
lemma eachEntry_cases (f : String → α → Except RuleError β) (d : Dict α) :
    (∃ d', eachEntry f d = .ok d' ∧ ∀ entry ∈ d, ∃ value, f entry.1 entry.2 = .ok value) ∨
      ∃ entry ∈ d, ∃ error, f entry.1 entry.2 = .error error ∧ eachEntry f d = .error error := by
  induction d with
  | nil => exact .inl ⟨[], rfl, by simp⟩
  | cons entry d ih =>
    cases first : f entry.1 entry.2 with
    | error error =>
      refine .inr ⟨entry, List.mem_cons_self, error, first, ?_⟩
      simp [eachEntry, first, bind, Except.bind]
    | ok value =>
      rcases ih with ⟨d', others, all⟩ | ⟨wrong, mem, error, cause, others⟩
      · refine .inl ⟨(entry.1, value) :: d', ?_, ?_⟩
        · simp [eachEntry, first, others, bind, Except.bind]
        · rintro other (_ | ⟨_, mem⟩)
          · exact ⟨value, first⟩
          · exact all other mem
      · refine .inr ⟨wrong, List.mem_cons_of_mem _ mem, error, cause, ?_⟩
        simp [eachEntry, first, others, bind, Except.bind]

lemma get_eq_some_iff (h : (d.map Prod.fst).Nodup) {key : String} {value : α} :
    d.get key = some value ↔ (key, value) ∈ d := by
  refine ⟨mem_of_get, fun mem => ?_⟩
  induction d with
  | nil => simp at mem
  | cons entry d ih =>
    rw [List.map_cons, List.nodup_cons] at h
    rcases List.mem_cons.mp mem with rfl | mem
    · simp [Dict.get]
    · have other : key ≠ entry.1 := by
        rintro rfl
        exact h.1 (List.mem_map.mpr ⟨_, mem, rfl⟩)
      have := ih h.2 mem
      simp only [Dict.get] at this ⊢
      rw [List.lookup_cons, beq_eq_false_iff_ne.mpr other]
      exact this

lemma mem_eachEntry (h : eachEntry f d = .ok d') {name : String} {value : α}
    (mem : (name, value) ∈ d) : ∃ value', f name value = .ok value' ∧ (name, value') ∈ d' := by
  induction d generalizing d' with
  | nil => simp at mem
  | cons entry d ih =>
    obtain ⟨value', rest, first, others, rfl⟩ := eachEntry_cons h
    rcases List.mem_cons.mp mem with rfl | mem
    · exact ⟨value', first, List.mem_cons_self⟩
    · obtain ⟨value', same, mem⟩ := ih others mem
      exact ⟨value', same, List.mem_cons_of_mem _ mem⟩

lemma of_mem_eachEntry (h : eachEntry f d = .ok d') {name : String} {value' : β}
    (mem : (name, value') ∈ d') : ∃ value, (name, value) ∈ d ∧ f name value = .ok value' := by
  induction d generalizing d' with
  | nil =>
    obtain rfl := Except.ok.inj h
    simp at mem
  | cons entry d ih =>
    obtain ⟨value'', rest, first, others, rfl⟩ := eachEntry_cons h
    rcases List.mem_cons.mp mem with same | mem
    · obtain ⟨rfl, rfl⟩ := Prod.mk.inj same
      exact ⟨entry.2, List.mem_cons_self, first⟩
    · obtain ⟨value, mem, same⟩ := ih others mem
      exact ⟨value, List.mem_cons_of_mem _ mem, same⟩

lemma get_filterMap {g : α → Option β} (h : (d.map Prod.fst).Nodup) (key : String) :
    Dict.get (d.filterMap fun entry => (g entry.2).map fun value => (entry.1, value)) key =
      (d.get key).bind g := by
  have keys : ((d.filterMap fun entry => (g entry.2).map fun value =>
      (entry.1, value)).map Prod.fst).Nodup := by
    refine h.sublist ?_
    clear h
    induction d with
    | nil => exact List.Sublist.refl _
    | cons entry d ih =>
      cases made : g entry.2 with
      | none =>
        rw [List.filterMap_cons_none (by simp [made]), List.map_cons]
        exact ih.cons _
      | some value =>
        rw [List.filterMap_cons_some (by simp only [made, Option.map_some]; rfl), List.map_cons,
          List.map_cons]
        exact ih.cons_cons _
  ext value
  rw [get_eq_some_iff keys, List.mem_filterMap, Option.bind_eq_some_iff]
  constructor
  · rintro ⟨⟨name, old⟩, mem, same⟩
    obtain ⟨value', made, same⟩ := Option.map_eq_some_iff.mp same
    obtain ⟨rfl, rfl⟩ := Prod.mk.inj same
    exact ⟨old, (get_eq_some_iff h).mpr mem, made⟩
  · rintro ⟨old, here, made⟩
    exact ⟨(key, old), (get_eq_some_iff h).mp here, by simp [made]⟩

/-- The order of the fields does not matter to what a key has. -/
lemma get_perm (same : d.Perm e) (h : (e.map Prod.fst).Nodup) (key : String) :
    d.get key = e.get key := by
  have hd : (d.map Prod.fst).Nodup := (same.map Prod.fst).nodup_iff.mpr h
  ext value
  rw [get_eq_some_iff hd, get_eq_some_iff h, same.mem_iff]

end

/-! ## The compiler and the parser -/

section

variable {carry : Dict Json → Dict Json} {nodes marks : Hash RuleArg} {root : Dict Json}
  {blocks : Dict Block} {rules : Rules}

/-- What arrives of the rules of a kind, whether or not there are any. -/
lemma arrived_rulesField (nodeFields markFields : Dict Json) :
    arrived carry (rulesField "nodes" nodeFields ++ rulesField "marks" markFields) "nodes" =
        carry nodeFields ∧
      arrived carry (rulesField "nodes" nodeFields ++ rulesField "marks" markFields) "marks" =
        carry markFields := by
  unfold arrived rulesField
  constructor
  · cases nodeFields <;> simp [get_append, get_fieldIf, Json.asObject]
  · cases markFields <;> simp [get_append, get_fieldIf, Json.asObject]

lemma compile_ok (h : compile nodes marks = .ok (root, blocks)) :
    ∃ compiled compiledMarks, eachEntry compileNode nodes.entries = .ok compiled ∧
      eachEntry compileMark marks.entries = .ok compiledMarks ∧
      arrived carry root "nodes" = carry (compiled.map fun entry => (entry.1, entry.2.1)) ∧
      arrived carry root "marks" = carry compiledMarks ∧
      blocks = compiled.filterMap fun entry => entry.2.2.map fun block => (entry.1, block) := by
  unfold compile at h
  cases first : eachEntry compileNode nodes.entries with
  | error error => simp [first, bind, Except.bind] at h
  | ok compiled =>
    cases second : eachEntry compileMark marks.entries with
    | error error => simp [first, second, bind, Except.bind] at h
    | ok compiledMarks =>
      simp only [first, second, bind, Except.bind, Except.ok.injEq, Prod.mk.injEq] at h
      obtain ⟨rfl, rfl⟩ := h
      obtain ⟨atNodes, atMarks⟩ := arrived_rulesField _ _
      exact ⟨compiled, compiledMarks, rfl, rfl, atNodes, atMarks, rfl⟩

lemma compile_error {error : RuleError} (h : compile nodes marks = .error error) :
    eachEntry compileNode nodes.entries = .error error ∨
      eachEntry compileMark marks.entries = .error error := by
  unfold compile at h
  cases first : eachEntry compileNode nodes.entries with
  | error e => exact .inl (by simpa [first, bind, Except.bind] using h)
  | ok compiled =>
    cases second : eachEntry compileMark marks.entries with
    | error e => simpa [first, second, bind, Except.bind] using h
    | ok compiledMarks => simp [first, second, bind, Except.bind] at h

lemma parse_ok (h : parse carry root = .ok rules) :
    eachEntry parseNodeRule (arrived carry root "nodes") = .ok rules.nodes ∧
      eachEntry parseMarkRule (arrived carry root "marks") = .ok rules.marks := by
  unfold parse at h
  cases first : eachEntry parseNodeRule (arrived carry root "nodes") with
  | error error => simp [first, bind, Except.bind] at h
  | ok nodes =>
    cases second : eachEntry parseMarkRule (arrived carry root "marks") with
    | error error => simp [first, second, bind, Except.bind] at h
    | ok marks =>
      obtain rfl : (⟨nodes, marks⟩ : Rules) = rules := by
        simpa [first, second, bind, Except.bind] using h
      exact ⟨rfl, rfl⟩

lemma parse_error {error : RuleError} (h : parse carry root = .error error) :
    eachEntry parseNodeRule (arrived carry root "nodes") = .error error ∨
      eachEntry parseMarkRule (arrived carry root "marks") = .error error := by
  unfold parse at h
  cases first : eachEntry parseNodeRule (arrived carry root "nodes") with
  | error e => exact .inl (by simpa [first, bind, Except.bind] using h)
  | ok nodes =>
    cases second : eachEntry parseMarkRule (arrived carry root "marks") with
    | error e => simpa [first, second, bind, Except.bind] using h
    | ok marks => simp [first, second, bind, Except.bind] at h

lemma load_ok (h : load carry nodes marks = .ok (rules, blocks)) :
    ∃ root, compile nodes marks = .ok (root, blocks) ∧ parse carry root = .ok rules := by
  unfold load at h
  cases first : compile nodes marks with
  | error error => simp [first, bind, Except.bind] at h
  | ok compiled =>
    obtain ⟨root, blocks'⟩ := compiled
    cases second : parse carry root with
    | error error => simp [first, second, bind, Except.bind] at h
    | ok rules' =>
      obtain ⟨rfl, rfl⟩ : rules' = rules ∧ blocks' = blocks := by
        simpa [first, second, bind, Except.bind] using h
      exact ⟨root, rfl, second⟩

lemma load_error {error : RuleError} (h : load carry nodes marks = .error error) :
    compile nodes marks = .error error ∨
      ∃ root blocks, compile nodes marks = .ok (root, blocks) ∧
        parse carry root = .error error := by
  unfold load at h
  cases first : compile nodes marks with
  | error e => exact .inl (by simpa [first, bind, Except.bind] using h)
  | ok compiled =>
    obtain ⟨root, blocks⟩ := compiled
    cases second : parse carry root with
    | error e =>
      obtain rfl : e = error := by simpa [first, second, bind, Except.bind] using h
      exact .inr ⟨root, blocks, rfl, second⟩
    | ok rules => simp [first, second, bind, Except.bind] at h

/-- The rules of the native renderer and the callbacks in Ruby are those of some meanings. -/
structure Carries (app : Dict Rule) (ms : Dict MarkRule) (rules : Rules) (blocks : Dict Block) :
    Prop where
  nodes : ∀ name, rules.nodes.get name = (RenderRules.compile app ms).nodes.get name
  marks : ∀ name, rules.marks.get name = (RenderRules.compile app ms).marks.get name
  blocks : ∀ name, blocks.get name = callbacks app name

variable (hcarry : ∀ fields, (carry fields).Perm fields)
include hcarry

/-- A node rule that goes through both ends means something. -/
lemma meaning_of_sent {compiled : Dict (Json × Option Block)} {parsed : Dict NodeRule}
    (first : eachEntry compileNode nodes.entries = .ok compiled)
    (second : eachEntry parseNodeRule (carry (compiled.map fun entry => (entry.1, entry.2.1))) =
      .ok parsed) {name : String} {arg : RuleArg} (mem : (name, arg) ∈ nodes.entries) :
    ∃ rule, meaning name arg = .ok rule := by
  obtain ⟨result, made, mem⟩ := mem_eachEntry first mem
  have sent : (name, result.1) ∈ carry (compiled.map fun entry => (entry.1, entry.2.1)) :=
    (hcarry _).mem_iff.mpr (List.mem_map.mpr ⟨_, mem, rfl⟩)
  obtain ⟨rule, read, -⟩ := mem_eachEntry second sent
  exact meaning_of_parsed made read

/-- So does a mark rule. -/
lemma markMeaning_of_sent {compiled : Dict Json} {parsed : Dict MarkRule}
    (first : eachEntry compileMark marks.entries = .ok compiled)
    (second : eachEntry parseMarkRule (carry compiled) = .ok parsed) {name : String}
    {arg : RuleArg} (mem : (name, arg) ∈ marks.entries) :
    ∃ rule, markMeaning name arg = .ok rule := by
  obtain ⟨json, made, mem⟩ := mem_eachEntry first mem
  obtain ⟨rule, read, -⟩ := mem_eachEntry second ((hcarry _).mem_iff.mpr mem)
  refine ⟨rule, ?_⟩
  rw [← parseMarkRule_compileMark, made]
  exact read

/-- A rule set that is accepted means something, and is carried over as that. -/
lemma means_of_load (h : load carry nodes marks = .ok (rules, blocks)) :
    ∃ app ms, eachEntry meaning nodes.entries = .ok app ∧
      eachEntry markMeaning marks.entries = .ok ms ∧ Carries app ms rules blocks := by
  obtain ⟨root, hcompile, hparse⟩ := load_ok h
  obtain ⟨compiled, compiledMarks, first, second, atNodes, atMarks, rfl⟩ :=
    @compile_ok carry _ _ _ _ hcompile
  obtain ⟨parsed, parsedMarks⟩ := parse_ok hparse
  rw [atNodes] at parsed
  rw [atMarks] at parsedMarks
  have keys : (compiled.map Prod.fst).Nodup := by
    rw [keys_eachEntry first]
    exact nodes.nodup
  have specKeys : ((compiled.map fun entry => (entry.1, entry.2.1)).map Prod.fst).Nodup := by
    rw [List.map_map]
    exact keys
  have markKeys : (compiledMarks.map Prod.fst).Nodup := by
    rw [keys_eachEntry second]
    exact marks.nodup
  rcases eachEntry_cases meaning nodes.entries with ⟨app, happ, -⟩ | ⟨entry, mem, error, wrong, -⟩
  swap
  · obtain ⟨rule, right⟩ := meaning_of_sent hcarry first parsed mem
    simp [right] at wrong
  rcases eachEntry_cases markMeaning marks.entries with ⟨ms, hms, -⟩ | ⟨entry, mem, error, wrong, -⟩
  swap
  · obtain ⟨rule, right⟩ := markMeaning_of_sent hcarry second parsedMarks mem
    simp [right] at wrong
  refine ⟨app, ms, happ, hms, fun name => ?_, fun name => ?_, fun name => ?_⟩
  · rw [get_eachEntry parsed, get_perm (hcarry _) specKeys, get_map, get_eachEntry first,
      get_compile, get_eachEntry happ]
    cases there : Dict.get nodes.entries name with
    | none => rfl
    | some arg =>
      obtain ⟨rule, right⟩ := meaning_of_sent hcarry first parsed (mem_of_get there)
      obtain ⟨json, made, read⟩ := compiled_of_meaning right
      simp [made, read, right, Except.toOption]
  · rw [get_eachEntry parsedMarks, get_perm (hcarry _) markKeys, get_eachEntry second]
    show _ = ms.get name
    rw [get_eachEntry hms]
    cases there : Dict.get marks.entries name with
    | none => rfl
    | some arg =>
      simp only [Option.bind_some, ← parseMarkRule_compileMark name arg]
      cases compileMark name arg <;> rfl
  · rw [get_filterMap keys, get_eachEntry first, callbacks, get_eachEntry happ]
    cases there : Dict.get nodes.entries name with
    | none => rfl
    | some arg =>
      obtain ⟨rule, right⟩ := meaning_of_sent hcarry first parsed (mem_of_get there)
      obtain ⟨json, made, -⟩ := compiled_of_meaning right
      simp only [Option.bind_some, made, right, Except.toOption]
      cases rule <;> rfl

/-- An error is about a rule that means nothing. -/
lemma means_of_load_error {error : RuleError} (h : load carry nodes marks = .error error) :
    (∃ entry ∈ nodes.entries, meaning entry.1 entry.2 = .error error) ∨
      ∃ entry ∈ marks.entries, markMeaning entry.1 entry.2 = .error error := by
  rcases load_error h with hcompile | ⟨root, blocks, hcompile, hparse⟩
  · rcases compile_error hcompile with first | second
    · rcases eachEntry_cases compileNode nodes.entries with ⟨_, ok, -⟩ | ⟨entry, mem, e, cause, all⟩
      · simp [ok] at first
      · obtain rfl : e = error := by simpa [all] using first
        exact .inl ⟨entry, mem, meaning_of_error (by rw [cause]; rfl)⟩
    · rcases eachEntry_cases compileMark marks.entries with ⟨_, ok, -⟩ | ⟨entry, mem, e, cause, all⟩
      · simp [ok] at second
      · obtain rfl : e = error := by simpa [all] using second
        exact .inr ⟨entry, mem, by rw [← parseMarkRule_compileMark, cause]; rfl⟩
  · obtain ⟨compiled, compiledMarks, first, second, atNodes, atMarks, -⟩ :=
      @compile_ok carry _ _ _ _ hcompile
    rcases parse_error hparse with parsed | parsed
    · rw [atNodes] at parsed
      rcases eachEntry_cases parseNodeRule (carry (compiled.map fun entry =>
        (entry.1, entry.2.1))) with ⟨_, ok, -⟩ | ⟨sent, mem, e, cause, all⟩
      · simp [ok] at parsed
      · obtain rfl : e = error := by simpa [all] using parsed
        obtain ⟨⟨name, result⟩, there, rfl⟩ := List.mem_map.mp ((hcarry _).mem_iff.mp mem)
        obtain ⟨arg, given, made⟩ := of_mem_eachEntry first there
        exact .inl ⟨(name, arg), given, meaning_of_error (by rw [made]; exact cause)⟩
    · rw [atMarks] at parsed
      rcases eachEntry_cases parseMarkRule (carry compiledMarks) with
        ⟨_, ok, -⟩ | ⟨⟨name, json⟩, mem, e, cause, all⟩
      · simp [ok] at parsed
      · obtain rfl : e = error := by simpa [all] using parsed
        obtain ⟨arg, given, made⟩ := of_mem_eachEntry second ((hcarry _).mem_iff.mp mem)
        exact .inr ⟨(name, arg), given, by rw [← parseMarkRule_compileMark, made]; exact cause⟩

end

/-! ## Both forms -/

/-- The rules under the names that they end up with. -/
def keyed {α : Type} (entries : List (Val × α)) : Dict α :=
  entries.map fun entry => (entry.1.toS, entry.2)

/-- The node rules of the block. -/
def nodeCalls : List Call → Dict RuleArg
  | [] => []
  | .node type options block :: calls => (type.toS, nodeArg options block) :: nodeCalls calls
  | .mark _ _ :: calls => nodeCalls calls

/-- The mark rules of the block. -/
def markCalls : List Call → Dict RuleArg
  | [] => []
  | .node _ _ _ :: calls => markCalls calls
  | .mark name options :: calls => (name.toS, .options options) :: markCalls calls

/-- The rule that counts for a name: the last one of the block, or else of the keywords. -/
def lastFor (inBlock inKeywords : Dict RuleArg) (name : String) : Option RuleArg :=
  (Dict.get inBlock.reverse name).or (Dict.get inKeywords.reverse name)

lemma build_eq (marksAllowed : Bool) (nodes marks : Hash RuleArg) (calls : List Call) :
    build marksAllowed nodes marks calls =
      if marksAllowed || (markCalls calls).isEmpty then
        .ok (nodes.putAll (nodeCalls calls), marks.putAll (markCalls calls))
      else .error .marksNotAllowed := by
  induction calls generalizing nodes marks with
  | nil => simp [build, markCalls, nodeCalls, Hash.putAll]
  | cons call calls ih =>
    cases call with
    | node type options block =>
      show build marksAllowed (nodes.put type.toS (nodeArg options block)) marks calls = _
      rw [ih]
      rfl
    | mark name options =>
      cases marksAllowed with
      | false => rfl
      | true =>
        show build true nodes (marks.put name.toS (.options options)) calls = _
        rw [ih]
        rfl

/-- What `initialize` compiles: the keywords, and the block in front of them. -/
def collected (inKeywords : List (Val × RuleArg)) (inBlock : Dict RuleArg) : Hash RuleArg :=
  (Hash.transformKeys inKeywords).merge (Hash.empty.putAll inBlock)

lemma get_collected (inKeywords : List (Val × RuleArg)) (inBlock : Dict RuleArg) (name : String) :
    (collected inKeywords inBlock).get name = lastFor inBlock (keyed inKeywords) name := by
  have built : (Hash.empty.putAll inBlock).get name = Dict.get inBlock.reverse name := by
    rw [Hash.get_putAll]
    exact Option.or_none
  have reversed : Dict.get (Hash.empty.putAll inBlock).entries.reverse name =
      (Hash.empty.putAll inBlock).get name :=
    get_perm (List.reverse_perm _) (Hash.empty.putAll inBlock).nodup name
  have given : (Hash.transformKeys inKeywords).get name =
      Dict.get (keyed inKeywords).reverse name := by
    unfold Hash.transformKeys
    rw [Hash.get_putAll]
    exact Option.or_none
  rw [collected, Hash.merge, Hash.get_putAll, reversed, built, given]
  rfl

lemma mem_collected {inKeywords : List (Val × RuleArg)} {inBlock : Dict RuleArg} {name : String}
    {arg : RuleArg} : (name, arg) ∈ (collected inKeywords inBlock).entries ↔
      lastFor inBlock (keyed inKeywords) name = some arg := by
  rw [← get_collected, ← get_eq_some_iff (collected inKeywords inBlock).nodup]
  rfl

section

variable {carry : Dict Json → Dict Json} {marksAllowed : Bool} {nodes marks : List (Val × RuleArg)}
  {calls : List Call}

lemma newRenderer_eq :
    newRenderer carry marksAllowed nodes marks calls =
      if marksAllowed || (markCalls calls).isEmpty then
        load carry (collected nodes (nodeCalls calls)) (collected marks (markCalls calls))
      else .error .marksNotAllowed := by
  rw [newRenderer, build_eq]
  split <;> rfl

variable (hcarry : ∀ fields, (carry fields).Perm fields)
include hcarry

/-- An error is about the last rule for a name. -/
lemma last_of_error {error : RuleError}
    (h : load carry (collected nodes (nodeCalls calls)) (collected marks (markCalls calls)) =
      .error error) :
    (∃ name arg, lastFor (nodeCalls calls) (keyed nodes) name = some arg ∧
        meaning name arg = .error error) ∨
      ∃ name arg, lastFor (markCalls calls) (keyed marks) name = some arg ∧
        markMeaning name arg = .error error := by
  rcases means_of_load_error hcarry h with ⟨⟨name, arg⟩, mem, cause⟩ | ⟨⟨name, arg⟩, mem, cause⟩
  · exact .inl ⟨name, arg, mem_collected.mp mem, cause⟩
  · exact .inr ⟨name, arg, mem_collected.mp mem, cause⟩

lemma load_isOk_iff :
    (∃ out, load carry (collected nodes (nodeCalls calls)) (collected marks (markCalls calls)) =
        .ok out) ↔
      (∀ name arg, lastFor (nodeCalls calls) (keyed nodes) name = some arg →
          ∃ rule, meaning name arg = .ok rule) ∧
        ∀ name arg, lastFor (markCalls calls) (keyed marks) name = some arg →
          ∃ rule, markMeaning name arg = .ok rule := by
  constructor
  · rintro ⟨⟨rules, blocks⟩, h⟩
    obtain ⟨app, ms, happ, hms, -⟩ := means_of_load hcarry h
    refine ⟨fun name arg last => ?_, fun name arg last => ?_⟩
    · obtain ⟨rule, right, -⟩ := mem_eachEntry happ (mem_collected.mpr last)
      exact ⟨rule, right⟩
    · obtain ⟨rule, right, -⟩ := mem_eachEntry hms (mem_collected.mpr last)
      exact ⟨rule, right⟩
  · rintro ⟨nodeMeans, markMeans⟩
    cases h : load carry (collected nodes (nodeCalls calls))
      (collected marks (markCalls calls)) with
    | ok out => exact ⟨out, rfl⟩
    | error error =>
      rcases last_of_error hcarry h with ⟨name, arg, last, cause⟩ | ⟨name, arg, last, cause⟩
      · obtain ⟨rule, right⟩ := nodeMeans name arg last
        simp [right] at cause
      · obtain ⟨rule, right⟩ := markMeans name arg last
        simp [right] at cause

end

/-- **A rule set is accepted exactly when its rules mean something, and works as they do.**  What
counts for a name is the last rule for it, in the block or else in the keywords.  An error is about
such a rule, and one of those that `meaning` and `markMeaning` know, so it never is about malformed
attributes or templates. -/
theorem accepts_meaningful {carry : Dict Json → Dict Json}
    (hcarry : ∀ fields, (carry fields).Perm fields) (marksAllowed : Bool)
    (nodes marks : List (Val × RuleArg)) (calls : List Call) :
    ((∃ out, newRenderer carry marksAllowed nodes marks calls = .ok out) ↔
      (marksAllowed || (markCalls calls).isEmpty) = true ∧
        (∀ name arg, lastFor (nodeCalls calls) (keyed nodes) name = some arg →
          ∃ rule, meaning name arg = .ok rule) ∧
        ∀ name arg, lastFor (markCalls calls) (keyed marks) name = some arg →
          ∃ rule, markMeaning name arg = .ok rule) ∧
    (∀ rules blocks, newRenderer carry marksAllowed nodes marks calls = .ok (rules, blocks) →
      ∃ app ms,
        (∀ name, app.get name = (lastFor (nodeCalls calls) (keyed nodes) name).bind fun arg =>
          (meaning name arg).toOption) ∧
        (∀ name, ms.get name = (lastFor (markCalls calls) (keyed marks) name).bind fun arg =>
          (markMeaning name arg).toOption) ∧
        Carries app ms rules blocks) ∧
    ∀ error, newRenderer carry marksAllowed nodes marks calls = .error error →
      error = .marksNotAllowed ∨
      (∃ name arg, lastFor (nodeCalls calls) (keyed nodes) name = some arg ∧
        meaning name arg = .error error) ∨
      ∃ name arg, lastFor (markCalls calls) (keyed marks) name = some arg ∧
        markMeaning name arg = .error error := by
  rw [newRenderer_eq]
  by_cases allowed : (marksAllowed || (markCalls calls).isEmpty) = true
  · rw [if_pos allowed]
    refine ⟨?_, fun rules blocks h => ?_, fun error h => .inr (last_of_error hcarry h)⟩
    · rw [load_isOk_iff hcarry, and_iff_right allowed]
    · obtain ⟨app, ms, happ, hms, carried⟩ := means_of_load hcarry h
      refine ⟨app, ms, fun name => ?_, fun name => ?_, carried⟩
      · rw [get_eachEntry happ, ← get_collected]
        rfl
      · rw [get_eachEntry hms, ← get_collected]
        rfl
  · rw [if_neg allowed]
    simp [allowed]

/-- A callout and a callback in the block, and a keyword rule that the block replaces. -/
theorem accepts_meaningful_callout :
    ∃ rules blocks app ms, newRenderer List.reverse true [(.symbol "video", .other)] []
        [.node (.string "callout") (some { tag := .symbol "aside", contains := .symbol "blocks" })
            none,
          .node (.string "video") none (some fun node => some node.content)] =
        .ok (rules, blocks) ∧
      app.get "callout" = some (.declarative "aside" false [] none .blocks) ∧
      Carries app ms rules blocks := by
  have built := (@accepts_meaningful List.reverse (fun fields => fields.reverse_perm) true
    [(.symbol "video", .other)] []
    [.node (.string "callout") (some { tag := .symbol "aside", contains := .symbol "blocks" }) none,
      .node (.string "video") none (some fun node => some node.content)]).2.1 _ _ rfl
  obtain ⟨app, ms, meant, -, carried⟩ := built
  exact ⟨_, _, app, ms, rfl, by rw [meant]; rfl, carried⟩

end Yrby.RuleText
