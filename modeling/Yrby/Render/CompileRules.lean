import Yrby.Render.Schema

/-!
# Writing rules down (`rendering.rb`, `html-core/src/lib.rs`)

An application writes rules as hashes, or as calls of a builder in a block.  Ruby collects them
under their names, keeps the callbacks, and hands the rest to the native renderer as JSON
(`compile`), which parses it (`parse`).  Either end may raise an `ArgumentError`.

The text of the JSON is not modelled.  A parsed object has its fields in another order (`carry`);
this shows in the order of the rules only, and there it decides which of several errors is raised.
-/

namespace Yrby.RuleText

open HtmlCore RenderRules

/-! ## Ruby objects -/

/-- What an option of a rule, or the name of a rule, can be. -/
inductive Val
  | nil
  | bool (b : Bool)
  | symbol (name : String)
  | string (s : String)
  /-- Any other object, by its `to_s`. -/
  | other (text : String)
  deriving DecidableEq

def Val.isTruthy : Val → Bool
  | .nil | .bool false => false
  | _ => true

def Val.toS : Val → String
  | .nil => ""
  | .bool b => if b then "true" else "false"
  | .symbol s | .string s | .other s => s

/-- A template: one part, or an Array of parts. -/
inductive Template
  | one (part : Val)
  | many (parts : List Val)
  deriving DecidableEq

def Template.isTruthy : Template → Bool
  | .one part => part.isTruthy
  | .many _ => true

/-- `Kernel.Array` -/
def Template.toArray : Template → List Val
  | .one .nil => []
  | .one part => [part]
  | .many parts => parts

/-- The options of a rule.  One that is missing is `nil`. -/
structure Options where
  render : Option Block := none
  tag : Val := .nil
  void : Val := .nil
  attrs : Option (List (Val × Template)) := none
  text : Template := .one .nil
  contains : Val := .nil

/-- What is given as a rule. -/
inductive RuleArg
  | callable (block : Block)
  | options (o : Options)
  | other

/-! ## Hashes -/

/-- A Hash under strings, in the order of insertion. -/
structure Hash (α : Type) where
  entries : Dict α
  nodup : (entries.map Prod.fst).Nodup

namespace Hash

variable {α : Type}

def empty : Hash α := ⟨[], List.nodup_nil⟩

def get (h : Hash α) (key : String) : Option α := h.entries.get key

/-- `Hash#[]=` on the entries: a key that is there keeps its place. -/
def putEntries (key : String) (value : α) : Dict α → Dict α
  | [] => [(key, value)]
  | entry :: entries =>
    if entry.1 = key then (key, value) :: entries else entry :: putEntries key value entries

lemma mem_keys_putEntries {key key' : String} {value : α} {d : Dict α} :
    key' ∈ (putEntries key value d).map Prod.fst ↔ key' = key ∨ key' ∈ d.map Prod.fst := by
  induction d with
  | nil => simp [putEntries]
  | cons entry d ih =>
    unfold putEntries
    split
    · rename_i here
      simp [here]
    · rw [List.map_cons, List.mem_cons, ih, List.map_cons, List.mem_cons]
      tauto

lemma nodup_putEntries {key : String} {value : α} {d : Dict α} (h : (d.map Prod.fst).Nodup) :
    ((putEntries key value d).map Prod.fst).Nodup := by
  induction d with
  | nil => simp [putEntries]
  | cons entry d ih =>
    rw [List.map_cons, List.nodup_cons] at h
    unfold putEntries
    split
    · rename_i here
      rw [List.map_cons, List.nodup_cons, ← here]
      exact h
    · rename_i there
      rw [List.map_cons, List.nodup_cons, mem_keys_putEntries]
      exact ⟨by rintro (same | mem); exacts [there same, h.1 mem], ih h.2⟩

lemma get_putEntries {key key' : String} {value : α} {d : Dict α} :
    (putEntries key value d).get key' = if key' = key then some value else d.get key' := by
  induction d with
  | nil =>
    by_cases same : key' = key
    · simp [putEntries, Dict.get, same]
    · simp [putEntries, Dict.get, List.lookup_cons, same, beq_eq_false_iff_ne.mpr same]
  | cons entry d ih =>
    obtain ⟨name, old⟩ := entry
    unfold putEntries
    simp only [Dict.get] at ih ⊢
    by_cases here : name = key
    · by_cases same : key' = key
      · simp [here, same]
      · simp [here, same, List.lookup_cons, beq_eq_false_iff_ne.mpr same]
    · rw [if_neg here, List.lookup_cons, List.lookup_cons, ih]
      by_cases same : key' = name
      · subst same
        simp [here]
      · simp [beq_eq_false_iff_ne.mpr same]

def put (h : Hash α) (key : String) (value : α) : Hash α :=
  ⟨putEntries key value h.entries, nodup_putEntries h.nodup⟩

/-- Insert in order. -/
def putAll (h : Hash α) (entries : Dict α) : Hash α :=
  entries.foldl (fun h entry => h.put entry.1 entry.2) h

/-- `transform_keys(&:to_s)` -/
def transformKeys (entries : List (Val × α)) : Hash α :=
  empty.putAll (entries.map fun entry => (entry.1.toS, entry.2))

def merge (h other : Hash α) : Hash α := h.putAll other.entries

lemma get_putAll (h : Hash α) (entries : Dict α) (key : String) :
    (h.putAll entries).get key = (Dict.get entries.reverse key).or (h.get key) := by
  induction entries generalizing h with
  | nil => rfl
  | cons entry entries ih =>
    obtain ⟨name, value⟩ := entry
    have inserted : (h.put name value).get key = if key = name then some value else h.get key :=
      get_putEntries
    show ((h.put name value).putAll entries).get key = _
    rw [ih, inserted, List.reverse_cons, get_append, Option.or_assoc]
    by_cases same : key = name
    · simp [same, Dict.get]
    · simp [same, Dict.get, List.lookup_cons, beq_eq_false_iff_ne.mpr same]

end Hash

/-! ## Errors -/

/-- Why a rule is refused. -/
inductive RuleError
  | notRule (name : String)
  | notMarkRule (name : String)
  | marksNotAllowed
  | unknownContent (name kind : String)
  | needsTag (name : String)
  | markNeedsTag (name : String)
  | textNotArray (name : String)
  | attrsNotArray (name : String)
  | malformedAttrs (name : String)
  | malformedPart (name : String)
  deriving DecidableEq

/-- The message of the `ArgumentError`.  `quote` is `inspect`, and `{:?}`. -/
def RuleError.message (quote : String → String) : RuleError → String
  | .notRule name => "rule for " ++ quote name ++ " must be a Hash or a callable"
  | .notMarkRule name => "mark rule for " ++ quote name ++ " must be a Hash"
  | .marksNotAllowed => "marks are ProseMirror-only"
  | .unknownContent name kind =>
    "rule for " ++ quote name ++ ": unknown content kind " ++ quote kind ++
      " (blocks|inline|none)"
  | .needsTag name => "rule for " ++ quote name ++ " needs a tag (or a callback)"
  | .markNeedsTag name => "mark rule for " ++ quote name ++ " needs a tag"
  | .textNotArray name => "rule for " ++ quote name ++ ": text must be a template array"
  | .attrsNotArray name =>
    "rule for " ++ quote name ++ ": attrs must be an array of [name, template] pairs"
  | .malformedAttrs name => "rule for " ++ quote name ++ ": malformed attrs entry"
  | .malformedPart name => "rule for " ++ quote name ++ ": template part must be lit or ref"

/-! ## What Ruby hands over -/

/-- A JSON value.  Numbers do not occur. -/
inductive Json
  | null
  | bool (b : Bool)
  | string (s : String)
  | array (elements : List Json)
  | object (fields : List (String × Json))

/-- `compile_parts`, one part. -/
def compilePart : Val → Json
  | .symbol name => .object [("ref", .string name)]
  | part => .object [("lit", .string part.toS)]

/-- `compile_parts` -/
def compileParts (template : Template) : List Json := template.toArray.map compilePart

/-- `compile_attrs` -/
def compileAttrs (attrs : List (Val × Template)) : List Json :=
  attrs.map fun entry => .array [.string entry.1.toS, .array (compileParts entry.2)]

/-- The field of an option, when it is given. -/
def fieldIf (given : Bool) (field : String) (value : Json) : Dict Json :=
  if given then [(field, value)] else []

def compileContains (o : Options) : Dict Json :=
  fieldIf o.contains.isTruthy "content" (.string o.contains.toS)

def compileTag (o : Options) : Dict Json := fieldIf o.tag.isTruthy "tag" (.string o.tag.toS)

def compileAttrsField (o : Options) : Dict Json :=
  fieldIf o.attrs.isSome "attrs" (.array (compileAttrs (o.attrs.getD [])))

/-- `compile_declarative_node` -/
def compileDeclarativeNode (o : Options) : Dict Json :=
  compileTag o ++ fieldIf o.void.isTruthy "void" (.bool true) ++ compileAttrsField o ++
    fieldIf o.text.isTruthy "text" (.array (compileParts o.text)) ++ compileContains o

/-- `compile_node`: what the native renderer gets, and the callback that Ruby keeps. -/
def compileNode (type : String) : RuleArg → Except RuleError (Json × Option Block)
  | .callable block => .ok (.object [("callback", .bool true)], some block)
  | .other => .error (.notRule type)
  | .options o =>
    match o.render with
    | some block => .ok (.object ([("callback", .bool true)] ++ compileContains o), some block)
    | none => .ok (.object (compileDeclarativeNode o), none)

/-- `compile_mark` -/
def compileMark (name : String) : RuleArg → Except RuleError Json
  | .options o => .ok (.object (compileTag o ++ compileAttrsField o))
  | _ => .error (.notMarkRule name)

/-- What `f` makes of every entry of a map. -/
def eachEntry {α β : Type} (f : String → α → Except RuleError β) :
    Dict α → Except RuleError (Dict β)
  | [] => .ok []
  | entry :: entries => do
    let value ← f entry.1 entry.2
    let rest ← eachEntry f entries
    .ok ((entry.1, value) :: rest)

/-- What the JSON holds of one kind of rules, unless there are none. -/
def rulesField (field : String) (entries : Dict Json) : Dict Json :=
  fieldIf (!entries.isEmpty) field (.object entries)

/-- `RenderRules.compile` -/
def compile (nodes marks : Hash RuleArg) : Except RuleError (Dict Json × Dict Block) := do
  let compiled ← eachEntry compileNode nodes.entries
  let compiledMarks ← eachEntry compileMark marks.entries
  .ok (rulesField "nodes" (compiled.map fun entry => (entry.1, entry.2.1)) ++
      rulesField "marks" compiledMarks,
    compiled.filterMap fun entry => entry.2.2.map fun block => (entry.1, block))

/-! ## What the native renderer makes of it -/

def Json.get? (field : String) : Json → Option Json
  | .object fields => Dict.get fields field
  | _ => none

/-- `as_str` -/
def Json.asStr : Json → Option String
  | .string s => some s
  | _ => none

/-- `as_bool` -/
def Json.asBool : Json → Option Bool
  | .bool b => some b
  | _ => none

/-- `as_object` -/
def Json.asObject : Json → Option (Dict Json)
  | .object fields => some fields
  | _ => none

/-- `as_array`, at an index -/
def Json.at? (i : ℕ) : Json → Option Json
  | .array elements => elements[i]?
  | _ => none

/-- `parse_parts` -/
def parseParts (name : String) : List Json → Except RuleError (List AttrPart)
  | [] => .ok []
  | part :: parts => do
    let first ←
      match (part.get? "lit").bind Json.asStr with
      | some lit => .ok (.lit lit)
      | none =>
        match (part.get? "ref").bind Json.asStr with
        | some ref => .ok (.ref ref)
        | none => .error (.malformedPart name)
    let rest ← parseParts name parts
    .ok (first :: rest)

/-- The entries of `parse_attrs`. -/
def parseEntries (name : String) : List Json → Except RuleError (List (String × List AttrPart))
  | [] => .ok []
  | entry :: entries => do
    let first ←
      match (entry.at? 0).bind Json.asStr, entry.at? 1 with
      | some attrName, some (.array parts) =>
        (parseParts name parts).map fun template => (attrName, template)
      | _, _ => .error (.malformedAttrs name)
    let rest ← parseEntries name entries
    .ok (first :: rest)

/-- `parse_attrs` -/
def parseAttrs (name : String) : Option Json → Except RuleError (List (String × List AttrPart))
  | none | some .null => .ok []
  | some (.array entries) => parseEntries name entries
  | some _ => .error (.attrsNotArray name)

/-- The content kind of `parse_node_rule`. -/
def parseContent (name : String) : Option String → Except RuleError Content
  | none => .ok .inline
  | some kind =>
    if kind = "blocks" then .ok .blocks
    else if kind = "inline" then .ok .inline
    else if kind = "none" then .ok .none
    else .error (.unknownContent name kind)

/-- The text of `parse_node_rule`. -/
def parseText (name : String) : Option Json → Except RuleError (Option (List AttrPart))
  | some (.array parts) => (parseParts name parts).map some
  | none | some .null => .ok none
  | some _ => .error (.textNotArray name)

/-- `parse_node_rule` -/
def parseNodeRule (name : String) (spec : Json) : Except RuleError NodeRule := do
  let content ← parseContent name ((spec.get? "content").bind Json.asStr)
  if ((spec.get? "callback").bind Json.asBool).getD false then
    .ok (.callback content)
  else
    match (spec.get? "tag").bind Json.asStr with
    | none => .error (.needsTag name)
    | some tag =>
      let attrs ← parseAttrs name (spec.get? "attrs")
      let text ← parseText name (spec.get? "text")
      .ok (.declarative tag (((spec.get? "void").bind Json.asBool).getD false) attrs text content)

/-- `parse_mark_rule` -/
def parseMarkRule (name : String) (spec : Json) : Except RuleError MarkRule :=
  match (spec.get? "tag").bind Json.asStr with
  | none => .error (.markNeedsTag name)
  | some tag => (parseAttrs name (spec.get? "attrs")).map fun attrs => ⟨tag, attrs⟩

section

variable (carry : Dict Json → Dict Json)

/-- The rules of one kind, in the order that their fields have arrived in. -/
def arrived (root : Dict Json) (field : String) : Dict Json :=
  carry (((root.get field).bind Json.asObject).getD [])

/-- `Rules::parse` -/
def parse (root : Dict Json) : Except RuleError Rules := do
  let nodes ← eachEntry parseNodeRule (arrived carry root "nodes")
  let marks ← eachEntry parseMarkRule (arrived carry root "marks")
  .ok ⟨nodes, marks⟩

/-- From the hashes to the rules of the native renderer and the callbacks in Ruby. -/
def load (nodes marks : Hash RuleArg) : Except RuleError (Rules × Dict Block) := do
  let (root, blocks) ← compile nodes marks
  let rules ← parse carry root
  .ok (rules, blocks)

end

/-! ## The builder -/

/-- A call in the block.  Without any option, `options` is missing. -/
inductive Call
  | node (type : Val) (options : Option Options) (block : Option Block)
  | mark (name : Val) (options : Options)

/-- What `Builder#node` takes down. -/
def nodeArg : Option Options → Option Block → RuleArg
  | none, some block => .callable block
  | some options, some block => .options { options with render := some block }
  | options, none => .options (options.getD {})

/-- One call of the builder. -/
def Call.run (marksAllowed : Bool) (nodes marks : Hash RuleArg) :
    Call → Except RuleError (Hash RuleArg × Hash RuleArg)
  | .node type options block => .ok (nodes.put type.toS (nodeArg options block), marks)
  | .mark name options =>
    if marksAllowed then .ok (nodes, marks.put name.toS (.options options))
    else .error .marksNotAllowed

/-- The block. -/
def build (marksAllowed : Bool) (nodes marks : Hash RuleArg) :
    List Call → Except RuleError (Hash RuleArg × Hash RuleArg)
  | [] => .ok (nodes, marks)
  | call :: calls => do
    let (nodes, marks) ← call.run marksAllowed nodes marks
    build marksAllowed nodes marks calls

/-- `initialize` of a renderer: the block, then the keywords, then the compiler and the parser.  For
Lexical `marks` is empty. -/
def newRenderer (carry : Dict Json → Dict Json) (marksAllowed : Bool)
    (nodes marks : List (Val × RuleArg)) (calls : List Call) :
    Except RuleError (Rules × Dict Block) := do
  let (builtNodes, builtMarks) ← build marksAllowed .empty .empty calls
  load carry ((Hash.transformKeys nodes).merge builtNodes)
    ((Hash.transformKeys marks).merge builtMarks)

end Yrby.RuleText
