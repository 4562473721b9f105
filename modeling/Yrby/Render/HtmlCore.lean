import Yrby.Framework.Html
import Mathlib.Data.List.Sort

/-!
# Rules and segmented output

The crate both HTML renderers share: the values a document stores, the templates of a rule, and
the emitter.

An emitter is a non-empty stack of frames.  `Yields x a out` is the specification of an emitting
computation: from every emitter, it returns `a`, appends the pieces `out` to the frame on top, and
leaves the frames below alone.  So a computation that yields has ended every frame it began, the
innermost first.  `Yields.capture` is the rule for a frame.

serde_json and yrs's own JSON encoding are a parameter, `Json`.
-/

namespace Yrby

namespace HtmlCore

/-! ## Stored values -/

/-- What is read of an `f64`. -/
structure Float64 where
  /-- `n as i64` -/
  toI64 : ℤ
  /-- `n as u32` -/
  toU32 : ℕ
  /-- `n > 0.0` -/
  positive : Bool
  /-- `n.fract() == 0.0` -/
  whole : Bool
  /-- `format!("{n}")` -/
  display : String

/-- A map under string keys.  A key that stands twice has its first value. -/
abbrev Dict (α : Type) := List (String × α)

def Dict.get {α : Type} (d : Dict α) (key : String) : Option α := d.lookup key

def Dict.keys {α : Type} (d : Dict α) : List String := (d.map Prod.fst).eraseDups

def Dict.containsKey {α : Type} (d : Dict α) (key : String) : Bool := (d.get key).isSome

/-- `yrs::Any` -/
inductive Value
  | null
  | undefined
  | bool (b : Bool)
  | int (n : ℤ)
  | float (n : Float64)
  | bigInt (n : ℤ)
  | string (s : String)
  | buffer (bytes : List UInt8)
  | array (items : List Value)
  | map (entries : List (String × Value))

/-- `Some(Any::String(s))` -/
def stringOf : Option Value → Option String
  | some (.string s) => some s
  | _ => none

/-- `Some(Any::Map(map))` -/
def mapOf : Option Value → Option (Dict Value)
  | some (.map entries) => some entries
  | _ => none

/-- `yrs::Out`: a value, or a shared type, which the renderers do not read as an attribute. -/
inductive Out
  | any (v : Value)
  | shared

abbrev Attrs := Dict Out

/-- A text run; yrs lists no empty ones. -/
structure Run where
  text : String
  nonempty : text ≠ ""

/-- A stored attribute that is a string. -/
def strAttr (attrs : Attrs) (name : String) : Option String :=
  match attrs.get name with
  | some (.any (.string s)) => some s
  | _ => none

/-- The JSON encoders of third-party code: `serde_json::to_string` and `Any::to_json`. -/
structure Json where
  key : String → String
  value : Value → String

/-! ## Rules -/

/-- A piece of a template: a literal, or a reference to a stored attribute. -/
inductive AttrPart
  | lit (s : String)
  | ref (name : String)

/-- Fill in a template.  An empty result is none. -/
def resolveParts (parts : List AttrPart) (lookup : String → Option String) : Option String :=
  let out := parts.foldl
    (fun out part =>
      match part with
      | .lit s => out ++ s
      | .ref name =>
        match lookup name with
        | some v => out ++ v
        | none => out) ""
  if out.isEmpty then none else some out

/-- A stored value as a string. -/
def anyAttrString : Value → Option String
  | .string s => some s
  | .int n => some (toString n)
  | .float n => some (if n.whole then toString n.toI64 else n.display)
  | .bool b => some (if b then "true" else "false")
  | _ => none

/-- A reference to an attribute of a node: the name as it is, then with Lexical's prefix. -/
def xmlRefAttr (attrs : Attrs) (name : String) : Option String :=
  let value := fun out : Option Out =>
    match out with
    | some (.any v) => anyAttrString v
    | _ => none
  (value (attrs.get name)).or (value (attrs.get ("__" ++ name)))

/-- A node's stored attributes as a JSON object.  Shared types are left out. -/
def xmlAttrsJson (json : Json) (attrs : Attrs) : String :=
  let fields := Dict.keys attrs |>.filterMap fun key =>
    match attrs.get key with
    | some (.any v) => some (json.key key ++ ":" ++ json.value v)
    | _ => none
  "\x7b" ++ ",".intercalate fields ++ "\x7d"

/-- What goes inside a custom node's element. -/
inductive Content
  | blocks
  | inline
  | none
  deriving DecidableEq

inductive NodeRule
  | declarative (tag : String) (void : Bool) (attrs : List (String × List AttrPart))
    (text : Option (List AttrPart)) (content : Content)
  | callback (content : Content)

/-- A custom mark: a wrapping tag with attributes from the mark's own values. -/
structure MarkRule where
  tag : String
  attrs : List (String × List AttrPart)

structure Rules where
  nodes : Dict NodeRule
  marks : Dict MarkRule

def Rules.empty : Rules := ⟨[], []⟩

/-! ## Strings -/

/-- `char::is_whitespace` -/
def isWhitespace (c : Char) : Bool :=
  let n := c.toNat
  (9 ≤ n && n ≤ 13) || (0x2000 ≤ n && n ≤ 0x200A) ||
    n ∈ [0x20, 0x85, 0xA0, 0x1680, 0x2028, 0x2029, 0x202F, 0x205F, 0x3000]

/-- `char::is_control` -/
def isControl (c : Char) : Bool := c.toNat < 0x20 || (0x7F ≤ c.toNat && c.toNat ≤ 0x9F)

/-- `str::split_once` -/
def splitOnce (sep : Char) (s : List Char) : Option (List Char × List Char) :=
  match s.dropWhile (· ≠ sep) with
  | [] => none
  | _ :: after => some (s.takeWhile (· ≠ sep), after)

/-- The scheme a URL names, lowercased. -/
def urlScheme (url : String) : Option String :=
  let url := url.toList.filter fun c => !isWhitespace c && !isControl c
  match splitOnce ':' url with
  | none => none
  | some (scheme, _) =>
    let valid := scheme.head?.any Char.isAlpha &&
      scheme.tail.all fun c => c.isAlphanum || c ∈ ['+', '.', '-']
    if valid then some (.ofList (scheme.map Char.toLower)) else none

/-- `str::replace` of one character. -/
def replace (s : String) (c : Char) (by' : String) : String :=
  .ofList (s.toList.flatMap fun d => if d = c then by'.toList else [d])

/-- Escaping of text content. -/
def escapeText (s : String) : String :=
  replace (replace (replace s '&' "&amp;") '<' "&lt;") '>' "&gt;"

/-- Escaping of an attribute value. -/
def escapeAttr (s : String) : String := replace (escapeText s) '"' "&quot;"

lemma toList_replace (s : String) (c : Char) (r : String) :
    (replace s c r).toList = s.toList.flatMap fun d => if d = c then r.toList else [d] := by
  simp [replace]

/-- Replacing one character after the other is escaping each character once: no reference holds a
character that is replaced after it. -/
lemma toList_escapeText (s : String) : (escapeText s).toList = s.toList.flatMap Html.textChar := by
  simp only [escapeText, toList_replace, List.flatMap_assoc]
  congr 1
  funext c
  rcases Html.textChar_cases c with ⟨rfl, h⟩ | ⟨rfl, h⟩ | ⟨rfl, h⟩ | ⟨amp, lt, gt, h⟩
  · rw [h]; rfl
  · rw [h]; rfl
  · rw [h]; rfl
  · rw [h, if_neg amp, List.flatMap_singleton, if_neg lt, List.flatMap_singleton, if_neg gt]

lemma toList_escapeAttr (s : String) : (escapeAttr s).toList = s.toList.flatMap Html.attrChar := by
  simp only [escapeAttr, toList_replace, toList_escapeText, List.flatMap_assoc]
  congr 1
  funext c
  by_cases quote : c = '"'
  · subst quote
    rfl
  · rw [Html.attrChar_eq_textChar quote]
    rcases Html.textChar_cases c with ⟨rfl, h⟩ | ⟨rfl, h⟩ | ⟨rfl, h⟩ | ⟨-, -, -, h⟩
    · rw [h]; rfl
    · rw [h]; rfl
    · rw [h]; rfl
    · rw [h, List.flatMap_singleton, if_neg quote]

/-- A number needs no escaping. -/
lemma flatMap_attrChar_toString (n : ℤ) :
    (toString n).toList.flatMap Html.attrChar = (toString n).toList := by
  have digits : ∀ m : ℕ, ∀ c ∈ (toString m).toList, c.isDigit = true := by
    intro m c hc
    apply Nat.isDigit_of_mem_toDigits (b := 10) (n := m) (by decide) (by decide)
    simpa [Nat.repr] using hc
  have plain : ∀ cs : List Char, (∀ c ∈ cs, c = '-' ∨ c.isDigit = true) →
      cs.flatMap Html.attrChar = cs := by
    intro cs h
    induction cs with
    | nil => rfl
    | cons c cs ih =>
      have head : Html.attrChar c = [c] := by
        have hc := h c (by simp)
        unfold Html.attrChar Html.textChar
        split
        · simp [Char.isDigit] at hc
        · split <;> simp_all [Char.isDigit]
      rw [List.flatMap_cons, head, ih fun d hd => h d (by simp [hd]), List.singleton_append]
  apply plain
  intro c hc
  cases n with
  | ofNat m =>
    right
    exact digits m c hc
  | negSucc m =>
    have sign : toString (Int.negSucc m) = "-" ++ toString (m + 1) := rfl
    have parts : c = '-' ∨ c ∈ (toString (m + 1)).toList := by
      rw [sign] at hc
      simpa using hc
    exact parts.imp id (digits _ c)

lemma flatMap_attrChar_repr (n : ℤ) : n.repr.toList.flatMap Html.attrChar = n.repr.toList :=
  flatMap_attrChar_toString n

/-! ## The emitter -/

/-- What a deferred segment carries for the caller, beside its content. -/
structure Deferred where
  nodeType : String
  attrsJson : String
  childTypes : List String
  deriving DecidableEq

abbrev Segment := Html.Segment Deferred

abbrev Piece := Html.Piece Deferred

abbrev Tree := Html.Tree Deferred

/-- The frames, the last one apart. -/
structure Emitter where
  frame : List Segment
  outer : List (List Segment)

/-- An emitting computation.  `none` is a frame ended that was never begun. -/
abbrev Render := StateT Emitter Option

namespace Emitter

def new : Emitter := ⟨[], []⟩

def pushSegment (frame : List Segment) (s : String) : List Segment :=
  if s.isEmpty then frame
  else
    match frame.getLast? with
    | some (.html last) => frame.dropLast ++ [.html (last ++ s)]
    | _ => frame ++ [.html s]

def pushStr (s : String) : Render Unit :=
  modify fun em => { em with frame := pushSegment em.frame s }

def push (c : Char) : Render Unit := pushStr (String.singleton c)

/-- Start capturing output into a sub-frame. -/
def beginFrame : Render Unit := modify fun em => ⟨[], em.frame :: em.outer⟩

/-- Finish the current sub-frame and return what it captured. -/
def endFrame : Render (List Segment) := fun em =>
  match em.outer with
  | [] => none
  | below :: outer => some (em.frame, ⟨below, outer⟩)

/-- Run a computation in a frame of its own and return what it emitted. -/
def capture (x : Render Unit) : Render (List Segment) := do
  beginFrame
  x
  endFrame

def emitDeferred (label : Deferred) (content : List Segment) : Render Unit :=
  modify fun em => { em with frame := em.frame ++ [.hole label content] }

/-- Append previously captured segments to the current frame. -/
def append (segments : List Segment) : Render Unit :=
  segments.forM fun seg =>
    match seg with
    | .html s => pushStr s
    | .hole label content => emitDeferred label content

/-- The finished segments; every frame but the first must have been ended. -/
def intoSegments (em : Emitter) : Option (List Segment) :=
  match em.outer with
  | [] => some em.frame
  | _ :: _ => none

/-- Pieces appended to the frame on top. -/
def add (em : Emitter) (ps : List Piece) : Emitter := ⟨Html.Segment.add em.frame ps, em.outer⟩

end Emitter

namespace Emitter

@[simp] lemma add_nil (em : Emitter) : em.add [] = em := rfl

@[simp] lemma add_append (em : Emitter) (ps qs : List Piece) :
    em.add (ps ++ qs) = (em.add ps).add qs := by
  simp [add]

lemma intoSegments_add (ps : List Piece) : (new.add ps).intoSegments = some (Html.group ps) := rfl

/-- Two strings join a frame as one. -/
lemma pushSegment_append (frame : List Segment) (s t : String) :
    pushSegment frame (s ++ t) = pushSegment (pushSegment frame s) t := by
  by_cases hs : s = ""
  · subst hs
    simp [pushSegment]
  by_cases ht : t = ""
  · subst ht
    simp [pushSegment]
  rcases List.eq_nil_or_concat frame with rfl | ⟨front, last, rfl⟩
  · simp [pushSegment, hs, ht]
  · cases last with
    | html l => simp [pushSegment, hs, ht, String.append_assoc]
    | hole label content => simp [pushSegment, hs, ht]

lemma pushSegment_singleton (frame : List Segment) (c : Char) :
    pushSegment frame (String.singleton c) = Html.Segment.snoc frame (.char c) := by
  rcases List.eq_nil_or_concat frame with rfl | ⟨front, last, rfl⟩
  · simp [pushSegment, Html.Segment.snoc]
  · cases last with
    | html l => simp [pushSegment, Html.Segment.snoc]
    | hole label content => simp [pushSegment, Html.Segment.snoc]

/-- A string joins a frame as its characters do, one after the other. -/
lemma pushSegment_eq_add (frame : List Segment) (s : String) :
    pushSegment frame s = Html.Segment.add frame (Html.chars s) := by
  suffices hs : ∀ cs : List Char, ∀ frame : List Segment,
      pushSegment frame (String.ofList cs) = Html.Segment.add frame (cs.map .char) by
    simpa [Html.chars] using hs s.toList frame
  intro cs
  induction cs with
  | nil => intro frame; simp [pushSegment]
  | cons c cs ih =>
    intro frame
    have split : String.ofList (c :: cs) = String.singleton c ++ String.ofList cs := by
      rw [← String.toList_inj]
      simp
    rw [split, pushSegment_append, pushSegment_singleton, ih]
    rfl

end Emitter

/-- What a computation emits on its own, from a new emitter. -/
def emitted (x : Render Unit) : Option (List Segment) :=
  (x Emitter.new).bind fun r => r.2.intoSegments

/-! ## What a computation yields -/

open Emitter

/-- From every emitter, `x` returns `a` and appends `out` to the frame on top. -/
def Yields {α : Type} (x : Render α) (a : α) (out : List Piece) : Prop :=
  ∀ em, x em = some (a, em.add out)

section

variable {α β : Type}

lemma Yields.pure (a : α) : Yields (Pure.pure a) a [] := fun _ => rfl

lemma Yields.bind {x : Render α} {f : α → Render β} {a : α} {b : β} {out out' : List Piece}
    (hx : Yields x a out) (hf : Yields (f a) b out') : Yields (x >>= f) b (out ++ out') := by
  intro em
  change (x em).bind (fun r => f r.1 r.2) = _
  rw [hx em, Option.bind_some, hf, add_append]

/-- The same for a first computation whose result is not used. -/
lemma Yields.seq {x : Render α} {y : Render β} {a : α} {b : β} {out out' : List Piece}
    (hx : Yields x a out) (hy : Yields y b out') : Yields (x >>= fun _ => y) b (out ++ out') :=
  hx.bind hy

/-- The pieces may be written otherwise. -/
lemma Yields.congr {x : Render α} {a : α} {out out' : List Piece} (hx : Yields x a out)
    (h : out = out') : Yields x a out' := h ▸ hx

lemma Yields.pushStr (s : String) : Yields (Emitter.pushStr s) () (Html.chars s) := by
  intro em
  change some ((), Emitter.mk (pushSegment em.frame s) em.outer) = _
  rw [pushSegment_eq_add]
  rfl

lemma Yields.push (c : Char) : Yields (Emitter.push c) () [.char c] := by
  have h := Yields.pushStr (String.singleton c)
  simpa [Html.chars, Emitter.push] using h

lemma Yields.emitDeferred (label : Deferred) (content : List Segment) :
    Yields (Emitter.emitDeferred label content) () [.hole label content] := fun _ => rfl

/-- Elements one after the other. -/
lemma Yields.forM {γ : Type} (xs : List γ) {f : γ → Render PUnit} {out : γ → List Piece}
    (h : ∀ x ∈ xs, Yields (f x) ⟨⟩ (out x)) : Yields (xs.forM f) ⟨⟩ (xs.flatMap out) := by
  induction xs with
  | nil => exact Yields.pure _
  | cons x xs ih =>
    have rest := ih fun y hy => h y (by simp [hy])
    exact (h x (by simp)).bind rest

/-- Captured segments append the pieces they captured. -/
lemma Yields.append (segs : List Segment) :
    Yields (Emitter.append segs) () (segs.flatMap Html.Segment.pieces) := by
  apply Yields.forM
  intro seg _
  cases seg with
  | html s => exact Yields.pushStr s
  | hole label content => exact Yields.emitDeferred label content

/-- A frame around a computation captures what it yields and leaves the emitter as it was. -/
lemma Yields.capture {x : Render Unit} {out : List Piece} (hx : Yields x () out) :
    Yields (Emitter.capture x) (Html.group out) [] := by
  intro em
  have run : x ⟨[], em.frame :: em.outer⟩ =
      some ((), Emitter.add ⟨[], em.frame :: em.outer⟩ out) := hx _
  change (x ⟨[], em.frame :: em.outer⟩).bind (fun r => endFrame r.2) = _
  rw [run]
  rfl

lemma Yields.emitted {x : Render Unit} {out : List Piece} (hx : Yields x () out) :
    emitted x = some (Html.group out) := by
  rw [HtmlCore.emitted, hx, Option.bind_some, intoSegments_add]

end

/-! ## Tags and templates

The code that writes a rule's opening tag and its template text is the same wherever a rule
renders; the trees it writes are below it. -/

/-- ` name="value"` -/
def pushAttr (name value : String) : Render Unit := do
  push ' '
  Emitter.pushStr name
  Emitter.pushStr "=\""
  Emitter.pushStr (escapeAttr value)
  push '"'

/-- An attribute, when there is a value. -/
def pushOptionalAttr (name : String) : Option String → Render Unit
  | some value => pushAttr name value
  | none => Pure.pure ()

/-- The opening tag of a declarative rule. -/
def pushOpenTag (tag : String) (attrs : List (String × List AttrPart))
    (lookup : String → Option String) : Render Unit := do
  push '<'
  Emitter.pushStr tag
  attrs.forM fun (name, parts) => pushOptionalAttr name (resolveParts parts lookup)
  push '>'

/-- `</tag>` -/
def pushCloseTag (tag : String) : Render Unit := do
  Emitter.pushStr "</"
  Emitter.pushStr tag
  push '>'

/-- The text of a declarative rule. -/
def pushTemplate (text : Option (List AttrPart)) (lookup : String → Option String) :
    Render Unit :=
  match text with
  | none => Pure.pure ()
  | some text =>
    match resolveParts text lookup with
    | some value => Emitter.pushStr (escapeText value)
    | none => Pure.pure ()

/-- A rule node that is rendered on the spot, with what renders its content slot. -/
def renderRuleNode (lookup : String → Option String) (label : Deferred) (rule : NodeRule)
    (body : Content → Render Unit) : Render Unit :=
  match rule with
  | .callback content => do
    let captured ← capture (body content)
    Emitter.emitDeferred label captured
  | .declarative tag void attrs text content => do
    pushOpenTag tag attrs lookup
    if void then Pure.pure ()
    else
      pushTemplate text lookup
      body content
      pushCloseTag tag

/-- A leaf's content in a paragraph, or `empty` when it has none. -/
def renderParagraph (body : Render Unit) (empty : String) : Render Unit := do
  let inline ← capture body
  if inline.isEmpty then Emitter.pushStr empty
  else
    Emitter.pushStr "<p>"
    Emitter.append inline
    Emitter.pushStr "</p>"

/-- An attribute slot that is left out when there is no value. -/
def optionalAttr (name : String) (value : Option String) : Html.Attr := ⟨name, value.getD "", true⟩

/-- The attribute slots of a rule. -/
def ruleAttrs (lookup : String → Option String) (attrs : List (String × List AttrPart)) :
    List Html.Attr :=
  attrs.map fun (name, parts) => optionalAttr name (resolveParts parts lookup)

/-- The text a rule's template stands for. -/
def templateText (lookup : String → Option String) (text : Option (List AttrPart)) : String :=
  (text.bind fun parts => resolveParts parts lookup).getD ""

/-- The tree of a rule, with the body its content slot asks for. -/
def ruleTree (lookup : String → Option String) (label : Deferred) (body : Content → List Tree) :
    NodeRule → Tree
  | .declarative tag true attrs _ _ => .void tag (ruleAttrs lookup attrs)
  | .declarative tag false attrs text content =>
    .elem tag (ruleAttrs lookup attrs) (.text (templateText lookup text) :: body content)
  | .callback content => .hole label (body content)

/-- A leaf as a paragraph, or something else when its content prints nothing. -/
def paragraphForest (inline empty : List Tree) : List Tree :=
  if (Html.pieces inline).isEmpty then empty else [.elem "p" [] inline]

lemma resolveParts_ne_empty {parts : List AttrPart} {lookup : String → Option String}
    {value : String} (h : resolveParts parts lookup = some value) : value ≠ "" := by
  simp only [resolveParts] at h
  split at h
  · simp at h
  · next nonempty =>
    rw [← Option.some.inj h]
    simpa using nonempty

lemma chars_escapeText (s : String) :
    Html.chars (escapeText s) = Html.Tree.pieces (η := Deferred) (.text s) := by
  simp [Html.chars, toList_escapeText, Html.Tree.pieces]

/-- A written attribute is the print of its slot. -/
lemma Yields.pushAttr (name value : String) :
    Yields (HtmlCore.pushAttr name value) () ((Html.Attr.mk name value false).print.map .char) := by
  have written := (Yields.push ' ').seq ((Yields.pushStr name).seq ((Yields.pushStr "=\"").seq
    ((Yields.pushStr (escapeAttr value)).seq (Yields.push '"'))))
  apply written.congr
  simp [Html.Attr.print, Html.Attr.present, Html.chars, toList_escapeAttr]

/-- An optional attribute is written when there is a value. -/
lemma Yields.pushOptionalAttr (name : String) (value : Option String) (nonempty : value ≠ some "") :
    Yields (HtmlCore.pushOptionalAttr name value) ()
      ((optionalAttr name value).print.map .char) := by
  cases value with
  | none =>
    apply (Yields.pure ()).congr
    simp [optionalAttr, Html.Attr.print, Html.Attr.present]
  | some v =>
    have full : v ≠ "" := by simpa using nonempty
    apply (Yields.pushAttr name v).congr
    simp [optionalAttr, Html.Attr.print, Html.Attr.present, full]

lemma Yields.pushOpenTag (tag : String) (attrs : List (String × List AttrPart))
    (lookup : String → Option String) :
    Yields (HtmlCore.pushOpenTag tag attrs lookup) ()
      ((Html.openTag tag (ruleAttrs lookup attrs)).map .char) := by
  have slots : Yields
      (attrs.forM fun (name, parts) =>
        HtmlCore.pushOptionalAttr name (resolveParts parts lookup)) ⟨⟩
      (attrs.flatMap fun slot =>
        (optionalAttr slot.1 (resolveParts slot.2 lookup)).print.map .char) := by
    apply Yields.forM
    rintro ⟨name, parts⟩ _
    apply Yields.pushOptionalAttr
    intro empty
    exact resolveParts_ne_empty empty rfl
  have written := (Yields.push '<').seq ((Yields.pushStr tag).seq (slots.seq (Yields.push '>')))
  apply written.congr
  simp [Html.openTag, ruleAttrs, List.flatMap_map, List.map_flatMap, Html.chars]

lemma Yields.pushCloseTag (tag : String) :
    Yields (HtmlCore.pushCloseTag tag) () ((Html.closeTag tag).map .char) := by
  have written := (Yields.pushStr "</").seq ((Yields.pushStr tag).seq (Yields.push '>'))
  apply written.congr
  simp [Html.closeTag, Html.chars]

lemma Yields.pushTemplate (text : Option (List AttrPart)) (lookup : String → Option String) :
    Yields (HtmlCore.pushTemplate text lookup) ()
      (Html.Tree.pieces (.text (templateText lookup text))) := by
  cases text with
  | none => exact Yields.pure ()
  | some parts =>
    simp only [HtmlCore.pushTemplate, templateText, Option.bind_some]
    cases resolveParts parts lookup with
    | none => exact Yields.pure ()
    | some value =>
      rw [Option.getD_some, ← chars_escapeText]
      exact Yields.pushStr (escapeText value)

/-- A rule node prints its rule's tree around what its content slot prints. -/
lemma Yields.renderRuleNode (lookup : String → Option String) (label : Deferred) (rule : NodeRule)
    {body : Content → Render Unit} {trees : Content → List Tree}
    (hbody : ∀ content, Yields (body content) () (Html.pieces (trees content))) :
    Yields (HtmlCore.renderRuleNode lookup label rule body) ()
      (ruleTree lookup label trees rule).pieces := by
  cases rule with
  | callback content =>
    have captured := (hbody content).capture
    have whole := captured.bind (f := fun segs => Emitter.emitDeferred label segs)
      (Yields.emitDeferred label _)
    apply whole.congr
    simp [ruleTree, Html.Tree.pieces]
  | declarative tag void attrs text content =>
    have opened := Yields.pushOpenTag tag attrs lookup
    cases void with
    | true => exact (opened.seq (Yields.pure ())).congr (by simp [ruleTree, Html.Tree.pieces])
    | false =>
      have whole := opened.seq ((Yields.pushTemplate text lookup).seq
        ((hbody content).seq (Yields.pushCloseTag tag)))
      apply whole.congr
      simp [ruleTree, Html.Tree.pieces]

lemma Yields.paragraph {body : Render Unit} {inline : List Tree}
    (hbody : Yields body () (Html.pieces inline)) (empty : String) (trees : List Tree)
    (hempty : Html.chars empty = Html.pieces trees) :
    Yields (renderParagraph body empty) () (Html.pieces (paragraphForest inline trees)) := by
  have captured := hbody.capture
  have none_iff : (Html.group (Html.pieces inline)).isEmpty = (Html.pieces inline).isEmpty :=
    Html.group_isEmpty _
  have rest : Yields
      (if (Html.group (Html.pieces inline)).isEmpty then Emitter.pushStr empty
        else do
          Emitter.pushStr "<p>"
          Emitter.append (Html.group (Html.pieces inline))
          Emitter.pushStr "</p>") ()
      (Html.pieces (paragraphForest inline trees)) := by
    rw [none_iff, paragraphForest]
    split
    · exact (Yields.pushStr empty).congr hempty
    · have whole := (Yields.pushStr "<p>").seq ((Yields.append
        (Html.group (Html.pieces inline))).seq (Yields.pushStr "</p>"))
      apply whole.congr
      simp [Html.Tree.pieces, Html.openTag, Html.closeTag, Html.chars]
  exact captured.bind rest

/-! ## What the trees of rules meet -/

/-- The rules' own tags meet `P`, whatever their references look up. -/
structure RulesMeet (P : Html.Local Deferred) (rules : Rules) : Prop where
  void : ∀ {name tag attrs text content}, rules.nodes.get name =
    some (.declarative tag true attrs text content) → ∀ lookup, P.void tag (ruleAttrs lookup attrs)
  elem : ∀ {name tag attrs text content}, rules.nodes.get name =
    some (.declarative tag false attrs text content) → ∀ lookup, P.elem tag (ruleAttrs lookup attrs)

lemma RulesMeet.each {P : Html.Local Deferred} {rules : Rules} (h : RulesMeet P rules)
    {name : String} {rule : NodeRule} (hrule : rules.nodes.get name = some rule)
    {lookup : String → Option String} {label : Deferred} {body : Content → List Tree}
    (hbody : ∀ content, Html.Each P (body content))
    (hhole : ∀ content, rule = .callback content →
      P.hole label (Html.segments (body content))) :
    (ruleTree lookup label body rule).Each P := by
  cases rule with
  | callback content =>
    rw [ruleTree, Html.Tree.Each]
    exact ⟨hhole content rfl, hbody content⟩
  | declarative tag void attrs text content =>
    cases void with
    | true =>
      rw [ruleTree, Html.Tree.Each]
      exact h.void hrule lookup
    | false =>
      rw [ruleTree, Html.Tree.Each, Html.each_cons, Html.Tree.Each]
      exact ⟨h.elem hrule lookup, trivial, hbody content⟩

lemma each_paragraphForest {P : Html.Local Deferred} (hp : P.elem "p" []) {inline empty : List Tree}
    (hinline : Html.Each P inline) (hempty : Html.Each P empty) :
    Html.Each P (paragraphForest inline empty) := by
  unfold paragraphForest
  split
  · exact hempty
  · rw [Html.each_cons, Html.Tree.Each]
    exact ⟨⟨hp, hinline⟩, Html.each_nil⟩

end HtmlCore

end Yrby
