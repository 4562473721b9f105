import Mathlib.Data.List.Basic

/-!
# Markup trees, their print and its tokens

A `Tree` is markup before it is printed: text, elements and void elements with attributes, and
holes, whose markup somebody else supplies.  A forest prints to pieces (`pieces`), characters and
holes, and pieces group into segments (`group`), strings between holes.

* `Each P` says that every tag and every hole meets `P`, a property of one tag or hole (`Local`).
* `Balanced` says that a segment list is printed by matched tags, and so is the content of every
  hole.  Every forest prints a balanced list (`balanced_segments`).
* `scan` reads a segment list as a browser's tokenizer does, in the states that quoted attributes
  and four character references need.  It is strict: what it does not know it refuses.  A
  well-named forest scans to its own tags, attribute values and characters
  (`scan_segments`), which is what escaping is for.
* `shape` forgets the strings of a forest.  Forests of one shape scan to the same tags
  (`tags_tokens`), with the same attributes but for the empty optional ones.
-/

namespace Yrby

namespace Html

variable {η : Type}

/-! ## Segments and pieces -/

/-- Finished markup, or a hole with a label and the markup that was captured for it. -/
inductive Segment (η : Type)
  | html (s : String)
  | hole (label : η) (content : List (Segment η))

/-- A segment list one character at a time. -/
inductive Piece (η : Type)
  | char (c : Char)
  | hole (label : η) (content : List (Segment η))

namespace Segment

/-- Append one piece; a character joins the string before it. -/
def snoc (segs : List (Segment η)) : Piece η → List (Segment η)
  | .char c =>
    match segs.getLast? with
    | some (.html s) => segs.dropLast ++ [.html (s.push c)]
    | _ => segs ++ [.html (String.singleton c)]
  | .hole label content => segs ++ [.hole label content]

/-- Append pieces. -/
def add (segs : List (Segment η)) (ps : List (Piece η)) : List (Segment η) := ps.foldl snoc segs

@[simp] lemma add_nil (segs : List (Segment η)) : add segs [] = segs := rfl

lemma add_cons (segs : List (Segment η)) (p : Piece η) (ps : List (Piece η)) :
    add segs (p :: ps) = add (snoc segs p) ps := rfl

@[simp] lemma add_append (segs : List (Segment η)) (ps qs : List (Piece η)) :
    add segs (ps ++ qs) = add (add segs ps) qs := by
  simp [add]

/-- The characters and holes of one segment. -/
def pieces : Segment η → List (Piece η)
  | .html s => s.toList.map .char
  | .hole label content => [.hole label content]

lemma flatMap_pieces_snoc (segs : List (Segment η)) (p : Piece η) :
    (snoc segs p).flatMap pieces = segs.flatMap pieces ++ [p] := by
  cases p with
  | hole label content => simp [snoc, pieces]
  | char c =>
    rcases List.eq_nil_or_concat segs with rfl | ⟨front, last, rfl⟩
    · simp [snoc, pieces]
    · cases last with
      | html s => simp [snoc, pieces]
      | hole label content => simp [snoc, pieces]

/-- Adding pieces adds just these pieces. -/
lemma flatMap_pieces_add (segs : List (Segment η)) (ps : List (Piece η)) :
    (add segs ps).flatMap pieces = segs.flatMap pieces ++ ps := by
  induction ps generalizing segs with
  | nil => simp
  | cons p ps ih => simp [add_cons, ih, flatMap_pieces_snoc]

end Segment

/-- Pieces as segments. -/
def group (ps : List (Piece η)) : List (Segment η) := Segment.add [] ps

@[simp] lemma flatMap_pieces_group (ps : List (Piece η)) :
    (group ps).flatMap Segment.pieces = ps := by
  simp [group, Segment.flatMap_pieces_add]

/-- Only no pieces at all are no segments. -/
lemma group_isEmpty (ps : List (Piece η)) : (group ps).isEmpty = ps.isEmpty := by
  have round := flatMap_pieces_group ps
  cases ps with
  | nil => rfl
  | cons p ps =>
    cases h : group (p :: ps) with
    | nil => simp [h] at round
    | cons seg segs => rfl

/-- A string as pieces. -/
def chars (s : String) : List (Piece η) := s.toList.map .char

@[simp] lemma chars_empty : chars (η := η) "" = [] := rfl

@[simp] lemma chars_append (s t : String) : chars (η := η) (s ++ t) = chars s ++ chars t := by
  simp [chars]

/-! ## Escaping -/

/-- The character reference a character of text is written as. -/
def textChar : Char → List Char
  | '&' => "&amp;".toList
  | '<' => "&lt;".toList
  | '>' => "&gt;".toList
  | c => [c]

/-- The same in a quoted attribute value. -/
def attrChar : Char → List Char
  | '"' => "&quot;".toList
  | c => textChar c

/-- The character a reference names. -/
def decodeRef : List Char → Option Char
  | ['a', 'm', 'p'] => some '&'
  | ['l', 't'] => some '<'
  | ['g', 't'] => some '>'
  | ['q', 'u', 'o', 't'] => some '"'
  | _ => none

/-! ## Trees -/

/-- An attribute slot.  An optional one is left out when its value is empty. -/
structure Attr where
  name : String
  value : String
  optional : Bool
  deriving DecidableEq

/-- The attribute is printed. -/
def Attr.present (a : Attr) : Bool := !a.optional || a.value ≠ ""

inductive Tree (η : Type)
  | text (s : String)
  | void (tag : String) (attrs : List Attr)
  | elem (tag : String) (attrs : List Attr) (children : List (Tree η))
  | hole (label : η) (content : List (Tree η))

def Attr.print (a : Attr) : List Char :=
  if a.present then
    ' ' :: a.name.toList ++ '=' :: '"' :: a.value.toList.flatMap attrChar ++ ['"']
  else []

/-- `<tag name="value">` -/
def openTag (tag : String) (attrs : List Attr) : List Char :=
  '<' :: tag.toList ++ attrs.flatMap Attr.print ++ ['>']

/-- `</tag>` -/
def closeTag (tag : String) : List Char := '<' :: '/' :: tag.toList ++ ['>']

mutual

/-- What a tree prints. -/
def Tree.pieces : Tree η → List (Piece η)
  | .text s => (s.toList.flatMap textChar).map .char
  | .void tag attrs => (openTag tag attrs).map .char
  | .elem tag attrs children =>
    (openTag tag attrs).map .char ++ pieces children ++ (closeTag tag).map .char
  | .hole label content => [.hole label (group (pieces content))]

/-- What a forest prints. -/
def pieces : List (Tree η) → List (Piece η)
  | [] => []
  | t :: ts => t.pieces ++ pieces ts

end

@[simp] lemma pieces_nil : pieces ([] : List (Tree η)) = [] := by
  rw [pieces]

@[simp] lemma pieces_cons (t : Tree η) (ts : List (Tree η)) :
    pieces (t :: ts) = t.pieces ++ pieces ts := by
  rw [pieces]

@[simp] lemma pieces_append (ts us : List (Tree η)) :
    pieces (ts ++ us) = pieces ts ++ pieces us := by
  induction ts with
  | nil => simp
  | cons t ts ih => simp [ih]

lemma pieces_flatMap {α : Type} (xs : List α) (f : α → List (Tree η)) :
    pieces (xs.flatMap f) = xs.flatMap fun x => pieces (f x) := by
  induction xs with
  | nil => simp
  | cons x xs ih => simp [ih]

/-- The segments of a forest. -/
def segments (ts : List (Tree η)) : List (Segment η) := group (pieces ts)

/-! ## Matched tags -/

/-- One emission: a tag, text, or a hole. -/
inductive Item (η : Type)
  | opn (tag : String) (attrs : List Attr)
  | cls (tag : String)
  | void (tag : String) (attrs : List Attr)
  | text (s : String)
  | hole (label : η) (content : List (Segment η))

def Item.pieces : Item η → List (Piece η)
  | .opn tag attrs => (openTag tag attrs).map .char
  | .cls tag => (closeTag tag).map .char
  | .void tag attrs => (openTag tag attrs).map .char
  | .text s => (s.toList.flatMap textChar).map .char
  | .hole label content => [.hole label content]

/-- The open tags after the items, when every closing tag closes the innermost open one. -/
def unclosed : List String → List (Item η) → Option (List String)
  | opened, [] => some opened
  | opened, .opn tag _ :: items => unclosed (tag :: opened) items
  | tag' :: opened, .cls tag :: items => if tag = tag' then unclosed opened items else none
  | [], .cls _ :: _ => none
  | opened, .void _ _ :: items => unclosed opened items
  | opened, .text _ :: items => unclosed opened items
  | opened, .hole _ _ :: items => unclosed opened items

/-- Every opening tag is closed, innermost first, and nothing else is closed. -/
def Matched (items : List (Item η)) : Prop := unclosed [] items = some []

/-- The segments are printed by matched tags, where the tags in `void` alone may stand unclosed;
every hole meets `own`, and its content is balanced. -/
inductive Balanced (void : String → Prop) (own : η → List (Segment η) → Prop) :
    List (Segment η) → Prop
  | mk (items : List (Item η)) (matched : Matched items)
      (voids : ∀ tag attrs, Item.void tag attrs ∈ items → void tag)
      (owned : ∀ label content, Item.hole label content ∈ items → own label content)
      (holes : ∀ label content, Item.hole label content ∈ items → Balanced void own content) :
      Balanced void own (group (items.flatMap Item.pieces))

mutual

def Tree.items : Tree η → List (Item η)
  | .text s => [.text s]
  | .void tag attrs => [.void tag attrs]
  | .elem tag attrs children => .opn tag attrs :: items children ++ [.cls tag]
  | .hole label content => [.hole label (segments content)]

def items : List (Tree η) → List (Item η)
  | [] => []
  | t :: ts => t.items ++ items ts

end

mutual

lemma Tree.flatMap_pieces_items : ∀ t : Tree η, t.items.flatMap Item.pieces = t.pieces
  | .text s => by simp [Tree.items, Tree.pieces, Item.pieces]
  | .void tag attrs => by simp [Tree.items, Tree.pieces, Item.pieces]
  | .elem tag attrs children => by
    have ih := flatMap_pieces_items children
    simp [Tree.items, Tree.pieces, Item.pieces, ih]
  | .hole label content => by simp [Tree.items, Tree.pieces, Item.pieces, segments]

/-- The items of a forest print the forest. -/
lemma flatMap_pieces_items : ∀ ts : List (Tree η), (items ts).flatMap Item.pieces = pieces ts
  | [] => by simp [items]
  | t :: ts => by
    have head := Tree.flatMap_pieces_items t
    have tail := flatMap_pieces_items ts
    simp [items, head, tail]

end

mutual

/-- A tree leaves the open tags as they were. -/
lemma Tree.unclosed_items : ∀ (t : Tree η) (opened : List String) (rest : List (Item η)),
    unclosed opened (t.items ++ rest) = unclosed opened rest
  | .text s, opened, rest => by simp [Tree.items, unclosed]
  | .void tag attrs, opened, rest => by simp [Tree.items, unclosed]
  | .elem tag attrs children, opened, rest => by
    have ih := unclosed_items children (tag :: opened) (.cls tag :: rest)
    simp [Tree.items, unclosed, ih]
  | .hole label content, opened, rest => by simp [Tree.items, unclosed]

lemma unclosed_items : ∀ (ts : List (Tree η)) (opened : List String) (rest : List (Item η)),
    unclosed opened (items ts ++ rest) = unclosed opened rest
  | [], opened, rest => by simp [items]
  | t :: ts, opened, rest => by
    have head := Tree.unclosed_items t opened (items ts ++ rest)
    have tail := unclosed_items ts opened rest
    simp [items, head, tail]

end

/-- The tags of a forest match. -/
lemma matched_items (ts : List (Tree η)) : Matched (items ts) := by
  have whole := unclosed_items ts [] []
  simpa [Matched, unclosed] using whole

/-! ## Properties of every tree of a forest -/

/-- What the tags and the holes of a forest have to meet. -/
structure Local (η : Type) where
  void : String → List Attr → Prop
  elem : String → List Attr → Prop
  hole : η → List (Segment η) → Prop

mutual

def Tree.Each (P : Local η) : Tree η → Prop
  | .text _ => True
  | .void tag attrs => P.void tag attrs
  | .elem tag attrs children => P.elem tag attrs ∧ Each P children
  | .hole label content => P.hole label (segments content) ∧ Each P content

/-- Every tag and every hole of the forest, at any depth, meets `P`. -/
def Each (P : Local η) : List (Tree η) → Prop
  | [] => True
  | t :: ts => t.Each P ∧ Each P ts

end

section

variable {P : Local η}

@[simp] lemma each_nil : Each P ([] : List (Tree η)) := by
  rw [Each]
  exact trivial

@[simp] lemma each_cons {t : Tree η} {ts : List (Tree η)} :
    Each P (t :: ts) ↔ t.Each P ∧ Each P ts := by
  rw [Each]

@[simp] lemma each_append {ts us : List (Tree η)} :
    Each P (ts ++ us) ↔ Each P ts ∧ Each P us := by
  induction ts with
  | nil => simp
  | cons t ts ih => simp [ih, and_assoc]

lemma each_flatMap {α : Type} {xs : List α} {f : α → List (Tree η)}
    (h : ∀ x ∈ xs, Each P (f x)) : Each P (xs.flatMap f) := by
  induction xs with
  | nil => simp
  | cons x xs ih =>
    rw [List.flatMap_cons, each_append]
    exact ⟨h x (by simp), ih fun y hy => h y (by simp [hy])⟩

end

/-- `P` asks at least what `Q` asks. -/
structure Local.Implies (P Q : Local η) : Prop where
  void : ∀ tag attrs, P.void tag attrs → Q.void tag attrs
  elem : ∀ tag attrs, P.elem tag attrs → Q.elem tag attrs
  hole : ∀ label content, P.hole label content → Q.hole label content

mutual

lemma Tree.Each.imp {P Q : Local η} (hpq : P.Implies Q) : ∀ (t : Tree η), t.Each P → t.Each Q
  | .text s, _ => by
    rw [Tree.Each]
    exact trivial
  | .void tag attrs, h => by
    rw [Tree.Each] at h ⊢
    exact hpq.void tag attrs h
  | .elem tag attrs children, h => by
    rw [Tree.Each] at h ⊢
    exact ⟨hpq.elem tag attrs h.1, Html.Each.imp hpq children h.2⟩
  | .hole label content, h => by
    rw [Tree.Each] at h ⊢
    exact ⟨hpq.hole label _ h.1, Html.Each.imp hpq content h.2⟩

/-- A weaker property. -/
lemma Each.imp {P Q : Local η} (hpq : P.Implies Q) : ∀ (ts : List (Tree η)), Each P ts → Each Q ts
  | [], _ => each_nil
  | t :: ts, h => by
    rw [each_cons] at h ⊢
    exact ⟨Tree.Each.imp hpq t h.1, Html.Each.imp hpq ts h.2⟩

end

mutual

lemma Tree.each_void {P : Local η} : ∀ (t : Tree η), t.Each P →
    ∀ tag attrs, Item.void tag attrs ∈ t.items → P.void tag attrs
  | .text s, _, tag, attrs, hmem => by simp [Tree.items] at hmem
  | .void tag' attrs', h, tag, attrs, hmem => by
    rw [Tree.Each] at h
    have same : tag = tag' ∧ attrs = attrs' := by simpa [Tree.items] using hmem
    rw [same.1, same.2]
    exact h
  | .elem tag' attrs' children, h, tag, attrs, hmem => by
    rw [Tree.Each] at h
    have inside : Item.void tag attrs ∈ items children := by simpa [Tree.items] using hmem
    exact each_void children h.2 tag attrs inside
  | .hole label content, _, tag, attrs, hmem => by simp [Tree.items] at hmem

/-- The void tags of a forest meet what its trees meet. -/
lemma each_void {P : Local η} : ∀ (ts : List (Tree η)), Each P ts →
    ∀ tag attrs, Item.void tag attrs ∈ items ts → P.void tag attrs
  | [], _, tag, attrs, hmem => by simp [items] at hmem
  | t :: ts, h, tag, attrs, hmem => by
    rw [items, List.mem_append] at hmem
    rw [each_cons] at h
    rcases hmem with head | tail
    · exact Tree.each_void t h.1 tag attrs head
    · exact each_void ts h.2 tag attrs tail

end

section

variable {P : Local η} {void : String → Prop} (hvoid : ∀ tag attrs, P.void tag attrs → void tag)

include hvoid

mutual

lemma Tree.each_hole : ∀ (t : Tree η), t.Each P → ∀ label content,
    Item.hole label content ∈ t.items → P.hole label content ∧ Balanced void P.hole content
  | .text s, _, label, content, hmem => by simp [Tree.items] at hmem
  | .void tag attrs, _, label, content, hmem => by simp [Tree.items] at hmem
  | .elem tag attrs children, h, label, content, hmem => by
    rw [Tree.Each] at h
    have inside : Item.hole label content ∈ items children := by simpa [Tree.items] using hmem
    exact each_hole children h.2 label content inside
  | .hole label' content', h, label, content, hmem => by
    rw [Tree.Each] at h
    have same : label = label' ∧ content = segments content' := by simpa [Tree.items] using hmem
    rw [same.1, same.2]
    refine ⟨h.1, ?_⟩
    rw [segments, ← flatMap_pieces_items]
    exact .mk _ (matched_items content')
      (fun tag attrs hv => hvoid tag attrs (each_void content' h.2 _ _ hv))
      (fun l c hc => (each_hole content' h.2 l c hc).1)
      (fun l c hc => (each_hole content' h.2 l c hc).2)

/-- The holes of a forest meet what its trees meet, and their contents are balanced. -/
lemma each_hole : ∀ (ts : List (Tree η)), Each P ts → ∀ label content,
    Item.hole label content ∈ items ts → P.hole label content ∧ Balanced void P.hole content
  | [], _, label, content, hmem => by simp [items] at hmem
  | t :: ts, h, label, content, hmem => by
    rw [items, List.mem_append] at hmem
    rw [each_cons] at h
    rcases hmem with head | tail
    · exact Tree.each_hole t h.1 label content head
    · exact each_hole ts h.2 label content tail

end

/-- A forest prints balanced segments. -/
theorem balanced_segments {ts : List (Tree η)} (h : Each P ts) :
    Balanced void P.hole (segments ts) := by
  rw [segments, ← flatMap_pieces_items]
  exact .mk _ (matched_items ts) (fun tag attrs hv => hvoid tag attrs (each_void ts h _ _ hv))
    (fun l c hc => (each_hole hvoid ts h l c hc).1) (fun l c hc => (each_hole hvoid ts h l c hc).2)

end

/-! ## The tokenizer

The states are those of the browsers' tokenizer that markup with quoted attribute values goes
through.  Anything else (a name that starts with no letter, an unquoted value, an unknown character
reference, an element whose content is raw text) is refused. -/

/-- A character that may stand in a tag or attribute name. -/
def nameChar (c : Char) : Bool :=
  c ∉ [' ', '\t', '\n', '\r', '\x0c', '\x00', '"', '\'', '<', '>', '/', '=']

/-- A well-formed tag name. -/
def isTagName (name : List Char) : Bool := name.head?.any Char.isAlpha && name.all nameChar

/-- A well-formed attribute name. -/
def isAttrName (name : List Char) : Bool := name ≠ [] && name.all nameChar

/-- The elements whose content is not read as markup. -/
def isRawText (tag : List Char) : Bool :=
  tag.map Char.toLower ∈ ["script", "style", "textarea", "title", "xmp", "iframe", "noembed",
    "noframes", "noscript", "plaintext"].map String.toList

inductive Token (η : Type)
  | char (c : Char)
  | startTag (tag : String) (attrs : List (String × String))
  | endTag (tag : String)
  | hole (label : η) (content : List (Segment η))

inductive Mode
  | data
  | reference (ref : List Char)
  | tagOpen
  | tagName (tag : List Char)
  | beforeAttr (tag : List Char) (attrs : List (String × String))
  | attrName (tag : List Char) (attrs : List (String × String)) (name : List Char)
  | beforeValue (tag : List Char) (attrs : List (String × String)) (name : List Char)
  | value (tag : List Char) (attrs : List (String × String)) (name value : List Char)
  | valueReference (tag : List Char) (attrs : List (String × String)) (name value ref : List Char)
  | afterValue (tag : List Char) (attrs : List (String × String))
  | endTagOpen
  | endTagName (tag : List Char)
  deriving DecidableEq

namespace Mode

/-- The end of an opening tag. -/
def close (tag : List Char) (attrs : List (String × String)) : Option (Mode × List (Token η)) :=
  if isRawText tag then none else some (data, [.startTag (.ofList tag) attrs])

/-- One character. -/
def step : Mode → Char → Option (Mode × List (Token η))
  | data, c =>
    if c = '<' then some (tagOpen, [])
    else if c = '&' then some (reference [], [])
    else some (data, [.char c])
  | reference ref, c =>
    if c = ';' then (decodeRef ref).map fun d => (data, [.char d])
    else if c.isAlpha then some (reference (ref ++ [c]), [])
    else none
  | tagOpen, c =>
    if c = '/' then some (endTagOpen, [])
    else if c.isAlpha then some (tagName [c], [])
    else none
  | tagName tag, c =>
    if c = ' ' then some (beforeAttr tag [], [])
    else if c = '>' then close tag []
    else if nameChar c then some (tagName (tag ++ [c]), [])
    else none
  | beforeAttr tag attrs, c => if nameChar c then some (attrName tag attrs [c], []) else none
  | attrName tag attrs name, c =>
    if c = '=' then some (beforeValue tag attrs name, [])
    else if nameChar c then some (attrName tag attrs (name ++ [c]), [])
    else none
  | beforeValue tag attrs name, c => if c = '"' then some (value tag attrs name [], []) else none
  | value tag attrs name val, c =>
    if c = '"' then some (afterValue tag (attrs ++ [(.ofList name, .ofList val)]), [])
    else if c = '&' then some (valueReference tag attrs name val [], [])
    else some (value tag attrs name (val ++ [c]), [])
  | valueReference tag attrs name val ref, c =>
    if c = ';' then (decodeRef ref).map fun d => (value tag attrs name (val ++ [d]), [])
    else if c.isAlpha then some (valueReference tag attrs name val (ref ++ [c]), [])
    else none
  | afterValue tag attrs, c =>
    if c = ' ' then some (beforeAttr tag attrs, [])
    else if c = '>' then close tag attrs
    else none
  | endTagOpen, c => if c.isAlpha then some (endTagName [c], []) else none
  | endTagName tag, c =>
    if c = '>' then some (data, [.endTag (.ofList tag)])
    else if nameChar c then some (endTagName (tag ++ [c]), [])
    else none

/-- One piece.  A hole stands where text could. -/
def read : Mode → Piece η → Option (Mode × List (Token η))
  | m, .char c => m.step c
  | data, .hole label content => some (data, [.hole label content])
  | _, .hole _ _ => none

/-- Pieces, from left to right. -/
def run : Mode → List (Piece η) → Option (Mode × List (Token η))
  | m, [] => some (m, [])
  | m, p :: ps =>
    match m.read p with
    | none => none
    | some (m', toks) => (m'.run ps).map fun (m'', toks') => (m'', toks ++ toks')

end Mode

/-- The tokens of a segment list, its strings read one after the other. -/
def scan (segs : List (Segment η)) : Option (List (Token η)) :=
  match Mode.data.run (segs.flatMap Segment.pieces) with
  | some (.data, toks) => some toks
  | _ => none

/-- Reading the pieces takes the tokenizer from `m` to `m'` and yields the tokens. -/
def Reads (m : Mode) (ps : List (Piece η)) (m' : Mode) (toks : List (Token η)) : Prop :=
  m.run ps = some (m', toks)

lemma Reads.nil (m : Mode) : Reads m ([] : List (Piece η)) m [] := rfl

lemma Reads.append {m m' m'' : Mode} {ps qs : List (Piece η)} {toks toks' : List (Token η)}
    (hp : Reads m ps m' toks) (hq : Reads m' qs m'' toks') :
    Reads m (ps ++ qs) m'' (toks ++ toks') := by
  induction ps generalizing m toks with
  | nil =>
    have same : m = m' ∧ toks = [] := by simpa [Reads, Mode.run, eq_comm] using hp
    simpa [same.1, same.2] using hq
  | cons p ps ih =>
    simp only [Reads, Mode.run] at hp
    split at hp
    · simp at hp
    · next m₁ toks₁ hread =>
      obtain ⟨⟨m₂, toks₂⟩, hrest, heq⟩ := Option.map_eq_some_iff.mp hp
      obtain ⟨rfl, rfl⟩ : m₂ = m' ∧ toks₁ ++ toks₂ = toks := by simpa using heq
      have rest : m₁.run (ps ++ qs) = some (m'', toks₂ ++ toks') := ih hrest
      simp [Reads, Mode.run, hread, rest]

/-- One character, then the rest. -/
lemma Reads.cons {m m' m'' : Mode} {c : Char} {ps : List (Piece η)} {toks toks' : List (Token η)}
    (hc : m.step c = some (m', toks)) (hp : Reads m' ps m'' toks') :
    Reads m (.char c :: ps) m'' (toks ++ toks') := by
  have first : Reads m [.char c] m' toks := by simp [Reads, Mode.run, Mode.read, hc]
  exact first.append hp

/-- A name is read one character after the other. -/
lemma Reads.name (state : List Char → Mode)
    (hstep : ∀ (acc : List Char) (c : Char), nameChar c = true →
      (state acc).step (η := η) c = some (state (acc ++ [c]), []))
    {name : List Char} (hname : name.all nameChar = true) (acc : List Char) :
    Reads (state acc) (name.map (Piece.char (η := η))) (state (acc ++ name)) [] := by
  induction name generalizing acc with
  | nil => simpa using Reads.nil (η := η) (state acc)
  | cons c cs ih =>
    have both : nameChar c = true ∧ cs.all nameChar = true := by simpa using hname
    have rest := ih both.2 (acc ++ [c])
    rw [List.append_assoc, List.singleton_append] at rest
    exact Reads.cons (hstep acc c both.1) rest

/-- A character that is written as itself is none of the escaped ones. -/
lemma textChar_cases (c : Char) :
    (c = '&' ∧ textChar c = "&amp;".toList) ∨ (c = '<' ∧ textChar c = "&lt;".toList) ∨
      (c = '>' ∧ textChar c = "&gt;".toList) ∨
      (c ≠ '&' ∧ c ≠ '<' ∧ c ≠ '>' ∧ textChar c = [c]) := by
  unfold textChar
  split <;> simp_all

lemma attrChar_eq_textChar {c : Char} (h : c ≠ '"') : attrChar c = textChar c := by
  unfold attrChar
  split
  · exact absurd rfl h
  · rfl

lemma Reads.textChar (c : Char) :
    Reads .data ((textChar c).map (Piece.char (η := η))) .data [.char c] := by
  rcases textChar_cases c with ⟨rfl, h⟩ | ⟨rfl, h⟩ | ⟨rfl, h⟩ | ⟨amp, lt, -, h⟩
  · rw [h]; rfl
  · rw [h]; rfl
  · rw [h]; rfl
  · rw [h]
    simp [Reads, Mode.run, Mode.read, Mode.step, amp, lt]

/-- Escaped text reads as the text. -/
lemma Reads.text (s : List Char) :
    Reads .data ((s.flatMap Html.textChar).map (Piece.char (η := η))) .data (s.map .char) := by
  induction s with
  | nil => exact Reads.nil .data
  | cons c cs ih =>
    rw [List.flatMap_cons, List.map_append]
    exact (Reads.textChar c).append ih

lemma Reads.attrChar (tag : List Char) (attrs : List (String × String)) (name val : List Char)
    (c : Char) :
    Reads (.value tag attrs name val) ((attrChar c).map (Piece.char (η := η)))
      (.value tag attrs name (val ++ [c])) [] := by
  by_cases quote : c = '"'
  · subst quote
    rfl
  · rw [attrChar_eq_textChar quote]
    rcases textChar_cases c with ⟨rfl, h⟩ | ⟨rfl, h⟩ | ⟨rfl, h⟩ | ⟨amp, -, -, h⟩
    · rw [h]; rfl
    · rw [h]; rfl
    · rw [h]; rfl
    · rw [h]
      simp [Reads, Mode.run, Mode.read, Mode.step, amp, quote]

/-- An escaped attribute value reads as the value. -/
lemma Reads.attrValue (tag : List Char) (attrs : List (String × String)) (name val s : List Char) :
    Reads (.value tag attrs name val) ((s.flatMap Html.attrChar).map (Piece.char (η := η)))
      (.value tag attrs name (val ++ s)) [] := by
  induction s generalizing val with
  | nil => simpa using Reads.nil (η := η) (.value tag attrs name val)
  | cons c cs ih =>
    have rest := ih (val ++ [c])
    rw [List.append_assoc, List.singleton_append] at rest
    rw [List.flatMap_cons, List.map_append]
    exact (Reads.attrChar tag attrs name val c).append rest

/-! ## A well-named forest scans to itself -/

/-- A tag that opens an element or a void element. -/
def Tag.WellNamed (tag : String) (attrs : List Attr) : Prop :=
  isTagName tag.toList = true ∧ isRawText tag.toList = false ∧
    ∀ a ∈ attrs, isAttrName a.name.toList = true

/-- Well-formed names, everywhere. -/
def names : Local η := ⟨Tag.WellNamed, Tag.WellNamed, fun _ _ => True⟩

/-- Every tag and attribute name of the forest is well formed. -/
def WellNamed (ts : List (Tree η)) : Prop := Each names ts

/-- The attributes a tag prints. -/
def printed (attrs : List Attr) : List (String × String) :=
  (attrs.filter Attr.present).map fun a => (a.name, a.value)

mutual

def Tree.tokens : Tree η → List (Token η)
  | .text s => s.toList.map .char
  | .void tag attrs => [.startTag tag (printed attrs)]
  | .elem tag attrs children => .startTag tag (printed attrs) :: tokens children ++ [.endTag tag]
  | .hole label content => [.hole label (segments content)]

/-- The tokens of a forest, with its strings as they are. -/
def tokens : List (Tree η) → List (Token η)
  | [] => []
  | t :: ts => t.tokens ++ tokens ts

end

/-- Where the tokenizer may be before an attribute or the end of the tag. -/
def betweenAttrs (tag : List Char) : List (String × String) → Mode
  | [] => .tagName tag
  | attrs => .afterValue tag attrs

lemma betweenAttrs_step_space (tag : List Char) (attrs : List (String × String)) :
    (betweenAttrs tag attrs).step (η := η) ' ' = some (.beforeAttr tag attrs, []) := by
  cases attrs <;> rfl

lemma betweenAttrs_step_close (tag : List Char) (attrs : List (String × String)) :
    (betweenAttrs tag attrs).step (η := η) '>' = Mode.close tag attrs := by
  cases attrs <;> rfl

lemma Reads.attr (tag : List Char) (attrs : List (String × String)) {a : Attr}
    (hname : isAttrName a.name.toList = true) :
    Reads (betweenAttrs tag attrs) (a.print.map (Piece.char (η := η)))
      (betweenAttrs tag (attrs ++ printed [a])) [] := by
  by_cases present : a.present = true
  · obtain ⟨c, cs, hcs⟩ : ∃ c cs, a.name.toList = c :: cs := by
      apply List.exists_cons_of_ne_nil
      intro empty
      simp [isAttrName, empty] at hname
    have names : nameChar c = true ∧ cs.all nameChar = true := by
      simpa [isAttrName, hcs] using hname
    have named : Reads (.attrName tag attrs [c]) (cs.map (Piece.char (η := η)))
        (.attrName tag attrs a.name.toList) [] := by
      have loop := Reads.name (η := η) (.attrName tag attrs) (fun acc d hd => ?_) names.2 [c]
      · rwa [List.singleton_append, ← hcs] at loop
      · have noEq : d ≠ '=' := by
          rintro rfl
          simp [nameChar] at hd
        simp [Mode.step, noEq, hd]
    have valued := Reads.attrValue (η := η) tag attrs a.name.toList [] a.value.toList
    have ended : Reads (.value tag attrs a.name.toList a.value.toList) [Piece.char (η := η) '"']
        (betweenAttrs tag (attrs ++ [(a.name, a.value)])) [] := by
      cases attrs <;> simp [Reads, Mode.run, Mode.read, Mode.step, betweenAttrs]
    have opened :
        (Mode.beforeAttr tag attrs).step (η := η) c = some (.attrName tag attrs [c], []) := by
      simp [Mode.step, names.1]
    have equals : (Mode.attrName tag attrs a.name.toList).step (η := η) '=' =
        some (.beforeValue tag attrs a.name.toList, []) := by simp [Mode.step]
    have quote : (Mode.beforeValue tag attrs a.name.toList).step (η := η) '"' =
        some (.value tag attrs a.name.toList [], []) := by simp [Mode.step]
    have whole := Reads.cons (betweenAttrs_step_space tag attrs) (Reads.cons opened
      (named.append (Reads.cons equals (Reads.cons quote (valued.append ended)))))
    simpa [Attr.print, printed, present, hcs] using whole
  · have nothing :
        Reads (betweenAttrs tag attrs) ([] : List (Piece η)) (betweenAttrs tag attrs) [] :=
      Reads.nil _
    simpa [Attr.print, printed, present] using nothing

lemma Reads.attrs (tag : List Char) (done : List (String × String)) {attrs : List Attr}
    (hnames : ∀ a ∈ attrs, isAttrName a.name.toList = true) :
    Reads (betweenAttrs tag done) ((attrs.flatMap Attr.print).map (Piece.char (η := η)))
      (betweenAttrs tag (done ++ printed attrs)) [] := by
  induction attrs generalizing done with
  | nil => simpa [printed] using Reads.nil (η := η) (betweenAttrs tag done)
  | cons a as ih =>
    have first := Reads.attr (η := η) tag done (hnames a (by simp))
    have rest := ih (done ++ printed [a]) fun b hb => hnames b (by simp [hb])
    have split : done ++ printed [a] ++ printed as = done ++ printed (a :: as) := by
      simp [printed, List.filter_cons]
      split <;> simp
    rw [split] at rest
    rw [List.flatMap_cons, List.map_append]
    exact first.append rest

lemma Reads.tagName {tag : List Char} (htag : isTagName tag = true) :
    ∃ c cs, tag = c :: cs ∧ c.isAlpha = true ∧ cs.all nameChar = true := by
  cases tag with
  | nil => simp [isTagName] at htag
  | cons c cs =>
    have parts : c.isAlpha = true ∧ nameChar c = true ∧ cs.all nameChar = true := by
      simpa [isTagName] using htag
    exact ⟨c, cs, rfl, parts.1, parts.2.2⟩

/-- An opening tag reads as one token. -/
lemma Reads.openTag {tag : String} {attrs : List Attr} (h : Tag.WellNamed tag attrs) :
    Reads .data ((Html.openTag tag attrs).map (Piece.char (η := η))) .data
      [.startTag tag (printed attrs)] := by
  obtain ⟨c, cs, hcs, alpha, names⟩ := Reads.tagName h.1
  have slash : c ≠ '/' := by
    rintro rfl
    exact absurd alpha (by decide)
  have named : Reads (.tagName [c]) (cs.map (Piece.char (η := η))) (.tagName tag.toList) [] := by
    have loop := Reads.name (η := η) Mode.tagName (fun acc d hd => ?_) names [c]
    · rwa [List.singleton_append, ← hcs] at loop
    · have noSpace : d ≠ ' ' := by
        rintro rfl
        simp [nameChar] at hd
      have noClose : d ≠ '>' := by
        rintro rfl
        simp [nameChar] at hd
      simp [Mode.step, noSpace, noClose, hd]
  have listed : Reads (.tagName tag.toList) ((attrs.flatMap Attr.print).map (Piece.char (η := η)))
      (betweenAttrs tag.toList (printed attrs)) [] := by
    simpa [betweenAttrs] using Reads.attrs (η := η) tag.toList [] h.2.2
  have closed : Reads (betweenAttrs tag.toList (printed attrs)) [Piece.char (η := η) '>'] .data
      [.startTag tag (printed attrs)] := by
    simp [Reads, Mode.run, Mode.read, betweenAttrs_step_close, Mode.close, h.2.1]
  have start : Mode.data.step (η := η) '<' = some (.tagOpen, []) := by simp [Mode.step]
  have first : Mode.tagOpen.step (η := η) c = some (.tagName [c], []) := by
    simp [Mode.step, slash, alpha]
  have whole := Reads.cons start (Reads.cons first (named.append (listed.append closed)))
  simpa [Html.openTag, hcs] using whole

/-- A closing tag reads as one token. -/
lemma Reads.closeTag {tag : String} (h : isTagName tag.toList = true) :
    Reads .data ((Html.closeTag tag).map (Piece.char (η := η))) .data [.endTag tag] := by
  obtain ⟨c, cs, hcs, alpha, names⟩ := Reads.tagName h
  have named : Reads (.endTagName [c]) (cs.map (Piece.char (η := η)))
      (.endTagName tag.toList) [] := by
    have loop := Reads.name (η := η) Mode.endTagName (fun acc d hd => ?_) names [c]
    · rwa [List.singleton_append, ← hcs] at loop
    · have noClose : d ≠ '>' := by
        rintro rfl
        simp [nameChar] at hd
      simp [Mode.step, noClose, hd]
  have closed : Reads (.endTagName tag.toList) [Piece.char (η := η) '>'] .data [.endTag tag] := by
    simp [Reads, Mode.run, Mode.read, Mode.step]
  have start : Mode.data.step (η := η) '<' = some (.tagOpen, []) := by simp [Mode.step]
  have slash : Mode.tagOpen.step (η := η) '/' = some (.endTagOpen, []) := by simp [Mode.step]
  have first : Mode.endTagOpen.step (η := η) c = some (.endTagName [c], []) := by
    simp [Mode.step, alpha]
  have whole := Reads.cons start (Reads.cons slash (Reads.cons first (named.append closed)))
  simpa [Html.closeTag, hcs] using whole

mutual

lemma Reads.tree : ∀ (t : Tree η), t.Each names → Reads .data t.pieces .data t.tokens
  | .text s, _ => by
    rw [Tree.pieces, Tree.tokens]
    exact Reads.text s.toList
  | .void tag attrs, h => by
    rw [Tree.pieces, Tree.tokens]
    rw [Tree.Each] at h
    exact Reads.openTag h
  | .elem tag attrs children, h => by
    rw [Tree.pieces, Tree.tokens]
    rw [Tree.Each] at h
    have inside := Reads.forest children h.2
    exact ((Reads.openTag h.1).append inside).append (Reads.closeTag h.1.1)
  | .hole label content, _ => by
    rw [Tree.pieces, Tree.tokens]
    rfl

/-- A well-named forest reads as its tokens. -/
lemma Reads.forest : ∀ (ts : List (Tree η)),
    WellNamed ts → Reads .data (pieces ts) .data (tokens ts)
  | [], _ => by
    rw [pieces, tokens]
    exact Reads.nil .data
  | t :: ts, h => by
    rw [WellNamed, each_cons] at h
    rw [pieces, tokens]
    exact (Reads.tree t h.1).append (Reads.forest ts h.2)

end

/-- The segments of a well-named forest scan to the forest's own tags, attributes and text. -/
theorem scan_segments {ts : List (Tree η)} (h : WellNamed ts) :
    scan (segments ts) = some (tokens ts) := by
  have read : Mode.data.run (pieces ts) = some (.data, tokens ts) := Reads.forest ts h
  simp [scan, segments, read]

/-! ## Text content -/

/-- The characters among tokens. -/
def text (toks : List (Token η)) : List Char :=
  toks.filterMap fun tok =>
    match tok with
    | .char c => some c
    | _ => none

@[simp] lemma text_append (toks toks' : List (Token η)) :
    text (toks ++ toks') = text toks ++ text toks' := by
  simp [text]

mutual

def Tree.texts : Tree η → List String
  | .text s => [s]
  | .elem _ _ children => texts children
  | _ => []

/-- The texts of a forest, outside holes. -/
def texts : List (Tree η) → List String
  | [] => []
  | t :: ts => t.texts ++ texts ts

end

@[simp] lemma texts_nil : texts ([] : List (Tree η)) = [] := by
  rw [texts]

@[simp] lemma texts_cons (t : Tree η) (ts : List (Tree η)) :
    texts (t :: ts) = t.texts ++ texts ts := by
  rw [texts]

@[simp] lemma texts_append (ts us : List (Tree η)) : texts (ts ++ us) = texts ts ++ texts us := by
  induction ts with
  | nil => simp
  | cons t ts ih => simp [ih]

@[simp] lemma Tree.texts_elem (tag : String) (attrs : List Attr) (children : List (Tree η)) :
    Tree.texts (.elem tag attrs children) = Html.texts children := by
  rw [Tree.texts]

mutual

lemma Tree.text_tokens : ∀ t : Tree η, text t.tokens = t.texts.flatMap String.toList
  | .text s => by
    rw [Tree.tokens, Tree.texts]
    simp [text]
  | .void tag attrs => by
    rw [Tree.tokens, Tree.texts]
    · simp [text]
    all_goals simp
  | .elem tag attrs children => by
    have inside := Html.text_tokens children
    rw [Tree.tokens, Tree.texts_elem, ← inside, ← List.singleton_append]
    simp [text]
  | .hole label content => by
    rw [Tree.tokens, Tree.texts]
    · simp [text]
    all_goals simp

/-- The text content of a forest is its texts, one after the other. -/
lemma text_tokens : ∀ ts : List (Tree η), text (tokens ts) = (texts ts).flatMap String.toList
  | [] => by
    rw [tokens, texts]
    rfl
  | t :: ts => by
    rw [tokens, text_append, Tree.text_tokens t, Html.text_tokens ts, texts_cons,
      List.flatMap_append]

end

/-! ## Shapes -/

/-- An attribute slot without its value. -/
def Attr.shape (a : Attr) : Attr := { a with value := "" }

mutual

def Tree.shape : Tree η → Tree η
  | .text _ => .text ""
  | .void tag attrs => .void tag (attrs.map Attr.shape)
  | .elem tag attrs children => .elem tag (attrs.map Attr.shape) (shape children)
  | .hole label content => .hole label (shape content)

/-- A forest without its strings: tags, attribute slots, and where text stands. -/
def shape : List (Tree η) → List (Tree η)
  | [] => []
  | t :: ts => t.shape :: shape ts

end

@[simp] lemma shape_nil : shape ([] : List (Tree η)) = [] := by
  rw [shape]

@[simp] lemma shape_cons (t : Tree η) (ts : List (Tree η)) :
    shape (t :: ts) = t.shape :: shape ts := by
  rw [shape]

@[simp] lemma shape_append (ts us : List (Tree η)) : shape (ts ++ us) = shape ts ++ shape us := by
  induction ts with
  | nil => simp
  | cons t ts ih => simp [ih]

@[simp] lemma shape_eq_nil {ts : List (Tree η)} : shape ts = [] ↔ ts = [] := by
  cases ts with
  | nil => simp
  | cons t ts => simp

lemma Tree.pieces_void_ne_nil (tag : String) (attrs : List Attr) :
    Tree.pieces (η := η) (.void tag attrs) ≠ [] := by
  simp [Tree.pieces, openTag]

lemma Tree.pieces_elem_ne_nil (tag : String) (attrs : List Attr) (children : List (Tree η)) :
    Tree.pieces (.elem tag attrs children) ≠ [] := by
  simp [Tree.pieces, openTag]

lemma Tree.pieces_text_ne_nil {s : String} (h : s ≠ "") : Tree.pieces (η := η) (.text s) ≠ [] := by
  obtain ⟨c, cs, hcs⟩ : ∃ c cs, s.toList = c :: cs := by
    apply List.exists_cons_of_ne_nil
    simpa using h
  rw [Tree.pieces, hcs, List.flatMap_cons]
  rcases textChar_cases c with ⟨-, h⟩ | ⟨-, h⟩ | ⟨-, h⟩ | ⟨-, -, -, h⟩ <;> simp [h]

/-- Trees that print something leave no pieces only when there are none of them. -/
lemma pieces_isEmpty {ts : List (Tree η)} (h : ∀ t ∈ ts, t.pieces ≠ []) :
    (pieces ts).isEmpty = ts.isEmpty := by
  cases ts with
  | nil => simp
  | cons t ts =>
    have printed := h t (by simp)
    simp [printed]

/-- The tags among tokens, their attributes left out. -/
def tags (toks : List (Token η)) : List (Token η) :=
  toks.filterMap fun tok =>
    match tok with
    | .startTag tag _ => some (.startTag tag [])
    | .endTag tag => some (.endTag tag)
    | _ => none

@[simp] lemma tags_append (toks toks' : List (Token η)) :
    tags (toks ++ toks') = tags toks ++ tags toks' := by
  simp [tags]

mutual

lemma Tree.tags_tokens : ∀ (t u : Tree η), t.shape = u.shape → tags t.tokens = tags u.tokens
  | .text s, u, h => by
    cases u <;> simp [Tree.shape] at h
    simp [Tree.tokens, tags]
  | .void tag attrs, u, h => by
    cases u <;> simp [Tree.shape] at h
    simp [Tree.tokens, tags, h.1]
  | .elem tag attrs children, u, h => by
    cases u <;> simp [Tree.shape] at h
    next tag' attrs' children' =>
    have inside := Html.tags_tokens children children' h.2.2
    have opened : ∀ slots, tags [(.startTag tag slots : Token η)] = [.startTag tag []] :=
      fun _ => rfl
    rw [Tree.tokens, Tree.tokens, ← List.singleton_append, ← h.1]
    rw [← List.singleton_append (l := tokens children')]
    simp only [tags_append, inside, opened]
  | .hole label content, u, h => by
    cases u <;> simp [Tree.shape] at h
    simp [Tree.tokens, tags]

/-- Forests of one shape read as the same tags. -/
lemma tags_tokens : ∀ (ts us : List (Tree η)), shape ts = shape us →
    tags (tokens ts) = tags (tokens us)
  | [], us, h => by
    rw [shape_nil] at h
    rw [shape_eq_nil.mp h.symm]
  | t :: ts, us, h => by
    cases us with
    | nil => simp at h
    | cons u us =>
      rw [shape_cons, shape_cons, List.cons.injEq] at h
      rw [tokens, tokens, tags_append, tags_append, Tree.tags_tokens t u h.1,
        Html.tags_tokens ts us h.2]

end

end Html

end Yrby
