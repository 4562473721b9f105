import Yrby.Reading.ReadXml
import Mathlib.Data.List.DropRight

/-!
# Plain text for search (`Y::Decoder.text`)

A text root is read as it is.  Everything else comes from `read_xml` as markup, of which
`strip_tags` removes what looks like a tag: in a Lexical document, where there are no tags, that can
only be text of the user's, and in a ProseMirror document any `<` of the user's reaches into the
next tag.  `normalize` edits whitespace and nothing else.

yrs's `get_string` of an element is a parameter: the element's runs, unescaped, between tags
(`Prints`).  The condition for every word to be kept, and no other word to come in, is
`keepsWords_iff`.
-/

namespace Yrby

namespace ReadXml

open HtmlCore LexicalHtml Lines

/-! ## Ruby's strings -/

/-- Whitespace, for `strip`. -/
def Glyph.isSpace (g : Glyph) : Bool :=
  g.char ∈ ['\x00', '\t', '\n', '\x0b', '\x0c', '\x0d', ' ']

/-- `gsub(/<[^>]*>/, " ")`; `held` is a `<` and what came behind it. -/
def stripTagsFrom (held : Line) : Line → Line
  | [] => held
  | g :: gs =>
    if held.isEmpty then
      if g.char = '<' then stripTagsFrom [g] gs else g :: stripTagsFrom [] gs
    else if g.char = '>' then ⟨' ', .separator⟩ :: stripTagsFrom [] gs
    else stripTagsFrom (held ++ [g]) gs

/-- `strip_tags` -/
def stripTags (markup : Line) : Line := stripTagsFrom [] markup

/-- `gsub(/[ \t]+/, " ")`; `inside` a match or not. -/
def collapseFrom (inside : Bool) : Line → Line
  | [] => []
  | g :: gs =>
    if g.char = ' ' ∨ g.char = '\t' then
      if inside then collapseFrom true gs else ⟨' ', .separator⟩ :: collapseFrom true gs
    else g :: collapseFrom false gs

/-- `gsub(/ *\n */, "\n")`; `held` are the spaces before, `behind` says that a newline was. -/
def trimLinesFrom (held : Line) (behind : Bool) : Line → Line
  | [] => held
  | g :: gs =>
    if g.char = ' ' then
      if behind then trimLinesFrom [] true gs else trimLinesFrom (held ++ [g]) false gs
    else if g.char = '\n' then ⟨'\n', .separator⟩ :: trimLinesFrom [] true gs
    else held ++ g :: trimLinesFrom [] false gs

/-- `\n{3,}` as `\n\n`. -/
def capped (held : Line) : Line :=
  if 3 ≤ held.length then [⟨'\n', .separator⟩, ⟨'\n', .separator⟩] else held

/-- `gsub(/\n{3,}/, "\n\n")`; `held` are the newlines before. -/
def capLinesFrom (held : Line) : Line → Line
  | [] => capped held
  | g :: gs =>
    if g.char = '\n' then capLinesFrom (held ++ [g]) gs else capped held ++ g :: capLinesFrom [] gs

/-- `String#strip` -/
def strip (text : Line) : Line :=
  (text.dropWhile Glyph.isSpace).rdropWhile Glyph.isSpace

/-- `normalize` -/
def normalize (text : Line) : Line :=
  strip (capLinesFrom [] (trimLinesFrom [] false (collapseFrom false text)))

/-! ## Documents -/

/-- What yrs prints of an element. -/
inductive Printed
  | tag (s : String)
  | run (s : Run)

def Printed.glyphs : Printed → Line
  | .tag s => ReadXml.glyphs .markup s
  | .run s => ReadXml.glyphs .run s.text

def Printed.run? : Printed → Option Run
  | .run s => some s
  | .tag _ => none

/-- A document with one root. -/
inductive Document
  | text (runs : List Run)
  | lexical (root : List Child)
  | proseMirror (root : List ProseMirrorHtml.XmlElement)

/-- `get_string` of an element. -/
abbrev Print := ProseMirrorHtml.XmlElement → List Printed

def Print.getString (print : Print) (e : ProseMirrorHtml.XmlElement) : Line :=
  (print e).flatMap Printed.glyphs

/-- `read_text`: a root of another type has no text of its own. -/
def Document.readText : Document → Line
  | .text runs => runs.flatMap fun s => glyphs .run s.text
  | _ => []

/-- `read_xml`: a text has no nodes. -/
def Document.readXml (print : Print) : Document → Line
  | .text _ => []
  | .lexical root => xmlBlocksText print.getString root
  | .proseMirror root => xmlBlocksText print.getString (root.map .element)

/-- `text` -/
def decoderText (print : Print) (doc : Document) : Line :=
  let direct := doc.readText
  if !(strip direct).isEmpty then normalize direct
  else normalize (stripTags (doc.readXml print))

/-! ## What is stored -/

mutual

/-- The runs of a Lexical block. -/
def chunkRuns : Chunk → List Run
  | .run s => [s]
  | .text _ chunks => chunksRuns chunks
  | _ => []

def chunksRuns : List Chunk → List Run
  | [] => []
  | c :: cs => chunkRuns c ++ chunksRuns cs

end

mutual

/-- The runs of a ProseMirror node. -/
def nodeRuns : ProseMirrorHtml.Node → List Run
  | .element _ _ children => nodesRuns children
  | .text diffs => diffs.filterMap fun d =>
    match d with
    | .run s _ => some s
    | .embed => none
  | .fragment _ => []

def nodesRuns : List ProseMirrorHtml.Node → List Run
  | [] => []
  | n :: ns => nodeRuns n ++ nodesRuns ns

end

/-- The runs of a document, in order. -/
def Document.runs : Document → List Run
  | .text runs => runs
  | .lexical root => (blocksOf root).flatMap chunksRuns
  | .proseMirror root => root.flatMap fun e => nodesRuns e.children

/-- A character of a stored word. -/
def wordToken (g : Glyph) : Option Glyph :=
  if g.origin = .run ∧ ¬g.isSpace then some g else none

/-- The stored words of a text. -/
def words (text : Line) : List Line := lines [] (text.map wordToken)

/-- The words of a document, run by run. -/
def Document.words (doc : Document) : List Line :=
  doc.runs.flatMap fun s => ReadXml.words (glyphs .run s.text)

/-- Every word is in the text, in order, and the text holds only characters of the document and of
its decorators. -/
structure KeepsWords (print : Print) (doc : Document) : Prop where
  words : Appear doc.words (decoderText print doc)
  only : ∀ g ∈ decoderText print doc, ¬g.isSpace → g.origin = .run ∨ g.origin = .decorator

/-- What yrs prints of an element: its runs in order, between tags. -/
structure Prints (pieces : List Printed) (e : ProseMirrorHtml.XmlElement) : Prop where
  runs : pieces.filterMap Printed.run? = nodesRuns e.children
  tags : ∀ s, .tag s ∈ pieces → ∃ inner, s.toList = '<' :: (inner ++ ['>'])
  closed : ∃ opening s, pieces = opening ++ [.tag s]

/-- A document as an editor stores it. -/
def Document.Shaped (print : Print) : Document → Prop
  | .text _ => True
  | .lexical root => LexicalShaped root
  | .proseMirror root =>
    ∀ e ∈ root, e.attrs.containsKey "__type" = false ∧ Prints (print e) e

/-! ## What can be lost -/

/-- Nothing that looks like a tag holds a stored character other than whitespace. -/
def Unbracketed (text : Line) : Prop :=
  ∀ pre l mid r post, text = pre ++ l :: (mid ++ r :: post) → l.char = '<' → r.char = '>' →
    (∀ m ∈ mid, m.char ≠ '>') → ∀ g ∈ l :: (mid ++ [r]), wordToken g = none

/-- No word of the document can be lost, and no part of a tag be left. -/
def Document.Safe (print : Print) : Document → Prop
  | .text _ => True
  | .lexical root => Unbracketed (joinLines (lines [] (rootRead root)))
  | .proseMirror root => ∀ e ∈ root,
    (∀ s ∈ nodesRuns e.children, '<' ∉ s.text.toList) ∧
      ∀ s, .tag s ∈ print e → ∀ g ∈ stripTags (glyphs .markup s), g.isSpace

/-! ## Words and whitespace -/

/-- The stored words of a text that goes on from a line. -/
def wordsFrom (line text : Line) : List Line := lines line (text.map wordToken)

lemma wordToken_space {g : Glyph} (h : g.isSpace = true) : wordToken g = none := by
  simp [wordToken, h]

lemma wordToken_eq_some {g g' : Glyph} (h : wordToken g = some g') : g = g' := by
  unfold wordToken at h
  split at h
  · exact Option.some.inj h
  · cases h

lemma wordsFrom_cons_none {g : Glyph} (h : wordToken g = none) (line text : Line) :
    wordsFrom line (g :: text) = flush line ++ wordsFrom [] text := by
  rw [wordsFrom, List.map_cons, h, lines]
  rfl

lemma wordsFrom_cons_congr {text text' : Line}
    (h : ∀ line, wordsFrom line text = wordsFrom line text') (g : Glyph) (line : Line) :
    wordsFrom line (g :: text) = wordsFrom line (g :: text') :=
  lines_append_congr h [wordToken g] line

lemma wordsFrom_append_congr {text text' : Line}
    (h : ∀ line, wordsFrom line text = wordsFrom line text') (pre line : Line) :
    wordsFrom line (pre ++ text) = wordsFrom line (pre ++ text') := by
  rw [wordsFrom, wordsFrom, List.map_append, List.map_append]
  exact lines_append_congr h _ line

/-- What stands between words parts them, whatever it is. -/
lemma wordsFrom_gap {gap : Line} (h : ∀ g ∈ gap, wordToken g = none) (some : gap ≠ [])
    (line text : Line) : wordsFrom line (gap ++ text) = flush line ++ wordsFrom [] text := by
  rw [wordsFrom, List.map_append]
  exact lines_breaks_append (by simpa using h) (by simpa using some) line _

lemma wordsFrom_none {gap : Line} (h : ∀ g ∈ gap, wordToken g = none) (line : Line) :
    wordsFrom line gap = flush line :=
  lines_breaks (by simpa using h) line

lemma wordsFrom_collapse (text : Line) (inside : Bool) (line : Line) (h : inside → line = []) :
    wordsFrom line (collapseFrom inside text) = wordsFrom line text := by
  induction text generalizing inside line with
  | nil => rfl
  | cons g text ih =>
    rw [collapseFrom]
    split
    · rename_i blank
      have none : wordToken g = none := by
        apply wordToken_space
        rcases blank with space | tab
        · simp [Glyph.isSpace, space]
        · simp [Glyph.isSpace, tab]
      rw [wordsFrom_cons_none none]
      cases inside with
      | true =>
        rw [h rfl]
        exact ih true [] fun _ => rfl
      | false =>
        rw [if_neg Bool.false_ne_true, wordsFrom_cons_none rfl, ih true [] fun _ => rfl]
    · exact wordsFrom_cons_congr (fun line => ih false line nofun) g line

lemma wordsFrom_trimLines (text held : Line) (behind : Bool) (line : Line)
    (spaces : ∀ g ∈ held, g.char = ' ') (h : behind → line = [] ∧ held = []) :
    wordsFrom line (trimLinesFrom held behind text) = wordsFrom line (held ++ text) := by
  have blank : ∀ g : Glyph, g.char = ' ' → wordToken g = none :=
    fun g hg => wordToken_space (by simp [Glyph.isSpace, hg])
  induction text generalizing held behind line with
  | nil => rw [trimLinesFrom, List.append_nil]
  | cons g text ih =>
    rw [trimLinesFrom]
    split
    · rename_i space
      cases behind with
      | true =>
        obtain ⟨rfl, rfl⟩ := h rfl
        rw [if_pos rfl, ih [] true [] (by simp) fun _ => ⟨rfl, rfl⟩, List.nil_append,
          List.nil_append, wordsFrom_cons_none (blank g space)]
        rfl
      | false =>
        have more : ∀ g' ∈ held ++ [g], g'.char = ' ' :=
          List.forall_mem_append.2 ⟨spaces, List.forall_mem_singleton.2 space⟩
        rw [if_neg Bool.false_ne_true, ih _ false line more nofun, List.append_assoc,
          List.singleton_append]
    · split
      · rename_i newline
        have ends : wordToken g = none := wordToken_space (by simp [Glyph.isSpace, newline])
        have gap : ∀ g' ∈ held ++ [g], wordToken g' = none :=
          List.forall_mem_append.2
            ⟨fun g' hg' => blank g' (spaces g' hg'), List.forall_mem_singleton.2 ends⟩
        rw [wordsFrom_cons_none rfl, ih [] true [] (by simp) fun _ => ⟨rfl, rfl⟩, List.nil_append,
          List.append_cons, wordsFrom_gap gap (by simp)]
      · exact wordsFrom_append_congr
          (fun line => wordsFrom_cons_congr (fun line => ih [] false line (by simp) nofun) g line)
          held line

lemma wordToken_capped {held : Line} (h : ∀ g ∈ held, wordToken g = none) :
    ∀ g ∈ capped held, wordToken g = none := by
  unfold capped
  split
  · simp [wordToken]
  · exact h

lemma wordsFrom_capLines (text held line : Line) (newlines : ∀ g ∈ held, g.char = '\n') :
    wordsFrom line (capLinesFrom held text) = wordsFrom line (held ++ text) := by
  have blank : ∀ held : Line, (∀ g ∈ held, g.char = '\n') → ∀ g ∈ held, wordToken g = none :=
    fun held newlines g hg => wordToken_space (by simp [Glyph.isSpace, newlines g hg])
  induction text generalizing held line with
  | nil =>
    have none := blank held newlines
    rw [capLinesFrom, List.append_nil, wordsFrom_none (wordToken_capped none), wordsFrom_none none]
  | cons g text ih =>
    rw [capLinesFrom]
    split
    · rename_i newline
      have more : ∀ g' ∈ held ++ [g], g'.char = '\n' :=
        List.forall_mem_append.2 ⟨newlines, List.forall_mem_singleton.2 newline⟩
      have rest := ih _ line more
      rwa [List.append_assoc, List.singleton_append] at rest
    · have rest : ∀ line, wordsFrom line (g :: capLinesFrom [] text) = wordsFrom line (g :: text) :=
        wordsFrom_cons_congr (fun line => ih [] line (by simp)) g
      rw [wordsFrom_append_congr rest]
      unfold capped
      split
      · rename_i many
        have full : held ≠ [] := by
          rintro rfl
          simp at many
        rw [wordsFrom_gap (by simp [wordToken]) (by simp), wordsFrom_gap (blank held newlines) full]
      · rfl

lemma words_strip (text : Line) : words (strip text) = words text := by
  have front : ∀ text : Line,
      words (text.dropWhile Glyph.isSpace) = words text := by
    intro text
    induction text with
    | nil => rfl
    | cons g text ih =>
      by_cases space : g.isSpace = true
      · rw [List.dropWhile_cons_of_pos space, ih]
        exact (wordsFrom_cons_none (wordToken_space space) [] text).symm
      · rw [List.dropWhile_cons_of_neg space]
  have back : ∀ text : Line, words (text.rdropWhile Glyph.isSpace) = words text := by
    intro text
    induction text using List.reverseRecOn with
    | nil => rfl
    | append_singleton text g ih =>
      by_cases space : g.isSpace = true
      · rw [List.rdropWhile_concat_pos _ _ _ space, ih, words, words, List.map_append,
          List.map_singleton, wordToken_space space, lines_none]
        simp [lines]
      · rw [List.rdropWhile_concat_neg _ _ _ space]
  rw [strip, back, front]

/-- `normalize` edits whitespace. -/
lemma words_normalize (text : Line) : words (normalize text) = words text := by
  rw [normalize, words_strip]
  exact (wordsFrom_capLines _ [] [] (by simp)).trans
    ((wordsFrom_trimLines _ [] false [] (by simp) nofun).trans
      (wordsFrom_collapse text false [] nofun))

/-! ## Words and tags -/

lemma Unbracketed.tail {xs ys : Line} (h : Unbracketed (xs ++ ys)) : Unbracketed ys := by
  intro pre l mid r post split
  exact h (xs ++ pre) l mid r post (by rw [split, List.append_assoc])

/-- What is held of a possible tag. -/
def IsHeld (held : Line) : Prop :=
  held = [] ∨ ∃ l inner, held = l :: inner ∧ l.char = '<' ∧ ∀ g ∈ inner, g.char ≠ '>'

lemma IsHeld.append {held : Line} (h : IsHeld held) (some : held ≠ []) {g : Glyph}
    (hg : g.char ≠ '>') : IsHeld (held ++ [g]) := by
  rcases h with rfl | ⟨l, inner, rfl, hl, hinner⟩
  · exact absurd rfl some
  · have more : ∀ g' ∈ inner ++ [g], g'.char ≠ '>' :=
      List.forall_mem_append.2 ⟨hinner, List.forall_mem_singleton.2 hg⟩
    exact .inr ⟨l, inner ++ [g], rfl, hl, more⟩

/-- Where nothing stored looks like a tag, words are kept. -/
lemma wordsFrom_stripTags (text held line : Line) (h : IsHeld held)
    (safe : Unbracketed (held ++ text)) :
    wordsFrom line (stripTagsFrom held text) = wordsFrom line (held ++ text) := by
  induction text generalizing held line with
  | nil => rw [stripTagsFrom, List.append_nil]
  | cons g text ih =>
    have rest : Unbracketed text := by
      rw [List.append_cons] at safe
      exact safe.tail
    rw [stripTagsFrom]
    rcases h with rfl | ⟨l, inner, rfl, hl, hinner⟩
    · rw [if_pos (show ([] : Line).isEmpty = true from rfl), List.nil_append]
      split
      · rename_i opens
        exact ih [g] line (.inr ⟨g, [], rfl, opens, by simp⟩) safe
      · exact wordsFrom_cons_congr (fun line => ih [] line (.inl rfl) rest) g line
    · rw [if_neg (by simp)]
      split
      · rename_i closes
        have gap : ∀ m ∈ l :: (inner ++ [g]), wordToken m = none :=
          safe [] l inner g text (by simp) hl closes hinner
        rw [wordsFrom_cons_none rfl, ih [] [] (.inl rfl) rest, List.append_cons,
          List.cons_append, wordsFrom_gap gap (by simp)]
        rfl
      · rename_i goes
        have held : IsHeld (l :: inner) := .inr ⟨l, inner, rfl, hl, hinner⟩
        have more := ih (l :: inner ++ [g]) line (held.append (by simp) goes)
          (by rwa [List.append_assoc, List.singleton_append])
        rwa [List.append_assoc, List.singleton_append] at more

lemma words_stripTags {text : Line} (safe : Unbracketed text) :
    words (stripTags text) = words text :=
  wordsFrom_stripTags text [] [] (.inl rfl) safe

/-- How many stored characters of words there are. -/
def wordChars (text : Line) : ℕ := text.countP fun g => (wordToken g).isSome

lemma wordChars_append (xs ys : Line) : wordChars (xs ++ ys) = wordChars xs + wordChars ys :=
  List.countP_append

lemma wordChars_cons (g : Glyph) (text : Line) :
    wordChars (g :: text) = wordChars [g] + wordChars text :=
  wordChars_append [g] text

lemma wordChars_stripTags_le (text held : Line) :
    wordChars (stripTagsFrom held text) ≤ wordChars held + wordChars text := by
  induction text generalizing held with
  | nil => exact Nat.le_add_right _ _
  | cons g text ih =>
    have cut := wordChars_cons g text
    rw [stripTagsFrom]
    split
    · split
      · have more := ih [g]
        omega
      · have more := ih []
        have same := wordChars_cons g (stripTagsFrom [] text)
        rw [show wordChars [] = 0 from rfl] at more
        omega
    · split
      · have more := ih []
        have same := wordChars_cons ⟨' ', .separator⟩ (stripTagsFrom [] text)
        rw [show wordChars [⟨' ', .separator⟩] = 0 from rfl] at same
        rw [show wordChars [] = 0 from rfl] at more
        omega
      · have more := ih (held ++ [g])
        rw [wordChars_append] at more
        omega

/-- A tag is removed from its start on. -/
lemma stripTagsFrom_tag {mid : Line} (h : ∀ m ∈ mid, m.char ≠ '>') {held : Line}
    (some : held ≠ []) {r : Glyph} (hr : r.char = '>') (post : Line) :
    stripTagsFrom held (mid ++ r :: post) = ⟨' ', .separator⟩ :: stripTagsFrom [] post := by
  have full : ∀ held : Line, held ≠ [] → ¬held.isEmpty = true :=
    fun held some => by simpa using some
  induction mid generalizing held with
  | nil => rw [List.nil_append, stripTagsFrom, if_neg (full held some), if_pos hr]
  | cons m mid ih =>
    rw [List.cons_append, stripTagsFrom, if_neg (full held some),
      if_neg (h m List.mem_cons_self)]
    exact ih (fun m' hm' => h m' (List.mem_cons_of_mem _ hm')) (by simp)

/-- What stands in something that looks like a tag is lost. -/
lemma wordChars_stripTags_tag {l r : Glyph} {mid : Line} (hl : l.char = '<')
    (hr : r.char = '>') (hmid : ∀ m ∈ mid, m.char ≠ '>') (post pre held : Line) :
    wordChars (stripTagsFrom held (pre ++ l :: (mid ++ r :: post))) +
        wordChars (l :: (mid ++ [r])) ≤
      wordChars held + wordChars (pre ++ l :: (mid ++ r :: post)) := by
  have whole : wordChars (l :: (mid ++ r :: post)) =
      wordChars (l :: (mid ++ [r])) + wordChars post := by
    rw [← wordChars_append]
    simp
  have rest := wordChars_stripTags_le post []
  have gap := wordChars_cons ⟨' ', .separator⟩ (stripTagsFrom [] post)
  rw [show wordChars [⟨' ', .separator⟩] = 0 from rfl] at gap
  rw [show wordChars [] = 0 from rfl] at rest
  induction pre generalizing held with
  | nil =>
    rw [List.nil_append, stripTagsFrom]
    split
    · rw [stripTagsFrom_tag hmid (by simp) hr]
      omega
    · rw [if_neg (by rw [hl]; decide), stripTagsFrom_tag hmid (by simp) hr]
      omega
  | cons p pre ih =>
    have cut := wordChars_cons p (pre ++ l :: (mid ++ r :: post))
    rw [List.cons_append, stripTagsFrom]
    split
    · split
      · have more := ih [p]
        omega
      · have more := ih []
        have same := wordChars_cons p (stripTagsFrom [] (pre ++ l :: (mid ++ r :: post)))
        rw [show wordChars [] = 0 from rfl] at more
        omega
    · split
      · have more := ih []
        have same := wordChars_cons ⟨' ', .separator⟩
          (stripTagsFrom [] (pre ++ l :: (mid ++ r :: post)))
        rw [show wordChars [⟨' ', .separator⟩] = 0 from rfl] at same
        rw [show wordChars [] = 0 from rfl] at more
        omega
      · have more := ih (held ++ [p])
        rw [wordChars_append] at more
        omega

/-- The words hold the stored characters. -/
lemma length_words (text : Line) : (words text).flatten.length = wordChars text := by
  rw [words, flatten_lines, List.nil_append]
  induction text with
  | nil => rfl
  | cons g text ih =>
    rw [List.map_cons, wordChars_cons, ← ih]
    cases token : wordToken g with
    | none => simp [List.reduceOption_cons_of_none, wordChars, token]
    | some g' =>
      simp [List.reduceOption_cons_of_some, wordChars, token]
      omega

/-- Words that all appear were not lost. -/
lemma Appear.wordChars_le {ws : List Line} {text : Line} (h : Appear ws text)
    (stored : ∀ w ∈ ws, ∀ g ∈ w, (wordToken g).isSome) : ws.flatten.length ≤ wordChars text := by
  have all : ws.flatten.countP (fun g => (wordToken g).isSome) = ws.flatten.length := by
    rw [List.countP_eq_length]
    intro g hg
    obtain ⟨w, hw, hgw⟩ := List.mem_flatten.1 hg
    exact stored w hw g hgw
  rw [← all]
  exact h.sublist.countP_le

/-! ## What is left -/

/-- A text without its whitespace. -/
def solid (text : Line) : Line := text.filter fun g => !g.isSpace

lemma solid_append (xs ys : Line) : solid (xs ++ ys) = solid xs ++ solid ys :=
  List.filter_append ..

lemma solid_cons_space {g : Glyph} (h : g.isSpace = true) (text : Line) :
    solid (g :: text) = solid text := by
  simp [solid, h]

lemma solid_cons_congr (g : Glyph) {text text' : Line} (h : solid text = solid text') :
    solid (g :: text) = solid (g :: text') := by
  simp only [solid, List.filter_cons] at h ⊢
  rw [h]

lemma solid_collapse (text : Line) (inside : Bool) :
    solid (collapseFrom inside text) = solid text := by
  induction text generalizing inside with
  | nil => rfl
  | cons g text ih =>
    rw [collapseFrom]
    split
    · rename_i blank
      have space : g.isSpace = true := by
        rcases blank with space | tab
        · simp [Glyph.isSpace, space]
        · simp [Glyph.isSpace, tab]
      rw [solid_cons_space space]
      split
      · exact ih true
      · rw [solid_cons_space (by decide), ih]
    · exact solid_cons_congr g (ih false)

lemma solid_trimLines (text held : Line) (behind : Bool) (spaces : solid held = []) :
    solid (trimLinesFrom held behind text) = solid text := by
  induction text generalizing held behind with
  | nil => exact spaces
  | cons g text ih =>
    rw [trimLinesFrom]
    split
    · rename_i space
      have blank : g.isSpace = true := by simp [Glyph.isSpace, space]
      rw [solid_cons_space blank]
      split
      · exact ih [] true rfl
      · refine ih (held ++ [g]) false ?_
        rw [solid_append, spaces, solid_cons_space blank]
        rfl
    · split
      · rename_i newline
        have blank : g.isSpace = true := by simp [Glyph.isSpace, newline]
        rw [solid_cons_space blank, solid_cons_space rfl]
        exact ih [] true rfl
      · rw [solid_append, spaces, List.nil_append]
        exact solid_cons_congr g (ih [] false rfl)

lemma solid_capLines (text held : Line) (newlines : solid held = []) :
    solid (capLinesFrom held text) = solid text := by
  have cap : ∀ held : Line, solid held = [] → solid (capped held) = [] := by
    intro held newlines
    unfold capped
    split
    · rfl
    · exact newlines
  induction text generalizing held with
  | nil => exact cap held newlines
  | cons g text ih =>
    rw [capLinesFrom]
    split
    · rename_i newline
      have blank : g.isSpace = true := by simp [Glyph.isSpace, newline]
      rw [solid_cons_space blank]
      refine ih (held ++ [g]) ?_
      rw [solid_append, newlines, solid_cons_space blank]
      rfl
    · rw [solid_append, cap held newlines, List.nil_append]
      exact solid_cons_congr g (ih [] rfl)

lemma solid_strip (text : Line) : solid (strip text) = solid text := by
  have front : ∀ text : Line, solid (text.dropWhile Glyph.isSpace) = solid text := by
    intro text
    induction text with
    | nil => rfl
    | cons g text ih =>
      by_cases space : g.isSpace = true
      · rw [List.dropWhile_cons_of_pos space, ih, solid_cons_space space]
      · rw [List.dropWhile_cons_of_neg space]
  have back : ∀ text : Line, solid (text.rdropWhile Glyph.isSpace) = solid text := by
    intro text
    induction text using List.reverseRecOn with
    | nil => rfl
    | append_singleton text g ih =>
      by_cases space : g.isSpace = true
      · rw [List.rdropWhile_concat_pos _ _ _ space, ih, solid_append, solid_cons_space space]
        simp [solid]
      · rw [List.rdropWhile_concat_neg _ _ _ space]
  rw [strip, back, front]

lemma mem_normalize {g : Glyph} (h : g.isSpace = false) (text : Line) :
    g ∈ normalize text ↔ g ∈ text := by
  have same : solid (normalize text) = solid text := by
    rw [normalize, solid_strip, solid_capLines _ _ rfl, solid_trimLines _ _ _ rfl, solid_collapse]
  have mem : ∀ text : Line, g ∈ solid text ↔ g ∈ text := fun text => by simp [solid, h]
  rw [← mem, same, mem]

lemma mem_stripTagsFrom {g : Glyph} (h : g.isSpace = false) {text held : Line}
    (mem : g ∈ stripTagsFrom held text) : g ∈ held ++ text := by
  induction text generalizing held with
  | nil => simpa [stripTagsFrom] using mem
  | cons g' text ih =>
    rw [stripTagsFrom] at mem
    split at mem
    · split at mem
      · simpa using List.mem_append_right held (ih mem)
      · rcases List.mem_cons.1 mem with rfl | rest
        · simp
        · have := ih rest
          simp at this
          simp [this]
    · split at mem
      · rcases List.mem_cons.1 mem with rfl | rest
        · exact absurd h (by decide)
        · have := ih rest
          simp at this
          simp [this]
      · simpa using ih mem

/-! ## Keeping and losing -/

/-- The words of a text appear in it. -/
lemma appear_words (text : Line) : Appear (words text) text :=
  Appear.of_lines (fun _ _ h => wordToken_eq_some h) [] text

lemma appear_of_words {text text' : Line} {ws : List Line} (cut : Refines (words text) ws)
    (same : words text' = words text) : Appear ws text' :=
  (same ▸ appear_words text').of_refines cut

lemma isSome_of_refines {text : Line} {ws : List Line} (cut : Refines (words text) ws) :
    ∀ w ∈ ws, ∀ g ∈ w, (wordToken g).isSome := by
  intro w hw g hg
  have mem : g ∈ ws.flatten := List.mem_flatten.2 ⟨w, hw, hg⟩
  rw [← cut.flatten_eq, words, flatten_lines, List.nil_append, List.reduceOption_mem_iff] at mem
  obtain ⟨g', -, token⟩ := List.mem_map.1 mem
  rw [wordToken_eq_some token] at token
  rw [token]
  rfl

/-- Words that all appear were in nothing that looks like a tag. -/
lemma unbracketed_of_appear {text : Line} {ws : List Line} (cut : Refines (words text) ws)
    (h : Appear ws (normalize (stripTags text))) : Unbracketed text := by
  have kept := Appear.wordChars_le h (isSome_of_refines cut)
  rw [← cut.flatten_eq, length_words, ← length_words (normalize _), words_normalize,
    length_words] at kept
  intro pre l mid r post split hl hr hmid g hg
  have loss := wordChars_stripTags_tag hl hr hmid post pre []
  rw [← split, show wordChars [] = 0 from rfl] at loss
  have none : wordChars (l :: (mid ++ [r])) = 0 := by
    rw [stripTags] at kept
    omega
  have no := List.countP_eq_zero.1 none g hg
  simpa using no

/-! ## Lexical documents -/

/-- The words of tokens. -/
def tokenWords (ts : List (Option Glyph)) : List Line :=
  lines [] (ts.flatMap (readAs fun g => [wordToken g]))

/-- The words of runs. -/
def runWords (runs : List Run) : List Line := runs.flatMap fun s => words (glyphs .run s.text)

lemma runWords_append (runs runs' : List Run) :
    runWords (runs ++ runs') = runWords runs ++ runWords runs' :=
  List.flatMap_append

lemma tokenWords_line (line : Line) : tokenWords (line.map some) = words line := by
  rw [tokenWords, words, List.flatMap_map]
  congr 1
  exact (List.map_eq_flatMap ..).symm

lemma refines_tokens_append {ts ts' : List (Option Glyph)} {ws ws' : List Line}
    (h : Refines (tokenWords ts) ws) (h' : Refines (tokenWords ts') ws') :
    Refines (tokenWords (ts ++ ts')) (ws ++ ws') := by
  rw [tokenWords, List.flatMap_append]
  exact h.lines_append h'

lemma tokenWords_block (ts : List (Option Glyph)) :
    tokenWords (none :: (ts ++ [none])) = tokenWords ts := by
  rw [tokenWords, tokenWords, List.flatMap_cons, List.flatMap_append]
  simp [readAs, lines, lines_none]

lemma words_eq_nil {line : Line} (h : ∀ g ∈ line, wordToken g = none) : words line = [] :=
  wordsFrom_none h []

lemma refines_line {line : Line} (h : ∀ g ∈ line, wordToken g = none) :
    Refines (tokenWords (line.map some)) [] := by
  rw [tokenWords_line, words_eq_nil h]
  exact .nil

lemma wordToken_mapText (attrs : Attrs) : ∀ g ∈ mapText attrs, wordToken g = none := by
  unfold mapText
  split <;> simp [wordToken]

lemma wordToken_decoratorText (attrs : Attrs) : ∀ g ∈ decoratorText attrs, wordToken g = none := by
  unfold decoratorText
  split
  · simp [glyphs, wordToken]
  · simp

/-- What is read of a block has the words of its runs. -/
lemma refines_readTokens (cs : List Chunk) {inside tab : Bool}
    (shaped : chunksShaped inside tab cs) :
    Refines (tokenWords (readTokens inside cs)) (runWords (chunksRuns cs)) := by
  induction cs using chunks_induction generalizing inside tab with
  | nil => exact .nil
  | map attrs cs ih => 
    exact refines_tokens_append (refines_line (wordToken_mapText attrs)) (ih shaped.2.2)
  | run s cs ih =>
    have one : Refines (tokenWords ((glyphs .run s.text).map some)) (runWords [s]) := by
      rw [tokenWords_line, runWords, List.flatMap_singleton]
      exact .refl _
    rw [readTokens, chunksRuns, runWords_append]
    exact refines_tokens_append one (ih shaped.2.2)
  | text attrs chunks cs inner ih =>
    rw [readTokens, chunksRuns, runWords_append, chunkRead_text shaped.2.1]
    refine refines_tokens_append ?_ (ih shaped.2.2)
    cases inline : isInlineLexicalType (typeOf attrs) with
    | true => exact inner (chunksShaped_text shaped.2.1 inline)
    | false =>
      rw [if_neg Bool.false_ne_true, tokenWords_block]
      exact inner (chunksShaped_text shaped.2.1 inline)
  | element attrs cs ih =>
    have none : Refines (tokenWords (chunkRead inside (.element attrs))) [] := by
      rw [chunkRead]
      split
      · exact .nil
      · exact refines_line (wordToken_decoratorText attrs)
    exact refines_tokens_append none (ih shaped.2.2)
  | other cs ih => exact ih shaped.2.2

lemma refines_rootRead {root : List Child} (shaped : LexicalShaped root) :
    Refines (tokenWords (rootRead root)) (runWords ((blocksOf root).flatMap chunksRuns)) := by
  have ended : ∀ {ts : List (Option Glyph)} {ws : List Line}, Refines (tokenWords ts) ws →
      Refines (tokenWords (ts ++ [none])) ws := by
    intro ts ws h
    have last : Refines (tokenWords [none]) [] := .nil
    simpa using refines_tokens_append h last
  induction root with
  | nil => exact .nil
  | cons child root ih =>
    have rest := ih fun c hc => shaped c (List.mem_cons_of_mem _ hc)
    rw [rootRead, List.flatMap_cons]
    cases child with
    | text t =>
      have blocks : blocksOf (.text t :: root) = t.chunks :: blocksOf root := rfl
      rw [blocks, List.flatMap_cons, runWords_append]
      exact refines_tokens_append (ended (refines_readTokens _ (shaped _ List.mem_cons_self))) rest
    | element e =>
      exact refines_tokens_append (ended (refines_line (wordToken_decoratorText e.attrs))) rest
    | fragment content => exact (shaped _ List.mem_cons_self).elim

lemma refines_lexical {root : List Child} (shaped : LexicalShaped root) :
    Refines (words (joinLines (lines [] (rootRead root))))
      (runWords ((blocksOf root).flatMap chunksRuns)) := by
  have split := lines_joinLines (f := fun g => [wordToken g]) rfl (rootRead root)
  rw [← List.map_eq_flatMap] at split
  rw [words, split]
  exact refines_rootRead shaped

lemma mem_glyphs {origin : Origin} {s : String} {g : Glyph} (h : g ∈ glyphs origin s) :
    g.origin = origin := by
  obtain ⟨c, -, rfl⟩ := List.mem_map.1 h
  rfl

/-- What is read of a Lexical document is its text, its decorators' and whitespace. -/
lemma mem_readTokens (cs : List Chunk) {inside : Bool} {g : Glyph}
    (h : some g ∈ readTokens inside cs) :
    g.isSpace = true ∨ g.origin = .run ∨ g.origin = .decorator := by
  have own : ∀ {origin : Origin} {s : String}, some g ∈ (glyphs origin s).map some →
      g.origin = origin := fun h => mem_glyphs (by simpa using h)
  induction cs using chunks_induction generalizing inside with
  | nil => simp [readTokens] at h
  | map attrs cs ih =>
    rw [readTokens, List.mem_append, chunkRead, mapText] at h
    rcases h with here | rest
    · left
      split at here
      · simp at here
        rw [here]
        rfl
      · simp at here
        rw [here]
        rfl
      · simp at here
    · exact ih rest
  | run s cs ih =>
    rw [readTokens, List.mem_append, chunkRead] at h
    rcases h with here | rest
    · exact .inr (.inl (own here))
    · exact ih rest
  | text attrs chunks cs inner ih =>
    rw [readTokens, List.mem_append, chunkRead] at h
    rcases h with here | rest
    · split at here
      · exact inner here
      · split at here
        · simp at here
          rw [here]
          exact .inl rfl
        · simp at here
          rw [here]
          exact .inl rfl
        · split at here
          · exact inner here
          · simp at here
            exact inner here
    · exact ih rest
  | element attrs cs ih =>
    rw [readTokens, List.mem_append, chunkRead, decoratorText] at h
    rcases h with here | rest
    · split at here
      · simp at here
      · split at here
        · exact .inr (.inr (own here))
        · simp at here
    · exact ih rest
  | other cs ih => exact ih (by simpa [readTokens, chunkRead] using h)

lemma mem_joinLines {ls : List Line} {g : Glyph} (h : g ∈ joinLines ls) :
    g = ⟨'\n', .separator⟩ ∨ ∃ line ∈ ls, g ∈ line := by
  unfold joinLines at h
  induction ls with
  | nil => simp at h
  | cons line ls ih =>
    cases ls with
    | nil => exact .inr ⟨line, List.mem_cons_self, by simpa using h⟩
    | cons next ls =>
      rw [List.intercalate_cons_cons, List.mem_append, List.mem_append] at h
      rcases h with (here | separator) | later
      · exact .inr ⟨line, List.mem_cons_self, here⟩
      · exact .inl (List.mem_singleton.1 separator)
      · rcases ih later with separator | ⟨line', hline', hg⟩
        · exact .inl separator
        · exact .inr ⟨line', List.mem_cons_of_mem _ hline', hg⟩

lemma mem_decoratorText {attrs : Attrs} {g : Glyph} (h : g ∈ decoratorText attrs) :
    g.origin = .decorator := by
  unfold decoratorText at h
  split at h
  · exact mem_glyphs h
  · cases h

lemma origin_rootRead {root : List Child} (shaped : LexicalShaped root) {g : Glyph}
    (h : g ∈ joinLines (lines [] (rootRead root))) (solid : ¬g.isSpace) :
    g.origin = .run ∨ g.origin = .decorator := by
  rcases mem_joinLines h with rfl | ⟨line, hline, hg⟩
  · exact absurd rfl solid
  · have read : some g ∈ rootRead root := by
      have mem : g ∈ (lines [] (rootRead root)).flatten := List.mem_flatten.2 ⟨line, hline, hg⟩
      rw [flatten_lines, List.nil_append] at mem
      exact List.reduceOption_mem_iff.1 mem
    obtain ⟨child, hchild, here⟩ := List.mem_flatMap.1 read
    cases child with
    | text t => exact (mem_readTokens t.chunks (by simpa [childRead] using here)).resolve_left solid
    | element e => exact .inr (mem_decoratorText (by simpa [childRead] using here))
    | fragment content => exact (shaped _ hchild).elim

/-! ## ProseMirror documents -/

lemma refines_words_append {xs ys : Line} {ws ws' : List Line} (h : Refines (words xs) ws)
    (h' : Refines (words ys) ws') : Refines (words (xs ++ ys)) (ws ++ ws') := by
  rw [words, List.map_append]
  exact h.lines_append h'

/-- What yrs prints of an element, its tags stripped. -/
def Printed.stripped : Printed → Line
  | .tag s => stripTags (ReadXml.glyphs .markup s)
  | .run s => ReadXml.glyphs .run s.text

lemma wordToken_tag (s : String) : ∀ g ∈ Printed.glyphs (.tag s), wordToken g = none := by
  intro g hg
  have markup : g.origin = .markup := mem_glyphs hg
  simp [wordToken, markup]

lemma wordToken_strippedTag (s : String) : ∀ g ∈ Printed.stripped (.tag s), wordToken g = none := by
  intro g hg
  cases space : g.isSpace with
  | true => exact wordToken_space space
  | false => exact wordToken_tag s g (mem_stripTagsFrom space hg)

/-- Between tags the words are those of the runs. -/
lemma refines_pieces {f : Printed → Line} (tags : ∀ s, ∀ g ∈ f (.tag s), wordToken g = none)
    (runs : ∀ s, f (.run s) = glyphs .run s.text) (pieces : List Printed) :
    Refines (words (pieces.flatMap f)) (runWords (pieces.filterMap Printed.run?)) := by
  induction pieces with
  | nil => exact .nil
  | cons p pieces ih =>
    rw [List.flatMap_cons]
    cases p with
    | tag s =>
      have none : Refines (words (f (.tag s))) [] := by
        rw [words_eq_nil (tags s)]
        exact .nil
      exact refines_words_append none ih
    | run s =>
      have one : Refines (words (f (.run s))) (runWords [s]) := by
        rw [runs, runWords, List.flatMap_singleton]
        exact .refl _
      have cut : (Printed.run s :: pieces).filterMap Printed.run? =
          [s] ++ pieces.filterMap Printed.run? := rfl
      rw [cut, runWords_append]
      exact refines_words_append one ih

lemma refines_elements {print : Print} {f : Printed → Line}
    (tags : ∀ s, ∀ g ∈ f (.tag s), wordToken g = none)
    (runs : ∀ s, f (.run s) = glyphs .run s.text) {root : List ProseMirrorHtml.XmlElement}
    (prints : ∀ e ∈ root, Prints (print e) e) :
    Refines (words (joinLines (root.map fun e => (print e).flatMap f)))
      (runWords (root.flatMap fun e => nodesRuns e.children)) := by
  have split := lines_flatMap_joinLines (f := fun g => [wordToken g]) rfl
    (root.map fun e => (print e).flatMap f)
  simp only [← List.map_eq_flatMap] at split
  rw [words, split, List.flatMap_map]
  clear split
  induction root with
  | nil => exact .nil
  | cons e root ih =>
    have one := refines_pieces tags runs (print e)
    rw [(prints e List.mem_cons_self).runs] at one
    rw [List.flatMap_cons, List.flatMap_cons, runWords_append]
    exact one.append (ih fun e' he' => prints e' (List.mem_cons_of_mem _ he'))

lemma xmlBlocksText_elements (getString : ProseMirrorHtml.XmlElement → Line)
    {root : List ProseMirrorHtml.XmlElement}
    (untyped : ∀ e ∈ root, e.attrs.containsKey "__type" = false) :
    xmlBlocksText getString (root.map .element) = joinLines (root.map getString) := by
  have fold : ∀ out : List Line, (root.map Child.element).foldl (childText getString) out =
      out ++ root.map getString := by
    induction root with
    | nil => simp
    | cons e root ih =>
      intro out
      have first : childText getString out (.element e) = out ++ [getString e] := by
        rw [childText, untyped e List.mem_cons_self]
        rfl
      rw [List.map_cons, List.foldl_cons, first,
        ih fun e' he' => untyped e' (List.mem_cons_of_mem _ he'), List.append_assoc]
      rfl
  exact congrArg joinLines (fold [])

/-- Text without a `<` stays. -/
lemma stripTags_text {line : Line} (h : ∀ g ∈ line, g.char ≠ '<') (rest : Line) :
    stripTags (line ++ rest) = line ++ stripTags rest := by
  induction line with
  | nil => rfl
  | cons g line ih =>
    have goes := ih fun g' hg' => h g' (List.mem_cons_of_mem _ hg')
    rw [stripTags] at goes ⊢
    rw [List.cons_append, stripTagsFrom, if_pos (show ([] : Line).isEmpty = true from rfl),
      if_neg (h g List.mem_cons_self), goes]
    rfl

/-- Behind a `>` nothing is held. -/
lemma stripTagsFrom_close {r : Glyph} (hr : r.char = '>') (line held rest : Line) :
    stripTagsFrom held (line ++ r :: rest) =
      stripTagsFrom held (line ++ [r]) ++ stripTags rest := by
  have close : ¬r.char = '<' := by rw [hr]; decide
  induction line generalizing held with
  | nil =>
    rw [List.nil_append, List.nil_append, stripTagsFrom, stripTagsFrom]
    split
    · rfl
    · rfl
  | cons g line ih =>
    rw [List.cons_append, List.cons_append, stripTagsFrom, stripTagsFrom]
    split
    · split
      · exact ih [g]
      · rw [ih [], List.cons_append]
    · split
      · rw [ih [], List.cons_append]
      · exact ih _

lemma char_glyphs {origin : Origin} {s : String} {c : Char} (h : c ∉ s.toList) :
    ∀ g ∈ glyphs origin s, g.char ≠ c := by
  rintro g hg rfl
  obtain ⟨c, hc, rfl⟩ := List.mem_map.1 hg
  exact h hc

/-- Without a `<` in its runs an element is stripped tag by tag. -/
lemma stripTags_pieces {pieces : List Printed}
    (tags : ∀ s, .tag s ∈ pieces → ∃ inner, s.toList = '<' :: (inner ++ ['>']))
    (runs : ∀ s, .run s ∈ pieces → '<' ∉ s.text.toList) (rest : Line) :
    stripTags (pieces.flatMap Printed.glyphs ++ rest) =
      pieces.flatMap Printed.stripped ++ stripTags rest := by
  induction pieces with
  | nil => rfl
  | cons p pieces ih =>
    have goes := ih (fun s hs => tags s (List.mem_cons_of_mem _ hs))
      fun s hs => runs s (List.mem_cons_of_mem _ hs)
    rw [List.flatMap_cons, List.flatMap_cons, List.append_assoc, List.append_assoc, ← goes]
    cases p with
    | run s => exact stripTags_text (char_glyphs (runs s List.mem_cons_self)) _
    | tag s =>
      obtain ⟨inner, hs⟩ := tags s List.mem_cons_self
      have ends : glyphs .markup s =
          (⟨'<', .markup⟩ :: inner.map (⟨·, .markup⟩)) ++ [⟨'>', .markup⟩] := by
        simp [glyphs, hs]
      rw [Printed.glyphs, Printed.stripped, ends, List.append_assoc, List.singleton_append]
      exact stripTagsFrom_close rfl _ [] _

lemma stripTags_elements {print : Print} {root : List ProseMirrorHtml.XmlElement}
    (prints : ∀ e ∈ root, Prints (print e) e)
    (runs : ∀ e ∈ root, ∀ s ∈ nodesRuns e.children, '<' ∉ s.text.toList) :
    stripTags (joinLines (root.map print.getString)) =
      joinLines (root.map fun e => (print e).flatMap Printed.stripped) := by
  have element : ∀ e ∈ root, ∀ rest, stripTags (print.getString e ++ rest) =
      (print e).flatMap Printed.stripped ++ stripTags rest := by
    intro e he rest
    refine stripTags_pieces (prints e he).tags (fun s hs => runs e he s ?_) rest
    rw [← (prints e he).runs]
    exact List.mem_filterMap.2 ⟨_, hs, rfl⟩
  clear prints runs
  unfold joinLines
  induction root with
  | nil => rfl
  | cons e root ih =>
    have goes := ih fun e' he' => element e' (List.mem_cons_of_mem _ he')
    cases root with
    | nil => simpa [stripTags, stripTagsFrom] using element e List.mem_cons_self []
    | cons next root =>
      rw [List.map_cons, List.map_cons, List.map_cons, List.map_cons, List.intercalate_cons_cons,
        List.intercalate_cons_cons, List.append_assoc, List.append_assoc,
        element e List.mem_cons_self, stripTags_text (by simp), ← List.map_cons, goes]
      rfl

lemma exists_joinLines {ls : List Line} {line : Line} (h : line ∈ ls) :
    ∃ before after, joinLines ls = before ++ (line ++ after) := by
  unfold joinLines
  induction ls with
  | nil => simp at h
  | cons first ls ih =>
    cases ls with
    | nil =>
      rw [List.mem_singleton.1 h]
      exact ⟨[], [], by simp⟩
    | cons next ls =>
      rw [List.intercalate_cons_cons]
      rcases List.mem_cons.1 h with rfl | later
      · exact ⟨[], _, by rw [List.nil_append, List.append_assoc]⟩
      · obtain ⟨before, after, split⟩ := ih later
        exact ⟨first ++ [⟨'\n', .separator⟩] ++ before, after, by rw [split]; simp⟩

/-- The first `>`. -/
lemma exists_close {text : Line} {g : Glyph} (h : g ∈ text) (hg : g.char = '>') :
    ∃ mid r post, text = mid ++ r :: post ∧ r.char = '>' ∧ ∀ m ∈ mid, m.char ≠ '>' := by
  induction text with
  | nil => simp at h
  | cons first text ih =>
    by_cases close : first.char = '>'
    · exact ⟨[], first, text, rfl, close, by simp⟩
    · rcases List.mem_cons.1 h with rfl | later
      · exact absurd hg close
      · obtain ⟨mid, r, post, rfl, hr, hmid⟩ := ih later
        exact ⟨first :: mid, r, post, rfl, hr, List.forall_mem_cons.2 ⟨close, hmid⟩⟩

/-- A `<` in a run reaches into the next tag. -/
lemma runs_of_unbracketed {print : Print} {root : List ProseMirrorHtml.XmlElement}
    (prints : ∀ e ∈ root, Prints (print e) e)
    (h : Unbracketed (joinLines (root.map print.getString))) :
    ∀ e ∈ root, ∀ s ∈ nodesRuns e.children, '<' ∉ s.text.toList := by
  intro e he s hs open'
  obtain ⟨before, after, joined⟩ := exists_joinLines (List.mem_map_of_mem (f := print.getString) he)
  obtain ⟨opening, tag, pieces⟩ := (prints e he).closed
  obtain ⟨inner, htag⟩ := (prints e he).tags tag (by rw [pieces]; simp)
  have run : .run s ∈ opening := by
    rw [← (prints e he).runs] at hs
    obtain ⟨p, hp, run⟩ := List.mem_filterMap.1 hs
    cases p with
    | tag t => simp [Printed.run?] at run
    | run s' =>
      obtain rfl : s' = s := Option.some.inj run
      simpa [pieces] using hp
  obtain ⟨a, b, rfl⟩ := List.append_of_mem run
  obtain ⟨u, v, text⟩ := List.append_of_mem open'
  have whole : ∃ rest, joinLines (root.map print.getString) =
      before ++ a.flatMap Printed.glyphs ++ u.map (⟨·, .run⟩) ++ ⟨'<', .run⟩ :: rest ∧
        ⟨'>', .markup⟩ ∈ rest := by
    refine ⟨v.map (⟨·, .run⟩) ++ b.flatMap Printed.glyphs ++ glyphs .markup tag ++ after, ?_, ?_⟩
    · rw [joined, Print.getString, pieces]
      simp [Printed.glyphs, glyphs, text]
    · simp [glyphs, htag]
  obtain ⟨rest, split, close⟩ := whole
  obtain ⟨mid, r, post, rfl, hr, hmid⟩ := exists_close close rfl
  have lost := h _ _ mid r post split rfl hr hmid ⟨'<', .run⟩ List.mem_cons_self
  simp [wordToken, Glyph.isSpace] at lost

/-! ## Every document -/

lemma refines_runs (runs : List Run) :
    Refines (words (runs.flatMap fun s => glyphs .run s.text)) (runWords runs) := by
  induction runs with
  | nil => exact .nil
  | cons s runs ih => exact refines_words_append (.refl _) ih

lemma decoderText_text (print : Print) (runs : List Run) :
    words (decoderText print (.text runs)) = words (runs.flatMap fun s => glyphs .run s.text) ∧
      ∀ g ∈ decoderText print (.text runs), ¬g.isSpace → g.origin = .run := by
  by_cases blank : strip (runs.flatMap fun s => glyphs .run s.text) = []
  · have text : decoderText print (.text runs) = normalize (stripTags []) := by
      simp [decoderText, Document.readText, Document.readXml, blank]
    rw [text, words_normalize, ← words_strip (runs.flatMap _), blank]
    refine ⟨rfl, fun g hg solid => ?_⟩
    rw [mem_normalize (by simpa using solid)] at hg
    cases hg
  · have text : decoderText print (.text runs) =
        normalize (runs.flatMap fun s => glyphs .run s.text) := by
      simp [decoderText, Document.readText, blank]
    rw [text]
    refine ⟨words_normalize _, fun g hg solid => ?_⟩
    rw [mem_normalize (by simpa using solid)] at hg
    obtain ⟨s, -, here⟩ := List.mem_flatMap.1 hg
    exact mem_glyphs here

lemma keepsWords_text (print : Print) (runs : List Run) : KeepsWords print (.text runs) where
  words := appear_of_words (refines_runs runs) (decoderText_text print runs).1
  only g hg solid := .inl ((decoderText_text print runs).2 g hg solid)

lemma keepsWords_lexical (print : Print) {root : List Child} (shaped : LexicalShaped root) :
    KeepsWords print (.lexical root) ↔ (Document.lexical root).Safe print := by
  have text : decoderText print (.lexical root) =
      normalize (stripTags (joinLines (lines [] (rootRead root)))) := by
    rw [← xmlBlocksText_eq print.getString shaped]
    rfl
  constructor
  · intro keeps
    exact unbracketed_of_appear (refines_lexical shaped) (text ▸ keeps.words)
  · intro safe
    constructor
    · refine appear_of_words (refines_lexical shaped) ?_
      rw [text, words_normalize, words_stripTags safe]
    · intro g hg solid
      rw [text, mem_normalize (by simpa using solid)] at hg
      exact origin_rootRead shaped (mem_stripTagsFrom (by simpa using solid) hg) solid


lemma keepsWords_proseMirror {print : Print} {root : List ProseMirrorHtml.XmlElement}
    (shaped : (Document.proseMirror root).Shaped print) :
    KeepsWords print (.proseMirror root) ↔ (Document.proseMirror root).Safe print := by
  have prints : ∀ e ∈ root, Prints (print e) e := fun e he => (shaped e he).2
  have text : decoderText print (.proseMirror root) =
      normalize (stripTags (joinLines (root.map print.getString))) := by
    rw [← xmlBlocksText_elements print.getString fun e he => (shaped e he).1]
    rfl
  constructor
  · intro keeps e he
    have cut : Refines (words (joinLines (root.map print.getString)))
        (Document.proseMirror root).words :=
      refines_elements (f := Printed.glyphs) wordToken_tag (fun _ => rfl) prints
    have runs := runs_of_unbracketed prints (unbracketed_of_appear cut (text ▸ keeps.words))
    refine ⟨runs e he, fun s hs g hg => ?_⟩
    -- What is left of a tag has no other source.
    by_contra solid
    have blank : g.isSpace = false := by simpa using solid
    have mem : g ∈ decoderText print (.proseMirror root) := by
      obtain ⟨before, after, joined⟩ := exists_joinLines
        (List.mem_map_of_mem (f := fun e => (print e).flatMap Printed.stripped) he)
      have here : g ∈ (print e).flatMap Printed.stripped := List.mem_flatMap.2 ⟨_, hs, hg⟩
      rw [text, mem_normalize blank, stripTags_elements prints runs, joined]
      simp [here]
    have markup : g.origin = .markup := mem_glyphs (mem_stripTagsFrom blank hg)
    rcases keeps.only g mem solid with run | decorator
    · simp [markup] at run
    · simp [markup] at decorator
  · intro safe
    have stripped := stripTags_elements prints fun e he => (safe e he).1
    constructor
    · have cut : Refines (words (joinLines (root.map fun e => (print e).flatMap Printed.stripped)))
          (Document.proseMirror root).words :=
        refines_elements wordToken_strippedTag (fun _ => rfl) prints
      refine appear_of_words cut ?_
      rw [text, words_normalize, stripped]
    · intro g hg solid
      rw [text, mem_normalize (by simpa using solid), stripped] at hg
      rcases mem_joinLines hg with rfl | ⟨line, hline, here⟩
      · exact absurd rfl solid
      · obtain ⟨e, he, rfl⟩ := List.mem_map.1 hline
        obtain ⟨p, hp, hg⟩ := List.mem_flatMap.1 here
        cases p with
        | tag s => exact absurd ((safe e he).2 s hp g hg) solid
        | run s => exact .inl (mem_glyphs hg)

/-- A word is lost exactly when a stored `<` reaches a `>`, and a tag's own text stays exactly when
it holds a `>`. -/
theorem keepsWords_iff (print : Print) (doc : Document) (shaped : doc.Shaped print) :
    KeepsWords print doc ↔ doc.Safe print := by
  cases doc with
  | text runs => exact iff_of_true (keepsWords_text print runs) trivial
  | lexical root => exact keepsWords_lexical print shaped
  | proseMirror root => exact keepsWords_proseMirror shaped

/-- A Lexical paragraph "a<b>c". -/
def bracketed : Document :=
  .lexical [.text ⟨[], [.run ⟨"a<b>c", by decide⟩]⟩]

lemma bracketed_shaped (print : Print) : bracketed.Shaped print := by
  intro child h
  obtain rfl := List.mem_singleton.1 h
  exact ⟨nofun, trivial, rfl⟩

theorem keepsWords_iff_bracketed :
    KeepsWords (fun _ => []) bracketed ↔ bracketed.Safe fun _ => [] :=
  keepsWords_iff _ bracketed (bracketed_shaped _)

/-- A paragraph without tags loses a word as a tag. -/
theorem bracketed_lost :
    bracketed.Shaped (fun _ => []) ∧ ¬KeepsWords (fun _ => []) bracketed ∧
      bracketed.words.map (·.map Glyph.char) = ["a<b>c".toList] ∧
      (decoderText (fun _ => []) bracketed).map Glyph.char = "a c".toList := by
  refine ⟨bracketed_shaped _, fun keeps => ?_, by decide, by decide⟩
  have short := keeps.words.sublist.length_le
  have long : ¬bracketed.words.flatten.length ≤ (decoderText (fun _ => []) bracketed).length := by
    decide
  exact long short

end ReadXml

end Yrby
