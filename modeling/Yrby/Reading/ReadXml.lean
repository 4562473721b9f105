import Yrby.Framework.Lines
import Yrby.Render.ProseMirrorHtml
import Yrby.Render.LexicalHtml

/-!
# Reading text (`read.rs`)

`read_xml` walks the blocks of a Lexical root: runs gather in a line, inline children join it, block
children end it.  Every character is read together with what it stands for (`Glyph`), so that a
character of the text that is read can be told from a character of the document.

What the document says is `docTokens`: a tab node is one tab, wherever its map and its character
are; a decorator has its readable text, wherever it stands.  The walk agrees with that as long as
there is no tab node, which it reads twice, and no decorator with a text inside a link, which it
skips (`readsExactly_iff`).
-/

namespace Yrby

namespace ReadXml

open HtmlCore LexicalHtml Lines

/-! ## The document -/

/-- What a character of a text that is read stands for. -/
inductive Origin
  | run
  | linebreak
  | tab
  | decorator
  /-- Put between two lines. -/
  | separator
  /-- Printed by yrs: a tag. -/
  | markup
  deriving DecidableEq

structure Glyph where
  char : Char
  origin : Origin
  deriving DecidableEq

abbrev Line := List Glyph

/-- The characters of a string. -/
def glyphs (origin : Origin) (s : String) : Line := s.toList.map (⟨·, origin⟩)

/-- A child of a root. -/
inductive Child
  | text (t : XmlText)
  | element (e : ProseMirrorHtml.XmlElement)
  | fragment (content : Line)

/-! ## The functions -/

/-- `is_inline_lexical_type` -/
def isInlineLexicalType (ty : String) : Bool :=
  ty ∈ ["text", "link", "autolink", "linebreak", "tab", "hashtag", "mark", "overflow"]

/-- `lexical_decorator_text` -/
def lexicalDecoratorText (attrs : Attrs) : Option String :=
  let attr name := (strAttr attrs name).filter (· ≠ "")
  match strAttr attrs "__type" with
  | some "custom_action_text_attachment" => attr "plainText"
  | some "action_text_attachment" =>
    (attr "caption").or ((attr "altText").or (attr "fileName"))
  | _ => none

/-- What a node map adds to a line. -/
def mapText (attrs : Attrs) : Line :=
  match typeOf attrs with
  | "linebreak" => [⟨'\n', .linebreak⟩]
  | "tab" => [⟨'\t', .tab⟩]
  | _ => []

/-- What a decorator adds to a line. -/
def decoratorText (attrs : Attrs) : Line :=
  match lexicalDecoratorText attrs with
  | some text => glyphs .decorator text
  | none => []

mutual

/-- One entry of `inline_lexical_text`. -/
def inlineChunk : Chunk → Line
  | .run s => glyphs .run s.text
  | .text _ chunks => inlineLexicalText chunks
  | .map attrs => mapText attrs
  | .element _ => []
  | .other => []

/-- `inline_lexical_text` -/
def inlineLexicalText : List Chunk → Line
  | [] => []
  | c :: cs => inlineChunk c ++ inlineLexicalText cs

end

/-- The line so far, and the lines before it. -/
structure Walk where
  line : Line
  out : List Line

/-- Push the line unless it is empty. -/
def Walk.push (w : Walk) : List Line := if w.line.isEmpty then w.out else w.out ++ [w.line]

mutual

/-- One entry of `walk_lexical_block`. -/
def walkChunk (w : Walk) : Chunk → Walk
  | .run s => { w with line := w.line ++ glyphs .run s.text }
  | .map attrs => { w with line := w.line ++ mapText attrs }
  | .text attrs chunks =>
    match typeOf attrs with
    | "linebreak" => { w with line := w.line ++ [⟨'\n', .linebreak⟩] }
    | "tab" => { w with line := w.line ++ [⟨'\t', .tab⟩] }
    | ty =>
      if isInlineLexicalType ty then { w with line := w.line ++ inlineLexicalText chunks }
      else ⟨[], (walkChunks ⟨[], w.push⟩ chunks).push⟩
  | .element attrs => { w with line := w.line ++ decoratorText attrs }
  | .other => w

/-- The loop of `walk_lexical_block`. -/
def walkChunks (w : Walk) : List Chunk → Walk
  | [] => w
  | c :: cs => walkChunks (walkChunk w c) cs

end

/-- `walk_lexical_block` -/
def walkLexicalBlock (chunks : List Chunk) (out : List Line) : List Line :=
  (walkChunks ⟨[], out⟩ chunks).push

/-- The loop of `xml_blocks_text`; `getString` is what yrs prints of an element. -/
def childText (getString : ProseMirrorHtml.XmlElement → Line) (out : List Line) :
    Child → List Line
  | .text t => walkLexicalBlock t.chunks out
  | .element e =>
    if !e.attrs.containsKey "__type" then out ++ [getString e]
    else
      match lexicalDecoratorText e.attrs with
      | some text => out ++ [glyphs .decorator text]
      | none => out
  | .fragment content => out ++ [content]

/-- `out.join("\n")` -/
def joinLines (out : List Line) : Line := [⟨'\n', .separator⟩].intercalate out

/-- `xml_blocks_text` -/
def xmlBlocksText (getString : ProseMirrorHtml.XmlElement → Line) (root : List Child) : Line :=
  joinLines (root.foldl (childText getString) [])

/-! ## What the document says -/

def isTab : Chunk → Bool
  | .map attrs => typeOf attrs = "tab"
  | _ => false

mutual

/-- A block's text, `none` being a place where a block begins or ends.  `tab` says that the chunk is
the character of a tab node, whose map stands before it. -/
def chunkTokens (tab : Bool) : Chunk → List (Option Glyph)
  | .run s => if tab then [] else (glyphs .run s.text).map some
  | .map attrs => (mapText attrs).map some
  | .text attrs chunks =>
    if isInlineLexicalType (typeOf attrs) then docTokens false chunks
    else none :: (docTokens false chunks ++ [none])
  | .element attrs => (decoratorText attrs).map some
  | .other => []

def docTokens (tab : Bool) : List Chunk → List (Option Glyph)
  | [] => []
  | c :: cs => chunkTokens tab c ++ docTokens (isTab c) cs

end

/-- A child's text. -/
def childTokens : Child → List (Option Glyph)
  | .text t => docTokens false t.chunks ++ [none]
  | .element e => (decoratorText e.attrs).map some ++ [none]
  | .fragment content => content.map some ++ [none]

/-- The text of a root. -/
def rootTokens (root : List Child) : List (Option Glyph) := root.flatMap childTokens

/-! ## Lexical's documents -/

mutual

/-- What Lexical stores: linebreaks and tabs are maps, and inline nodes hold inline nodes. -/
def chunkShaped (inside : Bool) : Chunk → Prop
  | .text attrs chunks =>
    typeOf attrs ≠ "linebreak" ∧ typeOf attrs ≠ "tab" ∧
      (inside → isInlineLexicalType (typeOf attrs)) ∧
      chunksShaped (isInlineLexicalType (typeOf attrs)) false chunks
  | _ => True

/-- After the map of a tab node stands its character. -/
def chunksShaped (inside tab : Bool) : List Chunk → Prop
  | [] => tab = false
  | c :: cs =>
    (tab → ∃ s : Run, c = .run s ∧ s.text = "\t") ∧ chunkShaped inside c ∧
      chunksShaped inside (isTab c) cs

end

/-- A root as Lexical stores it: its elements are decorators. -/
def LexicalShaped (root : List Child) : Prop :=
  ∀ child ∈ root,
    match child with
    | .text t => chunksShaped false false t.chunks
    | .element e => e.attrs.containsKey "__type"
    | .fragment _ => False

mutual

/-- The tab nodes of a block. -/
def chunkTabs : Chunk → List Attrs
  | .map attrs => if typeOf attrs = "tab" then [attrs] else []
  | .text _ chunks => tabNodes chunks
  | _ => []

def tabNodes : List Chunk → List Attrs
  | [] => []
  | c :: cs => chunkTabs c ++ tabNodes cs

end

mutual

/-- The decorators inside an inline node. -/
def chunkInlineDecorators (inside : Bool) : Chunk → List Attrs
  | .element attrs => if inside then [attrs] else []
  | .text attrs chunks => inlineDecorators (inside || isInlineLexicalType (typeOf attrs)) chunks
  | _ => []

def inlineDecorators (inside : Bool) : List Chunk → List Attrs
  | [] => []
  | c :: cs => chunkInlineDecorators inside c ++ inlineDecorators inside cs

end

/-- The chunks of a root's blocks. -/
def blocksOf (root : List Child) : List (List Chunk) :=
  root.filterMap fun child =>
    match child with
    | .text t => some t.chunks
    | _ => none

/-- The text that is read is the text of the document: every character once, in order, lines apart,
and nothing else. -/
def ReadsExactly (getString : ProseMirrorHtml.XmlElement → Line) (root : List Child) : Prop :=
  xmlBlocksText getString root = joinLines (lines [] (rootTokens root))

/-- Nothing is read twice or skipped: no tab node, no decorator with a text inside an inline
node. -/
def Plain (root : List Child) : Prop :=
  (∀ chunks ∈ blocksOf root, tabNodes chunks = []) ∧
    ∀ chunks ∈ blocksOf root, ∀ attrs ∈ inlineDecorators false chunks,
      lexicalDecoratorText attrs = none

/-! ## The walk -/

/-- Induction on a block's content. -/
lemma chunks_induction {P : List Chunk → Prop} (nil : P [])
    (map : ∀ attrs cs, P cs → P (.map attrs :: cs)) (run : ∀ s cs, P cs → P (.run s :: cs))
    (text : ∀ attrs chunks cs, P chunks → P cs → P (.text attrs chunks :: cs))
    (element : ∀ attrs cs, P cs → P (.element attrs :: cs))
    (other : ∀ cs, P cs → P (.other :: cs)) : ∀ cs, P cs
  | [] => nil
  | .map attrs :: cs => map attrs cs (chunks_induction nil map run text element other cs)
  | .run s :: cs => run s cs (chunks_induction nil map run text element other cs)
  | .text attrs chunks :: cs =>
    text attrs chunks cs (chunks_induction nil map run text element other chunks)
      (chunks_induction nil map run text element other cs)
  | .element attrs :: cs => element attrs cs (chunks_induction nil map run text element other cs)
  | .other :: cs => other cs (chunks_induction nil map run text element other cs)

mutual

/-- What the walk reads of a block, `inside` an inline node or not. -/
def chunkRead (inside : Bool) : Chunk → List (Option Glyph)
  | .run s => (glyphs .run s.text).map some
  | .map attrs => (mapText attrs).map some
  | .text attrs chunks =>
    if inside then readTokens true chunks
    else
      match typeOf attrs with
      | "linebreak" => [some ⟨'\n', .linebreak⟩]
      | "tab" => [some ⟨'\t', .tab⟩]
      | ty =>
        if isInlineLexicalType ty then readTokens true chunks
        else none :: (readTokens false chunks ++ [none])
  | .element attrs => if inside then [] else (decoratorText attrs).map some
  | .other => []

def readTokens (inside : Bool) : List Chunk → List (Option Glyph)
  | [] => []
  | c :: cs => chunkRead inside c ++ readTokens inside cs

end

lemma inlineLexicalText_tokens (cs : List Chunk) :
    (inlineLexicalText cs).map some = readTokens true cs := by
  induction cs using chunks_induction with
  | nil => rfl
  | map attrs cs ih => rw [inlineLexicalText, readTokens, List.map_append, ih]; rfl
  | run s cs ih => rw [inlineLexicalText, readTokens, List.map_append, ih]; rfl
  | text attrs chunks cs inner ih =>
    rw [inlineLexicalText, readTokens, List.map_append, ih, inlineChunk, inner]
    rfl
  | element attrs cs ih => rw [inlineLexicalText, readTokens, List.map_append, ih]; rfl
  | other cs ih => rw [inlineLexicalText, readTokens, List.map_append, ih]; rfl

lemma Walk.push_eq (w : Walk) : w.push = w.out ++ flush w.line := by
  unfold Walk.push flush
  split <;> simp

/-- The walk makes lines of what it reads: nothing depends on where it stands. -/
lemma walkChunks_tokens (cs : List Chunk) (w : Walk) (ts : List (Option Glyph)) :
    (walkChunks w cs).out ++ lines (walkChunks w cs).line ts =
      w.out ++ lines w.line (readTokens false cs ++ ts) := by
  -- Text joins the line.
  have joins : ∀ (more : Line) (cs : List Chunk), (∀ (w : Walk) ts,
      (walkChunks w cs).out ++ lines (walkChunks w cs).line ts =
        w.out ++ lines w.line (readTokens false cs ++ ts)) → ∀ (w : Walk) ts,
      (walkChunks { w with line := w.line ++ more } cs).out ++
          lines (walkChunks { w with line := w.line ++ more } cs).line ts =
        w.out ++ lines w.line (more.map some ++ readTokens false cs ++ ts) := by
    intro more cs ih w ts
    rw [ih, List.append_assoc, lines_some]
  induction cs using chunks_induction generalizing w ts with
  | nil => rfl
  | map attrs cs ih => exact joins _ cs ih w ts
  | run s cs ih => exact joins _ cs ih w ts
  | text attrs chunks cs inner ih =>
    rw [walkChunks, readTokens, walkChunk, chunkRead, if_neg Bool.false_ne_true]
    split
    · exact joins _ cs ih w ts
    · exact joins _ cs ih w ts
    · split
      · rw [← inlineLexicalText_tokens]
        exact joins _ cs ih w ts
      · have block := inner ⟨[], w.push⟩ []
        rw [List.append_nil] at block
        rw [ih, Walk.push_eq (walkChunks _ _)]
        dsimp only at block ⊢
        rw [show flush (walkChunks ⟨[], w.push⟩ chunks).line =
          lines (walkChunks ⟨[], w.push⟩ chunks).line [] from rfl, block, Walk.push_eq]
        simp only [List.cons_append, List.append_assoc, List.nil_append, lines, lines_none]
  | element attrs cs ih => exact joins _ cs ih w ts
  | other cs ih => exact ih w ts

/-- A block is read into the lines of its tokens. -/
lemma walkLexicalBlock_eq (chunks : List Chunk) (out : List Line) :
    walkLexicalBlock chunks out = out ++ lines [] (readTokens false chunks) := by
  have walk := walkChunks_tokens chunks ⟨[], out⟩ []
  rw [List.append_nil] at walk
  rw [walkLexicalBlock, Walk.push_eq]
  exact walk

/-- What is read of a child. -/
def childRead : Child → List (Option Glyph)
  | .text t => readTokens false t.chunks ++ [none]
  | .element e => (decoratorText e.attrs).map some ++ [none]
  | .fragment content => content.map some ++ [none]

def rootRead (root : List Child) : List (Option Glyph) := root.flatMap childRead

lemma lexicalDecoratorText_ne {attrs : Attrs} {text : String}
    (h : lexicalDecoratorText attrs = some text) : text ≠ "" := by
  have attr : ∀ name, (strAttr attrs name).filter (· ≠ "") = some text → text ≠ "" := by
    intro name hname
    simpa using (Option.filter_eq_some_iff.1 hname).2
  unfold lexicalDecoratorText at h
  dsimp only at h
  split at h
  · exact attr _ h
  · rcases Option.or_eq_some_iff.1 h with first | ⟨-, rest⟩
    · exact attr _ first
    · rcases Option.or_eq_some_iff.1 rest with second | ⟨-, third⟩
      · exact attr _ second
      · exact attr _ third
  · simp at h

lemma glyphs_ne_nil {origin : Origin} {s : String} (h : s ≠ "") : glyphs origin s ≠ [] := by
  simpa [glyphs] using h

/-- A Lexical root is read into the lines of its tokens. -/
lemma xmlBlocksText_eq (getString : ProseMirrorHtml.XmlElement → Line) {root : List Child}
    (shaped : LexicalShaped root) :
    xmlBlocksText getString root = joinLines (lines [] (rootRead root)) := by
  have fold : ∀ (root : List Child) (out : List Line), LexicalShaped root →
      root.foldl (childText getString) out = out ++ lines [] (rootRead root) := by
    intro root
    induction root with
    | nil => intro out _; simp [rootRead, lines]
    | cons child root ih =>
      intro out shaped
      have cut : lines [] (rootRead (child :: root)) =
          lines [] (childRead child) ++ lines [] (rootRead root) := by
        have ended : ∃ ts, childRead child = ts ++ [none] := by
          cases child <;> exact ⟨_, rfl⟩
        obtain ⟨ts, hts⟩ := ended
        rw [rootRead, List.flatMap_cons, hts, List.append_assoc, List.singleton_append,
          lines_none, lines_none]
        simp [lines, rootRead]
      have one : childText getString out child = out ++ lines [] (childRead child) := by
        cases child with
        | text t =>
          rw [childText, walkLexicalBlock_eq, childRead, lines_none]
          simp [lines]
        | element e =>
          have typed : e.attrs.containsKey "__type" := shaped _ List.mem_cons_self
          rw [childText, typed, childRead, lines_some, decoratorText]
          cases text : lexicalDecoratorText e.attrs with
          | none => simp [lines]
          | some text' =>
            have full : glyphs .decorator text' ≠ [] :=
              glyphs_ne_nil (lexicalDecoratorText_ne text)
            simp [lines, flush, full]
        | fragment content => exact (shaped _ List.mem_cons_self).elim
      rw [List.foldl_cons, one, ih _ fun c hc => shaped c (List.mem_cons_of_mem _ hc), cut,
        List.append_assoc]
  exact congrArg joinLines (fold root [] shaped)

/-! ## Reading and saying -/

/-- How many characters stand for this. -/
def count (origin : Origin) (ts : List (Option Glyph)) : ℕ :=
  ts.reduceOption.countP (·.origin = origin)

@[simp] lemma count_nil (origin : Origin) : count origin [] = 0 := rfl

@[simp] lemma count_append (origin : Origin) (xs ys : List (Option Glyph)) :
    count origin (xs ++ ys) = count origin xs + count origin ys := by
  rw [count, List.reduceOption_append, List.countP_append]
  rfl

@[simp] lemma count_none (origin : Origin) (ts : List (Option Glyph)) :
    count origin (none :: ts) = count origin ts := by
  rw [count, List.reduceOption_cons_of_none]
  rfl

lemma count_map_some (origin : Origin) (line : Line) :
    count origin (line.map some) = line.countP (·.origin = origin) := by
  rw [count, List.reduceOption, List.filterMap_map]
  simp

lemma count_glyphs (origin other : Origin) (s : String) :
    count origin ((glyphs other s).map some) = if other = origin then s.toList.length else 0 := by
  rw [count_map_some, glyphs, List.countP_map]
  split <;> rename_i h <;> simp [Function.comp_def, h]

/-- In Lexical's documents a nested text is an inline node or a block. -/
lemma chunkRead_text {inside : Bool} {attrs : Attrs} {chunks : List Chunk}
    (shaped : chunkShaped inside (.text attrs chunks)) :
    chunkRead inside (.text attrs chunks) =
      if isInlineLexicalType (typeOf attrs) then readTokens true chunks
      else none :: (readTokens false chunks ++ [none]) := by
  obtain ⟨noLinebreak, noTab, inline, -⟩ := shaped
  rw [chunkRead]
  cases inside with
  | true => rw [if_pos rfl, if_pos (inline rfl)]
  | false =>
    rw [if_neg Bool.false_ne_true]
    split
    · exact absurd ‹_› noLinebreak
    · exact absurd ‹_› noTab
    · rfl

lemma count_mapText (origin : Origin) (attrs : Attrs) (h : origin = .run ∨ origin = .decorator) :
    count origin ((mapText attrs).map some) = 0 := by
  rw [count_map_some, mapText]
  rcases h with rfl | rfl <;> split <;> rfl

@[simp] lemma isTab_run (s : Run) : isTab (.run s) = false := rfl
@[simp] lemma isTab_text (attrs : Attrs) (cs : List Chunk) : isTab (.text attrs cs) = false := rfl
@[simp] lemma isTab_element (attrs : Attrs) : isTab (.element attrs) = false := rfl
@[simp] lemma isTab_other : isTab .other = false := rfl

@[simp] lemma chunkTabs_run (s : Run) : chunkTabs (.run s) = [] := rfl
@[simp] lemma chunkTabs_text (attrs : Attrs) (cs : List Chunk) :
    chunkTabs (.text attrs cs) = tabNodes cs := rfl
@[simp] lemma chunkTabs_element (attrs : Attrs) : chunkTabs (.element attrs) = [] := rfl
@[simp] lemma chunkTabs_other : chunkTabs .other = [] := rfl

@[simp] lemma chunkInlineDecorators_run (inside : Bool) (s : Run) :
    chunkInlineDecorators inside (.run s) = [] := rfl
@[simp] lemma chunkInlineDecorators_map (inside : Bool) (attrs : Attrs) :
    chunkInlineDecorators inside (.map attrs) = [] := rfl
@[simp] lemma chunkInlineDecorators_other (inside : Bool) :
    chunkInlineDecorators inside .other = [] := rfl

/-- Only a run is the character of a tab node. -/
lemma tab_eq_false {tab : Bool} {c : Chunk}
    (after : tab → ∃ s : Run, c = .run s ∧ s.text = "\t") (h : ∀ s, c ≠ .run s) :
    tab = false := by
  cases tab with
  | false => rfl
  | true =>
    obtain ⟨s, hs, -⟩ := after rfl
    exact absurd hs (h s)

/-- The content of a nested text has the shape of its kind. -/
lemma chunksShaped_text {inside inline : Bool} {attrs : Attrs} {chunks : List Chunk}
    (shaped : chunkShaped inside (.text attrs chunks))
    (h : isInlineLexicalType (typeOf attrs) = inline) : chunksShaped inline false chunks :=
  h ▸ shaped.2.2.2

/-- The walk reads one run more for every tab node. -/
lemma count_run (cs : List Chunk) {inside tab : Bool} (shaped : chunksShaped inside tab cs) :
    count .run (readTokens inside cs) =
      count .run (docTokens tab cs) + (tabNodes cs).length + tab.toNat := by
  induction cs using chunks_induction generalizing inside tab with
  | nil =>
    obtain rfl : tab = false := shaped
    rfl
  | map attrs cs ih =>
    obtain ⟨after, -, rest⟩ := shaped
    obtain rfl := tab_eq_false after (by simp)
    rw [readTokens, docTokens, tabNodes, count_append, count_append, ih rest, chunkRead,
      chunkTokens, count_mapText _ _ (.inl rfl), chunkTabs, isTab]
    by_cases tabbed : typeOf attrs = "tab"
    · simp [tabbed]
      omega
    · simp [tabbed]
  | run s cs ih =>
    obtain ⟨after, -, rest⟩ := shaped
    rw [readTokens, docTokens, tabNodes, count_append, count_append, ih rest, chunkRead,
      chunkTokens, count_glyphs]
    cases tab with
    | false =>
      simp [count_glyphs]
      omega
    | true =>
      obtain ⟨s', hs, one⟩ := after rfl
      cases hs
      simp [one]
      omega
  | text attrs chunks cs inner ih =>
    obtain ⟨after, shape, rest⟩ := shaped
    obtain rfl := tab_eq_false after (by simp)
    rw [readTokens, docTokens, tabNodes, count_append, count_append, ih rest,
      chunkRead_text shape, chunkTokens]
    cases inline : isInlineLexicalType (typeOf attrs) with
    | true =>
      have content := inner (chunksShaped_text shape inline)
      simp only [if_true, content, chunkTabs_text, isTab_text, List.length_append]
      simp
      omega
    | false =>
      have content := inner (chunksShaped_text shape inline)
      simp [content]
      omega
  | element attrs cs ih =>
    obtain ⟨after, -, rest⟩ := shaped
    obtain rfl := tab_eq_false after (by simp)
    have none : count .run ((decoratorText attrs).map some) = 0 := by
      rw [decoratorText]
      split <;> simp [count_glyphs]
    rw [readTokens, docTokens, tabNodes, count_append, count_append, ih rest, chunkRead,
      chunkTokens, none]
    cases inside <;> simp [none]
  | other cs ih =>
    obtain ⟨after, -, rest⟩ := shaped
    obtain rfl := tab_eq_false after (by simp)
    rw [readTokens, docTokens, tabNodes, count_append, count_append, ih rest]
    simp [chunkRead, chunkTokens]

/-- The walk reads no decorator inside an inline node. -/
lemma count_decorator (cs : List Chunk) {inside tab : Bool} (shaped : chunksShaped inside tab cs) :
    count .decorator (docTokens tab cs) = count .decorator (readTokens inside cs) +
      ((inlineDecorators inside cs).map fun attrs => (decoratorText attrs).length).sum := by
  induction cs using chunks_induction generalizing inside tab with
  | nil => rfl
  | map attrs cs ih =>
    obtain ⟨-, -, rest⟩ := shaped
    rw [readTokens, docTokens, inlineDecorators, count_append, count_append, ih rest, chunkRead,
      chunkTokens]
    simp
    omega
  | run s cs ih =>
    obtain ⟨-, -, rest⟩ := shaped
    rw [readTokens, docTokens, inlineDecorators, count_append, count_append, ih rest, chunkRead,
      chunkTokens]
    cases tab <;> simp [count_glyphs]
  | text attrs chunks cs inner ih =>
    obtain ⟨-, shape, rest⟩ := shaped
    rw [readTokens, docTokens, inlineDecorators, count_append, count_append, ih rest,
      chunkRead_text shape, chunkTokens, chunkInlineDecorators]
    cases inline : isInlineLexicalType (typeOf attrs) with
    | true =>
      have content := inner (chunksShaped_text shape inline)
      simp [content]
      omega
    | false =>
      have content := inner (chunksShaped_text shape inline)
      have outside : inside = false := by
        cases inside with
        | false => rfl
        | true => exact absurd (shape.2.2.1 rfl) (by simp [inline])
      simp [content, outside]
      omega
  | element attrs cs ih =>
    obtain ⟨-, -, rest⟩ := shaped
    have all :
        count .decorator ((decoratorText attrs).map some) = (decoratorText attrs).length := by
      rw [count_map_some, decoratorText]
      split <;> simp [glyphs, Function.comp_def]
    rw [readTokens, docTokens, inlineDecorators, count_append, count_append, ih rest, chunkRead,
      chunkTokens, chunkInlineDecorators, all]
    cases inside with
    | true =>
      simp
      omega
    | false =>
      simp [all]
      omega
  | other cs ih =>
    obtain ⟨-, -, rest⟩ := shaped
    rw [readTokens, docTokens, inlineDecorators, count_append, count_append, ih rest]
    simp [chunkRead, chunkTokens]

/-- Without tab nodes and decorators inside inline nodes the walk reads what the document says. -/
lemma readTokens_eq (cs : List Chunk) {inside : Bool} (shaped : chunksShaped inside false cs)
    (tabs : tabNodes cs = [])
    (decorators : ∀ attrs ∈ inlineDecorators inside cs, lexicalDecoratorText attrs = none) :
    readTokens inside cs = docTokens false cs := by
  induction cs using chunks_induction generalizing inside with
  | nil => rfl
  | map attrs cs ih =>
    obtain ⟨-, -, rest⟩ := shaped
    rw [tabNodes, List.append_eq_nil_iff, chunkTabs] at tabs
    have plain : isTab (.map attrs) = false := by
      by_contra tabbed
      simp [isTab] at tabbed
      simp [tabbed] at tabs
    rw [plain] at rest
    rw [readTokens, docTokens, plain, ih rest tabs.2 (by simpa [inlineDecorators] using decorators),
      chunkRead, chunkTokens]
  | run s cs ih =>
    obtain ⟨-, -, rest⟩ := shaped
    rw [tabNodes, List.append_eq_nil_iff] at tabs
    rw [readTokens, docTokens, isTab_run,
      ih rest tabs.2 (by simpa [inlineDecorators] using decorators), chunkRead, chunkTokens]
    rfl
  | text attrs chunks cs inner ih =>
    obtain ⟨-, shape, rest⟩ := shaped
    rw [tabNodes, List.append_eq_nil_iff] at tabs
    rw [inlineDecorators, chunkInlineDecorators] at decorators
    have within := fun attrs h => decorators attrs (List.mem_append_left _ h)
    have behind := fun attrs h => decorators attrs (List.mem_append_right _ h)
    rw [readTokens, docTokens, isTab_text, ih rest tabs.2 behind, chunkRead_text shape, chunkTokens]
    cases inline : isInlineLexicalType (typeOf attrs) with
    | true =>
      rw [inline, Bool.or_true] at within
      rw [if_pos rfl, if_pos rfl, inner (chunksShaped_text shape inline) tabs.1 within]
    | false =>
      have outside : inside = false := by
        cases inside with
        | false => rfl
        | true => exact absurd (shape.2.2.1 rfl) (by simp [inline])
      rw [inline, outside, Bool.or_self] at within
      rw [if_neg Bool.false_ne_true, if_neg Bool.false_ne_true,
        inner (chunksShaped_text shape inline) tabs.1 within]
  | element attrs cs ih =>
    obtain ⟨-, -, rest⟩ := shaped
    rw [tabNodes, List.append_eq_nil_iff] at tabs
    rw [inlineDecorators, chunkInlineDecorators] at decorators
    have behind := fun attrs h => decorators attrs (List.mem_append_right _ h)
    rw [readTokens, docTokens, isTab_element, ih rest tabs.2 behind, chunkRead, chunkTokens]
    cases inside with
    | false => rfl
    | true =>
      have mute := decorators attrs (List.mem_append_left _ (by simp))
      simp [decoratorText, mute]
  | other cs ih =>
    obtain ⟨-, -, rest⟩ := shaped
    rw [tabNodes, List.append_eq_nil_iff] at tabs
    rw [readTokens, docTokens, isTab_other,
      ih rest tabs.2 (by simpa [inlineDecorators] using decorators), chunkRead, chunkTokens]

/-! ## Lines of the text that is read -/

section Joined

variable {β : Type} {f : Glyph → List (Option β)}

variable (f) in
/-- Tokens as the characters in them are read. -/
def readAs : Option Glyph → List (Option β)
  | none => [none]
  | some g => f g

/-- Where separators are breaks, joined lines are split again. -/
lemma lines_flatMap_joinLines (h : f ⟨'\n', .separator⟩ = [none]) (ls : List Line) :
    lines [] ((joinLines ls).flatMap f) = ls.flatMap fun line => lines [] (line.flatMap f) := by
  unfold joinLines
  induction ls with
  | nil => rfl
  | cons line ls ih =>
    cases ls with
    | nil => simp
    | cons next ls =>
      rw [List.intercalate_cons_cons, List.flatMap_append, List.flatMap_append,
        List.flatMap_singleton, h, List.append_assoc, List.singleton_append, lines_none, ih]
      rfl

/-- Lines of characters are the lines of what the characters are read as. -/
lemma flatMap_lines (line : Line) (ts : List (Option Glyph)) :
    ((lines line ts).flatMap fun line => lines [] (line.flatMap f)) =
      lines [] (line.flatMap f ++ ts.flatMap (readAs f)) := by
  have flushed : ∀ line : Line, ((flush line).flatMap fun line => lines [] (line.flatMap f)) =
      lines [] (line.flatMap f) := by
    intro line
    cases line with
    | nil => rfl
    | cons g line => simp [flush]
  induction ts generalizing line with
  | nil => simp [lines, flushed]
  | cons t ts ih =>
    cases t with
    | none =>
      rw [lines, List.flatMap_append, flushed, ih, List.flatMap_cons, readAs,
        List.singleton_append, lines_none]
      rfl
    | some g =>
      rw [lines, ih, List.flatMap_cons, List.flatMap_append, List.append_assoc]
      simp [readAs]

lemma lines_joinLines (h : f ⟨'\n', .separator⟩ = [none]) (ts : List (Option Glyph)) :
    lines [] ((joinLines (lines [] ts)).flatMap f) = lines [] (ts.flatMap (readAs f)) := by
  rw [lines_flatMap_joinLines h, flatMap_lines]
  rfl

end Joined

/-! ## Exactness -/

/-- Joining adds separators only. -/
lemma countP_joinLines {origin : Origin} (h : origin ≠ .separator) (out : List Line) :
    (joinLines out).countP (·.origin = origin) = out.flatten.countP (·.origin = origin) := by
  unfold joinLines
  induction out with
  | nil => rfl
  | cons line out ih =>
    cases out with
    | nil => simp
    | cons next out =>
      rw [List.intercalate_cons_cons, List.countP_append, List.countP_append, ih,
        List.flatten_cons, List.countP_append]
      simp [h.symm]

/-- How many characters of a text that is read stand for this. -/
lemma countP_lines {origin : Origin} (h : origin ≠ .separator) (ts : List (Option Glyph)) :
    (joinLines (lines [] ts)).countP (·.origin = origin) = count origin ts := by
  rw [countP_joinLines h, flatten_lines, List.nil_append]
  rfl

lemma tokens_cases {root : List Child} (shaped : LexicalShaped root) {child : Child}
    (h : child ∈ root) :
    (∃ t, child = .text t ∧ t.chunks ∈ blocksOf root ∧ chunksShaped false false t.chunks) ∨
      childRead child = childTokens child := by
  cases child with
  | text t => exact .inl ⟨t, rfl, List.mem_filterMap.2 ⟨_, h, rfl⟩, shaped _ h⟩
  | element e => exact .inr rfl
  | fragment content => exact .inr rfl

lemma rootRead_eq {root : List Child} (shaped : LexicalShaped root) (plain : Plain root) :
    rootRead root = rootTokens root := by
  refine List.flatMap_congr fun child h => ?_
  rcases tokens_cases shaped h with ⟨t, rfl, block, shape⟩ | same
  · rw [childRead, childTokens, readTokens_eq _ shape (plain.1 _ block) (plain.2 _ block)]
  · exact same

/-- A sum over the children of a root in which no summand grows is not larger. -/
lemma count_root (origin : Origin) {root : List Child} {f g : Child → List (Option Glyph)}
    (le : ∀ child ∈ root, count origin (f child) ≤ count origin (g child))
    (same : count origin (root.flatMap f) = count origin (root.flatMap g)) :
    ∀ child ∈ root, count origin (f child) = count origin (g child) := by
  induction root with
  | nil => simp
  | cons child root ih =>
    rw [List.flatMap_cons, List.flatMap_cons, count_append, count_append] at same
    have first := le child List.mem_cons_self
    have all : ∀ root' : List Child, (∀ c ∈ root', count origin (f c) ≤ count origin (g c)) →
        count origin (root'.flatMap f) ≤ count origin (root'.flatMap g) := by
      intro root'
      induction root' with
      | nil => simp
      | cons c root' ih =>
        intro le
        rw [List.flatMap_cons, List.flatMap_cons, count_append, count_append]
        exact Nat.add_le_add (le c List.mem_cons_self) (ih fun d hd => le d (.tail _ hd))
    have rest := all root fun c hc => le c (.tail _ hc)
    rw [List.forall_mem_cons]
    exact ⟨by omega, ih (fun c hc => le c (.tail _ hc)) (by omega)⟩

lemma Plain.of_readsExactly {getString : ProseMirrorHtml.XmlElement → Line} {root : List Child}
    (shaped : LexicalShaped root) (h : ReadsExactly getString root) : Plain root := by
  rw [ReadsExactly, xmlBlocksText_eq getString shaped] at h
  have same :
      ∀ origin ≠ .separator, count origin (rootRead root) = count origin (rootTokens root) := by
    intro origin ne
    rw [← countP_lines ne, h, countP_lines ne]
  -- Tab nodes are read as one run more, decorators inside inline nodes as one decorator less.
  have runs := count_root .run (f := childTokens) (g := childRead)
    (fun child hc => by
      rcases tokens_cases shaped hc with ⟨t, rfl, -, shape⟩ | same
      · rw [childRead, childTokens, count_append, count_append, count_run _ shape]
        omega
      · rw [same])
    (same .run (by decide)).symm
  have decorators := count_root .decorator (f := childRead) (g := childTokens)
    (fun child hc => by
      rcases tokens_cases shaped hc with ⟨t, rfl, -, shape⟩ | same
      · rw [childRead, childTokens, count_append, count_append, count_decorator _ shape]
        omega
      · rw [same])
    (same .decorator (by decide))
  have block : ∀ chunks ∈ blocksOf root, ∃ t, Child.text t ∈ root ∧ t.chunks = chunks := by
    intro chunks hchunks
    obtain ⟨child, hc, hchild⟩ := List.mem_filterMap.1 hchunks
    cases child with
    | text t => exact ⟨t, hc, Option.some.inj hchild⟩
    | element e => simp at hchild
    | fragment content => simp at hchild
  constructor
  · intro chunks hchunks
    obtain ⟨t, ht, rfl⟩ := block chunks hchunks
    have once := runs _ ht
    rw [childRead, childTokens, count_append, count_append, count_run _ (shaped _ ht)] at once
    rw [← List.length_eq_zero_iff]
    omega
  · intro chunks hchunks attrs member
    obtain ⟨t, ht, rfl⟩ := block chunks hchunks
    have once := decorators _ ht
    rw [childRead, childTokens, count_append, count_append, count_decorator _ (shaped _ ht)] at once
    have zero : ((inlineDecorators false t.chunks).map fun attrs =>
        (decoratorText attrs).length).sum = 0 := by omega
    rw [List.sum_eq_zero_iff_forall_eq_nat] at zero
    have mute := zero _ (List.mem_map_of_mem member)
    rw [List.length_eq_zero_iff, decoratorText] at mute
    cases text : lexicalDecoratorText attrs with
    | none => rfl
    | some s =>
      rw [text] at mute
      exact absurd mute (glyphs_ne_nil (lexicalDecoratorText_ne text))

/-- **When Lexical text is read exactly.**  The text that is read is the text of the document if and
only if there is no tab node and no decorator with a text inside an inline node. -/
theorem readsExactly_iff (getString : ProseMirrorHtml.XmlElement → Line) (root : List Child)
    (shaped : LexicalShaped root) : ReadsExactly getString root ↔ Plain root := by
  refine ⟨Plain.of_readsExactly shaped, fun plain => ?_⟩
  rw [ReadsExactly, xmlBlocksText_eq getString shaped, rootRead_eq shaped plain]

/-- A paragraph with a tab node. -/
def tabbed : List Child :=
  [.text ⟨[], [.map [("__type", .any (.string "tab"))], .run ⟨"\t", by decide⟩]⟩]

lemma tabbed_shaped : LexicalShaped tabbed := by
  intro child h
  obtain rfl := List.mem_singleton.1 h
  exact ⟨fun h => absurd h Bool.false_ne_true, trivial, fun _ => ⟨_, rfl, rfl⟩, trivial, rfl⟩

theorem readsExactly_iff_tabbed : ReadsExactly (fun _ => []) tabbed ↔ Plain tabbed :=
  readsExactly_iff _ tabbed tabbed_shaped

/-- The tab is read twice. -/
theorem tabbed_twice :
    LexicalShaped tabbed ∧ ¬ReadsExactly (fun _ => []) tabbed ∧
      (xmlBlocksText (fun _ => []) tabbed).map Glyph.char = ['\t', '\t'] :=
  ⟨tabbed_shaped, by unfold ReadsExactly; decide, by decide⟩

end ReadXml

end Yrby
