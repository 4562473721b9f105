import Yrby.Reading.ReadXml

/-!
# The text of one block (`block_text`)

`XmlText#text` reads a block on its own.  It puts a newline before a nested block and reads nothing
else but strings: a linebreak and the end of a nested block leave no trace.  So its lines are those
that `read_xml` makes of the block unless two characters are parted by nothing but these, or there
is a tab node (`readersAgree_iff`).

Both readers are read off one sequence of events, and differ in which of them break a line.
-/

namespace Yrby

namespace ReadXml

open HtmlCore LexicalHtml Lines

/-! ## The function -/

mutual

/-- One entry of `block_text`. -/
def blockTextChunk (out : List Char) : Chunk → List Char
  | .run s => out ++ s.text.toList
  | .text attrs chunks =>
    let inline := isInlineLexicalType (typeOf attrs)
    let out := if !inline && !out.isEmpty then out ++ ['\n'] else out
    out ++ blockTextChunks [] chunks
  | _ => out

/-- The loop of `block_text`. -/
def blockTextChunks (out : List Char) : List Chunk → List Char
  | [] => out
  | c :: cs => blockTextChunks (blockTextChunk out c) cs

end

/-- `block_text`, and `XmlText#text`. -/
def blockText (chunks : List Chunk) : List Char := blockTextChunks [] chunks

/-! ## Lines -/

/-- A newline is a break. -/
def charToken (c : Char) : Option Char := if c = '\n' then none else some c

/-- The lines of a text that are not empty. -/
def textLines (text : List Char) : List (List Char) := lines [] (text.map charToken)

/-- The lines of what is read of a block, decorators aside. -/
def readLines (chunks : List Chunk) : List (List Char) :=
  textLines (((joinLines (walkLexicalBlock chunks [])).filter
    (·.origin ≠ .decorator)).map Glyph.char)

/-- Both readers find the same lines in a block. -/
def ReadersAgree (chunks : List Chunk) : Prop := textLines (blockText chunks) = readLines chunks

/-! ## Events -/

/-- What stands in a block, in the order of the document. -/
inductive Event
  | char (c : Char)
  | linebreak
  | tab
  /-- A nested block begins. -/
  | start
  /-- A nested block ends. -/
  | stop
  deriving DecidableEq

def mapEvents (attrs : Attrs) : List Event :=
  match typeOf attrs with
  | "linebreak" => [.linebreak]
  | "tab" => [.tab]
  | _ => []

mutual

def chunkEvents : Chunk → List Event
  | .run s => s.text.toList.map .char
  | .map attrs => mapEvents attrs
  | .text attrs chunks =>
    if isInlineLexicalType (typeOf attrs) then events chunks
    else .start :: (events chunks ++ [.stop])
  | _ => []

def events : List Chunk → List Event
  | [] => []
  | c :: cs => chunkEvents c ++ events cs

end

/-- The character that an event is. -/
def Event.visible : Event → Option Char
  | .char c => charToken c
  | _ => none

/-- `block_text` starts a new line. -/
def Event.starts : Event → Bool
  | .char c => c = '\n'
  | .start => true
  | .linebreak | .tab | .stop => false

/-- `read_xml` starts a new line. -/
def Event.breaks : Event → Bool
  | .char c => c = '\n'
  | .tab => false
  | .linebreak | .start | .stop => true

/-- No two characters are parted by a linebreak or the end of a nested block alone: there also is a
newline or the start of a nested block between them. -/
def PartedAlike (es : List Event) : Prop :=
  ∀ pre c mid d post, es = pre ++ .char c :: (mid ++ .char d :: post) → c ≠ '\n' → d ≠ '\n' →
    (∀ m ∈ mid, m.visible = none) → .linebreak ∈ mid ∨ .stop ∈ mid →
      .start ∈ mid ∨ .char '\n' ∈ mid

/-! ## What `block_text` reads -/

lemma tokens_chars {b : Event → Bool} (h : ∀ c, b (.char c) = decide (c = '\n'))
    (cs : List Char) : tokens Event.visible b (cs.map .char) = cs.map charToken := by
  induction cs with
  | nil => rfl
  | cons c cs ih =>
    rw [List.map_cons, List.map_cons, ← ih]
    by_cases newline : c = '\n'
    · have none : (Event.char c).visible = none := by simp [Event.visible, charToken, newline]
      rw [tokens_cons_none none, h, if_pos (by simpa using newline), charToken, if_pos newline]
    · have some : (Event.char c).visible = some c := by simp [Event.visible, charToken, newline]
      rw [tokens_cons_some some, charToken, if_neg newline]

lemma tokens_mapEvents (attrs : Attrs) :
    tokens Event.visible Event.starts (mapEvents attrs) = [] := by
  unfold mapEvents
  split <;> rfl

/-- In an inline node there is nothing to break. -/
lemma blockTextChunks_inline (cs : List Chunk) {tab : Bool} (shaped : chunksShaped true tab cs)
    (out : List Char) :
    (blockTextChunks out cs).map charToken =
      out.map charToken ++ tokens Event.visible Event.starts (events cs) := by
  induction cs using chunks_induction generalizing tab out with
  | nil => simp [blockTextChunks, events, tokens]
  | map attrs cs ih =>
    rw [blockTextChunks, ih shaped.2.2, events, tokens_append, chunkEvents, tokens_mapEvents,
      List.nil_append]
    rfl
  | run s cs ih =>
    rw [blockTextChunks, ih shaped.2.2, events, tokens_append, chunkEvents,
      tokens_chars fun _ => rfl, blockTextChunk, List.map_append, List.append_assoc]
  | text attrs chunks cs inner ih =>
    have inline : isInlineLexicalType (typeOf attrs) = true := shaped.2.1.2.2.1 rfl
    have content := inner (chunksShaped_text shaped.2.1 inline) []
    rw [blockTextChunks, ih shaped.2.2, events, tokens_append, chunkEvents, if_pos inline,
      blockTextChunk]
    simp only [inline, Bool.not_true, Bool.false_and, Bool.false_eq_true, if_false,
      List.map_append, content, List.map_nil, List.nil_append, List.append_assoc]
  | element attrs cs ih =>
    rw [blockTextChunks, ih shaped.2.2, events, tokens_append]
    rfl
  | other cs ih =>
    rw [blockTextChunks, ih shaped.2.2, events, tokens_append]
    rfl

/-- The lines of a block: only a nested block breaks them, and a newline. -/
lemma blockTextChunks_lines (cs : List Chunk) {tab : Bool} (shaped : chunksShaped false tab cs)
    (out : List Char) (ts : List (Option Char)) :
    lines [] ((blockTextChunks out cs).map charToken ++ ts) =
      lines [] (out.map charToken ++ (tokens Event.visible Event.starts (events cs) ++ ts)) := by
  induction cs using chunks_induction generalizing tab out ts with
  | nil => simp [blockTextChunks, events, tokens]
  | map attrs cs ih =>
    rw [blockTextChunks, ih shaped.2.2, events, tokens_append, chunkEvents, tokens_mapEvents,
      List.nil_append]
    rfl
  | run s cs ih =>
    rw [blockTextChunks, ih shaped.2.2, events, tokens_append, chunkEvents,
      tokens_chars fun _ => rfl, blockTextChunk, List.map_append, List.append_assoc,
      List.append_assoc]
  | text attrs chunks cs inner ih =>
    rw [blockTextChunks, ih shaped.2.2, events, tokens_append, chunkEvents, blockTextChunk]
    cases inline : isInlineLexicalType (typeOf attrs) with
    | true =>
      have content := blockTextChunks_inline chunks (chunksShaped_text shaped.2.1 inline) []
      simp only [Bool.not_true, Bool.false_and, Bool.false_eq_true, if_false, if_true,
        List.map_append, content, List.map_nil, List.nil_append, List.append_assoc]
    | false =>
      have content := inner (chunksShaped_text shaped.2.1 inline) []
        (tokens Event.visible Event.starts (events cs) ++ ts)
      have block : tokens Event.visible Event.starts (.start :: (events chunks ++ [.stop])) =
          none :: tokens Event.visible Event.starts (events chunks) := by
        rw [← List.cons_append, tokens_append]
        simp [tokens, token, Event.visible, Event.starts]
      simp only [Bool.not_false, Bool.true_and, Bool.false_eq_true, if_false, block]
      -- A newline stands before the nested block, unless nothing does.
      rw [List.map_nil, List.nil_append] at content
      by_cases empty : out = []
      · subst empty
        simp only [List.isEmpty_nil, Bool.not_true, Bool.false_eq_true, if_false,
          List.nil_append, List.map_nil, List.cons_append, List.append_assoc]
        rw [content]
        simp [lines]
      · have full : out.isEmpty = false := by simpa using empty
        have newline : charToken '\n' = none := rfl
        simp only [full, Bool.not_false, if_true, List.map_append, List.map_cons, List.append_assoc,
          newline, List.cons_append, List.nil_append]
        rw [lines_none, lines_none, content]
  | element attrs cs ih =>
    rw [blockTextChunks, ih shaped.2.2, events, tokens_append]
    rfl
  | other cs ih =>
    rw [blockTextChunks, ih shaped.2.2, events, tokens_append]
    rfl

lemma textLines_blockText {chunks : List Chunk} (shaped : chunksShaped false false chunks) :
    textLines (blockText chunks) =
      lines [] (tokens Event.visible Event.starts (events chunks)) := by
  have whole := blockTextChunks_lines chunks shaped [] []
  rw [List.append_nil, List.append_nil] at whole
  exact whole

/-! ## What the walk reads -/

/-- What a character is read as, decorators aside. -/
def glyphToken (g : Glyph) : List (Option Char) :=
  if g.origin = .decorator then [] else [charToken g.char]

def lineTokens (line : Line) : List (Option Char) := line.flatMap glyphToken

abbrev readToken : Option Glyph → List (Option Char) := readAs glyphToken

/-- What an event is read as by the walk. -/
def eventToken : Event → List (Option Char)
  | .tab => [some '\t']
  | e => token Event.visible Event.breaks e

lemma readLines_eq (chunks : List Chunk) :
    readLines chunks = lines [] (lineTokens (joinLines (walkLexicalBlock chunks []))) := by
  have tokens : ∀ line : Line,
      ((line.filter (·.origin ≠ .decorator)).map Glyph.char).map charToken = lineTokens line := by
    intro line
    induction line with
    | nil => rfl
    | cons g line ih =>
      rw [lineTokens, List.flatMap_cons, glyphToken, ← lineTokens, ← ih]
      by_cases decorator : g.origin = .decorator <;> simp [decorator]
  rw [readLines, textLines, tokens]

lemma lineTokens_mapText (attrs : Attrs) :
    lineTokens (mapText attrs) = (mapEvents attrs).flatMap eventToken := by
  by_cases linebreak : typeOf attrs = "linebreak"
  · rw [mapText, mapEvents, linebreak]
    rfl
  by_cases tab : typeOf attrs = "tab"
  · rw [mapText, mapEvents, tab]
    rfl
  have text : mapText attrs = [] := by
    unfold mapText
    split
    · exact absurd ‹_› linebreak
    · exact absurd ‹_› tab
    · rfl
  have event : mapEvents attrs = [] := by
    unfold mapEvents
    split
    · exact absurd ‹_› linebreak
    · exact absurd ‹_› tab
    · rfl
  rw [text, event]
  rfl

lemma flatMap_readTokens (cs : List Chunk) {inside tab : Bool}
    (shaped : chunksShaped inside tab cs) :
    (readTokens inside cs).flatMap readToken = (events cs).flatMap eventToken := by
  have some : ∀ line : Line, (line.map some).flatMap readToken = lineTokens line := by
    intro line
    rw [List.flatMap_map]
    rfl
  induction cs using chunks_induction generalizing inside tab with
  | nil => rfl
  | map attrs cs ih =>
    rw [readTokens, events, List.flatMap_append, List.flatMap_append, ih shaped.2.2, chunkRead,
      chunkEvents, some, lineTokens_mapText]
  | run s cs ih =>
    have chars : lineTokens (glyphs .run s.text) =
        (s.text.toList.map Event.char).flatMap eventToken := by
      rw [glyphs, lineTokens, List.flatMap_map, List.flatMap_map]
      refine List.flatMap_congr fun c _ => ?_
      by_cases newline : c = '\n' <;>
        simp [glyphToken, charToken, eventToken, token, Event.visible, Event.breaks, newline]
    rw [readTokens, events, List.flatMap_append, List.flatMap_append, ih shaped.2.2, chunkRead,
      chunkEvents, some, chars]
  | text attrs chunks cs inner ih =>
    rw [readTokens, events, List.flatMap_append, List.flatMap_append, ih shaped.2.2,
      chunkRead_text shaped.2.1, chunkEvents]
    cases inline : isInlineLexicalType (typeOf attrs) with
    | true =>
      rw [if_pos rfl, if_pos rfl, inner (chunksShaped_text shaped.2.1 inline)]
    | false =>
      have content := inner (chunksShaped_text shaped.2.1 inline)
      have bounds : eventToken .start = [none] ∧ eventToken .stop = [none] := ⟨rfl, rfl⟩
      simp [content, readAs, bounds]
  | element attrs cs ih =>
    have none : lineTokens (decoratorText attrs) = [] := by
      rw [decoratorText]
      split
      · simp [lineTokens, glyphs, List.flatMap_map, glyphToken]
      · rfl
    rw [readTokens, events, List.flatMap_append, List.flatMap_append, ih shaped.2.2, chunkRead]
    cases inside with
    | true => rfl
    | false =>
      rw [if_neg Bool.false_ne_true, some, none]
      rfl
  | other cs ih =>
    rw [readTokens, events, List.flatMap_append, List.flatMap_append, ih shaped.2.2]
    rfl

lemma readLines_events {chunks : List Chunk} (shaped : chunksShaped false false chunks) :
    readLines chunks = lines [] ((events chunks).flatMap eventToken) := by
  rw [readLines_eq, walkLexicalBlock_eq, List.nil_append, lineTokens, lines_joinLines rfl,
    flatMap_readTokens _ shaped]

/-! ## Agreement -/

lemma length_reduceOption_eventToken (es : List Event) :
    (es.flatMap eventToken).reduceOption.length =
      (es.filterMap Event.visible).length + es.count .tab := by
  induction es with
  | nil => rfl
  | cons e es ih =>
    rw [List.flatMap_cons, List.reduceOption_append, List.length_append, ih]
    cases e with
    | char c =>
      by_cases newline : c = '\n'
      · simp [eventToken, token, Event.visible, charToken, Event.breaks, newline,
          List.reduceOption]
      · simp [eventToken, token, Event.visible, charToken, newline, List.reduceOption]
        omega
    | tab =>
      rw [List.filterMap_cons_none rfl]
      simp [eventToken, List.reduceOption]
      omega
    | _ =>
      rw [List.filterMap_cons_none rfl]
      simp [eventToken, token, Event.visible, Event.breaks, List.reduceOption]

lemma flatMap_eventToken {es : List Event} (h : .tab ∉ es) :
    es.flatMap eventToken = tokens Event.visible Event.breaks es := by
  refine List.flatMap_congr fun e he => ?_
  cases e with
  | tab => exact absurd he h
  | _ => rfl

lemma Event.visible_eq_some {e : Event} :
    e.visible.isSome ↔ ∃ c, e = .char c ∧ c ≠ '\n' := by
  cases e with
  | char c => by_cases newline : c = '\n' <;> simp [Event.visible, charToken, newline]
  | _ => simp [Event.visible]

lemma any_starts_iff {mid : List Event} :
    mid.any Event.starts ↔ .start ∈ mid ∨ .char '\n' ∈ mid := by
  rw [List.any_eq_true]
  constructor
  · rintro ⟨e, he, hstarts⟩
    cases e with
    | char c =>
      obtain rfl : c = '\n' := by simpa [Event.starts] using hstarts
      exact .inr he
    | start => exact .inl he
    | _ => simp [Event.starts] at hstarts
  · rintro (he | he)
    · exact ⟨_, he, rfl⟩
    · exact ⟨_, he, rfl⟩

lemma any_breaks_iff {mid : List Event} (h : .tab ∉ mid) :
    mid.any Event.breaks ↔
      (.linebreak ∈ mid ∨ .stop ∈ mid) ∨ .start ∈ mid ∨ .char '\n' ∈ mid := by
  rw [List.any_eq_true]
  constructor
  · rintro ⟨e, he, hbreaks⟩
    cases e with
    | char c =>
      obtain rfl : c = '\n' := by simpa [Event.breaks] using hbreaks
      exact .inr (.inr he)
    | linebreak => exact .inl (.inl he)
    | tab => exact absurd he h
    | start => exact .inr (.inl he)
    | stop => exact .inl (.inr he)
  · rintro ((he | he) | he | he) <;> exact ⟨_, he, rfl⟩

lemma any_starts_eq_any_breaks_iff {mid : List Event} (h : .tab ∉ mid) :
    mid.any Event.starts = mid.any Event.breaks ↔
      (.linebreak ∈ mid ∨ .stop ∈ mid → .start ∈ mid ∨ .char '\n' ∈ mid) := by
  rw [Bool.eq_iff_iff, any_starts_iff, any_breaks_iff h]
  exact iff_comm.trans or_iff_right_iff_imp

lemma sameGaps_iff (es : List Event) (h : .tab ∉ es) :
    SameGaps Event.visible Event.starts Event.breaks es ↔ PartedAlike es := by
  constructor
  · intro same pre c mid d post split hc hd invisible
    have noTab : .tab ∉ mid := fun tab => h (by rw [split]; simp [tab])
    exact (any_starts_eq_any_breaks_iff noTab).1 (same pre _ mid _ post split
      (Event.visible_eq_some.2 ⟨c, rfl, hc⟩) (Event.visible_eq_some.2 ⟨d, rfl, hd⟩) invisible)
  · intro parted pre x mid y post split hx hy invisible
    have noTab : .tab ∉ mid := fun tab => h (by rw [split]; simp [tab])
    obtain ⟨c, rfl, hc⟩ := Event.visible_eq_some.1 hx
    obtain ⟨d, rfl, hd⟩ := Event.visible_eq_some.1 hy
    exact (any_starts_eq_any_breaks_iff noTab).2 (parted pre c mid d post split hc hd invisible)

/-- A paragraph "foo⏎bar". -/
def softBreak : List Chunk :=
  [.run ⟨"foo", by decide⟩, .map [("__type", .any (.string "linebreak"))], .run ⟨"bar", by decide⟩]

lemma softBreak_shaped : chunksShaped false false softBreak :=
  ⟨nofun, trivial, nofun, trivial, nofun, trivial, rfl⟩

end ReadXml

end Yrby
