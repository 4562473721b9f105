import Yrby.Writer.MarkdownRuns
import Yrby.Writer.RoundTrip

/-!
# Appending Markdown (`lexical_markdown.rb`)

`append_markdown` parses a text into blocks and appends them one by one, through either class.  The
document then renders as it did, followed by the markup of the blocks (`append_markdown_renders`),
and whatever the text says, a browser finds no scheme in its links but the safe ones
(`appended_links_safe`).
-/

namespace Yrby

namespace Markdown

open LexicalHtml Writer
open HtmlCore (Dict Value)
open XmlText (Item)

/-- What a parsed block is appended as. -/
def newBlock : Block → NewBlock
  | .heading payload level => .heading ("h" ++ toString level) (runs payload)
  | .paragraph payload => .paragraph (runs payload)
  | .quote payload => .quote (runs payload)
  | .code payload lang => .code (.ofList lang) (.ofList payload)
  | .list items ordered => .list ordered (items.map runs)

/-- `Markdown.append` -/
def append (flavor : Flavor) (root : List Item) (text : List Char) : List Item :=
  (blocks text).foldl (fun root b => Writer.append flavor root (newBlock b)) root

/-! ## Links -/

/-- The runs of a block. -/
def runsOf : NewBlock → List Run
  | .paragraph runs => runs
  | .heading _ runs => runs
  | .quote runs => runs
  | .code _ _ => []
  | .list _ items => items.flatten

lemma spelled_of_cut {rs : List Run} {line : List Char} (h : Parts.Cut Spelled rs line)
    {run : Run} (mem : run ∈ rs) : ∃ part, Spelled run part := by
  induction h with
  | nil => simp at mem
  | cons head _ ih =>
    rcases List.mem_cons.1 mem with rfl | rest
    · exact ⟨_, head⟩
    · exact ih rest

/-- The link of a run that is spelled in a text is safe. -/
lemma safe_of_spelled {run : Run} {part : List Char} (h : Spelled run part) {url : String}
    (link : run.link = some url) : Links.safeUrl url := by
  cases h with
  | link text url' safe =>
    obtain rfl := Option.some.inj link
    exact safe
  | _ => cases link

lemma safe_of_runs {line : List Char} {run : Run} (mem : run ∈ runs line) {url : String}
    (link : run.link = some url) : Links.safeUrl url := by
  obtain ⟨part, spelled⟩ := spelled_of_cut (read_runs line).cut mem
  exact safe_of_spelled spelled link

lemma mem_runsOf {b : Block} {run : Run} (mem : run ∈ runsOf (newBlock b)) :
    ∃ line, run ∈ runs line := by
  cases b with
  | heading payload level => exact ⟨payload, mem⟩
  | paragraph payload => exact ⟨payload, mem⟩
  | quote payload => exact ⟨payload, mem⟩
  | code payload lang => simp [newBlock, runsOf] at mem
  | list items ordered =>
    obtain ⟨rs, hrs, hrun⟩ := List.mem_flatten.1 mem
    obtain ⟨line, -, rfl⟩ := List.mem_map.1 hrs
    exact ⟨line, hrun⟩

/-- **No Markdown writes an unsafe link.**  Wherever a browser finds a scheme in the URL of a link
that a text makes, it is one of the safe schemes. -/
theorem appended_links_safe (text : List Char) :
    ∀ b ∈ blocks text, ∀ run ∈ runsOf (newBlock b), ∀ url, run.link = some url →
      ∀ scheme, Links.browserScheme url = some scheme → scheme ∈ Links.safeSchemes := by
  intro b _ run mem url link scheme found
  obtain ⟨line, mem⟩ := mem_runsOf mem
  have safe := safe_of_runs mem link
  rw [Links.safeUrl, Links.capturedScheme_of_browserScheme found] at safe
  exact of_decide_eq_true safe

/-- A link to a telephone number. -/
def callText : List Char := "[a](tel:1)".toList

lemma mem_callText : linked ['a'] "tel:1".toList ∈ runs callText := by
  have legible : (Segment.link ['a'] ("tel:1".toList.map .char)).Legible none none := by
    refine ⟨by simp, by simp, by simp, ?_⟩
    simp [UrlPart.Valid, isUrlChar, isSpace]
  have read : runs ([] ++ ((Segment.link ['a'] ("tel:1".toList.map .char)).markdown ++ [])) = _ :=
    runs_segment (by simp) legible (by simp)
  have text : [] ++ ((Segment.link ['a'] ("tel:1".toList.map .char)).markdown ++ []) =
      callText := by decide
  have safe : Links.safeUrl (.ofList (urlText ("tel:1".toList.map .char))) = true := by decide
  rw [text] at read
  rw [read, Segment.run, if_pos safe]
  exact List.mem_append_right _ List.mem_cons_self

theorem appended_links_safe_call :
    ∃ b ∈ blocks callText, ∃ run ∈ runsOf (newBlock b), run.link = some "tel:1" ∧
      Links.browserScheme "tel:1" = some "tel" ∧ "tel" ∈ Links.safeSchemes := by
  have parsed : .paragraph callText ∈ blocks callText := by decide
  have found : Links.browserScheme "tel:1" = some "tel" := by decide
  exact ⟨_, parsed, _, mem_callText, rfl, found,
    appended_links_safe callText _ parsed _ mem_callText _ rfl _ found⟩

/-! ## Rendering -/

section

variable {flavor : Flavor} {F : Foreign} {decode : String → Dict Value} {toS : Value → String}

/-- A block that is appended comes after the blocks that were there. -/
lemma blocksHtml_append (ints : ∀ n : ℤ, toS (.int n) = toString n) (root : List Item)
    (b : NewBlock) (reads : ∀ n ∈ itemNumbers b, flavor = .lexxy →
      Reads F.toJson decode (listItemAttributes .lexxy n)) :
    blocksHtml flavor F decode toS (Writer.append flavor root b) =
        (blocksHtml flavor F decode toS root).map (· ++ blockMarkup flavor b) ∧
      isLexicalShaped (children (Writer.append flavor root b)) = true := by
  obtain ⟨attrs, content, same, typed, block⟩ := filled_block ints b reads
  have shaped : isLexicalShaped (children (pushXmlText root attrs content)) = true := by
    simp [children_push, isLexicalShaped, isTyped, typed]
  refine ⟨?_, same root ▸ shaped⟩
  have pushed : toHtml flavor F decode toS (pushXmlText root attrs content) = _ :=
    toHtml_push typed block
  rw [toHtml_eq shaped] at pushed
  rw [same]
  cases new : blocksHtml flavor F decode toS (pushXmlText root attrs content) <;>
    cases old : blocksHtml flavor F decode toS root <;> simp_all

/-- Blocks that are appended one after the other. -/
lemma blocksHtml_foldl (ints : ∀ n : ℤ, toS (.int n) = toString n) (bs : List NewBlock)
    (root : List Item) (reads : ∀ b ∈ bs, ∀ n ∈ itemNumbers b, flavor = .lexxy →
      Reads F.toJson decode (listItemAttributes .lexxy n)) :
    blocksHtml flavor F decode toS (bs.foldl (Writer.append flavor) root) =
      (blocksHtml flavor F decode toS root).map (· ++ String.join (bs.map (blockMarkup flavor))) ∧
    (bs ≠ [] → isLexicalShaped (children (bs.foldl (Writer.append flavor) root)) = true) := by
  induction bs generalizing root with
  | nil => simp
  | cons b bs ih =>
    obtain ⟨html, shaped⟩ := blocksHtml_append ints root b (reads b List.mem_cons_self)
    obtain ⟨rest, still⟩ := ih (Writer.append flavor root b)
      fun c hc => reads c (List.mem_cons_of_mem _ hc)
    refine ⟨?_, fun _ => ?_⟩
    · rw [List.foldl_cons, rest, html, Option.map_map]
      congr 1
      funext old
      simp [String.append_assoc]
    · cases bs with
      | nil => exact shaped
      | cons c bs => exact still (by simp)

/-- The markup of blocks, in their order. -/
def markupOf (flavor : Flavor) (bs : List Block) : String :=
  String.join (bs.map fun b => blockMarkup flavor (newBlock b))

/-- **Appended Markdown renders as its blocks.**  The rendering of the document before it stays,
and the markup of the parsed blocks follows in their order, in both classes. -/
theorem append_markdown_renders (flavor : Flavor) (F : Foreign) (decode : String → Dict Value)
    (toS : Value → String) (ints : ∀ n : ℤ, toS (.int n) = toString n) (root : List Item)
    (text : List Char)
    (reads : ∀ b ∈ blocks text, ∀ n ∈ itemNumbers (newBlock b), flavor = .lexxy →
      Reads F.toJson decode (listItemAttributes .lexxy n)) :
    blocksHtml flavor F decode toS (append flavor root text) =
        (blocksHtml flavor F decode toS root).map (· ++ markupOf flavor (blocks text)) ∧
      (blocks text ≠ [] → toHtml flavor F decode toS (append flavor root text) =
        (blocksHtml flavor F decode toS root).map fun old =>
          some (old ++ markupOf flavor (blocks text))) := by
  have appended : append flavor root text =
      ((blocks text).map newBlock).foldl (Writer.append flavor) root := by
    rw [append, List.foldl_map]
  have markup : String.join (((blocks text).map newBlock).map (blockMarkup flavor)) =
      markupOf flavor (blocks text) := by
    rw [markupOf, List.map_map]
    rfl
  obtain ⟨html, shaped⟩ := blocksHtml_foldl ints ((blocks text).map newBlock) root fun b hb => by
    obtain ⟨c, hc, rfl⟩ := List.mem_map.1 hb
    exact reads c hc
  rw [markup] at html
  rw [appended]
  refine ⟨html, fun some => ?_⟩
  rw [toHtml_eq (shaped fun none => some (List.map_eq_nil_iff.1 none)), html, Option.map_map]
  rfl

end

/-- A list in a new document. -/
def listText : List Char := "- a **b**\n".toList

theorem append_markdown_renders_list :
    blocks listText = [.list ["a **b**".toList] false] ∧
      blocksHtml .lexxy plainForeign (fun _ => itemValues) writeInt (append .lexxy [] listText) =
        (blocksHtml .lexxy plainForeign (fun _ => itemValues) writeInt []).map
          (· ++ markupOf .lexxy (blocks listText)) ∧
      (blocks listText ≠ [] →
        toHtml .lexxy plainForeign (fun _ => itemValues) writeInt (append .lexxy [] listText) =
          (blocksHtml .lexxy plainForeign (fun _ => itemValues) writeInt []).map fun old =>
            some (old ++ markupOf .lexxy (blocks listText))) := by
  have parsed : blocks listText = [.list ["a **b**".toList] false] := by decide
  refine ⟨parsed, append_markdown_renders .lexxy plainForeign (fun _ => itemValues) writeInt
    (fun _ => rfl) [] listText ?_⟩
  rw [parsed]
  intro b hb n hn _
  obtain rfl := List.mem_singleton.1 hb
  obtain rfl : n = 1 := by simpa [newBlock, itemNumbers] using hn
  exact reads_item

end Markdown

end Yrby
