import Mathlib.Data.List.DropRight
import Mathlib.Data.List.Infix

/-!
# The Markdown block parser (`lexical_markdown.rb`)

A text is read line by line.  A line is a heading, an item of a list, a line of a quote, a line of
a paragraph, the begin or end of a fence, or blank; lines of one kind gather in an accumulator
until a line of another kind ends it.

Lines are lists of characters.  A pattern is the function that finds its groups.
-/

namespace Yrby

namespace Markdown

/-! ## Strings -/

/-- `\s` -/
def isSpace (c : Char) : Bool := c = ' ' || (9 ≤ c.toNat && c.toNat ≤ 13)

/-- What `strip` removes: whitespace and NUL. -/
def isStripped (c : Char) : Bool := isSpace c || c.toNat = 0

/-- `String#strip` -/
def strip (s : List Char) : List Char := (s.dropWhile isStripped).rdropWhile isStripped

/-- A line without its `"\r"` before the `"\n"`. -/
def chomp (line : List Char) : List Char :=
  if line.getLast? = some '\r' then line.dropLast else line

/-- `each_line(chomp: true)`, from a line that has begun. -/
def eachLineFrom (line : List Char) : List Char → List (List Char)
  | [] => if line.isEmpty then [] else [line]
  | c :: cs => if c = '\n' then chomp line :: eachLineFrom [] cs else eachLineFrom (line ++ [c]) cs

def eachLine (text : List Char) : List (List Char) := eachLineFrom [] text

/-! ## Line patterns -/

/-- `(.*)\z` -/
def toEnd (s : List Char) : Option (List Char) := if '\n' ∈ s then none else some s

/-- `\s+(.*)\z` -/
def spacedToEnd (s : List Char) : Option (List Char) :=
  match s with
  | [] => none
  | c :: _ => if isSpace c then toEnd (s.dropWhile isSpace) else none

/-- `HEADING`: the number of `#`s and the text. -/
def heading (line : List Char) : Option (ℕ × List Char) :=
  let level := (line.takeWhile (· = '#')).length
  if 1 ≤ level ∧ level ≤ 6 then
    (spacedToEnd (line.dropWhile (· = '#'))).map fun text => (level, text)
  else none

/-- `BULLET` -/
def bullet : List Char → Option (List Char)
  | [] => none
  | c :: rest => if c = '-' ∨ c = '*' then spacedToEnd rest else none

/-- `NUMBERED` -/
def numbered (line : List Char) : Option (List Char) :=
  if (line.takeWhile Char.isDigit).isEmpty then none
  else
    match line.dropWhile Char.isDigit with
    | [] => none
    | c :: rest => if c = '.' ∨ c = ')' then spacedToEnd rest else none

/-- `QUOTE` -/
def quotePattern : List Char → Option (List Char)
  | [] => none
  | c :: rest =>
    if c = '>' then
      match rest with
      | [] => toEnd rest
      | d :: rest' => toEnd (if isSpace d then rest' else rest)
    else none

def backticks : List Char := ['`', '`', '`']

/-- `FENCE`: the language. -/
def fencePattern (line : List Char) : Option (List Char) :=
  if backticks <+: line ∧ '`' ∉ line.drop 3 then
    some (((line.drop 3).dropWhile isSpace).takeWhile fun c => !isSpace c && c ≠ '`')
  else none

/-! ## The parser -/

inductive Block
  | heading (payload : List Char) (level : ℕ)
  | paragraph (payload : List Char)
  | quote (payload : List Char)
  | code (payload lang : List Char)
  | list (items : List (List Char)) (ordered : Bool)
  deriving DecidableEq

/-- `@list` -/
structure ListItems where
  ordered : Bool
  items : List (List Char)

/-- `@fence` -/
structure Fence where
  lang : List Char
  lines : List (List Char)

structure Blocks where
  out : List Block := []
  para : List (List Char) := []
  quote : Option (List (List Char)) := none
  list : Option ListItems := none
  fence : Option Fence := none

namespace Blocks

def closeQuote (p : Blocks) : Blocks :=
  match p.quote with
  | some (line :: lines) =>
    { p with out := p.out ++ [.quote ([' '].intercalate (line :: lines))], quote := none }
  | _ => { p with quote := none }

def closePara (p : Blocks) : Blocks :=
  if p.para.isEmpty then p
  else { p with out := p.out ++ [.paragraph ([' '].intercalate p.para)], para := [] }

def closeList (p : Blocks) : Blocks :=
  match p.list with
  | some l => { p with out := p.out ++ [.list l.items l.ordered], list := none }
  | none => p

def closeAll (p : Blocks) : Blocks := p.closePara.closeQuote.closeList

def closeFence (p : Blocks) (fence : Fence) : Blocks where
  __ := p
  out := p.out ++ [.code (['\n'].intercalate fence.lines) fence.lang]
  fence := none

/-- A line in a fence. -/
def fenced (p : Blocks) (fence : Fence) (line : List Char) : Blocks :=
  if backticks <+: line then p.closeFence fence
  else { p with fence := some { fence with lines := fence.lines ++ [line] } }

def openFence (p : Blocks) (lang : List Char) : Blocks where
  __ := p.closeAll
  fence := some ⟨if lang.isEmpty then "plain".toList else lang, []⟩

def block (p : Blocks) (b : Block) : Blocks where
  __ := p.closeAll
  out := p.closeAll.out ++ [b]

def item (p : Blocks) (payload : List Char) (ordered : Bool) : Blocks :=
  let p := p.closePara.closeQuote
  let p := if p.list.any fun l => l.ordered ≠ ordered then p.closeList else p
  let l := p.list.getD ⟨ordered, []⟩
  { p with list := some { l with items := l.items ++ [payload] } }

def quoteLine (p : Blocks) (line : List Char) : Blocks :=
  let p := p.closePara.closeList
  let lines := p.quote.getD []
  { p with quote := some (if (strip line).isEmpty then lines else lines ++ [strip line]) }

/-- A line outside fences. -/
def prose (p : Blocks) (line : List Char) : Blocks :=
  match fencePattern line with
  | some lang => p.openFence lang
  | none =>
  match Markdown.heading line with
  | some (level, text) => p.block (.heading text level)
  | none =>
  match bullet line with
  | some text => p.item text false
  | none =>
  match numbered line with
  | some text => p.item text true
  | none =>
  match quotePattern line with
  | some text => p.quoteLine text
  | none =>
    if (strip line).isEmpty then p.closeAll
    else
      let p := p.closeList.closeQuote
      { p with para := p.para ++ [strip line] }

def feed (p : Blocks) (line : List Char) : Blocks :=
  match p.fence with
  | some fence => p.fenced fence line
  | none => p.prose line

def finish (p : Blocks) : List Block :=
  let p := match p.fence with
    | some fence => p.closeFence fence
    | none => p
  p.closeAll.out

/-- The parser after some lines. -/
def feedAll (lines : List (List Char)) : Blocks := lines.foldl feed {}

end Blocks

/-- `Markdown.blocks` -/
def blocks (text : List Char) : List Block := (Blocks.feedAll (eachLine text)).finish

end Markdown

end Yrby
