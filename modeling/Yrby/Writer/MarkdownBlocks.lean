import Yrby.Framework.Parts
import Yrby.Writer.Markdown

/-!
# What the Markdown block parser makes of a text

`content` says what each line gives, without any accumulator: from the line alone and from whether
a fence is open.  The blocks of a text are these contents, cut into consecutive parts
(`blocks_cut`), since never more than one accumulator is open (`Gathered`).

The text after the marker of a heading or of an item keeps the whitespace at its end, where a
quote and a paragraph drop it.  `keepsAll_iff` is the exact condition.
-/

namespace Yrby

namespace Markdown

open Parts

/-! ## What the lines give -/

/-- What one line gives to a block, its marker removed. -/
inductive Content
  /-- A fence opens, with the language it names. -/
  | opens (lang : List Char)
  | code (line : List Char)
  | heading (level : ℕ) (text : List Char)
  | item (ordered : Bool) (text : List Char)
  | quote (line : List Char)
  | prose (line : List Char)

/-- What a line outside fences gives.  A blank line gives nothing, and a quote line without text
neither. -/
def proseContent (line : List Char) : List Content :=
  match fencePattern line with
  | some lang => [.opens lang]
  | none =>
  match Markdown.heading line with
  | some (level, text) => [.heading level text]
  | none =>
  match bullet line with
  | some text => [.item false text]
  | none =>
  match numbered line with
  | some text => [.item true text]
  | none =>
  match quotePattern line with
  | some text => if (strip text).isEmpty then [] else [.quote text]
  | none => if (strip line).isEmpty then [] else [.prose line]

/-- Only a blank line and an empty quote line give nothing. -/
lemma proseContent_eq_singleton {line : List Char} (nonblank : ¬ (strip line).isEmpty)
    (quoted : ∀ text, quotePattern line = some text → ¬ (strip text).isEmpty) :
    ∃ c, proseContent line = [c] := by
  unfold proseContent
  cases fencePattern line with
  | some lang => exact ⟨_, rfl⟩
  | none =>
  cases Markdown.heading line with
  | some m => exact ⟨_, rfl⟩
  | none =>
  cases bullet line with
  | some text => exact ⟨_, rfl⟩
  | none =>
  cases numbered line with
  | some text => exact ⟨_, rfl⟩
  | none =>
  cases quote : quotePattern line with
  | some text => exact ⟨_, if_neg (quoted text quote)⟩
  | none => exact ⟨_, if_neg nonblank⟩

/-- What a line gives; in a fence the line itself, unless it closes the fence. -/
def lineContent (fenced : Bool) (line : List Char) : List Content :=
  if fenced then if backticks <+: line then [] else [.code line] else proseContent line

/-- Whether a fence is open after the line. -/
def fencedAfter (fenced : Bool) (line : List Char) : Bool :=
  if fenced then !decide (backticks <+: line) else (fencePattern line).isSome

def content (fenced : Bool) : List (List Char) → List Content
  | [] => []
  | line :: lines => lineContent fenced line ++ content (fencedAfter fenced line) lines

/-- Outer whitespace trimmed, outside fences. -/
def Content.trimmed : Content → Content
  | .opens lang => .opens lang
  | .code line => .code line
  | .heading level text => .heading level (strip text)
  | .item ordered text => .item ordered (strip text)
  | .quote line => .quote (strip line)
  | .prose line => .prose (strip line)

/-- What the parser trims. -/
def Content.kept : Content → Content
  | .quote line => .quote (strip line)
  | .prose line => .prose (strip line)
  | c => c

/-- The language of a code block. -/
def langOf (lang : List Char) : List Char := if lang.isEmpty then "plain".toList else lang

/-- What a block is made of.  All items of a list are of its kind. -/
inductive MadeOf : Block → List Content → Prop
  | heading (level : ℕ) (text : List Char) : MadeOf (.heading text level) [.heading level text]
  | paragraph {lines : List (List Char)} (h : lines ≠ []) :
    MadeOf (.paragraph ([' '].intercalate lines)) (lines.map .prose)
  | quote {lines : List (List Char)} (h : lines ≠ []) :
    MadeOf (.quote ([' '].intercalate lines)) (lines.map .quote)
  | list {items : List (List Char)} (ordered : Bool) (h : items ≠ []) :
    MadeOf (.list items ordered) (items.map (.item ordered))
  | code (lang : List Char) (lines : List (List Char)) :
    MadeOf (.code (['\n'].intercalate lines) (langOf lang)) (.opens lang :: lines.map .code)

namespace Blocks

/-! ## One accumulator -/

/-- How many accumulators are open. -/
def opened (p : Blocks) : ℕ :=
  (!p.para.isEmpty).toNat + p.quote.isSome.toNat + p.list.isSome.toNat + p.fence.isSome.toNat

/-- At most one accumulator is open, and holds this. -/
inductive Gathered : Blocks → List Content → Prop
  | closed (out : List Block) : Gathered { out } []
  | para (out : List Block) {lines : List (List Char)} (h : lines ≠ []) :
    Gathered { out, para := lines } (lines.map .prose)
  | quote (out : List Block) (lines : List (List Char)) :
    Gathered { out, quote := some lines } (lines.map .quote)
  | list (out : List Block) (ordered : Bool) {items : List (List Char)} (h : items ≠ []) :
    Gathered { out, list := some ⟨ordered, items⟩ } (items.map (.item ordered))
  | fence (out : List Block) (lang : List Char) (lines : List (List Char)) :
    Gathered { out, fence := some ⟨langOf lang, lines⟩ } (.opens lang :: lines.map .code)

/-- The blocks and what is gathered account for the contents. -/
def Accounts (p : Blocks) (cs : List Content) : Prop :=
  ∃ done pending, cs = done ++ pending ∧ Cut MadeOf p.out done ∧ p.Gathered pending

variable {p : Blocks} {cs pending : List Content}

lemma Gathered.opened_le (h : p.Gathered pending) : p.opened ≤ 1 := by
  cases h with
  | closed out => simp [opened]
  | para out h => simp [opened, Bool.toNat_le]
  | quote out lines => simp [opened]
  | list out ordered h => simp [opened]
  | fence out lang lines => simp [opened]

/-- Closing makes one block of what is gathered, or none. -/
lemma Gathered.closeAll (h : p.Gathered pending) (unfenced : p.fence = none) :
    ∃ bs, p.closeAll = { out := p.out ++ bs } ∧ Cut MadeOf bs pending := by
  cases h with
  | closed out => exact ⟨[], by simp [Blocks.closeAll, closePara, closeQuote, closeList], .nil⟩
  | para out h =>
    exact ⟨_, by simp [Blocks.closeAll, closePara, closeQuote, closeList, h],
      .single (.paragraph h)⟩
  | quote out lines =>
    cases lines with
    | nil => exact ⟨[], by simp [Blocks.closeAll, closePara, closeQuote, closeList], .nil⟩
    | cons line lines =>
      exact ⟨_, by simp [Blocks.closeAll, closePara, closeQuote, closeList],
        .single (.quote (List.cons_ne_nil _ _))⟩
  | list out ordered h =>
    exact ⟨_, by simp [Blocks.closeAll, closePara, closeQuote, closeList],
      .single (.list ordered h)⟩
  | fence out lang lines => simp at unfenced

lemma Accounts.closeAll (h : p.Accounts cs) (unfenced : p.fence = none) :
    ∃ out, p.closeAll = { out } ∧ Cut MadeOf out cs := by
  obtain ⟨done, pending, rfl, cut, gathered⟩ := h
  obtain ⟨bs, closed, rest⟩ := gathered.closeAll unfenced
  exact ⟨_, closed, cut.append rest⟩

/-! ## One line -/

lemma accounts_closed {out : List Block} (h : Cut MadeOf out cs) : Accounts { out } cs :=
  ⟨cs, [], (List.append_nil cs).symm, h, .closed out⟩

lemma Accounts.openFence (h : p.Accounts cs) (unfenced : p.fence = none) (lang : List Char) :
    (p.openFence lang).Accounts (cs ++ [.opens lang]) := by
  obtain ⟨out, closed, cut⟩ := h.closeAll unfenced
  rw [Blocks.openFence, closed]
  exact ⟨cs, _, rfl, cut, .fence out lang []⟩

lemma Accounts.block (h : p.Accounts cs) (unfenced : p.fence = none) (level : ℕ)
    (text : List Char) :
    (p.block (.heading text level)).Accounts (cs ++ [.heading level text]) := by
  obtain ⟨out, closed, cut⟩ := h.closeAll unfenced
  rw [Blocks.block, closed]
  exact accounts_closed (cut.concat (.heading level text))

lemma closeList_of_list_none (h : p.list = none) : p.closeList = p := by rw [closeList, h]

/-- An item goes on the list of its kind, if that is open, or starts a list. -/
lemma Accounts.item (h : p.Accounts cs) (unfenced : p.fence = none) (text : List Char)
    (ordered : Bool) : (p.item text ordered).Accounts (cs ++ [.item ordered text]) := by
  obtain ⟨out, closed, cut⟩ := h.closeAll unfenced
  have started : Accounts { out, list := some ⟨ordered, [text]⟩ } (cs ++ [.item ordered text]) :=
    ⟨cs, _, rfl, cut, .list _ ordered (List.cons_ne_nil text [])⟩
  rw [Blocks.closeAll] at closed
  obtain ⟨done, pending, rfl, before, gathered⟩ := h
  cases gathered with
  | closed out' =>
    rw [closeList_of_list_none rfl] at closed
    rw [Blocks.item, closed]
    exact started
  | para out' h =>
    rw [closeList_of_list_none (by simp [closePara, closeQuote, h])] at closed
    rw [Blocks.item, closed]
    exact started
  | quote out' lines =>
    rw [closeList_of_list_none (by cases lines <;> simp [closePara, closeQuote])] at closed
    rw [Blocks.item, closed]
    exact started
  | @list out' kind items h =>
    by_cases same : kind = ordered
    · subst same
      have extended : Blocks.item { out := out', list := some ⟨kind, items⟩ } text kind =
          { out := out', list := some ⟨kind, items ++ [text]⟩ } := by
        simp [Blocks.item, closePara, closeQuote]
      rw [extended]
      exact ⟨done, (items ++ [text]).map (.item kind), by simp, before,
        .list out' kind (List.append_ne_nil_of_left_ne_nil h [text])⟩
    · have other : Blocks.item { out := out', list := some ⟨kind, items⟩ } text ordered =
          { out, list := some ⟨ordered, [text]⟩ } := by
        rw [Blocks.item, if_pos (by simpa [closePara, closeQuote] using same), closed]
        rfl
      rw [other]
      exact started
  | fence out' lang lines => simp at unfenced

/-- A line goes on the open quote, or starts one. -/
lemma Accounts.quoteLine (h : p.Accounts cs) (unfenced : p.fence = none) (line : List Char) :
    (p.quoteLine line).Accounts
      (cs ++ if (strip line).isEmpty then [] else [.quote (strip line)]) := by
  have gather : ∀ lines : List (List Char),
      (if (strip line).isEmpty then lines else lines ++ [strip line]).map Content.quote =
        lines.map .quote ++ if (strip line).isEmpty then [] else [.quote (strip line)] := by
    intro lines
    split <;> simp
  obtain ⟨out, closed, cut⟩ := h.closeAll unfenced
  have started : Accounts
      { out, quote := some (if (strip line).isEmpty then [] else [] ++ [strip line]) }
      (cs ++ if (strip line).isEmpty then [] else [.quote (strip line)]) :=
    ⟨cs, _, by rw [gather]; rfl, cut, .quote out _⟩
  obtain ⟨done, pending, rfl, before, gathered⟩ := h
  have emptied : p.closePara.closeList = { out } → (p.quoteLine line).Accounts
      (done ++ pending ++ if (strip line).isEmpty then [] else [.quote (strip line)]) := by
    intro emptied
    rw [Blocks.quoteLine, emptied]
    exact started
  cases gathered with
  | closed out' => exact emptied closed
  | para out' h =>
    exact emptied (by simpa [Blocks.closeAll, closePara, closeQuote, h] using closed)
  | list out' kind h =>
    exact emptied (by simpa [Blocks.closeAll, closePara, closeQuote] using closed)
  | quote out' lines =>
    refine ⟨done, _, ?_, before, .quote out' _⟩
    rw [gather, List.append_assoc]
    rfl
  | fence out' lang lines => simp at unfenced

/-- A line of text goes on the open paragraph, or starts one. -/
lemma Accounts.paraLine (h : p.Accounts cs) (unfenced : p.fence = none) (line : List Char) :
    Accounts { p.closeList.closeQuote with para := p.closeList.closeQuote.para ++ [strip line] }
      (cs ++ [.prose (strip line)]) := by
  obtain ⟨out, closed, cut⟩ := h.closeAll unfenced
  have started : Accounts { out, para := [strip line] } (cs ++ [.prose (strip line)]) :=
    ⟨cs, _, rfl, cut, .para out (List.cons_ne_nil (strip line) [])⟩
  obtain ⟨done, pending, rfl, before, gathered⟩ := h
  have emptied : p.closeList.closeQuote = { out } →
      Accounts { p.closeList.closeQuote with para := p.closeList.closeQuote.para ++ [strip line] }
        (done ++ pending ++ [.prose (strip line)]) := by
    intro emptied
    rw [emptied]
    exact started
  cases gathered with
  | closed out' => exact emptied closed
  | @para out' lines h =>
    exact ⟨done, (lines ++ [strip line]).map .prose, by simp, before,
      .para out' (List.append_ne_nil_of_left_ne_nil h [strip line])⟩
  | list out' kind h => exact emptied closed
  | quote out' lines => exact emptied (by cases lines <;> exact closed)
  | fence out' lang lines => simp at unfenced

/-- A line in a fence is kept as it is; the fence that closes is a block. -/
lemma Accounts.fenced {fence : Fence} (h : p.Accounts cs) (open_ : p.fence = some fence)
    (line : List Char) :
    (p.fenced fence line).Accounts (cs ++ (lineContent true line).map Content.kept) := by
  obtain ⟨done, pending, rfl, before, gathered⟩ := h
  cases gathered with
  | fence out lang lines =>
    obtain rfl : ⟨langOf lang, lines⟩ = fence := Option.some.inj open_
    by_cases closes : backticks <+: line
    · rw [Blocks.fenced, if_pos closes, lineContent, if_pos rfl, if_pos closes, List.map_nil,
        List.append_nil]
      exact accounts_closed (before.concat (.code lang lines))
    · rw [Blocks.fenced, if_neg closes, lineContent, if_pos rfl, if_neg closes]
      exact ⟨done, .opens lang :: (lines ++ [line]).map .code, by simp [Content.kept], before,
        .fence out lang (lines ++ [line])⟩
  | _ => simp at open_

lemma Accounts.prose (h : p.Accounts cs) (unfenced : p.fence = none) (line : List Char) :
    (p.prose line).Accounts (cs ++ (proseContent line).map Content.kept) := by
  unfold Blocks.prose proseContent
  cases fencePattern line with
  | some lang => exact h.openFence unfenced lang
  | none =>
  cases Markdown.heading line with
  | some m => exact h.block unfenced m.1 m.2
  | none =>
  cases bullet line with
  | some text => exact h.item unfenced text false
  | none =>
  cases numbered line with
  | some text => exact h.item unfenced text true
  | none =>
  cases quotePattern line with
  | some text =>
    have quoted := h.quoteLine unfenced text
    by_cases empty : (strip text).isEmpty <;> simpa [empty, Content.kept] using quoted
  | none =>
    by_cases blank : (strip line).isEmpty
    · obtain ⟨out, closed, cut⟩ := h.closeAll unfenced
      simpa [blank, closed] using accounts_closed cut
    · simpa [blank, Content.kept] using h.paraLine unfenced line

/-- One line keeps the account. -/
lemma Accounts.feed (h : p.Accounts cs) (line : List Char) :
    (p.feed line).Accounts (cs ++ (lineContent p.fence.isSome line).map Content.kept) := by
  rw [Blocks.feed]
  split
  next fence open_ =>
    rw [open_]
    exact h.fenced open_ line
  next unfenced =>
    rw [unfenced]
    exact h.prose unfenced line

/-! ## All lines -/

@[simp] lemma closeQuote_fence (p : Blocks) : p.closeQuote.fence = p.fence := by
  unfold closeQuote
  split <;> rfl

@[simp] lemma closePara_fence (p : Blocks) : p.closePara.fence = p.fence := by
  unfold closePara
  split <;> rfl

@[simp] lemma closeList_fence (p : Blocks) : p.closeList.fence = p.fence := by
  unfold closeList
  split <;> rfl

lemma closeAll_fence (p : Blocks) : p.closeAll.fence = p.fence := by simp [Blocks.closeAll]

lemma item_fence (p : Blocks) (text : List Char) (ordered : Bool) :
    (p.item text ordered).fence = p.fence := by
  simp only [Blocks.item, apply_ite Blocks.fence, closeList_fence, closeQuote_fence,
    closePara_fence, ite_self]

/-- Outside a fence only the line that opens one changes that. -/
lemma prose_fence (p : Blocks) (line : List Char) (unfenced : p.fence = none) :
    (p.prose line).fence.isSome = (fencePattern line).isSome := by
  unfold Blocks.prose
  cases fencePattern line with
  | some lang => rfl
  | none =>
  rw [Option.isSome_none, Option.isSome_eq_false_iff, Option.isNone_iff_eq_none, ← unfenced]
  cases Markdown.heading line with
  | some m => exact closeAll_fence p
  | none =>
  cases bullet line with
  | some text => exact item_fence p text false
  | none =>
  cases numbered line with
  | some text => exact item_fence p text true
  | none =>
  cases quotePattern line with
  | some text => simp [Blocks.quoteLine]
  | none =>
    by_cases blank : (strip line).isEmpty
    · simp [blank, closeAll_fence]
    · simp [blank]

lemma feed_fence (p : Blocks) (line : List Char) :
    (p.feed line).fence.isSome = fencedAfter p.fence.isSome line := by
  rw [Blocks.feed]
  split
  next fence fenced =>
    rw [fenced]
    by_cases closes : backticks <+: line <;> simp [Blocks.fenced, fencedAfter, closes, closeFence]
  next unfenced =>
    rw [prose_fence p line unfenced, unfenced]
    rfl

/-- A run of lines keeps the account. -/
lemma Accounts.foldl_feed (lines : List (List Char)) (h : p.Accounts cs) :
    (lines.foldl Blocks.feed p).Accounts
      (cs ++ (content p.fence.isSome lines).map Content.kept) := by
  induction lines generalizing p cs with
  | nil => simpa [content] using h
  | cons line lines ih =>
    have next := ih (h.feed line)
    rw [feed_fence, List.append_assoc, ← List.map_append] at next
    exact next

/-- A fence that is still open at the end is a block, too. -/
lemma Accounts.finish (h : p.Accounts cs) : Cut MadeOf p.finish cs := by
  have closed : ∀ {p : Blocks}, p.Accounts cs → p.fence = none → Cut MadeOf p.closeAll.out cs := by
    intro p h unfenced
    obtain ⟨out, closed, cut⟩ := h.closeAll unfenced
    rwa [closed]
  rw [Blocks.finish]
  split
  next fence fenced =>
    have after := h.fenced fenced backticks
    rw [Blocks.fenced, if_pos List.prefix_rfl, lineContent, if_pos rfl, if_pos List.prefix_rfl,
      List.map_nil, List.append_nil] at after
    exact closed after rfl
  next unfenced => exact closed h unfenced

end Blocks

/-- The blocks are what the lines give, cut into consecutive parts. -/
theorem blocks_cut (text : List Char) :
    Cut MadeOf (blocks text) ((content false (eachLine text)).map Content.kept) :=
  ((Blocks.accounts_closed .nil).foldl_feed (eachLine text)).finish

theorem feedAll_opened_le (lines : List (List Char)) : (Blocks.feedAll lines).opened ≤ 1 := by
  obtain ⟨_, _, _, _, gathered⟩ := (Blocks.accounts_closed .nil).foldl_feed lines
  exact gathered.opened_le

/-! ## Line ends -/

/-- The text with `"\r\n"` at the end of each line. -/
def crlf (text : List Char) : List Char :=
  text.flatMap fun c => if c = '\n' then ['\r', '\n'] else [c]

lemma chomp_of_notMem {line : List Char} (h : '\r' ∉ line) : chomp line = line :=
  if_neg fun last => h (List.mem_of_getLast? last)

lemma chomp_concat (line : List Char) : chomp (line ++ ['\r']) = line := by simp [chomp]

lemma eachLineFrom_crlf {line text : List Char} (hline : '\r' ∉ line) (htext : '\r' ∉ text) :
    eachLineFrom line (crlf text) = eachLineFrom line text := by
  induction text generalizing line with
  | nil => rfl
  | cons c text ih =>
    obtain ⟨hc, htext⟩ := List.ne_and_not_mem_of_not_mem_cons htext
    rw [crlf, List.flatMap_cons, ← crlf]
    by_cases ends : c = '\n'
    · rw [if_pos ends, List.cons_append, List.singleton_append, eachLineFrom, if_neg (by decide),
        eachLineFrom, if_pos rfl, chomp_concat, ih List.not_mem_nil htext, eachLineFrom,
        if_pos ends, chomp_of_notMem hline]
    · rw [if_neg ends, List.singleton_append, eachLineFrom, if_neg ends, eachLineFrom,
        if_neg ends, ih _ htext]
      simp [hline, hc]

/-! ## What is lost -/

/-- The text behind a marker, of a heading or an item. -/
def Content.marked : Content → List (List Char)
  | .heading _ text => [text]
  | .item _ text => [text]
  | _ => []

def Block.marked : Block → List (List Char)
  | .heading text _ => [text]
  | .list items _ => items
  | _ => []

lemma MadeOf.marked_eq {b : Block} {cs : List Content} (h : MadeOf b cs) :
    b.marked = cs.flatMap Content.marked := by
  cases h with
  | heading level text => rfl
  | list ordered h => simp [Block.marked, Content.marked, List.flatMap_map]
  | _ => simp [Block.marked, Content.marked, List.flatMap_map]

lemma Content.marked_trimmed (c : Content) : c.trimmed.marked = c.marked.map strip := by
  cases c <;> rfl

lemma Content.marked_kept (c : Content) : c.kept.marked = c.marked := by cases c <;> rfl

/-- Only the text behind a marker is kept untrimmed. -/
lemma Content.trimmed_eq_kept {c : Content} (h : ∀ s ∈ c.marked, strip s = s) :
    c.trimmed = c.kept := by
  cases c with
  | heading level text => exact congrArg (heading level) (h text (List.mem_singleton_self text))
  | item ordered text => exact congrArg (item ordered) (h text (List.mem_singleton_self text))
  | _ => rfl

/-- The parser loses nothing of the text. -/
structure KeepsAll (text : List Char) : Prop where
  /-- After each line at most one accumulator is open. -/
  opened_le : ∀ lines, lines <+: eachLine text → (Blocks.feedAll lines).opened ≤ 1
  /-- Each line gives its content, trimmed outside fences, to one block, in order. -/
  cut : Cut MadeOf (blocks text) ((content false (eachLine text)).map Content.trimmed)
  /-- The line ends make no difference. -/
  crlf : '\r' ∉ text → blocks (crlf text) = blocks text

theorem keepsAll_iff (text : List Char) :
    KeepsAll text ↔
      ∀ c ∈ content false (eachLine text), ∀ s ∈ c.marked, strip s = s := by
  constructor
  · intro keeps c hc s hs
    have trimmed := keeps.cut.flatMap_eq fun _ _ => MadeOf.marked_eq
    have kept := (blocks_cut text).flatMap_eq fun _ _ => MadeOf.marked_eq
    rw [trimmed] at kept
    simp only [List.flatMap_map, Content.marked_trimmed, Content.marked_kept] at kept
    rw [← List.map_flatMap] at kept
    have fixed := List.map_inj_left.mp (kept.trans (List.map_id _).symm)
    exact fixed s (List.mem_flatMap.mpr ⟨c, hc, hs⟩)
  · intro same
    refine ⟨fun lines _ => feedAll_opened_le lines, ?_, fun h => ?_⟩
    · rw [List.map_congr_left fun c hc => Content.trimmed_eq_kept (same c hc)]
      exact blocks_cut text
    · rw [blocks, blocks, eachLine, eachLineFrom_crlf List.not_mem_nil h]
      rfl

/-- A heading keeps the blank at its end, where a quote drops it. -/
theorem not_keepsAll_heading : ¬ KeepsAll "# Title ".toList := by
  intro keeps
  have marked := keeps.cut.flatMap_eq fun _ _ => MadeOf.marked_eq
  revert marked
  decide

end Markdown

end Yrby
