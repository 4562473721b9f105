import Yrby.Framework.Parts
import Yrby.Framework.Patterns
import Yrby.Render.Links
import Yrby.Writer.Blocks
import Yrby.Writer.Markdown

/-!
# Inline Markdown (`lexical_markdown.rb`)

`INLINE` is a pattern with five alternatives.  `runs` searches a line for its leftmost match again
and again; what stands between two matches is a plain run.

Every match is a text between delimiters (`Spelled`), so the runs spell the line, and a link is
only made of a URL that `safe_url?` lets through.  In the other direction, runs that are written
with their delimiters are read back (`runs_markdown`), whenever no text holds a delimiter and an
italic run stands clear of words.
-/

namespace Yrby

namespace Markdown

open Writer
open Links (safeUrl)

/-! ## The pattern -/

/-- `\w` -/
def isWord (c : Char) : Bool := c.isAlphanum || c = '_'

/-- `[^()\s]` -/
def isUrlChar (c : Char) : Bool := !(c = '(' || c = ')' || isSpace c)

def lit (c : Char) : Pattern Char true := .one (· = c)

/-- All but one character, again and again: `[^c]+`. -/
def until_ (c : Char) : Pattern Char true := .plus true (.one (· ≠ c))

/-- `\*\*(.+?)\*\*` -/
def bold : Pattern Char true :=
  .seq (lit '*') (.seq (lit '*') (.seq (.group 2 (.plus false (.one (· ≠ '\n'))))
    (.seq (lit '*') (lit '*'))))

def code : Pattern Char true :=
  .seq (lit '`') (.seq (.group 3 (until_ '`')) (lit '`'))

/-- One character of a URL, or a parenthesis: `[^()\s]|\([^()\s]*\)`. -/
def urlPart : Pattern Char true :=
  .alt (.one isUrlChar) (.seq (lit '(') (.seq (.star (.one isUrlChar)) (lit ')')))

/-- `\[([^\]]+)\]\(((?:[^()\s]|\([^()\s]*\))+)\)` -/
def link : Pattern Char true :=
  .seq (lit '[') (.seq (.group 4 (until_ ']')) (.seq (lit ']') (.seq (lit '(')
    (.seq (.group 5 (.plus true urlPart)) (lit ')')))))

/-- `(?<![*\w])\*([^*]+)\*(?!\w)` -/
def starred : Pattern Char true :=
  .seq (.notBehind fun c => c = '*' || isWord c) (.seq (lit '*') (.seq (.group 6 (until_ '*'))
    (.seq (lit '*') (.notAhead isWord))))

/-- `(?<!\w)_([^_]+)_(?!\w)` -/
def underscored : Pattern Char true :=
  .seq (.notBehind isWord) (.seq (lit '_') (.seq (.group 7 (until_ '_'))
    (.seq (lit '_') (.notAhead isWord))))

/-- `INLINE` -/
def inline : Pattern Char true :=
  .group 1 (.alt bold (.alt code (.alt link (.alt starred underscored))))

/-! ## Runs -/

def plain (text : List Char) : Run := ⟨.ofList text, fun _ => false, none, none⟩

def formatted (f : Format) (text : List Char) : Run := ⟨.ofList text, fun g => g = f, none, none⟩

def linked (text url : List Char) : Run := ⟨.ofList text, fun _ => false, some (.ofList url), none⟩

/-- The run of a match. -/
def runOf (m : Place Char) : Run :=
  match m.groups 2 with
  | some text => formatted .bold text
  | none =>
  match m.groups 3 with
  | some text => formatted .code text
  | none =>
  match m.groups 4 with
  | some text =>
    let url := (m.groups 5).getD []
    if safeUrl (.ofList url) then linked text url else plain text
  | none => formatted .italic (((m.groups 6).or (m.groups 7)).getD [])

/-- A plain run, unless it is empty. -/
def plainRuns (text : List Char) : List Run := if text.isEmpty then [] else [plain text]

def runsFrom : ℕ → List Char → List Run
  | 0, rest => plainRuns rest
  | fuel + 1, rest =>
    match inline.search [] rest with
    | none => plainRuns rest
    | some (start, stop) =>
      plainRuns start.before.reverse ++ runOf stop :: runsFrom fuel stop.after

/-- `Markdown.runs`; every match takes at least one character. -/
def runs (line : List Char) : List Run := runsFrom line.length line

/-! ## What a match is made of -/

/-- What is written in the line for a run. -/
inductive Spelled : Run → List Char → Prop
  | plain (text : List Char) : Spelled (plain text) text
  | bold (text : List Char) : Spelled (formatted .bold text) (['*', '*'] ++ text ++ ['*', '*'])
  | code (text : List Char) : Spelled (formatted .code text) (['`'] ++ text ++ ['`'])
  | starred (text : List Char) : Spelled (formatted .italic text) (['*'] ++ text ++ ['*'])
  | underscored (text : List Char) : Spelled (formatted .italic text) (['_'] ++ text ++ ['_'])
  | link (text url : List Char) (safe : safeUrl (.ofList url)) :
    Spelled (linked text url) (['['] ++ text ++ [']', '('] ++ url ++ [')'])
  | unsafe_link (text url : List Char) (bad : ¬ safeUrl (.ofList url)) :
    Spelled (plain text) (['['] ++ text ++ [']', '('] ++ url ++ [')'])

lemma mem_lit {c : Char} {s t : Place Char} (h : t ∈ (lit c).run s) :
    s.Reaches t [c] ∧ t.groups = s.groups := by
  obtain ⟨d, hd, reaches, groups⟩ := Pattern.mem_run_one.1 h
  obtain rfl : d = c := by simpa using hd
  exact ⟨reaches, groups⟩

/-- A text between delimiters, as a group. -/
lemma mem_delimited {k : ℕ} {m : Bool} {a : Char} {close : List Char} {c : Pattern Char true}
    {tail : Pattern Char m} {s t : Place Char} (alone : c.captures = [])
    (ends : ∀ u, t ∈ tail.run u → u.Reaches t close ∧ t.groups = u.groups)
    (h : t ∈ (Pattern.seq (lit a) (.seq (.group k c) tail)).run s) :
    ∃ text, s.Reaches t ([a] ++ text ++ close) ∧
      t.groups = fun j => if j = k then some text else s.groups j := by
  obtain ⟨u, hu, h⟩ := Pattern.mem_run_seq.1 h
  obtain ⟨v, hv, h⟩ := Pattern.mem_run_seq.1 h
  obtain ⟨first, same⟩ := mem_lit hu
  obtain ⟨text, inside, groups⟩ := Pattern.mem_run_group_alone alone hv
  obtain ⟨last, same'⟩ := ends v h
  exact ⟨text, (first.trans inside).trans last, by rw [same', groups, same]⟩

/-- A delimiter that no word may follow. -/
lemma ends_clear {b : Char} {t u : Place Char}
    (h : t ∈ (Pattern.seq (lit b) (.notAhead isWord)).run u) :
    u.Reaches t [b] ∧ t.groups = u.groups := by
  obtain ⟨v, hv, h⟩ := Pattern.mem_run_seq.1 h
  obtain ⟨rfl, -⟩ := Pattern.mem_run_notAhead.1 h
  exact mem_lit hv

lemma mem_bold {s t : Place Char} (h : t ∈ bold.run s) :
    ∃ text, s.Reaches t (['*', '*'] ++ text ++ ['*', '*']) ∧
      t.groups = fun j => if j = 2 then some text else s.groups j := by
  obtain ⟨u, hu, h⟩ := Pattern.mem_run_seq.1 h
  obtain ⟨first, same⟩ := mem_lit hu
  have ends : ∀ v, t ∈ (Pattern.seq (lit '*') (lit '*')).run v →
      v.Reaches t ['*', '*'] ∧ t.groups = v.groups := by
    intro v hv
    obtain ⟨w, hw, hv⟩ := Pattern.mem_run_seq.1 hv
    obtain ⟨r, g⟩ := mem_lit hw
    obtain ⟨r', g'⟩ := mem_lit hv
    exact ⟨r.trans r', g'.trans g⟩
  obtain ⟨text, rest, groups⟩ := mem_delimited rfl ends h
  exact ⟨text, first.trans rest, by rw [groups, same]⟩

lemma mem_code {s t : Place Char} (h : t ∈ code.run s) :
    ∃ text, s.Reaches t (['`'] ++ text ++ ['`']) ∧
      t.groups = fun j => if j = 3 then some text else s.groups j :=
  mem_delimited rfl (fun _ hu => mem_lit hu) h

lemma mem_link {s t : Place Char} (h : t ∈ link.run s) :
    ∃ text url, s.Reaches t (['['] ++ text ++ [']', '('] ++ url ++ [')']) ∧
      t.groups = fun j => if j = 5 then some url else if j = 4 then some text else s.groups j := by
  obtain ⟨u, hu, h⟩ := Pattern.mem_run_seq.1 h
  obtain ⟨v, hv, h⟩ := Pattern.mem_run_seq.1 h
  obtain ⟨w, hw, h⟩ := Pattern.mem_run_seq.1 h
  obtain ⟨first, g₁⟩ := mem_lit hu
  obtain ⟨text, inside, g₂⟩ := Pattern.mem_run_group_alone rfl hv
  obtain ⟨middle, g₃⟩ := mem_lit hw
  obtain ⟨url, rest, g₄⟩ := mem_delimited rfl (fun _ hu => mem_lit hu) h
  refine ⟨text, url, ?_, by rw [g₄, g₃, g₂, g₁]⟩
  simpa using ((first.trans inside).trans middle).trans rest

lemma mem_starred {s t : Place Char} (h : t ∈ starred.run s) :
    ∃ text, s.Reaches t (['*'] ++ text ++ ['*']) ∧
      t.groups = fun j => if j = 6 then some text else s.groups j := by
  obtain ⟨u, hu, rest⟩ := Pattern.mem_run_seq.1 h
  obtain ⟨rfl, -⟩ := Pattern.mem_run_notBehind.1 hu
  exact mem_delimited rfl (fun _ hu => ends_clear hu) rest

lemma mem_underscored {s t : Place Char} (h : t ∈ underscored.run s) :
    ∃ text, s.Reaches t (['_'] ++ text ++ ['_']) ∧
      t.groups = fun j => if j = 7 then some text else s.groups j := by
  obtain ⟨u, hu, rest⟩ := Pattern.mem_run_seq.1 h
  obtain ⟨rfl, -⟩ := Pattern.mem_run_notBehind.1 hu
  exact mem_delimited rfl (fun _ hu => ends_clear hu) rest

/-- The run of a match is spelled by what the match takes. -/
lemma spelled_of_mem {s t : Place Char} (fresh : s.groups = fun _ => none)
    (h : t ∈ inline.run s) : ∃ w, s.Reaches t w ∧ w ≠ [] ∧ Spelled (runOf t) w := by
  obtain ⟨u, hu, rfl⟩ := Pattern.mem_run_group.1 h
  have outer : ∀ j, j ≠ 1 → (s.capture 1 u).groups j = u.groups j := by
    intro j hj
    rw [Place.capture]
    exact if_neg hj
  rcases Pattern.mem_run_alt.1 hu with hb | hu
  · obtain ⟨text, ⟨after, before⟩, groups⟩ := mem_bold hb
    have run : runOf (s.capture 1 u) = formatted .bold text := by
      simp [runOf, outer, groups]
    exact ⟨_, ⟨after, before⟩, by simp, run ▸ .bold text⟩
  rcases Pattern.mem_run_alt.1 hu with hc | hu
  · obtain ⟨text, ⟨after, before⟩, groups⟩ := mem_code hc
    have run : runOf (s.capture 1 u) = formatted .code text := by
      simp [runOf, outer, groups, fresh]
    exact ⟨_, ⟨after, before⟩, by simp, run ▸ .code text⟩
  rcases Pattern.mem_run_alt.1 hu with hl | hu
  · obtain ⟨text, url, ⟨after, before⟩, groups⟩ := mem_link hl
    refine ⟨_, ⟨after, before⟩, by simp, ?_⟩
    by_cases safe : safeUrl (.ofList url) = true
    · have run : runOf (s.capture 1 u) = linked text url := by
        simp [runOf, outer, groups, fresh, safe]
      exact run ▸ .link text url safe
    · have run : runOf (s.capture 1 u) = plain text := by
        simp [runOf, outer, groups, fresh, safe]
      exact run ▸ .unsafe_link text url safe
  rcases Pattern.mem_run_alt.1 hu with hs | hu
  · obtain ⟨text, ⟨after, before⟩, groups⟩ := mem_starred hs
    have run : runOf (s.capture 1 u) = formatted .italic text := by
      simp [runOf, outer, groups, fresh]
    exact ⟨_, ⟨after, before⟩, by simp, run ▸ .starred text⟩
  · obtain ⟨text, ⟨after, before⟩, groups⟩ := mem_underscored hu
    have run : runOf (s.capture 1 u) = formatted .italic text := by
      simp [runOf, outer, groups, fresh]
    exact ⟨_, ⟨after, before⟩, by simp, run ▸ .underscored text⟩

/-! ## What a line is cut into -/

/-- The leftmost match of a line. -/
structure Match (line : List Char) (start stop : Place Char) (taken : List Char) : Prop where
  split : line = start.before.reverse ++ taken ++ stop.after
  some : taken ≠ []
  spelled : Spelled (runOf stop) taken
  fails : ∀ u v, start.before.reverse = u ++ v → v ≠ [] →
    inline.Fails u.reverse (v ++ taken ++ stop.after)

lemma match_of_search {line : List Char} {start stop : Place Char}
    (h : inline.search [] line = some (start, stop)) : ∃ taken, Match line start stop taken := by
  obtain ⟨gap, found⟩ := Pattern.search_eq_some h
  have before : start.before = gap.reverse := by
    rw [found.start]
    simp
  have fresh : start.groups = fun _ => none := by rw [found.start]
  obtain ⟨taken, reaches, some, spelled⟩ :=
    spelled_of_mem fresh (List.mem_of_mem_head? found.head)
  refine ⟨taken, ?_, some, spelled, fun u v cut other => ?_⟩
  · rw [found.split, reaches.after, before, List.reverse_reverse, List.append_assoc]
  · rw [before, List.reverse_reverse] at cut
    have := found.fails u v cut other
    rwa [List.append_nil, reaches.after, ← List.append_assoc] at this

lemma Match.shorter {line : List Char} {start stop : Place Char} {taken : List Char}
    (h : Match line start stop taken) : stop.after.length < line.length := by
  have := List.length_pos_iff.2 h.some
  rw [h.split, List.length_append, List.length_append]
  omega

/-- Enough fuel is enough. -/
lemma runsFrom_eq {fuel : ℕ} {line : List Char} (enough : line.length ≤ fuel) :
    runsFrom fuel line = runs line := by
  induction fuel using Nat.strong_induction_on generalizing line with
  | _ fuel ih =>
    cases fuel with
    | zero =>
      obtain rfl := List.length_eq_zero_iff.1 (Nat.le_zero.1 enough)
      rfl
    | succ fuel =>
      cases length : line.length with
      | zero =>
        obtain rfl := List.length_eq_zero_iff.1 length
        have none : inline.search [] [] = none := by decide
        rw [runsFrom, none]
        rfl
      | succ n =>
        rw [runs, length, runsFrom, runsFrom]
        cases found : inline.search [] line with
        | none => rfl
        | some m =>
          obtain ⟨start, stop⟩ := m
          obtain ⟨taken, h⟩ := match_of_search found
          have shorter := h.shorter
          dsimp only
          rw [ih fuel (Nat.lt_succ_self _) (by omega), ih n (by omega) (by omega)]

/-- The loop of `runs`, once round. -/
lemma runs_eq (line : List Char) :
    runs line =
      match inline.search [] line with
      | none => plainRuns line
      | some (start, stop) => plainRuns start.before.reverse ++ runOf stop :: runs stop.after := by
  cases line with
  | nil =>
    have none : inline.search [] [] = none := by decide
    rw [none]
    rfl
  | cons c cs =>
    rw [runs, List.length_cons, runsFrom]
    cases found : inline.search [] (c :: cs) with
    | none => rfl
    | some m =>
      obtain ⟨start, stop⟩ := m
      obtain ⟨taken, h⟩ := match_of_search found
      have shorter := h.shorter
      rw [List.length_cons] at shorter
      dsimp only
      rw [runsFrom_eq (by omega)]

/-- A line read as runs: plain text in which nothing matches, then a match, and so on with the
rest as a line of its own. -/
inductive Read : List Char → List Run → Prop
  | rest {line : List Char} (fails : ∀ u v, line = u ++ v → inline.Fails u.reverse v) :
    Read line (plainRuns line)
  | found {gap taken rest : List Char} {run : Run} {rs : List Run} (spelled : Spelled run taken)
    (some : taken ≠ [])
    (fails : ∀ u v, gap = u ++ v → v ≠ [] → inline.Fails u.reverse (v ++ taken ++ rest))
    (on : Read rest rs) : Read (gap ++ taken ++ rest) (plainRuns gap ++ run :: rs)

lemma cut_plainRuns {text : List Char} {rs : List Run} {rest : List Char}
    (h : Parts.Cut Spelled rs rest) : Parts.Cut Spelled (plainRuns text ++ rs) (text ++ rest) := by
  cases text with
  | nil => exact h
  | cons c cs => exact .cons (.plain _) h

/-- The spellings of the runs are the line. -/
lemma Read.cut {line : List Char} {rs : List Run} (h : Read line rs) :
    Parts.Cut Spelled rs line := by
  induction h with
  | @rest line _ =>
    have whole : Parts.Cut Spelled (plainRuns line ++ []) (line ++ []) := cut_plainRuns .nil
    simpa using whole
  | found spelled _ _ _ ih =>
    rw [List.append_assoc]
    exact cut_plainRuns (.cons spelled ih)

lemma read_runs (line : List Char) : Read line (runs line) := by
  induction length : line.length using Nat.strong_induction_on generalizing line with
  | _ n ih =>
    rw [runs_eq]
    cases found : inline.search [] line with
    | none =>
      have fails := Pattern.search_eq_none.1 found
      simp only [List.append_nil] at fails
      exact .rest fails
    | some m =>
      obtain ⟨start, stop⟩ := m
      obtain ⟨taken, h⟩ := match_of_search found
      have on := ih _ (length ▸ h.shorter) stop.after rfl
      have whole := Read.found h.spelled h.some h.fails on
      rwa [← h.split] at whole

/-- A URL is made of characters and of parentheses without parentheses inside. -/
inductive UrlPart
  | char (c : Char)
  | parens (inside : List Char)

def UrlPart.text : UrlPart → List Char
  | .char c => [c]
  | .parens inside => ['('] ++ inside ++ [')']

def UrlPart.Valid : UrlPart → Prop
  | .char c => isUrlChar c
  | .parens inside => ∀ c ∈ inside, isUrlChar c

def urlText (url : List UrlPart) : List Char := url.flatMap UrlPart.text

/-- A run with the delimiters that it is written with. -/
inductive Segment
  | plain (text : List Char)
  | bold (text : List Char)
  | code (text : List Char)
  | starred (text : List Char)
  | underscored (text : List Char)
  | link (text : List Char) (url : List UrlPart)

namespace Segment

def markdown : Segment → List Char
  | .plain text => text
  | .bold text => ['*', '*'] ++ text ++ ['*', '*']
  | .code text => ['`'] ++ text ++ ['`']
  | .starred text => ['*'] ++ text ++ ['*']
  | .underscored text => ['_'] ++ text ++ ['_']
  | .link text url => ['['] ++ text ++ [']', '('] ++ urlText url ++ [')']

def run : Segment → Run
  | .plain text => Markdown.plain text
  | .bold text => formatted .bold text
  | .code text => formatted .code text
  | .starred text => formatted .italic text
  | .underscored text => formatted .italic text
  | .link text url =>
    if safeUrl (.ofList (urlText url)) then linked text (urlText url) else Markdown.plain text

/-- The characters that markup starts with. -/
def delimiters : List Char := ['*', '`', '[', '_']

/-- No text holds its delimiter, and italic text stands clear of words.  `prev` is the last
character of the plain text before the segment, `next` the character after it. -/
def Legible (prev next : Option Char) : Segment → Prop
  | .plain text => prev = none ∧ text ≠ [] ∧ ∀ c ∈ text, c ∉ delimiters
  | .bold text => text ≠ [] ∧ ∀ c ∈ text, c ≠ '*' ∧ c ≠ '\n'
  | .code text => text ≠ [] ∧ '`' ∉ text
  | .starred text =>
    text ≠ [] ∧ '*' ∉ text ∧ prev.any (fun c => c = '*' || isWord c) = false ∧
      next.any isWord = false
  | .underscored text =>
    text ≠ [] ∧ '_' ∉ text ∧ prev.any isWord = false ∧ next.any isWord = false
  | .link text url => text ≠ [] ∧ ']' ∉ text ∧ url ≠ [] ∧ ∀ p ∈ url, p.Valid

/-- The plain text that the next segment stands behind. -/
def tail : Segment → List Char
  | .plain text => text
  | _ => []

end Segment

def markdown (segments : List Segment) : List Char := segments.flatMap Segment.markdown

/-- Every segment is legible where it stands. -/
def Legible : Option Char → List Segment → Prop
  | _, [] => True
  | prev, segment :: segments =>
    segment.Legible prev (markdown segments).head? ∧ Legible segment.tail.getLast? segments

section

variable {β : Type*} {k : Place Char → Option β} {b cs rest : List Char}
  {g : ℕ → Option (List Char)} {x : β}

lemma first_lit (c d : Char) :
    (lit c).first k ⟨b, d :: cs, g⟩ = if d = c then k ⟨d :: b, cs, g⟩ else none := by
  rw [lit, Pattern.first_one]
  by_cases h : d = c <;> simp [h]

lemma first_lit_nil (c : Char) : (lit c).first k ⟨b, [], g⟩ = none := rfl

lemma first_until {c : Char} {w : List Char} (some : w ≠ []) (free : c ∉ w)
    (h : k ⟨w.reverse ++ b, c :: rest, g⟩ = .some x) :
    (until_ c).first k ⟨b, w ++ c :: rest, g⟩ = .some x := by
  refine Pattern.first_plus_greedy some ?_ (by simp) h
  intro d hd
  have : d ≠ c := fun same => free (same ▸ hd)
  simpa using this

/-- Nothing starts with a character that is no delimiter. -/
lemma fails_of_plain {c : Char} (h : c ∉ Segment.delimiters) : inline.Fails b (c :: cs) := by
  simp only [Segment.delimiters, List.mem_cons, List.not_mem_nil, or_false, not_or] at h
  obtain ⟨h₁, h₂, h₃, h₄⟩ := h
  rw [Pattern.Fails, Pattern.run_eq_nil, inline, Pattern.first_group]
  simp only [Pattern.first_alt, bold, code, link, starred, underscored, Pattern.first_seq,
    Pattern.first_notBehind, first_lit, h₁, h₂, h₃, h₄, if_false, ite_self, Option.or_none]

lemma fails_nil : inline.Fails b [] := by
  rw [Pattern.Fails, Pattern.run_eq_nil, inline, Pattern.first_group]
  simp only [Pattern.first_alt, bold, code, link, starred, underscored, Pattern.first_seq,
    Pattern.first_notBehind, first_lit_nil, ite_self, Option.or_none]

lemma capture_eq (j : ℕ) (w b' : List Char) (g' : ℕ → Option (List Char)) :
    Place.capture j ⟨b, w ++ rest, g⟩ ⟨b', rest, g'⟩ =
      ⟨b', rest, fun i => if i = j then some w else g' i⟩ := by
  simp [Place.capture, Place.consumed]

lemma first_group_until {c : Char} {w : List Char} (j : ℕ) (some : w ≠ []) (free : c ∉ w)
    (h : k ⟨w.reverse ++ b, c :: rest, fun i => if i = j then .some w else g i⟩ = .some x) :
    (Pattern.group j (until_ c)).first k ⟨b, w ++ c :: rest, g⟩ = .some x := by
  rw [Pattern.first_group]
  exact first_until some free (by rw [capture_eq]; exact h)

lemma first_bold {w : List Char} (some : w ≠ []) (free : ∀ c ∈ w, c ≠ '*' ∧ c ≠ '\n')
    (h : k ⟨'*' :: '*' :: (w.reverse ++ '*' :: '*' :: b), rest,
      fun i => if i = 2 then .some w else g i⟩ = .some x) :
    bold.first k ⟨b, '*' :: '*' :: (w ++ '*' :: '*' :: rest), g⟩ = .some x := by
  rw [bold, Pattern.first_seq, first_lit, if_pos rfl, Pattern.first_seq, first_lit, if_pos rfl,
    Pattern.first_seq, Pattern.first_group]
  refine Pattern.first_plus_lazy some ?_ ?_ ?_
  · intro c hc
    simpa using (free c hc).2
  · rw [capture_eq, Pattern.first_seq, first_lit, if_pos rfl, first_lit, if_pos rfl]
    exact h
  · rintro u v rfl - other
    obtain ⟨c, v, rfl⟩ := List.exists_cons_of_ne_nil other
    rw [List.cons_append, Pattern.first_seq, Place.capture, first_lit,
      if_neg (free c (by simp)).1]

lemma first_code {w : List Char} (some : w ≠ []) (free : '`' ∉ w)
    (h : k ⟨'`' :: (w.reverse ++ '`' :: b), rest, fun i => if i = 3 then .some w else g i⟩ =
      .some x) :
    code.first k ⟨b, '`' :: (w ++ '`' :: rest), g⟩ = .some x := by
  rw [code, Pattern.first_seq, first_lit, if_pos rfl, Pattern.first_seq]
  exact first_group_until 3 some free (by rw [first_lit, if_pos rfl]; exact h)

/-- An italic text between delimiters `c`. -/
lemma first_italic {c : Char} {j : ℕ} {behind : Char → Bool} {w : List Char} (some : w ≠ [])
    (free : c ∉ w) (prev : b.head?.any behind = false) (next : rest.head?.any isWord = false)
    (h : k ⟨c :: (w.reverse ++ c :: b), rest, fun i => if i = j then .some w else g i⟩ =
      .some x) :
    (Pattern.seq (.notBehind behind) (.seq (lit c) (.seq (.group j (until_ c))
      (.seq (lit c) (.notAhead isWord))))).first k ⟨b, c :: (w ++ c :: rest), g⟩ = .some x := by
  rw [Pattern.first_seq, Pattern.first_notBehind, if_neg (by simp [prev]), Pattern.first_seq,
    first_lit, if_pos rfl, Pattern.first_seq]
  refine first_group_until j some free ?_
  rw [Pattern.first_seq, first_lit, if_pos rfl, Pattern.first_notAhead, if_neg (by simp [next])]
  exact h

/-- One step over a part of a URL. -/
lemma step_urlPart {p : UrlPart} (valid : p.Valid) :
    (urlPart.run ⟨b, p.text ++ rest, g⟩).head? = some ⟨p.text.reverse ++ b, rest, g⟩ := by
  rw [Pattern.head?_run, urlPart, Pattern.first_alt]
  cases p with
  | char c =>
    have one : isUrlChar c = true := valid
    rw [UrlPart.text, List.singleton_append, Pattern.first_one, if_pos one]
    rfl
  | parens inside =>
    have closed : (Pattern.star (.one isUrlChar)).first ((lit ')').first some)
        ⟨'(' :: b, inside ++ ')' :: rest, g⟩ =
          some ⟨')' :: (inside.reverse ++ '(' :: b), rest, g⟩ :=
      Pattern.first_star valid (by simp [isUrlChar]) (by rw [first_lit, if_pos rfl])
    have opened : (Pattern.one isUrlChar).first some ⟨b, '(' :: (inside ++ ')' :: rest), g⟩ =
        none := by
      rw [Pattern.first_one, if_neg (by decide)]
    have text : (UrlPart.parens inside).text ++ rest = '(' :: (inside ++ ')' :: rest) := by
      simp [UrlPart.text]
    rw [text, opened, Pattern.first_seq, first_lit, if_pos rfl, Pattern.first_seq, closed]
    simp [UrlPart.text]

lemma chain_url {url : List UrlPart} (valid : ∀ p ∈ url, p.Valid) (b : List Char) :
    Pattern.Chain urlPart.run url.length ⟨b, urlText url ++ rest, g⟩
      ⟨(urlText url).reverse ++ b, rest, g⟩ := by
  induction url generalizing b with
  | nil => exact .refl _
  | cons p url ih =>
    have on := ih (fun q hq => valid q (List.mem_cons_of_mem _ hq)) (p.text.reverse ++ b)
    have text : urlText (p :: url) = p.text ++ urlText url := List.flatMap_cons
    rw [text, List.append_assoc, List.reverse_append, List.append_assoc]
    exact .step (step_urlPart (valid p List.mem_cons_self)) on

lemma urlPart_stuck (b cs : List Char) (g : ℕ → Option (List Char)) :
    urlPart.run ⟨b, ')' :: cs, g⟩ = [] := by
  rw [Pattern.run_eq_nil, urlPart, Pattern.first_alt, Pattern.first_one, if_neg (by decide),
    Pattern.first_seq, first_lit, if_neg (by decide)]
  rfl

lemma length_le_urlText (url : List UrlPart) : url.length ≤ (urlText url).length := by
  induction url with
  | nil => exact Nat.le_refl 0
  | cons p url ih =>
    have text : urlText (p :: url) = p.text ++ urlText url := List.flatMap_cons
    have pos : 1 ≤ p.text.length := by
      cases p <;> simp [UrlPart.text]
    rw [text, List.length_cons, List.length_append]
    omega

/-- A URL is taken whole, up to the parenthesis that closes it. -/
lemma first_url {url : List UrlPart} (some : url ≠ []) (valid : ∀ p ∈ url, p.Valid)
    (h : k ⟨(urlText url).reverse ++ b, ')' :: rest, g⟩ = .some x) :
    (Pattern.plus true urlPart).first k ⟨b, urlText url ++ ')' :: rest, g⟩ = .some x := by
  obtain ⟨p, url, rfl⟩ := List.exists_cons_of_ne_nil some
  have text : urlText (p :: url) = p.text ++ urlText url := List.flatMap_cons
  have here : (urlPart.run ⟨b, p.text ++ (urlText url ++ ')' :: rest), g⟩).head? = _ :=
    step_urlPart (valid p List.mem_cons_self)
  have on : Pattern.Chain urlPart.run url.length
      ⟨p.text.reverse ++ b, urlText url ++ ')' :: rest, g⟩ _ :=
    chain_url (fun q hq => valid q (List.mem_cons_of_mem _ hq)) (p.text.reverse ++ b)
  have enough := length_le_urlText url
  rw [Pattern.first_plus, Pattern.first, text, List.append_assoc]
  refine Pattern.findSome?_of_head? here ?_
  refine Pattern.first_more_greedy on (urlPart_stuck _ _ _) ?_ ?_
  · rw [List.length_append]
    omega
  · rw [text, List.reverse_append, List.append_assoc] at h
    exact h

lemma first_link {w : List Char} {url : List UrlPart} (some : w ≠ []) (free : ']' ∉ w)
    (some_url : url ≠ []) (valid : ∀ p ∈ url, p.Valid)
    (h : k ⟨')' :: ((urlText url).reverse ++ '(' :: ']' :: (w.reverse ++ '[' :: b)), rest,
      fun i => if i = 5 then .some (urlText url) else if i = 4 then .some w else g i⟩ = .some x) :
    link.first k ⟨b, '[' :: (w ++ ']' :: '(' :: (urlText url ++ ')' :: rest)), g⟩ = .some x := by
  rw [link, Pattern.first_seq, first_lit, if_pos rfl, Pattern.first_seq]
  refine first_group_until 4 some free ?_
  rw [Pattern.first_seq, first_lit, if_pos rfl, Pattern.first_seq, first_lit, if_pos rfl,
    Pattern.first_seq, Pattern.first_group]
  refine first_url some_url valid ?_
  rw [capture_eq, first_lit, if_pos rfl]
  exact h

end

/-- What `INLINE` finds at a segment is the segment. -/
lemma head_segment {segment : Segment} {before rest : List Char}
    (legible : segment.Legible before.head? rest.head?) (marked : ∀ w, segment ≠ .plain w) :
    ∃ t, (inline.run ⟨before, segment.markdown ++ rest, fun _ => none⟩).head? = some t ∧
      t.after = rest ∧ runOf t = segment.run := by
  rw [inline, Pattern.run, List.head?_map, Pattern.head?_run]
  simp only [Pattern.first_alt]
  cases segment with
  | plain w => exact absurd rfl (marked w)
  | bold w =>
    obtain ⟨some, free⟩ := legible
    have text : (Segment.bold w).markdown ++ rest = '*' :: '*' :: (w ++ '*' :: '*' :: rest) := by
      simp [Segment.markdown]
    rw [text, first_bold some free rfl]
    exact ⟨_, rfl, rfl, by simp [runOf, Place.capture, Segment.run]⟩
  | code w =>
    obtain ⟨some, free⟩ := legible
    have text : (Segment.code w).markdown ++ rest = '`' :: (w ++ '`' :: rest) := by
      simp [Segment.markdown]
    rw [text, first_code some free rfl, bold, Pattern.first_seq, first_lit, if_neg (by decide)]
    exact ⟨_, rfl, rfl, by simp [runOf, Place.capture, Segment.run]⟩
  | starred w =>
    obtain ⟨some, free, prev, next⟩ := legible
    obtain ⟨c, w, rfl⟩ := List.exists_cons_of_ne_nil some
    have other : c ≠ '*' := fun same => free (by simp [same])
    have text : (Segment.starred (c :: w)).markdown ++ rest =
        '*' :: ((c :: w) ++ '*' :: rest) := by
      simp [Segment.markdown]
    rw [text, starred, first_italic some free prev next rfl, bold, Pattern.first_seq, first_lit,
      if_pos rfl, List.cons_append, Pattern.first_seq, first_lit, if_neg other, code,
      Pattern.first_seq, first_lit, if_neg (by decide), link, Pattern.first_seq, first_lit,
      if_neg (by decide)]
    exact ⟨_, rfl, rfl, by simp [runOf, Place.capture, Segment.run]⟩
  | underscored w =>
    obtain ⟨some, free, prev, next⟩ := legible
    have text : (Segment.underscored w).markdown ++ rest = '_' :: (w ++ '_' :: rest) := by
      simp [Segment.markdown]
    have other : ¬ '_' = '*' := by decide
    rw [text, underscored, first_italic some free prev next rfl, bold, Pattern.first_seq,
      first_lit, if_neg other, code, Pattern.first_seq, first_lit, if_neg (by decide), link,
      Pattern.first_seq, first_lit, if_neg (by decide), starred, Pattern.first_seq,
      Pattern.first_notBehind, Pattern.first_seq, first_lit, if_neg other, ite_self]
    exact ⟨_, rfl, rfl, by simp [runOf, Place.capture, Segment.run]⟩
  | link w url =>
    obtain ⟨some, free, some_url, valid⟩ := legible
    have text : (Segment.link w url).markdown ++ rest =
        '[' :: (w ++ ']' :: '(' :: (urlText url ++ ')' :: rest)) := by
      simp [Segment.markdown]
    rw [text, first_link some free some_url valid rfl, bold, Pattern.first_seq, first_lit,
      if_neg (by decide), code, Pattern.first_seq, first_lit, if_neg (by decide)]
    refine ⟨_, rfl, rfl, ?_⟩
    simp [runOf, Place.capture, Segment.run]

lemma markdown_cons (segment : Segment) (segments : List Segment) :
    markdown (segment :: segments) = segment.markdown ++ markdown segments := List.flatMap_cons

/-- Plain text in front of a segment. -/
lemma runs_segment {gap rest : List Char} {segment : Segment}
    (free : ∀ c ∈ gap, c ∉ Segment.delimiters)
    (legible : segment.Legible gap.getLast? rest.head?) (marked : ∀ w, segment ≠ .plain w) :
    runs (gap ++ (segment.markdown ++ rest)) = plainRuns gap ++ segment.run :: runs rest := by
  have here : segment.Legible gap.reverse.head? rest.head? := by rwa [List.head?_reverse]
  obtain ⟨t, head, after, run⟩ := head_segment here marked
  have skipped : inline.search [] (gap ++ (segment.markdown ++ rest)) =
      inline.search gap.reverse (segment.markdown ++ rest) := by
    rw [Pattern.search_skip, List.append_nil]
    rintro u v rfl other
    obtain ⟨c, v, rfl⟩ := List.exists_cons_of_ne_nil other
    exact fails_of_plain (free c (by simp))
  rw [runs_eq, skipped, Pattern.search_here head]
  simp only [List.reverse_reverse, after, run]

/-- Plain text alone. -/
lemma runs_plain {text : List Char} (free : ∀ c ∈ text, c ∉ Segment.delimiters) :
    runs text = plainRuns text := by
  have none : inline.search [] text = none := by
    rw [Pattern.search_eq_none]
    rintro u v rfl
    cases v with
    | nil => exact fails_nil
    | cons c v => exact fails_of_plain (free c (by simp))
  rw [runs_eq, none]

/-- **Round trip.**  Runs written as Markdown are read back, where every segment is legible. -/
theorem runs_markdown (segments : List Segment) (legible : Legible none segments) :
    runs (markdown segments) = segments.map Segment.run := by
  have behind : ∀ gap : List Char, (∀ c ∈ gap, c ∉ Segment.delimiters) →
      ∀ segments, Legible gap.getLast? segments →
        runs (gap ++ markdown segments) = plainRuns gap ++ segments.map Segment.run := by
    intro gap free segments legible
    induction segments generalizing gap with
    | nil => simpa [markdown] using runs_plain free
    | cons segment segments ih =>
      obtain ⟨here, rest⟩ := legible
      rw [markdown_cons, List.map_cons]
      cases segment with
      | plain w =>
        obtain ⟨alone, some, free'⟩ := here
        obtain rfl : gap = [] := List.getLast?_eq_none_iff.1 alone
        have on := ih w free' rest
        rw [plainRuns, if_neg (by simpa using some)] at on
        exact on
      | _ =>
        have on := ih [] (by simp) rest
        rw [runs_segment free here (by simp)]
        exact congrArg (fun rs => plainRuns gap ++ _ :: rs) on
  exact behind [] (by simp) segments legible

/-- A link whose URL holds a parenthesis, between bold and italic text. -/
def sample : List Segment :=
  [.plain ['a', ' '], .bold ['b'], .starred ['c'], .link ['d'] [.char '/', .parens ['e']],
    .plain ['.']]

lemma legible_sample : Legible none sample := by
  refine ⟨⟨rfl, by simp, by simp [Segment.delimiters]⟩, ⟨by simp, by simp⟩,
    ⟨by simp, by simp, rfl, rfl⟩, ⟨by simp, by simp, by simp, ?_⟩,
    ⟨rfl, by simp, by simp [Segment.delimiters]⟩, trivial⟩
  intro p hp
  rcases List.mem_cons.1 hp with rfl | hp
  · rfl
  · obtain rfl := List.mem_singleton.1 hp
    simp [UrlPart.Valid, isUrlChar, isSpace]

theorem runs_markdown_sample :
    Legible none sample ∧ runs (markdown sample) = sample.map Segment.run :=
  ⟨legible_sample, runs_markdown sample legible_sample⟩

end Markdown

end Yrby
