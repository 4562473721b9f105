import Yrby.Render.Escaping
import Mathlib.Algebra.BigOperators.Group.List.Basic
import Mathlib.Algebra.Order.BigOperators.Group.List
import Mathlib.Algebra.Order.Group.Multiset
import Mathlib.Algebra.Order.Group.Nat

/-!
# Where the text of a Lexical document goes

Rendered without rules, a text run is printed as it is, printed as a tab, or not at all (`Fate`).
Which it is depends on the tab marker before it and on the places its `XmlText` and the ones around
it stand in.  `place` is the table: what a child of some type is to a parent that renders its
content as a leaf, as a container or as a list item.

The text content of a rendering is what the fates of its runs print (`texts_forest`), so it is the
text of all runs, each once, exactly when every run is kept.  A leaf has no place for the blocks of
core Lexical, and a list item only for lists.
-/

namespace Yrby

namespace LexicalHtml

open HtmlCore

/-! ## Places -/

/-- How a block renders its content: inline content alone, inline content and blocks, or inline
content and lists. -/
inductive Mode
  | leaf
  | container
  | item
  deriving DecidableEq

/-- Where a nested text is rendered. -/
inductive Place
  | inline
  | block
  | nowhere
  deriving DecidableEq

/-- The mode of a block.  A block of no core type is a container when it has block children. -/
def modeOf (t : XmlText) : Mode :=
  match nodeType t with
  | "paragraph" | "heading" | "quote" | "code" => .leaf
  | "list" | "table" | "tablerow" | "tablecell" => .container
  | "listitem" => .item
  | _ => if (blockChildren t).isEmpty then .leaf else .container

/-- The place of a nested text of this type in a block of this mode. -/
def place (m : Mode) (ty : String) : Place :=
  if isInlineType ty then .inline
  else
    match m with
    | .leaf => if isBuiltin ty then .nowhere else .inline
    | .container => .block
    | .item => if ty = "list" then .block else if isBuiltin ty then .nowhere else .inline

/-- Whether the mode renders texts of no core type with the inline content. -/
def Mode.ruledInline : Mode → Bool
  | .leaf => true
  | .container => false
  | .item => true

/-! ## Fates -/

/-- What becomes of a run. -/
inductive Fate
  | shown (s : String)
  | tab (s : String)
  | lost (s : String)

/-- The text of the run. -/
def Fate.held : Fate → String
  | .shown s => s
  | .tab s => s
  | .lost s => s

/-- The text that is printed for it. -/
def Fate.printed : Fate → Option String
  | .shown s => some s
  | .tab _ => some "\t"
  | .lost _ => none

/-- The run is printed, and with its own text. -/
def Fate.Kept : Fate → Prop
  | .shown _ => True
  | .tab s => s = "\t"
  | .lost _ => False

mutual

/-- The texts of the runs of a chunk, at any depth. -/
def Chunk.runs : Chunk → List String
  | .run s => [s.text]
  | .text _ chunks => runs chunks
  | _ => []

def runs : List Chunk → List String
  | [] => []
  | c :: cs => c.runs ++ runs cs

end

mutual

/-- The fates of the runs of a chunk, in the order they stand in. -/
def Chunk.fates (m : Mode) (run : RunState) : Chunk → List Fate
  | .run s => [if run.isTab then .tab s.text else .shown s.text]
  | .text attrs chunks =>
    match place m (typeOf attrs) with
    | .inline => fates .leaf .init chunks
    | .block => fates (modeOf ⟨attrs, chunks⟩) .init chunks
    | .nowhere => (runs chunks).map .lost
  | _ => []

def fates (m : Mode) (run : RunState) : List Chunk → List Fate
  | [] => []
  | c :: cs => c.fates m run ++ fates m (run.next c) cs

end

mutual

/-- No nested text in this chunk stands at a cap: `inl` and `blk` are the depths of the inline
content and of the block it stands in. -/
def Chunk.BelowCaps (m : Mode) (inl blk : ℕ) : Chunk → Prop
  | .text attrs chunks =>
    match place m (typeOf attrs) with
    | .inline => inl < maxInlineDepth ∧ BelowCaps .leaf (inl + 1) blk chunks
    | .block => blk < maxBlockDepth ∧ BelowCaps (modeOf ⟨attrs, chunks⟩) 0 (blk + 1) chunks
    | .nowhere => True
  | _ => True

def BelowCaps (m : Mode) (inl blk : ℕ) : List Chunk → Prop
  | [] => True
  | c :: cs => c.BelowCaps m inl blk ∧ BelowCaps m inl blk cs

end

mutual

/-- Every run has one fate. -/
lemma Chunk.held_fates : ∀ (c : Chunk) (m : Mode) (run : RunState),
    (c.fates m run).map Fate.held = c.runs
  | .run s, m, run => by
    rw [Chunk.fates, Chunk.runs]
    split <;> rfl
  | .text attrs chunks, m, run => by
    rw [Chunk.fates, Chunk.runs]
    split
    · exact held_fates chunks .leaf .init
    · exact held_fates chunks _ .init
    · simp [Function.comp_def, Fate.held]
  | .map attrs, m, run => by simp [Chunk.fates, Chunk.runs]
  | .element attrs, m, run => by simp [Chunk.fates, Chunk.runs]
  | .other, m, run => by simp [Chunk.fates, Chunk.runs]

lemma held_fates : ∀ (cs : List Chunk) (m : Mode) (run : RunState),
    (fates m run cs).map Fate.held = runs cs
  | [], m, run => by rw [fates, runs, List.map_nil]
  | c :: cs, m, run => by
    rw [fates, runs, List.map_append, Chunk.held_fates c m run, held_fates cs m _]

end

/-! ## What is printed -/

section

variable {F : Foreign}

lemma texts_runTree (text : String) (format : ℕ) (style : String) :
    (runTree text format style).texts = [text] := by
  have leaf : Html.Tree.texts (η := Deferred) (.text text) = [text] := by rw [Html.Tree.texts]
  unfold runTree
  cases outerTag format <;> dsimp only <;> split_ifs <;> simp [leaf]

lemma texts_decoratorForest (attrs : Attrs) :
    Html.texts (decoratorForest F .empty attrs) = [] := by
  unfold decoratorForest
  have none : Rules.empty.nodes.get (typeOf attrs) = none := rfl
  rw [none]
  dsimp only
  split <;> simp [Html.Tree.texts]

/-- The trees a block of this mode renders for these chunks after its inline content. -/
def Mode.blocks (F : Foreign) (blk : ℕ) (cs : List Chunk) : Mode → List Tree
  | .leaf => []
  | .container =>
    if maxBlockDepth ≤ blk then [] else blockChunksForest F .empty false (blk + 1) cs
  | .item => if maxBlockDepth ≤ blk then [] else blockChunksForest F .empty true (blk + 1) cs

lemma Mode.blocks_cons (m : Mode) (blk : ℕ) (c : Chunk) (cs : List Chunk) :
    m.blocks F blk (c :: cs) = m.blocks F blk [c] ++ m.blocks F blk cs := by
  cases m with
  | leaf => rfl
  | container =>
    simp only [Mode.blocks]
    split
    · rfl
    · simp [blockChunksForest]
  | item =>
    simp only [Mode.blocks]
    split
    · rfl
    · simp [blockChunksForest]

/-- A paragraph that is left out prints no text, and its content has none. -/
lemma texts_paragraphForest (chunks : List Chunk) {empty : List Tree}
    (hempty : Html.texts empty = []) :
    Html.texts (paragraphForest (chunksForest F .empty 0 true .init chunks) empty) =
      Html.texts (chunksForest F .empty 0 true .init chunks) := by
  unfold paragraphForest
  rw [Html.pieces_isEmpty (chunksForest_pieces_ne_nil chunks 0 true .init)]
  split
  · next none =>
    rw [hempty, List.isEmpty_iff.mp none, Html.texts_nil]
  · simp

/-- A block prints the text of its inline content and of the blocks its mode asks for. -/
lemma texts_blockTrees (t : XmlText) (blocks : Bool → List Tree) :
    Html.texts (blockTrees F .empty t blocks) =
      Html.texts (chunksForest F .empty 0 (modeOf t).ruledInline .init t.chunks) ++
        (match modeOf t with
          | .leaf => []
          | .container => Html.texts (blocks false)
          | .item => Html.texts (blocks true)) := by
  have none : Rules.empty.nodes.get (nodeType t) = none := rfl
  unfold blockTrees
  rw [none]
  dsimp only
  split
  case h_1 ty =>
    simp [texts_paragraphForest t.chunks, inlineForest, modeOf, ty, Mode.ruledInline,
      Html.Tree.texts]
  case h_2 ty => simp [inlineForest, modeOf, ty, Mode.ruledInline]
  case h_3 ty => simp [inlineForest, modeOf, ty, Mode.ruledInline]
  case h_4 ty => simp [inlineForest, modeOf, ty, Mode.ruledInline]
  case h_5 ty => simp [inlineForest, modeOf, ty, Mode.ruledInline]
  case h_6 ty => simp [inlineForest, modeOf, ty, Mode.ruledInline]
  case h_7 ty => simp [inlineForest, modeOf, ty, Mode.ruledInline]
  case h_8 ty => simp [inlineForest, modeOf, ty, Mode.ruledInline]
  case h_9 ty => simp [inlineForest, modeOf, ty, Mode.ruledInline]
  case h_10 =>
    have mode : modeOf t = if (blockChildren t).isEmpty then .leaf else .container := by
      unfold modeOf
      split <;> first | contradiction | rfl
    rw [mode]
    by_cases bare : (blockChildren t).isEmpty = true
    · simp [bare, inlineForest, texts_paragraphForest t.chunks, Mode.ruledInline]
    · simp [bare, inlineForest, Mode.ruledInline]

/-- The text of a block that is rendered where its mode says. -/
lemma texts_block (attrs : Attrs) (chunks : List Chunk) (blk : ℕ) :
    Html.texts (blockTrees F .empty ⟨attrs, chunks⟩ fun only =>
        if maxBlockDepth ≤ blk then [] else blockChunksForest F .empty only (blk + 1) chunks) =
      Html.texts (chunksForest F .empty 0 (modeOf ⟨attrs, chunks⟩).ruledInline .init chunks) ++
        Html.texts ((modeOf ⟨attrs, chunks⟩).blocks F blk chunks) := by
  rw [texts_blockTrees]
  cases modeOf ⟨attrs, chunks⟩ <;> simp [Mode.blocks]

/-- A nested text is inline content of its own when it is a link, or of no core type and the mode
renders those. -/
lemma place_eq_inline {m : Mode} {ty : String} :
    place m ty = .inline ↔
      isInlineType ty = true ∨ (m.ruledInline = true ∧ isBuiltin ty = false) := by
  have list : ty = "list" → isBuiltin ty = true := by
    rintro rfl
    decide
  unfold place
  by_cases inl : isInlineType ty = true
  · simp [inl]
  · cases m <;> by_cases core : isBuiltin ty = true <;> simp [inl, core, Mode.ruledInline]
    · split <;> simp
    · intro isList
      exact core (list isList)

/-- A nested text is a block in a container, and a list is one in a list item. -/
lemma place_eq_block {m : Mode} {ty : String} :
    place m ty = .block ↔
      isInlineType ty = false ∧ (m = .container ∨ (m = .item ∧ ty = "list")) := by
  unfold place
  by_cases inl : isInlineType ty = true
  · simp [inl]
  · cases m <;> simp [inl]
    · split <;> simp
    · by_cases isList : ty = "list"
      · simp [isList]
      · simp only [isList, iff_false]
        split <;> simp

lemma texts_chunk_inline {m : Mode} {attrs : Attrs} (h : place m (typeOf attrs) = .inline)
    {inl : ℕ} (below : inl < maxInlineDepth) (run : RunState) (chunks : List Chunk) :
    Html.texts (chunkForest F .empty inl m.ruledInline run (.text attrs chunks)) =
      Html.texts (chunksForest F .empty (inl + 1) true .init chunks) := by
  have none : Rules.empty.nodes.get (typeOf attrs) = none := rfl
  rw [chunkForest]
  by_cases inl : isInlineType (typeOf attrs) = true
  · simp [inl, none, linkTree, below]
  · have ruled := (place_eq_inline.mp h).resolve_left inl
    simp [inl, none, ruled, below]

lemma chunkForest_elsewhere {m : Mode} {attrs : Attrs} (h : place m (typeOf attrs) ≠ .inline)
    (inl : ℕ) (run : RunState) (chunks : List Chunk) :
    chunkForest F .empty inl m.ruledInline run (.text attrs chunks) = [] := by
  rw [ne_eq, place_eq_inline, not_or] at h
  rw [chunkForest, if_neg h.1, if_neg]
  intro ruled
  rw [Bool.and_eq_true, Bool.not_eq_true'] at ruled
  exact h.2 ruled

lemma blocks_block {m : Mode} {attrs : Attrs} (h : place m (typeOf attrs) = .block) {blk : ℕ}
    (below : blk < maxBlockDepth) (chunks : List Chunk) :
    m.blocks F blk [.text attrs chunks] =
      blockTrees F .empty ⟨attrs, chunks⟩ fun only =>
        if maxBlockDepth ≤ blk + 1 then [] else
          blockChunksForest F .empty only (blk + 1 + 1) chunks := by
  obtain ⟨inl, rfl | ⟨rfl, list⟩⟩ := place_eq_block.mp h
  · simp [Mode.blocks, Nat.not_le.mpr below, blockChunksForest, blockChunkForest, inl]
  · rw [list] at inl
    simp [Mode.blocks, Nat.not_le.mpr below, blockChunksForest, blockChunkForest, inl, list]

lemma blocks_elsewhere {m : Mode} {attrs : Attrs} (h : place m (typeOf attrs) ≠ .block) (blk : ℕ)
    (chunks : List Chunk) : m.blocks F blk [.text attrs chunks] = [] := by
  rw [ne_eq, place_eq_block] at h
  by_cases inl : isInlineType (typeOf attrs) = true
  · cases m <;> simp [Mode.blocks, blockChunksForest, blockChunkForest, inl]
  · have neither : m ≠ .container ∧ (m = .item → typeOf attrs ≠ "list") := by
      simp only [Bool.not_eq_true] at inl
      constructor
      · intro container
        exact h ⟨inl, .inl container⟩
      · intro item list
        exact h ⟨inl, .inr ⟨item, list⟩⟩
    cases m with
    | leaf => rfl
    | container => exact (neither.1 rfl).elim
    | item =>
      have other := neither.2 rfl
      simp [Mode.blocks, blockChunksForest, blockChunkForest, other]

mutual

/-- A chunk prints what the fates of its runs say, in the inline content or among the blocks. -/
lemma texts_chunk : ∀ (c : Chunk) (m : Mode) (inl blk : ℕ) (run : RunState),
    c.BelowCaps m inl blk →
      (Html.texts (chunkForest F .empty inl m.ruledInline run c) : Multiset String) +
          Html.texts (m.blocks F blk [c]) =
        ((c.fates m run).filterMap Fate.printed : List String)
  | .run s, m, inl, blk, run, below => by
    have blocks : m.blocks F blk [.run s] = [] := by
      cases m <;> simp [Mode.blocks, blockChunksForest, blockChunkForest]
    rw [blocks, chunkForest, Chunk.fates]
    by_cases tab : run.isTab = true
    · simp [tab, Html.Tree.texts, Fate.printed]
    · simp [tab, texts_runTree, Fate.printed]
  | .text attrs chunks, m, inl, blk, run, below => by
    rw [Chunk.BelowCaps] at below
    rw [Chunk.fates]
    cases there : place m (typeOf attrs) with
    | inline =>
      rw [there] at below
      have inside := texts_chunks chunks .leaf (inl + 1) blk .init below.2
      have noBlocks : m.blocks F blk [.text attrs chunks] = [] :=
        blocks_elsewhere (by simp [there]) blk chunks
      rw [texts_chunk_inline there below.1, noBlocks]
      exact inside
    | block =>
      rw [there] at below
      have inside := texts_chunks chunks (modeOf ⟨attrs, chunks⟩) 0 (blk + 1) .init below.2
      have noInline : chunkForest F .empty inl m.ruledInline run (.text attrs chunks) = [] :=
        chunkForest_elsewhere (by simp [there]) inl run chunks
      rw [noInline, blocks_block there below.1, texts_block, ← Multiset.coe_add, inside]
      simp
    | nowhere =>
      have noInline : chunkForest F .empty inl m.ruledInline run (.text attrs chunks) = [] :=
        chunkForest_elsewhere (by simp [there]) inl run chunks
      have noBlocks : m.blocks F blk [.text attrs chunks] = [] :=
        blocks_elsewhere (by simp [there]) blk chunks
      rw [noInline, noBlocks]
      simp [Function.comp_def, Fate.printed]
  | .map attrs, m, inl, blk, run, below => by
    have blocks : m.blocks F blk [.map attrs] = [] := by
      cases m <;> simp [Mode.blocks, blockChunksForest, blockChunkForest]
    rw [blocks, chunkForest, Chunk.fates]
    · split <;> simp [Html.Tree.texts]
    all_goals simp
  | .element attrs, m, inl, blk, run, below => by
    have blocks : m.blocks F blk [.element attrs] = [] := by
      cases m <;> simp [Mode.blocks, blockChunksForest, blockChunkForest]
    rw [blocks, chunkForest, Chunk.fates, texts_decoratorForest]
    · simp
    all_goals simp
  | .other, m, inl, blk, run, below => by
    have blocks : m.blocks F blk [.other] = [] := by
      cases m <;> simp [Mode.blocks, blockChunksForest, blockChunkForest]
    rw [blocks, chunkForest, Chunk.fates]
    · simp
    all_goals simp

lemma texts_chunks : ∀ (cs : List Chunk) (m : Mode) (inl blk : ℕ) (run : RunState),
    BelowCaps m inl blk cs →
      (Html.texts (chunksForest F .empty inl m.ruledInline run cs) : Multiset String) +
          Html.texts (m.blocks F blk cs) =
        ((fates m run cs).filterMap Fate.printed : List String)
  | [], m, inl, blk, run, below => by
    have blocks : m.blocks F blk [] = [] := by
      cases m <;> simp [Mode.blocks, blockChunksForest]
    rw [blocks, chunksForest, fates]
    simp
  | c :: cs, m, inl, blk, run, below => by
    rw [BelowCaps] at below
    have first := texts_chunk c m inl blk run below.1
    have rest := texts_chunks cs m inl blk (run.next c) below.2
    rw [chunksForest, fates, Mode.blocks_cons, Html.texts_append, Html.texts_append,
      List.filterMap_append, ← Multiset.coe_add, ← Multiset.coe_add, ← Multiset.coe_add, ← first,
      ← rest, add_add_add_comm]

end

end

/-! ## Kept runs -/

/-- The characters that are printed for a run. -/
def Fate.output (f : Fate) : List Char := (f.printed.map String.toList).getD []

lemma flatMap_filterMap_printed (fs : List Fate) :
    (fs.filterMap Fate.printed).flatMap String.toList = fs.flatMap Fate.output := by
  induction fs with
  | nil => rfl
  | cons f fs ih =>
    cases f with
    | shown s => simp [Fate.printed, Fate.output, ih]
    | tab s => simp [Fate.printed, Fate.output, ih]
    | lost s =>
      rw [List.filterMap_cons_none rfl, List.flatMap_cons, ih]
      rfl

/-- When every run is kept, what is printed is the runs. -/
lemma filterMap_printed_of_kept {fs : List Fate} (kept : ∀ f ∈ fs, f.Kept) :
    fs.filterMap Fate.printed = fs.map Fate.held := by
  induction fs with
  | nil => rfl
  | cons f fs ih =>
    have rest := ih fun g hg => kept g (by simp [hg])
    have own : f.printed = some f.held := by
      have hf := kept f (by simp)
      cases f with
      | shown s => rfl
      | tab s =>
        rw [Fate.Kept] at hf
        rw [Fate.printed, Fate.held, hf]
      | lost s => exact hf.elim
    rw [List.filterMap_cons, own, List.map_cons, rest]

/-- Where each term is at most another and the sums are equal, the terms are. -/
lemma eq_of_sum_eq {α : Type} {l : List α} {f g : α → ℕ} (hle : ∀ x ∈ l, f x ≤ g x)
    (hsum : (l.map f).sum = (l.map g).sum) : ∀ x ∈ l, f x = g x := by
  induction l with
  | nil => simp
  | cons a l ih =>
    have first := hle a (by simp)
    have rest : (l.map f).sum ≤ (l.map g).sum :=
      List.sum_le_sum fun x hx => hle x (by simp [hx])
    rw [List.map_cons, List.map_cons, List.sum_cons, List.sum_cons] at hsum
    have equal := ih (fun x hx => hle x (by simp [hx])) (by omega)
    intro x hx
    rcases List.mem_cons.mp hx with rfl | hx
    · omega
    · exact equal x hx

/-- When what is printed has the characters of the runs, every run is kept: a run that is not
shown prints at most one character, a tab. -/
lemma kept_of_perm {fs : List Fate} (hheld : ∀ f ∈ fs, f.Kept ∨ f.held ≠ "")
    (hperm : (fs.flatMap Fate.output).Perm ((fs.map Fate.held).flatMap String.toList)) :
    ∀ f ∈ fs, f.Kept := by
  rw [List.flatMap_map] at hperm
  have shorter : ∀ f ∈ fs, f.output.length ≤ f.held.toList.length := by
    intro f hf
    cases f with
    | shown s => exact le_rfl
    | lost s => exact Nat.zero_le _
    | tab s =>
      rcases hheld _ hf with rfl | nonempty
      · exact le_rfl
      · have some : 0 < s.toList.length := by simpa [List.length_pos_iff, Fate.held] using nonempty
        exact some
  have lengths : ∀ f ∈ fs, f.output.length = f.held.toList.length := by
    apply eq_of_sum_eq shorter
    rw [← List.length_flatMap, ← List.length_flatMap]
    exact hperm.length_eq
  have tabs : ∀ f ∈ fs, f.held.toList.count '\t' = f.output.count '\t' := by
    apply eq_of_sum_eq
    · intro f hf
      have long := lengths f hf
      cases f with
      | shown s => exact le_rfl
      | lost s =>
        have empty : s.toList = [] := List.length_eq_zero_iff.mp long.symm
        simp [Fate.held, empty]
      | tab s =>
        have few := List.count_le_length (a := '\t') (l := s.toList)
        have one : s.toList.length = 1 := long.symm
        rw [one] at few
        exact few
    · have counted : ∀ g : Fate → List Char,
          (fs.map fun f => (g f).count '\t').sum = (fs.flatMap g).count '\t' := by
        intro g
        rw [List.count_flatMap]
        rfl
      rw [counted, counted]
      exact (hperm.count_eq '\t').symm
  intro f hf
  have long := lengths f hf
  have tab := tabs f hf
  cases f with
  | shown s => trivial
  | lost s =>
    rcases hheld _ hf with none | nonempty
    · exact none
    · have empty : s.toList = [] := List.length_eq_zero_iff.mp long.symm
      exact (nonempty (by simpa [Fate.held] using empty)).elim
  | tab s =>
    obtain ⟨c, single⟩ := List.length_eq_one_iff.mp long.symm
    have isTab : c = '\t' := by
      by_contra other
      change s.toList.count '\t' = 1 at tab
      change s.toList = [c] at single
      simp [single, other] at tab
    change s = "\t"
    rw [← String.toList_inj]
    change s.toList = ['\t']
    rw [← isTab]
    exact single

/-! ## Documents -/

/-- The texts of all runs of a document.  A nested fragment stands for its text. -/
def documentRuns (root : List RootNode) : List String :=
  root.flatMap fun node =>
    match node with
    | .text t => runs t.chunks
    | .element _ => []
    | .fragment content => [content]

def documentFates (root : List RootNode) : List Fate :=
  root.flatMap fun node =>
    match node with
    | .text t => fates (modeOf t) .init t.chunks
    | .element _ => []
    | .fragment content => [.shown content]

/-- No nesting reaches a cap. -/
def DocumentBelowCaps (root : List RootNode) : Prop :=
  ∀ t, .text t ∈ root → BelowCaps (modeOf t) 0 0 t.chunks

/-- Every run of the document stands where it is printed, and a run behind a tab marker is a
tab. -/
def TextKept (root : List RootNode) : Prop := ∀ f ∈ documentFates root, f.Kept

/-- The text content is the texts in `held`, each once, in some order. -/
def TextOnce (toks : List (Html.Token Deferred)) (held : List String) : Prop :=
  ∃ parts : List String, Html.text toks = parts.flatMap String.toList ∧ parts.Perm held

lemma held_documentFates (root : List RootNode) :
    (documentFates root).map Fate.held = documentRuns root := by
  unfold documentFates documentRuns
  rw [List.map_flatMap]
  congr 1
  funext node
  cases node with
  | text t => exact held_fates t.chunks _ .init
  | element attrs => rfl
  | fragment content => rfl

mutual

lemma Chunk.runs_ne_empty : ∀ (c : Chunk), ∀ s ∈ c.runs, s ≠ ""
  | .run r, s, hs => by
    rw [Chunk.runs, List.mem_singleton] at hs
    rw [hs]
    exact r.nonempty
  | .text attrs chunks, s, hs => by
    rw [Chunk.runs] at hs
    exact runs_ne_empty chunks s hs
  | .map attrs, s, hs => by simp [Chunk.runs] at hs
  | .element attrs, s, hs => by simp [Chunk.runs] at hs
  | .other, s, hs => by simp [Chunk.runs] at hs

lemma runs_ne_empty : ∀ (cs : List Chunk), ∀ s ∈ runs cs, s ≠ ""
  | [], s, hs => by simp [runs] at hs
  | c :: cs, s, hs => by
    rw [runs, List.mem_append] at hs
    rcases hs with first | rest
    · exact Chunk.runs_ne_empty c s first
    · exact runs_ne_empty cs s rest

end

lemma documentFates_held {root : List RootNode} :
    ∀ f ∈ documentFates root, f.Kept ∨ f.held ≠ "" := by
  intro f hf
  obtain ⟨node, -, hf⟩ := List.mem_flatMap.mp hf
  cases node with
  | text t =>
    have held : f.held ∈ runs t.chunks := by
      rw [← held_fates t.chunks (modeOf t) .init]
      exact List.mem_map_of_mem hf
    exact .inr (runs_ne_empty t.chunks _ held)
  | element attrs => simp at hf
  | fragment content =>
    rw [List.mem_singleton.mp hf]
    exact .inl trivial

/-- A document prints what the fates of its runs say. -/
lemma texts_forest (F : Foreign) {root : List RootNode} (below : DocumentBelowCaps root) :
    (Html.texts (forest F .empty root)).Perm ((documentFates root).filterMap Fate.printed) := by
  rw [← Multiset.coe_eq_coe]
  induction root with
  | nil => rfl
  | cons node root ih =>
    have rest := ih fun t ht => below t (by simp [ht])
    unfold forest documentFates at rest ⊢
    rw [List.flatMap_cons, List.flatMap_cons, Html.texts_append, List.filterMap_append,
      ← Multiset.coe_add, ← Multiset.coe_add, rest]
    congr 1
    cases node with
    | text t =>
      have whole := texts_chunks (F := F) t.chunks (modeOf t) 0 0 .init (below t (by simp))
      rw [← whole, Multiset.coe_add, rootForest, ← texts_block t.attrs t.chunks 0]
      rfl
    | element attrs => simp [rootForest, texts_decoratorForest]
    | fragment content => simp [rootForest, Html.Tree.texts, Fate.printed]

/-- Rendered without rules, a document below the depth caps keeps all its text, each run once,
exactly when every run is kept. -/
theorem text_once_iff (F : Foreign) (root : List RootNode) (shaped : isLexicalShaped root = true)
    (below : DocumentBelowCaps root) :
    ∃ toks, readBack (renderSegments F .empty root) = some toks ∧
      (TextOnce toks (documentRuns root) ↔ TextKept root) := by
  refine ⟨_, readBack_renderSegments named_empty shaped, ?_⟩
  have printed := texts_forest F below
  constructor
  · rintro ⟨parts, text, once⟩
    apply kept_of_perm documentFates_held
    rw [held_documentFates, ← flatMap_filterMap_printed]
    have chars : ((documentFates root).filterMap Fate.printed).flatMap String.toList |>.Perm
        (parts.flatMap String.toList) := by
      rw [← text, Html.text_tokens]
      exact (printed.flatMap_right String.toList).symm
    exact chars.trans (once.flatMap_right String.toList)
  · intro kept
    refine ⟨Html.texts (forest F .empty root), Html.text_tokens _, ?_⟩
    rw [filterMap_printed_of_kept kept, held_documentFates] at printed
    exact printed

/-- A link and a tab in a paragraph. -/
theorem text_once_iff_tab :
    ∃ toks, readBack (renderSegments ⟨⟨id, fun _ => ""⟩, fun _ => ""⟩ .empty
        [.text ⟨[("__type", .any (.string "paragraph"))],
          [.map [("__type", .any (.string "tab"))], .run ⟨"\t", by decide⟩,
            .text [("__type", .any (.string "link"))] [.run ⟨"a", by decide⟩]]⟩]) = some toks ∧
      (TextOnce toks ["\t", "a"] ↔ TextKept
        [.text ⟨[("__type", .any (.string "paragraph"))],
          [.map [("__type", .any (.string "tab"))], .run ⟨"\t", by decide⟩,
            .text [("__type", .any (.string "link"))] [.run ⟨"a", by decide⟩]]⟩]) := by
  apply text_once_iff _ _ rfl
  intro t ht
  obtain rfl := RootNode.text.inj (List.mem_singleton.mp ht)
  exact ⟨trivial, trivial, ⟨by decide, trivial, trivial⟩, trivial⟩

/-- A document without text in its tokens has lost every run. -/
lemma not_textOnce {toks : List (Html.Token Deferred)} {held : List String} {s : String}
    (silent : Html.text toks = []) (hs : s ∈ held) (nonempty : s ≠ "") : ¬ TextOnce toks held := by
  rintro ⟨parts, text, once⟩
  rw [silent] at text
  have nothing := List.flatMap_eq_nil_iff.mp text.symm s (once.mem_iff.mpr hs)
  exact nonempty (String.toList_eq_nil_iff.mp nothing)

lemma a_ne_empty : "a" ≠ "" := by decide

/-- A heading inside a paragraph. -/
def nestedHeading : List RootNode :=
  [.text ⟨[("__type", .any (.string "paragraph"))],
    [.text [("__type", .any (.string "heading"))] [.run ⟨"a", a_ne_empty⟩]]⟩]

/-- The text of a heading inside a paragraph is lost. -/
theorem nestedHeading_lost :
    isLexicalShaped nestedHeading = true ∧ DocumentBelowCaps nestedHeading ∧
      ¬ ∃ toks, readBack (renderSegments ⟨⟨id, fun _ => ""⟩, fun _ => ""⟩ .empty nestedHeading) =
        some toks ∧ TextOnce toks (documentRuns nestedHeading) := by
  refine ⟨rfl, ?_, ?_⟩
  · intro t ht
    obtain rfl := RootNode.text.inj (List.mem_singleton.mp ht)
    exact ⟨trivial, trivial⟩
  · rintro ⟨toks, back, once⟩
    rw [readBack_renderSegments named_empty rfl, Option.some.injEq] at back
    have silent : Html.text toks = [] := by
      rw [← back]
      rfl
    have held : "a" ∈ documentRuns nestedHeading := by decide
    exact not_textOnce silent held a_ne_empty once

end LexicalHtml

end Yrby
