import Yrby.Writer.InPlace

/-!
# What an editor sees of the calls of a handle

A Lexical editor reads a root as nodes: text nodes, each a marker with the characters behind it,
tabs, linebreaks, decorators and blocks (`read`).  Characters that stand behind nothing that takes
them are lost.

A `Page` is a document of such nodes, and `Page.step` is what a call means on them.  There is no
answer where a text would be lost: `append_text` on a block that ends with a tab, a linebreak or a
decorator.  Otherwise the stored document is the page laid out, call by call, with the same answers
from live and dead handles (`run_reads`).  Where peers bring no such nodes, nothing is ever lost
(`run_keeps_text`).
-/

namespace Yrby

namespace Writer

namespace InPlace

open HtmlCore LexicalHtml XmlText Outline

/-! ## Nodes -/

/-- The marker of a text node. -/
structure Marker where
  attrs : Attrs
  isText : opens attrs = .marker

/-- What an editor keeps in a block beside blocks. -/
inductive Node
  | text (marker : Marker) (s : String)
  | tab (attrs : Attrs) (isTab : opens attrs = .tab)
  | linebreak (attrs : Attrs) (neither : opens attrs = .other)
  | element (attrs : Attrs)
  | other

abbrev Nodes := List (Cell Node Attrs)

/-- How a node is stored. -/
def Node.stored : Node → List Leaf
  | .text marker s => .map marker.attrs :: s.toList.map .char
  | .tab attrs _ => [.map attrs, .char '\t']
  | .linebreak attrs _ => [.map attrs]
  | .element attrs => [.element attrs]
  | .other => [.other]

def stored (nodes : Nodes) : Content := lift Node.stored nodes

/-- The node of a map, with the characters behind it. -/
def Node.ofMap (attrs : Attrs) (behind : List Char) : Node :=
  match h : opens attrs with
  | .marker => .text ⟨attrs, h⟩ (.ofList behind)
  | .tab => .tab attrs h
  | .other => .linebreak attrs h

section

/-- A leaf in front of what was read: the characters at the start, and the nodes after them. -/
def readLeaf : Leaf → List Char × Nodes → List Char × Nodes
  | .char c, (behind, nodes) => (c :: behind, nodes)
  | .map attrs, (behind, nodes) => ([], .leaf (.ofMap attrs behind) :: nodes)
  | .element attrs, (_, nodes) => ([], .leaf (.element attrs) :: nodes)
  | .other, (_, nodes) => ([], .leaf .other :: nodes)

mutual

def readCell : Cell Leaf Attrs → List Char × Nodes → List Char × Nodes
  | .leaf x, after => readLeaf x after
  | .block id attrs content, (_, nodes) => ([], .block id attrs (readFrom content).2 :: nodes)

/-- The characters at the start of a content, and its nodes. -/
def readFrom : Content → List Char × Nodes
  | [] => ([], [])
  | x :: xs => readCell x (readFrom xs)

end

/-- The nodes an editor reads. -/
def read (content : Content) : Nodes := (readFrom content).2

end

lemma readFrom_chars (cs : List Char) (xs : Content) :
    readFrom (cs.map (fun c => .leaf (.char c)) ++ xs) =
      (cs ++ (readFrom xs).1, (readFrom xs).2) := by
  induction cs with
  | nil => rfl
  | cons c cs ih =>
    rw [List.map_cons, List.cons_append, readFrom, readCell, ih]
    rfl

lemma Node.ofMap_text (marker : Marker) (behind : List Char) :
    Node.ofMap marker.attrs behind = .text marker (.ofList behind) := by
  unfold Node.ofMap
  split
  · rfl
  · rename_i h
    cases h.symm.trans marker.isText
  · rename_i h
    cases h.symm.trans marker.isText

lemma Node.ofMap_tab {attrs : Attrs} (isTab : opens attrs = .tab) (behind : List Char) :
    Node.ofMap attrs behind = .tab attrs isTab := by
  unfold Node.ofMap
  split
  · rename_i h
    cases h.symm.trans isTab
  · rfl
  · rename_i h
    cases h.symm.trans isTab

lemma Node.ofMap_linebreak {attrs : Attrs} (neither : opens attrs = .other)
    (behind : List Char) : Node.ofMap attrs behind = .linebreak attrs neither := by
  unfold Node.ofMap
  split
  · rename_i h
    cases h.symm.trans neither
  · rename_i h
    cases h.symm.trans neither
  · rfl

lemma readFrom_node (node : Node) {xs : Content} {nodes : Nodes}
    (h : readFrom xs = ([], nodes)) :
    readFrom (node.stored.map .leaf ++ xs) = ([], .leaf node :: nodes) := by
  cases node with
  | text marker s =>
    have chars := readFrom_chars s.toList xs
    rw [h, List.append_nil] at chars
    rw [Node.stored, List.map_cons, List.map_map, List.cons_append, readFrom, readCell]
    rw [show (s.toList.map (Cell.leaf ∘ Leaf.char) : Content) =
      s.toList.map fun c => .leaf (.char c) from rfl, chars]
    simp [readLeaf, Node.ofMap_text]
  | tab attrs isTab =>
    simp [Node.stored, readFrom, readCell, readLeaf, h, Node.ofMap_tab isTab]
  | linebreak attrs neither =>
    simp [Node.stored, readFrom, readCell, readLeaf, h, Node.ofMap_linebreak neither]
  | element attrs => simp [Node.stored, readFrom, readCell, readLeaf, h]
  | other => simp [Node.stored, readFrom, readCell, readLeaf, h]

mutual

lemma readCell_stored : ∀ (x : Cell Node Attrs) {xs : Content} {nodes : Nodes},
    readFrom xs = ([], nodes) → readFrom (x.lift Node.stored ++ xs) = ([], x :: nodes)
  | .leaf node, xs, nodes, h => by
    rw [Cell.lift_leaf]
    exact readFrom_node node h
  | .block id attrs content, xs, nodes, h => by
    have inside := readFrom_stored content
    rw [Cell.lift_block, List.singleton_append, readFrom, readCell, h, inside]

lemma readFrom_stored : ∀ nodes : Nodes, readFrom (lift Node.stored nodes) = ([], nodes)
  | [] => by rw [lift_nil, readFrom]
  | x :: nodes => by
    rw [lift_cons]
    exact readCell_stored x (readFrom_stored nodes)

end

/-- **Layout and reading.**  An editor reads the nodes that are stored. -/
theorem read_stored (nodes : Nodes) : read (stored nodes) = nodes := by
  rw [read, stored, readFrom_stored]

/-! ## Every character is kept -/

mutual

lemma kept_cell (n : Nearest) : ∀ (x : Cell Node Attrs) (xs : Content),
    (∀ m, Kept m (items xs)) → Kept n (items (x.lift Node.stored ++ xs))
  | .leaf node, xs, rest => by
    rw [Cell.lift_leaf]
    cases node with
    | text marker s =>
      have chars : Kept .marker (s.toList.map Item.char) := by
        rw [kept_chars]
        cases s.toList <;> exact trivial
      rw [Node.stored, List.map_cons, List.map_map, List.cons_append, items_cons, items_append]
      rw [show (s.toList.map (Cell.leaf ∘ Leaf.char) : Content) =
        s.toList.map fun c => .leaf (.char c) from rfl, items_chars]
      simp only [item, Kept, Nearest.next, marker.isText, kept_append]
      exact ⟨chars, rest _⟩
    | tab attrs isTab =>
      simp [Node.stored, item, Kept, Nearest.next, isTab, Nearest.Keeps, rest]
    | linebreak attrs neither => simp [Node.stored, item, Kept, rest]
    | element attrs => simp [Node.stored, item, Kept, rest]
    | other => simp [Node.stored, item, Kept, rest]
  | .block id attrs content, xs, rest => by
    rw [Cell.lift_block, List.singleton_append, items_cons]
    simp only [item, Kept]
    exact rest _

/-- What is stored of nodes meets Lexical's rule, behind anything. -/
lemma kept_lift (n : Nearest) : ∀ nodes : Nodes, Kept n (items (lift Node.stored nodes))
  | [] => by
    rw [lift_nil, items_nil]
    exact trivial
  | x :: nodes => by
    rw [lift_cons]
    exact kept_cell n x _ fun m => kept_lift m nodes

end

/-! ## Pages -/

/-- A document of nodes. -/
structure Page where
  root : Nodes
  clock : ℕ

def Page.stored (p : Page) : Doc := ⟨InPlace.stored p.root, p.clock⟩

def Page.resolve (p : Page) : Handle → Option Nodes
  | .root => some p.root
  | .block id => find id p.root

def Page.change (p : Page) (h : Handle) (f : Nodes → Nodes) : Page :=
  match h with
  | .root => { p with root := f p.root }
  | .block id => { p with root := (edit id f p.root).getD p.root }

/-- A handle finds what is stored of its block. -/
lemma Page.resolve_stored (p : Page) (h : Handle) :
    p.stored.resolve h = (p.resolve h).map InPlace.stored := by
  cases h with
  | root => rfl
  | block id => exact find_lift id p.root

/-- A change goes through the layout, when it does so on the content it changes. -/
lemma Page.change_stored (p : Page) (h : Handle) {f : Nodes → Nodes} {g : Content → Content}
    (alike : ∀ c, p.resolve h = some c → g (InPlace.stored c) = InPlace.stored (f c)) :
    p.stored.change h g = (p.change h f).stored := by
  cases h with
  | root =>
    have root := alike p.root rfl
    rw [Page.stored, Doc.change, Page.change, Page.stored, root]
  | block id =>
    have edited : edit id g (InPlace.stored p.root) = (edit id f p.root).map InPlace.stored :=
      edit_lift p.root alike
    simp only [Page.stored, Doc.change, Page.change, edited]
    cases edit id f p.root <;> rfl

/-! ## What a call writes -/

/-- A text node or a block, not yet written. -/
inductive Draft
  | text (marker : Marker) (s : String)
  | block (attrs : Attrs) (content : List Draft)

mutual

def Draft.pieces : Draft → List Piece
  | .text marker s => [.embed marker.attrs, .text s]
  | .block attrs content => [.block attrs (drafted content)]

/-- Drafts as a call is given them. -/
def drafted : List Draft → List Piece
  | [] => []
  | d :: ds => d.pieces ++ drafted ds

end

mutual

def Draft.write (clock : ℕ) : Draft → Nodes × ℕ
  | .text marker s => ([.leaf (.text marker s)], clock)
  | .block attrs content =>
    let inside := writeDrafts (clock + 1) content
    ([.block clock attrs inside.1], inside.2)

/-- The nodes of drafts, and the clock after them. -/
def writeDrafts (clock : ℕ) : List Draft → Nodes × ℕ
  | [] => ([], clock)
  | d :: ds =>
    let front := d.write clock
    let back := writeDrafts front.2 ds
    (front.1 ++ back.1, back.2)

end

lemma writePieces_append (clock : ℕ) (ps qs : List Piece) :
    writePieces clock (ps ++ qs) =
      ((writePieces clock ps).1 ++ (writePieces (writePieces clock ps).2 qs).1,
        (writePieces (writePieces clock ps).2 qs).2) := by
  induction ps generalizing clock with
  | nil => simp [writePieces]
  | cons p ps ih => simp [writePieces, ih]

@[simp] lemma stored_nil : InPlace.stored [] = [] := lift_nil

@[simp] lemma stored_append (xs ys : Nodes) :
    InPlace.stored (xs ++ ys) = InPlace.stored xs ++ InPlace.stored ys := lift_append xs ys

mutual

lemma Draft.writePieces_pieces (clock : ℕ) : ∀ d : Draft,
    writePieces clock d.pieces = (InPlace.stored (d.write clock).1, (d.write clock).2)
  | .text marker s => by
    simp [Draft.pieces, Draft.write, writePieces, writePiece, InPlace.stored, Node.stored,
      Function.comp_def]
  | .block attrs content => by
    have inside := writePieces_drafted (clock + 1) content
    simp [Draft.pieces, Draft.write, writePieces, writePiece, InPlace.stored, inside]

/-- What is written of drafts is the layout of their nodes. -/
lemma writePieces_drafted (clock : ℕ) : ∀ ds : List Draft,
    writePieces clock (drafted ds) =
      (InPlace.stored (writeDrafts clock ds).1, (writeDrafts clock ds).2)
  | [] => by simp [drafted, writeDrafts, writePieces]
  | d :: ds => by
    have front := Draft.writePieces_pieces clock d
    have back := writePieces_drafted (d.write clock).2 ds
    rw [drafted, writePieces_append, front, back, writeDrafts]
    simp

end

/-- A text at the end of a block: it joins the last text node, or starts one.  `none` where an
editor would lose it. -/
def appendString (s : String) (marker : Marker) (nodes : Nodes) : Option Nodes :=
  match nodes.getLast? with
  | some (.leaf (.text last t)) => some (nodes.dropLast ++ [.leaf (.text last (t ++ s))])
  | some (.leaf _) => if s = "" then some nodes else none
  | _ => some (nodes ++ [.leaf (.text marker s)])

lemma stored_text (marker : Marker) (s : String) :
    InPlace.stored [.leaf (.text marker s)] =
      .leaf (.map marker.attrs) :: s.toList.map fun c => .leaf (.char c) := by
  simp [InPlace.stored, Node.stored, Function.comp_def]

lemma Node.stored_ne_nil (node : Node) : node.stored ≠ [] := by
  cases node <;> simp [Node.stored]

/-- `append_text` is `appendString`. -/
lemma appendText_stored {s : String} {marker : Marker} {nodes nodes' : Nodes}
    (h : appendString s marker nodes = some nodes') :
    appendText s marker.attrs (InPlace.stored nodes) = InPlace.stored nodes' := by
  have empty : (InPlace.stored nodes).isEmpty = nodes.isEmpty :=
    isEmpty_lift Node.stored_ne_nil nodes
  have ends : endsWithBlock (InPlace.stored nodes) = endsWithBlock nodes :=
    endsWithBlock_lift Node.stored_ne_nil nodes
  rw [appendText, empty, ends]
  rcases List.eq_nil_or_concat nodes with rfl | ⟨front, last, rfl⟩
  · obtain rfl := Option.some.inj h
    simp only [List.isEmpty_nil, Bool.true_or, if_true, stored_nil, List.nil_append, stored_text]
    rfl
  · rw [List.concat_eq_append] at h ⊢
    rw [appendString, List.getLast?_concat] at h
    have filled : (front ++ [last]).isEmpty = false := by simp
    have last' : endsWithBlock (front ++ [last]) = last.id?.isSome := by simp [endsWithBlock]
    rw [filled, last', Bool.false_or]
    cases last with
    | block id attrs content =>
      obtain rfl := Option.some.inj h
      have block : (Cell.block id attrs content : Cell Node Attrs).id?.isSome = true := rfl
      rw [if_pos block, stored_append (front ++ _), stored_text]
      simp
    | leaf node =>
      rw [if_neg (by simp [Cell.id?])]
      have stray : ∀ {nodes'}, (if s = "" then some (front ++ [.leaf node]) else none) =
          some nodes' → InPlace.stored (front ++ [.leaf node]) ++
            s.toList.map (fun c => .leaf (.char c)) = InPlace.stored nodes' := by
        intro nodes' h
        by_cases nothing : s = ""
        · rw [if_pos nothing] at h
          obtain rfl := Option.some.inj h
          simp [nothing]
        · rw [if_neg nothing] at h
          cases h
      cases node with
      | text before t =>
        obtain rfl := Option.some.inj h
        rw [List.dropLast_concat, stored_append, stored_append, stored_text, stored_text]
        simp
      | tab attrs isTab => exact stray h
      | linebreak attrs neither => exact stray h
      | element attrs => exact stray h
      | other => exact stray h

/-! ## Calls -/

/-- A call that writes nodes. -/
inductive PageCall
  | insertBlock (h : Handle) (n : ℤ) (attrs : Attrs) (content : List Draft)
  | writeContent (h : Handle) (content : List Draft) (clear : Bool)
  | appendString (h : Handle) (s : String) (marker : Marker)
  | deleteBlock (h : Handle) (n : ℤ)
  | nthBlock (h : Handle) (n : ℤ)
  | peer (root : Nodes) (clock : ℕ)

/-- The call of the handle. -/
def PageCall.call : PageCall → Call
  | .insertBlock h n attrs content => .insertXmlText h n attrs (drafted content)
  | .writeContent h content clear => .writeContent h (drafted content) clear
  | .appendString h s marker => .appendText h s marker.attrs
  | .deleteBlock h n => .deleteXmlText h n
  | .nthBlock h n => .xmlText h n
  | .peer root clock => .peer (InPlace.stored root) clock

/-- What the call means on nodes.  `none` where an editor would lose a text. -/
def Page.step (p : Page) : PageCall → Option (Page × Answer)
  | .insertBlock h n attrs content =>
    if tooDeep (drafted content) then some (p, .tooDeep) else
    match p.resolve h with
    | none => some (p, .gone)
    | some _ =>
      let new := Draft.write p.clock (.block attrs content)
      let put : Nodes → Nodes := fun c =>
        c.take (insertionIndex n c) ++ new.1 ++ c.drop (insertionIndex n c)
      some ({ p.change h put with clock := new.2 }, .handle (.block p.clock))
  | .writeContent h content clear =>
    if tooDeep (drafted content) then some (p, .tooDeep) else
    match p.resolve h with
    | none => some (p, .gone)
    | some _ =>
      let new := writeDrafts p.clock content
      let put : Nodes → Nodes := fun c => (if clear then [] else c) ++ new.1
      some ({ p.change h put with clock := new.2 }, .handle h)
  | .appendString h s marker =>
    match p.resolve h with
    | none => some (p, .gone)
    | some c => (appendString s marker c).map fun c' => (p.change h fun _ => c', .handle h)
  | .deleteBlock h n =>
    match p.resolve h with
    | none => some (p, .gone)
    | some c =>
      match deletionIndex n c with
      | none => some (p, .found false)
      | some i => some (p.change h fun c => removeOne c i, .found true)
  | .nthBlock h n =>
    match (p.resolve h).bind (nthBlock n) with
    | none => some (p, .nil)
    | some id => some (p, .handle (.block id))
  | .peer root clock => some (⟨root, clock⟩, .nil)

/-- Calls, one after the other, with their answers. -/
def Page.run (p : Page) : List PageCall → Option (Page × List Answer)
  | [] => some (p, [])
  | c :: cs =>
    (p.step c).bind fun next =>
      (next.1.run cs).map fun rest => (rest.1, next.2 :: rest.2)

/-! ## Each call is laid out -/

lemma insertionIndex_stored (n : ℤ) (c : Nodes) :
    insertionIndex n (InPlace.stored c) =
      (InPlace.stored (c.take (insertionIndex n c))).length := by
  have same : blocks (InPlace.stored c) = blocks c := blocks_lift c
  have index := blockIndex_lift (f := Node.stored)
    (Sequence.insertPlace n (blocks c).length) c
  rw [insertionIndex, insertionIndex, same]
  simp only [InPlace.stored, index]
  cases blockIndex (Sequence.insertPlace n (blocks c).length) c with
  | none => simp
  | some i => rfl

lemma insert_stored (n : ℤ) (c new : Nodes) :
    (InPlace.stored c).take (insertionIndex n (InPlace.stored c)) ++ InPlace.stored new ++
        (InPlace.stored c).drop (insertionIndex n (InPlace.stored c)) =
      InPlace.stored (c.take (insertionIndex n c) ++ new ++ c.drop (insertionIndex n c)) := by
  have before : (InPlace.stored c).take _ = _ := take_lift c (insertionIndex n c)
  have behind : (InPlace.stored c).drop _ = _ := drop_lift c (insertionIndex n c)
  rw [insertionIndex_stored, stored_append, stored_append]
  simp only [InPlace.stored] at before behind ⊢
  rw [before, behind]

lemma deletionIndex_stored (n : ℤ) (c : Nodes) :
    deletionIndex n (InPlace.stored c) =
      (deletionIndex n c).map fun i => (InPlace.stored (c.take i)).length := by
  have same : blocks (InPlace.stored c) = blocks c := blocks_lift c
  rw [deletionIndex, deletionIndex, same]
  cases elementPlace n (blocks c).length with
  | none => rfl
  | some ordinal => exact blockIndex_lift ordinal c

lemma removeOne_stored {n : ℤ} {c : Nodes} {i : ℕ} (h : deletionIndex n c = some i) :
    removeOne (InPlace.stored c) (InPlace.stored (c.take i)).length =
      InPlace.stored (removeOne c i) := by
  obtain ⟨ordinal, -, index⟩ := Option.bind_eq_some_iff.1 h
  obtain ⟨id, attrs, content, here⟩ := drop_blockIndex index
  have before : (InPlace.stored c).take _ = _ := take_lift c i
  have behind : (InPlace.stored c).drop _ = _ := drop_lift c i
  have rest : (InPlace.stored c).drop ((InPlace.stored (c.take i)).length + 1) =
      InPlace.stored (c.drop (i + 1)) := by
    rw [← List.drop_drop]
    simp only [InPlace.stored] at behind ⊢
    rw [behind, here]
    simp
  rw [removeOne, removeOne, stored_append, rest]
  simp only [InPlace.stored] at before ⊢
  rw [before]

lemma nthBlock_stored (n : ℤ) (c : Nodes) :
    nthBlock n (InPlace.stored c) = nthBlock n c := by
  have same : blocks (InPlace.stored c) = blocks c := blocks_lift c
  rw [nthBlock, nthBlock, same]

lemma writePiece_block (clock : ℕ) (attrs : Attrs) (content : List Draft) :
    writePiece clock (.block attrs (drafted content)) =
      (InPlace.stored ((Draft.block attrs content).write clock).1,
        ((Draft.block attrs content).write clock).2) := by
  have new := Draft.writePieces_pieces clock (.block attrs content)
  rw [Draft.pieces, writePieces, writePieces] at new
  simpa using new

/-- A change of a block that also moves the clock. -/
lemma Page.change_clock (p : Page) (h : Handle) (clock : ℕ) {f : Nodes → Nodes}
    {g : Content → Content}
    (alike : ∀ c, p.resolve h = some c → g (InPlace.stored c) = InPlace.stored (f c)) :
    ({ p.stored.change h g with clock := clock } : Doc) =
      Page.stored { p.change h f with clock := clock } := by
  rw [p.change_stored h alike]
  rfl

/-- A call that leaves a page alone leaves its layout alone. -/
lemma stored_of_same {p q : Page} {ans answer : Answer} (same : some (p, ans) = some (q, answer)) :
    (p.stored, ans) = (q.stored, answer) := by
  obtain ⟨rfl, rfl⟩ := Prod.mk.inj (Option.some.inj same)
  rfl

section

variable {p p' : Page} {b : Handle} {n : ℤ} {answer : Answer}

lemma Page.insertBlock_stored {attrs : Attrs} {content : List Draft}
    (h : p.step (.insertBlock b n attrs content) = some (p', answer)) :
    p.stored.step (PageCall.insertBlock b n attrs content).call = (p'.stored, answer) := by
  simp only [PageCall.call, Doc.step, writePiece_block, p.resolve_stored]
  simp only [Page.step] at h
  split at h
  · rw [if_pos ‹_›]
    exact stored_of_same h
  · rw [if_neg ‹_›]
    cases found : p.resolve b with
    | none =>
      rw [found] at h
      exact stored_of_same h
    | some c =>
      rw [found] at h
      obtain ⟨rfl, rfl⟩ := Prod.mk.inj (Option.some.inj h)
      refine Prod.ext (p.change_clock b _ fun c _ => ?_) rfl
      exact insert_stored n c _

lemma Page.writeContent_stored {content : List Draft} {clear : Bool}
    (h : p.step (.writeContent b content clear) = some (p', answer)) :
    p.stored.step (PageCall.writeContent b content clear).call = (p'.stored, answer) := by
  simp only [PageCall.call, Doc.step, p.resolve_stored]
  simp only [Page.step] at h
  split at h
  · rw [if_pos ‹_›]
    exact stored_of_same h
  · rw [if_neg ‹_›]
    have written : writePieces p.stored.clock (drafted content) = _ :=
      writePieces_drafted p.clock content
    rw [written]
    cases found : p.resolve b with
    | none =>
      rw [found] at h
      exact stored_of_same h
    | some c =>
      rw [found] at h
      obtain ⟨rfl, rfl⟩ := Prod.mk.inj (Option.some.inj h)
      refine Prod.ext (p.change_clock b _ fun c _ => ?_) rfl
      cases clear <;> simp

lemma Page.appendString_stored {s : String} {marker : Marker}
    (h : p.step (.appendString b s marker) = some (p', answer)) :
    p.stored.step (PageCall.appendString b s marker).call = (p'.stored, answer) := by
  simp only [PageCall.call, Doc.step, p.resolve_stored]
  simp only [Page.step] at h
  cases found : p.resolve b with
  | none =>
    rw [found] at h
    exact stored_of_same h
  | some c =>
    rw [found] at h
    obtain ⟨c', joined, same⟩ := Option.map_eq_some_iff.1 h
    obtain ⟨rfl, rfl⟩ := Prod.mk.inj same
    refine Prod.ext (p.change_stored b fun d hd => ?_) rfl
    obtain rfl := Option.some.inj (found.symm.trans hd)
    exact appendText_stored joined

lemma Page.deleteBlock_stored (h : p.step (.deleteBlock b n) = some (p', answer)) :
    p.stored.step (PageCall.deleteBlock b n).call = (p'.stored, answer) := by
  simp only [PageCall.call, Doc.step, p.resolve_stored]
  simp only [Page.step] at h
  cases found : p.resolve b with
  | none =>
    rw [found] at h
    exact stored_of_same h
  | some c =>
    rw [found] at h
    simp only [Option.map_some, deletionIndex_stored]
    cases index : deletionIndex n c with
    | none =>
      simp only [index] at h
      exact stored_of_same h
    | some i =>
      simp only [index] at h
      obtain ⟨rfl, rfl⟩ := Prod.mk.inj (Option.some.inj h)
      have cut : p.stored.change b
          (fun d => removeOne d (InPlace.stored (c.take i)).length) =
            (p.change b fun d => removeOne d i).stored := by
        refine p.change_stored b fun d hd => ?_
        obtain rfl := Option.some.inj (found.symm.trans hd)
        exact removeOne_stored index
      simp only [Option.map_some, cut]

lemma Page.nthBlock_stored (h : p.step (.nthBlock b n) = some (p', answer)) :
    p.stored.step (PageCall.nthBlock b n).call = (p'.stored, answer) := by
  have same : (p.stored.resolve b).bind (InPlace.nthBlock n) =
      (p.resolve b).bind (InPlace.nthBlock n) := by
    rw [p.resolve_stored]
    cases p.resolve b with
    | none => rfl
    | some c => exact InPlace.nthBlock_stored n c
  simp only [PageCall.call, Doc.step, same]
  simp only [Page.step] at h
  cases found : (p.resolve b).bind (InPlace.nthBlock n) with
  | none =>
    rw [found] at h
    exact stored_of_same h
  | some id =>
    rw [found] at h
    exact stored_of_same h

end

/-- A call on the layout of a page is the layout of the call on the page. -/
theorem Page.step_stored {p p' : Page} {call : PageCall} {answer : Answer}
    (h : p.step call = some (p', answer)) : p.stored.step call.call = (p'.stored, answer) := by
  cases call with
  | insertBlock b n attrs content => exact Page.insertBlock_stored h
  | writeContent b content clear => exact Page.writeContent_stored h
  | appendString b s marker => exact Page.appendString_stored h
  | deleteBlock b n => exact Page.deleteBlock_stored h
  | nthBlock b n => exact Page.nthBlock_stored h
  | peer root clock =>
    obtain ⟨rfl, rfl⟩ := Prod.mk.inj (Option.some.inj h)
    rfl

/-- A run is the layout of the run on nodes. -/
lemma laid_of_run {calls : List PageCall} {p p' : Page} {answers : List Answer}
    (h : p.run calls = some (p', answers)) :
    p.stored.run (calls.map PageCall.call) = (p'.stored, answers) := by
  induction calls generalizing p answers with
  | nil =>
    obtain ⟨rfl, rfl⟩ := Prod.mk.inj (Option.some.inj h)
    rfl
  | cons call calls ih =>
    obtain ⟨⟨q, answer⟩, one, rest⟩ := Option.bind_eq_some_iff.1 h
    obtain ⟨⟨r, more⟩, run, same⟩ := Option.map_eq_some_iff.1 rest
    obtain ⟨rfl, rfl⟩ := Prod.mk.inj same
    rw [List.map_cons, Doc.run, Page.step_stored one, ih run]

/-- The marker of plain text. -/
def plainMarker : Marker := ⟨XmlText.textAttributes, rfl⟩

/-- A paragraph, one put before it, a text for each, and the first paragraph removed between. -/
def twoParagraphs : List PageCall :=
  [.insertBlock .root (-1) paragraphAttributes [.text plainMarker "a"],
    .insertBlock .root 0 paragraphAttributes [.text plainMarker "b"],
    .appendString (.block 0) "c" plainMarker, .deleteBlock .root 0,
    .appendString (.block 1) "d" plainMarker]

def Node.IsText : Node → Prop
  | .text _ _ => True
  | _ => False

/-- Text nodes and blocks. -/
def Plain (nodes : Nodes) : Prop := Each Node.IsText nodes

/-- What a peer brings is plain. -/
def PageCall.Plain : PageCall → Prop
  | .peer root _ => InPlace.Plain root
  | _ => True

mutual

lemma Draft.plain_write (clock : ℕ) : ∀ d : Draft, Plain (d.write clock).1
  | .text marker s => by simp [Draft.write, Plain, Node.IsText]
  | .block attrs content => by
    have inside := plain_writeDrafts (clock + 1) content
    rw [Plain] at inside
    simp [Draft.write, Plain, inside]

lemma plain_writeDrafts (clock : ℕ) : ∀ ds : List Draft, Plain (writeDrafts clock ds).1
  | [] => by simp [writeDrafts, Plain]
  | d :: ds => by
    have front := Draft.plain_write clock d
    have back := plain_writeDrafts (d.write clock).2 ds
    rw [Plain] at front back
    simp [writeDrafts, Plain, front, back]

end

lemma Plain.appendString {nodes : Nodes} (plain : Plain nodes) (s : String) (marker : Marker) :
    ∃ nodes', appendString s marker nodes = some nodes' ∧ Plain nodes' := by
  have new : Plain [.leaf (.text marker s)] := by simp [Plain, Node.IsText]
  rcases List.eq_nil_or_concat nodes with rfl | ⟨front, last, rfl⟩
  · exact ⟨_, rfl, new⟩
  · rw [List.concat_eq_append] at plain ⊢
    rw [InPlace.appendString, List.getLast?_concat, List.dropLast_concat]
    have before : Plain front := (each_append.1 plain).1
    cases last with
    | block id attrs content => exact ⟨_, rfl, each_append.2 ⟨plain, new⟩⟩
    | leaf node =>
      cases node with
      | text marker' t =>
        refine ⟨_, rfl, each_append.2 ⟨before, ?_⟩⟩
        simp [Node.IsText]
      | _ => simp [Plain, Node.IsText] at plain

lemma Plain.resolve {p : Page} (plain : Plain p.root) {h : Handle} {c : Nodes}
    (found : p.resolve h = some c) : Plain c := by
  cases h with
  | root =>
    obtain rfl := Option.some.inj found
    exact plain
  | block id => exact Each.find plain c found

lemma Plain.change {p : Page} (plain : Plain p.root) {h : Handle} {f : Nodes → Nodes}
    (keeps : ∀ c, p.resolve h = some c → Plain (f c)) : Plain (p.change h f).root := by
  cases h with
  | root => exact keeps p.root rfl
  | block id =>
    show Plain ((edit id f p.root).getD p.root)
    cases edited : edit id f p.root with
    | none => exact plain
    | some root => exact Each.edit plain keeps root edited

lemma Plain.insert {c new : Nodes} (plain : Plain c) (fresh : Plain new) (i : ℕ) :
    Plain (c.take i ++ new ++ c.drop i) := by
  rw [Plain, each_append, each_append]
  exact ⟨⟨plain.take i, fresh⟩, plain.drop i⟩

/-- On plain pages every call has an answer, and leaves a plain page. -/
lemma Plain.step {p : Page} (plain : Plain p.root) {call : PageCall} (own : call.Plain) :
    ∃ p' answer, p.step call = some (p', answer) ∧ Plain p'.root := by
  cases call with
  | insertBlock b n attrs content =>
    simp only [Page.step]
    split
    · exact ⟨p, .tooDeep, rfl, plain⟩
    · split
      · exact ⟨p, .gone, rfl, plain⟩
      · refine ⟨_, _, rfl, plain.change fun c found => ?_⟩
        exact (plain.resolve found).insert (Draft.plain_write _ _) _
  | writeContent b content clear =>
    simp only [Page.step]
    split
    · exact ⟨p, .tooDeep, rfl, plain⟩
    · split
      · exact ⟨p, .gone, rfl, plain⟩
      · refine ⟨_, _, rfl, plain.change fun c found => each_append.2 ⟨?_, ?_⟩⟩
        · cases clear
          · exact plain.resolve found
          · exact each_nil
        · exact plain_writeDrafts _ _
  | appendString b s marker =>
    simp only [Page.step]
    cases found : p.resolve b with
    | none => exact ⟨p, .gone, rfl, plain⟩
    | some c =>
      obtain ⟨c', joined, plain'⟩ := (plain.resolve found).appendString s marker
      simp only [joined, Option.map_some]
      exact ⟨_, _, rfl, plain.change fun _ _ => plain'⟩
  | deleteBlock b n =>
    simp only [Page.step]
    split
    · exact ⟨p, .gone, rfl, plain⟩
    · split
      · exact ⟨p, .found false, rfl, plain⟩
      · rename_i i _
        refine ⟨_, _, rfl, plain.change fun c found => ?_⟩
        have inside := plain.resolve found
        exact each_append.2 ⟨inside.take i, inside.drop (i + 1)⟩
  | nthBlock b n =>
    simp only [Page.step]
    split
    · exact ⟨p, .nil, rfl, plain⟩
    · exact ⟨p, _, rfl, plain⟩
  | peer root clock => exact ⟨⟨root, clock⟩, .nil, rfl, own⟩

lemma Plain.run {p : Page} (plain : Plain p.root) {calls : List PageCall}
    (own : ∀ call ∈ calls, call.Plain) :
    ∃ p' answers, p.run calls = some (p', answers) ∧ Plain p'.root := by
  induction calls generalizing p with
  | nil => exact ⟨p, [], rfl, plain⟩
  | cons call calls ih =>
    obtain ⟨q, answer, one, plain'⟩ := plain.step (own call List.mem_cons_self)
    obtain ⟨r, answers, rest, plain''⟩ :=
      ih plain' fun call' mem => own call' (List.mem_cons_of_mem _ mem)
    refine ⟨r, answer :: answers, ?_, plain''⟩
    rw [Page.run, one, Option.bind_some, rest, Option.map_some]

end InPlace

end Writer

end Yrby
