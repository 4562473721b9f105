import Yrby.Render.HtmlCore

/-!
# The block walk

Both renderers walk a block and everything under it on an explicit stack of work: `open` renders a
node, and may put its children and an end tag back on the stack; `close` and `closeOwned` emit an
end tag; `endDeferred` ends the frame of a callback node and emits its deferred segment.  The walk
is generic in the nodes: a `Walker` says how one node is opened, and that what it puts back weighs
less than the node, so the walk terminates.

`Rendered n d out` is the specification of one node: whatever is under it on the stack, and
whatever the emitter holds, working off the node and all it puts on the stack appends `out` and
goes on with what was under it.
-/

namespace Yrby

namespace HtmlCore

/-- A unit of block work.  The source pushes onto the end of its stack; here the top comes first. -/
inductive Work (Node : Type)
  | open (node : Node) (depth : ℕ)
  | close (tag : String)
  | closeOwned (tag : String)
  | endDeferred (label : Deferred)

/-- The work a stack is worth, each node for its size. -/
def weight {Node : Type} (size : Node → ℕ) : List (Work Node) → ℕ
  | [] => 0
  | .open node _ :: stack => size node + weight size stack
  | .close _ :: stack => 1 + weight size stack
  | .closeOwned _ :: stack => 1 + weight size stack
  | .endDeferred _ :: stack => 1 + weight size stack

@[simp] lemma weight_append {Node : Type} (size : Node → ℕ) (ws stack : List (Work Node)) :
    weight size (ws ++ stack) = weight size ws + weight size stack := by
  induction ws with
  | nil => simp [weight]
  | cons w ws ih => cases w <;> simp [weight, ih, Nat.add_assoc]

/-- Each of several children weighs at most as much as all of them. -/
lemma size_le_weight {Node : Type} (size : Node → ℕ) {c : Node} {children : List Node}
    (h : c ∈ children) (depth : ℕ) : size c ≤ weight size (children.map (Work.open · depth)) := by
  induction children with
  | nil => simp at h
  | cons d ds ih =>
    simp only [List.map_cons, weight]
    rcases List.mem_cons.mp h with rfl | hd
    · omega
    · have rest := ih hd
      omega

/-- How a node is opened. -/
structure Walker (Node : Type) where
  size : Node → ℕ
  /-- Render a node; the work that is left goes on the stack. -/
  openBlock : Node → ℕ → Render (List (Work Node))
  lighter : ∀ {node depth em ws em'}, openBlock node depth em = some (ws, em') →
    weight size ws < size node

/-- Whatever a computation returns meets `P`. -/
def Returns {α : Type} (P : α → Prop) (x : Render α) : Prop :=
  ∀ em a em', x em = some (a, em') → P a

section

variable {α β : Type} {P : α → Prop}

lemma Returns.pure {a : α} (h : P a) : Returns P (Pure.pure a : Render α) := by
  intro em b em' hrun
  have same : a = b := congrArg Prod.fst (Option.some.inj hrun)
  exact same ▸ h

lemma Returns.bind {x : Render β} {f : β → Render α} (h : ∀ b, Returns P (f b)) :
    Returns P (x >>= f) := by
  intro em a em' hrun
  obtain ⟨r, -, hf⟩ := Option.bind_eq_some_iff.mp hrun
  exact h r.1 r.2 a em' hf

end

/-- A rule node in block position: what its content slot renders now, and the work it leaves. -/
def openRuleNode {Node : Type} (lookup : String → Option String) (label : Deferred)
    (rule : NodeRule) (inline : Content → Render Unit) (blocks : Content → List (Work Node)) :
    Render (List (Work Node)) :=
  match rule with
  | .callback content => do
    Emitter.beginFrame
    inline content
    Pure.pure (blocks content ++ [.endDeferred label])
  | .declarative tag void attrs text content => do
    pushOpenTag tag attrs lookup
    if void then Pure.pure []
    else
      pushTemplate text lookup
      inline content
      if content = .blocks then
        Pure.pure (blocks content ++ [.closeOwned ("</" ++ tag ++ ">")])
      else
        pushCloseTag tag
        Pure.pure []

/-- A rule node leaves less than it weighs when its blocks leave room for an end tag. -/
lemma openRuleNode_lighter {Node : Type} {size : Node → ℕ} {node : Node}
    {blocks : Content → List (Work Node)}
    (hblocks : ∀ content, weight size (blocks content) + 1 < size node)
    (lookup : String → Option String) (label : Deferred) (rule : NodeRule)
    (inline : Content → Render Unit) :
    Returns (fun ws => weight size ws < size node)
      (openRuleNode lookup label rule inline blocks) := by
  have nothing : weight size ([] : List (Work Node)) < size node := by
    have some := hblocks .none
    simp only [weight]
    omega
  cases rule with
  | callback content =>
    refine Returns.bind fun _ => Returns.bind fun _ => Returns.pure ?_
    simpa [weight] using hblocks content
  | declarative tag void attrs text content =>
    apply Returns.bind
    intro _
    split
    · exact Returns.pure nothing
    · refine Returns.bind fun _ => Returns.bind fun _ => ?_
      split
      · apply Returns.pure
        simpa [weight] using hblocks content
      · exact Returns.bind fun _ => Returns.pure nothing

namespace Walker

variable {Node : Type} (w : Walker Node)

/-- Work off the stack. -/
def walk : List (Work Node) → Render Unit
  | [] => Pure.pure ()
  | .close tag :: stack => do
    Emitter.pushStr tag
    walk stack
  | .closeOwned tag :: stack => do
    Emitter.pushStr tag
    walk stack
  | .endDeferred label :: stack => do
    let content ← Emitter.endFrame
    Emitter.emitDeferred label content
    walk stack
  | .open node depth :: stack => fun em =>
    match _h : w.openBlock node depth em with
    | none => none
    | some (ws, em') => walk (ws ++ stack) em'
termination_by stack => weight w.size stack
decreasing_by
  · simp [weight]
  · simp [weight]
  · simp [weight]
  · have less := w.lighter ‹_›
    simp only [weight, weight_append]
    omega

/-- Walk one block and everything under it. -/
def renderBlockTree (root : Node) : Render Unit := w.walk [.open root 0]

lemma walk_open {node : Node} {depth : ℕ} {em em' : Emitter} {ws stack : List (Work Node)}
    (h : w.openBlock node depth em = some (ws, em')) :
    w.walk (.open node depth :: stack) em = w.walk (ws ++ stack) em' := by
  rw [walk]
  beta_reduce
  split
  · next none_eq => rw [h] at none_eq; simp at none_eq
  · next ws' em'' some_eq =>
    rw [h] at some_eq
    obtain ⟨rfl, rfl⟩ : ws = ws' ∧ em' = em'' := by simpa using some_eq
    rfl

lemma walk_close (tag : String) (stack : List (Work Node)) (em : Emitter) :
    w.walk (.close tag :: stack) em = w.walk stack (em.add (Html.chars tag)) := by
  rw [walk]
  change (Emitter.pushStr tag em).bind (fun r => w.walk stack r.2) = _
  rw [Yields.pushStr tag em, Option.bind_some]

lemma walk_closeOwned (tag : String) (stack : List (Work Node)) (em : Emitter) :
    w.walk (.closeOwned tag :: stack) em = w.walk stack (em.add (Html.chars tag)) := by
  rw [walk]
  change (Emitter.pushStr tag em).bind (fun r => w.walk stack r.2) = _
  rw [Yields.pushStr tag em, Option.bind_some]

/-- The end of a deferred node seals the frame on top. -/
lemma walk_endDeferred (label : Deferred) (stack : List (Work Node)) (em : Emitter)
    (out : List Piece) :
    w.walk (.endDeferred label :: stack) (Emitter.add ⟨[], em.frame :: em.outer⟩ out) =
      w.walk stack (em.add [.hole label (Html.group out)]) := by
  rw [walk]
  rfl

/-- Working off `node` and all it leaves on the stack appends `out`. -/
def Rendered (node : Node) (depth : ℕ) (out : List Piece) : Prop :=
  ∀ stack em, w.walk (.open node depth :: stack) em = w.walk stack (em.add out)

variable {w} {node : Node} {depth : ℕ} {pre : List Piece}

/-- Children one after the other. -/
lemma walk_children {children : List Node} {out : Node → List Piece}
    (h : ∀ c ∈ children, w.Rendered c depth (out c)) (stack : List (Work Node)) (em : Emitter) :
    w.walk (children.map (.open · depth) ++ stack) em =
      w.walk stack (em.add (children.flatMap out)) := by
  induction children generalizing em with
  | nil => simp
  | cons c cs ih =>
    have first := h c (by simp) (cs.map (.open · depth) ++ stack) em
    have rest := ih (fun c' hc => h c' (by simp [hc])) (em.add (out c))
    rw [List.map_cons, List.cons_append, first, rest, List.flatMap_cons, Emitter.add_append]

lemma Rendered.congr {out out' : List Piece} (h : w.Rendered node depth out) (same : out = out') :
    w.Rendered node depth out' := same ▸ h

/-- Children walked with nothing under them. -/
lemma yields_children {children : List Node} {out : Node → List Piece}
    (h : ∀ c ∈ children, w.Rendered c depth (out c)) :
    Yields (w.walk (children.map (.open · depth))) () (children.flatMap out) := by
  intro em
  have all := walk_children h [] em
  rw [List.append_nil] at all
  rw [all, walk]
  rfl

/-- A node that renders on the spot. -/
lemma Rendered.leaf (h : Yields (w.openBlock node depth) [] pre) : w.Rendered node depth pre := by
  intro stack em
  rw [w.walk_open (h em), List.nil_append]

/-- A node that leaves its children and an end tag. -/
lemma Rendered.container {children : List Node} {tag : String}
    (h : Yields (w.openBlock node depth) (children.map (.open · (depth + 1)) ++ [.close tag]) pre)
    (out : Node → List Piece) (hchildren : ∀ c ∈ children, w.Rendered c (depth + 1) (out c)) :
    w.Rendered node depth (pre ++ children.flatMap out ++ Html.chars tag) := by
  intro stack em
  rw [w.walk_open (h em), List.append_assoc, walk_children hchildren]
  rw [List.singleton_append, walk_close, Emitter.add_append, Emitter.add_append]

lemma Rendered.containerOwned {children : List Node} {tag : String}
    (h : Yields (w.openBlock node depth) (children.map (.open · (depth + 1)) ++ [.closeOwned tag])
      pre)
    (out : Node → List Piece) (hchildren : ∀ c ∈ children, w.Rendered c (depth + 1) (out c)) :
    w.Rendered node depth (pre ++ children.flatMap out ++ Html.chars tag) := by
  intro stack em
  rw [w.walk_open (h em), List.append_assoc, walk_children hchildren]
  rw [List.singleton_append, walk_closeOwned, Emitter.add_append, Emitter.add_append]

/-- A callback node: a frame is begun, and ended once the children are done. -/
lemma Rendered.deferred {children : List Node} (out : Node → List Piece) {label : Deferred}
    {x : Render Unit}
    (hopen : w.openBlock node depth = do
      Emitter.beginFrame
      x
      Pure.pure (children.map (.open · (depth + 1)) ++ [.endDeferred label]))
    (hx : Yields x () pre) (hchildren : ∀ c ∈ children, w.Rendered c (depth + 1) (out c)) :
    w.Rendered node depth [.hole label (Html.group (pre ++ children.flatMap out))] := by
  intro stack em
  have run : w.openBlock node depth em =
      some (children.map (.open · (depth + 1)) ++ [.endDeferred label],
        Emitter.add ⟨[], em.frame :: em.outer⟩ pre) := by
    rw [hopen]
    change (x ⟨[], em.frame :: em.outer⟩).bind (fun r => some (_, r.2)) = _
    rw [hx, Option.bind_some]
  rw [w.walk_open run, List.append_assoc, walk_children hchildren, ← Emitter.add_append]
  rw [List.singleton_append, walk_endDeferred]

/-- A node with a rule: its tree, around what its content slot prints and its children. -/
lemma Rendered.rule {lookup : String → Option String} {label : Deferred} {rule : NodeRule}
    {inline : Content → Render Unit} {children : Content → List Node}
    (hopen : w.openBlock node depth = openRuleNode lookup label rule inline fun content =>
      (children content).map (.open · (depth + 1)))
    (hleaf : ∀ content, content ≠ .blocks → children content = [])
    (out : Node → List Piece)
    (hchildren : ∀ content, ∀ c ∈ children content, w.Rendered c (depth + 1) (out c))
    {trees : Content → List Tree}
    (hinline : ∀ content, ∃ pre, Yields (inline content) () pre ∧
      Html.pieces (trees content) = pre ++ (children content).flatMap out) :
    w.Rendered node depth (ruleTree lookup label trees rule).pieces := by
  cases rule with
  | callback content =>
    obtain ⟨pre, hpre, split⟩ := hinline content
    have sealed := Rendered.deferred out hopen hpre (hchildren content)
    simpa [ruleTree, Html.Tree.pieces, split] using sealed
  | declarative tag void attrs text content =>
    have opened := Yields.pushOpenTag tag attrs lookup
    cases void with
    | true =>
      apply Rendered.leaf
      rw [hopen]
      exact (opened.seq (Yields.pure [])).congr (by simp [ruleTree, Html.Tree.pieces])
    | false =>
      obtain ⟨pre, hpre, split⟩ := hinline content
      by_cases blocks : content = .blocks
      · subst blocks
        have left : Yields (w.openBlock node depth)
            ((children .blocks).map (.open · (depth + 1)) ++ [.closeOwned ("</" ++ tag ++ ">")])
            ((Html.openTag tag (ruleAttrs lookup attrs)).map .char ++
              (Html.Tree.pieces (.text (templateText lookup text)) ++ pre)) := by
          rw [hopen]
          exact (opened.seq ((Yields.pushTemplate text lookup).seq
            (hpre.seq (Yields.pure _)))).congr (by simp)
        apply (Rendered.containerOwned left out (hchildren .blocks)).congr
        simp [ruleTree, Html.Tree.pieces, split, Html.closeTag, Html.chars]
      · have rest : Yields
            (if content = .blocks then
              Pure.pure ((children content).map (Work.open · (depth + 1)) ++
                [.closeOwned ("</" ++ tag ++ ">")])
            else do
              pushCloseTag tag
              Pure.pure []) [] ((Html.closeTag tag).map .char) := by
          rw [if_neg blocks]
          exact ((Yields.pushCloseTag tag).seq (Yields.pure [])).congr (by simp)
        apply Rendered.leaf
        rw [hopen]
        apply (opened.seq ((Yields.pushTemplate text lookup).seq (hpre.seq rest))).congr
        simp [ruleTree, Html.Tree.pieces, split, hleaf content blocks]

/-- A node walked with nothing under it. -/
lemma Rendered.yields {out : List Piece} (h : w.Rendered node 0 out) :
    Yields (w.renderBlockTree node) () out := by
  intro em
  rw [renderBlockTree, h, walk]
  rfl

end Walker

end HtmlCore

end Yrby
