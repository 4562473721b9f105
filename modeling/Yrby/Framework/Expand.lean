import Yrby.Framework.Splice

/-!
# Markup that holes are filled with, as trees

`fill` puts strings into the holes of a forest, and strings say nothing about their tags.
`expand draw` puts forests there: the content of a hole first, then what `draw` makes of it.

When each string that `supply` writes is the print of the forest that `draw` gives for the same
content (`Supplies`), the filled forest is the print of the expanded one (`filled_eq_expand`), so a
tokenizer reads the tokens of the expanded forest in it (`scan_print`).  What every tag of a forest
meets, and every tag that is drawn, every tag of the expanded forest meets (`each_expand`).
-/

namespace Yrby

namespace Html

variable {η ζ : Type}

/-! ## Expanding -/

section

variable (draw : η → List (Tree ζ) → List (Tree ζ))

mutual

def Tree.expand : Tree η → List (Tree ζ)
  | .text s => [.text s]
  | .void tag attrs => [.void tag attrs]
  | .elem tag attrs children => [.elem tag attrs (expand children)]
  | .hole label content => draw label (expand content)

/-- The forest with what is drawn for its holes in their places. -/
def expand : List (Tree η) → List (Tree ζ)
  | [] => []
  | t :: ts => t.expand ++ expand ts

end

@[simp] lemma expand_nil : expand draw [] = [] := by
  rw [expand]

@[simp] lemma expand_cons (t : Tree η) (ts : List (Tree η)) :
    expand draw (t :: ts) = t.expand draw ++ expand draw ts := by
  rw [expand]

end

/-! ## What is supplied and what is drawn -/

/-- Where `supply` makes a string of a content, it is the print of what `draw` makes of any forest
that prints this content. -/
def Supplies (supply : η → String → Option String) (draw : η → List (Tree ζ) → List (Tree ζ))
    (label : η) : Prop :=
  ∀ (us : List (Tree ζ)) (inside out : String), pieces us = chars inside →
    supply label inside = some out → pieces (draw label us) = chars out

section

variable {supply : η → String → Option String} {draw : η → List (Tree ζ) → List (Tree ζ)}

mutual

lemma Tree.filled_eq_expand : ∀ t : Tree η, (∀ label ∈ t.holes, Supplies supply draw label) →
    ∀ out, t.filled supply = some out → pieces (t.expand draw) = out.map .char
  | .text s, _, out, h => by
    rw [Tree.filled, Option.some_inj] at h
    rw [Tree.expand, pieces_cons, pieces_nil, List.append_nil, Tree.pieces, h]
  | .void tag attrs, _, out, h => by
    rw [Tree.filled, Option.some_inj] at h
    rw [Tree.expand, pieces_cons, pieces_nil, List.append_nil, Tree.pieces, h]
  | .elem tag attrs children, own, out, h => by
    rw [Tree.holes] at own
    rw [Tree.filled, Option.map_eq_some_iff] at h
    obtain ⟨inside, filling, rfl⟩ := h
    have within := filled_eq_expand children own inside filling
    rw [Tree.expand, pieces_cons, pieces_nil, List.append_nil, Tree.pieces, within]
    simp
  | .hole label content, own, out, h => by
    rw [Tree.holes, List.forall_mem_cons] at own
    rw [Tree.filled, Option.map_eq_some_iff] at h
    obtain ⟨written, supplied, rfl⟩ := h
    obtain ⟨inside, filling, made⟩ := Option.bind_eq_some_iff.mp supplied
    have within := filled_eq_expand content own.2 inside filling
    rw [Tree.expand]
    apply own.1 _ (.ofList inside) written _ made
    rw [within, chars, String.toList_ofList]

/-- A filled forest is the print of the expanded one. -/
lemma filled_eq_expand : ∀ ts : List (Tree η), (∀ label ∈ holes ts, Supplies supply draw label) →
    ∀ out, filled supply ts = some out → pieces (expand draw ts) = out.map .char
  | [], _, out, h => by
    rw [filled, Option.some_inj] at h
    rw [expand_nil, pieces_nil, ← h, List.map_nil]
  | t :: ts, own, out, h => by
    rw [holes_cons, List.forall_mem_append] at own
    rw [filled] at h
    obtain ⟨head, first, rest⟩ := Option.bind_eq_some_iff.mp h
    obtain ⟨tail, others, rfl⟩ := Option.map_eq_some_iff.mp rest
    rw [expand_cons, pieces_append, Tree.filled_eq_expand t own.1 head first,
      filled_eq_expand ts own.2 tail others, List.map_append]

end

mutual

lemma Tree.filled_isSome : ∀ t : Tree η,
    (∀ label ∈ t.holes, ∀ inside, (supply label inside).isSome) → (t.filled supply).isSome
  | .text s, _ => by
    rw [Tree.filled]
    rfl
  | .void tag attrs, _ => by
    rw [Tree.filled]
    rfl
  | .elem tag attrs children, takes => by
    rw [Tree.holes] at takes
    rw [Tree.filled, Option.isSome_map]
    exact filled_isSome children takes
  | .hole label content, takes => by
    rw [Tree.holes, List.forall_mem_cons] at takes
    obtain ⟨inside, filling⟩ := Option.isSome_iff_exists.mp (filled_isSome content takes.2)
    rw [Tree.filled, filling, Option.bind_some, Option.isSome_map]
    exact takes.1 _

/-- A forest is filled when each of its holes takes every content. -/
lemma filled_isSome : ∀ ts : List (Tree η),
    (∀ label ∈ holes ts, ∀ inside, (supply label inside).isSome) → (filled supply ts).isSome
  | [], _ => by
    rw [filled]
    rfl
  | t :: ts, takes => by
    rw [holes_cons, List.forall_mem_append] at takes
    obtain ⟨head, first⟩ := Option.isSome_iff_exists.mp (Tree.filled_isSome t takes.1)
    rw [filled, first, Option.bind_some, Option.isSome_map]
    exact filled_isSome ts takes.2

end

end

/-- What a tokenizer reads in the print of a forest. -/
theorem scan_print {us : List (Tree ζ)} (named : WellNamed us) {out : String}
    (printed : pieces us = chars out) :
    scan [(.html out : Segment ζ)] = some (tokens us) := by
  rw [← scan_segments named, scan, scan, segments, flatMap_pieces_group, printed]
  simp [Segment.pieces, chars]

/-! ## What every tag meets -/

section

variable {draw : η → List (Tree ζ) → List (Tree ζ)} {P : Local ζ}

/-- What the tags of a forest meet, its holes being such as `owned` says. -/
def Local.owning (P : Local ζ) (owned : η → Prop) : Local η :=
  ⟨P.void, P.elem, fun label _ => owned label⟩

variable {owned : η → Prop}

mutual

lemma Tree.each_expand (drawn : ∀ label, owned label → ∀ us, Each P us → Each P (draw label us)) :
    ∀ t : Tree η, t.Each (P.owning owned) → Each P (t.expand draw)
  | .text s, _ => by
    rw [Tree.expand, each_cons, Tree.Each]
    exact ⟨trivial, each_nil⟩
  | .void tag attrs, h => by
    rw [Tree.Each] at h
    rw [Tree.expand, each_cons, Tree.Each]
    exact ⟨h, each_nil⟩
  | .elem tag attrs children, h => by
    rw [Tree.Each] at h
    rw [Tree.expand, each_cons, Tree.Each]
    exact ⟨⟨h.1, each_expand drawn children h.2⟩, each_nil⟩
  | .hole label content, h => by
    rw [Tree.Each] at h
    rw [Tree.expand]
    exact drawn label h.1 _ (each_expand drawn content h.2)

/-- The tags of an expanded forest meet what those of the forest and those that are drawn meet. -/
lemma each_expand (drawn : ∀ label, owned label → ∀ us, Each P us → Each P (draw label us)) :
    ∀ ts : List (Tree η), Each (P.owning owned) ts → Each P (expand draw ts)
  | [], _ => by
    rw [expand_nil]
    exact each_nil
  | t :: ts, h => by
    rw [each_cons] at h
    rw [expand_cons, each_append]
    exact ⟨Tree.each_expand drawn t h.1, each_expand drawn ts h.2⟩

end

end

section

variable {P : Local η} {owned : η → Prop}

mutual

lemma Tree.owned_of_each (labels : ∀ label content, P.hole label content → owned label) :
    ∀ t : Tree η, t.Each P → ∀ label ∈ t.holes, owned label
  | .text s, _ => by simp [Tree.holes]
  | .void tag attrs, _ => by simp [Tree.holes]
  | .elem tag attrs children, h => by
    rw [Tree.Each] at h
    rw [Tree.holes]
    exact owned_of_each labels children h.2
  | .hole label content, h => by
    rw [Tree.Each] at h
    rw [Tree.holes, List.forall_mem_cons]
    exact ⟨labels label _ h.1, owned_of_each labels content h.2⟩

/-- What the holes of a forest meet, their labels meet. -/
lemma owned_of_each (labels : ∀ label content, P.hole label content → owned label) :
    ∀ ts : List (Tree η), Each P ts → ∀ label ∈ holes ts, owned label
  | [], _ => by simp
  | t :: ts, h => by
    rw [each_cons] at h
    rw [holes_cons, List.forall_mem_append]
    exact ⟨Tree.owned_of_each labels t h.1, owned_of_each labels ts h.2⟩

end

end

end Html

end Yrby
