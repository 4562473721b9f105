import Yrby.Framework.Html

/-!
# Filling holes

`fill supply` writes a segment list as one string: the content of a hole first, then what `supply`
makes of it.  A hole that `supply` refuses refuses the whole list.  `filled` says the same of a
forest, with no segments and no strings between (`fill_segments`).

`Deferring tagOf ts us` says that `us` is `ts` with plain elements turned into holes, at any depth:
an element of tag `tag`, without attributes, may be a hole whose label has that tag.  When `supply`
puts the tag back around the content of each such hole, both forests are filled alike
(`Deferring.filled_eq`); when it refuses some of them, they are not (`Deferring.fill_eq_iff`).
-/

namespace Yrby

namespace Html

variable {η : Type}

/-! ## Filling -/

mutual

def Segment.fill (supply : η → String → Option String) : Segment η → Option String
  | .html s => some s
  | .hole label content => (fill supply content).bind (supply label)

/-- Write segments as one string. -/
def fill (supply : η → String → Option String) : List (Segment η) → Option String
  | [] => some ""
  | seg :: segs => (seg.fill supply).bind fun head => (fill supply segs).map (head ++ ·)

end

variable (supply : η → String → Option String)

def Piece.fill : Piece η → Option (List Char)
  | .char c => some [c]
  | .hole label content => ((Html.fill supply content).bind (supply label)).map String.toList

def fillPieces : List (Piece η) → Option (List Char)
  | [] => some []
  | p :: ps => (p.fill supply).bind fun head => (fillPieces ps).map (head ++ ·)

mutual

def Tree.filled : Tree η → Option (List Char)
  | .text s => some (s.toList.flatMap textChar)
  | .void tag attrs => some (openTag tag attrs)
  | .elem tag attrs children =>
    (filled children).map fun inside => openTag tag attrs ++ inside ++ closeTag tag
  | .hole label content =>
    ((filled content).bind fun inside => supply label (.ofList inside)).map String.toList

/-- What a forest is written as when its holes are filled. -/
def filled : List (Tree η) → Option (List Char)
  | [] => some []
  | t :: ts => (t.filled).bind fun head => (filled ts).map (head ++ ·)

end

variable {supply}

lemma fillPieces_append (ps qs : List (Piece η)) :
    fillPieces supply (ps ++ qs) =
      (fillPieces supply ps).bind fun head => (fillPieces supply qs).map (head ++ ·) := by
  induction ps with
  | nil => simp [fillPieces]
  | cons p ps ih =>
    rw [List.cons_append, fillPieces, fillPieces, ih]
    cases p.fill supply with
    | none => rfl
    | some head =>
      cases fillPieces supply ps with
      | none => rfl
      | some middle => simp [Function.comp_def]

lemma fillPieces_chars (cs : List Char) : fillPieces supply (cs.map .char) = some cs := by
  induction cs with
  | nil => rfl
  | cons c cs ih => simp [fillPieces, Piece.fill, ih]

/-- Segments are filled as their pieces are. -/
lemma fill_eq_fillPieces (segs : List (Segment η)) :
    (fill supply segs).map String.toList = fillPieces supply (segs.flatMap Segment.pieces) := by
  induction segs with
  | nil => simp [fill, fillPieces]
  | cons seg segs ih =>
    have head : (seg.fill supply).map String.toList = fillPieces supply seg.pieces := by
      cases seg with
      | html s => simp [Segment.fill, Segment.pieces, fillPieces_chars]
      | hole label content =>
        simp [Segment.fill, Segment.pieces, fillPieces, Piece.fill]
    rw [List.flatMap_cons, fillPieces_append, ← head, ← ih, fill]
    cases seg.fill supply with
    | none => rfl
    | some s =>
      cases fill supply segs with
      | none => rfl
      | some rest => simp

lemma fill_group (ps : List (Piece η)) :
    (fill supply (group ps)).map String.toList = fillPieces supply ps := by
  rw [fill_eq_fillPieces, flatMap_pieces_group]

/-- A hole's string is the characters its content is filled with. -/
lemma fill_group_eq (ps : List (Piece η)) :
    fill supply (group ps) = (fillPieces supply ps).map String.ofList := by
  rw [← fill_group]
  cases fill supply (group ps) with
  | none => rfl
  | some s => simp

mutual

lemma Tree.fillPieces_pieces : ∀ t : Tree η, fillPieces supply t.pieces = t.filled supply
  | .text s => by rw [Tree.pieces, fillPieces_chars, Tree.filled]
  | .void tag attrs => by rw [Tree.pieces, fillPieces_chars, Tree.filled]
  | .elem tag attrs children => by
    have inside := fillPieces_pieces children
    rw [Tree.pieces, fillPieces_append, fillPieces_append, fillPieces_chars, fillPieces_chars,
      inside, Tree.filled]
    cases filled supply children with
    | none => rfl
    | some cs => simp
  | .hole label content => by
    have inside := fillPieces_pieces content
    rw [Tree.pieces, fillPieces, fillPieces, Piece.fill, fill_group_eq, inside, Tree.filled]
    cases filled supply content with
    | none => rfl
    | some cs => cases h : supply label (.ofList cs) <;> simp [h]

lemma fillPieces_pieces : ∀ ts : List (Tree η), fillPieces supply (pieces ts) = filled supply ts
  | [] => by rw [pieces_nil, fillPieces, filled]
  | t :: ts => by
    rw [pieces_cons, fillPieces_append, Tree.fillPieces_pieces t, fillPieces_pieces ts, filled]

end

/-- A forest is filled as its trees are. -/
theorem fill_segments (ts : List (Tree η)) :
    fill supply (segments ts) = (filled supply ts).map String.ofList := by
  rw [segments, fill_group_eq, fillPieces_pieces]

/-! ## The holes of a forest -/

mutual

def Tree.holes : Tree η → List η
  | .text _ => []
  | .void _ _ => []
  | .elem _ _ children => holes children
  | .hole label content => label :: holes content

/-- The labels of a forest's holes, at any depth. -/
def holes : List (Tree η) → List η
  | [] => []
  | t :: ts => t.holes ++ holes ts

end

@[simp] lemma holes_nil : holes ([] : List (Tree η)) = [] := by
  rw [holes]

@[simp] lemma holes_cons (t : Tree η) (ts : List (Tree η)) :
    holes (t :: ts) = t.holes ++ holes ts := by
  rw [holes]

@[simp] lemma holes_append (ts us : List (Tree η)) :
    holes (ts ++ us) = holes ts ++ holes us := by
  induction ts with
  | nil => simp
  | cons t ts ih => simp [ih]

lemma holes_flatMap {α : Type} (xs : List α) (f : α → List (Tree η)) :
    holes (xs.flatMap f) = xs.flatMap fun x => holes (f x) := by
  induction xs with
  | nil => simp
  | cons x xs ih => simp [ih]

lemma holes_element (tag : String) (attrs : List Attr) (ts : List (Tree η)) :
    holes [.elem tag attrs ts] = holes ts := by
  simp [Tree.holes]

/-- A forest that prints nothing has no holes. -/
lemma holes_of_pieces {ts : List (Tree η)} (h : pieces ts = []) : holes ts = [] := by
  induction ts with
  | nil => simp
  | cons t ts ih =>
    rw [pieces_cons, List.append_eq_nil_iff] at h
    rw [holes_cons, ih h.2, List.append_nil]
    cases t with
    | text s => rw [Tree.holes]
    | void tag attrs => rw [Tree.holes]
    | elem tag attrs children => simp [Tree.pieces, openTag] at h
    | hole label content => simp [Tree.pieces] at h

/-- No holes. -/
def whole : Local η := ⟨fun _ _ => True, fun _ _ => True, fun _ _ => False⟩

mutual

lemma Tree.holes_of_whole : ∀ t : Tree η, t.Each whole → t.holes = []
  | .text s, _ => by rw [Tree.holes]
  | .void tag attrs, _ => by rw [Tree.holes]
  | .elem tag attrs children, h => by
    rw [Tree.Each] at h
    rw [Tree.holes, holes_of_whole children h.2]
  | .hole label content, h => by
    rw [Tree.Each] at h
    exact h.1.elim

lemma holes_of_whole : ∀ ts : List (Tree η), Each whole ts → holes ts = []
  | [], _ => holes_nil
  | t :: ts, h => by
    rw [each_cons] at h
    rw [holes_cons, Tree.holes_of_whole t h.1, holes_of_whole ts h.2, List.append_nil]

end

mutual

lemma Tree.filled_of_refused {label : η} (refused : ∀ inside, supply label inside = none) :
    ∀ t : Tree η, label ∈ t.holes → t.filled supply = none
  | .text s, h => by simp [Tree.holes] at h
  | .void tag attrs, h => by simp [Tree.holes] at h
  | .elem tag attrs children, h => by
    rw [Tree.holes] at h
    rw [Tree.filled, filled_of_refused refused children h, Option.map_none]
  | .hole label' content, h => by
    rw [Tree.holes, List.mem_cons] at h
    rw [Tree.filled]
    rcases h with rfl | inside
    · cases filled supply content with
      | none => rfl
      | some cs => simp [refused]
    · rw [filled_of_refused refused content inside, Option.bind_none, Option.map_none]

/-- One hole that is refused refuses the forest. -/
lemma filled_of_refused {label : η} (refused : ∀ inside, supply label inside = none) :
    ∀ ts : List (Tree η), label ∈ holes ts → filled supply ts = none
  | [], h => by simp [holes] at h
  | t :: ts, h => by
    rw [holes, List.mem_append] at h
    rw [filled]
    rcases h with head | tail
    · rw [Tree.filled_of_refused refused t head, Option.bind_none]
    · rw [filled_of_refused refused ts tail]
      cases t.filled supply <;> rfl

end

/-! ## Elements turned into holes -/

/-- `tagOf` gives the tag of the element that a hole stands for; a hole without one is a hole on
both sides. -/
inductive Deferring (tagOf : η → Option String) : List (Tree η) → List (Tree η) → Prop
  | nil : Deferring tagOf [] []
  | text (s : String) {ts us : List (Tree η)} (rest : Deferring tagOf ts us) :
      Deferring tagOf (.text s :: ts) (.text s :: us)
  | void (tag : String) (attrs : List Attr) {ts us : List (Tree η)}
      (rest : Deferring tagOf ts us) :
      Deferring tagOf (.void tag attrs :: ts) (.void tag attrs :: us)
  | elem (tag : String) (attrs : List Attr) {cs ds ts us : List (Tree η)}
      (inside : Deferring tagOf cs ds) (rest : Deferring tagOf ts us) :
      Deferring tagOf (.elem tag attrs cs :: ts) (.elem tag attrs ds :: us)
  | hole {label : η} (kept : tagOf label = none) {cs ds ts us : List (Tree η)}
      (inside : Deferring tagOf cs ds) (rest : Deferring tagOf ts us) :
      Deferring tagOf (.hole label cs :: ts) (.hole label ds :: us)
  | defer {label : η} {tag : String} (stands : tagOf label = some tag)
      {cs ds ts us : List (Tree η)} (inside : Deferring tagOf cs ds)
      (rest : Deferring tagOf ts us) :
      Deferring tagOf (.elem tag [] (.text "" :: cs) :: ts) (.hole label ds :: us)

namespace Deferring

variable {tagOf : η → Option String} {ts us vs ws : List (Tree η)}

lemma append (h : Deferring tagOf ts us) (h' : Deferring tagOf vs ws) :
    Deferring tagOf (ts ++ vs) (us ++ ws) := by
  induction h with
  | nil => exact h'
  | text s _ ih => exact .text s ih
  | void tag attrs _ ih => exact .void tag attrs ih
  | elem tag attrs inside _ _ ih => exact .elem tag attrs inside ih
  | hole kept inside _ _ ih => exact .hole kept inside ih
  | defer stands inside _ _ ih => exact .defer stands inside ih

lemma flatMap {α : Type} (xs : List α) {f g : α → List (Tree η)}
    (h : ∀ x ∈ xs, Deferring tagOf (f x) (g x)) :
    Deferring tagOf (xs.flatMap f) (xs.flatMap g) := by
  induction xs with
  | nil => exact .nil
  | cons x xs ih =>
    have head := h x (by simp)
    have tail := ih fun y hy => h y (by simp [hy])
    exact head.append tail

/-- One element around forests of both sides. -/
lemma element (tag : String) (attrs : List Attr) (h : Deferring tagOf ts us) :
    Deferring tagOf [.elem tag attrs ts] [.elem tag attrs us] :=
  .elem tag attrs h .nil

/-- A hole prints, as the element it stands for does. -/
lemma pieces_eq_nil (h : Deferring tagOf ts us) : pieces us = [] ↔ pieces ts = [] := by
  induction h with
  | nil => rfl
  | text s _ ih => simp [ih]
  | void tag attrs _ ih => simp [ih]
  | elem tag attrs _ _ _ _ => simp [Tree.pieces, openTag]
  | hole _ _ _ _ _ => simp [Tree.pieces]
  | defer _ _ _ _ _ => simp [Tree.pieces, openTag]

variable {supply' : η → String → Option String}

/-- Both forests are filled alike when the holes that stand for elements are given their tags
back. -/
theorem filled_eq (h : Deferring tagOf ts us)
    (kept : ∀ label inside, tagOf label = none → supply' label inside = supply label inside)
    (wraps : ∀ label ∈ holes us, ∀ tag inside, tagOf label = some tag →
      supply' label inside = some ("<" ++ tag ++ ">" ++ inside ++ "</" ++ tag ++ ">")) :
    filled supply' us = filled supply ts := by
  induction h with
  | nil => rw [filled, filled]
  | text s _ ih =>
    have rest := ih fun label hl => wraps label (by simp [holes, Tree.holes, hl])
    simp only [filled, Tree.filled, rest]
  | void tag attrs _ ih =>
    have rest := ih fun label hl => wraps label (by simp [holes, Tree.holes, hl])
    simp only [filled, Tree.filled, rest]
  | elem tag attrs _ _ ihInside ih =>
    have inside := ihInside fun label hl => wraps label (by simp [holes, Tree.holes, hl])
    have rest := ih fun label hl => wraps label (by simp [holes, Tree.holes, hl])
    simp only [filled, Tree.filled, inside, rest]
  | hole own _ _ ihInside ih =>
    have inside := ihInside fun label hl => wraps label (by simp [holes, Tree.holes, hl])
    have rest := ih fun label hl => wraps label (by simp [holes, Tree.holes, hl])
    simp only [filled, Tree.filled, inside, rest, kept _ _ own]
  | @defer label tag stands cs ds ts us _ _ ihInside ih =>
    have inside := ihInside fun label hl => wraps label (by simp [holes, Tree.holes, hl])
    have rest := ih fun label hl => wraps label (by simp [holes, Tree.holes, hl])
    have put := fun inside => wraps label (by simp [holes, Tree.holes]) tag inside stands
    have around : Tree.filled supply' (.hole label ds) =
        Tree.filled supply (.elem tag [] (.text "" :: cs)) := by
      simp only [Tree.filled, filled, inside, put]
      cases filled supply cs with
      | none => rfl
      | some chars => simp [openTag, closeTag]
    rw [filled, filled, around, rest]

/-- When some of these holes are refused, the forests are filled alike just if none of them is
there, or if the first forest is refused as well. -/
theorem fill_eq_iff {accepts : η → Prop} (h : Deferring tagOf ts us)
    (kept : ∀ label inside, tagOf label = none → supply' label inside = supply label inside)
    (wraps : ∀ label tag inside, tagOf label = some tag → accepts label →
      supply' label inside = some ("<" ++ tag ++ ">" ++ inside ++ "</" ++ tag ++ ">"))
    (refuses : ∀ label tag inside, tagOf label = some tag → ¬ accepts label →
      supply' label inside = none) :
    fill supply' (segments us) = fill supply (segments ts) ↔
      fill supply (segments ts) = none ∨
        ∀ label ∈ holes us, (tagOf label).isSome → accepts label := by
  rw [fill_segments, fill_segments]
  by_cases all : ∀ label ∈ holes us, (tagOf label).isSome → accepts label
  · have same : filled supply' us = filled supply ts := by
      apply h.filled_eq kept
      intro label hl tag inside stands
      exact wraps label tag inside stands (all label hl (by rw [stands]; rfl))
    rw [same]
    exact ⟨fun _ => .inr all, fun _ => rfl⟩
  · have some_refused : ∃ label ∈ holes us, (tagOf label).isSome ∧ ¬ accepts label := by
      push Not at all
      exact all
    obtain ⟨label, hl, stands, bad⟩ := some_refused
    obtain ⟨tag, htag⟩ := Option.isSome_iff_exists.mp stands
    have stuck : filled supply' us = none :=
      filled_of_refused (fun inside => refuses label tag inside htag bad) us hl
    rw [stuck, Option.map_none]
    constructor
    · intro same
      exact .inl same.symm
    · intro either
      rcases either with raised | good
      · exact raised.symm
      · exact absurd good all

end Deferring

section

variable {tagOf : η → Option String}

mutual

lemma Tree.deferring_self : ∀ (t : Tree η), t.Each whole → ∀ {ts us : List (Tree η)},
    Deferring tagOf ts us → Deferring tagOf (t :: ts) (t :: us)
  | .text s, _, _, _, rest => .text s rest
  | .void tag attrs, _, _, _, rest => .void tag attrs rest
  | .elem tag attrs children, h, _, _, rest => by
    rw [Tree.Each] at h
    exact .elem tag attrs (deferring_self children h.2) rest
  | .hole label content, h, _, _, _ => by
    rw [Tree.Each] at h
    exact h.1.elim

/-- Nothing is deferred in a forest without holes. -/
lemma deferring_self : ∀ ts : List (Tree η), Each whole ts → Deferring tagOf ts ts
  | [], _ => .nil
  | t :: ts, h => by
    rw [each_cons] at h
    exact Tree.deferring_self t h.1 (deferring_self ts h.2)

end

end

end Html

end Yrby
