import Mathlib.Data.List.Basic

/-!
# Outlines

A content is a list of leaves and blocks.  A block has attributes, an identity and a content of its
own.  `find` and `edit` reach the block with an identity wherever it stands, the first one if there
were several; `blockIndex` is where the `n`th block of one content stands.

`lift f` puts the leaves `f x` in the place of every leaf `x`.  All three go through it
(`find_lift`, `edit_lift`, `blockIndex_lift`), so two levels of one outline that differ in their
leaves are edited alike as soon as one content is.
-/

namespace Yrby

namespace Outline

/-- A leaf, or a block. -/
inductive Cell (L A : Type*)
  | leaf (x : L)
  | block (id : ℕ) (attrs : A) (content : List (Cell L A))

variable {L M A : Type*}

/-! ## Reaching a block -/

mutual

def Cell.find (id : ℕ) : Cell L A → Option (List (Cell L A))
  | .leaf _ => none
  | .block i _ content => if i = id then some content else find id content

/-- The content of the block with this identity. -/
def find (id : ℕ) : List (Cell L A) → Option (List (Cell L A))
  | [] => none
  | x :: xs => (x.find id).or (find id xs)

end

section

variable (id : ℕ) (f : List (Cell L A) → List (Cell L A))

mutual

def Cell.edit : Cell L A → Option (Cell L A)
  | .leaf _ => none
  | .block i attrs content =>
    if i = id then some (.block i attrs (f content))
    else (edit content).map (.block i attrs)

/-- Change the content of the block with this identity.  `none` where there is no such block. -/
def edit : List (Cell L A) → Option (List (Cell L A))
  | [] => none
  | x :: xs =>
    match x.edit with
    | some x' => some (x' :: xs)
    | none => (edit xs).map (x :: ·)

end

end

/-- Where the `n`th block of a content stands. -/
def blockIndex : ℕ → List (Cell L A) → Option ℕ
  | _, [] => none
  | n, .leaf _ :: xs => (blockIndex n xs).map (· + 1)
  | 0, .block _ _ _ :: _ => some 0
  | n + 1, .block _ _ _ :: xs => (blockIndex n xs).map (· + 1)

def Cell.id? : Cell L A → Option ℕ
  | .leaf _ => none
  | .block id _ _ => some id

/-- The identities of the blocks of a content, without those inside them. -/
def blocks (xs : List (Cell L A)) : List ℕ := xs.filterMap Cell.id?

/-- Does the content end with a block? -/
def endsWithBlock (xs : List (Cell L A)) : Bool := xs.getLast?.any fun x => x.id?.isSome

/-! ## Other leaves -/

mutual

def Cell.lift (f : L → List M) : Cell L A → List (Cell M A)
  | .leaf x => (f x).map .leaf
  | .block i attrs content => [.block i attrs (lift f content)]

/-- Several leaves in the place of each. -/
def lift (f : L → List M) : List (Cell L A) → List (Cell M A)
  | [] => []
  | x :: xs => x.lift f ++ lift f xs

end

section

variable {f : L → List M}

@[simp] lemma lift_nil : lift f ([] : List (Cell L A)) = [] := by
  rw [lift]

@[simp] lemma lift_cons (x : Cell L A) (xs : List (Cell L A)) :
    lift f (x :: xs) = x.lift f ++ lift f xs := by
  rw [lift]

@[simp] lemma lift_append (xs ys : List (Cell L A)) :
    lift f (xs ++ ys) = lift f xs ++ lift f ys := by
  induction xs with
  | nil => simp
  | cons x xs ih => simp [ih]

@[simp] lemma Cell.lift_leaf (x : L) :
    (Cell.leaf x : Cell L A).lift f = (f x).map .leaf := by
  rw [Cell.lift]

@[simp] lemma Cell.lift_block (i : ℕ) (attrs : A) (content : List (Cell L A)) :
    (Cell.block i attrs content).lift f = [.block i attrs (Outline.lift f content)] := by
  rw [Cell.lift]

@[simp] lemma find_nil (id : ℕ) : find id ([] : List (Cell L A)) = none := by
  rw [find]

@[simp] lemma find_leaf (id : ℕ) (x : L) (xs : List (Cell L A)) :
    find id (.leaf x :: xs) = find id xs := by
  rw [find, Cell.find, Option.none_or]

@[simp] lemma find_block (id i : ℕ) (attrs : A) (content xs : List (Cell L A)) :
    find id (.block i attrs content :: xs) =
      (if i = id then some content else find id content).or (find id xs) := by
  rw [find, Cell.find]

lemma find_leaves (id : ℕ) (leaves : List L) (xs : List (Cell L A)) :
    find id (leaves.map .leaf ++ xs) = find id xs := by
  induction leaves with
  | nil => rfl
  | cons x leaves ih => rw [List.map_cons, List.cons_append, find_leaf, ih]

mutual

lemma Cell.find_lift (id : ℕ) : ∀ (x : Cell L A) (xs : List (Cell M A)),
    find id (x.lift f ++ xs) = ((x.find id).map (lift f)).or (find id xs)
  | .leaf x, xs => by
    rw [Cell.lift_leaf, find_leaves, Cell.find, Option.map_none, Option.none_or]
  | .block i attrs content, xs => by
    have inside := find_lift id content
    rw [Cell.lift_block, List.singleton_append, find_block, inside, Cell.find]
    split <;> rfl

/-- A block is found among other leaves as well. -/
theorem find_lift (id : ℕ) : ∀ xs : List (Cell L A),
    find id (lift f xs) = (find id xs).map (lift f)
  | [] => by rw [lift_nil, find_nil, find_nil, Option.map_none]
  | x :: xs => by
    rw [lift_cons, Cell.find_lift id x, find_lift id xs, find]
    cases x.find id <;> rfl

end

section

variable {id : ℕ} {g : List (Cell L A) → List (Cell L A)} {h : List (Cell M A) → List (Cell M A)}

lemma edit_nil : edit id g ([] : List (Cell L A)) = none := by
  rw [edit]

lemma edit_leaf (x : L) (xs : List (Cell L A)) :
    edit id g (.leaf x :: xs) = (edit id g xs).map (.leaf x :: ·) := by
  rw [edit, Cell.edit]

lemma edit_leaves (leaves : List L) (xs : List (Cell L A)) :
    edit id g (leaves.map .leaf ++ xs) = (edit id g xs).map (leaves.map .leaf ++ ·) := by
  induction leaves with
  | nil => simp
  | cons x leaves ih =>
    rw [List.map_cons, List.cons_append, edit_leaf, ih, Option.map_map]
    rfl

lemma edit_cons (x : Cell L A) (xs : List (Cell L A)) :
    edit id g (x :: xs) = ((x.edit id g).map (· :: xs)).or ((edit id g xs).map (x :: ·)) := by
  rw [edit]
  cases x.edit id g <;> rfl

mutual

lemma Cell.edit_eq_none : ∀ x : Cell L A, x.edit id g = none ↔ x.find id = none
  | .leaf x => by simp [Cell.edit, Cell.find]
  | .block i attrs content => by
    have inside := edit_eq_none content
    rw [Cell.edit, Cell.find]
    split
    · simp
    · rw [Option.map_eq_none_iff, inside]

/-- There is a block to change just if one is found. -/
theorem edit_eq_none : ∀ xs : List (Cell L A), edit id g xs = none ↔ find id xs = none
  | [] => by rw [edit_nil, find_nil]
  | x :: xs => by
    have head := Cell.edit_eq_none x
    have tail := edit_eq_none xs
    rw [edit_cons, find]
    simp [head, tail]

end

mutual

lemma Cell.edit_lift : ∀ (x : Cell L A),
    (∀ c, x.find id = some c → h (lift f c) = lift f (g c)) → ∀ xs : List (Cell M A),
      edit id h (x.lift f ++ xs) =
        ((x.edit id g).map fun x' => x'.lift f ++ xs).or ((edit id h xs).map (x.lift f ++ ·))
  | .leaf x, _, xs => by
    rw [Cell.lift_leaf, edit_leaves, Cell.edit, Option.map_none, Option.none_or]
  | .block i attrs content, alike, xs => by
    rw [Cell.lift_block, List.singleton_append, edit_cons, Cell.edit, Cell.edit]
    rw [Cell.find] at alike
    by_cases here : i = id
    · rw [if_pos here, if_pos here]
      rw [if_pos here] at alike
      simp [alike content rfl]
    · rw [if_neg here, if_neg here]
      rw [if_neg here] at alike
      rw [edit_lift content alike]
      simp [Function.comp_def]

/-- An edit goes through other leaves, when it does so on the content that it changes. -/
theorem edit_lift : ∀ (xs : List (Cell L A)),
    (∀ c, find id xs = some c → h (lift f c) = lift f (g c)) →
      edit id h (lift f xs) = (edit id g xs).map (lift f)
  | [], _ => by rw [lift_nil, edit_nil, edit_nil, Option.map_none]
  | x :: xs, alike => by
    rw [find] at alike
    have head : ∀ c, x.find id = some c → h (lift f c) = lift f (g c) := by
      intro c hc
      exact alike c (by rw [hc, Option.some_or])
    rw [lift_cons, Cell.edit_lift x head, edit_cons]
    cases found : x.edit id g with
    | some x' => simp
    | none =>
      have tail : ∀ c, find id xs = some c → h (lift f c) = lift f (g c) := by
        intro c hc
        refine alike c ?_
        rw [(Cell.edit_eq_none x).1 found, Option.none_or, hc]
      rw [edit_lift xs tail]
      simp [Function.comp_def]

end

end

/-! ## The blocks of one content -/

lemma blocks_leaves (leaves : List L) : blocks (leaves.map (Cell.leaf (A := A))) = [] := by
  rw [blocks, List.filterMap_map]
  exact List.filterMap_eq_nil_iff.2 fun _ _ => rfl

/-- Leaves do not count among the blocks. -/
lemma blocks_lift (xs : List (Cell L A)) : blocks (lift f xs) = blocks xs := by
  induction xs with
  | nil => simp [blocks]
  | cons x xs ih =>
    rw [lift_cons, blocks, List.filterMap_append]
    rw [blocks] at ih
    cases x with
    | leaf x =>
      have none := blocks_leaves (A := A) (f x)
      rw [blocks] at none
      rw [Cell.lift_leaf, none, ih]
      rfl
    | block i attrs content =>
      rw [Cell.lift_block, ih]
      rfl

lemma blockIndex_leaves (n : ℕ) (leaves : List L) (xs : List (Cell L A)) :
    blockIndex n (leaves.map .leaf ++ xs) = (blockIndex n xs).map (leaves.length + ·) := by
  induction leaves with
  | nil => simp
  | cons x leaves ih =>
    rw [List.map_cons, List.cons_append, blockIndex, ih, Option.map_map]
    congr 1
    funext k
    simp only [Function.comp_apply, List.length_cons]
    omega

/-- The `n`th block stands behind what was in front of it. -/
theorem blockIndex_lift (n : ℕ) (xs : List (Cell L A)) :
    blockIndex n (lift f xs) = (blockIndex n xs).map fun i => (lift f (xs.take i)).length := by
  induction xs generalizing n with
  | nil => rfl
  | cons x xs ih =>
    cases x with
    | leaf x =>
      rw [lift_cons, Cell.lift_leaf, blockIndex_leaves, ih, blockIndex, Option.map_map,
        Option.map_map]
      congr 1
      funext k
      simp
    | block i attrs content =>
      cases n with
      | zero => simp [blockIndex]
      | succ n =>
        rw [lift_cons, Cell.lift_block, List.singleton_append, blockIndex, ih, blockIndex,
          Option.map_map, Option.map_map]
        rfl

/-- Before a place, and behind it. -/
lemma take_lift (xs : List (Cell L A)) (i : ℕ) :
    (lift f xs).take (lift f (xs.take i)).length = lift f (xs.take i) := by
  conv_lhs => rw [← List.take_append_drop i xs]
  rw [lift_append]
  simp

lemma drop_lift (xs : List (Cell L A)) (i : ℕ) :
    (lift f xs).drop (lift f (xs.take i)).length = lift f (xs.drop i) := by
  conv_lhs => rw [← List.take_append_drop i xs]
  rw [lift_append]
  simp

/-- The last element stays a leaf or a block. -/
lemma endsWithBlock_lift (some : ∀ x, f x ≠ []) (xs : List (Cell L A)) :
    endsWithBlock (lift f xs) = endsWithBlock xs := by
  rcases List.eq_nil_or_concat xs with rfl | ⟨front, last, rfl⟩
  · rfl
  · rw [List.concat_eq_append, endsWithBlock, endsWithBlock, lift_append, lift_cons, lift_nil,
      List.append_nil]
    cases last with
    | leaf x =>
      obtain ⟨leaves, y, same⟩ := (List.eq_nil_or_concat (f x)).resolve_left (some x)
      rw [Cell.lift_leaf, same, List.concat_eq_append, List.map_append, ← List.append_assoc]
      simp [Cell.id?]
    | block i attrs content =>
      rw [Cell.lift_block]
      simp [Cell.id?]

lemma isEmpty_lift (some : ∀ x, f x ≠ []) (xs : List (Cell L A)) :
    (lift f xs).isEmpty = xs.isEmpty := by
  cases xs with
  | nil => rfl
  | cons x xs =>
    cases x with
    | leaf x => simp [some x]
    | block i attrs content => simp

/-- At its index stands a block. -/
lemma drop_blockIndex {n i : ℕ} {xs : List (Cell L A)} (h : blockIndex n xs = some i) :
    ∃ id attrs content, xs.drop i = .block id attrs content :: xs.drop (i + 1) := by
  induction xs generalizing n i with
  | nil => cases h
  | cons x xs ih =>
    have later : ∀ {k j}, blockIndex k xs = some j → j + 1 = i →
        ∃ id attrs content,
          (x :: xs).drop i = .block id attrs content :: (x :: xs).drop (i + 1) := by
      rintro k j there rfl
      exact ih there
    cases x with
    | leaf x =>
      rw [blockIndex, Option.map_eq_some_iff] at h
      obtain ⟨j, there, same⟩ := h
      exact later there same
    | block id attrs content =>
      cases n with
      | zero =>
        obtain rfl := Option.some.inj h
        exact ⟨id, attrs, content, rfl⟩
      | succ n =>
        rw [blockIndex, Option.map_eq_some_iff] at h
        obtain ⟨j, there, same⟩ := h
        exact later there same

end

/-! ## Contents of blocks alone -/

section

variable {xs : List (Cell L A)} (all : ∀ x ∈ xs, x.id?.isSome)

include all

lemma length_blocks : (blocks xs).length = xs.length := by
  induction xs with
  | nil => rfl
  | cons x xs ih =>
    have rest := ih fun y hy => all y (List.mem_cons_of_mem x hy)
    obtain ⟨id, here⟩ := Option.isSome_iff_exists.1 (all x List.mem_cons_self)
    rw [blocks, List.filterMap_cons, here]
    rw [blocks] at rest
    simp [rest]

lemma blockIndex_eq (n : ℕ) : blockIndex n xs = if n < xs.length then some n else none := by
  induction xs generalizing n with
  | nil => rfl
  | cons x xs ih =>
    have rest := ih fun y hy => all y (List.mem_cons_of_mem x hy)
    have here := all x List.mem_cons_self
    cases x with
    | leaf x => cases here
    | block id attrs content =>
      cases n with
      | zero => simp [blockIndex]
      | succ n =>
        rw [blockIndex, rest]
        by_cases inside : n < xs.length
        · simp [inside]
        · simp [inside]

end

/-! ## A property of every leaf -/

section

variable (P : L → Prop)

mutual

def Cell.Each : Cell L A → Prop
  | .leaf x => P x
  | .block _ _ content => Each content

/-- Every leaf, at any depth. -/
def Each : List (Cell L A) → Prop
  | [] => True
  | x :: xs => x.Each ∧ Each xs

end

end

section

variable {P : L → Prop}

@[simp] lemma each_nil : Each P ([] : List (Cell L A)) := by
  rw [Each]
  exact trivial

@[simp] lemma each_cons {x : Cell L A} {xs : List (Cell L A)} :
    Each P (x :: xs) ↔ x.Each P ∧ Each P xs := by
  rw [Each]

@[simp] lemma Cell.each_leaf {x : L} : (Cell.leaf x : Cell L A).Each P ↔ P x := by
  rw [Cell.Each]

@[simp] lemma Cell.each_block {i : ℕ} {attrs : A} {content : List (Cell L A)} :
    (Cell.block i attrs content).Each P ↔ Outline.Each P content := by
  rw [Cell.Each]

@[simp] lemma each_append {xs ys : List (Cell L A)} :
    Each P (xs ++ ys) ↔ Each P xs ∧ Each P ys := by
  induction xs with
  | nil => simp
  | cons x xs ih => simp [ih, and_assoc]

lemma Each.take {xs : List (Cell L A)} (h : Each P xs) (i : ℕ) : Each P (xs.take i) := by
  rw [← List.take_append_drop i xs, each_append] at h
  exact h.1

lemma Each.drop {xs : List (Cell L A)} (h : Each P xs) (i : ℕ) : Each P (xs.drop i) := by
  rw [← List.take_append_drop i xs, each_append] at h
  exact h.2

variable {id : ℕ} {f : List (Cell L A) → List (Cell L A)}

mutual

lemma Cell.Each.find : ∀ {x : Cell L A}, x.Each P → ∀ c, x.find id = some c → Outline.Each P c
  | .leaf x, _, c, h => by
    rw [Cell.find] at h
    cases h
  | .block i attrs content, all, c, h => by
    rw [Cell.each_block] at all
    rw [Cell.find] at h
    split at h
    · obtain rfl := Option.some.inj h
      exact all
    · exact Each.find all c h

lemma Each.find : ∀ {xs : List (Cell L A)}, Each P xs → ∀ c, find id xs = some c → Each P c
  | [], _, c, h => by
    rw [find_nil] at h
    cases h
  | x :: xs, all, c, h => by
    rw [each_cons] at all
    rw [Outline.find, Option.or_eq_some_iff] at h
    rcases h with head | ⟨-, tail⟩
    · exact Cell.Each.find all.1 c head
    · exact Each.find all.2 c tail

end

mutual

lemma Cell.Each.edit : ∀ {x : Cell L A}, x.Each P →
    (∀ c, x.find id = some c → Outline.Each P (f c)) → ∀ y, x.edit id f = some y → y.Each P
  | .leaf x, _, _, y, h => by
    rw [Cell.edit] at h
    cases h
  | .block i attrs content, all, keeps, y, h => by
    rw [Cell.each_block] at all
    rw [Cell.find] at keeps
    rw [Cell.edit] at h
    by_cases here : i = id
    · rw [if_pos here] at h keeps
      obtain rfl := Option.some.inj h
      rw [Cell.each_block]
      exact keeps content rfl
    · rw [if_neg here] at h keeps
      obtain ⟨content', inside, rfl⟩ := Option.map_eq_some_iff.1 h
      rw [Cell.each_block]
      exact Each.edit all keeps content' inside

/-- An edit keeps what every leaf has, when it does so on the content that it changes. -/
lemma Each.edit : ∀ {xs : List (Cell L A)}, Each P xs →
    (∀ c, find id xs = some c → Each P (f c)) → ∀ ys, edit id f xs = some ys → Each P ys
  | [], _, _, ys, h => by
    rw [edit_nil] at h
    cases h
  | x :: xs, all, keeps, ys, h => by
    rw [each_cons] at all
    rw [Outline.find] at keeps
    rw [edit_cons, Option.or_eq_some_iff] at h
    rcases h with head | ⟨none, tail⟩
    · obtain ⟨y, changed, rfl⟩ := Option.map_eq_some_iff.1 head
      have keeps' : ∀ c, x.find id = some c → Each P (f c) := by
        intro c hc
        exact keeps c (by rw [hc, Option.some_or])
      exact each_cons.2 ⟨Cell.Each.edit all.1 keeps' y changed, all.2⟩
    · obtain ⟨ys, changed, rfl⟩ := Option.map_eq_some_iff.1 tail
      rw [Option.map_eq_none_iff, Cell.edit_eq_none] at none
      have keeps' : ∀ c, Outline.find id xs = some c → Each P (f c) := by
        intro c hc
        exact keeps c (by rw [none, Option.none_or, hc])
      exact each_cons.2 ⟨all.1, Each.edit all.2 keeps' ys changed⟩

end

end

/-! ## Identities -/

mutual

def Cell.ids : Cell L A → List ℕ
  | .leaf _ => []
  | .block i _ content => i :: ids content

/-- The identities of all blocks, at any depth. -/
def ids : List (Cell L A) → List ℕ
  | [] => []
  | x :: xs => x.ids ++ ids xs

end

section

variable {id : ℕ} {f : List (Cell L A) → List (Cell L A)}

@[simp] lemma ids_nil : ids ([] : List (Cell L A)) = [] := by
  rw [ids]

@[simp] lemma ids_cons (x : Cell L A) (xs : List (Cell L A)) :
    ids (x :: xs) = x.ids ++ ids xs := by
  rw [ids]

@[simp] lemma ids_append (xs ys : List (Cell L A)) : ids (xs ++ ys) = ids xs ++ ids ys := by
  induction xs with
  | nil => simp
  | cons x xs ih => simp [ih]

@[simp] lemma Cell.ids_leaf (x : L) : (Cell.leaf x : Cell L A).ids = [] := by
  rw [Cell.ids]

@[simp] lemma Cell.ids_block (i : ℕ) (attrs : A) (content : List (Cell L A)) :
    (Cell.block i attrs content).ids = i :: Outline.ids content := by
  rw [Cell.ids]

lemma ids_leaves (leaves : List L) : ids (leaves.map (Cell.leaf (A := A))) = [] := by
  induction leaves with
  | nil => simp
  | cons x leaves ih => simp [ih]

mutual

lemma Cell.find_eq_none : ∀ {x : Cell L A}, id ∉ x.ids → x.find id = none
  | .leaf x, _ => by rw [Cell.find]
  | .block i attrs content, h => by
    rw [Cell.ids_block, List.mem_cons, not_or] at h
    rw [Cell.find, if_neg fun same => h.1 same.symm]
    exact find_eq_none h.2

/-- Nothing is found of an identity that no block has. -/
lemma find_eq_none : ∀ {xs : List (Cell L A)}, id ∉ ids xs → find id xs = none
  | [], _ => find_nil id
  | x :: xs, h => by
    rw [ids_cons, List.mem_append, not_or] at h
    rw [find, Cell.find_eq_none h.1, find_eq_none h.2, Option.none_or]

end

lemma find_append (xs ys : List (Cell L A)) :
    find id (xs ++ ys) = (find id xs).or (find id ys) := by
  induction xs with
  | nil => rw [find_nil, Option.none_or, List.nil_append]
  | cons x xs ih => rw [List.cons_append, find, ih, find, Option.or_assoc]

lemma edit_append_of_notMem {xs : List (Cell L A)} (h : id ∉ ids xs) (ys : List (Cell L A)) :
    edit id f (xs ++ ys) = (edit id f ys).map (xs ++ ·) := by
  induction xs with
  | nil => simp
  | cons x xs ih =>
    rw [ids_cons, List.mem_append, not_or] at h
    have here : x.edit id f = none := (Cell.edit_eq_none x).2 (Cell.find_eq_none h.1)
    rw [List.cons_append, edit_cons, here, Option.map_none, Option.none_or, ih h.2,
      Option.map_map]
    rfl

/-- The block of an identity that no block before it has. -/
theorem find_block_of_notMem {front : List (Cell L A)} (h : id ∉ ids front) (attrs : A)
    (content back : List (Cell L A)) :
    find id (front ++ .block id attrs content :: back) = some content := by
  rw [find_append, find_eq_none h, Option.none_or, find_block, if_pos rfl, Option.some_or]

theorem edit_block_of_notMem {front : List (Cell L A)} (h : id ∉ ids front) (attrs : A)
    (content back : List (Cell L A)) :
    edit id f (front ++ .block id attrs content :: back) =
      some (front ++ .block id attrs (f content) :: back) := by
  rw [edit_append_of_notMem h, edit_cons, Cell.edit, if_pos rfl]
  rfl

end

end Outline

end Yrby
