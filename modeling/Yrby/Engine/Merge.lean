import Yrby.Engine.Edit
import Yrby.Framework.Parts

/-!
# The tree of merges (`lib.rs`)

`merge_unsent` merges the updates of a take in chunks of `MERGE_FAN_IN`, and then the results
again.  Every level of the tree is the one below it cut into chunks, so the update on top is made
of all updates, each once and in their order (`Reduces`), and where merging is an associative
operation on some content, the tree gives what one flat merge gives.

Where a chunk does not merge there is no update, and the take puts back what it took.  The other
fibers went on meanwhile, so it goes in front of what is in the list by then.
-/

namespace Yrby.Edit

open Wire Interleaving Transition Parts

variable (Y : Yrs)

/-! ## Levels -/

/-- What one chunk of a level merges to. -/
structure MergedFrom (merged : Bytes) (chunk : List Bytes) : Prop where
  ne_nil : chunk ≠ []
  length_le : chunk.length ≤ mergeFanIn
  merge : mergeChunk Y chunk = some merged

/-- A level of the tree over some updates. -/
inductive Level (updates : List Bytes) : List Bytes → Prop
  | leaves : Level updates updates
  | above {level next} (below : Level updates level) (more : 1 < level.length)
      (h : mergeChunks Y level = some next) : Level updates next

/-- A chunk of some level does not merge. -/
def ChunkFails (updates : List Bytes) : Prop :=
  ∃ level, Level Y updates level ∧ ∃ chunk ∈ chunks mergeFanIn level, mergeChunk Y chunk = none

variable {Y} {updates level next : List Bytes} {merged : Bytes}

lemma mergeFanIn_pos : 0 < mergeFanIn := by decide

/-- `merge_chunks`, chunk by chunk. -/
lemma mergeChunks_eq_mapM (updates : List Bytes) :
    mergeChunks Y updates = (chunks mergeFanIn updates).mapM (mergeChunk Y) := by
  induction updates using mergeChunks.induct with
  | case1 => rw [mergeChunks, chunks, List.mapM_nil]; rfl
  | case2 update updates ih =>
    rw [mergeChunks, chunks, List.mapM_cons, ih]
    rfl

lemma mergeChunks_eq_none_iff :
    mergeChunks Y level = none ↔ ∃ chunk ∈ chunks mergeFanIn level, mergeChunk Y chunk = none := by
  rw [mergeChunks_eq_mapM, mapM_eq_none_iff]

/-- A level is the one below it, cut into chunks. -/
lemma cut_mergeChunks (h : mergeChunks Y level = some next) : Cut (MergedFrom Y) next level := by
  rw [mergeChunks_eq_mapM] at h
  have cut := cut_of_mapM h
  rw [flatten_chunks mergeFanIn_pos] at cut
  refine cut.mono fun merged chunk hchunk => ?_
  exact ⟨ne_nil_of_mem_chunks mergeFanIn_pos hchunk.1, length_le_of_mem_chunks hchunk.1, hchunk.2⟩

lemma mergeLevels_singleton (b : Bytes) : mergeLevels Y [b] = some b := by
  rw [mergeLevels, dif_neg (by simp)]
  rfl

lemma mergeLevels_of_lt (more : 1 < level.length) :
    mergeLevels Y level = (mergeChunks Y level).bind (mergeLevels Y) := by
  rw [mergeLevels, dif_pos more]
  split
  next next h => rw [h, Option.bind_some]
  next h => rw [h, Option.bind_none]

/-- The singleton that `merge_unsent` returns at once is a tree without levels. -/
lemma mergeUnsent_eq_mergeLevels (hne : updates ≠ []) :
    mergeUnsent Y updates = mergeLevels Y updates := by
  match updates, hne with
  | [update], _ => rw [mergeUnsent, mergeLevels_singleton]
  | update :: update' :: updates, _ => rw [mergeUnsent, mergeLevels_of_lt (by simp)]; simp

/-- A chunk of one update merges, so a level with a chunk that fails is not the top. -/
lemma one_lt_length_of_mergeChunks (h : mergeChunks Y level = none) : 1 < level.length := by
  match level with
  | [] => simp [mergeChunks] at h
  | [b] => simp [mergeChunks, mergeChunk, mergeFanIn] at h
  | _ :: _ :: _ => simp

lemma reduces_mergeLevels (hne : level ≠ []) (h : mergeLevels Y level = some merged) :
    Reduces (MergedFrom Y) level merged := by
  induction level using mergeLevels.induct Y with
  | case1 level more next hnext ih =>
    rw [mergeLevels_of_lt more, hnext] at h
    exact .level (cut_mergeChunks hnext) (ih (mergeChunks_ne_nil hne hnext) h)
  | case2 level more hnone => rw [mergeLevels_of_lt more, hnone] at h; cases h
  | case3 level top =>
    obtain ⟨b, rfl⟩ := List.length_eq_one_iff.mp
      (Nat.le_antisymm (Nat.not_lt.mp top) (List.length_pos_of_ne_nil hne))
    rw [mergeLevels_singleton] at h
    obtain rfl := Option.some.inj h
    exact .done b

/-- Each level of the tree merges to what the tree does. -/
lemma Level.mergeLevels_eq (h : Level Y updates level) :
    mergeLevels Y updates = mergeLevels Y level := by
  induction h with
  | leaves => rfl
  | above below more hnext ih => rw [ih, mergeLevels_of_lt more, hnext, Option.bind_some]

lemma Level.trans (h : Level Y updates level) (h' : Level Y level next) : Level Y updates next := by
  induction h' with
  | leaves => exact h
  | above below more hnext ih => exact .above ih more hnext

lemma mergeLevels_eq_none_iff (hne : updates ≠ []) :
    mergeLevels Y updates = none ↔ ChunkFails Y updates := by
  constructor
  · intro h
    induction updates using mergeLevels.induct Y with
    | case1 level more next hnext ih =>
      rw [mergeLevels_of_lt more, hnext] at h
      obtain ⟨top, htop, fails⟩ := ih (mergeChunks_ne_nil hne hnext) h
      exact ⟨top, (Level.leaves.above more hnext).trans htop, fails⟩
    | case2 level more hnone => exact ⟨level, .leaves, mergeChunks_eq_none_iff.mp hnone⟩
    | case3 level top => rw [mergeLevels, dif_neg top] at h; cases h
  · rintro ⟨level, reached, fails⟩
    have hnone := mergeChunks_eq_none_iff.mpr fails
    rw [reached.mergeLevels_eq, mergeLevels_of_lt (one_lt_length_of_mergeChunks hnone), hnone,
      Option.bind_none]

/-! ## The take that fails -/

/-- The local writes to a document among some steps. -/
def pushed (doc : ℕ) (steps : List (ℕ × Action)) : List Bytes :=
  steps.filterMap fun s =>
    match s.2 with
    | .write doc' _ update => if doc' = doc then some update else none
    | _ => none

/-- The action may empty a list or put something back into it. -/
def Action.movesUnsent : Action → Bool
  | .take | .merged | .mergeFails | .keep | .putBack => true
  | _ => false

/-- The step is not one of an edit of the document that moves its list. -/
def OnlyPushes (doc : ℕ) (c : Config Shared Fiber) (s : ℕ × Action) : Prop :=
  s.2.movesUnsent → ∀ f ∈ (c.locals s.1).stack.head?, f.doc ≠ doc

lemma pushed_cons (doc : ℕ) (s : ℕ × Action) (steps : List (ℕ × Action)) :
    pushed doc (s :: steps) = pushed doc [s] ++ pushed doc steps :=
  List.filterMap_append (l := [s])

lemma frameStep_unsent {p : ℕ} {g g' : Shared} {doc : ℕ} {nested : Bool} {stage : Stage}
    {a : Action} {stage' : Option Stage} (ha : ¬ a.movesUnsent)
    (h : frameStep Y p g doc nested stage a = some (g', stage')) :
    (g'.docs doc).unsent = (g.docs doc).unsent := by
  unfold frameStep at h
  split at h <;> (try split at h) <;>
    simp only [Option.some.injEq, Prod.mk.injEq, reduceCtorEq] at h
  all_goals
    obtain ⟨rfl, -⟩ := h
    simp_all [ensure_docs, Action.movesUnsent]

/-- A step of the innermost edit of a fiber. -/
def innermost (Y : Yrs) (p : ℕ) (g : Shared) (l : Fiber) (a : Action) : Option (Shared × Fiber) :=
  match l.stack with
  | [] => none
  | ⟨doc, nested, stage⟩ :: rest =>
      (frameStep Y p g doc nested stage a).map fun r =>
        (r.1, { l with stack := framesOf doc nested r.2 ++ rest })

/-- The innermost edit is one of another document, or its step moves no list. -/
lemma innermost_unsent {doc p : ℕ} {a : Action} {c : Config Shared Fiber} {g' : Shared}
    {l' : Fiber} (h : OnlyPushes doc c (p, a))
    (hframe : innermost Y p c.shared (c.locals p) a = some (g', l')) :
    (g'.docs doc).unsent.map Batch.bytes = (c.shared.docs doc).unsent.map Batch.bytes := by
  unfold innermost at hframe
  split at hframe
  next => cases hframe
  next doc' nested stage rest hstack =>
    obtain ⟨⟨g'', stage'⟩, hmoved, heq⟩ := Option.map_eq_some_iff.1 hframe
    obtain ⟨rfl, rfl⟩ := Prod.mk.inj heq
    by_cases hdoc : doc' = doc
    · subst hdoc
      refine congrArg _ (frameStep_unsent (fun moves => ?_) hmoved)
      exact h moves _ (by rw [hstack]; rfl) rfl
    · rw [frameStep_docs_of_ne hmoved (Ne.symm hdoc)]

/-- Such a step changes the list only by what it pushes. -/
lemma act_unsent {doc : ℕ} {c c' : Config Shared Fiber} {s : ℕ × Action}
    (h : OnlyPushes doc c s) (hact : (system Y).act c s = some c') :
    (c'.shared.docs doc).unsent.map Batch.bytes =
      (c.shared.docs doc).unsent.map Batch.bytes ++ pushed doc [s] := by
  obtain ⟨p, a⟩ := s
  obtain ⟨g', l', hstep, rfl⟩ := System.act_eq_some.1 hact
  cases a with
  | write doc' txn update =>
    simp only [system, step, Option.ite_none_right_eq_some, Option.some.injEq, Prod.mk.injEq]
      at hstep
    obtain ⟨-, rfl, rfl⟩ := hstep
    by_cases hdoc : doc' = doc
    · subst hdoc
      simp [pushed, DocState.write, DocState.observe, isRemote_local]
    · simp [pushed, hdoc, Ne.symm hdoc]
  | applyUpdate doc' txn update =>
    simp only [system, step, Option.ite_none_right_eq_some, Option.some.injEq, Prod.mk.injEq]
      at hstep
    obtain ⟨-, rfl, rfl⟩ := hstep
    by_cases hdoc : doc' = doc
    · subst hdoc
      simp [pushed, DocState.applyUpdate, DocState.observe, isRemote_peer]
    · simp [pushed, Ne.symm hdoc]
  | start parent =>
    simp only [system, step, Option.ite_none_left_eq_some, Option.some.injEq, Prod.mk.injEq]
      at hstep
    obtain ⟨-, rfl, rfl⟩ := hstep
    simp [pushed]
  | edit doc' =>
    simp only [system, step, Option.ite_none_right_eq_some, Option.some.injEq, Prod.mk.injEq]
      at hstep
    obtain ⟨-, rfl, rfl⟩ := hstep
    simp [pushed]
  | _ => exact (innermost_unsent h hstep).trans (List.append_nil _).symm

/-- A run of such steps pushes what they write, in their order. -/
lemma run_unsent {doc : ℕ} {c c' : Config Shared Fiber} {steps : List (ℕ × Action)}
    (h : Along (system Y).act (OnlyPushes doc) c steps)
    (hrun : run (system Y).act c steps = some c') :
    (c'.shared.docs doc).unsent.map Batch.bytes =
      (c.shared.docs doc).unsent.map Batch.bytes ++ pushed doc steps := by
  induction steps generalizing c with
  | nil =>
    obtain rfl := Option.some.inj hrun
    exact (List.append_nil _).symm
  | cons s steps ih =>
    obtain ⟨m, hm, hrest⟩ := run_cons_eq_some.1 hrun
    rw [ih (h.2 m hm) hrest, act_unsent h.1 hm, List.append_assoc, ← pushed_cons]

/-- Steps of other fibers leave a fiber where it is. -/
lemma run_locals {p : ℕ} {c c' : Config Shared Fiber} {steps : List (ℕ × Action)}
    (hothers : ∀ s ∈ steps, s.1 ≠ p) (hrun : run (system Y).act c steps = some c') :
    c'.locals p = c.locals p := by
  induction steps generalizing c with
  | nil =>
    obtain rfl := Option.some.inj hrun
    rfl
  | cons s steps ih =>
    obtain ⟨q, a⟩ := s
    obtain ⟨m, hm, hrest⟩ := run_cons_eq_some.1 hrun
    obtain ⟨g, l, -, rfl⟩ := System.act_eq_some.1 hm
    rw [ih (fun s hs => hothers s (List.mem_cons_of_mem _ hs)) hrest]
    exact Function.update_of_ne (hothers _ List.mem_cons_self).symm ..

lemma act_take {p doc : ℕ} {nested : Bool} {rest : List Frame} {first : Batch}
    {others : List Batch} {c c' : Config Shared Fiber}
    (hstack : (c.locals p).stack = ⟨doc, nested, .taking⟩ :: rest)
    (hunsent : (c.shared.docs doc).unsent = first :: others)
    (hact : (system Y).act c (p, .take) = some c') :
    (c'.locals p).stack = ⟨doc, nested, .merging first others⟩ :: rest ∧
      (c'.shared.docs doc).unsent = [] := by
  obtain ⟨g, l, hstep, rfl⟩ := System.act_eq_some.1 hact
  simp only [system, step, hstack, frameStep, hunsent, Option.map_some, Option.some.injEq,
    Prod.mk.injEq] at hstep
  obtain ⟨rfl, rfl⟩ := hstep
  simp [framesOf]

/-- The merge fails, and the edit raises. -/
lemma act_merged_of_none {p doc : ℕ} {nested : Bool} {rest : List Frame} {first : Batch}
    {others : List Batch} {c : Config Shared Fiber}
    (hstack : (c.locals p).stack = ⟨doc, nested, .merging first others⟩ :: rest)
    (hnone : mergeUnsent Y ((first :: others).map Batch.bytes) = none) :
    ∃ c', (system Y).act c (p, .merged) = some c' ∧ (c'.locals p).stack = rest ∧
      (c'.shared.docs doc).unsent = (first :: others) ++ (c.shared.docs doc).unsent := by
  have hstep : (system Y).step p c.shared (c.locals p) .merged =
      some (c.shared.setDoc doc ((c.shared.docs doc).putBack (first :: others)),
        { c.locals p with stack := rest }) := by
    simp only [system, step, hstack, frameStep, hnone, Option.map_some]
    rfl
  exact ⟨_, System.act_eq_some.2 ⟨_, _, hstep, rfl⟩, by simp, by simp [DocState.putBack]⟩

/-! ## The merge of a take -/

/-- What `merge_unsent` and the take around it do with some updates. -/
structure MergesAsOne (Y : Yrs) (updates : List Bytes) : Prop where
  /-- There is no merge only where a chunk of a level has none. -/
  fails_iff : mergeUnsent Y updates = none ↔ ChunkFails Y updates
  /-- Every level is the one below it, cut into chunks: every update is used once, in order. -/
  reduces : ∀ merged, mergeUnsent Y updates = some merged → Reduces (MergedFrom Y) updates merged
  /-- Where merging is an associative operation on a content, the tree and the flat merge have
  the same. -/
  content : ∀ {M : Type} (op : M → M → M) [Std.Associative op] (content : Bytes → M),
    (∀ bs b, bs ≠ [] → Y.mergeUpdates bs = some b → gather op (bs.map content) = some (content b)) →
    ∀ merged, mergeUnsent Y updates = some merged →
      gather op (updates.map content) = some (content merged) ∧
        ∀ flat, Y.mergeUpdates updates = some flat → content merged = content flat
  /-- A take that fails leaves what it took in front of what is there by then. -/
  putBack : ∀ {p doc nested rest taken steps} {c c₁ c₂ : Config Shared Fiber},
    (c.locals p).stack = ⟨doc, nested, .taking⟩ :: rest → (c.shared.docs doc).unsent = taken →
    taken.map Batch.bytes = updates → (system Y).act c (p, .take) = some c₁ →
    (∀ s ∈ steps, s.1 ≠ p) → run (system Y).act c₁ steps = some c₂ → ChunkFails Y updates →
    ∃ c', (system Y).act c₂ (p, .merged) = some c' ∧ (c'.locals p).stack = rest ∧
      (c'.shared.docs doc).unsent = taken ++ (c₂.shared.docs doc).unsent ∧
      (Along (system Y).act (OnlyPushes doc) c₁ steps →
        (c₂.shared.docs doc).unsent.map Batch.bytes = pushed doc steps)

lemma gather_mergedFrom {M : Type} {op : M → M → M} {content : Bytes → M}
    (hmerge : ∀ bs b, bs ≠ [] → Y.mergeUpdates bs = some b →
      gather op (bs.map content) = some (content b)) (b : Bytes) (chunk : List Bytes)
    (h : MergedFrom Y b chunk) : gather op (chunk.map content) = some (content b) := by
  obtain ⟨hne, -, h⟩ := h
  unfold mergeChunk at h
  split at h
  next update =>
    obtain rfl := Option.some.inj h
    rfl
  next => exact hmerge _ _ hne h

/-- **The tree of merges is one merge**, or there is none and nothing is lost. -/
theorem mergeUnsent_mergesAsOne (Y : Yrs) {updates : List Bytes} (hne : updates ≠ []) :
    MergesAsOne Y updates := by
  have tree := mergeUnsent_eq_mergeLevels (Y := Y) hne
  have reduces : ∀ merged, mergeUnsent Y updates = some merged →
      Reduces (MergedFrom Y) updates merged := by
    intro merged h
    rw [tree] at h
    exact reduces_mergeLevels hne h
  have fails_iff : mergeUnsent Y updates = none ↔ ChunkFails Y updates := by
    rw [tree, mergeLevels_eq_none_iff hne]
  refine ⟨fails_iff, reduces, ?_, ?_⟩
  · intro M op _ content hmerge merged h
    have whole := gather_of_reduces (reduces merged h) (gather_mergedFrom hmerge)
    refine ⟨whole, fun flat hflat => ?_⟩
    rw [hmerge updates flat hne hflat] at whole
    exact (Option.some.inj whole).symm
  · intro p doc nested rest taken steps c c₁ c₂ hstack hunsent htaken htake hothers hrun hfails
    obtain ⟨first, others, rfl⟩ := List.exists_cons_of_ne_nil (l := taken) (by
      rintro rfl
      exact hne htaken.symm)
    obtain ⟨htook, hempty⟩ := act_take hstack hunsent htake
    rw [← run_locals hothers hrun] at htook
    obtain ⟨c', hact, hrest, hback⟩ :=
      act_merged_of_none htook (by rw [htaken, fails_iff]; exact hfails)
    refine ⟨c', hact, hrest, hback, fun pushes => ?_⟩
    rw [run_unsent pushes hrun, hempty, List.map_nil, List.nil_append]

section Examples

lemma foldl_union (f : Bytes → Set Piece) (S : Set Piece) (bs : List Bytes) :
    (bs.map f).foldl (· ∪ ·) S = S ∪ ⋃ b ∈ bs, f b := by
  induction bs generalizing S with
  | nil => simp
  | cons b bs ih => simp [ih, Set.iUnion_or, Set.iUnion_union_distrib, Set.union_assoc]

/-- The union of contents is such an operation. -/
lemma gather_union (hmerge : Y.MergeIsUnion) (bs : List Bytes) (b : Bytes) (hne : bs ≠ [])
    (h : Y.mergeUpdates bs = some b) :
    gather (· ∪ ·) (bs.map Y.contentOf) = some (Y.contentOf b) := by
  obtain ⟨first, others, rfl⟩ := List.exists_cons_of_ne_nil hne
  rw [List.map_cons, gather, foldl_union, hmerge _ _ h]
  simp [Set.iUnion_or, Set.iUnion_union_distrib]

/-- Two writes that cannot be decoded, with another one while they are merged: neither is lost,
and they stay in front. -/
theorem mergeUnsent_mergesAsOne_undecodable :
    (∀ merged, mergeUnsent (Reference.engine []) (List.replicate 17 oneWrite) = some merged →
      gather (· ∪ ·) ((List.replicate 17 oneWrite).map (Reference.engine []).contentOf) =
        some ((Reference.engine []).contentOf merged)) ∧
    ∃ c c₁ c₂ c',
      run (system (Reference.engine [])).act init
        [(0, .edit 0), (0, .write 0 .plain []), (0, .write 0 .plain []), (0, .leave)] = some c ∧
      (system (Reference.engine [])).act c (0, .take) = some c₁ ∧
      run (system (Reference.engine [])).act c₁
        [(1, .start 0), (1, .write 0 .handle oneWrite)] = some c₂ ∧
      (system (Reference.engine [])).act c₂ (0, .merged) = some c' ∧
      (c'.shared.docs 0).unsent.map Batch.bytes = [[], [], oneWrite] := by
  refine ⟨fun merged h => ?_, ?_⟩
  · have union := gather_union (Reference.mergeIsUnion [])
    exact ((mergeUnsent_mergesAsOne _ (by decide)).content _ _ union merged h).1
  · obtain ⟨c, c₁, c₂, hc, htake, hrun, hstack⟩ : ∃ c c₁ c₂,
        run (system (Reference.engine [])).act init
          [(0, .edit 0), (0, .write 0 .plain []), (0, .write 0 .plain []), (0, .leave)] = some c ∧
        (system (Reference.engine [])).act c (0, .take) = some c₁ ∧
        run (system (Reference.engine [])).act c₁
          [(1, .start 0), (1, .write 0 .handle oneWrite)] = some c₂ ∧
        (c.locals 0).stack = [⟨0, false, .taking⟩] := ⟨_, _, _, rfl, rfl, rfl, rfl⟩
    have htaken : (c.shared.docs 0).unsent.map Batch.bytes = [[], []] :=
      run_unsent (.of_forall (by simp [OnlyPushes, Action.movesUnsent])) hc
    have fails : ChunkFails (Reference.engine []) [[], []] :=
      ⟨_, .leaves, [[], []], by simp [chunks, mergeFanIn], rfl⟩
    obtain ⟨c', hmerged, -, hback, hsince⟩ :=
      (mergeUnsent_mergesAsOne (Reference.engine []) (List.cons_ne_nil [] [[]])).putBack
        hstack rfl htaken htake (by decide) hrun fails
    refine ⟨c, c₁, c₂, c', hc, htake, hrun, hmerged, ?_⟩
    rw [hback, List.map_append, htaken,
      hsince (.of_forall (by simp [OnlyPushes, Action.movesUnsent]))]
    rfl

end Examples

end Yrby.Edit
