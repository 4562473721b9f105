import Yrby.Engine.Reference
import Yrby.Framework.Custody
import Yrby.Framework.Interleaving

/-!
# Edits on a document (`doc.rb`, `lib.rs`, `shared.rs`)

Every transaction on a document that does not apply a peer's update leaves its update in a list,
`Unsent`.  `Doc#edit` runs a block and then takes everything in that list, merged into one
update.  A take moves the same bytes several times: out of the list, back into it when the merge
fails, back when the edit is nested in another one, back when an interrupt arrives.

Any number of threads and fibers run.  A step is one thing no other fiber can come between: the
commit of a transaction, setting the fiber storage up or restoring it, emptying the list, merging
what came out of it, putting it back.  A fiber has a stack of edits, the innermost first.  An
exception may arrive wherever interrupts are not masked.

Three lists in the state of a document are not in the source: `written` has the update of every
local transaction, `returned` and `lent` the updates that completed edits returned, `lent` those
of the nested ones.  A `Batch` remembers which of the local writes it was merged from.

`Moves` is the abstract account of a step: what it does to one document and to what its fiber
holds for that document.  The invariants are proved of `Moves` and carried over by `step_moves`.
-/

namespace Yrby.Edit

open Wire Interleaving Transition

/-! ## Transactions -/

/-- `shared::ORIGIN` -/
def ORIGIN : Bytes := "yrby".toUTF8.toList

/-- `shared::REMOTE` -/
def REMOTE : Bytes := "yrby-remote".toUTF8.toList

/-- `shared::is_remote` -/
def isRemote (origin : Option Bytes) : Bool := origin.any fun o => REMOTE.isPrefixOf o

/-- The transactions of this process: a handle's, or one without an origin. -/
inductive LocalTxn
  | handle
  | plain

def LocalTxn.origin : LocalTxn → Option Bytes
  | .handle => some ORIGIN
  | .plain => none

/-- The transactions that apply a peer's update: `apply_update` and `handle_sync_message`, and
`apply_update_changes` under a key of its own. -/
inductive PeerTxn
  | apply
  | changes (key : Bytes)

def PeerTxn.origin : PeerTxn → Option Bytes
  | .apply => some REMOTE
  | .changes key => some (REMOTE ++ key)

lemma isRemote_local (t : LocalTxn) : isRemote t.origin = false := by
  cases t <;> decide +kernel

lemma isRemote_peer (t : PeerTxn) : isRemote t.origin = true := by
  cases t with
  | apply => exact List.isPrefixOf_iff_prefix.2 (List.prefix_refl _)
  | changes key => exact List.isPrefixOf_iff_prefix.2 (List.prefix_append _ _)

/-! ## Merging -/

variable (Y : Yrs)

/-- `MERGE_FAN_IN` -/
def mergeFanIn : ℕ := 16

/-- One chunk of `merge_chunks`. -/
def mergeChunk : List Bytes → Option Bytes
  | [update] => some update
  | chunk => Y.mergeUpdates chunk

/-- `merge_chunks` -/
def mergeChunks : List Bytes → Option (List Bytes)
  | [] => some []
  | update :: updates => do
      let merged ← mergeChunk Y ((update :: updates).take mergeFanIn)
      let rest ← mergeChunks ((update :: updates).drop mergeFanIn)
      some (merged :: rest)
  termination_by updates => updates.length
  decreasing_by
    simp only [mergeFanIn, List.length_drop, List.length_cons]
    omega

variable {Y}

lemma mergeChunks_cons {update : Bytes} {updates level : List Bytes}
    (h : mergeChunks Y (update :: updates) = some level) :
    ∃ merged rest, level = merged :: rest ∧
      mergeChunk Y ((update :: updates).take mergeFanIn) = some merged ∧
      mergeChunks Y ((update :: updates).drop mergeFanIn) = some rest := by
  rw [mergeChunks] at h
  obtain ⟨merged, hm, h⟩ := Option.bind_eq_some_iff.1 h
  obtain ⟨rest, hr, h⟩ := Option.bind_eq_some_iff.1 h
  exact ⟨merged, rest, (Option.some.inj h).symm, hm, hr⟩

/-- A level has one update for each started chunk of the one before. -/
lemma length_mergeChunks {updates level : List Bytes} (h : mergeChunks Y updates = some level) :
    mergeFanIn * level.length < updates.length + mergeFanIn := by
  induction updates using mergeChunks.induct generalizing level with
  | case1 =>
      obtain rfl : [] = level := by simpa [mergeChunks] using h
      simp [mergeFanIn]
  | case2 update updates ih =>
      obtain ⟨merged, rest, rfl, -, hrest⟩ := mergeChunks_cons h
      have := ih hrest
      simp only [List.length_drop, List.length_cons, mergeFanIn] at this ⊢
      omega

lemma mergeChunks_ne_nil {updates level : List Bytes} (hne : updates ≠ [])
    (h : mergeChunks Y updates = some level) : level ≠ [] := by
  cases updates with
  | nil => exact absurd rfl hne
  | cons update updates =>
      obtain ⟨merged, rest, rfl, -, -⟩ := mergeChunks_cons h
      exact List.cons_ne_nil _ _

variable (Y)

/-- The loop of `merge_unsent`. -/
def mergeLevels (level : List Bytes) : Option Bytes :=
  if _ : 1 < level.length then
    match _ : mergeChunks Y level with
    | some next => mergeLevels next
    | none => none
  else some (level.getLast?.getD [])
  termination_by level.length
  decreasing_by
    have := length_mergeChunks ‹mergeChunks Y level = some next›
    simp only [mergeFanIn] at this
    omega

/-- `merge_unsent` -/
def mergeUnsent : List Bytes → Option Bytes
  | [update] => some update
  | updates => (mergeChunks Y updates).bind (mergeLevels Y)

section Merging

variable {Y} (hmerge : Y.MergeIsUnion)
include hmerge

lemma contentOf_mergeChunk {chunk : List Bytes} {merged : Bytes}
    (h : mergeChunk Y chunk = some merged) : Y.contentOf merged = ⋃ b ∈ chunk, Y.contentOf b := by
  unfold mergeChunk at h
  split at h
  · obtain rfl := Option.some.inj h
    simp
  · exact hmerge _ _ h

lemma contentOf_mergeChunks {updates level : List Bytes} (h : mergeChunks Y updates = some level) :
    ⋃ b ∈ level, Y.contentOf b = ⋃ b ∈ updates, Y.contentOf b := by
  induction updates using mergeChunks.induct generalizing level with
  | case1 =>
      obtain rfl : [] = level := by simpa [mergeChunks] using h
      rfl
  | case2 update updates ih =>
      obtain ⟨merged, rest, rfl, hm, hrest⟩ := mergeChunks_cons h
      have hsplit := List.take_append_drop mergeFanIn (update :: updates)
      rw [← hsplit]
      simp only [List.mem_cons, List.mem_append, Set.iUnion_or, Set.iUnion_union_distrib,
        Set.iUnion_iUnion_eq_left, contentOf_mergeChunk hmerge hm, ih hrest]

lemma contentOf_mergeLevels {level : List Bytes} {merged : Bytes} (hne : level ≠ [])
    (h : mergeLevels Y level = some merged) :
    Y.contentOf merged = ⋃ b ∈ level, Y.contentOf b := by
  induction level using mergeLevels.induct Y with
  | case1 level hlen next hm ih =>
      rw [mergeLevels, dif_pos hlen] at h
      split at h
      · rename_i next' hm'
        obtain rfl : next = next' := Option.some.inj (hm.symm.trans hm')
        rw [ih (mergeChunks_ne_nil hne hm) h, contentOf_mergeChunks hmerge hm]
      · rename_i hnone
        simp [hm] at hnone
  | case2 level hlen hm =>
      rw [mergeLevels, dif_pos hlen] at h
      split at h
      · rename_i next hsome
        simp [hm] at hsome
      · exact absurd h (by simp)
  | case3 level hlen =>
      rw [mergeLevels, dif_neg hlen] at h
      obtain ⟨only, rfl⟩ : ∃ b, level = [b] := by
        match level, hne, hlen with
        | [b], _, _ => exact ⟨b, rfl⟩
        | _ :: _ :: _, _, hlen => simp at hlen
      obtain rfl : only = merged := by simpa using h
      simp

/-- A merge that succeeds has the content of the list it was given. -/
lemma contentOf_mergeUnsent {updates : List Bytes} {merged : Bytes} (hne : updates ≠ [])
    (h : mergeUnsent Y updates = some merged) :
    Y.contentOf merged = ⋃ b ∈ updates, Y.contentOf b := by
  unfold mergeUnsent at h
  split at h
  · obtain rfl := Option.some.inj h
    simp
  · obtain ⟨level, hlevel, h⟩ := Option.bind_eq_some_iff.1 h
    rw [← contentOf_mergeChunks hmerge hlevel]
    exact contentOf_mergeLevels hmerge (mergeChunks_ne_nil hne hlevel) h

end Merging

/-! ## Documents, fibers and edits -/

/-- An update in `Unsent`, or one that was taken out of it.  `writes` is not in the source: the
local writes that it was merged from. -/
structure Batch where
  bytes : Bytes
  writes : List ℕ

/-- A document, as far as edits see it. -/
structure DocState where
  unsent : List Batch := []
  written : List Bytes := []
  returned : List Batch := []
  lent : List Batch := []

structure Shared where
  docs : ℕ → DocState := fun _ => {}
  /-- The `running` arrays, by identity: the document an edit runs on, or nothing once it has
  ended. -/
  running : ℕ → Option ℕ := fun _ => none
  runs : ℕ := 0
  /-- `Fiber[:yrby_editing]` -/
  storage : ℕ → List ℕ := fun _ => []

/-- How far an edit has come. -/
inductive Stage
  /-- In the block. -/
  | block (outer : List ℕ) (run : ℕ)
  /-- About to take, with interrupts not masked yet. -/
  | taking
  /-- In the native take: the list, which was not empty, is emptied, and the merge runs. -/
  | merging (first : Batch) (others : List Batch)
  /-- The native take has returned. -/
  | took (taken : Option Batch)
  /-- At the end of the masked block. -/
  | unmasking (taken : Option Batch)
  /-- In the `rescue`, about to put the update back. -/
  | rescuing (taken : Batch)

/-- A call of `edit` that has not returned. -/
structure Frame where
  doc : ℕ
  nested : Bool
  stage : Stage

structure Fiber where
  started : Bool := false
  stack : List Frame := []

/-- How much of the `ensure` ran before an exception left the edit. -/
inductive Ensured
  | nothing
  | cleared
  | restored

inductive Action
  | write (doc : ℕ) (txn : LocalTxn) (update : Bytes)
  | applyUpdate (doc : ℕ) (txn : PeerTxn) (update : Bytes)
  /-- The fiber or thread is created by another one, whose storage it inherits. -/
  | start (parent : ℕ)
  | edit (doc : ℕ)
  /-- The block returns. -/
  | leave
  /-- An exception, the block's or an interrupt, leaves the edit before its take. -/
  | raise (ensured : Ensured)
  | take
  | merged
  /-- The merge fails, or an interrupt comes back with it. -/
  | mergeFails
  | keep
  /-- An interrupt that was masked is raised as the masked block ends. -/
  | interrupt
  | putBack
  | return

/-- The observer of `RbDoc::new`. -/
def DocState.observe (d : DocState) (origin : Option Bytes) (update : Batch) : DocState :=
  if isRemote origin then d else { d with unsent := d.unsent ++ [update] }

/-- A local transaction commits. -/
def DocState.write (d : DocState) (txn : LocalTxn) (update : Bytes) : DocState :=
  let d' := d.observe txn.origin ⟨update, [d.written.length]⟩
  { d' with written := d.written ++ [update] }

/-- A transaction that applies a peer's update commits. -/
def DocState.applyUpdate (d : DocState) (txn : PeerTxn) (update : Bytes) : DocState :=
  d.observe txn.origin ⟨update, []⟩

/-- `keep_unsent`, and what `take_unsent` does when its merge fails -/
def DocState.putBack (d : DocState) (taken : List Batch) : DocState :=
  { d with unsent := taken ++ d.unsent }

def Shared.setDoc (g : Shared) (doc : ℕ) (d : DocState) : Shared :=
  { g with docs := Function.update g.docs doc d }

/-- The edits running in this fiber: `(Fiber[:yrby_editing] || []).reject(&:empty?)`. -/
def Shared.outer (g : Shared) (p : ℕ) : List ℕ :=
  (g.storage p).filter fun run => (g.running run).isSome

/-- The `ensure` of `edit`, as far as it ran. -/
def Shared.ensure (g : Shared) (p : ℕ) (outer : List ℕ) (run : ℕ) : Ensured → Shared
  | .nothing => g
  | .cleared => { g with running := Function.update g.running run none }
  | .restored =>
      { g with running := Function.update g.running run none,
               storage := Function.update g.storage p outer }

/-- The fiber runs code of the application. -/
def Fiber.inBlock (l : Fiber) : Bool :=
  l.started && match l.stack with
    | [] | ⟨_, _, .block _ _⟩ :: _ => true
    | _ => false

/-- One step of the innermost edit of fiber `p`. -/
def frameStep (p : ℕ) (g : Shared) (doc : ℕ) (nested : Bool) :
    Stage → Action → Option (Shared × Option Stage)
  | .block outer run, .leave => some (g.ensure p outer run .restored, some .taking)
  | .block outer run, .raise ensured => some (g.ensure p outer run ensured, none)
  | .taking, .raise _ => some (g, none)
  | .taking, .take =>
      match (g.docs doc).unsent with
      | [] => some (g, some (.took none))
      | first :: others =>
          some (g.setDoc doc { g.docs doc with unsent := [] }, some (.merging first others))
  | .merging first others, .merged =>
      match mergeUnsent Y ((first :: others).map Batch.bytes) with
      | some bytes =>
          some (g, some (.took (some ⟨bytes, (first :: others).flatMap Batch.writes⟩)))
      | none => some (g.setDoc doc ((g.docs doc).putBack (first :: others)), none)
  | .merging first others, .mergeFails =>
      some (g.setDoc doc ((g.docs doc).putBack (first :: others)), none)
  | .took (some taken), .keep =>
      if nested then
        some (g.setDoc doc ((g.docs doc).putBack [taken]), some (.unmasking (some taken)))
      else some (g, some (.unmasking (some taken)))
  | .took none, .keep => some (g, some (.unmasking none))
  | .unmasking (some taken), .interrupt =>
      if nested then some (g, none) else some (g, some (.rescuing taken))
  | .unmasking none, .interrupt => some (g, none)
  | .rescuing taken, .putBack => some (g.setDoc doc ((g.docs doc).putBack [taken]), none)
  | .unmasking (some taken), .return =>
      let d := g.docs doc
      if nested then some (g.setDoc doc { d with lent := d.lent ++ [taken] }, none)
      else some (g.setDoc doc { d with returned := d.returned ++ [taken] }, none)
  | .unmasking none, .return => some (g, none)
  | _, _ => none

/-- The frame of an edit, unless the step ended it. -/
def framesOf (doc : ℕ) (nested : Bool) : Option Stage → List Frame
  | some stage => [⟨doc, nested, stage⟩]
  | none => []

/-- One step of fiber `p`. -/
def step (p : ℕ) (g : Shared) (l : Fiber) : Action → Option (Shared × Fiber)
  | .write doc txn update =>
      if l.inBlock then some (g.setDoc doc ((g.docs doc).write txn update), l) else none
  | .applyUpdate doc txn update =>
      if l.inBlock then some (g.setDoc doc ((g.docs doc).applyUpdate txn update), l) else none
  | .start parent =>
      if l.started then none
      else some ({ g with storage := Function.update g.storage p (g.storage parent) },
        { l with started := true })
  | .edit doc =>
      if l.inBlock then
        let outer := g.outer p
        let nested := outer.any fun run => g.running run = some doc
        some ({ g with running := Function.update g.running g.runs (some doc),
                       runs := g.runs + 1,
                       storage := Function.update g.storage p (outer ++ [g.runs]) },
          { l with stack := ⟨doc, nested, .block outer g.runs⟩ :: l.stack })
      else none
  | a =>
      match l.stack with
      | [] => none
      | ⟨doc, nested, stage⟩ :: rest =>
          (frameStep Y p g doc nested stage a).map fun r =>
            (r.1, { l with stack := framesOf doc nested r.2 ++ rest })

/-- All fibers and threads of a process. -/
def system : System Shared Fiber Action := ⟨step Y⟩

/-- One fiber runs, and no document has been written to. -/
def init : Config Shared Fiber := ⟨{}, fun p => { started := p = 0 }⟩

/-! ## What a step does to one document -/

/-- The batches an edit in this stage remembers. -/
def Stage.batches : Stage → List Batch
  | .merging first others => first :: others
  | .took taken | .unmasking taken => taken.toList
  | .rescuing taken => [taken]
  | .block _ _ | .taking => []

/-- The batches an edit in this stage has taken out of the document.  A nested edit remembers
its batch after it has put it back. -/
def Frame.held (f : Frame) : List Batch :=
  match f.nested, f.stage with
  | true, .unmasking _ => []
  | _, stage => stage.batches

/-- What the edits of a fiber remember of the batches of a document. -/
def remembered (doc : ℕ) (stack : List Frame) : List Batch :=
  stack.flatMap fun f => if f.doc = doc then f.stage.batches else []

/-- What the edits of a fiber have taken out of a document. -/
def takes (doc : ℕ) (stack : List Frame) : List Batch :=
  stack.flatMap fun f => if f.doc = doc then f.held else []

/-- What one step can do to a document, to what its edit has taken out of it and to what that
edit remembers. -/
inductive Moves : DocState → List Batch → List Batch → DocState → List Batch → List Batch → Prop
  | quiet {d taken memo memo'} (hmemo : memo' ⊆ memo) : Moves d taken memo d taken memo'
  | write {d taken memo} (txn : LocalTxn) (update : Bytes) :
      Moves d taken memo (d.write txn update) taken memo
  | take {d} : Moves d [] [] { d with unsent := [] } d.unsent d.unsent
  | merge {d taken bytes} (hne : taken ≠ [])
      (hbytes : mergeUnsent Y (taken.map Batch.bytes) = some bytes) :
      Moves d taken taken d [⟨bytes, taken.flatMap Batch.writes⟩]
        [⟨bytes, taken.flatMap Batch.writes⟩]
  | putBack {d taken memo} (hmemo : memo ⊆ taken) : Moves d taken taken (d.putBack taken) [] memo
  | returned {d taken} :
      Moves d [taken] [taken] { d with returned := d.returned ++ [taken] } [] []
  | lent {d taken} : Moves d [] [taken] { d with lent := d.lent ++ [taken] } [] []

@[simp] lemma setDoc_docs_self (g : Shared) (doc : ℕ) (d : DocState) :
    (g.setDoc doc d).docs doc = d := Function.update_self ..

@[simp] lemma setDoc_docs_of_ne (g : Shared) {doc e : ℕ} (d : DocState) (h : e ≠ doc) :
    (g.setDoc doc d).docs e = g.docs e := Function.update_of_ne h ..

variable {Y} {p : ℕ} {g g' : Shared} {l l' : Fiber} {doc : ℕ} {nested : Bool}

lemma ensure_docs (g : Shared) (p : ℕ) (outer : List ℕ) (run : ℕ) (ensured : Ensured) :
    (g.ensure p outer run ensured).docs = g.docs := by
  cases ensured <;> rfl

lemma frameStep_docs_of_ne {stage : Stage} {a : Action} {stage' : Option Stage} {e : ℕ}
    (h : frameStep Y p g doc nested stage a = some (g', stage')) (he : e ≠ doc) :
    g'.docs e = g.docs e := by
  unfold frameStep at h
  split at h <;> (try split at h) <;>
    simp only [Option.some.injEq, Prod.mk.injEq, reduceCtorEq] at h
  all_goals
    obtain ⟨rfl, -⟩ := h
    simp [he, ensure_docs]

/-- The step of an edit is a move of its document. -/
lemma frameStep_moves {stage : Stage} {a : Action} {stage' : Option Stage}
    (h : frameStep Y p g doc nested stage a = some (g', stage')) :
    Moves Y (g.docs doc) (Frame.held ⟨doc, nested, stage⟩) stage.batches (g'.docs doc)
      ((framesOf doc nested stage').flatMap Frame.held)
      ((framesOf doc nested stage').flatMap fun f => f.stage.batches) := by
  -- a stage that has taken nothing, before and after
  have idle : ∀ {s : Stage} {g' : Shared} {stage' : Option Stage}, g'.docs doc = g.docs doc →
      Frame.held ⟨doc, nested, s⟩ = [] → (framesOf doc nested stage').flatMap Frame.held = [] →
      (framesOf doc nested stage').flatMap (fun f => f.stage.batches) ⊆ s.batches →
      Moves Y (g.docs doc) (Frame.held ⟨doc, nested, s⟩) s.batches (g'.docs doc)
        ((framesOf doc nested stage').flatMap Frame.held)
        ((framesOf doc nested stage').flatMap fun f => f.stage.batches) := by
    intro s g' stage' hdocs hheld hheld' hmemo
    rw [hdocs, hheld, hheld']
    exact .quiet hmemo
  unfold frameStep at h
  split at h
  case h_1 outer run =>
    obtain ⟨rfl, rfl⟩ := Prod.mk.inj (Option.some.inj h)
    refine idle (by rw [ensure_docs]) ?_ ?_ ?_ <;> simp [framesOf, Frame.held, Stage.batches]
  case h_2 outer run ensured =>
    obtain ⟨rfl, rfl⟩ := Prod.mk.inj (Option.some.inj h)
    refine idle (by rw [ensure_docs]) ?_ ?_ ?_ <;> simp [framesOf, Frame.held, Stage.batches]
  case h_3 =>
    obtain ⟨rfl, rfl⟩ := Prod.mk.inj (Option.some.inj h)
    refine idle rfl ?_ ?_ ?_ <;> simp [framesOf, Frame.held, Stage.batches]
  case h_4 =>
    split at h
    · obtain ⟨rfl, rfl⟩ := Prod.mk.inj (Option.some.inj h)
      refine idle rfl ?_ ?_ ?_ <;> simp [framesOf, Frame.held, Stage.batches]
    · rename_i first others hunsent
      obtain ⟨rfl, rfl⟩ := Prod.mk.inj (Option.some.inj h)
      have hmove := Moves.take (Y := Y) (d := g.docs doc)
      simpa [framesOf, Frame.held, Stage.batches, hunsent] using hmove
  case h_5 first others =>
    split at h
    · rename_i bytes hbytes
      obtain ⟨rfl, rfl⟩ := Prod.mk.inj (Option.some.inj h)
      have hmove := Moves.merge (d := g.docs doc) (List.cons_ne_nil first others) hbytes
      simpa [framesOf, Frame.held, Stage.batches] using hmove
    · obtain ⟨rfl, rfl⟩ := Prod.mk.inj (Option.some.inj h)
      have hmove : Moves Y (g.docs doc) (first :: others) _ _ _ _ := .putBack (List.nil_subset _)
      simpa [framesOf, Frame.held, Stage.batches] using hmove
  case h_6 first others =>
    obtain ⟨rfl, rfl⟩ := Prod.mk.inj (Option.some.inj h)
    have hmove : Moves Y (g.docs doc) (first :: others) _ _ _ _ := .putBack (List.nil_subset _)
    simpa [framesOf, Frame.held, Stage.batches] using hmove
  case h_7 taken =>
    cases nested with
    | true =>
        obtain ⟨rfl, rfl⟩ := Prod.mk.inj (Option.some.inj h)
        have hmove := Moves.putBack (Y := Y) (d := g.docs doc) (List.Subset.refl [taken])
        simpa [framesOf, Frame.held, Stage.batches] using hmove
    | false =>
        obtain ⟨rfl, rfl⟩ := Prod.mk.inj (Option.some.inj h)
        simpa [framesOf, Frame.held, Stage.batches] using Moves.quiet (List.Subset.refl _)
  case h_8 =>
    obtain ⟨rfl, rfl⟩ := Prod.mk.inj (Option.some.inj h)
    refine idle rfl ?_ ?_ ?_ <;> cases nested <;> simp [framesOf, Frame.held, Stage.batches]
  case h_9 taken =>
    cases nested with
    | true =>
        obtain ⟨rfl, rfl⟩ := Prod.mk.inj (Option.some.inj h)
        refine idle rfl ?_ ?_ ?_ <;> simp [framesOf, Frame.held]
    | false =>
        obtain ⟨rfl, rfl⟩ := Prod.mk.inj (Option.some.inj h)
        simpa [framesOf, Frame.held, Stage.batches] using Moves.quiet (List.Subset.refl _)
  case h_10 =>
    obtain ⟨rfl, rfl⟩ := Prod.mk.inj (Option.some.inj h)
    refine idle rfl ?_ ?_ ?_ <;> cases nested <;> simp [framesOf, Frame.held, Stage.batches]
  case h_11 taken =>
    obtain ⟨rfl, rfl⟩ := Prod.mk.inj (Option.some.inj h)
    have hmove := Moves.putBack (Y := Y) (d := g.docs doc) (List.nil_subset [taken])
    cases nested <;> simpa [framesOf, Frame.held, Stage.batches] using hmove
  case h_12 taken =>
    cases nested with
    | true =>
        obtain ⟨rfl, rfl⟩ := Prod.mk.inj (Option.some.inj h)
        simpa [framesOf, Frame.held, Stage.batches] using Moves.lent
    | false =>
        obtain ⟨rfl, rfl⟩ := Prod.mk.inj (Option.some.inj h)
        simpa [framesOf, Frame.held, Stage.batches] using Moves.returned
  case h_13 =>
    obtain ⟨rfl, rfl⟩ := Prod.mk.inj (Option.some.inj h)
    refine idle rfl ?_ ?_ ?_ <;> cases nested <;> simp [framesOf, Frame.held, Stage.batches]
  case h_14 => exact absurd h (by simp)

/-- A step of a fiber is a move of one document; it touches no other, and leaves alone what the
rest of the fiber's stack has taken. -/
structure StepMoves (Y : Yrs) (g : Shared) (stack : List Frame) (g' : Shared)
    (stack' : List Frame) (doc : ℕ) : Prop where
  others : ∀ e, e ≠ doc → g'.docs e = g.docs e ∧ takes e stack' = takes e stack ∧
    remembered e stack' = remembered e stack
  move : ∃ taken memo taken' memo' rest restMemo,
    takes doc stack = taken ++ rest ∧ remembered doc stack = memo ++ restMemo ∧
      takes doc stack' = taken' ++ rest ∧ remembered doc stack' = memo' ++ restMemo ∧
      Moves Y (g.docs doc) taken memo (g'.docs doc) taken' memo'

/-- A step that is not an edit's own leaves what the fiber has taken as it is. -/
lemma StepMoves.outside {stack stack' : List Frame} (doc : ℕ) {d : DocState}
    (htakes : ∀ e, takes e stack' = takes e stack)
    (hmemo : ∀ e, remembered e stack' = remembered e stack)
    (hdocs : g'.docs = Function.update g.docs doc d)
    (hmove : Moves Y (g.docs doc) [] [] d [] []) : StepMoves Y g stack g' stack' doc := by
  refine ⟨fun e he => ⟨?_, htakes e, hmemo e⟩, ?_⟩
  · rw [hdocs, Function.update_of_ne he]
  · refine ⟨[], [], [], [], _, _, rfl, rfl, htakes doc, hmemo doc, ?_⟩
    rw [hdocs, Function.update_self]
    exact hmove

/-- A step of the innermost edit. -/
lemma StepMoves.frame {stage : Stage} {a : Action} {stage' : Option Stage} (rest : List Frame)
    (h : frameStep Y p g doc nested stage a = some (g', stage')) :
    StepMoves Y g (⟨doc, nested, stage⟩ :: rest) g' (framesOf doc nested stage' ++ rest) doc := by
  have hdoc : ∀ f ∈ framesOf doc nested stage', f.doc = doc := by
    cases stage' <;> simp [framesOf]
  have hself : ∀ held : Frame → List Batch, ((framesOf doc nested stage').flatMap fun f =>
      if f.doc = doc then held f else []) = (framesOf doc nested stage').flatMap held :=
    fun held => List.flatMap_congr fun f hf => if_pos (hdoc f hf)
  have hother : ∀ (held : Frame → List Batch) (e : ℕ), e ≠ doc →
      ((framesOf doc nested stage').flatMap fun f => if f.doc = e then held f else []) = [] := by
    intro held e he
    refine List.flatMap_eq_nil_iff.2 fun f hf => if_neg ?_
    rw [hdoc f hf]
    exact Ne.symm he
  refine ⟨fun e he => ⟨frameStep_docs_of_ne h he, ?_, ?_⟩, ?_⟩
  · simp only [takes, List.flatMap_append, hother _ e he, List.flatMap_cons,
      if_neg (Ne.symm he)]
  · simp only [remembered, List.flatMap_append, hother _ e he, List.flatMap_cons,
      if_neg (Ne.symm he)]
  · refine ⟨_, _, _, _, takes doc rest, remembered doc rest, ?_, ?_, ?_, ?_, frameStep_moves h⟩
    · simp only [takes, List.flatMap_cons, if_true]
    · simp only [remembered, List.flatMap_cons, if_true]
    · simp only [takes, List.flatMap_append, hself]
    · simp only [remembered, List.flatMap_append, hself]

/-- Every step of a fiber is a move of one document. -/
theorem step_moves {a : Action} (h : step Y p g l a = some (g', l')) :
    ∃ doc, StepMoves Y g l.stack g' l'.stack doc := by
  have frame : ∀ {a : Action}, (match l.stack with
      | [] => none
      | ⟨doc, nested, stage⟩ :: rest =>
          (frameStep Y p g doc nested stage a).map fun r =>
            (r.1, { l with stack := framesOf doc nested r.2 ++ rest })) = some (g', l') →
      ∃ doc, StepMoves Y g l.stack g' l'.stack doc := by
    intro a h
    split at h
    · exact absurd h (by simp)
    · rename_i doc nested stage rest hst
      obtain ⟨⟨g'', stage'⟩, hstep, heq⟩ := Option.map_eq_some_iff.1 h
      obtain ⟨rfl, rfl⟩ := Prod.mk.inj heq
      exact ⟨doc, hst ▸ StepMoves.frame rest hstep⟩
  have stay : ∀ e, g.docs = Function.update g.docs e (g.docs e) := fun e => by simp
  cases a with
  | write doc txn update =>
      simp only [step] at h
      split at h
      · obtain ⟨rfl, rfl⟩ := Prod.mk.inj (Option.some.inj h)
        exact ⟨doc, .outside doc (fun _ => rfl) (fun _ => rfl) rfl (.write txn update)⟩
      · exact absurd h (by simp)
  | applyUpdate doc txn update =>
      simp only [step] at h
      split at h
      · obtain ⟨rfl, rfl⟩ := Prod.mk.inj (Option.some.inj h)
        -- the observer skips a peer's update
        have hskip : (g.docs doc).applyUpdate txn update = g.docs doc := by
          simp [DocState.applyUpdate, DocState.observe, isRemote_peer]
        refine ⟨doc, .outside doc (fun _ => rfl) (fun _ => rfl) rfl ?_⟩
        rw [hskip]
        exact .quiet (List.Subset.refl _)
      · exact absurd h (by simp)
  | start parent =>
      simp only [step] at h
      split at h
      · exact absurd h (by simp)
      · obtain ⟨rfl, rfl⟩ := Prod.mk.inj (Option.some.inj h)
        exact ⟨0, .outside 0 (fun _ => rfl) (fun _ => rfl) (stay 0) (.quiet (List.Subset.refl _))⟩
  | edit doc =>
      simp only [step] at h
      split at h
      · obtain ⟨rfl, rfl⟩ := Prod.mk.inj (Option.some.inj h)
        refine ⟨doc, .outside doc (fun e => ?_) (fun e => ?_) (stay doc)
          (.quiet (List.Subset.refl _))⟩
        · simp [takes, Frame.held, Stage.batches]
        · simp [remembered, Stage.batches]
      · exact absurd h (by simp)
  | _ => exact frame h

/-! ## Where the writes are -/

/-- Where a local write can be: in `Unsent`, in a take of a fiber, or in an update that an edit
which was not nested returned. -/
inductive Place
  | unsent
  | taken (fiber : ℕ)
  | returned

/-- The local writes in a place, given what every fiber has taken. -/
def placed (d : DocState) (taken : ℕ → List Batch) : Place → List ℕ
  | .unsent => d.unsent.flatMap Batch.writes
  | .taken p => (taken p).flatMap Batch.writes
  | .returned => d.returned.flatMap Batch.writes

/-- The local writes of a document that are in a place. -/
abbrev writesAt (doc : ℕ) (c : Config Shared Fiber) : Place → List ℕ :=
  placed (c.shared.docs doc) fun p => takes doc (c.locals p).stack

variable (Y)

/-- The batch is the merge of the local writes it remembers, and of nothing else. -/
structure Made (written : List Bytes) (b : Batch) : Prop where
  bound : ∀ i ∈ b.writes, i < written.length
  content : Y.contentOf b.bytes = ⋃ i ∈ b.writes, Y.contentOf? written[i]?

/-- Every batch anywhere: in the document, returned, or remembered by an edit in progress. -/
def Anywhere (doc : ℕ) (c : Config Shared Fiber) (b : Batch) : Prop :=
  b ∈ (c.shared.docs doc).unsent ∨ b ∈ (c.shared.docs doc).returned ∨
    b ∈ (c.shared.docs doc).lent ∨ ∃ p, b ∈ remembered doc (c.locals p).stack

/-- The invariant of a document. -/
structure DocInv (doc : ℕ) (c : Config Shared Fiber) : Prop where
  custody : Custody.Holds (writesAt doc c) {i | i < (c.shared.docs doc).written.length}
  made : ∀ b, Anywhere doc c b → Made Y (c.shared.docs doc).written b

variable {Y}

lemma Made.append {written : List Bytes} {b : Batch} (h : Made Y written b) (update : Bytes) :
    Made Y (written ++ [update]) b := by
  refine ⟨fun i hi => ?_, ?_⟩
  · have := h.bound i hi
    simp only [List.length_append]
    omega
  · rw [h.content]
    refine Set.iUnion₂_congr fun i hi => ?_
    rw [List.getElem?_append_left (h.bound i hi)]

lemma made_write (written : List Bytes) (update : Bytes) :
    Made Y (written ++ [update]) ⟨update, [written.length]⟩ := by
  refine ⟨by simp, ?_⟩
  simp

lemma made_merge (hmerge : Y.MergeIsUnion) {written : List Bytes} {taken : List Batch}
    {bytes : Bytes} (hne : taken ≠ []) (h : ∀ b ∈ taken, Made Y written b)
    (hbytes : mergeUnsent Y (taken.map Batch.bytes) = some bytes) :
    Made Y written ⟨bytes, taken.flatMap Batch.writes⟩ := by
  refine ⟨fun i hi => ?_, ?_⟩
  · obtain ⟨b, hb, hi⟩ := List.mem_flatMap.1 hi
    exact (h b hb).bound i hi
  · have hne' : taken.map Batch.bytes ≠ [] := by simpa using hne
    rw [contentOf_mergeUnsent hmerge hne' hbytes]
    ext x
    simp only [Set.mem_iUnion, List.mem_map, List.mem_flatMap, exists_prop]
    constructor
    · rintro ⟨-, ⟨b, hb, rfl⟩, hx⟩
      rw [(h b hb).content] at hx
      obtain ⟨i, hi, hx⟩ := Set.mem_iUnion₂.1 hx
      exact ⟨i, ⟨b, hb, hi⟩, hx⟩
    · rintro ⟨i, ⟨b, hb, hi⟩, hx⟩
      refine ⟨b.bytes, ⟨b, hb, rfl⟩, ?_⟩
      rw [(h b hb).content]
      exact Set.mem_iUnion₂.2 ⟨i, hi, hx⟩

lemma docInv_init (doc : ℕ) : DocInv Y doc init := by
  refine ⟨?_, fun b hb => ?_⟩
  · have hempty : writesAt doc init = fun _ => [] := by
      funext place
      cases place <;> rfl
    have hnone : {i | i < (init.shared.docs doc).written.length} = ∅ := by
      ext i
      simp [init]
    rw [hempty, hnone]
    exact Custody.holds_empty
  · rcases hb with hb | hb | hb | ⟨p, hb⟩
    · exact absurd hb (by simp [init])
    · exact absurd hb (by simp [init])
    · exact absurd hb (by simp [init])
    · exact absurd hb (by simp [init, remembered])

/-- A move keeps every write in exactly one place. -/
lemma placed_move {d d' : DocState} {ts : ℕ → List Batch} {p : ℕ}
    {taken memo taken' memo' rest : List Batch}
    (h : Custody.Holds (placed d ts) {i | i < d.written.length}) (hp : ts p = taken ++ rest)
    (hmove : Moves Y d taken memo d' taken' memo') :
    Custody.Holds (placed d' (Function.update ts p (taken' ++ rest)))
      {i | i < d'.written.length} := by
  have hat : (placed d ts (.taken p)) = (taken ++ rest).flatMap Batch.writes := by
    simp only [placed, hp]
  -- the takes of the other fibers
  have hothers : ∀ (d' : DocState) (ts' : List Batch) (r : Place), r ≠ .taken p → r ≠ .unsent →
      r ≠ .returned → placed d' (Function.update ts p ts') r = placed d ts r := by
    intro d' ts' r hp hu hr
    cases r with
    | unsent => exact absurd rfl hu
    | returned => exact absurd rfl hr
    | taken q =>
        have hq : q ≠ p := fun hq => hp (congrArg Place.taken hq)
        simp only [placed, Function.update_of_ne hq]
  cases hmove with
  | quiet hmemo =>
      rw [← hp, Function.update_eq_self]
      exact h
  | write txn update =>
      rw [← hp, Function.update_eq_self]
      have hset : {i | i < (d.write txn update).written.length} =
          insert d.written.length {i | i < d.written.length} := by
        ext i
        simp only [DocState.write, List.length_append, List.length_singleton, Set.mem_ofPred_eq,
          Set.mem_insert_iff]
        omega
      rw [hset]
      refine h.enter (p := .unsent) (by simp) ?_ fun r hr => ?_
      · have hunsent : placed (d.write txn update) ts .unsent =
            placed d ts .unsent ++ [d.written.length] := by
          simp [placed, DocState.write, DocState.observe, isRemote_local]
        rw [hunsent]
        exact List.perm_append_singleton _ _
      · cases r with
        | unsent => exact absurd rfl hr
        | taken q => rfl
        | returned => simp [placed, DocState.write, DocState.observe, isRemote_local]
  | take =>
      refine h.move (p := .taken p) (q := .unsent) (by simp) ?_ fun r hp hu => ?_
      · rw [hat]
        simp only [placed, Function.update_self, List.flatMap_append, List.flatMap_nil,
          List.append_nil, List.nil_append]
        exact List.perm_append_comm
      · by_cases hr : r = .returned
        · subst hr
          rfl
        · exact hothers _ _ r hp hu hr
  | merge hne hbytes =>
      refine h.perm fun r => ?_
      cases r with
      | unsent => exact List.Perm.refl _
      | returned => exact List.Perm.refl _
      | taken q =>
          by_cases hq : q = p
          · subst hq
            simp [placed, hp]
          · simp [placed, hq]
  | putBack hmemo =>
      refine h.move (p := .unsent) (q := .taken p) (by simp) ?_ fun r hu hp => ?_
      · rw [hat]
        simp only [placed, DocState.putBack, Function.update_self, List.flatMap_append,
          List.nil_append]
        rw [← List.append_assoc]
        exact List.perm_append_comm.append_right _
      · by_cases hr : r = .returned
        · subst hr
          rfl
        · exact hothers _ _ r hp hu hr
  | returned =>
      refine h.move (p := .returned) (q := .taken p) (by simp) ?_ fun r hr hp => ?_
      · rw [hat]
        simp [placed]
      · by_cases hu : r = .unsent
        · subst hu
          rfl
        · exact hothers _ _ r hp hu hr
  | lent =>
      rw [← hp, Function.update_eq_self]
      exact h.perm fun r => by cases r <;> exact List.Perm.refl _

/-- A move leaves nothing but merges of local writes. -/
lemma made_move (hmerge : Y.MergeIsUnion) {d d' : DocState} {taken memo taken' memo' : List Batch}
    (h : ∀ b, b ∈ d.unsent ∨ b ∈ d.returned ∨ b ∈ d.lent ∨ b ∈ memo → Made Y d.written b)
    (hmove : Moves Y d taken memo d' taken' memo') :
    (∀ b, b ∈ d'.unsent ∨ b ∈ d'.returned ∨ b ∈ d'.lent ∨ b ∈ memo' → Made Y d'.written b) ∧
      ∀ b, Made Y d.written b → Made Y d'.written b := by
  cases hmove with
  | quiet hmemo =>
      refine ⟨fun b hb => h b ?_, fun b hb => hb⟩
      exact hb.imp_right fun hb => hb.imp_right fun hb => hb.imp_right fun hb => hmemo hb
  | write txn update =>
      refine ⟨fun b hb => ?_, fun b hb => hb.append update⟩
      simp only [DocState.write, DocState.observe, isRemote_local, Bool.false_eq_true, if_false,
        List.mem_append, List.mem_singleton] at hb
      rcases hb with (hb | rfl) | hb
      · exact (h b (.inl hb)).append update
      · exact made_write _ update
      · exact (h b (.inr hb)).append update
  | take =>
      refine ⟨fun b hb => h b ?_, fun b hb => hb⟩
      rcases hb with hb | hb | hb | hb
      · exact absurd hb (by simp)
      · exact .inr (.inl hb)
      · exact .inr (.inr (.inl hb))
      · exact .inl hb
  | merge hne hbytes =>
      refine ⟨fun b hb => ?_, fun b hb => hb⟩
      rcases hb with hb | hb | hb | hb
      · exact h b (.inl hb)
      · exact h b (.inr (.inl hb))
      · exact h b (.inr (.inr (.inl hb)))
      · obtain rfl := List.mem_singleton.1 hb
        exact made_merge hmerge hne (fun b hb => h b (.inr (.inr (.inr hb)))) hbytes
  | putBack hmemo =>
      refine ⟨fun b hb => h b ?_, fun b hb => hb⟩
      rcases hb with hb | hb | hb | hb
      · rcases List.mem_append.1 hb with hb | hb
        exacts [.inr (.inr (.inr hb)), .inl hb]
      · exact .inr (.inl hb)
      · exact .inr (.inr (.inl hb))
      · exact .inr (.inr (.inr (hmemo hb)))
  | returned =>
      refine ⟨fun b hb => h b ?_, fun b hb => hb⟩
      rcases hb with hb | hb | hb | hb
      · exact .inl hb
      · rcases List.mem_append.1 hb with hb | hb
        exacts [.inr (.inl hb), .inr (.inr (.inr hb))]
      · exact .inr (.inr (.inl hb))
      · exact absurd hb (by simp)
  | lent =>
      refine ⟨fun b hb => h b ?_, fun b hb => hb⟩
      rcases hb with hb | hb | hb | hb
      · exact .inl hb
      · exact .inr (.inl hb)
      · rcases List.mem_append.1 hb with hb | hb
        exacts [.inr (.inr (.inl hb)), .inr (.inr (.inr hb))]
      · exact absurd hb (by simp)

lemma takes_update (locals : ℕ → Fiber) (p : ℕ) (l : Fiber) (doc : ℕ) :
    (fun q => takes doc (Function.update locals p l q).stack) =
      Function.update (fun q => takes doc (locals q).stack) p (takes doc l.stack) := by
  funext q
  by_cases hq : q = p
  · subst hq
    simp
  · simp [hq]

/-- After a step of fiber `p`, what some fiber remembers is what `p` does, or was there before. -/
lemma remembered_update {locals : ℕ → Fiber} {p : ℕ} {l : Fiber} {doc : ℕ} {b : Batch}
    (h : ∃ q, b ∈ remembered doc (Function.update locals p l q).stack) :
    b ∈ remembered doc l.stack ∨ ∃ q, b ∈ remembered doc (locals q).stack := by
  obtain ⟨q, hb⟩ := h
  by_cases hq : q = p
  · subst hq
    exact .inl (by simpa using hb)
  · exact .inr ⟨q, by simpa [hq] using hb⟩

/-- A step keeps the invariant of every document. -/
lemma docInv_step (hmerge : Y.MergeIsUnion) {c c' : Config Shared Fiber} {pa : ℕ × Action}
    (hm : (system Y).act c pa = some c') (h : ∀ doc, DocInv Y doc c) (doc : ℕ) :
    DocInv Y doc c' := by
  obtain ⟨p, a⟩ := pa
  obtain ⟨g', l', hstep, rfl⟩ := System.act_eq_some.1 hm
  obtain ⟨moved, hothers, taken, memo, taken', memo', rest, restMemo, ht, hr, ht', hr', hmove⟩ :=
    step_moves hstep
  by_cases hdoc : doc = moved
  · subst hdoc
    have hmade : ∀ b, b ∈ (c.shared.docs doc).unsent ∨ b ∈ (c.shared.docs doc).returned ∨
        b ∈ (c.shared.docs doc).lent ∨ b ∈ memo → Made Y (c.shared.docs doc).written b := by
      intro b hb
      refine (h doc).made b (hb.imp_right fun hb => hb.imp_right fun hb => hb.imp_right ?_)
      exact fun hb => ⟨p, hr ▸ List.mem_append_left _ hb⟩
    obtain ⟨hnew, hold⟩ := made_move hmerge hmade hmove
    refine ⟨?_, fun b hb => ?_⟩
    · change Custody.Holds (placed (g'.docs doc) _) _
      rw [takes_update, ht']
      exact placed_move (h doc).custody ht hmove
    · rcases hb with hb | hb | hb | hb
      · exact hnew b (.inl hb)
      · exact hnew b (.inr (.inl hb))
      · exact hnew b (.inr (.inr (.inl hb)))
      · rcases remembered_update hb with hb | hb
        · rcases List.mem_append.1 (hr' ▸ hb) with hb | hb
          · exact hnew b (.inr (.inr (.inr hb)))
          · refine hold b ((h doc).made b (.inr (.inr (.inr ⟨p, ?_⟩))))
            rw [hr]
            exact List.mem_append_right _ hb
        · exact hold b ((h doc).made b (.inr (.inr (.inr hb))))
  · obtain ⟨hdocs, htakes, hmemo⟩ := hothers doc hdoc
    refine ⟨?_, fun b hb => ?_⟩
    · change Custody.Holds (placed (g'.docs doc) _) {i | i < (g'.docs doc).written.length}
      rw [takes_update, htakes, Function.update_eq_self, hdocs]
      exact (h doc).custody
    · change Made Y (g'.docs doc).written b
      change b ∈ (g'.docs doc).unsent ∨ b ∈ (g'.docs doc).returned ∨ b ∈ (g'.docs doc).lent ∨
        ∃ q, b ∈ remembered doc (Function.update c.locals p l' q).stack at hb
      rw [hdocs] at hb ⊢
      refine (h doc).made b (hb.imp_right fun hb => hb.imp_right fun hb => hb.imp_right ?_)
      intro hb
      rcases remembered_update hb with hb | hb
      · exact ⟨p, hmemo ▸ hb⟩
      · exact hb

/-! ## The writes are conserved -/

/-- What is true of a document at every moment. -/
structure Conserved (Y : Yrs) (doc : ℕ) (c : Config Shared Fiber) : Prop where
  /-- Every local write is in one place, once. -/
  once : ∀ i < (c.shared.docs doc).written.length, ∃ place, (writesAt doc c place).count i = 1 ∧
    ∀ place', place' ≠ place → i ∉ writesAt doc c place'
  /-- Every update anywhere is the merge of local writes. -/
  noPeer : ∀ b, Anywhere doc c b → Made Y (c.shared.docs doc).written b
  /-- Returned updates, takes in progress and `Unsent` together are all local writes. -/
  whole : (⋃ b ∈ (c.shared.docs doc).returned, Y.contentOf b.bytes) ∪
      (⋃ p, ⋃ b ∈ takes doc (c.locals p).stack, Y.contentOf b.bytes) ∪
      (⋃ b ∈ (c.shared.docs doc).unsent, Y.contentOf b.bytes) =
    ⋃ update ∈ (c.shared.docs doc).written, Y.contentOf update
  /-- So without the takes whenever none is in progress. -/
  settled : (∀ p, takes doc (c.locals p).stack = []) →
    (⋃ b ∈ (c.shared.docs doc).returned, Y.contentOf b.bytes) ∪
        (⋃ b ∈ (c.shared.docs doc).unsent, Y.contentOf b.bytes) =
      ⋃ update ∈ (c.shared.docs doc).written, Y.contentOf update
  /-- A nested edit leaves what it returns in front of `Unsent`. -/
  nested : ∀ p b rest c', (c.locals p).stack = ⟨doc, true, .took (some b)⟩ :: rest →
    (system Y).act c (p, .keep) = some c' →
      (c'.shared.docs doc).unsent = b :: (c.shared.docs doc).unsent ∧
        (c'.locals p).stack = ⟨doc, true, .unmasking (some b)⟩ :: rest

lemma takes_subset_remembered {doc : ℕ} {stack : List Frame} :
    takes doc stack ⊆ remembered doc stack := by
  intro b hb
  obtain ⟨f, hf, hb⟩ := List.mem_flatMap.1 hb
  refine List.mem_flatMap.2 ⟨f, hf, ?_⟩
  split at hb
  · rename_i hdoc
    rw [if_pos hdoc]
    unfold Frame.held at hb
    split at hb
    · exact absurd hb (by simp)
    · exact hb
  · exact absurd hb (by simp)

/-- The content of some batches is the content of the writes they remember. -/
lemma mem_content_iff {written : List Bytes} {bs : List Batch}
    (h : ∀ b ∈ bs, Made Y written b) {x : Piece} :
    x ∈ ⋃ b ∈ bs, Y.contentOf b.bytes ↔
      ∃ i ∈ bs.flatMap Batch.writes, x ∈ Y.contentOf? written[i]? := by
  simp only [Set.mem_iUnion, List.mem_flatMap, exists_prop]
  constructor
  · rintro ⟨b, hb, hx⟩
    rw [(h b hb).content] at hx
    obtain ⟨i, hi, hx⟩ := Set.mem_iUnion₂.1 hx
    exact ⟨i, ⟨b, hb, hi⟩, hx⟩
  · rintro ⟨i, ⟨b, hb, hi⟩, hx⟩
    refine ⟨b, hb, ?_⟩
    rw [(h b hb).content]
    exact Set.mem_iUnion₂.2 ⟨i, hi, hx⟩

lemma mem_written_iff {written : List Bytes} {x : Piece} :
    x ∈ ⋃ update ∈ written, Y.contentOf update ↔
      ∃ i < written.length, x ∈ Y.contentOf? written[i]? := by
  simp only [Set.mem_iUnion, exists_prop]
  constructor
  · rintro ⟨update, hu, hx⟩
    obtain ⟨i, hi, rfl⟩ := List.getElem_of_mem hu
    exact ⟨i, hi, by simpa [hi] using hx⟩
  · rintro ⟨i, hi, hx⟩
    exact ⟨written[i], List.getElem_mem hi, by simpa [hi] using hx⟩

lemma DocInv.conserved {doc : ℕ} {c : Config Shared Fiber} (h : DocInv Y doc c) :
    Conserved Y doc c := by
  have whole : (⋃ b ∈ (c.shared.docs doc).returned, Y.contentOf b.bytes) ∪
      (⋃ p, ⋃ b ∈ takes doc (c.locals p).stack, Y.contentOf b.bytes) ∪
      (⋃ b ∈ (c.shared.docs doc).unsent, Y.contentOf b.bytes) =
    ⋃ update ∈ (c.shared.docs doc).written, Y.contentOf update := by
    ext x
    have hreturned := mem_content_iff (x := x)
      fun b (hb : b ∈ (c.shared.docs doc).returned) => h.made b (.inr (.inl hb))
    have hunsent := mem_content_iff (x := x)
      fun b (hb : b ∈ (c.shared.docs doc).unsent) => h.made b (.inl hb)
    have htakes := fun p => mem_content_iff (x := x)
      fun b (hb : b ∈ takes doc (c.locals p).stack) =>
        h.made b (.inr (.inr (.inr ⟨p, takes_subset_remembered hb⟩)))
    rw [mem_written_iff, Set.mem_union, Set.mem_union, hreturned, hunsent, Set.mem_iUnion,
      exists_congr htakes]
    constructor
    · rintro ((⟨i, hi, hx⟩ | ⟨p, i, hi, hx⟩) | ⟨i, hi, hx⟩)
      · exact ⟨i, (h.custody.covers i).2 ⟨.returned, hi⟩, hx⟩
      · exact ⟨i, (h.custody.covers i).2 ⟨.taken p, hi⟩, hx⟩
      · exact ⟨i, (h.custody.covers i).2 ⟨.unsent, hi⟩, hx⟩
    · rintro ⟨i, hi, hx⟩
      obtain ⟨place, hplace⟩ := (h.custody.covers i).1 hi
      cases place with
      | unsent => exact .inr ⟨i, hplace, hx⟩
      | taken p => exact .inl (.inr ⟨p, i, hplace, hx⟩)
      | returned => exact .inl (.inl ⟨i, hplace, hx⟩)
  refine ⟨fun i hi => h.custody.exactly_one hi, h.made, whole, fun hidle => ?_, ?_⟩
  · simpa [hidle] using whole
  · intro p b rest c' hst hm
    obtain ⟨g', l', hstep, rfl⟩ := System.act_eq_some.1 hm
    simp only [system, step, hst, frameStep, if_true, Option.map_some, Option.some.injEq,
      Prod.mk.injEq] at hstep
    obtain ⟨rfl, rfl⟩ := hstep
    simp [DocState.putBack, framesOf]

/-- **Edits conserve local writes.**  Whatever the fibers do and in whatever order, and wherever
merges fail and exceptions arrive: every local write is in exactly one place, no update of a peer
is in any, and the updates that edits which were not nested returned, the takes in progress and
the unsent list are together the merge of all local writes. -/
theorem edit_conserves_writes (Y : Yrs) (hmerge : Y.MergeIsUnion) (steps : List (ℕ × Action))
    (c : Config Shared Fiber) (hrun : run (system Y).act init steps = some c) (doc : ℕ) :
    Conserved Y doc c :=
  have hinv : ∀ doc, DocInv Y doc c :=
    run_invariant (P := fun c => ∀ doc, DocInv Y doc c)
      (fun _ _ _ h hm => docInv_step hmerge hm h) docInv_init hrun
  (hinv doc).conserved

section Examples

/-- One block of one client. -/
def oneWrite : Bytes := Reference.encodePieces [.block ⟨1, 0⟩]

/-- A fiber edits the document and writes to it, and its take has emptied the list. -/
def takeSteps : List (ℕ × Action) :=
  [(0, .edit 0), (0, .write 0 .plain oneWrite), (0, .leave), (0, .take)]

/-- An edit that writes once and returns the update. -/
theorem edit_conserves_writes_oneEdit :
    ∃ c, run (system (Reference.engine [])).act init
        (takeSteps ++ [(0, .merged), (0, .keep), (0, .return)]) = some c ∧
      (c.shared.docs 0).returned = [⟨oneWrite, [0]⟩] ∧
      Conserved (Reference.engine []) 0 c := by
  have hrun : ∃ c, run (system (Reference.engine [])).act init
      (takeSteps ++ [(0, .merged), (0, .keep), (0, .return)]) = some c ∧
      (c.shared.docs 0).returned = [⟨oneWrite, [0]⟩] := ⟨_, rfl, rfl⟩
  obtain ⟨c, hc, hreturned⟩ := hrun
  exact ⟨c, hc, hreturned, edit_conserves_writes _ (Reference.mergeIsUnion []) _ c hc 0⟩

/-- While a take is in progress, the write it took is neither in `Unsent` nor in an update that
was returned. -/
theorem midTake_not_returned_or_unsent :
    ∃ c, run (system (Reference.engine [])).act init takeSteps = some c ∧
      (⋃ b ∈ (c.shared.docs 0).returned, (Reference.engine []).contentOf b.bytes) ∪
          (⋃ b ∈ (c.shared.docs 0).unsent, (Reference.engine []).contentOf b.bytes) ≠
        ⋃ update ∈ (c.shared.docs 0).written, (Reference.engine []).contentOf update := by
  have hcontent : (Reference.engine []).contentOf oneWrite = {.block ⟨1, 0⟩} := by
    obtain ⟨u, hu⟩ :
        ∃ u, Reference.decodeUpdate (Reference.encodePieces [.block ⟨1, 0⟩]) = some u :=
      ⟨_, Reference.decodeUpdate_encodePieces _⟩
    have hcontent : (Reference.engine []).contentOf oneWrite = u.content :=
      Yrs.contentOf_of_decode (Y := Reference.engine []) hu
    rw [hcontent, Reference.content_encodePieces hu]
    simp
  refine ⟨_, rfl, fun h => ?_⟩
  have h : (⋃ b ∈ ([] : List Batch), (Reference.engine []).contentOf b.bytes) ∪
      (⋃ b ∈ ([] : List Batch), (Reference.engine []).contentOf b.bytes) =
        ⋃ update ∈ [oneWrite], (Reference.engine []).contentOf update := h
  simp [hcontent] at h

end Examples

end Yrby.Edit
