import Yrby.Engine.Edit
import Yrby.Server.Store

/-!
# Editing a document from Ruby (`collaborative/attribute.rb`)

`Attribute#edit` loads the document of a record's attribute, runs a block that writes to it, takes
the update of these writes, records it as any update is recorded, and broadcasts it.  Nothing locks
the document in between: while one process edits, any number of others edit, append what browsers
sent, compact and load, and any of them may crash.

The system is that of `Store`, in which a process may also be in an edit: its `Stage` runs beside
the statements of the load and of the append that belong to it.  The writes of a block come from yrs
(`write`); what is asked of them is that they are applied, and visible where they were made
(`LocalWrites`).  Blocks that apply a peer's update, or that call the store themselves, are not
modelled.

An edit builds on what it loaded, and what it loaded never leaves the store.  So its update
integrates wherever the store is loaded from then on, whatever gaps other updates have
(`edit_visible`), and a store that only edits write to has no gaps at all
(`edits_leave_no_gap`).
-/

namespace Yrby.Attribute

open Wire Interleaving Transition Yrs

/-! ## The system -/

/-- What a process does in an edit. -/
inductive Stage (Y : Yrs)
  | none
  | loading
  | block (doc : Y.Doc) (unsent : List Bytes)
  | recording (update : Bytes)
  | broadcasting (update : Bytes)
  | returned (update : Option Bytes)
  | raised

/-- Where a process is: in the store, and in its edit. -/
structure Local (Y : Yrs) where
  store : Store.Proc := .idle
  stage : Stage Y := .none

/-- The store, and the updates that were broadcast. -/
structure Shared where
  store : Store.Shared := {}
  sent : List Bytes := []

/-- A step of a process.  `W` are the writes that a block can make. -/
inductive Action (W : Type)
  /-- A statement of the store. -/
  | store (a : Store.Action)
  | edit
  | write (w : W)
  | leave
  | broadcast
  /-- An exception, or a crash, in the block or in the broadcast. -/
  | raise

/-- The process is in no edit. -/
def Stage.isDone {Y : Yrs} : Stage Y → Bool
  | .none | .returned _ | .raised => true
  | _ => false

section

variable (Y : Yrs) (compactEvery : ℕ) {W : Type} (write : Y.Doc → W → Option (Bytes × Y.Doc))

/-- `y_doc`, from the state that was loaded. -/
def openDoc (result : Option Bytes) : Stage Y :=
  match Y.applyOptional Y.new result with
  | some doc => .block doc []
  | none => .raised

/-- Where an edit is once its process is somewhere else in the store. -/
def settle : Stage Y → Store.Proc → Stage Y
  | .loading, .loaded _ result => openDoc Y result
  | .loading, .raised => .raised
  | .recording update, .returned _ => .broadcasting update
  | .recording _, .raised => .raised
  | stage, _ => stage

/-- A statement of the store, wherever the process's edit is. -/
def storeStep (p : ℕ) (g : Shared) (l : Local Y) (a : Store.Action) (stage : Stage Y) :
    Option (Shared × Local Y) :=
  (Store.step Y compactEvery p g.store l.store a).map fun r =>
    ({ g with store := r.1 }, ⟨r.2, settle Y stage r.2⟩)

/-- The end of the block: `take_unsent`, then `append` unless nothing was written. -/
def leave (p : ℕ) (g : Shared) (l : Local Y) : List Bytes → Option (Shared × Local Y)
  | [] => some (g, { l with stage := .returned none })
  | unsent =>
    match Edit.mergeUnsent Y unsent with
    | some update => storeStep Y compactEvery p g l (.append update) (.recording update)
    | none => some (g, { l with stage := .raised })

/-- One step of process `p`. -/
def step (p : ℕ) (g : Shared) (l : Local Y) : Action W → Option (Shared × Local Y)
  | .store a =>
    match l.stage with
    | .block _ _ | .broadcasting _ => none
    | stage => storeStep Y compactEvery p g l a stage
  | .edit =>
    if l.stage.isDone then storeStep Y compactEvery p g l .load .loading else none
  | .write w =>
    match l.stage with
    | .block doc unsent =>
      match write doc w with
      | some (update, doc) => some (g, { l with stage := .block doc (unsent ++ [update]) })
      | none => some (g, { l with stage := .raised })
    | _ => none
  | .leave =>
    match l.stage with
    | .block _ unsent => leave Y compactEvery p g l unsent
    | _ => none
  | .broadcast =>
    match l.stage with
    | .broadcasting update =>
      some ({ g with sent := update :: g.sent }, { l with stage := .returned (some update) })
    | _ => none
  | .raise =>
    match l.stage with
    | .block _ _ | .broadcasting _ => some (g, { l with stage := .raised })
    | _ => none

/-- Processes that edit, over a store. -/
def system : System Shared (Local Y) (Action W) := ⟨step Y compactEvery write⟩

abbrev Cfg := Config Shared (Local Y)

/-- A new document that no process works on. -/
def init : Cfg Y := ⟨{}, fun _ => {}⟩

/-- What the code relies on about the writes of a block: a write is applied to the document it is
made to, and it is visible there. -/
structure LocalWrites : Prop where
  held {doc doc' : Y.Doc} {w : W} {update : Bytes} :
    write doc w = some (update, doc') → Y.held doc' = Y.held doc ∪ Y.contentOf update
  visible {doc doc' : Y.Doc} {w : W} {update : Bytes} :
    write doc w = some (update, doc') → Y.contentOf update ⊆ Y.integrated doc'

end

/-! ## What an edit builds on -/

section

variable (Y : Yrs) (needs : Piece → Piece → Prop)

/-- Everything that is recorded. -/
abbrev recorded (g : Store.Shared) : Set Piece := Store.contentOfLog Y g.log

/-- What some updates carry together. -/
def contentOfAll (updates : List Bytes) : Set Piece := ⋃ b ∈ updates, Y.contentOf b

/-- The update is recorded, and nothing that it needs is missing. -/
def Visible (g : Store.Shared) (update : Bytes) : Prop :=
  (∃ id, (id, update) ∈ g.log) ∧
    Y.contentOf update ⊆ Causal.integrated needs (recorded Y g)

/-- The process is inside the `append` of this update. -/
def Appending (update : Bytes) : Store.Proc → Prop
  | .inserting bytes | .counting bytes => bytes = update
  | .locking job | .locked job _ | .compacting job _ _ => job = some update
  | _ => False

/-- What a process in an edit knows of what is recorded. -/
def StageAsserts (g : Store.Shared) (proc : Store.Proc) : Stage Y → Prop
  | .none | .loading | .raised | .returned none => True
  | .block doc unsent =>
    Y.held doc ⊆ recorded Y g ∪ contentOfAll Y unsent ∧
      contentOfAll Y unsent ⊆ Y.integrated doc
  | .recording update =>
    Appending update proc ∧
      Y.contentOf update ⊆ Causal.integrated needs (recorded Y g ∪ Y.contentOf update)
  | .broadcasting update | .returned (some update) => Visible Y needs g update

/-- What a process knows about the store where it is. -/
def Asserts (g : Shared) (p : ℕ) (l : Local Y) : Prop :=
  Store.Asserts Y g.store p l.store ∧ StageAsserts Y needs g.store l.store l.stage

/-- What holds between any two steps. -/
structure SharedInv (refused : Piece → Prop) (g : Shared) : Prop where
  store : Store.SharedInv Y needs refused g.store
  /-- What was broadcast is recorded. -/
  sent : ∀ update ∈ g.sent, Visible Y needs g.store update

/-- How a step may change what the other processes see. -/
structure Guarantee (p : ℕ) (g g' : Shared) : Prop where
  store : Store.Guarantee Y p g.store g'.store
  sent : g.sent ⊆ g'.sent

end

section

variable {Y : Yrs} {needs : Piece → Piece → Prop} {refused : Piece → Prop} {compactEvery p : ℕ}
  {W : Type} {write : Y.Doc → W → Option (Bytes × Y.Doc)} {g g' : Shared} {l l' : Local Y}

lemma recorded_mono {s s' : Store.Shared} (h : s.log ⊆ s'.log) : recorded Y s ⊆ recorded Y s' :=
  Store.contentOfLog_mono h

lemma Visible.mono {s s' : Store.Shared} {update : Bytes} (h : Visible Y needs s update)
    (hlog : s.log ⊆ s'.log) : Visible Y needs s' update := by
  obtain ⟨⟨id, hid⟩, hcontent⟩ := h
  exact ⟨⟨id, hlog hid⟩, hcontent.trans (Causal.integrated_mono (recorded_mono hlog))⟩

/-- What a process knows survives the steps of the others. -/
lemma asserts_stable {q : ℕ} (hq : q ≠ p) (hG : Guarantee Y p g g') (h : Asserts Y needs g q l) :
    Asserts Y needs g' q l := by
  obtain ⟨store, stage⟩ := l
  refine ⟨Store.asserts_stable hq hG.store h.1, ?_⟩
  have hrecorded : recorded Y g.store ⊆ recorded Y g'.store := recorded_mono hG.store.log
  have hstage := h.2
  cases stage with
  | none | loading | raised => trivial
  | block doc unsent =>
    exact ⟨hstage.1.trans (Set.union_subset_union_left _ hrecorded), hstage.2⟩
  | recording update =>
    exact ⟨hstage.1, hstage.2.trans
      (Causal.integrated_mono (Set.union_subset_union_left _ hrecorded))⟩
  | broadcasting update => exact Visible.mono hstage hG.store.log
  | returned update =>
    cases update with
    | none => trivial
    | some update => exact Visible.mono hstage hG.store.log

/-! ## The steps -/

/-- The statements of an `append` are those of its update, to the end. -/
lemma appending_step {update : Bytes} {s s' : Store.Shared} {proc proc' : Store.Proc}
    {a : Store.Action} (happ : Appending update proc)
    (h : Store.step Y compactEvery p s proc a = some (s', proc')) :
    Appending update proc' ∨ proc' = .returned (some update) ∨ proc' = .raised := by
  cases a with
  | append bytes =>
    rw [Store.step_append, Option.ite_none_right_eq_some] at h
    cases proc <;> simp [Appending, Store.Proc.isDone] at happ h
  | compact =>
    rw [Store.step_compact, Option.ite_none_right_eq_some] at h
    cases proc <;> simp [Appending, Store.Proc.isDone] at happ h
  | load =>
    rw [Store.step_load, Option.ite_none_right_eq_some] at h
    cases proc <;> simp [Appending, Store.Proc.isDone] at happ h
  | crash =>
    rw [Store.step_crash] at h
    obtain ⟨-, rfl⟩ := Prod.mk.inj (Option.some.inj h)
    exact .inr (.inr rfl)
  | _ =>
    -- each of the other statements belongs to one place of the append
    cases proc <;> simp only [Store.step, Option.map_eq_some_iff, reduceCtorEq] at h
    all_goals grind [Appending]

/-- What was recorded, recorded with what it builds on, is visible. -/
lemma visible_of_logged {s : Store.Shared} {update : Bytes}
    (hlog : Store.Logged s (some update))
    (h : Y.contentOf update ⊆ Causal.integrated needs (recorded Y s ∪ Y.contentOf update)) :
    Visible Y needs s update := by
  obtain ⟨id, hid⟩ := hlog update rfl
  refine ⟨⟨id, hid⟩, ?_⟩
  have hsub : Y.contentOf update ⊆ recorded Y s :=
    Store.contentOf_subset_contentOfLog (Y := Y) hid
  rwa [Set.union_eq_self_of_subset_right hsub] at h

/-- What has to be shown of a step of process `p` from `g`. -/
structure Sound (Y : Yrs) (needs : Piece → Piece → Prop) (refused : Piece → Prop) (p : ℕ)
    (g g' : Shared) (l' : Local Y) : Prop where
  shared : SharedInv Y needs refused g'
  asserts : Asserts Y needs g' p l'
  guarantee : Guarantee Y p g g'

/-- A step that leaves what the processes share alone. -/
lemma Sound.local (hI : SharedInv Y needs refused g) (hA : Asserts Y needs g p l') :
    Sound Y needs refused p g g l' :=
  ⟨hI, hA, Store.Guarantee.refl p g.store, List.Subset.refl _⟩

/-- A statement of the store, for what its process then knows of its edit. -/
lemma sound_store (hY : Y.Crdt needs refused) (hI : SharedInv Y needs refused g)
    (hA : Asserts Y needs g p l) {a : Store.Action} {stage : Stage Y}
    (hstage : ∀ s' proc', Store.step Y compactEvery p g.store l.store a = some (s', proc') →
      Store.Asserts Y s' p proc' → g.store.log ⊆ s'.log →
        Asserts Y needs { g with store := s' } p ⟨proc', settle Y stage proc'⟩)
    (h : storeStep Y compactEvery p g l a stage = some (g', l')) :
    Sound Y needs refused p g g' l' := by
  obtain ⟨⟨s', proc'⟩, hs, heq⟩ := Option.map_eq_some_iff.1 h
  obtain ⟨rfl, rfl⟩ := Prod.mk.inj heq
  have hsound := Store.sound_step hY hI.store hA.1 hs
  have hlog := hsound.guarantee.log
  exact ⟨⟨hsound.shared, fun update hu => (hI.sent update hu).mono hlog⟩,
    hstage s' proc' hs hsound.asserts hlog, hsound.guarantee, List.Subset.refl _⟩

/-- A load that has finished opens a document with what it loaded. -/
lemma asserts_settle_loading (hY : Y.Crdt needs refused) {s : Store.Shared} {sent : List Bytes}
    {proc : Store.Proc} (h : Store.Asserts Y s p proc) :
    Asserts Y needs ⟨s, sent⟩ p ⟨proc, settle Y .loading proc⟩ := by
  refine ⟨h, ?_⟩
  cases proc with
  | loaded seen result =>
    show StageAsserts Y needs s _ (openDoc Y result)
    unfold openDoc
    cases hdoc : Y.applyOptional Y.new result with
    | none => trivial
    | some doc =>
      refine ⟨?_, by simp [contentOfAll]⟩
      rw [held_applyOptional hY hdoc, hY.held_new, Set.empty_union]
      exact h.2.trans Set.subset_union_left
  | raised => trivial
  | _ => trivial

/-- An append that has returned has recorded its update. -/
lemma asserts_settle_recording {s : Store.Shared} {sent : List Bytes} {proc : Store.Proc}
    {update : Bytes} (h : Store.Asserts Y s p proc)
    (happ : Appending update proc ∨ proc = .returned (some update) ∨ proc = .raised)
    (hcontent : Y.contentOf update ⊆
      Causal.integrated needs (recorded Y s ∪ Y.contentOf update)) :
    Asserts Y needs ⟨s, sent⟩ p ⟨proc, settle Y (.recording update) proc⟩ := by
  refine ⟨h, ?_⟩
  rcases happ with happ | rfl | rfl
  · have same : settle Y (.recording update) proc = .recording update := by
      cases proc <;> first | rfl | exact happ.elim
    rw [same]
    exact ⟨happ, hcontent⟩
  · exact visible_of_logged h hcontent
  · trivial

/-- A write builds on what its document holds. -/
lemma stageAsserts_write (hY : Y.Crdt needs refused) (hwrite : LocalWrites Y write)
    {s : Store.Shared} {proc : Store.Proc} {doc doc' : Y.Doc} {unsent : List Bytes} {w : W}
    {update : Bytes} (h : StageAsserts Y needs s proc (.block doc unsent))
    (hw : write doc w = some (update, doc')) :
    StageAsserts Y needs s proc (.block doc' (unsent ++ [update])) := by
  have hall : contentOfAll Y (unsent ++ [update]) =
      contentOfAll Y unsent ∪ Y.contentOf update := by
    simp [contentOfAll, Set.iUnion_or, Set.iUnion_union_distrib]
  refine ⟨?_, ?_⟩
  · rw [hwrite.held hw, hall, ← Set.union_assoc]
    exact Set.union_subset_union_left _ h.1
  · rw [hall]
    refine Set.union_subset (h.2.trans ?_) (hwrite.visible hw)
    rw [hY.integrated_eq, hY.integrated_eq, hwrite.held hw]
    exact Causal.integrated_mono Set.subset_union_left

/-- The update of a block builds on what is recorded. -/
lemma contentOf_update (hY : Y.Crdt needs refused) (hmerge : Y.MergeIsUnion)
    {s : Store.Shared} {proc : Store.Proc} {doc : Y.Doc} {unsent : List Bytes} {update : Bytes}
    (h : StageAsserts Y needs s proc (.block doc unsent)) (hne : unsent ≠ [])
    (hu : Edit.mergeUnsent Y unsent = some update) :
    Y.contentOf update ⊆ Causal.integrated needs (recorded Y s ∪ Y.contentOf update) := by
  have hall : Y.contentOf update = contentOfAll Y unsent :=
    Edit.contentOf_mergeUnsent hmerge hne hu
  rw [hall]
  refine h.2.trans ?_
  rw [hY.integrated_eq]
  exact Causal.integrated_mono h.1

/-- The block ends. -/
lemma sound_leave (hY : Y.Crdt needs refused) (hmerge : Y.MergeIsUnion)
    (hI : SharedInv Y needs refused g) {proc : Store.Proc} {doc : Y.Doc} {unsent : List Bytes}
    (hA : Asserts Y needs g p ⟨proc, .block doc unsent⟩)
    (h : leave Y compactEvery p g ⟨proc, .block doc unsent⟩ unsent = some (g', l')) :
    Sound Y needs refused p g g' l' := by
  unfold leave at h
  split at h
  · obtain ⟨rfl, rfl⟩ := Prod.mk.inj (Option.some.inj h)
    exact .local hI ⟨hA.1, trivial⟩
  · rename_i hne
    split at h
    · rename_i update hu
      have hcontent := contentOf_update hY hmerge hA.2 hne hu
      refine sound_store hY hI hA (fun s' proc' hs hproc hlog => ?_) h
      rw [Store.step_append, Option.ite_none_right_eq_some] at hs
      obtain ⟨-, rfl⟩ := Prod.mk.inj (Option.some.inj hs.2)
      refine ⟨hproc, rfl, hcontent.trans (Causal.integrated_mono ?_)⟩
      exact Set.union_subset_union_left _ (recorded_mono hlog)
    · obtain ⟨rfl, rfl⟩ := Prod.mk.inj (Option.some.inj h)
      exact .local hI ⟨hA.1, trivial⟩

/-- A statement of the store, in whatever edit its process is. -/
lemma sound_statement (hY : Y.Crdt needs refused) (hI : SharedInv Y needs refused g)
    (hA : Asserts Y needs g p l) {a : Store.Action}
    (h : step Y compactEvery write p g l (.store a) = some (g', l')) :
    Sound Y needs refused p g g' l' := by
  obtain ⟨proc, stage⟩ := l
  have hstage := hA.2
  cases stage with
  | block doc unsent => simp [step] at h
  | broadcasting update => simp [step] at h
  | none =>
    refine sound_store hY hI hA (fun s' proc' _ hproc _ => ⟨hproc, ?_⟩) h
    trivial
  | raised =>
    refine sound_store hY hI hA (fun s' proc' _ hproc _ => ⟨hproc, ?_⟩) h
    trivial
  | loading =>
    exact sound_store hY hI hA (fun s' proc' _ hproc _ => asserts_settle_loading hY hproc) h
  | recording update =>
    refine sound_store hY hI hA (fun s' proc' hs hproc hlog => ?_) h
    refine asserts_settle_recording hproc (appending_step hstage.1 hs) (hstage.2.trans ?_)
    exact Causal.integrated_mono (Set.union_subset_union_left _ (recorded_mono hlog))
  | returned update =>
    refine sound_store hY hI hA (fun s' proc' _ hproc hlog => ⟨hproc, ?_⟩) h
    cases update with
    | none => trivial
    | some update => exact Visible.mono hstage hlog

/-- **Every step is sound.** -/
theorem sound_step (hY : Y.Crdt needs refused) (hmerge : Y.MergeIsUnion)
    (hwrite : LocalWrites Y write) {a : Action W} (hI : SharedInv Y needs refused g)
    (hA : Asserts Y needs g p l) (h : step Y compactEvery write p g l a = some (g', l')) :
    Sound Y needs refused p g g' l' := by
  obtain ⟨proc, stage⟩ := l
  cases a with
  | store a => exact sound_statement hY hI hA h
  | edit =>
    simp only [step, Option.ite_none_right_eq_some] at h
    exact sound_store hY hI hA (fun s' proc' _ hproc _ => asserts_settle_loading hY hproc) h.2
  | write w =>
    cases stage with
    | block doc unsent =>
      simp only [step] at h
      split at h
      · rename_i update doc' hw
        obtain ⟨rfl, rfl⟩ := Prod.mk.inj (Option.some.inj h)
        exact .local hI ⟨hA.1, stageAsserts_write hY hwrite hA.2 hw⟩
      · obtain ⟨rfl, rfl⟩ := Prod.mk.inj (Option.some.inj h)
        exact .local hI ⟨hA.1, trivial⟩
    | _ => simp [step] at h
  | leave =>
    cases stage with
    | block doc unsent => exact sound_leave hY hmerge hI hA h
    | _ => simp [step] at h
  | broadcast =>
    cases stage with
    | broadcasting update =>
      obtain ⟨rfl, rfl⟩ := Prod.mk.inj (Option.some.inj h)
      have hvisible : Visible Y needs g.store update := hA.2
      refine ⟨⟨hI.store, fun u hu => ?_⟩, hA, Store.Guarantee.refl p g.store,
        List.subset_cons_self _ _⟩
      rcases List.mem_cons.1 hu with rfl | hu
      · exact hvisible
      · exact hI.sent u hu
    | _ => simp [step] at h
  | raise =>
    cases stage with
    | block doc unsent =>
      obtain ⟨rfl, rfl⟩ := Prod.mk.inj (Option.some.inj h)
      exact .local hI ⟨hA.1, trivial⟩
    | broadcasting update =>
      obtain ⟨rfl, rfl⟩ := Prod.mk.inj (Option.some.inj h)
      exact .local hI ⟨hA.1, trivial⟩
    | _ => simp [step] at h

/-! ## Runs -/

abbrev CfgInv (Y : Yrs) (needs : Piece → Piece → Prop) (refused : Piece → Prop) (c : Cfg Y) :
    Prop :=
  Inv (SharedInv Y needs refused) (Asserts Y needs) c

lemma cfgInv_init : CfgInv Y needs refused (init Y) := by
  have hstore : Store.CfgInv Y needs refused Store.init := Store.cfgInv_init
  exact ⟨⟨hstore.shared, by simp [init]⟩, fun p => ⟨hstore.locals p, trivial⟩⟩

lemma cfgInv_act (hY : Y.Crdt needs refused) (hmerge : Y.MergeIsUnion)
    (hwrite : LocalWrites Y write) {c c' : Cfg Y} {pa : ℕ × Action W}
    (hc : CfgInv Y needs refused c) (h : (system Y compactEvery write).act c pa = some c') :
    CfgInv Y needs refused c' :=
  hc.act (fun _ _ _ _ _ _ hI hA hs =>
      have hsound := sound_step hY hmerge hwrite hI hA hs
      ⟨hsound.shared, hsound.asserts, hsound.guarantee⟩)
    (fun _ _ _ _ _ hq hG hA => asserts_stable hq hG hA) h

lemma cfgInv_run (hY : Y.Crdt needs refused) (hmerge : Y.MergeIsUnion)
    (hwrite : LocalWrites Y write) {as : List (ℕ × Action W)} {c c' : Cfg Y}
    (hc : CfgInv Y needs refused c) (h : run (system Y compactEvery write).act c as = some c') :
    CfgInv Y needs refused c' :=
  run_invariant (fun _ _ _ hc h => cfgInv_act hY hmerge hwrite hc h) hc h

/-- A document that was loaded after the update had been recorded shows it. -/
lemma Visible.shown (hY : Y.Crdt needs refused) {s : Store.Shared} {update : Bytes}
    (h : Visible Y needs s update) {seen : List (ℕ × Bytes)} {result : Option Bytes}
    (hcomplete : ∀ e ∈ seen, Y.contentOf e.2 ⊆ Y.contentOf? result) (hseen : s.log ⊆ seen)
    {doc : Y.Doc} (hdoc : Y.applyOptional Y.new result = some doc) :
    Y.contentOf update ⊆ Y.integrated doc := by
  have hheld : Y.held doc = Y.contentOf? result := by
    rw [held_applyOptional hY hdoc, hY.held_new, Set.empty_union]
  have hrecorded : recorded Y s ⊆ Y.contentOf? result :=
    Set.iUnion₂_subset fun e he => hcomplete e (hseen he)
  rw [hY.integrated_eq, hheld]
  exact h.2.trans (Causal.integrated_mono hrecorded)

/-- **What an edit returns, or broadcasts, is in the document for good.**  It is recorded, and
whenever the document is loaded from then on, by whatever process and after whatever steps, the
update is visible in it: nothing that it builds on is missing, whatever gaps other updates have. -/
theorem edit_visible (hY : Y.Crdt needs refused) (hmerge : Y.MergeIsUnion)
    (hwrite : LocalWrites Y write) {as : List (ℕ × Action W)} {c : Cfg Y}
    (h : run (system Y compactEvery write).act (init Y) as = some c) {update : Bytes}
    (hupdate : update ∈ c.shared.sent ∨ ∃ p, (c.locals p).stage = .returned (some update)) :
    (∃ id, (id, update) ∈ c.shared.store.log) ∧
      ∀ as' c', run (system Y compactEvery write).act c as' = some c' →
        ∀ p seen result, (c'.locals p).store = .loaded seen result →
          c.shared.store.log ⊆ seen →
            ∀ doc ∈ Y.applyOptional Y.new result, Y.contentOf update ⊆ Y.integrated doc := by
  have hc := cfgInv_run hY hmerge hwrite cfgInv_init h
  have hvisible : Visible Y needs c.shared.store update := by
    rcases hupdate with hsent | ⟨p, hp⟩
    · exact hc.shared.sent update hsent
    · have hstage := (hc.locals p).2
      rw [hp] at hstage
      exact hstage
  refine ⟨hvisible.1, fun as' c' h' p seen result hp hseen doc hdoc => ?_⟩
  have hloaded := ((cfgInv_run hY hmerge hwrite hc h').locals p).1
  rw [hp] at hloaded
  exact hvisible.shown hY hloaded.1 hseen hdoc

end

/-! ## Nothing but edits -/

section

variable (Y : Yrs) (compactEvery : ℕ) {W : Type} (write : Y.Doc → W → Option (Bytes × Y.Doc))

/-- An update that comes from somewhere else than an edit. -/
def Action.isAppend : Action W → Bool
  | .store (.append _) => true
  | _ => false

/-- The system in which nothing but edits writes to the store. -/
def edits : System Shared (Local Y) (Action W) :=
  ⟨fun p g l a => if a.isAppend then none else step Y compactEvery write p g l a⟩

variable (needs : Piece → Piece → Prop) (refused : Piece → Prop)

/-- What a process has read, or is about to insert, has nothing parked. -/
def Whole (g : Store.Shared) (stage : Stage Y) : Store.Proc → Prop
  | .inserting bytes => stage = .recording bytes
  | .compacting _ state rows =>
    Causal.SelfContained needs (Y.contentOf? state ∪ Y.contentOfRows rows)
  | .tailRead _ tail =>
    contentOfAll Y tail ⊆
      Causal.integrated needs (Y.contentOf? g.doc.state ∪ contentOfAll Y tail)
  | .loaded _ result => Causal.SelfContained needs (Y.contentOf? result)
  | _ => True

/-- Nothing that is recorded is missing anything, and no row waits for anything. -/
structure NoGap (g : Store.Shared) : Prop where
  recorded : Causal.SelfContained needs (recorded Y g)
  clean : ∀ r ∈ g.doc.updates.rows, r.pending = false

end

section

variable {Y : Yrs} {needs : Piece → Piece → Prop} {refused : Piece → Prop} {compactEvery p : ℕ}
  {W : Type} {write : Y.Doc → W → Option (Bytes × Y.Doc)} {s s' : Store.Shared}
  {proc proc' : Store.Proc} {stage stage' : Stage Y}

/-- The state and the rows together are what is recorded. -/
lemma recorded_eq (hI : Store.SharedInv Y needs refused s) :
    recorded Y s = Y.contentOf? s.doc.state ∪ Y.contentOfRows s.doc.updates.rows := by
  refine Set.Subset.antisymm (Set.iUnion₂_subset fun e he => ?_) (Set.union_subset ?_ ?_)
  · rcases hI.kept e he with ⟨r, hr, -, hpayload⟩ | hsub
    · rw [← hpayload]
      exact (contentOf_subset_contentOfRows hr).trans Set.subset_union_right
    · exact hsub.trans Set.subset_union_left
  · exact hI.state_logged
  · exact contentOfRows_subset.2 fun r hr =>
      Store.contentOf_subset_contentOfLog (hI.rows_logged r hr)

lemma contentOfRows_perm {rows rows' : List Row} (h : rows.Perm rows') :
    Y.contentOfRows rows = Y.contentOfRows rows' := by
  ext x
  simp [contentOfRows, h.mem_iff]

/-- Without a gap in what it read, a compaction leaves no row in the tail. -/
lemma marked_compaction (hY : Y.Crdt needs refused) {state : Option Bytes} {rows : List Row}
    (hwhole : Causal.SelfContained needs (Y.contentOf? state ∪ Y.contentOfRows rows))
    {c : Compaction} (h : Y.compaction state rows = some c) : c.marked = [] := by
  unfold compaction at h
  split at h
  · obtain rfl := Option.some.inj h
    rfl
  · rename_i hne
    rw [compactRows, if_neg hne, Option.bind_assoc] at h
    obtain ⟨doc, hdoc, h⟩ := Option.bind_eq_some_iff.1 h
    have hclean : Y.hasPending doc = false := by
      rw [hasPending_eq_false_iff hY, hY.parked_eq_empty_iff, held_foldRows hY hdoc]
      exact hwhole
    rw [if_neg (by simp [hclean])] at h
    obtain ⟨written, hwritten, h⟩ := Option.bind_eq_some_iff.1 h
    obtain ⟨newState, -, rfl⟩ := Option.map_eq_some_iff.1 hwritten
    obtain rfl := Option.some.inj h
    rfl

/-- What is whole stays whole while the state column grows. -/
lemma Whole.mono (h : Whole Y needs s stage proc)
    (hstate : Y.contentOf? s.doc.state ⊆ Y.contentOf? s'.doc.state) :
    Whole Y needs s' stage proc := by
  cases proc with
  | tailRead seen tail =>
    exact Set.Subset.trans h (Causal.integrated_mono (Set.union_subset_union_left _ hstate))
  | _ => exact h

/-- Only a process that records an update inserts one. -/
lemma Whole.restage (h : Whole Y needs s stage proc)
    (hstage : ∀ update, stage ≠ .recording update) :
    Whole Y needs s stage' proc := by
  cases proc with
  | inserting bytes => exact absurd h (hstage bytes)
  | _ => exact h

lemma whole_insert (hG : NoGap Y needs s) {bytes : Bytes} {id : ℕ} {updates : Table}
    (hcontent : Y.contentOf bytes ⊆ Causal.integrated needs (recorded Y s ∪ Y.contentOf bytes))
    (h : s.doc.updates.insert id bytes = some updates) :
    NoGap Y needs
      { s with doc := { s.doc with updates := updates }, log := (id, bytes) :: s.log } := by
  have hlog : Store.contentOfLog Y ((id, bytes) :: s.log) =
      recorded Y s ∪ Y.contentOf bytes := by
    simp [recorded, Store.contentOfLog, Set.union_comm]
  refine ⟨?_, fun r hr => ?_⟩
  · show Causal.SelfContained needs (Store.contentOfLog Y ((id, bytes) :: s.log))
    rw [hlog]
    refine Set.union_subset (hG.recorded.trans ?_) hcontent
    exact Causal.integrated_mono Set.subset_union_left
  · rcases (Table.mem_insert h).1 hr with hr | rfl
    · exact hG.clean r hr
    · rfl

lemma noGap_commit (hY : Y.Crdt needs refused) (hG : NoGap Y needs s) {state : Option Bytes}
    {rows : List Row} {lock : Option ℕ}
    (hwhole : Causal.SelfContained needs (Y.contentOf? state ∪ Y.contentOfRows rows))
    {c : Compaction} (h : Y.compaction state rows = some c) :
    NoGap Y needs { s with doc := s.doc.commit c, lock := lock } := by
  refine ⟨hG.recorded, fun r hr => ?_⟩
  have hrow : r ∈ (s.doc.updates.deleteAll c.deleted).rows := by
    simpa [Document.commit, marked_compaction hY hwhole h] using hr
  exact hG.clean r (Table.mem_deleteAll.1 hrow).1

/-- The rows that a compaction reads, with the state, are all that is recorded. -/
lemma whole_readRows (hI : Store.SharedInv Y needs refused s) (hG : NoGap Y needs s)
    {rows : List Row} (hperm : rows.Perm s.doc.updates.rows) (job : Option Bytes) :
    Whole Y needs s stage (.compacting job s.doc.state rows) := by
  show Causal.SelfContained needs (Y.contentOf? s.doc.state ∪ Y.contentOfRows rows)
  rw [contentOfRows_perm hperm, ← recorded_eq hI]
  exact hG.recorded

/-- So are those that a load reads. -/
lemma whole_readTail (hI : Store.SharedInv Y needs refused s) (hG : NoGap Y needs s)
    {rows : List Row} (hperm : rows.Perm s.doc.updates.rows) (seen : List (ℕ × Bytes)) :
    Whole Y needs s stage (.tailRead seen (rows.map Row.payload)) := by
  have htail : contentOfAll Y (rows.map Row.payload) = Y.contentOfRows s.doc.updates.rows := by
    rw [← contentOfRows_perm hperm, contentOfRows_eq]
    rfl
  show contentOfAll Y (rows.map Row.payload) ⊆ Causal.integrated needs (_ ∪ _)
  rw [htail, ← recorded_eq hI]
  refine Set.Subset.trans ?_ hG.recorded
  rw [recorded_eq hI]
  exact Set.subset_union_right

/-- A snapshot read after the tail has what the tail is missing. -/
lemma whole_readSnapshot (hY : Y.Crdt needs refused) (hI : Store.SharedInv Y needs refused s)
    {seen : List (ℕ × Bytes)} {tail : List Bytes} {result : Option Bytes}
    (hW : Whole Y needs s stage (.tailRead seen tail))
    (hres : Y.loadState tail s.doc.state = some result) :
    Whole Y needs s stage' (.loaded seen result) := by
  show Causal.SelfContained needs (Y.contentOf? result)
  rw [contentOf_loadState hY hres]
  exact Set.union_subset (hI.state_selfContained.subset_integrated Set.subset_union_left) hW

/-- A statement of the store, other than the start of an append, leaves no gap. -/
lemma noGap_step (hY : Y.Crdt needs refused) (hI : Store.SharedInv Y needs refused s)
    (hA : Store.Asserts Y s p proc) (hstage : StageAsserts Y needs s proc stage)
    (hG : NoGap Y needs s) (hW : Whole Y needs s stage proc) {a : Store.Action}
    (ha : ∀ bytes, a ≠ .append bytes)
    (h : Store.step Y compactEvery p s proc a = some (s', proc')) :
    NoGap Y needs s' ∧ Whole Y needs s' stage' proc' := by
  cases a with
  | append bytes => exact absurd rfl (ha bytes)
  | insert id =>
    cases proc with
    | inserting bytes =>
      obtain ⟨updates, hins, heq⟩ := Option.map_eq_some_iff.1 h
      obtain ⟨rfl, rfl⟩ := Prod.mk.inj heq
      obtain rfl : stage = .recording bytes := hW
      exact ⟨whole_insert hG hstage.2 hins, trivial⟩
    | _ => simp [Store.step] at h
  | count =>
    cases proc with
    | counting bytes =>
      simp only [Store.step] at h
      split at h <;> obtain ⟨rfl, rfl⟩ := Prod.mk.inj (Option.some.inj h) <;> exact ⟨hG, trivial⟩
    | _ => simp [Store.step] at h
  | compact =>
    rw [Store.step_compact, Option.ite_none_right_eq_some] at h
    obtain ⟨rfl, rfl⟩ := Prod.mk.inj (Option.some.inj h.2)
    exact ⟨hG, trivial⟩
  | lock =>
    cases proc with
    | locking job =>
      rw [Store.step, Option.ite_none_right_eq_some] at h
      obtain ⟨rfl, rfl⟩ := Prod.mk.inj (Option.some.inj h.2)
      exact ⟨⟨hG.recorded, hG.clean⟩, trivial⟩
    | _ => simp [Store.step] at h
  | readRows rows =>
    cases proc with
    | locked job state =>
      rw [Store.step, Option.ite_none_right_eq_some] at h
      obtain ⟨hperm, h⟩ := h
      obtain ⟨rfl, rfl⟩ := Prod.mk.inj (Option.some.inj h)
      obtain ⟨-, -, rfl⟩ := hA
      exact ⟨hG, whole_readRows hI hG hperm job⟩
    | _ => simp [Store.step] at h
  | commit =>
    cases proc with
    | compacting job state rows =>
      simp only [Store.step] at h
      split at h
      · rename_i c hc
        obtain ⟨rfl, rfl⟩ := Prod.mk.inj (Option.some.inj h)
        exact ⟨noGap_commit hY hG hW hc, trivial⟩
      · obtain ⟨rfl, rfl⟩ := Prod.mk.inj (Option.some.inj h)
        exact ⟨⟨hG.recorded, hG.clean⟩, trivial⟩
    | _ => simp [Store.step] at h
  | load =>
    rw [Store.step_load, Option.ite_none_right_eq_some] at h
    obtain ⟨rfl, rfl⟩ := Prod.mk.inj (Option.some.inj h.2)
    exact ⟨hG, trivial⟩
  | readTail rows =>
    cases proc with
    | loading seen =>
      rw [Store.step, Option.ite_none_right_eq_some] at h
      obtain ⟨hperm, h⟩ := h
      obtain ⟨rfl, rfl⟩ := Prod.mk.inj (Option.some.inj h)
      exact ⟨hG, whole_readTail hI hG hperm seen⟩
    | _ => simp [Store.step] at h
  | readSnapshot =>
    cases proc with
    | tailRead seen tail =>
      simp only [Store.step] at h
      split at h
      · rename_i result hres
        obtain ⟨rfl, rfl⟩ := Prod.mk.inj (Option.some.inj h)
        exact ⟨hG, whole_readSnapshot hY hI hW hres⟩
      · obtain ⟨rfl, rfl⟩ := Prod.mk.inj (Option.some.inj h)
        exact ⟨hG, trivial⟩
    | _ => simp [Store.step] at h
  | crash =>
    rw [Store.step_crash] at h
    obtain ⟨rfl, rfl⟩ := Prod.mk.inj (Option.some.inj h)
    exact ⟨⟨hG.recorded, hG.clean⟩, trivial⟩

end

section

variable {Y : Yrs} {needs : Piece → Piece → Prop} {refused : Piece → Prop} {compactEvery p : ℕ}
  {W : Type} {write : Y.Doc → W → Option (Bytes × Y.Doc)} {g g' : Shared} {l l' : Local Y}

lemma noGap_storeStep (hY : Y.Crdt needs refused) (hI : SharedInv Y needs refused g)
    (hA : Asserts Y needs g p l) (hG : NoGap Y needs g.store)
    (hW : Whole Y needs g.store l.stage l.store) {a : Store.Action} {stage : Stage Y}
    (ha : ∀ bytes, a ≠ .append bytes)
    (h : storeStep Y compactEvery p g l a stage = some (g', l')) :
    NoGap Y needs g'.store ∧ Whole Y needs g'.store l'.stage l'.store := by
  obtain ⟨⟨s', proc'⟩, hs, heq⟩ := Option.map_eq_some_iff.1 h
  obtain ⟨rfl, rfl⟩ := Prod.mk.inj heq
  exact noGap_step hY hI.store hA.1 hA.2 hG hW ha hs

/-- The end of a block starts an append, and only of the block's update. -/
lemma noGap_leave (hG : NoGap Y needs g.store) {proc : Store.Proc} {doc : Y.Doc}
    {unsent : List Bytes} (hW : Whole Y needs g.store (.block doc unsent) proc)
    (h : leave Y compactEvery p g ⟨proc, .block doc unsent⟩ unsent = some (g', l')) :
    NoGap Y needs g'.store ∧ Whole Y needs g'.store l'.stage l'.store := by
  unfold leave at h
  split at h
  · obtain ⟨rfl, rfl⟩ := Prod.mk.inj (Option.some.inj h)
    exact ⟨hG, hW.restage (by simp)⟩
  · split at h
    · rename_i update _
      obtain ⟨⟨s', proc'⟩, hs, heq⟩ := Option.map_eq_some_iff.1 h
      obtain ⟨rfl, rfl⟩ := Prod.mk.inj heq
      rw [Store.step_append, Option.ite_none_right_eq_some] at hs
      obtain ⟨rfl, rfl⟩ := Prod.mk.inj (Option.some.inj hs.2)
      exact ⟨⟨hG.recorded, hG.clean⟩, rfl⟩
    · obtain ⟨rfl, rfl⟩ := Prod.mk.inj (Option.some.inj h)
      exact ⟨hG, hW.restage (by simp)⟩

/-- A step that is no foreign append leaves no gap. -/
lemma noGap_act (hY : Y.Crdt needs refused) (hI : SharedInv Y needs refused g)
    (hA : Asserts Y needs g p l) (hG : NoGap Y needs g.store)
    (hW : Whole Y needs g.store l.stage l.store) {a : Action W} (ha : a.isAppend = false)
    (h : step Y compactEvery write p g l a = some (g', l')) :
    NoGap Y needs g'.store ∧ Whole Y needs g'.store l'.stage l'.store := by
  obtain ⟨proc, stage⟩ := l
  cases a with
  | store a =>
    have hown : ∀ bytes, a ≠ .append bytes := by
      rintro bytes rfl
      simp [Action.isAppend] at ha
    cases stage with
    | block doc unsent => simp [step] at h
    | broadcasting update => simp [step] at h
    | _ => exact noGap_storeStep hY hI hA hG hW hown h
  | edit =>
    simp only [step, Option.ite_none_right_eq_some] at h
    exact noGap_storeStep hY hI hA hG hW (by simp) h.2
  | write w =>
    cases stage with
    | block doc unsent =>
      simp only [step] at h
      split at h <;> obtain ⟨rfl, rfl⟩ := Prod.mk.inj (Option.some.inj h) <;>
        exact ⟨hG, hW.restage (by simp)⟩
    | _ => simp [step] at h
  | leave =>
    cases stage with
    | block doc unsent => exact noGap_leave hG hW h
    | _ => simp [step] at h
  | broadcast =>
    cases stage with
    | broadcasting update =>
      obtain ⟨rfl, rfl⟩ := Prod.mk.inj (Option.some.inj h)
      exact ⟨hG, hW.restage (by simp)⟩
    | _ => simp [step] at h
  | raise =>
    cases stage with
    | block doc unsent =>
      obtain ⟨rfl, rfl⟩ := Prod.mk.inj (Option.some.inj h)
      exact ⟨hG, hW.restage (by simp)⟩
    | broadcasting update =>
      obtain ⟨rfl, rfl⟩ := Prod.mk.inj (Option.some.inj h)
      exact ⟨hG, hW.restage (by simp)⟩
    | _ => simp [step] at h

/-- The invariant of the system of edits. -/
abbrev EditsInv (Y : Yrs) (needs : Piece → Piece → Prop) (refused : Piece → Prop) (c : Cfg Y) :
    Prop :=
  Inv (fun g => SharedInv Y needs refused g ∧ NoGap Y needs g.store)
    (fun g p l => Asserts Y needs g p l ∧ Whole Y needs g.store l.stage l.store) c

lemma editsInv_init : EditsInv Y needs refused (init Y) := by
  have hc : CfgInv Y needs refused (init Y) := cfgInv_init
  refine ⟨⟨hc.shared, ?_, by simp [init, Table.empty]⟩, fun p => ⟨hc.locals p, trivial⟩⟩
  simpa [init, recorded, Store.contentOfLog] using Causal.selfContained_empty

lemma editsInv_run (hY : Y.Crdt needs refused) (hmerge : Y.MergeIsUnion)
    (hwrite : LocalWrites Y write) {as : List (ℕ × Action W)} {c : Cfg Y}
    (h : run (edits Y compactEvery write).act (init Y) as = some c) :
    EditsInv Y needs refused c := by
  have hstable : ∀ (p q : ℕ) (g g' : Shared) (l : Local Y), q ≠ p → Guarantee Y p g g' →
      Asserts Y needs g q l ∧ Whole Y needs g.store l.stage l.store →
      Asserts Y needs g' q l ∧ Whole Y needs g'.store l.stage l.store := by
    rintro p q g g' l hq hG ⟨hA, hW⟩
    exact ⟨asserts_stable hq hG hA, hW.mono hG.store.state⟩
  refine Inv.run ?_ hstable editsInv_init h
  rintro p g l a g' l' ⟨hI, hG⟩ ⟨hA, hW⟩ hs
  obtain ⟨ha, hs⟩ := Option.ite_none_left_eq_some.1 hs
  have hsound := sound_step hY hmerge hwrite hI hA hs
  have hgap := noGap_act hY hI hA hG hW (by simpa using ha) hs
  exact ⟨⟨hsound.shared, hgap.1⟩, ⟨hsound.asserts, hgap.2⟩, hsound.guarantee⟩

/-- **Edits alone leave no gap.**  While nothing but edits writes to the store, everything that is
recorded has what it builds on, no row waits for anything, and no document that is loaded has
anything pending, however many processes edit, load and compact at once and wherever they crash. -/
theorem edits_leave_no_gap (hY : Y.Crdt needs refused) (hmerge : Y.MergeIsUnion)
    (hwrite : LocalWrites Y write) {as : List (ℕ × Action W)} {c : Cfg Y}
    (h : run (edits Y compactEvery write).act (init Y) as = some c) :
    Causal.SelfContained needs (recorded Y c.shared.store) ∧
      (∀ r ∈ c.shared.store.doc.updates.rows, r.pending = false) ∧
      ∀ p seen result, (c.locals p).store = .loaded seen result →
        ∀ doc ∈ Y.applyOptional Y.new result, Y.hasPending doc = false := by
  have hc := editsInv_run hY hmerge hwrite h
  refine ⟨hc.shared.2.recorded, hc.shared.2.clean, fun p seen result hp doc hdoc => ?_⟩
  have hloaded := (hc.locals p).2
  rw [hp] at hloaded
  have hheld : Y.held doc = Y.contentOf? result := by
    rw [held_applyOptional hY hdoc, hY.held_new, Set.empty_union]
  rw [hasPending_eq_false_iff hY, hY.parked_eq_empty_iff, hheld]
  exact hloaded

end

section

open Reference

/-- A block writes the next block of client 1. -/
def nextBlock (doc : Reference.Doc) (_ : Unit) : Option (Bytes × Reference.Doc) :=
  let block := Piece.block ⟨1, firstMissing doc 1⟩
  some (encodePieces [block], doc ++ [block])

lemma contentOf_encodePieces (ps : List Piece) :
    (Reference.engine []).contentOf (encodePieces ps) = {a | a ∈ ps} := by
  have hdecode := decodeUpdate_encodePieces ps
  rw [Yrs.contentOf_of_decode (Y := Reference.engine []) hdecode, content_encodePieces hdecode]

lemma held_engine (doc : Reference.Doc) : (Reference.engine []).held doc = {a | a ∈ doc} :=
  @held_engineOf isIntegrated (· ++ ·) [] needs (fun _ _ => isIntegrated_iff) doc

lemma localWrites_nextBlock : LocalWrites (Reference.engine []) nextBlock where
  held := by
    intro doc doc' w update h
    obtain ⟨rfl, rfl⟩ := Prod.mk.inj (Option.some.inj h)
    rw [contentOf_encodePieces, held_engine, held_engine]
    ext a
    simp [or_comm]
  visible := by
    intro doc doc' w update h
    obtain ⟨rfl, rfl⟩ := Prod.mk.inj (Option.some.inj h)
    rw [contentOf_encodePieces]
    intro a ha
    obtain rfl := List.mem_singleton.1 ha
    -- every earlier clock of the client is there
    refine hasPrefix_iff.2 fun k hk => ?_
    rcases Nat.lt_or_eq_of_le hk with hk | rfl
    · exact List.mem_append_left _ ((firstMissing_spec doc 1).2 k hk)
    · exact List.mem_append_right _ (List.mem_singleton_self _)

/-- Process 0 edits a new document. -/
def editActions : List (ℕ × Action Unit) :=
  [(0, .edit), (0, .store (.readTail [])), (0, .store .readSnapshot), (0, .write ()), (0, .leave),
    (0, .store (.insert 1)), (0, .store .count), (0, .broadcast)]

/-- Process 1 loads it. -/
def loadActions : List (ℕ × Action Unit) :=
  [(1, .store .load), (1, .store (.readTail [⟨1, encodePieces [.block ⟨1, 0⟩], false⟩])),
    (1, .store .readSnapshot)]

/-- The update of the edit, and the document that process 1 opens. -/
theorem edit_visible_nextBlock :
    ∃ c c' seen result, run (system (Reference.engine []) 100 nextBlock).act
        (init (Reference.engine [])) editActions = some c ∧
      (c.locals 0).stage = .returned (some (encodePieces [.block ⟨1, 0⟩])) ∧
      run (system (Reference.engine []) 100 nextBlock).act c loadActions = some c' ∧
      (c'.locals 1).store = .loaded seen (some result) ∧
      ∀ doc ∈ (Reference.engine []).applyOptional [] (some result),
        (Reference.engine []).contentOf (encodePieces [.block ⟨1, 0⟩]) ⊆
          (Reference.engine []).integrated doc := by
  refine ⟨_, _, _, _, rfl, rfl, rfl, rfl, ?_⟩
  exact (edit_visible (crdt []) (mergeIsUnion []) localWrites_nextBlock
    (show run (system (Reference.engine []) 100 nextBlock).act (init (Reference.engine []))
      editActions = some _ from rfl) (.inr ⟨0, rfl⟩)).2 loadActions _ rfl 1 _ _ rfl
      (List.Subset.refl _)

/-- Process 1 loads what process 0 wrote. -/
theorem edits_leave_no_gap_nextBlock :
    ∃ c seen result, run (edits (Reference.engine []) 100 nextBlock).act
        (init (Reference.engine [])) (editActions ++ loadActions) = some c ∧
      (c.locals 1).store = .loaded seen (some result) ∧
      ∀ doc ∈ (Reference.engine []).applyOptional [] (some result),
        (Reference.engine []).hasPending doc = false := by
  refine ⟨_, _, _, rfl, rfl, ?_⟩
  exact (edits_leave_no_gap (crdt []) (mergeIsUnion []) localWrites_nextBlock
    (show run (edits (Reference.engine []) 100 nextBlock).act (init (Reference.engine []))
      (editActions ++ loadActions) = some _ from rfl)).2.2 1 _ _ rfl

end

end Yrby.Attribute
