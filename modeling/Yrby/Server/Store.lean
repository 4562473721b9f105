import Yrby.Server.Document
import Yrby.Framework.Interleaving

/-!
# The document store under concurrency and crashes

Any number of processes run `append`, `compact!` and `load_state` on one document.  A step is
one database statement: the insert of a row, the count of the clean rows, taking the row lock
(which reloads the state column), reading the rows, the commit of a compaction as a whole, and
the two reads of `load_state`.  Between any two statements any other process may run, and a
process may crash, which rolls its transaction back and frees its lock.  Reads return the rows
in any order, and the database picks the ids.

Three things in the shared state are not in the database.  `supplied` lists what `append` was
called with, `log` the rows whose insert has committed, and `lock` is the owner of the row lock.
A load remembers as `seen` the log at the moment it began.

The proof is by rely and guarantee.  `SharedInv` says that every committed row is in the table or
contained in the state column, `Asserts` what each process knows at each of its statements, and
`Guarantee` what a step may do to the others: the log and the content of the state column only
grow, and whoever holds the lock is the only one to touch the state column and existing rows.
-/

namespace Yrby.Store

open Wire Interleaving Transition Yrs

structure Shared where
  doc : Document := {}
  lock : Option ℕ := none
  supplied : List Bytes := []
  log : List (ℕ × Bytes) := []

/-- Where a process is.  `job` is what `append` was called with, when the compaction is the one
an `append` triggered. -/
inductive Proc
  | idle
  | inserting (bytes : Bytes)
  | counting (bytes : Bytes)
  | locking (job : Option Bytes)
  | locked (job : Option Bytes) (state : Option Bytes)
  | compacting (job : Option Bytes) (state : Option Bytes) (rows : List Row)
  | returned (job : Option Bytes)
  | loading (seen : List (ℕ × Bytes))
  | tailRead (seen : List (ℕ × Bytes)) (tail : List Bytes)
  | loaded (seen : List (ℕ × Bytes)) (result : Option Bytes)
  | raised

inductive Action
  | append (bytes : Bytes)
  | insert (id : ℕ)
  | count
  | compact
  | lock
  | readRows (rows : List Row)
  | commit
  | load
  | readTail (rows : List Row)
  | readSnapshot
  /-- An exception or a crash, at any point. -/
  | crash

/-- The process is not in the middle of a call. -/
def Proc.isDone : Proc → Bool
  | .idle | .returned _ | .loaded _ _ | .raised => true
  | _ => false

/-- The lock once process `p` no longer holds it. -/
def release (p : ℕ) (lock : Option ℕ) : Option ℕ := if lock = some p then none else lock

variable (Y : Yrs) (compactEvery : ℕ)

/-- One statement of process `p`. -/
def step (p : ℕ) (g : Shared) : Proc → Action → Option (Shared × Proc)
  | l, .append bytes =>
      if l.isDone then some ({ g with supplied := bytes :: g.supplied }, .inserting bytes) else none
  | .inserting bytes, .insert id =>
      (g.doc.updates.insert id bytes).map fun updates =>
        ({ g with doc := { g.doc with updates := updates }, log := (id, bytes) :: g.log },
          .counting bytes)
  | .counting bytes, .count =>
      if compactEvery ≤ g.doc.updates.cleanCount then some (g, .locking (some bytes))
      else some (g, .returned (some bytes))
  | l, .compact => if l.isDone then some (g, .locking none) else none
  | .locking job, .lock =>
      if g.lock = none then some ({ g with lock := some p }, .locked job g.doc.state) else none
  | .locked job state, .readRows rows =>
      if rows.Perm g.doc.updates.rows then some (g, .compacting job state rows) else none
  | .compacting job state rows, .commit =>
      match Y.compaction state rows with
      | some c =>
          some ({ g with doc := g.doc.commit c, lock := release p g.lock }, .returned job)
      | none => some ({ g with lock := release p g.lock }, .raised)
  | l, .load => if l.isDone then some (g, .loading g.log) else none
  | .loading seen, .readTail rows =>
      if rows.Perm g.doc.updates.rows then some (g, .tailRead seen (rows.map Row.payload)) else none
  | .tailRead seen tail, .readSnapshot =>
      match Y.loadState tail g.doc.state with
      | some result => some (g, .loaded seen result)
      | none => some (g, .raised)
  | _, .crash => some ({ g with lock := release p g.lock }, .raised)
  | _, _ => none

/-- The store as a system of processes. -/
def system : System Shared Proc Action := ⟨step Y compactEvery⟩

abbrev Cfg := Config Shared Proc

/-- A new document that no process works on. -/
def init : Cfg := ⟨{}, fun _ => .idle⟩

/-- The content of a list of logged rows. -/
def contentOfLog (log : List (ℕ × Bytes)) : Set Piece := ⋃ e ∈ log, Y.contentOf e.2

/-- The row of a log entry is in the table. -/
def InTable (d : Document) (e : ℕ × Bytes) : Prop :=
  ∃ r ∈ d.updates.rows, r.id = e.1 ∧ r.payload = e.2

variable (needs : Piece → Piece → Prop) (refused : Piece → Prop)

/-- What holds of the database between any two statements. -/
structure SharedInv (g : Shared) : Prop where
  /-- A committed row is in the table, or the state column contains it. -/
  kept : ∀ e ∈ g.log, InTable g.doc e ∨ Y.contentOf e.2 ⊆ Y.contentOf? g.doc.state
  rows_logged : ∀ r ∈ g.doc.updates.rows, (r.id, r.payload) ∈ g.log
  state_logged : Y.contentOf? g.doc.state ⊆ contentOfLog Y g.log
  log_supplied : ∀ e ∈ g.log, e.2 ∈ g.supplied
  state_selfContained : Causal.SelfContained needs (Y.contentOf? g.doc.state)
  state_decodes : ∀ b ∈ g.doc.state, (Y.decodeUpdate b).isSome
  state_accepted : Accepts needs refused (Y.contentOf? g.doc.state)

/-- The row an `append` inserted has committed. -/
def Logged (g : Shared) (job : Option Bytes) : Prop := ∀ b ∈ job, ∃ id, (id, b) ∈ g.log

/-- What process `p` knows about the database where it is. -/
def Asserts (g : Shared) (p : ℕ) : Proc → Prop
  | .idle | .raised => True
  | .inserting bytes => bytes ∈ g.supplied
  | .counting bytes => Logged g (some bytes)
  | .locking job | .returned job => Logged g job
  | .locked job state => Logged g job ∧ g.lock = some p ∧ state = g.doc.state
  | .compacting job state rows =>
      Logged g job ∧ g.lock = some p ∧ state = g.doc.state ∧ rows ⊆ g.doc.updates.rows
  | .loading seen => seen ⊆ g.log
  | .tailRead seen tail =>
      (∀ e ∈ seen, e.2 ∈ tail ∨ Y.contentOf e.2 ⊆ Y.contentOf? g.doc.state) ∧
        ∀ b ∈ tail, ∃ id, (id, b) ∈ g.log
  | .loaded seen result =>
      (∀ e ∈ seen, Y.contentOf e.2 ⊆ Y.contentOf? result) ∧
        Y.contentOf? result ⊆ contentOfLog Y g.log

/-- How a step of process `p` may change the database. -/
structure Guarantee (p : ℕ) (g g' : Shared) : Prop where
  log : g.log ⊆ g'.log
  supplied : g.supplied ⊆ g'.supplied
  state : Y.contentOf? g.doc.state ⊆ Y.contentOf? g'.doc.state
  locked : ∀ q, q ≠ p → g.lock = some q →
    g'.lock = some q ∧ g'.doc.state = g.doc.state ∧ g.doc.updates.rows ⊆ g'.doc.updates.rows

/-- What has to be shown of a step of process `p` from `g`. -/
structure Sound (p : ℕ) (g g' : Shared) (l' : Proc) : Prop where
  shared : SharedInv Y needs refused g'
  asserts : Asserts Y g' p l'
  guarantee : Guarantee Y p g g'

variable {Y compactEvery needs refused} {p : ℕ} {g g' : Shared} {l l' : Proc}

/-! ## Calls begin anywhere, crashes happen anywhere -/

lemma step_append (bytes : Bytes) :
    step Y compactEvery p g l (.append bytes) =
      if l.isDone then some ({ g with supplied := bytes :: g.supplied }, .inserting bytes)
      else none := by
  cases l <;> rfl

lemma step_compact :
    step Y compactEvery p g l .compact = if l.isDone then some (g, .locking none) else none := by
  cases l <;> rfl

lemma step_load :
    step Y compactEvery p g l .load = if l.isDone then some (g, .loading g.log) else none := by
  cases l <;> rfl

lemma step_crash :
    step Y compactEvery p g l .crash = some ({ g with lock := release p g.lock }, .raised) := by
  cases l <;> rfl

/-- The log at the beginning of the load that the process is in, or has finished. -/
def Proc.seen? : Proc → Option (List (ℕ × Bytes))
  | .loading seen | .tailRead seen _ | .loaded seen _ => some seen
  | _ => none

/-- Only the beginning of a load sets what it remembers. -/
lemma seen_of_step {a : Action} (h : step Y compactEvery p g l a = some (g', l'))
    {seen : List (ℕ × Bytes)} (hseen : l'.seen? = some seen) :
    (a = .load ∧ seen = g.log) ∨ (a ≠ .load ∧ l.seen? = some seen) := by
  cases a with
  | load =>
      rw [step_load, Option.ite_none_right_eq_some] at h
      obtain ⟨rfl, rfl⟩ := Prod.mk.inj (Option.some.inj h.2)
      exact .inl ⟨rfl, (Option.some.inj hseen).symm⟩
  | append bytes =>
      rw [step_append, Option.ite_none_right_eq_some] at h
      obtain ⟨-, rfl⟩ := Prod.mk.inj (Option.some.inj h.2)
      simp [Proc.seen?] at hseen
  | compact =>
      rw [step_compact, Option.ite_none_right_eq_some] at h
      obtain ⟨-, rfl⟩ := Prod.mk.inj (Option.some.inj h.2)
      simp [Proc.seen?] at hseen
  | crash =>
      rw [step_crash] at h
      obtain ⟨-, rfl⟩ := Prod.mk.inj (Option.some.inj h)
      simp [Proc.seen?] at hseen
  | _ =>
      -- the other statements belong to one place in a process each
      refine .inr ⟨by simp, ?_⟩
      cases l <;> simp only [step, Option.map_eq_some_iff, reduceCtorEq] at h
      grind [Proc.seen?]

/-! ## Rely and guarantee -/

lemma Guarantee.refl (p : ℕ) (g : Shared) : Guarantee Y p g g :=
  ⟨List.Subset.refl _, List.Subset.refl _, subset_rfl, fun _ _ h => ⟨h, rfl, List.Subset.refl _⟩⟩

lemma contentOfLog_mono {xs ys : List (ℕ × Bytes)} (h : xs ⊆ ys) :
    contentOfLog Y xs ⊆ contentOfLog Y ys :=
  Set.biUnion_subset_biUnion_left fun _ he => h he

lemma contentOf_subset_contentOfLog {log : List (ℕ × Bytes)} {e : ℕ × Bytes} (he : e ∈ log) :
    Y.contentOf e.2 ⊆ contentOfLog Y log :=
  Set.subset_iUnion₂ (s := fun (e : ℕ × Bytes) (_ : e ∈ log) => Y.contentOf e.2) e he

lemma Logged.mono {job : Option Bytes} (h : Logged g job) (hlog : g.log ⊆ g'.log) :
    Logged g' job := by
  intro b hb
  obtain ⟨id, hid⟩ := h b hb
  exact ⟨id, hlog hid⟩

/-- What a process knows survives the steps of the others. -/
lemma asserts_stable {q : ℕ} (hq : q ≠ p) (hG : Guarantee Y p g g') (h : Asserts Y g q l) :
    Asserts Y g' q l := by
  cases l with
  | idle | raised => trivial
  | inserting bytes => exact hG.supplied h
  | counting bytes => exact Logged.mono h hG.log
  | locking job | returned job => exact Logged.mono h hG.log
  | locked job state =>
      obtain ⟨hjob, hlock, hstate⟩ := h
      obtain ⟨hlock', hstate', -⟩ := hG.locked q hq hlock
      exact ⟨hjob.mono hG.log, hlock', hstate.trans hstate'.symm⟩
  | compacting job state rows =>
      obtain ⟨hjob, hlock, hstate, hrows⟩ := h
      obtain ⟨hlock', hstate', hrows'⟩ := hG.locked q hq hlock
      exact ⟨hjob.mono hG.log, hlock', hstate.trans hstate'.symm, List.Subset.trans hrows hrows'⟩
  | loading seen => exact List.Subset.trans h hG.log
  | tailRead seen tail =>
      obtain ⟨hseen, htail⟩ := h
      refine ⟨fun e he => (hseen e he).imp_right fun hsub => hsub.trans hG.state, fun b hb => ?_⟩
      obtain ⟨id, hid⟩ := htail b hb
      exact ⟨id, hG.log hid⟩
  | loaded seen result =>
      obtain ⟨hseen, hresult⟩ := h
      exact ⟨hseen, hresult.trans (contentOfLog_mono hG.log)⟩

/-! ## The statements -/

/-- A step that leaves the shared state alone. -/
lemma Sound.local (hI : SharedInv Y needs refused g) (hA : Asserts Y g p l') :
    Sound Y needs refused p g g l' :=
  ⟨hI, hA, Guarantee.refl p g⟩

/-- Ending a transaction without writing anything. -/
lemma sound_release (hI : SharedInv Y needs refused g) :
    Sound Y needs refused p g { g with lock := release p g.lock } .raised := by
  refine ⟨{ hI with }, trivial, List.Subset.refl _, List.Subset.refl _, subset_rfl, ?_⟩
  intro q hq hlock
  have hne : g.lock ≠ some p := by simpa [hlock] using hq
  exact ⟨by simpa [release, hne] using hlock, rfl, List.Subset.refl _⟩

lemma sound_append (hI : SharedInv Y needs refused g) (bytes : Bytes) :
    Sound Y needs refused p g { g with supplied := bytes :: g.supplied } (.inserting bytes) := by
  refine ⟨{ hI with log_supplied := fun e he => ?_ }, List.mem_cons_self, ?_⟩
  · exact List.mem_cons_of_mem _ (hI.log_supplied e he)
  · exact ⟨List.Subset.refl _, List.subset_cons_self _ _, subset_rfl,
      fun _ _ h => ⟨h, rfl, List.Subset.refl _⟩⟩

/-- The insert: from here on the row counts as committed. -/
lemma sound_insert (hI : SharedInv Y needs refused g) {bytes : Bytes} (hA : bytes ∈ g.supplied)
    {id : ℕ} {updates : Table} (h : g.doc.updates.insert id bytes = some updates) :
    Sound Y needs refused p g
      { g with doc := { g.doc with updates := updates }, log := (id, bytes) :: g.log }
      (.counting bytes) := by
  have hmem := fun r => Table.mem_insert h (r := r)
  have hnew : (⟨id, bytes, false⟩ : Row) ∈ updates.rows := (hmem _).2 (.inr rfl)
  have hlog : g.log ⊆ (id, bytes) :: g.log := List.subset_cons_self _ _
  refine ⟨{ hI with kept := ?_, rows_logged := ?_, state_logged := ?_, log_supplied := ?_ }, ?_, ?_⟩
  · intro e he
    rcases List.mem_cons.1 he with rfl | he
    · exact .inl ⟨_, hnew, rfl, rfl⟩
    · rcases hI.kept e he with ⟨r, hr, hid⟩ | hsub
      · exact .inl ⟨r, (hmem r).2 (.inl hr), hid⟩
      · exact .inr hsub
  · intro r hr
    rcases (hmem r).1 hr with hr | rfl
    · exact hlog (hI.rows_logged r hr)
    · exact List.mem_cons_self
  · exact hI.state_logged.trans (contentOfLog_mono hlog)
  · intro e he
    rcases List.mem_cons.1 he with rfl | he
    · exact hA
    · exact hI.log_supplied e he
  · intro b hb
    obtain rfl := Option.some.inj hb
    exact ⟨id, List.mem_cons_self⟩
  · exact ⟨hlog, List.Subset.refl _, subset_rfl,
      fun _ _ hlock => ⟨hlock, rfl, fun r hr => (hmem r).2 (.inl hr)⟩⟩

/-- Taking the row lock, which reloads the state column. -/
lemma sound_lock (hI : SharedInv Y needs refused g) {job : Option Bytes} (hA : Logged g job)
    (hfree : g.lock = none) :
    Sound Y needs refused p g { g with lock := some p } (.locked job g.doc.state) := by
  refine ⟨{ hI with }, ⟨hA, rfl, rfl⟩, List.Subset.refl _, List.Subset.refl _, subset_rfl, ?_⟩
  intro q _ hlock
  simp [hfree] at hlock

/-- The commit of a compaction, computed from what was read since the lock was taken. -/
lemma sound_commit (hY : Y.Crdt needs refused) (hI : SharedInv Y needs refused g)
    {job state : Option Bytes} {rows : List Row} (hA : Asserts Y g p (.compacting job state rows))
    {c : Compaction} (h : Y.compaction state rows = some c) :
    Sound Y needs refused p g { g with doc := g.doc.commit c, lock := release p g.lock }
      (.returned job) := by
  obtain ⟨hjob, hlock, rfl, hrows⟩ := hA
  have hc := compacts_of_compaction hY (fun _ => hI.state_selfContained) h
  have hstate : Y.contentOf? g.doc.state ⊆ Y.contentOf? (g.doc.commit c).state :=
    hc.state_subset hI.state_selfContained
  have hread : Y.contentOf? g.doc.state ∪ Y.contentOfRows rows ⊆ contentOfLog Y g.log := by
    refine Set.union_subset hI.state_logged (contentOfRows_subset.2 fun r hr => ?_)
    exact contentOf_subset_contentOfLog (hI.rows_logged r (hrows hr))
  refine ⟨⟨?_, ?_, hc.content_subset.trans hread, hI.log_supplied, hc.selfContained, ?_, ?_⟩,
    hjob, ⟨List.Subset.refl _, List.Subset.refl _, hstate, ?_⟩⟩
  · intro e he
    rcases hI.kept e he with ⟨r, hr, hid, hpayload⟩ | hsub
    · rcases hc.row_commit hrows hr with hmem | hsub
      · exact .inl ⟨_, hmem, by simpa using hid, by simpa using hpayload⟩
      · exact .inr (hpayload ▸ hsub)
    · exact .inr (hsub.trans hstate)
  · intro q hq
    obtain ⟨r, hr, -, rfl⟩ := exists_row_of_mem_commit hq
    simpa using hI.rows_logged r hr
  · exact decodeUpdate_of_compaction hY hI.state_decodes h
  · exact accepts_of_compaction hY hI.state_accepted hI.state_selfContained h
  · intro q hq hlockq
    -- only the owner of the lock commits
    exact absurd (Option.some.inj (hlock.symm.trans hlockq)).symm hq

lemma asserts_readTail (hI : SharedInv Y needs refused g) {seen : List (ℕ × Bytes)}
    (hA : seen ⊆ g.log) {rows : List Row} (hrows : rows.Perm g.doc.updates.rows) :
    Asserts Y g p (.tailRead seen (rows.map Row.payload)) := by
  refine ⟨fun e he => ?_, fun b hb => ?_⟩
  · rcases hI.kept e (hA he) with ⟨r, hr, -, hpayload⟩ | hsub
    · exact .inl (List.mem_map.2 ⟨r, hrows.mem_iff.2 hr, hpayload⟩)
    · exact .inr hsub
  · obtain ⟨r, hr, rfl⟩ := List.mem_map.1 hb
    exact ⟨r.id, hI.rows_logged r (hrows.mem_iff.1 hr)⟩

/-- The second read of `load_state`: whatever left the tail before it was read is in a snapshot
read after it. -/
lemma asserts_readSnapshot (hY : Y.Crdt needs refused) (hI : SharedInv Y needs refused g)
    {seen : List (ℕ × Bytes)} {tail : List Bytes} (hA : Asserts Y g p (.tailRead seen tail))
    {result : Option Bytes} (h : Y.loadState tail g.doc.state = some result) :
    Asserts Y g p (.loaded seen result) := by
  obtain ⟨hseen, htail⟩ := hA
  have hcontent := contentOf_loadState hY h
  refine ⟨fun e he => ?_, ?_⟩
  · rw [hcontent]
    rcases hseen e he with hmem | hsub
    · exact Set.subset_union_of_subset_right
        (Set.subset_iUnion₂ (s := fun (b : Bytes) (_ : b ∈ tail) => Y.contentOf b) e.2 hmem) _
    · exact hsub.trans Set.subset_union_left
  · rw [hcontent]
    refine Set.union_subset hI.state_logged (Set.iUnion₂_subset fun b hb => ?_)
    obtain ⟨id, hid⟩ := htail b hb
    exact contentOf_subset_contentOfLog hid

/-- **Every statement is sound.** -/
theorem sound_step (hY : Y.Crdt needs refused) {a : Action} (hI : SharedInv Y needs refused g)
    (hA : Asserts Y g p l) (h : step Y compactEvery p g l a = some (g', l')) :
    Sound Y needs refused p g g' l' := by
  cases a with
  | append bytes =>
      rw [step_append, Option.ite_none_right_eq_some] at h
      obtain ⟨rfl, rfl⟩ := Prod.mk.inj (Option.some.inj h.2)
      exact sound_append hI bytes
  | insert id =>
      cases l with
      | inserting bytes =>
          obtain ⟨updates, hins, heq⟩ := Option.map_eq_some_iff.1 h
          obtain ⟨rfl, rfl⟩ := Prod.mk.inj heq
          exact sound_insert hI hA hins
      | _ => simp [step] at h
  | count =>
      cases l with
      | counting bytes =>
          simp only [step] at h
          split at h <;> obtain ⟨rfl, rfl⟩ := Prod.mk.inj (Option.some.inj h) <;>
            exact .local hI hA
      | _ => simp [step] at h
  | compact =>
      rw [step_compact, Option.ite_none_right_eq_some] at h
      obtain ⟨rfl, rfl⟩ := Prod.mk.inj (Option.some.inj h.2)
      exact .local hI (by simp [Asserts, Logged])
  | lock =>
      cases l with
      | locking job =>
          simp only [step] at h
          split at h
          · rename_i hfree
            obtain ⟨rfl, rfl⟩ := Prod.mk.inj (Option.some.inj h)
            exact sound_lock hI hA hfree
          · simp at h
      | _ => simp [step] at h
  | readRows rows =>
      cases l with
      | locked job state =>
          simp only [step] at h
          split at h
          · rename_i hperm
            obtain ⟨rfl, rfl⟩ := Prod.mk.inj (Option.some.inj h)
            obtain ⟨hjob, hlock, hstate⟩ := hA
            exact .local hI ⟨hjob, hlock, hstate, hperm.subset⟩
          · simp at h
      | _ => simp [step] at h
  | commit =>
      cases l with
      | compacting job state rows =>
          simp only [step] at h
          split at h
          · rename_i c hc
            obtain ⟨rfl, rfl⟩ := Prod.mk.inj (Option.some.inj h)
            exact sound_commit hY hI hA hc
          · obtain ⟨rfl, rfl⟩ := Prod.mk.inj (Option.some.inj h)
            exact sound_release hI
      | _ => simp [step] at h
  | load =>
      rw [step_load, Option.ite_none_right_eq_some] at h
      obtain ⟨rfl, rfl⟩ := Prod.mk.inj (Option.some.inj h.2)
      exact .local hI (List.Subset.refl _)
  | readTail rows =>
      cases l with
      | loading seen =>
          simp only [step] at h
          split at h
          · rename_i hperm
            obtain ⟨rfl, rfl⟩ := Prod.mk.inj (Option.some.inj h)
            exact .local hI (asserts_readTail hI hA hperm)
          · simp at h
      | _ => simp [step] at h
  | readSnapshot =>
      cases l with
      | tailRead seen tail =>
          simp only [step] at h
          split at h
          · rename_i result hres
            obtain ⟨rfl, rfl⟩ := Prod.mk.inj (Option.some.inj h)
            exact .local hI (asserts_readSnapshot hY hI hA hres)
          · obtain ⟨rfl, rfl⟩ := Prod.mk.inj (Option.some.inj h)
            exact .local hI trivial
      | _ => simp [step] at h
  | crash =>
      rw [step_crash] at h
      obtain ⟨rfl, rfl⟩ := Prod.mk.inj (Option.some.inj h)
      exact sound_release hI

/-! ## Runs -/

abbrev CfgInv (Y : Yrs) (needs : Piece → Piece → Prop) (refused : Piece → Prop) (c : Cfg) : Prop :=
  Inv (SharedInv Y needs refused) (Asserts Y) c

lemma cfgInv_init : CfgInv Y needs refused init := by
  refine ⟨⟨by simp [init], by simp [init, Table.empty], by simp [init], by simp [init],
    Causal.selfContained_empty, by simp [init], by simp [init]⟩, fun _ => trivial⟩

lemma cfgInv_act (hY : Y.Crdt needs refused) {c c' : Cfg} {pa : ℕ × Action}
    (hc : CfgInv Y needs refused c) (h : (system Y compactEvery).act c pa = some c') :
    CfgInv Y needs refused c' :=
  hc.act (fun _ _ _ _ _ _ hI hA hs =>
      ⟨(sound_step hY hI hA hs).shared, (sound_step hY hI hA hs).asserts,
        (sound_step hY hI hA hs).guarantee⟩)
    (fun _ _ _ _ _ hq hG hA => asserts_stable hq hG hA) h

/-- Committed rows stay in the log. -/
lemma log_subset_act (hY : Y.Crdt needs refused) {c c' : Cfg} {pa : ℕ × Action}
    (hc : CfgInv Y needs refused c) (h : (system Y compactEvery).act c pa = some c') :
    c.shared.log ⊆ c'.shared.log := by
  obtain ⟨g, l, hs, rfl⟩ := System.act_eq_some.1 h
  exact (sound_step hY hc.shared (hc.locals pa.1) hs).guarantee.log

lemma cfgInv_run (hY : Y.Crdt needs refused) {as : List (ℕ × Action)} {c : Cfg}
    (h : run (system Y compactEvery).act init as = some c) : CfgInv Y needs refused c :=
  run_invariant (fun _ _ _ hc h => cfgInv_act hY hc h) cfgInv_init h

/-- The store neither loses nor invents content. -/
structure Safe (Y : Yrs) (c : Cfg) : Prop where
  /-- A load returns everything committed before it began. -/
  complete : ∀ p seen result, c.locals p = .loaded seen result →
    ∀ e ∈ seen, Y.contentOf e.2 ⊆ Y.contentOf? result
  /-- A load returns nothing that no `append` was called with. -/
  sound : ∀ p seen result, c.locals p = .loaded seen result →
    Y.contentOf? result ⊆ ⋃ b ∈ c.shared.supplied, Y.contentOf b
  /-- A committed row is in the table unless the state column contains it. -/
  kept : ∀ e ∈ c.shared.log, InTable c.shared.doc e ∨
    Y.contentOf e.2 ⊆ Y.contentOf? c.shared.doc.state

/-- **The document store never loses or invents content**, in any interleaving of the statements
of any number of processes, with crashes between any two of them. -/
theorem store_safe (hY : Y.Crdt needs refused) {as : List (ℕ × Action)} {c : Cfg}
    (h : run (system Y compactEvery).act init as = some c) : Safe Y c := by
  have hc := cfgInv_run hY h
  refine ⟨fun p seen result hp => ?_, fun p seen result hp => ?_, hc.shared.kept⟩
  · have := hc.locals p
    rw [hp] at this
    exact this.1
  · have := hc.locals p
    rw [hp] at this
    refine this.2.trans (Set.iUnion₂_subset fun e he => ?_)
    exact Set.subset_iUnion₂ (s := fun (b : Bytes) (_ : b ∈ c.shared.supplied) => Y.contentOf b)
      e.2 (hc.shared.log_supplied e he)

/-- A run in which process 1 reads the tail before, and the snapshot after, process 0 compacts
its row away. -/
def raceActions : List (ℕ × Action) :=
  let row : Row := ⟨1, Reference.encodePieces [.block ⟨1, 0⟩], false⟩
  [(0, .append row.payload), (0, .insert 1), (1, .load), (0, .count), (1, .readTail [row]),
    (0, .lock), (0, .readRows [row]), (0, .commit), (1, .readSnapshot)]

/-- The run exists, the load returns, and the last state is safe. -/
theorem store_safe_race :
    ∃ c, run (system (Reference.engine []) 1).act init raceActions = some c ∧
      (∃ seen result, c.locals 1 = .loaded seen (some result)) ∧ Safe (Reference.engine []) c :=
  ⟨_, rfl, ⟨_, _, rfl⟩, store_safe (Reference.crdt [])
    (show run (system (Reference.engine []) 1).act init raceActions = some _ from rfl)⟩

end Yrby.Store
