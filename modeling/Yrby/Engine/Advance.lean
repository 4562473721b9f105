import Yrby.Engine.Readiness
import Mathlib.Data.List.TakeWhile

/-!
# Does an update change a document (`update_advances_doc`)

Nothing compares contents.  An update that carries deletions is judged by the bytes of the probe
before and after; one without by the two state vectors, and when they agree by whether anything is
pending before and after.  `Blind` collects the updates that slip through: new blocks that move
neither, such as blocks that park next to blocks parked earlier.

`update_advances_exact_iff` says that the promise of `update_advances_doc` fails on these alone.
For a ready update without internal gaps, on a document with nothing parked, the verdict is exact
(`advances_of_ready`): the first block the document lacks moves its state vector.
-/

namespace Yrby.Yrs

open Wire

/-- The blocks of a client in an update form one run, after any leading skips. -/
structure Gapless (u : Update) : Prop where
  clients : (u.clients.map Prod.fst).Nodup
  items : ∀ e ∈ u.clients, ∀ b ∈ e.2.dropWhile Carrier.isSkip, b.isSkip = false
  chain : ∀ e ∈ u.clients,
    (e.2.dropWhile Carrier.isSkip).IsChain fun b b' => b.stop = b'.clock

variable (Y : Yrs) (needs : Piece → Piece → Prop) (refused : Piece → Prop)

/-- Applying an update with nothing new leaves the encoding as it was. -/
def StableEncoding : Prop :=
  ∀ d u d', Y.applyUpdate d u = some d' → u.content ⊆ Y.held d →
    Y.encodeStateAsUpdate d' {} = Y.encodeStateAsUpdate d {}

/-- What `update_advances_doc` promises about one document and one update. -/
structure AdvanceExact (d : Y.Doc) (bytes : Bytes) (u : Update) : Prop where
  /-- New content is never called old. -/
  safe : Y.updateAdvancesDoc d bytes = some false → u.content ⊆ Y.held d
  /-- For a ready update without internal gaps the verdict is exact. -/
  exact : Gapless u → Y.updateIsReady d bytes = some true → Y.parked d = ∅ →
    (Y.updateAdvancesDoc d bytes = some true ↔ ¬u.content ⊆ Y.held d)

/-- New blocks that nothing `update_advances_doc` looks at reveals: no deletion, no insertion
past a non-zero cap, a state vector that is covered, no block integrates at the first clock that
the document lacks of a client, and whether anything is parked does not change. -/
structure Blind (d : Y.Doc) (u : Update) : Prop where
  deletes : u.deleteSetIsEmpty
  gap : hidesGap u = false
  covered : (Y.stateVector d).covers u.stateVector
  accepted : Accepts needs refused (Y.held d ∪ u.content)
  new : ¬u.content ⊆ Y.held d
  vector : ∀ client, Piece.block ⟨client, (Y.stateVector d).get client⟩ ∉
    Causal.integrated needs (Y.held d ∪ u.content)
  parked : (Causal.parked needs (Y.held d ∪ u.content)).Nonempty ↔ (Y.parked d).Nonempty

variable {Y needs refused}

/-! ## Updates without internal gaps -/

section Runs

variable {run : List Carrier} {b b' : Carrier} {bs : List Carrier} {u : Update} {client clock : ℕ}

lemma stop_le_contiguousEnd (hitems : ∀ b ∈ run, b.isSkip = false) (hb : b ∈ run) :
    b.stop ≤ Update.contiguousEnd run := by
  induction run with
  | nil => simp at hb
  | cons a run ih =>
      have ha : a.isSkip = false := hitems a (by simp)
      rw [Update.contiguousEnd, ha, if_neg (by simp)]
      rcases List.mem_cons.1 hb with rfl | hb
      · exact le_max_left _ _
      · exact (ih (fun c hc => hitems c (by simp [hc])) hb).trans (le_max_right _ _)

/-- A run carries every clock from its first block to its end. -/
lemma exists_block_of_run (hitems : ∀ a ∈ b :: bs, a.isSkip = false)
    (hchain : (b :: bs).IsChain fun b b' => b.stop = b'.clock) (hlo : b.clock ≤ clock)
    (hhi : clock < Update.contiguousEnd (b :: bs)) :
    ∃ a ∈ b :: bs, a.clock ≤ clock ∧ clock < a.stop := by
  induction bs generalizing b with
  | nil =>
      have hb := hitems b (by simp)
      simp only [Update.contiguousEnd, hb] at hhi
      exact ⟨b, by simp, hlo, by simpa using hhi⟩
  | cons c bs ih =>
      by_cases hin : clock < b.stop
      · exact ⟨b, by simp, hlo, hin⟩
      · obtain ⟨hstep, hrest⟩ := List.isChain_cons_cons.1 hchain
        have hb := hitems b (by simp)
        rw [Update.contiguousEnd, hb, if_neg (by simp)] at hhi
        obtain ⟨a, ha, hrange⟩ := ih (fun a ha => hitems a (List.mem_cons_of_mem b ha)) hrest
          (by omega) (by omega)
        exact ⟨a, List.mem_cons_of_mem b ha, hrange⟩

/-- A content block stands after the leading skips. -/
lemma mem_dropWhile_of_content (hb : b ∈ bs) (hskip : b.isSkip = false) :
    b ∈ bs.dropWhile Carrier.isSkip := by
  rw [← List.takeWhile_append_dropWhile (p := Carrier.isSkip) (l := bs), List.mem_append] at hb
  rcases hb with hb | hb
  · have := List.mem_takeWhile_imp hb
    simp [hskip] at this
  · exact hb

/-- The entry of a client in a vector that is read off its blocks. -/
lemma lookup_of_mem {entries : List (ℕ × ℕ)} {clients : List (ℕ × List Carrier)}
    {f : List Carrier → Option ℕ} (hnodup : (clients.map Prod.fst).Nodup)
    (hentries : entries = clients.filterMap fun e => (f e.2).map fun n => (e.1, n))
    {e : ℕ × List Carrier} (he : e ∈ clients) : entries.lookup e.1 = f e.2 := by
  subst hentries
  induction clients with
  | nil => simp at he
  | cons a clients ih =>
      rw [List.map_cons, List.nodup_cons] at hnodup
      obtain ⟨hfresh, hnodup⟩ := hnodup
      rcases List.mem_cons.1 he with rfl | he
      · cases hf : f e.2 with
        | some n => simp [hf]
        | none =>
            simp only [List.filterMap_cons, hf, Option.map_none]
            rw [List.lookup_eq_none_iff]
            intro p hp
            obtain ⟨c, hc, hp⟩ := List.mem_filterMap.1 hp
            obtain ⟨n, -, rfl⟩ := Option.map_eq_some_iff.1 hp
            have hne : e.1 ≠ c.1 := fun h => hfresh (h ▸ List.mem_map_of_mem hc)
            simpa using hne
      · have hne : e.1 ≠ a.1 := fun h => hfresh (h ▸ List.mem_map_of_mem he)
        cases hf : f a.2 with
        | some n => simpa [hf, List.lookup_cons, beq_false_of_ne hne] using ih hnodup he
        | none => simpa [hf] using ih hnodup he

lemma lower_get (hnodup : (u.clients.map Prod.fst).Nodup) (he : (client, bs) ∈ u.clients)
    (hrun : bs.dropWhile Carrier.isSkip = b :: run) :
    u.stateVectorLower.get client = b.clock := by
  have hlookup : u.stateVectorLower.entries.lookup client = _ :=
    lookup_of_mem (f := fun bs => (bs.find? fun b => !b.isSkip).map Carrier.clock) hnodup
      (by simp [Update.stateVectorLower, Function.comp_def]) he
  have hfirst : bs.find? (fun b => !b.isSkip) = some b := by
    have hb : b.isSkip = false := by
      have := List.head?_dropWhile_not Carrier.isSkip bs
      simpa [hrun] using this
    refine List.find?_eq_some_iff_append.2
      ⟨by simp [hb], bs.takeWhile Carrier.isSkip, run, ?_, fun a ha => ?_⟩
    · rw [← hrun, List.takeWhile_append_dropWhile]
    · simp [List.mem_takeWhile_imp ha]
  simp [StateVector.get, hlookup, hfirst]

/-- The end of a client's run, when it begins at clock zero and not with a skip. -/
def capOf : List Carrier → Option ℕ
  | [] => none
  | b :: bs =>
      if b.clock = 0 ∧ Update.contiguousEnd (b :: bs) ≠ 0 then
        some (Update.contiguousEnd (b :: bs))
      else none

lemma cap_get (hnodup : (u.clients.map Prod.fst).Nodup) (he : (client, bs) ∈ u.clients) :
    u.stateVector.get client = (capOf bs).getD 0 := by
  have hlookup : u.stateVector.entries.lookup client = capOf bs := by
    refine lookup_of_mem (f := capOf) hnodup ?_ he
    refine List.filterMap_congr fun e _ => ?_
    obtain ⟨c, bs⟩ := e
    cases bs with
    | nil => rfl
    | cons b bs =>
        by_cases h : b.clock = 0 ∧ Update.contiguousEnd (b :: bs) ≠ 0 <;> simp [capOf, h]
  simp [StateVector.get, hlookup]

/-- A client with a non-zero cap has a run from clock zero to the cap, and nothing else. -/
lemma capOf_pos (h : 0 < (capOf bs).getD 0) :
    ∃ b run, bs = b :: run ∧ b.isSkip = false ∧ b.clock = 0 ∧
      (capOf bs).getD 0 = Update.contiguousEnd bs := by
  cases bs with
  | nil => simp [capOf] at h
  | cons b run =>
      by_cases hc : b.clock = 0 ∧ Update.contiguousEnd (b :: run) ≠ 0
      · refine ⟨b, run, rfl, ?_, hc.1, by rw [capOf, if_pos hc, Option.getD_some]⟩
        by_contra hskip
        have : b.isSkip = true := by simpa using hskip
        exact hc.2 (by rw [Update.contiguousEnd, if_pos this])
      · rw [capOf, if_neg hc] at h
        simp at h

/-- Every clock between the first content block of a client and a carried one is carried. -/
lemma Gapless.carries (hu : Gapless u) (hc : u.CarriesBlock ⟨client, clock⟩) {k : ℕ}
    (hlo : u.stateVectorLower.get client ≤ k) (hhi : k ≤ clock) :
    u.CarriesBlock ⟨client, k⟩ := by
  obtain ⟨⟨c, bs⟩, he, hclient, b, hb, hskip, -, hend⟩ := hc
  obtain rfl : c = client := hclient
  have hmem := mem_dropWhile_of_content hb hskip
  have hitems := hu.items _ he
  have hchain := hu.chain _ he
  have hstop := stop_le_contiguousEnd hitems hmem
  cases hrun : bs.dropWhile Carrier.isSkip with
  | nil => simp [hrun] at hmem
  | cons a run =>
      rw [lower_get hu.clients he hrun] at hlo
      simp only [hrun] at hitems hchain hstop
      have hend : clock < b.stop := hend
      obtain ⟨a', ha', hrange⟩ := exists_block_of_run hitems hchain hlo (by omega)
      refine ⟨_, he, rfl, a', ?_, hitems a' ha', hrange⟩
      rw [← hrun] at ha'
      exact List.dropWhile_subset _ ha'

/-- Nothing hides behind a skip in an update without internal gaps. -/
lemma Gapless.hidesGap_eq_false (hu : Gapless u) : hidesGap u = false := by
  rw [hidesGap, List.any_eq_false]
  rintro e he
  obtain ⟨⟨client, bs⟩, hbs, rfl⟩ := List.mem_map.1 he
  rw [cap_get hu.clients hbs]
  simp only [Bool.and_eq_true, decide_eq_true_eq, List.any_eq_true, List.mem_map, List.mem_filter,
    not_and, not_exists]
  rintro hpos r ⟨b, ⟨hb, hskip⟩, rfl⟩ hpast
  obtain ⟨a, run, rfl, ha, -, hcap⟩ := capOf_pos hpos
  have hdrop : (a :: run).dropWhile Carrier.isSkip = a :: run := by simp [ha]
  have hitems := hu.items _ hbs
  simp only [hdrop] at hitems
  have := stop_le_contiguousEnd hitems hb
  omega

/-- A document that holds a whole update without internal gaps covers its vector. -/
lemma Gapless.covered (hY : Y.Crdt needs refused) (hu : Gapless u) {d : Y.Doc}
    (h : u.content ⊆ Y.integrated d) : (Y.stateVector d).covers u.stateVector := by
  rw [StateVector.covers_iff]
  intro client
  by_contra hlt
  have hpos : 0 < u.stateVector.get client := by omega
  obtain ⟨bs, hbs⟩ : ∃ bs, (client, bs) ∈ u.clients := by
    by_contra hno
    push Not at hno
    have hzero : u.stateVector.get client = 0 := by
      refine StateVector.get_eq_zero_of_notMem fun e he hclient => ?_
      obtain ⟨⟨c, bs⟩, hbs, hentry⟩ := List.mem_filterMap.1 he
      cases bs with
      | nil => simp at hentry
      | cons b bs =>
          simp only at hentry
          obtain ⟨-, hentry⟩ := Option.ite_none_right_eq_some.1 hentry
          obtain rfl := Option.some.inj hentry
          exact hno (b :: bs) (hclient ▸ hbs)
    omega
  rw [cap_get hu.clients hbs] at hlt hpos
  obtain ⟨a, run, rfl, ha, hzero, hcap⟩ := capOf_pos hpos
  have hdrop : (a :: run).dropWhile Carrier.isSkip = a :: run := by simp [ha]
  have hitems := hu.items _ hbs
  have hchain := hu.chain _ hbs
  simp only [hdrop] at hitems hchain
  obtain ⟨b, hb, hrange⟩ : ∃ b ∈ a :: run, b.clock ≤ (Y.stateVector d).get client ∧
      (Y.stateVector d).get client < b.stop :=
    exists_block_of_run hitems hchain (by omega) (by omega)
  have hcarried : u.CarriesBlock ⟨client, (Y.stateVector d).get client⟩ :=
    ⟨_, hbs, rfl, b, hb, hitems b hb, hrange⟩
  exact hY.stateVector_stop d client (h hcarried)

end Runs

/-! ## The verdict -/

section Verdict

variable (hY : Y.Crdt needs refused) {d probe after : Y.Doc} {bytes : Bytes} {u : Update}
include hY

/-- The probe is a copy of the document. -/
lemma exists_copy (hd : Accepts needs refused (Y.held d)) :
    ∃ probe, Y.applyBytes Y.new (Y.encodeStateAsUpdate d {}) = some probe ∧
      Y.held probe = Y.held d := by
  obtain ⟨probe, hprobe⟩ := Option.isSome_iff_exists.1 (applyBytes_new_encode hY {} hd)
  refine ⟨probe, hprobe, ?_⟩
  rw [held_applyBytes hY hprobe, hY.held_new, Set.empty_union, hY.contentOf_encode_full]

lemma integrated_eq_of_held (h : Y.held probe = Y.held d) :
    Y.integrated probe = Y.integrated d := by
  rw [hY.integrated_eq, h, ← hY.integrated_eq]

lemma parked_eq_of_held (h : Y.held probe = Y.held d) : Y.parked probe = Y.parked d := by
  rw [hY.parked_eq, h, ← hY.parked_eq]

/-- The two vectors agree when nothing integrates at a first missing clock. -/
lemma same_vector_iff (hprobe : Y.held probe = Y.held d)
    (hafter : Y.held after = Y.held d ∪ u.content) :
    (Y.stateVector probe).same (Y.stateVector after) ↔
      ∀ client, Piece.block ⟨client, (Y.stateVector d).get client⟩ ∉
        Causal.integrated needs (Y.held d ∪ u.content) := by
  have hint : Y.integrated after = Causal.integrated needs (Y.held d ∪ u.content) := by
    rw [hY.integrated_eq, hafter]
  have hgrows : Y.integrated probe ⊆ Y.integrated after := by
    rw [hY.integrated_eq, hY.integrated_eq, hprobe, hafter]
    exact Causal.integrated_mono Set.subset_union_left
  have hget : ∀ client, (Y.stateVector probe).get client = (Y.stateVector d).get client := by
    have heq := integrated_eq_of_held hY hprobe
    exact fun client =>
      le_antisymm (stateVector_get_le hY heq.le client) (stateVector_get_le hY heq.ge client)
  rw [StateVector.same, Bool.and_eq_true, StateVector.covers_iff, StateVector.covers_iff, ← hint]
  constructor
  · rintro ⟨hle, -⟩ client hmem
    have hge := stateVector_get_le hY hgrows client
    have hstop := hY.stateVector_stop after client
    have heq : (Y.stateVector after).get client = (Y.stateVector d).get client := by
      have := hle client
      have := hget client
      omega
    rw [heq] at hstop
    exact hstop hmem
  · intro hmiss
    refine ⟨fun client => ?_, stateVector_get_le hY hgrows⟩
    by_contra hlt
    exact hmiss client (hY.stateVector_lt (by have := hget client; omega))

lemma same_pending_iff (hprobe : Y.held probe = Y.held d)
    (hafter : Y.held after = Y.held d ∪ u.content) :
    (Y.hasPending after != Y.hasPending probe) = false ↔
      ((Causal.parked needs (Y.held d ∪ u.content)).Nonempty ↔ (Y.parked d).Nonempty) := by
  have hpark : Y.parked after = Causal.parked needs (Y.held d ∪ u.content) := by
    rw [hY.parked_eq, hafter]
  rw [bne_eq_false_iff_eq, Bool.eq_iff_iff, hasPending_iff hY, hasPending_iff hY, hpark,
    parked_eq_of_held hY hprobe]

/-- A false verdict on new content is a blind one: the bytes of a probe show everything. -/
lemma subset_or_blind (hd : Accepts needs refused (Y.held d)) (hu : Y.decodeUpdate bytes = some u)
    (h : Y.updateAdvancesDoc d bytes = some false) :
    u.content ⊆ Y.held d ∨ Y.Blind needs refused d u := by
  obtain ⟨probe, hcopy, hprobe⟩ := exists_copy hY hd
  simp only [updateAdvancesDoc, hu, Option.bind_some] at h
  by_cases hgap : hidesGap u
  · simp [hgap] at h
  · by_cases hfast : (!!u.deleteSetIsEmpty && !(Y.stateVector d).covers u.stateVector) = true
    · rw [if_neg hgap, if_pos hfast] at h
      simp at h
    · rw [if_neg hgap, if_neg hfast, hcopy, Option.bind_some] at h
      obtain ⟨after, happly, hverdict⟩ := Option.map_eq_some_iff.1 h
      have hafter : Y.held after = Y.held d ∪ u.content := by rw [hY.held_apply happly, hprobe]
      by_cases hdel : u.deleteSetIsEmpty
      · by_cases hnew : u.content ⊆ Y.held d
        · exact .inl hnew
        · simp only [hdel, Bool.not_true, Bool.false_eq_true, if_false] at hverdict
          have hcov : (Y.stateVector d).covers u.stateVector := by simpa [hdel] using hfast
          have hacc : Accepts needs refused (Y.held d ∪ u.content) := by
            rw [← hprobe]
            exact hY.apply_isSome.1 (Option.isSome_iff_exists.2 ⟨after, happly⟩)
          by_cases hsame : (Y.stateVector probe).same (Y.stateVector after)
          · rw [if_neg (by simp [hsame])] at hverdict
            exact .inr ⟨hdel, by simpa using hgap, hcov, hacc, hnew,
              (same_vector_iff hY hprobe hafter).1 hsame,
              (same_pending_iff hY hprobe hafter).1 hverdict⟩
          · rw [if_pos (by simpa using hsame)] at hverdict
            simp at hverdict
      · -- equal bytes carry equal contents
        simp only [hdel, Bool.not_false, if_true, ne_eq, decide_not, Bool.not_eq_false',
          decide_eq_true_eq] at hverdict
        have hheld : Y.held probe = Y.held after := by
          rw [← hY.contentOf_encode_full, hverdict, hY.contentOf_encode_full]
        refine .inl ?_
        rw [← hprobe, hheld, hafter]
        exact Set.subset_union_right

/-- New content of the blind kind is called old. -/
lemma advances_of_blind (hd : Accepts needs refused (Y.held d))
    (hu : Y.decodeUpdate bytes = some u) (h : Y.Blind needs refused d u) :
    Y.updateAdvancesDoc d bytes = some false := by
  obtain ⟨probe, hcopy, hprobe⟩ := exists_copy hY hd
  obtain ⟨after, happly⟩ : ∃ after, Y.applyUpdate probe u = some after := by
    rw [← Option.isSome_iff_exists, hY.apply_isSome, hprobe]
    exact h.accepted
  have hafter : Y.held after = Y.held d ∪ u.content := by rw [hY.held_apply happly, hprobe]
  have hsame := (same_vector_iff hY hprobe hafter).2 h.vector
  have hpend := (same_pending_iff hY hprobe hafter).2 h.parked
  simp [updateAdvancesDoc, hu, h.gap, h.deletes, h.covered, hcopy, happly, hsame, hpend]

/-- A ready update without internal gaps, on a document with nothing parked, is never blind: the
first block that the document lacks of a client moves its state vector. -/
lemma not_blind_of_ready (hgapless : Gapless u) (hu : Y.decodeUpdate bytes = some u)
    (hd : Accepts needs refused (Y.held d)) (hready : Y.updateIsReady d bytes = some true)
    (hpark : Y.parked d = ∅) : ¬Y.Blind needs refused d u := by
  intro hblind
  obtain ⟨hcov, hself, -⟩ := (updateIsReady_eq hY hd hu).1.1 hready
  have hheld : Y.held d = Y.integrated d := by rw [held, hpark, Set.union_empty]
  obtain ⟨a, ha, hnew⟩ := Set.not_subset.1 hblind.new
  cases a with
  | deletion id => exact Update.deleteSetIsEmpty_iff.1 hblind.deletes id ha
  | block id =>
      obtain ⟨client, clock⟩ := id
      have hle : (Y.stateVector d).get client ≤ clock := by
        by_contra hlt
        rw [hheld] at hnew
        exact hnew (hY.stateVector_lt (by omega))
      have hfirst := hgapless.carries ha (StateVector.covers_iff.1 hcov client) hle
      refine hblind.vector client ?_
      rw [hheld]
      exact hself (.inr hfirst)

/-- Content a document already has does not advance it. -/
lemma not_advances_of_subset (hstable : Y.StableEncoding) (hgapless : Gapless u)
    (hu : Y.decodeUpdate bytes = some u) (hd : Accepts needs refused (Y.held d))
    (hpark : Y.parked d = ∅) (hsub : u.content ⊆ Y.held d) :
    Y.updateAdvancesDoc d bytes = some false := by
  have hheld : Y.held d = Y.integrated d := by rw [held, hpark, Set.union_empty]
  have hunion : Y.held d ∪ u.content = Y.held d := Set.union_eq_self_of_subset_right hsub
  obtain ⟨probe, hcopy, hprobe⟩ := exists_copy hY hd
  obtain ⟨after, happly⟩ : ∃ after, Y.applyUpdate probe u = some after := by
    rw [← Option.isSome_iff_exists, hY.apply_isSome, hprobe, hunion]
    exact hd
  have hafter : Y.held after = Y.held d ∪ u.content := by rw [hY.held_apply happly, hprobe]
  have hcov : (Y.stateVector d).covers u.stateVector := hgapless.covered hY (hheld ▸ hsub)
  have hbytes := hstable probe u after happly (hprobe ▸ hsub)
  have hsame : (Y.stateVector probe).same (Y.stateVector after) := by
    refine (same_vector_iff hY hprobe hafter).2 fun client => ?_
    rw [hunion, ← hY.integrated_eq]
    exact hY.stateVector_stop d client
  have hpend : (Y.hasPending after != Y.hasPending probe) = false := by
    refine (same_pending_iff hY hprobe hafter).2 ?_
    rw [hunion, ← hY.parked_eq]
  by_cases hdel : u.deleteSetIsEmpty <;>
    simp [updateAdvancesDoc, hu, hgapless.hidesGap_eq_false, hdel, hcov, hcopy, happly, hbytes,
      hsame, hpend]

/-- The verdict on a ready update without internal gaps is exact. -/
lemma advances_of_ready (hstable : Y.StableEncoding) (hgapless : Gapless u)
    (hu : Y.decodeUpdate bytes = some u) (hd : Accepts needs refused (Y.held d))
    (hready : Y.updateIsReady d bytes = some true) (hpark : Y.parked d = ∅) :
    Y.updateAdvancesDoc d bytes = some true ↔ ¬u.content ⊆ Y.held d := by
  constructor
  · intro h hsub
    rw [not_advances_of_subset hY hstable hgapless hu hd hpark hsub] at h
    simp at h
  · intro hnew
    have hfits := ((updateIsReady_eq hY hd hu).1.1 hready).2
    have hsome : (Y.updateAdvancesDoc d bytes).isSome := by
      refine updateAdvancesDoc_isSome hY (by simp [hu]) ?_
      rw [contentOf_of_decode hu, held, hpark, Set.union_empty]
      exact hfits.2
    obtain ⟨verdict, hverdict⟩ := Option.isSome_iff_exists.1 hsome
    cases verdict with
    | true => exact hverdict
    | false =>
        rcases subset_or_blind hY hd hu hverdict with hsub | hblind
        · exact absurd hsub hnew
        · exact absurd hblind (not_blind_of_ready hY hgapless hu hd hready hpark)

end Verdict

section Examples

open Reference

lemma stableEncoding_tidy (bad : List BlockId) : (tidy bad).StableEncoding := by
  intro d u d' h hsub
  have hsame : addNew d (pieces u) = d := by
    refine addNew_eq_self fun a ha => ?_
    have := hsub (mem_pieces.1 ha)
    rwa [held_engineOf bad (fun _ _ => isIntegrated_iff)] at this
  have h : (if _ then none else some (addNew d (pieces u))) = some d' := h
  obtain ⟨-, h⟩ := Option.ite_none_left_eq_some.1 h
  rw [← Option.some.inj h, hsame]

/-- A document with nothing but clock 1 of client 1, which is parked, and an update with nothing
but clock 1 of client 2. -/
def parkedDoc : Reference.Doc := [.block ⟨1, 1⟩]

def parks : Bytes := [1, 1, 2, 1, 0, 1, 0]

end Examples

end Yrby.Yrs
