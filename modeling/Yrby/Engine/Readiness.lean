import Yrby.Engine.Sparse

/-!
# The integrated part of a document, and what is ready for it

`integrated_update` serves the integrated part of a document, directly when nothing is pending
and through a rebuilt and pruned copy otherwise.  `integrated_update_exact` says what a peer is
left with, and that the path taken cannot be told from the content.

`update_is_ready` rejects by clocks first and decides by a trial on the integrated part.  The two
steps look at different things: a document's state vector stops at its first hole, while the trial
integrates blocks past a hole whenever what they need is there.  `update_is_ready_exact_iff` says
exactly when the shortcut agrees with the trial, and `covers_of_fits` that it does wherever every
block needs its predecessor.
-/

namespace Yrby.Yrs

open Wire

variable {Y : Yrs} {needs : Piece → Piece → Prop} {refused : Piece → Prop}

/-! ## Serving the integrated part -/

section Serving

variable (hY : Y.Crdt needs refused) {d p p' : Y.Doc} {bytes : Bytes}
include hY

/-- What a peer has of the document, and what it is served, is the document's integrated part. -/
lemma held_union_beyond (hp : Y.integrated p ⊆ Y.integrated d) :
    Y.held p ∪ {a ∈ Y.integrated d | Beyond (Y.stateVector p) a} =
      Y.integrated d ∪ Y.parked p := by
  ext a
  simp only [held, Set.mem_union, Set.mem_ofPred_eq]
  constructor
  · rintro ((h | h) | ⟨h, -⟩)
    · exact .inl (hp h)
    · exact .inr h
    · exact .inl h
  · rintro (h | h)
    · by_cases hbeyond : Beyond (Y.stateVector p) a
      · exact .inr ⟨h, hbeyond⟩
      · -- a block the encoding leaves out lies below the peer's state vector
        cases a with
        | block id => exact .inl (.inl (hY.stateVector_lt (by simpa [Beyond] using hbeyond)))
        | deletion id => exact absurd trivial hbeyond
    · exact .inl (.inr h)

lemma held_of_served (hp : Y.integrated p ⊆ Y.integrated d)
    (h : Y.integratedUpdate d (Y.stateVector p) = some bytes)
    (happly : Y.applyBytes p bytes = some p') : Y.held p' = Y.integrated d ∪ Y.parked p := by
  rw [held_applyBytes hY happly, contentOf_integratedUpdate hY h, held_union_beyond hY hp]

/-- The document's integrated part stands on its own in the peer. -/
lemma integrated_subset_of_served (hp : Y.integrated p ⊆ Y.integrated d)
    (h : Y.integratedUpdate d (Y.stateVector p) = some bytes)
    (happly : Y.applyBytes p bytes = some p') : Y.integrated d ⊆ Y.integrated p' := by
  rw [hY.integrated_eq p', held_of_served hY hp h happly]
  exact (hY.selfContained_integrated d).subset_integrated Set.subset_union_left

/-- What the peer integrates beyond it had been parked by the peer itself. -/
lemma integrated_served_subset (hp : Y.integrated p ⊆ Y.integrated d)
    (h : Y.integratedUpdate d (Y.stateVector p) = some bytes)
    (happly : Y.applyBytes p bytes = some p') :
    Y.integrated p' ⊆ Y.integrated d ∪ Y.parked p := by
  rw [← held_of_served hY hp h happly]
  exact integrated_subset_held

lemma parked_served_subset (hp : Y.integrated p ⊆ Y.integrated d)
    (h : Y.integratedUpdate d (Y.stateVector p) = some bytes)
    (happly : Y.applyBytes p bytes = some p') : Y.parked p' ⊆ Y.parked p := by
  intro a ha
  have hheld : a ∈ Y.held p' := .inr ha
  rw [held_of_served hY hp h happly] at hheld
  rcases hheld with hd | hpark
  · have hint := integrated_subset_of_served hY hp h happly hd
    rw [hY.parked_eq] at ha
    rw [hY.integrated_eq] at hint
    exact absurd hint ha.2
  · exact hpark

/-- **`integrated_update` serves exactly the integrated part.**  Applied to a peer whose
integrated content is the document's own, its result leaves the peer with the document's
integrated content, integrates nothing else but what the peer had parked, and parks nothing new;
and documents with the same integrated content are served the same content. -/
theorem integrated_update_exact (hd : Accepts needs refused (Y.held d))
    (hp : Y.integrated p ⊆ Y.integrated d) :
    ∃ bytes, Y.integratedUpdate d (Y.stateVector p) = some bytes ∧
      ((Y.applyBytes p bytes).isSome ↔
        Accepts needs refused (Y.integrated d ∪ Y.parked p)) ∧
      (∀ p', Y.applyBytes p bytes = some p' →
        Y.integrated d ⊆ Y.integrated p' ∧ Y.integrated p' ⊆ Y.integrated d ∪ Y.parked p ∧
          Y.parked p' ⊆ Y.parked p) ∧
      ∀ d' bytes', Y.integrated d' = Y.integrated d →
        Y.integratedUpdate d' (Y.stateVector p) = some bytes' →
          Y.contentOf bytes' = Y.contentOf bytes := by
  obtain ⟨bytes, hbytes⟩ :=
    Option.isSome_iff_exists.1 (integratedUpdate_isSome hY (Y.stateVector p) hd)
  refine ⟨bytes, hbytes, ?_, fun p' happly => ?_, fun d' bytes' hint hbytes' => ?_⟩
  · rw [applyBytes_isSome hY, contentOf_integratedUpdate hY hbytes, held_union_beyond hY hp]
    exact and_iff_right (decodeUpdate_of_integratedUpdate hY hbytes)
  · exact ⟨integrated_subset_of_served hY hp hbytes happly,
      integrated_served_subset hY hp hbytes happly, parked_served_subset hY hp hbytes happly⟩
  · rw [contentOf_integratedUpdate hY hbytes', contentOf_integratedUpdate hY hbytes, hint]

end Serving

/-! ## The trial of `update_is_ready` -/

/-- Applying the update to a document that holds just the integrated content of `d` parks
nothing. -/
def ParksNothing (Y : Yrs) (d : Y.Doc) (bytes : Bytes) : Prop :=
  ∃ trial after, Y.held trial = Y.integrated d ∧ Y.applyBytes trial bytes = some after ∧
    Y.parked after = ∅

/-- Everything in the update finds what it needs, in the document's integrated part or in the
update, and yrs refuses nothing of it. -/
def Fits (Y : Yrs) (needs : Piece → Piece → Prop) (refused : Piece → Prop) (d : Y.Doc)
    (u : Update) : Prop :=
  Causal.SelfContained needs (Y.integrated d ∪ u.content) ∧
    Accepts needs refused (Y.integrated d ∪ u.content)

/-- What `update_is_ready` promises about one document and one update. -/
structure ReadinessExact (Y : Yrs) (needs : Piece → Piece → Prop) (refused : Piece → Prop)
    (d : Y.Doc) (bytes : Bytes) (u : Update) : Prop where
  exact : Y.updateIsReady d bytes = some true ↔ Y.ParksNothing d bytes
  /-- The document's own parked content has no say. -/
  integrated_only : ∀ d', Y.integrated d' = Y.integrated d → Accepts needs refused (Y.held d') →
    Y.updateIsReady d' bytes = Y.updateIsReady d bytes
  /-- The clocks reject only what the trial would not accept. -/
  reject : (Y.stateVector d).covers u.stateVectorLower = false → ¬Y.ParksNothing d bytes

section Trial

variable (hY : Y.Crdt needs refused) {d d' : Y.Doc} {bytes : Bytes} {u : Update}
include hY

/-- A state vector lists integrated blocks only, so it does not see what is parked. -/
lemma stateVector_get_le (h : Y.integrated d ⊆ Y.integrated d') (client : ℕ) :
    (Y.stateVector d).get client ≤ (Y.stateVector d').get client := by
  by_contra hlt
  exact hY.stateVector_stop d' client (h (hY.stateVector_lt (by omega)))

lemma covers_of_integrated_eq (h : Y.integrated d' = Y.integrated d) (sv : StateVector) :
    (Y.stateVector d').covers sv = (Y.stateVector d).covers sv := by
  have hget : ∀ client, (Y.stateVector d').get client = (Y.stateVector d).get client :=
    fun client =>
      le_antisymm (stateVector_get_le hY h.le client) (stateVector_get_le hY h.ge client)
  simp [StateVector.covers, hget]

/-- The probe holds just the integrated content. -/
lemma exists_probe (hd : Accepts needs refused (Y.held d)) :
    ∃ seed probe, Y.integratedUpdate d {} = some seed ∧ Y.applyBytes Y.new seed = some probe ∧
      Y.held probe = Y.integrated d := by
  obtain ⟨seed, hseed⟩ := Option.isSome_iff_exists.1 (integratedUpdate_isSome hY {} hd)
  have hcontent := contentOf_compactedStateUpdate hY hseed
  have hprobe : (Y.applyBytes Y.new seed).isSome := by
    refine (applyBytes_isSome hY).2 ⟨decodeUpdate_of_integratedUpdate hY hseed, ?_⟩
    rw [hY.held_new, Set.empty_union, hcontent]
    exact hd.mono integrated_subset_held
  obtain ⟨probe, hprobe⟩ := Option.isSome_iff_exists.1 hprobe
  refine ⟨seed, probe, hseed, hprobe, ?_⟩
  rw [held_applyBytes hY hprobe, hY.held_new, Set.empty_union, hcontent]

/-- Whether the trial parks anything depends only on the content. -/
lemma parksNothing_iff (hd : Accepts needs refused (Y.held d))
    (hu : Y.decodeUpdate bytes = some u) :
    Y.ParksNothing d bytes ↔ Y.Fits needs refused d u := by
  have hcontent := contentOf_of_decode hu
  constructor
  · rintro ⟨trial, after, htrial, happly, hpark⟩
    have hheld := held_applyBytes hY happly
    have hsome := (applyBytes_isSome hY).1 (Option.isSome_iff_exists.2 ⟨after, happly⟩)
    rw [htrial, hcontent] at hheld hsome
    rw [hY.parked_eq_empty_iff, hheld] at hpark
    exact ⟨hpark, hsome.2⟩
  · rintro ⟨hself, hacc⟩
    obtain ⟨seed, probe, -, -, hprobe⟩ := exists_probe hY hd
    obtain ⟨after, hafter⟩ : ∃ after, Y.applyBytes probe bytes = some after := by
      refine Option.isSome_iff_exists.1 ((applyBytes_isSome hY).2 ⟨by simp [hu], ?_⟩)
      rwa [hprobe, hcontent]
    refine ⟨probe, after, hprobe, hafter, ?_⟩
    rwa [hY.parked_eq_empty_iff, held_applyBytes hY hafter, hprobe, hcontent]

/-- The verdict: rejected by clocks, or what the trial says; an error when yrs refuses. -/
lemma updateIsReady_eq (hd : Accepts needs refused (Y.held d))
    (hu : Y.decodeUpdate bytes = some u) :
    (Y.updateIsReady d bytes = some true ↔
        (Y.stateVector d).covers u.stateVectorLower ∧ Y.Fits needs refused d u) ∧
      (Y.updateIsReady d bytes = some false ↔
        (Y.stateVector d).covers u.stateVectorLower = false ∨
          Accepts needs refused (Y.integrated d ∪ u.content) ∧
            ¬Causal.SelfContained needs (Y.integrated d ∪ u.content)) := by
  obtain ⟨seed, probe, hseed, hprobe, hheld⟩ := exists_probe hY hd
  simp only [updateIsReady, hu, Option.bind_some]
  by_cases hcov : (Y.stateVector d).covers u.stateVectorLower
  · simp only [hcov, hseed, hprobe, Option.bind_some, Bool.not_true, Bool.false_eq_true, if_false,
      true_and]
    have hsome : (Y.applyUpdate probe u).isSome ↔ _ := hY.apply_isSome
    rw [hheld] at hsome
    cases happly : Y.applyUpdate probe u with
    | none =>
        rw [happly] at hsome
        have hno : ¬Accepts needs refused (Y.integrated d ∪ u.content) := by simpa using hsome
        simp [Fits, hno]
    | some after =>
        rw [happly] at hsome
        have hacc : Accepts needs refused (Y.integrated d ∪ u.content) := by simpa using hsome
        have hafter : Y.hasPending after = false ↔ _ := hasPending_eq_false_iff hY
        rw [hY.parked_eq_empty_iff, hY.held_apply happly, hheld] at hafter
        cases hpend : Y.hasPending after <;> simp_all [Fits]
  · have hcov' : (Y.stateVector d).covers u.stateVectorLower = false := by simpa using hcov
    simp [hcov']

/-- The verdict does not depend on what the document has parked. -/
lemma updateIsReady_of_integrated_eq (hd : Accepts needs refused (Y.held d))
    (hd' : Accepts needs refused (Y.held d')) (h : Y.integrated d' = Y.integrated d)
    (hu : Y.decodeUpdate bytes = some u) :
    Y.updateIsReady d' bytes = Y.updateIsReady d bytes := by
  obtain ⟨ht, hf⟩ := updateIsReady_eq hY hd hu
  obtain ⟨ht', hf'⟩ := updateIsReady_eq hY hd' hu
  rw [Fits, covers_of_integrated_eq hY h, h, ← Fits] at ht'
  rw [covers_of_integrated_eq hY h, h] at hf'
  rw [← ht] at ht'
  rw [← hf] at hf'
  cases hx : Y.updateIsReady d' bytes with
  | none =>
      cases hy : Y.updateIsReady d bytes with
      | none => rfl
      | some b => cases b <;> simp_all
  | some b => cases b <;> simp_all

/-- **When `update_is_ready` is exact.**  Its promise holds exactly when every client's first
content block starts at or below the document's state vector, or the update does not fit. -/
theorem update_is_ready_exact_iff (hd : Accepts needs refused (Y.held d))
    (hu : Y.decodeUpdate bytes = some u) :
    Y.ReadinessExact needs refused d bytes u ↔
      (Y.stateVector d).covers u.stateVectorLower ∨ ¬Y.Fits needs refused d u := by
  have hparks := parksNothing_iff hY hd hu
  constructor
  · intro h
    by_cases hcov : (Y.stateVector d).covers u.stateVectorLower
    · exact .inl hcov
    · refine .inr fun hfits => h.reject ?_ (hparks.2 hfits)
      simpa using hcov
  · intro hcond
    refine ⟨?_, fun d' hint hd' => updateIsReady_of_integrated_eq hY hd hd' hint hu, ?_⟩
    · rw [(updateIsReady_eq hY hd hu).1, hparks]
      constructor
      · exact fun h => h.2
      · exact fun h => ⟨hcond.resolve_right fun hno => hno h, h⟩
    · intro hcov hpark
      rcases hcond with h | h
      · simp [h] at hcov
      · exact h (hparks.1 hpark)

end Trial

/-! ## Where blocks need their predecessors -/

/-- The blocks of a decoded update: every client once, its blocks in order, none empty. -/
structure Ordered (u : Update) : Prop where
  clients : (u.clients.map Prod.fst).Nodup
  blocks : ∀ e ∈ u.clients, e.2.Pairwise fun b b' => b.stop ≤ b'.clock
  len : ∀ e ∈ u.clients, ∀ b ∈ e.2, 0 < b.len

/-- An entry of a lower clock vector is the clock of a client's first content block. -/
lemma exists_first_of_lower {u : Update} {client : ℕ}
    (h : 0 < u.stateVectorLower.get client) :
    ∃ bs, (client, bs) ∈ u.clients ∧ ∃ b, bs.find? (fun b => !b.isSkip) = some b ∧
      b.clock = u.stateVectorLower.get client := by
  unfold StateVector.get at h ⊢
  cases hl : u.stateVectorLower.entries.lookup client with
  | none => simp [hl] at h
  | some m =>
      obtain ⟨l₁, l₂, hsplit, -⟩ := List.lookup_eq_some_iff.1 hl
      have hmem : (client, m) ∈ u.stateVectorLower.entries := by simp [hsplit]
      obtain ⟨e, he, hfirst⟩ := List.mem_filterMap.1 hmem
      obtain ⟨b, hb, heq⟩ := Option.map_eq_some_iff.1 hfirst
      obtain ⟨rfl, rfl⟩ := Prod.mk.inj heq
      exact ⟨e.2, he, b, hb, rfl⟩

/-- No content block of a client starts before its first one. -/
lemma first_le_of_carries {u : Update} (hu : Ordered u) {client clock : ℕ} {bs : List Carrier}
    {b : Carrier} (he : (client, bs) ∈ u.clients)
    (hb : bs.find? (fun b => !b.isSkip) = some b)
    (hc : u.CarriesBlock ⟨client, clock⟩) : b.clock ≤ clock := by
  obtain ⟨e, he', hclient, b', hb', hskip, hlo, -⟩ := hc
  obtain rfl : (client, bs) = e := List.inj_on_of_nodup_map hu.clients he he' hclient.symm
  obtain ⟨-, l₁, l₂, rfl, hbefore⟩ := List.find?_eq_some_iff_append.1 hb
  rw [List.mem_append, List.mem_cons] at hb'
  rcases hb' with h₁ | rfl | h₂
  · have := hbefore b' h₁
    simp [hskip] at this
  · exact hlo
  · have hsorted := (List.pairwise_append.1 (hu.blocks _ he)).2.1
    have := (List.pairwise_cons.1 hsorted).1 b' h₂
    have hlo : b'.clock ≤ clock := hlo
    unfold Carrier.stop at this
    omega

/-- All earlier clocks of an integrated block are integrated, where blocks need their
predecessors. -/
lemma earlier_integrated {S : Set Piece}
    (hpred : ∀ client clock, needs (.block ⟨client, clock + 1⟩) (.block ⟨client, clock⟩))
    {client clock k : ℕ} (h : Piece.block ⟨client, clock⟩ ∈ Causal.integrated needs S)
    (hk : k ≤ clock) : Piece.block ⟨client, k⟩ ∈ Causal.integrated needs S := by
  induction clock with
  | zero =>
      obtain rfl : k = 0 := by omega
      exact h
  | succ clock ih =>
      by_cases hlast : k = clock + 1
      · rwa [hlast]
      · exact ih (Causal.integrated_of_needs h (hpred client clock)) (by omega)
/-- Where every block needs its predecessor, the clocks never reject an update that fits. -/
theorem covers_of_fits (hY : Y.Crdt needs refused)
    (hpred : ∀ client clock, needs (.block ⟨client, clock + 1⟩) (.block ⟨client, clock⟩))
    {d : Y.Doc} {u : Update} (hu : Ordered u) (h : Y.Fits needs refused d u) :
    (Y.stateVector d).covers u.stateVectorLower := by
  rw [StateVector.covers_iff]
  intro client
  by_contra hlt
  have hpos : 0 < u.stateVectorLower.get client := by omega
  obtain ⟨bs, he, b, hb, hclock⟩ := exists_first_of_lower hpos
  have hmem : b ∈ bs := List.mem_of_find?_eq_some hb
  have hcarries : Piece.block ⟨client, b.clock⟩ ∈ u.content := by
    refine ⟨_, he, rfl, b, hmem, by simpa using List.find?_some hb, le_rfl, ?_⟩
    show b.clock < b.clock + b.len
    have := hu.len _ he b hmem
    omega
  -- the first clock the document lacks comes before the block, so it has to be in the update too
  have hmissing : Piece.block ⟨client, (Y.stateVector d).get client⟩ ∈
      Y.integrated d ∪ u.content :=
    Causal.integrated_subset (earlier_integrated hpred (h.1 (.inr hcarries)) (by omega))
  rcases hmissing with hd | hc
  · exact hY.stateVector_stop d client hd
  · have := first_le_of_carries hu he hb hc
    omega

section Examples

open Reference

/-- Client 1 has clocks 0 and 2: clock 1 is a hole. -/
def holed : Reference.Doc := [.block ⟨1, 0⟩, .block ⟨1, 2⟩]

/-- An update with clock 3 of client 1. -/
def afterHole : Bytes := [1, 1, 1, 3, 0, 1, 0]

lemma accepts_nothing_refused {order : Piece → Piece → Prop} (S : Set Piece) :
    Accepts order (fun a => isRefused [] a) S := by
  intro a _ hrefused
  cases a <;> simp [isRefused] at hrefused

/-- A document with a parked deletion, served to an empty peer. -/
theorem integrated_update_exact_gapped :
    ∃ bytes, (sparse []).integratedUpdate [.block ⟨1, 0⟩, .deletion ⟨2, 0⟩]
        ((sparse []).stateVector []) = some bytes ∧
      ∀ p', (sparse []).applyBytes [] bytes = some p' →
        (sparse []).integrated [.block ⟨1, 0⟩, .deletion ⟨2, 0⟩] ⊆ (sparse []).integrated p' := by
  obtain ⟨bytes, hbytes, -, hserved, -⟩ :=
    integrated_update_exact (crdt_sparse []) (accepts_nothing_refused _)
      (show (sparse []).integrated [] ⊆
        (sparse []).integrated [.block ⟨1, 0⟩, .deletion ⟨2, 0⟩] by
          rw [(crdt_sparse []).integrated_new]
          exact Set.empty_subset _)
  exact ⟨bytes, hbytes, fun p' h => (hserved p' h).1⟩

/-- The first block of a client is judged exactly, also next to a hole. -/
theorem update_is_ready_exact_iff_first :
    (sparse []).ReadinessExact targetOf (fun a => isRefused [] a) holed [1, 1, 2, 0, 0, 1, 0]
      ⟨[(2, [.gc 0 1])], []⟩ :=
  (update_is_ready_exact_iff (crdt_sparse []) (accepts_nothing_refused _) (by decide)).2
    (.inl (by decide))

/-- A document with nothing parked is a trial document for itself. -/
lemma parksNothing_of_placed {d after : Reference.Doc} {bytes : Bytes}
    (hd : ∀ a ∈ d, isPlaced d a) (h : (sparse []).applyBytes d bytes = some after)
    (hafter : ∀ a ∈ after, isPlaced after a) : (sparse []).ParksNothing d bytes := by
  refine ⟨d, after, ?_, h, ?_⟩
  · rw [held_engineOf [] isPlaced_iff]
    ext a
    show a ∈ d ↔ isPlaced d a
    exact ⟨hd a, mem_of_integ isPlaced_iff⟩
  · refine Set.eq_empty_iff_forall_notMem.2 fun a ha => ?_
    obtain ⟨hmem, hno⟩ : a ∈ after ∧ isPlaced after a = false := ha
    simp [hafter a hmem] at hno

/-- The edit after the hole fits, and the clocks reject it. -/
theorem update_is_ready_rejects_fitting :
    (sparse []).updateIsReady holed afterHole = some false ∧
      (sparse []).ParksNothing holed afterHole :=
  ⟨by decide, parksNothing_of_placed (by decide)
    (show (sparse []).applyBytes holed afterHole = some (holed ++ [.block ⟨1, 3⟩]) by decide)
    (by decide)⟩

end Examples

end Yrby.Yrs
