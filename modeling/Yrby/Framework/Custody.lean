import Mathlib.Data.List.Nodup
import Mathlib.Data.List.Perm.Basic
import Mathlib.Data.Set.Insert

/-!
# Things that are in exactly one place

Things are handed around between places, each of which lists what it holds.  `Holds` says that
everything known is listed exactly once, in one place only.  Two rules keep it: things that are
new to all places enter at one of them, and what two places hold together is divided between
them in another way.
-/

namespace Custody

variable {ι P : Type*}

/-- Every known thing is listed once, in one place, and nothing else is. -/
structure Holds (contents : P → List ι) (known : Set ι) : Prop where
  nodup : ∀ p, (contents p).Nodup
  disjoint : ∀ p q, p ≠ q → (contents p).Disjoint (contents q)
  covers : ∀ i, i ∈ known ↔ ∃ p, i ∈ contents p

variable {contents contents' : P → List ι} {known : Set ι}

lemma holds_empty : Holds (fun _ : P => ([] : List ι)) ∅ :=
  ⟨by simp, by simp, by simp⟩

/-- The order in which a place lists what it holds does not matter. -/
lemma Holds.perm (h : Holds contents known) (hperm : ∀ p, (contents' p).Perm (contents p)) :
    Holds contents' known := by
  refine ⟨fun p => (hperm p).nodup_iff.2 (h.nodup p), fun p q hpq i hp hq => ?_, fun i => ?_⟩
  · exact h.disjoint p q hpq ((hperm p).mem_iff.1 hp) ((hperm q).mem_iff.1 hq)
  · rw [h.covers]
    exact exists_congr fun p => (hperm p).mem_iff.symm

/-- To be somewhere is to be in one of two places or in a third. -/
lemma exists_mem_iff {i : ι} (p q : P) :
    (∃ r, i ∈ contents r) ↔
      (i ∈ contents p ∨ i ∈ contents q) ∨ ∃ r, r ≠ p ∧ r ≠ q ∧ i ∈ contents r := by
  constructor
  · rintro ⟨r, hr⟩
    by_cases hrp : r = p
    · exact .inl (.inl (hrp ▸ hr))
    · by_cases hrq : r = q
      · exact .inl (.inr (hrq ▸ hr))
      · exact .inr ⟨r, hrp, hrq, hr⟩
  · rintro ((hp | hq) | ⟨r, -, -, hr⟩)
    exacts [⟨p, hp⟩, ⟨q, hq⟩, ⟨r, hr⟩]

/-- **Handing over.**  What two places hold together is divided between them anew. -/
theorem Holds.move (h : Holds contents known) {p q : P} (hpq : p ≠ q)
    (hperm : (contents' p ++ contents' q).Perm (contents p ++ contents q))
    (hother : ∀ r, r ≠ p → r ≠ q → contents' r = contents r) : Holds contents' known := by
  have hboth : (contents p ++ contents q).Nodup :=
    List.nodup_append'.2 ⟨h.nodup p, h.nodup q, h.disjoint p q hpq⟩
  obtain ⟨hp, hq, hdisj⟩ := List.nodup_append'.1 (hperm.nodup_iff.2 hboth)
  have hmem : ∀ i, i ∈ contents' p ∨ i ∈ contents' q ↔ i ∈ contents p ∨ i ∈ contents q := by
    intro i
    simpa only [List.mem_append] using hperm.mem_iff (a := i)
  -- what one of the two holds now was in one of them before, so it is in no third place
  have hthird : ∀ r s i, (r = p ∨ r = q) → ¬(s = p ∨ s = q) → i ∈ contents' r →
      i ∉ contents' s := by
    intro r s i hr hs hir his
    obtain ⟨hsp, hsq⟩ := not_or.1 hs
    rw [hother s hsp hsq] at his
    have hi : i ∈ contents' p ∨ i ∈ contents' q := by
      rcases hr with rfl | rfl
      exacts [.inl hir, .inr hir]
    rcases (hmem i).1 hi with hi | hi
    · exact h.disjoint p s (Ne.symm hsp) hi his
    · exact h.disjoint q s (Ne.symm hsq) hi his
  refine ⟨fun r => ?_, fun r s hrs i hir his => ?_, fun i => ?_⟩
  · by_cases hrp : r = p
    · exact hrp ▸ hp
    · by_cases hrq : r = q
      · exact hrq ▸ hq
      · exact hother r hrp hrq ▸ h.nodup r
  · by_cases hr : r = p ∨ r = q <;> by_cases hs : s = p ∨ s = q
    · rcases hr with rfl | rfl <;> rcases hs with rfl | rfl
      exacts [hrs rfl, hdisj hir his, hdisj his hir, hrs rfl]
    · exact hthird r s i hr hs hir his
    · exact hthird s r i hs hr his hir
    · obtain ⟨hrp, hrq⟩ := not_or.1 hr
      obtain ⟨hsp, hsq⟩ := not_or.1 hs
      exact h.disjoint r s hrs (hother r hrp hrq ▸ hir) (hother s hsp hsq ▸ his)
  · rw [h.covers, exists_mem_iff p q, exists_mem_iff p q, hmem]
    refine or_congr_right (exists_congr fun r => and_congr_right fun hrp => ?_)
    exact and_congr_right fun hrq => by rw [hother r hrp hrq]

/-- **A new thing** enters at one place. -/
theorem Holds.enter (h : Holds contents known) {p : P} {i : ι} (hi : i ∉ known)
    (hp : (contents' p).Perm (i :: contents p)) (hother : ∀ r, r ≠ p → contents' r = contents r) :
    Holds contents' (insert i known) := by
  have hnew : ∀ r, i ∉ contents r := fun r hr => hi ((h.covers i).2 ⟨r, hr⟩)
  have hmem : ∀ r j, j ∈ contents' r ↔ j ∈ contents r ∨ (r = p ∧ j = i) := by
    intro r j
    by_cases hr : r = p
    · subst hr
      rw [hp.mem_iff, List.mem_cons]
      tauto
    · rw [hother r hr]
      tauto
  refine ⟨fun r => ?_, fun r s hrs j hr hs => ?_, fun j => ?_⟩
  · by_cases hr : r = p
    · subst hr
      exact hp.nodup_iff.2 (List.nodup_cons.2 ⟨hnew r, h.nodup r⟩)
    · exact hother r hr ▸ h.nodup r
  · rcases (hmem r j).1 hr with hr | ⟨hr, rfl⟩ <;> rcases (hmem s j).1 hs with hs | ⟨hs, hj⟩
    · exact h.disjoint r s hrs hr hs
    · exact hnew r (hj ▸ hr)
    · exact hnew s hs
    · exact hrs (hr.trans hs.symm)
  · rw [Set.mem_insert_iff, h.covers]
    constructor
    · rintro (rfl | ⟨r, hr⟩)
      · exact ⟨p, (hmem p j).2 (.inr ⟨rfl, rfl⟩)⟩
      · exact ⟨r, (hmem r j).2 (.inl hr)⟩
    · rintro ⟨r, hr⟩
      rcases (hmem r j).1 hr with hr | ⟨-, rfl⟩
      exacts [.inr ⟨r, hr⟩, .inl rfl]

/-- Where a known thing is: counted once in one place, and absent from all others. -/
theorem Holds.exactly_one [DecidableEq ι] (h : Holds contents known) {i : ι} (hi : i ∈ known) :
    ∃ p, (contents p).count i = 1 ∧ ∀ q, q ≠ p → i ∉ contents q := by
  obtain ⟨p, hp⟩ := (h.covers i).1 hi
  exact ⟨p, List.count_eq_one_of_mem (h.nodup p) hp,
    fun q hq hmem => h.disjoint p q (Ne.symm hq) hp hmem⟩

end Custody
