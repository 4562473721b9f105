import Mathlib.Data.Set.Lattice

/-!
# Causal closure of a set of pieces

A replica is handed pieces of content in any order.  A piece can be *integrated* once
everything it needs has been integrated; until then it is *parked*.  This file develops that
split over an arbitrary type of pieces and an arbitrary `needs` relation.

`Integrates needs S a` is the least fixed point: `a` is in `S` and everything it needs
integrates first.  A cycle of pieces that need each other never integrates, which is what an
integration loop that only ever looks at already integrated pieces does.

`integrated` and `parked` split a set of pieces in two.  The lemmas say how the split behaves
when sets grow (`integrated_mono`) and when it is applied twice (`integrated_integrated`).
`SelfContained` is the case with nothing parked.
-/

namespace Causal

variable {α : Type*} (needs : α → α → Prop)

/-- `a` integrates from `S`: it is in `S`, and everything it needs integrates from `S`. -/
inductive Integrates (S : Set α) : α → Prop
  | intro {a : α} (mem : a ∈ S) (deps : ∀ b, needs a b → Integrates S b) : Integrates S a

/-- The causally closed part of `S`. -/
def integrated (S : Set α) : Set α := {a | Integrates needs S a}

/-- What `S` holds beyond its causally closed part. -/
def parked (S : Set α) : Set α := S \ integrated needs S

/-- Nothing of `S` is parked. -/
def SelfContained (S : Set α) : Prop := S ⊆ integrated needs S

variable {needs} {S T : Set α} {a b : α}

lemma integrated_subset : integrated needs S ⊆ S := by
  rintro a ⟨mem, -⟩
  exact mem

/-- What an integrated piece needs is integrated. -/
lemma integrated_of_needs (ha : a ∈ integrated needs S) (hab : needs a b) :
    b ∈ integrated needs S := by
  obtain ⟨-, deps⟩ := ha
  exact deps b hab

/-- A piece integrates as soon as everything it needs has. -/
lemma mem_integrated (ha : a ∈ S) (h : ∀ b, needs a b → b ∈ integrated needs S) :
    a ∈ integrated needs S :=
  .intro ha h

lemma integrated_mono (h : S ⊆ T) : integrated needs S ⊆ integrated needs T := by
  intro a ha
  induction ha with
  | intro mem _ ih => exact .intro (h mem) ih

/-- The integrated part stands on its own. -/
lemma integrated_integrated (S : Set α) :
    integrated needs (integrated needs S) = integrated needs S := by
  refine Set.Subset.antisymm integrated_subset ?_
  intro a ha
  induction ha with
  | intro mem deps ih => exact .intro (.intro mem deps) ih

lemma selfContained_integrated (S : Set α) : SelfContained needs (integrated needs S) :=
  (integrated_integrated S).ge

lemma SelfContained.integrated_eq (h : SelfContained needs S) : integrated needs S = S :=
  integrated_subset.antisymm h

/-- A self-contained part of `T` is integrated in `T`. -/
lemma SelfContained.subset_integrated (h : SelfContained needs S) (hST : S ⊆ T) :
    S ⊆ integrated needs T :=
  h.trans (integrated_mono hST)

/-- Nothing is parked exactly when the set is self-contained. -/
lemma parked_eq_empty : parked needs S = ∅ ↔ SelfContained needs S :=
  Set.sdiff_eq_empty

@[simp] lemma integrated_empty : integrated needs (∅ : Set α) = ∅ :=
  Set.subset_empty_iff.1 integrated_subset

lemma selfContained_empty : SelfContained needs (∅ : Set α) := Set.empty_subset _

/-- Content that integrates cleanly over the integrated part of `S` was already in it, as long
as it came from `S`. -/
lemma subset_of_selfContained_union (hT : T ⊆ S)
    (h : SelfContained needs (integrated needs S ∪ T)) : T ⊆ integrated needs S :=
  Set.subset_union_right.trans
    (h.subset_integrated (Set.union_subset integrated_subset hT))

/-- A gap closes when its missing dependencies come in: if every piece that `a` needs is
either integrated after all or is one of the pieces added, `a` integrates. -/
lemma mem_integrated_union (ha : a ∈ S) (hT : SelfContained needs T)
    (h : ∀ b, needs a b → b ∈ integrated needs S ∨ b ∈ T) :
    a ∈ integrated needs (S ∪ T) := by
  refine mem_integrated (.inl ha) fun b hb => ?_
  rcases h b hb with hS | hbT
  · exact integrated_mono Set.subset_union_left hS
  · exact hT.subset_integrated Set.subset_union_right hbT

end Causal
