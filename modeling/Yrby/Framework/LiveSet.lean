import Mathlib.Data.List.Basic

/-!
# Sets that are iterated while they change

An insertion-ordered set as JavaScript keeps it: a list of entries in which a deleted entry leaves
an empty place.  An iteration is an index; it goes on to the next entry that is there when it is
asked (`next`), so it visits what is added on the way and skips what was deleted.

Places are never reused, so an index says which entries an iteration has visited.
-/

variable {α : Type*}

structure LiveSet (α : Type*) where
  entries : List (Option α) := []

namespace LiveSet

instance : Membership α (LiveSet α) := ⟨fun s a => some a ∈ s.entries⟩

lemma mem_def {s : LiveSet α} {a : α} : a ∈ s ↔ some a ∈ s.entries := Iff.rfl

/-- `size` is zero. -/
def isEmpty (s : LiveSet α) : Bool := s.entries.all Option.isNone

def clear (s : LiveSet α) : LiveSet α := ⟨s.entries.map fun _ => none⟩

/-- The first entry from a place on, with its place. -/
def nextFrom : ℕ → List (Option α) → Option (ℕ × α)
  | _, [] => none
  | i, some a :: _ => some (i, a)
  | i, none :: es => nextFrom (i + 1) es

def next (s : LiveSet α) (i : ℕ) : Option (ℕ × α) := nextFrom i (s.entries.drop i)

section

variable [DecidableEq α]

instance (s : LiveSet α) (a : α) : Decidable (a ∈ s) :=
  inferInstanceAs (Decidable (some a ∈ s.entries))

def add (s : LiveSet α) (a : α) : LiveSet α := if a ∈ s then s else ⟨s.entries ++ [some a]⟩

def delete (s : LiveSet α) (a : α) : LiveSet α :=
  ⟨s.entries.map fun e => if e = some a then none else e⟩

end

variable {s t u : LiveSet α} {a b : α} {i j k : ℕ}

/-! ## Members -/

lemma isEmpty_iff : s.isEmpty = true ↔ ∀ a, a ∉ s := by
  rw [isEmpty, List.all_eq_true]
  constructor
  · intro h a mem
    exact Bool.noConfusion (h _ mem)
  · intro h e mem
    cases e with
    | none => rfl
    | some a => exact absurd mem (h a)

@[simp] lemma not_mem_clear : a ∉ s.clear := by
  simp [mem_def, clear]

@[simp] lemma not_mem_empty : a ∉ (⟨[]⟩ : LiveSet α) := by
  simp [mem_def]

lemma mem_iff_place : a ∈ s ↔ ∃ i : ℕ, s.entries[i]? = some (some a) := List.mem_iff_getElem?

section

variable [DecidableEq α]

lemma mem_add : b ∈ s.add a ↔ b ∈ s ∨ b = a := by
  rw [add]
  split
  · rename_i mem
    constructor
    · exact .inl
    · rintro (old | rfl)
      · exact old
      · exact mem
  · simp [mem_def]

lemma mem_delete : b ∈ s.delete a ↔ b ∈ s ∧ b ≠ a := by
  rw [mem_def, delete, List.mem_map]
  constructor
  · rintro ⟨e, mem, same⟩
    split at same
    · cases same
    · rename_i other
      subst same
      exact ⟨mem, fun h => other (by rw [h])⟩
  · rintro ⟨mem, other⟩
    exact ⟨some b, mem, if_neg fun h => other (Option.some.inj h)⟩

end

/-! ## Iteration -/

lemma nextFrom_eq_some {es : List (Option α)} (h : nextFrom i es = some (j, a)) :
    i ≤ j ∧ es[j - i]? = some (some a) ∧ ∀ k, i ≤ k → k < j → es[k - i]? = some none := by
  induction es generalizing i with
  | nil => cases h
  | cons e es ih =>
    cases e with
    | some b =>
      obtain ⟨rfl, rfl⟩ := Prod.mk.inj (Option.some.inj h)
      refine ⟨Nat.le_refl _, by simp, ?_⟩
      intro k lo hi
      omega
    | none =>
      obtain ⟨le, here, skipped⟩ := ih h
      have shift : ∀ k, i + 1 ≤ k → (none :: es)[k - i]? = es[k - (i + 1)]? := by
        intro k hk
        obtain ⟨n, rfl⟩ := Nat.exists_eq_add_of_le hk
        have : i + 1 + n - i = n + 1 := by omega
        rw [this, List.getElem?_cons_succ]
        congr 1
        omega
      refine ⟨by omega, by rw [shift j le, here], ?_⟩
      intro k lo hi
      rcases Nat.lt_or_ge i k with later | first
      · rw [shift k later, skipped k later hi]
      · obtain rfl : k = i := by omega
        simp

lemma nextFrom_eq_none {es : List (Option α)} (h : nextFrom i es = none) :
    ∀ e ∈ es, e = none := by
  induction es generalizing i with
  | nil => simp
  | cons e es ih =>
    cases e with
    | some b => cases h
    | none =>
      intro e mem
      rcases List.mem_cons.1 mem with rfl | rest
      · rfl
      · exact ih h e rest

/-- The iteration goes on at a later place, over places that are empty. -/
lemma next_eq_some (h : s.next i = some (j, a)) :
    i ≤ j ∧ s.entries[j]? = some (some a) ∧
      ∀ k, i ≤ k → k < j → s.entries[k]? = some none := by
  obtain ⟨le, here, skipped⟩ := nextFrom_eq_some h
  have shift : ∀ k, i ≤ k → (s.entries.drop i)[k - i]? = s.entries[k]? := by
    intro k hk
    rw [List.getElem?_drop]
    congr 1
    omega
  refine ⟨le, by rw [← shift j le, here], fun k lo hi => by rw [← shift k lo, skipped k lo hi]⟩

lemma mem_of_next (h : s.next i = some (j, a)) : a ∈ s :=
  mem_iff_place.2 ⟨j, (next_eq_some h).2.1⟩

/-- The iteration ends where no entry is left. -/
lemma next_eq_none (h : s.next i = none) {a : α} (hk : s.entries[k]? = some (some a)) : k < i := by
  by_contra le
  have mem : some a ∈ s.entries.drop i := by
    refine List.mem_iff_getElem?.2 ⟨k - i, ?_⟩
    rw [List.getElem?_drop, ← hk]
    congr 1
    omega
  cases nextFrom_eq_none h _ mem

/-- Deletion moves nothing: an entry that is left was there before. -/
lemma place_of_delete [DecidableEq α] (h : (s.delete a).entries[i]? = some (some b)) :
    s.entries[i]? = some (some b) := by
  rw [delete, List.getElem?_map, Option.map_eq_some_iff] at h
  obtain ⟨e, he, same⟩ := h
  split at same
  · cases same
  · rw [he, same]

end LiveSet
