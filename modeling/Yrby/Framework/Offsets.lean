import Mathlib.Algebra.BigOperators.Group.List.Basic
import Mathlib.Algebra.GroupWithZero.Nat
import Mathlib.Order.Monotone.Basic
import Mathlib.Order.Nat
import Mathlib.Tactic.WLOG

/-!
# Places in a sequence and offsets in its encoding

Every element of a sequence is encoded by one or more units, and its width is how many.  Place `k`
is the one before element `k`.  `offset` says at which unit a place is and `count` goes back, and an
edit of the units between two such offsets is the edit of the elements between the two places
(`splice_encode`).
-/

namespace Offsets

/-! ## Widths -/

/-- The offset of place `k`.  Places behind the last one have its offset. -/
def offset (ws : List ℕ) (k : ℕ) : ℕ := (ws.take k).sum

/-- How many elements begin before offset `u`. -/
def count : List ℕ → ℕ → ℕ
  | [], _ => 0
  | w :: ws, u => if u = 0 then 0 else count ws (u - w) + 1

section Widths

variable {ws : List ℕ}

@[simp] lemma offset_nil (k : ℕ) : offset [] k = 0 := by
  simp [offset]

@[simp] lemma offset_zero (ws : List ℕ) : offset ws 0 = 0 := by
  simp [offset]

@[simp] lemma offset_cons_succ (w : ℕ) (ws : List ℕ) (k : ℕ) :
    offset (w :: ws) (k + 1) = w + offset ws k := by
  simp [offset]

lemma offset_of_length_le {k : ℕ} (h : ws.length ≤ k) : offset ws k = ws.sum := by
  rw [offset, List.take_of_length_le h]

lemma offset_append (vs ws : List ℕ) (k : ℕ) :
    offset (vs ++ ws) k = offset vs k + offset ws (k - vs.length) := by
  simp [offset, List.take_append]

lemma offset_mono (ws : List ℕ) : Monotone (offset ws) := by
  intro j k h
  induction ws generalizing j k with
  | nil => simp
  | cons w ws ih =>
    cases j with
    | zero => simp
    | succ j =>
      cases k with
      | zero => omega
      | succ k =>
        have := ih (Nat.le_of_succ_le_succ h)
        rw [offset_cons_succ, offset_cons_succ]
        omega

lemma offset_le_sum (ws : List ℕ) (k : ℕ) : offset ws k ≤ ws.sum := by
  rcases Nat.le_total k ws.length with h | h
  · rw [← offset_of_length_le (Nat.le_refl ws.length)]
    exact offset_mono ws h
  · exact (offset_of_length_le h).le

lemma length_le_sum (h : ∀ w ∈ ws, 0 < w) : ws.length ≤ ws.sum := by
  induction ws with
  | nil => simp
  | cons w ws ih =>
    have first := h w (by simp)
    have rest := ih fun v hv => h v (by simp [hv])
    rw [List.length_cons, List.sum_cons]
    omega

@[simp] lemma count_zero (ws : List ℕ) : count ws 0 = 0 := by
  cases ws <;> simp [count]

lemma count_append (vs ws : List ℕ) (u : ℕ) :
    count (vs ++ ws) u = count vs u + count ws (u - vs.sum) := by
  induction vs generalizing u with
  | nil => simp [count]
  | cons v vs ih =>
    by_cases none : u = 0
    · simp [none]
    · rw [List.cons_append, count, count, if_neg none, if_neg none, ih, List.sum_cons, Nat.sub_sub]
      omega

lemma count_le_length (ws : List ℕ) (u : ℕ) : count ws u ≤ ws.length := by
  induction ws generalizing u with
  | nil => simp [count]
  | cons w ws ih =>
    have rest := ih (u - w)
    rw [count, List.length_cons]
    split <;> omega

/-- From an offset back to its place. -/
lemma count_offset (h : ∀ w ∈ ws, 0 < w) (k : ℕ) : count ws (offset ws k) = min k ws.length := by
  induction ws generalizing k with
  | nil => simp [count]
  | cons w ws ih =>
    have first := h w (by simp)
    cases k with
    | zero => simp [count]
    | succ k =>
      have some : w + offset ws k ≠ 0 := by omega
      rw [offset_cons_succ, count, if_neg some, Nat.add_sub_cancel_left,
        ih fun v hv => h v (by simp [hv]), List.length_cons, Nat.succ_min_succ]

/-- Sequences of one length with the same offsets have the same widths. -/
lemma eq_of_offset_eq {vs ws : List ℕ} (length : vs.length = ws.length)
    (h : ∀ k, offset vs k = offset ws k) : vs = ws := by
  induction vs generalizing ws with
  | nil => exact (List.length_eq_zero_iff.1 length.symm).symm
  | cons v vs ih =>
    cases ws with
    | nil => simp at length
    | cons w ws =>
      have first : v = w := by simpa [offset] using h 1
      have rest : vs = ws := by
        apply ih (by simpa using length)
        intro k
        have next := h (k + 1)
        rw [offset_cons_succ, offset_cons_succ] at next
        omega
      rw [first, rest]

end Widths

/-! ## Ordinals -/

/-- Elements up to the `k`th of those that `f` picks. -/
lemma exists_of_getElem?_filterMap {α β : Type*} {f : α → Option β} {xs : List α} {k : ℕ} {b : β}
    (h : (xs.filterMap f)[k]? = some b) :
    ∃ front x back, xs = front ++ x :: back ∧ f x = some b ∧ (front.filterMap f).length = k := by
  obtain ⟨hk, hb⟩ := List.getElem?_eq_some_iff.1 h
  have cut : xs.filterMap f = (xs.filterMap f).take k ++ b :: (xs.filterMap f).drop (k + 1) := by
    rw [← hb, List.getElem_cons_drop, List.take_append_drop]
  obtain ⟨front, rest, rfl, hfront, hrest⟩ := List.filterMap_eq_append_iff.1 cut
  obtain ⟨others, x, back, rfl, none, hx, -⟩ := List.filterMap_eq_cons_iff.1 hrest
  refine ⟨front ++ others, x, back, (List.append_assoc _ _ _).symm, hx, ?_⟩
  rw [List.filterMap_append, List.filterMap_eq_nil_iff.2 none, List.append_nil, hfront,
    List.length_take_of_le hk.le]

/-- The stretch that a unit lies in. -/
lemma exists_of_getElem?_flatMap {α β : Type*} {f : α → List β} {xs : List α} {i : ℕ} {u : β}
    (h : (xs.flatMap f)[i]? = some u) :
    ∃ before x after first rest, xs = before ++ x :: after ∧ f x = first ++ u :: rest ∧
      i = (before.flatMap f ++ first).length := by
  induction xs generalizing i with
  | nil => simp at h
  | cons x xs ih =>
    rw [List.flatMap_cons] at h
    rcases Nat.lt_or_ge i (f x).length with inside | behind
    · rw [List.getElem?_append_left inside] at h
      obtain ⟨-, rfl⟩ := List.getElem?_eq_some_iff.1 h
      refine ⟨[], x, xs, (f x).take i, (f x).drop (i + 1), rfl, ?_, ?_⟩
      · rw [List.getElem_cons_drop, List.take_append_drop]
      · simp [inside.le]
    · rw [List.getElem?_append_right behind] at h
      obtain ⟨before, y, after, first, rest, rfl, cut, place⟩ := ih h
      refine ⟨x :: before, y, after, first, rest, rfl, cut, ?_⟩
      rw [List.flatMap_cons, List.append_assoc, List.length_append, ← place]
      omega

/-! ## Edits -/

section Edits

variable {α β : Type*}

/-- Replace what stands between two places. -/
def splice (xs : List α) (i j : ℕ) (ys : List α) : List α := xs.take i ++ ys ++ xs.drop j

lemma splice_self (xs : List α) (i : ℕ) : splice xs i i [] = xs := by
  simp [splice]

/-- Only one place gives the same result for every text: two different elements tell them apart. -/
lemma eq_of_splice_eq {xs : List α} {i j : ℕ} (hi : i ≤ xs.length) (hj : j ≤ xs.length) {a b : α}
    (hab : a ≠ b) (ha : splice xs i i [a] = splice xs j j [a])
    (hb : splice xs i i [b] = splice xs j j [b]) : i = j := by
  wlog h : i < j generalizing i j
  · rcases Nat.lt_trichotomy i j with before | same | behind
    · exact absurd before h
    · exact same
    · exact (this hj hi ha.symm hb.symm behind).symm
  -- The element at place `i` is `a` on one side and the old one on the other.
  have at_i : ∀ c : α, splice xs i i [c] = splice xs j j [c] → xs[i]? = some c := by
    intro c hc
    have left : (splice xs i i [c])[i]? = some c := by
      have place : (xs.take i).length = i := List.length_take_of_le hi
      rw [splice, List.append_assoc, List.getElem?_append_right (by omega), place, Nat.sub_self]
      rfl
    have right : (splice xs j j [c])[i]? = xs[i]? := by
      have place : i < (xs.take j).length := by rw [List.length_take_of_le hj]; exact h
      rw [splice, List.append_assoc, List.getElem?_append_left place, List.getElem?_take_of_lt h]
    rw [← right, ← hc, left]
  exact absurd (Option.some.inj ((at_i a ha).symm.trans (at_i b hb))) hab

variable (enc : α → List β)

/-- The widths of a sequence's elements. -/
def widths (xs : List α) : List ℕ := xs.map fun a => (enc a).length

@[simp] lemma widths_nil : widths enc [] = [] := rfl

@[simp] lemma widths_append (xs ys : List α) :
    widths enc (xs ++ ys) = widths enc xs ++ widths enc ys := by
  simp [widths]

@[simp] lemma length_widths (xs : List α) : (widths enc xs).length = xs.length := by
  simp [widths]

lemma length_encode (xs : List α) : (xs.flatMap enc).length = (widths enc xs).sum := by
  rw [List.length_flatMap, widths]

lemma offset_widths_length (xs : List α) :
    offset (widths enc xs) xs.length = (xs.flatMap enc).length := by
  rw [offset_of_length_le (by simp), length_encode]

/-- The offset behind a prefix. -/
lemma offset_widths_append (xs ys : List α) :
    offset (widths enc (xs ++ ys)) xs.length = (xs.flatMap enc).length := by
  rw [widths_append, offset_append, length_widths, Nat.sub_self, offset_zero, Nat.add_zero,
    offset_widths_length]

lemma take_encode (xs : List α) (k : ℕ) :
    (xs.flatMap enc).take (offset (widths enc xs) k) = (xs.take k).flatMap enc := by
  have h := List.take_sum_flatten (xs.map enc) k
  rw [List.flatMap_def, List.flatMap_def, List.map_take, ← h, offset, widths, List.map_map]
  rfl

lemma drop_encode (xs : List α) (k : ℕ) :
    (xs.flatMap enc).drop (offset (widths enc xs) k) = (xs.drop k).flatMap enc := by
  have h := List.drop_sum_flatten (xs.map enc) k
  rw [List.flatMap_def, List.flatMap_def, List.map_drop, ← h, offset, widths, List.map_map]
  rfl

/-- An edit of the units between two places is the edit of the elements. -/
theorem splice_encode (xs ys : List α) (i j : ℕ) :
    splice (xs.flatMap enc) (offset (widths enc xs) i) (offset (widths enc xs) j) (ys.flatMap enc) =
      (splice xs i j ys).flatMap enc := by
  simp only [splice, take_encode, drop_encode, List.flatMap_append]

end Edits

end Offsets
