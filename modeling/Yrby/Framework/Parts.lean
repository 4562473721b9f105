import Mathlib.Data.List.Basic

/-!
# Lists cut into consecutive parts

`Cut R bs xs` says that `xs` is cut into consecutive parts, one for each element of `bs` and in
their order, and that `R` relates each element to its part.  So every element of `xs` is in the
part of exactly one element of `bs`.

`chunks size` is the cut into parts of one size.  `Reduces R xs b` cuts a list again and again
until one element is left.  What an associative operation makes of the elements is the same at
every level (`gather_of_reduces`).
-/

namespace Parts

variable {α β γ M : Type*}

/-- The list is cut into parts, one for each of the elements on the left. -/
inductive Cut (R : β → List α → Prop) : List β → List α → Prop
  | nil : Cut R [] []
  | cons {b part bs xs} (head : R b part) (tail : Cut R bs xs) : Cut R (b :: bs) (part ++ xs)

/-- Repeated cuts, down to one element. -/
inductive Reduces (R : α → List α → Prop) : List α → α → Prop
  | done (b : α) : Reduces R [b] b
  | level {level next b} (cut : Cut R next level) (rest : Reduces R next b) : Reduces R level b

/-- Parts of one size, in order; the last one may be smaller. -/
def chunks (size : ℕ) : List α → List (List α)
  | [] => []
  | x :: xs => (x :: xs).take size :: chunks size (xs.drop (size - 1))
  termination_by xs => xs.length
  decreasing_by
    rw [List.length_drop, List.length_cons]
    omega

/-- The elements of a list under an operation, from the left; a list without elements has no
value. -/
def gather (op : M → M → M) : List M → Option M
  | [] => none
  | x :: xs => some (xs.foldl op x)

namespace Cut

variable {R : β → List α → Prop} {bs cs : List β} {xs ys part : List α} {b : β}

lemma single (h : R b part) : Cut R [b] part := by
  have whole := Cut.cons h (Cut.nil (R := R))
  rwa [List.append_nil] at whole

lemma append (h : Cut R bs xs) (h' : Cut R cs ys) : Cut R (bs ++ cs) (xs ++ ys) := by
  induction h with
  | nil => exact h'
  | cons head tail ih =>
    rw [List.cons_append, List.append_assoc]
    exact .cons head ih

lemma concat (h : Cut R bs xs) (hb : R b part) : Cut R (bs ++ [b]) (xs ++ part) :=
  h.append (single hb)

lemma mono {S : β → List α → Prop} (h : Cut R bs xs) (himp : ∀ b part, R b part → S b part) :
    Cut S bs xs := by
  induction h with
  | nil => exact .nil
  | cons head tail ih => exact .cons (himp _ _ head) ih

/-- What is read off each part is read off the whole list. -/
lemma flatMap_eq {f : β → List γ} {g : α → List γ} (h : Cut R bs xs)
    (hR : ∀ b part, R b part → f b = part.flatMap g) : bs.flatMap f = xs.flatMap g := by
  induction h with
  | nil => rfl
  | cons head tail ih => rw [List.flatMap_cons, List.flatMap_append, hR _ _ head, ih]

end Cut

section MapM

variable {f : List α → Option β} {parts : List (List α)} {bs : List β}

lemma mapM_eq_none_iff : parts.mapM f = none ↔ ∃ part ∈ parts, f part = none := by
  induction parts with
  | nil => simp
  | cons part parts ih =>
    rw [List.mapM_cons]
    cases h : f part with
    | none => simp [h]
    | some b => cases hrest : parts.mapM f <;> simp_all

/-- Parts that are mapped one by one. -/
lemma cut_of_mapM (h : parts.mapM f = some bs) :
    Cut (fun b part => part ∈ parts ∧ f part = some b) bs parts.flatten := by
  induction parts generalizing bs with
  | nil =>
    obtain rfl : [] = bs := by simpa using h
    exact .nil
  | cons part parts ih =>
    simp only [List.mapM_cons, Option.bind_eq_bind, Option.bind_eq_some_iff] at h
    obtain ⟨b, hb, rest, hrest, hbs⟩ := h
    obtain rfl : b :: rest = bs := by simpa using hbs
    refine .cons ⟨List.mem_cons_self, hb⟩ ((ih hrest).mono fun _ _ h => ?_)
    exact ⟨List.mem_cons_of_mem part h.1, h.2⟩

end MapM

section Chunks

variable {size : ℕ} {xs chunk : List α}

lemma flatten_chunks (hsize : 0 < size) (xs : List α) : (chunks size xs).flatten = xs := by
  induction xs using chunks.induct size with
  | case1 => rw [chunks, List.flatten_nil]
  | case2 x xs ih =>
    obtain ⟨size, rfl⟩ := Nat.exists_eq_succ_of_ne_zero (Nat.ne_of_gt hsize)
    rw [chunks, List.flatten_cons, ih, List.take_succ_cons, List.cons_append,
      Nat.succ_sub_one, List.take_append_drop]

lemma length_le_of_mem_chunks (h : chunk ∈ chunks size xs) : chunk.length ≤ size := by
  induction xs using chunks.induct size with
  | case1 => simp [chunks] at h
  | case2 x xs ih =>
    rw [chunks, List.mem_cons] at h
    obtain rfl | h := h
    · exact List.length_take_le ..
    · exact ih h

lemma ne_nil_of_mem_chunks (hsize : 0 < size) (h : chunk ∈ chunks size xs) : chunk ≠ [] := by
  induction xs using chunks.induct size with
  | case1 => simp [chunks] at h
  | case2 x xs ih =>
    rw [chunks, List.mem_cons] at h
    obtain rfl | h := h
    · obtain ⟨size, rfl⟩ := Nat.exists_eq_succ_of_ne_zero (Nat.ne_of_gt hsize)
      exact List.cons_ne_nil x _
    · exact ih h

end Chunks

section Gather

variable {op : M → M → M} [Std.Associative op]

lemma gather_append (xs ys : List M) :
    gather op (xs ++ ys) = (gather op xs).merge op (gather op ys) := by
  cases xs with
  | nil => cases ys <;> rfl
  | cons x xs =>
    cases ys with
    | nil => simp [gather]
    | cons y ys =>
      rw [List.cons_append, gather, gather, gather, List.foldl_append, List.foldl_cons,
        List.foldl_assoc]
      rfl

/-- The parts of a cut, each gathered, make up the list. -/
lemma gather_of_cut {R : β → List α → Prop} {bs : List β} {xs : List α} {f : α → M} {g : β → M}
    (h : Cut R bs xs) (hR : ∀ b part, R b part → gather op (part.map f) = some (g b)) :
    gather op (bs.map g) = gather op (xs.map f) := by
  induction h with
  | nil => rfl
  | cons head tail ih =>
    rw [List.map_append, gather_append, hR _ _ head, ← ih, List.map_cons,
      ← List.singleton_append, gather_append]
    rfl

/-- One element is left, and it is what the list is worth. -/
theorem gather_of_reduces {R : α → List α → Prop} {xs : List α} {b : α} {f : α → M}
    (h : Reduces R xs b) (hR : ∀ b part, R b part → gather op (part.map f) = some (f b)) :
    gather op (xs.map f) = some (f b) := by
  induction h with
  | done b => rfl
  | level cut rest ih => rw [← ih, gather_of_cut cut hR]

end Gather

end Parts
