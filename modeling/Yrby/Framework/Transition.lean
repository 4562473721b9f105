import Mathlib.Data.List.Basic
import Mathlib.Data.Option.Basic

/-!
# Executable transition systems and their runs

A transition system is a partial step function `step : σ → α → Option σ`: it says what an
action does, or `none` when the action is not enabled.  `run` plays a list of actions.

`run_invariant` is the rule every safety property here goes through: what one step preserves,
a run preserves.  `Along ok` says that every step of a run meets a condition, read in the state
before the step; `run_invariant_along` is the invariant rule for such runs, and `along_iff`
compares two conditions.
-/

namespace Transition

variable {σ α : Type*} (step : σ → α → Option σ)

/-- Play a list of actions, stopping with `none` at the first one that is not enabled. -/
def run : σ → List α → Option σ
  | s, [] => some s
  | s, a :: as => (step s a).bind fun t => run t as

/-- Every action of the run is enabled and meets `ok` in the state it is taken in. -/
def Along (ok : σ → α → Prop) : σ → List α → Prop
  | _, [] => True
  | s, a :: as => ok s a ∧ ∀ t, step s a = some t → Along ok t as

variable {step} {ok : σ → α → Prop} {s t u : σ} {a : α} {as bs : List α}

/-- Conditions that can be checked can be checked along a run. -/
instance Along.decidable [∀ s a, Decidable (ok s a)] : ∀ s as, Decidable (Along step ok s as)
  | _, [] => isTrue trivial
  | s, a :: as =>
    have rest : Decidable (∀ t, step s a = some t → Along step ok t as) :=
      match h : step s a with
      | none => isTrue (by simp)
      | some t => @decidable_of_iff _ (Along step ok t as) (by simp) (decidable t as)
    inferInstanceAs (Decidable (ok s a ∧ _))

lemma run_cons_eq_some :
    run step s (a :: as) = some t ↔ ∃ m, step s a = some m ∧ run step m as = some t := by
  simp [run, Option.bind_eq_some_iff]

/-- **The invariant rule.**  What every step preserves, every run preserves. -/
theorem run_invariant {P : σ → Prop} (hstep : ∀ s a t, P s → step s a = some t → P t)
    (hs : P s) (h : run step s as = some t) : P t := by
  induction as generalizing s with
  | nil => simpa using (Option.some.inj h) ▸ hs
  | cons a as ih =>
      obtain ⟨m, hm, hrest⟩ := run_cons_eq_some.1 h
      exact ih (hstep s a m hs hm) hrest

/-- The invariant rule for runs whose steps all meet a condition. -/
theorem run_invariant_along {P : σ → Prop}
    (hstep : ∀ s a t, P s → ok s a → step s a = some t → P t)
    (hs : P s) (hok : Along step ok s as) (h : run step s as = some t) : P t := by
  induction as generalizing s with
  | nil => simpa using (Option.some.inj h) ▸ hs
  | cons a as ih =>
      obtain ⟨m, hm, hrest⟩ := run_cons_eq_some.1 h
      exact ih (hstep s a m hs hok.1 hm) (hok.2 m hm) hrest

/-- A condition that follows from another one wherever an invariant holds follows from it along
every run. -/
theorem Along.imp {ok' : σ → α → Prop} {I : σ → Prop} (h : Along step ok s as)
    (himp : ∀ s a, I s → ok s a → ok' s a)
    (hstep : ∀ s a t, I s → ok s a → step s a = some t → I t) (hs : I s) :
    Along step ok' s as := by
  induction as generalizing s with
  | nil => trivial
  | cons a as ih =>
      obtain ⟨ha, hrest⟩ := h
      exact ⟨himp s a hs ha, fun t ht => ih (hrest t ht) (hstep s a t hs ha ht)⟩

/-- Two conditions on the steps of a run agree along it, if they agree wherever an invariant holds
that the steps meeting the second one preserve. -/
theorem along_iff {ok' : σ → α → Prop} {I : σ → Prop} (hiff : ∀ s a, I s → (ok s a ↔ ok' s a))
    (hstep : ∀ s a t, I s → ok' s a → step s a = some t → I t) (hs : I s) :
    Along step ok s as ↔ Along step ok' s as := by
  induction as generalizing s with
  | nil => exact Iff.rfl
  | cons a as ih =>
      simp only [Along, hiff s a hs]
      refine and_congr_right fun hok => ?_
      exact forall_congr' fun t => forall_congr' fun ht => ih (hstep s a t hs hok ht)

/-- Every action meets the condition wherever it is taken. -/
theorem Along.of_forall (h : ∀ a ∈ as, ∀ s, ok s a) : Along step ok s as := by
  induction as generalizing s with
  | nil => trivial
  | cons a as ih =>
      exact ⟨h a (by simp) s, fun t _ => ih fun b hb => h b (List.mem_cons_of_mem a hb)⟩

/-- A run that goes on from where another one ends. -/
theorem Along.append (h : Along step ok s as)
    (h' : ∀ t, run step s as = some t → Along step ok t bs) : Along step ok s (as ++ bs) := by
  induction as generalizing s with
  | nil => exact h' s rfl
  | cons a as ih =>
      obtain ⟨ha, hrest⟩ := h
      refine ⟨ha, fun t ht => ih (hrest t ht) fun u hu => h' u ?_⟩
      exact run_cons_eq_some.2 ⟨t, ht, hu⟩

end Transition
