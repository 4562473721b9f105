import Yrby.Framework.Transition
import Mathlib.Logic.Function.Basic

/-!
# Processes that share a state

Any number of processes, named by natural numbers, run over one shared state.  Each has a local
state: where it is, and what it remembers.  A step belongs to one process, reads and writes the
shared state and its own local state, and leaves every other process where it was; the
environment picks which process goes next.

`Inv.act` is the rely-guarantee rule.  Every process carries an assertion about the shared
state.  It is enough that a step keeps the invariant of the shared state, establishes the
assertion of the process that takes it, and changes the shared state only in ways (`guarantee`)
that the assertions of the others survive.
-/

namespace Interleaving

variable {G L α : Type*}

/-- What process `p` does in action `a`, in shared state `g` and local state `l`. -/
structure System (G L α : Type*) where
  step : (p : ℕ) → (g : G) → (l : L) → (a : α) → Option (G × L)

structure Config (G L : Type*) where
  shared : G
  locals : ℕ → L

/-- One process takes a step. -/
def System.act (M : System G L α) (c : Config G L) (pa : ℕ × α) : Option (Config G L) :=
  (M.step pa.1 c.shared (c.locals pa.1) pa.2).map fun r =>
    ⟨r.1, Function.update c.locals pa.1 r.2⟩

/-- An invariant of the shared state and an assertion for every process. -/
structure Inv (I : G → Prop) (A : G → ℕ → L → Prop) (c : Config G L) : Prop where
  shared : I c.shared
  locals : ∀ p, A c.shared p (c.locals p)

variable {M : System G L α} {c c' : Config G L} {p : ℕ} {a : α}

lemma System.act_eq_some :
    M.act c (p, a) = some c' ↔
      ∃ g l, M.step p c.shared (c.locals p) a = some (g, l) ∧
        c' = ⟨g, Function.update c.locals p l⟩ := by
  simp [System.act, eq_comm]

/-- **The rely-guarantee rule.** -/
theorem Inv.act {I : G → Prop} {A : G → ℕ → L → Prop} {guarantee : ℕ → G → G → Prop}
    (hstep : ∀ p g l a g' l', I g → A g p l → M.step p g l a = some (g', l') →
      I g' ∧ A g' p l' ∧ guarantee p g g')
    (hstable : ∀ p q g g' l, q ≠ p → guarantee p g g' → A g q l → A g' q l)
    (hc : Inv I A c) (h : M.act c (p, a) = some c') : Inv I A c' := by
  obtain ⟨g, l, hs, rfl⟩ := System.act_eq_some.1 h
  obtain ⟨hI, hA, hG⟩ := hstep p _ _ a g l hc.shared (hc.locals p) hs
  refine ⟨hI, fun q => ?_⟩
  by_cases hq : q = p
  · subst hq
    simpa using hA
  · simpa [Function.update_of_ne hq] using hstable p q _ g _ hq hG (hc.locals q)

/-- The rule for whole runs. -/
theorem Inv.run {I : G → Prop} {A : G → ℕ → L → Prop} {guarantee : ℕ → G → G → Prop}
    (hstep : ∀ p g l a g' l', I g → A g p l → M.step p g l a = some (g', l') →
      I g' ∧ A g' p l' ∧ guarantee p g g')
    (hstable : ∀ p q g g' l, q ≠ p → guarantee p g g' → A g q l → A g' q l)
    (hc : Inv I A c) {as : List (ℕ × α)} (h : Transition.run M.act c as = some c') :
    Inv I A c' :=
  Transition.run_invariant (fun _ _ _ hc h => hc.act hstep hstable h) hc h

end Interleaving
