import Mathlib.Data.List.Induction
import Mathlib.Order.Lattice
import Mathlib.Order.Nat

/-!
# Presence from Ruby (`RbAwareness`)

A Ruby process publishes presence with `set_local_state` and takes it back with
`clear_local_state`.  Both return a frame with one entry for the process's own client: a clock and
a state.  A peer keeps the entry with the highest clock, as y-protocols does.

yrs keeps the clock of an entry for as long as the entry is there.  `clear_local_state` drops the
entry, and the next `set_local_state` starts a new one at yrs's initial clock, below the clock that
the removal went out with.  So a peer ignores a presence that is set again, until the new entry's
clock has passed every removal (`shows_iff`).

The initial clock is yrs's, and a parameter.
-/

namespace Yrby

namespace RbAwareness

variable {State : Type}

/-! ## The handle -/

/-- The entry of a client, in yrs's awareness and in a frame.  The state `null` is none. -/
structure Entry (State : Type) where
  clock : ℕ
  state : Option State
  deriving DecidableEq

/-- A method call that publishes something. -/
inductive Call (State : Type)
  | setLocalState (state : Option State)
  | clearLocalState

-- The clock at which yrs starts an entry.
variable (initial : ℕ)

/-- `Awareness::set_local_state` of yrs, on the handle's own entry. -/
def bump (entry : Option (Entry State)) (state : Option State) : Entry State :=
  match entry with
  | some e => ⟨e.clock + 1, state⟩
  | none => ⟨initial, state⟩

/-- `set_local_state`: the entry it leaves and the frame it returns. -/
def setLocalState (entry : Option (Entry State)) (state : Option State) :
    Option (Entry State) × Entry State :=
  let e := bump initial entry state
  (some e, e)

/-- `clear_local_state` -/
def clearLocalState (entry : Option (Entry State)) : Option (Entry State) × Entry State :=
  let clock := (entry.map Entry.clock).getD 0
  (none, ⟨clock + 1, none⟩)

def call (entry : Option (Entry State)) : Call State → Option (Entry State) × Entry State
  | .setLocalState state => setLocalState initial entry state
  | .clearLocalState => clearLocalState entry

/-! ## A peer -/

/-- What a peer that has not heard of the client knows of it. -/
def unknown : Entry State := ⟨0, none⟩

/-- `applyAwarenessUpdate` of y-protocols, for one entry. -/
def receive (known frame : Entry State) : Entry State :=
  if known.clock < frame.clock ∨
      (known.clock = frame.clock ∧ frame.state.isNone ∧ known.state.isSome) then frame
  else known

/-- The handle's entry and what a peer knows, after calls whose frames all reached the peer. -/
def run (calls : List (Call State)) : Option (Entry State) × Entry State :=
  calls.foldl
    (fun s c =>
      let (entry, frame) := call initial s.1 c
      (entry, receive s.2 frame))
    (none, unknown)

/-- What the last call published. -/
def wanted (calls : List (Call State)) : Option State :=
  match calls.getLast? with
  | some (.setLocalState state) => state
  | _ => none

/-- The peer shows what the last call published. -/
def Shows (calls : List (Call State)) : Prop := (run initial calls).2.state = wanted calls

/-! ## The clocks of a sequence of calls

The calls alone determine every clock.  A stretch is the sets between two removals. -/

/-- How many sets there were since the last removal. -/
def sets (calls : List (Call State)) : ℕ :=
  calls.foldl (fun n c => match c with | .setLocalState _ => n + 1 | .clearLocalState => 0) 0

/-- The clock of the entry after so many sets, zero when there is none. -/
def entryClock (n : ℕ) : ℕ := if n = 0 then 0 else initial + n - 1

/-- The clock of a removal after so many sets. -/
def removalClock (n : ℕ) : ℕ := if n = 0 then 1 else initial + n

@[simp] lemma entryClock_zero : entryClock initial 0 = 0 := rfl

lemma entryClock_succ (n : ℕ) : entryClock initial (n + 1) = initial + n := by
  simp [entryClock]

lemma entryClock_lt_removalClock (n : ℕ) : entryClock initial n < removalClock initial n := by
  unfold entryClock removalClock
  split <;> omega

/-- The highest clock of the removals, zero when there is none. -/
def highestRemoval (calls : List (Call State)) : ℕ :=
  (calls.foldl
    (fun s c =>
      match c with
      | .setLocalState _ => (s.1 + 1, s.2)
      | .clearLocalState => (0, max s.2 (removalClock initial s.1)))
    (0, 0)).2

section Clocks

variable (calls : List (Call State))

@[simp] lemma sets_append_set (state : Option State) :
    sets (calls ++ [.setLocalState state]) = sets calls + 1 := by
  simp [sets]

@[simp] lemma sets_append_clear : sets (calls ++ [.clearLocalState]) = 0 := by
  simp [sets]

/-- The fold of `highestRemoval` counts the sets as `sets` does. -/
lemma highestRemoval_fold :
    calls.foldl
      (fun s c =>
        match c with
        | .setLocalState _ => (s.1 + 1, s.2)
        | .clearLocalState => (0, max s.2 (removalClock initial s.1)))
      (0, 0) = (sets calls, highestRemoval initial calls) := by
  suffices h : (calls.foldl
      (fun (s : ℕ × ℕ) c =>
        match c with
        | .setLocalState _ => (s.1 + 1, s.2)
        | .clearLocalState => (0, max s.2 (removalClock initial s.1)))
      (0, 0)).1 = sets calls from Prod.ext h rfl
  induction calls using List.reverseRecOn with
  | nil => rfl
  | append_singleton calls c ih =>
    cases c with
    | setLocalState state => simp [ih]
    | clearLocalState => simp

@[simp] lemma highestRemoval_append_set (state : Option State) :
    highestRemoval initial (calls ++ [.setLocalState state]) = highestRemoval initial calls := by
  simp [highestRemoval]

@[simp] lemma highestRemoval_append_clear :
    highestRemoval initial (calls ++ [.clearLocalState]) =
      max (highestRemoval initial calls) (removalClock initial (sets calls)) := by
  rw [highestRemoval, List.foldl_append, highestRemoval_fold]
  rfl

@[simp] lemma wanted_append (c : Call State) :
    wanted (calls ++ [c]) =
      match c with
      | .setLocalState state => state
      | .clearLocalState => none := by
  cases c <;> simp [wanted]

end Clocks

/-! ## What the peer knows -/

/-- The handle has an entry while there are sets since the last removal.  The peer's clock is the
highest of all frames, and it shows the entry once the entry's clock has passed the removals. -/
structure Follows (calls : List (Call State)) : Prop where
  entry : (run initial calls).1 =
    if sets calls = 0 then none else some ⟨entryClock initial (sets calls), wanted calls⟩
  clock : (run initial calls).2.clock =
    max (highestRemoval initial calls) (entryClock initial (sets calls))
  state : (run initial calls).2.state =
    if highestRemoval initial calls < entryClock initial (sets calls) then wanted calls else none

lemma run_append (calls : List (Call State)) (c : Call State) :
    run initial (calls ++ [c]) =
      ((call initial (run initial calls).1 c).1,
        receive (run initial calls).2 (call initial (run initial calls).1 c).2) := by
  simp [run]

/-- Setting a state: the frame counts if its clock has passed the removals. -/
lemma Follows.set {calls : List (Call State)} (h : Follows initial calls) (state : Option State) :
    Follows initial (calls ++ [.setLocalState state]) := by
  obtain ⟨known, hknown⟩ : ∃ known, known = (run initial calls).2 := ⟨_, rfl⟩
  have hclock := h.clock
  have hstate := h.state
  rw [← hknown] at hclock hstate
  have frame : bump initial (run initial calls).1 state =
      ⟨entryClock initial (sets calls + 1), state⟩ := by
    rw [h.entry]
    cases sets calls with
    | zero => simp [bump, entryClock]
    | succ n => simp [bump, entryClock_succ, Nat.add_assoc]
  -- The clock grows with each set, but for a first one at clock zero.
  have later : entryClock initial (sets calls) < entryClock initial (sets calls + 1) ∨
      entryClock initial (sets calls) = 0 ∧ entryClock initial (sets calls + 1) = initial := by
    cases sets calls with
    | zero => simp [entryClock_succ]
    | succ n => simp [entryClock_succ]
  have received : receive known ⟨entryClock initial (sets calls + 1), state⟩ =
      ⟨max (highestRemoval initial calls) (entryClock initial (sets calls + 1)),
        if highestRemoval initial calls < entryClock initial (sets calls + 1) then state
        else none⟩ := by
    unfold receive
    by_cases passed : highestRemoval initial calls < entryClock initial (sets calls + 1)
    · have accepted : known.clock < entryClock initial (sets calls + 1) := by
        omega
      rw [if_pos (.inl accepted), if_pos passed, max_eq_right passed.le]
    · have hidden : ¬highestRemoval initial calls < entryClock initial (sets calls) := by omega
      have none : known.state = none := by rw [hstate, if_neg hidden]
      have ignored : ¬known.clock < entryClock initial (sets calls + 1) := by omega
      have same : known.clock =
          max (highestRemoval initial calls) (entryClock initial (sets calls + 1)) := by omega
      rw [if_neg (by simp [ignored, none]), if_neg passed, ← same, ← none]
  refine ⟨?_, ?_, ?_⟩
  · simp [run_append, call, setLocalState, frame]
  · simp [run_append, call, setLocalState, frame, ← hknown, received]
  · simp [run_append, call, setLocalState, frame, ← hknown, received]

/-- Clearing: the removal is ignored only by a peer that shows nothing. -/
lemma Follows.clear {calls : List (Call State)} (h : Follows initial calls) :
    Follows initial (calls ++ [.clearLocalState]) := by
  obtain ⟨known, hknown⟩ : ∃ known, known = (run initial calls).2 := ⟨_, rfl⟩
  have hclock := h.clock
  have hstate := h.state
  rw [← hknown] at hclock hstate
  have frame : clearLocalState (run initial calls).1 =
      (none, ⟨removalClock initial (sets calls), none⟩) := by
    rw [h.entry]
    cases sets calls with
    | zero => simp [clearLocalState, removalClock]
    | succ n => simp [clearLocalState, removalClock, entryClock_succ, Nat.add_assoc]
  have before := entryClock_lt_removalClock initial (sets calls)
  have received : receive known ⟨removalClock initial (sets calls), none⟩ =
      ⟨max (highestRemoval initial calls) (removalClock initial (sets calls)), none⟩ := by
    unfold receive
    by_cases passed : highestRemoval initial calls < removalClock initial (sets calls)
    · have accepted : known.clock < removalClock initial (sets calls) := by omega
      rw [if_pos (.inl accepted), max_eq_right passed.le]
    · have hidden : ¬highestRemoval initial calls < entryClock initial (sets calls) := by omega
      have nothing : known.state = none := by rw [hstate, if_neg hidden]
      have ignored : ¬known.clock < removalClock initial (sets calls) := by omega
      have same : known.clock =
          max (highestRemoval initial calls) (removalClock initial (sets calls)) := by omega
      rw [if_neg (by simp [ignored, nothing]), ← same, ← nothing]
  refine ⟨?_, ?_, ?_⟩
  · simp [run_append, call, frame]
  · simp [run_append, call, frame, ← hknown, received, entryClock]
  · simp [run_append, call, frame, ← hknown, received]

lemma follows (calls : List (Call State)) : Follows initial calls := by
  induction calls using List.reverseRecOn with
  | nil => exact ⟨rfl, rfl, rfl⟩
  | append_singleton calls c ih =>
    cases c with
    | setLocalState state => exact ih.set initial state
    | clearLocalState => exact ih.clear initial

/-- Enough sets for the peer: the last call took the presence back, or the clock of the entry has
passed the clocks of all removals. -/
def EnoughSets (calls : List (Call State)) : Prop :=
  wanted calls = none ∨ highestRemoval initial calls < entryClock initial (sets calls)

/-- **What a peer shows.**  After any calls a peer shows what the last one published if and only if
that was nothing, or there were enough sets since the last removal. -/
theorem shows_iff (calls : List (Call State)) :
    Shows initial calls ↔ EnoughSets initial calls := by
  rw [Shows, (follows initial calls).state, EnoughSets]
  by_cases passed : highestRemoval initial calls < entryClock initial (sets calls)
  · simp [passed]
  · simp only [passed, if_false, or_false]
    exact eq_comm

/-- A presence that is set, cleared and set again stays invisible. -/
theorem set_again_ignored :
    ¬Shows 1 [.setLocalState (some "a"), .clearLocalState, .setLocalState (some "b")] := by
  unfold Shows
  decide

end RbAwareness

end Yrby
