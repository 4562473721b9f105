import Yrby.Framework.LiveSet
import Yrby.Framework.Reentrant

/-!
# The Turbo adapter (`turbo_adapter.ts`)

One adapter for a document keeps the set of its mounts.  It activates and deactivates them when
Turbo renders a page, deactivates them before Turbo caches one, and looks again after two timeouts,
since a canceled navigation fires no event.  A mount's `activate` and `deactivate` may call back:
register and unregister mounts, dispatch the events, tear the adapter down.  So the adapters of a
document are a re-entrant machine, and every definition runs up to the next call of a mount.

Adapters and timeouts are numbered in the order they are created.  Mounts are numbers; what the
page says about them, and whether it is a preview, may change at any time.
-/

namespace Yrby

open Reentrant Transition

namespace TurboAdapter

abbrev Mount := ℕ

/-- `AdapterState` -/
inductive Phase
  | active (timer : Option ℕ)
  | destroyed

structure Adapter where
  mounts : LiveSet Mount := ⟨[]⟩
  phase : Phase := .active none
  /-- The adapter's listeners are attached. -/
  listening : Bool := true

def Adapter.isActive (x : Adapter) : Bool :=
  match x.phase with
  | .active _ => true
  | .destroyed => false

/-- What a timeout does when it fires: the first looks at the state, the second reconciles. -/
inductive Callback
  | recheck (adapter : ℕ)
  | reconcile (adapter : ℕ)

def Callback.adapter : Callback → ℕ
  | .recheck a => a
  | .reconcile a => a

structure State where
  adapters : ℕ → Option Adapter := fun _ => none
  created : ℕ := 0
  /-- `adapters.get(document)` -/
  current : Option ℕ := none
  /-- The timeouts that have neither fired nor been cleared. -/
  pending : List (ℕ × Callback) := []
  timers : ℕ := 0
  connected : Mount → Bool := fun _ => false
  preview : Bool := false

/-- What the environment does: the two exported functions, the function that
`registerDocumentMount` returns, an event that reaches an adapter's listener, a timeout that fires,
and a change of the page. -/
inductive Call
  | register (mount : Mount)
  | unregister (adapter : ℕ) (mount : Mount)
  | disconnectTurbo
  | cacheEvent (adapter : ℕ)
  | renderEvent (adapter : ℕ)
  | timeout (timer : ℕ)
  | page (connected : Mount → Bool) (preview : Bool)

/-- The loop that waits for a mount, with the place it goes on from. -/
inductive Frame
  | reconcile (adapter place : ℕ) (preview : Bool)
  | beforeCache (adapter place : ℕ)
  | destroy (adapter place : ℕ)

inductive Ret
  | returned
  | threw
  deriving DecidableEq

inductive Event
  | activate (adapter : ℕ) (mount : Mount)
  | deactivate (adapter : ℕ) (mount : Mount)
  | registered (adapter : ℕ) (mount : Mount)
  | unregistered (adapter : ℕ) (mount : Mount)
  | reconciles (adapter : ℕ)
  | caches (adapter : ℕ)
  | destroyed (adapter : ℕ)
  deriving DecidableEq

abbrev Out := Outcome State Frame Event
abbrev Cfg := Config State Frame Event

/-! ## The methods -/

def put (s : State) (a : ℕ) (x : Adapter) : State :=
  { s with adapters := fun b => if b = a then some x else s.adapters b }

def setTimeout (s : State) (c : Callback) : State :=
  { s with pending := s.pending ++ [(s.timers, c)], timers := s.timers + 1 }

def clearTimeout (s : State) (timer : Option ℕ) : State :=
  { s with pending := s.pending.filter fun t => timer ≠ some t.1 }

/-- A stretch of code that emits an event first. -/
def emit (e : Event) (o : Out) : Out := { o with events := e :: o.events }

/-- The loop of `reconcile`. -/
def reconcileFrom (s : State) (a : ℕ) (x : Adapter) (preview : Bool) (place : ℕ) : Out :=
  match x.mounts.next place with
  | none => { state := s }
  | some (i, m) =>
    { state := s
      events := [if !s.connected m || preview then .deactivate a m else .activate a m]
      control := .awaits (.reconcile a (i + 1) preview) }

def reconcile (s : State) (a : ℕ) : Out :=
  match s.adapters a with
  | none => { state := s }
  | some x =>
    match x.phase with
    | .destroyed => { state := s }
    | .active _ => emit (.reconciles a) (reconcileFrom s a x s.preview 0)

/-- The two timeouts after a cache event. -/
def schedule (s : State) (a : ℕ) (x : Adapter) (c : Callback) : State :=
  put (setTimeout s c) a { x with phase := .active (some s.timers) }

/-- The loop of `#beforeCache`, and what follows it. -/
def beforeCacheFrom (s : State) (a : ℕ) (x : Adapter) (place : ℕ) : Out :=
  match x.mounts.next place with
  | some (i, m) =>
    { state := s, events := [.deactivate a m], control := .awaits (.beforeCache a (i + 1)) }
  | none =>
    match x.phase with
    | .destroyed => { state := s }
    | .active timer => { state := schedule (clearTimeout s timer) a x (.recheck a) }

/-- `#beforeCache`, of a listener that is attached. -/
def beforeCache (s : State) (a : ℕ) : Out :=
  match s.adapters a with
  | none => { state := s }
  | some x =>
    match x.listening, x.phase with
    | true, .active _ => emit (.caches a) (beforeCacheFrom s a x 0)
    | _, _ => { state := s }

/-- The loop of `destroy`. -/
def destroyFrom (s : State) (a : ℕ) (x : Adapter) (place : ℕ) : Out :=
  match x.mounts.next place with
  | some (i, m) =>
    { state := s, events := [.deactivate a m], control := .awaits (.destroy a (i + 1)) }
  | none => { state := put s a { x with mounts := x.mounts.clear } }

/-- `destroy`: the adapter leaves the registry and its listeners before any mount is called. -/
def destroy (s : State) (a : ℕ) : Out :=
  match s.adapters a with
  | none => { state := s }
  | some x =>
    match x.phase with
    | .destroyed => { state := s }
    | .active timer =>
      let x := { x with phase := .destroyed, listening := false }
      let s := { put (clearTimeout s timer) a x with current := none }
      emit (.destroyed a) (destroyFrom s a x 0)

/-- `adapters.get`, or a new adapter. -/
def adapterFor (s : State) : State × ℕ :=
  match s.current with
  | some a => (s, a)
  | none => ({ put s s.created {} with created := s.created + 1, current := some s.created },
      s.created)

/-- `registerDocumentMount` -/
def register (s : State) (m : Mount) : Out :=
  let s' := (adapterFor s).1
  let a := (adapterFor s).2
  match s'.adapters a with
  | none => { state := s' }
  | some x =>
    emit (.registered a m) (reconcile (put s' a { x with mounts := x.mounts.add m }) a)

/-- The function that `registerDocumentMount` returned for an adapter. -/
def unregister (s : State) (a : ℕ) (m : Mount) : Out :=
  match s.adapters a with
  | none => { state := s }
  | some x =>
    let x := { x with mounts := x.mounts.delete m }
    emit (.unregistered a m) (if x.mounts.isEmpty then destroy (put s a x) a else
      { state := put s a x })

def disconnectTurbo (s : State) : Out :=
  match s.current with
  | none => { state := s }
  | some a => destroy s a

/-- `reconcile` as a listener. -/
def renderEvent (s : State) (a : ℕ) : Out :=
  match s.adapters a with
  | none => { state := s }
  | some x => if x.listening then reconcile s a else { state := s }

/-- A timeout fires. -/
def timeout (s : State) (timer : ℕ) : Out :=
  match s.pending.find? fun t => t.1 = timer with
  | none => { state := s }
  | some t =>
    let s := clearTimeout s (some timer)
    match t.2 with
    | .reconcile a => reconcile s a
    | .recheck a =>
      match s.adapters a with
      | none => { state := s }
      | some x =>
        match x.phase with
        | .destroyed => { state := s }
        | .active _ => { state := schedule s a x (.reconcile a) }

def call (s : State) : Call → Out
  | .register m => register s m
  | .unregister a m => unregister s a m
  | .disconnectTurbo => disconnectTurbo s
  | .cacheEvent a => beforeCache s a
  | .renderEvent a => renderEvent s a
  | .timeout timer => timeout s timer
  | .page connected preview => { state := { s with connected := connected, preview := preview } }

/-- A loop goes on after a mount's function, unless that threw. -/
def back (s : State) (f : Frame) (r : Ret) : Option Out :=
  match r with
  | .threw => some { state := s, control := .threw }
  | .returned =>
    match f with
    | .reconcile a place preview => (s.adapters a).map fun x => reconcileFrom s a x preview place
    | .beforeCache a place => (s.adapters a).map fun x => beforeCacheFrom s a x place
    | .destroy a place => (s.adapters a).map fun x => destroyFrom s a x place

def machine : Machine State Call Frame Ret Event := { call := call, back := back }

def init : Cfg := { state := {} }

/-! ## The registry and the timeouts -/

section

variable (s : State) (a b : ℕ) (x : Adapter) (timer : Option ℕ) (c : Callback)

@[simp] lemma put_adapters_self : (put s a x).adapters a = some x := if_pos rfl

lemma put_adapters_of_ne {a b : ℕ} (h : b ≠ a) : (put s a x).adapters b = s.adapters b := if_neg h

@[simp] lemma put_current : (put s a x).current = s.current := rfl

@[simp] lemma put_pending : (put s a x).pending = s.pending := rfl

@[simp] lemma put_timers : (put s a x).timers = s.timers := rfl

@[simp] lemma put_created : (put s a x).created = s.created := rfl

@[simp] lemma clearTimeout_adapters : (clearTimeout s timer).adapters = s.adapters := rfl

@[simp] lemma clearTimeout_current : (clearTimeout s timer).current = s.current := rfl

@[simp] lemma clearTimeout_timers : (clearTimeout s timer).timers = s.timers := rfl

@[simp] lemma clearTimeout_created : (clearTimeout s timer).created = s.created := rfl

lemma mem_clearTimeout {t : ℕ × Callback} :
    t ∈ (clearTimeout s timer).pending ↔ t ∈ s.pending ∧ timer ≠ some t.1 := by
  simp [clearTimeout, List.mem_filter]

end

/-- An adapter that has not been destroyed. -/
def Active (s : State) (a : ℕ) : Prop := ∃ x, s.adapters a = some x ∧ x.isActive = true

/-- The adapter in the registry is the only one that is active, that listens, and that a timeout
waits for; it knows the timeout, which is the only one. -/
structure Registered (s : State) : Prop where
  current : ∀ a, Active s a ↔ s.current = some a
  listening : ∀ a x, s.adapters a = some x → x.listening = x.isActive
  timer : ∀ t ∈ s.pending, ∃ x, s.adapters t.2.adapter = some x ∧ x.phase = .active (some t.1)
  single : (s.pending.map Prod.fst).Nodup
  old : ∀ t ∈ s.pending, t.1 < s.timers
  fresh : ∀ a, s.created ≤ a → s.adapters a = none

lemma isActive_iff {x : Adapter} : x.isActive = true ↔ ∃ timer, x.phase = .active timer := by
  rw [Adapter.isActive]
  cases x.phase <;> simp

lemma not_isActive_iff {x : Adapter} : x.isActive = false ↔ x.phase = .destroyed := by
  rw [Adapter.isActive]
  cases x.phase <;> simp

namespace Registered

variable {s : State} {a : ℕ} {x : Adapter}

/-- An adapter whose phase and listeners stay. -/
lemma put (h : Registered s) (hx : s.adapters a = some x) {y : Adapter}
    (phase : y.phase = x.phase) (listening : y.listening = x.listening) :
    Registered (TurboAdapter.put s a y) := by
  have active : y.isActive = x.isActive := by rw [Adapter.isActive, Adapter.isActive, phase]
  have same : ∀ b, Active (TurboAdapter.put s a y) b ↔ Active s b := by
    intro b
    rcases eq_or_ne b a with rfl | other
    · simp [Active, hx, active]
    · simp [Active, put_adapters_of_ne s y other]
  refine ⟨fun b => (same b).trans (h.current b), ?_, ?_, h.single, h.old, ?_⟩
  · intro b z hz
    rcases eq_or_ne b a with rfl | other
    · obtain rfl : y = z := by simpa using hz
      rw [listening, active, h.listening b x hx]
    · rw [put_adapters_of_ne s y other] at hz
      exact h.listening b z hz
  · intro t ht
    obtain ⟨z, hz, known⟩ := h.timer t ht
    rcases eq_or_ne t.2.adapter a with here | other
    · rw [here] at hz ⊢
      obtain rfl : x = z := Option.some.inj (hx.symm.trans hz)
      exact ⟨y, by simp, by rw [phase, known]⟩
    · exact ⟨z, by rw [put_adapters_of_ne s y other, hz], known⟩
  · intro b le
    have other : b ≠ a := by
      rintro rfl
      rw [h.fresh b le] at hx
      cases hx
    rw [put_adapters_of_ne s y other]
    exact h.fresh b le

lemma active_unique (h : Registered s) {b : ℕ} (ha : Active s a) (hb : Active s b) : a = b :=
  Option.some.inj (((h.current a).1 ha).symm.trans ((h.current b).1 hb))

/-- No timeout waits once that of an active adapter is cleared. -/
lemma pending_clear (h : Registered s) (hx : s.adapters a = some x) {timer : Option ℕ}
    (phase : x.phase = .active timer) : (clearTimeout s timer).pending = [] := by
  rw [List.eq_nil_iff_forall_not_mem]
  intro t ht
  obtain ⟨mem, other⟩ := (mem_clearTimeout s timer).1 ht
  obtain ⟨y, hy, known⟩ := h.timer t mem
  have active : Active s a := ⟨x, hx, isActive_iff.2 ⟨_, phase⟩⟩
  have same := h.active_unique active ⟨y, hy, isActive_iff.2 ⟨_, known⟩⟩
  rw [← same, hx] at hy
  obtain rfl := Option.some.inj hy
  rw [phase] at known
  exact other (Phase.active.inj known)

/-- At most one timeout waits. -/
lemma pending_le_one (h : Registered s) : s.pending.length ≤ 1 := by
  rcases hp : s.pending with _ | ⟨t, _ | ⟨u, rest⟩⟩
  · simp
  · simp
  · obtain ⟨x, hx, knows⟩ := h.timer t (by simp [hp])
    obtain ⟨y, hy, knows'⟩ := h.timer u (by simp [hp])
    have same := h.active_unique ⟨x, hx, isActive_iff.2 ⟨_, knows⟩⟩
      ⟨y, hy, isActive_iff.2 ⟨_, knows'⟩⟩
    rw [← same, hx] at hy
    obtain rfl := Option.some.inj hy
    have twice : t.1 = u.1 := Option.some.inj (Phase.active.inj (knows.symm.trans knows'))
    have single := h.single
    simp [hp, twice] at single

lemma clear (h : Registered s) (timer : Option ℕ) : Registered (clearTimeout s timer) where
  current := h.current
  listening := h.listening
  timer := fun t ht => h.timer t ((mem_clearTimeout s timer).1 ht).1
  single := h.single.sublist (List.Sublist.map _ List.filter_sublist)
  old := fun t ht => h.old t ((mem_clearTimeout s timer).1 ht).1
  fresh := h.fresh

/-- A new timeout of an adapter, when there is no other. -/
lemma schedule (h : Registered s) (hx : s.adapters a = some x) (active : x.isActive = true)
    (none : s.pending = []) {c : Callback} (own : c.adapter = a) :
    Registered (schedule s a x c) := by
  have same : ∀ b, Active (TurboAdapter.schedule s a x c) b ↔ Active s b := by
    intro b
    rcases eq_or_ne b a with rfl | other
    · exact iff_of_true ⟨_, put_adapters_self _ _ _, rfl⟩ ⟨x, hx, active⟩
    · simp [Active, TurboAdapter.schedule, put_adapters_of_ne _ _ other, setTimeout]
  refine ⟨fun b => (same b).trans (h.current b), ?_, ?_, ?_, ?_, ?_⟩
  · intro b z hz
    rcases eq_or_ne b a with rfl | other
    · obtain rfl : { x with phase := .active (some s.timers) } = z := by
        simpa [TurboAdapter.schedule] using hz
      rw [h.listening b x hx, active]
      rfl
    · rw [TurboAdapter.schedule, put_adapters_of_ne _ _ other] at hz
      exact h.listening b z hz
  · intro t ht
    have here : t = (s.timers, c) := by
      simpa [TurboAdapter.schedule, setTimeout, none] using ht
    subst here
    rw [own]
    exact ⟨_, by rw [TurboAdapter.schedule, put_adapters_self], rfl⟩
  · simp [TurboAdapter.schedule, setTimeout, none]
  · intro t ht
    have here : t = (s.timers, c) := by
      simpa [TurboAdapter.schedule, setTimeout, none] using ht
    subst here
    exact Nat.lt_succ_self _
  · intro b le
    have other : b ≠ a := by
      rintro rfl
      rw [h.fresh b le] at hx
      cases hx
    rw [TurboAdapter.schedule, put_adapters_of_ne _ _ other]
    exact h.fresh b le

/-- An adapter leaves the registry. -/
lemma leave (h : Registered s) (hx : s.adapters a = some x) {timer : Option ℕ}
    (phase : x.phase = .active timer) :
    Registered { TurboAdapter.put (clearTimeout s timer) a
      { x with phase := .destroyed, listening := false } with current := none } := by
  have active : Active s a := ⟨x, hx, isActive_iff.2 ⟨_, phase⟩⟩
  have none : (clearTimeout s timer).pending = [] := h.pending_clear hx phase
  have idle : ∀ b y, b ≠ a → s.adapters b = some y → y.isActive = false := by
    intro b y other hy
    by_contra on
    have on : y.isActive = true := by simpa using on
    exact other (h.active_unique ⟨y, hy, on⟩ active)
  refine ⟨?_, ?_, ?_, ?_, ?_, ?_⟩
  · intro b
    refine iff_of_false ?_ (by simp)
    rintro ⟨y, hy, on⟩
    rcases eq_or_ne b a with rfl | other
    · obtain rfl : { x with phase := .destroyed, listening := false } = y := by simpa using hy
      cases on
    · replace hy : (TurboAdapter.put (clearTimeout s timer) a _).adapters b = some y := hy
      rw [put_adapters_of_ne _ _ other] at hy
      rw [idle b y other hy] at on
      cases on
  · intro b z hz
    rcases eq_or_ne b a with rfl | other
    · obtain rfl : { x with phase := .destroyed, listening := false } = z := by simpa using hz
      rfl
    · replace hz : (TurboAdapter.put (clearTimeout s timer) a _).adapters b = some z := hz
      rw [put_adapters_of_ne _ _ other] at hz
      exact h.listening b z hz
  · intro t ht
    have ht : t ∈ (clearTimeout s timer).pending := ht
    rw [none] at ht
    cases ht
  · exact (h.clear timer).single
  · exact (h.clear timer).old
  · intro b le
    have other : b ≠ a := by
      rintro rfl
      have := h.fresh b le
      rw [hx] at this
      cases this
    have := h.fresh b le
    exact (put_adapters_of_ne (clearTimeout s timer) _ other).trans this

/-- A new adapter, when there is none. -/
lemma create (h : Registered s) (none : s.current = none) :
    Registered { TurboAdapter.put s s.created {} with
      created := s.created + 1, current := some s.created } := by
  have idle : ∀ b, ¬ Active s b := by
    intro b on
    have := (h.current b).1 on
    rw [none] at this
    cases this
  have empty : s.pending = [] := by
    rw [List.eq_nil_iff_forall_not_mem]
    intro t ht
    obtain ⟨y, hy, known⟩ := h.timer t ht
    exact idle _ ⟨y, hy, isActive_iff.2 ⟨_, known⟩⟩
  refine ⟨?_, ?_, ?_, h.single, h.old, ?_⟩
  · intro b
    rcases eq_or_ne b s.created with rfl | other
    · exact iff_of_true ⟨{}, put_adapters_self _ _ _, rfl⟩ rfl
    · refine iff_of_false ?_ (by simpa using other.symm)
      rintro ⟨y, hy, on⟩
      replace hy : (TurboAdapter.put s s.created {}).adapters b = some y := hy
      rw [put_adapters_of_ne _ _ other] at hy
      exact idle b ⟨y, hy, on⟩
  · intro b z hz
    replace hz : (TurboAdapter.put s s.created {}).adapters b = some z := hz
    rcases eq_or_ne b s.created with rfl | other
    · obtain rfl : ({} : Adapter) = z := by simpa using hz
      rfl
    · rw [put_adapters_of_ne _ _ other] at hz
      exact h.listening b z hz
  · intro t ht
    have ht : t ∈ s.pending := ht
    rw [empty] at ht
    cases ht
  · intro b le
    have le : s.created + 1 ≤ b := le
    have other : b ≠ s.created := by omega
    exact (put_adapters_of_ne s _ other).trans (h.fresh b (by omega))

end Registered

@[simp] lemma emit_state (e : Event) (o : Out) : (emit e o).state = o.state := rfl

lemma reconcileFrom_state (s : State) (a : ℕ) (x : Adapter) (preview : Bool) (place : ℕ) :
    (reconcileFrom s a x preview place).state = s := by
  rw [reconcileFrom]
  split <;> rfl

lemma reconcile_state (s : State) (a : ℕ) : (reconcile s a).state = s := by
  rw [reconcile]
  split
  · rfl
  · split
    · rfl
    · exact reconcileFrom_state _ _ _ _ _

section

variable {s : State} {a : ℕ} {x : Adapter}

lemma registered_beforeCacheFrom (h : Registered s) (hx : s.adapters a = some x) (place : ℕ) :
    Registered (beforeCacheFrom s a x place).state := by
  rw [beforeCacheFrom]
  split
  · exact h
  · split
    · exact h
    · rename_i timer phase
      exact (h.clear timer).schedule hx (isActive_iff.2 ⟨_, phase⟩) (h.pending_clear hx phase) rfl

lemma registered_destroyFrom (h : Registered s) (hx : s.adapters a = some x) (place : ℕ) :
    Registered (destroyFrom s a x place).state := by
  rw [destroyFrom]
  split
  · exact h
  · exact h.put hx rfl rfl

lemma registered_destroy (h : Registered s) (a : ℕ) : Registered (destroy s a).state := by
  rw [destroy]
  split
  · exact h
  · rename_i x hx
    split
    · exact h
    · rename_i timer phase
      rw [emit_state]
      exact registered_destroyFrom (h.leave hx phase) (put_adapters_self _ _ _) 0

lemma registered_adapterFor (h : Registered s) : Registered (adapterFor s).1 := by
  rw [adapterFor]
  split
  · exact h
  · rename_i none
    exact h.create none

/-- The adapter that a mount is registered with is active. -/
lemma active_adapterFor (h : Registered s) : Active (adapterFor s).1 (adapterFor s).2 := by
  rw [(registered_adapterFor h).current, adapterFor]
  cases current : s.current with
  | some a => exact current
  | none => rfl

lemma registered_register (h : Registered s) (m : Mount) : Registered (register s m).state := by
  have found := registered_adapterFor h
  rw [register]
  split
  · exact found
  · rename_i x hx
    rw [emit_state, reconcile_state]
    exact found.put hx rfl rfl

lemma registered_unregister (h : Registered s) (a : ℕ) (m : Mount) :
    Registered (unregister s a m).state := by
  rw [unregister]
  split
  · exact h
  · rename_i x hx
    have left : Registered (put s a { x with mounts := x.mounts.delete m }) := h.put hx rfl rfl
    rw [emit_state]
    split
    · exact registered_destroy left a
    · exact left

lemma registered_timeout (h : Registered s) (timer : ℕ) : Registered (timeout s timer).state := by
  rw [timeout]
  split
  · exact h
  · rename_i t found
    have mem := List.mem_of_find?_eq_some found
    have fired : t.1 = timer := by simpa using List.find?_some found
    obtain ⟨y, hy, known⟩ := h.timer t mem
    have clear := h.clear (some timer)
    dsimp only
    split
    · rw [reconcile_state]
      exact clear
    · rename_i a callback
      split
      · exact clear
      · rename_i x hx
        split
        · exact clear
        · rename_i timer' phase
          have here : y = x := by
            rw [callback] at hy
            exact Option.some.inj (hy.symm.trans hx)
          subst here
          have none : (clearTimeout s (some timer)).pending = [] := by
            rw [← fired]
            exact h.pending_clear hy known
          exact clear.schedule hx (isActive_iff.2 ⟨_, phase⟩) none rfl

lemma registered_call (h : Registered s) (c : Call) : Registered (call s c).state := by
  cases c with
  | register m => exact registered_register h m
  | unregister a m => exact registered_unregister h a m
  | disconnectTurbo =>
    rw [call, disconnectTurbo]
    split
    · exact h
    · exact registered_destroy h _
  | cacheEvent a =>
    rw [call, beforeCache]
    split
    · exact h
    · rename_i x hx
      split
      · exact registered_beforeCacheFrom h hx 0
      · exact h
  | renderEvent a =>
    rw [call, renderEvent]
    split
    · exact h
    · split
      · rw [reconcile_state]
        exact h
      · exact h
  | timeout timer => exact registered_timeout h timer
  | page connected preview => exact ⟨h.current, h.listening, h.timer, h.single, h.old, h.fresh⟩

lemma registered_back (h : Registered s) {f : Frame} {r : Ret} {o : Out}
    (ho : back s f r = some o) : Registered o.state := by
  cases r with
  | threw =>
    obtain rfl := Option.some.inj ho
    exact h
  | returned =>
    cases f with
    | reconcile a place preview =>
      obtain ⟨x, -, rfl⟩ := Option.map_eq_some_iff.1 ho
      rw [reconcileFrom_state]
      exact h
    | beforeCache a place =>
      obtain ⟨x, hx, rfl⟩ := Option.map_eq_some_iff.1 ho
      exact registered_beforeCacheFrom h hx place
    | destroy a place =>
      obtain ⟨x, hx, rfl⟩ := Option.map_eq_some_iff.1 ho
      exact registered_destroyFrom h hx place

end

lemma registered_init : Registered init.state where
  current := fun a => by simp [Active, init]
  listening := fun a x hx => by cases hx
  timer := fun t ht => by cases ht
  single := List.nodup_nil
  old := fun t ht => by cases ht
  fresh := fun _ _ => rfl

lemma registered_step {c c' : Cfg} {m : Move Call Ret} (h : Registered c.state)
    (hm : machine.step c m = some c') : Registered c'.state := by
  obtain ⟨o, stack, rfl, -, ⟨x, -, rfl⟩ | ⟨f, rest, r, -, -, ho⟩⟩ := Machine.step_eq_some hm
  · exact registered_call h x
  · exact registered_back h ho

/-- **One live adapter.**  In every run, whatever mounts call back and whether they throw: the
adapter in the registry is the only one that is not destroyed and the only one that listens, and
at most one timeout waits, the one that this adapter knows. -/
theorem registered_of_run {moves : List (Move Call Ret)} {c : Cfg}
    (h : run machine.step init moves = some c) :
    Registered c.state ∧ c.state.pending.length ≤ 1 := by
  have sound : Registered c.state :=
    run_invariant (P := fun c => Registered c.state) (fun _ _ _ => registered_step)
      registered_init h
  exact ⟨sound, sound.pending_le_one⟩

/-- A mount on a live page is registered, and it is activated. -/
def opened : List (Move Call Ret) :=
  [.call (.page (fun _ => true) false), .call (.register 7), .back .returned]

theorem registered_of_run_opened :
    ∃ c, run machine.step init opened = some c ∧ c.state.current = some 0 ∧ Registered c.state := by
  have hrun : (run machine.step init opened).map (fun c => c.state.current) = some (some 0) := rfl
  obtain ⟨c, hc, current⟩ := Option.map_eq_some_iff.1 hrun
  exact ⟨c, hc, current, (registered_of_run hc).1⟩

end TurboAdapter

end Yrby
