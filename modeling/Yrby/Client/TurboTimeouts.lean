import Yrby.Client.TurboAdapter

/-!
# Timeouts of the Turbo adapter

A canceled navigation fires no event after its cache event, so `#beforeCache` sets a timeout, which
sets another one, which reconciles.  `Owing` is the invariant: an adapter that has swept its mounts
for the cache has reconciled since, or a timeout waits, or the sweep itself does.
-/

namespace Yrby

open Reentrant Transition

namespace TurboAdapter

/-! ## After a cache event -/

def owedStep (a : ℕ) (on : Bool) (e : Event) : Bool :=
  if e = .caches a then true else if e = .reconciles a then false else on

/-- The adapter has swept its mounts for the cache and has not reconciled since. -/
def owed (a : ℕ) (trace : List Event) : Bool := trace.foldl (owedStep a) false

lemma owed_snoc (a : ℕ) (trace : List Event) (e : Event) :
    owed a (trace ++ [e]) = owedStep a (owed a trace) e := by
  rw [owed, List.foldl_append]
  rfl

/-- A timeout waits, or the sweep itself does. -/
def Covered (s : State) (stack : List Frame) (a : ℕ) : Prop :=
  (∃ t ∈ s.pending, t.2.adapter = a) ∨ ∃ i, .beforeCache a i ∈ stack

structure Owing (s : State) (stack : List Frame) (trace : List Event) : Prop where
  registered : Registered s
  covered : ∀ a, Active s a → owed a trace = true → Covered s stack a

def Owed (stack : List Frame) (trace : List Event) (o : Out) : Prop :=
  Owing o.state (o.control.push stack) (trace ++ o.events)

lemma Owed.emit {stack : List Frame} {trace : List Event} {e : Event} {o : Out}
    (h : Owed stack (trace ++ [e]) o) : Owed stack trace (emit e o) := by
  rw [Owed, List.append_assoc] at h
  exact h

namespace Owing

variable {s s' : State} {stack stack' : List Frame} {trace : List Event} {a : ℕ} {x : Adapter}

lemma unchanged (h : Owing s stack trace) : Owed stack trace { state := s } := by
  show Owing s stack (trace ++ [])
  rwa [List.append_nil]

/-- Nothing is owed by the only adapter that is active. -/
lemma settled (registered : Registered s) (active : Active s a) (paid : owed a trace = false) :
    Owing s stack trace := by
  refine ⟨registered, fun b on owes => ?_⟩
  obtain rfl := registered.active_unique active on
  rw [paid] at owes
  cases owes

/-- The only adapter that is active has its timeout. -/
lemma timed (registered : Registered s) (active : Active s a)
    (waits : ∃ t ∈ s.pending, t.2.adapter = a) : Owing s stack trace := by
  refine ⟨registered, fun b on _ => ?_⟩
  obtain rfl := registered.active_unique active on
  exact .inl waits

lemma snoc (h : Owing s stack trace) {e : Event} (other : ∀ a, e ≠ .caches a) :
    Owing s stack (trace ++ [e]) := by
  refine ⟨h.registered, fun a active owes => h.covered a active ?_⟩
  rw [owed_snoc, owedStep, if_neg (other a)] at owes
  split at owes
  · cases owes
  · exact owes

lemma push (h : Owing s stack trace) (f : Frame) : Owing s (f :: stack) trace := by
  refine ⟨h.registered, fun a active owes => (h.covered a active owes).imp_right ?_⟩
  rintro ⟨i, mem⟩
  exact ⟨i, List.mem_cons_of_mem _ mem⟩

lemma pop {f : Frame} (h : Owing s (f :: stack) trace) (other : ∀ a i, f ≠ .beforeCache a i) :
    Owing s stack trace := by
  refine ⟨h.registered, fun a active owes => (h.covered a active owes).imp_right ?_⟩
  rintro ⟨i, mem⟩
  exact ⟨i, (List.mem_cons.1 mem).resolve_left fun same => other a i same.symm⟩

/-- The active adapter and its timeout stay. -/
lemma keep (h : Owing s stack trace) (registered : Registered s')
    (active : ∀ b, Active s' b → Active s b) (pending : s'.pending = s.pending) :
    Owing s' stack trace := by
  refine ⟨registered, fun b on owes => ?_⟩
  rw [Covered, pending]
  exact h.covered b (active b on) owes

lemma put_mounts (h : Owing s stack trace) (hx : s.adapters a = some x) {y : Adapter}
    (phase : y.phase = x.phase) (listening : y.listening = x.listening) :
    Owing (put s a y) stack trace := by
  refine h.keep (h.registered.put hx phase listening) ?_ rfl
  rintro b ⟨z, hz, on⟩
  rcases eq_or_ne b a with rfl | other
  · obtain rfl := Option.some.inj ((put_adapters_self s b y).symm.trans hz)
    refine ⟨x, hx, ?_⟩
    rwa [Adapter.isActive, ← phase]
  · exact ⟨z, (put_adapters_of_ne s y other).symm.trans hz, on⟩

lemma reconcileFrom (h : Owing s stack trace) (a : ℕ) (x : Adapter) (preview : Bool)
    (place : ℕ) : Owed stack trace (reconcileFrom s a x preview place) := by
  rw [TurboAdapter.reconcileFrom]
  split
  · exact h.unchanged
  · refine (h.snoc fun b same => ?_).push _
    split at same <;> cases same

/-- Whatever was owed, `reconcile` of the active adapter pays it. -/
lemma reconcile_active (registered : Registered s) (active : Active s a) :
    Owed stack trace (reconcile s a) := by
  obtain ⟨x, hx, on⟩ := active
  obtain ⟨timer, phase⟩ := isActive_iff.1 on
  rw [TurboAdapter.reconcile, hx]
  dsimp only
  rw [phase]
  refine .emit (reconcileFrom (settled registered ⟨x, hx, on⟩ ?_) a x s.preview 0)
  rw [owed_snoc, owedStep, if_neg (fun same => Event.noConfusion same), if_pos rfl]

lemma reconcile (h : Owing s stack trace) (a : ℕ) : Owed stack trace (reconcile s a) := by
  by_cases active : Active s a
  · exact reconcile_active h.registered active
  · have same : TurboAdapter.reconcile s a = { state := s } := by
      rw [TurboAdapter.reconcile]
      cases hx : s.adapters a with
      | none => rfl
      | some x =>
        dsimp only
        cases phase : x.phase with
        | destroyed => rfl
        | active timer => exact absurd ⟨x, hx, isActive_iff.2 ⟨_, phase⟩⟩ active
    rw [same]
    exact h.unchanged

lemma beforeCacheFrom (h : Owing s (.beforeCache a place :: stack) trace)
    (hx : s.adapters a = some x) : Owed stack trace (beforeCacheFrom s a x place) := by
  have registered := registered_beforeCacheFrom h.registered hx place
  rw [TurboAdapter.beforeCacheFrom] at registered ⊢
  cases next : x.mounts.next place with
  | some found =>
    refine ⟨h.registered, fun b on owes => ?_⟩
    have before := (h.snoc fun _ same => Event.noConfusion same).covered b on owes
    refine before.imp_right ?_
    rintro ⟨i, mem⟩
    rcases List.mem_cons.1 mem with top | old
    · obtain ⟨rfl, -⟩ := Frame.beforeCache.inj top
      exact ⟨found.1 + 1, List.mem_cons_self⟩
    · exact ⟨i, List.mem_cons_of_mem _ old⟩
  | none =>
    rw [next] at registered
    dsimp only at registered ⊢
    cases phase : x.phase with
    | destroyed =>
      refine unchanged ⟨h.registered, fun b on owes => (h.covered b on owes).imp_right ?_⟩
      rintro ⟨i, mem⟩
      refine ⟨i, (List.mem_cons.1 mem).resolve_left fun same => ?_⟩
      obtain ⟨rfl, -⟩ := Frame.beforeCache.inj same
      obtain ⟨y, hy, active⟩ := on
      obtain rfl := Option.some.inj (hx.symm.trans hy)
      rw [not_isActive_iff.2 phase] at active
      cases active
    | active timer =>
      rw [phase] at registered
      show Owing _ stack (trace ++ [])
      exact timed registered ⟨_, put_adapters_self _ _ _, rfl⟩
        ⟨_, List.mem_append_right _ List.mem_cons_self, rfl⟩

lemma beforeCache (h : Owing s stack trace) (a : ℕ) : Owed stack trace (beforeCache s a) := by
  rw [TurboAdapter.beforeCache]
  cases hx : s.adapters a with
  | none => exact h.unchanged
  | some x =>
    dsimp only
    split
    · rename_i timer _ phase
      refine .emit (beforeCacheFrom ⟨h.registered, fun b on _ => ?_⟩ hx)
      obtain rfl := h.registered.active_unique ⟨x, hx, isActive_iff.2 ⟨_, phase⟩⟩ on
      exact .inr ⟨0, List.mem_cons_self⟩
    · exact h.unchanged

lemma destroyFrom (h : Owing s stack trace) (hx : s.adapters a = some x) (place : ℕ) :
    Owed stack trace (destroyFrom s a x place) := by
  rw [TurboAdapter.destroyFrom]
  split
  · exact (h.snoc fun _ same => Event.noConfusion same).push _
  · exact unchanged (h.put_mounts hx rfl rfl)

lemma destroy (h : Owing s stack trace) (a : ℕ) : Owed stack trace (destroy s a) := by
  rw [TurboAdapter.destroy]
  cases hx : s.adapters a with
  | none => exact h.unchanged
  | some x =>
    dsimp only
    cases phase : x.phase with
    | destroyed => exact h.unchanged
    | active timer =>
      have left := h.registered.leave hx phase
      refine .emit (destroyFrom ⟨left, fun b on _ => ?_⟩ (put_adapters_self _ _ _) 0)
      cases (left.current b).1 on

lemma register (h : Owing s stack trace) (m : Mount) : Owed stack trace (register s m) := by
  have found := registered_adapterFor h.registered
  obtain ⟨y, hy, active⟩ := active_adapterFor h.registered
  rw [TurboAdapter.register, hy]
  refine .emit (reconcile_active (found.put hy rfl rfl) ⟨_, put_adapters_self _ _ _, ?_⟩)
  exact active

lemma unregister (h : Owing s stack trace) (a : ℕ) (m : Mount) :
    Owed stack trace (unregister s a m) := by
  rw [TurboAdapter.unregister]
  cases hx : s.adapters a with
  | none => exact h.unchanged
  | some x =>
    refine .emit ?_
    have left : Owing (put s a { x with mounts := x.mounts.delete m }) stack
        (trace ++ [.unregistered a m]) :=
      (h.snoc fun _ same => Event.noConfusion same).put_mounts hx rfl rfl
    split
    · exact left.destroy a
    · exact left.unchanged

/-- The adapter whose timeout fires is active, and no other timeout waits. -/
lemma fires {timer : ℕ} {t : ℕ × Callback} (h : Registered s)
    (found : (s.pending.find? fun t => t.1 = timer) = some t) :
    Active s t.2.adapter ∧ (clearTimeout s (some timer)).pending = [] := by
  have mem := List.mem_of_find?_eq_some found
  have fired : t.1 = timer := by simpa using List.find?_some found
  obtain ⟨x, hx, knows⟩ := h.timer t mem
  refine ⟨⟨x, hx, isActive_iff.2 ⟨_, knows⟩⟩, ?_⟩
  rw [← fired]
  exact h.pending_clear hx knows

lemma timeout (h : Owing s stack trace) (timer : ℕ) : Owed stack trace (timeout s timer) := by
  have registered := registered_timeout h.registered timer
  rw [TurboAdapter.timeout] at registered ⊢
  cases found : s.pending.find? fun t => t.1 = timer with
  | none => exact h.unchanged
  | some t =>
    obtain ⟨⟨x, hx, on⟩, -⟩ := fires h.registered found
    rw [found] at registered
    dsimp only at registered ⊢
    cases callback : t.2 with
    | reconcile a =>
      rw [callback] at hx
      exact reconcile_active (h.registered.clear _) ⟨x, hx, on⟩
    | recheck a =>
      rw [callback] at hx registered
      replace hx : (clearTimeout s (some timer)).adapters a = some x := hx
      obtain ⟨old, phase⟩ := isActive_iff.1 on
      dsimp only at registered ⊢
      rw [hx] at registered ⊢
      dsimp only at registered ⊢
      rw [phase] at registered ⊢
      show Owing _ stack (trace ++ [])
      exact timed registered ⟨_, put_adapters_self _ _ _, rfl⟩
        ⟨_, List.mem_append_right _ List.mem_cons_self, rfl⟩

lemma call (h : Owing s stack trace) (c : Call) : Owed stack trace (call s c) := by
  cases c with
  | register m => exact h.register m
  | unregister a m => exact h.unregister a m
  | disconnectTurbo =>
    rw [TurboAdapter.call, disconnectTurbo]
    split
    · exact h.unchanged
    · exact h.destroy _
  | cacheEvent a => exact h.beforeCache a
  | renderEvent a =>
    rw [TurboAdapter.call, renderEvent]
    split
    · exact h.unchanged
    · split
      · exact h.reconcile a
      · exact h.unchanged
  | timeout timer => exact h.timeout timer
  | page connected preview =>
    exact unchanged (h.keep (registered_call h.registered (.page connected preview))
      (fun _ on => on) rfl)

end Owing

/-- No mount throws into `#beforeCache`. -/
def Swept (c : Cfg) (m : Move Call Ret) : Prop :=
  m = .back .threw → ∀ a i rest, c.stack ≠ .beforeCache a i :: rest

def OwingCfg (c : Cfg) : Prop := Owing c.state c.stack c.trace

lemma owing_step {c c' : Cfg} {m : Move Call Ret} (h : OwingCfg c) (swept : Swept c m)
    (hm : machine.step c m = some c') : OwingCfg c' := by
  cases m with
  | call x =>
    obtain rfl := Option.some.inj hm
    exact Owing.call h x
  | back r =>
    obtain ⟨f, rest, o, stack, ho, rfl⟩ := Machine.step_back_eq_some.1 hm
    rw [OwingCfg, stack] at h
    show Owed rest c.trace o
    cases r with
    | threw =>
      have other : ∀ a i, f ≠ .beforeCache a i := by
        rintro a i rfl
        exact swept rfl a i rest stack
      obtain rfl := Option.some.inj ho
      exact (h.pop other).unchanged
    | returned =>
      cases f with
      | reconcile a place preview =>
        obtain ⟨x, hx, rfl⟩ := Option.map_eq_some_iff.1 ho
        exact (h.pop fun _ _ same => Frame.noConfusion same).reconcileFrom a x preview place
      | beforeCache a place =>
        obtain ⟨x, hx, rfl⟩ := Option.map_eq_some_iff.1 ho
        exact h.beforeCacheFrom hx
      | destroy a place =>
        obtain ⟨x, hx, rfl⟩ := Option.map_eq_some_iff.1 ho
        exact (h.pop fun _ _ same => Frame.noConfusion same).destroyFrom hx place

lemma find_pending {s : State} (h : Registered s) {t : ℕ × Callback} (mem : t ∈ s.pending) :
    (s.pending.find? fun u => u.1 = t.1) = some t := by
  obtain ⟨u, hu⟩ : ∃ u, s.pending = [u] := by
    refine List.length_eq_one_iff.1 (Nat.le_antisymm h.pending_le_one ?_)
    exact List.length_pos_iff.2 (List.ne_nil_of_mem mem)
  rw [hu, List.mem_singleton] at mem
  subst mem
  simp [hu]

lemma timeout_reconcile {s : State} (h : Registered s) {t : ℕ × Callback} (mem : t ∈ s.pending)
    {a : ℕ} (callback : t.2 = .reconcile a) :
    ∃ post, (timeout s t.1).events = .reconciles a :: post := by
  obtain ⟨x, hx, knows⟩ := h.timer t mem
  rw [callback] at hx
  replace hx : (clearTimeout s (some t.1)).adapters a = some x := hx
  rw [timeout, find_pending h mem]
  dsimp only
  rw [callback]
  dsimp only
  rw [reconcile, hx]
  dsimp only
  rw [knows]
  exact ⟨_, rfl⟩

lemma timeout_recheck {s : State} (h : Registered s) {t : ℕ × Callback} (mem : t ∈ s.pending)
    {a : ℕ} (callback : t.2 = .recheck a) :
    (timeout s t.1).events = [] ∧
      (timeout s t.1).state.pending = [(s.timers, .reconcile a)] := by
  obtain ⟨x, hx, knows⟩ := h.timer t mem
  have none : (clearTimeout s (some t.1)).pending = [] := h.pending_clear hx knows
  rw [callback] at hx
  replace hx : (clearTimeout s (some t.1)).adapters a = some x := hx
  rw [timeout, find_pending h mem]
  dsimp only
  rw [callback]
  dsimp only
  rw [hx]
  dsimp only
  rw [knows]
  refine ⟨rfl, ?_⟩
  rw [schedule, put_pending, setTimeout, none]
  rfl

/-- The timeouts that wait, fired one after the other, lead to `reconcile`. -/
lemma reconciles_soon {c : Cfg} (h : Registered c.state) {t : ℕ × Callback}
    (mem : t ∈ c.state.pending) :
    ∃ timers : List ℕ, timers.length ≤ 2 ∧ ∃ c', run machine.step c
      (timers.map fun n => .call (.timeout n)) = some c' ∧
        ∃ post, c'.trace = c.trace ++ .reconciles t.2.adapter :: post := by
  cases callback : t.2 with
  | reconcile a =>
    obtain ⟨post, events⟩ := timeout_reconcile h mem callback
    exact ⟨[t.1], by simp, _, rfl, post, congrArg (c.trace ++ ·) events⟩
  | recheck a =>
    obtain ⟨silent, pending⟩ := timeout_recheck h mem callback
    have registered := registered_timeout h t.1
    obtain ⟨post, events⟩ := timeout_reconcile registered (by rw [pending]; exact
      List.mem_cons_self) rfl
    refine ⟨[t.1, c.state.timers], by simp, _, rfl, post, ?_⟩
    show (c.trace ++ (timeout c.state t.1).events) ++
      (timeout (timeout c.state t.1).state c.state.timers).events = _
    rw [silent, List.append_nil, events]
    rfl

/-- **A cached page is looked at again.**  In every run in which no mount throws into
`#beforeCache`: once no loop waits, an adapter that has swept its mounts for the cache and has not
reconciled since has a timeout waiting, and at most two timeouts later it reconciles. -/
theorem looks_again_of_run {moves : List (Move Call Ret)} {c : Cfg}
    (h : run machine.step init moves = some c) (swept : Along machine.step Swept init moves)
    (idle : c.stack = []) {a : ℕ} (active : Active c.state a) (owes : owed a c.trace = true) :
    ∃ timers : List ℕ, timers.length ≤ 2 ∧ ∃ c', run machine.step c
      (timers.map fun n => .call (.timeout n)) = some c' ∧
        ∃ post, c'.trace = c.trace ++ .reconciles a :: post := by
  have start : OwingCfg init := ⟨registered_init, fun _ _ owes => by cases owes⟩
  have owing : OwingCfg c := run_invariant_along (fun _ _ _ => owing_step) start swept h
  rcases owing.covered a active owes with ⟨t, mem, rfl⟩ | ⟨i, waits⟩
  · exact reconciles_soon owing.registered mem
  · rw [idle] at waits
    cases waits

/-- The page is cached, and the navigation is canceled. -/
def cached : List (Move Call Ret) := opened ++ [.call (.cacheEvent 0), .back .returned]

theorem looks_again_of_run_cached :
    ∃ c, run machine.step init cached = some c ∧ owed 0 c.trace = true ∧
      ∃ timers : List ℕ, timers.length ≤ 2 ∧ ∃ c', run machine.step c
        (timers.map fun n => .call (.timeout n)) = some c' ∧
          ∃ post, c'.trace = c.trace ++ .reconciles 0 :: post := by
  have hrun : (run machine.step init cached).map
      (fun c => (c.trace, c.stack, c.state.current)) =
        some ([.registered 0 7, .reconciles 0, .activate 0 7, .caches 0, .deactivate 0 7], [],
          some 0) := rfl
  obtain ⟨c, hc, ends⟩ := Option.map_eq_some_iff.1 hrun
  obtain ⟨trace, stack, current⟩ : c.trace = _ ∧ c.stack = _ ∧ c.state.current = _ := by
    simpa using ends
  have swept : Along machine.step Swept init cached := by
    refine .of_forall fun m hm s threw => ?_
    subst threw
    simp [cached, opened] at hm
  have registered : Registered c.state :=
    run_invariant (P := fun c => Registered c.state) (fun _ _ _ => registered_step)
      registered_init hc
  have owes : owed 0 c.trace = true := by
    rw [trace]
    rfl
  exact ⟨c, hc, owes, looks_again_of_run hc swept stack ((registered.current 0).2 current) owes⟩

end TurboAdapter

end Yrby
