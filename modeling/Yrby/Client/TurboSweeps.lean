import Yrby.Client.TurboAdapter

/-!
# Sweeps and teardown of the Turbo adapter

A mount is lit by an adapter if the adapter's last command to it was `activate` and the adapter has
not let it go since.  `Sound` is the invariant of the whole configuration: a lit mount is one of the
adapter's mounts, an adapter that was destroyed has no mounts left or its `destroy` is still waiting
for one, and no loop of `reconcile` stands above such a `destroy`.

It holds of every run in which no mount throws into `destroy` (`torn_down_of_run`).
-/

namespace Yrby

open Reentrant Transition

namespace TurboAdapter

/-! ## Lit mounts -/

def litStep (a : ℕ) (m : Mount) (on : Bool) (e : Event) : Bool :=
  if e = .activate a m then true
  else if e = .deactivate a m ∨ e = .unregistered a m then false
  else on

/-- The adapter's last command to a mount was `activate`, and it has not let the mount go. -/
def lit (a : ℕ) (m : Mount) (trace : List Event) : Bool := trace.foldl (litStep a m) false

lemma lit_snoc (a : ℕ) (m : Mount) (trace : List Event) (e : Event) :
    lit a m (trace ++ [e]) = litStep a m (lit a m trace) e := by
  rw [lit, List.foldl_append]
  rfl

lemma lit_snoc_eq_true {a : ℕ} {m : Mount} {trace : List Event} {e : Event}
    (h : lit a m (trace ++ [e]) = true) : e = .activate a m ∨ lit a m trace = true := by
  rw [lit_snoc, litStep] at h
  split at h
  · exact .inl ‹_›
  · split at h
    · cases h
    · exact .inr h

/-- An event that activates no mount and ends no adapter. -/
def Event.Mild : Event → Prop
  | .activate _ _ => False
  | .destroyed _ => False
  | _ => True

/-- What holds of a configuration: the state, the loops that wait, and the events so far. -/
structure Sound (s : State) (stack : List Frame) (trace : List Event) : Prop where
  registered : Registered s
  order : stack.Pairwise fun upper lower =>
    ∀ a i p j, upper = .reconcile a i p → lower ≠ .destroy a j
  closing : ∀ a x, s.adapters a = some x → x.isActive = false →
    (∀ m, m ∉ x.mounts) ∨ ∃ i, .destroy a i ∈ stack
  known : ∀ a m, lit a m trace = true → ∃ x, s.adapters a = some x ∧ m ∈ x.mounts
  dark : ∀ a i, .destroy a i ∈ stack → ∃ x, s.adapters a = some x ∧ x.isActive = false ∧
    ∀ k < i, ∀ m, x.mounts.entries[k]? = some (some m) → lit a m trace = false
  ended : ∀ a, .destroyed a ∈ trace → ∃ x, s.adapters a = some x ∧ x.isActive = false
  quiet : ∀ pre a post, trace = pre ++ .destroyed a :: post → ∀ m, .activate a m ∉ post

/-- What holds at the end of a stretch of code. -/
def After (stack : List Frame) (trace : List Event) (o : Out) : Prop :=
  Sound o.state (o.control.push stack) (trace ++ o.events)

lemma After.emit {stack : List Frame} {trace : List Event} {e : Event} {o : Out}
    (h : After stack (trace ++ [e]) o) : After stack trace (emit e o) := by
  rw [After, List.append_assoc] at h
  exact h

namespace Sound

variable {s s' : State} {stack : List Frame} {trace : List Event} {a : ℕ} {x : Adapter}

/-- No `destroy` of an active adapter waits. -/
lemma not_mem_of_active (h : Sound s stack trace) (hx : s.adapters a = some x)
    (active : x.isActive = true) (i : ℕ) : .destroy a i ∉ stack := by
  intro mem
  obtain ⟨y, hy, idle, -⟩ := h.dark a i mem
  obtain rfl := Option.some.inj (hx.symm.trans hy)
  rw [active] at idle
  cases idle

/-- One more event. -/
lemma snoc (h : Sound s stack trace) {e : Event}
    (ended : ∀ a, e = .destroyed a → ∃ x, s.adapters a = some x ∧ x.isActive = false)
    (activates : ∀ a m, e = .activate a m →
      ∃ x, s.adapters a = some x ∧ x.isActive = true ∧ m ∈ x.mounts) :
    Sound s stack (trace ++ [e]) := by
  refine ⟨h.registered, h.order, h.closing, ?_, ?_, ?_, ?_⟩
  · intro a m on
    rcases lit_snoc_eq_true on with new | old
    · obtain ⟨x, hx, -, mem⟩ := activates a m new
      exact ⟨x, hx, mem⟩
    · exact h.known a m old
  · intro a i mem
    obtain ⟨x, hx, idle, off⟩ := h.dark a i mem
    refine ⟨x, hx, idle, fun k hk m place => ?_⟩
    rw [← Bool.not_eq_true]
    intro on
    rcases lit_snoc_eq_true on with new | old
    · obtain ⟨y, hy, active, -⟩ := activates a m new
      obtain rfl := Option.some.inj (hx.symm.trans hy)
      rw [idle] at active
      cases active
    · rw [off k hk m place] at old
      cases old
  · intro a mem
    rcases List.mem_append.1 mem with old | new
    · exact h.ended a old
    · exact ended a (List.mem_singleton.1 new).symm
  · intro pre a post cut m mem
    rcases List.eq_nil_or_concat post with rfl | ⟨post, e', rfl⟩
    · cases mem
    · rw [List.concat_eq_append, ← List.cons_append, ← List.append_assoc] at cut
      obtain ⟨before, last⟩ := List.append_inj' cut rfl
      obtain rfl : e = e' := by simpa using last
      rw [List.concat_eq_append, List.mem_append, List.mem_singleton] at mem
      rcases mem with old | new
      · exact h.quiet pre a post before m old
      · obtain ⟨x, hx, active, -⟩ := activates a m new.symm
        obtain ⟨y, hy, idle⟩ := h.ended a (by simp [before])
        obtain rfl := Option.some.inj (hx.symm.trans hy)
        rw [idle] at active
        cases active

/-- The adapters change: a lit mount stays, and an adapter that was destroyed gets no new one. -/
lemma move (h : Sound s stack trace) (registered : Registered s')
    (keep : ∀ b x, s.adapters b = some x → ∃ y, s'.adapters b = some y ∧
      y.isActive = x.isActive ∧ ∀ m, lit b m trace = true → m ∈ x.mounts → m ∈ y.mounts)
    (idle : ∀ b y, s'.adapters b = some y → y.isActive = false → ∃ x, s.adapters b = some x ∧
      ∀ (k : ℕ) m, y.mounts.entries[k]? = some (some m) → x.mounts.entries[k]? = some (some m)) :
    Sound s' stack trace := by
  refine ⟨registered, h.order, ?_, ?_, ?_, ?_, h.quiet⟩
  · intro b y hy off
    obtain ⟨x, hx, places⟩ := idle b y hy off
    obtain ⟨y', hy', same, -⟩ := keep b x hx
    obtain rfl := Option.some.inj (hy.symm.trans hy')
    refine (h.closing b x hx (same ▸ off)).imp_left fun empty m mem => ?_
    obtain ⟨k, hk⟩ := LiveSet.mem_iff_place.1 mem
    exact empty m (LiveSet.mem_iff_place.2 ⟨k, places k m hk⟩)
  · intro b m on
    obtain ⟨x, hx, mem⟩ := h.known b m on
    obtain ⟨y, hy, -, stays⟩ := keep b x hx
    exact ⟨y, hy, stays m on mem⟩
  · intro b i mem
    obtain ⟨x, hx, off, dark⟩ := h.dark b i mem
    obtain ⟨y, hy, same, -⟩ := keep b x hx
    obtain ⟨x', hx', places⟩ := idle b y hy (same.trans off)
    obtain rfl := Option.some.inj (hx.symm.trans hx')
    exact ⟨y, hy, same.trans off, fun k hk m place => dark k hk m (places k m place)⟩
  · intro b mem
    obtain ⟨x, hx, off⟩ := h.ended b mem
    obtain ⟨y, hy, same, -⟩ := keep b x hx
    exact ⟨y, hy, same.trans off⟩

/-- The adapters keep their mounts. -/
lemma alike (h : Sound s stack trace) (registered : Registered s')
    (keep : ∀ b x, s.adapters b = some x → ∃ y, s'.adapters b = some y ∧
      y.isActive = x.isActive ∧ y.mounts = x.mounts)
    (idle : ∀ b y, s'.adapters b = some y → y.isActive = false → ∃ x, s.adapters b = some x) :
    Sound s' stack trace := by
  refine h.move registered ?_ ?_
  · intro b x hx
    obtain ⟨y, hy, same, mounts⟩ := keep b x hx
    exact ⟨y, hy, same, fun m _ mem => mounts ▸ mem⟩
  · intro b y hy off
    obtain ⟨x, hx⟩ := idle b y hy off
    obtain ⟨y', hy', -, mounts⟩ := keep b x hx
    obtain rfl := Option.some.inj (hy.symm.trans hy')
    exact ⟨x, hx, fun k m place => mounts ▸ place⟩

/-- One adapter's mounts change. -/
lemma put_mounts (h : Sound s stack trace) (hx : s.adapters a = some x) {y : Adapter}
    (phase : y.phase = x.phase) (listening : y.listening = x.listening)
    (keep : ∀ m, lit a m trace = true → m ∈ x.mounts → m ∈ y.mounts)
    (idle : y.isActive = false →
      ∀ (k : ℕ) m, y.mounts.entries[k]? = some (some m) → x.mounts.entries[k]? = some (some m)) :
    Sound (put s a y) stack trace := by
  have same : y.isActive = x.isActive := by rw [Adapter.isActive, Adapter.isActive, phase]
  refine h.move (h.registered.put hx phase listening) ?_ ?_
  · intro b z hz
    rcases eq_or_ne b a with rfl | other
    · obtain rfl := Option.some.inj (hx.symm.trans hz)
      exact ⟨y, put_adapters_self _ _ _, same, keep⟩
    · exact ⟨z, (put_adapters_of_ne s y other).trans hz, rfl, fun _ _ mem => mem⟩
  · intro b z hz off
    rcases eq_or_ne b a with rfl | other
    · obtain rfl := Option.some.inj ((put_adapters_self s b y).symm.trans hz)
      exact ⟨x, hx, idle off⟩
    · rw [put_adapters_of_ne s y other] at hz
      exact ⟨z, hz, fun _ _ place => place⟩

/-- A loop other than `destroy` no longer waits. -/
lemma pop {f : Frame} (h : Sound s (f :: stack) trace) (other : ∀ a i, f ≠ .destroy a i) :
    Sound s stack trace where
  registered := h.registered
  order := (List.pairwise_cons.1 h.order).2
  closing := fun a x hx off => by
    refine (h.closing a x hx off).imp_right ?_
    rintro ⟨i, mem⟩
    exact ⟨i, (List.mem_cons.1 mem).resolve_left fun same => other a i same.symm⟩
  known := h.known
  dark := fun a i mem => h.dark a i (List.mem_cons_of_mem _ mem)
  ended := h.ended
  quiet := h.quiet

/-- A loop other than `destroy` waits; a `reconcile` only of an active adapter. -/
lemma push (h : Sound s stack trace) {f : Frame} (other : ∀ a i, f ≠ .destroy a i)
    (active : ∀ a i p, f = .reconcile a i p → Active s a) : Sound s (f :: stack) trace where
  registered := h.registered
  order := by
    refine List.pairwise_cons.2 ⟨fun lower mem a i p j same => ?_, h.order⟩
    rintro rfl
    obtain ⟨x, hx, on⟩ := active a i p same
    exact h.not_mem_of_active hx on j mem
  closing := fun a x hx off => by
    refine (h.closing a x hx off).imp_right ?_
    rintro ⟨i, mem⟩
    exact ⟨i, List.mem_cons_of_mem _ mem⟩
  known := h.known
  dark := fun a i mem =>
    h.dark a i ((List.mem_cons.1 mem).resolve_left fun same => other a i same.symm)
  ended := h.ended
  quiet := h.quiet

/-- `destroy` begins: it waits from the first place on. -/
lemma leave (h : Sound s stack trace) (hx : s.adapters a = some x) {timer : Option ℕ}
    (phase : x.phase = .active timer) :
    Sound { put (clearTimeout s timer) a { x with phase := .destroyed, listening := false } with
      current := none } (.destroy a 0 :: stack) (trace ++ [.destroyed a]) := by
  have active : x.isActive = true := isActive_iff.2 ⟨_, phase⟩
  set y : Adapter := { x with phase := .destroyed, listening := false } with hy
  set s' : State := { put (clearTimeout s timer) a y with current := none } with hs'
  have self : s'.adapters a = some y := put_adapters_self _ _ _
  have others : ∀ b, b ≠ a → s'.adapters b = s.adapters b :=
    fun b other => put_adapters_of_ne _ _ other
  have left : Sound s' (.destroy a 0 :: stack) trace := by
    refine ⟨h.registered.leave hx phase, ?_, ?_, ?_, ?_, ?_, h.quiet⟩
    · exact List.pairwise_cons.2 ⟨fun _ _ _ _ _ _ same => Frame.noConfusion same, h.order⟩
    · intro b z hz off
      rcases eq_or_ne b a with rfl | other
      · exact .inr ⟨0, List.mem_cons_self⟩
      · rw [others b other] at hz
        refine (h.closing b z hz off).imp_right ?_
        rintro ⟨i, mem⟩
        exact ⟨i, List.mem_cons_of_mem _ mem⟩
    · intro b m on
      obtain ⟨z, hz, mem⟩ := h.known b m on
      rcases eq_or_ne b a with rfl | other
      · obtain rfl := Option.some.inj (hx.symm.trans hz)
        exact ⟨y, self, mem⟩
      · exact ⟨z, (others b other).trans hz, mem⟩
    · intro b i mem
      rcases List.mem_cons.1 mem with new | old
      · obtain ⟨rfl, rfl⟩ := Frame.destroy.inj new
        exact ⟨y, self, rfl, fun k hk => absurd hk (Nat.not_lt_zero k)⟩
      · have other : b ≠ a := by
          rintro rfl
          exact h.not_mem_of_active hx active i old
        obtain ⟨z, hz, rest⟩ := h.dark b i old
        exact ⟨z, (others b other).trans hz, rest⟩
    · intro b mem
      obtain ⟨z, hz, off⟩ := h.ended b mem
      have other : b ≠ a := by
        rintro rfl
        obtain rfl := Option.some.inj (hx.symm.trans hz)
        rw [active] at off
        cases off
      exact ⟨z, (others b other).trans hz, off⟩
  refine left.snoc ?_ fun _ _ same => Event.noConfusion same
  intro b same
  obtain rfl := Event.destroyed.inj same
  exact ⟨y, self, rfl⟩

/-- `destroy` goes on to its next mount, or clears the set. -/
lemma destroyFrom {place : ℕ} (h : Sound s (.destroy a place :: stack) trace)
    (hx : s.adapters a = some x) : After stack trace (destroyFrom s a x place) := by
  obtain ⟨y, hy, off, dark⟩ := h.dark a place List.mem_cons_self
  obtain rfl := Option.some.inj (hx.symm.trans hy)
  rw [TurboAdapter.destroyFrom]
  cases next : x.mounts.next place with
  | none =>
    have unlit : ∀ m, m ∈ x.mounts → lit a m trace = false := by
      intro m mem
      obtain ⟨k, hk⟩ := LiveSet.mem_iff_place.1 mem
      exact dark k (LiveSet.next_eq_none next hk) m hk
    have cleared : Sound (put s a { x with mounts := x.mounts.clear }) (.destroy a place :: stack)
        trace := by
      refine h.put_mounts hx rfl rfl ?_ ?_
      · intro m on mem
        rw [unlit m mem] at on
        cases on
      · intro _ k m place
        exact absurd (LiveSet.mem_iff_place.2 ⟨k, place⟩) LiveSet.not_mem_clear
    show Sound _ stack (trace ++ [])
    rw [List.append_nil]
    refine ⟨cleared.registered, (List.pairwise_cons.1 cleared.order).2, ?_, cleared.known, ?_,
      cleared.ended, cleared.quiet⟩
    · intro b z hz idle
      rcases eq_or_ne b a with rfl | other
      · obtain rfl := Option.some.inj ((put_adapters_self s b _).symm.trans hz)
        exact .inl fun m => LiveSet.not_mem_clear
      · refine (cleared.closing b z hz idle).imp_right ?_
        rintro ⟨i, mem⟩
        exact ⟨i, (List.mem_cons.1 mem).resolve_left fun same => other (Frame.destroy.inj same).1⟩
    · exact fun b i mem => cleared.dark b i (List.mem_cons_of_mem _ mem)
  | some found =>
    obtain ⟨i, m⟩ := found
    obtain ⟨le, here, skipped⟩ := LiveSet.next_eq_some next
    have told : Sound s (.destroy a place :: stack) (trace ++ [.deactivate a m]) :=
      h.snoc (fun _ same => Event.noConfusion same) fun _ _ same => Event.noConfusion same
    show Sound s (.destroy a (i + 1) :: stack) (trace ++ [.deactivate a m])
    refine ⟨told.registered, ?_, ?_, told.known, ?_, told.ended, told.quiet⟩
    · exact List.pairwise_cons.2
        ⟨fun _ _ _ _ _ _ same => Frame.noConfusion same, (List.pairwise_cons.1 told.order).2⟩
    · intro b z hz idle
      refine (told.closing b z hz idle).imp_right ?_
      rintro ⟨j, mem⟩
      rcases List.mem_cons.1 mem with top | old
      · obtain ⟨rfl, -⟩ := Frame.destroy.inj top
        exact ⟨i + 1, List.mem_cons_self⟩
      · exact ⟨j, List.mem_cons_of_mem _ old⟩
    · intro b j mem
      rcases List.mem_cons.1 mem with top | old
      · obtain ⟨rfl, rfl⟩ := Frame.destroy.inj top
        refine ⟨x, hx, off, fun k hk n place' => ?_⟩
        rw [lit_snoc, litStep, if_neg (fun same => Event.noConfusion same)]
        split
        · rfl
        · rename_i other
          rcases Nat.lt_or_ge k place with before | after
          · exact dark k before n place'
          · rcases Nat.lt_or_ge k i with between | last
            · rw [skipped k after between] at place'
              cases place'
            · obtain rfl : k = i := by omega
              rw [here] at place'
              obtain rfl := Option.some.inj (Option.some.inj place')
              exact absurd (.inl rfl) other
      · exact told.dark b j (List.mem_cons_of_mem _ old)

/-- `reconcile` goes on to its next mount. -/
lemma reconcileFrom (h : Sound s stack trace) (hx : s.adapters a = some x)
    (open_ : x.isActive = true ∨ ∀ m, m ∉ x.mounts) (preview : Bool) (place : ℕ) :
    After stack trace (reconcileFrom s a x preview place) := by
  rw [TurboAdapter.reconcileFrom]
  cases next : x.mounts.next place with
  | none =>
    show Sound s stack (trace ++ [])
    rwa [List.append_nil]
  | some found =>
    obtain ⟨i, m⟩ := found
    have mem := LiveSet.mem_of_next next
    have active : x.isActive = true := open_.resolve_right fun empty => empty m mem
    refine (h.snoc ?_ ?_).push (fun _ _ same => Frame.noConfusion same) ?_
    · intro b same
      split at same <;> cases same
    · intro b n same
      split at same
      · cases same
      · obtain ⟨rfl, rfl⟩ := Event.activate.inj same
        exact ⟨x, hx, active, mem⟩
    · intro b j p same
      obtain ⟨rfl, -⟩ := Frame.reconcile.inj same
      exact ⟨x, hx, active⟩

/-- `#beforeCache` goes on to its next mount, or sets the timeout. -/
lemma beforeCacheFrom (h : Sound s stack trace) (hx : s.adapters a = some x) (place : ℕ) :
    After stack trace (beforeCacheFrom s a x place) := by
  have registered := registered_beforeCacheFrom h.registered hx place
  rw [TurboAdapter.beforeCacheFrom] at registered ⊢
  cases next : x.mounts.next place with
  | some found =>
    refine (h.snoc ?_ ?_).push (fun _ _ same => Frame.noConfusion same)
      fun _ _ _ same => Frame.noConfusion same
    · exact fun _ same => Event.noConfusion same
    · exact fun _ _ same => Event.noConfusion same
  | none =>
    rw [next] at registered
    dsimp only at registered ⊢
    cases phase : x.phase with
    | destroyed =>
      show Sound s stack (trace ++ [])
      rwa [List.append_nil]
    | active timer =>
      rw [phase] at registered
      show Sound _ stack (trace ++ [])
      rw [List.append_nil]
      refine h.alike registered ?_ ?_
      · intro b z hz
        rcases eq_or_ne b a with rfl | other
        · obtain rfl := Option.some.inj (hx.symm.trans hz)
          exact ⟨_, put_adapters_self _ _ _, (isActive_iff.2 ⟨_, phase⟩).symm, rfl⟩
        · exact ⟨z, (put_adapters_of_ne _ _ other).trans hz, rfl, rfl⟩
      · intro b z hz _
        rcases eq_or_ne b a with rfl | other
        · exact ⟨x, hx⟩
        · exact ⟨z, (put_adapters_of_ne _ _ other).symm.trans hz⟩

lemma unchanged (h : Sound s stack trace) : After stack trace { state := s } := by
  show Sound s stack (trace ++ [])
  rwa [List.append_nil]

lemma note (h : Sound s stack trace) (e : Event) (mild : e.Mild) :
    Sound s stack (trace ++ [e]) :=
  h.snoc (by rintro a rfl; exact mild.elim) (by rintro a m rfl; exact mild.elim)

lemma reconcile (h : Sound s stack trace) (a : ℕ) : After stack trace (reconcile s a) := by
  rw [TurboAdapter.reconcile]
  cases hx : s.adapters a with
  | none => exact h.unchanged
  | some x =>
    dsimp only
    cases phase : x.phase with
    | destroyed => exact h.unchanged
    | active timer =>
      refine .emit ((h.note (.reconciles a) trivial).reconcileFrom hx ?_ _ _)
      exact .inl (isActive_iff.2 ⟨_, phase⟩)

lemma destroy (h : Sound s stack trace) (a : ℕ) : After stack trace (destroy s a) := by
  rw [TurboAdapter.destroy]
  cases hx : s.adapters a with
  | none => exact h.unchanged
  | some x =>
    dsimp only
    cases phase : x.phase with
    | destroyed => exact h.unchanged
    | active timer => exact .emit ((h.leave hx phase).destroyFrom (put_adapters_self _ _ _))

lemma beforeCache (h : Sound s stack trace) (a : ℕ) : After stack trace (beforeCache s a) := by
  rw [TurboAdapter.beforeCache]
  cases hx : s.adapters a with
  | none => exact h.unchanged
  | some x =>
    dsimp only
    split
    · exact .emit ((h.note (.caches a) trivial).beforeCacheFrom hx 0)
    · exact h.unchanged

lemma adapterFor (h : Sound s stack trace) : Sound (adapterFor s).1 stack trace := by
  have registered := registered_adapterFor h.registered
  rw [TurboAdapter.adapterFor] at registered ⊢
  cases current : s.current with
  | some a => exact h
  | none =>
    rw [current] at registered
    have other : ∀ b x, s.adapters b = some x → b ≠ s.created := by
      rintro b x hx rfl
      rw [h.registered.fresh _ (Nat.le_refl _)] at hx
      cases hx
    refine h.alike registered ?_ ?_
    · intro b x hx
      exact ⟨x, (put_adapters_of_ne _ _ (other b x hx)).trans hx, rfl, rfl⟩
    · intro b x hx idle
      rcases eq_or_ne b s.created with rfl | old
      · obtain rfl := Option.some.inj ((put_adapters_self s s.created {}).symm.trans hx)
        cases idle
      · exact ⟨x, (put_adapters_of_ne _ _ old).symm.trans hx⟩

lemma register (h : Sound s stack trace) (m : Mount) : After stack trace (register s m) := by
  have found := h.adapterFor
  obtain ⟨y, hy, active⟩ := active_adapterFor h.registered
  rw [TurboAdapter.register, hy]
  refine .emit (Sound.reconcile ?_ _)
  refine (found.note (.registered _ m) trivial).put_mounts hy rfl rfl ?_ ?_
  · exact fun n _ mem => LiveSet.mem_add.2 (.inl mem)
  · intro off
    replace off : y.isActive = false := off
    rw [active] at off
    cases off

lemma unregister (h : Sound s stack trace) (a : ℕ) (m : Mount) :
    After stack trace (unregister s a m) := by
  rw [TurboAdapter.unregister]
  cases hx : s.adapters a with
  | none => exact h.unchanged
  | some x =>
    refine .emit ?_
    have left : Sound (put s a { x with mounts := x.mounts.delete m }) stack
        (trace ++ [.unregistered a m]) := by
      refine (h.note (.unregistered a m) trivial).put_mounts hx rfl rfl ?_ ?_
      · intro n on mem
        refine LiveSet.mem_delete.2 ⟨mem, ?_⟩
        rintro rfl
        rw [lit_snoc, litStep, if_neg (fun same => Event.noConfusion same), if_pos (.inr rfl)] at on
        cases on
      · exact fun _ k n place => LiveSet.place_of_delete place
    split
    · exact left.destroy a
    · exact left.unchanged

lemma clearTimeout (h : Sound s stack trace) (timer : Option ℕ) :
    Sound (clearTimeout s timer) stack trace :=
  h.alike (h.registered.clear timer) (fun _ x hx => ⟨x, hx, rfl, rfl⟩) fun _ x hx _ => ⟨x, hx⟩

lemma timeout (h : Sound s stack trace) (timer : ℕ) : After stack trace (timeout s timer) := by
  have registered := registered_timeout h.registered timer
  rw [TurboAdapter.timeout] at registered ⊢
  cases found : s.pending.find? fun t => t.1 = timer with
  | none => exact h.unchanged
  | some t =>
    have cleared := h.clearTimeout (some timer)
    rw [found] at registered
    dsimp only at registered ⊢
    cases callback : t.2 with
    | reconcile a => exact cleared.reconcile a
    | recheck a =>
      rw [callback] at registered
      dsimp only at registered ⊢
      cases hx : (TurboAdapter.clearTimeout s (some timer)).adapters a with
      | none => exact cleared.unchanged
      | some x =>
        rw [hx] at registered
        dsimp only at registered ⊢
        cases phase : x.phase with
        | destroyed => exact cleared.unchanged
        | active old =>
          rw [phase] at registered
          show Sound _ stack (trace ++ [])
          rw [List.append_nil]
          refine cleared.alike registered ?_ ?_
          · intro b z hz
            rcases eq_or_ne b a with rfl | other
            · obtain rfl := Option.some.inj (hx.symm.trans hz)
              exact ⟨_, put_adapters_self _ _ _, (isActive_iff.2 ⟨_, phase⟩).symm, rfl⟩
            · exact ⟨z, (put_adapters_of_ne _ _ other).trans hz, rfl, rfl⟩
          · intro b z hz _
            rcases eq_or_ne b a with rfl | other
            · exact ⟨x, hx⟩
            · exact ⟨z, (put_adapters_of_ne _ _ other).symm.trans hz⟩

lemma call (h : Sound s stack trace) (c : Call) : After stack trace (call s c) := by
  cases c with
  | register m => exact h.register m
  | unregister a m => exact h.unregister a m
  | disconnectTurbo =>
    rw [TurboAdapter.call, disconnectTurbo]
    split
    · exact h.unchanged
    · exact h.destroy _
  | cacheEvent a => exact h.beforeCache a
  | renderEvent a =>
    rw [TurboAdapter.call, renderEvent]
    split
    · exact h.unchanged
    · split
      · exact h.reconcile a
      · exact h.unchanged
  | timeout timer => exact h.timeout timer
  | page connected preview =>
    refine Sound.unchanged (h.alike (registered_call h.registered (.page connected preview)) ?_ ?_)
    · exact fun b x hx => ⟨x, hx, rfl, rfl⟩
    · exact fun b x hx _ => ⟨x, hx⟩

end Sound

/-- No mount throws into `destroy`. -/
def Calm (c : Cfg) (m : Move Call Ret) : Prop :=
  m = .back .threw → ∀ a i rest, c.stack ≠ .destroy a i :: rest

def SoundCfg (c : Cfg) : Prop := Sound c.state c.stack c.trace

lemma sound_init : SoundCfg init where
  registered := registered_init
  order := List.Pairwise.nil
  closing := fun a x hx => by cases hx
  known := fun a m on => by cases on
  dark := fun a i mem => by cases mem
  ended := fun a mem => by cases mem
  quiet := fun pre a post cut => by
    have : init.trace = [] := rfl
    rw [this] at cut
    cases pre <;> cases cut

lemma sound_step {c c' : Cfg} {m : Move Call Ret} (h : SoundCfg c) (calm : Calm c m)
    (hm : machine.step c m = some c') : SoundCfg c' := by
  cases m with
  | call x =>
    obtain rfl := Option.some.inj hm
    exact Sound.call h x
  | back r =>
    obtain ⟨f, rest, o, stack, ho, rfl⟩ := Machine.step_back_eq_some.1 hm
    rw [SoundCfg, stack] at h
    show After rest c.trace o
    cases r with
    | threw =>
      have other : ∀ a i, f ≠ .destroy a i := by
        rintro a i rfl
        exact calm rfl a i rest stack
      obtain rfl := Option.some.inj ho
      exact (h.pop other).unchanged
    | returned =>
      cases f with
      | reconcile a place preview =>
        obtain ⟨x, hx, rfl⟩ := Option.map_eq_some_iff.1 ho
        have popped := h.pop fun _ _ same => Frame.noConfusion same
        refine popped.reconcileFrom hx ?_ preview place
        cases active : x.isActive with
        | true => exact .inl rfl
        | false =>
          refine .inr ((popped.closing a x hx active).resolve_right ?_)
          rintro ⟨j, mem⟩
          exact (List.pairwise_cons.1 h.order).1 _ mem a place preview j rfl rfl
      | beforeCache a place =>
        obtain ⟨x, hx, rfl⟩ := Option.map_eq_some_iff.1 ho
        exact (h.pop fun _ _ same => Frame.noConfusion same).beforeCacheFrom hx place
      | destroy a place =>
        obtain ⟨x, hx, rfl⟩ := Option.map_eq_some_iff.1 ho
        exact h.destroyFrom hx

/-- A mount is registered, and the adapter is torn down. -/
def closed : List (Move Call Ret) := opened ++ [.call .disconnectTurbo, .back .returned]

end TurboAdapter

end Yrby
