import Yrby.Client.ProviderStretches

/-!
# Attempt isolation (`actioncable_provider.ts`)

What the provider does at its own level, method by method: each keeps `Inv`, from wherever it
starts.  `refreshStatus` and its loop over the listeners come first, since most methods end there;
then what moves the provider from one state to another, and the methods themselves.
-/

namespace Yrby.ActionCableProvider

open Reentrant Wire
open ReliableSync (TailInv MergeFrame Steady)

/-! ## Steps of the provider -/

section Provider

variable {H : Host} {s s' : State} {f : Frame} {stack rest : List Frame} {trace : List Event}
  {p : ProviderState}

lemma stop?_of_isPausing (h : f.isPausing = true) : f.stop?.isSome := by
  cases hu : f.under <;> simp_all [Frame.isPausing, Frame.stop?]

lemma isPausing_eq_false (h : f.stop? = none) : f.isPausing = false := by
  by_contra hp
  have := stop?_of_isPausing (by simpa using hp)
  simp [h] at this

/-- Without a `#stop` under way, no frame belongs to one. -/
lemma Inv.no_stop (h : Inv s stack trace) (hs : s.state.isStopping = false) :
    ∀ f ∈ stack, f.stop? = none := by
  intro f hf
  have hcount := h.stops
  rw [hs] at hcount
  have := List.countP_eq_zero.1 hcount f hf
  simpa using this

/-- No frame below the one of a `#stop` belongs to another. -/
lemma Inv.no_other_stop (h : Inv s (f :: rest) trace) (hf : f.stop?.isSome) :
    ∀ g ∈ rest, g.stop? = none := by
  intro g hg
  have hcount := h.stops
  rw [List.countP_cons, if_pos hf] at hcount
  have hzero : rest.countP (fun f => f.stop?.isSome) = 0 := by
    split at hcount <;> omega
  have := List.countP_eq_zero.1 hzero g hg
  simpa using this

lemma Inv.hushed (h : Inv s stack trace) (hs : ∀ a sub, s.state ≠ .connected a sub)
    (hp : ∀ f ∈ stack, f.isPausing = false) : Hushed s stack := by
  rcases h.hush with (⟨a, sub, hconn⟩ | ⟨f, hf, hpausing⟩) | hq
  · exact absurd hconn (hs a sub)
  · simp [hp f hf] at hpausing
  · exact hq

lemma Hushed.mono (h : Hushed s stack) (hsub : rest ⊆ stack) : Hushed s rest :=
  ⟨h.paused, fun f hf => h.stale f (hsub hf)⟩

/-- A frame that belongs to no `#stop` may go. -/
lemma Inv.drop (h : Inv s (f :: rest) trace) (hstop : f.stop? = none)
    (hattempt : ∀ a, f.attempt? = some a → s.state ≠ .subscribing a) : Inv s rest trace where
  frames g hg := h.frames g (List.mem_cons_of_mem f hg)
  tail := h.tail
  ended := h.ended
  alive := h.alive
  stops := by simpa [List.countP_cons, hstop] using h.stops
  subscribing a ha := by
    obtain ⟨hlt, g, hg, hga⟩ := h.subscribing a ha
    rcases List.mem_cons.1 hg with rfl | hg
    · exact absurd ha (hattempt a hga)
    · exact ⟨hlt, g, hg, hga⟩
  attempts := h.attempts
  cycles := h.cycles
  hush := by
    rcases h.hush with (hconn | ⟨g, hg, hpausing⟩) | hq
    · exact .inl (.inl hconn)
    · rcases List.mem_cons.1 hg with rfl | hg
      · simp [isPausing_eq_false hstop] at hpausing
      · exact .inl (.inr ⟨g, hg, hpausing⟩)
    · exact .inr (hq.mono (List.subset_cons_self f rest))
  created := h.created
  custody := h.custody
  reliable := h.reliable
  completed := h.completed
  silent := h.silent

/-- A frame that belongs to no `#stop` may come, unless it would resume a quiet session. -/
lemma Inv.push (h : Inv s rest trace) (hf : FrameOk s trace f) (hstop : f.stop? = none)
    (hquiet : Loud s rest ∨ ∀ n, f.cycle? = some n → s.session.cycle? ≠ some n) :
    Inv s (f :: rest) trace where
  frames g hg := by
    rcases List.mem_cons.1 hg with rfl | hg
    · exact hf
    · exact h.frames g hg
  tail := h.tail
  ended := h.ended
  alive := h.alive
  stops := by simpa [List.countP_cons, hstop] using h.stops
  subscribing a ha := by
    obtain ⟨hlt, g, hg, hga⟩ := h.subscribing a ha
    exact ⟨hlt, g, List.mem_cons_of_mem f hg, hga⟩
  attempts := h.attempts
  cycles := h.cycles
  hush := by
    have loud : Loud s rest → Loud s (f :: rest) := by
      rintro (hconn | ⟨g, hg, hpausing⟩)
      · exact .inl hconn
      · exact .inr ⟨g, List.mem_cons_of_mem f hg, hpausing⟩
    rcases h.hush with hl | hq
    · exact .inl (loud hl)
    · rcases hquiet with hl | hstale
      · exact .inl (loud hl)
      · refine .inr ⟨hq.paused, fun g hg n hn => ?_⟩
        rcases List.mem_cons.1 hg with rfl | hg
        · exact hstale n hn
        · exact hq.stale g hg n hn
  created := h.created
  custody := h.custody
  reliable := h.reliable
  completed := h.completed
  silent := h.silent

/-- An event that says nothing about subscriptions. -/
lemma Inv.emit (h : Inv s stack trace) {e : Event} (hc : e.creates = none)
    (hu : e.unsubscribes = none) (hr : e.Reliable)
    (ha : ∀ a params, e = .create a params → a < s.attempts)
    (hs : .destroyed ∈ trace → e.Silent) (hd : e ≠ .destroyed) : Inv s stack (trace ++ [e]) := by
  have hmem : ∀ {x}, x ∈ trace ++ [e] → x ∈ trace ∨ x = e := by simp
  have hold : .destroyed ∈ trace ++ [e] → .destroyed ∈ trace := fun hx =>
    (hmem hx).resolve_right hd.symm
  refine
    { h with
      frames := fun f hf => { h.frames f hf with
        event := fun n hn hx => (h.frames f hf).event n hn (hold hx) }
      attempts := fun a params hx => ?_
      created := by simpa [List.filterMap_append, hc] using h.created
      custody := by simpa [List.filterMap_append, hu] using h.custody
      reliable := fun x hx => ?_
      completed := fun hx => h.completed (hold hx)
      silent := silent_append h.silent (by simpa using hd.symm) (by simpa using hs) }
  · rcases hmem hx with hx | rfl
    · exact h.attempts a params hx
    · exact ha a params rfl
  · rcases hmem hx with hx | rfl
    · exact h.reliable x hx
    · exact hr

lemma Inv.complain (h : Inv s stack trace) (context : String) :
    Inv s stack (trace ++ [.complained context]) :=
  h.emit rfl rfl trivial (by simp) (fun _ => trivial) (by simp)

/-- The invariant does not read the rest of the state. -/
lemma Inv.congr (h : Inv s stack trace) (hstate : s'.state = s.state)
    (hsession : s'.session = s.session) (hdelivery : s'.delivery = s.delivery)
    (hlast : s'.last = s.last)
    (hlisteners : .destroyed ∈ trace → s'.statusListeners = s.statusListeners)
    (hattempts : s'.attempts = s.attempts) (hsubs : s'.subscriptions = s.subscriptions)
    (hqueued : queued s' = queued s) : Inv s' stack trace where
  frames f hf := by
    obtain ⟨hmerge, hcycle, hstop, hdestroys, hclears, hevent⟩ := h.frames f hf
    refine ⟨?_, ?_, ?_, ?_, ?_, fun e he hd hn => ?_⟩
    · rwa [hdelivery]
    · rwa [hsession]
    · rwa [hstate]
    · rwa [hstate]
    · rwa [hlast]
    · rw [hlisteners hd]
      exact hevent e he hd (hlast ▸ hn)
  tail := by rw [hdelivery]; exact h.tail
  ended := by rw [hstate, hsession, hdelivery]; exact h.ended
  alive := by rw [hstate, hsession, hdelivery]; exact h.alive
  stops := by rw [hstate]; exact h.stops
  subscribing := by rw [hstate, hattempts]; exact h.subscribing
  attempts := by rw [hattempts]; exact h.attempts
  cycles := by rw [hsession]; exact h.cycles
  hush := by
    refine h.hush.imp (Or.imp_left fun hc => ?_) fun hq => ⟨?_, ?_⟩
    · rwa [hstate]
    · rw [hdelivery]; exact hq.paused
    · rw [hsession]; exact hq.stale
  created := by rw [hsubs]; exact h.created
  custody := by rw [hsubs, hqueued, held, hstate]; exact h.custody
  reliable := h.reliable
  completed := by rw [hstate, hlast]; exact h.completed
  silent := h.silent

/-- The provider moves between two states in which it lives and does not stop. -/
lemma Inv.move (h : Inv s stack trace) (hs : s.state ≠ .destroyed)
    (hstopping : s.state.isStopping = false) (hst : p ≠ .destroyed)
    (hst' : p.isStopping = false)
    (hsub : ∀ a, p = .subscribing a → a < s.attempts ∧ ∃ f ∈ stack, f.attempt? = some a)
    (hheld : p.subscription? = s.state.subscription?)
    (hush : (∃ a sub, p = .connected a sub) ∨ Hushed s stack) :
    Inv { s with state := p } stack trace :=
  { h with
    frames := fun f hf => { h.frames f hf with
      stop := fun a sub hfs => by simp [h.no_stop hstopping f hf] at hfs
      destroys := fun hd => absurd ((h.frames f hf).destroys hd) hs }
    ended := fun ho => absurd ho hst
    alive := fun _ => h.alive hs
    stops := by
      have := h.stops
      rw [hstopping] at this
      simpa [hst'] using this
    subscribing := hsub
    hush := hush.imp .inl fun hq => ⟨hq.paused, hq.stale⟩
    custody := by simpa [held, queued, hheld] using h.custody
    completed := fun hd => absurd (h.completed hd).1 hs }

/-- The frames that are part of nothing that the invariant follows. -/
inductive Frame.Plain : Frame → Prop
  | restoring (attempt : ℕ) (presence : String) : Plain (.restoring attempt presence)
  | creating (attempt : ℕ) : Plain (.creating attempt)
  | restored (page : ℕ) : Plain (.restored page)
  | rejecting (renewing : Bool) : Plain (.rejecting renewing)
  | unsubscribing : Plain .unsubscribing
  | ending : Plain .ending
  | done : Plain (.after none .done)
  | refresh : Plain (.after none .refresh)
  | reply (attempt : ℕ) : Plain (.after none (.reply attempt))
  | pausing : Plain (.within (.inner false) (.session .pausing .refresh))

lemma Frame.Plain.stop?_eq (hf : f.Plain) : f.stop? = none := by cases hf <;> rfl

lemma Frame.Plain.cycle?_eq (hf : f.Plain) : f.cycle? = none := by cases hf <;> rfl

lemma Frame.Plain.frameOk (hf : f.Plain) : FrameOk s trace f where
  merge q hq := by cases hf <;> cases hq
  cycle n hn := by simp [hf.cycle?_eq] at hn
  stop a sub hs := by simp [hf.stop?_eq] at hs
  destroys hd := by cases hf <;> simp [Frame.Destroys, Frame.Clears, Cont.next] at hd
  clears hc := by cases hf <;> simp [Frame.Clears] at hc
  event e he := by cases hf <;> cases he

lemma Inv.push_plain (h : Inv s rest trace) (hf : f.Plain) : Inv s (f :: rest) trace :=
  h.push hf.frameOk hf.stop?_eq (.inr (by simp [hf.cycle?_eq]))

lemma Inv.returned (h : Inv s rest trace) : After rest trace { state := s } := by
  simpa [After, Control.push] using h

lemma Inv.threw (h : Inv s rest trace) : After rest trace { state := s, control := .threw } := by
  simpa [After, Control.push] using h

lemma Inv.awaits (h : Inv s (f :: rest) trace) :
    After rest trace { state := s, control := .awaits f } := by
  simpa [After, Control.push] using h

/-- A new attempt begins. -/
lemma Inv.attempt (h : Inv s stack trace) : Inv { s with attempts := s.attempts + 1 } stack trace :=
  { h with
    frames := fun f hf => { h.frames f hf with }
    subscribing := fun a ha => ⟨Nat.lt_succ_of_lt (h.subscribing a ha).1, (h.subscribing a ha).2⟩
    attempts := fun a params hmem => Nat.lt_succ_of_lt (h.attempts a params hmem)
    hush := h.hush.imp id fun hq => ⟨hq.paused, hq.stale⟩ }

lemma inv_connect (h : Inv s rest trace) : After rest trace (connect H s) := by
  unfold connect
  split
  · exact h.threw
  · split
    · exact h.returned
    · rename_i hdisc
      have hdisc : s.state = .disconnected := not_not.1 hdisc
      have hnot : s.state.isStopping = false := by rw [hdisc]; rfl
      have subscribing : ∀ f : Frame, f.attempt? = some s.attempts → Inv s (f :: rest) trace →
          Inv { s with
            state := .subscribing s.attempts
            attempts := s.attempts + 1
            presence := none } (f :: rest) trace := by
        intro f hf hinv
        have hquiet := hinv.attempt.hushed (by simp [hdisc]) fun g hg =>
          isPausing_eq_false (hinv.no_stop hnot g hg)
        have hmoved := hinv.attempt.move (p := .subscribing s.attempts) (by simp [hdisc]) hnot
          (by simp) rfl
          (fun a ha => ⟨by cases ha; exact Nat.lt_succ_self _, f, List.mem_cons_self,
            by cases ha; exact hf⟩)
          (by simp [hdisc, ProviderState.subscription?]) (.inr hquiet)
        exact hmoved.congr rfl rfl rfl rfl (fun _ => rfl) rfl rfl rfl
      dsimp only
      split
      · rename_i presence _
        exact (subscribing _ rfl (h.push_plain (.restoring s.attempts presence))).awaits
      · have hcreating := subscribing _ rfl (h.push_plain (.creating s.attempts))
        refine hcreating.emit rfl rfl trivial (fun a params he => ?_) (fun _ => trivial) (by simp)
        obtain ⟨rfl, -⟩ := Event.create.inj he
        exact Nat.lt_succ_self _

lemma inv_stopped (h : Inv s rest trace) (renewing : Bool) :
    After rest trace (stopped H s renewing) := by
  cases renewing with
  | false => exact h.returned
  | true => exact inv_connect h

/-- The listeners are cleared, and `destroy` completes. -/
lemma Inv.complete (h : Inv s stack trace) (hs : s.state = .destroyed) (hlast : s.last.2 = idle) :
    Inv { s with statusListeners := [] } stack (trace ++ [.destroyed]) :=
  { h with
    frames := fun f hf => { h.frames f hf with event := fun _ _ _ _ => rfl }
    attempts := fun a params hmem => h.attempts a params (by simpa using hmem)
    hush := h.hush.imp id fun hq => ⟨hq.paused, hq.stale⟩
    created := by simpa [List.filterMap_append, List.filterMap_cons, Event.creates] using h.created
    custody := by
      simpa [List.filterMap_append, List.filterMap_cons, Event.unsubscribes, held, queued]
        using h.custody
    reliable := fun e he => by
      rcases List.mem_append.1 he with he | he
      · exact h.reliable e he
      · obtain rfl := List.mem_singleton.1 he
        trivial
    completed := fun _ => ⟨hs, hlast⟩
    silent := fun pre post hsplit e he => by
      rcases List.eq_nil_or_concat post with rfl | ⟨front, last, rfl⟩
      · simp at he
      · rw [List.concat_eq_append, ← List.cons_append, ← List.append_assoc] at hsplit
        obtain ⟨hold, hnew⟩ := List.append_inj' hsplit rfl
        rw [List.concat_eq_append] at he
        rcases List.mem_append.1 he with he | he
        · exact h.silent pre front hold e he
        · obtain rfl := List.mem_singleton.1 he
          obtain rfl := List.singleton_inj.1 hnew
          trivial }

lemma inv_refreshed (h : Inv s rest trace) {next : Next}
    (hnext : ∀ renewing, next = .stopped true renewing → s.state = .destroyed ∧ s.last.2 = idle) :
    After rest trace (refreshed H s next) := by
  cases next with
  | done => exact h.returned
  | rethrow => exact h.threw
  | stopped destroyed renewing =>
      cases destroyed with
      | false => exact inv_stopped h renewing
      | true =>
          obtain ⟨hs, hlast⟩ := hnext renewing rfl
          have := inv_stopped (H := H) (h.complete hs hlast) renewing
          simpa [After, refreshed] using this

/-- What ends a `destroy` is a `#stop` for good. -/
lemma stopped_of_clears {event entry : ℕ} {next : Next}
    (h : (Frame.notifying event entry next).Clears) :
    ∃ renewing, next = .stopped true renewing := by
  cases next with
  | done => exact h.elim
  | rethrow => exact h.elim
  | stopped destroyed renewing =>
      cases destroyed with
      | false => exact h.elim
      | true => exact ⟨renewing, rfl⟩

lemma inv_notify (h : Inv s rest trace) {event entry : ℕ} {next : Next}
    (hnext : ∀ renewing, next = .stopped true renewing → s.state = .destroyed ∧ s.last.2 = idle)
    (hevent : .destroyed ∈ trace → event = s.last.1 → s.statusListeners = []) :
    After rest trace (notify H s event entry next) := by
  unfold notify
  split
  · exact inv_refreshed h hnext
  · rename_i hlast
    have hlast : s.last.1 = event := not_not.1 hlast
    split
    · exact inv_refreshed h hnext
    · rename_i l hfind
      have running : .destroyed ∉ trace := fun hd => by
        simp [hevent hd hlast.symm] at hfind
      have hok : FrameOk s trace (.notifying event (l.1 + 1) next) := by
        refine ⟨by simp [Frame.queue?], by simp [Frame.cycle?],
          by simp [Frame.stop?, Frame.under], fun hd => ?_, fun hc => ?_, fun _ _ hd =>
            absurd hd running⟩
        · obtain ⟨renewing, rfl⟩ := stopped_of_clears hd
          exact (hnext renewing rfl).1
        · obtain ⟨renewing, rfl⟩ := stopped_of_clears hc
          exact (hnext renewing rfl).2
      exact (h.push hok rfl (.inr (by simp [Frame.cycle?]))).emit rfl rfl trivial (by simp)
        (fun hd => absurd hd running) (by simp)

/-- A destroyed provider has nothing to tell. -/
lemma Inv.status (h : Inv s stack trace) (hs : s.state = .destroyed) :
    (⟨computeStatus s, s.delivery.hasPending⟩ : StatusEvent) = idle := by
  simp [computeStatus, hs, ReliableSync.State.hasPending, (h.ended hs).2.2, idle]

lemma inv_refreshStatus (h : Inv s rest trace) {next : Next}
    (hnext : ∀ renewing, next = .stopped true renewing → s.state = .destroyed) :
    After rest trace (refreshStatus H s next) := by
  simp only [refreshStatus]
  split
  · rename_i hsame
    exact inv_refreshed h fun renewing hn =>
      ⟨hnext renewing hn, by rw [← hsame]; exact h.status (hnext renewing hn)⟩
  · rename_i hnew
    have running : .destroyed ∉ trace := fun hd => by
      obtain ⟨hs, hlast⟩ := h.completed hd
      exact hnew ((h.status hs).trans hlast.symm)
    have hinv : Inv { s with
        last := (s.statusEvents, ⟨computeStatus s, s.delivery.hasPending⟩)
        statusEvents := s.statusEvents + 1
        resolved := s.resolved || decide (computeStatus s = .synced) } rest trace :=
      { h with
        frames := fun f hf => { h.frames f hf with
          clears := fun hc => h.status ((h.frames f hf).destroys (by
            cases f <;> first | exact hc | exact absurd hc (by simp [Frame.Clears])))
          event := fun _ _ hd => absurd hd running }
        hush := h.hush.imp id fun hq => ⟨hq.paused, hq.stale⟩
        completed := fun hd => absurd hd running }
    exact inv_notify hinv (fun renewing hn => ⟨hnext renewing hn, h.status (hnext renewing hn)⟩)
      fun hd => absurd hd running

/-! ### Calls into the session -/

/-- A call into the session that stays in its cycle. -/
lemma inv_runSession (h : Inv s rest trace) {o : Session.Out} (ho : Session.Stays s.session none o)
    {next : SessionNext} (hnext : (Frame.after none next).Plain) :
    After rest trace (runSession s o next) :=
  (h.push_plain hnext).inner trivial
    (inner_runSession (.refl h.tail) ho (.inl rfl) hnext.stop?_eq)

/-- The session and its queue, once the session is paused. -/
def paused (s : State) : State :=
  { s with
    session := Session.beginCycle s.session
    delivery := { s.delivery with phase := .paused, version := s.delivery.version + 1 } }

lemma beginCycle_cycle? (session : Session.State) :
    (Session.beginCycle session).cycle? = some session.cycles := rfl

lemma Inv.hushed_paused (h : Inv s stack trace) : Hushed (paused s) stack := by
  refine ⟨by simp [paused], fun f hf n hn hcur => ?_⟩
  obtain rfl : s.session.cycles = n := Option.some.inj hcur
  exact Nat.lt_irrefl _ ((h.frames f hf).cycle _ hn)

lemma Inv.paused (h : Inv s stack trace) (hs : s.state ≠ .destroyed) :
    Inv (paused s) stack trace :=
  { h with
    frames := fun f hf => { h.frames f hf with
      merge := fun q hq => ((h.frames f hf).merge q hq).bump rfl
      cycle := fun n hn => Nat.lt_succ_of_lt ((h.frames f hf).cycle n hn) }
    tail := h.tail.congr rfl rfl rfl
    ended := fun ho => absurd ho hs
    alive := fun _ => ⟨by simp [ActionCableProvider.paused, beginCycle_cycle?],
      by simp [ActionCableProvider.paused]⟩
    cycles := fun n hn => by
      obtain rfl : s.session.cycles = n := Option.some.inj hn
      exact Nat.lt_succ_self _
    hush := .inr h.hushed_paused }

lemma inv_pause {next : SessionNext}
    (h : Inv (paused s) (.within (.inner false) (.session .pausing next) :: rest) trace)
    (hs : s.session.cycle? ≠ none) (hd : s.delivery.phase ≠ .destroyed) :
    After rest trace (runSession s (Session.pause s.session) next) := by
  have hprotocol : s.session.protocol ≠ .destroyed := fun hp => hs (by
    simp [Session.State.cycle?, hp])
  have hrun : runSession s (Session.pause s.session) next =
      runDelivery (paused s) (ReliableSync.updateTimer (paused s).delivery .done)
        (some (.pausing, next)) := by
    simp only [Session.pause, if_neg hprotocol, runSession, Session.emitting, Session.await,
      externalOf, List.findSome?, callOut, ReliableSync.pause, if_neg hd]
    rfl
  rw [hrun]
  exact h.inner trivial (inner_stopTimer h.tail (by simp [paused]) (.inr rfl))

lemma Inv.beginCycle (h : Inv s stack trace) (hs : s.state ≠ .destroyed) (hl : Loud s stack) :
    Inv { s with session := Session.beginCycle s.session } stack trace :=
  { h with
    frames := fun f hf => { h.frames f hf with
      cycle := fun n hn => Nat.lt_succ_of_lt ((h.frames f hf).cycle n hn) }
    ended := fun ho => absurd ho hs
    alive := fun _ => ⟨by simp [beginCycle_cycle?], (h.alive hs).2⟩
    cycles := fun n hn => by
      obtain rfl : s.session.cycles = n := Option.some.inj hn
      exact Nat.lt_succ_self _
    hush := .inl hl }

lemma inv_resume (h : Inv s rest trace) {a : ℕ} {sub : Subscription}
    (hs : s.state = .connected a sub) :
    After rest trace (runSession s (Session.resume s.session) .refresh) := by
  have hne : s.state ≠ .destroyed := by simp [hs]
  have hloud : Loud s rest := .inl ⟨a, sub, hs⟩
  have hinv := h.beginCycle hne hloud
  have hprotocol : s.session.protocol ≠ .destroyed := fun hp => (h.alive hne).1 (by
    simp [Session.State.cycle?, hp])
  have hrun : runSession s (Session.resume s.session) .refresh =
      send { s with session := Session.beginCycle s.session } .syncStep1 none
        (.session (.hello s.session.cycles) .refresh) := by
    simp only [Session.resume, if_neg hprotocol, runSession, Session.emitting, Session.await,
      externalOf, List.findSome?, callOut]
  have hok : FrameOk { s with session := Session.beginCycle s.session } trace
      (.within (.inner false) (.session (.hello s.session.cycles) .refresh)) := by
    refine ⟨by simp [Frame.queue?, Cont.queue?], fun n hn => ?_, by
      simp [Frame.stop?, Frame.under, Cont.next], fun hd => ?_, by simp [Frame.Clears], by
      simp [Frame.event?]⟩
    · obtain rfl : s.session.cycles = n := Option.some.inj hn
      exact Nat.lt_succ_self _
    · simp [Frame.Destroys, Cont.next] at hd
  rw [hrun]
  have hfits : (Cont.session (.hello s.session.cycles) .refresh).Fits
      (.within (.inner false) (.session (.hello s.session.cycles) .refresh)) := ⟨rfl, .inr rfl⟩
  refine (hinv.push hok rfl (.inl (.inl ⟨a, sub, hs⟩))).inner trivial ?_
  exact inner_send (.refl hinv.tail) hfits rfl (by simp [Cont.queue?]) _ (by simp)

/-! ### Destroying -/

/-- The provider, its session and its queue, once they are destroyed. -/
def destroyed (s : State) : State :=
  { s with
    state := .destroyed
    session := { s.session with protocol := .destroyed }
    delivery := { s.delivery with
      phase := .destroyed
      pending := []
      version := s.delivery.version + 1
      tail := none } }

lemma Inv.destroyed (h : Inv s stack trace) (hs : s.state = .disconnected) :
    Inv (destroyed s) stack trace :=
  { h with
    frames := fun f hf => { h.frames f hf with
      merge := fun q hq => ((h.frames f hf).merge q hq).bump rfl
      stop := fun a sub hfs => by
        simp [h.no_stop (by simp [hs, ProviderState.isStopping]) f hf] at hfs
      destroys := fun _ => rfl }
    tail := ⟨⟨by simp [ActionCableProvider.destroyed], by
      simp [ActionCableProvider.destroyed]⟩, by simp [ActionCableProvider.destroyed]⟩
    ended := fun _ => ⟨rfl, rfl, rfl⟩
    alive := fun hne => absurd rfl hne
    stops := by
      have := h.stops
      simpa [hs, ProviderState.isStopping, ActionCableProvider.destroyed] using this
    subscribing := fun a ha => by simp [ActionCableProvider.destroyed] at ha
    cycles := fun n hn => by
      simp [ActionCableProvider.destroyed, Session.State.cycle?] at hn
    hush := .inr ⟨by simp [ActionCableProvider.destroyed], fun f hf n hn => by
      simp [ActionCableProvider.destroyed, Session.State.cycle?]⟩
    custody := by
      simpa [held, queued, hs, ProviderState.subscription?, ActionCableProvider.destroyed]
        using h.custody
    completed := fun hd => absurd (h.completed hd).1 (by simp [hs]) }

lemma inv_destroy (h : Inv { s with state := .disconnected } rest trace) (renewing : Bool) :
    After rest trace (runSession { s with state := .destroyed } (Session.destroy s.session)
      (.destroying renewing)) := by
  obtain ⟨hcycle, hphase⟩ := h.alive (by simp)
  have hprotocol : s.session.protocol ≠ .destroyed := fun hp => hcycle (by
    simp [Session.State.cycle?, hp])
  have hphase : s.delivery.phase ≠ .destroyed := hphase
  have hinv : Inv (destroyed s) rest trace := h.destroyed rfl
  have hrun : runSession { s with state := .destroyed } (Session.destroy s.session)
      (.destroying renewing) =
      runDelivery (destroyed s) (ReliableSync.updateTimer (destroyed s).delivery .done)
        (some (.last, .destroying renewing)) := by
    simp only [Session.destroy, if_neg hprotocol, runSession, Session.await,
      externalOf, List.findSome?, callOut, ReliableSync.destroy, if_neg hphase,
      ReliableSync.queueChanged]
    rfl
  have hok : FrameOk (destroyed s) trace
      (.within (.inner false) (.session .last (.destroying renewing))) :=
    ⟨by simp [Frame.queue?, Cont.queue?], by
      simp [Frame.cycle?, Cont.session?, Session.Frame.cycle?], by
      simp [Frame.stop?, Frame.under, Cont.next], fun _ => rfl, by simp [Frame.Clears], by
      simp [Frame.event?]⟩
  rw [hrun]
  refine (hinv.push hok rfl (.inr ?_)).inner trivial ?_
  · simp [Frame.cycle?, Cont.session?, Session.Frame.cycle?]
  · exact inner_stopTimer hinv.tail (by simp [destroyed]) (.inl rfl)

/-! ### Stopping -/

lemma inv_finishStop (h : Inv { s with state := .disconnected } rest trace) (reason : StopReason)
    (renewing : Bool) : After rest trace (finishStop H s reason renewing) := by
  cases reason with
  | disconnect => exact inv_refreshStatus h (by simp)
  | reject =>
      exact (h.push_plain (.rejecting renewing)).complain "rejected"
  | destroy => exact inv_destroy h renewing

/-- A `destroy` during a `#stop` upgrades its reason. -/
lemma Inv.upgrade (h : Inv s stack trace) {a : ℕ} {sub : Subscription} {reason : StopReason}
    (hs : s.state = .stopping a sub reason) :
    Inv { s with state := .stopping a sub .destroy } stack trace :=
  { h with
    frames := fun f hf => { h.frames f hf with
      stop := fun a' sub' hfs => by
        obtain ⟨⟨r, hr⟩, hcalm⟩ := (h.frames f hf).stop a' sub' hfs
        rw [hs] at hr
        obtain ⟨rfl, rfl, -⟩ := ProviderState.stopping.inj hr
        exact ⟨⟨.destroy, rfl⟩, hcalm⟩
      destroys := fun hd => by
        have := (h.frames f hf).destroys hd
        simp [hs] at this }
    ended := by simp
    alive := fun _ => h.alive (by simp [hs])
    stops := by
      have := h.stops
      simpa [hs, ProviderState.isStopping] using this
    subscribing := by simp
    hush := by
      rcases h.hush with (⟨a', sub', hconn⟩ | hp) | hq
      · simp [hs] at hconn
      · exact .inl (.inr hp)
      · exact .inr ⟨hq.paused, hq.stale⟩
    custody := by simpa [held, queued, hs, ProviderState.subscription?] using h.custody
    completed := fun hd => by
      have := (h.completed hd).1
      simp [hs] at this }

/-- A `#stop` begins: its first frame is waiting. -/
lemma Inv.stopping (h : Inv s stack trace) {a : ℕ} {sub : Subscription}
    (hs : s.state = .connecting a sub ∨ s.state = .connected a sub) (reason : StopReason)
    (renewing : Bool) :
    Inv { s with state := .stopping a sub reason }
      (.after none (.pausing a sub renewing) :: stack) trace := by
  have hnot : s.state.isStopping = false := by rcases hs with hs | hs <;> rw [hs] <;> rfl
  have hne : s.state ≠ .destroyed := by rcases hs with hs | hs <;> simp [hs]
  have hsub : s.state.subscription? = some sub := by rcases hs with hs | hs <;> rw [hs] <;> rfl
  have hcount := h.stops
  rw [hnot] at hcount
  refine
    { h with
      frames := fun f hf => ?_
      ended := by simp
      alive := fun _ => h.alive hne
      stops := by
        have : (Frame.after none (.pausing a sub renewing)).stop?.isSome = true := rfl
        rw [List.countP_cons, hcount, if_pos this]
        rfl
      subscribing := by simp
      hush := .inl (.inr ⟨_, List.mem_cons_self, rfl⟩)
      custody := by
        have hold := h.custody
        rwa [held, hsub] at hold
      completed := fun hd => absurd (h.completed hd).1 hne }
  rcases List.mem_cons.1 hf with rfl | hf
  · refine ⟨by simp [Frame.queue?], by simp [Frame.cycle?], fun a' sub' hfs => ?_, ?_, ?_, ?_⟩
    · obtain ⟨rfl, rfl⟩ := Prod.mk.inj (Option.some.inj hfs)
      exact ⟨⟨reason, rfl⟩, .after _ _⟩
    · simp [Frame.Destroys, Frame.Clears]
    · simp [Frame.Clears]
    · simp [Frame.event?]
  · exact { h.frames f hf with
      stop := fun a' sub' hfs => by simp [h.no_stop hnot f hf] at hfs
      destroys := fun hd => absurd ((h.frames f hf).destroys hd) hne }

/-- The `#stop` lets go of its subscription. -/
lemma Inv.release (h : Inv s (f :: rest) trace) {a : ℕ} {sub : Subscription} {reason : StopReason}
    (hs : s.state = .stopping a sub reason) (hf : f.stop? = some (a, sub))
    (hp : f.isPausing = false) :
    Inv { unsubscribe s sub with state := .disconnected } rest trace := by
  have hothers := h.no_other_stop (f := f) (by simp [hf])
  have hquiet : Hushed s (f :: rest) := h.hushed (by simp [hs]) fun g hg => by
    rcases List.mem_cons.1 hg with rfl | hg
    · exact hp
    · exact isPausing_eq_false (hothers g hg)
  refine
    { h with
      frames := fun g hg => { h.frames g (List.mem_cons_of_mem f hg) with
        stop := fun a' sub' hgs => by simp [hothers g hg] at hgs
        destroys := fun hd => by
          have := (h.frames g (List.mem_cons_of_mem f hg)).destroys hd
          simp [hs] at this }
      ended := by simp
      alive := fun _ => h.alive (by simp [hs])
      stops := ?_
      subscribing := by simp
      hush := .inr ⟨hquiet.paused, fun g hg => hquiet.stale g (List.mem_cons_of_mem f hg)⟩
      custody := ?_
      completed := fun hd => by
        have := (h.completed hd).1
        simp [hs] at this }
  · have hzero : rest.countP (fun g => g.stop?.isSome) = 0 :=
      List.countP_eq_zero.2 fun g hg => by simp [hothers g hg]
    simpa [ProviderState.isStopping] using hzero
  · have hold := h.custody
    simp only [held, hs, ProviderState.subscription?, Option.map_some, Option.toList_some] at hold
    have hqueued : queued { unsubscribe s sub with state := .disconnected } =
        queued s ++ [sub.number] := by
      simp [queued, unsubscribe, List.filterMap_append, Microtask.unsubscribes]
    have hheld : held { unsubscribe s sub with state := .disconnected } = [] := rfl
    rw [hqueued, hheld]
    refine List.Perm.trans ?_ hold
    have hswap : (queued s ++ [sub.number]).Perm ([sub.number] ++ queued s) :=
      List.perm_append_comm
    exact hswap.append_right _

lemma inv_beginStop (h : Inv s rest trace) {a : ℕ} {sub : Subscription}
    (hs : s.state = .connecting a sub ∨ s.state = .connected a sub) (reason : StopReason)
    (renewing : Bool) :
    After rest trace
      (runSession
        { s with state := .stopping a sub reason, page := none, presence := s.localState }
        (Session.removeLocalAwareness s.session) (.pausing a sub renewing)) := by
  have hinv : Inv { s with
      state := .stopping a sub reason
      page := none
      presence := s.localState } (.after none (.pausing a sub renewing) :: rest) trace :=
    (h.stopping hs reason renewing).congr rfl rfl rfl rfl (fun _ => rfl) rfl rfl rfl
  exact hinv.inner trivial (inner_removeLocalAwareness hinv.tail none _)

lemma inv_stop (h : Inv s rest trace) (reason : StopReason) (renewing : Bool) :
    After rest trace (stop H s reason renewing) := by
  unfold stop
  split
  · exact inv_stopped h renewing
  · rename_i a sub r hs
    split
    · exact inv_stopped (h.upgrade hs) renewing
    · exact inv_stopped h renewing
  · rename_i hs
    split
    · exact inv_stopped h renewing
    · refine inv_finishStop ?_ reason renewing
      exact h.congr hs.symm rfl rfl rfl (fun _ => rfl) rfl rfl rfl
  · rename_i a hs
    refine inv_finishStop (h.move (by simp [hs]) (by simp [hs, ProviderState.isStopping])
      (by simp) rfl (by simp) (by simp [hs, ProviderState.subscription?]) (.inr ?_)) reason
      renewing
    exact h.hushed (by simp [hs]) fun f hf =>
      isPausing_eq_false (h.no_stop (by simp [hs, ProviderState.isStopping]) f hf)
  · rename_i a sub hs
    exact inv_beginStop h (.inl hs) reason renewing
  · rename_i a sub hs
    exact inv_beginStop h (.inr hs) reason renewing

/-! ### The methods, the callbacks and the continuations -/

/-- Another frame of the same `#stop`. -/
lemma Inv.swap (h : Inv s (f :: rest) trace) {g : Frame} (hcalm : g.Calm) (hg : g.stop? = f.stop?)
    (hq : g.queue? = none) (hc : g.cycle? = none)
    (hd : ¬g.Destroys) (hcl : ¬g.Clears) (he : g.event? = none)
    (hf : f.attempt? = none) (hquiet : Hushed s (f :: rest)) : Inv s (g :: rest) trace := by
  refine
    { h with
      frames := fun f' hf' => ?_
      stops := by simpa [List.countP_cons, hg] using h.stops
      subscribing := fun a ha => ?_
      hush := .inr ⟨hquiet.paused, fun f' hf' n hn => ?_⟩ }
  · rcases List.mem_cons.1 hf' with rfl | hf'
    · refine ⟨by simp [hq], by simp [hc], fun a sub hfs => ⟨?_, hcalm⟩, fun h => absurd h hd,
        fun h => absurd h hcl, by simp [he]⟩
      exact ((h.frames f List.mem_cons_self).stop a sub (hg ▸ hfs)).1
    · exact h.frames f' (List.mem_cons_of_mem f hf')
  · obtain ⟨hlt, f', hf', ha'⟩ := h.subscribing a ha
    rcases List.mem_cons.1 hf' with rfl | hf'
    · simp [hf] at ha'
    · exact ⟨hlt, f', List.mem_cons_of_mem g hf', ha'⟩
  · rcases List.mem_cons.1 hf' with rfl | hf'
    · simp [hc] at hn
    · exact hquiet.stale f' (List.mem_cons_of_mem f hf') n hn

lemma inv_proceed {reply : Option Bytes} {next : SessionNext}
    (h : Inv s (.after reply next :: rest) trace) : After rest trace (proceed H s reply next) := by
  cases next with
  | done => exact (h.drop rfl (by simp [Frame.attempt?])).returned
  | refresh => exact inv_refreshStatus (h.drop rfl (by simp [Frame.attempt?])) (by simp)
  | reply attempt =>
      have hinv : Inv s rest trace := h.drop rfl (by simp [Frame.attempt?])
      cases reply with
      | none => exact inv_refreshStatus hinv (by simp)
      | some frame =>
          simp only [proceed]
          split
          · exact (hinv.push_plain .done).inner trivial
              (inner_send (.refl h.tail) ⟨rfl, .inl rfl⟩ rfl (by simp [Cont.queue?]) _ (by simp))
          · exact inv_refreshStatus hinv (by simp)
  | pausing a sub renewing =>
      obtain ⟨⟨r, hr⟩, -⟩ := (h.frames _ List.mem_cons_self).stop a sub rfl
      have hne : s.state ≠ .destroyed := by simp [hr]
      obtain ⟨hcycle, hphase⟩ := h.alive hne
      refine inv_pause (((h.paused hne).swap (.inner (.inr rfl) _) rfl rfl rfl ?_ ?_ rfl rfl
        h.hushed_paused)) hcycle hphase
      · simp [Frame.Destroys, Cont.next]
      · simp [Frame.Clears]
  | unsubscribing a sub renewing =>
      obtain ⟨⟨r, hr⟩, -⟩ := (h.frames _ List.mem_cons_self).stop a sub rfl
      have hstate : (unsubscribe s sub).state = .stopping a sub r := hr
      simp only [proceed, hstate, if_pos]
      exact inv_finishStop (h.release hr rfl rfl) r renewing
  | destroying renewing =>
      have hs : s.state = .destroyed := (h.frames _ List.mem_cons_self).destroys trivial
      have hinv : Inv s rest trace := h.drop rfl (by simp [Frame.attempt?])
      have hok : FrameOk s trace (.destroyingAwareness renewing) :=
        ⟨by simp [Frame.queue?], by simp [Frame.cycle?], by simp [Frame.stop?, Frame.under],
          fun _ => hs, by simp [Frame.Clears], by simp [Frame.event?]⟩
      exact (hinv.push hok rfl (.inr (by simp [Frame.cycle?]))).awaits

lemma inv_complaining (h : Inv s rest trace) (context : String) :
    After rest trace
      { state := s, events := [.complained context], control := .awaits .ending } :=
  (h.push_plain .ending).complain context

lemma inv_receive (h : Inv s rest trace) (message : Option CableMessage) (attempt : ℕ) :
    After rest trace (receive H s message attempt) := by
  unfold receive
  split
  · exact h.returned
  · split
    · exact inv_runSession h (Session.stays_call _ _ (by simp) (by simp) (by simp)) .refresh
    · split
      · exact h.returned
      · split
        · exact inv_complaining h "received"
        · split
          · exact inv_complaining h "received"
          · exact inv_runSession h (Session.stays_receive _ _ _) (.reply attempt)

lemma inv_connected (h : Inv s rest trace) {a : ℕ} {sub : Subscription}
    (hs : s.state = .connecting a sub) :
    After rest trace (runSession { s with state := .connected a sub } (Session.resume s.session)
      .refresh) :=
  inv_resume (h.move (p := .connected a sub) (by simp [hs])
    (by simp [hs, ProviderState.isStopping]) (by simp) rfl (by simp)
    (by simp [hs, ProviderState.subscription?]) (.inl ⟨a, sub, rfl⟩)) rfl

lemma inv_lost (h : Inv s rest trace) {a : ℕ} {sub : Subscription}
    (hs : s.state = .connecting a sub ∨ s.state = .connected a sub) :
    After rest trace (runSession { s with state := .connecting a sub } (Session.pause s.session)
      .refresh) := by
  have hnot : s.state.isStopping = false := by rcases hs with hs | hs <;> rw [hs] <;> rfl
  have hne : s.state ≠ .destroyed := by rcases hs with hs | hs <;> simp [hs]
  have hsub : s.state.subscription? = some sub := by rcases hs with hs | hs <;> rw [hs] <;> rfl
  obtain ⟨hcycle, hphase⟩ := h.alive hne
  have hmoved := (h.paused hne).move (p := .connecting a sub) hne hnot (by simp) rfl (by simp)
    hsub.symm (.inr h.hushed_paused)
  exact inv_pause (s := { s with state := .connecting a sub }) (hmoved.push_plain .pausing) hcycle
    hphase

lemma inv_callback (h : Inv s rest trace) (attempt : ℕ) (cb : Callback) :
    After rest trace (callback H s attempt cb) := by
  cases cb with
  | received message => exact inv_receive h message attempt
  | connected =>
      simp only [callback]
      split
      · rename_i a sub hs
        exact inv_connected h hs
      · exact h.returned
  | disconnected =>
      simp only [callback]
      split
      · rename_i a sub hs
        exact inv_lost h (.inl hs)
      · rename_i a sub hs
        exact inv_lost h (.inr hs)
      · exact h.returned
  | rejected => exact inv_stop h .reject false

lemma inv_run (h : Inv s rest trace) (attempt : ℕ) (cb : Callback) :
    After rest trace (run H s attempt cb) := by
  unfold run
  split
  · exact inv_callback h attempt cb
  · exact h.returned

lemma inv_cable (h : Inv s rest trace) (attempt : ℕ) (cb : Callback) :
    After rest trace (cable H s attempt cb) := by
  unfold cable
  split
  · have hinv : Inv { s with microtasks := s.microtasks ++ [.run attempt cb] } rest trace :=
      h.congr rfl rfl rfl rfl (fun _ => rfl) rfl rfl
        (by simp [queued, List.filterMap_append, Microtask.unsubscribes])
    exact hinv.returned
  · exact inv_run h attempt cb

/-- An event that says something about subscriptions, in a state whose accounts agree. -/
lemma Inv.account (h : Inv s stack trace) {e : Event} (microtasks : List Microtask)
    (subscriptions : ℕ)
    (hcreated : (trace ++ [e]).filterMap Event.creates = List.range subscriptions)
    (hcustody : (held s ++ microtasks.filterMap Microtask.unsubscribes ++
      (trace ++ [e]).filterMap Event.unsubscribes).Perm (List.range subscriptions))
    (hr : e.Reliable) (hs : e.Silent) (ha : ∀ a params, e ≠ .create a params)
    (hd : e ≠ .destroyed) :
    Inv { s with microtasks, subscriptions } stack (trace ++ [e]) := by
  have hmem : ∀ {x}, x ∈ trace ++ [e] → x ∈ trace ∨ x = e := by simp
  have hold : .destroyed ∈ trace ++ [e] → .destroyed ∈ trace := fun hx =>
    (hmem hx).resolve_right hd.symm
  exact
    { h with
      frames := fun f hf => { h.frames f hf with
        event := fun n hn hx => (h.frames f hf).event n hn (hold hx) }
      attempts := fun a params hx =>
        h.attempts a params ((hmem hx).resolve_right (ha a params).symm)
      hush := h.hush.imp id fun hq => ⟨hq.paused, hq.stale⟩
      created := hcreated
      custody := hcustody
      reliable := fun x hx => (hmem hx).elim (h.reliable x) fun hx => hx ▸ hr
      completed := fun hx => h.completed (hold hx)
      silent := silent_append h.silent (by simpa using hd.symm) fun _ => by simpa using hs }

/-- The subscription that `create` returned becomes the current one. -/
lemma Inv.install (h : Inv s (f :: rest) trace) {attempt : ℕ} {sub : Subscription}
    (hs : s.state = .subscribing attempt) (hsub : sub.number = s.subscriptions) :
    Inv { s with
      subscriptions := s.subscriptions + 1
      state := .connecting attempt sub } rest (trace ++ [.created sub.number]) := by
  have hnot : s.state.isStopping = false := by rw [hs]; rfl
  have hne : s.state ≠ .destroyed := by simp [hs]
  have hstops : ∀ g ∈ rest, g.stop? = none := fun g hg =>
    h.no_stop hnot g (List.mem_cons_of_mem f hg)
  have hquiet : Hushed s (f :: rest) := h.hushed (by simp [hs]) fun g hg =>
    isPausing_eq_false (h.no_stop hnot g hg)
  have hmem : ∀ {x}, x ∈ trace ++ [.created sub.number] →
      x ∈ trace ∨ x = .created sub.number := by simp
  have running : .destroyed ∉ trace ++ [.created sub.number] := fun hx => by
    rcases hmem hx with hx | hx
    · exact hne (h.completed hx).1
    · cases hx
  have hzero : rest.countP (fun g => g.stop?.isSome) = 0 :=
    List.countP_eq_zero.2 fun g hg => by simp [hstops g hg]
  refine
    { h with
      frames := fun g hg => { h.frames g (List.mem_cons_of_mem f hg) with
        stop := fun a' sub' hgs => by simp [hstops g hg] at hgs
        destroys := fun hd =>
          absurd ((h.frames g (List.mem_cons_of_mem f hg)).destroys hd) hne
        event := fun n hn hx => absurd hx running }
      ended := by simp
      alive := fun _ => h.alive hne
      stops := by simpa [ProviderState.isStopping] using hzero
      subscribing := by simp
      attempts := fun a params hx => h.attempts a params ((hmem hx).resolve_right (by simp))
      hush := .inr ⟨hquiet.paused, fun g hg => hquiet.stale g (List.mem_cons_of_mem f hg)⟩
      created := ?_
      custody := ?_
      reliable := fun x hx => (hmem hx).elim (h.reliable x) fun hx => hx ▸ trivial
      completed := fun hx => absurd hx running
      silent := fun pre post hsplit => absurd (by simp [hsplit]) running }
  · simp [List.filterMap_append, Event.creates, h.created, hsub, List.range_succ]
  · have hold := h.custody
    simp only [held, hs, ProviderState.subscription?, Option.map_none, Option.toList_none,
      List.nil_append] at hold
    simp only [held, ProviderState.subscription?, Option.map_some, Option.toList_some,
      List.filterMap_append, List.filterMap_cons, Event.unsubscribes, List.filterMap_nil,
      List.append_nil, List.range_succ, hsub]
    have hswap : ∀ xs : List ℕ, ([s.subscriptions] ++ xs).Perm (xs ++ [s.subscriptions]) :=
      fun _ => List.perm_append_comm
    exact (hswap _).trans (hold.append_right _)

lemma inv_installed {attempt : ℕ} (h : Inv s (.creating attempt :: rest) trace)
    (whispers : Bool) : After rest trace (installed H s attempt whispers) := by
  simp only [installed]
  split
  · rename_i hs
    have hinv : Inv s rest trace := h.drop rfl fun a ha => by
      obtain rfl : attempt = a := Option.some.inj ha
      exact hs
    have haccount := hinv.account (e := .created s.subscriptions)
      (s.microtasks ++ [.unsubscribe ⟨s.subscriptions, whispers⟩]) (s.subscriptions + 1)
      (by simp [List.filterMap_append, Event.creates, h.created, List.range_succ])
      (by
        have hold := hinv.custody.append_right [s.subscriptions]
        rw [List.range_succ]
        refine List.Perm.trans ?_ hold
        simp only [queued, List.filterMap_append, List.filterMap_cons, Microtask.unsubscribes,
          Event.unsubscribes, List.filterMap_nil, List.append_nil, List.append_assoc]
        exact ((List.perm_append_comm).append_left _).append_left _)
      trivial trivial (by simp) (by simp)
    exact haccount
  · rename_i hs
    have hs : s.state = .subscribing attempt := not_not.1 hs
    have hinv : Inv { s with
        subscriptions := s.subscriptions + 1
        state := .connecting attempt ⟨s.subscriptions, whispers⟩ } rest
        (trace ++ [.created s.subscriptions]) := h.install hs rfl
    have hwatched : Inv (watchPage H { s with
        subscriptions := s.subscriptions + 1
        state := .connecting attempt ⟨s.subscriptions, whispers⟩ }) rest
        (trace ++ [.created s.subscriptions]) := by
      unfold watchPage
      split
      · exact hinv.congr rfl rfl rfl rfl (fun _ => rfl) rfl rfl rfl
      · exact hinv
    have hrefreshed : After rest (trace ++ [.created s.subscriptions])
        (refreshStatus H (watchPage H { s with
          subscriptions := s.subscriptions + 1
          state := .connecting attempt ⟨s.subscriptions, whispers⟩ }) .done) :=
      inv_refreshStatus hwatched (by simp)
    simpa [After] using hrefreshed

lemma inv_createFailed {attempt : ℕ} (h : Inv s (.creating attempt :: rest) trace) :
    After rest trace (createFailed H s attempt) := by
  unfold createFailed
  split
  · rename_i hs
    exact (h.drop rfl fun a ha => by
      obtain rfl : attempt = a := Option.some.inj ha
      exact hs).returned
  · rename_i hs
    have hs : s.state = .subscribing attempt := not_not.1 hs
    have hnot : s.state.isStopping = false := by rw [hs]; rfl
    have hmoved := h.move (p := .disconnected) (by simp [hs]) hnot (by simp) rfl (by simp)
      (by simp [hs, ProviderState.subscription?])
      (.inr (h.hushed (by simp [hs]) fun g hg => isPausing_eq_false (h.no_stop hnot g hg)))
    exact inv_refreshStatus (hmoved.drop rfl (by simp)) (by simp)

lemma inv_microtask (h : Inv s rest trace) : After rest trace (microtask H s) := by
  unfold microtask
  split
  · exact h.returned
  · rename_i attempt cb tasks hm
    have hinv : Inv { s with microtasks := tasks } rest trace :=
      h.congr rfl rfl rfl rfl (fun _ => rfl) rfl rfl
        (by simp [queued, hm, List.filterMap_cons, Microtask.unsubscribes])
    exact inv_run hinv attempt cb
  · rename_i sub tasks hm
    have hinv := h.account (e := .unsubscribed sub.number) tasks s.subscriptions
      (by simpa [List.filterMap_append, List.filterMap_cons, Event.creates] using h.created)
      (by
        refine List.Perm.trans ?_ h.custody
        simp only [queued, hm, List.filterMap_append, List.filterMap_cons, Microtask.unsubscribes,
          Event.unsubscribes, List.filterMap_nil, List.append_assoc]
        refine List.Perm.append_left _ ?_
        rw [← List.append_assoc]
        exact List.perm_append_comm.trans (by simp))
      trivial trivial (by simp) (by simp)
    exact hinv.push_plain .unsubscribing

/-- A frame may take the place of another one that belongs to no `#stop`. -/
lemma Inv.exchange (h : Inv s (f :: rest) trace) {g : Frame} (hg : FrameOk s trace g)
    (hstop : g.stop? = none) (hc : g.cycle? = none) (hattempt : g.attempt? = f.attempt?)
    (hf : f.stop? = none) : Inv s (g :: rest) trace := by
  refine
    { h with
      frames := fun f' hf' => ?_
      stops := by simpa [List.countP_cons, hstop, hf] using h.stops
      subscribing := fun a ha => ?_
      hush := ?_ }
  · rcases List.mem_cons.1 hf' with rfl | hf'
    · exact hg
    · exact h.frames f' (List.mem_cons_of_mem f hf')
  · obtain ⟨hlt, f', hf', ha'⟩ := h.subscribing a ha
    rcases List.mem_cons.1 hf' with rfl | hf'
    · exact ⟨hlt, g, List.mem_cons_self, hattempt.trans ha'⟩
    · exact ⟨hlt, f', List.mem_cons_of_mem g hf', ha'⟩
  · rcases h.hush with (hconn | ⟨f', hf', hpausing⟩) | hq
    · exact .inl (.inl hconn)
    · rcases List.mem_cons.1 hf' with rfl | hf'
      · simp [isPausing_eq_false hf] at hpausing
      · exact .inl (.inr ⟨f', List.mem_cons_of_mem g hf', hpausing⟩)
    · refine .inr ⟨hq.paused, fun f' hf' n hn => ?_⟩
      rcases List.mem_cons.1 hf' with rfl | hf'
      · simp [hc] at hn
      · exact hq.stale f' (List.mem_cons_of_mem f hf') n hn

lemma inv_restoring {attempt : ℕ} {presence : String}
    (h : Inv s (.restoring attempt presence :: rest) trace) :
    After rest trace
      (if s.state = .subscribing attempt then create H s attempt else { state := s }) := by
  split
  · rename_i hs
    have hcreating : Inv s (.creating attempt :: rest) trace :=
      h.exchange (Frame.Plain.creating attempt).frameOk rfl rfl rfl rfl
    refine hcreating.emit rfl rfl trivial (fun a params he => ?_) (fun _ => trivial) (by simp)
    obtain ⟨rfl, -⟩ := Event.create.inj he
    exact (h.subscribing attempt hs).1
  · rename_i hs
    exact (h.drop rfl fun a ha => by
      obtain rfl : attempt = a := Option.some.inj ha
      exact hs).returned

/-- The frame under which a listener ran: the loop goes on. -/
lemma inv_notified (h : Inv s (f :: rest) trace) {event entry : ℕ} {next : Next}
    (hf : f = .notifying event entry next ∨ f = .listenerFailed event entry next) :
    After rest trace (notify H s event entry next) := by
  obtain ⟨-, -, -, hdestroys, hclears, hevent⟩ := h.frames f List.mem_cons_self
  have hnone : f.stop? = none ∧ f.attempt? = none ∧ f.event? = some event := by
    rcases hf with rfl | rfl <;> exact ⟨rfl, rfl, rfl⟩
  refine inv_notify (h.drop hnone.1 (by simp [hnone.2.1])) (fun renewing hn => ?_)
    fun hd => hevent event hnone.2.2 hd
  subst hn
  rcases hf with rfl | rfl
  · exact ⟨hdestroys trivial, hclears trivial⟩
  · exact ⟨hdestroys trivial, hclears trivial⟩

lemma inv_within {callee : Callee} {cont : Cont} (h : Inv s (.within callee cont :: rest) trace)
    {r : Ret} {o : Out} (ho : back H s (.within callee cont) r = some o) : After rest trace o := by
  have carriesOn : ∀ {r}, callee.answers cont r ∨ (Frame.within callee cont).stop? = none →
      carryOn H s r cont = some o → After rest trace o := by
    intro r hr ho
    cases hstop : (Frame.within callee cont).stop? with
    | some stop =>
        have hcalm := ((h.frames _ List.mem_cons_self).stop _ _ hstop).2
        have hr := hr.resolve_right (by simp [hstop])
        exact h.inner trivial (inner_calm h.tail hcalm hr ho)
    | none =>
        cases cont with
        | refresh =>
            obtain rfl := Option.some.inj ho
            exact inv_refreshStatus (h.drop hstop (by simp [Frame.attempt?])) (by simp)
        | session g next => exact h.inner trivial (inner_carryOn h hstop (by simp) ho)
        | delivery q below => exact h.inner trivial (inner_carryOn h hstop (by simp) ho)
  have uncalm : ∀ sub, callee = .send sub → (Frame.within callee cont).stop? = none := by
    rintro sub rfl
    cases hstop : (Frame.within (.send sub) cont).stop? with
    | none => rfl
    | some stop =>
        have hcalm := ((h.frames _ List.mem_cons_self).stop _ _ hstop).2
        cases hcalm
  simp only [back] at ho
  split at ho
  · rename_i hr
    split at ho
    · rename_i sub
      have hstop := uncalm sub rfl
      split at ho
      · obtain rfl := Option.some.inj ho
        have hc : Continues (.within (.send sub) cont) (.within .report cont) :=
          ⟨trivial, rfl, .inr rfl, by simp [hstop]⟩
        refine h.inner trivial ((Moved.refl h.tail).awaits hc (fun q hq => ?_) fun e he => ?_)
        · exact (h.frames _ List.mem_cons_self).merge q hq
        · obtain rfl := List.mem_singleton.1 he
          exact .complained _
      · exact carriesOn (.inr hstop) ho
    · exact carriesOn (.inl hr) ho
  · simp at ho

lemma inv_back (h : Inv s (f :: rest) trace) {r : Ret} {o : Out} (ho : back H s f r = some o) :
    After rest trace o := by
  have ending : ∀ {f : Frame}, Inv s (f :: rest) trace → f.stop? = none → f.attempt? = none →
      Inv s rest trace := fun h hs ha => h.drop hs (by simp [ha])
  cases f with
  | restoring attempt presence =>
      cases r <;> simp only [back, Option.some.injEq, reduceCtorEq] at ho
      exact ho ▸ inv_restoring h
  | creating attempt =>
      cases r <;> simp only [back, Option.some.injEq, reduceCtorEq] at ho
      · exact ho ▸ inv_createFailed h
      · exact ho ▸ inv_installed h _
  | restored page =>
      cases r <;> simp only [back, Option.some.injEq, reduceCtorEq] at ho
      subst ho
      have hinv := ending h rfl rfl
      split
      · rename_i p stash _
        have hpage : Inv { s with page := some (p, if p = page then none else stash) } rest trace :=
          hinv.congr rfl rfl rfl rfl (fun _ => rfl) rfl rfl rfl
        exact hpage.returned
      · exact hinv.returned
  | rejecting renewing =>
      cases r <;> simp only [back, Option.some.injEq, reduceCtorEq] at ho
      exact ho ▸ inv_refreshStatus (ending h rfl rfl) (by simp)
  | destroyingAwareness renewing =>
      cases r <;> simp only [back, Option.some.injEq, reduceCtorEq] at ho
      have hs := (h.frames _ List.mem_cons_self).destroys trivial
      exact ho ▸ inv_refreshStatus (ending h rfl rfl) fun _ _ => hs
  | notifying event entry next =>
      cases r <;> simp only [back, Option.some.injEq, reduceCtorEq] at ho
      · exact ho ▸ inv_notified h (.inl rfl)
      · subst ho
        obtain ⟨hmerge, hcycle, -, hdestroys, hclears, hevent⟩ := h.frames _ List.mem_cons_self
        have hok : FrameOk s trace (.listenerFailed event entry next) := by
          refine ⟨hmerge, hcycle, by simp [Frame.stop?, Frame.under], ?_, ?_, hevent⟩
          · rcases next with - | - | ⟨_ | _, renewing⟩ <;> exact hdestroys
          · rcases next with - | - | ⟨_ | _, renewing⟩ <;> exact hclears
        exact (h.exchange hok rfl rfl rfl rfl).complain "listener"
  | listenerFailed event entry next =>
      cases r <;> simp only [back, Option.some.injEq, reduceCtorEq] at ho
      exact ho ▸ inv_notified h (.inr rfl)
  | unsubscribing =>
      cases r <;> simp only [back, Option.some.injEq, reduceCtorEq] at ho
      · exact ho ▸ (ending h rfl rfl).returned
      · exact ho ▸ inv_complaining (ending h rfl rfl) "unsubscribe"
  | ending =>
      cases r <;> simp only [back, Option.some.injEq, reduceCtorEq] at ho
      exact ho ▸ (ending h rfl rfl).returned
  | within callee cont => exact inv_within h ho
  | after reply next =>
      cases r <;> simp only [back, Option.some.injEq, reduceCtorEq] at ho
      exact ho ▸ inv_proceed h

lemma inv_call (h : Inv s stack trace) {x : Call} (hx : ∀ listener, x = .onStatusChange listener →
      .destroyed ∈ trace → ∀ f ∈ stack, f.event? ≠ some s.last.1) :
    After stack trace (call H s x) := by
  have stays : ∀ {s' : State} (c : Session.Call), Inv s' stack trace → c ≠ .resume → c ≠ .pause →
      c ≠ .destroy →
      After stack trace (runSession s' (Session.call H.parsesJson s'.session c) .done) :=
    fun c hinv hr hp hd => inv_runSession hinv (Session.stays_call _ _ hr hp hd) .done
  cases x with
  | connect => exact inv_connect h
  | disconnect => exact inv_stop h .disconnect false
  | renew params =>
      simp only [call, renew]
      split
      · exact h.returned
      · have hinv : Inv { s with
            channelParams := fun key => (params key).or (s.channelParams key) } stack trace :=
          h.congr rfl rfl rfl rfl (fun _ => rfl) rfl rfl rfl
        exact inv_stop hinv .disconnect true
  | destroy => exact inv_stop h .destroy false
  | onStatusChange listener =>
      have hinv : Inv (onStatusChange s listener) stack trace := by
        unfold onStatusChange
        split
        · exact h
        · exact { h with
            frames := fun f hf => { h.frames f hf with
              event := fun e he hd hn =>
                absurd (by rw [he, hn]) (hx listener rfl hd f hf) }
            hush := h.hush.imp id fun hq => ⟨hq.paused, hq.stale⟩ }
      exact hinv.returned
  | offStatusChange listener =>
      have hinv : Inv { s with
          statusListeners := s.statusListeners.filter fun l => decide (l.2 ≠ listener) }
          stack trace :=
        { h with
          frames := fun f hf => { h.frames f hf with
            event := fun e he hd hn => by simp [(h.frames f hf).event e he hd hn] }
          hush := h.hush.imp id fun hq => ⟨hq.paused, hq.stale⟩ }
      exact hinv.returned
  | applyRemoteUpdate update => exact stays _ h (by simp) (by simp) (by simp)
  | cable attempt cb => exact inv_cable h attempt cb
  | microtask => exact inv_microtask h
  | sessionDocUpdate update own => exact stays _ h (by simp) (by simp) (by simp)
  | onDocUpdate => exact inv_refreshStatus h (by simp)
  | sessionAwarenessUpdate changed own => exact stays _ h (by simp) (by simp) (by simp)
  | onAwarenessUpdate mine =>
      simp only [call]
      split
      · have hinv : Inv { s with presence := none } stack trace :=
          h.congr rfl rfl rfl rfl (fun _ => rfl) rfl rfl rfl
        exact hinv.returned
      · exact h.returned
  | awarenessIs localState remote =>
      have hinv : Inv { s with localState := localState } stack trace :=
        h.congr rfl rfl rfl rfl (fun _ => rfl) rfl rfl rfl
      exact stays _ hinv (by simp) (by simp) (by simp)
  | tick timer =>
      exact (h.push_plain .done).inner trivial (inner_runDelivery (.refl h.tail)
        (ReliableSync.steady_call h.tail (c := .tick timer) (by simp) (by simp)) (by simp) rfl
        (fun _ => rfl) (by simp))
  | pagehide page =>
      simp only [call, hide]
      split
      · rename_i p stash _
        split
        · have hinv : Inv { s with page := some (p, s.localState) } stack trace :=
            h.congr rfl rfl rfl rfl (fun _ => rfl) rfl rfl rfl
          exact (hinv.push_plain .done).inner trivial
            (inner_removeLocalAwareness hinv.tail none _)
        · exact h.returned
      · exact h.returned
  | pageshow page persisted =>
      simp only [call, unhide]
      split
      · rename_i p stash _
        split
        · split
          · exact (h.push_plain (.restored p)).awaits
          · have hinv : Inv { s with page := some (p, none) } stack trace :=
              h.congr rfl rfl rfl rfl (fun _ => rfl) rfl rfl rfl
            exact hinv.returned
        · exact h.returned
      · exact h.returned
  | sendRejected sub =>
      simp only [call]
      split
      · exact inv_complaining h "send"
      · exact h.returned

/-! ## The promise -/

lemma inv_init (params : Params) :
    Inv (init params).state (init params).stack (init params).trace where
  frames := by simp [init]
  tail := ⟨⟨by simp [init], by simp [init]⟩, by simp [init]⟩
  ended := by simp [init]
  alive := fun _ => ⟨by simp [init, Session.State.cycle?], by simp [init]⟩
  stops := by simp [init, ProviderState.isStopping]
  subscribing := by simp [init]
  attempts := by simp [init]
  cycles n hn := by
    obtain rfl : 0 = n := by simpa [init, Session.State.cycle?] using hn
    exact Nat.zero_lt_one
  hush := .inr ⟨by simp [init], by simp [init]⟩
  created := by simp [init]
  custody := by simp [init, held, queued, ProviderState.subscription?]
  reliable := by simp [init]
  completed := by simp [init]
  silent := by simp [init]

theorem inv_step {c c' : Cfg} {m : Move Call Ret} (h : Inv c.state c.stack c.trace)
    (hok : InTime c m) (hm : step H c m = some c') : Inv c'.state c'.stack c'.trace := by
  have hm : (machine H).step c m = some c' := by
    unfold step at hm
    exact (Option.ite_none_right_eq_some.1 hm).2
  cases m with
  | call x =>
      obtain rfl := Option.some.inj hm
      refine inv_call h fun listener hx => ?_
      subst hx
      exact hok
  | back r =>
      obtain ⟨f, rest, o, hst, ho, rfl⟩ := Machine.step_back_eq_some.1 hm
      exact inv_back (hst ▸ h) ho

lemma refreshStatus_rethrow_state : (refreshStatus H s .rethrow).state.state = s.state := by
  simp only [refreshStatus, notify]
  repeat' split
  all_goals rfl

/-- The invariant gives what the provider promises. -/
lemma Inv.isolated {c : Cfg} (h : Inv c.state c.stack c.trace) : Isolated H c where
  ignored a cb hinactive := by
    simp only [call, cable]
    split
    · exact .inr rfl
    · exact .inl (by simp [run, hinactive])
  deferred a cb rest hm hinactive := by
    simp only [call, microtask, hm]
    simp [run, hinactive]
  current a a' ha ha' := by
    cases hs : c.state.state <;> simp_all [ProviderState.active]
  custody := by
    rw [h.created]
    exact h.custody
  distinct := by
    rw [h.created]
    exact List.nodup_range
  reliable := h.reliable
  failed a rest c' hst hs hm := by
    have hm : (machine H).step c (.back .threw) = some c' := by
      unfold step at hm
      exact (Option.ite_none_right_eq_some.1 hm).2
    obtain ⟨f, rest', o, hst', ho, rfl⟩ := Machine.step_back_eq_some.1 hm
    obtain ⟨rfl, rfl⟩ := List.cons.inj (hst.symm.trans hst')
    obtain rfl : createFailed H c.state a = o := Option.some.inj ho
    have hsub : ¬c.state.state ≠ .subscribing a := not_not.2 hs
    simp only [Config.resume, createFailed, if_neg hsub]
    exact refreshStatus_rethrow_state
  rejecting a ha := by
    have hstate : ∃ sub, c.state.state = .connecting a sub ∨ c.state.state = .connected a sub := by
      cases hs : c.state.state with
      | connecting a' sub =>
          obtain rfl : a' = a := by simpa [hs, ProviderState.active] using ha
          exact ⟨sub, .inl rfl⟩
      | connected a' sub =>
          obtain rfl : a' = a := by simpa [hs, ProviderState.active] using ha
          exact ⟨sub, .inr rfl⟩
      | _ => simp [hs, ProviderState.active] at ha
    obtain ⟨sub, hs⟩ := hstate
    refine ⟨sub, ?_⟩
    have hstop : call H c.state (.cable a .rejected) = stop H c.state .reject false := by
      rcases hs with hs | hs <;> simp [call, cable, run, hs, ProviderState.active, callback]
    have hinner := inner_removeLocalAwareness (s := { c.state with
      state := .stopping a sub .reject
      page := none
      presence := c.state.localState }) h.tail none (.pausing a sub false)
    have hstopping := congrArg State.state hinner.state
    rw [hstop]
    rcases hs with hs | hs
    · simp only [stop, hs]
      exact hstopping
    · simp only [stop, hs]
      exact hstopping
  rejected a sub renewing reply rest c' hst hs hm := by
    have hm : (machine H).step c (.back .unit) = some c' := by
      unfold step at hm
      exact (Option.ite_none_right_eq_some.1 hm).2
    obtain ⟨f, rest', o, hst', ho, rfl⟩ := Machine.step_back_eq_some.1 hm
    obtain ⟨rfl, rfl⟩ := List.cons.inj (hst.symm.trans hst')
    obtain rfl : proceed H c.state reply (.unsubscribing a sub renewing) = o := Option.some.inj ho
    have hstate : (unsubscribe c.state sub).state = .stopping a sub .reject := hs
    simp [Config.resume, proceed, hstate, finishStop]
  finished hst a sub reason := by
    constructor
    · intro hs
      obtain ⟨-, f, hf, -⟩ := h.subscribing a hs
      simp [hst] at hf
    · intro hs
      have := h.stops
      simp [hst, hs, ProviderState.isStopping] at this
  connects hs := by
    refine ⟨?_, fun params hmem => Nat.lt_irrefl _ (h.attempts _ params hmem)⟩
    have hgo : ¬c.state.state ≠ .disconnected := not_not.2 hs
    have hdestroying : c.state.state.destroying = false := by rw [hs]; rfl
    simp only [call, connect, hdestroying, Bool.false_eq_true, if_false, if_neg hgo]
    split <;> rfl
  silent := h.silent
  final hd := (h.completed hd).1

/-- **When the provider keeps its promise.**  In every run, under any re-entrancy and any order of
callbacks and microtasks, in which no listener is registered too late. -/
theorem isolated_of_run {params : Params} {ms : List (Move Call Ret)} {c : Cfg}
    (hok : Transition.Along (step H) InTime (init params) ms)
    (h : Transition.run (step H) (init params) ms = some c) : Isolated H c :=
  (Transition.run_invariant_along (P := fun c => Inv c.state c.stack c.trace)
    (fun _ _ _ hc hok hm => inv_step hc hok hm) (inv_init params) hok h).isolated

end Provider

section Examples

/-- A page without a `window`, on which nothing decodes. -/
def plainHost : Host := ⟨fun _ => none, fun _ => true, false, "DocumentChannel"⟩

/-- A listener is registered, the provider connects and disconnects again.  The awareness object
announces that the local presence is gone.  The run ends as the listener hears of it. -/
def untilDisconnected : List (Move Call Ret) :=
  [.call (.onStatusChange 1), .call .connect, .back (.subscription false), .back .unit,
    .call .disconnect, .call (.awarenessIs none []), .call (.sessionAwarenessUpdate [0] false),
    .back .unit, .back .unit, .back .unit, .back .unit, .back .unit]

/-- A listener that is registered in time. -/
theorem isolated_of_run_disconnected :
    ∃ c, Transition.run (step plainHost) (init fun _ => none) untilDisconnected = some c ∧
      c.state.state = .disconnected ∧ Isolated plainHost c := by
  have hrun : (Transition.run (step plainHost) (init fun _ => none) untilDisconnected).map
      (fun c => c.state.state) = some .disconnected := rfl
  obtain ⟨c, hc, hs⟩ := Option.map_eq_some_iff.1 hrun
  have hok : Transition.Along (step plainHost) InTime (init fun _ => none) untilDisconnected := by
    refine ⟨fun hd => by simp [init] at hd, fun t _ => .of_forall fun m hm s => ?_⟩
    simp only [List.mem_cons, List.not_mem_nil, or_false] at hm
    rcases hm with rfl | rfl | rfl | rfl | rfl | rfl | rfl | rfl | rfl | rfl | rfl <;> trivial
  exact ⟨c, hc, hs, isolated_of_run hok hc⟩

/-- As it hears of the disconnect, the listener calls `destroy`, which runs to its end, and then
registers another listener.  The loop goes on and calls it. -/
theorem late_listener_called :
    ∃ c, Transition.run (step plainHost) (init fun _ => none) (untilDisconnected ++
        [.call .destroy, .back .unit, .back .unit, .back .unit, .call (.onStatusChange 3),
          .back .unit]) = some c ∧ ¬Isolated plainHost c := by
  have hrun : (Transition.run (step plainHost) (init fun _ => none) (untilDisconnected ++
      [.call .destroy, .back .unit, .back .unit, .back .unit, .call (.onStatusChange 3),
        .back .unit])).map (fun c => c.trace.drop 4) =
      some [.notified 1 ⟨.disconnected, false⟩, .destroyed, .notified 3 ⟨.disconnected, false⟩] :=
    rfl
  obtain ⟨c, hc, htrace⟩ := Option.map_eq_some_iff.1 hrun
  refine ⟨c, hc, fun h => ?_⟩
  have hsplit : c.trace = (c.trace.take 4 ++ [.notified 1 ⟨.disconnected, false⟩]) ++
      .destroyed :: [.notified 3 ⟨.disconnected, false⟩] := by
    rw [List.append_assoc]
    exact (List.take_append_drop 4 c.trace).symm.trans (by rw [htrace]; rfl)
  exact h.silent _ _ hsplit _ List.mem_cons_self

end Examples

end Yrby.ActionCableProvider
