import Yrby.Client.ReliableSync
import Mathlib.Data.List.Chain

/-!
# Invariants of the delivery queue over every schedule (`reliable_sync.ts`)

What `ReliableSync` keeps true however its injected functions re-enter it, and whatever ids
`acknowledge` is given: the queue holds consecutive numbers, a send carries the merge of exactly
the queue, updates leave the queue only by `acknowledge` and `destroy`, and between calls there
is one retransmit timer or none.

The part about timers follows the handles.  A timer object is installed before `setInterval` has
returned its handle, so while that call is in progress nobody can clear it; the invariant says
that such a timer is always waited for by a frame of the stack.
-/

namespace Yrby

open Wire Reentrant Transition

namespace ReliableSync

/-! ## Queue numbers -/

/-- The queued numbers go up by one, and the last one is the last that was given out. -/
structure Consecutive (s : State) : Prop where
  chain : s.pending.IsChain fun p q => q.seq = p.seq + 1
  newest : ∀ p, s.pending.getLast? = some p → p.seq + 1 = s.nextSeq

lemma Consecutive.sorted {ps : List Pending} (h : ps.IsChain fun p q => q.seq = p.seq + 1) :
    ps.Pairwise fun p q => p.seq < q.seq := by
  have hlt : ps.IsChain fun p q => p.seq < q.seq := h.imp fun p q hpq => by omega
  rw [← List.isChain_map Pending.seq (R := (· < ·))] at hlt
  exact List.pairwise_map.1 (List.isChain_iff_pairwise.1 hlt)

/-- Pruning a run of consecutive numbers drops a front part of it. -/
lemma chain_prune {ps : List Pending} (h : ps.IsChain fun p q => q.seq = p.seq + 1) (n : ℤ) :
    ∃ front, ps = front ++ ps.filter fun p => decide (n < p.seq) := by
  induction ps with
  | nil => exact ⟨[], rfl⟩
  | cons p ps ih =>
      by_cases hp : n < p.seq
      · refine ⟨[], ?_⟩
        have hall : ∀ q ∈ p :: ps, decide (n < q.seq) = true := by
          intro q hq
          rcases List.mem_cons.1 hq with rfl | hq
          · simpa using hp
          · have := (List.pairwise_cons.1 (Consecutive.sorted h)).1 q hq
            simp only [decide_eq_true_eq]
            omega
        rw [List.nil_append, List.filter_eq_self.2 hall]
      · obtain ⟨front, hfront⟩ := ih h.tail
        exact ⟨p :: front, by simpa [hp] using hfront⟩

section Queue

-- What `merge` returns, as a relation between the updates it is given and the merged bytes.
variable (merges : List Bytes → Bytes → Prop)

/-- What is sent for a queue: a single update as it is, more of them as their merge. -/
def Delta : List Bytes → Bytes → Prop
  | [only], u => u = only
  | parts, u => merges parts u

/-- A `send` carries the whole queue under its newest number, while delivery is live. -/
structure CarriesQueue (s : State) (u : Bytes) (id : ℕ) : Prop where
  live : s.phase = .live
  delta : Delta merges (s.pending.map Pending.update) u
  newest : s.pending.getLast?.map Pending.seq = some id

/-- Between calls the queue is consecutive, and the memoized tail is its merge. -/
structure TailInv (s : State) (_ : List Event) : Prop where
  consecutive : Consecutive s
  tail : ∀ t, s.tail = some t → Delta merges (s.pending.map Pending.update) t.bytes

/-- A merge in progress knows the queue and the phase it was started in, as long as the version
stands. -/
def MergeFrame (s : State) (_ : List Event) : Frame → Prop
  | .merge version parts =>
      version ≤ s.version ∧
        (version = s.version → parts = s.pending ∧ s.phase = .live ∧ 2 ≤ parts.length)
  | _ => True

/-- A stretch of code that starts in `s` keeps the invariant, and every send in it carries the
queue. -/
structure Sends (s : State) (trace : List Event) (o : Out) : Prop where
  keeps : Keeps (TailInv merges) MergeFrame s trace o
  sends : ∀ u id parts, .send u id parts ∈ o.events → CarriesQueue merges o.state u id

variable {merges}

lemma MergeFrame.congr {s s' : State} {trace trace' : List Event} {f : Frame}
    (h : MergeFrame s trace f) (hv : s'.version = s.version) (hp : s'.pending = s.pending)
    (hph : s'.phase = s.phase) : MergeFrame s' trace' f := by
  cases f with
  | merge version parts => simpa only [MergeFrame, hv, hp, hph] using h
  | _ => trivial

/-- Once the version has moved on, a merge in progress is stale. -/
lemma MergeFrame.bump {s s' : State} {trace trace' : List Event} {f : Frame}
    (h : MergeFrame s trace f) (hv : s'.version = s.version + 1) : MergeFrame s' trace' f := by
  cases f with
  | merge version parts =>
      obtain ⟨hle, -⟩ := h
      exact ⟨by omega, by omega⟩
  | _ => trivial

lemma TailInv.congr {s s' : State} {trace trace' : List Event} (h : TailInv merges s trace)
    (hp : s'.pending = s.pending) (hn : s'.nextSeq = s.nextSeq) (ht : s'.tail = s.tail) :
    TailInv merges s' trace' := by
  refine ⟨⟨?_, ?_⟩, ?_⟩
  · simpa only [hp] using h.consecutive.chain
  · simpa only [hp, hn] using h.consecutive.newest
  · simpa only [hp, ht] using h.tail

/-- A stretch that ends in `s` without an event. -/
lemma Sends.stay {s : State} {trace : List Event} (h : TailInv merges s trace) {o : Out}
    (hs : o.state = s) (he : o.events = []) (hc : ∀ f, o.control ≠ .awaits f) :
    Sends merges s trace o :=
  ⟨.of_end hs he hc h fun f hf => hf, by simp [he]⟩

/-- A stretch that first moves the object without calling out. -/
lemma Sends.of_state {s s' : State} {trace : List Event} {o : Out}
    (h : Sends merges s' trace o) (hF : ∀ f, MergeFrame s trace f → MergeFrame s' trace f) :
    Sends merges s trace o :=
  ⟨h.keeps.of_state hF, h.sends⟩

/-- A stretch that calls an injected function other than `send` in state `s'`. -/
lemma Sends.of_await {s s' : State} {trace : List Event} {e : Event} {f : Frame}
    (he : ∀ u id parts, e ≠ .send u id parts) (hI : TailInv merges s' (trace ++ [e]))
    (hF : ∀ f, MergeFrame s trace f → MergeFrame s' (trace ++ [e]) f)
    (hf : MergeFrame s' (trace ++ [e]) f) :
    Sends merges s trace { state := s', events := [e], control := .awaits f } := by
  refine ⟨.of_await rfl rfl rfl hI hF hf, fun u id parts hmem => ?_⟩
  exact absurd (List.mem_singleton.1 hmem).symm (he u id parts)

/-- The handle of a timer is recorded, then the stretch goes on. -/
lemma Sends.created {s : State} {trace : List Event} {timer : ℕ} {hd : Handle} {o : Out}
    (h : Sends merges { s with stops := Function.update s.stops timer (some hd) }
      (trace ++ [.created timer hd]) o) :
    Sends merges s trace { o with events := .created timer hd :: o.events } := by
  refine ⟨.of_state (.emit h.keeps fun f hf => ?_) fun f hf => ?_, fun u id parts hmem => ?_⟩
  · exact hf.congr rfl rfl rfl
  · exact hf.congr rfl rfl rfl
  · exact h.sends u id parts (by simpa using hmem)

lemma sends_transmit {s : State} {trace : List Event} (h : TailInv merges s trace)
    (hlive : s.phase = .live) : Sends merges s trace (transmit s) := by
  unfold transmit
  split
  · rename_i t newest ht hlast
    have hI : TailInv merges s (trace ++ [.send t.bytes newest.seq t.parts]) :=
      h.congr rfl rfl rfl
    refine ⟨.of_await rfl rfl rfl hI (fun f hf => hf.congr rfl rfl rfl) trivial, ?_⟩
    intro u id parts hmem
    obtain ⟨rfl, rfl, -⟩ := Event.send.inj (List.mem_singleton.1 hmem)
    exact ⟨hlive, h.tail t ht, by simp [hlast]⟩
  · exact .stay h rfl rfl (by simp)

lemma sends_flush {s : State} {trace : List Event} (h : TailInv merges s trace) :
    Sends merges s trace (flush s) := by
  unfold flush
  split
  · exact .stay h rfl rfl (by simp)
  · rename_i hgo
    obtain ⟨hlive, hne⟩ := not_or.1 hgo
    have hlive : s.phase = .live := not_not.1 hlive
    split
    · exact sends_transmit h hlive
    · split
      · rename_i only hp
        refine .of_state (sends_transmit ⟨⟨h.consecutive.chain, h.consecutive.newest⟩, ?_⟩ hlive)
          fun f hf => hf.congr rfl rfl rfl
        rintro t ht
        obtain rfl := Option.some.inj ht
        simp [hp, Delta]
      · rename_i hmany
        refine .of_await (by simp) (h.congr rfl rfl rfl) (fun f hf => hf.congr rfl rfl rfl) ?_
        refine ⟨le_rfl, fun _ => ⟨rfl, hlive, ?_⟩⟩
        -- neither empty nor a single update
        match hs : s.pending with
        | [] => exact absurd hs hne
        | [only] => exact absurd hs (hmany only)
        | _ :: _ :: _ => simp

lemma sends_proceed {s : State} {trace : List Event} (h : TailInv merges s trace) (next : Next) :
    Sends merges s trace (proceed s next) := by
  cases next with
  | flush => exact sends_flush h
  | done => exact .stay h rfl rfl (by simp [proceed])

lemma sends_stopTimer {s : State} {trace : List Event} (h : TailInv merges s trace) (timer : ℕ)
    (next : Next) : Sends merges s trace (stopTimer s timer next) := by
  unfold stopTimer
  split
  · exact sends_proceed h next
  · exact .of_await (by simp) (h.congr rfl rfl rfl) (fun f hf => hf.congr rfl rfl rfl) trivial

lemma sends_updateTimer {s : State} {trace : List Event} (h : TailInv merges s trace)
    (next : Next) : Sends merges s trace (updateTimer s next) := by
  simp only [updateTimer]
  split
  · split
    · exact sends_proceed h next
    · refine .of_state (sends_stopTimer ?_ _ next) fun f hf => hf.congr rfl rfl rfl
      exact h.congr rfl rfl rfl
  · split
    · exact .of_await (by simp) (h.congr rfl rfl rfl) (fun f hf => hf.congr rfl rfl rfl) trivial
    · exact sends_proceed h next

lemma sends_queueChanged {s s' : State} {trace : List Event} (h : Consecutive s')
    (hv : s'.version = s.version) (next : Next) :
    Sends merges s trace (queueChanged s' next) := by
  have hI : TailInv merges { s' with version := s'.version + 1, tail := none } trace :=
    ⟨⟨h.chain, h.newest⟩, by simp⟩
  exact .of_state (sends_updateTimer hI next) fun f hf => hf.bump (congrArg (· + 1) hv)

lemma Consecutive.enqueue {s s' : State} (h : Consecutive s) {u : Bytes}
    (hp : s'.pending = s.pending ++ [⟨s.nextSeq, u⟩]) (hn : s'.nextSeq = s.nextSeq + 1) :
    Consecutive s' := by
  refine ⟨?_, ?_⟩
  · rw [hp, List.isChain_append]
    refine ⟨h.chain, by simp, ?_⟩
    intro p hlast q hq
    obtain rfl : _ = q := by simpa using hq
    exact (h.newest p hlast).symm
  · simp [hp, hn]

lemma Consecutive.prune {s s' : State} (h : Consecutive s) {n : ℤ}
    (hp : s'.pending = s.pending.filter fun p => decide (n < p.seq))
    (hn : s'.nextSeq = s.nextSeq) : Consecutive s' := by
  obtain ⟨front, hfront⟩ := chain_prune h.chain n
  rw [← hp] at hfront
  refine ⟨(hfront ▸ h.chain).right_of_append, fun p hlast => ?_⟩
  rw [hn]
  refine h.newest p ?_
  rw [hfront, List.getLast?_append, hlast]
  rfl

lemma sends_call {s : State} {trace : List Event} (h : TailInv merges s trace) (c : Call) :
    Sends merges s trace (call s c) := by
  have stay : Sends merges s trace { state := s } := .stay h rfl rfl (by simp)
  cases c with
  | enqueue update =>
      simp only [call, enqueue]
      split
      · exact stay
      · refine sends_queueChanged ?_ ?_ .flush
        · exact h.consecutive.enqueue rfl rfl
        · rfl
  | acknowledge id =>
      cases id with
      | other => exact stay
      | integer n =>
          simp only [call, acknowledge]
          split
          · refine sends_queueChanged ?_ ?_ .done
            · exact h.consecutive.prune rfl rfl
            · rfl
          · exact stay
  | resume =>
      simp only [call, resume]
      split
      · exact stay
      · refine .of_state (sends_updateTimer ?_ .flush) fun f hf => hf.bump rfl
        exact h.congr rfl rfl rfl
  | pause =>
      simp only [call, pause]
      split
      · exact stay
      · refine .of_state (sends_updateTimer ?_ .done) fun f hf => hf.bump rfl
        exact h.congr rfl rfl rfl
  | retransmit => exact sends_flush h
  | destroy =>
      simp only [call, destroy]
      split
      · exact stay
      · refine sends_queueChanged ⟨?_, ?_⟩ ?_ .done
        · simp
        · simp
        · rfl
  | tick timer =>
      simp only [call, tick]
      split
      · exact sends_flush h
      · exact stay

lemma sends_back {s : State} {trace : List Event} (h : TailInv merges s trace) {f : Frame}
    {r : Ret} {o : Out} (hf : MergeFrame s trace f)
    (hmerge : ∀ version parts b, f = .merge version parts → r = .bytes b →
      merges (parts.map Pending.update) b)
    (ho : back s f r = some o) : Sends merges s trace o := by
  cases f with
  | send =>
      cases r <;> simp only [back, Option.some.injEq, reduceCtorEq] at ho <;> subst ho <;>
        exact .stay h rfl rfl (by simp)
  | merge version parts =>
      cases r with
      | bytes b =>
          simp only [back] at ho
          split at ho
          · obtain rfl := Option.some.inj ho
            exact .stay h rfl rfl (by simp)
          · rename_i hv
            obtain rfl := Option.some.inj ho
            obtain ⟨hparts, hlive, hlen⟩ := hf.2 (not_not.1 hv).symm
            have hI : TailInv merges { s with tail := some ⟨b, parts⟩ } trace := by
              refine ⟨⟨h.consecutive.chain, h.consecutive.newest⟩, fun t ht => ?_⟩
              obtain rfl := Option.some.inj ht
              have hb := hmerge version parts b rfl rfl
              rw [hparts] at hb hlen
              rcases hs : s.pending with - | ⟨first, - | ⟨second, more⟩⟩
              · simp [hs] at hlen
              · simp [hs] at hlen
              · simpa [Delta, hs] using hb
            exact .of_state (sends_transmit hI hlive) fun f hf => hf.congr rfl rfl rfl
      | threw =>
          obtain rfl := Option.some.inj ho
          exact .stay h rfl rfl (by simp)
      | _ => simp [back] at ho
  | setInterval timer next =>
      cases r with
      | handle hd =>
          obtain rfl := Option.some.inj ho
          have h' : TailInv merges { s with stops := Function.update s.stops timer (some hd) }
              (trace ++ [.created timer hd]) := h.congr rfl rfl rfl
          refine .created ?_
          split
          · exact sends_stopTimer h' timer next
          · exact sends_proceed h' next
      | threw =>
          obtain rfl := Option.some.inj ho
          split
          · exact ⟨.of_end rfl rfl (by simp) (h.congr rfl rfl rfl) fun f hf =>
              hf.congr rfl rfl rfl, by simp⟩
          · exact .stay h rfl rfl (by simp)
      | _ => simp [back] at ho
  | clearInterval next =>
      cases r with
      | unit =>
          obtain rfl := Option.some.inj ho
          exact sends_proceed h next
      | threw =>
          obtain rfl := Option.some.inj ho
          exact .stay h rfl rfl (by simp)
      | _ => simp [back] at ho

/-- A `merge` that returns in this move returns the merge of what it was given. -/
def MergeReturns (merges : List Bytes → Bytes → Prop) (c : Cfg) (m : Move Call Ret) : Prop :=
  ∀ version parts rest b, c.stack = .merge version parts :: rest → m = .back (.bytes b) →
    merges (parts.map Pending.update) b

/-- What this move hands to `send` is the merge of the queue at that moment, under the newest
queued number, and delivery is live. -/
def SendsQueue (merges : List Bytes → Bytes → Prop) (c : Cfg) (m : Move Call Ret) : Prop :=
  ∀ c' es, machine.step c m = some c' → c'.trace = c.trace ++ es →
    ∀ u id parts, .send u id parts ∈ es → CarriesQueue merges c'.state u id

abbrev TailCfg (merges : List Bytes → Bytes → Prop) (c : Cfg) : Prop :=
  c.Inv (TailInv merges) MergeFrame

lemma tailCfg_init : TailCfg merges init :=
  ⟨⟨⟨by simp [init], by simp [init]⟩, by simp [init]⟩, by simp [init]⟩

/-- One move is a stretch of code whose sends carry the queue. -/
lemma TailCfg.stretch {c c' : Cfg} {m : Move Call Ret} (h : TailCfg merges c)
    (hmerge : MergeReturns merges c m) (hm : machine.step c m = some c') :
    ∃ o stack, c' = c.resume stack o ∧ stack ⊆ c.stack ∧ Sends merges c.state c.trace o := by
  obtain ⟨o, stack, rfl, hst, ⟨x, rfl, rfl⟩ | ⟨f, rest, r, hf, rfl, ho⟩⟩ :=
    Machine.step_eq_some hm
  · exact ⟨_, stack, rfl, hst, sends_call h.state x⟩
  · refine ⟨o, stack, rfl, hst, sends_back h.state (h.frames f (by simp [hf])) ?_ ho⟩
    rintro version parts b rfl rfl
    exact hmerge version parts rest b hf rfl

lemma TailCfg.step {c c' : Cfg} {m : Move Call Ret} (h : TailCfg merges c)
    (hmerge : MergeReturns merges c m) (hm : machine.step c m = some c') : TailCfg merges c' := by
  obtain ⟨o, stack, rfl, hst, ho⟩ := h.stretch hmerge hm
  exact h.resume hst ho.keeps

lemma TailCfg.sendsQueue {c : Cfg} {m : Move Call Ret} (h : TailCfg merges c)
    (hmerge : MergeReturns merges c m) : SendsQueue merges c m := by
  intro c' es hm hes u id parts hmem
  obtain ⟨o, stack, rfl, -, ho⟩ := h.stretch hmerge hm
  have : es = o.events := (List.append_cancel_left hes).symm
  exact ho.sends u id parts (this ▸ hmem)

end Queue

/-! ## What leaves the queue -/

/-- An update that this move takes out of the queue is taken by an accepted acknowledgement of
its number or a later one, or by `destroy`. -/
def LeavesAcknowledged (c : Cfg) (m : Move Call Ret) : Prop :=
  ∀ c', machine.step c m = some c' → ∀ p ∈ c.state.pending, p ∉ c'.state.pending →
    m = .call .destroy ∨
      ∃ n : ℤ, m = .call (.acknowledge (.integer n)) ∧ ackAccepted c.state (.integer n) ∧
        p.seq ≤ n

@[simp] lemma transmit_pending (s : State) : (transmit s).state.pending = s.pending := by
  unfold transmit
  split <;> rfl

@[simp] lemma flush_pending (s : State) : (flush s).state.pending = s.pending := by
  unfold flush
  repeat' split
  all_goals simp

@[simp] lemma proceed_pending (s : State) (next : Next) :
    (proceed s next).state.pending = s.pending := by
  cases next <;> simp [proceed]

@[simp] lemma stopTimer_pending (s : State) (timer : ℕ) (next : Next) :
    (stopTimer s timer next).state.pending = s.pending := by
  unfold stopTimer
  split <;> simp

@[simp] lemma updateTimer_pending (s : State) (next : Next) :
    (updateTimer s next).state.pending = s.pending := by
  simp only [updateTimer]
  repeat' split
  all_goals simp

@[simp] lemma queueChanged_pending (s : State) (next : Next) :
    (queueChanged s next).state.pending = s.pending := by
  simp [queueChanged]

@[simp] lemma transmit_phase (s : State) : (transmit s).state.phase = s.phase := by
  unfold transmit
  split <;> rfl

@[simp] lemma flush_phase (s : State) : (flush s).state.phase = s.phase := by
  unfold flush
  repeat' split
  all_goals simp

@[simp] lemma proceed_phase (s : State) (next : Next) :
    (proceed s next).state.phase = s.phase := by
  cases next <;> simp [proceed]

@[simp] lemma stopTimer_phase (s : State) (timer : ℕ) (next : Next) :
    (stopTimer s timer next).state.phase = s.phase := by
  unfold stopTimer
  split <;> simp

@[simp] lemma updateTimer_phase (s : State) (next : Next) :
    (updateTimer s next).state.phase = s.phase := by
  simp only [updateTimer]
  repeat' split
  all_goals simp

@[simp] lemma queueChanged_phase (s : State) (next : Next) :
    (queueChanged s next).state.phase = s.phase := by
  simp [queueChanged]

/-- Nothing that follows an injected call touches the queue or changes the phase. -/
lemma back_keeps {s : State} {f : Frame} {r : Ret} {o : Out} (h : back s f r = some o) :
    o.state.pending = s.pending ∧ o.state.phase = s.phase := by
  cases f with
  | merge version parts =>
      cases r <;> simp only [back, Option.some.injEq, reduceCtorEq] at h
      · split at h <;> obtain rfl := Option.some.inj h <;> simp
      · exact h ▸ ⟨rfl, rfl⟩
  | setInterval timer next =>
      cases r <;> simp only [back, Option.some.injEq, reduceCtorEq] at h
      · subst h
        dsimp only
        split <;> simp
      · subst h
        dsimp only
        split <;> exact ⟨rfl, rfl⟩
  | _ => cases r <;> simp only [back, Option.some.injEq, reduceCtorEq] at h <;> subst h <;> simp

lemma leavesAcknowledged (c : Cfg) (m : Move Call Ret) : LeavesAcknowledged c m := by
  intro c' hm p hp hgone
  obtain ⟨o, stack, rfl, -, ⟨x, rfl, rfl⟩ | ⟨f, rest, r, -, rfl, ho⟩⟩ := Machine.step_eq_some hm
  · change p ∉ (call c.state x).state.pending at hgone
    cases x with
    | enqueue update =>
        simp only [call, enqueue] at hgone
        split at hgone <;> simp [hp] at hgone
    | acknowledge id =>
        obtain ⟨n, rfl, hacc, hle⟩ := le_of_acknowledge_removes hp hgone
        exact .inr ⟨n, rfl, hacc, hle⟩
    | resume =>
        simp only [call, resume] at hgone
        split at hgone <;> simp [hp] at hgone
    | pause =>
        simp only [call, pause] at hgone
        split at hgone <;> simp [hp] at hgone
    | retransmit => simp [call, retransmit, hp] at hgone
    | destroy => exact .inl rfl
    | tick timer =>
        simp only [call, tick] at hgone
        split at hgone <;> simp [hp] at hgone
  · exact absurd (by simpa [Config.resume, (back_keeps ho).1] using hp) hgone

/-! ## Timer handles -/

/-- The handles `setInterval` has returned. -/
def created : List Event → List Handle
  | [] => []
  | .created _ h :: trace => h :: created trace
  | _ :: trace => created trace

/-- The handles passed to `clearInterval`. -/
def cleared : List Event → List Handle
  | [] => []
  | .clearInterval h :: trace => h :: cleared trace
  | _ :: trace => cleared trace

lemma created_append (xs ys : List Event) : created (xs ++ ys) = created xs ++ created ys := by
  induction xs with
  | nil => rfl
  | cons e xs ih => cases e <;> simp [created, ih]

lemma cleared_append (xs ys : List Event) : cleared (xs ++ ys) = cleared xs ++ cleared ys := by
  induction xs with
  | nil => rfl
  | cons e xs ih => cases e <;> simp [cleared, ih]

/-- Delivery is live and something is unacknowledged. -/
def State.Wanted (s : State) : Prop := s.phase = .live ∧ s.pending ≠ []

/-- The handle of the installed timer, once `setInterval` has returned it. -/
def State.liveHandle (s : State) : Option Handle := s.timer.bind s.stops

/-- The timers whose `setInterval` has not come back yet. -/
def awaiting (stack : List Frame) : List ℕ :=
  stack.filterMap fun
    | .setInterval timer _ => some timer
    | _ => none

/-- The accounts of the handles, with the timers that are being created: each of those has no
handle yet, an installed timer without a handle is one of them, and every handle that was
created is the live one, has been cleared, or is about to be. -/
structure Handles (s : State) (trace : List Event) (waiting : List ℕ) (owed : List Handle) :
    Prop where
  nodup : waiting.Nodup
  unset : ∀ t ∈ waiting, t < s.timers ∧ s.stops t = none
  fresh : ∀ t, s.timers ≤ t → s.stops t = none
  installed : ∀ t, s.timer = some t → t < s.timers ∧ (s.stops t = none → t ∈ waiting)
  accounts : (created trace).Perm (cleared trace ++ s.liveHandle.toList ++ owed)

/-- Between calls a timer is installed exactly when one is wanted. -/
structure TimerInv (s : State) (trace : List Event) (waiting : List ℕ) : Prop where
  handles : Handles s trace waiting []
  wanted : s.timer.isSome ↔ s.Wanted

/-- What a stretch of code leaves behind, over the timers being created below it. -/
abbrev TimerOut (o : Out) (trace : List Event) (stack : List Frame) : Prop :=
  TimerInv o.state (trace ++ o.events) (awaiting (o.control.push stack))

lemma Handles.congr {s s' : State} {trace trace' : List Event} {waiting : List ℕ}
    {owed : List Handle} (h : Handles s trace waiting owed) (ht : s'.timer = s.timer)
    (hs : s'.stops = s.stops) (hn : s'.timers = s.timers) (hc : created trace' = created trace)
    (hl : cleared trace' = cleared trace) : Handles s' trace' waiting owed := by
  refine ⟨h.nodup, ?_, ?_, ?_, ?_⟩
  · simpa only [hs, hn] using h.unset
  · simpa only [hs, hn] using h.fresh
  · simpa only [ht, hs, hn] using h.installed
  · simpa only [State.liveHandle, ht, hs, hc, hl] using h.accounts

/-- A stretch that touches no timer and creates none. -/
lemma TimerInv.quiet {s : State} {trace : List Event} {stack : List Frame}
    (h : TimerInv s trace (awaiting stack)) {o : Out} (ht : o.state.timer = s.timer)
    (hs : o.state.stops = s.stops) (hn : o.state.timers = s.timers)
    (hp : o.state.pending = s.pending) (hph : o.state.phase = s.phase)
    (hc : created o.events = []) (hl : cleared o.events = [])
    (ha : awaiting (o.control.push stack) = awaiting stack) : TimerOut o trace stack := by
  refine ⟨?_, ?_⟩
  · rw [ha]
    refine h.handles.congr ht hs hn ?_ ?_
    · rw [created_append, hc, List.append_nil]
    · rw [cleared_append, hl, List.append_nil]
  · simpa only [State.Wanted, ht, hp, hph] using h.wanted

lemma timers_transmit {s : State} {trace : List Event} {stack : List Frame}
    (h : TimerInv s trace (awaiting stack)) : TimerOut (transmit s) trace stack := by
  unfold transmit
  split <;> exact h.quiet rfl rfl rfl rfl rfl rfl rfl rfl

lemma timers_flush {s : State} {trace : List Event} {stack : List Frame}
    (h : TimerInv s trace (awaiting stack)) : TimerOut (flush s) trace stack := by
  unfold flush
  split
  · exact h.quiet rfl rfl rfl rfl rfl rfl rfl rfl
  · split
    · exact timers_transmit h
    · split
      · refine timers_transmit ⟨?_, h.wanted⟩
        exact h.handles.congr rfl rfl rfl rfl rfl
      · exact h.quiet rfl rfl rfl rfl rfl rfl rfl rfl

lemma timers_proceed {s : State} {trace : List Event} {stack : List Frame}
    (h : TimerInv s trace (awaiting stack)) (next : Next) :
    TimerOut (proceed s next) trace stack := by
  cases next with
  | flush => exact timers_flush h
  | done => exact h.quiet rfl rfl rfl rfl rfl rfl rfl rfl

/-- `timer.stop()` for a timer that is no longer installed clears the handle it holds. -/
lemma timers_stopTimer {s : State} {trace : List Event} {stack : List Frame} {timer : ℕ}
    (h : Handles s trace (awaiting stack) (s.stops timer).toList)
    (hwanted : s.timer.isSome ↔ s.Wanted) (next : Next) :
    TimerOut (stopTimer s timer next) trace stack := by
  have hacc := h.accounts
  unfold stopTimer
  split
  · rename_i hnone
    rw [hnone] at hacc
    exact timers_proceed ⟨⟨h.nodup, h.unset, h.fresh, h.installed, hacc⟩, hwanted⟩ next
  · rename_i hd hsome
    rw [hsome, List.append_assoc] at hacc
    refine ⟨⟨h.nodup, h.unset, h.fresh, h.installed, ?_⟩, hwanted⟩
    simp only [created_append, cleared_append, created, cleared, List.append_nil,
      List.append_assoc]
    exact hacc.trans (List.perm_append_comm.append_left _)

lemma timers_updateTimer {s : State} {trace : List Event} {stack : List Frame}
    (h : Handles s trace (awaiting stack) []) (next : Next) :
    TimerOut (updateTimer s next) trace stack := by
  simp only [updateTimer]
  split
  · rename_i timer htimer
    split
    · rename_i hw
      exact timers_proceed ⟨h, by simpa [htimer, State.Wanted] using hw⟩ next
    · rename_i hw
      have hout : Handles { s with timer := none } trace (awaiting stack)
          (s.stops timer).toList := by
        refine ⟨h.nodup, h.unset, h.fresh, fun t ht => absurd ht (by simp), ?_⟩
        simpa [State.liveHandle, htimer] using h.accounts
      exact timers_stopTimer hout (by simpa [State.Wanted] using hw) next
  · rename_i htimer
    split
    · rename_i hw
      -- the new timer is waited for, and no handle carries its number yet
      have hnew : s.stops s.timers = none := h.fresh _ le_rfl
      refine ⟨⟨?_, ?_, ?_, ?_, ?_⟩, by simpa [State.Wanted] using hw⟩
      · refine List.nodup_cons.2 ⟨fun hmem => ?_, h.nodup⟩
        exact absurd (h.unset _ hmem).1 (lt_irrefl _)
      · rintro t ht
        rcases List.mem_cons.1 ht with rfl | ht
        · exact ⟨Nat.lt_succ_self _, hnew⟩
        · exact ⟨Nat.lt_succ_of_lt (h.unset t ht).1, (h.unset t ht).2⟩
      · intro t ht
        exact h.fresh t (Nat.le_of_succ_le ht)
      · rintro t ht
        obtain rfl := Option.some.inj ht
        exact ⟨Nat.lt_succ_self _, fun _ => List.mem_cons_self⟩
      · simpa [created_append, cleared_append, created, cleared, State.liveHandle, htimer, hnew]
          using h.accounts
    · rename_i hw
      exact timers_proceed ⟨h, by simpa [htimer, State.Wanted] using hw⟩ next

lemma timers_call {s : State} {trace : List Event} {stack : List Frame}
    (h : TimerInv s trace (awaiting stack)) (c : Call) : TimerOut (call s c) trace stack := by
  have stay : TimerOut { state := s } trace stack := h.quiet rfl rfl rfl rfl rfl rfl rfl rfl
  cases c with
  | enqueue update =>
      simp only [call, enqueue]
      split
      · exact stay
      · refine timers_updateTimer ?_ .flush
        exact h.handles.congr rfl rfl rfl rfl rfl
  | acknowledge id =>
      cases id with
      | other => exact stay
      | integer n =>
          simp only [call, acknowledge]
          split
          · refine timers_updateTimer ?_ .done
            exact h.handles.congr rfl rfl rfl rfl rfl
          · exact stay
  | resume =>
      simp only [call, resume]
      split
      · exact stay
      · refine timers_updateTimer ?_ .flush
        exact h.handles.congr rfl rfl rfl rfl rfl
  | pause =>
      simp only [call, pause]
      split
      · exact stay
      · refine timers_updateTimer ?_ .done
        exact h.handles.congr rfl rfl rfl rfl rfl
  | retransmit => exact timers_flush h
  | destroy =>
      simp only [call, destroy]
      split
      · exact stay
      · refine timers_updateTimer ?_ .done
        exact h.handles.congr rfl rfl rfl rfl rfl
  | tick timer =>
      simp only [call, tick]
      split
      · exact timers_flush h
      · exact stay

/-- `setInterval` comes back with the handle of a timer: the timer is installed still, or it was
stopped in the meantime and its handle is cleared at once. -/
lemma timers_created {s : State} {trace : List Event} {stack : List Frame} {timer : ℕ}
    (h : TimerInv s trace (timer :: awaiting stack)) (hd : Handle) (next : Next) {o : Out}
    (ho : back s (.setInterval timer next) (.handle hd) = some o) : TimerOut o trace stack := by
  obtain ⟨hnotin, hnodup⟩ := List.nodup_cons.1 h.handles.nodup
  obtain ⟨hlt, hnone⟩ := h.handles.unset timer List.mem_cons_self
  set stops := Function.update s.stops timer (some hd) with hstops
  have hself : stops timer = some hd := Function.update_self ..
  have hother : ∀ t, t ≠ timer → stops t = s.stops t := fun t ht => Function.update_of_ne ht ..
  have hwait : ∀ t ∈ awaiting stack, t < s.timers ∧ stops t = none := by
    intro t ht
    rw [hother t fun heq => hnotin (heq ▸ ht)]
    exact h.handles.unset t (List.mem_cons_of_mem _ ht)
  have hfresh : ∀ t, s.timers ≤ t → stops t = none := by
    intro t ht
    rw [hother t (by omega)]
    exact h.handles.fresh t ht
  have hinst : ∀ t, s.timer = some t → t < s.timers ∧ (stops t = none → t ∈ awaiting stack) := by
    intro t ht
    refine ⟨(h.handles.installed t ht).1, fun hn => ?_⟩
    have hne : t ≠ timer := fun heq => by simp [heq, hself] at hn
    have hmem := (h.handles.installed t ht).2 (hother t hne ▸ hn)
    exact (List.mem_cons.1 hmem).resolve_left hne
  obtain rfl := Option.some.inj ho
  suffices hs : TimerOut (if s.timer ≠ some timer then stopTimer { s with stops } timer next
      else proceed { s with stops } next) (trace ++ [.created timer hd]) stack by
    simpa [TimerOut] using hs
  split
  · rename_i hgone
    have hlive : State.liveHandle { s with stops } = s.liveHandle := by
      cases ht : s.timer with
      | none => simp [State.liveHandle, ht]
      | some t => simp [State.liveHandle, ht, hother t fun heq => hgone (heq ▸ ht)]
    have hout : Handles { s with stops } (trace ++ [.created timer hd]) (awaiting stack)
        (stops timer).toList := by
      refine ⟨hnodup, hwait, hfresh, hinst, ?_⟩
      simpa [created_append, cleared_append, created, cleared, hself, hlive]
        using h.handles.accounts.append_right [hd]
    exact timers_stopTimer hout h.wanted next
  · rename_i hstill
    have htimer : s.timer = some timer := not_not.1 hstill
    have hout : Handles { s with stops } (trace ++ [.created timer hd]) (awaiting stack) [] := by
      refine ⟨hnodup, hwait, hfresh, hinst, ?_⟩
      simpa [created_append, cleared_append, created, cleared, hself, State.liveHandle, htimer,
        hnone] using h.handles.accounts.append_right [hd]
    exact timers_proceed ⟨hout, h.wanted⟩ next

/-- An injected call that comes back, other than a `setInterval` or `clearInterval` that
throws. -/
lemma timers_back {s : State} {trace : List Event} {stack : List Frame} {f : Frame} {r : Ret}
    {o : Out} (h : TimerInv s trace (awaiting (f :: stack)))
    (hset : ∀ timer next, f = .setInterval timer next → r ≠ .threw)
    (ho : back s f r = some o) : TimerOut o trace stack := by
  cases f with
  | send =>
      have h : TimerInv s trace (awaiting stack) := h
      cases r <;> simp only [back, Option.some.injEq, reduceCtorEq] at ho <;> subst ho <;>
        exact h.quiet rfl rfl rfl rfl rfl rfl rfl rfl
  | merge version parts =>
      have h : TimerInv s trace (awaiting stack) := h
      cases r with
      | bytes b =>
          simp only [back] at ho
          split at ho
          · obtain rfl := Option.some.inj ho
            exact h.quiet rfl rfl rfl rfl rfl rfl rfl rfl
          · obtain rfl := Option.some.inj ho
            exact timers_transmit ⟨h.handles.congr rfl rfl rfl rfl rfl, h.wanted⟩
      | threw =>
          obtain rfl := Option.some.inj ho
          exact h.quiet rfl rfl rfl rfl rfl rfl rfl rfl
      | _ => simp [back] at ho
  | setInterval timer next =>
      cases r with
      | threw => exact absurd rfl (hset timer next rfl)
      | handle hd => exact timers_created h hd next ho
      | _ => simp [back] at ho
  | clearInterval next =>
      have h : TimerInv s trace (awaiting stack) := h
      cases r with
      | unit =>
          obtain rfl := Option.some.inj ho
          exact timers_proceed h next
      | threw =>
          obtain rfl := Option.some.inj ho
          exact h.quiet rfl rfl rfl rfl rfl rfl rfl rfl
      | _ => simp [back] at ho

/-- No `setInterval` or `clearInterval` comes back with an exception in this move. -/
def TimersReturn (c : Cfg) (m : Move Call Ret) : Prop :=
  ∀ f rest, c.stack = f :: rest → m = .back .threw →
    (∀ timer next, f ≠ .setInterval timer next) ∧ ∀ next, f ≠ .clearInterval next

/-- With no call in progress: while delivery is live with a non-empty queue there is one timer,
whose handle is the only one that was created and not cleared; otherwise there is none, and
every handle that was created has been cleared. -/
def TimerAccounts (c : Cfg) : Prop :=
  (c.state.Wanted → ∃ timer h, c.state.timer = some timer ∧ c.state.stops timer = some h ∧
    (created c.trace).Perm (h :: cleared c.trace)) ∧
  (¬c.state.Wanted → c.state.timer = none ∧ (created c.trace).Perm (cleared c.trace))

lemma timerInv_init : TimerInv init.state init.trace (awaiting init.stack) :=
  ⟨⟨by simp [init, awaiting], by simp [init, awaiting], by simp [init], by simp [init],
    by simp [init, created, cleared, State.liveHandle]⟩, by simp [init, State.Wanted]⟩

lemma timerInv_step {c c' : Cfg} {m : Move Call Ret}
    (h : TimerInv c.state c.trace (awaiting c.stack)) (hret : TimersReturn c m)
    (hm : machine.step c m = some c') : TimerInv c'.state c'.trace (awaiting c'.stack) := by
  cases m with
  | call x =>
      obtain rfl := Option.some.inj hm
      exact timers_call h x
  | back r =>
      obtain ⟨f, rest, o, hst, ho, rfl⟩ := Machine.step_back_eq_some.1 hm
      refine timers_back (hst ▸ h) (fun timer next hf hr => ?_) ho
      exact (hret f rest hst (hr ▸ rfl)).1 timer next hf

lemma timerAccounts {c : Cfg} (h : TimerInv c.state c.trace (awaiting c.stack))
    (hrest : c.stack = []) : TimerAccounts c := by
  have hacc := h.handles.accounts
  rw [List.append_nil] at hacc
  refine ⟨fun hw => ?_, fun hw => ?_⟩
  · obtain ⟨timer, ht⟩ := Option.isSome_iff_exists.1 (h.wanted.2 hw)
    -- nobody waits for its handle any more, so it has one
    have hset : c.state.stops timer ≠ none := fun hn => by
      simpa [hrest, awaiting] using (h.handles.installed timer ht).2 hn
    obtain ⟨hd, hs⟩ := Option.ne_none_iff_exists'.1 hset
    refine ⟨timer, hd, ht, hs, ?_⟩
    have hlive : c.state.liveHandle = some hd := by simp [State.liveHandle, ht, hs]
    rw [hlive] at hacc
    exact hacc.trans List.perm_append_comm
  · have ht : c.state.timer = none := by
      simpa using (not_congr h.wanted).2 hw
    have hlive : c.state.liveHandle = none := by simp [State.liveHandle, ht]
    rw [hlive] at hacc
    exact ⟨ht, by simpa using hacc⟩

/-! ## Every schedule -/

/-- **The delivery queue under full re-entrancy.**  Whatever public methods the injected
functions call, at any nesting, and whatever ids are acknowledged: every send carries the merge
of exactly the queue at that moment under its newest number, and only while delivery is live;
updates leave the queue only by an acknowledgement of their number or a later one, and by
`destroy`; queued numbers are consecutive; and if no timer function throws, then with no call in
progress one timer handle is live when delivery is live with work queued, none otherwise, and all
others have been cleared. -/
theorem retransmission_invariants (merges : List Bytes → Bytes → Prop)
    (moves : List (Move Call Ret)) (hmerge : Along machine.step (MergeReturns merges) init moves) :
    Along machine.step (fun c m => SendsQueue merges c m ∧ LeavesAcknowledged c m) init moves ∧
      ∀ c, run machine.step init moves = some c →
        Consecutive c.state ∧
          (Along machine.step TimersReturn init moves → c.stack = [] → TimerAccounts c) := by
  refine ⟨?_, fun c hc => ⟨?_, fun hret hrest => timerAccounts ?_ hrest⟩⟩
  · exact hmerge.imp (I := TailCfg merges)
      (fun c m h hok => ⟨h.sendsQueue hok, leavesAcknowledged c m⟩)
      (fun c m c' h hok hm => h.step hok hm) tailCfg_init
  · have h : TailCfg merges c :=
      run_invariant_along (fun c m c' h hok hm => TailCfg.step h hok hm) tailCfg_init hmerge hc
    exact h.state.consecutive
  · exact run_invariant_along (P := fun c : Cfg => TimerInv c.state c.trace (awaiting c.stack))
      (fun c m c' h hok hm => timerInv_step h hok hm) timerInv_init hret hc

/-- Two edits while live: the second `send` waits for the merge of both. -/
theorem retransmission_invariants_twoEdits :
    let merges := fun (parts : List Bytes) u => u = parts.flatten
    let moves : List (Move Call Ret) := [.call .resume, .call (.enqueue [1]), .back (.handle 7),
      .back .unit, .call (.enqueue [2]), .back (.bytes [1, 2]), .back .unit]
    Along machine.step (fun c m => SendsQueue merges c m ∧ LeavesAcknowledged c m) init moves ∧
      ∀ c, run machine.step init moves = some c →
        Consecutive c.state ∧
          (Along machine.step TimersReturn init moves → c.stack = [] → TimerAccounts c) := by
  refine retransmission_invariants _ _ ?_
  refine ⟨nofun, fun c hc => ?_⟩
  obtain rfl := Option.some.inj hc
  refine ⟨nofun, fun c hc => ?_⟩
  obtain rfl := Option.some.inj hc
  refine ⟨nofun, fun c hc => ?_⟩
  obtain rfl := Option.some.inj hc
  refine ⟨nofun, fun c hc => ?_⟩
  obtain rfl := Option.some.inj hc
  refine ⟨nofun, fun c hc => ?_⟩
  obtain rfl := Option.some.inj hc
  refine ⟨?_, fun c hc => ?_⟩
  · rintro version parts rest b hst hb
    have hst : [Frame.merge 3 [⟨1, [1]⟩, ⟨2, [2]⟩]] = .merge version parts :: rest := hst
    cases hst
    cases hb
    rfl
  · obtain rfl := Option.some.inj hc
    exact ⟨nofun, fun _ _ => trivial⟩

end ReliableSync

end Yrby
