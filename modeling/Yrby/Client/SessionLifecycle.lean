import Mathlib.Data.List.Induction
import Yrby.Client.DocumentSession

/-!
# The lifecycle of one document session

The notes of a session are its history.  `Local` relates the state of a session to its notes:
what the next transition may be is known from what happened.  Every method of a session keeps it
(`Sound`), whatever the store does in between.
-/

namespace Yrby

namespace DocumentSession

/-! ## Notes -/

/-- The notes of one session. -/
def notesOf (id : ℕ) (trace : List Event) : List Note :=
  trace.filterMap fun e =>
    match e with
    | .session i note => if i = id then some note else none
    | .acquired _ _ _ => none

/-- The refresh URL was fetched since the last accepted connection or retry. -/
def fetchedSince (notes : List Note) : Bool :=
  notes.foldl
    (fun fetched note =>
      match note with
      | .fetch _ => true
      | .accepted | .retried => false
      | _ => fetched) false

/-- The leases that were held when the session blocked, while it is blocked, and whether a settle
has run since. -/
def blocking (notes : List Note) : Option (List LeaseId × Bool) :=
  notes.foldl
    (fun held note =>
      match note with
      | .blocked leases => some (leases, false)
      | .retried | .closed => none
      | .settles _ _ => held.map fun h => (h.1, true)
      | _ => held) none

/-- What the next settle is to release. -/
def due : Option (List LeaseId × Bool) → List LeaseId
  | some (held, false) => held
  | _ => []

/-- A retry, a block or a close. -/
def Note.interrupts : Note → Bool
  | .retried | .blocked _ | .closed => true
  | _ => false

lemma fetchedSince_snoc (notes : List Note) (note : Note) :
    fetchedSince (notes ++ [note]) =
      match note with
      | .fetch _ => true
      | .accepted | .retried => false
      | _ => fetchedSince notes := by
  simp [fetchedSince]

lemma blocking_snoc (notes : List Note) (note : Note) :
    blocking (notes ++ [note]) =
      match note with
      | .blocked leases => some (leases, false)
      | .retried | .closed => none
      | .settles _ _ => (blocking notes).map fun h => (h.1, true)
      | _ => blocking notes := by
  simp [blocking]

/-- An attempt after which the session was retried, blocked or closed is over. -/
structure Attempts (lifecycle : ℕ) (notes : List Note) : Prop where
  made : ∀ a, .fetch a ∈ notes → a ≤ lifecycle
  surpassed : ∀ pre a post, notes = pre ++ .fetch a :: post → (∃ n ∈ post, n.interrupts = true) →
    a < lifecycle

/-- What the notes of a session always say. -/
structure History (notes : List Note) : Prop where
  /-- Between two fetches there is an accepted connection or a retry. -/
  apart : ∀ pre a mid b post, notes = pre ++ .fetch a :: mid ++ .fetch b :: post →
    .accepted ∈ mid ∨ .retried ∈ mid
  /-- A settle releases the leases held when the session blocked, if the session is still blocked
  and this is the first settle since then. -/
  settles : ∀ pre phase releases post, notes = pre ++ .settles phase releases :: post →
    (phase = .blocked ↔ (blocking pre).isSome) ∧ releases = due (blocking pre)

/-- The last element of a list that is split. -/
lemma split_snoc {α : Type} {xs pre post : List α} {x y : α} (h : xs ++ [x] = pre ++ y :: post) :
    (post = [] ∧ x = y ∧ xs = pre) ∨ ∃ front, post = front ++ [x] ∧ xs = pre ++ y :: front := by
  rcases List.eq_nil_or_concat post with rfl | ⟨front, last, rfl⟩
  · have parts := List.append_inj' h rfl
    simp only [List.cons.injEq, and_true] at parts
    exact .inl ⟨rfl, parts.2, parts.1⟩
  · rw [List.concat_eq_append, ← List.cons_append, ← List.append_assoc] at h
    have parts := List.append_inj' h rfl
    simp only [List.cons.injEq, and_true] at parts
    exact .inr ⟨front, by rw [List.concat_eq_append, parts.2], parts.1⟩

lemma Attempts.nil (lifecycle : ℕ) : Attempts lifecycle [] :=
  ⟨by simp, fun pre a post split => by simp at split⟩

lemma Attempts.snoc {lifecycle lifecycle' : ℕ} {notes : List Note} (h : Attempts lifecycle notes)
    {note : Note} (hle : lifecycle ≤ lifecycle') (hfetch : ∀ a, note = .fetch a → a ≤ lifecycle')
    (hover : note.interrupts = true → lifecycle < lifecycle') :
    Attempts lifecycle' (notes ++ [note]) := by
  constructor
  · intro a ha
    rcases List.mem_append.mp ha with old | new
    · exact Nat.le_trans (h.made a old) hle
    · exact hfetch a (List.mem_singleton.mp new).symm
  · rintro pre a post split ⟨n, hn, interrupts⟩
    rcases split_snoc split with ⟨rfl, -, -⟩ | ⟨front, rfl, old⟩
    · simp at hn
    · rcases List.mem_append.mp hn with earlier | last
      · exact Nat.lt_of_lt_of_le (h.surpassed pre a front old ⟨n, earlier, interrupts⟩) hle
      · rw [List.mem_singleton.mp last] at interrupts
        have made := h.made a (by simp [old])
        exact Nat.lt_of_le_of_lt made (hover interrupts)

lemma Attempts.mono {lifecycle lifecycle' : ℕ} {notes : List Note} (h : Attempts lifecycle notes)
    (hle : lifecycle ≤ lifecycle') : Attempts lifecycle' notes :=
  ⟨fun a ha => Nat.le_trans (h.made a ha) hle, fun pre a post split past =>
    Nat.lt_of_lt_of_le (h.surpassed pre a post split past) hle⟩

/-- Without a fetch since an accepted connection or a retry, there is one of these after every
fetch. -/
lemma fetchedSince_eq_false {pre post : List Note} {a : ℕ}
    (h : fetchedSince (pre ++ .fetch a :: post) = false) : .accepted ∈ post ∨ .retried ∈ post := by
  induction post using List.reverseRecOn with
  | nil => simp [fetchedSince_snoc] at h
  | append_singleton post n ih =>
    rw [← List.cons_append, ← List.append_assoc, fetchedSince_snoc] at h
    cases n
    case accepted => simp
    case retried => simp
    case fetch b => simp at h
    all_goals
      rcases ih h with accepted | retried
      · simp [accepted]
      · simp [retried]

lemma History.nil : History [] := by
  refine ⟨?_, ?_⟩
  · intro pre a mid b post split
    simp at split
  · intro pre phase releases post split
    simp at split

lemma History.snoc {notes : List Note} (h : History notes) {note : Note}
    (hfetch : ∀ a, note = .fetch a → fetchedSince notes = false)
    (hsettles : ∀ phase releases, note = .settles phase releases →
      (phase = .blocked ↔ (blocking notes).isSome) ∧ releases = due (blocking notes)) :
    History (notes ++ [note]) := by
  refine ⟨?_, ?_⟩
  · intro pre a mid b post split
    rcases split_snoc split with ⟨-, new, old⟩ | ⟨front, -, old⟩
    · have none := hfetch b new
      rw [old] at none
      exact fetchedSince_eq_false none
    · exact h.apart pre a mid b front old
  · intro pre phase releases post split
    rcases split_snoc split with ⟨-, new, old⟩ | ⟨front, -, old⟩
    · rw [← old]
      exact hsettles phase releases new
    · exact h.settles pre phase releases front old

lemma History.init {notes later : List Note} (h : History (notes ++ later)) : History notes := by
  refine ⟨?_, ?_⟩
  · intro pre a mid b post split
    exact h.apart pre a mid b (post ++ later) (by simp [split])
  · intro pre phase releases post split
    exact h.settles pre phase releases (post ++ later) (by simp [split])

/-- Once a settle has run, the leases held when the session blocked were released by one. -/
lemma History.released {notes : List Note} (h : History notes) {held : List LeaseId}
    (hb : blocking notes = some (held, true)) : ∃ phase, .settles phase held ∈ notes := by
  induction notes using List.reverseRecOn with
  | nil => simp [blocking] at hb
  | append_singleton notes n ih =>
    have earlier (hb : blocking notes = some (held, true)) :
        ∃ phase, .settles phase held ∈ notes ++ [n] := by
      obtain ⟨phase, hmem⟩ := ih h.init hb
      exact ⟨phase, List.mem_append_left _ hmem⟩
    rw [blocking_snoc] at hb
    cases n
    case settles phase releases =>
      obtain ⟨⟨held', ran⟩, hb', rfl⟩ : ∃ b, blocking notes = some b ∧ b.1 = held := by
        simpa using hb
      cases ran
      case true => exact earlier hb'
      case false =>
        have taken := (h.settles notes phase releases [] rfl).2
        rw [hb'] at taken
        exact ⟨phase, by simp [taken, due]⟩
    case blocked => simp at hb
    case retried => simp at hb
    case closed => simp at hb
    all_goals exact earlier hb

/-! ## The state of a session and its notes -/

/-- How the state of a session follows from its notes, also in the middle of a method. -/
structure Loose (s : Session) (notes : List Note) : Prop where
  refreshing : s.phase = .refreshing →
    s.provider.transport ≠ .connecting ∧ s.provider.transport ≠ .connected
  renewed : s.phase = .renewed → s.provider.transport ≠ .connected
  fetched : fetchedSince notes = true → s.phase ≠ .open
  blocked : s.phase = .blocked ↔ (blocking notes).isSome
  retiring : s.retiring.getD [] = due (blocking notes)
  attempts : Attempts s.lifecycle notes
  history : History notes

/-- What holds of a session between its methods: also, it is needed unless a settle is queued, and
its provider has told the last status. -/
structure Local (s : Session) (notes : List Note) : Prop extends Loose s notes where
  needed : s.state = .open → s.settleQueued = false → s.needed = true
  last : s.provider.last = (s.provider.status, s.provider.hasPending)

/-- What holds of a session once its provider has told the last status. -/
structure Told (s : Session) (notes : List Note) : Prop extends Loose s notes where
  last : s.provider.last = (s.provider.status, s.provider.hasPending)

lemma Local.told {s : Session} {notes : List Note} (h : Local s notes) : Told s notes :=
  ⟨h.toLoose, h.last⟩

lemma Loose.of_same {s s' : Session} {notes : List Note} (h : Loose s notes)
    (phase : s'.phase = s.phase) (transport : s'.provider.transport = s.provider.transport)
    (retiring : s'.retiring = s.retiring) (lifecycle : s'.lifecycle = s.lifecycle) :
    Loose s' notes := by
  refine ⟨?_, ?_, ?_, ?_, ?_, ?_, h.history⟩
  · rw [phase, transport]
    exact h.refreshing
  · rw [phase, transport]
    exact h.renewed
  · rw [phase]
    exact h.fetched
  · rw [phase]
    exact h.blocked
  · rw [retiring]
    exact h.retiring
  · rw [lifecycle]
    exact h.attempts

lemma Loose.changed {s : Session} {notes : List Note} (h : Loose s notes) :
    Loose s.changed notes :=
  h.of_same rfl rfl rfl rfl

/-- A change queues a settle, so nothing is asked of the session until then. -/
lemma Local.of_changed {s : Session} {notes : List Note} (h : Loose s notes)
    (last : s.provider.last = (s.provider.status, s.provider.hasPending)) :
    Local s.changed notes :=
  ⟨h.changed, fun _ queued => by simp [Session.changed] at queued, last⟩

/-! ## Transitions -/

section Transitions

variable {p q : Phase}

lemma Phase.on_refresh : p.on .refresh = some q ↔ p = .open ∧ q = .refreshing := by
  cases p <;> simp [Phase.on, eq_comm]

lemma Phase.on_renew : p.on .renew = some q ↔ p = .refreshing ∧ q = .renewed := by
  cases p <;> simp [Phase.on, eq_comm]

lemma Phase.on_accept : p.on .accept = some q ↔ p = .renewed ∧ q = .open := by
  cases p <;> simp [Phase.on, eq_comm]

lemma Phase.on_block : p.on .block = some q ↔ p.state = .open ∧ q = .blocked := by
  cases p <;> simp [Phase.on, Phase.state, eq_comm]

lemma Phase.on_retry : p.on .retry = some q ↔ p = .blocked ∧ q = .open := by
  cases p <;> simp [Phase.on, eq_comm]

lemma Phase.on_close : p.on .close = some q ↔ p ≠ .closed ∧ q = .closed := by
  cases p <;> simp [Phase.on, eq_comm]

end Transitions

/-- A session after a transition to a phase, but for its provider. -/
structure Moved (s s' : Session) (phase : Phase) : Prop where
  entered : s'.phase = phase
  lifecycle : s'.lifecycle = s.lifecycle + 1
  retiring : s'.retiring = if phase = .blocked then some s.leases else none
  descriptor : s'.descriptor = s.descriptor
  leases : s'.leases = s.leases
  queued : s'.settleQueued = true

lemma Session.transition_eq_some {s s' : Session} {event : PhaseEvent} {error : Option String}
    (h : s.transition event error = some s') :
    ∃ phase, s.phase.on event = some phase ∧ Moved s s' phase ∧ s'.provider = s.provider := by
  obtain ⟨phase, hphase, rfl⟩ := Option.map_eq_some_iff.mp h
  exact ⟨phase, hphase, ⟨rfl, rfl, rfl, rfl, rfl, rfl⟩, rfl⟩

/-- What the store sees of a method of an unclosed session. -/
structure Near (s s' : Session) : Prop where
  closed : s'.phase = .closed ↔ s.phase = .closed
  descriptor : s'.descriptor = s.descriptor
  leases : s'.leases = s.leases
  retiring : ∀ l ∈ s'.retiring.getD [], l ∈ s.retiring.getD [] ∨ l ∈ s.leases

section Moves

variable {s s' s'' : Session} {notes : List Note} {phase : Phase}

lemma Near.refl (s : Session) : Near s s := ⟨Iff.rfl, rfl, rfl, fun _ hl => .inl hl⟩

lemma Near.trans (h : Near s s') (h' : Near s' s'') : Near s s'' := by
  refine ⟨h'.closed.trans h.closed, h'.descriptor.trans h.descriptor, h'.leases.trans h.leases, ?_⟩
  intro l hl
  rcases h'.retiring l hl with retired | held
  · exact h.retiring l retired
  · exact .inr (h.leases ▸ held)

lemma Moved.near (h : Moved s s' phase) (hs : s.phase ≠ .closed) (hphase : phase ≠ .closed) :
    Near s s' := by
  refine ⟨by simp [h.entered, hs, hphase], h.descriptor, h.leases, ?_⟩
  intro l hl
  rw [h.retiring] at hl
  by_cases hb : phase = .blocked
  · rw [if_pos hb] at hl
    exact .inr hl
  · simp [if_neg hb] at hl

/-- A transition other than to `refreshing` and `renewed`, with its note. -/
lemma Loose.moved (h : Loose s notes) (hm : Moved s s' phase) {note : Note}
    (hphase : phase ≠ .refreshing ∧ phase ≠ .renewed)
    (hfetched : phase = .open → fetchedSince (notes ++ [note]) = false)
    (hblocking : blocking (notes ++ [note]) =
      if phase = .blocked then some (s.leases, false) else none)
    (hfetch : ∀ a, note ≠ .fetch a) (hsettles : ∀ p releases, note ≠ .settles p releases) :
    Loose s' (notes ++ [note]) := by
  refine ⟨?_, ?_, ?_, ?_, ?_, ?_, ?_⟩
  · simp [hm.entered, hphase.1]
  · simp [hm.entered, hphase.2]
  · intro fetched hopen
    rw [hm.entered] at hopen
    simp [hfetched hopen] at fetched
  · rw [hm.entered, hblocking]
    by_cases hb : phase = .blocked <;> simp [hb]
  · rw [hm.retiring, hblocking]
    by_cases hb : phase = .blocked <;> simp [hb, due]
  · rw [hm.lifecycle]
    exact h.attempts.snoc (Nat.le_succ _) (fun a ha => absurd ha (hfetch a))
      (fun _ => Nat.lt_succ_self _)
  · exact h.history.snoc (fun a ha => absurd ha (hfetch a))
      (fun p releases ha => absurd ha (hsettles p releases))

lemma Loose.unblocked (h : Loose s notes) (hs : s.phase ≠ .blocked) : blocking notes = none := by
  have none := mt h.blocked.mpr hs
  simpa using none

lemma Loose.renew (h : Loose s notes) (hs : s.phase = .refreshing) (hm : Moved s s' .renewed)
    (hp : s'.provider = s.provider) : Loose s' notes := by
  have unblocked := h.unblocked (by simp [hs])
  refine ⟨by simp [hm.entered], ?_, by simp [hm.entered], ?_, ?_, ?_, h.history⟩
  · intro _
    rw [hp]
    exact (h.refreshing hs).2
  · simp [hm.entered, unblocked]
  · simp [hm.retiring, unblocked, due]
  · rw [hm.lifecycle]
    exact h.attempts.mono (Nat.le_succ _)

lemma Loose.accept (h : Loose s notes) (hs : s.phase = .renewed) (hm : Moved s s' .open) :
    Loose s' (notes ++ [.accepted]) := by
  have unblocked := h.unblocked (by simp [hs])
  refine h.moved hm (by simp) ?_ ?_ (by simp) (by simp)
  · simp [fetchedSince_snoc]
  · simp [blocking_snoc, unblocked]

/-- The accepted connection of a session whose phase it does not change. -/
lemma Loose.accepted (h : Loose s notes) : Loose s (notes ++ [.accepted]) := by
  refine ⟨h.refreshing, h.renewed, by simp [fetchedSince_snoc], ?_, ?_, ?_, ?_⟩
  · simp [blocking_snoc, h.blocked]
  · simp [blocking_snoc, h.retiring]
  · exact h.attempts.snoc (Nat.le_refl _) (by simp) (by simp [Note.interrupts])
  · exact h.history.snoc (by simp) (by simp)

lemma Loose.refresh (h : Loose s notes) (hs : s.phase = .open) (hm : Moved s s' .refreshing)
    (hp : s'.provider = s.provider)
    (off : s.provider.transport ≠ .connecting ∧ s.provider.transport ≠ .connected) :
    Loose s' (notes ++ [.fetch s'.lifecycle]) := by
  have unblocked := h.unblocked (by simp [hs])
  have unfetched : fetchedSince notes = false := by
    have none := mt h.fetched (by simp [hs])
    simpa using none
  refine ⟨?_, by simp [hm.entered], by simp [hm.entered], ?_, ?_, ?_, ?_⟩
  · intro _
    rw [hp]
    exact off
  · simp [hm.entered, blocking_snoc, unblocked]
  · simp [hm.retiring, blocking_snoc, unblocked, due]
  · have le : s.lifecycle ≤ s'.lifecycle := by rw [hm.lifecycle]; exact Nat.le_succ _
    refine h.attempts.snoc le ?_ (by simp [Note.interrupts])
    intro a ha
    exact (Note.fetch.inj ha) ▸ Nat.le_refl _
  · exact h.history.snoc (fun _ _ => unfetched) (by simp)

lemma Loose.block (h : Loose s notes) (hm : Moved s s' .blocked) :
    Loose s' (notes ++ [.blocked s.leases]) :=
  h.moved hm (by simp) (by simp) (by simp [blocking_snoc]) (by simp) (by simp)

lemma Loose.retry (h : Loose s notes) (hm : Moved s s' .open) :
    Loose s' (notes ++ [.retried]) :=
  h.moved hm (by simp) (by simp [fetchedSince_snoc]) (by simp [blocking_snoc]) (by simp) (by simp)

lemma Loose.close (h : Loose s notes) (hm : Moved s s' .closed) :
    Loose s' (notes ++ [.closed]) :=
  h.moved hm (by simp) (by simp) (by simp [blocking_snoc]) (by simp) (by simp)

end Moves

/-! ## The provider of a session -/

/-- The session after its provider has told it something that changes no phase. -/
structure Quiet (s s' : Session) : Prop where
  phase : s'.phase = s.phase
  lifecycle : s'.lifecycle = s.lifecycle
  retiring : s'.retiring = s.retiring
  descriptor : s'.descriptor = s.descriptor
  leases : s'.leases = s.leases

section Provider

variable {s s' s'' : Session} {notes : List Note} {p : Provider}

lemma Quiet.refl (s : Session) : Quiet s s := ⟨rfl, rfl, rfl, rfl, rfl⟩

lemma Quiet.trans (h : Quiet s s') (h' : Quiet s' s'') : Quiet s s'' :=
  ⟨h'.phase.trans h.phase, h'.lifecycle.trans h.lifecycle, h'.retiring.trans h.retiring,
    h'.descriptor.trans h.descriptor, h'.leases.trans h.leases⟩

lemma Quiet.near (h : Quiet s s') : Near s s' :=
  ⟨by rw [h.phase], h.descriptor, h.leases, fun l hl => .inl (h.retiring ▸ hl)⟩

lemma status_connected :
    p.status = .connected ∨ p.status = .synced ↔ p.transport = .connected := by
  cases htransport : p.transport
  case connected => by_cases hs : p.synced <;> simp [Provider.status, htransport, hs]
  all_goals simp [Provider.status, htransport]

/-- A listener that does not see an accepted connection of a renewed session only queues a
settle. -/
lemma onStatus_eq (h : s.phase = .renewed → p.transport ≠ .connected) :
    s.onStatus p.status = if s.state = .open then s.changed else s := by
  by_cases hopen : s.state = .open
  · by_cases hconnected : p.status = .connected ∨ p.status = .synced
    · have stays : s.transition .accept none = none := by
        rw [Option.eq_none_iff_forall_ne_some]
        intro s' ht
        obtain ⟨phase, hphase, -⟩ := Session.transition_eq_some ht
        exact h (Phase.on_accept.mp hphase).1 (status_connected.mp hconnected)
      simp [Session.onStatus, hopen, hconnected, stays]
    · simp [Session.onStatus, hopen, hconnected]
  · simp [Session.onStatus, hopen]

/-- A notification that changes no phase. -/
lemma Loose.refreshStatus (h : Loose s notes)
    (hneeded : s.state = .open → s.settleQueued = false →
      s.provider.hasPending = s.provider.last.2 → s.needed = true) :
    Local s.refreshStatus notes ∧ Quiet s s.refreshStatus := by
  by_cases hlast : (s.provider.status, s.provider.hasPending) = s.provider.last
  · rw [Session.refreshStatus, if_pos hlast]
    have pending : s.provider.hasPending = s.provider.last.2 := by rw [← hlast]
    exact ⟨⟨h, fun hopen queued => hneeded hopen queued pending, hlast.symm⟩, Quiet.refl s⟩
  · let told : Session :=
      { s with provider.last := (s.provider.status, s.provider.hasPending) }
    have hlistener : told.onStatus s.provider.status =
        if s.state = .open then told.changed else told := onStatus_eq h.renewed
    rw [Session.refreshStatus, if_neg hlast, hlistener]
    by_cases hopen : s.state = .open
    · rw [if_pos hopen]
      exact ⟨Local.of_changed (h.of_same rfl rfl rfl rfl) rfl, ⟨rfl, rfl, rfl, rfl, rfl⟩⟩
    · rw [if_neg hopen]
      exact ⟨⟨h.of_same rfl rfl rfl rfl, fun ho => absurd ho hopen, rfl⟩,
        ⟨rfl, rfl, rfl, rfl, rfl⟩⟩

/-- The provider changes, without a connection that a renewed session waits for. -/
lemma Local.refreshed (h : Local s notes) (hlast : p.last = s.provider.last)
    (refreshing : s.phase = .refreshing → p.transport ≠ .connecting ∧ p.transport ≠ .connected)
    (renewed : s.phase = .renewed → p.transport ≠ .connected) :
    Local (s.refreshed p) notes ∧ Quiet s (s.refreshed p) := by
  have loose : Loose { s with provider := p } notes :=
    ⟨refreshing, renewed, h.fetched, h.blocked, h.retiring, h.attempts, h.history⟩
  have told := loose.refreshStatus (by
    intro hopen queued pending
    have same : p.hasPending = s.provider.hasPending := by
      rw [pending, hlast, h.last]
    have needed := h.needed hopen queued
    simpa [Session.needed, same] using needed)
  have start : Quiet s { s with provider := p } := ⟨rfl, rfl, rfl, rfl, rfl⟩
  exact ⟨told.1, start.trans told.2⟩

/-- A change of the provider that leaves the transport alone, or ends it. -/
lemma Local.refreshed_of_transport (h : Local s notes) (hlast : p.last = s.provider.last)
    (ht : p.transport = s.provider.transport ∨ p.transport = .disconnected ∨
      p.transport = .destroyed) :
    Local (s.refreshed p) notes ∧ Quiet s (s.refreshed p) := by
  rcases ht with same | off | off
  · refine h.refreshed hlast ?_ ?_
    · rw [same]
      exact h.refreshing
    · rw [same]
      exact h.renewed
  · exact h.refreshed hlast (by simp [off]) (by simp [off])
  · exact h.refreshed hlast (by simp [off]) (by simp [off])

lemma Local.providerConnect (h : Local s notes) (hs : s.phase ≠ .refreshing)
    (failure : Option String) :
    Local (s.providerConnect failure).1 notes ∧ Quiet s (s.providerConnect failure).1 := by
  unfold Session.providerConnect
  cases s.provider.transport
  case disconnected =>
    cases failure
    case none => exact h.refreshed rfl (fun hr => absurd hr hs) (by simp)
    case some error => exact h.refreshed_of_transport rfl (.inl rfl)
  all_goals exact ⟨h, Quiet.refl s⟩

lemma Local.providerDisconnect (h : Local s notes) :
    Local s.providerDisconnect notes ∧ Quiet s s.providerDisconnect := by
  unfold Session.providerDisconnect
  cases s.provider.transport
  case connecting => exact h.refreshed_of_transport rfl (.inr (.inl rfl))
  case connected => exact h.refreshed_of_transport rfl (.inr (.inl rfl))
  all_goals exact ⟨h, Quiet.refl s⟩

lemma Local.providerRenew (h : Local s notes) (hs : s.phase ≠ .refreshing) (grant : String)
    (failure : Option String) :
    Local (s.providerRenew grant failure).1 notes ∧
      Quiet s (s.providerRenew grant failure).1 := by
  by_cases hd : s.provider.transport = .destroyed
  · simp only [Session.providerRenew, if_pos hd]
    exact ⟨h, Quiet.refl s⟩
  · simp only [Session.providerRenew, if_neg hd]
    have granted : Local { s with provider.grant := grant } notes :=
      ⟨h.toLoose.of_same rfl rfl rfl rfl, h.needed, h.last⟩
    have start : Quiet s { s with provider.grant := grant } := ⟨rfl, rfl, rfl, rfl, rfl⟩
    have off := granted.providerDisconnect
    have phase : { s with provider.grant := grant }.providerDisconnect.phase ≠ .refreshing := by
      rw [off.2.phase]
      exact hs
    have on := off.1.providerConnect phase failure
    exact ⟨on.1, (start.trans off.2).trans on.2⟩

end Provider

/-! ## The methods of a session -/

/-- A method of a session leaves it in this relation to its notes. -/
structure Sound (I : Session → List Note → Prop) (s : Session) (notes : List Note)
    (o : Session.Noted) : Prop where
  keeps : I o.1 (notes ++ o.2)
  near : Near s o.1
  /-- No settle begins here. -/
  calm : ∀ phase releases, .settles phase releases ∉ o.2

section Methods

variable {I J : Session → List Note → Prop} {s s' : Session} {notes later : List Note}
  {o : Session.Noted}

lemma Sound.of_quiet (h : I s' notes) (hq : Quiet s s') : Sound I s notes (s', []) :=
  ⟨by simpa using h, hq.near, by simp⟩

lemma Sound.same (h : I s notes) : Sound I s notes (s, []) := Sound.of_quiet h (Quiet.refl s)

lemma Sound.trans (h : Sound I s notes (s', later)) (h' : Sound J s' (notes ++ later) o) :
    Sound J s notes (o.1, later ++ o.2) := by
  refine ⟨by simpa [List.append_assoc] using h'.keeps, h.near.trans h'.near, ?_⟩
  intro phase releases hmem
  rcases List.mem_append.mp hmem with first | second
  · exact h.calm phase releases first
  · exact h'.calm phase releases second

/-- After `block` a session is not open. -/
lemma Loose.sound_block (h : Loose s notes) (error : String) :
    Sound Loose s notes (s.block error) ∧ (s.block error).1.state ≠ .open := by
  unfold Session.block
  cases ht : s.transition .block (some error)
  case none =>
    refine ⟨Sound.same h, ?_⟩
    intro hopen
    simp [Session.transition, Phase.on_block.mpr ⟨hopen, rfl⟩] at ht
  case some s' =>
    obtain ⟨phase, hphase, hm, -⟩ := Session.transition_eq_some ht
    obtain ⟨hopen, rfl⟩ := Phase.on_block.mp hphase
    have unclosed : s.phase ≠ .closed := by
      intro hc
      simp [hc, Phase.state] at hopen
    refine ⟨⟨h.block hm, hm.near unclosed (by simp), by simp⟩, ?_⟩
    simp [Session.state, hm.entered, Phase.state]

lemma Local.sound_block (h : Local s notes) (error : String) :
    Sound Local s notes (s.block error) := by
  have blocked := h.toLoose.sound_block error
  refine ⟨⟨blocked.1.keeps, fun hopen => absurd hopen blocked.2, ?_⟩, blocked.1.near,
    blocked.1.calm⟩
  unfold Session.block
  cases ht : s.transition .block (some error)
  case none => exact h.last
  case some s' =>
    obtain ⟨phase, -, -, hp⟩ := Session.transition_eq_some ht
    simp only [hp]
    exact h.last

/-- A `connect` that blocks when it fails. -/
lemma Local.sound_connect (h : Local s notes) (hs : s.phase ≠ .refreshing) (grant : Option String)
    (failure : Option String) : Sound Local s notes (s.connect grant failure) := by
  have quiet : ∀ {s'}, Local s' notes → Quiet s s' → Sound Local s notes (s', []) :=
    fun hl hq => Sound.of_quiet hl hq
  have blocked : ∀ {s'} (error : String), Local s' notes → Quiet s s' →
      Sound Local s notes (s'.block error) := by
    intro s' error hl hq
    have block : Sound Local s' (notes ++ []) (s'.block error) := by
      simpa using hl.sound_block error
    simpa using (quiet hl hq).trans block
  cases grant
  case none =>
    obtain ⟨hl, hq⟩ := h.providerConnect hs failure
    simp only [Session.connect]
    generalize s.providerConnect failure = connection at hl hq ⊢
    rcases connection with ⟨s', _ | error⟩
    · exact quiet hl hq
    · exact blocked error hl hq
  case some grant =>
    obtain ⟨hl, hq⟩ := h.providerRenew hs grant failure
    simp only [Session.connect]
    generalize s.providerRenew grant failure = connection at hl hq ⊢
    rcases connection with ⟨s', _ | error⟩
    · exact quiet hl hq
    · exact blocked error hl hq

/-- The provider's rejection of a subscription: a fetch, or a block. -/
lemma Loose.sound_rejected (h : Loose s notes)
    (off : s.provider.transport ≠ .connecting ∧ s.provider.transport ≠ .connected)
    (error : String) :
    Sound Loose s notes (s.rejected error) ∧
      ((s.rejected error).1.state = .open → (s.rejected error).1.settleQueued = true) := by
  unfold Session.rejected
  cases ht : s.descriptor.refresh.bind fun _ => s.transition .refresh none
  case none =>
    have blocked := h.sound_block error
    exact ⟨blocked.1, fun hopen => absurd hopen blocked.2⟩
  case some s' =>
    obtain ⟨url, -, ht⟩ := Option.bind_eq_some_iff.mp ht
    obtain ⟨phase, hphase, hm, hp⟩ := Session.transition_eq_some ht
    obtain ⟨hopen, rfl⟩ := Phase.on_refresh.mp hphase
    have loose := h.refresh hopen hm hp off
    have near := hm.near (by simp [hopen]) (by simp)
    refine ⟨⟨loose.of_same rfl rfl rfl rfl, ⟨near.closed, near.descriptor, near.leases,
      near.retiring⟩, by simp⟩, fun _ => hm.queued⟩

/-- The server accepts the subscription. -/
lemma Local.sound_accepted (h : Local s notes) (hc : s.provider.transport = .connecting) :
    Sound Local s notes
      (s.refreshed { s.provider with transport := .connected, synced := false }, [.accepted]) := by
  by_cases hr : s.phase = .renewed
  · -- The status changes from `connecting`, and the listener accepts.
    let p : Provider := { s.provider with transport := .connected, synced := false }
    let told : Session := { s with provider := { p with last := (p.status, p.hasPending) } }
    have connecting : s.provider.last.1 = .connecting := by
      rw [h.last]
      simp [Provider.status, hc]
    have differs : (p.status, p.hasPending) ≠ p.last := by
      intro same
      have first : p.status = s.provider.last.1 := congrArg Prod.fst same
      rw [connecting] at first
      simp [p, Provider.status] at first
    obtain ⟨s', ht⟩ : ∃ s', told.transition .accept none = some s' := by
      simp [told, Session.transition, hr, Phase.on]
    obtain ⟨phase, hphase, hm, hp⟩ := Session.transition_eq_some ht
    obtain ⟨-, rfl⟩ := Phase.on_accept.mp hphase
    have listened : s.refreshed p = s'.changed := by
      have hlistener : told.onStatus p.status = s'.changed := by
        have hopen : told.state = .open := by simp [told, Session.state, hr, Phase.state]
        have hstatus : p.status = .connected ∨ p.status = .synced := status_connected.mpr rfl
        simp [Session.onStatus, hopen, hstatus, ht]
      simp only [Session.refreshed, Session.refreshStatus, if_neg differs]
      exact hlistener
    have moved : Moved s s' .open :=
      ⟨hm.entered, hm.lifecycle, hm.retiring, hm.descriptor, hm.leases, hm.queued⟩
    have near := moved.near (by simp [hr]) (by simp)
    refine ⟨?_, ?_, by simp⟩
    · change Local (s.refreshed p) (notes ++ [.accepted])
      rw [listened]
      have last : s'.provider.last = (s'.provider.status, s'.provider.hasPending) := by
        rw [hp]
        rfl
      exact Local.of_changed (h.toLoose.accept hr moved) last
    · change Near s (s.refreshed p)
      rw [listened]
      exact ⟨near.closed, near.descriptor, near.leases, near.retiring⟩
  · have unrefreshing : s.phase ≠ .refreshing := fun hp => (h.refreshing hp).1 hc
    have told := h.refreshed (p := { s.provider with transport := .connected, synced := false }) rfl
      (fun hp => absurd hp unrefreshing) (fun hp => absurd hp hr)
    exact ⟨⟨told.1.toLoose.accepted, told.1.needed, told.1.last⟩, told.2.near, by simp⟩

/-- The provider gives up a subscription that the server rejects. -/
lemma Local.sound_rejection (h : Local s notes) :
    Sound Local s notes (s.onCable .rejected) := by
  let stopped : Session :=
    { s with provider := { s.provider with transport := .disconnected, synced := false } }
  have loose : Loose stopped notes :=
    ⟨by simp [stopped], by simp [stopped], h.fetched, h.blocked, h.retiring, h.attempts, h.history⟩
  have told := loose.sound_rejected (by simp [stopped]) "subscription rejected by the server"
  have refreshed := told.1.keeps.refreshStatus (by
    intro hopen queued
    simp [told.2 hopen] at queued)
  have near : Near s stopped := ⟨Iff.rfl, rfl, rfl, fun _ hl => .inl hl⟩
  exact ⟨refreshed.1, (near.trans told.1.near).trans refreshed.2.near, told.1.calm⟩

lemma Local.sound_cable (h : Local s notes) (attempt : ℕ) (event : CableEvent) :
    Sound Local s notes (s.cable attempt event) := by
  by_cases hactive : (s.provider.transport = .connecting ∨ s.provider.transport = .connected) ∧
      attempt = s.provider.attempt
  · rw [Session.cable, if_pos hactive]
    have unrefreshing : s.phase ≠ .refreshing := by
      intro hp
      rcases hactive.1 with connecting | connected
      · exact (h.refreshing hp).1 connecting
      · exact (h.refreshing hp).2 connected
    cases event
    case connected =>
      by_cases hc : s.provider.transport = .connecting
      · rw [Session.onCable, if_pos hc]
        exact h.sound_accepted hc
      · rw [Session.onCable, if_neg hc]
        exact Sound.same h
    case lost =>
      have told := h.refreshed
        (p := { s.provider with transport := .connecting, synced := false }) rfl
        (fun hp => absurd hp unrefreshing) (by simp)
      exact Sound.of_quiet told.1 told.2
    case rejected => exact h.sound_rejection
    case acked count =>
      have told := h.refreshed_of_transport
        (p := { s.provider with queued := s.provider.queued - count }) rfl (.inl rfl)
      exact Sound.of_quiet told.1 told.2
    case received step2 =>
      have told := h.refreshed_of_transport
        (p := { s.provider with synced := s.provider.synced || step2 }) rfl (.inl rfl)
      exact Sound.of_quiet told.1 told.2
  · rw [Session.cable, if_neg hactive]
    exact Sound.same h

lemma Local.sound_edit (h : Local s notes) : Sound Local s notes s.edit := by
  unfold Session.edit
  split_ifs with hd
  · exact Sound.same h
  · have told := h.refreshed_of_transport
      (p := { s.provider with queued := s.provider.queued + 1 }) rfl (.inl rfl)
    exact Sound.of_quiet told.1 told.2

lemma Local.sound_providerError (h : Local s notes) (error : String) :
    Sound Local s notes (s.providerError error) := by
  unfold Session.providerError
  split_ifs with hc
  · exact Sound.same h
  · exact Sound.of_quiet (Local.of_changed (h.toLoose.of_same rfl rfl rfl rfl) h.last)
      ⟨rfl, rfl, rfl, rfl, rfl⟩

lemma Local.sound_providerDestroy (h : Local s notes) :
    Sound Local s notes s.providerDestroy := by
  unfold Session.providerDestroy
  split_ifs with hd
  · exact Sound.same h
  · have told := h.refreshed_of_transport
      (p := { s.provider with transport := .destroyed, synced := false }) rfl (.inr (.inr rfl))
    exact Sound.of_quiet told.1 told.2

lemma Local.sound_settled (h : Local s notes) : Sound Local s notes s.settled :=
  Sound.of_quiet ⟨h.toLoose.of_same rfl rfl rfl rfl, h.needed, h.last⟩ ⟨rfl, rfl, rfl, rfl, rfl⟩

lemma Local.sound_retry (h : Local s notes) (failure : Option String) :
    Sound Local s notes (s.retry failure) := by
  unfold Session.retry
  cases ht : s.transition .retry none
  case none => exact Sound.same h
  case some s' =>
    obtain ⟨phase, hphase, hm, hp⟩ := Session.transition_eq_some ht
    obtain ⟨hblocked, rfl⟩ := Phase.on_retry.mp hphase
    have last : s'.provider.last = (s'.provider.status, s'.provider.hasPending) := by
      rw [hp]
      exact h.last
    have retried : Local s' (notes ++ [.retried]) :=
      ⟨h.toLoose.retry hm, fun _ queued => by simp [hm.queued] at queued, last⟩
    have opened : Sound Local s notes (s', [.retried]) :=
      ⟨retried, hm.near (by simp [hblocked]) (by simp), by simp⟩
    exact opened.trans (retried.sound_connect (by simp [hm.entered]) none failure)

lemma Local.sound_onRefreshed (h : Local s notes) (attempt : ℕ) (result : Except String String)
    (failure : Option String) : Sound Local s notes (s.onRefreshed attempt result failure) := by
  unfold Session.onRefreshed
  by_cases hf : attempt ∉ s.fetches
  · rw [if_pos hf]
    exact Sound.same h
  by_cases hl : s.lifecycle ≠ attempt
  · rw [if_neg hf, if_pos hl]
    exact Sound.same h
  rw [if_neg hf, if_neg hl]
  cases result
  case error error => exact h.sound_block error
  case ok grant =>
    cases ht : s.transition .renew none
    case none => simpa [ht] using Sound.same h
    case some s' =>
      obtain ⟨phase, hphase, hm, hp⟩ := Session.transition_eq_some ht
      obtain ⟨hrefreshing, rfl⟩ := Phase.on_renew.mp hphase
      have last : s'.provider.last = (s'.provider.status, s'.provider.hasPending) := by
        rw [hp]
        exact h.last
      have renewed : Local s' notes :=
        ⟨h.toLoose.renew hrefreshing hm hp, fun _ queued => by simp [hm.queued] at queued, last⟩
      have moved : Sound Local s notes (s', []) :=
        ⟨by simpa using renewed, hm.near (by simp [hrefreshing]) (by simp), by simp⟩
      have connected : Sound Local s' (notes ++ []) (s'.connect (some grant) failure) := by
        simpa using renewed.sound_connect (by simp [hm.entered]) (some grant) failure
      simpa [ht] using moved.trans connected

/-- A new session has no history. -/
lemma Told.new (descriptor : ResolvedDescriptor) : Told (Session.new descriptor) [] := by
  refine ⟨⟨?_, ?_, ?_, ?_, ?_, Attempts.nil _, History.nil⟩, rfl⟩
  · simp [Session.new]
  · simp [Session.new]
  · simp [fetchedSince]
  · simp [Session.new, blocking]
  · rfl

lemma Told.sound_attachLease (h : Told s notes) (lease : LeaseId) (failure : Option String) :
    Sound Local { s with leases := s.leases ++ [lease] } notes (s.attachLease lease failure) := by
  let held : Session := { s with leases := s.leases ++ [lease] }
  have changed : Local held.changed notes :=
    Local.of_changed (h.toLoose.of_same rfl rfl rfl rfl) h.last
  have start : Sound Local held notes (held.changed, []) :=
    Sound.of_quiet changed ⟨rfl, rfl, rfl, rfl, rfl⟩
  by_cases hc : held.changed.phase.connects
  · have unrefreshing : held.changed.phase ≠ .refreshing := by
      intro hp
      simp [hp, Phase.connects] at hc
    have connected :
        Sound Local held.changed (notes ++ []) (held.changed.connect none failure) := by
      simpa using changed.sound_connect unrefreshing none failure
    have attached : s.attachLease lease failure = held.changed.connect none failure := if_pos hc
    rw [attached]
    simpa using start.trans connected
  · have attached : s.attachLease lease failure = (held.changed, []) := if_neg hc
    rw [attached]
    exact start

lemma Local.sound_onRelease (h : Local s notes) (lease : LeaseId) :
    Sound Local { s with leases := s.leases.filter (· ≠ lease) } notes (s.onRelease lease) := by
  by_cases hl : lease ∈ s.leases
  · rw [Session.onRelease, if_pos hl]
    exact Sound.of_quiet (Local.of_changed (h.toLoose.of_same rfl rfl rfl rfl) h.last)
      ⟨rfl, rfl, rfl, rfl, rfl⟩
  · have same : s.leases.filter (· ≠ lease) = s.leases := by
      rw [List.filter_eq_self]
      intro l hmem
      have hne : l ≠ lease := fun he => hl (he ▸ hmem)
      simpa using hne
    rw [Session.onRelease, if_neg hl, same]
    exact Sound.same h

/-- The start of a settle. -/
lemma Told.settle (h : Told s notes) : Told s.settle.1 (notes ++ s.settle.2) := by
  have blocked : s.state = .blocked ↔ s.phase = .blocked := by
    cases hp : s.phase <;> simp [Session.state, Phase.state, hp]
  have releases :
      (if s.state = .blocked then s.retiring.getD [] else []) = due (blocking notes) := by
    by_cases hb : s.state = .blocked
    · rw [if_pos hb, h.retiring]
    · have none := h.unblocked (mt blocked.mpr hb)
      simp [if_neg hb, none, due]
  refine ⟨⟨h.refreshing, h.renewed, ?_, ?_, ?_, ?_, ?_⟩, h.last⟩
  · rw [Session.settle, fetchedSince_snoc]
    exact h.fetched
  · simp [Session.settle, blocking_snoc, h.blocked]
  · rw [Session.settle, blocking_snoc]
    by_cases hb : s.state = .blocked
    · cases hheld : blocking notes <;> simp [hb, due]
    · have none := h.unblocked (mt blocked.mpr hb)
      simp [hb, h.retiring, none, due]
  · exact h.attempts.snoc (Nat.le_refl _) (by simp) (by simp [Note.interrupts])
  · refine h.history.snoc (by simp) ?_
    intro phase releases' he
    obtain ⟨rfl, rfl⟩ := Note.settles.inj he
    exact ⟨h.blocked, releases⟩

end Methods

end DocumentSession

end Yrby
