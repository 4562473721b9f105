import Yrby.Client.ProviderPresence
import Yrby.Client.ProviderStretches

/-!
# Presence survives (`actioncable_provider.ts`)

`Place` says in which one of its places the application's presence is, and what the awareness object
has been asked meanwhile.  Every stretch of the provider's code keeps it (`Held.step`), and so does
whatever the awareness object, the application and the page do (`Kept.step`), unless the provider is
stopped, or the page hidden again, while `pagehide` keeps the presence: what the page's handlers
keep is then dropped, and the presence is lost.
-/

namespace Yrby.ActionCableProvider

open Reentrant

variable {H : Host} {last : Option String} {hidden : Bool} {v v' : View}

/-! ## Where the presence is -/

/-- Where the application's last value is, while the awareness object is asked for something. -/
inductive Place (last : Option String) (hidden : Bool) (v : View) : Option Ask → Prop
  /-- Nobody needs it: a `destroy` is under way, or over. -/
  | gone (ask : Option Ask)
      (state : v.state = .destroyed ∨ ∃ a sub, v.state = .stopping a sub .destroy) :
      Place last hidden v ask
  /-- With the awareness object. -/
  | present (state : v.state.isStopping = false) (presence : v.presence = none)
      (localState : v.localState = last)
      (stash : v.localState = none → v.page.bind Prod.snd = none) : Place last hidden v none
  /-- With `#presence`. -/
  | stashed (state : v.state = .disconnected ∨ v.state.isStopping) (presence : v.presence = last)
      (localState : v.localState = none) : Place last hidden v none
  | removing (state : v.state.isStopping) (presence : v.presence = last) :
      Place last hidden v (some .remove)
  | restoring {a : ℕ} {p : String} (state : v.state = .subscribing a) (presence : v.presence = none)
      (value : last = some p) : Place last hidden v (some (.restore p))
  /-- With the handlers of the hidden page. -/
  | away {page : ℕ} {p : String} (state : v.state.isOpen) (presence : v.presence = none)
      (hid : hidden = true) (stash : v.page = some (page, some p)) (value : last = some p)
      (localState : v.localState = none) : Place last hidden v none
  | leaving {page : ℕ} {p : String} (state : v.state.isOpen) (presence : v.presence = none)
      (hid : hidden = true) (stash : v.page = some (page, some p)) (value : last = some p)
      (localState : v.localState = last) : Place last hidden v (some .remove)
  | showing {p : String} (state : v.state.isOpen) (presence : v.presence = none)
      (value : last = some p) (localState : v.localState = none) :
      Place last hidden v (some (.show (some p)))

structure Held (last : Option String) (hidden : Bool) (v : View) : Prop where
  place : Place last hidden v v.asked
  alive : v.state ≠ .destroyed → v.alive = true
  knows : v.hasLocalState = some v.localState.isSome
  page : v.page ≠ none → v.state.isOpen

lemma ProviderState.isStopping_eq_false {st : ProviderState} (h : st.isOpen) :
    st.isStopping = false := by
  cases st <;> first | rfl | simp [ProviderState.isOpen] at h

lemma ProviderState.ne_destroyed {st : ProviderState} (h : st.isOpen) : st ≠ .destroyed := by
  rintro rfl
  simp [ProviderState.isOpen] at h

namespace Held

lemma page_eq_none (h : Held last hidden v) (hs : v.state.isOpen = false) : v.page = none := by
  by_contra hpage
  simp [h.page hpage] at hs

/-- With the subscription open, the presence is with the awareness object or with the page. -/
lemma opened (h : Held last hidden v) (quiet : v.asked = none) (hs : v.state.isOpen) :
    v.presence = none ∧
      (v.localState = last ∧ (v.localState = none → v.page.bind Prod.snd = none) ∨
        hidden = true ∧ v.localState = none ∧
          ∃ page p, v.page = some (page, some p) ∧ last = some p) := by
  have place := h.place
  rw [quiet] at place
  cases place with
  | gone _ state =>
      rcases state with state | ⟨a, sub, state⟩ <;> simp [state, ProviderState.isOpen] at hs
  | present state presence localState stash => exact ⟨presence, .inl ⟨localState, stash⟩⟩
  | stashed state =>
      rcases state with state | state
      · simp [state, ProviderState.isOpen] at hs
      · simp [ProviderState.isStopping_eq_false hs] at state
  | away state presence hid stash value localState =>
      exact ⟨presence, .inr ⟨hid, localState, _, _, stash, value⟩⟩

/-- The session asks to remove a local state that is there. -/
lemma asks (h : Held last hidden v) (hs : v.state.isOpen) :
    (if v.alive ∧ v.hasLocalState = some true then some Ask.remove else none) =
      if v.localState.isSome then some .remove else none := by
  simp [h.knows, h.alive (ProviderState.ne_destroyed hs)]

/-- A stretch of code that only changes the state, among those in which the presence is where it
is. -/
lemma turn (h : Held last hidden v) {st : ProviderState}
    (hplace : Place last hidden { v with state := st } v.asked) (hs : v.state ≠ .destroyed)
    (hpage : v.page ≠ none → st.isOpen) :
    Held last hidden { v with state := st } :=
  ⟨hplace, fun _ => h.alive hs, h.knows, hpage⟩

/-- `#stop` keeps what it takes. -/
lemma stop (h : Held last hidden v) (quiet : v.asked = none) (a : ℕ) (sub : Subscription)
    (reason : StopReason) (hs : v.state.isOpen) (haway : reason ≠ .destroy → ¬v.Away) :
    Held last hidden { v with
      state := .stopping a sub reason, page := none, presence := v.localState
      asked := if v.alive ∧ v.hasLocalState = some true then some .remove else none } := by
  refine ⟨?_, fun _ => h.alive (ProviderState.ne_destroyed hs), h.knows, by simp⟩
  by_cases hreason : reason = .destroy
  · exact .gone _ (.inr ⟨a, sub, by rw [hreason]⟩)
  rcases h.opened quiet hs with ⟨-, ⟨localState, -⟩ | ⟨-, empty, page, p, stash, -⟩⟩
  · rw [h.asks hs]
    cases value : v.localState with
    | none => exact .stashed (.inr rfl) (value.symm.trans localState) rfl
    | some p => exact .removing rfl (value.symm.trans localState)
  · exact absurd ⟨by simp [stash], empty⟩ (haway hreason)

/-- **A stretch of code keeps the presence somewhere.** -/
lemma step (h : Held last hidden v) {quiet : v.asked = none} (step : View.Step v quiet v') :
    Held last hidden v' := by
  have place := h.place
  rw [quiet] at place
  cases step with
  | subscribe n hs =>
      have page := h.page_eq_none (by rw [hs]; rfl)
      refine ⟨?_, fun _ => h.alive (by simp [hs]), h.knows, by simp [page]⟩
      cases place with
      | gone _ state => rcases state with state | ⟨a, sub, state⟩ <;> simp [hs] at state
      | present state presence localState stash =>
          rw [presence]
          exact .present rfl rfl localState stash
      | stashed state presence localState =>
          cases value : v.presence with
          | none => exact .present rfl rfl (by rw [localState, ← presence, value]) (by simp [page])
          | some p => exact .restoring rfl rfl (by rw [← presence, value])
      | away state => simp [hs, ProviderState.isOpen] at state
  | @install a sub page hs hpage =>
      refine ⟨?_, fun _ => h.alive (by simp [hs]), h.knows, fun _ => rfl⟩
      cases place with
      | gone _ state => rcases state with state | ⟨a, sub, state⟩ <;> simp [hs] at state
      | present state presence localState stash =>
          rw [quiet]
          refine .present rfl presence localState fun empty => ?_
          rcases hpage with rfl | ⟨n, rfl⟩
          · exact stash empty
          · rfl
      | stashed state => simp [hs, ProviderState.isStopping] at state
      | away state => simp [hs, ProviderState.isOpen] at state
  | unsubscribed hs =>
      have page := h.page_eq_none (by rw [hs]; rfl)
      refine h.turn ?_ (by simp [hs]) (by simp [page])
      rw [quiet]
      cases place with
      | gone _ state => rcases state with state | ⟨a, sub, state⟩ <;> simp [hs] at state
      | present state presence localState stash => exact .present rfl presence localState stash
      | stashed state => simp [hs, ProviderState.isStopping] at state
      | away state => simp [hs, ProviderState.isOpen] at state
  | turn st hs hs' =>
      refine h.turn ?_ (ProviderState.ne_destroyed hs) fun _ => hs'
      rw [quiet]
      rcases h.opened quiet hs with
        ⟨presence, ⟨localState, stash⟩ | ⟨hid, empty, page, p, stash, value⟩⟩
      · exact .present (ProviderState.isStopping_eq_false hs') presence localState stash
      · exact .away hs' presence hid stash value empty
  | stop a sub reason hs haway => exact h.stop quiet a sub reason hs haway
  | @upgrade a sub reason hs =>
      have page := h.page_eq_none (by rw [hs]; rfl)
      exact h.turn (.gone _ (.inr ⟨a, sub, rfl⟩)) (by simp [hs]) (by simp [page])
  | @stopped a sub reason hs hreason =>
      have page := h.page_eq_none (by rw [hs]; rfl)
      refine h.turn ?_ (by simp [hs]) (by simp [page])
      rw [quiet]
      cases place with
      | gone _ state =>
          rcases state with state | ⟨a', sub', state⟩
          · simp [hs] at state
          · simp [hs, hreason] at state
      | present state => simp [hs, ProviderState.isStopping] at state
      | stashed state presence localState => exact .stashed (.inl rfl) presence localState
      | away state => simp [hs, ProviderState.isOpen] at state
  | destroyed alive hs =>
      have page := h.page_eq_none hs
      exact ⟨.gone _ (.inl rfl), by simp, h.knows, by simp [page]⟩

lemma steps (h : Held last hidden v) (steps : View.Steps v v') : Held last hidden v' := by
  induction steps with
  | refl => exact h
  | tail _ last ih =>
      obtain ⟨quiet, step⟩ := last
      exact ih.step step

end Held

/-! ## What the others do -/

/-- The local state is set, and the provider told. -/
def View.told (v : View) (localState : Option String) : View :=
  { v with
    localState
    hasLocalState := v.hasLocalState.map fun _ => localState.isSome
    presence := if v.state = .disconnected then none else v.presence }

namespace Held

/-- The awareness object does what it was asked. -/
lemma serve {ask : Ask} (h : Held last hidden v) (hask : v.asked = some ask) :
    Held last hidden { v.told ask.localState with asked := none } := by
  refine ⟨?_, h.alive, by simp [View.told, h.knows], h.page⟩
  have place := h.place
  rw [hask] at place
  cases place with
  | gone _ state => exact .gone _ state
  | removing state presence =>
      have open' : v.state ≠ .disconnected := by
        intro hs
        simp [hs, ProviderState.isStopping] at state
      exact .stashed (.inr state) (by rw [View.told, if_neg open', presence]) rfl
  | restoring state presence value =>
      have running : v.state.isStopping = false := by
        rw [state]
        rfl
      exact .present running (by simp [View.told, presence]) value.symm
        (by simp [Ask.localState, View.told])
  | leaving state presence hid stash value localState =>
      exact .away state (by simp [View.told, presence]) hid stash value rfl
  | showing state presence value =>
      exact .present (ProviderState.isStopping_eq_false state) (by simp [View.told, presence])
        value.symm (by simp [Ask.localState, View.told])

/-- The application sets its presence, which from then on is with the awareness object. -/
lemma setLocalState (h : Held last hidden v) (quiet : v.asked = none) {localState : Option String}
    (clear : localState = none → v.page.bind Prod.snd = none) (hs : ¬v.state.isStopping) :
    Held localState hidden (v.told localState) := by
  refine ⟨?_, h.alive, by simp [View.told, h.knows], h.page⟩
  rw [View.told, quiet]
  have place := h.place
  rw [quiet] at place
  have running : v.state.isStopping = false := by simpa using hs
  cases place with
  | gone _ state => exact .gone _ state
  | present state presence => exact .present running (by simp [presence]) rfl clear
  | stashed state =>
      have disconnected := state.resolve_right hs
      exact .present running (by simp [disconnected]) rfl clear
  | away state presence => exact .present running (by simp [presence]) rfl clear

/-- The awareness object's timer sets the local state to what it is. -/
lemma touch (h : Held last hidden v) (quiet : v.asked = none) (some : v.localState.isSome) :
    Held last hidden { v with
      presence := if v.state = .disconnected then none else v.presence } := by
  refine ⟨?_, h.alive, h.knows, h.page⟩
  have place := h.place
  rw [quiet] at place ⊢
  cases place with
  | gone _ state => exact .gone _ state
  | present state presence localState stash =>
      exact .present state (by simp [presence]) localState stash
  | stashed state presence localState => simp [localState] at some
  | away state presence hid stash value localState => simp [localState] at some

/-- `pagehide` takes the local state, and asks to remove it. -/
lemma hide (h : Held last hidden v) (quiet : v.asked = none) {page : ℕ} {stash : Option String}
    (hpage : v.page = some (page, stash)) (haway : ¬v.Away) :
    Held last true { v with
      page := some (page, v.localState)
      asked := if v.alive ∧ v.hasLocalState = some true then some .remove else none } := by
  have hs := h.page (by simp [hpage])
  refine ⟨?_, h.alive, h.knows, fun _ => hs⟩
  rcases h.opened quiet hs with ⟨presence, ⟨localState, -⟩ | ⟨-, empty, page, p, stash, -⟩⟩
  · rw [h.asks hs]
    cases value : v.localState with
    | none =>
        exact .present (ProviderState.isStopping_eq_false hs) presence (value.symm.trans localState)
          fun _ => rfl
    | some p =>
        exact .leaving hs presence rfl rfl (localState.symm.trans value)
          (value.symm.trans localState)
  · exact absurd ⟨by simp [stash], empty⟩ haway

lemma hidden_true (h : Held last hidden v) : Held last true v := by
  refine ⟨?_, h.alive, h.knows, h.page⟩
  have place := h.place
  generalize v.asked = ask at place ⊢
  cases place with
  | gone _ state => exact .gone _ state
  | present state presence localState stash => exact .present state presence localState stash
  | stashed state presence localState => exact .stashed state presence localState
  | removing state presence => exact .removing state presence
  | restoring state presence value => exact .restoring state presence value
  | away state presence hid stash value localState =>
      exact .away state presence rfl stash value localState
  | leaving state presence hid stash value localState =>
      exact .leaving state presence rfl stash value localState
  | showing state presence value localState => exact .showing state presence value localState

/-- Where the page keeps nothing, it does not matter whether it is hidden. -/
lemma hidden_congr (h : Held last hidden v) (quiet : v.asked = none)
    (hstash : v.page.bind Prod.snd = none) (hidden' : Bool) : Held last hidden' v := by
  refine ⟨?_, h.alive, h.knows, h.page⟩
  have place := h.place
  rw [quiet] at place ⊢
  cases place with
  | gone _ state => exact .gone _ state
  | present state presence localState stash => exact .present state presence localState stash
  | stashed state presence localState => exact .stashed state presence localState
  | away state presence hid stash => simp [stash] at hstash

/-- `pageshow` asks for what the page keeps, unless there is a newer local state. -/
lemma unhide (h : Held last hidden v) (quiet : v.asked = none) {page : ℕ} {p : String}
    (hpage : v.page = some (page, some p)) (empty : v.localState = none) (hidden' : Bool) :
    Held last hidden' { v with asked := some (.show (some p)) } := by
  refine ⟨?_, h.alive, h.knows, h.page⟩
  have hs := h.page (by simp [hpage])
  rcases h.opened quiet hs with
    ⟨presence, ⟨localState, stash⟩ | ⟨hid, empty, page', p', stash, value⟩⟩
  · have kept := stash empty
    simp [hpage] at kept
  · obtain rfl : p = p' := by simpa [hpage] using congrArg (Option.bind · Prod.snd) stash
    exact .showing hs presence value empty

/-- The page's handlers keep nothing any more. -/
lemma unstash (h : Held last hidden v) (quiet : v.asked = none)
    (haway : v.localState = none → v.page.bind Prod.snd = none) {page : ℕ} {stash : Option String}
    (hpage : v.page = some (page, stash)) (hidden' : Bool) :
    Held last hidden' { v with page := some (page, none) } := by
  refine ⟨?_, h.alive, h.knows, fun _ => h.page (by simp [hpage])⟩
  have place := h.place
  rw [quiet] at place ⊢
  cases place with
  | gone _ state => exact .gone _ state
  | present state presence localState => exact .present state presence localState fun _ => rfl
  | stashed state presence localState => exact .stashed state presence localState
  | away state presence hid stash value localState =>
      have kept := haway localState
      simp [stash] at kept

/-- A page that is not hidden keeps nothing. -/
lemma stash_eq_none (h : Held last false v) (quiet : v.asked = none) (empty : v.localState = none) :
    v.page.bind Prod.snd = none := by
  by_cases hs : v.state.isOpen
  · rcases h.opened quiet hs with ⟨-, ⟨-, stash⟩ | ⟨hid, -⟩⟩
    · exact stash empty
    · cases hid
  · rw [h.page_eq_none (by simpa using hs)]
    rfl

end Held

/-! ## Runs -/

namespace World

/-- What holds of every world that is reached. -/
structure Kept (w : World) : Prop where
  held : Held w.last w.hidden (view w.cfg.state w.asked)
  /-- The page is not hidden while the handler of a page that has been shown is at work. -/
  shown : ∀ page, .restored page ∈ w.cfg.stack → w.hidden = false

variable {w w' : World} {o : Out} {rest : List Frame}

lemma kept_init (params : Params) : (init params).Kept where
  held := ⟨.present rfl rfl rfl fun _ => rfl, fun _ => rfl, rfl, fun h => absurd rfl h⟩
  shown page h := by simp [init, ActionCableProvider.init] at h

/-- A move is a stretch of code, over some frames below it. -/
lemma move_eq_some {m : Move Call Ret} (h : w.move H m = some w') :
    ∃ o rest, w' = { w with cfg := w.cfg.resume rest o, asked := asking o } ∧ rest ⊆ w.cfg.stack ∧
      ((∃ x, m = .call x ∧ o = call H w.cfg.state x) ∨
        ∃ f r, m = .back r ∧ w.cfg.stack = f :: rest ∧ back H w.cfg.state f r = some o) := by
  obtain ⟨c, hc, rfl⟩ := Option.map_eq_some_iff.1 h
  have hstep : (machine H).step w.cfg m = some c := by
    unfold ActionCableProvider.step at hc
    exact (Option.ite_none_right_eq_some.1 hc).2
  cases m with
  | call x =>
      obtain rfl := Option.some.inj hstep
      exact ⟨_, _, rfl, List.Subset.refl _, .inl ⟨x, rfl, rfl⟩⟩
  | back r =>
      obtain ⟨f, rest, o, hst, ho, rfl⟩ := Machine.step_back_eq_some.1 hstep
      have ho : back H w.cfg.state f r = some o := ho
      refine ⟨o, rest, ?_, by simp [hst], .inr ⟨f, r, rfl, hst, ho⟩⟩
      simp [asks, hst, ho]

lemma move_call_eq_some {x : Call} (hx : enabled w.cfg (.call x) = true)
    (h : w.move H (.call x) = some w') :
    w' = { w with
      cfg := w.cfg.resume w.cfg.stack (call H w.cfg.state x)
      asked := asking (call H w.cfg.state x) } := by
  unfold World.move ActionCableProvider.step at h
  rw [if_pos hx] at h
  exact (Option.some.inj h).symm

/-- A stretch of code over frames that were there, which leaves no handler of a page that has been
shown while the page is hidden. -/
lemma Kept.resume {hidden : Bool} (held : Held w.last hidden (view o.state (asking o)))
    (below : ∀ page, .restored page ∈ rest → hidden = false)
    (asks : ∀ presence, asking o = some (.show presence) → hidden = false) :
    Kept { w with cfg := w.cfg.resume rest o, asked := asking o, hidden := hidden } where
  held := held
  shown page h := by
    rcases mem_push h with awaits | below'
    · exact asks _ (by rw [asking, awaits]; rfl)
    · exact below page below'

lemma Kept.shifts (h : w.Kept) (quiet : w.asked = none) (hrest : rest ⊆ w.cfg.stack)
    (ho : Shifts w.cfg.state o) :
    Kept { w with cfg := w.cfg.resume rest o, asked := asking o } := by
  have held : Held w.last w.hidden (view w.cfg.state none) := quiet ▸ h.held
  exact Kept.resume (held.steps ho) (fun page hpage => h.shown page (hrest hpage))
    fun presence asks => absurd asks (ho.asked_ne_show presence)

/-- The handler of a page that has been shown ends. -/
lemma Kept.restored (h : w.Kept) (quiet : w.asked = none) {page : ℕ} {r : Ret}
    (hst : w.cfg.stack = .restored page :: rest)
    (ho : back H w.cfg.state (.restored page) r = some o) :
    Kept { w with cfg := w.cfg.resume rest o, asked := asking o } := by
  have visible := h.shown page (by simp [hst])
  have held : Held w.last false (view w.cfg.state none) := quiet ▸ visible ▸ h.held
  cases r <;> simp only [back, Option.some.injEq, reduceCtorEq] at ho
  subst ho
  refine Kept.resume ?_ (fun page' hpage => h.shown page' (by simp [hst, hpage]))
    (by simp [asking])
  rw [visible]
  dsimp only
  split
  · rename_i p stash hpage
    by_cases same : p = page
    · rw [if_pos same]
      exact held.unstash rfl (held.stash_eq_none rfl) hpage false
    · rw [if_neg same, ← hpage]
      exact held
  · exact held

/-- **A move of the environment keeps the presence.** -/
lemma Kept.move (h : w.Kept) (quiet : w.asked = none) {m : Move Call Ret}
    (free : reserved m = false) (safe : w.Safe (.move m)) (hm : w.move H m = some w') :
    w'.Kept := by
  obtain ⟨o, rest, rfl, hrest, ⟨x, rfl, rfl⟩ | ⟨f, r, rfl, hst, ho⟩⟩ := move_eq_some hm
  · exact h.shifts quiet hrest (shifts_call free safe)
  · by_cases hf : ∃ page, f = .restored page
    · obtain ⟨page, rfl⟩ := hf
      exact h.restored quiet hst ho
    · exact h.shifts quiet hrest (shifts_back ho (by simpa using hf))

lemma view_awarenessIs (s : State) (localState : Option String) (clients : List ℕ) :
    view (call H s (.awarenessIs localState clients)).state none =
      { view s none with
        localState
        hasLocalState := (view s none).hasLocalState.map fun _ => localState.isSome } := by
  have knows : ((s.session.awareness.map fun _ =>
      (⟨localState.isSome, clients⟩ : Session.Awareness)).map Session.Awareness.hasLocalState) =
        (s.session.awareness.map Session.Awareness.hasLocalState).map
          fun _ => localState.isSome := by
    cases s.session.awareness <;> rfl
  simp only [view, ← knows]
  rfl

lemma view_onAwarenessUpdate (s : State) :
    view (call H s (.onAwarenessUpdate true)).state none =
      { view s none with presence := if s.state = .disconnected then none else s.presence } := by
  by_cases hs : s.state = .disconnected <;> simp [call, view, hs]

lemma setLocalState_eq_some {c c' : Cfg} {localState : Option String}
    (h : ActionCableProvider.setLocalState H c localState = some c') :
    c'.stack = c.stack ∧ view c'.state none = (view c.state none).told localState := by
  obtain rfl := Option.some.inj h
  refine ⟨rfl, ?_⟩
  have set := view_awarenessIs (H := H) c.state localState (remotes c.state)
  have told := view_onAwarenessUpdate (H := H)
    (call H c.state (.awarenessIs localState (remotes c.state))).state
  rw [set] at told
  exact told

lemma Kept.serve {ask : Ask} {c : Cfg} (h : w.Kept) (hask : w.asked = some ask)
    (hc : ActionCableProvider.setLocalState H w.cfg ask.localState = some c) :
    Kept { w with cfg := c, asked := none } := by
  obtain ⟨stack, hview⟩ := setLocalState_eq_some hc
  refine ⟨?_, fun page hpage => h.shown page (stack ▸ hpage)⟩
  rw [hview]
  exact h.held.serve hask

lemma Kept.setLocalState {localState : Option String} {c : Cfg} (h : w.Kept)
    (quiet : w.asked = none) (safe : w.Safe (.setLocalState localState))
    (hc : ActionCableProvider.setLocalState H w.cfg localState = some c) :
    Kept { w with cfg := c, last := localState } := by
  obtain ⟨stack, hview⟩ := setLocalState_eq_some hc
  have held : Held w.last w.hidden (view w.cfg.state none) := quiet ▸ h.held
  refine ⟨?_, fun page hpage => h.shown page (stack ▸ hpage)⟩
  rw [quiet, hview]
  exact held.setLocalState rfl safe.1 safe.2

lemma Kept.touch (h : w.Kept) (quiet : w.asked = none) (hs : w.cfg.state.localState.isSome)
    (hm : w.move H (.call (.onAwarenessUpdate true)) = some w') : w'.Kept := by
  obtain rfl := move_call_eq_some rfl hm
  have held : Held w.last w.hidden (view w.cfg.state none) := quiet ▸ h.held
  refine Kept.resume ?_ h.shown nofun
  have told := view_onAwarenessUpdate (H := H) w.cfg.state
  exact told ▸ held.touch rfl hs

lemma Kept.peers (h : w.Kept) (quiet : w.asked = none) {clients : List ℕ}
    (hm : w.move H (.call (.awarenessIs w.cfg.state.localState clients)) = some w') : w'.Kept := by
  obtain rfl := move_call_eq_some rfl hm
  have held : Held w.last w.hidden (view w.cfg.state none) := quiet ▸ h.held
  refine Kept.resume ?_ h.shown nofun
  have same : view (call H w.cfg.state (.awarenessIs w.cfg.state.localState clients)).state none =
      view w.cfg.state none := by
    rw [view_awarenessIs, held.knows]
    exact congrArg (fun knows => { view w.cfg.state none with hasLocalState := knows })
      held.knows.symm
  exact same ▸ held

/-- The page's events come when nothing runs. -/
lemma Kept.pagehide (h : w.Kept) (quiet : w.asked = none) (safe : w.Safe .pagehide)
    (idle : w.cfg.stack = []) {page : ℕ} {stash : Option String}
    (hpage : w.cfg.state.page = some (page, stash))
    (hm : World.move H { w with hidden := true } (.call (.pagehide page)) = some w') : w'.Kept := by
  obtain rfl := move_call_eq_some rfl hm
  have held : Held w.last w.hidden (view w.cfg.state none) := quiet ▸ h.held
  have hides : call H w.cfg.state (.pagehide page) =
      runSession { w.cfg.state with page := some (page, w.cfg.state.localState) }
        (Session.removeLocalAwareness w.cfg.state.session) .done := by
    simp [call, hide, hpage]
  have removes := view_removeLocalAwareness (s := { w.cfg.state with
    page := some (page, w.cfg.state.localState) }) .done
  rw [hides]
  refine Kept.resume ?_ (fun page' hpage' => ?_) fun presence hask => ?_
  · rw [removes]
    exact held.hide rfl hpage safe
  · simp [idle] at hpage'
  · have asks := hask.symm.trans (congrArg View.asked removes)
    have removing : ∀ (p : Prop) [Decidable p],
        some (Ask.show presence) ≠ if p then some .remove else none := by
      intro p _
      split <;> simp
    exact absurd asks (removing _)

lemma Kept.pageshow (h : w.Kept) (quiet : w.asked = none) (idle : w.cfg.stack = []) {page : ℕ}
    {stash : Option String} (hpage : w.cfg.state.page = some (page, stash)) (persisted : Bool)
    (hm : World.move H { w with hidden := w.hidden && !persisted }
      (.call (.pageshow page persisted)) = some w') : w'.Kept := by
  obtain rfl := move_call_eq_some rfl hm
  have held : Held w.last w.hidden (view w.cfg.state none) := quiet ▸ h.held
  have below : ∀ page', .restored page' ∈ w.cfg.stack → (w.hidden && !persisted) = false := by
    intro page' hpage'
    simp [idle] at hpage'
  cases stash with
  | none =>
      have shows : call H w.cfg.state (.pageshow page persisted) = { state := w.cfg.state } := by
        simp [call, ActionCableProvider.unhide, hpage]
      rw [shows]
      exact Kept.resume (held.hidden_congr rfl (by simp [view, hpage]) _) below
            (by simp [asking])
  | some p =>
      cases persisted with
      | false =>
          have shows : call H w.cfg.state (.pageshow page false) = { state := w.cfg.state } := by
            simp [call, ActionCableProvider.unhide, hpage]
          rw [shows]
          refine Kept.resume ?_ below (by simp [asking])
          rw [Bool.not_false, Bool.and_true]
          exact held
      | true =>
          cases empty : w.cfg.state.localState with
          | none =>
              have shows : call H w.cfg.state (.pageshow page true) =
                  { state := w.cfg.state, control := .awaits (.restored page) } := by
                simp [call, ActionCableProvider.unhide, hpage, empty]
              rw [shows]
              refine Kept.resume ?_ below fun _ _ => by simp
              have shown := held.unhide rfl hpage empty (w.hidden && !true)
              have kept : stashed w.cfg.state = some p := by simp [stashed, hpage]
              simpa [asking, Frame.ask?, kept, view] using shown
          | some newer =>
              have shows : call H w.cfg.state (.pageshow page true) =
                  { state := { w.cfg.state with page := some (page, none) } } := by
                simp [call, ActionCableProvider.unhide, hpage, empty]
              rw [shows]
              refine Kept.resume ?_ below (by simp [asking])
              exact held.unstash rfl (fun none => by simp [view, empty] at none) hpage _

/-- **Whatever happens keeps the presence**, unless it is dropped with the page's handlers. -/
lemma Kept.step (h : w.Kept) {act : Act} (safe : w.Safe act) (hs : w.step H act = some w') :
    w'.Kept := by
  unfold World.step at hs
  split at hs
  · rename_i ask hask
    split at hs
    · obtain ⟨c, hc, rfl⟩ := Option.map_eq_some_iff.1 hs
      exact h.serve hask hc
    · cases hs
  · rename_i quiet
    split at hs
    · rename_i m
      split at hs
      · cases hs
      · rename_i free
        exact h.move quiet (by simpa using free) safe hs
    · cases hs
    · obtain ⟨c, hc, rfl⟩ := Option.map_eq_some_iff.1 hs
      exact h.setLocalState quiet safe hc
    · split at hs
      · rename_i some
        exact h.touch quiet some hs
      · cases hs
    · exact h.peers quiet hs
    · split at hs
      · rename_i idle
        split at hs
        · rename_i page stash hpage
          exact h.pagehide quiet safe (by simpa using idle) hpage hs
        · obtain rfl := Option.some.inj hs
          exact ⟨h.held.hidden_true, fun page hpage => by simp_all⟩
      · cases hs
    · dsimp only at hs
      split at hs
      · rename_i idle
        split at hs
        · rename_i page stash hpage
          exact h.pageshow quiet (by simpa using idle) hpage _ hs
        · rename_i hpage
          obtain rfl := Option.some.inj hs
          have held : Held w.last w.hidden (view w.cfg.state none) := quiet ▸ h.held
          refine ⟨?_, fun page hpage => by simp_all⟩
          rw [quiet]
          exact held.hidden_congr rfl (by simp [view, hpage]) _
      · cases hs

/-- What a session that resumes sends once it has said hello. -/
lemma Kept.announces (h : w.Kept) {a cycle : ℕ} {sub : Subscription} {callee : Callee}
    {next : SessionNext} {c : Cfg} (hs : w.cfg.state.state = .connected a sub)
    (hst : w.cfg.stack = .within callee (.session (.hello cycle) next) :: rest)
    (hcycle : w.cfg.state.session.current cycle) (here : w.cfg.state.localState.isSome)
    (hc : ActionCableProvider.step H w.cfg (.back .unit) = some c) :
    c.trace = w.cfg.trace ++ [.sent (.connected a sub) sub.number
      (.awareness [w.cfg.state.session.clientID]) none sub.whispers] := by
  have hstep : (machine H).step w.cfg (.back .unit) = some c := by
    unfold ActionCableProvider.step at hc
    exact (Option.ite_none_right_eq_some.1 hc).2
  obtain ⟨f, rest', o, hst', ho, rfl⟩ := Machine.step_back_eq_some.1 hstep
  obtain ⟨rfl, rfl⟩ := List.cons.inj (hst.symm.trans hst')
  have knows : w.cfg.state.session.awareness.any Session.Awareness.hasLocalState = true := by
    have known : w.cfg.state.session.awareness.map Session.Awareness.hasLocalState =
        some w.cfg.state.localState.isSome := h.held.knows
    obtain ⟨awareness, hawareness, has⟩ := Option.map_eq_some_iff.1 known
    simp [hawareness, has, here]
  have speaks : Session.back w.cfg.state.session (.hello cycle) .unit =
      some (Session.await w.cfg.state.session (.sendAwareness [w.cfg.state.session.clientID])
        (.presence cycle)) := by
    simp [Session.back, hcycle, knows]
  have carries : carryOn H w.cfg.state .unit (.session (.hello cycle) next) = some o := by
    have ho : back H w.cfg.state (.within callee (.session (.hello cycle) next)) .unit =
        some o := ho
    simp only [back] at ho
    split at ho
    · exact ho
    · cases ho
  obtain ⟨o', ho', rfl⟩ := Option.map_eq_some_iff.1 carries
  obtain rfl := Option.some.inj (speaks.symm.trans ho')
  simp [Config.resume, runSession, Session.await, externalOf, callOut, send, hs,
    ProviderState.subscription?, ProviderState.isStopping, Outgoing.isAwareness]

/-- Where the presence is decides what is presented. -/
lemma Kept.presented (h : w.Kept) : w.Presented H where
  shown a sub hs visible quiet := by
    have opened : w.cfg.state.state.isOpen := by
      rw [hs]
      rfl
    rcases h.held.opened quiet opened with ⟨-, ⟨same, -⟩ | ⟨hid, -⟩⟩
    · exact same
    · simp [visible] at hid
  latest a sub hs here := by
    have place := h.held.place
    have state : (view w.cfg.state w.asked).state = .connected a sub := hs
    have localState : (view w.cfg.state w.asked).localState.isSome := here
    generalize (view w.cfg.state w.asked).asked = ask at place
    cases place with
    | gone _ gone => rcases gone with gone | ⟨a', sub', gone⟩ <;> simp [state] at gone
    | present _ _ same => exact same
    | stashed stashed => simp [state, ProviderState.isStopping] at stashed
    | removing removing => simp [state, ProviderState.isStopping] at removing
    | restoring restoring => simp [state] at restoring
    | away _ _ _ _ _ empty => simp [empty] at localState
    | leaving _ _ _ _ _ same => exact same
    | showing _ _ _ empty => simp [empty] at localState
  announces a sub callee cycle next rest c hs hst hcycle here hc :=
    h.announces hs hst hcycle here hc

/-- **When presence survives.**  In every run, under any re-entrancy and any order of the events of
the connection and the page, in which what `pagehide` keeps is not dropped. -/
theorem presented_of_run {params : Params} {acts : List Act}
    (safe : Transition.Along (step H) Safe (init params) acts)
    (h : Transition.run (step H) (init params) acts = some w) : w.Presented H :=
  (Transition.run_invariant_along (fun _ _ _ kept ok hs => kept.step ok hs) (kept_init params) safe
    h).presented

section Examples

/-- A page with a `window`, on which nothing decodes. -/
def browser : Host := ⟨fun _ => none, fun _ => true, true, "DocumentChannel"⟩

/-- What the environment has to do lets everything come to its end. -/
def backs (n : ℕ) : List Act := List.replicate n (.move (.back .unit))

/-- `connect`, until the session has resumed, which takes `n` calls. -/
def connects (attempt n : ℕ) : List Act :=
  [.move (.call .connect), .move (.back (.subscription false)),
    .move (.call (.cable attempt .connected))] ++ backs n

/-- The page is hidden and shown, the provider disconnects and connects again. -/
def hiddenAndShown : List Act :=
  connects 0 4 ++ [.pagehide, .serve] ++ backs 1 ++ [.pageshow true, .serve] ++ backs 1 ++
    [.move (.call .disconnect), .serve] ++ backs 4 ++
    [.move (.call .connect), .serve, .move (.back .unit), .move (.back (.subscription false)),
      .move (.call (.cable 1 .connected))] ++ backs 4

theorem presented_of_run_hiddenAndShown :
    ∃ w, Transition.run (step browser) (init fun _ => none) hiddenAndShown = some w ∧
      w.cfg.state.localState = some "\x7b\x7d" ∧ w.Presented browser := by
  have hrun : (Transition.run (step browser) (init fun _ => none) hiddenAndShown).map
      (fun w => w.cfg.state.localState) = some (some "\x7b\x7d") := rfl
  obtain ⟨w, hw, hl⟩ := Option.map_eq_some_iff.1 hrun
  exact ⟨w, hw, hl, presented_of_run (by decide) hw⟩

/-- The provider disconnects while the page is hidden. -/
def stoppedWhileHidden : List Act :=
  connects 0 4 ++ [.pagehide, .serve] ++ backs 1 ++ [.move (.call .disconnect)] ++ backs 3 ++
    [.pageshow true] ++ connects 1 3

/-- The page is shown and the provider connected again, and there is no presence. -/
theorem stoppedWhileHidden_lost :
    ∃ w, Transition.run (step browser) (init fun _ => none) stoppedWhileHidden = some w ∧
      ¬w.Presented browser := by
  have hrun : (Transition.run (step browser) (init fun _ => none) stoppedWhileHidden).map
      (fun w => (w.cfg.state.state, w.hidden, w.asked, w.cfg.state.localState, w.last)) =
        some (.connected 1 ⟨1, false⟩, false, none, none, some "\x7b\x7d") := rfl
  obtain ⟨w, hw, hs⟩ := Option.map_eq_some_iff.1 hrun
  refine ⟨w, hw, fun h => ?_⟩
  simp only [Prod.mk.injEq] at hs
  obtain ⟨state, visible, quiet, gone, last⟩ := hs
  have lost := h.shown 1 ⟨1, false⟩ state visible quiet
  rw [gone, last] at lost
  cases lost

end Examples

end World

end Yrby.ActionCableProvider
