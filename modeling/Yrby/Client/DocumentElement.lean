import Yrby.Client.DocumentSession
import Mathlib.Order.Nat

/-!
# The document element (`document_element.ts`)

`<yrby-document>` holds a lease on a session while it is in the page, the page is live and its
attributes name a document.  One try at that is an *attempt*.  An attempt is abandoned
synchronously, and everything that takes time (the consumer, the first sync) records its result
on the attempt and requests a settle, which looks at the current attempt only.

The element is a re-entrant machine.  It calls out when it registers with the page's adapter, when
it asks for a consumer, when `store.acquire` runs the provider, when it releases a lease and when
it dispatches an event, and all of these may call any of its methods.  Settles and promise
callbacks are microtasks: they run when nothing else does.

`Settled` is what the element promises.  There is one hole: `acquire` returns a lease to an attempt
that may be over by then, and nobody releases it.  `settled_of_run` says that the promise holds in
every run in which each acquired lease reaches the attempt that asked for it, while that attempt
is current and the lease is good.
-/

namespace Yrby.DocumentElement

open Reentrant DocumentSession

/-! ## The element -/

/-- The content attributes that the element reads. -/
structure Attributes where
  grant : Option String := none
  name : Option String := none
  channel : Option String := none
  refresh : Option String := none

inductive AttributeName
  | grant
  | name
  | channel
  | refresh

namespace Attributes

def get (as : Attributes) : AttributeName → Option String
  | .grant => as.grant
  | .name => as.name
  | .channel => as.channel
  | .refresh => as.refresh

def set (as : Attributes) (value : Option String) : AttributeName → Attributes
  | .grant => { as with grant := value }
  | .name => { as with name := value }
  | .channel => { as with channel := value }
  | .refresh => { as with refresh := value }

/-- `#descriptor` -/
def descriptor (as : Attributes) : Descriptor where
  channel := present as.channel
  grant := as.grant.getD ""
  name := as.name.getD ""
  refresh := present as.refresh

end Attributes

/-- `observedAttributes` -/
def AttributeName.observed : AttributeName → Bool
  | .refresh => false
  | _ => true

/-- How an attempt ended: with an error to report, or without. -/
inductive Report
  | silent
  | error
  deriving DecidableEq

/-- One try at binding one document. -/
structure Attempt where
  key : Key := ("", "", "")
  descriptor : Descriptor := { grant := "", name := "" }
  consumer : Bool := false
  lease : Option ℕ := none
  synced : Bool := false
  announced : Bool := false
  ended : Option Report := none

/-- A lease that `acquire` returned: the attempt it went to, and how its session stands.
`watched` says that the element listens for the abort and the first sync. -/
structure Lease where
  attempt : ℕ := 0
  aborted : Bool := false
  firstSync : Bool := false
  watched : Bool := false

/-- The element, with all attempts it ever started and all leases it ever acquired. -/
structure Element where
  connected : Bool := false
  live : Bool := false
  attributes : Attributes := {}
  attempt : Option ℕ := none
  attempts : ℕ → Attempt := fun _ => {}
  started : ℕ := 0
  leases : ℕ → Lease := fun _ => {}
  acquired : ℕ := 0
  stalledKey : Option Key := none
  registered : Bool := false
  settleQueued : Bool := false

/-- An event that the element dispatches.  `synced` records how things stood as it did. -/
inductive Event
  | synced (attempt : ℕ) (current unaborted firstSync : Bool)
  | error

/-- What is left to do once an attempt has been abandoned. -/
inductive Next
  | done
  | requestSettle
  | report
  deriving DecidableEq

/-- What the element waits for. -/
inductive Frame
  | registering
  | unregistering
  | loading
  | acquiring (attempt : ℕ)
  | releasing (next : Next)
  | dispatching
  deriving DecidableEq

/-- How a call out of the element comes back. -/
inductive Ret
  | done
  | acquired (aborted blocked firstSync : Bool)
  | threw

abbrev Out := Outcome Element Frame Event

namespace Element

/-- What should be bound: nothing on a cached page or without a grant and a name. -/
def wanted (s : Element) : Option Key :=
  let descriptor := s.attributes.descriptor
  if s.live ∧ descriptor.grant ≠ "" ∧ descriptor.name ≠ "" then some (resolve descriptor).key
  else none

def modifyAttempt (s : Element) (id : ℕ) (f : Attempt → Attempt) : Element :=
  { s with attempts := Function.update s.attempts id (f (s.attempts id)) }

def modifyLease (s : Element) (l : ℕ) (f : Lease → Lease) : Element :=
  { s with leases := Function.update s.leases l (f (s.leases l)) }

def requestSettle (s : Element) : Element := { s with settleQueued := true }

/-- The abort of a lease, with the element's own listener. -/
def abort (s : Element) (l : ℕ) (report : Report) : Element :=
  let aborted := s.modifyLease l fun lease => { lease with aborted := true }
  if (s.leases l).watched then
    (aborted.modifyAttempt (s.leases l).attempt fun attempt =>
      { attempt with ended := some (attempt.ended.getD report) }).requestSettle
  else aborted

def finish (s : Element) : Next → Out
  | .done => { state := s }
  | .requestSettle => { state := s.requestSettle }
  | .report => { state := s, events := [.error], control := .awaits .dispatching }

/-- `#abandon`, and what follows it.  Nobody reads what the abandoned attempt records. -/
def abandon (s : Element) (next : Next) : Out :=
  match s.attempt with
  | none => s.finish next
  | some id =>
      let cleared := { s with attempt := none }
      match (s.attempts id).lease with
      | none => cleared.finish next
      | some l =>
          if (s.leases l).aborted then cleared.finish next
          else { state := cleared.abort l .silent, control := .awaits (.releasing next) }

def connectedCallback (s : Element) : Out :=
  let s := { s with connected := true, stalledKey := none }
  if s.registered then { state := s.requestSettle }
  else { state := s, control := .awaits .registering }

def disconnectedCallback (s : Element) : Out :=
  { state := { s with connected := false }.requestSettle }

/-- `setAttribute`, with `attributeChangedCallback`. -/
def setAttribute (s : Element) (field : AttributeName) (value : Option String) : Out :=
  let changed := { s with attributes := s.attributes.set value field }
  if field.observed && decide (s.attributes.get field ≠ value) then
    { changed with stalledKey := none }.abandon .requestSettle
  else { state := changed }

def activate (s : Element) : Out :=
  { state := { s with live := true, stalledKey := none }.requestSettle }

def deactivate (s : Element) : Out := { s with live := false }.abandon .done

/-- The attempt holds a lease that has aborted. -/
def leaseAborted (s : Element) (attempt : Attempt) : Bool :=
  match attempt.lease with
  | some l => (s.leases l).aborted
  | none => false

def retry (s : Element) : Out :=
  match s.attempt with
  | some id =>
      if (s.attempts id).ended = none ∧ s.leaseAborted (s.attempts id) = false then { state := s }
      else { s with stalledKey := none }.abandon .requestSettle
  | none => { s with stalledKey := none }.abandon .requestSettle

def destroy (s : Element) : Out :=
  let s := { s with live := false }
  if s.registered then
    { state := { s with registered := false }, control := .awaits .unregistering }
  else s.abandon .done

/-- `#start`, up to the call of the consumer's factory. -/
def start (s : Element) (key : Key) : Out where
  state :=
    { s with
      attempt := some s.started
      attempts := Function.update s.attempts s.started
        { key := key, descriptor := s.attributes.descriptor }
      started := s.started + 1 }
  control := .awaits .loading

/-- `#stall` -/
def stall (s : Element) (report : Report) : Out :=
  let stalled := { s with stalledKey := s.attempt.map fun id => (s.attempts id).key }
  stalled.abandon (if report = .error then .report else .done)

/-- `#announce` -/
def announce (s : Element) (id l : ℕ) : Out where
  state := s.modifyAttempt id fun attempt => { attempt with announced := true }
  events := [.synced id (decide (s.attempt = some id)) (!(s.leases l).aborted)
    (s.leases l).firstSync]
  control := .awaits .dispatching

/-- The next step of the current attempt. -/
def advance (s : Element) (id : ℕ) : Out :=
  match (s.attempts id).ended with
  | some report => s.stall report
  | none =>
      match (s.attempts id).lease with
      | none =>
          if (s.attempts id).consumer then { state := s, control := .awaits (.acquiring id) }
          else { state := s }
      | some l =>
          if (s.attempts id).synced && !(s.attempts id).announced then s.announce id l
          else { state := s }

/-- `#settle` -/
def settle (s : Element) : Out :=
  let s := { s with settleQueued := false }
  if !s.connected then s.destroy
  else
    match s.attempt with
    | some id =>
        if some (s.attempts id).key ≠ s.wanted then s.abandon .requestSettle
        else if s.wanted = s.stalledKey then { state := s }
        else s.advance id
    | none =>
        match s.wanted with
        | none => { state := s }
        | some key => if s.stalledKey = some key then { state := s } else s.start key

/-- `#acquire`, once `store.acquire` has returned a lease. -/
def acquire (s : Element) (id : ℕ) (aborted blocked firstSync : Bool) : Out :=
  let bound := { s with
    leases := Function.update s.leases s.acquired ⟨id, aborted, firstSync, !blocked⟩
    acquired := s.acquired + 1 }.modifyAttempt id fun attempt =>
      { attempt with lease := some s.acquired }
  if blocked then
    { state := (bound.modifyAttempt id fun attempt =>
        { attempt with ended := some .error }).requestSettle }
  else { state := bound }

/-- The callback on `session.whenSynced`. -/
def onSynced (s : Element) (id : ℕ) : Out :=
  match (s.attempts id).lease with
  | some l =>
      if (s.leases l).firstSync && (s.leases l).watched then
        { state := (s.modifyAttempt id fun attempt =>
            { attempt with synced := true }).requestSettle }
      else { state := s }
  | none => { state := s }

end Element

/-- The element's methods, its microtasks, and what the sessions of its leases do. -/
inductive Call
  | connect
  | disconnect
  | setAttribute (field : AttributeName) (value : Option String)
  | activate
  | deactivate
  | retry
  | destroy
  | settle
  | consumerLoaded (attempt : ℕ)
  | consumerFailed (attempt : ℕ)
  | requestSettle
  | onSynced (attempt : ℕ)
  /-- A session blocks or is discarded, and aborts its lease. -/
  | abort (lease : ℕ) (report : Report)
  | firstSync (lease : ℕ)

/-- Microtasks run when nothing else does. -/
def Call.isMicrotask : Call → Bool
  | .settle | .consumerLoaded _ | .consumerFailed _ | .requestSettle | .onSynced _ => true
  | _ => false

open Element in
def machine : Machine Element Call Frame Ret Event where
  call s
    | .connect => s.connectedCallback
    | .disconnect => s.disconnectedCallback
    | .setAttribute field value => s.setAttribute field value
    | .activate => s.activate
    | .deactivate => s.deactivate
    | .retry => s.retry
    | .destroy => s.destroy
    | .settle => s.settle
    | .consumerLoaded id =>
        { state := s.modifyAttempt id fun attempt => { attempt with consumer := true } }
    | .consumerFailed id =>
        { state := s.modifyAttempt id fun attempt => { attempt with ended := some .error } }
    | .requestSettle => { state := s.requestSettle }
    | .onSynced id => s.onSynced id
    | .abort l report =>
        if (s.leases l).aborted then { state := s } else { state := s.abort l report }
    | .firstSync l => { state := s.modifyLease l fun lease => { lease with firstSync := true } }
  back s
    | .registering, .done => some { state := { s with registered := true }.requestSettle }
    | .unregistering, .done => some (s.abandon .done)
    | .loading, .done | .dispatching, .done => some { state := s }
    | .acquiring id, .acquired aborted blocked firstSync =>
        some (s.acquire id aborted blocked firstSync)
    | .acquiring _, .threw => some (s.stall .error)
    | .releasing next, .done => some (s.finish next)
    | _, _ => none

abbrev Cfg := Config Element Frame Event

/-- A move is possible: a microtask waits for the stack to unwind, a settle has been requested, and
only acquired leases have a session. -/
def enabled (c : Cfg) : Move Call Ret → Bool
  | .call x =>
      (!x.isMicrotask || c.stack.isEmpty) &&
        match x with
        | .settle => c.state.settleQueued
        | .consumerLoaded id | .consumerFailed id => decide (id < c.state.started)
        | .abort l _ | .firstSync l => decide (l < c.state.acquired)
        | _ => true
  | .back _ => true

def step (c : Cfg) (m : Move Call Ret) : Option Cfg :=
  if enabled c m then machine.step c m else none

def init : Cfg := { state := {} }

/-! ## The promise -/

/-- Nothing is under way and nothing is queued. -/
def Quiet (c : Cfg) : Prop := c.stack = [] ∧ c.state.settleQueued = false

/-- The attempt that a `yrby:synced` event announces. -/
def Event.announces : Event → Option ℕ
  | .synced id _ _ _ => some id
  | .error => none

/-- A `yrby:synced` event went out for the current attempt, with a lease that had not aborted, of a
session that had synced. -/
def Event.IsDue : Event → Prop
  | .synced _ current unaborted firstSync => current ∧ unaborted ∧ firstSync
  | .error => True

structure Settled (c : Cfg) : Prop where
  /-- Every lease is released, except possibly the lease of the current attempt. -/
  released : Quiet c → ∀ l < c.state.acquired, (c.state.leases l).aborted ∨
    ∃ id, c.state.attempt = some id ∧ (c.state.attempts id).lease = some l
  /-- A current lease is held for the document that the element shows. -/
  shown : Quiet c → ∀ id l, c.state.attempt = some id → (c.state.attempts id).lease = some l →
    c.state.connected ∧ c.state.live ∧ c.state.wanted = some (c.state.attempts id).key
  due : ∀ e ∈ c.trace, e.IsDue
  once : (c.trace.filterMap Event.announces).Nodup

/-- An acquired lease goes to the attempt that is current, and it is good or its session blocked. -/
def Delivered (c : Cfg) : Move Call Ret → Prop
  | .back (.acquired aborted blocked _) =>
      ∀ id rest, c.stack = .acquiring id :: rest →
        c.state.attempt = some id ∧ (aborted → blocked)
  | _ => True

/-! ## The invariant -/

/-- What holds of the attempts and leases, wherever the element is. -/
structure Core (s : Element) : Prop where
  owned : ∀ l < s.acquired, (s.leases l).aborted ∨
    ∃ id, s.attempt = some id ∧ (s.attempts id).lease = some l
  started : ∀ id, s.attempt = some id → id < s.started
  lease : ∀ id l, (s.attempts id).lease = some l →
    l < s.acquired ∧ id < s.started ∧ (s.leases l).attempt = id
  /-- The element hears of an abort, or has ended the attempt already. -/
  heard : ∀ id l, (s.attempts id).lease = some l →
    ((s.leases l).watched ∨ (s.attempts id).ended ≠ none) ∧
      ((s.leases l).aborted → (s.attempts id).ended ≠ none)
  synced : ∀ id, (s.attempts id).synced →
    ∃ l, (s.attempts id).lease = some l ∧ (s.leases l).firstSync

/-- The attempt is for the document that the element shows, unless a `destroy` is under way. -/
structure Shows (s : Element) (destroying : Prop) : Prop where
  wanted : ∀ id, s.attempt = some id → s.wanted = some (s.attempts id).key ∨ destroying
  connected : ∀ id, s.attempt = some id →
    s.connected ∨ s.settleQueued ∨ destroying

/-- Attempts only move forward: what was announced stays so, and an attempt without a lease gets
none. -/
structure Forward (s s' : Element) : Prop where
  announced : ∀ id, id < s.started → (s.attempts id).announced → (s'.attempts id).announced
  lease : ∀ id, id < s.started → (s.attempts id).lease = none → (s'.attempts id).lease = none
  started : s.started ≤ s'.started

/-- The stretch dispatches no `yrby:synced`. -/
def Unannounced (o : Out) : Prop := ∀ e ∈ o.events, e = Event.error

variable {s s' : Element} {destroying : Prop} {id l : ℕ} {next : Next} {report : Report}
  {o : Out} {stack : List Frame}

lemma Shows.imp {destroying' : Prop} (h : Shows s destroying) (himp : destroying → destroying') :
    Shows s destroying' :=
  ⟨fun id hid => (h.wanted id hid).imp_right himp,
    fun id hid => (h.connected id hid).imp_right (Or.imp_right himp)⟩

/-- Without an attempt there is nothing to show. -/
lemma Shows.of_none (h : s.attempt = none) : Shows s destroying :=
  ⟨fun id hid => by simp [h] at hid, fun id hid => by simp [h] at hid⟩

lemma Shows.requestSettle (h : Shows s destroying) : Shows s.requestSettle destroying :=
  ⟨h.wanted, fun _ _ => .inr (.inl rfl)⟩

lemma Core.requestSettle (h : Core s) : Core s.requestSettle := ⟨h.1, h.2, h.3, h.4, h.5⟩

lemma Forward.refl (s : Element) : Forward s s := ⟨fun _ _ h => h, fun _ _ h => h, le_rfl⟩

/-- A change to one attempt that leaves its lease alone and unsets nothing. -/
lemma Forward.modifyAttempt (s : Element) (id : ℕ) (f : Attempt → Attempt)
    (hlease : ∀ a, (f a).lease = a.lease)
    (hannounced : ∀ a, a.announced → (f a).announced) : Forward s (s.modifyAttempt id f) := by
  refine ⟨fun id' _ h => ?_, fun id' _ h => ?_, le_rfl⟩
  · by_cases hid : id' = id
    · subst hid
      simpa [Element.modifyAttempt] using hannounced _ h
    · simpa [Element.modifyAttempt, hid] using h
  · by_cases hid : id' = id
    · subst hid
      simpa [Element.modifyAttempt, hlease] using h
    · simpa [Element.modifyAttempt, hid] using h

/-- A change to one attempt that keeps its key and its lease keeps the invariant, if what it
records is true. -/
lemma Core.modifyAttempt (h : Core s) (id : ℕ) (f : Attempt → Attempt)
    (hlease : ∀ a, (f a).lease = a.lease)
    (hended : ∀ a, a.ended ≠ none → (f a).ended ≠ none)
    (hsynced : (f (s.attempts id)).synced → (s.attempts id).synced ∨
      ∃ l, (s.attempts id).lease = some l ∧ (s.leases l).firstSync) :
    Core (s.modifyAttempt id f) := by
  have hl : ∀ id', ((s.modifyAttempt id f).attempts id').lease = (s.attempts id').lease :=
    fun id' => by
      by_cases hid : id' = id
      · subst hid
        simp [Element.modifyAttempt, hlease]
      · simp [Element.modifyAttempt, hid]
  have he : ∀ id', (s.attempts id').ended ≠ none →
      ((s.modifyAttempt id f).attempts id').ended ≠ none := fun id' hne => by
    by_cases hid : id' = id
    · subst hid
      simpa [Element.modifyAttempt] using hended _ hne
    · simpa [Element.modifyAttempt, hid] using hne
  refine ⟨fun l hlt => ?_, h.started, fun id' l hid' => h.lease id' l (hl id' ▸ hid'),
    fun id' l hid' => ?_, fun id' hs => ?_⟩
  · refine (h.owned l hlt).imp_right fun ⟨id', hcur, hid'⟩ => ⟨id', hcur, ?_⟩
    rw [hl]
    exact hid'
  · obtain ⟨hw, ha⟩ := h.heard id' l (hl id' ▸ hid')
    exact ⟨hw.imp_right (he id'), fun hab => he id' (ha hab)⟩
  · rw [hl]
    by_cases hid : id' = id
    · subst hid
      have hs : (f (s.attempts id')).synced := by simpa [Element.modifyAttempt] using hs
      exact (hsynced hs).elim (h.synced id') fun hnew => hnew
    · exact h.synced id' (by simpa [Element.modifyAttempt, hid] using hs)

lemma Shows.modifyAttempt (h : Shows s destroying) (id : ℕ) (f : Attempt → Attempt)
    (hkey : ∀ a, (f a).key = a.key) : Shows (s.modifyAttempt id f) destroying := by
  refine ⟨fun id' hid' => (h.wanted id' hid').imp_left fun hw => ?_, h.connected⟩
  have : ((s.modifyAttempt id f).attempts id').key = (s.attempts id').key := by
    by_cases hid : id' = id
    · subst hid
      simp [Element.modifyAttempt, hkey]
    · simp [Element.modifyAttempt, hid]
  rw [this]
  exact hw

/-! ## Aborts -/

/-- A lease whose attempt has ended may be marked as aborted. -/
lemma Core.mark (h : Core s)
    (hended : ∀ id, (s.attempts id).lease = some l → (s.attempts id).ended ≠ none) :
    Core (s.modifyLease l fun lease => { lease with aborted := true }) := by
  refine ⟨fun l' hlt => ?_, h.started, fun id l' hid => ?_, fun id l' hid => ?_, fun id hs => ?_⟩
  · by_cases hl : l' = l
    · subst hl
      exact .inl (by simp [Element.modifyLease])
    · exact (h.owned l' hlt).imp_left fun ha => by simpa [Element.modifyLease, hl] using ha
  · obtain ⟨hlt, hst, ho⟩ := h.lease id l' hid
    refine ⟨hlt, hst, ?_⟩
    by_cases hl : l' = l
    · subst hl
      simpa [Element.modifyLease] using ho
    · simpa [Element.modifyLease, hl] using ho
  · by_cases hl : l' = l
    · subst hl
      exact ⟨.inr (hended id hid), fun _ => hended id hid⟩
    · simpa [Element.modifyLease, hl] using h.heard id l' hid
  · obtain ⟨l', hid, hsync⟩ := h.synced id hs
    refine ⟨l', hid, ?_⟩
    by_cases hl : l' = l
    · subst hl
      simpa [Element.modifyLease] using hsync
    · simpa [Element.modifyLease, hl] using hsync

/-- The abort of a lease keeps the invariant, whoever aborts it. -/
lemma Core.abort (h : Core s) : Core (s.abort l report) := by
  unfold Element.abort
  by_cases hw : (s.leases l).watched
  · rw [if_pos hw]
    -- the listener first ends the attempt, then nothing speaks against the mark
    have hend : Core (s.modifyAttempt (s.leases l).attempt fun attempt =>
        { attempt with ended := some (attempt.ended.getD report) }) :=
      h.modifyAttempt _ _ (fun _ => rfl) (fun _ _ => by simp) fun hs => .inl hs
    refine (hend.mark fun id hid => ?_).requestSettle
    by_cases ho : id = (s.leases l).attempt
    · subst ho
      simp [Element.modifyAttempt]
    · have hid : (s.attempts id).lease = some l := by
        simpa [Element.modifyAttempt, ho] using hid
      exact absurd (h.lease id l hid).2.2.symm ho
  · rw [if_neg hw]
    exact h.mark fun id hid => ((h.heard id l hid).1).resolve_left hw

lemma Forward.abort (s : Element) (l : ℕ) (report : Report) : Forward s (s.abort l report) := by
  unfold Element.abort
  by_cases hw : (s.leases l).watched
  · rw [if_pos hw]
    have := Forward.modifyAttempt s (s.leases l).attempt
      (fun attempt => { attempt with ended := some (attempt.ended.getD report) })
      (fun _ => rfl) fun _ h => h
    exact ⟨this.announced, this.lease, le_rfl⟩
  · rw [if_neg hw]
    exact ⟨fun _ _ h => h, fun _ _ h => h, le_rfl⟩

lemma abort_lease : ((s.abort l report).attempts id).lease = (s.attempts id).lease := by
  unfold Element.abort
  by_cases hw : (s.leases l).watched
  · rw [if_pos hw]
    by_cases ho : id = (s.leases l).attempt
    · subst ho
      simp [Element.modifyAttempt, Element.modifyLease, Element.requestSettle]
    · simp [ho, Element.modifyAttempt, Element.modifyLease, Element.requestSettle]
  · rw [if_neg hw]
    rfl

lemma abort_attempt : (s.abort l report).attempt = s.attempt := by
  unfold Element.abort
  by_cases hw : (s.leases l).watched <;> simp [hw, Element.modifyAttempt, Element.modifyLease,
    Element.requestSettle]

lemma Shows.abort (h : Shows s destroying) : Shows (s.abort l report) destroying := by
  unfold Element.abort
  by_cases hw : (s.leases l).watched
  · rw [if_pos hw]
    have hend := h.modifyAttempt (s.leases l).attempt
      (fun attempt => { attempt with ended := some (attempt.ended.getD report) }) fun _ => rfl
    exact ⟨hend.wanted, fun _ _ => .inr (.inl rfl)⟩
  · rw [if_neg hw]
    exact ⟨h.wanted, h.connected⟩

lemma abort_aborted : ((s.abort l report).leases l).aborted := by
  unfold Element.abort
  by_cases hw : (s.leases l).watched <;> simp [hw, Element.modifyAttempt, Element.modifyLease,
    Element.requestSettle]

/-! ## Stretches of code -/

/-- What a stretch of code from `s`, over the frames `stack`, leaves behind. -/
structure Sound (s : Element) (stack : List Frame) (o : Out) : Prop where
  core : Core o.state
  shows : Shows o.state (.unregistering ∈ o.control.push stack)
  forward : Forward s o.state
  events : Unannounced o
  calm : ∀ id, o.control ≠ .awaits (.acquiring id)

lemma sound_finish (hc : Core s') (hs : Shows s' (.unregistering ∈ stack)) (hf : Forward s s') :
    Sound s stack (s'.finish next) := by
  cases next with
  | done =>
      exact ⟨hc, hs, hf, by simp [Unannounced, Element.finish], by simp [Element.finish]⟩
  | requestSettle =>
      exact ⟨hc.requestSettle, hs.requestSettle, ⟨hf.announced, hf.lease, hf.started⟩,
        by simp [Unannounced, Element.finish], by simp [Element.finish]⟩
  | report =>
      refine ⟨hc, hs.imp fun h => ?_, hf, by simp [Unannounced, Element.finish],
        by simp [Element.finish]⟩
      exact List.mem_cons_of_mem _ h

/-- A stretch that ends at once. -/
lemma sound_state (hc : Core s') (hs : Shows s' (.unregistering ∈ stack)) (hf : Forward s s') :
    Sound s stack { state := s' } :=
  show Sound s stack (s'.finish .done) from sound_finish hc hs hf

/-- The attempt is dropped after its lease has been dealt with. -/
lemma Core.clear (h : Core s) (hl : ∀ id l, s.attempt = some id →
    (s.attempts id).lease = some l → (s.leases l).aborted) : Core { s with attempt := none } := by
  refine ⟨fun l hlt => ?_, fun id hid => by simp at hid, h.lease, h.heard, h.synced⟩
  rcases h.owned l hlt with ha | ⟨id, hid, hlease⟩
  · exact .inl ha
  · exact .inl (hl id l hid hlease)

/-- The abort and the clearing of the attempt touch different fields. -/
lemma abort_clear : Element.abort { s with attempt := none } l report =
    { s.abort l report with attempt := none } := by
  unfold Element.abort
  by_cases hw : (s.leases l).watched <;> simp [hw, Element.modifyAttempt, Element.modifyLease,
    Element.requestSettle]

/-- `#abandon` releases the lease of the attempt. -/
lemma sound_abandon (h : Core s') (hf : Forward s s') : Sound s stack (s'.abandon next) := by
  unfold Element.abandon
  cases hid : s'.attempt with
  | none => exact sound_finish h (.of_none hid) hf
  | some id =>
      have hclear : (∀ l, (s'.attempts id).lease = some l → (s'.leases l).aborted) →
          Core { s' with attempt := none } := fun hall => by
        refine h.clear fun id' l hid' hl => ?_
        obtain rfl : id = id' := by simpa [hid] using hid'
        exact hall l hl
      have hf' : Forward s { s' with attempt := none } := ⟨hf.announced, hf.lease, hf.started⟩
      cases hl : (s'.attempts id).lease with
      | none =>
          simp only [hl]
          exact sound_finish (hclear fun l hl' => by simp [hl] at hl') (.of_none rfl) hf'
      | some l =>
          simp only [hl]
          by_cases ha : (s'.leases l).aborted
          · rw [if_pos ha]
            refine sound_finish (hclear fun l' hl' => ?_) (.of_none rfl) hf'
            obtain rfl : l = l' := by simpa [hl] using hl'
            exact ha
          · rw [if_neg ha, abort_clear]
            have hcore : Core { s'.abort l .silent with attempt := none } := by
              refine Core.clear h.abort fun id' l' hid' hl' => ?_
              rw [abort_attempt, hid] at hid'
              obtain rfl : id = id' := by simpa using hid'
              rw [abort_lease, hl] at hl'
              obtain rfl : l = l' := by simpa using hl'
              exact abort_aborted
            have ha := Forward.abort s' l .silent
            refine ⟨hcore, .of_none rfl, ⟨fun id hlt hann => ?_, fun id hlt hnone => ?_, ?_⟩,
              by simp [Unannounced], by simp⟩
            · exact ha.announced id (hlt.trans_le hf.started) (hf.announced id hlt hann)
            · exact ha.lease id (hlt.trans_le hf.started) (hf.lease id hlt hnone)
            · exact hf.started.trans ha.started

lemma sound_stall (h : Core s') (hf : Forward s s') : Sound s stack (s'.stall report) :=
  sound_abandon ⟨h.owned, h.started, h.lease, h.heard, h.synced⟩
    ⟨hf.announced, hf.lease, hf.started⟩

lemma sound_destroy (h : Core s') (hf : Forward s s') : Sound s stack s'.destroy := by
  unfold Element.destroy
  by_cases hr : s'.registered
  · simp only [hr, if_true]
    refine ⟨⟨h.owned, h.started, h.lease, h.heard, h.synced⟩, ?_,
      ⟨hf.announced, hf.lease, hf.started⟩, by simp [Unannounced], by simp⟩
    -- from here until the adapter returns, the attempt is on its way out
    exact ⟨fun _ _ => .inr (List.mem_cons_self), fun _ _ => .inr (.inr List.mem_cons_self)⟩
  · simp only [hr, Bool.false_eq_true, if_false]
    exact sound_abandon ⟨h.owned, h.started, h.lease, h.heard, h.synced⟩
      ⟨hf.announced, hf.lease, hf.started⟩

/-- The key does not read `refresh`, and setting an attribute to its value changes nothing. -/
lemma wanted_set {field : AttributeName} {value : Option String}
    (h : (field.observed && decide (s.attributes.get field ≠ value)) = false) :
    Element.wanted { s with attributes := s.attributes.set value field } = s.wanted := by
  cases field with
  | refresh => rfl
  | grant | name | channel =>
      obtain rfl : s.attributes.get _ = value := by simpa [AttributeName.observed] using h
      rfl

/-- The public methods. -/
lemma sound_setAttribute (h : Core s) (hs : Shows s (.unregistering ∈ stack))
    (field : AttributeName) (value : Option String) :
    Sound s stack (s.setAttribute field value) := by
  unfold Element.setAttribute
  by_cases hchanged : (field.observed && decide (s.attributes.get field ≠ value)) = true
  · simp only [hchanged, if_true]
    exact sound_abandon ⟨h.owned, h.started, h.lease, h.heard, h.synced⟩
      ⟨fun _ _ h => h, fun _ _ h => h, le_rfl⟩
  · have hsame := wanted_set (s := s) (by simpa using hchanged)
    simp only [hchanged, Bool.false_eq_true, if_false]
    refine sound_state ⟨h.owned, h.started, h.lease, h.heard, h.synced⟩
      ⟨fun id hid => ?_, hs.connected⟩ ⟨fun _ _ h => h, fun _ _ h => h, le_rfl⟩
    rw [hsame]
    exact hs.wanted id hid

lemma sound_activate (h : Core s) (hs : Shows s (.unregistering ∈ stack)) :
    Sound s stack s.activate := by
  refine sound_state ⟨h.owned, h.started, h.lease, h.heard, h.synced⟩
    ⟨fun id hid => (hs.wanted id hid).imp_left fun hw => ?_, fun _ _ => .inr (.inl rfl)⟩
    ⟨fun _ _ h => h, fun _ _ h => h, le_rfl⟩
  unfold Element.wanted at hw
  obtain ⟨⟨-, hgrant⟩, hkey⟩ := Option.ite_none_right_eq_some.1 hw
  exact Option.ite_none_right_eq_some.2 ⟨⟨rfl, hgrant⟩, hkey⟩

lemma sound_connect (h : Core s) (hs : Shows s (.unregistering ∈ stack)) :
    Sound s stack s.connectedCallback := by
  unfold Element.connectedCallback
  have hc : Core { s with connected := true, stalledKey := none } :=
    ⟨h.owned, h.started, h.lease, h.heard, h.synced⟩
  have hs' : Shows { s with connected := true, stalledKey := none } (.unregistering ∈ stack) :=
    ⟨hs.wanted, fun _ _ => .inl rfl⟩
  show Sound s stack (if s.registered then _ else _)
  by_cases hr : s.registered
  · rw [if_pos hr]
    exact sound_state hc.requestSettle hs'.requestSettle ⟨fun _ _ h => h, fun _ _ h => h, le_rfl⟩
  · rw [if_neg hr]
    exact ⟨hc, hs'.imp (List.mem_cons_of_mem _), ⟨fun _ _ h => h, fun _ _ h => h, le_rfl⟩,
      by simp [Unannounced], by simp⟩

lemma sound_retry (h : Core s) (hs : Shows s (.unregistering ∈ stack)) :
    Sound s stack s.retry := by
  have habandon : Sound s stack (Element.abandon { s with stalledKey := none } .requestSettle) :=
    sound_abandon ⟨h.owned, h.started, h.lease, h.heard, h.synced⟩
      ⟨fun _ _ h => h, fun _ _ h => h, le_rfl⟩
  unfold Element.retry
  split
  · rename_i id _
    by_cases hgood : (s.attempts id).ended = none ∧ s.leaseAborted (s.attempts id) = false
    · rw [if_pos hgood]
      exact sound_state h hs (.refl s)
    · rw [if_neg hgood]
      exact habandon
  · exact habandon

/-- A callback that records something on an attempt. -/
lemma sound_modifyAttempt (id : ℕ) (f : Attempt → Attempt) (h : Core s)
    (hs : Shows s (.unregistering ∈ stack)) (hkey : ∀ a, (f a).key = a.key)
    (hlease : ∀ a, (f a).lease = a.lease) (hannounced : ∀ a, a.announced → (f a).announced)
    (hended : ∀ a, a.ended ≠ none → (f a).ended ≠ none)
    (hsynced : (f (s.attempts id)).synced → (s.attempts id).synced ∨
      ∃ l, (s.attempts id).lease = some l ∧ (s.leases l).firstSync) :
    Sound s stack { state := s.modifyAttempt id f } :=
  sound_state (h.modifyAttempt id f hlease hended hsynced) (hs.modifyAttempt id f hkey)
    (.modifyAttempt s id f hlease hannounced)

lemma sound_onSynced (h : Core s) (hs : Shows s (.unregistering ∈ stack)) :
    Sound s stack (s.onSynced id) := by
  unfold Element.onSynced
  cases hl : (s.attempts id).lease with
  | none => exact sound_state h hs (.refl s)
  | some l =>
      by_cases hsync : (s.leases l).firstSync && (s.leases l).watched
      · simp only [hsync, if_true]
        have hf : (s.leases l).firstSync := (Bool.and_eq_true_iff.1 hsync).1
        have hmod := sound_modifyAttempt id (fun attempt => { attempt with synced := true }) h hs
          (fun _ => rfl) (fun _ => rfl) (fun _ h => h) (fun _ h => h) fun _ => .inr ⟨l, hl, hf⟩
        exact sound_state hmod.core.requestSettle hmod.shows.requestSettle
          ⟨hmod.forward.announced, hmod.forward.lease, hmod.forward.started⟩
      · simp only [hsync, Bool.false_eq_true, if_false]
        exact sound_state h hs (.refl s)

lemma sound_firstSync (h : Core s) (hs : Shows s (.unregistering ∈ stack)) :
    Sound s stack
      { state := s.modifyLease l fun lease => { lease with firstSync := true } } := by
  have hsame : ∀ l', ((s.modifyLease l fun lease => { lease with firstSync := true }).leases
      l').aborted = (s.leases l').aborted ∧
      ((s.modifyLease l fun lease => { lease with firstSync := true }).leases l').watched =
        (s.leases l').watched ∧
      ((s.modifyLease l fun lease => { lease with firstSync := true }).leases l').attempt =
        (s.leases l').attempt ∧
      ((s.leases l').firstSync → ((s.modifyLease l fun lease =>
        { lease with firstSync := true }).leases l').firstSync) := fun l' => by
    by_cases hl : l' = l
    · subst hl
      simp [Element.modifyLease]
    · simp [Element.modifyLease, hl]
  refine sound_state ⟨fun l' hlt => ?_, h.started, fun id l' hid => ?_, fun id l' hid => ?_,
    fun id hs => ?_⟩ ⟨hs.wanted, hs.connected⟩ ⟨fun _ _ h => h, fun _ _ h => h, le_rfl⟩
  · rw [(hsame l').1]
    exact h.owned l' hlt
  · rw [(hsame l').2.2.1]
    exact h.lease id l' hid
  · rw [(hsame l').1, (hsame l').2.1]
    exact h.heard id l' hid
  · obtain ⟨l', hid, hf⟩ := h.synced id hs
    exact ⟨l', hid, (hsame l').2.2.2 hf⟩

/-! ## Configurations -/

/-- The invariant of a run. -/
structure Inv (c : Cfg) : Prop where
  core : Core c.state
  shows : Shows c.state (.unregistering ∈ c.stack)
  /-- An attempt that is acquiring has no lease yet. -/
  acquiring : ∀ id, .acquiring id ∈ c.stack →
    id < c.state.started ∧ (c.state.attempts id).lease = none
  /-- Acquiring starts in a settle, so nothing waits below it. -/
  bottom : ∀ id above below, c.stack = above ++ .acquiring id :: below → below = []
  announced : ∀ id ∈ c.trace.filterMap Event.announces,
    id < c.state.started ∧ (c.state.attempts id).announced
  due : ∀ e ∈ c.trace, e.IsDue
  once : (c.trace.filterMap Event.announces).Nodup

variable {c c' : Cfg} {m : Move Call Ret}

lemma inv_init : Inv init := by
  refine ⟨⟨fun l hl => absurd hl (Nat.not_lt_zero l), fun id hid => by simp [init] at hid,
    fun id l hid => by simp [init] at hid, fun id l hid => by simp [init] at hid,
    fun id hs => by simp [init] at hs⟩, .of_none rfl, ?_, ?_, ?_, ?_, ?_⟩ <;> simp [init]

lemma unannounced_filterMap (h : Unannounced o) : o.events.filterMap Event.announces = [] := by
  rw [List.filterMap_eq_nil_iff]
  intro e he
  rw [h e he]
  rfl

/-- The frames that are left once the innermost one has come back. -/
lemma Inv.tail {f : Frame} (h : Inv c) (hst : c.stack = f :: stack) :
    (∀ id, .acquiring id ∈ stack → id < c.state.started ∧ (c.state.attempts id).lease = none) ∧
      ∀ id above below, stack = above ++ .acquiring id :: below → below = [] := by
  refine ⟨fun id hid => h.acquiring id (hst ▸ List.mem_cons_of_mem _ hid), ?_⟩
  intro id above below heq
  exact h.bottom id (f :: above) below (by rw [hst, heq, List.cons_append])

/-- A sound stretch of code keeps the invariant. -/
lemma Inv.resume (h : Inv c)
    (hacq : ∀ id, .acquiring id ∈ stack →
      id < c.state.started ∧ (c.state.attempts id).lease = none)
    (hbottom : ∀ id above below, stack = above ++ .acquiring id :: below → below = [])
    (ho : Sound c.state stack o) : Inv (c.resume stack o) := by
  have hpush : ∀ id, .acquiring id ∈ o.control.push stack → .acquiring id ∈ stack := by
    intro id hid
    cases hc : o.control with
    | awaits f =>
        rw [hc] at hid
        rcases List.mem_cons.1 hid with hf | hid
        · exact absurd (hf ▸ hc) (ho.calm id)
        · exact hid
    | returned | threw => simpa [hc, Control.push] using hid
  have htrace : (c.trace ++ o.events).filterMap Event.announces =
      c.trace.filterMap Event.announces := by
    rw [List.filterMap_append, unannounced_filterMap ho.events, List.append_nil]
  refine ⟨ho.core, ho.shows, fun id hid => ?_, fun id above below heq => ?_, fun id hid => ?_,
    fun e he => ?_, ?_⟩
  · obtain ⟨hlt, hnone⟩ := hacq id (hpush id hid)
    exact ⟨Nat.lt_of_lt_of_le hlt ho.forward.started, ho.forward.lease id hlt hnone⟩
  · cases hc : o.control with
    | awaits f =>
        have heq : f :: stack = above ++ .acquiring id :: below := by
          simpa [Config.resume, Control.push, hc] using heq
        cases above with
        | nil =>
            obtain ⟨rfl, -⟩ := List.cons.inj heq
            exact absurd hc (ho.calm id)
        | cons g above => exact hbottom id above below (List.cons.inj heq).2
    | returned | threw =>
        exact hbottom id above below (by simpa [Config.resume, Control.push, hc] using heq)
  · obtain ⟨hlt, ha⟩ := h.announced id (htrace ▸ hid)
    exact ⟨Nat.lt_of_lt_of_le hlt ho.forward.started, ho.forward.announced id hlt ha⟩
  · rcases List.mem_append.1 he with he | he
    · exact h.due e he
    · rw [ho.events e he]
      trivial
  · show ((c.trace ++ o.events).filterMap Event.announces).Nodup
    rw [htrace]
    exact h.once

/-! ## The settle -/

/-- The state a settle works on. -/
lemma Core.unqueue (h : Core s) : Core { s with settleQueued := false } :=
  ⟨h.owned, h.started, h.lease, h.heard, h.synced⟩

/-- A new attempt. -/
lemma sound_start (h : Core s) {key : Key} (hkey : s.wanted = some key) (hconn : s.connected)
    (hnone : s.attempt = none) : Sound s stack (s.start key) := by
  have hfresh : ∀ id l, (s.attempts id).lease = some l → id ≠ s.started := fun id l hid => by
    have := (h.lease id l hid).2.1
    omega
  have hold : ∀ id, id ≠ s.started → ((s.start key).state.attempts id) = s.attempts id :=
    fun id hid => by simp [Element.start, hid]
  have hnew : (s.start key).state.attempts s.started =
      { key := key, descriptor := s.attributes.descriptor } := by simp [Element.start]
  have hback : ∀ id l, ((s.start key).state.attempts id).lease = some l →
      id ≠ s.started ∧ (s.attempts id).lease = some l := fun id l hid => by
    by_cases heq : id = s.started
    · rw [heq, hnew] at hid
      simp at hid
    · exact ⟨heq, by rwa [hold id heq] at hid⟩
  refine ⟨⟨fun l hlt => ?_, fun id hid => ?_, fun id l hid => ?_, fun id l hid => ?_,
    fun id hs => ?_⟩, ⟨fun id hid => ?_, fun id hid => .inl hconn⟩, ⟨fun id hlt ha => ?_,
    fun id hlt hl => ?_, Nat.le_succ _⟩, by simp [Unannounced, Element.start],
    by simp [Element.start]⟩
  · rcases h.owned l hlt with ha | ⟨id, hid, -⟩
    · exact .inl ha
    · simp [hnone] at hid
  · obtain rfl : s.started = id := by simpa [Element.start] using hid
    exact Nat.lt_succ_self _
  · obtain ⟨-, hid⟩ := hback id l hid
    obtain ⟨hl, hst, ho⟩ := h.lease id l hid
    exact ⟨hl, Nat.lt_succ_of_lt hst, ho⟩
  · obtain ⟨hne, hid⟩ := hback id l hid
    rw [hold id hne]
    exact h.heard id l hid
  · by_cases heq : id = s.started
    · rw [heq, hnew] at hs
      simp at hs
    · rw [hold id heq] at hs ⊢
      exact h.synced id hs
  · obtain rfl : s.started = id := by simpa [Element.start] using hid
    rw [hnew]
    exact .inl hkey
  · rw [hold id (by omega)]
    exact ha
  · rw [hold id (by omega)]
    exact hl

/-- The announcement: the lease of an attempt that has not ended is good. -/
lemma inv_announce (h : Inv c) (hcur : c.state.attempt = some id)
    (hwanted : c.state.wanted = some (c.state.attempts id).key) (hconn : c.state.connected)
    (hended : (c.state.attempts id).ended = none) (hl : (c.state.attempts id).lease = some l)
    (hsync : (c.state.attempts id).synced) (hnew : (c.state.attempts id).announced = false) :
    Inv (c.resume [] (Element.announce { c.state with settleQueued := false } id l)) := by
  have hfresh : id ∉ c.trace.filterMap Event.announces := fun hid => by
    have := (h.announced id hid).2
    simp [hnew] at this
  have hgood : (c.state.leases l).aborted = false := by
    by_contra hab
    exact (h.core.heard id l hl).2 (by simpa using hab) hended
  have hfirst : (c.state.leases l).firstSync := by
    obtain ⟨l', hl', hf⟩ := h.core.synced id hsync
    obtain rfl : l = l' := by simpa [hl] using hl'
    exact hf
  have hevents : (c.resume [] (Element.announce { c.state with settleQueued := false } id
      l)).trace.filterMap Event.announces = c.trace.filterMap Event.announces ++ [id] := by
    simp [Config.resume, Element.announce, List.filterMap_append, Event.announces]
  have hcore := h.core.unqueue.modifyAttempt id
    (fun attempt => { attempt with announced := true })
    (fun _ => rfl) (fun _ h => h) fun hs => .inl hs
  have hshows : Shows { c.state with settleQueued := false }
      (Frame.unregistering ∈ [.dispatching]) := by
    refine ⟨fun id' hid' => .inl ?_, fun _ _ => .inl hconn⟩
    obtain rfl : id = id' := by simpa [hcur] using hid'
    exact hwanted
  have hforward := Forward.modifyAttempt { c.state with settleQueued := false } id
    (fun attempt => { attempt with announced := true }) (fun _ => rfl) fun _ _ => rfl
  have hshown := hshows.modifyAttempt id
    (fun attempt => { attempt with announced := true }) fun _ => rfl
  refine ⟨hcore, hshown, ?_, ?_, fun id' hid' => ?_, fun e he => ?_, ?_⟩
  · intro id' hid'
    simp [Config.resume, Element.announce, Control.push] at hid'
  · intro id' above below heq
    have heq : [Frame.dispatching] = above ++ .acquiring id' :: below := heq
    have hmem : Frame.acquiring id' ∈ [Frame.dispatching] := heq ▸ by simp
    simp at hmem
  · rw [hevents, List.mem_append] at hid'
    rcases hid' with hid' | hid'
    · obtain ⟨hlt, ha⟩ := h.announced id' hid'
      exact ⟨hlt, hforward.announced id' hlt ha⟩
    · obtain rfl := List.mem_singleton.1 hid'
      refine ⟨h.core.started id' hcur, ?_⟩
      simp [Config.resume, Element.announce, Element.modifyAttempt]
  · rcases List.mem_append.1 he with he | he
    · exact h.due e he
    · obtain rfl := List.mem_singleton.1 he
      exact ⟨by simpa using hcur, by simpa using hgood, hfirst⟩
  · rw [hevents, List.nodup_append]
    refine ⟨h.once, by simp, ?_⟩
    rintro x hx y hy rfl
    obtain rfl := List.mem_singleton.1 hy
    exact hfresh hx

/-- The call of `store.acquire`. -/
lemma inv_acquiring (h : Inv c) (hcur : c.state.attempt = some id)
    (hwanted : c.state.wanted = some (c.state.attempts id).key) (hconn : c.state.connected)
    (hl : (c.state.attempts id).lease = none) :
    Inv (c.resume [] {
      state := { c.state with settleQueued := false }
      control := .awaits (.acquiring id) }) := by
  refine ⟨h.core.unqueue, ⟨fun id' hid' => .inl ?_, fun _ _ => .inl hconn⟩, fun id' hid' => ?_,
    fun id' above below heq => ?_, ?_, ?_, ?_⟩
  · obtain rfl : id = id' := by
      have hid' : c.state.attempt = some id' := hid'
      simpa [hcur] using hid'
    exact hwanted
  · have hid' : Frame.acquiring id' ∈ [Frame.acquiring id] := hid'
    obtain rfl : id' = id := by simpa using hid'
    exact ⟨h.core.started id' hcur, hl⟩
  · have heq : [Frame.acquiring id] = above ++ .acquiring id' :: below := heq
    cases above with
    | nil => exact (List.cons.inj heq).2.symm
    | cons f above =>
        have := congrArg List.length heq
        simp at this
  · simpa [Config.resume] using h.announced
  · simpa [Config.resume] using h.due
  · simpa [Config.resume] using h.once

/-- What a settle does, over the state it works on. -/
lemma settle_eq : s.settle =
    if !s.connected then Element.destroy { s with settleQueued := false }
    else
      match s.attempt with
      | some id =>
          if some (s.attempts id).key ≠ s.wanted then
            Element.abandon { s with settleQueued := false } .requestSettle
          else if s.wanted = s.stalledKey then { state := { s with settleQueued := false } }
          else Element.advance { s with settleQueued := false } id
      | none =>
          match s.wanted with
          | none => { state := { s with settleQueued := false } }
          | some key =>
              if s.stalledKey = some key then { state := { s with settleQueued := false } }
              else Element.start { s with settleQueued := false } key := rfl

/-- The next step of an attempt for the document that the element shows. -/
lemma inv_advance (h : Inv c) (hcur : c.state.attempt = some id)
    (hwanted : c.state.wanted = some (c.state.attempts id).key) (hconn : c.state.connected)
    (hresume : ∀ o : Out, Sound c.state [] o → Inv (c.resume [] o)) :
    Inv (c.resume [] (Element.advance { c.state with settleQueued := false } id)) := by
  have hf : Forward c.state { c.state with settleQueued := false } :=
    ⟨fun _ _ h => h, fun _ _ h => h, le_rfl⟩
  have hshows : Shows { c.state with settleQueued := false } (Frame.unregistering ∈ []) := by
    refine ⟨fun id' hid' => .inl ?_, fun _ _ => .inl hconn⟩
    have hid' : c.state.attempt = some id' := hid'
    obtain rfl : id = id' := by simpa [hcur] using hid'
    exact hwanted
  have hstay : Inv (c.resume [] { state := { c.state with settleQueued := false } }) :=
    hresume _ (sound_state h.core.unqueue hshows hf)
  unfold Element.advance
  split
  · exact hresume _ (sound_stall h.core.unqueue hf)
  · rename_i hended
    split
    · rename_i hl
      split
      · exact inv_acquiring h hcur hwanted hconn hl
      · exact hstay
    · rename_i l hl
      split
      · rename_i hsync
        obtain ⟨hsync, hnew⟩ := Bool.and_eq_true_iff.1 hsync
        exact inv_announce h hcur hwanted hconn hended hl hsync (by simpa using hnew)
      · exact hstay

/-- A settle drops an attempt that is over, and otherwise takes its next step. -/
lemma inv_settle (h : Inv c) : Inv (c.resume [] c.state.settle) := by
  have hcore := h.core.unqueue
  have hf : Forward c.state { c.state with settleQueued := false } :=
    ⟨fun _ _ h => h, fun _ _ h => h, le_rfl⟩
  have hresume : ∀ o : Out, Sound c.state [] o → Inv (c.resume [] o) := fun o ho =>
    h.resume (fun id hid => by simp at hid) (fun id above below heq => by simp at heq) ho
  rw [settle_eq]
  by_cases hconn : c.state.connected
  · rw [if_neg (by simpa using hconn)]
    split
    · rename_i id hcur
      by_cases hkey : some (c.state.attempts id).key ≠ c.state.wanted
      · rw [if_pos hkey]
        exact hresume _ (sound_abandon hcore hf)
      · rw [if_neg hkey]
        have hwanted : c.state.wanted = some (c.state.attempts id).key := (not_not.1 hkey).symm
        by_cases hstalled : c.state.wanted = c.state.stalledKey
        · rw [if_pos hstalled]
          refine hresume _ (sound_state hcore ⟨fun id' hid' => .inl ?_, fun _ _ => .inl hconn⟩ hf)
          have hid' : c.state.attempt = some id' := hid'
          obtain rfl : id = id' := by simpa [hcur] using hid'
          exact hwanted
        · rw [if_neg hstalled]
          exact inv_advance h hcur hwanted hconn hresume
    · rename_i hcur
      have hstay : Inv (c.resume [] { state := { c.state with settleQueued := false } }) :=
        hresume _ (sound_state hcore (.of_none hcur) hf)
      split
      · exact hstay
      · rename_i key hwanted
        by_cases hstalled : c.state.stalledKey = some key
        · rw [if_pos hstalled]
          exact hstay
        · rw [if_neg hstalled]
          have hs : Sound { c.state with settleQueued := false } [] _ :=
            sound_start hcore hwanted hconn hcur
          exact hresume _ ⟨hs.core, hs.shows, ⟨hs.forward.announced, hs.forward.lease,
            hs.forward.started⟩, hs.events, hs.calm⟩
  · rw [if_pos (by simpa using hconn)]
    exact hresume _ (sound_destroy hcore hf)

/-! ## An acquired lease -/

/-- A new lease goes to the current attempt, which had none. -/
lemma Core.attach (h : Core s) (hcur : s.attempt = some id) (hnone : (s.attempts id).lease = none)
    {lease : Lease} {ended : Option Report} (ho : lease.attempt = id)
    (hheard : lease.watched ∨ ended ≠ none) (hab : lease.aborted → ended ≠ none) :
    Core { s with
      leases := Function.update s.leases s.acquired lease
      acquired := s.acquired + 1
      attempts := Function.update s.attempts id
        { s.attempts id with lease := some s.acquired, ended := ended } } := by
  have hold : ∀ id' l, (s.attempts id').lease = some l →
      id' ≠ id ∧ Function.update s.leases s.acquired lease l = s.leases l := fun id' l hid' => by
    refine ⟨fun heq => by simp [heq, hnone] at hid', ?_⟩
    have := (h.lease id' l hid').1
    exact Function.update_of_ne (by omega) _ _
  have hnew : ∀ id' l, ((Function.update s.attempts id
      { s.attempts id with lease := some s.acquired, ended := ended }) id').lease = some l →
      id' = id ∧ l = s.acquired ∨ id' ≠ id ∧ (s.attempts id').lease = some l := by
    intro id' l hid'
    by_cases heq : id' = id
    · subst heq
      exact .inl ⟨rfl, by simpa [eq_comm] using hid'⟩
    · exact .inr ⟨heq, by simpa [heq] using hid'⟩
  refine ⟨fun l hlt => ?_, h.started, fun id' l hid' => ?_, fun id' l hid' => ?_, fun id' hs => ?_⟩
  · by_cases heq : l = s.acquired
    · exact .inr ⟨id, hcur, by simp [heq]⟩
    · have hlt : l < s.acquired := by
        have hlt : l < s.acquired + 1 := hlt
        omega
      rcases h.owned l hlt with ha | ⟨id', hid', hl⟩
      · exact .inl (by simpa [heq] using ha)
      · obtain rfl : id = id' := by simpa [hcur] using hid'
        simp [hnone] at hl
  · rcases hnew id' l hid' with ⟨rfl, rfl⟩ | ⟨hne, hid'⟩
    · exact ⟨Nat.lt_succ_self _, h.started id' hcur, by simpa using ho⟩
    · obtain ⟨hlt, hst, hown⟩ := h.lease id' l hid'
      refine ⟨Nat.lt_succ_of_lt hlt, hst, ?_⟩
      show (Function.update s.leases s.acquired lease l).attempt = id'
      rw [(hold id' l hid').2]
      exact hown
  · rcases hnew id' l hid' with ⟨rfl, rfl⟩ | ⟨hne, hid'⟩
    · simpa using ⟨hheard, hab⟩
    · simpa [hne, (hold id' l hid').2] using h.heard id' l hid'
  · by_cases heq : id' = id
    · subst heq
      obtain ⟨l, hl, -⟩ := h.synced id' (by simpa using hs)
      simp [hnone] at hl
    · obtain ⟨l, hl, hfirst⟩ := h.synced id' (by simpa [heq] using hs)
      exact ⟨l, by simpa [heq] using hl, by simpa [(hold id' l hl).2] using hfirst⟩

/-- A lease that reaches the current attempt keeps the invariant. -/
lemma inv_attach (h : Inv c) (hst : c.stack = [.acquiring id]) (hcur : c.state.attempt = some id)
    (lease : Lease) (ended : Option Report) (ho : lease.attempt = id)
    (hheard : lease.watched ∨ ended ≠ none) (hab : lease.aborted → ended ≠ none) :
    Inv (c.resume [] { state := { c.state with
      leases := Function.update c.state.leases c.state.acquired lease
      acquired := c.state.acquired + 1
      attempts := Function.update c.state.attempts id
        { c.state.attempts id with lease := some c.state.acquired, ended := ended } } }) := by
  obtain ⟨-, hnone⟩ := h.acquiring id (by simp [hst])
  have hsame : ∀ id', ((Function.update c.state.attempts id
      { c.state.attempts id with lease := some c.state.acquired, ended := ended }) id').key =
        (c.state.attempts id').key ∧
      ((Function.update c.state.attempts id
        { c.state.attempts id with lease := some c.state.acquired, ended := ended })
          id').announced = (c.state.attempts id').announced := fun id' => by
    by_cases heq : id' = id
    · subst heq
      simp
    · simp [heq]
  have hdestroying : (Frame.unregistering ∈ c.stack) → Frame.unregistering ∈ ([] : List Frame) := by
    rw [hst]
    simp
  refine ⟨h.core.attach hcur hnone ho hheard hab, ⟨fun id' hid' => ?_, fun id' hid' => ?_⟩,
    fun id' hid' => ?_, fun id' above below heq => ?_, fun id' hid' => ?_, ?_, ?_⟩
  · refine ((h.shows.imp hdestroying).wanted id' hid').imp_left fun hw => ?_
    refine Eq.trans ?_ (hw.trans (congrArg some (hsame id').1.symm))
    rfl
  · exact (h.shows.imp hdestroying).connected id' hid'
  · simp [Config.resume, Control.push] at hid'
  · simp [Config.resume, Control.push] at heq
  · have hid' : id' ∈ c.trace.filterMap Event.announces := by
      simpa [Config.resume] using hid'
    obtain ⟨hlt, ha⟩ := h.announced id' hid'
    refine ⟨hlt, ?_⟩
    show (Function.update c.state.attempts id _ id').announced
    rw [(hsame id').2]
    exact ha
  · simpa [Config.resume] using h.due
  · simpa [Config.resume] using h.once

/-- A settle may be requested on top. -/
lemma Inv.requestSettle (h : Inv (c.resume [] { state := s })) :
    Inv (c.resume [] { state := s.requestSettle }) :=
  ⟨h.core.requestSettle, h.shows.requestSettle, h.acquiring, h.bottom, h.announced, h.due, h.once⟩

lemma inv_acquire (h : Inv c) {rest : List Frame} (hst : c.stack = .acquiring id :: rest)
    {aborted blocked firstSync : Bool} (hcur : c.state.attempt = some id)
    (hgood : aborted → blocked) :
    Inv (c.resume rest (c.state.acquire id aborted blocked firstSync)) := by
  obtain rfl : rest = [] := h.bottom id [] rest hst
  cases blocked with
  | true =>
      have hinv := inv_attach h hst hcur ⟨id, aborted, firstSync, false⟩ (some .error) rfl
        (.inr (by simp)) fun _ => by simp
      have hout : c.state.acquire id aborted true firstSync = {
          state := Element.requestSettle { c.state with
            leases :=
              Function.update c.state.leases c.state.acquired ⟨id, aborted, firstSync, false⟩
            acquired := c.state.acquired + 1
            attempts := Function.update c.state.attempts id { c.state.attempts id with
              lease := some c.state.acquired, ended := some .error } } } := by
        simp [Element.acquire, Element.modifyAttempt]
      rw [hout]
      exact hinv.requestSettle
  | false =>
      have hab : aborted = false := by simpa using hgood
      have hinv := inv_attach h hst hcur ⟨id, aborted, firstSync, true⟩
        (c.state.attempts id).ended rfl (.inl rfl) fun ha => by simp [hab] at ha
      have hout : c.state.acquire id aborted false firstSync = {
          state := { c.state with
            leases := Function.update c.state.leases c.state.acquired ⟨id, aborted, firstSync, true⟩
            acquired := c.state.acquired + 1
            attempts := Function.update c.state.attempts id { c.state.attempts id with
              lease := some c.state.acquired, ended := (c.state.attempts id).ended } } } := by
        simp [Element.acquire, Element.modifyAttempt]
      rw [hout]
      exact hinv

/-! ## Runs -/

/-- The methods other than the settle. -/
lemma sound_call (h : Inv c) {x : Call} (hx : x ≠ .settle) :
    Sound c.state c.stack (machine.call c.state x) := by
  have hcore := h.core
  have hshows := h.shows
  cases x with
  | settle => exact absurd rfl hx
  | connect => exact sound_connect hcore hshows
  | disconnect =>
      exact sound_state ⟨hcore.owned, hcore.started, hcore.lease, hcore.heard, hcore.synced⟩
        ⟨hshows.wanted, fun _ _ => .inr (.inl rfl)⟩ ⟨fun _ _ h => h, fun _ _ h => h, le_rfl⟩
  | setAttribute field value => exact sound_setAttribute hcore hshows field value
  | activate => exact sound_activate hcore hshows
  | deactivate =>
      exact sound_abandon ⟨hcore.owned, hcore.started, hcore.lease, hcore.heard, hcore.synced⟩
        ⟨fun _ _ h => h, fun _ _ h => h, le_rfl⟩
  | retry => exact sound_retry hcore hshows
  | destroy => exact sound_destroy hcore (.refl _)
  | consumerLoaded id =>
      exact sound_modifyAttempt id _ hcore hshows (fun _ => rfl) (fun _ => rfl) (fun _ h => h)
        (fun _ h => h) fun hs => .inl hs
  | consumerFailed id =>
      exact sound_modifyAttempt id _ hcore hshows (fun _ => rfl) (fun _ => rfl) (fun _ h => h)
        (fun _ _ => by simp) fun hs => .inl hs
  | requestSettle =>
      exact sound_state hcore.requestSettle hshows.requestSettle
        ⟨fun _ _ h => h, fun _ _ h => h, le_rfl⟩
  | onSynced id => exact sound_onSynced hcore hshows
  | abort l report =>
      show Sound c.state c.stack (if (c.state.leases l).aborted then _ else _)
      by_cases ha : (c.state.leases l).aborted
      · rw [if_pos ha]
        exact sound_state hcore hshows (.refl _)
      · rw [if_neg ha]
        exact sound_state hcore.abort hshows.abort (.abort _ _ _)
  | firstSync l => exact sound_firstSync hcore hshows

/-- The continuations other than the return of a lease. -/
lemma sound_back (h : Inv c) {f : Frame} {rest : List Frame} (hst : c.stack = f :: rest) {r : Ret}
    (hr : ∀ aborted blocked firstSync, r ≠ .acquired aborted blocked firstSync)
    (ho : machine.back c.state f r = some o) : Sound c.state rest o := by
  have hcore := h.core
  have hrest : f ≠ .unregistering → Shows c.state (.unregistering ∈ rest) := fun hf => by
    refine h.shows.imp fun hmem => ?_
    rw [hst] at hmem
    exact (List.mem_cons.1 hmem).resolve_left hf.symm
  cases r with
  | acquired aborted blocked firstSync => exact absurd rfl (hr aborted blocked firstSync)
  | done =>
      cases f with
      | registering =>
          obtain rfl := Option.some.inj ho
          exact sound_state
            ⟨hcore.owned, hcore.started, hcore.lease, hcore.heard, hcore.synced⟩
            ⟨(hrest (by simp)).wanted, fun _ _ => .inr (.inl rfl)⟩
            ⟨fun _ _ h => h, fun _ _ h => h, le_rfl⟩
      | unregistering =>
          obtain rfl := Option.some.inj ho
          exact sound_abandon hcore (.refl _)
      | loading | dispatching =>
          obtain rfl := Option.some.inj ho
          exact sound_state hcore (hrest (by simp)) (.refl _)
      | releasing next =>
          obtain rfl := Option.some.inj ho
          exact sound_finish hcore (hrest (by simp)) (.refl _)
      | acquiring id => simp [machine] at ho
  | threw =>
      cases f with
      | acquiring id =>
          obtain rfl := Option.some.inj ho
          exact sound_stall hcore (.refl _)
      | _ => simp [machine] at ho

/-- One move keeps the invariant, if an acquired lease reaches the current attempt. -/
theorem inv_step (h : Inv c) (hok : Delivered c m) (hm : step c m = some c') : Inv c' := by
  obtain ⟨henabled, hm⟩ := Option.ite_none_right_eq_some.1 hm
  cases m with
  | call x =>
      obtain rfl := Option.some.inj hm
      by_cases hx : x = .settle
      · subst hx
        have hst : c.stack = [] := by
          simpa [enabled, Call.isMicrotask] using (Bool.and_eq_true_iff.1 henabled).1
        rw [hst]
        exact inv_settle h
      · exact h.resume h.acquiring h.bottom (sound_call h hx)
  | back r =>
      obtain ⟨f, rest, o, hst, ho, rfl⟩ := Machine.step_back_eq_some.1 hm
      obtain ⟨hacq, hbottom⟩ := h.tail hst
      cases r with
      | acquired aborted blocked firstSync =>
          cases f with
          | acquiring id =>
              obtain rfl := Option.some.inj ho
              obtain ⟨hcur, hgood⟩ := hok id rest hst
              exact inv_acquire h hst hcur hgood
          | _ => simp [machine] at ho
      | done => exact h.resume hacq hbottom (sound_back h hst (by simp) ho)
      | threw => exact h.resume hacq hbottom (sound_back h hst (by simp) ho)

/-- The invariant is what the element promises once it is quiet. -/
lemma Inv.settled (h : Inv c) : Settled c := by
  refine ⟨fun _ => h.core.owned, fun hquiet id l hcur _ => ?_, h.due, h.once⟩
  have hno : Frame.unregistering ∉ c.stack := by simp [hquiet.1]
  have hwanted := (h.shows.wanted id hcur).resolve_right hno
  have hconn : c.state.connected := by
    rcases h.shows.connected id hcur with hconn | hqueued | hdestroying
    · exact hconn
    · simp [hquiet.2] at hqueued
    · exact absurd hdestroying hno
  refine ⟨hconn, ?_, hwanted⟩
  unfold Element.wanted at hwanted
  exact (Option.ite_none_right_eq_some.1 hwanted).1.1

/-- **When the element keeps its promise.**  In every run, under any re-entrancy and any order of
microtasks, in which each acquired lease reaches the current attempt. -/
theorem settled_of_run {ms : List (Move Call Ret)} (hok : Transition.Along step Delivered init ms)
    (h : Transition.run step init ms = some c) : Settled c :=
  (Transition.run_invariant_along (fun _ _ _ hc hok hm => inv_step hc hok hm) inv_init hok
    h).settled

section Examples

/-- Connecting, naming a document, and the steps up to the call of `store.acquire`. -/
def untilAcquire : List (Move Call Ret) :=
  [.call .connect, .call .activate, .back .done, .call (.setAttribute .grant (some "g")),
    .call (.setAttribute .name (some "n")), .call .settle, .back .done, .call (.consumerLoaded 0),
    .call .requestSettle, .call .settle]

/-- A lease that arrives in time. -/
theorem settled_of_run_bound :
    ∃ c, Transition.run step init (untilAcquire ++ [.back (.acquired false false true)]) = some c ∧
      c.state.acquired = 1 ∧ Settled c := by
  have hbefore : (Transition.run step init untilAcquire).map
      (fun c => (c.state.attempt, c.stack)) = some (some 0, [.acquiring 0]) := by decide
  have hafter : (Transition.run step init
      (untilAcquire ++ [.back (.acquired false false true)])).map (fun c => c.state.acquired) =
        some 1 := by decide
  obtain ⟨c, hc, hacquired⟩ := Option.map_eq_some_iff.1 hafter
  have hfirst : Transition.Along step Delivered init untilAcquire := by
    refine .of_forall fun m hm s => ?_
    simp only [untilAcquire, List.mem_cons, List.not_mem_nil, or_false] at hm
    rcases hm with rfl | rfl | rfl | rfl | rfl | rfl | rfl | rfl | rfl | rfl <;> trivial
  have hlast : ∀ t, Transition.run step init untilAcquire = some t →
      Transition.Along step Delivered t [.back (.acquired false false true)] := by
    intro t ht
    refine ⟨fun id rest hst => ?_, fun _ _ => trivial⟩
    rw [ht] at hbefore
    obtain ⟨hcur, hstack⟩ := Prod.mk.inj (Option.some.inj hbefore)
    obtain ⟨hid, -⟩ := List.cons.inj (hst.symm.trans hstack)
    obtain rfl := Frame.acquiring.inj hid
    exact ⟨hcur, fun h => h⟩
  exact ⟨c, hc, hacquired, settled_of_run (hfirst.append hlast) hc⟩

/-- The provider that `store.acquire` runs changes the grant: the attempt is over when its lease
arrives, the element settles on a new one, and nobody holds or releases the first lease. -/
theorem lease_leaked :
    ∃ c, Transition.run step init (untilAcquire ++
        [.call (.setAttribute .grant (some "h")), .back (.acquired false false true),
          .call .settle, .back .done]) = some c ∧ ¬Settled c := by
  have hrun : (Transition.run step init (untilAcquire ++
      [.call (.setAttribute .grant (some "h")), .back (.acquired false false true),
        .call .settle, .back .done])).map (fun c =>
          (c.stack, c.state.settleQueued, c.state.acquired, (c.state.leases 0).aborted,
            c.state.attempt, (c.state.attempts 1).lease)) =
      some ([], false, 1, false, some 1, none) := rfl
  obtain ⟨c, hc, hfacts⟩ := Option.map_eq_some_iff.1 hrun
  simp only [Prod.mk.injEq] at hfacts
  obtain ⟨hstack, hqueued, hacquired, haborted, hcur, hlease⟩ := hfacts
  refine ⟨c, hc, fun h => ?_⟩
  rcases h.released ⟨hstack, hqueued⟩ 0 (by omega) with ha | ⟨id, hid, hl⟩
  · simp [haborted] at ha
  · obtain rfl : 1 = id := by simpa [hcur] using hid
    simp [hlease] at hl

end Examples

end Yrby.DocumentElement
