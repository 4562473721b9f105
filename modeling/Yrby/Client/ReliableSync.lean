import Yrby.Framework.Reentrant
import Yrby.Framework.Wire

/-!
# The client's delivery queue (`reliable_sync.ts`)

`ReliableSync` numbers local updates, keeps them queued until the server acknowledges them, and
sends the whole queue as one merged delta: at once, on every tick of a timer, and when the
transport comes back.  Four functions are injected into it (`send`, `merge`, `setInterval`,
`clearInterval`) and each of them may call back into the object, so the class is a re-entrant
machine.  Every definition below runs up to the next injected call; `Frame` says what is left to
do when that call comes back.

Sequence numbers and the version counter are natural numbers.  Timer objects are numbered in the
order they are created, and `stops` is the `stop` closure each one currently holds.

The second half is about acknowledgements.  `acknowledge` compares an id with the newest
*queued* number, and its comment says it ignores an id beyond anything *sent*.
`acknowledge_removes_only_sent_iff` says exactly on which runs the two agree.
-/

namespace Yrby

open Wire Reentrant Transition

/-- A value off the wire where the code expects a number: an integral number, or anything else
(a fraction, `NaN`, a string). -/
inductive JsValue
  | integer (n : ℤ)
  | other

/-- `Number.MAX_SAFE_INTEGER` -/
def maxSafeInteger : ℤ := 2 ^ 53 - 1

/-- `Number.isSafeInteger` -/
def JsValue.isSafeInteger : JsValue → Bool
  | .integer n => decide (-maxSafeInteger ≤ n ∧ n ≤ maxSafeInteger)
  | .other => false

namespace ReliableSync

/-- One queued update and the sequence number an ack must reach to remove it. -/
structure Pending where
  seq : ℕ
  update : Bytes
  deriving DecidableEq

inductive Phase
  | paused
  | live
  | destroyed
  deriving DecidableEq

/-- The memoized merge of the queue.  `parts` is not in the source: it records which queued
updates went into `bytes`. -/
structure Tail where
  bytes : Bytes
  parts : List Pending

abbrev Handle := ℕ

structure State where
  pending : List Pending := []
  nextSeq : ℕ := 1
  phase : Phase := .paused
  timer : Option ℕ := none
  version : ℕ := 0
  tail : Option Tail := none
  /-- `timer.stop` of every timer object: a no-op until `setInterval` has returned its handle. -/
  stops : ℕ → Option Handle := fun _ => none
  /-- How many timer objects have been created. -/
  timers : ℕ := 0

/-- The public methods, and a tick of the callback handed to `setInterval` for a timer. -/
inductive Call
  | enqueue (update : Bytes)
  | acknowledge (id : JsValue)
  | resume
  | pause
  | retransmit
  | destroy
  | tick (timer : ℕ)

/-- What a method still does after `#updateTimer`. -/
inductive Next
  | flush
  | done

/-- The injected call that is in progress, with what its caller remembers. -/
inductive Frame
  | send
  | merge (version : ℕ) (parts : List Pending)
  | setInterval (timer : ℕ) (next : Next)
  | clearInterval (next : Next)

/-- What an injected function comes back with. -/
inductive Ret
  | unit
  | bytes (b : Bytes)
  | handle (h : Handle)
  | threw

inductive Event
  | merge (updates : List Bytes)
  | send (update : Bytes) (id : ℕ) (parts : List Pending)
  | setInterval (timer : ℕ)
  | created (timer : ℕ) (h : Handle)
  | clearInterval (h : Handle)

abbrev Out := Outcome State Frame Event
abbrev Cfg := Config State Frame Event

/-! ## The methods -/

/-- `this.#send(this.#tail, this.#pending.at(-1)!.seq)` -/
def transmit (s : State) : Out :=
  match s.tail, s.pending.getLast? with
  | some tail, some newest =>
      { state := s, events := [.send tail.bytes newest.seq tail.parts], control := .awaits .send }
  | _, _ => { state := s, control := .threw }

/-- `#flush` -/
def flush (s : State) : Out :=
  if s.phase ≠ .live ∨ s.pending = [] then { state := s }
  else
    match s.tail with
    | some _ => transmit s
    | none =>
        match s.pending with
        | [only] => transmit { s with tail := some ⟨only.update, [only]⟩ }
        | parts =>
            { state := s, events := [.merge (parts.map Pending.update)],
              control := .awaits (.merge s.version parts) }

def proceed (s : State) : Next → Out
  | .flush => flush s
  | .done => { state := s }

/-- `timer.stop()` -/
def stopTimer (s : State) (timer : ℕ) (next : Next) : Out :=
  match s.stops timer with
  | none => proceed s next
  | some h => { state := s, events := [.clearInterval h], control := .awaits (.clearInterval next) }

/-- `#updateTimer`, then `next` -/
def updateTimer (s : State) (next : Next) : Out :=
  let wanted := s.phase = .live ∧ s.pending ≠ []
  match s.timer with
  | some timer =>
      if wanted then proceed s next else stopTimer { s with timer := none } timer next
  | none =>
      if wanted then
        { state := { s with timer := some s.timers, timers := s.timers + 1 },
          events := [.setInterval s.timers], control := .awaits (.setInterval s.timers next) }
      else proceed s next

/-- `#queueChanged`, then `next` -/
def queueChanged (s : State) (next : Next) : Out :=
  updateTimer { s with version := s.version + 1, tail := none } next

def enqueue (s : State) (update : Bytes) : Out :=
  if s.phase = .destroyed then { state := s }
  else
    queueChanged
      { s with pending := s.pending ++ [⟨s.nextSeq, update⟩], nextSeq := s.nextSeq + 1 } .flush

/-- The guard of `acknowledge`: the id gets past it and prunes the queue. -/
def ackAccepted (s : State) : JsValue → Bool
  | .other => false
  | .integer n =>
      decide (s.phase ≠ .destroyed) && (JsValue.integer n).isSafeInteger && decide (0 ≤ n) &&
        match s.pending.getLast? with
        | some newest => decide (n ≤ newest.seq)
        | none => true

def acknowledge (s : State) (id : JsValue) : Out :=
  match id with
  | .integer n =>
      if ackAccepted s (.integer n) then
        queueChanged { s with pending := s.pending.filter fun p => decide (n < p.seq) } .done
      else { state := s }
  | .other => { state := s }

def resume (s : State) : Out :=
  if s.phase = .destroyed then { state := s }
  else updateTimer { s with phase := .live, version := s.version + 1 } .flush

def pause (s : State) : Out :=
  if s.phase = .destroyed then { state := s }
  else updateTimer { s with phase := .paused, version := s.version + 1 } .done

def retransmit (s : State) : Out := flush s

def destroy (s : State) : Out :=
  if s.phase = .destroyed then { state := s }
  else queueChanged { s with phase := .destroyed, pending := [] } .done

/-- The callback given to `setInterval` for a timer. -/
def tick (s : State) (timer : ℕ) : Out :=
  if s.timer = some timer then flush s else { state := s }

def call (s : State) : Call → Out
  | .enqueue update => enqueue s update
  | .acknowledge id => acknowledge s id
  | .resume => resume s
  | .pause => pause s
  | .retransmit => retransmit s
  | .destroy => destroy s
  | .tick timer => tick s timer

/-- What follows an injected call. -/
def back (s : State) : Frame → Ret → Option Out
  | .send, .unit => some { state := s }
  | .send, .threw => some { state := s, control := .threw }
  | .merge version parts, .bytes b =>
      -- merge may have changed the queue, paused, or already sent through a nested resume
      if s.version ≠ version then some { state := s }
      else some (transmit { s with tail := some ⟨b, parts⟩ })
  | .merge _ _, .threw => some { state := s, control := .threw }
  | .setInterval timer next, .handle h =>
      let s := { s with stops := Function.update s.stops timer (some h) }
      let o := if s.timer ≠ some timer then stopTimer s timer next else proceed s next
      some { o with events := .created timer h :: o.events }
  | .setInterval timer _, .threw =>
      some { state := if s.timer = some timer then { s with timer := none } else s,
             control := .threw }
  | .clearInterval next, .unit => some (proceed s next)
  | .clearInterval _, .threw => some { state := s, control := .threw }
  | _, _ => none

/-- The class as a re-entrant machine. -/
def machine : Machine State Call Frame Ret Event := ⟨call, back⟩

/-- `new ReliableSync(opts)` -/
def init : Cfg := { state := {} }

/-- `get hasPending` -/
def State.hasPending (s : State) : Bool := !s.pending.isEmpty

/-! ## What has been sent -/

/-- The queued updates that went into some delta passed to `send`. -/
def sentParts (trace : List Event) : List Pending :=
  trace.flatMap fun
    | .send _ _ parts => parts
    | _ => []

/-- The highest id passed to `send`, or zero. -/
def lastSent : List Event → ℕ
  | [] => 0
  | .send _ id _ :: trace => max id (lastSent trace)
  | _ :: trace => lastSent trace

lemma lastSent_append (xs ys : List Event) :
    lastSent (xs ++ ys) = max (lastSent xs) (lastSent ys) := by
  induction xs with
  | nil => simp [lastSent]
  | cons e xs ih => cases e <;> simp [lastSent, ih, max_assoc]

lemma sentParts_append (xs ys : List Event) :
    sentParts (xs ++ ys) = sentParts xs ++ sentParts ys := by
  simp [sentParts]

lemma lastSent_eq_zero {es : List Event} (h : ∀ u id parts, .send u id parts ∉ es) :
    lastSent es = 0 := by
  induction es with
  | nil => rfl
  | cons e es ih =>
      have hrest := ih fun u id parts hmem => h u id parts (List.mem_cons_of_mem e hmem)
      cases e with
      | send u id parts => exact absurd List.mem_cons_self (h u id parts)
      | _ => exact hrest

lemma sentParts_eq_nil {es : List Event} (h : ∀ u id parts, .send u id parts ∉ es) :
    sentParts es = [] := by
  refine List.flatMap_eq_nil_iff.2 fun e he => ?_
  cases e with
  | send u id parts => exact absurd he (h u id parts)
  | _ => rfl

lemma le_lastSent {trace : List Event} {u : Bytes} {id : ℕ} {parts : List Pending}
    (h : .send u id parts ∈ trace) : id ≤ lastSent trace := by
  obtain ⟨pre, post, rfl⟩ := List.mem_iff_append.1 h
  simp only [lastSent_append, lastSent]
  omega

/-! ## The invariant of the queue -/

section Queue

-- What `merge` returns, as a relation between the merged bytes and the queued updates.
variable (merged : Bytes → List Pending → Prop)

/-- What holds between calls: the queue is a run of consecutive numbers ending at the last one
given out, the memoized tail is the merge of exactly the queue, and every queued update not
above the last id sent was part of a delta that was sent, and of every delta that was sent under
an id not below its number. -/
structure QueueInv (s : State) (trace : List Event) : Prop where
  sorted : s.pending.Pairwise fun p q => p.seq < q.seq
  lt_nextSeq : ∀ p ∈ s.pending, p.seq < s.nextSeq
  contiguous : ∀ p ∈ s.pending, ∀ m, p.seq ≤ m → m < s.nextSeq → ∃ q ∈ s.pending, q.seq = m
  tail : ∀ t, s.tail = some t → t.parts = s.pending ∧ merged t.bytes t.parts
  lastSent_lt : lastSent trace < s.nextSeq
  sent_le : ∀ p ∈ sentParts trace, p.seq ≤ lastSent trace
  sent : ∀ p ∈ s.pending, p.seq ≤ lastSent trace → p ∈ sentParts trace
  sent_merged : ∀ u id parts, .send u id parts ∈ trace → merged u parts
  sent_parts : ∀ u id parts, .send u id parts ∈ trace → ∀ p ∈ s.pending, p.seq ≤ id → p ∈ parts
  /-- Nothing that was never sent has left the queue. -/
  unsent : s.phase ≠ .destroyed →
    ∀ m, lastSent trace < m → m < s.nextSeq → ∃ q ∈ s.pending, q.seq = m

/-- A merge in progress knows the queue it was started on, as long as the version stands. -/
def FrameInv (s : State) (_ : List Event) : Frame → Prop
  | .merge version parts => version ≤ s.version ∧ (version = s.version → parts = s.pending)
  | _ => True

abbrev QueueKeeps := Keeps (QueueInv merged) FrameInv

variable {merged}

lemma queueInv_init : QueueInv merged {} [] :=
  ⟨by simp, by simp, by simp, by simp, by simp [lastSent], by simp [sentParts], by simp,
    by simp, by simp, fun _ m h₁ h₂ => by simp [lastSent] at h₁ h₂; omega⟩

/-- The invariant reads only the queue, its number supply, the phase and the tail. -/
lemma QueueInv.congr {s s' : State} {trace : List Event} (h : QueueInv merged s trace)
    (hp : s'.pending = s.pending) (hn : s'.nextSeq = s.nextSeq)
    (hph : s'.phase ≠ .destroyed → s.phase ≠ .destroyed)
    (ht : ∀ t, s'.tail = some t → t.parts = s.pending ∧ merged t.bytes t.parts) :
    QueueInv merged s' trace := by
  constructor
  · simpa only [hp] using h.sorted
  · simpa only [hp, hn] using h.lt_nextSeq
  · simpa only [hp, hn] using h.contiguous
  · simpa only [hp] using ht
  · simpa only [hn] using h.lastSent_lt
  · exact h.sent_le
  · simpa only [hp] using h.sent
  · exact h.sent_merged
  · simpa only [hp] using h.sent_parts
  · simpa only [hp, hn] using fun hd => h.unsent (hph hd)

lemma QueueInv.newest {s : State} {trace : List Event} (h : QueueInv merged s trace)
    {newest : Pending} (hlast : s.pending.getLast? = some newest) : newest.seq + 1 = s.nextSeq := by
  obtain ⟨front, hfront⟩ := List.getLast?_eq_some_iff.1 hlast
  have hmem : newest ∈ s.pending := by simp [hfront]
  have hlt := h.lt_nextSeq newest hmem
  obtain ⟨q, hq, hqs⟩ := h.contiguous newest hmem (s.nextSeq - 1) (by omega) (by omega)
  -- the queue is sorted, so no number in it exceeds the last one
  have hle : q.seq ≤ newest.seq := by
    rw [hfront] at hq
    rcases List.mem_append.1 hq with hq | hq
    · have := (List.pairwise_append.1 (hfront ▸ h.sorted)).2.2 q hq newest (by simp)
      omega
    · rw [List.mem_singleton.1 hq]
  omega

/-- Events that send nothing leave the invariant alone. -/
lemma QueueInv.quiet {s : State} {trace : List Event} (h : QueueInv merged s trace)
    {es : List Event} (hes : ∀ u id parts, .send u id parts ∉ es) :
    QueueInv merged s (trace ++ es) := by
  have hl : lastSent (trace ++ es) = lastSent trace := by
    simp [lastSent_append, lastSent_eq_zero hes]
  have hs : sentParts (trace ++ es) = sentParts trace := by
    simp [sentParts_append, sentParts_eq_nil hes]
  have hmem : ∀ {u id parts}, .send u id parts ∈ trace ++ es → .send u id parts ∈ trace :=
    fun h => (List.mem_append.1 h).resolve_right (hes _ _ _)
  exact ⟨h.sorted, h.lt_nextSeq, h.contiguous, h.tail, hl ▸ h.lastSent_lt,
    hl ▸ hs ▸ h.sent_le, hl ▸ hs ▸ h.sent, fun u id parts h' => h.sent_merged u id parts (hmem h'),
    fun u id parts h' => h.sent_parts u id parts (hmem h'), hl ▸ h.unsent⟩

/-- Sending the merge of the whole queue covers it. -/
lemma QueueInv.sent_tail {s : State} {trace : List Event} (h : QueueInv merged s trace) {t : Tail}
    (ht : s.tail = some t) {newest : Pending} (hlast : s.pending.getLast? = some newest) :
    QueueInv merged s (trace ++ [.send t.bytes newest.seq t.parts]) := by
  have hnew := h.newest hlast
  have hlt := h.lastSent_lt
  have hl : lastSent (trace ++ [.send t.bytes newest.seq t.parts]) = newest.seq := by
    simp only [lastSent_append, lastSent]
    omega
  obtain ⟨hparts, hmerged⟩ := h.tail t ht
  have hs : sentParts (trace ++ [.send t.bytes newest.seq t.parts]) =
      sentParts trace ++ s.pending := by
    simp [sentParts, hparts]
  refine ⟨h.sorted, h.lt_nextSeq, h.contiguous, h.tail, ?_, ?_, ?_, ?_, ?_, ?_⟩
  · omega
  · intro p hp
    rw [hl]
    rcases List.mem_append.1 (hs ▸ hp) with hp | hp
    · have := h.sent_le p hp
      omega
    · have := h.lt_nextSeq p hp
      omega
  · intro p hp _
    rw [hs]
    exact List.mem_append_right _ hp
  · intro u id parts hmem
    rcases List.mem_append.1 hmem with hmem | hmem
    · exact h.sent_merged u id parts hmem
    · obtain ⟨rfl, -, rfl⟩ := Event.send.inj (List.mem_singleton.1 hmem)
      exact hmerged
  · intro u id parts hmem p hp hle
    rcases List.mem_append.1 hmem with hmem | hmem
    · exact h.sent_parts u id parts hmem p hp hle
    · obtain ⟨-, -, rfl⟩ := Event.send.inj (List.mem_singleton.1 hmem)
      rwa [hparts]
  · intro _ m hm hm'
    omega

lemma QueueInv.enqueue {s : State} {trace : List Event} (h : QueueInv merged s trace)
    (update : Bytes) {s' : State} (hp : s'.pending = s.pending ++ [⟨s.nextSeq, update⟩])
    (hn : s'.nextSeq = s.nextSeq + 1) (hph : s'.phase = s.phase) (ht : s'.tail = none) :
    QueueInv merged s' trace := by
  have hlt := h.lastSent_lt
  constructor
  · rw [hp, List.pairwise_append]
    exact ⟨h.sorted, by simp, fun p hp q hq => by
      rw [List.mem_singleton.1 hq]
      exact h.lt_nextSeq p hp⟩
  · intro p hmem
    rw [hp] at hmem
    rcases List.mem_append.1 hmem with hmem | hmem
    · have := h.lt_nextSeq p hmem
      omega
    · rw [List.mem_singleton.1 hmem]
      simp [hn]
  · intro p hmem m hpm hm
    rw [hp] at hmem ⊢
    by_cases hmn : m = s.nextSeq
    · exact ⟨_, List.mem_append_right _ (List.mem_singleton_self _), hmn.symm⟩
    · rcases List.mem_append.1 hmem with hmem | hmem
      · obtain ⟨q, hq, rfl⟩ := h.contiguous p hmem m hpm (by omega)
        exact ⟨q, List.mem_append_left _ hq, rfl⟩
      · rw [List.mem_singleton.1 hmem] at hpm
        simp only at hpm
        omega
  · simp [ht]
  · omega
  · exact h.sent_le
  · intro p hmem hle
    rw [hp] at hmem
    rcases List.mem_append.1 hmem with hmem | hmem
    · exact h.sent p hmem hle
    · rw [List.mem_singleton.1 hmem] at hle
      simp only at hle
      omega
  · exact h.sent_merged
  · intro u id parts hsend p hmem hle
    rw [hp] at hmem
    rcases List.mem_append.1 hmem with hmem | hmem
    · exact h.sent_parts u id parts hsend p hmem hle
    · -- the new number is beyond everything sent
      have := le_lastSent hsend
      rw [List.mem_singleton.1 hmem] at hle
      simp only at hle
      omega
  · intro hd m hm hmn
    rw [hp]
    by_cases hmn' : m = s.nextSeq
    · exact ⟨_, List.mem_append_right _ (List.mem_singleton_self _), hmn'.symm⟩
    · obtain ⟨q, hq, rfl⟩ := h.unsent (hph ▸ hd) m hm (by omega)
      exact ⟨q, List.mem_append_left _ hq, rfl⟩

/-- Pruning up to an id that was sent, or pruning an empty queue. -/
lemma QueueInv.prune {s : State} {trace : List Event} (h : QueueInv merged s trace) {n : ℤ}
    (hn : s.pending ≠ [] → n ≤ lastSent trace) {s' : State}
    (hp : s'.pending = s.pending.filter fun p => decide (n < p.seq))
    (hs : s'.nextSeq = s.nextSeq) (hph : s'.phase = s.phase) (ht : s'.tail = none) :
    QueueInv merged s' trace := by
  have hmem : ∀ p, p ∈ s'.pending ↔ p ∈ s.pending ∧ n < p.seq := by simp [hp]
  constructor
  · rw [hp]
    exact h.sorted.filter _
  · intro p hp'
    rw [hs]
    exact h.lt_nextSeq p ((hmem p).1 hp').1
  · intro p hp' m hpm hm
    obtain ⟨hp₁, hp₂⟩ := (hmem p).1 hp'
    obtain ⟨q, hq, rfl⟩ := h.contiguous p hp₁ m hpm (hs ▸ hm)
    exact ⟨q, (hmem q).2 ⟨hq, by omega⟩, rfl⟩
  · simp [ht]
  · simpa [hs] using h.lastSent_lt
  · exact h.sent_le
  · intro p hp' hle
    exact h.sent p ((hmem p).1 hp').1 hle
  · exact h.sent_merged
  · intro u id parts hsend p hp' hle
    exact h.sent_parts u id parts hsend p ((hmem p).1 hp').1 hle
  · intro hd m hm hmn
    obtain ⟨q, hq, rfl⟩ := h.unsent (hph ▸ hd) m hm (hs ▸ hmn)
    have := hn (List.ne_nil_of_mem hq)
    exact ⟨q, (hmem q).2 ⟨hq, by omega⟩, rfl⟩

/-! ## Every stretch of code keeps the invariant -/

lemma FrameInv.congr {s s' : State} {trace trace' : List Event} {f : Frame}
    (h : FrameInv s trace f) (hv : s'.version = s.version) (hp : s'.pending = s.pending) :
    FrameInv s' trace' f := by
  cases f <;> simp_all [FrameInv]

/-- Once the version has moved on, a merge in progress is stale. -/
lemma FrameInv.bump {s s' : State} {trace trace' : List Event} {f : Frame}
    (h : FrameInv s trace f) (hv : s'.version = s.version + 1) : FrameInv s' trace' f := by
  cases f with
  | merge version parts =>
      obtain ⟨hle, -⟩ := h
      exact ⟨by omega, by omega⟩
  | _ => trivial

lemma keeps_transmit {s : State} {trace : List Event} (h : QueueInv merged s trace) :
    QueueKeeps merged s trace (transmit s) := by
  unfold transmit
  split
  · rename_i t newest ht hlast
    exact .of_await rfl rfl rfl (h.sent_tail ht hlast) (fun f hf => hf.congr rfl rfl) trivial
  · exact .of_end rfl rfl (by simp) h fun f hf => hf

variable (hsingle : ∀ p, merged p.update [p])
include hsingle

lemma keeps_flush {s : State} {trace : List Event} (h : QueueInv merged s trace) :
    QueueKeeps merged s trace (flush s) := by
  unfold flush
  split
  · exact .of_end rfl rfl (by simp) h fun f hf => hf
  · split
    · exact keeps_transmit h
    · split
      · rename_i only hp
        refine .of_state (keeps_transmit (h.congr rfl rfl id fun t ht => ?_))
          fun f hf => hf.congr rfl rfl
        obtain rfl := Option.some.inj ht
        exact ⟨hp.symm, hsingle only⟩
      · exact .of_await rfl rfl rfl (h.quiet (by simp)) (fun f hf => hf.congr rfl rfl)
          ⟨le_rfl, fun _ => rfl⟩

lemma keeps_proceed {s : State} {trace : List Event} (h : QueueInv merged s trace) (next : Next) :
    QueueKeeps merged s trace (proceed s next) := by
  cases next with
  | flush => exact keeps_flush hsingle h
  | done => exact .of_end rfl rfl (by simp [proceed]) h fun f hf => hf

lemma keeps_stopTimer {s : State} {trace : List Event} (h : QueueInv merged s trace) (timer : ℕ)
    (next : Next) : QueueKeeps merged s trace (stopTimer s timer next) := by
  unfold stopTimer
  split
  · exact keeps_proceed hsingle h next
  · exact .of_await rfl rfl rfl (h.quiet (by simp)) (fun f hf => hf.congr rfl rfl) trivial

lemma keeps_updateTimer {s : State} {trace : List Event} (h : QueueInv merged s trace)
    (next : Next) : QueueKeeps merged s trace (updateTimer s next) := by
  simp only [updateTimer]
  split
  · split
    · exact keeps_proceed hsingle h next
    · refine .of_state (keeps_stopTimer hsingle ?_ _ next) fun f hf => hf.congr rfl rfl
      exact h.congr rfl rfl id h.tail
  · split
    · refine .of_await rfl rfl rfl (.quiet ?_ (by simp)) (fun f hf => hf.congr rfl rfl) trivial
      exact h.congr rfl rfl id h.tail
    · exact keeps_proceed hsingle h next

lemma keeps_back {s : State} {trace : List Event} (h : QueueInv merged s trace) {f : Frame}
    {r : Ret} {o : Out} (hf : FrameInv s trace f)
    (hmerge : ∀ version parts b, f = .merge version parts → r = .bytes b → merged b parts)
    (ho : back s f r = some o) : QueueKeeps merged s trace o := by
  cases f with
  | send =>
      cases r <;> simp only [back, Option.some.injEq, reduceCtorEq] at ho <;> subst ho <;>
        exact .of_end rfl rfl (by simp) h fun f hf => hf
  | merge version parts =>
      cases r with
      | bytes b =>
          simp only [back] at ho
          split at ho
          · obtain rfl := Option.some.inj ho
            exact .of_end rfl rfl (by simp) h fun f hf => hf
          · rename_i hv
            obtain rfl := Option.some.inj ho
            refine .of_state (keeps_transmit (h.congr rfl rfl id fun t ht => ?_))
              fun f hf => hf.congr rfl rfl
            obtain rfl := Option.some.inj ht
            exact ⟨hf.2 (not_not.1 hv).symm, hmerge version parts b rfl rfl⟩
      | threw =>
          obtain rfl := Option.some.inj ho
          exact .of_end rfl rfl (by simp) h fun f hf => hf
      | _ => simp [back] at ho
  | setInterval timer next =>
      cases r with
      | handle hd =>
          obtain rfl := Option.some.inj ho
          have h' : QueueInv merged { s with stops := Function.update s.stops timer (some hd) }
              (trace ++ [.created timer hd]) := by
            refine .quiet ?_ (by simp)
            exact h.congr rfl rfl id h.tail
          refine .emit ?_ fun f hf => hf.congr rfl rfl
          split
          · exact .of_state (keeps_stopTimer hsingle h' timer next) fun f hf => hf.congr rfl rfl
          · exact .of_state (keeps_proceed hsingle h' next) fun f hf => hf.congr rfl rfl
      | threw =>
          obtain rfl := Option.some.inj ho
          split
          · exact .of_end rfl rfl (by simp) (h.congr rfl rfl id h.tail)
              fun f hf => hf.congr rfl rfl
          · exact .of_end rfl rfl (by simp) h fun f hf => hf
      | _ => simp [back] at ho
  | clearInterval next =>
      cases r with
      | unit =>
          obtain rfl := Option.some.inj ho
          exact keeps_proceed hsingle h next
      | threw =>
          obtain rfl := Option.some.inj ho
          exact .of_end rfl rfl (by simp) h fun f hf => hf
      | _ => simp [back] at ho

/-- Every method keeps the invariant, `acknowledge` as long as the id it accepts was sent. -/
lemma keeps_call {s : State} {trace : List Event} (h : QueueInv merged s trace) (c : Call)
    (hack : ∀ n : ℤ, c = .acknowledge (.integer n) → ackAccepted s (.integer n) →
      s.pending ≠ [] → n ≤ lastSent trace) : QueueKeeps merged s trace (call s c) := by
  have stay : QueueKeeps merged s trace { state := s } := .of_end rfl rfl (by simp) h fun f hf => hf
  cases c with
  | enqueue update =>
      simp only [call, enqueue]
      split
      · exact stay
      · refine .of_state (keeps_updateTimer hsingle ?_ .flush) fun f hf => hf.bump rfl
        exact h.enqueue update rfl rfl rfl rfl
  | acknowledge id =>
      cases id with
      | other => exact stay
      | integer n =>
          simp only [call, acknowledge]
          split
          · rename_i hacc
            refine .of_state (keeps_updateTimer hsingle ?_ .done) fun f hf => hf.bump rfl
            exact h.prune (hack n rfl hacc) rfl rfl rfl rfl
          · exact stay
  | resume =>
      simp only [call, resume]
      split
      · exact stay
      · rename_i hd
        refine .of_state (keeps_updateTimer hsingle ?_ .flush) fun f hf => hf.bump rfl
        exact h.congr rfl rfl (fun _ => hd) h.tail
  | pause =>
      simp only [call, pause]
      split
      · exact stay
      · rename_i hd
        refine .of_state (keeps_updateTimer hsingle ?_ .done) fun f hf => hf.bump rfl
        exact h.congr rfl rfl (fun _ => hd) h.tail
  | retransmit => exact keeps_flush hsingle h
  | destroy =>
      simp only [call, destroy]
      split
      · exact stay
      · refine .of_state (keeps_updateTimer hsingle ?_ .done) fun f hf => hf.bump rfl
        exact ⟨by simp, by simp, by simp, by simp, h.lastSent_lt, h.sent_le, by simp, h.sent_merged,
          by simp, by simp⟩
  | tick timer =>
      simp only [call, tick]
      split
      · exact keeps_flush hsingle h
      · exact stay

/-- An id that the guard of `acknowledge` lets through to a non-empty queue is not beyond the
last id passed to `send`. -/
def AckWithinSent (c : Cfg) (m : Move Call Ret) : Prop :=
  ∀ n : ℤ, m = .call (.acknowledge (.integer n)) → ackAccepted c.state (.integer n) →
    c.state.pending ≠ [] → n ≤ lastSent c.trace

/-- A `merge` that returns in this move returns the merge of what it was given. -/
def MergesQueue (merged : Bytes → List Pending → Prop) (c : Cfg) (m : Move Call Ret) : Prop :=
  ∀ version parts rest b, c.stack = .merge version parts :: rest → m = .back (.bytes b) →
    merged b parts

abbrev CfgInv (merged : Bytes → List Pending → Prop) (c : Cfg) : Prop :=
  c.Inv (QueueInv merged) FrameInv

omit hsingle in
lemma cfgInv_init : CfgInv merged init := ⟨queueInv_init, by simp [init]⟩

lemma cfgInv_step {c c' : Cfg} {m : Move Call Ret} (h : CfgInv merged c)
    (hok : AckWithinSent c m) (hmerge : MergesQueue merged c m)
    (hm : machine.step c m = some c') : CfgInv merged c' := by
  refine h.step (fun x hx => keeps_call hsingle h.state x fun n hn => hok n (hn ▸ hx))
    (fun f rest r o hst hr hf ho => ?_) hm
  refine keeps_back hsingle h.state hf (fun version parts b hframe hret => ?_) ho
  exact hmerge version parts rest b (hframe ▸ hst) (hret ▸ hr)

end Queue

/-! ## Acknowledgements -/

/-- Every update the `acknowledge` of this move takes out of the queue was part of a delta
passed to `send` before. -/
def AckRemovesOnlySent (c : Cfg) (m : Move Call Ret) : Prop :=
  ∀ id, m = .call (.acknowledge id) → ∀ c', machine.step c m = some c' →
    ∀ p ∈ c.state.pending, p ∉ c'.state.pending → p ∈ sentParts c.trace

lemma updateTimer_done_pending (s : State) :
    (updateTimer s .done).state.pending = s.pending := by
  simp only [updateTimer, stopTimer]
  repeat' split
  all_goals rfl

/-- What an accepted acknowledgement leaves queued. -/
lemma acknowledge_pending {s : State} {n : ℤ} (h : ackAccepted s (.integer n)) :
    (acknowledge s (.integer n)).state.pending = s.pending.filter fun p => decide (n < p.seq) := by
  simp [acknowledge, h, queueChanged, updateTimer_done_pending]

/-- A refused acknowledgement changes nothing. -/
lemma acknowledge_of_refused {s : State} {id : JsValue} (h : ¬ackAccepted s id) :
    acknowledge s id = { state := s } := by
  cases id with
  | integer n => simp [acknowledge, h]
  | other => rfl

/-- An acknowledgement removes only updates up to its id, and only if it is accepted. -/
lemma le_of_acknowledge_removes {s : State} {id : JsValue} {p : Pending} (hp : p ∈ s.pending)
    (hgone : p ∉ (acknowledge s id).state.pending) :
    ∃ n : ℤ, id = .integer n ∧ ackAccepted s (.integer n) ∧ p.seq ≤ n := by
  by_cases hacc : ackAccepted s id
  · cases id with
    | other => simp [ackAccepted] at hacc
    | integer n =>
        rw [acknowledge_pending hacc, List.mem_filter, decide_eq_true_eq] at hgone
        exact ⟨n, rfl, hacc, by
          by_contra hlt
          exact hgone ⟨hp, by omega⟩⟩
  · rw [acknowledge_of_refused hacc] at hgone
    exact absurd hp hgone

lemma ackAccepted_le_newest {s : State} {n : ℤ} (h : ackAccepted s (.integer n))
    {newest : Pending} (hlast : s.pending.getLast? = some newest) : n ≤ newest.seq := by
  simp only [ackAccepted, hlast, Bool.and_eq_true, decide_eq_true_eq] at h
  exact h.2

lemma ackAccepted_live {s : State} {n : ℤ} (h : ackAccepted s (.integer n)) :
    s.phase ≠ .destroyed := by
  simp only [ackAccepted, Bool.and_eq_true, decide_eq_true_eq] at h
  exact h.1.1.1

/-- In a configuration whose history was safe, an acknowledgement is safe exactly when its id
was sent: just past the last id sent, the queue holds an update that was not. -/
lemma ackRemovesOnlySent_iff {c : Cfg} (h : CfgInv (fun _ _ => True) c) (m : Move Call Ret) :
    AckRemovesOnlySent c m ↔ AckWithinSent c m := by
  constructor
  · rintro hsafe n rfl hacc hne
    by_contra hgt
    obtain ⟨newest, hlast⟩ := Option.isSome_iff_exists.1 (List.getLast?_isSome.2 hne)
    have hle := ackAccepted_le_newest hacc hlast
    have hnext := h.state.newest hlast
    obtain ⟨q, hq, hqs⟩ := h.state.unsent (ackAccepted_live hacc) (lastSent c.trace + 1)
      (by omega) (by omega)
    have hgone : q ∉ (acknowledge c.state (.integer n)).state.pending := by
      rw [acknowledge_pending hacc, List.mem_filter, decide_eq_true_eq]
      rintro ⟨-, hlt⟩
      omega
    have := h.state.sent_le q (hsafe _ rfl _ (Machine.step_call _) q hq hgone)
    omega
  · rintro hok id rfl c' hc' p hp hgone
    obtain rfl := Option.some.inj hc'
    obtain ⟨n, rfl, hacc, hle⟩ := le_of_acknowledge_removes hp hgone
    have hsent := hok n rfl hacc (List.ne_nil_of_mem hp)
    exact h.state.sent p hp (by omega)

/-- **When an acknowledgement discards only sent updates.**  On every schedule of public calls,
ticks and re-entrant callbacks, all acknowledgements take only sent updates out of the queue if
and only if no id that gets past the guard to a non-empty queue is beyond the last id sent. -/
theorem acknowledge_removes_only_sent_iff (moves : List (Move Call Ret)) :
    Along machine.step AckRemovesOnlySent init moves ↔
      Along machine.step AckWithinSent init moves := by
  refine along_iff (I := CfgInv fun _ _ => True) (fun c m hc => ackRemovesOnlySent_iff hc m)
    (fun c m c' hc hok hm => ?_) cfgInv_init
  exact cfgInv_step (fun _ => trivial) hc hok (fun _ _ _ _ _ _ => trivial) hm

/-- An update queued while paused is discarded by an acknowledgement of its number, although
nothing was ever passed to `send`. -/
theorem acknowledge_discards_unsent :
    ¬Along machine.step AckRemovesOnlySent init
      [.call (.enqueue [1]), .call (.acknowledge (.integer 1))] := by
  rintro ⟨-, h⟩
  obtain ⟨hack, -⟩ := h _ rfl
  have := hack (.integer 1) rfl _ rfl ⟨1, [1]⟩ (by decide) (by decide)
  simp [init, machine, call, ReliableSync.enqueue, queueChanged, updateTimer, proceed, flush,
    Config.resume, Control.push, sentParts] at this

end ReliableSync

end Yrby
