import Yrby.Server.Sync
import Mathlib.Data.Set.Function
import Mathlib.Order.CompletePartialOrder

/-!
# Document keys and streams (`document.rb`, `action_cable.rb`, `sync.rb`)

A document is addressed by its key.  The key of a bound document derives from the polymorphic
name, the id and the attribute name, joined with slashes; an application may supply any other.
A key has two streams: the updates go out on one, and under AnyCable clients may whisper presence
on the other, which has a suffix added to the same name.

`addresses_separate_iff` says exactly when the documents of a set keep apart.  Two things can go
wrong: the joined parts of two attributes have the same slash-separated segments, and a key is
another one followed by the suffix.  `underscore` is ActiveSupport's.
-/

namespace Yrby.Address

open Wire Effect Yrs Sync

/-! ## Keys -/

/-- One collaborative attribute of one record, under the record's `polymorphic_name`. -/
structure Attribute where
  polymorphicName : Bytes
  id : Bytes
  name : Bytes
  deriving DecidableEq

/-- A `Y::Document` row as it is built: bound, keyed by the application, or both. -/
structure Row where
  key : Option Bytes := none
  recordType : Option Bytes := none
  recordId : Option Bytes := none
  name : Option Bytes := none

def slash : UInt8 := 47

variable (underscore : Bytes → Bytes)

/-- `Y::Document.key_for` -/
def keyFor (a : Attribute) : Bytes :=
  underscore a.polymorphicName ++ slash :: a.id ++ slash :: a.name

/-- `assign_default_key`: a missing name reads as the empty string. -/
def assignDefaultKey (row : Row) : Option Bytes :=
  match row.key, row.recordType, row.recordId with
  | some key, _, _ => some key
  | none, some type, some id => some (keyFor underscore ⟨type, id, row.name.getD []⟩)
  | none, _, _ => none

/-- The attribute a bound row backs. -/
def Row.attribute (row : Row) : Option Attribute :=
  match row.recordType, row.recordId, row.name with
  | some type, some id, some name => some ⟨type, id, name⟩
  | _, _, _ => none

def awarenessSuffix : Bytes := ":awareness".toUTF8.toList

/-- `sync_awareness_stream_name` -/
def awarenessStreamName (key : Bytes) : Bytes := streamName key ++ awarenessSuffix

/-- The streams of a key. -/
def streams (key : Bytes) : Set Bytes := {streamName key, awarenessStreamName key}

/-- The attributes that documents of the set are bound to. -/
def attributes (docs : Set Row) : Set Attribute := {a | ∃ row ∈ docs, row.attribute = some a}

/-- The keys of the documents of the set. -/
def keys (docs : Set Row) : Set Bytes :=
  {k | ∃ row ∈ docs, assignDefaultKey underscore row = some k}

/-- Different attributes derive different keys, and different keys have no stream in common. -/
structure NeverShare (docs : Set Row) : Prop where
  derived : ∀ a ∈ attributes docs, ∀ a' ∈ attributes docs, a ≠ a' →
    keyFor underscore a ≠ keyFor underscore a'
  streams : ∀ k ∈ keys underscore docs, ∀ k' ∈ keys underscore docs, k ≠ k' →
    Disjoint (streams k) (streams k')

/-! ## The derivation -/

/-- What stands between the slashes of an attribute's underscored name, its id and its name. -/
def segments (a : Attribute) : List Bytes :=
  (underscore a.polymorphicName).splitOn slash ++ a.id.splitOn slash ++ a.name.splitOn slash

variable {underscore}

lemma splitOn_keyFor (a : Attribute) :
    (keyFor underscore a).splitOn slash = segments underscore a := by
  simp only [keyFor, segments, List.append_assoc, List.cons_append, List.splitOn_append_cons_self]

/-- Two attributes derive one key exactly when their parts have the same segments. -/
lemma keyFor_eq_iff {a a' : Attribute} :
    keyFor underscore a = keyFor underscore a' ↔
      segments underscore a = segments underscore a' := by
  constructor
  · intro h
    rw [← splitOn_keyFor, ← splitOn_keyFor, h]
  · intro h
    have hjoin := congrArg (List.intercalate [slash]) h
    rwa [← splitOn_keyFor, ← splitOn_keyFor, List.intercalate_splitOn,
      List.intercalate_splitOn] at hjoin

/-- With ids and names that hold no slash, only the underscored names can fall together. -/
lemma segments_eq_iff {a a' : Attribute} (hid : slash ∉ a.id) (hname : slash ∉ a.name)
    (hid' : slash ∉ a'.id) (hname' : slash ∉ a'.name) :
    segments underscore a = segments underscore a' ↔
      underscore a.polymorphicName = underscore a'.polymorphicName ∧ a.id = a'.id ∧
        a.name = a'.name := by
  simp only [segments, List.splitOn_eq_singleton hid, List.splitOn_eq_singleton hname,
    List.splitOn_eq_singleton hid', List.splitOn_eq_singleton hname']
  constructor
  · intro h
    obtain ⟨hfront, hn⟩ := List.append_inj' h rfl
    obtain ⟨htype, hi⟩ := List.append_inj' hfront rfl
    have hjoin := congrArg (List.intercalate [slash]) htype
    rw [List.intercalate_splitOn, List.intercalate_splitOn] at hjoin
    exact ⟨hjoin, List.singleton_inj.1 hi, List.singleton_inj.1 hn⟩
  · rintro ⟨htype, hi, hn⟩
    rw [htype, hi, hn]

/-! ## The streams -/

lemma streamName_inj {k k' : Bytes} : streamName k = streamName k' ↔ k = k' :=
  List.append_right_inj _

lemma awarenessStreamName_inj {k k' : Bytes} :
    awarenessStreamName k = awarenessStreamName k' ↔ k = k' :=
  (List.append_left_inj _).trans streamName_inj

/-- An awareness stream is another key's update stream when that key has the suffix. -/
lemma awareness_eq_stream_iff {k k' : Bytes} :
    awarenessStreamName k = streamName k' ↔ k ++ awarenessSuffix = k' := by
  rw [awarenessStreamName, streamName, streamName, List.append_assoc, List.append_right_inj]

lemma disjoint_streams_iff {k k' : Bytes} (h : k ≠ k') :
    Disjoint (streams k) (streams k') ↔ k ++ awarenessSuffix ≠ k' ∧ k' ++ awarenessSuffix ≠ k := by
  have hs : streamName k ≠ streamName k' := fun heq => h (streamName_inj.1 heq)
  have ha : awarenessStreamName k ≠ awarenessStreamName k' :=
    fun heq => h (awarenessStreamName_inj.1 heq)
  simp only [← awareness_eq_stream_iff, ne_eq, streams, Set.disjoint_insert_left,
    Set.disjoint_singleton_left, Set.mem_insert_iff, Set.mem_singleton_iff]
  constructor
  · rintro ⟨hk, hk'⟩
    exact ⟨fun heq => hk' (.inl heq), fun heq => hk (.inr heq.symm)⟩
  · rintro ⟨hk, hk'⟩
    exact ⟨by rintro (heq | heq) <;> [exact hs heq; exact hk' heq.symm],
      by rintro (heq | heq) <;> [exact hk heq; exact ha heq]⟩

lemma ne_append_suffix (k : Bytes) : k ≠ k ++ awarenessSuffix := by
  intro h
  have : awarenessSuffix = [] := List.self_eq_append_right.1 h
  exact absurd this (by decide +kernel)

/-- **When documents keep apart.**  In a set of documents, different attributes derive different
keys and different keys share no stream, if and only if different attributes have different
segments and no key of the set is another one with the awareness suffix. -/
theorem addresses_separate_iff (underscore : Bytes → Bytes) (docs : Set Row) :
    NeverShare underscore docs ↔
      Set.InjOn (segments underscore) (attributes docs) ∧
        ∀ k ∈ keys underscore docs, k ++ awarenessSuffix ∉ keys underscore docs := by
  constructor
  · rintro ⟨hderived, hstreams⟩
    refine ⟨fun a ha a' ha' heq => ?_, fun k hk hk' => ?_⟩
    · by_contra hne
      exact hderived a ha a' ha' hne (keyFor_eq_iff.2 heq)
    · have hne := ne_append_suffix k
      exact ((disjoint_streams_iff hne).1 (hstreams k hk _ hk' hne)).1 rfl
  · rintro ⟨hinj, hsuffix⟩
    refine ⟨fun a ha a' ha' hne heq => ?_, fun k hk k' hk' hne => ?_⟩
    · exact hne (hinj ha ha' (keyFor_eq_iff.1 heq))
    · rw [disjoint_streams_iff hne]
      exact ⟨fun heq => hsuffix k hk (heq ▸ hk'), fun heq => hsuffix k' hk' (heq ▸ hk)⟩

/-- A room keyed `room` whispers presence on the update stream of a room keyed `room:awareness`;
and as soon as `underscore` sends two class names to one path, so do their records' attributes. -/
theorem addresses_collide :
    (∀ underscore, ¬NeverShare underscore
      {{ key := some "room".toUTF8.toList }, { key := some "room:awareness".toUTF8.toList }}) ∧
    ∀ underscore : Bytes → Bytes,
      underscore "HTMLPage".toUTF8.toList = underscore "HtmlPage".toUTF8.toList →
      ¬NeverShare underscore
        {{ recordType := some "HTMLPage".toUTF8.toList, recordId := some "1".toUTF8.toList,
           name := some "body".toUTF8.toList },
         { recordType := some "HtmlPage".toUTF8.toList, recordId := some "1".toUTF8.toList,
           name := some "body".toUTF8.toList }} := by
  constructor
  · intro underscore h
    have hdisj := h.streams _ ⟨_, .inl rfl, rfl⟩ _ ⟨_, .inr rfl, rfl⟩ (by decide +kernel)
    exact ((disjoint_streams_iff (by decide +kernel)).1 hdisj).1 (by decide +kernel)
  · intro underscore hsame h
    refine h.derived _ ⟨_, .inl rfl, rfl⟩ _ ⟨_, .inr rfl, rfl⟩ (by decide +kernel) ?_
    simp only [keyFor, hsame]

/-! ## What a channel subscribes to -/

section Channel

variable {Y : Yrs} {ω : Type} {K : ChannelClass ω}

lemma quiet_noStream {es : List Event} (h : ∀ e ∈ es, e.isQuiet) (name : Bytes) :
    .streamFrom name ∉ es :=
  fun hmem => Bool.false_ne_true (h _ hmem)

lemma silent_perform {α : Type} (g : Hook ω α) :
    Triple (fun _ => True) (perform (callHook g) : Method ω α) fun _ _ es => es = [] ∧ True :=
  Triple.perform fun _ _ => ⟨rfl, trivial⟩

lemma silent_pure {α : Type} {a : α} :
    Triple (fun _ => True) (pure a : Method ω α) fun _ _ es => es = [] ∧ True :=
  Triple.pure fun _ _ => ⟨rfl, trivial⟩

/-- Every stream that `sync_subscribed` opens is one of the key's two, and it is the first only
when the transport has no whispers. -/
theorem subscribed_streams (key : Bytes) :
    Triple (fun _ => True) (syncSubscribed Y K key) fun _ _ es =>
      ∀ name, .streamFrom name ∈ es →
        name ∈ streams key ∧ (K.whispers = false → name = streamName key) := by
  refine Triple.modify_bind (?_ : Triple (fun _ => True) _ _) fun _ _ => trivial
  refine Triple.bind_silent silent_validate (fun _ => ?_) fun _ _ _ => by simp
  refine Triple.bind_silent (silent_perform _) (fun ok => ?_) fun _ _ _ => by simp
  split
  · have hrest : Quiet (do
        let doc ← syncLoadDoc Y K
        syncTransmit K (Y.syncStep1 doc)
        syncObservePending Y K doc
        pure true) fun _ => True :=
      quiet_loadDoc.bind fun _ => (quiet_transmit _).bind fun _ =>
        (quiet_observePending _).bind fun _ => quiet_pure trivial
    refine Triple.emit_bind ?_
    cases hw : K.whispers with
    | true =>
        refine Triple.emit_bind (hrest.mono (fun _ _ => trivial) fun _ _ es h name hmem => ?_)
        have hes := quiet_noStream h.2 name
        simp only [List.mem_cons, Event.streamFrom.injEq, hes, or_false] at hmem
        exact ⟨hmem, by simp⟩
    | false =>
        refine Triple.bind_silent silent_pure
          (fun _ => hrest.mono (fun _ _ => trivial) fun _ _ es h name hmem => ?_)
          fun _ _ _ name hmem => ?_
        · have hes := quiet_noStream h.2 name
          simp only [List.mem_cons, Event.streamFrom.injEq, hes, or_false] at hmem
          exact ⟨.inl hmem, fun _ => hmem⟩
        · simp only [List.mem_cons, Event.streamFrom.injEq, List.not_mem_nil, or_false] at hmem
          exact ⟨.inl hmem, fun _ => hmem⟩
  · exact Triple.emit_bind (Triple.pure fun _ _ => by simp)

end Channel

end Yrby.Address
