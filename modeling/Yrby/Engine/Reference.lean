import Yrby.Engine.Protocol
import Mathlib.Data.List.Dedup
import Mathlib.Data.List.Perm.Subperm

/-!
# A reference engine

A small engine that meets everything `Yrs.Crdt`, `Yrs.MergeIsUnion` and `Yrs.WireFormat` ask
for, so that the hypotheses about yrs are known to be consistent and concrete runs can be
evaluated.

A document is the list of pieces it was given.  A block needs the block before it of the same
client, a deletion needs its block.  `bad` lists the blocks the engine refuses to integrate.
Updates are in the V1 format: `decodeUpdate` reads collected garbage, skips and string items
without origins (one clock a byte, which is right for ASCII), and a document encodes every piece
as a section of its own.
-/

namespace Yrby.Reference

open Wire

abbrev Doc := List Piece

/-! ## Causal order -/

/-- A block needs its predecessor, a deletion the block it deletes. -/
def needs : Piece → Piece → Prop
  | .block a, .block b => a.client = b.client ∧ a.clock = b.clock + 1
  | .deletion a, .block b => a = b
  | _, .deletion _ => False

/-- All blocks of a client up to a clock are there. -/
def hasPrefix (d : Doc) (id : BlockId) : Bool :=
  (List.range (id.clock + 1)).all fun k => decide (.block ⟨id.client, k⟩ ∈ d)

/-- The piece is part of the document's visible state. -/
def isIntegrated (d : Doc) : Piece → Bool
  | .block id => hasPrefix d id
  | .deletion id => decide (.deletion id ∈ d) && hasPrefix d id

lemma hasPrefix_iff {d : Doc} {id : BlockId} :
    hasPrefix d id ↔ ∀ k ≤ id.clock, .block ⟨id.client, k⟩ ∈ d := by
  simp [hasPrefix, Nat.lt_succ_iff]

lemma block_mem_integrated {S : Set Piece} {client clock : ℕ} :
    .block ⟨client, clock⟩ ∈ Causal.integrated needs S ↔
      ∀ k ≤ clock, Piece.block ⟨client, k⟩ ∈ S := by
  induction clock with
  | zero =>
      constructor
      · intro h k hk
        obtain rfl := Nat.le_zero.1 hk
        exact Causal.integrated_subset h
      · intro h
        refine Causal.mem_integrated (h 0 le_rfl) fun b hb => ?_
        cases b <;> simp [needs] at hb
  | succ clock ih =>
      constructor
      · intro h k hk
        rcases Nat.le_succ_iff.1 hk with hk | rfl
        · exact ih.1 (Causal.integrated_of_needs h ⟨rfl, rfl⟩) k hk
        · exact Causal.integrated_subset h
      · intro h
        refine Causal.mem_integrated (h _ le_rfl) fun b hb => ?_
        cases b with
        | block b =>
            obtain ⟨hclient, hclock⟩ := hb
            obtain rfl : b = ⟨client, clock⟩ := by
              cases b
              simp only at hclient hclock
              simp only [BlockId.mk.injEq]
              omega
            exact ih.2 fun k hk => h k (by omega)
        | deletion b => simp [needs] at hb

/-- `isIntegrated` computes the causally closed part. -/
lemma isIntegrated_iff {d : Doc} {a : Piece} :
    isIntegrated d a ↔ a ∈ Causal.integrated needs {a | a ∈ d} := by
  cases a with
  | block id =>
      obtain ⟨client, clock⟩ := id
      rw [block_mem_integrated]
      exact hasPrefix_iff
  | deletion id =>
      obtain ⟨client, clock⟩ := id
      simp only [isIntegrated, Bool.and_eq_true, decide_eq_true_eq, hasPrefix_iff]
      constructor
      · rintro ⟨hmem, hblocks⟩
        refine Causal.mem_integrated hmem fun b hb => ?_
        cases b with
        | block b =>
            obtain rfl : (⟨client, clock⟩ : BlockId) = b := hb
            exact block_mem_integrated.2 hblocks
        | deletion b => simp [needs] at hb
      · intro h
        have hmem : Piece.deletion ⟨client, clock⟩ ∈ {a | a ∈ d} := Causal.integrated_subset h
        exact ⟨hmem,
          block_mem_integrated.1 (Causal.integrated_of_needs h rfl)⟩

/-! ## Updates -/

/-- The pieces of an update. -/
def pieces (u : Update) : List Piece :=
  (u.clients.flatMap fun e => e.2.flatMap fun b =>
    if b.isSkip then [] else (List.range b.len).map fun k => .block ⟨e.1, b.clock + k⟩) ++
  u.deletes.flatMap fun e => e.2.flatMap fun r =>
    (List.range r.2).map fun k => .deletion ⟨e.1, r.1 + k⟩

lemma exists_lt_add_iff {lo len x : ℕ} : (∃ k < len, lo + k = x) ↔ lo ≤ x ∧ x < lo + len := by
  constructor
  · rintro ⟨k, hk, rfl⟩
    omega
  · rintro ⟨h₁, h₂⟩
    exact ⟨x - lo, by omega, by omega⟩

lemma mem_pieces {u : Update} {a : Piece} : a ∈ pieces u ↔ a ∈ u.content := by
  cases a with
  | block id =>
      obtain ⟨client, clock⟩ := id
      simp only [pieces, List.mem_append, List.mem_flatMap, List.mem_map, List.mem_range,
        reduceCtorEq, and_false, exists_false, or_false, Update.mem_content_block,
        Update.CarriesBlock]
      refine exists_congr fun e => and_congr_right fun _ => ?_
      constructor
      · rintro ⟨b, hb, h⟩
        split at h
        · simp at h
        · rename_i hskip
          obtain ⟨k, hk, heq⟩ : ∃ k < b.len, Piece.block ⟨e.1, b.clock + k⟩ =
            .block ⟨client, clock⟩ := by simpa using h
          obtain ⟨rfl, rfl⟩ : e.1 = client ∧ b.clock + k = clock := by simpa using heq
          exact ⟨rfl, b, hb, by simpa using hskip, by omega, by simp [Carrier.stop, hk]⟩
      · rintro ⟨rfl, b, hb, hskip, hlo, hhi⟩
        refine ⟨b, hb, ?_⟩
        obtain ⟨k, hk, rfl⟩ := exists_lt_add_iff.2 ⟨hlo, hhi⟩
        simpa [hskip] using hk
  | deletion id =>
      obtain ⟨client, clock⟩ := id
      simp only [pieces, List.mem_append, List.mem_flatMap, List.mem_map, List.mem_range,
        Update.mem_content_deletion, Update.CarriesDeletion]
      constructor
      · rintro (⟨e, he, b, hb, h⟩ | ⟨e, he, r, hr, k, hk, heq⟩)
        · split at h <;> simp at h
        · obtain ⟨rfl, rfl⟩ : e.1 = client ∧ r.1 + k = clock := by simpa using heq
          exact ⟨e, he, rfl, r, hr, by omega, by omega⟩
      · rintro ⟨e, he, rfl, r, hr, hlo, hhi⟩
        obtain ⟨k, hk, rfl⟩ := exists_lt_add_iff.2 ⟨hlo, hhi⟩
        exact .inr ⟨e, he, r, hr, k, hk, rfl⟩

/-! ## The V1 format -/

/-- The parent of an item without origins: the name of a root type, or a block id. -/
def readParent (bs : Bytes) : Option Bytes :=
  (readVarUint bs).bind fun p =>
    if p.1 = 1 then (readBuf p.2).map Prod.snd
    else (readVarUint p.2).bind fun q => (readVarUint q.2).map Prod.snd

/-- One block at a clock. -/
def readBlock (clock : ℕ) : Bytes → Option (Carrier × Bytes)
  | [] => none
  | info :: rest =>
      if info = 0 then (readVarUint rest).map fun p => (.gc clock p.1, p.2)
      else if info = 10 then (readVarUint rest).map fun p => (.skip clock p.1, p.2)
      else if info = 4 then
        (readParent rest).bind fun rest =>
          (readBuf rest).map fun p => (.item clock p.1.length, p.2)
      else none

/-- Blocks that follow each other from a clock on. -/
def readBlocks : ℕ → ℕ → Bytes → Option (List Carrier × Bytes)
  | 0, _, bs => some ([], bs)
  | n + 1, clock, bs =>
      (readBlock clock bs).bind fun p =>
        (readBlocks n p.1.stop p.2).map fun q => (p.1 :: q.1, q.2)

/-- The blocks of one client: how many, the client and the first clock, then the blocks. -/
def readSection (bs : Bytes) : Option ((ℕ × List Carrier) × Bytes) :=
  (readVarUint bs).bind fun n =>
    (readVarUint n.2).bind fun client =>
      (readVarUint client.2).bind fun clock =>
        (readBlocks n.1 clock.1 clock.2).map fun p => ((client.1, p.1), p.2)

def readPair (bs : Bytes) : Option ((ℕ × ℕ) × Bytes) :=
  (readVarUint bs).bind fun p => (readVarUint p.2).map fun q => ((p.1, q.1), q.2)

/-- The deletions of one client. -/
def readDeletes (bs : Bytes) : Option ((ℕ × List (ℕ × ℕ)) × Bytes) :=
  (readVarUint bs).bind fun client =>
    (readList readPair client.2).map fun p => ((client.1, p.1), p.2)

/-- `Update::decode_v1`.  Bytes after the update are ignored. -/
def decodeUpdate (bs : Bytes) : Option Update :=
  (readList readSection bs).bind fun clients =>
    (readList readDeletes clients.2).map fun deletes => ⟨clients.1, deletes.1⟩

def blockIds (d : Doc) : List BlockId :=
  d.filterMap fun | .block id => some id | .deletion _ => none

def deletionIds (d : Doc) : List BlockId :=
  d.filterMap fun | .block _ => none | .deletion id => some id

lemma mem_blockIds {d : Doc} {id : BlockId} : id ∈ blockIds d ↔ .block id ∈ d := by
  simp only [blockIds, List.mem_filterMap]
  constructor
  · rintro ⟨a, ha, h⟩
    cases a <;> simp_all
  · exact fun h => ⟨_, h, rfl⟩

lemma mem_deletionIds {d : Doc} {id : BlockId} : id ∈ deletionIds d ↔ .deletion id ∈ d := by
  simp only [deletionIds, List.mem_filterMap]
  constructor
  · rintro ⟨a, ha, h⟩
    cases a <;> simp_all
  · exact fun h => ⟨_, h, rfl⟩

/-- A section with one collected block of one clock. -/
def writeBlock (id : BlockId) : Bytes :=
  writeVarUint 1 ++ writeVarUint id.client ++ writeVarUint id.clock ++ 0 :: writeVarUint 1

def writePair (p : ℕ × ℕ) : Bytes := writeVarUint p.1 ++ writeVarUint p.2

def writeDeletion (id : BlockId) : Bytes :=
  writeVarUint id.client ++ writeList writePair [(id.clock, 1)]

/-- Every piece as a section of its own. -/
def encodePieces (d : Doc) : Bytes :=
  writeList writeBlock (blockIds d) ++ writeList writeDeletion (deletionIds d)

lemma readPair_write (p : ℕ × ℕ) (rest : Bytes) :
    readPair (writePair p ++ rest) = some (p, rest) := by
  simp [readPair, writePair, List.append_assoc]

lemma readSection_write (id : BlockId) (rest : Bytes) :
    readSection (writeBlock id ++ rest) = some ((id.client, [.gc id.clock 1]), rest) := by
  simp [readSection, writeBlock, List.append_assoc, readBlocks, readBlock]

lemma readDeletes_write (id : BlockId) (rest : Bytes) :
    readDeletes (writeDeletion id ++ rest) = some ((id.client, [(id.clock, 1)]), rest) := by
  simp only [readDeletes, writeDeletion, List.append_assoc, readVarUint_write, Option.bind_some,
    readList_write (f := fun p : ℕ × ℕ => p) readPair_write]
  rfl

lemma decodeUpdate_encodePieces (d : Doc) :
    decodeUpdate (encodePieces d) =
      some ⟨(blockIds d).map fun id => (id.client, [.gc id.clock 1]),
        (deletionIds d).map fun id => (id.client, [(id.clock, 1)])⟩ := by
  have hdel := readList_write readDeletes_write (deletionIds d) []
  rw [List.append_nil] at hdel
  simp only [decodeUpdate, encodePieces, readList_write readSection_write, Option.bind_some, hdel,
    Option.map_some]

lemma content_encodePieces {d : Doc} {u : Update} (h : decodeUpdate (encodePieces d) = some u) :
    u.content = {a | a ∈ d} := by
  obtain rfl := Option.some.inj ((decodeUpdate_encodePieces d).symm.trans h)
  ext a
  cases a with
  | block id =>
      simp only [Update.mem_content_block, Update.CarriesBlock, List.mem_map, Set.mem_ofPred_eq,
        ← mem_blockIds]
      constructor
      · rintro ⟨-, ⟨q, hq, rfl⟩, hclient, b, hb, -, hlo, hhi⟩
        obtain rfl := List.mem_singleton.1 hb
        obtain rfl : q = id := by
          cases q
          cases id
          simp only [Carrier.clock, Carrier.stop, Carrier.len] at *
          simp only [BlockId.mk.injEq]
          omega
        exact hq
      · exact fun h => ⟨_, ⟨id, h, rfl⟩, rfl, _, List.mem_singleton_self _, rfl, le_rfl,
          by simp [Carrier.clock, Carrier.stop, Carrier.len]⟩
  | deletion id =>
      simp only [Update.mem_content_deletion, Update.CarriesDeletion, List.mem_map,
        Set.mem_ofPred_eq, ← mem_deletionIds]
      constructor
      · rintro ⟨-, ⟨q, hq, rfl⟩, hclient, r, hr, hlo, hhi⟩
        obtain rfl := List.mem_singleton.1 hr
        obtain rfl : q = id := by
          cases q
          cases id
          simp only at *
          simp only [BlockId.mk.injEq]
          omega
        exact hq
      · exact fun h => ⟨_, ⟨id, h, rfl⟩, rfl, _, List.mem_singleton_self _, le_rfl, by simp⟩

/-! ## State vectors -/

/-- The first clock of a client that is missing. -/
def firstMissing (d : Doc) (client : ℕ) : ℕ :=
  ((List.range (d.length + 1)).find? fun k => decide (.block ⟨client, k⟩ ∉ d)).getD 0

def stateVector (d : Doc) : StateVector where
  entries := ((blockIds d).map BlockId.client).dedup.map fun client =>
    (client, firstMissing d client)

/-- A document is too short to hold every clock up to its length. -/
lemma exists_missing (d : Doc) (client : ℕ) :
    ∃ k ∈ List.range (d.length + 1), .block ⟨client, k⟩ ∉ d := by
  by_contra hall
  push Not at hall
  have hsub : ((List.range (d.length + 1)).map fun k => Piece.block ⟨client, k⟩) ⊆ d := by
    intro a ha
    obtain ⟨k, hk, rfl⟩ := List.mem_map.1 ha
    exact hall k hk
  have hnodup : ((List.range (d.length + 1)).map fun k => Piece.block ⟨client, k⟩).Nodup :=
    List.nodup_range.map fun i j h => by simpa using h
  simpa using (List.subperm_of_subset hnodup hsub).length_le

lemma firstMissing_spec (d : Doc) (client : ℕ) :
    .block ⟨client, firstMissing d client⟩ ∉ d ∧
      ∀ k < firstMissing d client, .block ⟨client, k⟩ ∈ d := by
  obtain ⟨k, hk, hmiss⟩ := exists_missing d client
  have hsome : ((List.range (d.length + 1)).find?
      fun k => decide (.block ⟨client, k⟩ ∉ d)).isSome :=
    List.find?_isSome.2 ⟨k, hk, by simpa using hmiss⟩
  obtain ⟨m, hm⟩ := Option.isSome_iff_exists.1 hsome
  have hval : firstMissing d client = m := by rw [firstMissing, hm, Option.getD_some]
  obtain ⟨hp, i, hi, hget, hbefore⟩ := List.find?_eq_some_iff_getElem.1 hm
  rw [hval]
  refine ⟨by simpa using hp, fun k hk => ?_⟩
  obtain rfl : i = m := by simpa using hget
  simpa using hbefore k hk

lemma lookup_map_self {f : ℕ → ℕ} {l : List ℕ} {c : ℕ} :
    (l.map fun c => (c, f c)).lookup c = if c ∈ l then some (f c) else none := by
  induction l with
  | nil => rfl
  | cons a l ih =>
      by_cases h : c = a
      · subst h
        simp
      · have h' : (c == a) = false := by simpa using h
        simp [List.lookup_cons, h', ih, h]

lemma stateVector_get (d : Doc) (client : ℕ) :
    (stateVector d).get client = firstMissing d client := by
  simp only [StateVector.get, stateVector, lookup_map_self, List.mem_dedup, List.mem_map,
    mem_blockIds]
  split
  · rfl
  · rename_i hnone
    -- a client without blocks is missing clock 0
    by_contra hpos
    have := (firstMissing_spec d client).2 0 (Nat.pos_of_ne_zero (Ne.symm hpos))
    exact hnone (by simpa [mem_blockIds] using ⟨_, this, rfl⟩)

/-! ## Messages -/

/-- Running out of bytes is `EndOfBuffer`. -/
def orEnd {α : Type} : Option α → Except DecodeError α
  | some a => .ok a
  | none => .error .endOfBuffer

def readSync (bs : Bytes) : Except DecodeError (Message × Bytes) :=
  (orEnd (readVarUint bs)).bind fun kind =>
    (orEnd (readBuf kind.2)).bind fun payload =>
      match kind.1 with
      | 0 =>
          match readList readPair payload.1 with
          | some (entries, _) => .ok (.sync (.syncStep1 ⟨entries⟩), payload.2)
          | none => .error .endOfBuffer
      | 1 => .ok (.sync (.syncStep2 payload.1), payload.2)
      | 2 => .ok (.sync (.update payload.1), payload.2)
      | _ => .error .other

/-- `Message::decode` -/
def decodeMessage (bs : Bytes) : Except DecodeError (Message × Bytes) :=
  (orEnd (readVarUint bs)).bind fun tag =>
    match tag.1 with
    | 0 => readSync tag.2
    | 1 => (orEnd (readBuf tag.2)).map fun p => (.awareness, p.2)
    | 2 =>
        (orEnd (readVarUint tag.2)).bind fun reason =>
          if reason.1 = 0 then (orEnd (readBuf reason.2)).map fun p => (.auth, p.2)
          else .ok (.auth, reason.2)
    | 3 => .ok (.awarenessQuery, tag.2)
    | _ => (orEnd (readBuf tag.2)).map fun p => (.custom, p.2)

def encodeSync : SyncMessage → Bytes
  | .syncStep1 sv => writeVarUint 0 ++ writeBuf (writeList writePair sv.entries)
  | .syncStep2 update => writeVarUint 1 ++ writeBuf update
  | .update update => writeVarUint 2 ++ writeBuf update

/-- `Message::encode_v1`, with empty payloads where the model keeps none. -/
def encodeMessage : Message → Bytes
  | .sync m => writeVarUint 0 ++ encodeSync m
  | .awareness => [1, 0]
  | .auth => [2, 1]
  | .awarenessQuery => [3]
  | .custom => [4, 0]

/-! ## The engine -/

def isBlock : Piece → Bool
  | .block _ => true
  | .deletion _ => false

/-- An encoding against `sv` does not leave the piece out. -/
def isBeyond (sv : StateVector) : Piece → Bool
  | .block id => decide (sv.get id.client ≤ id.clock)
  | .deletion _ => true

/-- The engine refuses to integrate the piece. -/
def isRefused (bad : List BlockId) : Piece → Bool
  | .block id => decide (id ∈ bad)
  | .deletion _ => false

def applyUpdate (bad : List BlockId) (d : Doc) (u : Update) : Option Doc :=
  if (d ++ pieces u).any fun a => isIntegrated (d ++ pieces u) a && isRefused bad a then none
  else some (d ++ pieces u)

/-- The reference engine. -/
abbrev engine (bad : List BlockId) : Yrs where
  Doc := Doc
  new := []
  decodeUpdate := decodeUpdate
  applyUpdate := applyUpdate bad
  stateVector := stateVector
  encodeStateAsUpdate d sv := encodePieces (d.filter fun a => isBeyond sv a || !isIntegrated d a)
  pendingUpdate d := d.any fun a => isBlock a && !isIntegrated d a
  pendingDs d := d.any fun a => !isBlock a && !isIntegrated d a
  prunePending d := d.filter (isIntegrated d)
  decodeMessage := decodeMessage
  encodeMessage := encodeMessage
  mergeUpdates us := (us.mapM decodeUpdate).map fun us => encodePieces (us.flatMap pieces)
  integrated d := {a | isIntegrated d a}
  parked d := {a | a ∈ d ∧ isIntegrated d a = false}

/-! ### Engines over lists of pieces

What makes such an engine a CRDT: `integ` computes the causally closed part of a document, `add`
adds pieces, and a client's contiguous blocks integrate. -/

section Lists

variable (integ : Doc → Piece → Bool) (add : Doc → List Piece → Doc) (bad : List BlockId)

/-- An engine whose documents are lists of pieces. -/
abbrev engineOf : Yrs where
  Doc := Doc
  new := []
  decodeUpdate := decodeUpdate
  applyUpdate d u :=
    if (add d (pieces u)).any fun a => integ (add d (pieces u)) a && isRefused bad a then none
    else some (add d (pieces u))
  stateVector := stateVector
  encodeStateAsUpdate d sv := encodePieces (d.filter fun a => isBeyond sv a || !integ d a)
  pendingUpdate d := d.any fun a => isBlock a && !integ d a
  pendingDs d := d.any fun a => !isBlock a && !integ d a
  prunePending d := d.filter (integ d)
  decodeMessage := decodeMessage
  encodeMessage := encodeMessage
  mergeUpdates us := (us.mapM decodeUpdate).map fun us => encodePieces (us.flatMap pieces)
  integrated d := {a | integ d a}
  parked d := {a | a ∈ d ∧ integ d a = false}

variable {integ add} {order : Piece → Piece → Prop}
  (hinteg : ∀ d a, integ d a ↔ a ∈ Causal.integrated order {a | a ∈ d})
include hinteg

lemma mem_of_integ {d : Doc} {a : Piece} (h : integ d a) : a ∈ d := by
  have : a ∈ {a | a ∈ d} := Causal.integrated_subset ((hinteg d a).1 h)
  exact this

lemma held_engineOf (d : Doc) : (engineOf integ add bad).held d = {a | a ∈ d} := by
  ext a
  change integ d a ∨ (a ∈ d ∧ integ d a = false) ↔ a ∈ d
  constructor
  · rintro (h | ⟨h, -⟩)
    · exact mem_of_integ hinteg h
    · exact h
  · intro h
    cases hi : integ d a with
    | true => exact .inl rfl
    | false => exact .inr ⟨h, rfl⟩

lemma held_add (hadd : ∀ d ps a, a ∈ add d ps ↔ a ∈ d ∨ a ∈ ps) (d : Doc) (u : Update) :
    (engineOf integ add bad).held d ∪ u.content = {a | a ∈ add d (pieces u)} := by
  ext a
  rw [held_engineOf bad hinteg, Set.mem_union, ← mem_pieces]
  exact (hadd d (pieces u) a).symm

/-- **An engine over lists is a CRDT.** -/
theorem crdt_engineOf (hadd : ∀ d ps a, a ∈ add d ps ↔ a ∈ d ∨ a ∈ ps)
    (hrun : ∀ d client clock, (∀ k ≤ clock, .block ⟨client, k⟩ ∈ d) →
      integ d (.block ⟨client, clock⟩)) :
    (engineOf integ add bad).Crdt order fun a => isRefused bad a where
  integrated_eq d := by
    rw [held_engineOf bad hinteg]
    ext a
    exact hinteg d a
  parked_eq d := by
    rw [held_engineOf bad hinteg]
    ext a
    change a ∈ d ∧ integ d a = false ↔ a ∈ d ∧ a ∉ Causal.integrated order {a | a ∈ d}
    rw [← hinteg, Bool.not_eq_true]
  held_new := by
    rw [held_engineOf bad hinteg]
    ext a
    change a ∈ ([] : Doc) ↔ a ∈ (∅ : Set Piece)
    simp
  held_apply {d d' u} h := by
    rw [held_add bad hinteg hadd, held_engineOf bad hinteg]
    change (if _ then none else some (add d (pieces u))) = some d' at h
    split at h
    · simp at h
    · rw [← Option.some.inj h]
  apply_isSome {d u} := by
    rw [held_add bad hinteg hadd]
    change (if _ then none else some (add d (pieces u)) : Option Doc).isSome ↔ _
    unfold Yrs.Accepts
    split
    · rename_i h
      obtain ⟨a, -, ha⟩ := List.any_eq_true.1 h
      rw [Bool.and_eq_true, hinteg] at ha
      simp only [Option.isSome_none, Bool.false_eq_true, false_iff]
      exact fun hall => hall a ha.1 ha.2
    · rename_i h
      simp only [Option.isSome_some, true_iff]
      intro a ha hbad
      have hi := (hinteg _ _).2 ha
      exact h (List.any_eq_true.2 ⟨a, mem_of_integ hinteg hi, by simp [hi, hbad]⟩)
  stateVector_lt {d client clock} h := by
    change clock < (stateVector d).get client at h
    rw [stateVector_get] at h
    change integ d (.block ⟨client, clock⟩)
    exact hrun d client clock fun k hk =>
      (firstMissing_spec d client).2 k (lt_of_le_of_lt hk h)
  stateVector_stop d client h := by
    change integ d (.block ⟨client, (stateVector d).get client⟩) at h
    rw [stateVector_get] at h
    exact (firstMissing_spec d client).1 (mem_of_integ hinteg h)
  decode_encode d sv := by
    refine ⟨_, decodeUpdate_encodePieces _, ?_⟩
    rw [content_encodePieces (decodeUpdate_encodePieces _)]
    ext a
    have hbeyond : isBeyond sv a ↔ Yrs.Beyond sv a := by
      cases a <;> simp [isBeyond, Yrs.Beyond]
    change a ∈ d.filter _ ↔
      (integ d a ∧ Yrs.Beyond sv a) ∨ (a ∈ d ∧ integ d a = false)
    rw [List.mem_filter, Bool.or_eq_true, Bool.not_eq_true', hbeyond]
    have := @mem_of_integ _ _ hinteg d a
    cases hi : integ d a <;> simp_all
  pendingUpdate_iff d := by
    change (d.any _ = true) ↔ ∃ id, Piece.block id ∈ d ∧ integ d (.block id) = false
    rw [List.any_eq_true]
    constructor
    · rintro ⟨a, ha, h⟩
      cases a with
      | block id => exact ⟨id, ha, by simpa [isBlock] using h⟩
      | deletion id => simp [isBlock] at h
    · rintro ⟨id, hid, h⟩
      exact ⟨_, hid, by simp [isBlock, h]⟩
  pendingDs_iff d := by
    change (d.any _ = true) ↔ ∃ id, Piece.deletion id ∈ d ∧ integ d (.deletion id) = false
    rw [List.any_eq_true]
    constructor
    · rintro ⟨a, ha, h⟩
      cases a with
      | block id => simp [isBlock] at h
      | deletion id => exact ⟨id, ha, by simpa [isBlock] using h⟩
    · rintro ⟨id, hid, h⟩
      exact ⟨_, hid, by simp [isBlock, h]⟩
  held_prune d := by
    rw [held_engineOf bad hinteg]
    ext a
    change a ∈ d.filter (integ d) ↔ integ d a = true
    rw [List.mem_filter]
    exact ⟨fun h => h.2, fun h => ⟨mem_of_integ hinteg h, h⟩⟩

end Lists

/-- **The reference engine is a CRDT.** -/
theorem crdt (bad : List BlockId) : (engine bad).Crdt needs fun a => isRefused bad a :=
  crdt_engineOf bad (fun _ _ => isIntegrated_iff) (fun _ _ _ => List.mem_append)
    fun _ _ _ h => hasPrefix_iff.2 h

variable (bad : List BlockId)

lemma mem_flatMap_pieces {bs : List Bytes} {us : List Update}
    (h : bs.mapM decodeUpdate = some us) (a : Piece) :
    a ∈ us.flatMap pieces ↔ ∃ x ∈ bs, a ∈ (engine bad).contentOf x := by
  induction bs generalizing us with
  | nil =>
      obtain rfl : [] = us := by simpa using h
      simp
  | cons x bs ih =>
      obtain ⟨u, hu, us', hus', rfl⟩ :
          ∃ u, decodeUpdate x = some u ∧
            ∃ us', bs.mapM decodeUpdate = some us' ∧ u :: us' = us := by
        simpa [List.mapM_cons, Option.bind_eq_some_iff] using h
      have hx : (engine bad).contentOf x = u.content := Yrs.contentOf_of_decode hu
      simp [ih hus', hx, mem_pieces]

theorem mergeIsUnion : (engine bad).MergeIsUnion := by
  intro bs b h
  obtain ⟨us, hus, rfl⟩ := Option.map_eq_some_iff.1 h
  ext a
  rw [Yrs.contentOf_of_decode (decodeUpdate_encodePieces _),
    content_encodePieces (decodeUpdate_encodePieces _)]
  simpa using mem_flatMap_pieces bad hus a

/-! ## Frames -/

lemma orEnd_eq_ok {α : Type} {o : Option α} {a : α} : orEnd o = .ok a ↔ o = some a := by
  cases o <;> simp [orEnd]

lemma bind_eq_ok {ε α β : Type} {x : Except ε α} {f : α → Except ε β} {b : β} :
    x.bind f = .ok b ↔ ∃ a, x = .ok a ∧ f a = .ok b := by
  cases x <;> simp [Except.bind]

lemma map_eq_ok {ε α β : Type} {x : Except ε α} {f : α → β} {b : β} :
    x.map f = .ok b ↔ ∃ a, x = .ok a ∧ f a = b := by
  cases x <;> simp [Except.map]

lemma readSync_eq_ok {bs rest : Bytes} {m : Message} (h : readSync bs = .ok (m, rest)) :
    ∃ kind r payload, readVarUint bs = some (kind, r) ∧ readBuf r = some (payload, rest) ∧
      ((kind = 0 ∧ ∃ sv, m = .sync (.syncStep1 sv)) ∨ (kind = 1 ∧ m = .sync (.syncStep2 payload)) ∨
        (kind = 2 ∧ m = .sync (.update payload))) := by
  obtain ⟨⟨kind, r⟩, hkind, h⟩ := bind_eq_ok.1 h
  obtain ⟨⟨payload, rest'⟩, hpayload, h⟩ := bind_eq_ok.1 h
  refine ⟨kind, r, payload, orEnd_eq_ok.1 hkind, ?_⟩
  split at h
  · split at h
    · obtain ⟨rfl, rfl⟩ : _ ∧ rest' = rest := by simpa using h
      exact ⟨orEnd_eq_ok.1 hpayload, .inl ⟨‹_›, _, rfl⟩⟩
    · simp at h
  · obtain ⟨rfl, rfl⟩ : _ ∧ rest' = rest := by simpa using h
    exact ⟨orEnd_eq_ok.1 hpayload, .inr (.inl ⟨‹_›, rfl⟩)⟩
  · obtain ⟨rfl, rfl⟩ : _ ∧ rest' = rest := by simpa using h
    exact ⟨orEnd_eq_ok.1 hpayload, .inr (.inr ⟨‹_›, rfl⟩)⟩
  · simp at h

/-- A message of the sync kind comes from the tag 0. -/
lemma decodeMessage_eq_sync {bs rest : Bytes} {m : SyncMessage}
    (h : decodeMessage bs = .ok (.sync m, rest)) :
    ∃ r, readVarUint bs = some (0, r) ∧ readSync r = .ok (.sync m, rest) := by
  obtain ⟨⟨tag, r⟩, htag, h⟩ := bind_eq_ok.1 h
  refine ⟨r, ?_⟩
  split at h
  · rename_i h0
    obtain rfl : tag = 0 := h0
    exact ⟨orEnd_eq_ok.1 htag, h⟩
  · simp [map_eq_ok] at h
  · obtain ⟨⟨reason, r'⟩, -, h⟩ := bind_eq_ok.1 h
    split at h
    · simp [map_eq_ok] at h
    · simp at h
  · simp at h
  · simp [map_eq_ok] at h

lemma decodeMessage_shortens {bs rest : Bytes} {m : Message}
    (h : decodeMessage bs = .ok (m, rest)) : rest.length < bs.length := by
  obtain ⟨⟨tag, r⟩, htag, h⟩ := bind_eq_ok.1 h
  have hr := readVarUint_length (orEnd_eq_ok.1 htag)
  have hbuf : ∀ {q : Bytes} {k : Message} {s : Bytes},
      (orEnd (readBuf q)).map (fun p => (k, p.2)) = .ok (m, s) → s.length < q.length := by
    intro q k s h
    obtain ⟨⟨p, s'⟩, hp, h⟩ := map_eq_ok.1 h
    obtain ⟨-, rfl⟩ : k = m ∧ s' = s := by simpa using h
    exact readBuf_length (orEnd_eq_ok.1 hp)
  split at h
  · obtain ⟨kind, r', payload, hkind, hpayload, -⟩ := readSync_eq_ok h
    exact (readBuf_length hpayload).trans ((readVarUint_length hkind).trans hr)
  · exact (hbuf h).trans hr
  · obtain ⟨⟨reason, r'⟩, hreason, h⟩ := bind_eq_ok.1 h
    have hr' := (readVarUint_length (orEnd_eq_ok.1 hreason)).trans hr
    split at h
    · exact (hbuf h).trans hr'
    · obtain ⟨-, rfl⟩ : Message.auth = m ∧ r' = rest := by simpa using h
      exact hr'
  · obtain ⟨-, rfl⟩ : Message.awarenessQuery = m ∧ r = rest := by simpa using h
    exact hr
  · exact (hbuf h).trans hr

lemma decodeMessage_syncStep2 {bs payload rest : Bytes} :
    decodeMessage bs = .ok (.sync (.syncStep2 payload), rest) ↔
      Yrs.ReadsSync bs 1 payload rest := by
  constructor
  · intro h
    obtain ⟨r, hr, h⟩ := decodeMessage_eq_sync h
    obtain ⟨kind, r', p, hkind, hp, ⟨-, _, h⟩ | ⟨rfl, h⟩ | ⟨-, h⟩⟩ := readSync_eq_ok h
    · simp at h
    · obtain rfl : payload = p := by simpa using h
      exact ⟨r, r', hr, hkind, hp⟩
    · simp at h
  · rintro ⟨r, r', hr, hkind, hp⟩
    simp [decodeMessage, readSync, orEnd, Except.bind, hr, hkind, hp]

lemma decodeMessage_update {bs payload rest : Bytes} :
    decodeMessage bs = .ok (.sync (.update payload), rest) ↔ Yrs.ReadsSync bs 2 payload rest := by
  constructor
  · intro h
    obtain ⟨r, hr, h⟩ := decodeMessage_eq_sync h
    obtain ⟨kind, r', p, hkind, hp, ⟨-, _, h⟩ | ⟨-, h⟩ | ⟨rfl, h⟩⟩ := readSync_eq_ok h
    · simp at h
    · simp at h
    · obtain rfl : payload = p := by simpa using h
      exact ⟨r, r', hr, hkind, hp⟩
  · rintro ⟨r, r', hr, hkind, hp⟩
    simp [decodeMessage, readSync, orEnd, Except.bind, hr, hkind, hp]

/-- **The reference engine reads and writes frames as the code expects.** -/
theorem wireFormat : (engine bad).WireFormat where
  decode_nil := rfl
  decode_shortens := decodeMessage_shortens
  decode_syncStep2 := decodeMessage_syncStep2
  decode_update := decodeMessage_update
  encode_update payload := by simp [encodeMessage, encodeSync]
  decode_encode_sync m := by
    have hread := fun sv : StateVector =>
      readList_write (f := fun p : ℕ × ℕ => p) readPair_write sv.entries []
    simp only [List.append_nil, List.map_id'] at hread
    cases m with
    | syncStep1 sv =>
        simp [encodeMessage, encodeSync, decodeMessage, readSync, orEnd, Except.bind,
          hread]
    | syncStep2 update =>
        simp [encodeMessage, encodeSync, decodeMessage, readSync, orEnd, Except.bind]
    | update update =>
        simp [encodeMessage, encodeSync, decodeMessage, readSync, orEnd, Except.bind]

end Yrby.Reference
