import Yrby.Server.Address
import Yrby.Framework.Interleaving

/-!
# Binding a record's attribute to its document (`Y::Document.for`)

Any number of processes call `for` with one attribute of one record, and `locate!` and `append`
under the key that the attribute derives.  A step is one database statement.  The two unique
indexes are part of the table: a statement that would break one fails with `RecordNotUnique`.

The argument is short once the right fact is stated.  A row under the derived key is bound to
nothing or to the attribute, and a row bound to the attribute is under the derived key
(`Paired`), so all statements are about one row.  An insert that fails therefore leaves a row
under the key, and on the second attempt that row is found bound, is adopted, or was bound by
another process in between; `Asserts` says so statement by statement.

Left out is what `append` does after its insert: what a compaction moves from the tail to the
state column is the subject of `Server/Store.lean`.
-/

namespace Yrby.Binding

open Wire Interleaving Transition Address

/-! ## The table `y_documents` -/

/-- A row of `y_documents`.  Its three binding columns are null together. -/
structure DocumentRow where
  id : ℕ
  key : Bytes
  binding : Option Attribute := none
  deriving DecidableEq

/-- The rows, under the primary key, the unique index on the key and the partial one on the
binding. -/
structure Documents where
  rows : List DocumentRow
  ids : (rows.map DocumentRow.id).Nodup
  keys : (rows.map DocumentRow.key).Nodup
  bindings : (rows.filterMap DocumentRow.binding).Nodup

namespace Documents

/-- The table with these rows; `none` is a unique violation. -/
def ofRows (rows : List DocumentRow) : Option Documents :=
  if h : (rows.map DocumentRow.id).Nodup ∧ (rows.map DocumentRow.key).Nodup ∧
      (rows.filterMap DocumentRow.binding).Nodup then
    some ⟨rows, h.1, h.2.1, h.2.2⟩
  else none

/-- `INSERT` -/
def insert (t : Documents) (r : DocumentRow) : Option Documents := ofRows (t.rows ++ [r])

/-- The row with the attribute bound to it. -/
def bindRow (id : ℕ) (a : Attribute) (r : DocumentRow) : DocumentRow :=
  if r.id = id then { r with binding := some a } else r

/-- `UPDATE ... SET record_type, record_id, name WHERE id = ?` -/
def bind (t : Documents) (id : ℕ) (a : Attribute) : Option Documents :=
  ofRows (t.rows.map (bindRow id a))

/-- `find_by(record: record, name: name.to_s)` -/
def findBound (t : Documents) (a : Attribute) : Option DocumentRow :=
  t.rows.find? fun r => decide (r.binding = some a)

/-- `find_by(key: key, record_type: nil)` -/
def findUnbound (t : Documents) (key : Bytes) : Option DocumentRow :=
  t.rows.find? fun r => decide (r.key = key ∧ r.binding = none)

/-- `find_by(key: key)` -/
def findKey (t : Documents) (key : Bytes) : Option DocumentRow :=
  t.rows.find? fun r => decide (r.key = key)

end Documents

/-! ## The calls -/

/-- `present?`, for a column. -/
def isPresent (blank : Bytes → Bool) : Option Bytes → Bool
  | some b => !blank b
  | none => false

/-- The validations of `Y::Document`. -/
def isValid (blank : Bytes → Bool) (row : Address.Row) : Bool :=
  isPresent blank row.key &&
    (row.recordType.isNone || isPresent blank row.name) &&
    ((row.name.isNone && row.recordId.isNone) || isPresent blank row.recordType) &&
    (row.recordType.isNone || isPresent blank row.recordId)

inductive Call
  | for
  | locate
  | append (bytes : Bytes)

/-- Where a process is: the statement it executes next, or how its last call ended.  `attempts`
counts the retries of `for`; `job` is what `append` was called with. -/
inductive Proc
  | idle
  | finding (attempts : ℕ)
  | adopting (attempts : ℕ)
  | claiming (attempts id : ℕ)
  | rescuing (attempts : ℕ)
  | inserting (attempts : ℕ)
  | lookingUp (attempts : ℕ)
  | bound (id : ℕ)
  | locating (job : Option Bytes)
  | creating (job : Option Bytes)
  | recovering (job : Option Bytes)
  | appending (id : ℕ) (bytes : Bytes)
  | located (id : ℕ)
  | appended (id : ℕ)
  | raised
  deriving DecidableEq

inductive Action
  | call (c : Call)
  /-- The next statement; `fresh` is the id that the database gives a row it inserts. -/
  | run (fresh : ℕ)
  /-- A compaction of one document captures rows with these payloads. -/
  | compact (id : ℕ) (payloads : List Bytes)

/-- The tail, and what compactions have moved from it to the state columns, by document; `log`
lists what `append` has inserted. -/
structure Shared where
  docs : Documents
  tail : List (ℕ × Bytes) := []
  folded : List (ℕ × Bytes) := []
  log : List Bytes := []

def Proc.isDone : Proc → Bool
  | .idle | .bound _ | .located _ | .appended _ | .raised => true
  | _ => false

/-- The first statement of a call. -/
def Call.start : Call → Proc
  | .for => .finding 0
  | .locate => .locating none
  | .append bytes => .locating (some bytes)

/-- What a process does with the document it looked up by key. -/
def Proc.found (id : ℕ) : Option Bytes → Proc
  | none => .located id
  | some bytes => .appending id bytes

variable (underscore : Bytes → Bytes) (blank : Bytes → Bool) (a : Attribute)

/-- The attributes of a bound row, with its default key. -/
def boundRow : Address.Row :=
  let row : Address.Row :=
    { recordType := some a.polymorphicName, recordId := some a.id, name := some a.name }
  { row with key := assignDefaultKey underscore row }

/-- A compaction captured the row of the tail. -/
def captured (id : ℕ) (payloads : List Bytes) (e : ℕ × Bytes) : Bool :=
  decide (e.1 = id ∧ e.2 ∈ payloads)

/-- One statement of a process. -/
def step (_ : ℕ) (g : Shared) : Proc → Action → Option (Shared × Proc)
  | l, .call c => if l.isDone then some (g, c.start) else none
  | .finding attempts, .run _ =>
      match g.docs.findBound a with
      | some r => some (g, .bound r.id)
      | none => some (g, .adopting attempts)
  | .adopting attempts, .run _ =>
      match g.docs.findUnbound (keyFor underscore a) with
      | some r => some (g, .claiming attempts r.id)
      | none => some (g, .inserting attempts)
  | .claiming attempts id, .run _ =>
      if isValid blank (boundRow underscore a) then
        match g.docs.bind id a with
        | some docs => some ({ g with docs := docs }, .bound id)
        | none => some (g, .rescuing attempts)
      else some (g, .raised)
  | .rescuing attempts, .run _ =>
      match g.docs.findBound a with
      | some r => some (g, .bound r.id)
      | none => some (g, .inserting attempts)
  | .inserting attempts, .run fresh =>
      if fresh ∈ g.docs.rows.map DocumentRow.id then none
      else if isValid blank (boundRow underscore a) then
        match g.docs.insert ⟨fresh, (assignDefaultKey underscore (boundRow underscore a)).getD [],
            some a⟩ with
        | some docs => some ({ g with docs := docs }, .bound fresh)
        | none => some (g, .lookingUp attempts)
      else some (g, .raised)
  | .lookingUp attempts, .run _ =>
      match g.docs.findBound a with
      | some r => some (g, .bound r.id)
      | none => if 1 < attempts + 1 then some (g, .raised) else some (g, .finding (attempts + 1))
  | .locating job, .run _ =>
      match g.docs.findKey (keyFor underscore a) with
      | some r => some (g, .found r.id job)
      | none => some (g, .creating job)
  | .creating job, .run fresh =>
      if fresh ∈ g.docs.rows.map DocumentRow.id then none
      else if isValid blank { key := some (keyFor underscore a) } then
        match g.docs.insert ⟨fresh, keyFor underscore a, none⟩ with
        | some docs => some ({ g with docs := docs }, .found fresh job)
        | none => some (g, .recovering job)
      else some (g, .raised)
  | .recovering job, .run _ =>
      match g.docs.findKey (keyFor underscore a) with
      | some r => some (g, .found r.id job)
      | none => some (g, .raised)
  | .appending id bytes, .run _ =>
      some ({ g with tail := g.tail ++ [(id, bytes)], log := bytes :: g.log }, .appended id)
  | l, .compact id payloads =>
      if l.isDone then
        some ({ g with
          tail := g.tail.filter fun e => !captured id payloads e,
          folded := g.folded ++ g.tail.filter (captured id payloads) }, l)
      else none
  | _, _ => none

def system : System Shared Proc Action := ⟨step underscore blank a⟩

abbrev Cfg := Config Shared Proc

/-- No process has a call under way. -/
def init (docs : Documents) : Cfg := ⟨{ docs := docs }, fun _ => .idle⟩

/-! ## The invariant -/

/-- The rows under the derived key and the rows bound to the attribute go together. -/
structure Paired (t : Documents) : Prop where
  key : ∀ r ∈ t.rows, r.binding = some a → r.key = keyFor underscore a
  binding : ∀ r ∈ t.rows, r.key = keyFor underscore a → r.binding = none ∨ r.binding = some a

/-- The document with this id is the one under the derived key. -/
def Keyed (t : Documents) (id : ℕ) : Prop :=
  ∃ r ∈ t.rows, r.id = id ∧ r.key = keyFor underscore a

/-- It is also bound to the attribute. -/
def Bound (t : Documents) (id : ℕ) : Prop :=
  ∃ r ∈ t.rows, r.id = id ∧ r.key = keyFor underscore a ∧ r.binding = some a

/-- The update is in the tail of the document, or a compaction has moved it to its state. -/
def Stored (g : Shared) (id : ℕ) (bytes : Bytes) : Prop :=
  (id, bytes) ∈ g.tail ∨ (id, bytes) ∈ g.folded

structure SharedInv (g : Shared) : Prop where
  paired : Paired underscore a g.docs
  logged : ∀ bytes ∈ g.log, ∃ id, Keyed underscore a g.docs id ∧ Stored g id bytes

/-- What a process knows about the table at its next statement.  On the second attempt of `for`
the key is taken, and once no unbound row was found under it, its row is bound. -/
def Asserts (g : Shared) : ℕ → Proc → Prop
  | _, .idle | _, .locating _ | _, .creating _ => True
  | _, .finding attempts | _, .adopting attempts =>
      attempts = 0 ∨ attempts = 1 ∧ ∃ id, Keyed underscore a g.docs id
  | _, .claiming _ id | _, .appending id _ | _, .located id | _, .appended id =>
      Keyed underscore a g.docs id
  | _, .inserting attempts => attempts = 0 ∨ attempts = 1 ∧ ∃ id, Bound underscore a g.docs id
  | _, .lookingUp attempts =>
      attempts = 0 ∧ (∃ id, Keyed underscore a g.docs id) ∨
        attempts = 1 ∧ ∃ id, Bound underscore a g.docs id
  | _, .recovering _ => ∃ id, Keyed underscore a g.docs id
  | _, .bound id => Bound underscore a g.docs id
  | _, .rescuing _ | _, .raised => False

/-- Rows stay, and a bound row stays bound. -/
def Guarantee (_ : ℕ) (g g' : Shared) : Prop :=
  ∀ r ∈ g.docs.rows, ∃ r' ∈ g'.docs.rows, r'.id = r.id ∧ r'.key = r.key ∧
    (r.binding = some a → r'.binding = some a)

variable {underscore blank a} {t t' : Documents} {g g' : Shared} {r : DocumentRow} {id : ℕ}
  {l l' : Proc}

/-! ## Statements on the table -/

namespace Documents

lemma rows_of_ofRows {rows : List DocumentRow} (h : ofRows rows = some t) : t.rows = rows := by
  unfold ofRows at h
  by_cases hok : (rows.map DocumentRow.id).Nodup ∧ (rows.map DocumentRow.key).Nodup ∧
      (rows.filterMap DocumentRow.binding).Nodup
  · rw [dif_pos hok] at h
    rw [← Option.some.inj h]
  · rw [dif_neg hok] at h
    simp at h

lemma rows_of_insert (h : t.insert r = some t') : t'.rows = t.rows ++ [r] := rows_of_ofRows h

lemma rows_of_bind (h : t.bind id a = some t') : t'.rows = t.rows.map (bindRow id a) :=
  rows_of_ofRows h

/-- An insert under a fresh id fails only when the key or the binding is taken. -/
lemma taken_of_insert_eq_none (hid : r.id ∉ t.rows.map DocumentRow.id)
    (h : t.insert r = none) :
    (∃ q ∈ t.rows, q.key = r.key) ∨ ∃ q ∈ t.rows, ∃ a, r.binding = some a ∧ q.binding = some a := by
  by_contra hfree
  push Not at hfree
  obtain ⟨hkey, hbinding⟩ := hfree
  have hok : ((t.rows ++ [r]).map DocumentRow.id).Nodup ∧
      ((t.rows ++ [r]).map DocumentRow.key).Nodup ∧
        ((t.rows ++ [r]).filterMap DocumentRow.binding).Nodup := by
    refine ⟨?_, ?_, ?_⟩
    · rw [List.map_append, List.nodup_append]
      refine ⟨t.ids, by simp, ?_⟩
      rintro x hx y hy rfl
      obtain rfl : x = r.id := by simpa using hy
      exact hid hx
    · rw [List.map_append, List.nodup_append]
      refine ⟨t.keys, by simp, ?_⟩
      rintro x hx y hy rfl
      obtain rfl : x = r.key := by simpa using hy
      obtain ⟨q, hq, hqr⟩ := List.mem_map.1 hx
      exact hkey q hq hqr
    · rw [List.filterMap_append, List.nodup_append]
      refine ⟨t.bindings, ?_, ?_⟩
      · cases hb : r.binding <;> simp [hb]
      · rintro x hx y hy rfl
        obtain ⟨q, hq, hqx⟩ := List.mem_filterMap.1 hx
        have hrx : r.binding = some x := by simpa [eq_comm] using hy
        exact hbinding q hq x hrx hqx
  rw [insert, ofRows, dif_pos hok] at h
  simp at h

/-- Two rows of a table with the same key are the same row. -/
lemma eq_of_key {q : DocumentRow} (hr : r ∈ t.rows) (hq : q ∈ t.rows) (h : r.key = q.key) :
    r = q :=
  List.inj_on_of_nodup_map t.keys hr hq h

lemma eq_of_id {q : DocumentRow} (hr : r ∈ t.rows) (hq : q ∈ t.rows) (h : r.id = q.id) : r = q :=
  List.inj_on_of_nodup_map t.ids hr hq h

lemma findBound_eq_some (h : t.findBound a = some r) : r ∈ t.rows ∧ r.binding = some a := by
  exact ⟨List.mem_of_find?_eq_some h, by simpa using List.find?_some h⟩

lemma findBound_eq_none (h : t.findBound a = none) : ∀ r ∈ t.rows, r.binding ≠ some a := by
  intro r hr
  simpa using List.find?_eq_none.1 h r hr

lemma findUnbound_eq_some {key : Bytes} (h : t.findUnbound key = some r) :
    r ∈ t.rows ∧ r.key = key ∧ r.binding = none := by
  exact ⟨List.mem_of_find?_eq_some h, by simpa using List.find?_some h⟩

lemma findUnbound_eq_none {key : Bytes} (h : t.findUnbound key = none) :
    ∀ r ∈ t.rows, r.key = key → r.binding ≠ none := by
  intro r hr
  simpa using List.find?_eq_none.1 h r hr

lemma findKey_eq_some {key : Bytes} (h : t.findKey key = some r) : r ∈ t.rows ∧ r.key = key := by
  exact ⟨List.mem_of_find?_eq_some h, by simpa using List.find?_some h⟩

lemma findKey_eq_none {key : Bytes} (h : t.findKey key = none) : ∀ r ∈ t.rows, r.key ≠ key := by
  intro r hr
  simpa using List.find?_eq_none.1 h r hr

/-- Binding a row fails on no index when no other row has the binding. -/
lemma bind_isSome (hother : ∀ r ∈ t.rows, r.id ≠ id → r.binding ≠ some a) :
    (t.bind id a).isSome := by
  have hid : ∀ r : DocumentRow, (bindRow id a r).id = r.id := fun r => by
    unfold bindRow
    split <;> rfl
  have hkey : ∀ r : DocumentRow, (bindRow id a r).key = r.key := fun r => by
    unfold bindRow
    split <;> rfl
  have hids : (t.rows.map (bindRow id a)).map DocumentRow.id = t.rows.map DocumentRow.id := by
    rw [List.map_map]
    exact List.map_congr_left fun r _ => hid r
  have hkeys : (t.rows.map (bindRow id a)).map DocumentRow.key = t.rows.map DocumentRow.key := by
    rw [List.map_map]
    exact List.map_congr_left fun r _ => hkey r
  have hbindings : ((t.rows.map (bindRow id a)).filterMap DocumentRow.binding).Nodup := by
    have hold := List.pairwise_filterMap.1 t.bindings
    have hne := List.pairwise_map.1 t.ids
    rw [List.filterMap_map]
    refine List.pairwise_filterMap.2 ((hne.and hold).imp_of_mem fun {x y} hx hy hxy => ?_)
    obtain ⟨hids, hbs⟩ := hxy
    intro b hb b' hb'
    simp only [Function.comp_apply, bindRow] at hb hb'
    by_cases hx' : x.id = id
    · have hy' : y.id ≠ id := fun h => hids (hx'.trans h.symm)
      rw [if_pos hx'] at hb
      rw [if_neg hy'] at hb'
      rintro rfl
      exact hother y hy hy' (hb'.trans hb.symm)
    · rw [if_neg hx'] at hb
      by_cases hy' : y.id = id
      · rw [if_pos hy'] at hb'
        rintro rfl
        exact hother x hx hx' (hb.trans hb'.symm)
      · rw [if_neg hy'] at hb'
        exact hbs b hb b' hb'
  rw [bind, ofRows, dif_pos ⟨hids ▸ t.ids, hkeys ▸ t.keys, hbindings⟩]
  rfl

end Documents

/-! ## What the statements establish -/

/-- There is one row under the derived key. -/
lemma Keyed.unique {id' : ℕ} (h : Keyed underscore a t id) (h' : Keyed underscore a t id') :
    id = id' := by
  obtain ⟨r, hr, rfl, hkey⟩ := h
  obtain ⟨r', hr', rfl, hkey'⟩ := h'
  rw [Documents.eq_of_key hr hr' (hkey.trans hkey'.symm)]

lemma Bound.keyed (h : Bound underscore a t id) : Keyed underscore a t id := by
  obtain ⟨r, hr, hid, hkey, -⟩ := h
  exact ⟨r, hr, hid, hkey⟩

/-- A row bound to the attribute is the one under the derived key. -/
lemma Paired.bound (h : Paired underscore a t) (hr : r ∈ t.rows) (hb : r.binding = some a) :
    Bound underscore a t r.id :=
  ⟨r, hr, rfl, h.key r hr hb, hb⟩

/-- A row under the derived key that is not unbound is bound to the attribute. -/
lemma Paired.bound_of_key (h : Paired underscore a t) (hk : Keyed underscore a t id)
    (hno : ∀ r ∈ t.rows, r.key = keyFor underscore a → r.binding ≠ none) :
    Bound underscore a t id := by
  obtain ⟨r, hr, rfl, hkey⟩ := hk
  exact h.bound hr ((h.binding r hr hkey).resolve_left (hno r hr hkey))

lemma Bound.findBound_ne_none (h : Bound underscore a t id) : t.findBound a ≠ none := by
  obtain ⟨r, hr, -, -, hb⟩ := h
  exact fun hnone => Documents.findBound_eq_none hnone r hr hb

lemma Keyed.findKey_ne_none (h : Keyed underscore a t id) :
    t.findKey (keyFor underscore a) ≠ none := by
  obtain ⟨r, hr, -, hkey⟩ := h
  exact fun hnone => Documents.findKey_eq_none hnone r hr hkey

/-- The adoption of the row under the derived key never fails. -/
lemma Paired.bind_isSome (h : Paired underscore a t) (hk : Keyed underscore a t id) :
    (t.bind id a).isSome := by
  refine Documents.bind_isSome fun r hr hne hb => hne ?_
  exact (h.bound hr hb).keyed.unique hk

/-- An insert under the derived key that fails has met the row under that key. -/
lemma Paired.keyed_of_insert (h : Paired underscore a t) (hid : r.id ∉ t.rows.map DocumentRow.id)
    (hkey : r.key = keyFor underscore a) (hb : ∀ b, r.binding = some b → b = a)
    (hfail : t.insert r = none) : ∃ id, Keyed underscore a t id := by
  rcases Documents.taken_of_insert_eq_none hid hfail with ⟨q, hq, hqr⟩ | ⟨q, hq, b, hrb, hqb⟩
  · exact ⟨q.id, q, hq, rfl, hqr.trans hkey⟩
  · obtain rfl := hb b hrb
    exact ⟨q.id, (h.bound hq hqb).keyed⟩

lemma Guarantee.refl (p : ℕ) (h : g'.docs = g.docs) : Guarantee a p g g' := by
  intro r hr
  exact ⟨r, h ▸ hr, rfl, rfl, fun hb => hb⟩

lemma Guarantee.keyed {p : ℕ} (hG : Guarantee a p g g') (h : Keyed underscore a g.docs id) :
    Keyed underscore a g'.docs id := by
  obtain ⟨r, hr, rfl, hkey⟩ := h
  obtain ⟨r', hr', hid, hkey', -⟩ := hG r hr
  exact ⟨r', hr', hid, hkey'.trans hkey⟩

lemma Guarantee.bound {p : ℕ} (hG : Guarantee a p g g') (h : Bound underscore a g.docs id) :
    Bound underscore a g'.docs id := by
  obtain ⟨r, hr, rfl, hkey, hb⟩ := h
  obtain ⟨r', hr', hid, hkey', hb'⟩ := hG r hr
  exact ⟨r', hr', hid, hkey'.trans hkey, hb' hb⟩

/-- What a process knows survives the steps of the others. -/
lemma asserts_stable {p q : ℕ} (hG : Guarantee a p g g') (h : Asserts underscore a g q l) :
    Asserts underscore a g' q l := by
  have hkeyed : (∃ id, Keyed underscore a g.docs id) → ∃ id, Keyed underscore a g'.docs id :=
    fun ⟨id, h⟩ => ⟨id, hG.keyed h⟩
  have hbound : (∃ id, Bound underscore a g.docs id) → ∃ id, Bound underscore a g'.docs id :=
    fun ⟨id, h⟩ => ⟨id, hG.bound h⟩
  cases l with
  | idle | locating job | creating job => trivial
  | finding attempts | adopting attempts => exact h.imp_right (And.imp_right hkeyed)
  | claiming attempts id | appending id bytes | located id | appended id => exact hG.keyed h
  | inserting attempts => exact h.imp_right (And.imp_right hbound)
  | lookingUp attempts => exact h.imp (And.imp_right hkeyed) (And.imp_right hbound)
  | recovering job => exact hkeyed h
  | bound id => exact hG.bound h
  | rescuing attempts | raised => exact h

/-! ## Steps -/

/-- What has to be shown of a step. -/
structure Sound (underscore : Bytes → Bytes) (a : Attribute) (p : ℕ) (g g' : Shared) (l' : Proc) :
    Prop where
  shared : SharedInv underscore a g'
  asserts : Asserts underscore a g' p l'
  guarantee : Guarantee a p g g'

variable {p : ℕ}

/-- A step that leaves the database alone. -/
lemma Sound.local (hI : SharedInv underscore a g) (hA : Asserts underscore a g p l') :
    Sound underscore a p g g l' :=
  ⟨hI, hA, .refl p rfl⟩

/-- A row under the derived key, bound to the attribute or to nothing, goes in. -/
lemma sound_insert (hI : SharedInv underscore a g) {docs : Documents}
    (hkey : r.key = keyFor underscore a) (hb : r.binding = none ∨ r.binding = some a)
    (h : g.docs.insert r = some docs) :
    SharedInv underscore a { g with docs := docs } ∧ Keyed underscore a docs r.id ∧
      (r.binding = some a → Bound underscore a docs r.id) ∧
        Guarantee a p g { g with docs := docs } := by
  have hrows := Documents.rows_of_insert h
  have hmem : r ∈ docs.rows := by rw [hrows]; simp
  have hold : ∀ q ∈ docs.rows, q ∈ g.docs.rows ∨ q = r := fun q hq => by
    rw [hrows] at hq
    simpa using hq
  have hG : Guarantee a p g { g with docs := docs } := fun q hq =>
    ⟨q, by show q ∈ docs.rows; rw [hrows]; simp [hq], rfl, rfl, fun hqb => hqb⟩
  refine ⟨⟨⟨fun q hq hqb => ?_, fun q hq hqk => ?_⟩, fun bytes hbytes => ?_⟩,
    ⟨r, hmem, rfl, hkey⟩, fun hrb => ⟨r, hmem, rfl, hkey, hrb⟩, hG⟩
  · rcases hold q hq with hq | rfl
    · exact hI.paired.key q hq hqb
    · exact hkey
  · rcases hold q hq with hq | rfl
    · exact hI.paired.binding q hq hqk
    · exact hb
  · obtain ⟨id, hid, hstored⟩ := hI.logged bytes hbytes
    exact ⟨id, hG.keyed hid, hstored⟩

/-- The row under the derived key is bound. -/
lemma sound_bind (hI : SharedInv underscore a g) {docs : Documents}
    (hk : Keyed underscore a g.docs id) (h : g.docs.bind id a = some docs) :
    Sound underscore a p g { g with docs := docs } (.bound id) := by
  have hrows := Documents.rows_of_bind h
  have hback : ∀ q ∈ docs.rows, ∃ q₀ ∈ g.docs.rows, Documents.bindRow id a q₀ = q := fun q hq => by
    rw [hrows] at hq
    simpa using hq
  have hkept : ∀ q : DocumentRow, (Documents.bindRow id a q).id = q.id ∧
      (Documents.bindRow id a q).key = q.key ∧
        (q.binding = some a → (Documents.bindRow id a q).binding = some a) := fun q => by
    unfold Documents.bindRow
    by_cases hq : q.id = id <;> simp [hq]
  have hG : Guarantee a p g { g with docs := docs } := fun q hq =>
    ⟨Documents.bindRow id a q, by show _ ∈ docs.rows; rw [hrows]; exact List.mem_map_of_mem hq,
      hkept q⟩
  obtain ⟨r, hr, rfl, hkey⟩ := hk
  have hsame : ∀ q ∈ g.docs.rows, q.id = r.id → q.key = keyFor underscore a := fun q hq hid => by
    rw [Documents.eq_of_id hq hr hid]
    exact hkey
  refine ⟨⟨⟨fun q hq hqb => ?_, fun q hq hqk => ?_⟩, fun bytes hbytes => ?_⟩, ?_, hG⟩
  · obtain ⟨q₀, hq₀, rfl⟩ := hback q hq
    rw [(hkept q₀).2.1]
    by_cases hid : q₀.id = r.id
    · exact hsame q₀ hq₀ hid
    · rw [Documents.bindRow, if_neg hid] at hqb
      exact hI.paired.key q₀ hq₀ hqb
  · obtain ⟨q₀, hq₀, rfl⟩ := hback q hq
    by_cases hid : q₀.id = r.id
    · rw [Documents.bindRow, if_pos hid]
      exact .inr rfl
    · rw [Documents.bindRow, if_neg hid] at hqk ⊢
      exact hI.paired.binding q₀ hq₀ hqk
  · obtain ⟨id, hid, hstored⟩ := hI.logged bytes hbytes
    exact ⟨id, hG.keyed hid, hstored⟩
  · refine ⟨Documents.bindRow r.id a r, ?_, (hkept r).1, (hkept r).2.1.trans hkey, ?_⟩
    · show _ ∈ docs.rows
      rw [hrows]
      exact List.mem_map_of_mem hr
    · simp [Documents.bindRow]

/-- The attribute passes the validations, and so does a row with nothing but its key. -/
structure Storable (underscore : Bytes → Bytes) (blank : Bytes → Bool) (a : Attribute) : Prop where
  bound : isValid blank (boundRow underscore a)
  keyOnly : isValid blank { key := some (keyFor underscore a) }

/-- A saved record and a name make a valid row: a key has slashes, so it is not blank. -/
lemma storable_of_present (hslash : ∀ b, slash ∈ b → blank b = false)
    (htype : blank a.polymorphicName = false) (hid : blank a.id = false)
    (hname : blank a.name = false) : Storable underscore blank a := by
  have hkey : blank (keyFor underscore a) = false := hslash _ (by simp [keyFor])
  constructor
  · have hbound : (boundRow underscore a).key = some (keyFor underscore a) := rfl
    simp only [isValid, hbound, isPresent, hkey]
    simp [boundRow, htype, hid, hname]
  · simp [isValid, isPresent, hkey]

/-- The default key of a bound row is the derived key. -/
lemma default_key :
    (assignDefaultKey underscore (boundRow underscore a)).getD [] = keyFor underscore a := rfl

lemma asserts_found {job : Option Bytes} (h : Keyed underscore a g.docs id) :
    Asserts underscore a g p (.found id job) := by
  cases job <;> exact h

lemma step_call (c : Call) :
    step underscore blank a p g l (.call c) = if l.isDone then some (g, c.start) else none := by
  cases l <;> rfl

lemma step_compact (id : ℕ) (payloads : List Bytes) :
    step underscore blank a p g l (.compact id payloads) =
      if l.isDone then
        some ({ g with
          tail := g.tail.filter fun e => !captured id payloads e,
          folded := g.folded ++ g.tail.filter (captured id payloads) }, l)
      else none := by
  cases l <;> rfl

/-- A compaction moves rows and loses none. -/
lemma sound_compact (hI : SharedInv underscore a g) (hA : Asserts underscore a g p l) (id : ℕ)
    (payloads : List Bytes) :
    Sound underscore a p g
      { g with
        tail := g.tail.filter fun e => !captured id payloads e,
        folded := g.folded ++ g.tail.filter (captured id payloads) } l := by
  refine ⟨⟨hI.paired, fun bytes hbytes => ?_⟩, hA, .refl p rfl⟩
  obtain ⟨doc, hdoc, hstored⟩ := hI.logged bytes hbytes
  refine ⟨doc, hdoc, ?_⟩
  rcases hstored with htail | hfolded
  · by_cases hc : captured id payloads (doc, bytes)
    · exact .inr (List.mem_append_right _ (List.mem_filter.2 ⟨htail, hc⟩))
    · exact .inl (List.mem_filter.2 ⟨htail, by simpa using hc⟩)
  · exact .inr (List.mem_append_left _ hfolded)

/-- The insert of an update under the key. -/
lemma sound_appending (hI : SharedInv underscore a g) {bytes : Bytes}
    (hk : Keyed underscore a g.docs id) :
    Sound underscore a p g
      { g with tail := g.tail ++ [(id, bytes)], log := bytes :: g.log } (.appended id) := by
  refine ⟨⟨hI.paired, fun b hb => ?_⟩, hk, .refl p rfl⟩
  rcases List.mem_cons.1 hb with rfl | hb
  · exact ⟨id, hk, .inl (by simp)⟩
  · obtain ⟨doc, hdoc, hstored⟩ := hI.logged b hb
    exact ⟨doc, hdoc, hstored.imp_left fun h => List.mem_append_left _ h⟩

/-- A lookup of the binding that finds a row ends the call. -/
lemma sound_found (hI : SharedInv underscore a g) (h : g.docs.findBound a = some r) :
    Sound underscore a p g g (.bound r.id) := by
  obtain ⟨hr, hb⟩ := Documents.findBound_eq_some h
  exact .local hI (hI.paired.bound hr hb)

/-- So does a lookup of the key. -/
lemma sound_foundKey (hI : SharedInv underscore a g) {job : Option Bytes}
    (h : g.docs.findKey (keyFor underscore a) = some r) :
    Sound underscore a p g g (.found r.id job) := by
  obtain ⟨hr, hkey⟩ := Documents.findKey_eq_some h
  exact .local hI (asserts_found ⟨r, hr, rfl, hkey⟩)

/-- The insert of `for`. -/
lemma sound_inserting (hI : SharedInv underscore a g) {attempts fresh : ℕ}
    (hA : Asserts underscore a g p (.inserting attempts))
    (hfresh : fresh ∉ g.docs.rows.map DocumentRow.id) :
    match g.docs.insert ⟨fresh, keyFor underscore a, some a⟩ with
    | some docs => Sound underscore a p g { g with docs := docs } (.bound fresh)
    | none => Sound underscore a p g g (.lookingUp attempts) := by
  cases h : g.docs.insert ⟨fresh, keyFor underscore a, some a⟩ with
  | some docs =>
      obtain ⟨hI', -, hbound, hG⟩ := sound_insert (p := p) hI rfl (.inr rfl) h
      exact ⟨hI', hbound rfl, hG⟩
  | none =>
      refine .local hI ?_
      rcases hA with h₀ | h₁
      · exact .inl ⟨h₀, hI.paired.keyed_of_insert hfresh rfl (by simp) h⟩
      · exact .inr h₁

/-- The insert of `locate!` and `append`. -/
lemma sound_creating (hI : SharedInv underscore a g) {job : Option Bytes} {fresh : ℕ}
    (hfresh : fresh ∉ g.docs.rows.map DocumentRow.id) :
    match g.docs.insert ⟨fresh, keyFor underscore a, none⟩ with
    | some docs => Sound underscore a p g { g with docs := docs } (.found fresh job)
    | none => Sound underscore a p g g (.recovering job) := by
  cases h : g.docs.insert ⟨fresh, keyFor underscore a, none⟩ with
  | some docs =>
      obtain ⟨hI', hkeyed, -, hG⟩ := sound_insert (p := p) hI rfl (.inl rfl) h
      exact ⟨hI', asserts_found hkeyed, hG⟩
  | none => exact .local hI (hI.paired.keyed_of_insert hfresh rfl (by simp) h)

/-- **Every statement is sound.** -/
theorem sound_step (hs : Storable underscore blank a) {x : Action}
    (hI : SharedInv underscore a g) (hA : Asserts underscore a g p l)
    (h : step underscore blank a p g l x = some (g', l')) : Sound underscore a p g g' l' := by
  cases x with
  | call c =>
      rw [step_call] at h
      obtain ⟨-, h⟩ := Option.ite_none_right_eq_some.1 h
      obtain ⟨rfl, rfl⟩ := Prod.mk.inj (Option.some.inj h)
      refine .local hI ?_
      cases c with
      | «for» => exact .inl rfl
      | locate | append bytes => trivial
  | compact id payloads =>
      rw [step_compact] at h
      obtain ⟨-, h⟩ := Option.ite_none_right_eq_some.1 h
      obtain ⟨rfl, rfl⟩ := Prod.mk.inj (Option.some.inj h)
      exact sound_compact hI hA id payloads
  | run fresh =>
      cases l with
      | finding attempts =>
          simp only [step] at h
          cases hfind : g.docs.findBound a with
          | some r =>
              rw [hfind] at h
              obtain ⟨rfl, rfl⟩ := Prod.mk.inj (Option.some.inj h)
              exact sound_found hI hfind
          | none =>
              rw [hfind] at h
              obtain ⟨rfl, rfl⟩ := Prod.mk.inj (Option.some.inj h)
              exact .local hI hA
      | adopting attempts =>
          simp only [step] at h
          cases hfind : g.docs.findUnbound (keyFor underscore a) with
          | some r =>
              rw [hfind] at h
              obtain ⟨rfl, rfl⟩ := Prod.mk.inj (Option.some.inj h)
              obtain ⟨hr, hkey, -⟩ := Documents.findUnbound_eq_some hfind
              exact .local hI ⟨r, hr, rfl, hkey⟩
          | none =>
              rw [hfind] at h
              obtain ⟨rfl, rfl⟩ := Prod.mk.inj (Option.some.inj h)
              -- on the second attempt the key is taken by a row that is no longer unbound
              refine .local hI (hA.imp_right fun ⟨h₁, id, hk⟩ => ⟨h₁, id, ?_⟩)
              exact hI.paired.bound_of_key hk (Documents.findUnbound_eq_none hfind)
      | claiming attempts id =>
          simp only [step, hs.bound, if_true] at h
          obtain ⟨docs, hdocs⟩ := Option.isSome_iff_exists.1 (hI.paired.bind_isSome hA)
          rw [hdocs] at h
          obtain ⟨rfl, rfl⟩ := Prod.mk.inj (Option.some.inj h)
          exact sound_bind hI hA hdocs
      | rescuing attempts => exact hA.elim
      | inserting attempts =>
          simp only [step, hs.bound, if_true, default_key] at h
          obtain ⟨hfresh, h⟩ := Option.ite_none_left_eq_some.1 h
          have hsound := sound_inserting hI hA hfresh
          cases hins : g.docs.insert ⟨fresh, keyFor underscore a, some a⟩ with
          | some docs | none =>
              rw [hins] at h hsound
              obtain ⟨rfl, rfl⟩ := Prod.mk.inj (Option.some.inj h)
              exact hsound
      | lookingUp attempts =>
          simp only [step] at h
          cases hfind : g.docs.findBound a with
          | some r =>
              rw [hfind] at h
              obtain ⟨rfl, rfl⟩ := Prod.mk.inj (Option.some.inj h)
              exact sound_found hI hfind
          | none =>
              rw [hfind] at h
              rcases hA with ⟨rfl, hk⟩ | ⟨rfl, id, hb⟩
              · obtain ⟨rfl, rfl⟩ := Prod.mk.inj (Option.some.inj h)
                exact .local hI (.inr ⟨rfl, hk⟩)
              · -- the second lookup cannot miss a row that is bound
                exact absurd hfind hb.findBound_ne_none
      | locating job =>
          simp only [step] at h
          cases hfind : g.docs.findKey (keyFor underscore a) with
          | some r =>
              rw [hfind] at h
              obtain ⟨rfl, rfl⟩ := Prod.mk.inj (Option.some.inj h)
              exact sound_foundKey hI hfind
          | none =>
              rw [hfind] at h
              obtain ⟨rfl, rfl⟩ := Prod.mk.inj (Option.some.inj h)
              exact .local hI trivial
      | creating job =>
          simp only [step, hs.keyOnly, if_true] at h
          obtain ⟨hfresh, h⟩ := Option.ite_none_left_eq_some.1 h
          have hsound := @sound_creating underscore a g p hI job fresh hfresh
          cases hins : g.docs.insert ⟨fresh, keyFor underscore a, none⟩ with
          | some docs | none =>
              rw [hins] at h hsound
              obtain ⟨rfl, rfl⟩ := Prod.mk.inj (Option.some.inj h)
              exact hsound
      | recovering job =>
          simp only [step] at h
          obtain ⟨id, hk⟩ := hA
          cases hfind : g.docs.findKey (keyFor underscore a) with
          | some r =>
              rw [hfind] at h
              obtain ⟨rfl, rfl⟩ := Prod.mk.inj (Option.some.inj h)
              exact sound_foundKey hI hfind
          | none => exact absurd hfind hk.findKey_ne_none
      | appending id bytes =>
          obtain ⟨rfl, rfl⟩ := Prod.mk.inj (Option.some.inj h)
          exact sound_appending hI hA
      | idle | bound id | located id | appended id | raised => simp [step] at h

/-! ## Runs -/

abbrev CfgInv (underscore : Bytes → Bytes) (a : Attribute) (c : Cfg) : Prop :=
  Inv (SharedInv underscore a) (Asserts underscore a) c

/-- No document of the table has the derived key or the binding. -/
def Unclaimed (underscore : Bytes → Bytes) (a : Attribute) (t : Documents) : Prop :=
  ∀ r ∈ t.rows, r.key ≠ keyFor underscore a ∧ r.binding ≠ some a

lemma cfgInv_init (h : Unclaimed underscore a t) : CfgInv underscore a (init t) := by
  refine ⟨⟨⟨fun r hr hb => ?_, fun r hr hk => ?_⟩, by simp [init]⟩, fun _ => trivial⟩
  · exact absurd hb (h r hr).2
  · exact absurd hk (h r hr).1

lemma cfgInv_run (hs : Storable underscore blank a) {as : List (ℕ × Action)} {c c' : Cfg}
    (hc : CfgInv underscore a c) (h : run (system underscore blank a).act c as = some c') :
    CfgInv underscore a c' :=
  hc.run
    (fun _ _ _ _ _ _ hI hA hstep =>
      ⟨(sound_step hs hI hA hstep).shared, (sound_step hs hI hA hstep).asserts,
        (sound_step hs hI hA hstep).guarantee⟩)
    (fun _ _ _ _ _ _ hG hA => asserts_stable hG hA) h

/-- The two identities of a document have converged. -/
structure Converged (underscore : Bytes → Bytes) (a : Attribute) (c : Cfg) : Prop where
  never_raised : ∀ p, c.locals p ≠ .raised
  /-- The row that `for` returns carries the key and the binding, and no other row does either. -/
  one_row : ∀ p id, c.locals p = .bound id →
    ∃ r ∈ c.shared.docs.rows, r.id = id ∧ r.key = keyFor underscore a ∧ r.binding = some a ∧
      ∀ q ∈ c.shared.docs.rows, q.key = keyFor underscore a ∨ q.binding = some a → q = r
  same_row : ∀ p q id id', c.locals p = .bound id → c.locals q = .bound id' → id = id'
  /-- An appended update is with the one row under the key. -/
  appended : ∀ bytes ∈ c.shared.log, ∃ r ∈ c.shared.docs.rows, r.key = keyFor underscore a ∧
    Stored c.shared r.id bytes

/-- **A record's attribute and its key converge on one row**, in every interleaving of the
statements of any number of `for`, `locate!` and `append` calls, and one retry is enough. -/
theorem binding_converges (hslash : ∀ b, slash ∈ b → blank b = false)
    (htype : blank a.polymorphicName = false) (hid : blank a.id = false)
    (hname : blank a.name = false) (ht : Unclaimed underscore a t) {as : List (ℕ × Action)}
    {c : Cfg} (h : run (system underscore blank a).act (init t) as = some c) :
    Converged underscore a c := by
  have hc := cfgInv_run (storable_of_present hslash htype hid hname) (cfgInv_init ht) h
  have hbound : ∀ p id, c.locals p = .bound id → Bound underscore a c.shared.docs id :=
    fun p id hp => by
      have := hc.locals p
      rwa [hp] at this
  refine ⟨fun p hp => ?_, fun p id hp => ?_, fun p q id id' hp hq => ?_, fun bytes hbytes => ?_⟩
  · have := hc.locals p
    rwa [hp] at this
  · obtain ⟨r, hr, hid, hkey, hb⟩ := hbound p id hp
    refine ⟨r, hr, hid, hkey, hb, fun q hq hclaim => Documents.eq_of_key hq hr ?_⟩
    rw [hkey]
    exact hclaim.elim (fun h => h) fun hqb => hc.shared.paired.key q hq hqb
  · exact (hbound p id hp).keyed.unique (hbound q id' hq).keyed
  · obtain ⟨id, ⟨r, hr, rfl, hkey⟩, hstored⟩ := hc.shared.logged bytes hbytes
    exact ⟨r, hr, hkey, hstored⟩

section Examples

def post : Attribute := ⟨[80], [49], [98]⟩

/-- The race of the retry: a channel creates the row between the adoption's look and the
insert. -/
def raceActions : List (ℕ × Action) :=
  [(0, .call .for), (0, .run 0), (0, .run 0), (1, .call (.append [7])), (1, .run 0), (1, .run 5),
    (1, .run 0), (0, .run 6), (0, .run 0), (0, .run 0), (0, .run 0), (0, .run 0)]

/-- The process that lost the race adopts the channel's row. -/
theorem binding_converges_race :
    ∃ c, run (system (fun b => b) List.isEmpty post).act (init ⟨[], by simp, by simp, by simp⟩)
        raceActions = some c ∧
      c.locals 0 = .bound 5 ∧ Converged (fun b => b) post c := by
  have hrun : (run (system (fun b => b) List.isEmpty post).act
      (init ⟨[], by simp, by simp, by simp⟩) raceActions).map (fun c => c.locals 0) =
        some (.bound 5) := by decide
  obtain ⟨c, hc, hbound⟩ := Option.map_eq_some_iff.1 hrun
  refine ⟨c, hc, hbound, binding_converges (fun b hb => ?_) rfl rfl rfl (fun r hr => ?_) hc⟩
  · cases b with
    | nil => simp at hb
    | cons x b => rfl
  · simp at hr

end Examples

end Yrby.Binding
