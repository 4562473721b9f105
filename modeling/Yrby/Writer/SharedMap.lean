import Yrby.Writer.SharedValues

/-!
# `Y::Map` handles

The calls on one handle of a shared map, and the Hash they amount to: it has the keys' strings
and what `asRead` makes of the values, and a value that cannot be written changes nothing.
-/

namespace Yrby.SharedMap

open HtmlCore (Dict Float64)
open SharedValues
open RuleText (Hash)

/-! ## The handle -/

/-- What the handle resolves to: nothing once the map is deleted. -/
abbrev Live := Option (Hash Cell)

inductive MapError
  | convert (e : ConvertError)
  /-- `"map no longer exists"` -/
  | gone

/-- What a call returns: a Ruby value, or the handle of a new text. -/
inductive Answer
  | value (v : Obj)
  | text

/-- A call that writes. -/
inductive Call
  | set (key value : Obj)
  | setText (key : Obj) (content : String)
  | delete (key : Obj)
  | clear

/-- `Map::remove` -/
def remove {α : Type} (d : Hash α) (key : String) : Hash α where
  entries := d.entries.filter fun entry => decide (entry.1 ≠ key)
  nodup := d.nodup.sublist (List.filter_sublist.map Prod.fst)

section

variable (toS : Obj → String)

/-- `RbMap::get` -/
def get (m : Live) (key : Obj) : Obj :=
  match m.bind (·.get (keyToString toS key)) with
  | some cell => readCell cell
  | none => .nil

/-- `RbMap::has_key` -/
def hasKey (m : Live) (key : Obj) : Bool :=
  (m.map fun d => d.entries.containsKey (keyToString toS key)).getD false

/-- `RbMap::keys` -/
def keys (m : Live) : List String := (m.map fun d => d.entries.map Prod.fst).getD []

/-- `RbMap::size` -/
def size (m : Live) : ℕ := (m.map fun d => d.entries.length).getD 0

/-- `RbMap::set` -/
def set (m : Live) (key value : Obj) : Live × Except MapError Answer :=
  match rubyToInvalue toS value with
  | .error e => (m, .error (.convert e))
  | .ok iv =>
    match m with
    | none => (none, .error .gone)
    | some d => (some (d.put (keyToString toS key) (toIn iv)), .ok (.value value))

/-- `RbMap::set_text` -/
def setText (m : Live) (key : Obj) (content : String) : Live × Except MapError Answer :=
  match m with
  | none => (none, .error .gone)
  | some d => (some (d.put (keyToString toS key) (.text content)), .ok .text)

/-- `RbMap::delete` -/
def delete (m : Live) (key : Obj) : Live × Except MapError Answer :=
  match m with
  | none => (none, .ok (.value .nil))
  | some d =>
    let prev := (d.get (keyToString toS key)).map readCell
    (some (remove d (keyToString toS key)), .ok (.value (prev.getD .nil)))

/-- `RbMap::clear` -/
def clear (m : Live) : Live × Except MapError Answer :=
  (m.map fun _ => Hash.empty, .ok (.value .nil))

def call (m : Live) : Call → Live × Except MapError Answer
  | .set key value => set toS m key value
  | .setText key content => setText toS m key content
  | .delete key => delete toS m key
  | .clear => clear m

/-- The calls in their order, with what each returns. -/
def run : Live → List Call → Live × List (Except MapError Answer)
  | m, [] => (m, [])
  | m, c :: calls =>
    let after := call toS m c
    let rest := run after.1 calls
    (rest.1, after.2 :: rest.2)

/-! ## The Hash it amounts to -/

/-- A Hash under strings, by what it has at each key. -/
abbrev RubyHash := String → Option Obj

/-- A call on the Hash, with the answer unless the call raises. -/
def RubyHash.call (h : RubyHash) : Call → RubyHash × Option Answer
  | .set key value =>
    if Writable 0 value then
      (Function.update h (keyToString toS key) (some (asRead toS value)), some (.value value))
    else (h, none)
  | .setText key content =>
    (Function.update h (keyToString toS key) (some (.string content)), some .text)
  | .delete key =>
    (Function.update h (keyToString toS key) none,
      some (.value ((h (keyToString toS key)).getD .nil)))
  | .clear => (fun _ => none, some (.value .nil))

def RubyHash.run : RubyHash → List Call → RubyHash × List (Option Answer)
  | h, [] => (h, [])
  | h, c :: calls =>
    let after := RubyHash.call toS h c
    let rest := RubyHash.run after.1 calls
    (rest.1, after.2 :: rest.2)

end

/-- What a live map shows at each key. -/
def view (d : Hash Cell) : RubyHash := fun key => (d.get key).map readCell

lemma get_remove {α : Type} (d : Hash α) (key key' : String) :
    (remove d key).get key' = if key' = key then none else d.get key' := by
  obtain ⟨entries, nodup⟩ := d
  simp only [Hash.get, remove, Dict.get]
  clear nodup
  induction entries with
  | nil => simp
  | cons entry entries ih =>
    obtain ⟨name, value⟩ := entry
    by_cases here : name = key
    · rw [List.filter_cons_of_neg (by simp [here]), ih, List.lookup_cons]
      by_cases same : key' = key
      · simp [same]
      · subst here
        simp [same, beq_eq_false_iff_ne.mpr same]
    · rw [List.filter_cons_of_pos (by simp [here]), List.lookup_cons, List.lookup_cons, ih]
      by_cases same : key' = name
      · subst same
        simp [here]
      · simp [beq_eq_false_iff_ne.mpr same]

lemma view_put (d : Hash Cell) (key : String) (cell : Cell) :
    view (d.put key cell) = Function.update (view d) key (some (readCell cell)) := by
  funext key'
  have inserted : (d.put key cell).get key' = if key' = key then some cell else d.get key' :=
    Hash.get_putEntries
  simp only [view, inserted, Function.update_apply]
  split <;> rfl

lemma view_remove (d : Hash Cell) (key : String) :
    view (remove d key) = Function.update (view d) key none := by
  funext key'
  simp only [view, get_remove, Function.update_apply]
  split <;> rfl

lemma view_empty : view Hash.empty = fun _ => none := rfl

section

variable (toS : Obj → String)

/-- The handle's map `m` shows the Hash `h`. -/
def Shows (m : Live) (h : RubyHash) : Prop := ∃ d, m = some d ∧ view d = h

lemma shows_set {d : Hash Cell} {key value : Obj} :
    Shows (set toS (some d) key value).1 (RubyHash.call toS (view d) (.set key value)).1 ∧
      (set toS (some d) key value).2.toOption =
        (RubyHash.call toS (view d) (.set key value)).2 := by
  obtain ⟨iv, made, fine, reads⟩ | ⟨⟨e, failed⟩, barred⟩ := reads_rubyToInvalue toS value
  · rw [set, made, RubyHash.call, if_pos fine, ← reads]
    exact ⟨⟨_, rfl, view_put d _ _⟩, rfl⟩
  · rw [set, failed, RubyHash.call, if_neg barred]
    exact ⟨⟨d, rfl, rfl⟩, rfl⟩

lemma shows_call {m : Live} {h : RubyHash} (shows : Shows m h) (c : Call) :
    Shows (call toS m c).1 (RubyHash.call toS h c).1 ∧
      (call toS m c).2.toOption = (RubyHash.call toS h c).2 := by
  obtain ⟨d, rfl, rfl⟩ := shows
  cases c with
  | set key value => exact shows_set toS
  | setText key content =>
    refine ⟨⟨_, rfl, ?_⟩, rfl⟩
    rw [view_put]
    simp [RubyHash.call, readCell, outToAny, anyToRuby]
  | delete key => exact ⟨⟨_, rfl, view_remove d _⟩, rfl⟩
  | clear => exact ⟨⟨_, rfl, view_empty⟩, rfl⟩

lemma shows_run {m : Live} {h : RubyHash} (shows : Shows m h) (calls : List Call) :
    Shows (run toS m calls).1 (RubyHash.run toS h calls).1 ∧
      (run toS m calls).2.map Except.toOption = (RubyHash.run toS h calls).2 := by
  induction calls generalizing m h with
  | nil => exact ⟨shows, rfl⟩
  | cons c calls ih =>
    obtain ⟨after, answer⟩ := shows_call toS shows c
    obtain ⟨rest, answers⟩ := ih after
    refine ⟨rest, ?_⟩
    rw [run, RubyHash.run, List.map_cons, answer, answers]

lemma get_of_shows {m : Live} {h : RubyHash} (shows : Shows m h) (key : Obj) :
    get toS m key = (h (keyToString toS key)).getD .nil := by
  obtain ⟨d, rfl, rfl⟩ := shows
  show (match d.get (keyToString toS key) with | some cell => readCell cell | none => .nil) = _
  rw [view]
  cases d.get (keyToString toS key) <;> rfl

lemma hasKey_of_shows {m : Live} {h : RubyHash} (shows : Shows m h) (key : Obj) :
    hasKey toS m key = (h (keyToString toS key)).isSome := by
  obtain ⟨d, rfl, rfl⟩ := shows
  rw [view, Option.isSome_map]
  rfl

/-- The keys are those of the Hash, each of them once. -/
lemma keys_of_shows {m : Live} {h : RubyHash} (shows : Shows m h) :
    (keys m).Nodup ∧ size m = (keys m).length ∧ ∀ key, key ∈ keys m ↔ (h key).isSome = true := by
  obtain ⟨d, rfl, rfl⟩ := shows
  refine ⟨d.nodup, by simp [size, keys], fun key => ?_⟩
  rw [view, Option.isSome_map]
  show key ∈ d.entries.map Prod.fst ↔ (List.lookup key d.entries).isSome = true
  rw [List.lookup_isSome_iff]
  simp

/-- **Runs of calls on one handle.**  From any map, the calls answer as they do on a Hash of what
it shows, with the keys' strings and the values `asRead` gives, and raise exactly where a value
nests too deep or has an integer outside `i64`.  Reading the map then reads that Hash. -/
theorem runs_as_hash (d : Hash Cell) (calls : List Call) :
    let m := (run toS (some d) calls).1
    let h := (RubyHash.run toS (view d) calls).1
    (run toS (some d) calls).2.map Except.toOption = (RubyHash.run toS (view d) calls).2 ∧
      (∀ key, get toS m key = (h (keyToString toS key)).getD .nil ∧
        hasKey toS m key = (h (keyToString toS key)).isSome) ∧
      (keys m).Nodup ∧ size m = (keys m).length ∧
      ∀ key, key ∈ keys m ↔ (h key).isSome = true := by
  intro m h
  obtain ⟨shows, answers⟩ := shows_run toS ⟨d, rfl, rfl⟩ calls
  exact ⟨answers, fun key => ⟨get_of_shows toS shows key, hasKey_of_shows toS shows key⟩,
    keys_of_shows shows⟩

/-- **A deleted map.**  No call brings it back, and it reads as empty. -/
lemma run_gone (calls : List Call) (key : Obj) :
    (run toS none calls).1 = none ∧ get toS none key = .nil ∧ hasKey toS none key = false ∧
      keys none = [] := by
  refine ⟨?_, rfl, rfl, rfl⟩
  induction calls with
  | nil => rfl
  | cons c calls ih =>
    have still : (call toS none c).1 = none := by
      cases c with
      | set key value =>
        rw [call, set]
        cases rubyToInvalue toS value <;> rfl
      | setText key content => rfl
      | delete key => rfl
      | clear => rfl
    rw [run, still]
    exact ih

/-! ## Writing back what was read -/

/-- Everything in the Hash can be written and reads back as itself. -/
def AllSettled (h : RubyHash) : Prop := ∀ key v, h key = some v → Settled toS v

variable {toS} in
lemma AllSettled.update {h : RubyHash} (settled : AllSettled toS h) {v : Option Obj}
    (new : ∀ o, v = some o → Settled toS o) (key : String) :
    AllSettled toS (Function.update h key v) := by
  intro key' o found
  rw [Function.update_apply] at found
  split at found
  · exact new o found
  · exact settled key' o found

lemma settled_call {h : RubyHash} (settled : AllSettled toS h) (c : Call) :
    AllSettled toS (RubyHash.call toS h c).1 := by
  cases c with
  | set key value =>
    rw [RubyHash.call]
    split
    · rename_i fine
      refine settled.update ?_ _
      rintro o ⟨rfl⟩
      exact settled_asRead toS fine
    · exact settled
  | setText key content =>
    refine settled.update ?_ _
    rintro o ⟨rfl⟩
    exact ⟨⟨by simp [levels], rfl⟩, by rw [asRead]⟩
  | delete key => exact settled.update (fun o gone => absurd gone (by simp)) _
  | clear => exact fun key v found => absurd found (by simp [RubyHash.call])

lemma settled_run {h : RubyHash} (settled : AllSettled toS h) (calls : List Call) :
    AllSettled toS (RubyHash.run toS h calls).1 := by
  induction calls generalizing h with
  | nil => exact settled
  | cons c calls ih => exact ih (settled_call toS settled c)

/-- Setting a key to what it has changes nothing that is seen. -/
lemma call_set_same {h : RubyHash} {key : Obj} {v : Obj} (settled : Settled toS v)
    (found : h (keyToString toS key) = some v) :
    RubyHash.call toS h (.set key v) = (h, some (.value v)) := by
  have same : Function.update h (keyToString toS key) (some v) = h := by
    rw [← found, Function.update_eq_self]
  rw [RubyHash.call, if_pos settled.1, settled.2, same]

/-- **Writing back what was read.**  On a map that calls built, setting a key to the value read
there is accepted, and the map reads as before under every key. -/
theorem write_back (calls : List Call) (key : Obj)
    (present : hasKey toS (run toS (some Hash.empty) calls).1 key = true) :
    let m := (run toS (some Hash.empty) calls).1
    let after := set toS m key (get toS m key)
    after.2.toOption = some (.value (get toS m key)) ∧
      ∀ key', get toS after.1 key' = get toS m key' ∧
        hasKey toS after.1 key' = hasKey toS m key' := by
  intro m after
  obtain ⟨shows, -⟩ := shows_run toS ⟨Hash.empty, rfl, view_empty⟩ calls
  have nothing : AllSettled toS fun _ => none := fun _ _ found => absurd found (by simp)
  have all := settled_run toS nothing calls
  obtain ⟨v, found⟩ :
      ∃ v, (RubyHash.run toS (fun _ => none) calls).1 (keyToString toS key) = some v := by
    rw [← Option.isSome_iff_exists, ← hasKey_of_shows toS shows key]
    exact present
  have read : get toS m key = v := by
    rw [get_of_shows toS shows key, found]
    rfl
  obtain ⟨shown, answer⟩ := shows_call toS shows (.set key v)
  rw [call_set_same toS (all _ _ found) found] at shown answer
  have same : after = set toS m key v := by rw [← read]
  rw [same, read]
  refine ⟨answer, fun key' => ?_⟩
  rw [get_of_shows toS shows, hasKey_of_shows toS shows, ← get_of_shows toS shown,
    ← hasKey_of_shows toS shown]
  exact ⟨rfl, rfl⟩

/-- A Hash with a Symbol and a Float in it, written under a Symbol and read under its String. -/
theorem write_back_settings :
    let toS := fun _ => ""
    let size : Float64 := ⟨12, 12, true, true, "12"⟩
    let m := (run toS (some Hash.empty) [.set (.other "settings")
      (.hash [(.other "mode", .other "dark"), (.string "size", .float size)])]).1
    let after := set toS m (.string "settings") (get toS m (.string "settings"))
    after.2.toOption = some (.value (get toS m (.string "settings"))) ∧
      ∀ key', get toS after.1 key' = get toS m key' ∧
        hasKey toS after.1 key' = hasKey toS m key' :=
  write_back (fun _ => "") _ (.string "settings") (by decide)

end

end Yrby.SharedMap
