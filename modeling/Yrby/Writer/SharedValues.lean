import Mathlib.Logic.Function.Basic
import Yrby.Render.CompileRules
import Yrby.Writer.InPlace
import Yrby.Writer.Indexes

/-!
# Ruby values in shared maps

A value written to a `Y::Map` crosses from Ruby into yrs and is read back as another Ruby
value.  A Hash becomes a map of its own under the keys' strings, an Array is embedded with all
that is in it, and what neither nests too deep nor holds an integer outside `i64` is accepted.
`asRead` says what comes back, and a handle then behaves as a Hash of such values.
-/

namespace Yrby.SharedValues

open HtmlCore
open RuleText (Hash)
open Writer.InPlace (maxNesting)

/-! ## Ruby into yrs -/

/-- A Ruby object. -/
inductive Obj
  | nil
  | bool (b : Bool)
  | integer (n : ℤ)
  | float (f : Float64)
  | string (s : String)
  | array (elements : List Obj)
  | hash (pairs : List (Obj × Obj))
  /-- A Symbol, or any other object, by its `to_s`. -/
  | other (text : String)

/-- `InValue` -/
inductive InValue
  | any (v : Value)
  | map (entries : List (String × InValue))

/-- Why a value is refused. -/
inductive ConvertError
  | tooDeep (depth : ℕ)
  | outOfRange (n : ℤ)
  deriving DecidableEq

/-- `MAX_SAFE_INTEGER` -/
def maxSafeInteger : ℕ := 2 ^ 53

/-- Entries collected into a map: the last one of a key counts. -/
def collect {α : Type} (entries : List (String × α)) : Dict α :=
  entries.foldl (fun d entry => Hash.putEntries entry.1 entry.2 d) []

mutual

/-- `invalue_to_any` -/
def invalueToAny : InValue → Value
  | .any v => v
  | .map entries => .map (collect (entriesToAny entries))

def entriesToAny : List (String × InValue) → List (String × Value)
  | [] => []
  | entry :: entries => (entry.1, invalueToAny entry.2) :: entriesToAny entries

end

section

variable (toS : Obj → String)

/-- `key_to_string` -/
def keyToString : Obj → String
  | .string s => s
  | .other text => text
  | key => toS key

/-- The check of `invalue_at`. -/
def atDepth {α : Type} (depth : ℕ) (result : Except ConvertError α) : Except ConvertError α :=
  if maxNesting < depth then .error (.tooDeep depth) else result

mutual

/-- `invalue_at` -/
def invalueAt (depth : ℕ) : Obj → Except ConvertError InValue
  | .nil => atDepth depth (.ok (.any .null))
  | .bool b => atDepth depth (.ok (.any (.bool b)))
  | .hash pairs => atDepth depth ((pairsAt (depth + 1) pairs).map .map)
  | .array elements =>
    atDepth depth ((itemsAt (depth + 1) elements).map fun items => .any (.array items))
  | .integer n =>
    atDepth depth (if Sequence.IsI64 n then .ok (.any (.int n)) else .error (.outOfRange n))
  | .float f => atDepth depth (.ok (.any (.float f)))
  | .string s => atDepth depth (.ok (.any (.string s)))
  | .other text => atDepth depth (.ok (.any (.string text)))

/-- `pairs_at` -/
def pairsAt (depth : ℕ) : List (Obj × Obj) → Except ConvertError (List (String × InValue))
  | [] => .ok []
  | pair :: pairs =>
    (invalueAt depth pair.2).bind fun v =>
      (pairsAt depth pairs).map fun rest => (keyToString toS pair.1, v) :: rest

/-- The items of an Array. -/
def itemsAt (depth : ℕ) : List Obj → Except ConvertError (List Value)
  | [] => .ok []
  | item :: items =>
    (invalueAt depth item).bind fun v =>
      (itemsAt depth items).map fun rest => invalueToAny v :: rest

end

/-- `ruby_to_invalue` -/
def rubyToInvalue (v : Obj) : Except ConvertError InValue := invalueAt toS 0 v

end

/-! ## yrs into Ruby -/

/-- What is stored at a key or an index. -/
inductive Cell
  | any (v : Value)
  | map (entries : List (String × Cell))
  | array (elements : List Cell)
  | text (s : String)

mutual

/-- `to_in`, as it is stored. -/
def toIn : InValue → Cell
  | .any v => .any v
  | .map entries => .map (collect (entriesToIn entries))

def entriesToIn : List (String × InValue) → List (String × Cell)
  | [] => []
  | entry :: entries => (entry.1, toIn entry.2) :: entriesToIn entries

end

mutual

/-- `out_to_any` -/
def outToAny : Cell → Value
  | .any v => v
  | .map entries => .map (entriesOut entries)
  | .array elements => .array (elementsOut elements)
  | .text s => .string s

def entriesOut : List (String × Cell) → List (String × Value)
  | [] => []
  | entry :: entries => (entry.1, outToAny entry.2) :: entriesOut entries

def elementsOut : List Cell → List Value
  | [] => []
  | element :: elements => outToAny element :: elementsOut elements

end

/-- A double read back: a whole number is an Integer, as `JSON.parse` would give. -/
def numberOf (f : Float64) : Obj :=
  if f.whole && decide (f.toI64.natAbs ≤ maxSafeInteger) then .integer f.toI64 else .float f

mutual

/-- `any_to_ruby` -/
def anyToRuby : Value → Obj
  | .null | .undefined => .nil
  | .bool b => .bool b
  | .int n | .bigInt n => .integer n
  | .float f => numberOf f
  | .string s => .string s
  -- A binary String, with a character for each byte.
  | .buffer bytes => .string (String.ofList (bytes.map fun b => Char.ofNat b.toNat))
  | .array items => .array (itemsToRuby items)
  | .map entries => .hash (entriesToRuby entries)

def itemsToRuby : List Value → List Obj
  | [] => []
  | item :: items => anyToRuby item :: itemsToRuby items

def entriesToRuby : List (String × Value) → List (Obj × Obj)
  | [] => []
  | entry :: entries => (.string entry.1, anyToRuby entry.2) :: entriesToRuby entries

end

/-- A stored value, read. -/
def readCell (cell : Cell) : Obj := anyToRuby (outToAny cell)

/-! ## What comes back -/

/-- The entries under their keys. -/
def underNames (entries : List (String × Obj)) : List (Obj × Obj) :=
  entries.map fun entry => (.string entry.1, entry.2)

section

variable (toS : Obj → String)

mutual

/-- What a written value is read back as. -/
def asRead : Obj → Obj
  | .nil => .nil
  | .bool b => .bool b
  | .integer n => .integer n
  | .float f => numberOf f
  | .string s => .string s
  | .other text => .string text
  | .array elements => .array (asReadItems elements)
  | .hash pairs => .hash (underNames (collect (asReadPairs pairs)))

def asReadPairs : List (Obj × Obj) → List (String × Obj)
  | [] => []
  | pair :: pairs => (keyToString toS pair.1, asRead pair.2) :: asReadPairs pairs

def asReadItems : List Obj → List Obj
  | [] => []
  | item :: items => asRead item :: asReadItems items

end

end

mutual

/-- The levels of Hash and Array inside a value. -/
def levels : Obj → ℕ
  | .hash pairs => levelsOfPairs pairs
  | .array elements => levelsOfItems elements
  | _ => 0

def levelsOfPairs : List (Obj × Obj) → ℕ
  | [] => 0
  | pair :: pairs => max (levels pair.2 + 1) (levelsOfPairs pairs)

def levelsOfItems : List Obj → ℕ
  | [] => 0
  | item :: items => max (levels item + 1) (levelsOfItems items)

end

mutual

/-- Every integer in the value is an `i64`. -/
def fits : Obj → Bool
  | .hash pairs => pairsFit pairs
  | .array elements => itemsFit elements
  | .integer n => decide (Sequence.IsI64 n)
  | _ => true

def pairsFit : List (Obj × Obj) → Bool
  | [] => true
  | pair :: pairs => fits pair.2 && pairsFit pairs

def itemsFit : List Obj → Bool
  | [] => true
  | item :: items => fits item && itemsFit items

end

/-- The value can be written where `depth` levels are above it. -/
def Writable (depth : ℕ) (v : Obj) : Prop := depth + levels v ≤ maxNesting ∧ fits v = true

instance (depth : ℕ) (v : Obj) : Decidable (Writable depth v) :=
  inferInstanceAs (Decidable (_ ∧ _))

/-! ### Levels and integers of the parts -/

lemma levelsOfItems_le {depth : ℕ} (hdepth : depth ≤ maxNesting) :
    ∀ items : List Obj, depth + levelsOfItems items ≤ maxNesting ↔
      ∀ item ∈ items, depth + 1 + levels item ≤ maxNesting
  | [] => by simp [levelsOfItems, hdepth]
  | item :: items => by
    rw [List.forall_mem_cons, ← levelsOfItems_le hdepth items, levelsOfItems]
    omega

lemma itemsFit_iff : ∀ items : List Obj,
    itemsFit items = true ↔ ∀ item ∈ items, fits item = true
  | [] => by simp [itemsFit]
  | item :: items => by
    rw [List.forall_mem_cons, ← itemsFit_iff items, itemsFit, Bool.and_eq_true]

/-- An Array can be written when its own level and each of its items can. -/
lemma writable_array {depth : ℕ} {items : List Obj} :
    Writable depth (.array items) ↔
      depth ≤ maxNesting ∧ ∀ item ∈ items, Writable (depth + 1) item := by
  simp only [Writable, levels, fits, forall₂_and]
  rw [itemsFit_iff]
  constructor
  · rintro ⟨nested, fit⟩
    have above : depth ≤ maxNesting := by omega
    exact ⟨above, (levelsOfItems_le above items).mp nested, fit⟩
  · rintro ⟨above, nested, fit⟩
    exact ⟨(levelsOfItems_le above items).mpr nested, fit⟩

lemma levelsOfPairs_eq : ∀ pairs : List (Obj × Obj),
    levelsOfPairs pairs = levelsOfItems (pairs.map Prod.snd)
  | [] => rfl
  | pair :: pairs => by
    rw [levelsOfPairs, List.map_cons, levelsOfItems, levelsOfPairs_eq pairs]

lemma pairsFit_eq : ∀ pairs : List (Obj × Obj), pairsFit pairs = itemsFit (pairs.map Prod.snd)
  | [] => rfl
  | pair :: pairs => by
    rw [pairsFit, List.map_cons, itemsFit, pairsFit_eq pairs]

/-- A Hash can be written where an Array of its values can. -/
lemma writable_hash {depth : ℕ} {pairs : List (Obj × Obj)} :
    Writable depth (.hash pairs) ↔
      depth ≤ maxNesting ∧ ∀ pair ∈ pairs, Writable (depth + 1) pair.2 := by
  have as_array : Writable depth (.hash pairs) ↔ Writable depth (.array (pairs.map Prod.snd)) := by
    simp only [Writable, levels, fits, levelsOfPairs_eq, pairsFit_eq]
  rw [as_array, writable_array, List.forall_mem_map]

/-! ### Entries -/

/-- The values of the entries, changed. -/
def onValues {α β : Type} (f : α → β) (entries : List (String × α)) : List (String × β) :=
  entries.map fun entry => (entry.1, f entry.2)

section

variable {α β : Type} (f : α → β)

lemma onValues_putEntries (key : String) (value : α) (d : Dict α) :
    onValues f (Hash.putEntries key value d) =
      Hash.putEntries key (f value) (onValues f d) := by
  induction d with
  | nil => rfl
  | cons entry d ih =>
    simp only [onValues, Hash.putEntries, List.map_cons] at ih ⊢
    split
    · rfl
    · rw [List.map_cons, ih]

/-- Collecting the entries does not look at the values. -/
lemma onValues_collect (entries : List (String × α)) :
    onValues f (collect entries) = collect (onValues f entries) := by
  have from_any : ∀ d : Dict α,
      onValues f (entries.foldl (fun d entry => Hash.putEntries entry.1 entry.2 d) d) =
        (onValues f entries).foldl (fun d entry => Hash.putEntries entry.1 entry.2 d)
          (onValues f d) := by
    induction entries with
    | nil => exact fun _ => rfl
    | cons entry entries ih =>
      intro d
      have first := ih (Hash.putEntries entry.1 entry.2 d)
      rw [onValues_putEntries] at first
      exact first
  exact from_any []

end

lemma entriesToAny_eq : ∀ entries, entriesToAny entries = onValues invalueToAny entries
  | [] => rfl
  | entry :: entries => by
    rw [entriesToAny, entriesToAny_eq entries]
    rfl

lemma entriesOut_eq : ∀ entries, entriesOut entries = onValues outToAny entries
  | [] => rfl
  | entry :: entries => by
    rw [entriesOut, entriesOut_eq entries]
    rfl

lemma entriesToRuby_eq :
    ∀ entries, entriesToRuby entries = underNames (onValues anyToRuby entries)
  | [] => rfl
  | entry :: entries => by
    rw [entriesToRuby, entriesToRuby_eq entries]
    rfl

lemma itemsToRuby_eq : ∀ items, itemsToRuby items = items.map anyToRuby
  | [] => rfl
  | item :: items => by
    rw [itemsToRuby, itemsToRuby_eq items]
    rfl

mutual

/-- A snapshot of what was stored is the flattened value. -/
lemma outToAny_toIn : ∀ v : InValue, outToAny (toIn v) = invalueToAny v
  | .any v => by rw [toIn, outToAny, invalueToAny]
  | .map entries => by
    rw [toIn, outToAny, invalueToAny, entriesOut_eq, onValues_collect, ← entriesOut_eq,
      entriesOut_toIn entries]

lemma entriesOut_toIn : ∀ entries, entriesOut (entriesToIn entries) = entriesToAny entries
  | [] => by rw [entriesToIn, entriesOut, entriesToAny]
  | entry :: entries => by
    rw [entriesToIn, entriesOut, entriesToAny, outToAny_toIn entry.2, entriesOut_toIn entries]

end

/-! ### The conversion -/

/-- The conversion succeeds exactly when `accepted`, with a result that is read as `value`. -/
def Reads {α β : Type} (result : Except ConvertError α) (read : α → β) (accepted : Prop)
    (value : β) : Prop :=
  (∃ v, result = .ok v ∧ accepted ∧ read v = value) ∨ (∃ e, result = .error e) ∧ ¬accepted

namespace Reads

variable {α β α' β' : Type} {result : Except ConvertError α} {read : α → β} {accepted : Prop}
  {value : β}

lemma ok {v : α} : Reads (.ok v) read True (read v) :=
  .inl ⟨v, rfl, trivial, rfl⟩

lemma congr {accepted' : Prop} (h : Reads result read accepted value)
    (iff : accepted' ↔ accepted) : Reads result read accepted' value := by
  unfold Reads
  rwa [iff]

/-- Behind the check of the depth. -/
lemma atDepth {depth : ℕ} (h : Reads result read accepted value) :
    Reads (SharedValues.atDepth depth result) read (depth ≤ maxNesting ∧ accepted) value := by
  unfold SharedValues.atDepth
  by_cases deep : maxNesting < depth
  · rw [if_pos deep]
    exact .inr ⟨⟨_, rfl⟩, fun fine => absurd fine.1 (by omega)⟩
  · rw [if_neg deep]
    exact h.congr (and_iff_right (by omega))

lemma map (f : α → α') (read' : α' → β') (g : β → β') (h : Reads result read accepted value)
    (reads : ∀ v, read' (f v) = g (read v)) :
    Reads (result.map f) read' accepted (g value) := by
  obtain ⟨v, made, fine, same⟩ | ⟨⟨e, failed⟩, not⟩ := h
  · exact .inl ⟨f v, by rw [made]; rfl, fine, by rw [reads, same]⟩
  · exact .inr ⟨⟨e, by rw [failed]; rfl⟩, not⟩

/-- One after the other. -/
lemma andThen {result' : Except ConvertError α'} {read' : α' → β'} {accepted' : Prop}
    {value' : β'} {γ δ : Type} (f : α → α' → γ) (readBoth : γ → δ) (g : β → β' → δ)
    (h : Reads result read accepted value) (h' : Reads result' read' accepted' value')
    (reads : ∀ v v', readBoth (f v v') = g (read v) (read' v')) :
    Reads (result.bind fun v => result'.map (f v)) readBoth (accepted ∧ accepted')
      (g value value') := by
  obtain ⟨v, made, fine, same⟩ | ⟨⟨e, failed⟩, not⟩ := h
  · rw [made]
    show Reads (result'.map (f v)) _ _ _
    have second := h'.map (f v) readBoth (g (read v)) (reads v)
    rw [same] at second
    exact second.congr (and_iff_right fine)
  · exact .inr ⟨⟨e, by rw [failed]; rfl⟩, fun both => not both.1⟩

end Reads

section

variable (toS : Obj → String)

/-- How a converted value reads in Ruby. -/
def readConverted (v : InValue) : Obj := anyToRuby (invalueToAny v)

lemma reads_plain {depth : ℕ} (v : Obj) (a : Value) (flat : levels v = 0)
    (fit : fits v = true) :
    Reads (atDepth depth (.ok (.any a))) readConverted (Writable depth v) (anyToRuby a) := by
  have plain : Reads (.ok (.any a) : Except ConvertError InValue) readConverted True
      (readConverted (.any a)) := Reads.ok
  have same : readConverted (.any a) = anyToRuby a := by rw [readConverted, invalueToAny]
  rw [same] at plain
  exact plain.atDepth.congr (by simp [Writable, flat, fit])

lemma reads_integer {depth : ℕ} {n : ℤ} :
    Reads (invalueAt toS depth (.integer n)) readConverted (Writable depth (.integer n))
      (.integer n) := by
  rw [invalueAt]
  by_cases fit : Sequence.IsI64 n
  · rw [if_pos fit]
    have plain := @reads_plain depth (.integer n) (.int n) rfl (by simp [fits, fit])
    rwa [anyToRuby] at plain
  · rw [if_neg fit]
    have refused : Reads (.error (.outOfRange n)) readConverted False (Obj.integer n) :=
      .inr ⟨⟨_, rfl⟩, id⟩
    exact refused.atDepth.congr (by simp [Writable, fits, fit])

mutual

/-- A value is converted exactly when it can be written, and reads as `asRead` says. -/
lemma reads_invalueAt : ∀ (v : Obj) (depth : ℕ),
    Reads (invalueAt toS depth v) readConverted (Writable depth v) (asRead toS v)
  | .nil, depth => by
    rw [invalueAt, asRead]
    have plain := @reads_plain depth .nil .null rfl rfl
    rwa [anyToRuby] at plain
  | .bool b, depth => by
    rw [invalueAt, asRead]
    have plain := @reads_plain depth (.bool b) (.bool b) rfl rfl
    rwa [anyToRuby] at plain
  | .integer n, depth => by
    rw [asRead]
    exact reads_integer toS
  | .float f, depth => by
    rw [invalueAt, asRead]
    have plain := @reads_plain depth (.float f) (.float f) rfl rfl
    rwa [anyToRuby] at plain
  | .string s, depth => by
    rw [invalueAt, asRead]
    have plain := @reads_plain depth (.string s) (.string s) rfl rfl
    rwa [anyToRuby] at plain
  | .other text, depth => by
    rw [invalueAt, asRead]
    have plain := @reads_plain depth (.other text) (.string text) rfl rfl
    rwa [anyToRuby] at plain
  | .array elements, depth => by
    rw [invalueAt, asRead]
    have items := (reads_itemsAt elements (depth + 1)).map
      (fun items => InValue.any (.array items)) readConverted Obj.array
      (fun items => by rw [readConverted, invalueToAny, anyToRuby, itemsToRuby_eq])
    exact items.atDepth.congr writable_array
  | .hash pairs, depth => by
    rw [invalueAt, asRead]
    have entries := (reads_pairsAt pairs (depth + 1)).map InValue.map readConverted
      (fun entries => Obj.hash (underNames (collect entries)))
      (fun entries => by
        rw [readConverted, invalueToAny, anyToRuby, entriesToRuby_eq, onValues_collect,
          entriesToAny_eq]
        simp [onValues, Function.comp_def, readConverted])
    exact entries.atDepth.congr writable_hash

lemma reads_pairsAt : ∀ (pairs : List (Obj × Obj)) (depth : ℕ),
    Reads (pairsAt toS depth pairs) (onValues readConverted)
      (∀ pair ∈ pairs, Writable depth pair.2) (asReadPairs toS pairs)
  | [], depth => by
    rw [pairsAt, asReadPairs]
    exact Reads.ok.congr (by simp)
  | pair :: pairs, depth => by
    rw [pairsAt, asReadPairs]
    have both := (reads_invalueAt pair.2 depth).andThen
      (fun v rest => (keyToString toS pair.1, v) :: rest) (onValues readConverted)
      (fun v rest => (keyToString toS pair.1, v) :: rest) (reads_pairsAt pairs depth)
      (fun _ _ => rfl)
    exact both.congr List.forall_mem_cons

lemma reads_itemsAt : ∀ (items : List Obj) (depth : ℕ),
    Reads (itemsAt toS depth items) (List.map anyToRuby)
      (∀ item ∈ items, Writable depth item) (asReadItems toS items)
  | [], depth => by
    rw [itemsAt, asReadItems]
    exact Reads.ok.congr (by simp)
  | item :: items, depth => by
    rw [itemsAt, asReadItems]
    have both := (reads_invalueAt item depth).andThen
      (fun v rest => invalueToAny v :: rest) (List.map anyToRuby)
      (fun v rest => v :: rest) (reads_itemsAt items depth) (fun _ _ => rfl)
    exact both.congr List.forall_mem_cons

end

/-- What is stored reads back as `asRead` says. -/
lemma reads_rubyToInvalue (v : Obj) :
    Reads (rubyToInvalue toS v) (fun made => readCell (toIn made)) (Writable 0 v)
      (asRead toS v) := by
  have reads : (fun made => readCell (toIn made)) = readConverted := by
    funext made
    rw [readCell, outToAny_toIn, readConverted]
  rw [reads]
  exact reads_invalueAt toS v 0

end

/-! ### Values read are settled -/

section

variable {α : Type}

lemma putEntries_of_not_mem {key : String} {value : α} {d : Dict α}
    (h : key ∉ d.map Prod.fst) : Hash.putEntries key value d = d ++ [(key, value)] := by
  induction d with
  | nil => rfl
  | cons entry d ih =>
    rw [List.map_cons, List.mem_cons, not_or] at h
    rw [Hash.putEntries, if_neg (Ne.symm h.1), ih h.2, List.cons_append]

lemma mem_of_mem_putEntries {key : String} {value : α} {d : Dict α} {entry : String × α}
    (h : entry ∈ Hash.putEntries key value d) : entry = (key, value) ∨ entry ∈ d := by
  induction d with
  | nil => exact .inl (List.mem_singleton.mp h)
  | cons first d ih =>
    rw [Hash.putEntries] at h
    split at h
    · rcases List.mem_cons.mp h with same | mem
      · exact .inl same
      · exact .inr (List.mem_cons_of_mem first mem)
    · rcases List.mem_cons.mp h with same | mem
      · exact .inr (same ▸ List.mem_cons_self)
      · exact (ih mem).imp_right (List.mem_cons_of_mem first)

lemma nodup_collect (entries : List (String × α)) :
    ((collect entries).map Prod.fst).Nodup := by
  have from_any : ∀ d : Dict α, (d.map Prod.fst).Nodup →
      ((entries.foldl (fun d entry => Hash.putEntries entry.1 entry.2 d) d).map
        Prod.fst).Nodup := by
    induction entries with
    | nil => exact fun _ nodup => nodup
    | cons entry entries ih => exact fun _ nodup => ih _ (Hash.nodup_putEntries nodup)
  exact from_any [] List.nodup_nil

lemma mem_of_mem_collect {entries : List (String × α)} {entry : String × α}
    (h : entry ∈ collect entries) : entry ∈ entries := by
  have from_any : ∀ d : Dict α,
      entry ∈ entries.foldl (fun d entry => Hash.putEntries entry.1 entry.2 d) d →
        entry ∈ d ∨ entry ∈ entries := by
    clear h
    induction entries with
    | nil => exact fun _ mem => .inl mem
    | cons first entries ih =>
      intro d mem
      rcases ih _ mem with there | there
      · rcases mem_of_mem_putEntries there with same | there
        · exact .inr (same ▸ List.mem_cons_self)
        · exact .inl there
      · exact .inr (List.mem_cons_of_mem first there)
  exact (from_any [] h).resolve_left List.not_mem_nil

/-- Entries under distinct keys are their own collection. -/
lemma collect_of_nodup {entries : List (String × α)} (h : (entries.map Prod.fst).Nodup) :
    collect entries = entries := by
  have from_any : ∀ d : Dict α, ((d ++ entries).map Prod.fst).Nodup →
      entries.foldl (fun d entry => Hash.putEntries entry.1 entry.2 d) d = d ++ entries := by
    clear h
    induction entries with
    | nil => exact fun d _ => (List.append_nil d).symm
    | cons entry entries ih =>
      intro d nodup
      have fresh : entry.1 ∉ d.map Prod.fst := by
        rw [List.map_append, List.map_cons] at nodup
        intro mem
        exact (List.nodup_append.mp nodup).2.2 _ mem _ List.mem_cons_self rfl
      rw [List.foldl_cons, putEntries_of_not_mem fresh]
      rw [List.append_cons d entry entries] at nodup ⊢
      exact ih _ nodup
  exact from_any [] h

lemma collect_collect (entries : List (String × α)) :
    collect (collect entries) = collect entries :=
  collect_of_nodup (nodup_collect entries)

end

section

variable (toS : Obj → String)

lemma asReadPairs_underNames : ∀ d : List (String × Obj),
    asReadPairs toS (underNames d) = onValues (asRead toS) d
  | [] => by rw [underNames, List.map_nil, asReadPairs]; rfl
  | entry :: d => by
    have rest := asReadPairs_underNames d
    rw [underNames] at rest
    rw [underNames, List.map_cons, asReadPairs, rest, keyToString]
    rfl

lemma asRead_numberOf (f : Float64) : asRead toS (numberOf f) = numberOf f := by
  by_cases whole : (f.whole && decide (f.toI64.natAbs ≤ maxSafeInteger)) = true
  · rw [numberOf, if_pos whole, asRead]
  · rw [numberOf, if_neg whole, asRead, numberOf, if_neg whole]

mutual

/-- What was read once reads the same when it is written again. -/
lemma asRead_asRead : ∀ v : Obj, asRead toS (asRead toS v) = asRead toS v
  | .nil => by rw [asRead, asRead]
  | .bool b => by rw [asRead, asRead]
  | .integer n => by rw [asRead, asRead]
  | .float f => by
    rw [asRead]
    exact asRead_numberOf toS f
  | .string s => by rw [asRead, asRead]
  | .other text => by rw [asRead, asRead]
  | .array elements => by rw [asRead, asRead, asReadItems_asReadItems elements]
  | .hash pairs => by
    rw [asRead, asRead, asReadPairs_underNames, onValues_collect, onValues_asReadPairs pairs,
      collect_collect]

lemma onValues_asReadPairs : ∀ pairs : List (Obj × Obj),
    onValues (asRead toS) (asReadPairs toS pairs) = asReadPairs toS pairs
  | [] => by rw [asReadPairs]; rfl
  | pair :: pairs => by
    have rest := onValues_asReadPairs pairs
    rw [onValues] at rest
    rw [asReadPairs, onValues, List.map_cons, rest, asRead_asRead pair.2]

lemma asReadItems_asReadItems : ∀ items : List Obj,
    asReadItems toS (asReadItems toS items) = asReadItems toS items
  | [] => by rw [asReadItems, asReadItems]
  | item :: items => by
    rw [asReadItems, asReadItems, asRead_asRead item, asReadItems_asReadItems items]

end

lemma writable_numberOf {depth : ℕ} {f : Float64} (h : depth ≤ maxNesting) :
    Writable depth (numberOf f) := by
  unfold numberOf
  split
  · rename_i whole
    have small : f.toI64.natAbs ≤ 2 ^ 53 := of_decide_eq_true (Bool.and_eq_true_iff.mp whole).2
    have fit : Sequence.IsI64 f.toI64 := by
      unfold Sequence.IsI64
      omega
    simp [Writable, levels, fits, fit, h]
  · simp [Writable, levels, fits, h]

mutual

/-- What was read can be written again. -/
lemma writable_asRead : ∀ (v : Obj) (depth : ℕ),
    Writable depth v → Writable depth (asRead toS v)
  | .nil, _, h => by rwa [asRead]
  | .bool b, _, h => by rwa [asRead]
  | .integer n, _, h => by rwa [asRead]
  | .float f, _, h => by
    rw [asRead]
    exact writable_numberOf h.1
  | .string s, _, h => by rwa [asRead]
  | .other text, _, h => by
    rw [asRead]
    exact ⟨h.1, rfl⟩
  | .array elements, depth, h => by
    rw [asRead, writable_array]
    obtain ⟨above, inside⟩ := writable_array.mp h
    exact ⟨above, writable_asReadItems elements (depth + 1) inside⟩
  | .hash pairs, depth, h => by
    rw [asRead, writable_hash]
    obtain ⟨above, inside⟩ := writable_hash.mp h
    refine ⟨above, fun pair mem => ?_⟩
    obtain ⟨entry, there, rfl⟩ := List.mem_map.mp mem
    exact writable_asReadPairs pairs (depth + 1) inside entry (mem_of_mem_collect there)

lemma writable_asReadPairs : ∀ (pairs : List (Obj × Obj)) (depth : ℕ),
    (∀ pair ∈ pairs, Writable depth pair.2) →
      ∀ entry ∈ asReadPairs toS pairs, Writable depth entry.2
  | [], _, _ => by simp [asReadPairs]
  | pair :: pairs, depth, h => by
    rw [asReadPairs, List.forall_mem_cons]
    rw [List.forall_mem_cons] at h
    exact ⟨writable_asRead pair.2 depth h.1, writable_asReadPairs pairs depth h.2⟩

lemma writable_asReadItems : ∀ (items : List Obj) (depth : ℕ),
    (∀ item ∈ items, Writable depth item) →
      ∀ item ∈ asReadItems toS items, Writable depth item
  | [], _, _ => by simp [asReadItems]
  | item :: items, depth, h => by
    rw [asReadItems, List.forall_mem_cons]
    rw [List.forall_mem_cons] at h
    exact ⟨writable_asRead item depth h.1, writable_asReadItems items depth h.2⟩

end

/-- The value can be written and reads back as itself. -/
def Settled (v : Obj) : Prop := Writable 0 v ∧ asRead toS v = v

lemma settled_asRead {v : Obj} (h : Writable 0 v) : Settled toS (asRead toS v) :=
  ⟨writable_asRead toS v 0 h, asRead_asRead toS v⟩

end

end Yrby.SharedValues
