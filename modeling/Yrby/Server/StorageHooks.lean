import Yrby.Server.Sync

/-!
# Where a channel's storage hooks come from (`sync.rb`)

A channel class may declare `on_load`, `on_change`, both or neither, and inherits what it does not
declare.  When no class of its ancestry declares either, and the gem's models are loaded, both
hooks are those of the default store.  So a channel never reads from one store and writes to
another because of the default (`hooks_never_mixed`), and with a hook missing it does nothing:
`sync_subscribed` and `sync_receive` raise before they have an effect.

A block that a class declares is told from a hook of the default store by where it comes from, as
two Ruby procs are, not by what it does.
-/

namespace Yrby.Sync

open Wire Effect Base64

/-! ## Classes -/

/-- A hash of hooks; a hook that is `nil` is not in it. -/
structure Hooks (L C : Type) where
  onLoad : Option L := none
  onChange : Option C := none

/-- `empty?` -/
def Hooks.isEmpty {L C : Type} (h : Hooks L C) : Bool := h.onLoad.isNone && h.onChange.isNone

/-- `merge` -/
def Hooks.merge {L C : Type} (h other : Hooks L C) : Hooks L C where
  onLoad := other.onLoad.or h.onLoad
  onChange := other.onChange.or h.onChange

/-- A channel class, with its own `@on_load` and `@on_change`. -/
inductive Channel (L C : Type)
  /-- The class includes the concern: its superclass does not respond to
  `sync_storage_hooks`. -/
  | including (declared : Hooks L C)
  | inheriting (superclass : Channel L C) (declared : Hooks L C)

/-- A hook as a channel gets it. -/
inductive Proc (H : Type)
  /-- The one of `DEFAULT_STORAGE`. -/
  | default
  | block (h : H)
  deriving DecidableEq

section Resolution

variable {L C H : Type}

/-- `sync_storage_hooks` -/
def Channel.syncStorageHooks : Channel L C → Hooks L C
  | .including declared => Hooks.merge {} declared
  | .inheriting superclass declared => superclass.syncStorageHooks.merge declared

/-- `Sync.default_hook`.  `models` says whether `Y::Document` is defined. -/
def defaultHook (models : Bool) : Option (Proc H) := if models then some .default else none

/-- `sync_storage_hook` -/
def Channel.syncStorageHook (models : Bool) (K : Channel L C) (name : Hooks L C → Option H) :
    Option (Proc H) :=
  if K.syncStorageHooks.isEmpty then defaultHook models
  else (name K.syncStorageHooks).map .block

/-- `on_load` without a block -/
def Channel.onLoad (models : Bool) (K : Channel L C) : Option (Proc L) :=
  K.syncStorageHook models Hooks.onLoad

/-- `on_change` without a block -/
def Channel.onChange (models : Bool) (K : Channel L C) : Option (Proc C) :=
  K.syncStorageHook models Hooks.onChange

/-! ## The nearest declaration -/

/-- What the class declares and then what its superclasses do, nearest first. -/
def Channel.ancestry : Channel L C → List (Hooks L C)
  | .including declared => [declared]
  | .inheriting superclass declared => declared :: superclass.ancestry

/-- The nearest declaration of a hook. -/
def Channel.nearest (K : Channel L C) (name : Hooks L C → Option H) : Option H :=
  K.ancestry.findSome? name

/-- No class of the ancestry declares a hook. -/
def Channel.Undeclared (K : Channel L C) : Prop :=
  ∀ declared ∈ K.ancestry, declared.onLoad = none ∧ declared.onChange = none

lemma Hooks.isEmpty_iff {h : Hooks L C} : h.isEmpty ↔ h.onLoad = none ∧ h.onChange = none := by
  simp [Hooks.isEmpty]

/-- A merge that prefers the class's own hook finds the nearest one. -/
lemma Channel.syncStorageHooks_eq (K : Channel L C) :
    K.syncStorageHooks = ⟨K.nearest Hooks.onLoad, K.nearest Hooks.onChange⟩ := by
  induction K with
  | including declared =>
    rw [syncStorageHooks, Hooks.merge, nearest, nearest, ancestry]
    simp only [List.findSome?_cons, List.findSome?_nil]
    congr 1
    · cases declared.onLoad <;> rfl
    · cases declared.onChange <;> rfl
  | inheriting superclass declared ih =>
    rw [syncStorageHooks, ih, Hooks.merge, nearest, nearest, nearest, nearest, ancestry]
    simp only [List.findSome?_cons]
    congr 1
    · cases declared.onLoad <;> rfl
    · cases declared.onChange <;> rfl

lemma Channel.undeclared_iff {K : Channel L C} :
    K.Undeclared ↔ K.nearest Hooks.onLoad = none ∧ K.nearest Hooks.onChange = none := by
  rw [nearest, nearest, List.findSome?_eq_none_iff, List.findSome?_eq_none_iff]
  exact ⟨fun h => ⟨fun d hd => (h d hd).1, fun d hd => (h d hd).2⟩,
    fun h d hd => ⟨h.1 d hd, h.2 d hd⟩⟩

lemma Channel.isEmpty_iff {K : Channel L C} : K.syncStorageHooks.isEmpty ↔ K.Undeclared := by
  rw [Hooks.isEmpty_iff, undeclared_iff, syncStorageHooks_eq]

lemma Channel.syncStorageHook_of_undeclared {K : Channel L C} (h : K.Undeclared) (models : Bool)
    (name : Hooks L C → Option H) : K.syncStorageHook models name = defaultHook models := by
  rw [syncStorageHook, if_pos (isEmpty_iff.2 h)]

/-- Without the default store a hook is the nearest declaration, also where there is none. -/
lemma Channel.syncStorageHook_of_declared {models : Bool} {K : Channel L C}
    (h : ¬(K.Undeclared ∧ models)) {name : Hooks L C → Option H}
    (hname : name K.syncStorageHooks = K.nearest name) (hnone : name {} = none) :
    K.syncStorageHook models name = (K.nearest name).map .block := by
  by_cases undeclared : K.Undeclared
  · have unloaded : models = false := by simpa [undeclared] using h
    have nothing : K.syncStorageHooks = {} := by
      rw [syncStorageHooks_eq, (undeclared_iff.1 undeclared).1, (undeclared_iff.1 undeclared).2]
    rw [syncStorageHook_of_undeclared undeclared, unloaded, ← hname, nothing, hnone]
    rfl
  · rw [syncStorageHook, if_neg (mt isEmpty_iff.1 undeclared), hname]

/-- Both hooks are the default store's. -/
def Channel.UsesDefault (models : Bool) (K : Channel L C) : Prop :=
  K.onLoad models = some .default ∧ K.onChange models = some .default

/-- Both hooks are what the ancestry declares, and neither is the default store's. -/
structure Channel.UsesDeclared (models : Bool) (K : Channel L C) : Prop where
  onLoad : K.onLoad models = (K.nearest Hooks.onLoad).map .block
  onChange : K.onChange models = (K.nearest Hooks.onChange).map .block
  onLoad_ne : K.onLoad models ≠ some .default
  onChange_ne : K.onChange models ≠ some .default

lemma map_block_ne_default (h : Option H) : h.map Proc.block ≠ some .default := by
  cases h <;> simp

lemma Channel.usesDefault {K : Channel L C} (h : K.Undeclared) : K.UsesDefault true :=
  ⟨syncStorageHook_of_undeclared h true _, syncStorageHook_of_undeclared h true _⟩

lemma Channel.usesDeclared {models : Bool} {K : Channel L C} (h : ¬(K.Undeclared ∧ models)) :
    K.UsesDeclared models := by
  have onLoad : K.onLoad models = (K.nearest Hooks.onLoad).map .block :=
    syncStorageHook_of_declared h (by rw [syncStorageHooks_eq]) rfl
  have onChange : K.onChange models = (K.nearest Hooks.onChange).map .block :=
    syncStorageHook_of_declared h (by rw [syncStorageHooks_eq]) rfl
  exact ⟨onLoad, onChange, onLoad ▸ map_block_ne_default _, onChange ▸ map_block_ne_default _⟩

end Resolution

/-! ## A channel with a hook missing -/

section Missing

variable {ω : Type} {Y : Yrs} {K : ChannelClass ω}

/-- A store: `Y::Document.load_state` and `Y::Document.append` are one. -/
structure Store (ω : Type) where
  load : Bytes → Hook ω (Option Bytes)
  record : Bytes → Bytes → Hook ω Unit

/-- The function that a hook calls. -/
def Proc.call {H : Type} (default : H) : Proc H → H
  | .default => default
  | .block h => h

/-- The channel `K` with the hooks its class resolves to. -/
def ChannelClass.withHooks (K : ChannelClass ω) (documents : Store ω) (models : Bool)
    (declared : Channel (Bytes → Hook ω (Option Bytes)) (Bytes → Bytes → Hook ω Unit)) :
    ChannelClass ω where
  __ := K
  onLoad := (declared.onLoad models).map (Proc.call documents.load)
  onChange := (declared.onChange models).map (Proc.call documents.record)

/-- The state after a method that raised before it had an effect; it has set the key. -/
def raised {α : Type} (key : Option Bytes) (c : Traced (Chan ω) Event) :
    Except RubyError α × Traced (Chan ω) Event :=
  (.error .yError, { c with state := { c.state with key } })

lemma validate_of_missing (h : K.onLoad = none ∨ K.onChange = none) :
    syncValidateRequiredHooks K = raise .yError := by
  unfold syncValidateRequiredHooks
  rw [if_neg]
  rcases h with h | h <;> simp [h]

lemma subscribed_of_missing (h : K.onLoad = none ∨ K.onChange = none) (key : Bytes)
    (c : Traced (Chan ω) Event) : syncSubscribed Y K key c = raised (some key) c := by
  unfold syncSubscribed
  rw [validate_of_missing h]
  rfl

lemma receive_of_missing (h : K.onLoad = none ∨ K.onChange = none) {data : Json}
    {frame : Bytes × Bytes} (hframe : frameOf K.maxFrameBytes data = some frame)
    (key : Option Bytes) (c : Traced (Chan ω) Event) :
    syncReceive Y K data key c = raised (key.or c.state.key) c := by
  rw [syncReceive_eq, handleEnvelope, hframe]
  dsimp only
  rw [syncHandleFrame, validate_of_missing h]
  rfl

variable (Y K)

/-- **Hooks are never mixed.**  Both hooks of a class are the default store's, exactly when no
class of its ancestry declares one and the models are loaded, or each is the nearest declaration.
With a hook missing, subscribing and every envelope with a frame raise and change nothing but the
key. -/
theorem hooks_never_mixed (documents : Store ω) (models : Bool)
    (declared : Channel (Bytes → Hook ω (Option Bytes)) (Bytes → Bytes → Hook ω Unit)) :
    (declared.UsesDefault models ∨ declared.UsesDeclared models) ∧
      (declared.UsesDefault models ↔ declared.Undeclared ∧ models) ∧
      (declared.onLoad models = none ∨ declared.onChange models = none →
        (∀ key c, syncSubscribed Y (K.withHooks documents models declared) key c =
          raised (some key) c) ∧
        ∀ data frame key c, frameOf K.maxFrameBytes data = some frame →
          syncReceive Y (K.withHooks documents models declared) data key c =
            raised (key.or c.state.key) c) := by
  have defaults : declared.Undeclared ∧ models → declared.UsesDefault models := by
    rintro ⟨undeclared, rfl⟩
    exact Channel.usesDefault undeclared
  refine ⟨?_, ⟨fun used => ?_, defaults⟩, fun missing => ?_⟩
  · by_cases undeclared : declared.Undeclared ∧ models
    · exact .inl (defaults undeclared)
    · exact .inr (Channel.usesDeclared undeclared)
  · by_contra undeclared
    exact (Channel.usesDeclared undeclared).onLoad_ne used.1
  · have unset : (K.withHooks documents models declared).onLoad = none ∨
        (K.withHooks documents models declared).onChange = none :=
      missing.imp (fun h => by rw [ChannelClass.withHooks, h]; rfl)
        fun h => by rw [ChannelClass.withHooks, h]; rfl
    exact ⟨fun key c => subscribed_of_missing unset key c,
      fun data frame key c hframe => receive_of_missing unset hframe key c⟩

end Missing

section Example

open Reference

/-- A class that declares `on_load`, and one under it that declares nothing. -/
def onlyLoads : Channel (Bytes → Hook (List Bytes) (Option Bytes))
    (Bytes → Bytes → Hook (List Bytes) Unit) :=
  .inheriting (.including { onLoad := some fun _ w => (.ok none, w) }) {}

/-- The default store of the example. -/
def listStore : Store (List Bytes) where
  load _ w := (.ok none, w)
  record _ update w := (.ok (), update :: w)

theorem hooks_never_mixed_onlyLoads :
    onlyLoads.onChange true = none ∧
      syncReceive (engine []) (listChannel.withHooks listStore true onlyLoads)
        (envelope updateFrame) none ⟨listChan, []⟩ =
          raised (some [97]) ⟨listChan, []⟩ :=
  ⟨rfl, ((hooks_never_mixed (engine []) listChannel listStore true onlyLoads).2.2
    (.inr rfl)).2 _ (strictEncode64 updateFrame, updateFrame) _ _ (by decide +kernel)⟩

end Example

end Yrby.Sync
