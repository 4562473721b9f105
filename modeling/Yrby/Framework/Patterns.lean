import Mathlib.Data.List.Basic
import Mathlib.Logic.Relation

/-!
# Patterns

A pattern as a backtracking matcher runs it: `run` lists the places that a match may end at, the
preferred one first.  Alternatives are preferred in their order, a greedy repetition prefers to go
on, a lazy one to stop.

The index of a pattern says that it consumes something.  Only such patterns can be repeated, so
repetitions end.

`search` is the leftmost match, and of those that start there the preferred one.  Where a pattern
ends in general is said by membership (`mem_run_seq`, `mem_run_plus`); which end comes first by
`first`, along a chain of preferred steps (`first_more_greedy`, `first_more_lazy`).
-/

variable {α β : Type*}

/-- A place in a text: what is before it, nearest first, what comes after it, and the groups
captured on the way. -/
structure Place (α : Type*) where
  before : List α
  after : List α
  groups : ℕ → Option (List α)

namespace Place

/-- The place behind some elements. -/
def push (s : Place α) (w rest : List α) : Place α := ⟨w.reverse ++ s.before, rest, s.groups⟩

/-- What stands between two places. -/
def consumed (s t : Place α) : List α := s.after.take (s.after.length - t.after.length)

/-- The place `t` with a group that began at `s`. -/
def capture (n : ℕ) (s t : Place α) : Place α where
  __ := t
  groups k := if k = n then some (s.consumed t) else t.groups k

/-- The place `t` comes after `s`, with `w` between them. -/
structure Reaches (s t : Place α) (w : List α) : Prop where
  after : s.after = w ++ t.after
  before : t.before = w.reverse ++ s.before

lemma Reaches.refl (s : Place α) : s.Reaches s [] := ⟨rfl, rfl⟩

lemma Reaches.trans {s t u : Place α} {v w : List α} (h : s.Reaches t v) (k : t.Reaches u w) :
    s.Reaches u (v ++ w) where
  after := by rw [h.after, k.after, List.append_assoc]
  before := by rw [k.before, h.before, List.reverse_append, List.append_assoc]

lemma Reaches.consumed {s t : Place α} {w : List α} (h : s.Reaches t w) : s.consumed t = w := by
  rw [Place.consumed, h.after, List.length_append, Nat.add_sub_cancel, List.take_left]

@[simp] lemma capture_after (n : ℕ) (s t : Place α) : (s.capture n t).after = t.after := rfl

@[simp] lemma capture_before (n : ℕ) (s t : Place α) : (s.capture n t).before = t.before := rfl

end Place

/-- A pattern; the index says that it consumes something. -/
inductive Pattern (α : Type*) : Bool → Type _
  | empty : Pattern α false
  | one (p : α → Bool) : Pattern α true
  | seq {m n : Bool} (a : Pattern α m) (b : Pattern α n) : Pattern α (m || n)
  | alt {m n : Bool} (a : Pattern α m) (b : Pattern α n) : Pattern α (m && n)
  | plus (greedy : Bool) (a : Pattern α true) : Pattern α true
  | group (k : ℕ) {m : Bool} (a : Pattern α m) : Pattern α m
  | notBehind (p : α → Bool) : Pattern α false
  | notAhead (p : α → Bool) : Pattern α false

namespace Pattern

/-- A pattern any number of times. -/
def star (a : Pattern α true) : Pattern α false := .alt (.plus true a) .empty

/-- The places after any number of steps, the preferred one first. -/
def more (step : Place α → List (Place α)) (greedy : Bool) : ℕ → Place α → List (Place α)
  | 0, s => [s]
  | fuel + 1, s =>
    let on := (step s).flatMap (more step greedy fuel)
    if greedy then on ++ [s] else s :: on

/-- The places that a match may end at, the preferred one first. -/
def run : {m : Bool} → Pattern α m → Place α → List (Place α)
  | _, .empty, s => [s]
  | _, .one p, s =>
    match s.after with
    | [] => []
    | c :: cs => if p c then [⟨c :: s.before, cs, s.groups⟩] else []
  | _, .seq a b, s => (a.run s).flatMap b.run
  | _, .alt a b, s => a.run s ++ b.run s
  | _, .plus greedy a, s => (a.run s).flatMap fun t => more a.run greedy t.after.length t
  | _, .group k a, s => (a.run s).map (s.capture k)
  | _, .notBehind p, s => if s.before.head?.any p then [] else [s]
  | _, .notAhead p, s => if s.after.head?.any p then [] else [s]

/-! ## Where a match may end -/

@[simp] lemma run_empty (s : Place α) : (empty : Pattern α false).run s = [s] := rfl

lemma run_one_nil (p : α → Bool) (b : List α) (g : ℕ → Option (List α)) :
    (one p).run ⟨b, [], g⟩ = [] := rfl

lemma run_one_cons (p : α → Bool) (b : List α) (c : α) (cs : List α) (g : ℕ → Option (List α)) :
    (one p).run ⟨b, c :: cs, g⟩ = if p c then [⟨c :: b, cs, g⟩] else [] := rfl

lemma run_seq {m n : Bool} (a : Pattern α m) (b : Pattern α n) (s : Place α) :
    (seq a b).run s = (a.run s).flatMap b.run := rfl

lemma run_alt {m n : Bool} (a : Pattern α m) (b : Pattern α n) (s : Place α) :
    (alt a b).run s = a.run s ++ b.run s := rfl

lemma run_plus (greedy : Bool) (a : Pattern α true) (s : Place α) :
    (plus greedy a).run s =
      (a.run s).flatMap fun t => more a.run greedy t.after.length t := rfl

lemma run_group (k : ℕ) {m : Bool} (a : Pattern α m) (s : Place α) :
    (group k a).run s = (a.run s).map (s.capture k) := rfl

lemma run_notBehind (p : α → Bool) (s : Place α) :
    (notBehind p).run s = if s.before.head?.any p then [] else [s] := rfl

lemma run_notAhead (p : α → Bool) (s : Place α) :
    (notAhead p).run s = if s.after.head?.any p then [] else [s] := rfl

lemma mem_run_one {p : α → Bool} {s t : Place α} :
    t ∈ (one p).run s ↔ ∃ c, p c ∧ s.Reaches t [c] ∧ t.groups = s.groups := by
  obtain ⟨b, after, g⟩ := s
  constructor
  · intro h
    cases after with
    | nil => simp [run_one_nil] at h
    | cons c cs =>
      rw [run_one_cons] at h
      by_cases hc : p c
      · rw [if_pos hc, List.mem_singleton] at h
        subst h
        exact ⟨c, hc, ⟨rfl, rfl⟩, rfl⟩
      · simp [if_neg hc] at h
  · rintro ⟨c, hc, ⟨after_eq, before_eq⟩, groups_eq⟩
    obtain ⟨b', after', g'⟩ := t
    simp only [List.singleton_append, List.reverse_singleton] at after_eq before_eq groups_eq
    subst after_eq before_eq groups_eq
    rw [run_one_cons, if_pos hc, List.mem_singleton]

@[simp] lemma mem_run_seq {m n : Bool} {a : Pattern α m} {b : Pattern α n} {s t : Place α} :
    t ∈ (seq a b).run s ↔ ∃ u ∈ a.run s, t ∈ b.run u := List.mem_flatMap

@[simp] lemma mem_run_alt {m n : Bool} {a : Pattern α m} {b : Pattern α n} {s t : Place α} :
    t ∈ (alt a b).run s ↔ t ∈ a.run s ∨ t ∈ b.run s := List.mem_append

@[simp] lemma mem_run_group {k : ℕ} {m : Bool} {a : Pattern α m} {s t : Place α} :
    t ∈ (group k a).run s ↔ ∃ u ∈ a.run s, s.capture k u = t := List.mem_map

lemma mem_run_notBehind {p : α → Bool} {s t : Place α} :
    t ∈ (notBehind p).run s ↔ t = s ∧ ¬ s.before.head?.any p := by
  rw [run_notBehind]
  split <;> simp_all

lemma mem_run_notAhead {p : α → Bool} {s t : Place α} :
    t ∈ (notAhead p).run s ↔ t = s ∧ ¬ s.after.head?.any p := by
  rw [run_notAhead]
  split <;> simp_all

/-- A step consumes something. -/
def Shrinks (step : Place α → List (Place α)) : Prop :=
  ∀ s, ∀ t ∈ step s, t.after.length < s.after.length

/-- With enough fuel, greedy or not: any number of steps. -/
lemma mem_more {step : Place α → List (Place α)} (shrinks : Shrinks step) (greedy : Bool)
    {fuel : ℕ} {s t : Place α} (enough : s.after.length ≤ fuel) :
    t ∈ more step greedy fuel s ↔ Relation.ReflTransGen (fun u v => v ∈ step u) s t := by
  induction fuel generalizing s with
  | zero =>
    have stuck : ∀ u, u ∉ step s := fun u hu => by
      have := shrinks s u hu
      omega
    rw [more, List.mem_singleton, Relation.ReflTransGen.cases_head_iff]
    simp [stuck, eq_comm]
  | succ fuel ih =>
    have on : t ∈ (step s).flatMap (more step greedy fuel) ↔
        ∃ u ∈ step s, Relation.ReflTransGen (fun u v => v ∈ step u) u t := by
      rw [List.mem_flatMap]
      refine exists_congr fun u => and_congr_right fun hu => ih ?_
      have := shrinks s u hu
      omega
    rw [Relation.ReflTransGen.cases_head_iff, ← on, more]
    cases greedy <;> simp [or_comm, eq_comm]

lemma reaches_of_steps {step : Place α → List (Place α)}
    (reaches : ∀ s, ∀ t ∈ step s, ∃ w, s.Reaches t w) {s t : Place α}
    (h : Relation.ReflTransGen (fun u v => v ∈ step u) s t) : ∃ w, s.Reaches t w := by
  induction h with
  | refl => exact ⟨[], .refl s⟩
  | tail _ hu ih =>
    obtain ⟨v, hv⟩ := ih
    obtain ⟨w, hw⟩ := reaches _ _ hu
    exact ⟨v ++ w, hv.trans hw⟩

/-- A match consumes what stands between its two places, which is something if the index says
so. -/
lemma reaches_of_mem {m : Bool} (a : Pattern α m) {s t : Place α} (h : t ∈ a.run s) :
    ∃ w, s.Reaches t w ∧ (m = true → w ≠ []) := by
  induction a generalizing s t with
  | empty =>
    obtain rfl := List.mem_singleton.1 h
    exact ⟨[], .refl t, by simp⟩
  | one p =>
    obtain ⟨c, -, reaches, -⟩ := mem_run_one.1 h
    exact ⟨[c], reaches, by simp⟩
  | seq a b iha ihb =>
    obtain ⟨u, hu, ht⟩ := mem_run_seq.1 h
    obtain ⟨v, hv, hv'⟩ := iha hu
    obtain ⟨w, hw, hw'⟩ := ihb ht
    refine ⟨v ++ w, hv.trans hw, fun some => ?_⟩
    rw [Bool.or_eq_true] at some
    rcases some with first | second
    · simp [hv' first]
    · simp [hw' second]
  | alt a b iha ihb =>
    rcases mem_run_alt.1 h with ha | hb
    · obtain ⟨w, hw, hw'⟩ := iha ha
      exact ⟨w, hw, fun some => hw' (Bool.and_eq_true _ _ ▸ some).1⟩
    · obtain ⟨w, hw, hw'⟩ := ihb hb
      exact ⟨w, hw, fun some => hw' (Bool.and_eq_true _ _ ▸ some).2⟩
  | plus greedy a ih =>
    obtain ⟨u, hu, ht⟩ := List.mem_flatMap.1 h
    obtain ⟨v, hv, hv'⟩ := ih hu
    have shrinks : Shrinks a.run := by
      intro s t ht
      obtain ⟨w, hw, hw'⟩ := ih ht
      have := List.length_pos_iff.2 (hw' rfl)
      rw [hw.after, List.length_append]
      omega
    obtain ⟨w, hw⟩ := reaches_of_steps (fun s t ht => (ih ht).imp fun _ h => h.1)
      ((mem_more shrinks greedy (Nat.le_refl _)).1 ht)
    exact ⟨v ++ w, hv.trans hw, by simp [hv' rfl]⟩
  | group k a ih =>
    obtain ⟨u, hu, rfl⟩ := mem_run_group.1 h
    obtain ⟨w, hw, hw'⟩ := ih hu
    exact ⟨w, ⟨hw.after, hw.before⟩, hw'⟩
  | notBehind p =>
    obtain ⟨rfl, -⟩ := mem_run_notBehind.1 h
    exact ⟨[], .refl t, by simp⟩
  | notAhead p =>
    obtain ⟨rfl, -⟩ := mem_run_notAhead.1 h
    exact ⟨[], .refl t, by simp⟩

lemma shrinks_run (a : Pattern α true) : Shrinks a.run := by
  intro s t ht
  obtain ⟨w, hw, some⟩ := reaches_of_mem a ht
  have := List.length_pos_iff.2 (some rfl)
  rw [hw.after, List.length_append]
  omega

/-- **Repetition.**  A repeated pattern ends after one or more matches, greedy or not. -/
lemma mem_run_plus {greedy : Bool} {a : Pattern α true} {s t : Place α} :
    t ∈ (plus greedy a).run s ↔ Relation.TransGen (fun u v => v ∈ a.run u) s t := by
  rw [Relation.TransGen.head'_iff]
  refine List.mem_flatMap.trans (exists_congr fun u => and_congr_right fun _ => ?_)
  exact mem_more (shrinks_run a) greedy (Nat.le_refl _)

/-- The groups of a pattern. -/
def captures : {m : Bool} → Pattern α m → List ℕ
  | _, .seq a b => a.captures ++ b.captures
  | _, .alt a b => a.captures ++ b.captures
  | _, .plus _ a => a.captures
  | _, .group k a => k :: a.captures
  | _, _ => []

/-- A match leaves the other groups as they are. -/
lemma groups_of_mem {m : Bool} {a : Pattern α m} {s t : Place α} (h : t ∈ a.run s) {j : ℕ}
    (other : j ∉ a.captures) : t.groups j = s.groups j := by
  induction a generalizing s t with
  | empty => rw [List.mem_singleton.1 h]
  | one p =>
    obtain ⟨-, -, -, same⟩ := mem_run_one.1 h
    rw [same]
  | seq a b iha ihb =>
    rw [captures, List.mem_append, not_or] at other
    obtain ⟨u, hu, ht⟩ := mem_run_seq.1 h
    rw [ihb ht other.2, iha hu other.1]
  | alt a b iha ihb =>
    rw [captures, List.mem_append, not_or] at other
    rcases mem_run_alt.1 h with ha | hb
    · exact iha ha other.1
    · exact ihb hb other.2
  | plus greedy a ih =>
    rw [mem_run_plus] at h
    induction h with
    | single h => exact ih h other
    | tail _ h on => rw [ih h other, on]
  | group k a ih =>
    rw [captures, List.mem_cons, not_or] at other
    obtain ⟨u, hu, rfl⟩ := mem_run_group.1 h
    rw [Place.capture]
    simp only [if_neg other.1]
    exact ih hu other.2
  | notBehind p => rw [(mem_run_notBehind.1 h).1]
  | notAhead p => rw [(mem_run_notAhead.1 h).1]

/-- What a group holds, where no group is inside it. -/
lemma mem_run_group_alone {k : ℕ} {m : Bool} {a : Pattern α m} {s t : Place α}
    (alone : a.captures = []) (h : t ∈ (group k a).run s) :
    ∃ w, s.Reaches t w ∧ t.groups = fun j => if j = k then some w else s.groups j := by
  obtain ⟨u, hu, rfl⟩ := mem_run_group.1 h
  obtain ⟨w, hw, -⟩ := reaches_of_mem a hu
  refine ⟨w, ⟨hw.after, hw.before⟩, ?_⟩
  funext j
  have same : u.groups j = s.groups j := groups_of_mem hu (by simp [alone])
  simp only [Place.capture, hw.consumed, same]

/-! ## The preferred match -/

lemma findSome?_flatMap {γ : Type*} (l : List α) (f : α → List β) (k : β → Option γ) :
    (l.flatMap f).findSome? k = l.findSome? fun a => (f a).findSome? k := by
  induction l with
  | nil => rfl
  | cons a l ih =>
    rw [List.flatMap_cons, List.findSome?_append, ih, List.findSome?_cons]
    cases (f a).findSome? k <;> rfl

/-- What the first match that something can be made of gives. -/
def first {m : Bool} (a : Pattern α m) (k : Place α → Option β) (s : Place α) : Option β :=
  (a.run s).findSome? k

lemma first_eq {m : Bool} (a : Pattern α m) (k : Place α → Option β) (s : Place α) :
    a.first k s = (a.run s).findSome? k := rfl

lemma first_seq {m n : Bool} (a : Pattern α m) (b : Pattern α n) (k : Place α → Option β) :
    (seq a b).first k = a.first (b.first k) := by
  funext s
  rw [first_eq, run_seq, findSome?_flatMap]
  rfl

lemma first_alt {m n : Bool} (a : Pattern α m) (b : Pattern α n) (k : Place α → Option β)
    (s : Place α) : (alt a b).first k s = (a.first k s).or (b.first k s) := by
  rw [first_eq, run_alt, List.findSome?_append]
  rfl

lemma first_group (n : ℕ) {m : Bool} (a : Pattern α m) (k : Place α → Option β) (s : Place α) :
    (group n a).first k s = a.first (fun t => k (s.capture n t)) s := by
  rw [first_eq, run_group, List.findSome?_map]
  rfl

@[simp] lemma first_empty (k : Place α → Option β) (s : Place α) :
    (empty : Pattern α false).first k s = k s := by
  simp [first_eq]

lemma first_one (p : α → Bool) (k : Place α → Option β) (b : List α) (c : α) (cs : List α)
    (g : ℕ → Option (List α)) :
    (one p).first k ⟨b, c :: cs, g⟩ = if p c then k ⟨c :: b, cs, g⟩ else none := by
  rw [first_eq, run_one_cons]
  by_cases hc : p c
  · simp [hc]
  · simp [hc]

lemma first_notBehind (p : α → Bool) (k : Place α → Option β) (s : Place α) :
    (notBehind p).first k s = if s.before.head?.any p then none else k s := by
  rw [first_eq, run_notBehind]
  split <;> simp

lemma first_notAhead (p : α → Bool) (k : Place α → Option β) (s : Place α) :
    (notAhead p).first k s = if s.after.head?.any p then none else k s := by
  rw [first_eq, run_notAhead]
  split <;> simp

lemma first_plus (greedy : Bool) (a : Pattern α true) (k : Place α → Option β) (s : Place α) :
    (plus greedy a).first k s =
      a.first (fun t => (more a.run greedy t.after.length t).findSome? k) s := by
  rw [first_eq, run_plus, findSome?_flatMap]
  rfl

lemma head?_run {m : Bool} (a : Pattern α m) (s : Place α) : (a.run s).head? = a.first some s := by
  rw [first_eq]
  cases a.run s <;> rfl

lemma run_eq_nil {m : Bool} {a : Pattern α m} {s : Place α} :
    a.run s = [] ↔ a.first some s = none := by
  rw [← head?_run, List.head?_eq_none_iff]

/-- Preferred steps, one after the other. -/
inductive Chain (step : Place α → List (Place α)) : ℕ → Place α → Place α → Prop
  | refl (s : Place α) : Chain step 0 s s
  | step {n : ℕ} {s u t : Place α} (head : (step s).head? = some u) (rest : Chain step n u t) :
    Chain step (n + 1) s t

lemma findSome?_of_head? {l : List α} {a : α} {f : α → Option β} {b : β}
    (head : l.head? = some a) (h : f a = some b) : l.findSome? f = some b := by
  cases l with
  | nil => cases head
  | cons c l =>
    obtain rfl := Option.some.inj head
    rw [List.findSome?_cons, h]

lemma findSome?_more (step : Place α → List (Place α)) (greedy : Bool) (fuel : ℕ)
    (k : Place α → Option β) (s : Place α) :
    (more step greedy (fuel + 1) s).findSome? k =
      if greedy then
        ((step s).findSome? fun u => (more step greedy fuel u).findSome? k).or (k s)
      else (k s).or ((step s).findSome? fun u => (more step greedy fuel u).findSome? k) := by
  have on := findSome?_flatMap (step s) (more step greedy fuel) k
  rw [more]
  cases greedy
  · rw [if_neg Bool.false_ne_true, if_neg Bool.false_ne_true, List.findSome?_cons, on]
    cases k s <;> rfl
  · rw [if_pos rfl, if_pos rfl, List.findSome?_append, on]
    simp

/-- The steps over elements that a pattern takes one by one. -/
lemma chain_one {p : α → Bool} {w : List α} (all : ∀ c ∈ w, p c) (b rest : List α)
    (g : ℕ → Option (List α)) :
    Chain (one p).run w.length ⟨b, w ++ rest, g⟩ ⟨w.reverse ++ b, rest, g⟩ := by
  induction w generalizing b with
  | nil => exact .refl _
  | cons c w ih =>
    have here : p c = true := all c List.mem_cons_self
    have on := ih (fun d hd => all d (List.mem_cons_of_mem _ hd)) (c :: b)
    rw [List.reverse_cons, List.append_assoc]
    refine .step ?_ on
    rw [List.cons_append, run_one_cons, if_pos here, List.head?_cons]

/-- A greedy repetition goes to the end of a chain, when what follows matches there. -/
lemma first_more_greedy {step : Place α → List (Place α)} {n fuel : ℕ} {s t : Place α}
    (chain : Chain step n s t) (stuck : step t = []) (enough : n ≤ fuel)
    {k : Place α → Option β} {b : β} (h : k t = some b) :
    (more step true fuel s).findSome? k = some b := by
  induction chain generalizing fuel with
  | refl t =>
    cases fuel with
    | zero => simp [more, h]
    | succ fuel => simp [findSome?_more, stuck, h]
  | step head rest ih =>
    obtain ⟨fuel, rfl⟩ := Nat.exists_eq_add_of_le' enough
    have on := ih stuck (Nat.le_add_left _ fuel) h
    rw [← Nat.add_assoc, findSome?_more, if_pos rfl, findSome?_of_head? head on]
    rfl

/-- A lazy repetition stops at the first place from which what follows matches. -/
lemma first_more_lazy {step : Place α → List (Place α)} {n fuel : ℕ} {s t : Place α}
    (chain : Chain step n s t) (enough : n ≤ fuel) {k : Place α → Option β} {b : β}
    (h : k t = some b)
    (early : ∀ m < n, ∀ u, Chain step m s u → k u = none) :
    (more step false fuel s).findSome? k = some b := by
  induction chain generalizing fuel with
  | refl t =>
    cases fuel with
    | zero => simp [more, h]
    | succ fuel => simp [findSome?_more, h]
  | step head rest ih =>
    obtain ⟨fuel, rfl⟩ := Nat.exists_eq_add_of_le' enough
    have on := ih (Nat.le_add_left _ fuel) h fun m hm u hu =>
      early (m + 1) (Nat.succ_lt_succ hm) u (.step head hu)
    rw [← Nat.add_assoc, findSome?_more, if_neg Bool.false_ne_true,
      early 0 (Nat.succ_pos _) _ (.refl _), findSome?_of_head? head on]
    rfl

lemma Chain.unique {step : Place α → List (Place α)} {n : ℕ} {s t u : Place α}
    (h : Chain step n s t) (k : Chain step n s u) : t = u := by
  induction h generalizing u with
  | refl s =>
    cases k
    rfl
  | step head _ ih =>
    cases k with
    | step head' rest' =>
      obtain rfl := Option.some.inj (head.symm.trans head')
      exact ih rest'

/-- A lazy repetition over elements stops at the first place from which what follows matches. -/
lemma first_plus_lazy {p : α → Bool} {w : List α} (some_w : w ≠ []) (all : ∀ c ∈ w, p c)
    {b rest : List α} {g : ℕ → Option (List α)} {k : Place α → Option β} {x : β}
    (h : k ⟨w.reverse ++ b, rest, g⟩ = some x)
    (early : ∀ u v, w = u ++ v → u ≠ [] → v ≠ [] → k ⟨u.reverse ++ b, v ++ rest, g⟩ = none) :
    (plus false (one p)).first k ⟨b, w ++ rest, g⟩ = some x := by
  obtain ⟨c, w, rfl⟩ := List.exists_cons_of_ne_nil some_w
  have here : p c = true := all c List.mem_cons_self
  have others : ∀ d ∈ w, p d = true := fun d hd => all d (List.mem_cons_of_mem _ hd)
  rw [first_plus, List.cons_append, first_one, if_pos here]
  refine first_more_lazy (chain_one others (c :: b) rest g) (by simp) (by simpa using h) ?_
  intro m hm u hu
  have cut : w = w.take m ++ w.drop m := (List.take_append_drop m w).symm
  have length : (w.take m).length = m := List.length_take_of_le (Nat.le_of_lt hm)
  have chain := chain_one (w := w.take m)
    (fun d hd => others d (List.mem_of_mem_take hd)) (c :: b) (w.drop m ++ rest) g
  rw [length, ← List.append_assoc, ← cut] at chain
  rw [hu.unique chain]
  have before := early (c :: w.take m) (w.drop m) (by rw [List.cons_append, ← cut]) (by simp)
    (by simpa using hm)
  simpa using before

lemma run_one_stuck {p : α → Bool} {rest : List α} (stop : rest.head?.any p = false)
    (b : List α) (g : ℕ → Option (List α)) : (one p).run ⟨b, rest, g⟩ = [] := by
  cases rest with
  | nil => rfl
  | cons c cs =>
    rw [run_one_cons, if_neg]
    simpa using stop

/-- A greedy repetition over elements takes them all. -/
lemma first_plus_greedy {p : α → Bool} {w : List α} (some_w : w ≠ []) (all : ∀ c ∈ w, p c)
    {b rest : List α} {g : ℕ → Option (List α)} {k : Place α → Option β} {x : β}
    (stop : rest.head?.any p = false) (h : k ⟨w.reverse ++ b, rest, g⟩ = some x) :
    (plus true (one p)).first k ⟨b, w ++ rest, g⟩ = some x := by
  obtain ⟨c, w, rfl⟩ := List.exists_cons_of_ne_nil some_w
  have here : p c = true := all c List.mem_cons_self
  rw [first_plus, List.cons_append, first_one, if_pos here]
  refine first_more_greedy
    (chain_one (fun d hd => all d (List.mem_cons_of_mem _ hd)) (c :: b) rest g)
    (run_one_stuck stop _ _) (by simp) (by simpa using h)

lemma first_star {p : α → Bool} {w : List α} (all : ∀ c ∈ w, p c) {b rest : List α}
    {g : ℕ → Option (List α)} {k : Place α → Option β} {x : β}
    (stop : rest.head?.any p = false) (h : k ⟨w.reverse ++ b, rest, g⟩ = some x) :
    (star (one p)).first k ⟨b, w ++ rest, g⟩ = some x := by
  rw [star, first_alt]
  cases w with
  | nil =>
    have none : (plus true (one p)).first k ⟨b, rest, g⟩ = none := by
      rw [first_plus, first, run_one_stuck stop]
      rfl
    rw [List.nil_append, none, first_empty]
    exact h
  | cons c w =>
    rw [first_plus_greedy (by simp) all stop h]
    rfl

/-! ## The leftmost match -/

/-- The leftmost match: where it starts, and where it ends. -/
def search {m : Bool} (a : Pattern α m) (before : List α) : List α → Option (Place α × Place α)
  | [] => (a.run ⟨before, [], fun _ => none⟩).head?.map fun t => (⟨before, [], fun _ => none⟩, t)
  | c :: cs =>
    match (a.run ⟨before, c :: cs, fun _ => none⟩).head? with
    | some t => some (⟨before, c :: cs, fun _ => none⟩, t)
    | none => a.search (c :: before) cs

/-- Nothing matches from a place. -/
def Fails {m : Bool} (a : Pattern α m) (before after : List α) : Prop :=
  a.run ⟨before, after, fun _ => none⟩ = []

/-- A match was found: nothing matches before it. -/
structure Leftmost {m : Bool} (a : Pattern α m) (before text gap : List α) (s t : Place α) :
    Prop where
  start : s = ⟨gap.reverse ++ before, s.after, fun _ => none⟩
  split : text = gap ++ s.after
  head : (a.run s).head? = some t
  fails : ∀ u v, gap = u ++ v → v ≠ [] → a.Fails (u.reverse ++ before) (v ++ s.after)

lemma search_eq_some {m : Bool} {a : Pattern α m} {before text : List α} {s t : Place α}
    (h : a.search before text = some (s, t)) : ∃ gap, a.Leftmost before text gap s t := by
  induction text generalizing before with
  | nil =>
    rw [search, Option.map_eq_some_iff] at h
    obtain ⟨u, head, same⟩ := h
    obtain ⟨rfl, rfl⟩ := Prod.mk.inj same
    exact ⟨[], rfl, rfl, head, by simp_all⟩
  | cons c cs ih =>
    rw [search] at h
    split at h
    · rename_i u head
      obtain ⟨rfl, rfl⟩ := Prod.mk.inj (Option.some.inj h)
      exact ⟨[], rfl, rfl, head, by simp_all⟩
    · rename_i none
      obtain ⟨gap, start, split, head, fails⟩ := ih h
      refine ⟨c :: gap, ?_, by rw [split]; rfl, head, ?_⟩
      · rw [start]
        simp
      · intro u v cut some
        cases u with
        | nil =>
          rw [List.nil_append] at cut
          subst cut
          rw [List.cons_append, ← split]
          exact List.head?_eq_none_iff.1 none
        | cons d u =>
          obtain ⟨rfl, rfl⟩ := List.cons.inj cut
          have := fails u v rfl some
          simpa using this

lemma search_eq_none {m : Bool} {a : Pattern α m} {before text : List α} :
    a.search before text = none ↔
      ∀ u v, text = u ++ v → a.Fails (u.reverse ++ before) v := by
  induction text generalizing before with
  | nil =>
    rw [search, Option.map_eq_none_iff, List.head?_eq_none_iff]
    constructor
    · intro h u v cut
      obtain ⟨rfl, rfl⟩ := List.append_eq_nil_iff.1 cut.symm
      exact h
    · intro h
      exact h [] [] rfl
  | cons c cs ih =>
    rw [search]
    constructor
    · intro h u v cut
      split at h
      · cases h
      · rename_i none
        cases u with
        | nil =>
          rw [List.nil_append] at cut
          subst cut
          exact List.head?_eq_none_iff.1 none
        | cons d u =>
          obtain ⟨rfl, rfl⟩ := List.cons.inj cut
          have := ih.1 h u v rfl
          simpa using this
    · intro h
      have here : a.run ⟨before, c :: cs, fun _ => none⟩ = [] := h [] (c :: cs) rfl
      rw [here]
      refine ih.2 fun u v cut => ?_
      have := h (c :: u) v (by rw [cut]; rfl)
      simpa using this

/-- What nothing matches in is skipped. -/
lemma search_skip {m : Bool} {a : Pattern α m} {before gap rest : List α}
    (fails : ∀ u v, gap = u ++ v → v ≠ [] → a.Fails (u.reverse ++ before) (v ++ rest)) :
    a.search before (gap ++ rest) = a.search (gap.reverse ++ before) rest := by
  induction gap generalizing before with
  | nil => rfl
  | cons c gap ih =>
    have here : a.run ⟨before, c :: (gap ++ rest), fun _ => none⟩ = [] :=
      fails [] (c :: gap) rfl (by simp)
    have later : ∀ u v, gap = u ++ v → v ≠ [] →
        a.Fails (u.reverse ++ c :: before) (v ++ rest) := by
      intro u v cut some
      have := fails (c :: u) v (by rw [cut]; rfl) some
      simpa using this
    rw [List.cons_append, search, here, List.head?_nil]
    dsimp only
    rw [ih later]
    simp

/-- A match at once. -/
lemma search_here {m : Bool} {a : Pattern α m} {before text : List α} {t : Place α}
    (h : (a.run ⟨before, text, fun _ => none⟩).head? = some t) :
    a.search before text = some (⟨before, text, fun _ => none⟩, t) := by
  cases text with
  | nil => rw [search, h, Option.map_some]
  | cons c cs => rw [search, h]

end Pattern
