import Mathlib.Data.List.ReduceOption

/-!
# Lines

A text in which breaks stand is a list of options, `none` being a break.  Its lines are the
stretches between the breaks, and empty ones do not count.  `line` is what was read since the last
break.
-/

namespace Lines

variable {α : Type*}

/-- A line that ends, unless it is empty. -/
def flush (line : List α) : List (List α) := if line.isEmpty then [] else [line]

/-- The lines of a text that goes on from `line`. -/
def lines (line : List α) : List (Option α) → List (List α)
  | [] => flush line
  | none :: ts => flush line ++ lines [] ts
  | some a :: ts => lines (line ++ [a]) ts

@[simp] lemma flush_nil : flush ([] : List α) = [] := rfl

@[simp] lemma flatten_flush (line : List α) : (flush line).flatten = line := by
  cases line <;> simp [flush]

/-- Text goes on with the line. -/
lemma lines_some (line xs : List α) (ts : List (Option α)) :
    lines line (xs.map some ++ ts) = lines (line ++ xs) ts := by
  induction xs generalizing line with
  | nil => simp
  | cons x xs ih =>
    rw [List.map_cons, List.cons_append, lines, ih, List.append_assoc, List.singleton_append]

/-- A break ends the lines before it. -/
lemma lines_none (line : List α) (xs ts : List (Option α)) :
    lines line (xs ++ none :: ts) = lines line xs ++ lines [] ts := by
  induction xs generalizing line with
  | nil => rw [List.nil_append, lines, lines]
  | cons x xs ih =>
    cases x with
    | none => rw [List.cons_append, lines, lines, ih, List.append_assoc]
    | some a => rw [List.cons_append, lines, lines, ih]

/-- Nothing but breaks is lost. -/
lemma flatten_lines (line : List α) (ts : List (Option α)) :
    (lines line ts).flatten = line ++ ts.reduceOption := by
  induction ts generalizing line with
  | nil => simp [lines]
  | cons t ts ih =>
    cases t with
    | none =>
      rw [lines, List.flatten_append, ih, flatten_flush, List.reduceOption_cons_of_none,
        List.nil_append]
    | some a =>
      rw [lines, ih, List.reduceOption_cons_of_some, List.append_assoc, List.singleton_append]

/-- Breaks end the line, however many there are. -/
lemma lines_breaks {bs : List (Option α)} (h : ∀ b ∈ bs, b = none) (line : List α) :
    lines line bs = flush line := by
  induction bs generalizing line with
  | nil => rfl
  | cons b bs ih =>
    obtain rfl := h b List.mem_cons_self
    rw [lines, ih fun c hc => h c (List.mem_cons_of_mem _ hc), flush_nil, List.append_nil]

lemma lines_breaks_append {bs : List (Option α)} (h : ∀ b ∈ bs, b = none) (some : bs ≠ [])
    (line : List α) (ts : List (Option α)) : lines line (bs ++ ts) = flush line ++ lines [] ts := by
  obtain ⟨b, rest, rfl⟩ := List.exists_cons_of_ne_nil some
  obtain rfl := h b List.mem_cons_self
  have more : lines [] (rest ++ ts) = lines [] ts := by
    have others : ∀ b ∈ rest, b = none := fun c hc => h c (List.mem_cons_of_mem _ hc)
    clear h some
    induction rest with
    | nil => rfl
    | cons b rest ih =>
      obtain rfl := others b List.mem_cons_self
      rw [List.cons_append, lines, flush_nil, List.nil_append]
      exact ih fun c hc => others c (List.mem_cons_of_mem _ hc)
  rw [List.cons_append, lines, more]

/-- Texts that go on alike from every line. -/
lemma lines_append_congr {xs ys : List (Option α)} (h : ∀ line, lines line xs = lines line ys)
    (pre : List (Option α)) (line : List α) : lines line (pre ++ xs) = lines line (pre ++ ys) := by
  induction pre generalizing line with
  | nil => exact h line
  | cons t pre ih =>
    cases t with
    | none => rw [List.cons_append, List.cons_append, lines, lines, ih]
    | some a => rw [List.cons_append, List.cons_append, lines, lines, ih]

/-! ## Lines cut further -/

/-- The lines of `L` are those of `W`, neighbours written together. -/
inductive Refines : List (List α) → List (List α) → Prop
  | nil : Refines [] []
  | cons (ws : List (List α)) {L W : List (List α)} :
    Refines L W → Refines (ws.flatten :: L) (ws ++ W)

namespace Refines

variable {L L' M W W' : List (List α)}

lemma flatten_eq (h : Refines L W) : L.flatten = W.flatten := by
  induction h with
  | nil => rfl
  | cons ws _ ih => rw [List.flatten_cons, List.flatten_append, ih]

lemma append (h : Refines L W) (h' : Refines L' W') : Refines (L ++ L') (W ++ W') := by
  induction h with
  | nil => exact h'
  | cons ws _ ih =>
    rw [List.cons_append, List.append_assoc]
    exact .cons ws ih

lemma refl (L : List (List α)) : Refines L L := by
  induction L with
  | nil => exact .nil
  | cons l L ih => simpa using Refines.cons [l] ih

/-- What an append is cut into is cut there. -/
lemma append_left (h : Refines (L ++ L') W) :
    ∃ V V', W = V ++ V' ∧ Refines L V ∧ Refines L' V' := by
  induction L generalizing W with
  | nil => exact ⟨[], W, rfl, .nil, h⟩
  | cons l L ih =>
    generalize hl : l :: L ++ L' = K at h
    cases h with
    | nil => simp at hl
    | cons ws rest =>
      obtain ⟨rfl, rfl⟩ := List.cons.inj hl
      obtain ⟨V, V', rfl, left, right⟩ := ih rest
      exact ⟨ws ++ V, V', (List.append_assoc _ _ _).symm, .cons ws left, right⟩

lemma trans (h : Refines L M) (h' : Refines M W) : Refines L W := by
  induction h generalizing W with
  | nil => exact h'
  | cons ws _ ih =>
    obtain ⟨V, V', rfl, left, right⟩ := h'.append_left
    rw [left.flatten_eq]
    exact .cons V (ih right)

end Refines

/-- A line may be cut anywhere. -/
lemma refines_lines (l m : List α) (ts : List (Option α)) :
    Refines (lines (l ++ m) ts) (flush l ++ lines m ts) := by
  have flushed : ∀ l m : List α, Refines (flush (l ++ m)) (flush l ++ flush m) := by
    intro l m
    cases l with
    | nil => exact .refl _
    | cons a l =>
      have one := Refines.cons ([a :: l] ++ flush m) Refines.nil
      rw [List.append_nil, List.flatten_append, flatten_flush] at one
      simpa [flush] using one
  induction ts generalizing m with
  | nil => exact flushed l m
  | cons t ts ih =>
    cases t with
    | none =>
      rw [lines, lines, ← List.append_assoc]
      exact (flushed l m).append (.refl _)
    | some a =>
      rw [lines, lines, List.append_assoc]
      exact ih (m ++ [a])

/-- The lines of two texts one after the other. -/
lemma refines_append (ts ts' : List (Option α)) :
    Refines (lines [] (ts ++ ts')) (lines [] ts ++ lines [] ts') := by
  have from_line : ∀ line : List α,
      Refines (lines line (ts ++ ts')) (lines line ts ++ lines [] ts') := by
    induction ts with
    | nil =>
      intro line
      simpa [lines] using refines_lines line [] ts'
    | cons t ts ih =>
      intro line
      cases t with
      | none =>
        rw [List.cons_append, lines, lines, List.append_assoc]
        exact (Refines.refl _).append (ih [])
      | some a =>
        rw [List.cons_append, lines, lines]
        exact ih _
  exact from_line []

lemma Refines.lines_append {ts ts' : List (Option α)} {W W' : List (List α)}
    (h : Refines (lines [] ts) W) (h' : Refines (lines [] ts') W') :
    Refines (lines [] (ts ++ ts')) (W ++ W') :=
  (refines_append ts ts').trans (h.append h')

/-! ## Words of a text -/

/-- The words appear in the text, in this order. -/
inductive Appear : List (List α) → List α → Prop
  | nil (xs : List α) : Appear [] xs
  | cons (gap w : List α) {ws : List (List α)} {rest : List α} :
    Appear ws rest → Appear (w :: ws) (gap ++ w ++ rest)

namespace Appear

variable {ws vs : List (List α)} {xs : List α}

lemma sublist (h : Appear ws xs) : ws.flatten.Sublist xs := by
  induction h with
  | nil xs => exact List.nil_sublist xs
  | cons gap w _ ih =>
    rw [List.flatten_cons, List.append_assoc]
    exact (List.Sublist.append (List.Sublist.refl w) ih).trans (List.sublist_append_right _ _)

lemma prepend (gap : List α) (h : Appear ws xs) : Appear ws (gap ++ xs) := by
  cases h with
  | nil => exact .nil _
  | cons gap' w rest =>
    rw [← List.append_assoc, ← List.append_assoc]
    exact .cons (gap ++ gap') w rest

/-- One word after the other, written together. -/
lemma of_flatten (parts : List (List α)) {rest : List α} (h : Appear ws rest) :
    Appear (parts ++ ws) (parts.flatten ++ rest) := by
  induction parts with
  | nil => exact h
  | cons part parts ih =>
    rw [List.flatten_cons, List.append_assoc]
    exact .cons [] part ih

lemma of_refines (h : Appear ws xs) (cut : Refines ws vs) : Appear vs xs := by
  induction cut generalizing xs with
  | nil => exact h
  | cons parts _ ih =>
    generalize hw : parts.flatten = w at h
    cases h with
    | cons gap _ rest =>
      subst hw
      rw [List.append_assoc]
      exact (of_flatten parts (ih rest)).prepend gap

/-- The lines of a text appear in it. -/
lemma of_lines {tok : α → Option α} (h : ∀ a b, tok a = some b → a = b) (line xs : List α) :
    Appear (lines line (xs.map tok)) (line ++ xs) := by
  induction xs generalizing line with
  | nil =>
    cases line with
    | nil => exact .nil _
    | cons a line =>
      have one := Appear.cons [] (a :: line) (Appear.nil ([] : List α))
      simpa [lines, flush] using one
  | cons x xs ih =>
    rw [List.map_cons]
    cases hx : tok x with
    | none =>
      rw [lines]
      have rest : Appear (lines [] (xs.map tok)) (x :: xs) := (ih []).prepend [x]
      cases line with
      | nil => exact rest
      | cons a line => exact .cons [] (a :: line) rest
    | some b =>
      rw [lines, ← h x b hx]
      have rest := ih (line ++ [x])
      rwa [List.append_assoc] at rest

end Appear

/-! ## Which breaks make a difference -/

section Gaps

variable {ε : Type*} (v : ε → Option α) (b b' : ε → Bool)

/-- What an entry is read as: a character, a break or nothing. -/
def token (e : ε) : List (Option α) :=
  match v e with
  | some a => [some a]
  | none => if b e then [none] else []

/-- The text that entries are read as. -/
def tokens (es : List ε) : List (Option α) := es.flatMap (token v b)

/-- Two ways to read breaks agree on every gap between characters.  `gap` says of the one that is
open whether there was a break in it so far; the gap before the first character does not count. -/
def Agree : Option (Bool × Bool) → List ε → Prop
  | _, [] => True
  | gap, e :: es =>
    match v e with
    | some _ => (∀ p ∈ gap, p.1 = p.2) ∧ Agree (some (false, false)) es
    | none => Agree (gap.map fun p => (p.1 || b e, p.2 || b' e)) es

/-- The lines when `line` stands before an open gap. -/
def gapLines (line : List α) (broken : Bool) (ts : List (Option α)) : List (List α) :=
  if broken then line :: lines [] ts else lines line ts

variable {v b b'}

lemma tokens_cons_some {e : ε} {a : α} (h : v e = some a) (es : List ε) :
    tokens v b (e :: es) = some a :: tokens v b es := by
  rw [tokens, List.flatMap_cons, token, h]
  rfl

lemma tokens_cons_none {e : ε} (h : v e = none) (es : List ε) :
    tokens v b (e :: es) = if b e then none :: tokens v b es else tokens v b es := by
  rw [tokens, List.flatMap_cons, token, h]
  cases b e <;> rfl

lemma tokens_append (es es' : List ε) :
    tokens v b (es ++ es') = tokens v b es ++ tokens v b es' :=
  List.flatMap_append

/-- The characters are there, however the breaks are read. -/
lemma reduceOption_tokens (es : List ε) : (tokens v b es).reduceOption = es.filterMap v := by
  induction es with
  | nil => rfl
  | cons e es ih =>
    cases he : v e with
    | none =>
      rw [tokens_cons_none he, List.filterMap_cons_none he]
      split
      · rw [List.reduceOption_cons_of_none, ih]
      · exact ih
    | some a =>
      rw [tokens_cons_some he, List.filterMap_cons_some he, List.reduceOption_cons_of_some, ih]

/-- A line that is not empty begins the lines. -/
lemma lines_eq_cons {line : List α} (h : line ≠ []) (ts : List (Option α)) :
    ∃ more rest, lines line ts = (line ++ more) :: rest := by
  induction ts generalizing line with
  | nil => exact ⟨[], [], by simp [lines, flush, h]⟩
  | cons t ts ih =>
    cases t with
    | none => exact ⟨[], lines [] ts, by simp [lines, flush, h]⟩
    | some a =>
      have longer : line ++ [a] ≠ [] := by simp
      obtain ⟨more, rest, hlines⟩ := ih longer
      exact ⟨a :: more, rest, by rw [lines, hlines, List.append_assoc, List.singleton_append]⟩

lemma gapLines_none {line : List α} (h : line ≠ []) (broken : Bool) {e : ε} (he : v e = none)
    (es : List ε) :
    gapLines line broken (tokens v b (e :: es)) =
      gapLines line (broken || b e) (tokens v b es) := by
  rw [tokens_cons_none he]
  cases broken <;> cases b e <;> simp [gapLines, lines, flush, h]

/-- A character after a gap: on the line, or on the next one. -/
lemma gapLines_some {line : List α} (broken : Bool) {e : ε} {a : α} (he : v e = some a)
    (es : List ε) :
    gapLines line broken (tokens v b (e :: es)) =
      if broken then line :: gapLines [a] false (tokens v b es)
      else gapLines (line ++ [a]) false (tokens v b es) := by
  rw [tokens_cons_some he]
  cases broken <;> simp [gapLines, lines]

lemma gapLines_eq_iff {line : List α} (h : line ≠ []) (p : Bool × Bool) (es : List ε) :
    gapLines line p.1 (tokens v b es) = gapLines line p.2 (tokens v b' es) ↔
      Agree v b b' (some p) es := by
  induction es generalizing line p with
  | nil =>
    have one : ∀ broken : Bool, gapLines line broken ([] : List (Option α)) = [line] := by
      intro broken
      cases broken <;> simp [gapLines, lines, flush, h]
    simp [tokens, Agree, one]
  | cons e es ih =>
    rw [Agree]
    cases he : v e with
    | none =>
      rw [gapLines_none h _ he, gapLines_none h _ he]
      exact ih h (p.1 || b e, p.2 || b' e)
    | some a =>
      rw [gapLines_some _ he, gapLines_some _ he]
      have next : ∀ line : List α, line ≠ [] →
          (gapLines line false (tokens v b es) = gapLines line false (tokens v b' es) ↔
            Agree v b b' (some (false, false)) es) := fun line h => ih h (false, false)
      obtain ⟨p, q⟩ := p
      -- On one side the line goes on, on the other it ended.
      have apart : ∀ ts ts' : List (Option α),
          ¬gapLines (line ++ [a]) false ts = line :: gapLines [a] false ts' := by
        intro ts ts' same
        obtain ⟨more, rest, hlines⟩ := lines_eq_cons (by simp : line ++ [a] ≠ []) ts
        rw [gapLines, if_neg Bool.false_ne_true, hlines] at same
        have length := congrArg List.length (List.cons.inj same).1
        simp at length
      cases p with
      | false =>
        cases q with
        | false => simpa using next (line ++ [a]) (by simp)
        | true => simp [apart]
      | true =>
        cases q with
        | false => simpa using fun same => absurd same.symm (apart _ _)
        | true => simpa using next [a] (by simp)

lemma lines_tokens_eq_iff (es : List ε) :
    lines [] (tokens v b es) = lines [] (tokens v b' es) ↔ Agree v b b' none es := by
  induction es with
  | nil => simp [tokens, Agree]
  | cons e es ih =>
    rw [Agree]
    cases he : v e with
    | none =>
      have drop : ∀ b : ε → Bool, lines [] (tokens v b (e :: es)) = lines [] (tokens v b es) := by
        intro b
        rw [tokens_cons_none he]
        cases b e <;> simp [lines]
      rw [drop, drop]
      exact ih
    | some a =>
      rw [tokens_cons_some he, tokens_cons_some he, lines, lines, List.nil_append]
      have rest : gapLines [a] false (tokens v b es) = gapLines [a] false (tokens v b' es) ↔ _ :=
        gapLines_eq_iff (by simp) (false, false) es
      simpa [gapLines] using rest

variable (v b b') in
/-- Between two neighbouring characters there is a break on both sides or on none. -/
def SameGaps (es : List ε) : Prop :=
  ∀ pre x mid y post, es = pre ++ x :: (mid ++ y :: post) → (v x).isSome → (v y).isSome →
    (∀ m ∈ mid, v m = none) → mid.any b = mid.any b'

variable (v b b') in
/-- The open gap agrees up to the next character. -/
def OpenGap (p : Bool × Bool) (es : List ε) : Prop :=
  ∀ mid y post, es = mid ++ y :: post → (v y).isSome → (∀ m ∈ mid, v m = none) →
    (p.1 || mid.any b) = (p.2 || mid.any b')

lemma sameGaps_cons_none {e : ε} (he : v e = none) (es : List ε) :
    SameGaps v b b' (e :: es) ↔ SameGaps v b b' es := by
  constructor
  · intro h pre x mid y post split
    exact h (e :: pre) x mid y post (by rw [split]; rfl)
  · intro h pre x mid y post split hx
    cases pre with
    | nil =>
      obtain rfl : e = x := (List.cons.inj split).1
      simp [he] at hx
    | cons e' pre => exact h pre x mid y post (List.cons.inj split).2 hx

lemma sameGaps_cons_some {e : ε} (he : (v e).isSome) (es : List ε) :
    SameGaps v b b' (e :: es) ↔ OpenGap v b b' (false, false) es ∧ SameGaps v b b' es := by
  constructor
  · intro h
    refine ⟨fun mid y post split hy hmid => ?_, fun pre x mid y post split => ?_⟩
    · simpa using h [] e mid y post (by rw [split]; rfl) he hy hmid
    · exact h (e :: pre) x mid y post (by rw [split]; rfl)
  · rintro ⟨first, rest⟩ pre x mid y post split hx hy hmid
    cases pre with
    | nil => simpa using first mid y post (List.cons.inj split).2 hy hmid
    | cons e' pre => exact rest pre x mid y post (List.cons.inj split).2 hx hy hmid

lemma openGap_cons_none {e : ε} (he : v e = none) (p : Bool × Bool) (es : List ε) :
    OpenGap v b b' p (e :: es) ↔ OpenGap v b b' (p.1 || b e, p.2 || b' e) es := by
  constructor
  · intro h mid y post split hy hmid
    have longer := h (e :: mid) y post (by rw [split]; rfl) hy
      (by simpa [he] using hmid)
    simpa [Bool.or_assoc] using longer
  · intro h mid y post split hy hmid
    cases mid with
    | nil =>
      obtain rfl : e = y := (List.cons.inj split).1
      simp [he] at hy
    | cons e' mid =>
      obtain rfl : e = e' := (List.cons.inj split).1
      have shorter := h mid y post (List.cons.inj split).2 hy
        fun m hm => hmid m (List.mem_cons_of_mem _ hm)
      simpa [Bool.or_assoc] using shorter

lemma openGap_cons_some {e : ε} (he : (v e).isSome) (p : Bool × Bool) (es : List ε) :
    OpenGap v b b' p (e :: es) ↔ p.1 = p.2 := by
  constructor
  · intro h
    simpa using h [] e es rfl he (by simp)
  · intro same mid y post split hy hmid
    cases mid with
    | nil => simpa using same
    | cons e' mid =>
      obtain rfl : e = e' := (List.cons.inj split).1
      simp [hmid e List.mem_cons_self] at he

lemma agree_iff (gap : Option (Bool × Bool)) (es : List ε) :
    Agree v b b' gap es ↔ (∀ p ∈ gap, OpenGap v b b' p es) ∧ SameGaps v b b' es := by
  induction es generalizing gap with
  | nil => simp [Agree, OpenGap, SameGaps]
  | cons e es ih =>
    rw [Agree]
    cases he : v e with
    | none =>
      rw [sameGaps_cons_none he]
      dsimp only
      rw [ih]
      cases gap <;> simp [openGap_cons_none he]
    | some a =>
      have visible : (v e).isSome := by simp [he]
      rw [sameGaps_cons_some visible]
      dsimp only
      rw [ih]
      cases gap <;> simp [openGap_cons_some visible]

/-- **Which breaks make a difference.**  Two ways to read breaks give the same lines if and only if
every two neighbouring characters are parted by both of them or by none. -/
theorem lines_eq_iff (es : List ε) :
    lines [] (tokens v b es) = lines [] (tokens v b' es) ↔ SameGaps v b b' es := by
  rw [lines_tokens_eq_iff, agree_iff]
  simp

end Gaps

end Lines
