import Mathlib.Data.List.Basic
import Mathlib.Tactic.Ring

/-!
# Variable-length integers and length-prefixed buffers

The byte-level vocabulary of binary protocols: a number is written as LEB128 (seven bits a byte,
lowest first, every byte but the last with its high bit set), a buffer as its length followed by
its bytes, a list as its length followed by its elements.  Readers take the bytes they are given
and return what they read with the rest.

`readVarUint` accepts every encoding of a number, not only the shortest one.  `writeVarUint`
writes the shortest.  The round trips are `readVarUint_write`, `readBuf_write` and
`readList_write`.

`Reads read F` says that a reader accepts exactly a format `F`, a relation between values and
bytes.  The formats of the readers here are `Encodes`, `Buffer` and `Elements`.
-/

namespace Wire

abbrev Bytes := List UInt8

/-! ## Numbers -/

/-- The number at the start of the bytes, and the rest; `none` when they end inside it. -/
def readVarUint : Bytes → Option (ℕ × Bytes)
  | [] => none
  | b :: rest =>
      if b.toNat < 128 then some (b.toNat, rest)
      else (readVarUint rest).map fun p => (b.toNat - 128 + 128 * p.1, p.2)

/-- Write `n` in at most `fuel + 1` bytes. -/
def writeVarUintAux : ℕ → ℕ → Bytes
  | 0, n => [UInt8.ofNat n]
  | fuel + 1, n =>
      if n < 128 then [UInt8.ofNat n]
      else UInt8.ofNat (n % 128 + 128) :: writeVarUintAux fuel (n / 128)

/-- The shortest encoding of `n`. -/
def writeVarUint (n : ℕ) : Bytes := writeVarUintAux n n

lemma toNat_ofNat_of_lt {n : ℕ} (h : n < 256) : (UInt8.ofNat n).toNat = n := by
  simp [UInt8.toNat_ofNat', Nat.mod_eq_of_lt h]

lemma readVarUint_writeAux (fuel n : ℕ) (h : n < 128 ^ (fuel + 1)) (rest : Bytes) :
    readVarUint (writeVarUintAux fuel n ++ rest) = some (n, rest) := by
  induction fuel generalizing n with
  | zero =>
      have hn : n < 128 := by simpa using h
      simp [writeVarUintAux, readVarUint, toNat_ofNat_of_lt (show n < 256 by omega), hn]
  | succ fuel ih =>
      by_cases hn : n < 128
      · simp [writeVarUintAux, readVarUint, toNat_ofNat_of_lt (show n < 256 by omega), hn]
      · have hdiv : n / 128 < 128 ^ (fuel + 1) := by
          rw [Nat.div_lt_iff_lt_mul (by norm_num)]
          calc n < 128 ^ (fuel + 1 + 1) := h
            _ = 128 ^ (fuel + 1) * 128 := pow_succ _ _
        have hb : (UInt8.ofNat (n % 128 + 128)).toNat = n % 128 + 128 :=
          toNat_ofNat_of_lt (by omega)
        simp only [writeVarUintAux, if_neg hn, List.cons_append, readVarUint, hb, ih _ hdiv,
          Option.map_some, if_neg (show ¬n % 128 + 128 < 128 by omega), Option.some.injEq,
          Prod.mk.injEq, and_true]
        omega

lemma lt_pow_succ (n : ℕ) : n < 128 ^ (n + 1) :=
  calc n < 128 ^ n := n.lt_pow_self (by norm_num)
    _ ≤ 128 ^ (n + 1) := Nat.pow_le_pow_right (by norm_num) n.le_succ

/-- What was written reads back, with the bytes after it untouched. -/
@[simp] theorem readVarUint_write (n : ℕ) (rest : Bytes) :
    readVarUint (writeVarUint n ++ rest) = some (n, rest) :=
  readVarUint_writeAux n n (lt_pow_succ n) rest

/-- Reading a number takes at least one byte. -/
lemma readVarUint_length {bs rest : Bytes} {n : ℕ} (h : readVarUint bs = some (n, rest)) :
    rest.length < bs.length := by
  induction bs generalizing n rest with
  | nil => simp [readVarUint] at h
  | cons b bs ih =>
      by_cases hb : b.toNat < 128
      · obtain ⟨-, rfl⟩ : b.toNat = n ∧ bs = rest := by simpa [readVarUint, hb] using h
        simp
      · obtain ⟨m, hm, -⟩ : ∃ m, readVarUint bs = some (m, rest) ∧ b.toNat - 128 + 128 * m = n := by
          simpa [readVarUint, hb] using h
        have := ih hm
        simp only [List.length_cons]
        omega

/-- Reading by the top bit of the first byte: it is the number, or its low seven bits. -/
lemma readVarUint_cons_eq_some {b : UInt8} {bs rest : Bytes} {n : ℕ} :
    readVarUint (b :: bs) = some (n, rest) ↔
      (b.toNat < 128 ∧ b.toNat = n ∧ bs = rest) ∨
      (128 ≤ b.toNat ∧ ∃ m, readVarUint bs = some (m, rest) ∧ b.toNat - 128 + 128 * m = n) := by
  by_cases hb : b.toNat < 128
  · simp [readVarUint, hb, show ¬128 ≤ b.toNat by omega]
  · simp [readVarUint, hb, show 128 ≤ b.toNat by omega]

/-! ## Buffers -/

/-- A length followed by that many bytes; `none` when the bytes end inside the buffer. -/
def readBuf (bs : Bytes) : Option (Bytes × Bytes) :=
  match readVarUint bs with
  | none => none
  | some (n, rest) => if rest.length < n then none else some (rest.take n, rest.drop n)

/-- The length of a buffer, then the buffer. -/
def writeBuf (b : Bytes) : Bytes := writeVarUint b.length ++ b

@[simp] theorem readBuf_write (b rest : Bytes) :
    readBuf (writeBuf b ++ rest) = some (b, rest) := by
  simp [readBuf, writeBuf, List.append_assoc]

@[simp] theorem readBuf_write_nil (b : Bytes) : readBuf (writeBuf b) = some (b, []) := by
  simpa using readBuf_write b []

lemma readBuf_length {bs b rest : Bytes} (h : readBuf bs = some (b, rest)) :
    rest.length < bs.length := by
  unfold readBuf at h
  split at h
  · simp at h
  · rename_i n tail htail
    split at h
    · simp at h
    · have := readVarUint_length htail
      have hrest : tail.drop n = rest := (Prod.mk.inj (Option.some.inj h)).2
      rw [← hrest, List.length_drop]
      omega

/-! ## Lists -/

/-- Read `n` elements. -/
def readMany {α : Type*} (read : Bytes → Option (α × Bytes)) :
    ℕ → Bytes → Option (List α × Bytes)
  | 0, bs => some ([], bs)
  | n + 1, bs =>
      (read bs).bind fun p => (readMany read n p.2).map fun q => (p.1 :: q.1, q.2)

/-- A length followed by that many elements. -/
def readList {α : Type*} (read : Bytes → Option (α × Bytes)) (bs : Bytes) :
    Option (List α × Bytes) :=
  (readVarUint bs).bind fun p => readMany read p.1 p.2

/-- The length of a list, then its elements. -/
def writeList {α : Type*} (write : α → Bytes) (xs : List α) : Bytes :=
  writeVarUint xs.length ++ xs.flatMap write

/-- If `read` reads `f a` back from what `write` wrote for `a`, a written list reads back as its
image under `f`. -/
theorem readList_write {α β : Type*} {read : Bytes → Option (β × Bytes)} {write : α → Bytes}
    {f : α → β} (h : ∀ a rest, read (write a ++ rest) = some (f a, rest)) (xs : List α)
    (rest : Bytes) : readList read (writeList write xs ++ rest) = some (xs.map f, rest) := by
  have hmany : ∀ xs : List α,
      readMany read xs.length (xs.flatMap write ++ rest) = some (xs.map f, rest) := by
    intro xs
    induction xs with
    | nil => rfl
    | cons a xs ih => simp [readMany, List.append_assoc, h, ih]
  simp [readList, writeList, List.append_assoc, hmany]

/-! ## Formats -/

/-- The reader takes a value off the front of the bytes exactly when they begin with a
representation of it, and returns the bytes after that. -/
def Reads {α : Type*} (read : Bytes → Option (α × Bytes)) (F : α → Bytes → Prop) : Prop :=
  ∀ bs a rest, read bs = some (a, rest) ↔ ∃ w, F a w ∧ bs = w ++ rest

/-- The encodings of a number, the shortest or not. -/
inductive Encodes : ℕ → Bytes → Prop
  | last {b : UInt8} (h : b.toNat < 128) : Encodes b.toNat [b]
  | more {b : UInt8} {n : ℕ} {e : Bytes} (h : 128 ≤ b.toNat) (he : Encodes n e) :
      Encodes (b.toNat - 128 + 128 * n) (b :: e)

/-- The length of a buffer in any encoding, then the buffer. -/
def Buffer (b w : Bytes) : Prop := ∃ e, Encodes b.length e ∧ w = e ++ b

/-- The length of a list in any encoding, then its elements. -/
def Elements {α : Type*} (F : α → Bytes → Prop) (xs : List α) (w : Bytes) : Prop :=
  ∃ e ws, Encodes xs.length e ∧ List.Forall₂ F xs ws ∧ w = e ++ ws.flatten

theorem reads_readVarUint : Reads readVarUint Encodes := by
  intro bs n rest
  induction bs generalizing n with
  | nil =>
      refine ⟨fun h => by simp [readVarUint] at h, ?_⟩
      rintro ⟨w, hw, hbs⟩
      cases hw <;> simp at hbs
  | cons b bs ih =>
      rw [readVarUint_cons_eq_some]
      constructor
      · rintro (⟨hb, rfl, rfl⟩ | ⟨hb, m, hm, rfl⟩)
        · exact ⟨[b], .last hb, rfl⟩
        · obtain ⟨e, he, rfl⟩ := (ih m).1 hm
          exact ⟨b :: e, .more hb he, rfl⟩
      · rintro ⟨w, hw, hbs⟩
        cases hw with
        | last hb =>
            obtain ⟨rfl, rfl⟩ := List.cons.inj hbs
            exact .inl ⟨hb, rfl, rfl⟩
        | more hb he =>
            obtain ⟨rfl, rfl⟩ := List.cons.inj hbs
            exact .inr ⟨hb, _, (ih _).2 ⟨_, he, rfl⟩, rfl⟩

theorem reads_readBuf : Reads readBuf Buffer := by
  intro bs b rest
  constructor
  · intro h
    unfold readBuf at h
    split at h
    · simp at h
    · rename_i n tail hread
      split at h
      · simp at h
      · rename_i hlen
        obtain ⟨rfl, rfl⟩ := Prod.mk.inj (Option.some.inj h)
        obtain ⟨e, he, rfl⟩ := (reads_readVarUint _ _ _).1 hread
        have hn : (tail.take n).length = n := by
          rw [List.length_take]
          omega
        exact ⟨e ++ tail.take n, ⟨e, by rwa [hn], rfl⟩, by simp⟩
  · rintro ⟨w, ⟨e, he, rfl⟩, rfl⟩
    have hread : readVarUint (e ++ (b ++ rest)) = some (b.length, b ++ rest) :=
      (reads_readVarUint _ _ _).2 ⟨e, he, rfl⟩
    simp [readBuf, hread]

/-- Forgetting part of every element afterwards is forgetting it at once. -/
lemma readMany_map {α β : Type*} (read : Bytes → Option (α × Bytes)) (f : α → β) (n : ℕ)
    (bs : Bytes) :
    readMany (fun bs => (read bs).map fun p => (f p.1, p.2)) n bs =
      (readMany read n bs).map fun q => (q.1.map f, q.2) := by
  induction n generalizing bs with
  | zero => rfl
  | succ n ih =>
      cases h : read bs with
      | none => simp [readMany, h]
      | some p =>
          cases hrest : readMany read n p.2 <;> simp [readMany, h, ih, hrest]

lemma reads_readMany {α : Type*} {read : Bytes → Option (α × Bytes)} {F : α → Bytes → Prop}
    (h : Reads read F) (n : ℕ) (bs : Bytes) (xs : List α) (rest : Bytes) :
    readMany read n bs = some (xs, rest) ↔
      xs.length = n ∧ ∃ ws, List.Forall₂ F xs ws ∧ bs = ws.flatten ++ rest := by
  induction n generalizing bs xs with
  | zero =>
      constructor
      · intro hread
        obtain ⟨rfl, rfl⟩ := Prod.mk.inj (Option.some.inj hread)
        exact ⟨rfl, [], .nil, rfl⟩
      · rintro ⟨hlen, ws, hws, rfl⟩
        obtain rfl := List.length_eq_zero_iff.1 hlen
        cases hws
        rfl
  | succ n ih =>
      simp only [readMany, Option.bind_eq_some_iff, Option.map_eq_some_iff, Prod.exists,
        Prod.mk.injEq]
      constructor
      · rintro ⟨a, bs', hread, ys, rest', hmany, rfl, rfl⟩
        obtain ⟨w, hw, rfl⟩ := (h _ _ _).1 hread
        obtain ⟨hlen, ws, hws, rfl⟩ := (ih _ _).1 hmany
        exact ⟨by simp [hlen], w :: ws, .cons hw hws, by simp⟩
      · rintro ⟨hlen, ws, hws, rfl⟩
        cases hws with
        | nil => simp at hlen
        | @cons a w ys ws hw hws =>
            refine ⟨a, ws.flatten ++ rest, (h _ _ _).2 ⟨w, hw, by simp⟩, ys, rest, ?_, rfl, rfl⟩
            exact (ih _ _).2 ⟨by simpa using hlen, ws, hws, rfl⟩

theorem reads_readList {α : Type*} {read : Bytes → Option (α × Bytes)} {F : α → Bytes → Prop}
    (h : Reads read F) : Reads (readList read) (Elements F) := by
  intro bs xs rest
  simp only [readList, Option.bind_eq_some_iff, Prod.exists]
  constructor
  · rintro ⟨n, tail, hread, hmany⟩
    obtain ⟨e, he, rfl⟩ := (reads_readVarUint _ _ _).1 hread
    obtain ⟨rfl, ws, hws, rfl⟩ := (reads_readMany h _ _ _ _).1 hmany
    exact ⟨e ++ ws.flatten, ⟨e, ws, he, hws, rfl⟩, by simp⟩
  · rintro ⟨w, ⟨e, ws, he, hws, rfl⟩, rfl⟩
    refine ⟨xs.length, ws.flatten ++ rest, (reads_readVarUint _ _ _).2 ⟨e, he, by simp⟩, ?_⟩
    exact (reads_readMany h _ _ _ _).2 ⟨rfl, ws, hws, rfl⟩

end Wire
