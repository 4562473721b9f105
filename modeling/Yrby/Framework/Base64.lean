import Yrby.Framework.Wire

/-!
# Strict base64

The standard alphabet with mandatory padding, over bytes.  `strictDecode64` refuses everything
`strictEncode64` does not write: a character outside the alphabet, a length that is not a
multiple of four, padding anywhere but at the end, and padding bits that are not zero.

The round trip is `strictDecode64_encode`, and `length_of_strictDecode64` says how long an
encoding is, which is what a size check on the encoded form relies on.
-/

namespace Base64

open Wire

/-- The character for a six-bit value. -/
def char64 (n : ℕ) : UInt8 :=
  if n < 26 then UInt8.ofNat (n + 65)
  else if n < 52 then UInt8.ofNat (n - 26 + 97)
  else if n < 62 then UInt8.ofNat (n - 52 + 48)
  else if n = 62 then 43
  else 47

/-- The six-bit value of a character of the alphabet. -/
def value64 (c : UInt8) : Option ℕ :=
  if 65 ≤ c.toNat ∧ c.toNat ≤ 90 then some (c.toNat - 65)
  else if 97 ≤ c.toNat ∧ c.toNat ≤ 122 then some (c.toNat - 97 + 26)
  else if 48 ≤ c.toNat ∧ c.toNat ≤ 57 then some (c.toNat - 48 + 52)
  else if c = 43 then some 62
  else if c = 47 then some 63
  else none

/-- The padding character `=`. -/
def padding : UInt8 := 61

def strictEncode64 : Bytes → Bytes
  | [] => []
  | [a] => [char64 (a.toNat / 4), char64 (a.toNat % 4 * 16), padding, padding]
  | [a, b] =>
      [char64 (a.toNat / 4), char64 (a.toNat % 4 * 16 + b.toNat / 16),
        char64 (b.toNat % 16 * 4), padding]
  | a :: b :: c :: rest =>
      char64 (a.toNat / 4) :: char64 (a.toNat % 4 * 16 + b.toNat / 16) ::
        char64 (b.toNat % 16 * 4 + c.toNat / 64) :: char64 (c.toNat % 64) :: strictEncode64 rest

def strictDecode64 : Bytes → Option Bytes
  | [] => some []
  | a :: b :: c :: d :: rest =>
      match value64 a, value64 b with
      | some va, some vb =>
          if c = padding then
            if d = padding ∧ rest = [] ∧ vb % 16 = 0 then some [UInt8.ofNat (va * 4 + vb / 16)]
            else none
          else
            match value64 c with
            | none => none
            | some vc =>
                if d = padding then
                  if rest = [] ∧ vc % 4 = 0 then
                    some [UInt8.ofNat (va * 4 + vb / 16), UInt8.ofNat (vb % 16 * 16 + vc / 4)]
                  else none
                else
                  match value64 d with
                  | none => none
                  | some vd =>
                      (strictDecode64 rest).map fun bs =>
                        UInt8.ofNat (va * 4 + vb / 16) :: UInt8.ofNat (vb % 16 * 16 + vc / 4) ::
                          UInt8.ofNat (vc % 4 * 64 + vd) :: bs
      | _, _ => none
  | _ => none

lemma value64_char64 {n : ℕ} (h : n < 64) : value64 (char64 n) = some n := by
  have key : ∀ m : Fin 64, value64 (char64 m) = some (m : ℕ) := by decide
  exact key ⟨n, h⟩

lemma char64_ne_padding {n : ℕ} (h : n < 64) : char64 n ≠ padding := by
  have key : ∀ m : Fin 64, char64 m ≠ padding := by decide
  exact key ⟨n, h⟩

lemma ofNat_toNat_eq {a : UInt8} {n : ℕ} (h : n = a.toNat) : UInt8.ofNat n = a := by
  rw [h, UInt8.ofNat_toNat]

/-- Whatever was encoded decodes to the bytes it came from. -/
@[simp] theorem strictDecode64_encode : ∀ bs : Bytes, strictDecode64 (strictEncode64 bs) = some bs
  | [] => rfl
  | [a] => by
      have ha := a.toNat_lt
      have h₁ : UInt8.ofNat (a.toNat / 4 * 4 + a.toNat % 4 * 16 / 16) = a :=
        ofNat_toNat_eq (by omega)
      have hpad : a.toNat % 4 * 16 % 16 = 0 := by omega
      simp only [strictEncode64, strictDecode64, value64_char64 (show a.toNat / 4 < 64 by omega),
        value64_char64 (show a.toNat % 4 * 16 < 64 by omega), h₁, hpad, and_self, if_true]
  | [a, b] => by
      have ha := a.toNat_lt
      have hb := b.toNat_lt
      have hc : b.toNat % 16 * 4 < 64 := by omega
      have h₁ : UInt8.ofNat (a.toNat / 4 * 4 + (a.toNat % 4 * 16 + b.toNat / 16) / 16) = a :=
        ofNat_toNat_eq (by omega)
      have h₂ : UInt8.ofNat ((a.toNat % 4 * 16 + b.toNat / 16) % 16 * 16 +
          b.toNat % 16 * 4 / 4) = b := ofNat_toNat_eq (by omega)
      have hpad : b.toNat % 16 * 4 % 4 = 0 := by omega
      simp only [strictEncode64, strictDecode64, value64_char64 (show a.toNat / 4 < 64 by omega),
        value64_char64 (show a.toNat % 4 * 16 + b.toNat / 16 < 64 by omega), value64_char64 hc,
        if_neg (char64_ne_padding hc), h₁, h₂, hpad, and_self, if_true]
  | a :: b :: c :: rest => by
      have ha := a.toNat_lt
      have hb := b.toNat_lt
      have hc := c.toNat_lt
      have h3 : b.toNat % 16 * 4 + c.toNat / 64 < 64 := by omega
      have h4 : c.toNat % 64 < 64 := by omega
      have h₁ : UInt8.ofNat (a.toNat / 4 * 4 + (a.toNat % 4 * 16 + b.toNat / 16) / 16) = a :=
        ofNat_toNat_eq (by omega)
      have h₂ : UInt8.ofNat ((a.toNat % 4 * 16 + b.toNat / 16) % 16 * 16 +
          (b.toNat % 16 * 4 + c.toNat / 64) / 4) = b := ofNat_toNat_eq (by omega)
      have h₃ : UInt8.ofNat ((b.toNat % 16 * 4 + c.toNat / 64) % 4 * 64 + c.toNat % 64) = c :=
        ofNat_toNat_eq (by omega)
      simp only [strictEncode64, strictDecode64, value64_char64 (show a.toNat / 4 < 64 by omega),
        value64_char64 (show a.toNat % 4 * 16 + b.toNat / 16 < 64 by omega), value64_char64 h3,
        value64_char64 h4, if_neg (char64_ne_padding h3), if_neg (char64_ne_padding h4),
        strictDecode64_encode rest, Option.map_some, h₁, h₂, h₃]

/-- Three bytes take four characters, and the last group is padded to four. -/
theorem length_of_strictDecode64 : ∀ {s bs : Bytes}, strictDecode64 s = some bs →
    s.length = 4 * ((bs.length + 2) / 3)
  | [], bs, h => by
      obtain rfl : [] = bs := by simpa [strictDecode64] using h
      rfl
  | [_], _, h => by simp [strictDecode64] at h
  | [_, _], _, h => by simp [strictDecode64] at h
  | [_, _, _], _, h => by simp [strictDecode64] at h
  | a :: b :: c :: d :: rest, bs, h => by
      unfold strictDecode64 at h
      split at h
      · split at h
        · split at h
          · rename_i hpad
            obtain rfl := Option.some.inj h
            simp [hpad.2.1]
          · simp at h
        · split at h
          · simp at h
          · split at h
            · split at h
              · rename_i hpad
                obtain rfl := Option.some.inj h
                simp [hpad.1]
              · simp at h
            · split at h
              · simp at h
              · obtain ⟨bs', hbs', rfl⟩ := Option.map_eq_some_iff.1 h
                have ih := length_of_strictDecode64 hbs'
                simp only [List.length_cons, ih]
                omega
      · simp at h

/-- Decoded bytes within a cap come from an encoding within the cap's encoded size. -/
theorem length_le_of_strictDecode64 {s bs : Bytes} {cap : ℕ} (h : strictDecode64 s = some bs)
    (hcap : bs.length ≤ cap) : s.length ≤ cap * 4 / 3 + 4 := by
  rw [length_of_strictDecode64 h]
  omega

end Base64
