import Mathlib.Data.List.Basic

/-!
# Raoui.Lib.Base64

The base 64 encoding of RFC 4648 with its standard alphabet. Three bytes are four digits of six bits;
what is left over at the end is padded.

* `decode`: what a text encodes, strict about the padding and the bits under it.
* `decode_encode`: the encoding is read back.
* `length_encode`, `mem_encode`: how long it is and what it is made of.
-/

namespace Raoui
namespace Base64

/-- The digit for six bits. -/
def digit (n : Nat) : UInt8 :=
  if n < 26 then UInt8.ofNat (65 + n)
  else if n < 52 then UInt8.ofNat (97 + (n - 26))
  else if n < 62 then UInt8.ofNat (48 + (n - 52))
  else if n = 62 then 43
  else 47

def pad : UInt8 := 61

def value? (c : UInt8) : Option Nat :=
  if 65 ≤ c ∧ c ≤ 90 then some (c.toNat - 65)
  else if 97 ≤ c ∧ c ≤ 122 then some (c.toNat - 97 + 26)
  else if 48 ≤ c ∧ c ≤ 57 then some (c.toNat - 48 + 52)
  else if c = 43 then some 62
  else if c = 47 then some 63
  else none

/-- The bits of three bytes, or of what there is of them, as digits. -/
def encode : List UInt8 → List UInt8
  | [] => []
  | [b₀] => [digit (b₀.toNat / 4), digit (b₀.toNat % 4 * 16), pad, pad]
  | [b₀, b₁] =>
    [digit (b₀.toNat / 4), digit (b₀.toNat % 4 * 16 + b₁.toNat / 16), digit (b₁.toNat % 16 * 4),
      pad]
  | b₀ :: b₁ :: b₂ :: rest =>
    digit (b₀.toNat / 4) :: digit (b₀.toNat % 4 * 16 + b₁.toNat / 16) ::
      digit (b₁.toNat % 16 * 4 + b₂.toNat / 64) :: digit (b₂.toNat % 64) :: encode rest

/-- Padding ends the text, and the bits it leaves over are zero. -/
def decode : List UInt8 → Option (List UInt8)
  | [] => some []
  | a :: b :: c :: d :: rest =>
    match value? a, value? b, value? c, value? d with
    | some x, some y, some z, some w =>
      (decode rest).map fun bs => UInt8.ofNat (x * 4 + y / 16) ::
        UInt8.ofNat (y % 16 * 16 + z / 4) :: UInt8.ofNat (z % 4 * 64 + w) :: bs
    | some x, some y, some z, none =>
      if d = pad ∧ rest = [] ∧ z % 4 = 0 then
        some [UInt8.ofNat (x * 4 + y / 16), UInt8.ofNat (y % 16 * 16 + z / 4)]
      else none
    | some x, some y, none, none =>
      if c = pad ∧ d = pad ∧ rest = [] ∧ y % 16 = 0 then some [UInt8.ofNat (x * 4 + y / 16)]
      else none
    | _, _, _, _ => none
  | _ => none

theorem value?_digit {n : Nat} (h : n < 64) : value? (digit n) = some n := by
  have hall : ∀ i : Fin 64, value? (digit i) = some i.val := by decide +kernel
  exact hall ⟨n, h⟩

theorem value?_pad : value? pad = none := by decide +kernel

theorem ofNat_eq {b : UInt8} {n : Nat} (h : n = b.toNat) : UInt8.ofNat n = b := by
  rw [h, UInt8.ofNat_toNat]

/-- What is encoded is read back. -/
theorem decode_encode (s : List UInt8) : decode (encode s) = some s := by
  induction s using encode.induct with
  | case1 => rfl
  | case2 b₀ =>
    have h₀ := b₀.toNat_lt
    rw [encode, decode, value?_digit (by omega), value?_digit (by omega), value?_pad]
    dsimp only
    rw [if_pos ⟨rfl, rfl, rfl, by omega⟩, ofNat_eq (b := b₀) (by omega)]
  | case3 b₀ b₁ =>
    have h₀ := b₀.toNat_lt
    have h₁ := b₁.toNat_lt
    rw [encode, decode, value?_digit (by omega), value?_digit (by omega), value?_digit (by omega),
      value?_pad]
    dsimp only
    rw [if_pos ⟨rfl, rfl, by omega⟩, ofNat_eq (b := b₀) (by omega), ofNat_eq (b := b₁) (by omega)]
  | case4 b₀ b₁ b₂ rest ih =>
    have h₀ := b₀.toNat_lt
    have h₁ := b₁.toNat_lt
    have h₂ := b₂.toNat_lt
    rw [encode, decode, value?_digit (by omega), value?_digit (by omega), value?_digit (by omega),
      value?_digit (by omega)]
    dsimp only
    rw [ih, Option.map_some, ofNat_eq (b := b₀) (by omega), ofNat_eq (b := b₁) (by omega),
      ofNat_eq (b := b₂) (by omega)]

theorem length_encode (s : List UInt8) : (encode s).length = (s.length + 2) / 3 * 4 := by
  induction s using encode.induct with
  | case1 => rfl
  | case2 b₀ => simp [encode]
  | case3 b₀ b₁ => simp [encode]
  | case4 b₀ b₁ b₂ rest ih =>
    simp only [encode, List.length_cons, ih]
    omega

theorem isDigit_digit (n : Nat) : (value? (digit n)).isSome = true := by
  by_cases h : n < 64
  · rw [value?_digit h]
    rfl
  · have hlast : digit n = 47 := by
      rw [digit, if_neg (by omega), if_neg (by omega), if_neg (by omega), if_neg (by omega)]
    rw [hlast]
    decide +kernel

/-- An encoded text is made of digits and padding. -/
theorem mem_encode {s : List UInt8} {c : UInt8} (h : c ∈ encode s) :
    (value? c).isSome = true ∨ c = pad := by
  induction s using encode.induct with
  | case1 => exact absurd h List.not_mem_nil
  | case2 b₀ =>
    simp only [encode, List.mem_cons, List.not_mem_nil, or_false] at h
    rcases h with rfl | rfl | rfl | rfl
    · exact .inl (isDigit_digit _)
    · exact .inl (isDigit_digit _)
    · exact .inr rfl
    · exact .inr rfl
  | case3 b₀ b₁ =>
    simp only [encode, List.mem_cons, List.not_mem_nil, or_false] at h
    rcases h with rfl | rfl | rfl | rfl
    · exact .inl (isDigit_digit _)
    · exact .inl (isDigit_digit _)
    · exact .inl (isDigit_digit _)
    · exact .inr rfl
  | case4 b₀ b₁ b₂ rest ih =>
    simp only [encode, List.mem_cons] at h
    rcases h with rfl | rfl | rfl | rfl | h
    · exact .inl (isDigit_digit _)
    · exact .inl (isDigit_digit _)
    · exact .inl (isDigit_digit _)
    · exact .inl (isDigit_digit _)
    · exact ih h

end Base64
end Raoui
