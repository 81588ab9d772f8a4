import Mathlib.Data.List.Basic

/-!
# UTF-8 on lists of bytes

Decoding and encoding of byte lists, on top of the decoder of one character in the core library.

* `decode_encode`, `encode_of_decode`: on valid input the two are inverse.
* `first?_encodeChar_append`: what is decoded first does not depend on what follows.
* `encode_flatMap`: a rule for single bytes that leaves those from 128 on alone is one for characters.
-/

namespace Utf8

def encodeChar (c : Char) : List UInt8 := String.utf8EncodeChar c

def encode (cs : List Char) : List UInt8 := cs.flatMap encodeChar

/-- The first character and the bytes after it, if the bytes start with a valid encoding. -/
def first? (s : List UInt8) : Option (Char × List UInt8) :=
  match ByteArray.utf8DecodeChar? s.toByteArray 0 with
  | some c => some (c, s.drop (encodeChar c).length)
  | none => none

def decodeFuel : Nat → List UInt8 → Option (List Char)
  | _, [] => some []
  | 0, _ :: _ => none
  | fuel + 1, b :: s =>
    match first? (b :: s) with
    | some (c, rest) => (decodeFuel fuel rest).map (c :: ·)
    | none => none

/-- The characters of a valid UTF-8 text. -/
def decode (s : List UInt8) : Option (List Char) := decodeFuel s.length s

@[simp] theorem encode_nil : encode [] = [] := rfl

@[simp] theorem encode_cons (c : Char) (cs : List Char) :
    encode (c :: cs) = encodeChar c ++ encode cs := rfl

@[simp] theorem encode_append (cs ds : List Char) : encode (cs ++ ds) = encode cs ++ encode ds := by
  simp [encode]

theorem encode_replicate {c : Char} {b : UInt8} (h : encodeChar c = [b]) (n : Nat) :
    encode (List.replicate n c) = List.replicate n b := by
  induction n with
  | zero => rfl
  | succ n ih => rw [List.replicate_succ, encode_cons, h, ih, List.replicate_succ]; rfl

theorem encodeChar_length_pos (c : Char) : 0 < (encodeChar c).length := by
  rw [encodeChar, String.length_utf8EncodeChar]
  exact c.utf8Size_pos

theorem encodeChar_ne_nil (c : Char) : encodeChar c ≠ [] :=
  List.ne_nil_of_length_pos (encodeChar_length_pos c)

theorem first?_encodeChar_append (c : Char) (s : List UInt8) :
    first? (encodeChar c ++ s) = some (c, s) := by
  simp [first?, encodeChar, List.toByteArray_append,
    ByteArray.utf8DecodeChar?_utf8EncodeChar_append]

theorem first?_split {s rest : List UInt8} {c : Char} (h : first? s = some (c, rest)) :
    s = encodeChar c ++ rest := by
  unfold first? at h
  split at h
  · rename_i d hd
    cases h
    obtain ⟨l, hl⟩ := ByteArray.exists_of_utf8DecodeChar?_eq_some hd
    have hsplit : s = encodeChar c ++ l.data.toList := by
      have := congrArg (fun b : ByteArray => b.data.toList) hl
      simpa [ByteArray.data_append, encodeChar] using this
    rw [hsplit, List.drop_left]
  · cases h

theorem decodeFuel_encode (cs : List Char) :
    ∀ fuel, (encode cs).length ≤ fuel → decodeFuel fuel (encode cs) = some cs := by
  induction cs with
  | nil => intro fuel _; cases fuel <;> rfl
  | cons c cs ih =>
    intro fuel hfuel
    obtain ⟨b, s, hbs⟩ := List.exists_cons_of_ne_nil (encodeChar_ne_nil c)
    simp only [encode_cons, List.length_append] at hfuel ⊢
    have hpos := encodeChar_length_pos c
    cases fuel with
    | zero => omega
    | succ fuel =>
      have hfirst := first?_encodeChar_append c (encode cs)
      rw [hbs, List.cons_append] at hfirst ⊢
      rw [decodeFuel, hfirst]
      simp only [ih fuel (by omega), Option.map_some]

theorem decode_encode (cs : List Char) : decode (encode cs) = some cs :=
  decodeFuel_encode cs _ (Nat.le_refl _)

theorem encode_of_decodeFuel :
    ∀ {fuel : Nat} {s : List UInt8} {cs : List Char}, decodeFuel fuel s = some cs → encode cs = s := by
  intro fuel
  induction fuel with
  | zero =>
    intro s cs h
    cases s with
    | nil => cases h; rfl
    | cons b s => cases h
  | succ fuel ih =>
    intro s cs h
    cases s with
    | nil => cases h; rfl
    | cons b s =>
      simp only [decodeFuel] at h
      split at h
      · rename_i c rest hfirst
        obtain ⟨ds, hds, rfl⟩ := Option.map_eq_some_iff.mp h
        rw [encode_cons, ih hds, first?_split hfirst]
      · cases h

theorem encode_of_decode {s : List UInt8} {cs : List Char} (h : decode s = some cs) :
    encode cs = s := encode_of_decodeFuel h

theorem encode_injective {cs ds : List Char} (h : encode cs = encode ds) : cs = ds := by
  have := decode_encode cs
  rw [h, decode_encode] at this
  exact (Option.some.inj this).symm

/-- A text that starts another in bytes starts it in characters. -/
theorem encode_prefixed {cs ds : List Char} (h : encode cs <+: encode ds) : cs <+: ds := by
  induction cs generalizing ds with
  | nil => exact List.nil_prefix
  | cons c cs ih =>
    obtain ⟨more, hmore⟩ := h
    have hfirst := first?_encodeChar_append c (encode cs ++ more)
    rw [encode_cons, List.append_assoc] at hmore
    rw [hmore] at hfirst
    cases ds with
    | nil => cases hfirst
    | cons d ds =>
      rw [encode_cons, first?_encodeChar_append, Option.some.injEq, Prod.mk.injEq] at hfirst
      obtain ⟨rfl, hrest⟩ := hfirst
      exact List.cons_prefix_cons.mpr ⟨rfl, ih ⟨more, hrest.symm⟩⟩

/-! ## Bytes below 128 -/

theorem encodeChar_of_lt {c : Char} (h : c.toNat < 128) : encodeChar c = [UInt8.ofNat c.toNat] := by
  unfold encodeChar String.utf8EncodeChar
  exact if_pos (Nat.le_of_lt_succ h)

/-- A character that takes more than one byte takes none below 128. -/
theorem le_of_mem_encodeChar {c : Char} (h : 128 ≤ c.toNat) : ∀ b ∈ encodeChar c, 128 ≤ b := by
  have high : ∀ n m : Nat, 128 ≤ m → m + n < 256 → 128 ≤ UInt8.ofNat (n + m) := by
    intro n m hm hlt
    rw [UInt8.le_iff_toNat_le, UInt8.toNat_ofNat_of_lt' (show n + m < UInt8.size by
      rw [UInt8.size]; omega)]
    show 128 ≤ n + m
    omega
  have hlast : ∀ n : Nat, 128 ≤ UInt8.ofNat (n % 0x40 + 0x80) := fun n => high _ _ (by omega) (by omega)
  intro b hb
  unfold encodeChar String.utf8EncodeChar at hb
  dsimp only at hb
  rw [if_neg (show ¬ c.val.toNat ≤ 0x7f from Nat.not_le.mpr h)] at hb
  split at hb
  · rcases hb with _ | ⟨_, _ | ⟨_, hb⟩⟩
    · exact high _ _ (by omega) (by omega)
    · exact hlast _
    · cases hb
  · split at hb
    · rcases hb with _ | ⟨_, _ | ⟨_, _ | ⟨_, hb⟩⟩⟩
      · exact high _ _ (by omega) (by omega)
      · exact hlast _
      · exact hlast _
      · cases hb
    · rcases hb with _ | ⟨_, _ | ⟨_, _ | ⟨_, _ | ⟨_, hb⟩⟩⟩⟩
      · exact high _ _ (by omega) (by omega)
      · exact hlast _
      · exact hlast _
      · exact hlast _
      · cases hb

/-- What is done to the bytes below 128 one by one is done to the characters they stand for. -/
theorem encode_flatMap {f : UInt8 → List UInt8} {g : Char → List Char}
    (hlow : ∀ c : Char, c.toNat < 128 → f (UInt8.ofNat c.toNat) = encode (g c))
    (hhigh : ∀ b : UInt8, 128 ≤ b → f b = [b]) (hkept : ∀ c : Char, 128 ≤ c.toNat → g c = [c])
    (cs : List Char) : (encode cs).flatMap f = encode (cs.flatMap g) := by
  have hid : ∀ l : List UInt8, (∀ b ∈ l, 128 ≤ b) → l.flatMap f = l := by
    intro l hl
    induction l with
    | nil => rfl
    | cons b l ih =>
      rw [List.flatMap_cons, hhigh b (hl b List.mem_cons_self),
        ih fun b hb => hl b (List.mem_cons_of_mem _ hb)]
      rfl
  induction cs with
  | nil => rfl
  | cons c cs ih =>
    rw [encode_cons, List.flatMap_append, ih, List.flatMap_cons, encode_append]
    congr 1
    by_cases hc : c.toNat < 128
    · rw [encodeChar_of_lt hc, List.flatMap_singleton, hlow c hc]
    · rw [hid _ (le_of_mem_encodeChar (Nat.le_of_not_lt hc)), hkept c (Nat.le_of_not_lt hc), encode_cons,
        encode_nil, List.append_nil]

end Utf8
