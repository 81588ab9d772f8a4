import Mathlib.Algebra.Group.Int.Defs
import Mathlib.Algebra.GroupWithZero.Nat
import Mathlib.Data.List.TakeWhile

/-!
# Raoui.Base

OCaml values shared by the modules below. A `string` is a list of bytes, an exception that can
escape is an `Exn`, and a function that may raise returns in `Except Exn`.
-/

namespace Raoui

/-- An OCaml `string`. -/
abbrev Bytes := List UInt8

/-- The bytes of a string literal. -/
def bytes (s : String) : Bytes := s.toByteArray.data.toList

inductive Exn where
  /-- `assert` or `assert false`. -/
  | assertFailure
  | failure (msg : Bytes)
  | invalidArgument (msg : Bytes)
  | notFound
  /-- `Sedlexing.MalFormed`. -/
  | malformed
  deriving DecidableEq, Repr

abbrev Res := Except Exn

/-- `String.split_on_char`. -/
def splitOnChar (sep : UInt8) : Bytes → List Bytes
  | [] => [[]]
  | c :: s =>
    match splitOnChar sep s with
    | [] => [[c]]
    | w :: ws => if c = sep then [] :: w :: ws else (c :: w) :: ws

def newline : UInt8 := 10

/-- The blanks `String.trim` removes: space, form feed, newline, carriage return and tab. -/
def isTrimmed (c : UInt8) : Bool := c = 32 || c = 12 || c = 10 || c = 13 || c = 9

/-- `String.trim`. -/
def trim (s : Bytes) : Bytes :=
  ((s.dropWhile isTrimmed).reverse.dropWhile isTrimmed).reverse

/-- `String.concat`. -/
def concatWith (sep : Bytes) : List Bytes → Bytes
  | [] => []
  | [s] => s
  | s :: rest => s ++ sep ++ concatWith sep rest

theorem forall_isTrimmed_of_trim {t : Bytes} (h : trim t = []) : ∀ c ∈ t, isTrimmed c = true := by
  rw [trim, List.reverse_eq_nil_iff, List.dropWhile_eq_nil_iff] at h
  intro c hc
  rw [← List.takeWhile_append_dropWhile (p := isTrimmed) (l := t), List.mem_append] at hc
  obtain hc | hc := hc
  · exact List.mem_takeWhile_imp hc
  · exact h c (List.mem_reverse.mpr hc)

theorem splitOnChar_ne_nil (sep : UInt8) (s : Bytes) : splitOnChar sep s ≠ [] := by
  induction s with
  | nil => simp [splitOnChar]
  | cons c s ih =>
    simp only [splitOnChar]
    split
    · simp
    · split <;> simp

theorem concatWith_splitOnChar (sep : UInt8) (s : Bytes) :
    concatWith [sep] (splitOnChar sep s) = s := by
  induction s with
  | nil => rfl
  | cons c s ih =>
    simp only [splitOnChar]
    split
    · rename_i hnil
      exact absurd hnil (splitOnChar_ne_nil sep s)
    · rename_i w ws hsplit
      rw [hsplit] at ih
      split
      · rename_i hc
        rw [hc, ← ih]
        cases ws <;> rfl
      · rw [← ih]
        cases ws <;> rfl

theorem splitOnChar_append (sep : UInt8) (s t : Bytes) :
    splitOnChar sep (s ++ sep :: t) = splitOnChar sep s ++ splitOnChar sep t := by
  induction s with
  | nil =>
    rw [List.nil_append, splitOnChar]
    cases ht : splitOnChar sep t with
    | nil => exact absurd ht (splitOnChar_ne_nil sep t)
    | cons w ws => simp [splitOnChar, ht]
  | cons c s ih =>
    rw [List.cons_append, splitOnChar, splitOnChar, ih]
    cases hs : splitOnChar sep s with
    | nil => exact absurd hs (splitOnChar_ne_nil sep s)
    | cons w ws =>
      dsimp only [List.cons_append]
      split <;> rfl

theorem splitOnChar_of_notMem {sep : UInt8} {s : Bytes} (h : sep ∉ s) : splitOnChar sep s = [s] := by
  induction s with
  | nil => rfl
  | cons c s ih =>
    rw [List.mem_cons, not_or] at h
    rw [splitOnChar, ih h.2]
    exact if_neg fun heq => h.1 heq.symm

theorem notMem_of_mem_splitOnChar {sep : UInt8} {s w : Bytes} (h : w ∈ splitOnChar sep s) :
    sep ∉ w := by
  induction s generalizing w with
  | nil =>
    rw [List.mem_singleton.mp h]
    exact List.not_mem_nil
  | cons c s ih =>
    rw [splitOnChar] at h
    cases hs : splitOnChar sep s with
    | nil => exact absurd hs (splitOnChar_ne_nil sep s)
    | cons v ws =>
      rw [hs] at h
      dsimp only at h
      split at h
      · obtain rfl | h := List.mem_cons.mp h
        · exact List.not_mem_nil
        · exact ih (hs ▸ h)
      · rename_i hc
        obtain rfl | h := List.mem_cons.mp h
        · intro hm
          obtain heq | hm := List.mem_cons.mp hm
          · exact hc heq.symm
          · exact ih (hs ▸ List.mem_cons_self) hm
        · exact ih (hs ▸ List.mem_cons_of_mem v h)

/-- `List.nth`. -/
def nth {α : Type} (l : List α) (i : Int) : Res α :=
  if i < 0 then .error (.invalidArgument (bytes "List.nth"))
  else
    match l[i.toNat]? with
    | some a => .ok a
    | none => .error (.failure (bytes "nth"))

/-- `List.nth_opt`. -/
def nthOpt {α : Type} (l : List α) (i : Int) : Res (Option α) :=
  if i < 0 then .error (.invalidArgument (bytes "List.nth")) else .ok l[i.toNat]?

/-- `String.get`, for the first byte. -/
def firstByte : Bytes → Res UInt8
  | c :: _ => .ok c
  | [] => .error (.invalidArgument (bytes "index out of bounds"))

/-- `String.lowercase_ascii`. -/
def lowercaseAscii (s : Bytes) : Bytes := s.map fun c => if 65 ≤ c ∧ c ≤ 90 then c + 32 else c

/-- Whether `needle` occurs in the text; the loops of the source try every position. -/
def containsSubstring (needle : Bytes) : Bytes → Bool
  | [] => needle.isEmpty
  | c :: s => needle.isPrefixOf (c :: s) || containsSubstring needle s

/-- `int_of_string_opt`: the digit a character stands for, if any. -/
def parseDigit (c : UInt8) : Option Nat :=
  if 48 ≤ c ∧ c ≤ 57 then some (c.toNat - 48)
  else if 65 ≤ c ∧ c ≤ 70 then some (c.toNat - 55)
  else if 97 ≤ c ∧ c ≤ 102 then some (c.toNat - 87)
  else none

/-- The digits after the first one; underscores are skipped, the rest of the text must be used. -/
def parseDigits (base : Nat) : Nat → Bytes → Option Nat
  | res, [] => some res
  | res, c :: s =>
    if c = 95 then parseDigits base res s
    else
      match parseDigit c with
      | some d =>
        if d < base ∧ base * res + d < 2 ^ 64 then parseDigits base (base * res + d) s else none
      | none => none

/-- The base prefix: base, whether the reading is signed, and the rest. -/
def parseBase : Bytes → Nat × Bool × Bytes
  | 48 :: c :: s =>
    if c = 120 ∨ c = 88 then (16, false, s)
    else if c = 111 ∨ c = 79 then (8, false, s)
    else if c = 98 ∨ c = 66 then (2, false, s)
    else if c = 117 ∨ c = 85 then (10, false, s)
    else (10, true, 48 :: c :: s)
  | s => (10, true, s)

/-- `int_of_string_opt` on a 64-bit machine, where an `int` has 63 bits. -/
def intOfStringOpt (s : Bytes) : Option Int :=
  let (negative, s) : Bool × Bytes :=
    match s with
    | 45 :: s => (true, s)
    | 43 :: s => (false, s)
    | s => (false, s)
  let (base, signed, s) := parseBase s
  match s with
  | [] => none
  | c :: s =>
    match parseDigit c with
    | none => none
    | some d =>
      if d < base then
        match parseDigits base d s with
        | none => none
        | some res =>
          let fits := if signed then (if negative then res ≤ 2 ^ 62 else res < 2 ^ 62)
            else res < 2 ^ 63
          if fits then
            let v : Int := if negative then -res else res
            -- a 63-bit `int` keeps the value modulo 2^63
            some (if v ≥ 2 ^ 62 then v - 2 ^ 63 else if v < -2 ^ 62 then v + 2 ^ 63 else v)
          else none
      else none

end Raoui
