import Raoui.Ffi.Backend
import Raoui.Tty.Listener

/-!
# Raoui.Tty.CursorQuery

`get_cursor_position` in `lib/terminal_session.ml`: the reply of the terminal is looked for in an
input the user may be typing into. What is no reply goes to `pending_input`.

* `scanInt_decimal`: what `Scanf` makes of a number as the terminal prints it.
* `getCursorPosition_iff`: which input typed before the reply comes back untouched. A sequence is
  read to its end whatever it is made of, so an Escape key takes the next byte with it, and `ESC [`
  all bytes up to a letter.
-/

namespace Raoui
namespace Tty

open Ffi (decimal)

def isDigit (c : UInt8) : Bool := 48 ≤ c && c ≤ 57

/-- `scan_decimal_digit_star` of `Scanf`: the digits, without underscores, and the rest. -/
def scanDecimalDigitStar : Bytes → Bytes × Bytes
  | [] => ([], [])
  | c :: s =>
    if isDigit c then (c :: (scanDecimalDigitStar s).1, (scanDecimalDigitStar s).2)
    else if c = 95 then scanDecimalDigitStar s
    else ([], c :: s)

def scanDecimalDigitPlus : Bytes → Option (Bytes × Bytes)
  | [] => none
  | c :: s =>
    if isDigit c then some (c :: (scanDecimalDigitStar s).1, (scanDecimalDigitStar s).2) else none

/-- `%d`: a sign or none, and the digits. -/
def scanInt (s : Bytes) : Option (Int × Bytes) :=
  match s with
  | [] => none
  | c :: s' =>
    let token :=
      if c = 43 ∨ c = 45 then (scanDecimalDigitPlus s').map fun (ds, rest) => (c :: ds, rest)
      else scanDecimalDigitPlus s
    match token with
    | none => none
    | some (digits, rest) =>
      match intOfStringOpt digits with
      | none => none
      | some n => some (n, rest)

def parseCursorPositionResponse (response : Bytes) : Option (Int × Int) :=
  match response with
  | 27 :: 91 :: s =>
    match scanInt s with
    | some (row, 59 :: s) =>
      match scanInt s with
      | some (col, 82 :: _) => some (row, col)
      | _ => none
    | _ => none
  | _ => none

/-- The sequence read, and the input behind it. -/
def readCsiSequence (buf : Bytes) : Bytes → Option (Bytes × Bytes)
  | [] => none
  | c :: rest =>
    if isCsiFinal c then some (buf ++ [c], rest) else readCsiSequence (buf ++ [c]) rest

theorem readCsiSequence_eq_some {buf s response rest : Bytes}
    (h : readCsiSequence buf s = some (response, rest)) :
    ∃ params final, (∀ b ∈ params, isCsiFinal b = false) ∧ isCsiFinal final = true ∧
      response = buf ++ params ++ [final] ∧ s = params ++ final :: rest := by
  induction s generalizing buf with
  | nil => cases h
  | cons c s ih =>
    rw [readCsiSequence] at h
    cases hc : isCsiFinal c with
    | true =>
      rw [if_pos hc, Option.some.injEq, Prod.mk.injEq] at h
      obtain ⟨rfl, rfl⟩ := h
      exact ⟨[], c, nofun, hc, by rw [List.append_nil], rfl⟩
    | false =>
      rw [if_neg (by rw [hc]; exact Bool.false_ne_true)] at h
      obtain ⟨params, final, hparams, hfinal, hresponse, rfl⟩ := ih h
      refine ⟨c :: params, final, ?_, hfinal, ?_, rfl⟩
      · rintro b (_ | ⟨_, hb⟩)
        · exact hc
        · exact hparams b hb
      · rw [hresponse]
        simp only [List.append_assoc, List.singleton_append]

theorem readCsiSequence_append (buf : Bytes) {params : Bytes} {final : UInt8} (rest : Bytes)
    (hparams : ∀ b ∈ params, isCsiFinal b = false) (hfinal : isCsiFinal final = true) :
    readCsiSequence buf (params ++ final :: rest) = some (buf ++ params ++ [final], rest) := by
  induction params generalizing buf with
  | nil => rw [List.nil_append, readCsiSequence, if_pos hfinal, List.append_nil]
  | cons c params ih =>
    have hc : ¬ isCsiFinal c = true := by
      rw [hparams c List.mem_cons_self]
      exact Bool.false_ne_true
    rw [List.cons_append, readCsiSequence, if_neg hc, ih _ fun b hb =>
      hparams b (List.mem_cons_of_mem c hb)]
    simp only [List.append_assoc, List.singleton_append]

/-- The position, `pending_input` and the input behind the reply; none is `End_of_file`. -/
def getCursorPosition (pending : Bytes) : Bytes → Option ((Int × Int) × Bytes × Bytes)
  | [] => none
  | c :: s =>
    if c = 27 then
      match s with
      | [] => none
      | c' :: s' =>
        if c' = 91 then
          match _hr : readCsiSequence [27, 91] s' with
          | none => none
          | some (response, rest) =>
            match parseCursorPositionResponse response with
            | some pos => some (pos, pending, rest)
            | none => getCursorPosition (pending ++ response) rest
        else getCursorPosition (pending ++ [27, c']) s'
    else getCursorPosition (pending ++ [c]) s
termination_by s => s.length
decreasing_by
  all_goals simp_wf
  all_goals subst_vars
  · obtain ⟨params, final, _, _, _, rfl⟩ := readCsiSequence_eq_some _hr
    simp only [List.length_append, List.length_cons]
    omega
  all_goals omega

/-- `ESC [ row ; col R`. -/
def cursorReply (row col : Nat) : Bytes := [27, 91] ++ decimal row ++ [59] ++ decimal col ++ [82]

section Steps

variable {pending s params : Bytes} {c final : UInt8}

theorem getCursorPosition_text (hc : c ≠ 27) :
    getCursorPosition pending (c :: s) = getCursorPosition (pending ++ [c]) s := by
  rw [getCursorPosition.eq_def]
  exact if_neg hc

theorem getCursorPosition_pair (hc : c ≠ 91) :
    getCursorPosition pending (27 :: c :: s) = getCursorPosition (pending ++ [27, c]) s := by
  rw [getCursorPosition.eq_def]
  dsimp only
  rw [if_pos rfl, if_neg hc]

theorem getCursorPosition_csi (hparams : ∀ b ∈ params, isCsiFinal b = false)
    (hfinal : isCsiFinal final = true) :
    getCursorPosition pending (27 :: 91 :: (params ++ final :: s)) =
      match parseCursorPositionResponse ([27, 91] ++ params ++ [final]) with
      | some pos => some (pos, pending, s)
      | none => getCursorPosition (pending ++ ([27, 91] ++ params ++ [final])) s := by
  have hread := readCsiSequence_append [27, 91] s hparams hfinal
  rw [getCursorPosition.eq_def]
  dsimp only
  rw [if_pos rfl, if_pos rfl]
  split
  · rename_i hnone
    rw [hread] at hnone
    cases hnone
  · rename_i response rest hsome
    rw [hread, Option.some.injEq, Prod.mk.injEq] at hsome
    obtain ⟨rfl, rfl⟩ := hsome
    rfl

end Steps

/-- An input that can be cut, from its first byte on, into bytes other than Escape, an Escape with
one byte other than `[`, and sequences from `ESC [` to a letter or `~` that are no reply. -/
inductive WholeSequences : Bytes → Prop where
  | nil : WholeSequences []
  | text {c : UInt8} {s : Bytes} (hc : c ≠ 27) (h : WholeSequences s) : WholeSequences (c :: s)
  | pair {c : UInt8} {s : Bytes} (hc : c ≠ 91) (h : WholeSequences s) :
    WholeSequences (27 :: c :: s)
  | csi {params s : Bytes} {final : UInt8} (hparams : ∀ b ∈ params, isCsiFinal b = false)
    (hfinal : isCsiFinal final = true)
    (hreply : parseCursorPositionResponse ([27, 91] ++ params ++ [final]) = none)
    (h : WholeSequences s) : WholeSequences (27 :: 91 :: (params ++ final :: s))

theorem WholeSequences.append {u v : Bytes} (hu : WholeSequences u) (hv : WholeSequences v) :
    WholeSequences (u ++ v) := by
  induction hu with
  | nil => exact hv
  | text hc _ ih => exact .text hc ih
  | pair hc _ ih => exact .pair hc ih
  | csi hparams hfinal hreply _ ih =>
    rw [List.cons_append, List.cons_append, List.append_assoc, List.cons_append]
    exact .csi hparams hfinal hreply ih

/-- Keys that are whole sequences each may be typed in any order. -/
theorem WholeSequences.flatten {keys : List Bytes} (h : ∀ key ∈ keys, WholeSequences key) :
    WholeSequences keys.flatten := by
  induction keys with
  | nil => exact .nil
  | cons key keys ih =>
    rw [List.forall_mem_cons] at h
    exact h.1.append (ih h.2)

theorem WholeSequences.getCursorPosition_append {u : Bytes} (h : WholeSequences u)
    (pending s : Bytes) : getCursorPosition pending (u ++ s) = getCursorPosition (pending ++ u) s := by
  induction h generalizing pending with
  | nil => rw [List.nil_append, List.append_nil]
  | text hc _ ih =>
    rw [List.cons_append, getCursorPosition_text hc, ih, List.append_assoc, List.singleton_append]
  | pair hc _ ih =>
    rw [List.cons_append, List.cons_append, getCursorPosition_pair hc, ih, List.append_assoc]
    rfl
  | csi hparams hfinal hreply _ ih =>
    rw [List.cons_append, List.cons_append, List.append_assoc, List.cons_append,
      getCursorPosition_csi hparams hfinal, hreply]
    dsimp only
    rw [ih, List.append_assoc]
    simp only [List.append_assoc, List.cons_append, List.nil_append]

/-- What goes to `pending_input` before a position is found is cut into whole sequences. -/
theorem getCursorPosition_eq_some {s pending pending' rest : Bytes} {pos : Int × Int}
    (h : getCursorPosition pending s = some (pos, pending', rest)) :
    ∃ u, pending' = pending ++ u ∧ WholeSequences u := by
  fun_induction getCursorPosition pending s with
  | case1 => cases h
  | case2 => cases h
  | case3 => cases h
  | case4 pending _ response rest' _ pos' _ =>
    cases h
    exact ⟨[], (List.append_nil _).symm, .nil⟩
  | case5 pending _ response rest' hread hnone ih =>
    obtain ⟨u, hu, hwhole⟩ := ih h
    obtain ⟨params, final, hparams, hfinal, rfl, _⟩ := readCsiSequence_eq_some hread
    refine ⟨_, ?_, .csi hparams hfinal hnone hwhole⟩
    rw [hu]
    simp only [List.append_assoc, List.cons_append, List.nil_append]
  | case6 pending c _ hc ih =>
    obtain ⟨u, hu, hwhole⟩ := ih h
    exact ⟨27 :: c :: u, by rw [hu, List.append_assoc]; rfl, .pair hc hwhole⟩
  | case7 pending c _ hc ih =>
    obtain ⟨u, hu, hwhole⟩ := ih h
    exact ⟨c :: u, by rw [hu, List.append_assoc]; rfl, .text hc hwhole⟩

section Numbers

/-- The byte of a digit. -/
def digitByte (c : Char) : UInt8 := UInt8.ofNat c.toNat

theorem isDigit_iff {c : Char} : c.isDigit = true ↔ 48 ≤ c.toNat ∧ c.toNat ≤ 57 := by
  rw [Char.isDigit, Bool.and_eq_true, decide_eq_true_eq, decide_eq_true_eq]
  exact Iff.rfl

theorem toNat_digitByte {c : Char} (h : c.isDigit = true) : (digitByte c).toNat = c.toNat := by
  have := isDigit_iff.mp h
  rw [digitByte, UInt8.toNat_ofNat']
  omega

theorem isDigit_digitByte {c : Char} (h : c.isDigit = true) : isDigit (digitByte c) = true := by
  have := isDigit_iff.mp h
  simp only [isDigit, Bool.and_eq_true, decide_eq_true_eq, UInt8.le_iff_toNat_le,
    toNat_digitByte h]
  exact this

theorem parseDigit_digitByte {c : Char} (h : c.isDigit = true) :
    parseDigit (digitByte c) = some (c.toNat - 48) := by
  have := isDigit_iff.mp h
  rw [parseDigit, if_pos, toNat_digitByte h]
  simp only [UInt8.le_iff_toNat_le, toNat_digitByte h]
  exact this

theorem ofDigitChars_ge (l : List Char) (n : Nat) : n ≤ Nat.ofDigitChars 10 l n := by
  induction l generalizing n with
  | nil => exact Nat.le_of_eq Nat.ofDigitChars_nil.symm
  | cons c l ih =>
    rw [Nat.ofDigitChars_cons]
    exact Nat.le_trans (by omega) (ih _)

/-- Digits are read up to what a machine word holds. -/
theorem parseDigits_digits {l : List Char} (hl : ∀ c ∈ l, c.isDigit = true) {n : Nat}
    (hn : n < 2 ^ 64) : parseDigits 10 n (l.map digitByte) =
      if Nat.ofDigitChars 10 l n < 2 ^ 64 then some (Nat.ofDigitChars 10 l n) else none := by
  induction l generalizing n with
  | nil => rw [List.map_nil, parseDigits, Nat.ofDigitChars_nil, if_pos hn]
  | cons c l ih =>
    have hc := hl c List.mem_cons_self
    have hdigit := isDigit_iff.mp hc
    have hne : digitByte c ≠ 95 := by
      intro heq
      have := toNat_digitByte hc
      rw [heq] at this
      have h95 : (95 : UInt8).toNat = 95 := rfl
      omega
    rw [List.map_cons, parseDigits, if_neg hne, parseDigit_digitByte hc, Nat.ofDigitChars_cons]
    dsimp only
    by_cases hle : 10 * n + (c.toNat - 48) < 2 ^ 64
    · rw [if_pos ⟨by omega, hle⟩]
      exact ih (fun d hd => hl d (List.mem_cons_of_mem c hd)) hle
    · have hge := ofDigitChars_ge l (10 * n + (c.toNat - 48))
      rw [if_neg fun h => hle h.2]
      exact (if_neg fun h => hle (Nat.lt_of_le_of_lt hge h)).symm

/-- The bytes of a number in base 10. -/
def IsDecimal (s : Bytes) : Prop := ∀ b ∈ s, 48 ≤ b ∧ b ≤ 57

theorem isDecimal_digits {l : List Char} (hl : ∀ c ∈ l, c.isDigit = true) :
    IsDecimal (l.map digitByte) := by
  intro b hb
  obtain ⟨c, hc, rfl⟩ := List.mem_map.mp hb
  have := isDigit_digitByte (hl c hc)
  rwa [isDigit, Bool.and_eq_true, decide_eq_true_eq, decide_eq_true_eq] at this

theorem isDecimal_decimal (n : Nat) : IsDecimal (decimal n) :=
  isDecimal_digits fun _ hd => Nat.isDigit_of_mem_toDigits (by decide) (by decide) hd

theorem isDigit_of_bounds {b : UInt8} (h : 48 ≤ b ∧ b ≤ 57) : isDigit b = true := by
  rwa [isDigit, Bool.and_eq_true, decide_eq_true_eq, decide_eq_true_eq]

/-- No letter after a leading zero, so no other base. -/
theorem parseBase_decimal {s : Bytes} (h : IsDecimal s) : parseBase s = (10, true, s) := by
  unfold parseBase
  split
  · rename_i c s
    have hc : c ≤ 57 := (h c (List.mem_cons_of_mem 48 List.mem_cons_self)).2
    have hne (d : UInt8) (hd : 57 < d) : c ≠ d := by
      rintro rfl
      exact absurd hc (UInt8.not_le.mpr hd)
    rw [if_neg (not_or.mpr ⟨hne 120 (by decide), hne 88 (by decide)⟩),
      if_neg (not_or.mpr ⟨hne 111 (by decide), hne 79 (by decide)⟩),
      if_neg (not_or.mpr ⟨hne 98 (by decide), hne 66 (by decide)⟩),
      if_neg (not_or.mpr ⟨hne 117 (by decide), hne 85 (by decide)⟩)]
  · rfl

/-- An integer as an `int` of 63 bits, when it is one. -/
def nativeInt (v : Int) : Option Int := if -2 ^ 62 ≤ v ∧ v < 2 ^ 62 then some v else none

theorem intOfStringOpt_digits {l : List Char} (hl : ∀ c ∈ l, c.isDigit = true) (hne : l ≠ [])
    (negative : Bool) :
    intOfStringOpt (if negative then 45 :: l.map digitByte else l.map digitByte) =
      nativeInt (if negative then -(Nat.ofDigitChars 10 l 0 : Int) else Nat.ofDigitChars 10 l 0) := by
  have hdecimal := isDecimal_digits hl
  cases l with
  | nil => exact absurd rfl hne
  | cons c l =>
    have hc := hl c List.mem_cons_self
    have hdigit := isDigit_iff.mp hc
    have hbounds := hdecimal (digitByte c) List.mem_cons_self
    have hcons : Nat.ofDigitChars 10 (c :: l) 0 = Nat.ofDigitChars 10 l (c.toNat - 48) := by
      rw [Nat.ofDigitChars_cons, Nat.mul_zero, Nat.zero_add]
      rfl
    have hval := parseDigits_digits (fun d hd => hl d (List.mem_cons_of_mem c hd))
      (show c.toNat - 48 < 2 ^ 64 by omega)
    rw [hcons]
    rw [List.map_cons] at hdecimal ⊢
    unfold intOfStringOpt
    split
    rename_i sign s hsign
    have hsign : sign = negative ∧ s = digitByte c :: l.map digitByte := by
      cases negative with
      | true =>
        cases hsign
        exact ⟨rfl, rfl⟩
      | false =>
        split at hsign
        · rename_i heq
          rw [(List.cons.inj heq).1] at hbounds
          exact absurd hbounds.1 (by decide)
        · rename_i heq
          rw [(List.cons.inj heq).1] at hbounds
          exact absurd hbounds.1 (by decide)
        · cases hsign
          exact ⟨rfl, rfl⟩
    obtain ⟨rfl, rfl⟩ := hsign
    rw [parseBase_decimal hdecimal]
    dsimp only
    rw [parseDigit_digitByte hc]
    dsimp only
    rw [if_pos (by omega), hval]
    generalize Nat.ofDigitChars 10 l (c.toNat - 48) = v
    unfold nativeInt
    by_cases hv : v < 2 ^ 64
    · rw [if_pos hv]
      cases sign with
      | true =>
        simp only [if_true]
        by_cases hfits : v ≤ 2 ^ 62
        · rw [if_pos hfits, if_neg (by omega), if_neg (by omega), if_pos (by omega)]
        · rw [if_neg hfits, if_neg (by omega)]
      | false =>
        simp only [if_true, if_false, Bool.false_eq_true]
        by_cases hfits : v < 2 ^ 62
        · rw [if_pos hfits, if_neg (by omega), if_neg (by omega), if_pos (by omega)]
        · rw [if_neg hfits, if_neg (by omega)]
    · rw [if_neg hv, if_neg]
      cases sign with
      | true =>
        simp only [if_true]
        omega
      | false =>
        simp only [if_false, Bool.false_eq_true]
        omega

/-- Digits, and a minus sign. -/
theorem mem_decimalInt {v : Int} {c : UInt8} (h : c ∈ Ffi.decimalInt v) : 45 ≤ c ∧ c ≤ 57 := by
  have hdigit {n : Nat} (hn : c ∈ decimal n) : 45 ≤ c ∧ c ≤ 57 :=
    ⟨UInt8.le_trans (by decide) (isDecimal_decimal n c hn).1, (isDecimal_decimal n c hn).2⟩
  cases v with
  | ofNat n => exact hdigit h
  | negSucc n =>
    have hsign : ∀ d ∈ bytes "-", 45 ≤ d ∧ d ≤ 57 := by decide +kernel
    exact (List.mem_append.mp h).elim (hsign c) hdigit

/-- A number as `%d` prints it is read back, if it is an `int`. -/
theorem intOfStringOpt_decimalInt (v : Int) : intOfStringOpt (Ffi.decimalInt v) = nativeInt v := by
  have hdigits (n : Nat) : ∀ d ∈ Nat.toDigits 10 n, d.isDigit = true := fun d hd =>
    Nat.isDigit_of_mem_toDigits (by decide) (by decide) hd
  cases v with
  | ofNat n =>
    have := intOfStringOpt_digits (hdigits n) Nat.toDigits_ne_nil false
    rw [Nat.ofDigitChars_ten_toDigits] at this
    exact this
  | negSucc n =>
    have := intOfStringOpt_digits (hdigits (n + 1)) Nat.toDigits_ne_nil true
    rw [Nat.ofDigitChars_ten_toDigits] at this
    exact this

theorem scanDecimalDigitStar_decimal {ds rest : Bytes} {c : UInt8} (hds : IsDecimal ds)
    (hc : isDigit c = false) (hc' : c ≠ 95) :
    scanDecimalDigitStar (ds ++ c :: rest) = (ds, c :: rest) := by
  induction ds with
  | nil => rw [List.nil_append, scanDecimalDigitStar, hc, if_neg Bool.false_ne_true, if_neg hc']
  | cons d ds ih =>
    have hd := isDigit_of_bounds (hds d List.mem_cons_self)
    rw [List.cons_append, scanDecimalDigitStar, if_pos hd, ih fun b hb =>
      hds b (List.mem_cons_of_mem d hb)]

/-- A number as it is printed, and a byte that ends it. -/
theorem scanInt_decimal {n : Nat} (hn : n < 2 ^ 62) {c : UInt8} (hc : isDigit c = false)
    (hc' : c ≠ 95) (rest : Bytes) : scanInt (decimal n ++ c :: rest) = some ((n : Int), c :: rest) := by
  have hval : intOfStringOpt (decimal n) = some (n : Int) :=
    (intOfStringOpt_decimalInt n).trans (if_pos ⟨by omega, by omega⟩)
  have hdecimal := isDecimal_decimal n
  have hne : decimal n ≠ [] := fun h => Nat.toDigits_ne_nil (List.map_eq_nil_iff.mp h)
  cases hs : decimal n with
  | nil => exact absurd hs hne
  | cons d ds =>
    rw [hs] at hval hdecimal
    have hd := hdecimal d List.mem_cons_self
    have hsign : ¬ (d = 43 ∨ d = 45) := by
      rintro (rfl | rfl)
      · exact absurd hd.1 (by decide)
      · exact absurd hd.1 (by decide)
    have hstar := @scanDecimalDigitStar_decimal ds rest c
      (fun b hb => hdecimal b (List.mem_cons_of_mem d hb)) hc hc'
    rw [List.cons_append, scanInt]
    dsimp only
    rw [if_neg hsign, scanDecimalDigitPlus, if_pos (isDigit_of_bounds hd), hstar]
    dsimp only
    rw [hval]

theorem parseCursorPositionResponse_cursorReply {row col : Nat} (hrow : row < 2 ^ 62)
    (hcol : col < 2 ^ 62) :
    parseCursorPositionResponse (cursorReply row col) = some ((row : Int), (col : Int)) := by
  have hr := scanInt_decimal hrow (c := 59) (by decide) (by decide) (decimal col ++ [82])
  have hc := scanInt_decimal hcol (c := 82) (by decide) (by decide) []
  have hreply : cursorReply row col = 27 :: 91 :: (decimal row ++ 59 :: (decimal col ++ [82])) := by
    simp [cursorReply]
  rw [hreply]
  simp only [parseCursorPositionResponse, hr, hc]

theorem isCsiFinal_eq_false {b : UInt8} (h : b < 65) : isCsiFinal b = false := by
  have h1 : ¬ 65 ≤ b := UInt8.not_le.mpr h
  have h2 : ¬ 97 ≤ b := fun hb => h1 (UInt8.le_trans (by decide) hb)
  have h3 : b ≠ 126 := by
    rintro rfl
    exact absurd h (by decide)
  simp [isCsiFinal, h1, h2, h3]

/-- A reply in front of the input is found, and nothing of it kept. -/
theorem getCursorPosition_cursorReply {row col : Nat} (hrow : row < 2 ^ 62) (hcol : col < 2 ^ 62)
    (pending rest : Bytes) :
    getCursorPosition pending (cursorReply row col ++ rest) =
      some (((row : Int), (col : Int)), pending, rest) := by
  have hparams : ∀ b ∈ decimal row ++ [59] ++ decimal col, isCsiFinal b = false := by
    intro b hb
    have hlt : b ≤ 59 := by
      rw [List.mem_append, List.mem_append, List.mem_singleton] at hb
      obtain (hb | rfl) | hb := hb
      · exact UInt8.le_trans (isDecimal_decimal row b hb).2 (by decide)
      · exact UInt8.le_refl 59
      · exact UInt8.le_trans (isDecimal_decimal col b hb).2 (by decide)
    exact isCsiFinal_eq_false (UInt8.lt_of_le_of_lt hlt (by decide))
  have hreply : [27, 91] ++ (decimal row ++ [59] ++ decimal col) ++ [82] = cursorReply row col := by
    simp only [cursorReply, List.append_assoc]
  have hstep := @getCursorPosition_csi pending rest _ 82 hparams rfl
  rw [hreply, parseCursorPositionResponse_cursorReply hrow hcol] at hstep
  refine Eq.trans ?_ hstep
  rw [← hreply]
  simp only [List.append_assoc, List.cons_append, List.nil_append]

end Numbers

theorem getCursorPosition_iff (pending u following : Bytes) (row col : Nat) (hrow : row < 2 ^ 62)
    (hcol : col < 2 ^ 62) :
    getCursorPosition pending (u ++ cursorReply row col ++ following) =
        some (((row : Int), (col : Int)), pending ++ u, following) ↔
      WholeSequences u := by
  constructor
  · intro h
    obtain ⟨u', heq, hwhole⟩ := getCursorPosition_eq_some h
    rwa [List.append_cancel_left heq]
  · intro h
    rw [List.append_assoc, h.getCursorPosition_append]
    exact getCursorPosition_cursorReply hrow hcol (pending ++ u) following

theorem getCursorPosition_typed_a :
    getCursorPosition [] (bytes "a" ++ cursorReply 5 1 ++ []) =
        some ((((5 : Nat) : Int), ((1 : Nat) : Int)), [] ++ bytes "a", []) ↔
      WholeSequences (bytes "a") :=
  getCursorPosition_iff [] (bytes "a") [] 5 1 (by decide) (by decide)

/-- The Escape key alone, before the reply. -/
theorem getCursorPosition_escape :
    decode .start [.byte 27, .pause] = ([.escape], .start) ∧
      getCursorPosition [] ([27] ++ cursorReply 5 1) = none := by
  refine ⟨rfl, ?_⟩
  change getCursorPosition [] (27 :: 27 :: [91, 53, 59, 49, 82]) = none
  rw [getCursorPosition_pair (by decide)]
  iterate 5 rw [getCursorPosition_text (by decide)]
  rw [getCursorPosition]

end Tty
end Raoui
