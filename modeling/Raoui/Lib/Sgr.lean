import Mathlib.Data.List.Basic

/-!
# Control sequences

How a terminal reads its input, and the faces that `SGR` sequences select. What the terminal makes
of every other sequence is a parameter.

* `cells_append`, `after_append`: an input is read piece by piece.
* `read_text`: bytes other than Escape are shown in the face selected before.
* `read_select`: what a `SGR` sequence does.
-/

namespace Sgr

inductive Color where
  | default
  | indexed (n : Nat)
  | rgb (r g b : Nat)
  deriving DecidableEq, Repr

structure Face where
  fg : Color
  bg : Color
  bold : Bool
  dim : Bool
  italic : Bool
  underline : Bool
  strike : Bool
  deriving DecidableEq, Repr

def plain : Face := ⟨.default, .default, false, false, false, false, false⟩

/-- The colour in front, or behind where `bg` is set. -/
def Face.withColor (bg : Bool) (c : Color) (f : Face) : Face :=
  if bg then { f with bg := c } else { f with fg := c }

/-! ## Selection -/

/-- A colour of more than one parameter that is being read: `38;5;n` or `38;2;r;g;b`, and 48 for
the colour behind. -/
inductive Pending where
  | none
  | kind (bg : Bool)
  | index (bg : Bool)
  | red (bg : Bool)
  | green (bg : Bool) (r : Nat)
  | blue (bg : Bool) (r g : Nat)
  deriving DecidableEq, Repr

def withAttribute (n : Nat) (f : Face) : Face :=
  if n = 0 then plain
  else if n = 1 then { f with bold := true }
  else if n = 2 then { f with dim := true }
  else if n = 3 then { f with italic := true }
  else if n = 4 then { f with underline := true }
  else if n = 9 then { f with strike := true }
  else if n = 22 then { f with bold := false, dim := false }
  else if n = 23 then { f with italic := false }
  else if n = 24 then { f with underline := false }
  else if n = 29 then { f with strike := false }
  else if 30 ≤ n ∧ n ≤ 37 then { f with fg := .indexed (n - 30) }
  else if n = 39 then { f with fg := .default }
  else if 40 ≤ n ∧ n ≤ 47 then { f with bg := .indexed (n - 40) }
  else if n = 49 then { f with bg := .default }
  else if 90 ≤ n ∧ n ≤ 97 then { f with fg := .indexed (n - 82) }
  else if 100 ≤ n ∧ n ≤ 107 then { f with bg := .indexed (n - 92) }
  else f

def selectStep (s : Pending × Face) (n : Nat) : Pending × Face :=
  match s.1 with
  | .none =>
    if n = 38 then (.kind false, s.2)
    else if n = 48 then (.kind true, s.2)
    else (.none, withAttribute n s.2)
  | .kind bg =>
    if n = 5 then (.index bg, s.2) else if n = 2 then (.red bg, s.2) else (.none, s.2)
  | .index bg => (.none, if n < 256 then s.2.withColor bg (.indexed n) else s.2)
  | .red bg => (.green bg n, s.2)
  | .green bg r => (.blue bg r n, s.2)
  | .blue bg r g => (.none, s.2.withColor bg (.rgb r g n))

def select (params : List Nat) (f : Face) : Face := (params.foldl selectStep (.none, f)).2

theorem foldl_indexed (bg : Bool) {n : Nat} (hn : n < 256) (f : Face) :
    [if bg then 48 else 38, 5, n].foldl selectStep (.none, f) =
      (.none, f.withColor bg (.indexed n)) := by
  have hindex : selectStep (.index bg, f) n = (.none, f.withColor bg (.indexed n)) := by
    show (Pending.none, if n < 256 then f.withColor bg (.indexed n) else f) = _
    rw [if_pos hn]
  cases bg with
  | false => exact hindex
  | true => exact hindex

theorem foldl_default (bg : Bool) (f : Face) :
    [if bg then 49 else 39].foldl selectStep (.none, f) = (.none, f.withColor bg .default) := by
  cases bg with
  | false => rfl
  | true => rfl

/-! ## Parameters -/

def isDigit (c : UInt8) : Bool := 48 ≤ c && c ≤ 57

/-- The number with the digits `s` behind those of `n`. -/
def value (n : Nat) (s : List UInt8) : Nat := s.foldl (fun n c => 10 * n + (c.toNat - 48)) n

/-- The parameters with a semicolon between them; a missing one is zero. -/
def params : Nat → List UInt8 → List Nat
  | n, [] => [n]
  | n, c :: body => if c = 59 then n :: params 0 body else params (10 * n + (c.toNat - 48)) body

theorem params_digits {code : List UInt8} (h : ∀ c ∈ code, isDigit c = true) (n : Nat) :
    params n code = [value n code] ∧
      ∀ body, params n (code ++ 59 :: body) = value n code :: params 0 body := by
  induction code generalizing n with
  | nil => exact ⟨rfl, fun _ => rfl⟩
  | cons c code ih =>
    obtain ⟨hc, hcode⟩ := List.forall_mem_cons.mp h
    have hne : c ≠ 59 := by
      rintro rfl
      exact absurd hc (by decide)
    refine ⟨?_, fun body => ?_⟩
    · rw [params, if_neg hne]
      exact (ih hcode _).1
    · rw [List.cons_append, params, if_neg hne]
      exact (ih hcode _).2 body

/-! ## Sequences -/

/-- A sequence that has been read: `ESC [ body final`, or another one from the byte after Escape. -/
inductive Sequence where
  | csi (body : List UInt8) (final : UInt8)
  | other (bytes : List UInt8)
  deriving DecidableEq, Repr

inductive Mode where
  | ground
  /-- The bytes since Escape. -/
  | escape (read : List UInt8)
  | csi (read : List UInt8)
  /-- A string, such as a title or an image, from the byte that introduces it. -/
  | string (read : List UInt8)
  | stringEscape (read : List UInt8)
  deriving DecidableEq, Repr

def isString (c : UInt8) : Bool := c = 80 || c = 88 || c = 93 || c = 94 || c = 95

/-- `CAN` and `SUB` abandon a sequence. -/
def isCancel (c : UInt8) : Bool := c = 24 || c = 26

/-- What `c` makes of the bytes since Escape. -/
def escapeMode (read : List UInt8) (c : UInt8) : Mode :=
  if c = 27 then .escape []
  else if isCancel c then .ground
  else if c < 32 ∨ 127 ≤ c then .escape read
  else if c < 48 then .escape (read ++ [c])
  else if read = [] ∧ c = 91 then .csi []
  else if read = [] ∧ isString c then .string [c]
  else .ground

def nextMode (m : Mode) (c : UInt8) : Mode :=
  match m with
  | .ground => if c = 27 then .escape [] else .ground
  | .escape read => escapeMode read c
  | .csi read =>
    if c = 27 then .escape []
    else if isCancel c then .ground
    else if c < 32 ∨ 127 ≤ c then .csi read
    else if c < 64 then .csi (read ++ [c])
    else .ground
  | .string read =>
    if c = 27 then .stringEscape read
    else if isCancel c ∨ (c = 7 ∧ read.head? = some 93) then .ground
    else .string (read ++ [c])
  | .stringEscape _ => if c = 92 then .ground else escapeMode [] c

/-- The sequence that `c` completes. -/
def completed (m : Mode) (c : UInt8) : Option Sequence :=
  if nextMode m c ≠ .ground ∨ isCancel c then none
  else
    match m with
    | .ground => none
    | .escape read => some (.other (read ++ [c]))
    | .csi read => some (.csi read c)
    | .string read => some (.other (read ++ [c]))
    | .stringEscape read => some (.other (if c = 92 then read else [c]))

/-- The input leaves no sequence open. -/
def Complete (s : List UInt8) : Prop := s.foldl nextMode .ground = .ground

instance (s : List UInt8) : Decidable (Complete s) :=
  inferInstanceAs (Decidable (s.foldl nextMode .ground = .ground))

/-! ## The terminal -/

structure Terminal (σ : Type) where
  mode : Mode
  face : Face
  other : σ

/-- Digits and semicolons only, so a selection of a face. -/
def isSelection (body : List UInt8) : Bool := body.all fun c => isDigit c || c = 59

section
variable {σ : Type} (foreign : Sequence → Face × σ → Face × σ)

def perform : Sequence → Face × σ → Face × σ
  | .csi body final, s =>
    if final = 109 ∧ isSelection body then (select (params 0 body) s.1, s.2)
    else foreign (.csi body final) s
  | .other bytes, s => foreign (.other bytes) s

def Terminal.step (t : Terminal σ) (c : UInt8) : Terminal σ :=
  let s :=
    match completed t.mode c with
    | some sequence => perform foreign sequence (t.face, t.other)
    | none => (t.face, t.other)
  ⟨nextMode t.mode c, s.1, s.2⟩

def Terminal.after (t : Terminal σ) (s : List UInt8) : Terminal σ := s.foldl (step foreign) t

/-- A byte with the face it is shown in. -/
abbrev Cell := UInt8 × Face

def Terminal.shown (t : Terminal σ) (c : UInt8) : List Cell :=
  if t.mode = .ground ∧ c ≠ 27 then [(c, t.face)] else []

/-- What is shown of an input. -/
def Terminal.cells (t : Terminal σ) : List UInt8 → List Cell
  | [] => []
  | c :: s => t.shown c ++ (t.step foreign c).cells s

namespace Terminal

variable {foreign}

theorem after_append (t : Terminal σ) (u v : List UInt8) :
    t.after foreign (u ++ v) = (t.after foreign u).after foreign v :=
  List.foldl_append

theorem cells_append (t : Terminal σ) (u v : List UInt8) :
    t.cells foreign (u ++ v) = t.cells foreign u ++ (t.after foreign u).cells foreign v := by
  induction u generalizing t with
  | nil => rfl
  | cons c u ih =>
    rw [List.cons_append, cells, cells, ih, List.append_assoc]
    rfl

theorem after_mode (t : Terminal σ) (s : List UInt8) :
    (t.after foreign s).mode = s.foldl nextMode t.mode := by
  induction s generalizing t with
  | nil => rfl
  | cons c s ih => exact ih (t.step foreign c)

theorem after_complete {t : Terminal σ} (ht : t.mode = .ground) {s : List UInt8} (hs : Complete s) :
    (t.after foreign s).mode = .ground := by
  rw [after_mode, ht]
  exact hs

theorem step_text {t : Terminal σ} (ht : t.mode = .ground) {c : UInt8} (hc : c ≠ 27) :
    t.step foreign c = t := by
  have hmode : nextMode t.mode c = .ground := by rw [ht, nextMode, if_neg hc]
  have hcompleted : completed t.mode c = none := by
    rw [ht]
    exact ite_self none
  rw [step, hcompleted, hmode, ← ht]

theorem read_text {t : Terminal σ} (ht : t.mode = .ground) {s : List UInt8} (hs : ∀ c ∈ s, c ≠ 27) :
    t.cells foreign s = s.map (fun c => (c, t.face)) ∧ t.after foreign s = t := by
  induction s with
  | nil => exact ⟨rfl, rfl⟩
  | cons c s ih =>
    obtain ⟨hc, hs⟩ := List.forall_mem_cons.mp hs
    obtain ⟨hcells, hafter⟩ := ih hs
    have hstep : t.step foreign c = t := step_text ht hc
    refine ⟨?_, ?_⟩
    · rw [cells, hstep, hcells, shown, if_pos ⟨ht, hc⟩]
      rfl
    · rw [after, List.foldl_cons, hstep]
      exact hafter

theorem step_body {c : UInt8} (hc : isDigit c || c = 59) (read : List UInt8) (f : Face) (o : σ) :
    (⟨.csi read, f, o⟩ : Terminal σ).step foreign c = ⟨.csi (read ++ [c]), f, o⟩ := by
  have hrange : 48 ≤ c ∧ c ≤ 59 := by
    simp only [isDigit, Bool.or_eq_true, Bool.and_eq_true, decide_eq_true_eq] at hc
    obtain ⟨hlow, hhigh⟩ | rfl := hc
    · exact ⟨hlow, UInt8.le_trans hhigh (by decide)⟩
    · decide
  have hne (d : UInt8) (hd : d < 48) : c ≠ d := by
    rintro rfl
    exact absurd hrange.1 (UInt8.not_le.mpr hd)
  have hcancel : ¬ isCancel c = true := by
    simp [isCancel, hne 24 (by decide), hne 26 (by decide)]
  have hignored : ¬ (c < 32 ∨ 127 ≤ c) := by
    rintro (h | h)
    · exact absurd (UInt8.lt_of_le_of_lt hrange.1 h) (by decide)
    · exact absurd (UInt8.le_trans h hrange.2) (by decide)
  have hmode : nextMode (.csi read) c = .csi (read ++ [c]) := by
    rw [nextMode, if_neg (hne 27 (by decide)), if_neg hcancel, if_neg hignored,
      if_pos (UInt8.lt_of_le_of_lt hrange.2 (by decide))]
  have hcompleted : completed (.csi read) c = none := by
    unfold completed
    rw [hmode]
    rfl
  show Terminal.mk _ _ _ = _
  rw [hcompleted, hmode]

theorem read_body (read : List UInt8) (f : Face) (o : σ) {body : List UInt8}
    (h : isSelection body = true) :
    (⟨.csi read, f, o⟩ : Terminal σ).cells foreign body = [] ∧
      (⟨.csi read, f, o⟩ : Terminal σ).after foreign body = ⟨.csi (read ++ body), f, o⟩ := by
  induction body generalizing read with
  | nil => exact ⟨rfl, by rw [List.append_nil]; rfl⟩
  | cons c body ih =>
    obtain ⟨hc, hbody⟩ := Bool.and_eq_true_iff.mp h
    have hstep : (⟨.csi read, f, o⟩ : Terminal σ).step foreign c = _ := step_body hc read f o
    obtain ⟨hcells, hafter⟩ := ih (read ++ [c]) hbody
    refine ⟨?_, ?_⟩
    · rw [cells, hstep, hcells]
      rfl
    · rw [after, List.foldl_cons, hstep, List.append_cons read c body]
      exact hafter

theorem read_select {t : Terminal σ} (ht : t.mode = .ground) {body : List UInt8}
    (h : isSelection body = true) :
    t.cells foreign (27 :: 91 :: (body ++ [109])) = [] ∧
      t.after foreign (27 :: 91 :: (body ++ [109])) =
        { t with face := select (params 0 body) t.face } := by
  obtain ⟨m, f, o⟩ := t
  obtain rfl : m = .ground := ht
  obtain ⟨hcells, hafter⟩ := @read_body σ foreign [] f o body h
  have hopen : (27 :: 91 :: (body ++ [109]) : List UInt8) = [27, 91] ++ (body ++ [109]) := rfl
  have hcsi : (⟨.ground, f, o⟩ : Terminal σ).after foreign [27, 91] = ⟨.csi [], f, o⟩ := rfl
  have hfinal : (⟨.csi body, f, o⟩ : Terminal σ).after foreign [109] =
      ⟨.ground, select (params 0 body) f, o⟩ := by
    show Terminal.mk .ground (perform foreign (.csi body 109) (f, o)).1
      (perform foreign (.csi body 109) (f, o)).2 = _
    rw [perform, if_pos ⟨rfl, h⟩]
  rw [hopen]
  refine ⟨?_, ?_⟩
  · rw [cells_append, hcsi, cells_append, hcells, hafter]
    rfl
  · rw [after_append, hcsi, after_append, hafter, List.nil_append, hfinal]

end Terminal
end

end Sgr
