import Mathlib.Data.List.Basic

/-!
# S-expressions

A reader of S-expressions, byte by byte, with the lists that are still open on a stack. Atoms end
at a delimiter; in a string a backslash stands before quotes and backslashes.

* `Reads`, `Ends`: a text stands for some expressions wherever it is read. An atom at the end of
  the text makes the difference: it needs a delimiter behind it.
* `Reads.append`, `Reads.list`, `reads_quoted`: how texts are put together.
* `read_of_reads`: the text on its own.
-/

namespace Lisp

inductive Expr where
  | atom (name : List UInt8)
  | string (text : List UInt8)
  | list (items : List Expr)

inductive Mode where
  | between
  | atom (name : List UInt8)
  | string (text : List UInt8)
  /-- Behind a backslash. -/
  | escape (text : List UInt8)

/-- `items` is what has been read of the innermost list, `enclosing` what has been read of the lists
around it. -/
structure Reader where
  enclosing : List (List Expr)
  items : List Expr
  mode : Mode

def isBlank (c : UInt8) : Bool := c = 32 || c = 10 || c = 13 || c = 9

/-- Blanks, parentheses, quotes and the semicolon, behind which a comment would stand. -/
def isDelimiter (c : UInt8) : Bool := isBlank c || c = 40 || c = 41 || c = 34 || c = 59

namespace Reader

/-- Between expressions, with some more of them read. -/
def push (r : Reader) (es : List Expr) : Reader := ⟨r.enclosing, r.items ++ es, .between⟩

def delimiter (r : Reader) (c : UInt8) : Option Reader :=
  if isBlank c then some r
  else if c = 40 then some ⟨r.items :: r.enclosing, [], .between⟩
  else if c = 41 then
    match r.enclosing with
    | [] => none
    | items :: enclosing => some ⟨enclosing, items ++ [.list r.items], .between⟩
  else if c = 34 then some { r with mode := .string [] }
  else none

def step (r : Reader) (c : UInt8) : Option Reader :=
  match r.mode with
  | .between => if isDelimiter c then r.delimiter c else some { r with mode := .atom [c] }
  | .atom name =>
    if isDelimiter c then (r.push [.atom name]).delimiter c
    else some { r with mode := .atom (name ++ [c]) }
  | .string text =>
    if c = 34 then some (r.push [.string text])
    else if c = 92 then some { r with mode := .escape text }
    else some { r with mode := .string (text ++ [c]) }
  | .escape text =>
    if c = 34 ∨ c = 92 then some { r with mode := .string (text ++ [c]) } else none

def run (r : Reader) : List UInt8 → Option Reader
  | [] => some r
  | c :: s => (r.step c).bind fun r => r.run s

theorem push_push (r : Reader) (es fs : List Expr) : (r.push es).push fs = r.push (es ++ fs) := by
  rw [push, push, push, List.append_assoc]

theorem run_append (r : Reader) (s t : List UInt8) :
    r.run (s ++ t) = (r.run s).bind fun r => r.run t := by
  induction s generalizing r with
  | nil => rfl
  | cons c s ih =>
    rw [List.cons_append, run, run, Option.bind_assoc]
    exact Option.bind_congr fun r' _ => ih r'

theorem run_singleton (r : Reader) (c : UInt8) : r.run [c] = r.step c := by
  show ((r.step c).bind fun r => some r) = r.step c
  cases r.step c with
  | none => rfl
  | some r => rfl

theorem step_delimiter {r : Reader} (hr : r.mode = .between) {c : UInt8}
    (hc : isDelimiter c = true) : r.step c = r.delimiter c := by
  rw [step, hr]
  exact if_pos hc

end Reader

open Reader (push run step)

/-- The expressions of a whole text. -/
def read (s : List UInt8) : Option (List Expr) :=
  (run ⟨[], [], .between⟩ s).bind fun r =>
    match r.enclosing, r.mode with
    | [], .between => some r.items
    | [], .atom name => some (r.items ++ [.atom name])
    | _, _ => none

/-- The text is read as the expressions, whatever comes before it and behind it. -/
def Reads (s : List UInt8) (es : List Expr) : Prop :=
  ∀ r : Reader, r.mode = .between → r.run s = some (r.push es)

/-- The same once a delimiter comes behind the text. -/
def Ends (s : List UInt8) (es : List Expr) : Prop :=
  ∀ (r : Reader) (c : UInt8), r.mode = .between → isDelimiter c = true →
    r.run (s ++ [c]) = (r.push es).step c

variable {s t : List UInt8} {es fs : List Expr}

theorem read_of_reads (h : Reads s es) : read s = some es := by
  rw [read, h _ rfl]
  rfl

theorem reads_nil : Reads [] [] := by
  intro r hr
  show some r = _
  rw [push, List.append_nil, ← hr]

theorem Reads.append (hs : Reads s es) (ht : Reads t fs) : Reads (s ++ t) (es ++ fs) := by
  intro r hr
  rw [Reader.run_append, hs r hr, Option.bind_some, ht _ rfl, Reader.push_push]

theorem Reads.ends (hs : Reads s es) : Ends s es := by
  intro r c hr _
  rw [Reader.run_append, hs r hr, Option.bind_some, Reader.run_singleton]

theorem Reads.append_ends (hs : Reads s es) (ht : Ends t fs) : Ends (s ++ t) (es ++ fs) := by
  intro r c hr hc
  rw [List.append_assoc, Reader.run_append, hs r hr, Option.bind_some, ht _ c rfl hc,
    Reader.push_push]

theorem Ends.blank (hs : Ends s es) {c : UInt8} (hc : isBlank c = true) : Reads (s ++ [c]) es := by
  intro r hr
  have hdelimiter : isDelimiter c = true := by
    rw [isDelimiter, hc]
    rfl
  rw [hs r c hr hdelimiter, Reader.step_delimiter rfl hdelimiter, Reader.delimiter, if_pos hc]

theorem reads_blank {c : UInt8} (hc : isBlank c = true) : Reads [c] [] := reads_nil.ends.blank hc

theorem Ends.list (hs : Ends s es) : Reads (40 :: (s ++ [41])) [.list es] := by
  intro r hr
  have hopen : r.step 40 = some ⟨r.items :: r.enclosing, [], .between⟩ :=
    Reader.step_delimiter hr rfl
  rw [Reader.run, hopen, Option.bind_some, hs _ 41 rfl rfl]
  rfl

/-! ## Atoms -/

def IsName (s : List UInt8) : Prop := s ≠ [] ∧ ∀ c ∈ s, isDelimiter c = false

instance (s : List UInt8) : Decidable (IsName s) := inferInstanceAs (Decidable (_ ∧ _))

theorem run_name (hs : ∀ c ∈ s, isDelimiter c = false) (enclosing : List (List Expr))
    (items : List Expr) (name : List UInt8) :
    run ⟨enclosing, items, .atom name⟩ s = some ⟨enclosing, items, .atom (name ++ s)⟩ := by
  induction s generalizing name with
  | nil => rw [List.append_nil]; rfl
  | cons c s ih =>
    obtain ⟨hc, hs⟩ := List.forall_mem_cons.mp hs
    have hstep : step ⟨enclosing, items, .atom name⟩ c =
        some ⟨enclosing, items, .atom (name ++ [c])⟩ := if_neg (by rw [hc]; exact Bool.false_ne_true)
    rw [run, hstep, Option.bind_some, ih hs, List.append_assoc]
    rfl

theorem ends_name (h : IsName s) : Ends s [.atom s] := by
  intro r c hr hc
  cases s with
  | nil => exact absurd rfl h.1
  | cons b s =>
    obtain ⟨hb, hs⟩ := List.forall_mem_cons.mp h.2
    have hfirst : r.step b = some ⟨r.enclosing, r.items, .atom [b]⟩ := by
      rw [step, hr]
      exact if_neg (by rw [hb]; exact Bool.false_ne_true)
    have hend : (r.push [.atom (b :: s)]).step c = (r.push [.atom (b :: s)]).delimiter c :=
      Reader.step_delimiter rfl hc
    rw [List.cons_append, run, hfirst, Option.bind_some, Reader.run_append, run_name hs,
      Option.bind_some, Reader.run_singleton, hend]
    exact if_pos hc

/-! ## Strings -/

/-- A backslash in front of every quote and every backslash. -/
def escape (text : List UInt8) : List UInt8 :=
  text.flatMap fun c => if c = 34 ∨ c = 92 then [92, c] else [c]

theorem run_escape (enclosing : List (List Expr)) (items : List Expr) (text t : List UInt8) :
    run ⟨enclosing, items, .string t⟩ (escape text) =
      some ⟨enclosing, items, .string (t ++ text)⟩ := by
  induction text generalizing t with
  | nil => rw [List.append_nil]; rfl
  | cons c text ih =>
    have hbyte : run ⟨enclosing, items, .string t⟩ (if c = 34 ∨ c = 92 then [92, c] else [c]) =
        some ⟨enclosing, items, .string (t ++ [c])⟩ := by
      by_cases hc : c = 34 ∨ c = 92
      · rw [if_pos hc]
        show run ⟨enclosing, items, .escape t⟩ [c] = _
        rw [Reader.run_singleton]
        exact if_pos hc
      · rw [if_neg hc, Reader.run_singleton]
        obtain ⟨hquote, hbackslash⟩ := not_or.mp hc
        exact (if_neg hquote).trans (if_neg hbackslash)
    rw [escape, List.flatMap_cons, Reader.run_append, hbyte, Option.bind_some]
    exact (ih (t ++ [c])).trans (by rw [List.append_assoc]; rfl)

theorem reads_quoted (text : List UInt8) : Reads (34 :: (escape text ++ [34])) [.string text] := by
  intro r hr
  have hopen : r.step 34 = some ⟨r.enclosing, r.items, .string []⟩ := Reader.step_delimiter hr rfl
  rw [Reader.run, hopen, Option.bind_some, Reader.run_append, run_escape, Option.bind_some,
    Reader.run_singleton]
  rfl

/-! ## Forms -/

/-- `(head` and what follows it behind a blank. -/
theorem Ends.form {head : List UInt8} (hhead : IsName head) {c : UInt8} (hc : isBlank c = true)
    (hs : Ends s es) : Reads (40 :: (head ++ [c] ++ s ++ [41])) [.list (.atom head :: es)] :=
  (((ends_name hhead).blank hc).append_ends hs).list

end Lisp
