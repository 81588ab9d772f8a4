import Mathlib.Data.List.Basic

/-!
# Raoui.Lib.GraphicsCommand

Graphics commands in the output to a terminal: `ESC _ G`, what to do, a payload behind a semicolon,
and `ESC \`.

* `commands`: what the terminal reads.
* `commands_flatMap`: commands written one after the other are read.
-/

namespace Raoui
namespace GraphicsCommand

structure Command where
  control : List UInt8
  payload : List UInt8
  deriving DecidableEq, Repr

def esc : UInt8 := 27

def semicolon : UInt8 := 59

def write (c : Command) : List UInt8 :=
  [esc, 95, 71] ++ c.control ++ semicolon :: c.payload ++ [esc, 92]

/-! ## Reading -/

/-- Where the terminal is: in plain output, in an introducer, or in a body of which it has read some
bytes. -/
inductive State where
  | text
  | escape
  | introducer
  | body (read : List UInt8)
  | closing (read : List UInt8)
  deriving DecidableEq, Repr

/-- The body of a command is cut at its first semicolon. -/
def commandOf (body : List UInt8) : Command :=
  ⟨body.takeWhile (· ≠ semicolon), (body.dropWhile (· ≠ semicolon)).drop 1⟩

def scan : State → List UInt8 → List Command
  | _, [] => []
  | .text, c :: s => scan (if c = esc then .escape else .text) s
  | .escape, c :: s => scan (if c = 95 then .introducer else .text) s
  | .introducer, c :: s => scan (if c = 71 then .body [] else .text) s
  | .body read, c :: s => scan (if c = esc then .closing read else .body (read ++ [c])) s
  | .closing read, c :: s =>
    if c = 92 then commandOf read :: scan .text s else scan .text s

/-- The commands in an output. -/
def commands (s : List UInt8) : List Command := scan .text s

/-- A command that is read as it is written. -/
structure Readable (c : Command) : Prop where
  control : esc ∉ c.control
  noSemicolon : semicolon ∉ c.control
  payload : esc ∉ c.payload

theorem commandOf_append {control payload : List UInt8} (h : semicolon ∉ control) :
    commandOf (control ++ semicolon :: payload) = ⟨control, payload⟩ := by
  have hbefore : ∀ c ∈ control, decide (c ≠ semicolon) = true := by
    intro c hc
    rw [decide_eq_true_eq]
    rintro rfl
    exact h hc
  rw [commandOf, List.takeWhile_append_of_pos hbefore, List.dropWhile_append_of_pos hbefore,
    List.takeWhile_cons_of_neg (by decide), List.dropWhile_cons_of_neg (by decide),
    List.append_nil, List.drop_one, List.tail_cons]

theorem scan_body {body : List UInt8} (h : esc ∉ body) (read rest : List UInt8) :
    scan (.body read) (body ++ esc :: 92 :: rest) =
      commandOf (read ++ body) :: scan .text rest := by
  induction body generalizing read with
  | nil =>
    rw [List.nil_append, scan, if_pos rfl, scan, if_pos rfl, List.append_nil]
  | cons c body ih =>
    rw [List.mem_cons, not_or] at h
    rw [List.cons_append, scan, if_neg fun heq => h.1 heq.symm, ih h.2, List.append_assoc,
      List.singleton_append]

theorem commands_write_append {c : Command} (h : Readable c) (rest : List UInt8) :
    commands (write c ++ rest) = c :: commands rest := by
  have hbody : esc ∉ c.control ++ semicolon :: c.payload :=
    List.not_mem_append h.control (List.not_mem_cons_of_ne_of_not_mem (by decide) h.payload)
  have hwrite : write c ++ rest =
      esc :: 95 :: 71 :: ((c.control ++ semicolon :: c.payload) ++ esc :: 92 :: rest) := by
    simp [write]
  rw [commands, hwrite, scan, if_pos rfl, scan, if_pos rfl, scan, if_pos rfl, scan_body hbody,
    List.nil_append, commandOf_append h.noSemicolon]
  rfl

/-- Output without an Escape byte has no commands. -/
theorem commands_text {s : List UInt8} (h : esc ∉ s) : commands s = [] := by
  induction s with
  | nil => rfl
  | cons c s ih =>
    rw [List.mem_cons, not_or] at h
    rw [commands, scan, if_neg fun heq => h.1 heq.symm]
    exact ih h.2

theorem commands_flatMap {cs : List Command} (h : ∀ c ∈ cs, Readable c) {rest : List UInt8}
    (hrest : esc ∉ rest) : commands (cs.flatMap write ++ rest) = cs := by
  induction cs with
  | nil => exact commands_text hrest
  | cons c cs ih =>
    obtain ⟨hc, hcs⟩ := List.forall_mem_cons.mp h
    rw [List.flatMap_cons, List.append_assoc, commands_write_append hc, ih hcs]

end GraphicsCommand
end Raoui
