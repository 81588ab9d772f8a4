import Raoui.Editor.Invariant

/-!
# Raoui.Editor.OpenList

What the keys do to the open completion list: no key but Tab changes it, other than by closing it.

* `Lists`: a list that is left or closed.
* `applyKey_lists`: what a key does, in each mode.
-/

namespace Raoui

open Outcome (Meets)
open Tty (Key)

theorem Safe.yields {α : Type} {x : Res α} {post : α → Prop} (h : Safe x post) : Yields x post :=
  Yields.of_ok fun _ hx => h.of_eq_ok hx

/-! ## Keys that leave the list or close it -/

namespace Model

/-- The list is `c`, or closed. -/
def Lists (c : Option Completion) (m : Model) : Prop :=
  m.input.completion = none ∨ m.input.completion = c

/-- A handler that leaves the list `c` or closes it. -/
abbrev KeepsList (c : Option Completion) (x : Res (Model × List Effect)) : Prop :=
  Yields x fun q => q.1.Lists c

section
variable [Ucd] {m m' : Model} {c : Option Completion}

theorem Edits.lists {cond : Prop} (he : m.Edits cond m') (h : m.Lists c) : m'.Lists c := by
  unfold Lists at h ⊢
  rw [he.frame.completion]
  exact h

theorem keepsList_of_edits {x : Res Model} {cond : Prop} (h : m.Lists c)
    (hx : Safe x (m.Edits cond)) : KeepsList c (withoutEffects x) :=
  (Safe.yields hx).bind fun _ he => he.lists h

omit [Ucd] in
theorem keepsList_of {x : Res Model} (hx : Yields x (Lists c)) : KeepsList c (withoutEffects x) :=
  hx.bind fun _ h => h

theorem Lists.blankInput (h : m.Lists c) (mode : Mode) : Yields (m.blankInput mode) (Lists c) :=
  Yields.read fun _ => h

theorem clearModelForSubmit_closes (m : Model) :
    Yields m.clearModelForSubmit fun m' => m'.input.completion = none :=
  Yields.read fun _ => rfl

theorem Lists.shiftHistory (h : m.Lists c) (amount : Int) :
    Yields (m.shiftHistory amount) (Lists c) := by
  refine Yields.read fun mode => Yields.read fun recalled => ?_
  obtain ⟨shown, history⟩ := recalled
  dsimp only
  split
  · refine Yields.read fun mode => Yields.read fun cache => ?_
    exact Yields.read fun _ => h
  · exact h

omit [Ucd] in
theorem Lists.leaveCompletion (h : m.Lists c) : m.leaveCompletion.Lists c := by
  unfold Model.leaveCompletion
  split
  · exact .inl rfl
  · exact h

theorem applyCommand_closes (tokenStart : Int) (label : Bytes) (command : Backslash.Command) :
    Yields (m.applyCommand tokenStart label command) fun q => q.1.input.completion = none := by
  unfold Model.applyCommand
  split
  · exact Yields.read fun _ => rfl
  · exact rfl
  · exact rfl

theorem acceptBackslashCompletion_closes :
    Yields m.acceptBackslashCompletion fun r => ∀ q, r = some q → q.1.input.completion = none := by
  refine Yields.read fun chosen => ?_
  split
  · exact Outcome.meets_pure.mpr fun q hq => nomatch hq
  · rename_i tokenStart label command
    refine (applyCommand_closes tokenStart label command).bind fun r hr => ?_
    refine Outcome.meets_pure.mpr fun q hq => ?_
    cases hq
    exact hr

end

end Model

section
variable [Ucd] {m : Model} {c : Option Completion}

open Model (Lists KeepsList keepsList_of keepsList_of_edits
  clearModelForSubmit_closes leaveCompletion_sameText)

namespace HistorySearch

theorem enter_lists (m : Model) : Yields (enter m) (Lists c) := Yields.read fun _ => .inl rfl

omit [Ucd] in
theorem searchAndUpdate_lists (h : m.Lists c) : Yields (searchAndUpdate m) (Lists c) :=
  Yields.read fun _ => h

omit [Ucd] in
theorem setSearch_lists (h : m.Lists c) (search : UnicodeString) :
    Yields (setSearch m search) (Lists c) := Yields.read fun _ => h

omit [Ucd] in
theorem moveSelection_lists (h : m.Lists c) (amount : Int) :
    Yields (moveSelection m amount) (Lists c) := by
  refine Yields.read fun state => ?_
  dsimp only
  split <;> exact h

theorem cancel_lists (h : m.Lists c) : Yields (cancel m) (Lists c) := h.blankInput _

theorem submit_lists (h : m.Lists c) : Yields (submit m) (Lists c) := by
  refine Yields.read fun state => Yields.read fun entry => ?_
  split
  · exact cancel_lists h
  · exact Yields.read fun _ => Yields.read fun _ => Yields.read fun _ => Yields.read fun _ => h

theorem insertChar_lists (h : m.Lists c) (text : Bytes) : Yields (insertChar m text) (Lists c) := by
  refine Yields.read fun search => ?_
  split
  · exact h
  · exact (setSearch_lists h _).bind fun _ hm => hm

theorem insertPaste_lists (h : m.Lists c) (text : Bytes) :
    Yields (insertPaste m text) (Lists c) := by
  refine Yields.read fun search => ?_
  dsimp only
  split
  · exact h
  · exact (setSearch_lists h _).bind fun _ hm => hm

theorem ctrlKey_lists (h : m.Lists c) (key : Char) : Yields (ctrlKey key m) (Lists c) := by
  unfold ctrlKey
  split
  · exact cancel_lists h
  · exact moveSelection_lists h _
  · exact moveSelection_lists h _
  · refine Yields.read fun search => ?_
    split
    · exact cancel_lists h
    · refine Meets.bind ?_ fun _ => searchAndUpdate_lists
      refine Yields.read fun search => ?_
      split
      · exact h
      · exact setSearch_lists h _
  · refine Meets.bind ?_ fun _ => searchAndUpdate_lists
    exact Yields.read fun search => (setSearch_lists h _).bind fun _ hm => hm
  · exact h
  · exact Yields.read fun _ => h
  · exact h

theorem applyKey_lists (h : m.Lists c) (key : Key) : KeepsList c (applyKey key m) := by
  refine keepsList_of ?_
  cases key with
  | ctrl key => exact ctrlKey_lists h key
  | escape => exact cancel_lists h
  | enter => exact submit_lists h
  | up => exact moveSelection_lists h _
  | down => exact moveSelection_lists h _
  | other name =>
    show Yields (otherKey name m) _
    unfold otherKey
    split
    · exact Yields.read fun _ => Yields.read fun _ => h
    · exact Yields.read fun _ => Yields.read fun _ => h
    · exact h
  | char text => exact (insertChar_lists h text).bind fun _ => searchAndUpdate_lists
  | backspace =>
    refine Yields.read fun search => ?_
    split
    · exact cancel_lists h
    · refine Meets.bind ?_ fun _ => searchAndUpdate_lists
      unfold deleteChar
      split
      · exact h
      · exact Yields.read fun search => (setSearch_lists h _).bind fun _ hm => hm
  | left =>
    unfold moveLeft
    show Lists c (if _ then _ else _)
    split <;> exact h
  | right =>
    refine Yields.read fun search => ?_
    split <;> exact h
  | paste text => exact (insertPaste_lists h text).bind fun _ => searchAndUpdate_lists
  | _ => exact h

end HistorySearch

namespace NormalMode

theorem submit_lists (hc : m.Coherent) (h : m.Lists c) : KeepsList c (submit m) := by
  refine Yields.read fun action => ?_
  split
  · unfold submitNormalText
    dsimp only
    split
    · exact h
    · exact (clearModelForSubmit_closes _).bind fun _ hm => .inl hm
  · refine keepsList_of ((Safe.yields hc.insertNewline).bind fun m₁ he => ?_)
    exact (Safe.yields (he.coherent.insertSpaces _)).mono fun _ he' => he'.lists (he.lists h)
  · exact keepsList_of_edits h (hc.expandBraces _ _)

theorem ctrlKey_lists (hc : m.Coherent) (h : m.Lists c) (key : Char) :
    KeepsList c (ctrlKey key m) := by
  unfold ctrlKey
  split
  · split <;> exact h
  · split
    · exact h
    · exact keepsList_of (h.shiftHistory _)
  · split
    · exact h
    · exact keepsList_of_edits h hc.deleteCharAfterCursor
  · exact keepsList_of_edits h hc.deleteBeforeCursor
  · exact keepsList_of_edits h hc.insertNewline
  · exact keepsList_of (HistorySearch.enter_lists m)
  · exact h
  · exact keepsList_of_edits h hc.goToLineEnd
  · exact h

theorem textKey_lists (hc : m.Coherent) (h : m.Lists c) (key : Key) :
    KeepsList c (textKey key m) := by
  unfold textKey
  cases key with
  | ctrl key => exact ctrlKey_lists hc h key
  | other name =>
    have hother : Safe (otherKey name m) fun r => m.Edits True r.1 ∧ r.2 = [] := hc.otherKey name
    exact (Safe.yields hother).mono fun _ he => he.1.lists h
  | char text =>
    dsimp only
    split
    · exact h
    · split
      · exact h
      · exact keepsList_of_edits h (hc.userInputChar text)
  | backspace => exact keepsList_of_edits h hc.userInputDelete
  | left => exact keepsList_of_edits h hc.moveLeft
  | right => exact keepsList_of_edits h hc.moveRight
  | up =>
    dsimp only
    split
    · exact keepsList_of (h.shiftHistory _)
    · exact keepsList_of_edits h hc.moveUp
  | down =>
    dsimp only
    split
    · exact keepsList_of (h.shiftHistory _)
    · exact keepsList_of_edits h hc.moveDown
  | paste text => exact keepsList_of_edits h (hc.insertPaste text)
  | _ => exact h

end NormalMode

namespace ShellMode

theorem editKey_lists (hc : m.Coherent) (h : m.Lists c) (key : Key) :
    KeepsList c (editKey key m) :=
  (Safe.yields (hc.editKey key)).mono fun _ he => he.1.lists h

theorem deleteKey_lists (hc : m.Coherent) (h : m.Lists c) (key : Key) :
    KeepsList c (deleteKey key m) := by
  unfold deleteKey
  split
  · split
    · exact keepsList_of (h.blankInput _)
    · exact keepsList_of_edits h hc.deleteCharAfterCursor
  · split
    · exact keepsList_of (h.blankInput _)
    · exact editKey_lists hc h _
  · exact editKey_lists hc h _

theorem applyKey_lists (hs : m.Sound) (h : m.Lists c) (key : Key) :
    KeepsList c (applyKey key m) := by
  have hc := hs.coherent
  unfold applyKey
  split
  · exact keepsList_of (h.blankInput _)
  · exact keepsList_of (h.shiftHistory _)
  · exact keepsList_of (h.shiftHistory _)
  · exact keepsList_of (h.shiftHistory _)
  · exact keepsList_of (HistorySearch.enter_lists m)
  · exact Yields.read fun _ => (clearModelForSubmit_closes _).bind fun _ hm => .inl hm
  · exact deleteKey_lists hc h _
  · exact deleteKey_lists hc h _
  · exact deleteKey_lists ((leaveCompletion_sameText m).sound hs).coherent h.leaveCompletion _

end ShellMode

theorem AiMode.applyKey_lists (hc : m.Coherent) (h : m.Lists c) (key : Key) :
    KeepsList c (AiMode.applyKey key m) := by
  unfold AiMode.applyKey
  split
  · exact keepsList_of (h.blankInput _)
  · exact keepsList_of (h.shiftHistory _)
  · exact keepsList_of (h.shiftHistory _)
  · exact keepsList_of (h.shiftHistory _)
  · exact keepsList_of (HistorySearch.enter_lists m)
  · refine Yields.read fun _ => (clearModelForSubmit_closes _).bind fun _ hm => ?_
    dsimp only
    split <;> exact .inl hm
  · exact ShellMode.deleteKey_lists hc h _

namespace ReadlineMode

theorem inputKey_lists (hc : m.Coherent) (h : m.Lists c) (key : Key) :
    KeepsList c (inputKey key m) := by
  unfold inputKey
  split
  · split
    · exact h
    · exact keepsList_of_edits h hc.deleteCharAfterCursor
  · exact ShellMode.editKey_lists hc h _

theorem applyKey_lists (hs : m.Sound) (h : m.Lists c) (key : Key) :
    KeepsList c (applyKey key m) := by
  have hc := hs.coherent
  unfold applyKey
  split
  · exact (h.blankInput _).bind fun _ hm => hm
  · exact h
  · exact h
  · exact h
  · exact Yields.read fun _ => (clearModelForSubmit_closes _).bind fun _ hm => .inl hm
  · exact inputKey_lists hc h _
  · exact inputKey_lists hc h _
  · exact inputKey_lists ((leaveCompletion_sameText m).sound hs).coherent h.leaveCompletion _

end ReadlineMode

end

end Raoui
