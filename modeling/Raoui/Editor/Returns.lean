import Raoui.Editor.Invariant

/-!
# Raoui.Editor.Returns

What of an update always returns. The corrections that follow a key do, so an update returns once
the mode's own handler has; submitting does, since it lexes only the blank line it leaves.
-/

namespace Raoui

open Outcome (Meets)
open Tty (Key)

/-- No exception is raised, and the result satisfies the postcondition. -/
abbrev Returns {α : Type} (x : Res α) (post : α → Prop) : Prop := Meets (fun _ => True) x post

theorem Returns.exists {α : Type} {x : Res α} {post : α → Prop} (h : Returns x post) :
    ∃ a, x = .ok a ∧ post a := by
  cases x with
  | ok a => exact ⟨a, rfl, h⟩
  | error e => exact absurd trivial h

/-- What is known of a result if it returns is known when it does. -/
theorem Returns.of_safe {α : Type} {x : Res α} {post : α → Prop} (h : Returns x fun _ => True)
    (h' : Safe x post) : Returns x post := by
  cases x with
  | ok a => exact h'
  | error e => exact absurd trivial h

namespace SearchPager

theorem viewRows_returns (rows : Int) {s : SearchState} (h : s.Sound) :
    Returns (viewRows rows s.selected s.found) fun _ => True := by
  unfold viewRows
  show Returns (if _ then _ else _) _
  split
  · trivial
  · rename_i hrows
    have hlt : s.selected < s.found.length := by
      refine h.selected_lt fun hnil => hrows (.inl ?_)
      rw [hnil]
      rfl
    have h0 := h.selected_nonneg
    rw [if_neg (not_not.mpr ⟨h0, hlt⟩),
      nth_eq h0 (List.getElem?_eq_getElem (show s.selected.toNat < s.found.length by omega))]
    trivial

end SearchPager

namespace Model

variable {m : Model}

theorem Coherent.cursorTerminalPos_returns (h : m.Coherent) :
    Returns m.cursorTerminalPos fun _ => True := by
  unfold cursorTerminalPos
  split
  · trivial
  · unfold internalToTerminal
    rw [nth_eq h.line_nonneg h.getElem?_line]
    trivial

theorem Coherent.filterCompletions_returns (h : m.Coherent) :
    Returns m.filterCompletions fun _ => True := by
  unfold filterCompletions
  split
  · trivial
  · split
    · trivial
    · split
      · trivial
      · rw [h.currentLine]
        show Returns (if _ then _ else _) _
        split <;> trivial

end Model

namespace Update

open Model (SameText)

variable {m : Model}

theorem dropdownRows_returns (h : m.input.mode.Sound) : Returns (dropdownRows m) fun _ => True := by
  unfold dropdownRows
  split
  · split <;> trivial
  · rename_i s hs
    rw [hs] at h
    exact (SearchPager.viewRows_returns _ h).bind fun _ _ => trivial
  · trivial
  · trivial
  · trivial

theorem handleVerticalCursorMovement_returns (h : m.Sound) :
    Returns (handleVerticalCursorMovement m) fun _ => True :=
  (dropdownRows_returns h.mode).bind fun _ _ =>
    h.coherent.cursorTerminalPos_returns.bind fun _ _ => trivial

theorem universalCorrections_returns (h : m.Sound) (key : Key) :
    Returns (universalCorrections key m) m.SameText := by
  refine Returns.of_safe ?_ (universalCorrections_safe h.mode key)
  refine (h.coherent.filterCompletions_returns.of_safe (Model.filterCompletions_safe m)).bind
    fun m₁ h₁ => ?_
  exact (handleVerticalCursorMovement_returns (h₁.sound h)).bind fun _ _ => trivial

section
variable [Ucd]

/-- An update returns when the mode's handler has, and has asked for something. -/
theorem update_returns (h : m.Sound) (hw : m.Within) {key : Key} {m₁ : Model}
    {effects : List Effect}
    (happly : applyKey key { m with layout.scrollAmount := 0 } = .ok (m₁, effects))
    (h₁ : m₁.Sound) (hw₁ : m₁.Within) (hne : effects ≠ []) :
    ∃ m', update (.key key) m = .ok (m', effects) ∧ m₁.SameText m' := by
  obtain ⟨m', hcorrect, hsame⟩ := (universalCorrections_returns h₁ key).exists
  refine ⟨m', ?_, hsame⟩
  have hkey : keyStep key { m with layout.scrollAmount := 0 } = .ok (m', effects) := by
    unfold keyStep handleKeyInput
    rw [handleResize_self, happly]
    dsimp only [Bind.bind, Except.bind]
    rw [hcorrect]
    cases effects with
    | nil => exact absurd rfl hne
    | cons e es => rfl
  unfold update
  rw [assertModelInvariants_eq h hw]
  dsimp only [Bind.bind, Except.bind, step]
  rw [hkey]
  dsimp only
  rw [assertModelInvariants_eq (hsame.sound h₁) (hsame.within hw₁)]
  rfl

end

end Update

section
variable [Ucd]

theorem RLexCache.create_blank : ∃ cache, RLexCache.create [.empty] = .ok cache := ⟨_, rfl⟩

theorem Model.clearModelForSubmit_returns (m : Model) : Returns m.clearModelForSubmit fun _ => True := by
  obtain ⟨cache, hcache⟩ := RLexCache.create_blank
  unfold Model.clearModelForSubmit
  rw [hcache]
  trivial

end

end Raoui
