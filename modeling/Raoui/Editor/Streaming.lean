import Raoui.Editor.Invariant
import Raoui.Editor.Transcript

/-!
# Raoui.Editor.Streaming

Two runs of the same keys, one with streaming responses in between.

* `update_streams`: such a response changes the transcript only.
* `update_key`: a key is handled alike under any transcript.
* `streaming_unobserved`: the two runs end in the same input state and emit the same effects.
-/

namespace Raoui

open Outcome (Follows)
open Ffi (ResponseChunk)
open Transition (Run)

/-- The responses that print something while the evaluation goes on. -/
def Ffi.ResponseChunk.streams : ResponseChunk → Bool
  | .stdout _ | .result _ | .rError _ | .image _ | .aiOutput _ | .aiToolCall _ => true
  | .internalError _ | .done | .shutdown | .restarted _ | .passthrough | .passthroughEnd
  | .completions _ _ | .readline _ | .aiSuggestion _ | .aiDone => false

namespace Msg

def isKey : Msg → Bool
  | .key _ => true
  | _ => false

def streams : Msg → Bool
  | .response r => r.streams
  | _ => false

end Msg

/-- What the user edits: the text, the cursor, the mode, the lists beside it and the place in the
history. -/
structure InputState where
  lines : List UnicodeString
  cursorLine : Int
  cursorPos : Int
  mode : Mode
  lexCache : RLexCache.Cache
  completion : Option Completion
  currentIndex : Nat
  savedPrompt : Option (Bytes × List UnicodeString)
  searchNeedle : Option (List UnicodeString)
  deriving DecidableEq

def Model.inputState (m : Model) : InputState :=
  { lines := m.input.lines
    cursorLine := m.input.cursorLine
    cursorPos := m.input.cursorPos
    mode := m.input.mode
    lexCache := m.input.lexCache
    completion := m.input.completion
    currentIndex := m.input.history.currentIndex
    savedPrompt := m.input.history.savedPrompt
    searchNeedle := m.input.history.searchNeedle }

namespace History

theorem recordOutput_withTranscript (t : History) (kind : Bytes) (text imagePath : Option Bytes) :
    ∃ q, recordOutput t kind text imagePath = t.withTranscript q := by
  unfold recordOutput
  split
  · exact ⟨⟨none, none, t.db, t.activeCommandId, t.activeCommandHadError, t.activeOutputOrdinal⟩, rfl⟩
  · exact ⟨⟨none, none, _, t.activeCommandId, t.activeCommandHadError, t.activeOutputOrdinal + 1⟩, rfl⟩

theorem recordResponse_withTranscript (t : History) {r : ResponseChunk} (h : r.streams = true) :
    ∃ q, t.recordResponse r = t.withTranscript q := by
  cases r with
  | stdout s => exact recordOutput_withTranscript t _ _ _
  | result s => exact recordOutput_withTranscript t _ _ _
  | rError s =>
    obtain ⟨q, hq⟩ := recordOutput_withTranscript { t with activeCommandHadError := true }
      (bytes "error") (some s) none
    exact ⟨q, hq⟩
  | image image => exact recordOutput_withTranscript t _ _ _
  | aiOutput s => exact ⟨⟨none, none, t.db, t.activeCommandId, t.activeCommandHadError,
      t.activeOutputOrdinal⟩, rfl⟩
  | aiToolCall name => exact ⟨⟨none, none, t.db, t.activeCommandId, t.activeCommandHadError,
      t.activeOutputOrdinal⟩, rfl⟩
  | _ => cases h

end History

namespace Update

/-- The models differ in the transcript and the amount scrolled last. -/
def Alike (m m' : Model) : Prop :=
  ∃ p, { m' with layout.scrollAmount := 0 } =
    { m with layout.scrollAmount := 0 }.withTranscript p

variable {m m' : Model}

theorem Alike.refl (m : Model) : Alike m m :=
  ⟨{ m with layout.scrollAmount := 0 }.transcript, rfl⟩

theorem alike_withTranscript (m : Model) (p : Transcript) : Alike m (m.withTranscript p) :=
  ⟨p, rfl⟩

theorem Alike.inputState (h : Alike m m') : m'.inputState = m.inputState := by
  obtain ⟨p, hp⟩ := h
  have := congrArg Model.inputState hp
  exact this

theorem Alike.invariants (h : Alike m m') : m'.invariants = m.invariants := by
  obtain ⟨p, hp⟩ := h
  have := congrArg Model.invariants hp
  exact this

/-- What is observed of a run that returns: the input state and the effects of the keys. -/
def observed (r : Model × List (List Effect)) : InputState × List (List Effect) :=
  (r.1.inputState, r.2)

theorem map_observed {x x' : Res (Model × List (List Effect))} (h : x.map observed = x'.map observed)
    (f : List (List Effect) → List (List Effect)) :
    (x.map fun s => (s.1, f s.2)).map observed = (x'.map fun s => (s.1, f s.2)).map observed := by
  have hcomm : ∀ x : Res (Model × List (List Effect)), (x.map fun s => (s.1, f s.2)).map observed =
      (x.map observed).map fun o => (o.1, f o.2) := by
    intro x
    cases x with
    | error e => rfl
    | ok s => rfl
  rw [hcomm x, hcomm x', h]

section
variable [Ucd]

theorem responseStep_streams {r : ResponseChunk} (hr : r.streams = true) (m : Model) :
    responseStep r m = .ok ({ m with
      repl.backendResponse := none
      repl.replOutput := some (responseReplOutput r)
      layout.scrollAmount := 0
      input.history := m.input.history.recordResponse r }, []) := by
  cases r with
  | stdout s => rfl
  | result s => rfl
  | rError s => rfl
  | image image => rfl
  | aiOutput s => rfl
  | aiToolCall name => rfl
  | _ => cases hr

/-- A streaming response is printed and recorded, and nothing else. -/
theorem update_streams (h : Alike m m') (hinv : m'.invariants = true) {r : ResponseChunk}
    (hr : r.streams = true) : ∃ m₁, update (.response r) m' = .ok (m₁, []) ∧ Alike m m₁ ∧
      m₁.invariants = true := by
  obtain ⟨p, hp⟩ := h
  obtain ⟨q, hq⟩ := m'.input.history.recordResponse_withTranscript hr
  have hstep := responseStep_streams hr { m' with layout.scrollAmount := 0 }
  rw [hq] at hstep
  refine ⟨_, update_of_step hinv hstep hinv, ⟨⟨none, some (responseReplOutput r), q.db,
    q.activeCommandId, q.activeCommandHadError, q.activeOutputOrdinal⟩, ?_⟩, hinv⟩
  rw [← Model.withTranscript_withTranscript _ p, ← hp]
  rfl

theorem update_key (h : Alike m m') (key : Tty.Key) :
    ∃ q, Follows (fun r => (r.1.withTranscript q, r.2)) (update (.key key) m)
      (update (.key key) m') := by
  have hassert : m'.assertModelInvariants = m.assertModelInvariants := by
    unfold Model.assertModelInvariants
    rw [h.invariants]
  obtain ⟨p, hp⟩ := h
  obtain ⟨q, hq⟩ := keyStep_ignores key { m with layout.scrollAmount := 0 } p
  refine ⟨q, ?_⟩
  rw [← hp] at hq
  unfold update
  rw [hassert]
  exact .same fun _ => hq.bind fun r => .same fun _ => rfl

/-! ## Runs -/

/-- The messages one after the other, with the effects of each key. -/
def play : List Msg → Model → Res (Model × List (List Effect))
  | [], m => return (m, [])
  | msg :: msgs, m => do
    let (m, effects) ← update msg m
    let (m, emitted) ← play msgs m
    return (m, if msg.isKey then effects :: emitted else emitted)

/-- Streaming responses are messages of their own kind. -/
def KeyOrStreams (msg : Msg) : Prop := msg.isKey = true ∨ msg.streams = true

theorem play_of_ok {msg : Msg} {msgs : List Msg} {r : Model × List Effect}
    (hupdate : update msg m = .ok r) : play (msg :: msgs) m = (play msgs r.1).map fun s =>
      (s.1, if msg.isKey then r.2 :: s.2 else s.2) := by
  rw [play, hupdate]
  dsimp only [Bind.bind, Except.bind]
  cases play msgs r.1 with
  | error e => rfl
  | ok s => rfl

theorem play_of_error {msg : Msg} {msgs : List Msg} {e : Exn}
    (hupdate : update msg m = .error e) : play (msg :: msgs) m = .error e := by
  rw [play, hupdate]
  rfl

theorem play_alike {msgs : List Msg} (hmsgs : ∀ msg ∈ msgs, KeyOrStreams msg) (h : Alike m m')
    (hinv : m'.invariants = true) :
    (play msgs m').map observed = (play (msgs.filter Msg.isKey) m).map observed := by
  induction msgs generalizing m m' with
  | nil =>
    show Except.ok (m'.inputState, _) = .ok (m.inputState, _)
    rw [h.inputState]
  | cons msg msgs ih =>
    have hrest : ∀ msg ∈ msgs, KeyOrStreams msg := fun msg' hmem =>
      hmsgs msg' (List.mem_cons_of_mem _ hmem)
    rcases hmsgs msg List.mem_cons_self with hkey | hstreams
    · cases msg with
      | key key =>
        obtain ⟨q, hq⟩ := update_key h key
        unfold Follows at hq
        rw [List.filter_cons_of_pos hkey]
        cases hupdate : update (.key key) m with
        | error e =>
          rw [hupdate] at hq
          rw [play_of_error hupdate, play_of_error hq]
        | ok r =>
          rw [hupdate] at hq
          rw [play_of_ok hupdate, play_of_ok hq]
          exact map_observed (ih hrest (alike_withTranscript r.1 q) (update_eq_ok hupdate).2)
            (r.2 :: ·)
      | _ => cases hkey
    · cases msg with
      | response r =>
        obtain ⟨m₁, hupdate, halike, hinv₁⟩ := update_streams h hinv hstreams
        rw [play_of_ok hupdate, List.filter_cons_of_neg Bool.false_ne_true]
        have hsame : (play msgs m₁).map (fun s => (s.1, s.2)) = play msgs m₁ := by
          cases play msgs m₁ <;> rfl
        exact (congrArg _ hsame).trans (ih hrest halike hinv₁)
      | _ => cases hstreams

/-- From any model reached, any keys with any streaming responses between them: the run with the
responses and the run without fail alike or end in the same input state with the same effects. -/
theorem streaming_unobserved {db : History.Db} {row width height : Int} {m₀ : Model}
    {before msgs : List Msg} (h₀ : initialModel (History.init db) row width height = .ok m₀)
    (hrun : Run Steps m₀ before m) (hmsgs : ∀ msg ∈ msgs, KeyOrStreams msg) :
    (play msgs m).map observed = (play (msgs.filter Msg.isKey) m).map observed := by
  obtain ⟨hs, hw⟩ := reachable_sound h₀ hrun
  exact play_alike hmsgs (.refl m) (hs.invariants_iff.mpr hw)

end

section

attribute [local instance] asciiUcd

/-- Typing `x`, recalling and submitting it, while an evaluation prints. -/
def printedOver : List Msg :=
  [.response (.stdout (bytes "a")), .key (.char (bytes "x")), .response (.rError (bytes "b")),
    .response (.aiOutput (bytes "c")), .key .enter, .key .up, .response (.result (bytes "d"))]

theorem streaming_unobserved_submit : ∃ m₀ o,
    initialModel (History.init ⟨[], []⟩) 1 80 24 = .ok m₀ ∧
    (play printedOver m₀).map observed = .ok o ∧ o.2 = [[], [.submit (bytes "x")], []] ∧
    (play printedOver m₀).map observed =
      (play (printedOver.filter Msg.isKey) m₀).map observed := by
  obtain ⟨m₀, o, h₀, hplay, heffects⟩ : ∃ m₀ o,
      initialModel (History.init ⟨[], []⟩) 1 80 24 = .ok m₀ ∧
      (play printedOver m₀).map observed = .ok o ∧ o.2 = [[], [.submit (bytes "x")], []] :=
    ⟨_, _, rfl, rfl, rfl⟩
  refine ⟨m₀, o, h₀, hplay, heffects, streaming_unobserved h₀ .nil ?_⟩
  intro msg hmem
  simp only [printedOver, List.mem_cons, List.not_mem_nil, or_false] at hmem
  rcases hmem with rfl | rfl | rfl | rfl | rfl | rfl | rfl <;> simp [KeyOrStreams, Msg.isKey,
    Msg.streams, ResponseChunk.streams]

end

end Update
end Raoui
