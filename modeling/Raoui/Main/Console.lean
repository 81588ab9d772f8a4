import Raoui.Editor.Asking
import Raoui.Main.OutputRenderer
import Raoui.Main.Recording

/-!
# Raoui.Main.Console

R at the console: `cb_read_console`, `raoui_enter_passthrough` and `raoui_exit_passthrough` of
`load_r.c` on the worker's side, the loop of `bin/main.ml` with `enter_passthrough` on the other.
R puts a message into the ring and polls a gate, which the loop opens; for a line of input the two
share a buffer as well.

R is any program here that leaves every passthrough it has entered before it returns, as the
wrappers of `system` do. Lines read while R initialises or outside of an evaluation, and the keys
typed before the loop starts, are left out.

* `State.turn`: one update, and what the loop does with its effects.
* `step`: one action of R, of the bridge or of the loop.
* `State.log`: a ghost, the lines R has asked for and been given.
-/

namespace Raoui
namespace Console

open Ffi (ResponseChunk)
open Raoui.Ring (Frame headerSize)

def kindPassthrough : UInt8 := 8
def kindPassthroughEnd : UInt8 := 9
def kindReadline : UInt8 := 11

/-! ## The line that is handed over -/

/-- What C sees of an OCaml string. -/
def cString (s : Bytes) : Bytes := s.takeWhile (· ≠ 0)

/-- What `cb_read_console` puts into a buffer of `len` bytes, up to the NUL. -/
def consoleLine (input : Bytes) (len : Nat) : Bytes :=
  (if input.length + 2 > len then input.take (len - 2) else input) ++ [newline]

/-- What the ring keeps of a payload. -/
def storedPayload (cap : Nat) (payload : Bytes) : Bytes :=
  if headerSize + payload.length ≤ cap then payload else payload.take (cap - headerSize)

/-! ## States -/

/-- A callback polls its gate, has seen it open, or has closed it behind itself. -/
inductive Gate where
  | polled
  | seen
  | closed
  deriving DecidableEq, Repr

/-- Where the evaluation is. -/
inductive RSide where
  | running
  | reading (prompt : Bytes) (len : Nat) (gate : Gate)
  | entering (gate : Gate)
  deriving DecidableEq, Repr

/-- Where the loop is; in `passthrough` it waits for R to leave, with the model it goes on with. -/
inductive Ui where
  | prompting (m : Model)
  | passthrough (m : Model)
  | ended
  deriving DecidableEq, Repr

inductive Place where
  | prompt
  | suspended
  | nowhere
  deriving DecidableEq, Repr

def Ui.place : Ui → Place
  | .prompting _ => .prompt
  | .passthrough _ => .suspended
  | .ended => .nowhere

/-- The question that is put to the user. -/
def Ui.asks : Ui → Option Bytes
  | .prompting m | .passthrough m => m.asks
  | .ended => none

inductive Event where
  | asked (prompt : Bytes) (len : Nat)
  /-- The loop has a line, typed under this prompt. -/
  | answered (shown : Option Bytes) (text : Bytes)
  | read (line : Bytes)
  deriving DecidableEq, Repr

structure State where
  ffi : Ffi.State
  r : RSide
  /-- The passthroughs R is inside of. -/
  depth : Nat
  readlineGate : Bool
  readlineInputBuf : Option Bytes
  passthroughGate : Bool
  ui : Ui
  /-- The loop is in `rffi_submit_readline_input`, the line stored and the gate not yet open. -/
  handing : Bool
  log : List Event
  deriving DecidableEq, Repr

def start (m : Model) : State :=
  { ffi := Ffi.start, r := .running, depth := 0, readlineGate := false, readlineInputBuf := none,
    passthroughGate := false, ui := .prompting m, handing := false, log := [] }

/-- What the terminal and the file chooser answer: the cursor's row and column, the width and the
height, and the text of the file picked. -/
structure World where
  cursor : Int × Int
  size : Int × Int
  picked : Option Bytes
  deriving DecidableEq, Repr

/-! ## The loop -/

/-- `execute_one`, for a line typed under the prompt `shown`. What the other effects reach, the
interrupt flag, the completion slots and the AI, is no part of the state. -/
def State.execute (shown : Option Bytes) (s : State) : Effect → State
  | .submit text => { s with ffi := s.ffi.called (Ffi.submit s.ffi.t text) }
  | .backgroundSubmit text => { s with ffi := s.ffi.called (Ffi.backgroundSubmit s.ffi.t text) }
  | .submitReadlineInput text =>
    { s with
      readlineInputBuf := some (cString text)
      handing := true
      log := s.log ++ [.answered shown text] }
  | .cancel | .requestCompletions _ _ | .submitAiQuery _ | .resetAiSession
  | .runBackslashEffect _ | .enterPassthrough | .quit => s

def State.executeAll (shown : Option Bytes) (s : State) (effects : List Effect) : State :=
  effects.foldl (State.execute shown) s

/-- `Backslash_effect_runner.run`. -/
def pickedMsg (w : World) : BackslashEffect → Msg
  | .pickFile tokenStart originalToken => .backslashEffectResult tokenStart originalToken w.picked
  | .pickFileFzf tokenStart originalToken =>
    .backslashEffectResult tokenStart originalToken w.picked

section
variable [Ucd]

/-- `make_init`, with the store as it stands. An exception ends the loop. -/
def State.makeInit (s : State) (w : World) (history : History) : State :=
  match Update.initialModel history w.cursor.1 w.size.1 w.size.2 with
  | .ok m => { s with ui := .prompting m }
  | .error _ => { s with ui := .ended }

/-- The update with what a backslash command has picked. -/
def State.pick (s : State) (w : World) (cmd : BackslashEffect) (m : Model) : State :=
  match Update.update (pickedMsg w cmd) m with
  | .ok (m', effects) =>
    { s.executeAll m.asks effects with
      ui := .prompting (OutputRenderer.printReplOutput w.cursor m') }
  | .error _ => { s with ui := .ended }

/-- An update and what the loop does with its effects. -/
def State.turn (s : State) (w : World) (msg : Msg) (m : Model) : State :=
  match Update.update msg m with
  | .error _ => { s with ui := .ended }
  | .ok (m', effects) =>
    match effects with
    | [.quit] => { s with ui := .ended }
    | [.cancel] => s.makeInit w m'.input.history.recordCancel
    | [.runBackslashEffect cmd] => s.pick w cmd m'
    | [.enterPassthrough] => { s with ui := .passthrough m', passthroughGate := true }
    | effects =>
      { s.executeAll m.asks effects with
        ui := .prompting (OutputRenderer.printReplOutput w.cursor m') }

/-- A response of `Ffi_backend.await_response`, unless another fiber has won the round. -/
def State.receive (w : World) (lost : Bool) (s : State) (r : ResponseChunk) : State :=
  if lost then s
  else
    match s.ui with
    | .prompting m => s.turn w (.response r) m
    | .passthrough m =>
      match r with
      | .passthroughEnd => { s with ui := .prompting (OutputRenderer.resume w.cursor m) }
      | _ => s
    | .ended => s

end

/-! ## Steps -/

inductive Action where
  /-- A step of the bridge; what it returns may be lost. -/
  | ffi (a : Ffi.Action) (w : World) (lost : Bool)
  /-- A key, a resize or a message of the AI. -/
  | message (msg : Msg) (w : World)
  /-- The second half of `rffi_submit_readline_input`. -/
  | openGate
  /-- An exception or a signal ends the loop. -/
  | ends
  | asks (prompt : Bytes) (len : Nat)
  | enters
  | exits
  | seesGate
  | closesGate
  | copies
  deriving DecidableEq, Repr

def isConsole (kind : UInt8) : Bool :=
  kind = kindPassthrough || kind = kindPassthroughEnd || kind = kindReadline

/-- R pushes only while it runs, returns only outside of every passthrough, and the loop does nothing
else while it hands over a line. User code comes from an effect. -/
def State.allows (s : State) : Ffi.Action → Bool
  | .push frame => s.r = .running && !isConsole frame.kind
  | .finish => s.r = .running && s.depth = 0
  | .take | .reset => true
  | .submit _ => false
  | .backgroundSubmit _ | .initialised _ | .await | .cancel | .loop | .drain => !s.handing

/-- The messages that do not come from R. -/
def fromOutside : Msg → Bool
  | .key _ | .termResize _ _ => true
  | .response r => Main.isAi r
  | .backslashEffectResult _ _ _ => false

/-- R pushes a message of the console. -/
def State.pushes (cap : Nat) (s : State) (kind : UInt8) (payload : Bytes) : Option Ffi.State :=
  if s.r = .running then Ffi.step cap s.ffi (.push ⟨kind, 0, payload⟩) else none

section
variable [Ucd]

def step (cap : Nat) (s : State) : Action → Option State
  | .ffi a w lost =>
    if s.allows a then
      (Ffi.step cap s.ffi a).map fun ffi =>
        (Main.returned s.ffi.log ffi.log).foldl (State.receive w lost) { s with ffi }
    else none
  | .message msg w =>
    match s.ui with
    | .prompting m =>
      if fromOutside msg && s.ffi.consumer.yielded && !s.handing then some (s.turn w msg m)
      else none
    | .passthrough _ | .ended => none
  | .openGate =>
    if s.handing then some { s with handing := false, readlineGate := true } else none
  | .ends => if s.handing then none else some { s with ui := .ended }
  | .asks prompt len =>
    if 0 ∉ prompt ∧ 2 ≤ len then
      (s.pushes cap kindReadline prompt).map fun ffi =>
        { s with ffi, r := .reading prompt len .polled, log := s.log ++ [.asked prompt len] }
    else none
  | .enters => (s.pushes cap kindPassthrough []).map fun ffi => { s with ffi, r := .entering .polled }
  | .exits =>
    if 0 < s.depth then
      (s.pushes cap kindPassthroughEnd []).map fun ffi => { s with ffi, depth := s.depth - 1 }
    else none
  | .seesGate =>
    match s.r with
    | .reading prompt len .polled =>
      if s.readlineGate then some { s with r := .reading prompt len .seen } else none
    | .entering .polled =>
      if s.passthroughGate then some { s with r := .entering .seen } else none
    | _ => none
  | .closesGate =>
    match s.r with
    | .reading prompt len .seen =>
      some { s with r := .reading prompt len .closed, readlineGate := false }
    | .entering .seen =>
      some { s with r := .running, passthroughGate := false, depth := s.depth + 1 }
    | _ => none
  | .copies =>
    match s.r with
    | .reading _ len .closed =>
      some { s with
        r := .running
        readlineInputBuf := none
        log := s.log ++ [.read (consoleLine (s.readlineInputBuf.getD []) len)] }
    | _ => none

def Steps (cap : Nat) (s : State) (a : Action) (s' : State) : Prop := step cap s a = some s'

end

end Console
end Raoui
