import Raoui.Base
import Raoui.Ring.Fifo

/-!
# Raoui.Ffi.Backend

`lib/ffi_backend.ml`: the consumer's side of the bridge to the R worker. The functions are state
transformers on the record `Backend`; one that calls `Rffi.submit` also returns the job it hands
over. `await_response` is written as the step its inner `loop` makes and the step `drain` makes,
since the worker runs between any two pops.

A message is a ring frame with its owner, the evaluation that pushed it. The owner is a ghost:
nothing here reads it.
-/

namespace Raoui
namespace Ffi

open Raoui.Ring (Frame)

structure Image where
  sourcePath : Bytes
  previewPath : Bytes
  mimeType : Option Bytes
  widthPx : Option Int
  heightPx : Option Int
  deriving DecidableEq, Repr

inductive ResponseChunk where
  | stdout (s : Bytes)
  | result (s : Bytes)
  | rError (s : Bytes)
  | internalError (s : Bytes)
  | done
  | shutdown
  | restarted (s : Bytes)
  | image (image : Image)
  | passthrough
  | passthroughEnd
  | completions (token : Bytes) (items : List Bytes)
  | readline (prompt : Bytes)
  | aiOutput (s : Bytes)
  | aiToolCall (name : Bytes)
  | aiSuggestion (code : Bytes)
  | aiDone
  deriving DecidableEq, Repr

/-! ## Message kinds, as `ring_buffer.h` numbers them -/

def kindStdout : UInt8 := 0
def kindStderr : UInt8 := 1
def kindRError : UInt8 := 3
def kindDone : UInt8 := 5

/-- `split_first_eq`. -/
def splitFirstEq (line : Bytes) : Option (Bytes × Bytes) :=
  if line.contains 61 then
    some (trim (line.takeWhile (· ≠ 61)), trim ((line.dropWhile (· ≠ 61)).drop 1))
  else none

def parseImagePayload (payload : Bytes) : Option Image :=
  let lines := (splitOnChar newline payload).filter (· ≠ [])
  match lines with
  | [] => none
  | [path] => some ⟨path, path, none, none, none⟩
  | _ =>
    let pairs := lines.filterMap splitFirstEq
    let sourcePath := (pairs.lookup (bytes "source_path")).or (pairs.lookup (bytes "path"))
    let previewPath := (pairs.lookup (bytes "preview_path")).or (pairs.lookup (bytes "path"))
    match sourcePath, previewPath with
    | some sourcePath, some previewPath =>
      some ⟨sourcePath, previewPath, pairs.lookup (bytes "mime"),
        (pairs.lookup (bytes "width")).bind intOfStringOpt,
        (pairs.lookup (bytes "height")).bind intOfStringOpt⟩
    | _, _ => none

/-- The decimal digits of `n`, as `%d` prints them. -/
def decimal (n : Nat) : Bytes := (Nat.toDigits 10 n).map fun c => UInt8.ofNat c.toNat

/-- `string_of_int`; OCaml numbers the signals it knows below zero. -/
def decimalInt : Int → Bytes
  | .ofNat n => decimal n
  | .negSucc n => bytes "-" ++ decimal (n + 1)

def mapKind (kind : UInt8) (payload : Bytes) : ResponseChunk :=
  match kind with
  | 0 => .stdout payload
  | 1 => .stdout payload
  | 2 => .result payload
  | 3 => .rError payload
  | 4 => .internalError payload
  | 5 => .done
  | 6 =>
    match parseImagePayload payload with
    | some image => .image image
    | none => .internalError (bytes "Invalid image payload")
  | 8 => .passthrough
  | 9 => .passthroughEnd
  | 10 =>
    if payload = [] then .completions [] []
    else
      match splitOnChar newline payload with
      | token :: items => .completions token items
      | [] => .completions [] []
  | 11 => .readline payload
  | k => .internalError (bytes "Unknown message kind: " ++ decimal k.toNat)

/-! ## Jobs and evaluations -/

inductive Job where
  | user (code : Bytes)
  | background (code : Bytes)
  deriving DecidableEq, Repr

def Job.isUser : Job → Bool
  | .user _ => true
  | .background _ => false

/-- One evaluation the worker has started: the how-manieth, and of which job. -/
structure Eval where
  id : Nat
  job : Job
  deriving DecidableEq, Repr

structure Message where
  frame : Frame
  owner : Eval
  deriving DecidableEq, Repr

def Message.isDone (m : Message) : Bool := m.frame.kind = kindDone

/-- The record `t` of `ffi_backend.ml`, without the clock. -/
structure Backend where
  ready : Bool
  busy : Bool
  suppressing : Bool
  pending : List Job
  stashed : Option Message
  pendingStartupOutput : Option Bytes
  deriving DecidableEq, Repr

def create : Backend :=
  { ready := false, busy := false, suppressing := false, pending := [], stashed := none,
    pendingStartupOutput := none }

def startEval (t : Backend) (job : Job) : Backend × Option Job := ({ t with busy := true }, some job)

def flushPending (t : Backend) : Backend × Option Job :=
  match t.pending with
  | [] => (t, none)
  | .user code :: rest => startEval { t with pending := rest, suppressing := false } (.user code)
  | .background code :: rest =>
    startEval { t with pending := rest, suppressing := true } (.background code)

/-- What the initialisation fiber does once `Rffi.init` has returned. -/
def initialised (t : Backend) (output : Bytes) : Backend × Option Job :=
  let t := { t with ready := true }
  let t := if output = [] then t else { t with pendingStartupOutput := some output }
  flushPending t

def submit (t : Backend) (code : Bytes) : Backend × Option Job :=
  let t := { t with suppressing := false }
  if t.ready && !t.busy then startEval t (.user code)
  else ({ t with pending := t.pending ++ [.user code] }, none)

def backgroundSubmit (t : Backend) (code : Bytes) : Backend × Option Job :=
  if t.ready && !t.busy then startEval { t with suppressing := true } (.background code)
  else ({ t with pending := t.pending ++ [.background code] }, none)

def handleDone (t : Backend) : Backend × Option Job :=
  flushPending { t with busy := false, suppressing := false }

/-! ## `await_response` -/

/-- Kinds that are delivered even while background output is suppressed. -/
def passesSuppression (kind : UInt8) : Bool :=
  kind = 5 || kind = 8 || kind = 9 || kind = 10 || kind = 11 || kind = 12

/-- `pop`: the stashed message first, then the ring. -/
def pop (t : Backend) (ring : List Message) : Option Message × Backend × List Message :=
  match t.stashed with
  | some m => (some m, { t with stashed := none }, ring)
  | none =>
    match ring with
    | m :: rest => (some m, t, rest)
    | [] => (none, t, [])

/-- How a step of `await_response` ends. A response comes with the messages it was made of. -/
inductive Outcome where
  | returned (r : ResponseChunk) (parts : List Message)
  | again
  | sleep
  | drain (buf : Bytes) (parts : List Message)
  deriving DecidableEq, Repr

/-- The effect of one step: `popped` is the message it disposed of, so a message that is only
parked in the stash does not count yet. -/
structure Awaited where
  t : Backend
  ring : List Message
  submitted : Option Job
  popped : Option Message
  outcome : Outcome

/-- What `loop` does with the message it popped. -/
def dispatch (t : Backend) (ring : List Message) (m : Message) : Awaited :=
  if t.suppressing && !passesSuppression m.frame.kind then
    { t, ring, submitted := none, popped := some m, outcome := .again }
  else if m.frame.kind = 0 || m.frame.kind = 1 then
    { t, ring, submitted := none, popped := some m, outcome := .drain m.frame.payload [m] }
  else if m.frame.kind = 5 then
    let wasSuppressing := t.suppressing
    let (t, submitted) := handleDone t
    { t, ring, submitted, popped := some m,
      outcome := if t.busy || wasSuppressing then .again else .returned .done [m] }
  else
    { t, ring, submitted := none, popped := some m,
      outcome := .returned (mapKind m.frame.kind m.frame.payload) [m] }

/-- One round of `loop`. -/
def awaitLoop (t : Backend) (ring : List Message) : Awaited :=
  match t.pendingStartupOutput with
  | some output =>
    { t := { t with pendingStartupOutput := none }, ring, submitted := none, popped := none,
      outcome := .returned (.stdout output) [] }
  | none =>
    match pop t ring with
    | (none, t, ring) => { t, ring, submitted := none, popped := none, outcome := .sleep }
    | (some m, t, ring) => dispatch t ring m

/-- One round of `drain`, which reads the ring past the stash. -/
def awaitDrain (t : Backend) (ring : List Message) (buf : Bytes) (parts : List Message) : Awaited :=
  match ring with
  | m :: rest =>
    if m.frame.kind = 0 || m.frame.kind = 1 then
      { t, ring := rest, submitted := none, popped := some m,
        outcome := .drain (buf ++ m.frame.payload) (parts ++ [m]) }
    else
      { t := { t with stashed := some m }, ring := rest, submitted := none, popped := none,
        outcome := .returned (.stdout buf) parts }
  | [] =>
    { t := { t with stashed := none }, ring := [], submitted := none, popped := none,
      outcome := .returned (.stdout buf) parts }

end Ffi
end Raoui
