import Raoui.Ffi.Backend
import Raoui.Ffi.RunR
import Raoui.Lib.Transition

/-!
# Raoui.Ffi.Worker

The worker thread of `load_r.c` once R is up, with all it serves: the command slot, sandboxed
evaluations and the two completion slots, of which only one is ever filled. Every section under
`cmd_mutex` is one step; R output may come while the worker evaluates, answers or runs R's event
handlers.

* `step`: one action of the worker, of a `run_r` caller or of the frontend.
* `State.dispatch`: what the worker takes up next.
-/

namespace Raoui
namespace Worker

open Raoui.Ring (Frame headerSize flagTruncated totalSize)
open Raoui.RunR (Channel Serving)

/-- A request for completions: a line with the cursor in it, or the columns of an object. -/
inductive Query where
  | line (text : Bytes) (cursorPos : Int)
  | columns (object : Bytes)
  deriving DecidableEq, Repr

/-- A ring message, and the request it answers if it is an answer. The request is a ghost. -/
structure Note where
  frame : Frame
  source : Option Query
  deriving DecidableEq, Repr

/-- Where `r_thread_func` is. -/
inductive At where
  /-- At the head of `while (!shutdown_flag)`; before that, in `process_events`. -/
  | top
  /-- Past the test of the flag, about to lock `cmd_mutex`. -/
  | locking
  /-- In `pthread_cond_timedwait`. -/
  | waiting
  /-- Has taken a command and has yet to reset the ring. -/
  | taken (code : Bytes)
  | evaluating (code : Bytes)
  | serving (srv : Serving)
  | answering (q : Query)
  | exited
  deriving DecidableEq, Repr

def At.serves : At → Option Serving
  | .serving srv => some srv
  | _ => none

/-- R code runs on the worker thread and may write to the console. -/
def At.runsR : At → Bool
  | .top => true
  | .evaluating _ => true
  | .serving (.sandboxing _) => true
  | .answering _ => true
  | _ => false

inductive Event (ι : Type) where
  | runR (e : RunR.Event ι)
  | requested (q : Query)
  | took (code : Bytes)
  | queried (q : Query)
  deriving DecidableEq, Repr

structure State (ι : Type) where
  pendingCmd : Option Bytes
  runr : Channel ι
  pendingCompletionLine : Option Bytes
  pendingCompletionPos : Int
  pendingColumnObject : Option Bytes
  shutdownFlag : Bool
  worker : At
  ring : List Note
  log : List (Event ι)

def start (ι : Type) [DecidableEq ι] : State ι :=
  { pendingCmd := none, runr := Channel.idle, pendingCompletionLine := none,
    pendingCompletionPos := 0, pendingColumnObject := none, shutdownFlag := false, worker := .top,
    ring := [], log := [] }

/-! ## The ring -/

/-- `makeRoom` of the ring: the oldest messages go until `need` more bytes fit. -/
def makeRoom (cap need : Nat) : List Note → List Note
  | [] => []
  | n :: q =>
    if totalSize ((n :: q).map Note.frame) + need ≤ cap then n :: q else makeRoom cap need q

/-- `rb_push`. -/
def pushNote (cap : Nat) (q : List Note) (n : Note) : List Note :=
  if n.frame.size ≤ cap then makeRoom cap n.frame.size q ++ [n]
  else
    [{ n with frame := { n.frame with
        flags := n.frame.flags ||| flagTruncated
        payload := n.frame.payload.take (cap - headerSize) } }]

/-- `RB_MSG_COMPLETIONS`. -/
def kindCompletions : UInt8 := 10

def doneFrame : Frame := ⟨Ffi.kindDone, 0, []⟩

def answerFrame (result : Bytes) : Frame := ⟨kindCompletions, 0, result⟩

/-! ## Steps -/

inductive Action (ι : Type) where
  | submit (code : Bytes)
  | requestCompletions (line : Bytes) (cursorPos : Int)
  | requestColumns (object : Bytes)
  | shutdown
  | pop
  | call (i : ι) (code : Bytes)
  | acquire (i : ι)
  | post (i : ι)
  | wake (i : ι)
  | test (i : ι)
  | leave (i : ι)
  | loop
  | lock
  | resume
  | reset
  | push (frame : Frame)
  | finish
  | sandboxed (out : Bytes)
  | publish (k : Nat)
  | answer (result : Bytes)
  deriving DecidableEq, Repr

variable {ι : Type} [DecidableEq ι]

def State.isIdle (s : State ι) : Bool :=
  s.pendingCmd.isNone && s.pendingCompletionLine.isNone && s.pendingColumnObject.isNone &&
    s.runr.pendingRunr.isNone && !s.shutdownFlag

/-- What the worker takes with it out of the section under `cmd_mutex`: a command first, and with
it go the completion requests, which are stale now; then a sandboxed evaluation; then completions. -/
def State.dispatch (s : State ι) : State ι :=
  match s.pendingCmd with
  | some code =>
    { s with
      pendingCmd := none, pendingCompletionLine := none, pendingColumnObject := none,
      worker := .taken code, log := s.log ++ [.took code] }
  | none =>
    match s.runr.pendingRunr with
    | some code => { s with runr := s.runr.take, worker := .serving (.sandboxing code) }
    | none =>
      match s.pendingCompletionLine with
      | some line =>
        let q := Query.line line s.pendingCompletionPos
        { s with
          pendingCompletionLine := none, pendingColumnObject := none,
          worker := .answering q, log := s.log ++ [.queried q] }
      | none =>
        match s.pendingColumnObject with
        | some object =>
          let q := Query.columns object
          { s with
            pendingColumnObject := none, worker := .answering q, log := s.log ++ [.queried q] }
        | none => { s with worker := .top }

def State.withRunR (s : State ι) (c : Channel ι) : State ι := { s with runr := c }

def State.withRunREvents (s : State ι) (r : Channel ι × List (RunR.Event ι)) : State ι :=
  { s with runr := r.1, log := s.log ++ r.2.map .runR }

def step (cap : Nat) (s : State ι) : Action ι → Option (State ι)
  | .submit code => some { s with pendingCmd := some code }
  | .requestCompletions line cursorPos =>
    some { s with
      pendingCompletionLine := some line, pendingCompletionPos := cursorPos,
      pendingColumnObject := none, log := s.log ++ [.requested (.line line cursorPos)] }
  | .requestColumns object =>
    some { s with
      pendingColumnObject := some object, pendingCompletionLine := none,
      log := s.log ++ [.requested (.columns object)] }
  | .shutdown => some { s with shutdownFlag := true }
  | .pop => some { s with ring := s.ring.tail }
  | .call i code => (s.runr.call i code).map s.withRunR
  | .acquire i => (s.runr.acquire i).map s.withRunR
  | .post i => (s.runr.post i).map s.withRunREvents
  | .wake i => (s.runr.wake i).map s.withRunR
  | .test i => (s.runr.test i).map s.withRunR
  | .leave i => (s.runr.leave i).map s.withRunREvents
  | .loop =>
    if s.worker = .top then
      some { s with worker := if s.shutdownFlag then .exited else .locking }
    else none
  | .lock =>
    if s.worker = .locking then
      some (if s.isIdle then { s with worker := .waiting } else s.dispatch)
    else none
  | .resume => if s.worker = .waiting then some s.dispatch else none
  | .reset =>
    match s.worker with
    | .taken code => some { s with worker := .evaluating code, ring := [] }
    | _ => none
  | .push frame =>
    if s.worker.runsR ∧ frame.kind ≠ Ffi.kindDone ∧ frame.kind ≠ kindCompletions then
      some { s with ring := pushNote cap s.ring ⟨frame, none⟩ }
    else none
  | .finish =>
    match s.worker with
    | .evaluating _ => some { s with worker := .top, ring := pushNote cap s.ring ⟨doneFrame, none⟩ }
    | _ => none
  | .sandboxed out =>
    match s.worker with
    | .serving (.sandboxing code) =>
      some { s with
        worker := .serving (.publishing out), log := s.log ++ [.runR (.ran code (some out))] }
    | _ => none
  | .publish k =>
    match s.worker with
    | .serving (.publishing out) =>
      (s.runr.publish out k).map fun c => { s with runr := c, worker := .top }
    | _ => none
  | .answer result =>
    match s.worker with
    | .answering q =>
      some { s with
        worker := .top, ring := pushNote cap s.ring ⟨answerFrame result, some q⟩ }
    | _ => none

def Steps (cap : Nat) (s : State ι) (a : Action ι) (s' : State ι) : Prop := step cap s a = some s'

/-- Where the actions lead two callers, in a ring of 1024 bytes. -/
def after (as : List (Action Bool)) : State Bool :=
  (Transition.exec (step 1024) (start Bool) as).getD (start Bool)

theorem after_run (as : List (Action Bool))
    (h : (Transition.exec (step 1024) (start Bool) as).isSome = true) :
    Transition.Run (Steps 1024) (start Bool) as (after as) := by
  obtain ⟨s, hs⟩ := Option.isSome_iff_exists.mp h
  refine Transition.run_of_exec ?_
  rw [after, hs, Option.getD_some]

end Worker
end Raoui
