import Raoui.Ffi.Backend
import Raoui.Lib.Transition

/-!
# Raoui.Ffi.System

The consumer of `Ffi.Backend` and the R worker of `load_r.c` side by side. They share the hand-over
slot `pending_cmd` and the ring.

The consumer runs on one OCaml thread: a submission or the end of the initialisation happens while
`await_response` is not running or sleeps, never in the middle of its loops. Cancelling it is
possible only while it sleeps. The worker interleaves with all of this.

* `step`: one action of either side, `none` when it is not enabled.
* `State.log`: a ghost, what has happened so far.
-/

namespace Raoui
namespace Ffi

open Raoui.Ring (Frame headerSize flagTruncated totalSize)

/-! ## The ring, as the bounded queue it represents -/

/-- Eviction: the oldest messages go until `need` more bytes fit. -/
def makeRoom (cap need : Nat) : List Message → List Message
  | [] => []
  | m :: q =>
    if totalSize ((m :: q).map Message.frame) + need ≤ cap then m :: q else makeRoom cap need q

/-- `rb_push`. -/
def pushMessage (cap : Nat) (q : List Message) (m : Message) : List Message :=
  if m.frame.size ≤ cap then makeRoom cap m.frame.size q ++ [m]
  else
    [{ m with frame := { m.frame with
        flags := m.frame.flags ||| flagTruncated
        payload := m.frame.payload.take (cap - headerSize) } }]

/-! ## States -/

/-- The worker: waiting, holding the command it took, or evaluating after the ring reset. -/
inductive Worker where
  | idle
  | taken (job : Job)
  | running (e : Eval)
  deriving DecidableEq, Repr

/-- Where the caller of `await_response` is. -/
inductive Consumer where
  | away
  | looping
  | asleep
  | draining (buf : Bytes) (parts : List Message)
  deriving DecidableEq, Repr

inductive Event where
  | started (e : Eval)
  | popped (m : Message)
  | returned (r : ResponseChunk) (parts : List Message)
  deriving DecidableEq, Repr

/-- The responses the caller has seen. -/
def responses (log : List Event) : List ResponseChunk :=
  log.filterMap fun
    | .returned r _ => some r
    | _ => none

structure State where
  t : Backend
  /-- `pending_cmd`. -/
  slot : Option Job
  worker : Worker
  ring : List Message
  consumer : Consumer
  evals : Nat
  log : List Event
  deriving DecidableEq, Repr

def start : State :=
  { t := create, slot := none, worker := .idle, ring := [], consumer := .away, evals := 0,
    log := [] }

/-- No await loop is in the middle of its work, so other fibers may run. -/
def Consumer.yielded : Consumer → Bool
  | .away => true
  | .asleep => true
  | _ => false

inductive Action where
  | submit (code : Bytes)
  | backgroundSubmit (code : Bytes)
  | initialised (output : Bytes)
  | await
  | cancel
  | loop
  | drain
  | take
  | reset
  | push (frame : Frame)
  | finish
  deriving DecidableEq, Repr

/-! ## Steps -/

/-- `rffi_submit` overwrites the slot. -/
def State.called (s : State) (r : Backend × Option Job) : State :=
  { s with t := r.1, slot := r.2.or s.slot }

def Outcome.consumer : Outcome → Consumer
  | .returned _ _ => .away
  | .again => .looping
  | .sleep => .asleep
  | .drain buf parts => .draining buf parts

def Outcome.events : Outcome → List Event
  | .returned r parts => [.returned r parts]
  | _ => []

def State.awaited (s : State) (a : Awaited) : State :=
  { s with
    t := a.t
    slot := a.submitted.or s.slot
    ring := a.ring
    consumer := a.outcome.consumer
    log := s.log ++ a.popped.toList.map .popped ++ a.outcome.events }

def doneFrame : Frame := ⟨kindDone, 0, []⟩

def step (cap : Nat) (s : State) : Action → Option State
  | .submit code =>
    if s.consumer.yielded then some (s.called (submit s.t code)) else none
  | .backgroundSubmit code =>
    if s.consumer.yielded then some (s.called (backgroundSubmit s.t code)) else none
  | .initialised output =>
    if s.consumer.yielded ∧ s.t.ready = false then some (s.called (initialised s.t output))
    else none
  | .await => if s.consumer = .away then some { s with consumer := .looping } else none
  | .cancel => if s.consumer = .asleep then some { s with consumer := .away } else none
  | .loop =>
    if s.consumer = .looping ∨ s.consumer = .asleep then some (s.awaited (awaitLoop s.t s.ring))
    else none
  | .drain =>
    match s.consumer with
    | .draining buf parts => some (s.awaited (awaitDrain s.t s.ring buf parts))
    | _ => none
  | .take =>
    match s.worker, s.slot with
    | .idle, some job => some { s with worker := .taken job, slot := none }
    | _, _ => none
  | .reset =>
    match s.worker with
    | .taken job =>
      let e : Eval := ⟨s.evals, job⟩
      some { s with
        worker := .running e, ring := [], evals := s.evals + 1, log := s.log ++ [.started e] }
    | _ => none
  | .push frame =>
    match s.worker with
    | .running e =>
      if frame.kind = kindDone then none
      else some { s with ring := pushMessage cap s.ring ⟨frame, e⟩ }
    | _ => none
  | .finish =>
    match s.worker with
    | .running e =>
      some { s with worker := .idle, ring := pushMessage cap s.ring ⟨doneFrame, e⟩ }
    | _ => none

def Steps (cap : Nat) (s : State) (a : Action) (s' : State) : Prop := step cap s a = some s'

/-! ## Eviction is the queue's -/

theorem makeRoom_evicts (cap need : Nat) (hneed : need ≤ cap) (q : List Message) :
    ∃ out, Ring.Evicts cap need (q.map Message.frame) out ((makeRoom cap need q).map Message.frame)
    := by
  induction q with
  | nil => exact ⟨[], .none (by simpa [makeRoom] using hneed)⟩
  | cons m q ih =>
    unfold makeRoom
    split
    · rename_i hroom
      exact ⟨[], .none hroom⟩
    · rename_i hfull
      obtain ⟨out, hout⟩ := ih
      exact ⟨m.frame :: out, .cons (by simpa using hfull) hout⟩

theorem pushMessage_step (cap : Nat) (q : List Message) (m : Message) (evicted : List Frame)
    (hlen : m.frame.payload.length < 2 ^ 32) :
    ∃ evicted', Ring.Fifo.Step cap ⟨q.map Message.frame, evicted⟩
      (.push m.frame.kind m.frame.flags ⟨m.frame.payload, hlen⟩) .pushed
      ⟨(pushMessage cap q m).map Message.frame, evicted'⟩ := by
  unfold pushMessage
  split
  · rename_i hfits
    obtain ⟨out, hout⟩ := makeRoom_evicts cap m.frame.size hfits q
    exact ⟨evicted ++ out, by simpa using Ring.Fifo.Step.push hfits hout⟩
  · rename_i hlarge
    exact ⟨evicted ++ q.map Message.frame,
      by simpa using Ring.Fifo.Step.pushTruncated (Nat.lt_of_not_le hlarge)⟩

theorem makeRoom_subset (cap need : Nat) (q : List Message) : makeRoom cap need q ⊆ q := by
  induction q with
  | nil => simp [makeRoom]
  | cons m q ih =>
    unfold makeRoom
    split
    · exact List.Subset.refl _
    · exact List.Subset.trans ih (List.subset_cons_self m q)

end Ffi
end Raoui
