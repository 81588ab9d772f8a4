import Raoui.Editor.HistoryRows
import Raoui.Ffi.Delivery
import Raoui.Ffi.Suppression

/-!
# Raoui.Main.Recording

`bin/main.ml`'s loop, as far as the history store goes: the backend of `Ffi.System`, the store that
`add_to_history`, `record_response` and `record_cancel` write to, and whether the loop is inside
`enter_passthrough`, where responses are dropped and no key is read.

The backend and the store share no identifier. Which submission an evaluation is of follows from
the order: the backend evaluates the user's submissions first in, first out.

* `Submission`: a ghost, what became of one submission so far.
* `step`: one action of the loop or of the worker.
* `started_fifo`: the order.
-/

namespace Raoui
namespace Main

open Ffi (Event Eval Job ResponseChunk Coupled Change Current Flushes)
open Transition (Run)

/-! ## States -/

/-- `row` is the command the store made of the submission: none for a blank one. `produced` is what
the worker pushed while evaluating it. -/
structure Submission where
  code : Bytes
  row : Option Nat
  produced : List ResponseChunk
  cancelled : Bool
  deriving DecidableEq, Repr

structure Session where
  ffi : Ffi.State
  history : History
  passthrough : Bool
  submissions : List Submission
  deriving DecidableEq, Repr

def start (db : History.Db) : Session :=
  { ffi := Ffi.start, history := History.init db, passthrough := false, submissions := [] }

def startsUser : Event → Bool
  | .started e => e.job.isUser
  | _ => false

def closesUser : Event → Bool
  | .popped m => m.isDone && m.owner.job.isUser
  | _ => false

/-- The user evaluations started. -/
def startedUsers (log : List Event) : Nat := log.countP startsUser

/-- The user evaluations of which the DONE has been popped. -/
def closedUsers (log : List Event) : Nat := log.countP closesUser

def Session.closed (s : Session) : Nat := closedUsers s.ffi.log

inductive Action where
  /-- Enter in the R or the shell mode, with the command it sends. -/
  | submit (mode : Bytes) (lines : List UnicodeString) (code : Bytes)
  /-- A query to the AI, or `q()`: a row without an evaluation. -/
  | note (mode : Bytes) (lines : List UnicodeString)
  /-- Ctrl-C, the effect `Cancel`. -/
  | cancel
  /-- A response of `Ai_backend.await_response`. -/
  | overhear (r : ResponseChunk)
  | ffi (a : Ffi.Action)
  deriving DecidableEq, Repr

/-! ## Steps -/

def isAi : ResponseChunk → Bool
  | .aiOutput _ | .aiToolCall _ | .aiSuggestion _ | .aiDone => true
  | _ => false

/-- A response of `Ffi_backend.await_response`: what `Update.update` or `passthrough_loop` does. -/
def Session.receive (s : Session) (r : ResponseChunk) : Session :=
  if s.passthrough then
    match r with
    | .passthroughEnd => { s with passthrough := false }
    | _ => s
  else
    match r with
    | .passthrough => { s with passthrough := true }
    | .passthroughEnd | .completions _ _ | .shutdown => s
    | _ => { s with history := s.history.recordResponse r }

/-- The responses the step has returned. -/
def returned (log log' : List Event) : List ResponseChunk :=
  (Ffi.responses log').drop (Ffi.responses log).length

/-- What a worker that evaluates a submission pushes is that submission's. -/
def Session.produces (s : Session) (a : Ffi.Action) : List Submission :=
  match s.ffi.worker, a.message with
  | .running e, some r =>
    if e.job.isUser then
      s.submissions.modify (startedUsers s.ffi.log - 1) fun sub =>
        { sub with produced := sub.produced ++ [r] }
    else s.submissions
  | _, _ => s.submissions

/-- The submission that Ctrl-C interrupts, if one is under way. -/
def Session.interrupts (s : Session) : List Submission :=
  if s.ffi.job.any Job.isUser then
    s.submissions.modify s.closed fun sub => { sub with cancelled := true }
  else s.submissions

def Session.submitted (s : Session) (ffi : Ffi.State) (mode : Bytes) (lines : List UnicodeString)
    (code : Bytes) : Session :=
  let history := s.history.addToHistory mode lines
  let row := if History.isBlank lines then none else history.activeCommandId
  { s with ffi, history, submissions := s.submissions ++ [⟨code, row, [], false⟩] }

def Session.moved (s : Session) (a : Ffi.Action) (ffi : Ffi.State) : Session :=
  (returned s.ffi.log ffi.log).foldl Session.receive { s with ffi, submissions := s.produces a }

/-- The actions that answer a key or a resize, which `passthrough_loop` does not wait for. -/
def Action.listens : Action → Bool
  | .ffi (.backgroundSubmit _) | .ffi .cancel => true
  | .ffi _ => false
  | _ => true

def act (cap : Nat) (s : Session) : Action → Option Session
  | .submit mode lines code =>
    (Ffi.step cap s.ffi (.submit code)).map fun ffi => s.submitted ffi mode lines code
  | .note mode lines =>
    if s.ffi.consumer.yielded then some { s with history := s.history.addToHistory mode lines }
    else none
  | .cancel =>
    if s.ffi.consumer.yielded then
      some { s with history := s.history.recordCancel, submissions := s.interrupts }
    else none
  | .overhear r =>
    if s.ffi.consumer.yielded ∧ isAi r then
      some { s with history := s.history.recordResponse r }
    else none
  | .ffi (.submit _) => none
  | .ffi a => (Ffi.step cap s.ffi a).map (s.moved a)

def step (cap : Nat) (s : Session) (a : Action) : Option Session :=
  if s.passthrough && a.listens then none else act cap s a

def Steps (cap : Nat) (s : Session) (a : Action) (s' : Session) : Prop := step cap s a = some s'

/-! ## What a step does -/

inductive Moves (cap : Nat) (s : Session) : Action → Session → Prop where
  | submit {mode code : Bytes} {lines : List UnicodeString} {ffi : Ffi.State}
      (listens : s.passthrough = false) (steps : Ffi.Steps cap s.ffi (.submit code) ffi) :
      Moves cap s (.submit mode lines code) (s.submitted ffi mode lines code)
  | note {mode : Bytes} {lines : List UnicodeString} (listens : s.passthrough = false) :
      Moves cap s (.note mode lines) { s with history := s.history.addToHistory mode lines }
  | cancel (listens : s.passthrough = false) :
      Moves cap s .cancel { s with history := s.history.recordCancel, submissions := s.interrupts }
  | overhear {r : ResponseChunk} (listens : s.passthrough = false) (ai : isAi r = true) :
      Moves cap s (.overhear r) { s with history := s.history.recordResponse r }
  | ffi {a : Ffi.Action} {ffi : Ffi.State} (steps : Ffi.Steps cap s.ffi a ffi)
      (unsubmitted : ∀ code, a ≠ .submit code) : Moves cap s (.ffi a) (s.moved a ffi)

variable {cap : Nat} {s s' : Session} {a : Action}

theorem Steps.moves (h : Steps cap s a s') : Moves cap s a s' := by
  simp only [Steps, step, Option.ite_none_left_eq_some, Bool.and_eq_true, not_and,
    Bool.not_eq_true] at h
  obtain ⟨hl, h⟩ := h
  have hlistens (ha : a.listens = true) : s.passthrough = false := by
    cases hp : s.passthrough with
    | false => rfl
    | true =>
      rw [hl hp] at ha
      cases ha
  cases a with
  | submit mode lines code =>
    simp only [act, Option.map_eq_some_iff] at h
    obtain ⟨ffi, hffi, rfl⟩ := h
    exact .submit (hlistens rfl) hffi
  | note mode lines =>
    simp only [act, Option.ite_none_right_eq_some, Option.some.injEq] at h
    obtain ⟨-, rfl⟩ := h
    exact .note (hlistens rfl)
  | cancel =>
    simp only [act, Option.ite_none_right_eq_some, Option.some.injEq] at h
    obtain ⟨-, rfl⟩ := h
    exact .cancel (hlistens rfl)
  | overhear r =>
    simp only [act, Option.ite_none_right_eq_some, Option.some.injEq] at h
    obtain ⟨⟨-, hai⟩, rfl⟩ := h
    exact .overhear (hlistens rfl) hai
  | ffi a =>
    cases a
    case submit => cases h
    all_goals
      simp only [act, Option.map_eq_some_iff] at h
      obtain ⟨ffi, hffi, rfl⟩ := h
      exact .ffi hffi nofun

theorem receive_frame (s : Session) (r : ResponseChunk) :
    (s.receive r).ffi = s.ffi ∧ (s.receive r).submissions = s.submissions := by
  unfold Session.receive
  split <;> split <;> exact ⟨rfl, rfl⟩

theorem receives_frame (rs : List ResponseChunk) (s : Session) :
    (rs.foldl Session.receive s).ffi = s.ffi ∧
      (rs.foldl Session.receive s).submissions = s.submissions := by
  induction rs generalizing s with
  | nil => exact ⟨rfl, rfl⟩
  | cons r rs ih =>
    obtain ⟨hffi, hsub⟩ := ih (s.receive r)
    obtain ⟨hffi', hsub'⟩ := receive_frame s r
    exact ⟨hffi.trans hffi', hsub.trans hsub'⟩

theorem moved_ffi (s : Session) (a : Ffi.Action) (ffi : Ffi.State) :
    (s.moved a ffi).ffi = ffi := (receives_frame _ _).1

theorem moved_submissions (s : Session) (a : Ffi.Action) (ffi : Ffi.State) :
    (s.moved a ffi).submissions = s.produces a := (receives_frame _ _).2

/-! ## First in, first out -/

def userCode : Job → Option Bytes
  | .user code => some code
  | .background _ => none

/-- The codes of the user evaluations started, in order. -/
def startedCodes (log : List Event) : List Bytes :=
  log.filterMap fun
    | .started e => userCode e.job
    | _ => none

def waitingCode : Current → List Bytes
  | .waiting job => (userCode job).toList
  | _ => []

/-- The codes that have reached the backend: started, handed over and queued. -/
def reachedCodes (s : Ffi.State) (cur : Current) : List Bytes :=
  startedCodes s.log ++ waitingCode cur ++ s.t.pending.filterMap userCode

theorem Flushes.codes {t : Ffi.Backend} {r : Ffi.Backend × Option Job} {cur : Current}
    (h : Flushes t r cur) :
    waitingCode cur ++ r.1.pending.filterMap userCode = t.pending.filterMap userCode := by
  cases h with
  | rest hp => rfl
  | @next job rest hp =>
    rw [hp]
    cases job <;> rfl

theorem startedCodes_append (log log' : List Event) :
    startedCodes (log ++ log') = startedCodes log ++ startedCodes log' := List.filterMap_append

theorem startedCodes_awaited (s : Ffi.State) (aw : Ffi.Awaited) :
    startedCodes (s.awaited aw).log = startedCodes s.log := by
  have hpop : startedCodes (aw.popped.toList.map .popped) = [] := by
    cases aw.popped <;> rfl
  have hout : startedCodes aw.outcome.events = [] := by
    cases aw.outcome <;> rfl
  show startedCodes (s.log ++ aw.popped.toList.map .popped ++ aw.outcome.events) = _
  rw [startedCodes_append, startedCodes_append, hpop, hout, List.append_nil, List.append_nil]

/-- A step of the backend adds a submission at the end, and loses and reorders none. -/
theorem Change.codes {s s' : Ffi.State} {cur cur' : Current} {a : Ffi.Action}
    (h : Change cap s cur a s' cur') :
    reachedCodes s' cur' = reachedCodes s cur ++ (a.job.bind userCode).toList := by
  cases h with
  | @queued _ _ job _ submits =>
    rw [submits]
    show _ ++ (s.t.pending ++ [job]).filterMap userCode = _
    rw [List.filterMap_append, ← List.append_assoc]
    cases job <;> rfl
  | @handed _ job _ submits _ pending =>
    rw [submits]
    simp only [reachedCodes, pending, waitingCode, List.append_nil, List.filterMap_nil]
    rfl
  | opened _ _ _ flush =>
    show startedCodes s.log ++ _ ++ _ = _
    rw [List.append_assoc, Flushes.codes flush]
    simp [reachedCodes, waitingCode, Ffi.Action.job]
  | called calls =>
    rcases calls with rfl | rfl <;> exact (List.append_nil _).symm
  | pumped pumps round unclosed =>
    rw [show a.job = none by rcases pumps with rfl | rfl <;> rfl]
    show startedCodes (s.awaited _).log ++ _ ++ _ = _
    rw [startedCodes_awaited, show (s.awaited _).t.pending = s.t.pending from
      (round.frame unclosed).2.1]
    exact (List.append_nil _).symm
  | @closed m r _ _ _ _ _ _ flush =>
    show startedCodes (s.awaited _).log ++ _ ++ r.1.pending.filterMap userCode = _
    rw [startedCodes_awaited, List.append_assoc, Flushes.codes flush]
    simp [reachedCodes, waitingCode, Ffi.Action.job]
  | took => exact (List.append_nil _).symm
  | @started job =>
    simp only [reachedCodes, startedCodes_append, waitingCode, Ffi.Action.job, Option.bind_none,
      Option.toList_none, List.append_nil]
    cases job <;> rfl
  | pushed => exact (List.append_nil _).symm
  | finished => exact (List.append_nil _).symm

theorem modify_code {sub : Submission → Submission} (h : ∀ x, (sub x).code = x.code)
    (i : Nat) (subs : List Submission) :
    (subs.modify i sub).map Submission.code = subs.map Submission.code := by
  induction subs generalizing i with
  | nil => cases i <;> rfl
  | cons x subs ih =>
    cases i with
    | zero => simp [h]
    | succ i => simp [ih]

theorem produces_code (s : Session) (a : Ffi.Action) :
    (s.produces a).map Submission.code = s.submissions.map Submission.code := by
  unfold Session.produces
  split
  · split
    · refine modify_code ?_ _ _
      exact fun _ => rfl
    · rfl
  · rfl

theorem interrupts_code (s : Session) :
    s.interrupts.map Submission.code = s.submissions.map Submission.code := by
  unfold Session.interrupts
  split
  · refine modify_code ?_ _ _
    exact fun _ => rfl
  · rfl

/-- The submissions are what has reached the backend, in order. -/
def Ordered (s : Session) : Prop :=
  ∃ cur, Coupled s.ffi cur ∧ s.submissions.map Submission.code = reachedCodes s.ffi cur

theorem ordered_start (db : History.Db) : Ordered (start db) := ⟨_, Ffi.coupled_start, rfl⟩

theorem Ordered.step (h : Ordered s) (hs : Steps cap s a s') : Ordered s' := by
  obtain ⟨cur, hc, horder⟩ := h
  cases hs.moves with
  | @submit _ _ _ ffi _ steps =>
    obtain ⟨cur', hc', hch⟩ := hc.step steps
    refine ⟨cur', hc', ?_⟩
    show (s.submissions ++ [_]).map Submission.code = reachedCodes ffi cur'
    rw [Change.codes hch, List.map_append, horder]
    rfl
  | note => exact ⟨cur, hc, horder⟩
  | cancel => exact ⟨cur, hc, (interrupts_code s).trans horder⟩
  | overhear => exact ⟨cur, hc, horder⟩
  | @ffi a ffi steps unsubmitted =>
    obtain ⟨cur', hc', hch⟩ := hc.step steps
    refine ⟨cur', by rw [moved_ffi]; exact hc', ?_⟩
    have hnone : a.job.bind userCode = none := by
      cases a with
      | submit code => exact absurd rfl (unsubmitted code)
      | _ => rfl
    rw [moved_submissions, moved_ffi, produces_code, horder, Change.codes hch, hnone,
      Option.toList_none, List.append_nil]

/-- In every run the evaluations of the user's submissions are started in the order of the
submissions: the `n`-th one started is of the `n`-th submission. -/
theorem started_fifo {db : History.Db} {as : List Action} (h : Run (Steps cap) (start db) as s) :
    startedCodes s.ffi.log <+: s.submissions.map Submission.code := by
  obtain ⟨cur, -, horder⟩ := Run.invariant (fun hi hs => hi.step hs) (ordered_start db) h
  rw [horder, reachedCodes, List.append_assoc]
  exact List.prefix_append _ _

end Main
end Raoui
