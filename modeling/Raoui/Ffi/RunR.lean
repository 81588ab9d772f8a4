import Mathlib.Logic.Function.Basic
import Raoui.Base
import Raoui.Lib.Service

/-!
# Raoui.Ffi.RunR

The hand-over of sandboxed evaluations in `load_r.c`: `rffi_run_r_sandboxed`, called from any number
of threads, and the part of the worker that serves it. A section under `cmd_mutex` is one step, for
the mutex is given up only in `pthread_cond_wait`; `runr_call_mutex` is held from the first step of a
call to its last.

* `Stage`: what the variables and the threads look like while a call is under way.
* `Stage.post`, `Stage.take`, ...: each move keeps it, and extends the serial history of calls.
-/

namespace Raoui
namespace RunR

/-- Where a thread is in `rffi_run_r_sandboxed`. -/
inductive Caller where
  | away
  /-- Waits for `runr_call_mutex`. -/
  | entering (code : Bytes)
  /-- Holds it, and has yet to fill the slot. -/
  | posting (code : Bytes)
  /-- In the `while (!runr_done)` loop, asleep or about to look again. -/
  | waiting (code : Bytes)
  /-- Out of the loop with `res`, and has yet to give `runr_call_mutex` back. -/
  | leaving (code : Bytes) (res : Option Bytes)
  deriving DecidableEq, Repr

/-- The worker's part in a call: evaluating the code in the child, or about to publish. -/
inductive Serving where
  | sandboxing (code : Bytes)
  | publishing (out : Bytes)
  deriving DecidableEq, Repr

abbrev Event (ι : Type) := Service.Event ι Bytes (Option Bytes)

abbrev Phase (ι : Type) := Service.Phase ι Bytes (Option Bytes)

structure Channel (ι : Type) where
  pendingRunr : Option Bytes
  runrDone : Bool
  runrResult : Option Bytes
  /-- Who holds `runr_call_mutex`. -/
  callLock : Option ι
  /-- Who sleeps on `runr_done_cond`. -/
  sleepers : List ι
  callers : ι → Caller

namespace Channel

variable {ι : Type} [DecidableEq ι]

def idle : Channel ι :=
  { pendingRunr := none, runrDone := false, runrResult := none, callLock := none, sleepers := [],
    callers := fun _ => .away }

def goto (c : Channel ι) (i : ι) (p : Caller) : Channel ι :=
  { c with callers := Function.update c.callers i p }

/-! ## `rffi_run_r_sandboxed`, up to the next point where it can wait -/

def call (c : Channel ι) (i : ι) (code : Bytes) : Option (Channel ι) :=
  if c.callers i = .away then some (c.goto i (.entering code)) else none

/-- `pthread_mutex_lock(&runr_call_mutex)`. -/
def acquire (c : Channel ι) (i : ι) : Option (Channel ι) :=
  match c.callers i, c.callLock with
  | .entering code, none => some { c.goto i (.posting code) with callLock := some i }
  | _, _ => none

/-- Fills the slot, clears the result and falls asleep, since `runr_done` has just been cleared. -/
def post (c : Channel ι) (i : ι) : Option (Channel ι × List (Event ι)) :=
  match c.callers i with
  | .posting code =>
    some ({ c.goto i (.waiting code) with
      pendingRunr := some code, runrDone := false, runrResult := none,
      sleepers := c.sleepers ++ [i] }, [.posted i code])
  | _ => none

/-- A wake-up that no signal caused. -/
def wake (c : Channel ι) (i : ι) : Option (Channel ι) :=
  if i ∈ c.sleepers then some { c with sleepers := c.sleepers.erase i } else none

/-- `while (!runr_done)` after a wake-up: take the result, or sleep again. -/
def test (c : Channel ι) (i : ι) : Option (Channel ι) :=
  match c.callers i with
  | .waiting code =>
    if i ∈ c.sleepers then none
    else if c.runrDone then some { c.goto i (.leaving code c.runrResult) with runrResult := none }
    else some { c with sleepers := c.sleepers ++ [i] }
  | _ => none

/-- `pthread_mutex_unlock(&runr_call_mutex)` and the return. -/
def leave (c : Channel ι) (i : ι) : Option (Channel ι × List (Event ι)) :=
  match c.callers i with
  | .leaving code res => some ({ c.goto i .away with callLock := none }, [.handed i code res])
  | _ => none

/-! ## The worker's side -/

/-- Takes the code out of the slot. -/
def take (c : Channel ι) : Channel ι := { c with pendingRunr := none }

/-- `runr_result = out; runr_done = 1;` and the signal, which wakes the sleeper number `k`. -/
def publish (c : Channel ι) (out : Bytes) (k : Nat) : Option (Channel ι) :=
  if c.sleepers = [] ∨ k < c.sleepers.length then
    some { c with
      runrResult := some out, runrDone := true, sleepers := c.sleepers.eraseIdx k }
  else none

/-! ## When a move is possible -/

theorem acquire_of_entering {c : Channel ι} {i : ι} {code : Bytes}
    (h : c.callers i = .entering code) (hlock : c.callLock = none) :
    c.acquire i = some { c.goto i (.posting code) with callLock := some i } := by
  simp only [acquire, h, hlock]

theorem post_of_posting {c : Channel ι} {i : ι} {code : Bytes} (h : c.callers i = .posting code) :
    c.post i = some ({ c.goto i (.waiting code) with
      pendingRunr := some code, runrDone := false, runrResult := none,
      sleepers := c.sleepers ++ [i] }, [.posted i code]) := by
  simp only [post, h]

theorem test_of_done {c : Channel ι} {i : ι} {code : Bytes} (h : c.callers i = .waiting code)
    (hawake : i ∉ c.sleepers) (hdone : c.runrDone = true) :
    c.test i = some { c.goto i (.leaving code c.runrResult) with runrResult := none } := by
  simp only [test, h, if_neg hawake, if_pos hdone]

theorem leave_of_leaving {c : Channel ι} {i : ι} {code : Bytes} {res : Option Bytes}
    (h : c.callers i = .leaving code res) :
    c.leave i = some ({ c.goto i .away with callLock := none }, [.handed i code res]) := by
  simp only [leave, h]

omit [DecidableEq ι] in
theorem publish_first (c : Channel ι) (out : Bytes) :
    c.publish out 0 = some { c with
      runrResult := some out, runrDone := true, sleepers := c.sleepers.eraseIdx 0 } := by
  refine if_pos ?_
  cases c.sleepers with
  | nil => exact .inl rfl
  | cons j js => exact .inr (Nat.succ_pos _)

end Channel

/-! ## What is under way -/

/-- A thread that neither holds `runr_call_mutex` nor sleeps. -/
def Caller.outside : Caller → Bool
  | .away => true
  | .entering _ => true
  | _ => false

variable {ι : Type} [DecidableEq ι]

/-- Only `i` is inside the function's critical part, and only `i` may sleep. -/
structure Alone (c : Channel ι) (i : ι) : Prop where
  lock : c.callLock = some i
  others : ∀ j, j ≠ i → (c.callers j).outside = true
  sleepers : c.sleepers = [] ∨ c.sleepers = [i]

inductive Stage (c : Channel ι) : Option Serving → Phase ι → Prop where
  | free (lock : c.callLock = none) (callers : ∀ j, (c.callers j).outside = true)
      (slot : c.pendingRunr = none) (sleepers : c.sleepers = []) : Stage c none .free
  | posting {i : ι} {code : Bytes} (alone : Alone c i) (here : c.callers i = .posting code)
      (slot : c.pendingRunr = none) (awake : c.sleepers = []) : Stage c none .free
  | posted {i : ι} {code : Bytes} (alone : Alone c i) (here : c.callers i = .waiting code)
      (slot : c.pendingRunr = some code) (undone : c.runrDone = false) :
      Stage c none (.posted i code)
  | sandboxing {i : ι} {code : Bytes} (alone : Alone c i) (here : c.callers i = .waiting code)
      (slot : c.pendingRunr = none) (undone : c.runrDone = false) :
      Stage c (some (.sandboxing code)) (.posted i code)
  | publishing {i : ι} {code out : Bytes} (alone : Alone c i) (here : c.callers i = .waiting code)
      (slot : c.pendingRunr = none) (undone : c.runrDone = false) :
      Stage c (some (.publishing out)) (.ran i code (some out))
  | done {i : ι} {code out : Bytes} (alone : Alone c i) (here : c.callers i = .waiting code)
      (slot : c.pendingRunr = none) (isDone : c.runrDone = true) (result : c.runrResult = some out)
      (awake : c.sleepers = []) : Stage c none (.ran i code (some out))
  | leaving {i : ι} {code out : Bytes} (alone : Alone c i)
      (here : c.callers i = .leaving code (some out)) (slot : c.pendingRunr = none)
      (awake : c.sleepers = []) : Stage c none (.ran i code (some out))

/-! ## Each move keeps the stage -/

theorem Channel.goto_callers (c : Channel ι) (i : ι) (p : Caller) (j : ι) :
    (c.goto i p).callers j = if j = i then p else c.callers j := by
  simp [Channel.goto, Function.update_apply]

theorem Channel.goto_self (c : Channel ι) (i : ι) (p : Caller) : (c.goto i p).callers i = p := by
  simp [Channel.goto]

theorem Channel.goto_of_ne (c : Channel ι) {i j : ι} (p : Caller) (h : j ≠ i) :
    (c.goto i p).callers j = c.callers j := by
  simp [Channel.goto, h]

/-- The threads other than `i` do not notice what `i` does. -/
theorem Alone.moved {c c' : Channel ι} {i : ι} (h : Alone c i) {p : Caller}
    (hcallers : c'.callers = (c.goto i p).callers) (hlock : c'.callLock = c.callLock)
    (hsleepers : c'.sleepers = [] ∨ c'.sleepers = [i]) : Alone c' i where
  lock := hlock.trans h.lock
  others := by
    intro j hj
    rw [hcallers, c.goto_of_ne p hj]
    exact h.others j hj
  sleepers := hsleepers

theorem Alone.goto_outside {c : Channel ι} {i j : ι} (h : Alone c i) {p : Caller}
    (hp : p.outside = true) : Alone (c.goto j p) i where
  lock := h.lock
  others := by
    intro k hk
    rw [c.goto_callers]
    split
    · exact hp
    · exact h.others k hk
  sleepers := h.sleepers

theorem Stage.goto_outside {c : Channel ι} {srv : Option Serving} {ph : Phase ι} {j : ι}
    {p : Caller} (h : Stage c srv ph) (hj : (c.callers j).outside = true)
    (hp : p.outside = true) : Stage (c.goto j p) srv ph := by
  -- whoever is inside is not `j`
  have hne : ∀ {i : ι} {q : Caller}, c.callers i = q → q.outside = false → i ≠ j := by
    rintro i q hq hout rfl
    rw [hq, hout] at hj
    cases hj
  cases h with
  | free lock callers slot sleepers =>
    refine .free lock (fun k => ?_) slot sleepers
    rw [c.goto_callers]
    split
    · exact hp
    · exact callers k
  | posting alone here slot awake =>
    have hij := hne here rfl
    exact .posting (alone.goto_outside hp) ((c.goto_of_ne p hij).trans here) slot awake
  | posted alone here slot undone =>
    have hij := hne here rfl
    exact .posted (alone.goto_outside hp) ((c.goto_of_ne p hij).trans here) slot undone
  | sandboxing alone here slot undone =>
    have hij := hne here rfl
    exact .sandboxing (alone.goto_outside hp) ((c.goto_of_ne p hij).trans here) slot
      undone
  | publishing alone here slot undone =>
    have hij := hne here rfl
    exact .publishing (alone.goto_outside hp) ((c.goto_of_ne p hij).trans here) slot
      undone
  | done alone here slot isDone result awake =>
    have hij := hne here rfl
    exact .done (alone.goto_outside hp) ((c.goto_of_ne p hij).trans here) slot isDone
      result awake
  | leaving alone here slot awake =>
    have hij := hne here rfl
    exact .leaving (alone.goto_outside hp) ((c.goto_of_ne p hij).trans here) slot awake

/-- A thread that is inside is the one the stage is about. -/
theorem Alone.eq_of_inside {c : Channel ι} {i j : ι} (h : Alone c i)
    (hj : (c.callers j).outside = false) : j = i := by
  refine Decidable.byContradiction fun hne => ?_
  rw [h.others j hne] at hj
  cases hj

omit [DecidableEq ι] in
/-- Only the holder of `runr_call_mutex` is inside. -/
theorem Stage.outside_of_lock {c : Channel ι} {srv : Option Serving} {ph : Phase ι} {i j : ι}
    (h : Stage c srv ph) (hlock : c.callLock = some j) (hij : i ≠ j) :
    (c.callers i).outside = true := by
  cases h with
  | free lock callers => exact callers i
  | posting alone | posted alone | sandboxing alone | publishing alone
  | done alone | leaving alone =>
    cases alone.lock.symm.trans hlock
    exact alone.others i hij

omit [DecidableEq ι] in
theorem Stage.outside_of_free {c : Channel ι} {srv : Option Serving} {ph : Phase ι}
    (h : Stage c srv ph) (hlock : c.callLock = none) (i : ι) :
    (c.callers i).outside = true := by
  cases h with
  | free lock callers => exact callers i
  | posting alone | posted alone | sandboxing alone | publishing alone
  | done alone | leaving alone => cases alone.lock.symm.trans hlock

theorem Stage.call {c c' : Channel ι} {srv : Option Serving} {ph : Phase ι} {i : ι} {code : Bytes}
    (h : Stage c srv ph) (hc : c.call i code = some c') : Stage c' srv ph := by
  simp only [Channel.call, Option.ite_none_right_eq_some, Option.some.injEq] at hc
  obtain ⟨haway, rfl⟩ := hc
  exact h.goto_outside (by rw [haway]; rfl) rfl

theorem Stage.acquire {c c' : Channel ι} {srv : Option Serving} {ph : Phase ι} {i : ι}
    (h : Stage c srv ph) (hc : c.acquire i = some c') : Stage c' srv ph := by
  unfold Channel.acquire at hc
  split at hc
  · rename_i code hhere hlock
    cases hc
    cases h with
    | free lock callers slot sleepers =>
      refine .posting ⟨rfl, fun j hj => ?_, .inl sleepers⟩ (c.goto_self i _) slot sleepers
      exact (congrArg Caller.outside (c.goto_of_ne _ hj)).trans (callers j)
    | posting alone | posted alone | sandboxing alone | publishing alone
    | done alone | leaving alone =>
      rw [alone.lock] at hlock
      cases hlock
  · cases hc

theorem Stage.post {c c' : Channel ι} {srv : Option Serving} {ph : Phase ι} {i : ι}
    {events : List (Event ι)} {log : List (Event ι)} (h : Stage c srv ph)
    (hlog : Service.InPhase log ph) (hc : c.post i = some (c', events)) :
    ∃ ph', Stage c' srv ph' ∧ Service.InPhase (log ++ events) ph' := by
  unfold Channel.post at hc
  split at hc
  · rename_i code hhere
    cases hc
    have hinside : (c.callers i).outside = false := by rw [hhere]; rfl
    cases h with
    | free lock callers slot sleepers =>
      rw [callers i] at hinside
      cases hinside
    | posting alone here slot awake =>
      cases alone.eq_of_inside hinside
      refine ⟨_, .posted (alone.moved rfl rfl (.inr ?_)) (c.goto_self i _) rfl rfl, hlog.post i code⟩
      simp [awake]
    | posted alone here | sandboxing alone here | publishing alone here
    | done alone here | leaving alone here =>
      cases alone.eq_of_inside hinside
      rw [hhere] at here
      cases here
  · cases hc

/-- With one sleeper at most, taking one off the list leaves none or the same. -/
theorem Alone.erase_sleepers {c : Channel ι} {i : ι} (h : Alone c i) (j : ι) :
    c.sleepers.erase j = [] ∨ c.sleepers.erase j = [i] := by
  obtain hs | hs := h.sleepers
  · exact .inl (by rw [hs]; rfl)
  · by_cases hj : j = i
    · subst hj
      exact .inl (by rw [hs]; exact List.erase_cons_head ..)
    · refine .inr ?_
      rw [hs, List.erase_of_not_mem]
      simpa using hj

theorem Stage.wake {c c' : Channel ι} {srv : Option Serving} {ph : Phase ι} {i : ι}
    (h : Stage c srv ph) (hc : c.wake i = some c') : Stage c' srv ph := by
  simp only [Channel.wake, Option.ite_none_right_eq_some, Option.some.injEq] at hc
  obtain ⟨hmem, rfl⟩ := hc
  cases h with
  | free _ _ _ awake | posting _ _ _ awake | done _ _ _ _ _ awake | leaving _ _ _ awake =>
    rw [awake] at hmem
    cases hmem
  | posted alone here slot undone =>
    exact .posted ⟨alone.lock, alone.others, alone.erase_sleepers i⟩ here slot undone
  | sandboxing alone here slot undone =>
    exact .sandboxing ⟨alone.lock, alone.others, alone.erase_sleepers i⟩ here slot undone
  | publishing alone here slot undone =>
    exact .publishing ⟨alone.lock, alone.others, alone.erase_sleepers i⟩ here slot undone

omit [DecidableEq ι] in
/-- A waiting thread that is awake while nobody sleeps may go to sleep. -/
theorem Alone.sleep {c : Channel ι} {i : ι} (h : Alone c i) (hi : i ∉ c.sleepers) :
    Alone { c with sleepers := c.sleepers ++ [i] } i where
  lock := h.lock
  others := h.others
  sleepers := by
    obtain hs | hs := h.sleepers
    · exact .inr (by simp [hs])
    · simp [hs] at hi

theorem Stage.test {c c' : Channel ι} {srv : Option Serving} {ph : Phase ι} {i : ι}
    (h : Stage c srv ph) (hc : c.test i = some c') : Stage c' srv ph := by
  unfold Channel.test at hc
  split at hc
  · rename_i code hhere
    have hinside : (c.callers i).outside = false := by rw [hhere]; rfl
    split at hc
    · cases hc
    · rename_i hawake
      cases h with
      | free lock callers slot sleepers =>
        rw [callers i] at hinside
        cases hinside
      | posting alone here | leaving alone here =>
        cases alone.eq_of_inside hinside
        rw [hhere] at here
        cases here
      | posted alone here slot undone =>
        cases alone.eq_of_inside hinside
        rw [if_neg (by rw [undone]; decide)] at hc
        cases hc
        exact .posted (alone.sleep hawake) here slot undone
      | sandboxing alone here slot undone =>
        cases alone.eq_of_inside hinside
        rw [if_neg (by rw [undone]; decide)] at hc
        cases hc
        exact .sandboxing (alone.sleep hawake) here slot undone
      | publishing alone here slot undone =>
        cases alone.eq_of_inside hinside
        rw [if_neg (by rw [undone]; decide)] at hc
        cases hc
        exact .publishing (alone.sleep hawake) here slot undone
      | done alone here slot isDone result awake =>
        cases alone.eq_of_inside hinside
        rw [hhere] at here
        cases here
        rw [if_pos isDone, result] at hc
        cases hc
        exact .leaving (alone.moved rfl rfl (.inl awake)) (c.goto_self i _) slot awake
  · cases hc

theorem Stage.leave {c c' : Channel ι} {srv : Option Serving} {ph : Phase ι} {i : ι}
    {events log : List (Event ι)} (h : Stage c srv ph) (hlog : Service.InPhase log ph)
    (hc : c.leave i = some (c', events)) :
    Stage c' srv .free ∧ Service.InPhase (log ++ events) .free := by
  unfold Channel.leave at hc
  split at hc
  · rename_i code res hhere
    cases hc
    have hinside : (c.callers i).outside = false := by rw [hhere]; rfl
    cases h with
    | free lock callers slot sleepers =>
      rw [callers i] at hinside
      cases hinside
    | posting alone here | posted alone here | sandboxing alone here | publishing alone here
    | done alone here =>
      cases alone.eq_of_inside hinside
      rw [hhere] at here
      cases here
    | leaving alone here slot awake =>
      cases alone.eq_of_inside hinside
      rw [hhere] at here
      cases here
      refine ⟨.free rfl (fun j => ?_) slot awake, hlog.hand⟩
      by_cases hj : j = i
      · subst hj
        exact congrArg Caller.outside (c.goto_self j _)
      · exact (congrArg Caller.outside (c.goto_of_ne _ hj)).trans (alone.others j hj)
  · cases hc

omit [DecidableEq ι] in
/-- What the worker finds in the slot is the code of the caller that waits for it. -/
theorem Stage.take {c : Channel ι} {ph : Phase ι} {code : Bytes} (h : Stage c none ph)
    (hslot : c.pendingRunr = some code) : Stage c.take (some (.sandboxing code)) ph := by
  cases h with
  | free _ _ slot | posting _ _ slot | done _ _ slot | leaving _ _ slot =>
    rw [slot] at hslot
    cases hslot
  | posted alone here slot undone =>
    rw [slot] at hslot
    cases hslot
    exact .sandboxing ⟨alone.lock, alone.others, alone.sleepers⟩ here rfl undone

omit [DecidableEq ι] in
theorem Stage.sandboxed {c : Channel ι} {ph : Phase ι} {code : Bytes} {log : List (Event ι)}
    (h : Stage c (some (.sandboxing code)) ph) (hlog : Service.InPhase log ph) (out : Bytes) :
    ∃ ph', Stage c (some (.publishing out)) ph' ∧
      Service.InPhase (log ++ [.ran code (some out)]) ph' := by
  cases h with
  | sandboxing alone here slot undone =>
    exact ⟨_, .publishing alone here slot undone, hlog.run (some out)⟩

omit [DecidableEq ι] in
theorem Stage.publish {c c' : Channel ι} {ph : Phase ι} {out : Bytes} {k : Nat}
    (h : Stage c (some (.publishing out)) ph) (hc : c.publish out k = some c') :
    Stage c' none ph := by
  simp only [Channel.publish, Option.ite_none_right_eq_some, Option.some.injEq] at hc
  obtain ⟨hk, rfl⟩ := hc
  cases h with
  | publishing alone here slot undone =>
    -- the one thread that can sleep is the one the signal wakes
    have hawake : c.sleepers.eraseIdx k = [] := by
      obtain hs | hs := alone.sleepers
      · rw [hs, List.eraseIdx_nil]
      · rw [hs] at hk ⊢
        have hk0 : k = 0 := by simpa using hk
        rw [hk0]
        rfl
    exact .done ⟨alone.lock, alone.others, .inl hawake⟩ here slot rfl rfl hawake

end RunR
end Raoui
