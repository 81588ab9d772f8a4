import Raoui.Ffi.Worker

/-!
# Raoui.Ffi.Served

What becomes of the calls of `rffi_run_r_sandboxed`, over every run of the worker and its callers.

* `runR_serial`: the calls are served one after the other, each with the output of its own code.
* `calling_step`: some step always brings the call under way nearer its end.
* `sandboxed_returns`: so every call can return, until a shutdown takes the worker away.
-/

namespace Raoui
namespace Worker

open Raoui.RunR (Channel Serving)

variable {ι : Type} [DecidableEq ι]

/-! ## Sandboxed evaluations -/

def runREvents : List (Event ι) → List (RunR.Event ι)
  | [] => []
  | .runR e :: log => e :: runREvents log
  | .requested _ :: log => runREvents log
  | .took _ :: log => runREvents log
  | .queried _ :: log => runREvents log

omit [DecidableEq ι] in
@[simp] theorem runREvents_append (l l' : List (Event ι)) :
    runREvents (l ++ l') = runREvents l ++ runREvents l' := by
  induction l with
  | nil => rfl
  | cons e l ih => cases e <;> simp [runREvents, ih]

omit [DecidableEq ι] in
@[simp] theorem runREvents_runR (es : List (RunR.Event ι)) :
    runREvents (es.map Event.runR) = es := by
  induction es with
  | nil => rfl
  | cons e es ih => simp [runREvents, ih]

/-- The call under way is at some stage, and the history of calls is serial up to it. -/
def Served (s : State ι) : Prop :=
  ∃ ph, RunR.Stage s.runr s.worker.serves ph ∧ Service.InPhase (runREvents s.log) ph

omit [DecidableEq ι] in
/-- What has nothing to do with `run_r`. -/
theorem Served.frame {s s' : State ι} (h : Served s) (hrunr : s'.runr = s.runr)
    (hworker : s'.worker.serves = s.worker.serves)
    (hlog : runREvents s'.log = runREvents s.log) : Served s' := by
  obtain ⟨ph, hstage, hphase⟩ := h
  exact ⟨ph, by rw [hrunr, hworker]; exact hstage, by rw [hlog]; exact hphase⟩

omit [DecidableEq ι] in
theorem Served.dispatch {s : State ι} (h : Served s) (hidle : s.worker.serves = none) :
    Served s.dispatch := by
  unfold State.dispatch
  split
  · exact h.frame rfl hidle.symm (by simp [runREvents])
  · split
    · rename_i code hslot
      obtain ⟨ph, hstage, hphase⟩ := h
      rw [hidle] at hstage
      exact ⟨ph, hstage.take hslot, hphase⟩
    · split
      · exact h.frame rfl hidle.symm (by simp [runREvents])
      · split
        · exact h.frame rfl hidle.symm (by simp [runREvents])
        · exact h.frame rfl hidle.symm rfl

omit [DecidableEq ι] in
/-- A move of a caller that makes no event. -/
theorem Served.withRunR {s s' : State ι} {r : Option (Channel ι)} (h : Served s)
    (hstage : ∀ {c srv ph}, RunR.Stage s.runr srv ph → r = some c → RunR.Stage c srv ph)
    (hs : r.map s.withRunR = some s') : Served s' := by
  obtain ⟨c, hc, rfl⟩ := Option.map_eq_some_iff.mp hs
  obtain ⟨ph, hst, hphase⟩ := h
  exact ⟨ph, hstage hst hc, hphase⟩

theorem step_served {cap : Nat} {s s' : State ι} {a : Action ι} (h : Served s)
    (hs : Steps cap s a s') : Served s' := by
  unfold Steps step at hs
  cases a with
  | submit code => cases hs; exact h.frame rfl rfl rfl
  | requestCompletions line cursorPos => cases hs; exact h.frame rfl rfl (by simp [runREvents])
  | requestColumns object => cases hs; exact h.frame rfl rfl (by simp [runREvents])
  | shutdown => cases hs; exact h.frame rfl rfl rfl
  | pop => cases hs; exact h.frame rfl rfl rfl
  | call i code => exact h.withRunR (fun hst hc => hst.call hc) hs
  | acquire i => exact h.withRunR (fun hst hc => hst.acquire hc) hs
  | wake i => exact h.withRunR (fun hst hc => hst.wake hc) hs
  | test i => exact h.withRunR (fun hst hc => hst.test hc) hs
  | post i =>
    obtain ⟨⟨c, events⟩, hc, rfl⟩ := Option.map_eq_some_iff.mp hs
    obtain ⟨ph, hstage, hphase⟩ := h
    obtain ⟨ph', hstage', hphase'⟩ := hstage.post hphase hc
    exact ⟨ph', hstage', by simpa [State.withRunREvents] using hphase'⟩
  | leave i =>
    obtain ⟨⟨c, events⟩, hc, rfl⟩ := Option.map_eq_some_iff.mp hs
    obtain ⟨ph, hstage, hphase⟩ := h
    obtain ⟨hstage', hphase'⟩ := hstage.leave hphase hc
    exact ⟨.free, hstage', by simpa [State.withRunREvents] using hphase'⟩
  | loop =>
    obtain ⟨htop, hs⟩ := Option.ite_none_right_eq_some.mp hs
    cases hs
    refine h.frame rfl ?_ rfl
    rw [htop]
    by_cases hf : s.shutdownFlag = true <;> simp [hf, At.serves]
  | lock =>
    obtain ⟨hat, hs⟩ := Option.ite_none_right_eq_some.mp hs
    have hidle : s.worker.serves = none := by rw [hat]; rfl
    cases hs
    split
    · exact h.frame rfl hidle.symm rfl
    · exact h.dispatch hidle
  | resume =>
    obtain ⟨hat, hs⟩ := Option.ite_none_right_eq_some.mp hs
    cases hs
    exact h.dispatch (by rw [hat]; rfl)
  | reset =>
    dsimp only at hs
    split at hs
    · rename_i code hat
      cases hs
      exact h.frame rfl (by rw [hat]; rfl) rfl
    · cases hs
  | push frame =>
    obtain ⟨_, hs⟩ := Option.ite_none_right_eq_some.mp hs
    cases hs
    exact h.frame rfl rfl rfl
  | finish =>
    dsimp only at hs
    split at hs
    · rename_i code hat
      cases hs
      exact h.frame rfl (by rw [hat]; rfl) rfl
    · cases hs
  | sandboxed out =>
    dsimp only at hs
    split at hs
    · rename_i code hat
      cases hs
      obtain ⟨ph, hstage, hphase⟩ := h
      rw [hat] at hstage
      obtain ⟨ph', hstage', hphase'⟩ := hstage.sandboxed hphase out
      exact ⟨ph', hstage', by simpa [runREvents] using hphase'⟩
    · cases hs
  | publish k =>
    dsimp only at hs
    split at hs
    · rename_i out hat
      obtain ⟨c, hc, rfl⟩ := Option.map_eq_some_iff.mp hs
      obtain ⟨ph, hstage, hphase⟩ := h
      rw [hat] at hstage
      exact ⟨ph, hstage.publish hc, hphase⟩
    · cases hs
  | answer result =>
    dsimp only at hs
    split at hs
    · rename_i q hat
      cases hs
      exact h.frame rfl (by rw [hat]; rfl) rfl
    · cases hs

theorem start_served : Served (start ι) :=
  ⟨.free, .free rfl (fun _ => rfl) rfl rfl, .nil⟩

theorem run_served {cap : Nat} {as : List (Action ι)} {s : State ι}
    (h : Transition.Run (Steps cap) (start ι) as s) : Served s :=
  Transition.Run.invariant (I := Served) step_served start_served h

/-- However many threads call `rffi_run_r_sandboxed`, and whatever else happens meanwhile, the calls
are served one after the other: the worker runs the code of one call once, and hands its output to
that call before it runs another. -/
theorem runR_serial {cap : Nat} {as : List (Action ι)} {s : State ι}
    (h : Transition.Run (Steps cap) (start ι) as s) : Service.Serial (runREvents s.log) := by
  obtain ⟨ph, _, hphase⟩ := run_served h
  exact hphase.serial

/-- Two callers, the second of which arrives while the first is served. -/
def twoCallers : List (Action Bool) :=
  [.call true (bytes "x"), .acquire true, .call false (bytes "y"), .post true, .loop, .lock,
    .submit (bytes "z"), .sandboxed (bytes "[1] 1"), .publish 0, .test true, .leave true,
    .acquire false, .post false]

theorem runR_serial_twoCallers : Service.Serial (runREvents (after twoCallers).log) :=
  runR_serial (after_run twoCallers rfl)

/-! ## A call is always served, unless the worker is gone -/

/-- What the worker and the callers do of themselves: no new call, no request of the frontend. -/
def Action.internal : Action ι → Bool
  | .acquire _ | .post _ | .test _ | .leave _ => true
  | .loop | .lock | .resume | .reset | .finish | .sandboxed _ | .publish _ | .answer _ => true
  | _ => false

/-- `s'` can be reached from `s` without the frontend or a new caller doing anything. -/
abbrev Leads (cap : Nat) (s s' : State ι) : Prop :=
  Transition.Leads (Steps cap) (fun a => a.internal = true) s s'

/-- How far the worker is from the next section under `cmd_mutex` that takes no command. -/
def State.rank (s : State ι) : Nat :=
  (if s.pendingCmd.isSome then 4 else 0) +
    match s.worker with
    | .top => 1
    | .evaluating _ => 2
    | .answering _ => 2
    | .taken _ => 3
    | _ => 0

omit [DecidableEq ι] in
theorem State.rank_lt (s : State ι) : s.rank < 8 := by
  unfold State.rank
  split <;> split <;> decide

/-- How much of a call is left for a worker that has taken it out of the slot. -/
def leftToServe : Option Serving → Nat
  | some (.sandboxing _) => 5
  | some (.publishing _) => 4
  | none => 3

/-- How far the call of `i` is from its end, once `i` holds `runr_call_mutex`. -/
def State.left (s : State ι) (i : ι) : Nat :=
  match s.runr.callers i with
  | .posting _ => 20
  | .waiting _ =>
    if s.runr.pendingRunr.isSome then 10 + s.rank else leftToServe s.worker.serves
  | _ => 1

omit [DecidableEq ι] in
theorem left_of_posting {s : State ι} {i : ι} {code : Bytes}
    (h : s.runr.callers i = .posting code) : s.left i = 20 := by
  simp only [State.left, h]

omit [DecidableEq ι] in
theorem left_of_slot {s : State ι} {i : ι} {code code' : Bytes}
    (h : s.runr.callers i = .waiting code) (hslot : s.runr.pendingRunr = some code') :
    s.left i = 10 + s.rank := by
  simp only [State.left, h, hslot, Option.isSome_some, if_true]

omit [DecidableEq ι] in
theorem left_of_taken {s : State ι} {i : ι} {code : Bytes} (h : s.runr.callers i = .waiting code)
    (hslot : s.runr.pendingRunr = none) : s.left i = leftToServe s.worker.serves := by
  simp only [State.left, h, hslot, Option.isSome_none, Bool.false_eq_true, if_false]

omit [DecidableEq ι] in
theorem left_of_leaving {s : State ι} {i : ι} {code : Bytes} {res : Option Bytes}
    (h : s.runr.callers i = .leaving code res) : s.left i = 1 := by
  simp only [State.left, h]

/-- Calls are served, the worker is up and no shutdown has begun. -/
structure Up (s : State ι) : Prop where
  served : Served s
  flag : s.shutdownFlag = false
  alive : s.worker ≠ .exited

/-- The call of `i` is under way; the other callers are where `others` says. -/
structure Calling (i : ι) (others : ι → RunR.Caller) (s : State ι) : Prop where
  up : Up s
  lock : s.runr.callLock = some i
  others : ∀ j, j ≠ i → s.runr.callers j = others j

structure Returned (i : ι) (others : ι → RunR.Caller) (s : State ι) : Prop where
  up : Up s
  lock : s.runr.callLock = none
  here : s.runr.callers i = .away
  others : ∀ j, j ≠ i → s.runr.callers j = others j

/-- The worker's next step while `i`'s code is in the slot. -/
theorem slot_step (cap : Nat) {s : State ι} {code : Bytes} (hup : Up s)
    (hslot : s.runr.pendingRunr = some code) (hidle : s.worker.serves = none) :
    ∃ (a : Action ι) (s₁ : State ι), a.internal = true ∧ Steps cap s a s₁ ∧
      s₁.shutdownFlag = false ∧ s₁.worker ≠ .exited ∧
      (s₁.runr = s.runr.take ∧ s₁.worker = .serving (.sandboxing code) ∨
        s₁.runr = s.runr ∧ s₁.worker.serves = none ∧ s₁.rank < s.rank) := by
  have hdispatch : (s.dispatch).shutdownFlag = false ∧ (s.dispatch).worker ≠ .exited ∧
      (s.dispatch.runr = s.runr.take ∧ s.dispatch.worker = .serving (.sandboxing code) ∨
        s.dispatch.runr = s.runr ∧ s.dispatch.worker.serves = none ∧
          s.dispatch.rank < s.rank) := by
    unfold State.dispatch
    split
    · rename_i cmd hcmd
      have hrank : 4 ≤ s.rank := by simp [State.rank, hcmd]
      refine ⟨hup.flag, At.noConfusion, .inr ⟨rfl, rfl, Nat.lt_of_lt_of_le ?_ hrank⟩⟩
      simp [State.rank]
    · split
      · rename_i code' hslot'
        rw [hslot] at hslot'
        cases hslot'
        exact ⟨hup.flag, At.noConfusion, .inl ⟨rfl, rfl⟩⟩
      · rename_i hslot'
        rw [hslot] at hslot'
        cases hslot'
  cases hw : s.worker with
  | top =>
    refine ⟨.loop, { s with worker := .locking }, rfl, ?_, hup.flag, by simp, .inr ⟨rfl, rfl, ?_⟩⟩
    · simp [Steps, step, hw, hup.flag]
    · simp [State.rank, hw]
  | locking =>
    have hbusy : s.isIdle = false := by simp [State.isIdle, hslot]
    refine ⟨.lock, s.dispatch, rfl, ?_, hdispatch⟩
    simp [Steps, step, hw, hbusy]
  | waiting =>
    refine ⟨.resume, s.dispatch, rfl, ?_, hdispatch⟩
    simp [Steps, step, hw]
  | taken cmd =>
    refine ⟨.reset, { s with worker := .evaluating cmd, ring := [] }, rfl, ?_, hup.flag, by simp,
      .inr ⟨rfl, rfl, ?_⟩⟩
    · simp [Steps, step, hw]
    · simp [State.rank, hw]
  | evaluating cmd =>
    refine ⟨.finish, { s with
      worker := .top, ring := pushNote cap s.ring ⟨doneFrame, none⟩ }, rfl, ?_, hup.flag, by simp,
      .inr ⟨rfl, rfl, ?_⟩⟩
    · simp [Steps, step, hw]
    · simp [State.rank, hw]
  | serving srv =>
    rw [hw] at hidle
    cases hidle
  | answering q =>
    refine ⟨.answer [], { s with
      worker := .top, ring := pushNote cap s.ring ⟨answerFrame [], some q⟩ }, rfl, ?_, hup.flag,
      by simp, .inr ⟨rfl, rfl, ?_⟩⟩
    · simp [Steps, step, hw]
    · simp [State.rank, hw]
  | exited => exact absurd hw hup.alive

omit [DecidableEq ι] in
theorem worker_of_serves {s : State ι} {srv : Serving} (h : s.worker.serves = some srv) :
    s.worker = .serving srv := by
  cases hw : s.worker <;> rw [hw] at h <;> cases h
  rfl

theorem sandboxed_step (cap : Nat) (out : Bytes) {s : State ι} {code : Bytes}
    (h : s.worker = .serving (.sandboxing code)) :
    Steps cap s (.sandboxed out) { s with
      worker := .serving (.publishing out), log := s.log ++ [.runR (.ran code (some out))] } := by
  simp only [Steps, step, h]

theorem publish_step (cap : Nat) {s : State ι} {out : Bytes}
    (h : s.worker = .serving (.publishing out)) :
    Steps cap s (.publish 0) { s with
      runr := { s.runr with
        runrResult := some out, runrDone := true, sleepers := s.runr.sleepers.eraseIdx 0 }
      worker := .top } := by
  simp only [Steps, step, h, Channel.publish_first, Option.map_some]

/-- While the call of `i` is under way, some step of the worker or of `i` brings it nearer its
end. -/
theorem calling_step (cap : Nat) (i : ι) (others : ι → RunR.Caller) (s : State ι)
    (h : Calling i others s) :
    ∃ (a : Action ι) (s' : State ι), a.internal = true ∧ Steps cap s a s' ∧
      (Returned i others s' ∨ Calling i others s' ∧ s'.left i < s.left i) := by
  obtain ⟨⟨hserved, hflag, halive⟩, hlock, hothers⟩ := h
  -- what is left to show of a step is where it leads and that it lowers `left`
  have hnext : ∀ {a s'}, a.internal = true → Steps cap s a s' → s'.shutdownFlag = false →
      s'.worker ≠ .exited → s'.runr.callLock = some i →
      (∀ j, j ≠ i → s'.runr.callers j = s.runr.callers j) → s'.left i < s.left i →
      ∃ (a : Action ι) (s' : State ι), a.internal = true ∧ Steps cap s a s' ∧
        (Returned i others s' ∨ Calling i others s' ∧ s'.left i < s.left i) := by
    intro a s' ha hs hf hw hl ho hlt
    exact ⟨a, s', ha, hs, .inr ⟨⟨⟨step_served hserved hs, hf, hw⟩, hl,
      fun j hj => (ho j hj).trans (hothers j hj)⟩, hlt⟩⟩
  obtain ⟨ph, hstage, hphase⟩ := id hserved
  generalize hsrv : s.worker.serves = srv at hstage
  cases hstage with
  | free lock =>
    rw [lock] at hlock
    cases hlock
  | @posting _ code alone here slot awake =>
    cases alone.lock.symm.trans hlock
    refine hnext (a := .post i) rfl
      (congrArg (Option.map s.withRunREvents) (Channel.post_of_posting here)) hflag halive hlock
      (fun j hj => Channel.goto_of_ne _ _ hj) ?_
    rw [left_of_posting here, left_of_slot (s.runr.goto_self i (.waiting code)) rfl]
    exact Nat.add_lt_add_left (Nat.lt_trans (State.rank_lt _) (by decide : 8 < 10)) 10
  | posted alone here slot undone =>
    cases alone.lock.symm.trans hlock
    obtain ⟨a, s₁, ha, hs, hf, hw, hcase⟩ := slot_step cap ⟨hserved, hflag, halive⟩ slot hsrv
    have hleft := left_of_slot here slot
    obtain ⟨hrunr, hworker⟩ | ⟨hrunr, hidle, hrank⟩ := hcase
    · refine hnext ha hs hf hw (by rw [hrunr]; exact hlock) (fun j _ => by rw [hrunr]; rfl) ?_
      rw [hleft, left_of_taken (by rw [hrunr]; exact here) (by rw [hrunr]; rfl), hworker]
      exact Nat.lt_add_right _ (by decide : 5 < 10)
    · refine hnext ha hs hf hw (by rw [hrunr]; exact hlock) (fun j _ => by rw [hrunr]) ?_
      rw [hleft, left_of_slot (by rw [hrunr]; exact here) (by rw [hrunr]; exact slot)]
      exact Nat.add_lt_add_left hrank 10
  | @sandboxing _ code alone here slot undone =>
    cases alone.lock.symm.trans hlock
    have hw := worker_of_serves hsrv
    refine hnext (a := .sandboxed []) rfl (sandboxed_step cap [] hw) hflag At.noConfusion hlock
      (fun _ _ => rfl) ?_
    rw [left_of_taken here slot, hsrv]
    exact Nat.lt_of_le_of_lt (Nat.le_of_eq (left_of_taken here slot)) (by decide : 4 < 5)
  | @publishing _ code out alone here slot undone =>
    cases alone.lock.symm.trans hlock
    have hw := worker_of_serves hsrv
    refine hnext (a := .publish 0) rfl (publish_step cap hw) hflag At.noConfusion hlock
      (fun _ _ => rfl) ?_
    rw [left_of_taken here slot, hsrv]
    exact Nat.lt_of_le_of_lt (Nat.le_of_eq (left_of_taken here slot)) (by decide : 3 < 4)
  | @done _ code out alone here slot isDone result awake =>
    cases alone.lock.symm.trans hlock
    have hawake : i ∉ s.runr.sleepers := by rw [awake]; exact List.not_mem_nil
    refine hnext (a := .test i) rfl
      (congrArg (Option.map s.withRunR) (Channel.test_of_done here hawake isDone)) hflag halive
      hlock (fun j hj => Channel.goto_of_ne _ _ hj) ?_
    rw [left_of_taken here slot, hsrv, left_of_leaving (s.runr.goto_self i _)]
    decide
  | @leaving _ code out alone here slot awake =>
    cases alone.lock.symm.trans hlock
    have hs : Steps cap s (.leave i) _ :=
      congrArg (Option.map s.withRunREvents) (Channel.leave_of_leaving here)
    refine ⟨.leave i, _, rfl, hs, .inl ⟨⟨step_served hserved hs, hflag, halive⟩, rfl,
      s.runr.goto_self i _, fun j hj => ?_⟩⟩
    exact (Channel.goto_of_ne _ _ hj).trans (hothers j hj)

/-- The call that holds `runr_call_mutex` can be brought to its end. -/
theorem Calling.returns (cap : Nat) {i : ι} {s : State ι} (hup : Up s)
    (hlock : s.runr.callLock = some i) :
    ∃ s', Leads cap s s' ∧ Returned i s.runr.callers s' :=
  Transition.Leads.variant (fun s => s.left i) (calling_step cap i s.runr.callers)
    ⟨hup, hlock, fun _ _ => rfl⟩

/-- Whoever waits for `runr_call_mutex` can have it once it is free. -/
theorem enter_leads (cap : Nat) {i : ι} {code : Bytes} {s : State ι} (hup : Up s)
    (hlock : s.runr.callLock = none) (here : s.runr.callers i = .entering code) :
    ∃ s', Leads cap s s' ∧ Up s' ∧ s'.runr.callLock = some i := by
  have hs : Steps cap s (.acquire i) _ :=
    congrArg (Option.map s.withRunR) (Channel.acquire_of_entering here hlock)
  exact ⟨_, .head rfl hs (.refl ..), ⟨step_served hup.served hs, hup.flag, hup.alive⟩, rfl⟩

theorem entering_returns (cap : Nat) {i : ι} {code : Bytes} {s : State ι} (hup : Up s)
    (hlock : s.runr.callLock = none) (here : s.runr.callers i = .entering code) :
    ∃ s', Leads cap s s' ∧ s'.runr.callers i = .away := by
  obtain ⟨s₁, hleads₁, hup₁, hlock₁⟩ := enter_leads cap hup hlock here
  obtain ⟨s₂, hleads₂, hret⟩ := Calling.returns cap hup₁ hlock₁
  exact ⟨s₂, hleads₁.trans hleads₂, hret.here⟩

/-- Without a shutdown every call can come to its end. -/
theorem Up.returns (cap : Nat) (i : ι) {s : State ι} (hup : Up s) :
    ∃ s', Leads cap s s' ∧ s'.runr.callers i = .away := by
  cases hlock : s.runr.callLock with
  | some j =>
    obtain ⟨s₁, hleads, hret⟩ := Calling.returns cap hup hlock
    by_cases hij : i = j
    · subst hij
      exact ⟨s₁, hleads, hret.here⟩
    · cases hi : s.runr.callers i with
      | away => exact ⟨s, .refl .., hi⟩
      | entering code =>
        obtain ⟨s₂, hleads₂, haway⟩ :=
          entering_returns cap hret.up hret.lock ((hret.others i hij).trans hi)
        exact ⟨s₂, hleads.trans hleads₂, haway⟩
      | posting | waiting | leaving =>
        -- only the holder of the mutex is inside
        obtain ⟨ph, hstage, _⟩ := hup.served
        have := hstage.outside_of_lock hlock hij
        rw [hi] at this
        cases this
  | none =>
    cases hi : s.runr.callers i with
    | away => exact ⟨s, .refl .., hi⟩
    | entering code => exact entering_returns cap hup hlock hi
    | posting | waiting | leaving =>
      obtain ⟨ph, hstage, _⟩ := hup.served
      have := hstage.outside_of_free hlock i
      rw [hi] at this
      cases this

omit [DecidableEq ι] in
theorem dispatch_alive (s : State ι) : s.dispatch.worker ≠ .exited := by
  unfold State.dispatch
  split
  · exact At.noConfusion
  · split
    · exact At.noConfusion
    · split
      · exact At.noConfusion
      · split <;> exact At.noConfusion

/-- Only the shutdown flag ends the worker. -/
theorem step_alive {cap : Nat} {s s' : State ι} {a : Action ι}
    (h : s.worker = .exited → s.shutdownFlag = true) (hs : Steps cap s a s') :
    s'.worker = .exited → s'.shutdownFlag = true := by
  unfold Steps step at hs
  cases a with
  | submit | requestCompletions | requestColumns | pop => cases hs; exact h
  | shutdown => cases hs; exact fun _ => rfl
  | call | acquire | post | wake | test | leave =>
    obtain ⟨c, _, rfl⟩ := Option.map_eq_some_iff.mp hs
    exact h
  | loop =>
    obtain ⟨_, hs⟩ := Option.ite_none_right_eq_some.mp hs
    cases hs
    by_cases hf : s.shutdownFlag = true
    · exact fun _ => hf
    · simp [hf]
  | lock =>
    obtain ⟨_, hs⟩ := Option.ite_none_right_eq_some.mp hs
    cases hs
    split
    · exact At.noConfusion
    · exact fun hx => absurd hx (dispatch_alive s)
  | resume =>
    obtain ⟨_, hs⟩ := Option.ite_none_right_eq_some.mp hs
    cases hs
    exact fun hx => absurd hx (dispatch_alive s)
  | push frame =>
    obtain ⟨_, hs⟩ := Option.ite_none_right_eq_some.mp hs
    cases hs
    exact h
  | publish k =>
    dsimp only at hs
    split at hs
    · obtain ⟨c, _, rfl⟩ := Option.map_eq_some_iff.mp hs
      exact At.noConfusion
    · cases hs
  | reset | finish | sandboxed | answer =>
    dsimp only at hs
    split at hs
    · cases hs
      exact At.noConfusion
    · cases hs

/-- The call of `i` waits for a worker that is gone. -/
structure Stuck (i : ι) (code : Bytes) (s : State ι) : Prop where
  served : Served s
  gone : s.worker = .exited
  here : s.runr.callers i = .waiting code
  undone : s.runr.runrDone = false

omit [DecidableEq ι] in
theorem Stuck.channel {i : ι} {code : Bytes} {s s' : State ι} (h : Stuck i code s)
    (hserved : Served s') (hworker : s'.worker = s.worker)
    (hcallers : s'.runr.callers i = s.runr.callers i)
    (hdone : s'.runr.runrDone = s.runr.runrDone) : Stuck i code s' :=
  ⟨hserved, hworker.trans h.gone, hcallers.trans h.here, hdone.trans h.undone⟩

/-- The waiting call is the one under way. -/
theorem Stuck.lock {i : ι} {code : Bytes} {s : State ι} (h : Stuck i code s) :
    s.runr.callLock = some i := by
  obtain ⟨ph, hstage, _⟩ := h.served
  cases hlock : s.runr.callLock with
  | none =>
    have := hstage.outside_of_free hlock i
    rw [h.here] at this
    cases this
  | some j =>
    by_cases hij : i = j
    · rw [hij]
    · have := hstage.outside_of_lock hlock hij
      rw [h.here] at this
      cases this

/-- Nobody else is inside. -/
theorem Stuck.inside {i j : ι} {code : Bytes} {s : State ι} (h : Stuck i code s)
    (hj : (s.runr.callers j).outside = false) : i = j := by
  obtain ⟨ph, hstage, _⟩ := h.served
  refine Decidable.byContradiction fun hij => ?_
  rw [hstage.outside_of_lock h.lock (Ne.symm hij)] at hj
  cases hj

theorem step_stuck {cap : Nat} {i : ι} {code : Bytes} {s s' : State ι} {a : Action ι}
    (h : Stuck i code s) (hs : Steps cap s a s') : Stuck i code s' := by
  have hserved := step_served h.served hs
  have hgone := h.gone
  unfold Steps step at hs
  cases a with
  | submit | requestCompletions | requestColumns | pop | shutdown =>
    cases hs
    exact h.channel hserved rfl rfl rfl
  | call j code' =>
    obtain ⟨c, hc, rfl⟩ := Option.map_eq_some_iff.mp hs
    simp only [Channel.call, Option.ite_none_right_eq_some, Option.some.injEq] at hc
    obtain ⟨haway, rfl⟩ := hc
    have hij : i ≠ j := by
      rintro rfl
      rw [h.here] at haway
      cases haway
    exact h.channel hserved rfl (Channel.goto_of_ne _ _ hij) rfl
  | acquire j =>
    obtain ⟨c, hc, rfl⟩ := Option.map_eq_some_iff.mp hs
    unfold Channel.acquire at hc
    split at hc
    · rename_i hlock
      rw [h.lock] at hlock
      cases hlock
    · cases hc
  | post j =>
    obtain ⟨⟨c, events⟩, hc, rfl⟩ := Option.map_eq_some_iff.mp hs
    unfold Channel.post at hc
    split at hc
    · rename_i code' hj
      cases h.inside (by rw [hj]; rfl)
      rw [h.here] at hj
      cases hj
    · cases hc
  | wake j =>
    obtain ⟨c, hc, rfl⟩ := Option.map_eq_some_iff.mp hs
    simp only [Channel.wake, Option.ite_none_right_eq_some, Option.some.injEq] at hc
    obtain ⟨_, rfl⟩ := hc
    exact h.channel hserved rfl rfl rfl
  | test j =>
    obtain ⟨c, hc, rfl⟩ := Option.map_eq_some_iff.mp hs
    unfold Channel.test at hc
    split at hc
    · split at hc
      · cases hc
      · rw [if_neg (by rw [h.undone]; decide)] at hc
        cases hc
        exact h.channel hserved rfl rfl rfl
    · cases hc
  | leave j =>
    obtain ⟨⟨c, events⟩, hc, rfl⟩ := Option.map_eq_some_iff.mp hs
    unfold Channel.leave at hc
    split at hc
    · rename_i code' res hj
      cases h.inside (by rw [hj]; rfl)
      rw [h.here] at hj
      cases hj
    · cases hc
  | loop | lock | resume | push =>
    obtain ⟨hat, _⟩ := Option.ite_none_right_eq_some.mp hs
    simp [hgone, At.runsR] at hat
  | reset | finish | sandboxed | publish | answer =>
    rw [hgone] at hs
    cases hs

/-- As long as no shutdown has begun, every call of `rffi_run_r_sandboxed` can be brought to its end
by the worker and the callers alone; no wake-up is lost. A call whose code has not been run by the
time the worker ends never returns. -/
theorem sandboxed_returns {cap : Nat} {as : List (Action ι)} {s : State ι}
    (h : Transition.Run (Steps cap) (start ι) as s) (i : ι) :
    (s.shutdownFlag = false → ∃ s', Leads cap s s' ∧ s'.runr.callers i = .away) ∧
      (s.worker = .exited → ∀ code, s.runr.callers i = .waiting code → s.runr.runrDone = false →
        ∀ bs s', Transition.Run (Steps cap) s bs s' → s'.runr.callers i = .waiting code) := by
  have hserved := run_served h
  refine ⟨fun hflag => Up.returns cap i ⟨hserved, hflag, fun hexit => ?_⟩, ?_⟩
  · have halive := Transition.Run.invariant
      (I := fun s : State ι => s.worker = .exited → s.shutdownFlag = true) step_alive
      (by simp [start]) h hexit
    rw [hflag] at halive
    cases halive
  · intro hgone code here hundone bs s' hrun
    exact (Transition.Run.invariant (I := Stuck i code) step_stuck ⟨hserved, hgone, here, hundone⟩
      hrun).here

/-- A call made while a command waits. -/
def callBehindCommand : List (Action Bool) :=
  [.submit (bytes "z"), .call true (bytes "x"), .acquire true, .post true]

/-- A call that a shutdown has overtaken. -/
def callAfterShutdown : List (Action Bool) :=
  [.call true (bytes "x"), .shutdown, .loop, .acquire true, .post true]

theorem sandboxed_returns_examples :
    (∃ s', Leads 1024 (after callBehindCommand) s' ∧ s'.runr.callers true = .away) ∧
      ∀ bs s', Transition.Run (Steps 1024) (after callAfterShutdown) bs s' →
        s'.runr.callers true = .waiting (bytes "x") :=
  ⟨(sandboxed_returns (after_run callBehindCommand rfl) true).1 rfl,
    (sandboxed_returns (after_run callAfterShutdown rfl) true).2
      rfl _ rfl rfl⟩

end Worker
end Raoui
