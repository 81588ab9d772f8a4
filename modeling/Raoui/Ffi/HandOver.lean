import Raoui.Ffi.Flight

/-!
# Raoui.Ffi.HandOver

What the single hand-over slot and the ring reset rest on, for every interleaving of the consumer
with the worker.

* `Accounts`: the jobs started, the one handed over and the pending ones are together the jobs
  submitted, in order.
* `handed_over_in_order`: nothing is started twice or out of order, and neither the slot nor the
  ring is ever overwritten.
-/

namespace Raoui
namespace Ffi

open Transition (Run)

/-! ## Submitted and started -/

def submittedJobs (as : List Action) : List Job := as.filterMap Action.job

def Event.startedEval : Event → Option Eval
  | .started e => some e
  | _ => none

def startedEvals (log : List Event) : List Eval := log.filterMap Event.startedEval

/-- The job handed over that the worker has not started. -/
def Current.unstarted : Current → List Job
  | .waiting job => [job]
  | _ => []

/-- Every submitted job is in exactly one place: started, handed over or pending. -/
structure Accounts (s : State) (cur : Current) (jobs : List Job) : Prop where
  jobs : (startedEvals s.log).map Eval.job ++ cur.unstarted ++ s.t.pending = jobs
  ids : (startedEvals s.log).map Eval.id = List.range s.evals

variable {cap : Nat} {s s' : State} {a : Action} {cur cur' : Current} {jobs : List Job}

theorem startedEvals_append (log evs : List Event) (h : ∀ ev ∈ evs, ev.startedEval = none) :
    startedEvals (log ++ evs) = startedEvals log := by
  rw [startedEvals, List.filterMap_append, List.filterMap_eq_nil_iff.mpr h, List.append_nil]
  rfl

theorem startedEvals_started (log : List Event) (e : Eval) :
    startedEvals (log ++ [.started e]) = startedEvals log ++ [e] := by
  simp [startedEvals, Event.startedEval]

theorem Outcome.events_startedEval (o : Outcome) : ∀ ev ∈ o.events, ev.startedEval = none := by
  intro ev h
  cases o with
  | returned r parts =>
    simp only [Outcome.events, List.mem_singleton] at h
    subst h
    rfl
  | again => cases h
  | sleep => cases h
  | drain buf parts => cases h

theorem startedEvals_awaited (s : State) (aw : Awaited) :
    startedEvals (s.awaited aw).log = startedEvals s.log := by
  show startedEvals (s.log ++ aw.popped.toList.map .popped ++ aw.outcome.events) = _
  rw [startedEvals_append _ _ aw.outcome.events_startedEval]
  refine startedEvals_append _ _ fun ev h => ?_
  obtain ⟨m, -, rfl⟩ := List.mem_map.mp h
  rfl

theorem Flushes.unstarted {t : Backend} {r : Backend × Option Job} (h : Flushes t r cur) :
    cur.unstarted ++ r.1.pending = t.pending := by
  cases h with
  | rest => rfl
  | next hp => exact hp.symm

/-- The same jobs, the same evaluations. -/
theorem Accounts.same (h : Accounts s cur jobs) (hlog : startedEvals s'.log = startedEvals s.log)
    (hpending : cur'.unstarted ++ s'.t.pending = cur.unstarted ++ s.t.pending)
    (hevals : s'.evals = s.evals) : Accounts s' cur' jobs := by
  refine ⟨?_, ?_⟩
  · rw [List.append_assoc, hlog, hpending, ← List.append_assoc]
    exact h.jobs
  · rw [hlog, hevals]
    exact h.ids

theorem Accounts.change (h : Accounts s cur jobs) (hch : Change cap s cur a s' cur') :
    Accounts s' cur' (jobs ++ a.job.toList) := by
  cases hch with
  | queued _ submits =>
    refine ⟨?_, h.ids⟩
    rw [submits, ← h.jobs]
    simp
  | handed _ submits _ pending =>
    refine ⟨?_, h.ids⟩
    rw [submits, ← h.jobs, pending]
    simp [Current.unstarted]
  | opened _ _ _ flush =>
    rw [show Action.job (.initialised _) = none from rfl, Option.toList_none, List.append_nil]
    exact h.same rfl flush.unstarted rfl
  | called calls =>
    rcases calls with rfl | rfl <;> exact (List.append_nil jobs).symm ▸ h.same rfl rfl rfl
  | pumped pumps round unclosed =>
    obtain ⟨-, hpending, -⟩ := round.frame unclosed
    have := h.same (startedEvals_awaited s _)
      (show cur.unstarted ++ _ = cur.unstarted ++ s.t.pending by rw [← hpending]; rfl) rfl
    rcases pumps with rfl | rfl <;> exact (List.append_nil jobs).symm ▸ this
  | closed _ _ _ _ _ flush =>
    rw [show Action.job .loop = none from rfl, Option.toList_none, List.append_nil]
    exact h.same (startedEvals_awaited s _) flush.unstarted rfl
  | took => exact (List.append_nil jobs).symm ▸ h.same rfl rfl rfl
  | @started job =>
    refine ⟨?_, ?_⟩
    · show (startedEvals (s.log ++ [.started ⟨s.evals, job⟩])).map Eval.job ++ [] ++ _ = jobs ++ []
      rw [startedEvals_started, List.append_nil, List.append_nil, List.map_append, ← h.jobs]
      rfl
    · show (startedEvals (s.log ++ [.started ⟨s.evals, job⟩])).map Eval.id = _
      rw [startedEvals_started, List.map_append, h.ids, List.range_succ]
      rfl
  | pushed => exact (List.append_nil jobs).symm ▸ h.same rfl rfl rfl
  | finished => exact (List.append_nil jobs).symm ▸ h.same rfl rfl rfl

theorem accounts_run {as : List Action} (hc : Coupled s cur) (h : Accounts s cur jobs)
    (hrun : Run (Steps cap) s as s') :
    ∃ cur', Coupled s' cur' ∧ Accounts s' cur' (jobs ++ submittedJobs as) := by
  induction hrun generalizing cur jobs with
  | nil => exact ⟨cur, hc, by simpa [submittedJobs] using h⟩
  | @cons s s₁ s' a as hs _ ih =>
    obtain ⟨cur₁, hc₁, hch⟩ := hc.step hs
    obtain ⟨cur', hc', h'⟩ := ih hc₁ (h.change hch)
    refine ⟨cur', hc', ?_⟩
    have : submittedJobs (a :: as) = a.job.toList ++ submittedJobs as := by
      cases hj : a.job <;> simp [submittedJobs, hj]
    rw [this, ← List.append_assoc]
    exact h'

/-! ## The slot and the ring -/

/-- The job a step passes to `Rffi.submit`. -/
def State.handsOver (s : State) : Action → Option Job
  | .submit code => (submit s.t code).2
  | .backgroundSubmit code => (backgroundSubmit s.t code).2
  | .initialised output => (initialised s.t output).2
  | .loop => (awaitLoop s.t s.ring).submitted
  | .drain =>
    match s.consumer with
    | .draining buf parts => (awaitDrain s.t s.ring buf parts).submitted
    | _ => none
  | _ => none

/-- A step that hands a job over finds the slot empty. -/
def SlotFree (s : State) (a : Action) : Prop := ∀ job, s.handsOver a = some job → s.slot = none

theorem submitJob_free {job job' : Job} (h : Coupled s cur)
    (hj : (submitJob s.t job).2 = some job') : s.slot = none := by
  unfold submitJob at hj
  split at hj
  · rename_i hb
    simp only [Bool.and_eq_true, Bool.not_eq_true'] at hb
    exact (h.resting hb.2).1
  · cases hj

/-- Only a round that pops a DONE hands a job over. -/
theorem Coupled.awaits_free {aw : Awaited} {job : Job} (h : Coupled s cur)
    (ha : Awaits s.t s.ring aw) (hj : aw.submitted = some job) : s.slot = none := by
  cases ha with
  | quiet => cases hj
  | message => cases hj
  | done startup queue kind flush =>
    have hflight := h.flight
    rw [queue] at hflight
    exact (hflight.pop_done kind).2.1

theorem Coupled.slotFree (h : Coupled s cur) (hs : Steps cap s a s') : SlotFree s a := by
  intro job hj
  cases a <;>
    simp only [Steps, Ffi.step, Option.ite_none_right_eq_some, Option.some.injEq] at hs
  case submit code =>
    rw [State.handsOver, submit_eq_submitJob] at hj
    exact submitJob_free h hj
  case backgroundSubmit code =>
    rw [State.handsOver, backgroundSubmit_eq_submitJob] at hj
    exact submitJob_free h hj
  case initialised => exact (h.resting (h.unready hs.1.2)).1
  case loop =>
    exact h.awaits_free ((awaitLoop_round s.t s.ring (Consumer.loops_of hs.1)).awaits h.unstashed) hj
  case drain =>
    simp only [State.handsOver] at hj
    split at hj
    · rename_i buf parts hc
      exact h.awaits_free ((awaitDrain_round s.t s.ring buf parts).awaits fun _ => h.unstashed hc) hj
    · cases hj
  all_goals cases hj

/-- The reset finds nothing in the ring that has not been popped. -/
theorem Coupled.reset_empty (h : Coupled s cur) (hs : Steps cap s .reset s') :
    s.t.queued s.ring = [] := by
  simp only [Steps, Ffi.step] at hs
  split at hs
  · rename_i job hw
    have hflight := h.flight
    rw [hw] at hflight
    exact hflight.of_taken.2.2.1
  · cases hs

theorem accounts_start : Accounts start .resting [] := ⟨rfl, rfl⟩

/-- In every run the evaluations started are those of the submitted jobs, in order and each once;
a pending command is never overwritten; a backend that is ready and not busy has nothing pending;
and the reset at the start of an evaluation finds the ring and the stash empty. -/
theorem handed_over_in_order {as : List Action} (h : Run (Steps cap) start as s) :
    (startedEvals s.log).map Eval.job <+: submittedJobs as ∧
    (startedEvals s.log).map Eval.id = List.range s.evals ∧
    (s.t.ready = true → s.t.busy = false → s.t.pending = []) ∧
    ∀ a s', Steps cap s a s' → SlotFree s a ∧ (a = .reset → s.t.queued s.ring = []) := by
  obtain ⟨cur, hc, haccounts⟩ := accounts_run coupled_start accounts_start h
  refine ⟨?_, haccounts.ids, hc.settled, fun a s' hs => ⟨hc.slotFree hs, ?_⟩⟩
  · have := haccounts.jobs
    rw [List.nil_append, List.append_assoc] at this
    exact ⟨_, this⟩
  · rintro rfl
    exact hc.reset_empty hs

/-- Two jobs submitted before the initialisation ends, and a third while the first runs. -/
def queuedRun : List Action :=
  [.submit (bytes "x <- 1"), .backgroundSubmit (bytes "options(width=80)"), .initialised [],
    .take, .submit (bytes "x"), .reset, .push ⟨2, 0, bytes "1"⟩, .finish, .await, .loop, .await,
    .loop, .take]

theorem handed_over_in_order_queued : ∃ s, Run (Steps 64) start queuedRun s ∧
    (startedEvals s.log).map Eval.job <+: submittedJobs queuedRun ∧
    s.worker = .taken (.background (bytes "options(width=80)")) ∧
    (∀ a s', Steps 64 s a s' → SlotFree s a) ∧ s.t.queued s.ring = [] := by
  obtain ⟨s, hrun, hworker, s', hreset⟩ : ∃ s, Transition.exec (step 64) start queuedRun = some s ∧
      s.worker = .taken (.background (bytes "options(width=80)")) ∧
      ∃ s', step 64 s .reset = some s' := ⟨_, rfl, rfl, _, rfl⟩
  have h := Transition.run_of_exec hrun
  obtain ⟨hjobs, -, -, hsteps⟩ := handed_over_in_order h
  exact ⟨s, h, hjobs, hworker, fun a s' hs => (hsteps a s' hs).1, (hsteps .reset s' hreset).2 rfl⟩

end Ffi
end Raoui
