import Raoui.Ffi.System

/-!
# Raoui.Ffi.Flight

What a step can do, said once.

* `Round`: everything one round of `await_response` can do.
* `Flight`: at most one evaluation is under way, and its messages are the only ones queued.
* `Coupled`: the invariant of every step. It ties the busy flag, the pending queue, the slot, the
  worker, the ring and the stash together.
* `Change`: what a step does to the evaluation under way. The later invariants are derived from it.
-/

namespace Raoui
namespace Ffi

open Transition (Run Restrict)
open Raoui.Ring (Frame)

/-! ## One round of `await_response` -/

/-- The messages the consumer has yet to dispose of, oldest first. -/
def Backend.queued (t : Backend) (ring : List Message) : List Message := t.stashed.toList ++ ring

/-- A piece of stdout or stderr. -/
def Message.isChunk (m : Message) : Bool := m.frame.kind = kindStdout || m.frame.kind = kindStderr

def Message.response (m : Message) : ResponseChunk := mapKind m.frame.kind m.frame.payload

/-- `loop` is about to run, for the first time or after the sleep. -/
def Consumer.loops : Consumer → Bool
  | .looping => true
  | .asleep => true
  | _ => false

theorem Consumer.loops_of {c : Consumer} (h : c = .looping ∨ c = .asleep) : c.loops = true := by
  rcases h with rfl | rfl <;> rfl

inductive Round (t : Backend) (ring : List Message) : Consumer → Awaited → Prop where
  | startup {c : Consumer} {output : Bytes} (loops : c.loops = true)
      (pending : t.pendingStartupOutput = some output) :
      Round t ring c
        ⟨{ t with pendingStartupOutput := none }, ring, none, none, .returned (.stdout output) []⟩
  | empty {c : Consumer} (loops : c.loops = true) (startup : t.pendingStartupOutput = none)
      (queue : t.queued ring = []) :
      Round t ring c ⟨t, [], none, none, .sleep⟩
  | suppressed {c : Consumer} {m : Message} {ring' : List Message} (loops : c.loops = true)
      (startup : t.pendingStartupOutput = none) (queue : t.queued ring = m :: ring')
      (flag : t.suppressing = true) (kind : passesSuppression m.frame.kind = false) :
      Round t ring c ⟨{ t with stashed := none }, ring', none, some m, .again⟩
  | chunk {c : Consumer} {m : Message} {ring' : List Message} (loops : c.loops = true)
      (startup : t.pendingStartupOutput = none) (queue : t.queued ring = m :: ring')
      (flag : t.suppressing = false) (kind : m.isChunk = true) :
      Round t ring c
        ⟨{ t with stashed := none }, ring', none, some m, .drain m.frame.payload [m]⟩
  | message {c : Consumer} {m : Message} {ring' : List Message} (loops : c.loops = true)
      (startup : t.pendingStartupOutput = none) (queue : t.queued ring = m :: ring')
      (flag : t.suppressing = true → passesSuppression m.frame.kind = true)
      (chunk : m.isChunk = false) (done : m.isDone = false) :
      Round t ring c
        ⟨{ t with stashed := none }, ring', none, some m, .returned m.response [m]⟩
  | done {c : Consumer} {m : Message} {ring' : List Message} {t' : Backend}
      {submitted : Option Job} (loops : c.loops = true)
      (startup : t.pendingStartupOutput = none) (queue : t.queued ring = m :: ring') (kind : m.isDone = true)
      (flush : handleDone { t with stashed := none } = (t', submitted)) :
      Round t ring c
        ⟨t', ring', submitted, some m,
          if t'.busy || t.suppressing then .again else .returned .done [m]⟩
  | more {buf : Bytes} {parts : List Message} {m : Message} {ring' : List Message}
      (queue : ring = m :: ring') (kind : m.isChunk = true) :
      Round t ring (.draining buf parts)
        ⟨t, ring', none, some m, .drain (buf ++ m.frame.payload) (parts ++ [m])⟩
  | cut {buf : Bytes} {parts : List Message} {m : Message} {ring' : List Message}
      (queue : ring = m :: ring') (kind : m.isChunk = false) :
      Round t ring (.draining buf parts)
        ⟨{ t with stashed := some m }, ring', none, none, .returned (.stdout buf) parts⟩
  | dry {buf : Bytes} {parts : List Message} (queue : ring = []) :
      Round t ring (.draining buf parts)
        ⟨{ t with stashed := none }, [], none, none, .returned (.stdout buf) parts⟩

theorem mapKind_ne_done {kind : UInt8} (h : kind ≠ 5) (payload : Bytes) :
    mapKind kind payload ≠ .done := by
  unfold mapKind
  split
  case h_6 => exact absurd rfl h
  case h_7 => split <;> simp
  case h_10 =>
    split
    · simp
    · split <;> simp
  all_goals simp

theorem Backend.unstash_of_none {t : Backend} (h : t.stashed = none) :
    { t with stashed := none } = t := by
  cases t
  cases h
  rfl

theorem pop_cases (t : Backend) (ring : List Message) :
    (t.queued ring = [] ∧ pop t ring = (none, t, [])) ∨
    ∃ m ring', t.queued ring = m :: ring' ∧ pop t ring = (some m, { t with stashed := none }, ring')
    := by
  unfold pop Backend.queued
  cases hs : t.stashed with
  | some m => exact .inr ⟨m, ring, rfl, rfl⟩
  | none =>
    rw [Backend.unstash_of_none hs]
    cases ring with
    | nil => exact .inl ⟨rfl, rfl⟩
    | cons m ring => exact .inr ⟨m, ring, rfl, rfl⟩

theorem Message.isChunk_not_done {m : Message} (h : m.isChunk = true) : m.isDone = false := by
  simp only [Message.isChunk, Bool.or_eq_true, decide_eq_true_eq] at h
  rcases h with h | h <;> simp [Message.isDone, h, kindStdout, kindStderr, kindDone]

theorem passesSuppression_done {m : Message} (h : passesSuppression m.frame.kind = false) :
    m.isDone = false := by
  simp only [passesSuppression, Bool.or_eq_false_iff, decide_eq_false_iff_not] at h
  simp [Message.isDone, kindDone, h.1.1.1.1.1]

theorem awaitLoop_round (t : Backend) (ring : List Message) {c : Consumer} (hc : c.loops = true) :
    Round t ring c (awaitLoop t ring) := by
  unfold awaitLoop
  cases ho : t.pendingStartupOutput with
  | some output => exact .startup hc ho
  | none =>
    rcases pop_cases t ring with ⟨hq, hp⟩ | ⟨m, ring', hq, hp⟩
    · simp only [hp]
      exact .empty hc ho hq
    · simp only [hp]
      unfold dispatch
      split
      · rename_i hsup
        simp only [Bool.and_eq_true, Bool.not_eq_true'] at hsup
        exact .suppressed hc ho hq hsup.1 hsup.2
      · rename_i hsup
        have hflag : t.suppressing = true → passesSuppression m.frame.kind = true := by
          intro h
          simpa [h] using hsup
        split
        · rename_i hout
          have hout' := hout
          simp only [Bool.or_eq_true, decide_eq_true_eq] at hout
          refine .chunk hc ho hq ?_ hout'
          cases hs : t.suppressing with
          | false => rfl
          | true =>
            have := hflag hs
            rcases hout with h | h <;> rw [h] at this <;> cases this
        · rename_i hout
          split
          · rename_i hdone
            exact .done hc ho hq (by simp [Message.isDone, kindDone, hdone]) rfl
          · rename_i hdone
            refine .message hc ho hq hflag (Bool.eq_false_iff.mpr hout) ?_
            simp [Message.isDone, kindDone, hdone]

theorem awaitDrain_round (t : Backend) (ring : List Message) (buf : Bytes) (parts : List Message) :
    Round t ring (.draining buf parts) (awaitDrain t ring buf parts) := by
  unfold awaitDrain
  split
  · split
    · rename_i hout
      exact .more rfl hout
    · rename_i hout
      exact .cut rfl (Bool.eq_false_iff.mpr hout)
  · exact .dry rfl

def Outcome.isDone : Outcome → Prop
  | .returned .done _ => True
  | _ => False

def Outcome.drains : Outcome → Prop
  | .drain _ _ => True
  | _ => False

/-- A round, up to what it returns. -/
inductive Awaits (t : Backend) (ring : List Message) : Awaited → Prop where
  | quiet {stashed : Option Message} {startup : Option Bytes} {ring' : List Message}
      {outcome : Outcome} (queue : t.queued ring = stashed.toList ++ ring')
      (not_done : ¬ outcome.isDone) (returns : ¬ outcome.drains) :
      Awaits t ring
        ⟨{ t with stashed := stashed, pendingStartupOutput := startup }, ring', none, none, outcome⟩
  | message {m : Message} {ring' : List Message} {outcome : Outcome}
      (queue : t.queued ring = m :: ring') (kind : m.isDone = false)
      (not_done : ¬ outcome.isDone) :
      Awaits t ring ⟨{ t with stashed := none }, ring', none, some m, outcome⟩
  | done {m : Message} {ring' : List Message} {t' : Backend} {submitted : Option Job}
      (startup : t.pendingStartupOutput = none) (queue : t.queued ring = m :: ring')
      (kind : m.isDone = true) (flush : handleDone { t with stashed := none } = (t', submitted)) :
      Awaits t ring
        ⟨t', ring', submitted, some m,
          if t'.busy || t.suppressing then .again else .returned .done [m]⟩

theorem Message.response_ne_done {m : Message} (h : m.isDone = false) (parts : List Message) :
    ¬ (Outcome.returned m.response parts).isDone := by
  have hk : m.frame.kind ≠ 5 := of_decide_eq_false h
  have := mapKind_ne_done hk m.frame.payload
  unfold Outcome.isDone
  split
  · rename_i heq
    simp only [Outcome.returned.injEq] at heq
    exact absurd heq.1 this
  · exact id

theorem Round.awaits {t : Backend} {ring : List Message} {c : Consumer} {aw : Awaited}
    (h : Round t ring c aw) (hd : ∀ {buf parts}, c = .draining buf parts → t.stashed = none) :
    Awaits t ring aw := by
  cases h with
  | startup => exact .quiet rfl (by simp [Outcome.isDone]) (by simp [Outcome.drains])
  | empty _ ho hq =>
    have hs : t.stashed = none := by
      simp only [Backend.queued, List.append_eq_nil_iff, Option.toList_eq_nil_iff] at hq
      exact hq.1
    have : Awaits t ring
        ⟨{ t with stashed := none, pendingStartupOutput := none }, [], none, none, .sleep⟩ :=
      .quiet (by rw [hq]; rfl) (by simp [Outcome.isDone]) (by simp [Outcome.drains])
    convert this
  | suppressed _ _ hq _ kind =>
    exact .message hq (passesSuppression_done kind) (by simp [Outcome.isDone])
  | chunk _ _ hq _ kind =>
    exact .message hq (Message.isChunk_not_done kind) (by simp [Outcome.isDone])
  | message _ _ hq _ _ kind => exact .message hq kind (Message.response_ne_done kind _)
  | done _ ho hq kind flush => exact .done ho hq kind flush
  | more hq kind =>
    rename_i buf parts m ring'
    have hs := hd rfl
    have : Awaits t ring ⟨{ t with stashed := none }, ring', none, some m,
        .drain (buf ++ m.frame.payload) (parts ++ [m])⟩ :=
      .message (by simp [Backend.queued, hs, hq]) (Message.isChunk_not_done kind)
        (by simp [Outcome.isDone])
    rwa [Backend.unstash_of_none hs] at this
  | cut hq =>
    exact .quiet (by simp [Backend.queued, hd rfl, hq]) (by simp [Outcome.isDone])
      (by simp [Outcome.drains])
  | dry hq =>
    exact .quiet (by simp [Backend.queued, hd rfl, hq]) (by simp [Outcome.isDone])
      (by simp [Outcome.drains])

theorem awaitDrain_popped {t : Backend} {ring : List Message} {buf : Bytes} {parts : List Message}
    {m : Message} (h : (awaitDrain t ring buf parts).popped = some m) : m.isDone = false := by
  unfold awaitDrain at h
  split at h
  · split at h
    · rename_i hout
      cases h
      simp only [Bool.or_eq_true, decide_eq_true_eq] at hout
      rcases hout with h | h <;> simp [Message.isDone, kindDone, h]
    · cases h
  · cases h

/-- Only a DONE changes the flag, the queue or the slot. -/
theorem Round.frame {t : Backend} {ring : List Message} {c : Consumer} {aw : Awaited}
    (h : Round t ring c aw) (hm : ∀ m, aw.popped = some m → m.isDone = false) :
    aw.t.suppressing = t.suppressing ∧ aw.t.pending = t.pending ∧ aw.submitted = none := by
  cases h with
  | done _ _ _ kind =>
    rw [hm _ rfl] at kind
    cases kind
  | _ => exact ⟨rfl, rfl, rfl⟩

/-! ## The evaluation under way -/

/-- All of `q` was pushed by `e` before its DONE. -/
def Of (e : Eval) (q : List Message) : Prop := ∀ m ∈ q, m.owner = e ∧ m.isDone = false

inductive Current where
  | resting
  | waiting (job : Job)
  | evaluating (e : Eval)
  deriving DecidableEq

/-- The busy flag, the slot, the worker and the queue describe one and the same evaluation. -/
inductive Flight : Bool → Option Job → Worker → List Message → Current → Prop where
  | rest : Flight false none .idle [] .resting
  | handed {job : Job} : Flight true (some job) .idle [] (.waiting job)
  | taken {job : Job} : Flight true none (.taken job) [] (.waiting job)
  | running {e : Eval} {q : List Message} :
      Of e q → Flight true none (.running e) q (.evaluating e)
  | finished {e : Eval} {q : List Message} {d : Message} :
      Of e q → d.owner = e → d.isDone = true → Flight true none .idle (q ++ [d]) (.evaluating e)

theorem Flight.pop_message {busy : Bool} {slot : Option Job} {w : Worker} {m : Message}
    {q : List Message} {cur : Current} (h : Flight busy slot w (m :: q) cur)
    (hm : m.isDone = false) : Flight busy slot w q cur := by
  generalize hq : m :: q = queue at h
  cases h with
  | rest => cases hq
  | handed => cases hq
  | taken => cases hq
  | running hof =>
    subst hq
    exact .running fun m' h' => hof m' (List.mem_cons_of_mem m h')
  | @finished e p d hof howner hdone =>
    cases p with
    | nil =>
      simp only [List.nil_append, List.cons.injEq] at hq
      rw [← hq.1, hm] at hdone
      cases hdone
    | cons m' p =>
      simp only [List.cons_append, List.cons.injEq] at hq
      rw [hq.2]
      exact .finished (fun m'' h'' => hof m'' (List.mem_cons_of_mem m' h'')) howner hdone

/-- A DONE is the last message of its evaluation. -/
theorem Flight.pop_done {busy : Bool} {slot : Option Job} {w : Worker} {m : Message}
    {q : List Message} {cur : Current} (h : Flight busy slot w (m :: q) cur)
    (hm : m.isDone = true) : busy = true ∧ slot = none ∧ w = .idle ∧ q = [] ∧
      cur = .evaluating m.owner := by
  generalize hq : m :: q = queue at h
  cases h with
  | rest => cases hq
  | handed => cases hq
  | taken => cases hq
  | running hof =>
    subst hq
    have := (hof m List.mem_cons_self).2
    rw [hm] at this
    cases this
  | @finished e p d hof howner hdone =>
    cases p with
    | nil =>
      simp only [List.nil_append, List.cons.injEq] at hq
      obtain ⟨rfl, rfl⟩ := hq
      exact ⟨rfl, rfl, rfl, rfl, by rw [howner]⟩
    | cons m' p =>
      simp only [List.cons_append, List.cons.injEq] at hq
      have := (hof m' List.mem_cons_self).2
      rw [← hq.1, hm] at this
      cases this

def Current.job : Current → Option Job
  | .resting => none
  | .waiting job => some job
  | .evaluating e => some e.job

/-- What is queued belongs to the evaluation under way. -/
theorem Flight.owner {busy : Bool} {slot : Option Job} {w : Worker} {q : List Message}
    {cur : Current} {m : Message} (h : Flight busy slot w q cur) (hm : m ∈ q) :
    cur = .evaluating m.owner := by
  cases h with
  | rest => cases hm
  | handed => cases hm
  | taken => cases hm
  | running hof => rw [(hof m hm).1]
  | finished hof howner =>
    rcases List.mem_append.mp hm with hm | hm
    · rw [(hof m hm).1]
    · rw [List.mem_singleton] at hm
      rw [hm, howner]

theorem Flight.not_busy {slot : Option Job} {w : Worker} {q : List Message} {cur : Current}
    (h : Flight false slot w q cur) : slot = none ∧ w = .idle ∧ q = [] ∧ cur = .resting := by
  cases h
  exact ⟨rfl, rfl, rfl, rfl⟩

theorem Flight.of_slot {busy : Bool} {job : Job} {w : Worker} {q : List Message} {cur : Current}
    (h : Flight busy (some job) w q cur) : busy = true ∧ q = [] ∧ cur = .waiting job := by
  cases h
  exact ⟨rfl, rfl, rfl⟩

theorem Flight.of_taken {busy : Bool} {slot : Option Job} {job : Job} {q : List Message}
    {cur : Current} (h : Flight busy slot (.taken job) q cur) :
    busy = true ∧ slot = none ∧ q = [] ∧ cur = .waiting job := by
  cases h
  exact ⟨rfl, rfl, rfl, rfl⟩

theorem Flight.of_running {busy : Bool} {slot : Option Job} {e : Eval} {q : List Message}
    {cur : Current} (h : Flight busy slot (.running e) q cur) :
    busy = true ∧ slot = none ∧ cur = .evaluating e ∧ Of e q := by
  cases h with
  | running hof => exact ⟨rfl, rfl, rfl, hof⟩

theorem Of.queued {e : Eval} {t : Backend} {ring : List Message} (h : Of e (t.queued ring)) :
    Of e t.stashed.toList ∧ Of e ring :=
  ⟨fun m hm => h m (List.mem_append_left _ hm), fun m hm => h m (List.mem_append_right _ hm)⟩

theorem Of.append {e : Eval} {p q : List Message} (hp : Of e p) (hq : Of e q) : Of e (p ++ q) :=
  fun m hm => (List.mem_append.mp hm).elim (hp m) (hq m)

theorem makeRoom_of {e : Eval} {q : List Message} (h : Of e q) (cap need : Nat) :
    Of e (makeRoom cap need q) := fun m hm => h m (makeRoom_subset cap need q hm)

theorem pushMessage_of {e : Eval} {q : List Message} (h : Of e q) (cap : Nat) {frame : Frame}
    (hk : frame.kind ≠ kindDone) : Of e (pushMessage cap q ⟨frame, e⟩) := by
  intro m hm
  unfold pushMessage at hm
  split at hm
  · rcases List.mem_append.mp hm with hm | hm
    · exact makeRoom_of h _ _ m hm
    · rw [List.mem_singleton] at hm
      subst hm
      exact ⟨rfl, by simp [Message.isDone, hk]⟩
  · rw [List.mem_singleton] at hm
    subst hm
    exact ⟨rfl, by simp [Message.isDone, hk]⟩

/-- The DONE is the last message of its evaluation, whatever it evicts. -/
theorem pushMessage_done {e : Eval} {q : List Message} (h : Of e q) (cap : Nat) :
    ∃ q' d, pushMessage cap q ⟨doneFrame, e⟩ = q' ++ [d] ∧ Of e q' ∧ d.owner = e ∧
      d.isDone = true := by
  unfold pushMessage
  split
  · exact ⟨_, _, rfl, makeRoom_of h _ _, rfl, rfl⟩
  · exact ⟨[], _, rfl, (fun _ hm => nomatch hm), rfl, rfl⟩

/-! ## The invariant of every step -/

structure Coupled (s : State) (cur : Current) : Prop where
  unready : s.t.ready = false → s.t.busy = false
  settled : s.t.ready = true → s.t.busy = false → s.t.pending = []
  flight : Flight s.t.busy s.slot s.worker (s.t.queued s.ring) cur
  draining : ∀ {buf parts}, s.consumer = .draining buf parts →
    s.t.stashed = none ∧ ∃ e, cur = .evaluating e

theorem coupled_start : Coupled start .resting := by
  constructor
  case unready => exact fun _ => rfl
  case settled => intro h; cases h
  case flight => exact .rest
  case draining => intro _ _ h; cases h

theorem Coupled.unstashed {s : State} {cur : Current} {buf : Bytes} {parts : List Message}
    (h : Coupled s cur) (hd : s.consumer = .draining buf parts) : s.t.stashed = none :=
  (h.draining hd).1

/-- Only an evaluation that is under way is drained. -/
theorem Coupled.not_draining {s : State} {cur : Current} {buf : Bytes} {parts : List Message}
    (h : Coupled s cur) (hcur : ∀ e, cur ≠ .evaluating e) : s.consumer ≠ .draining buf parts := by
  intro hd
  obtain ⟨-, e, he⟩ := h.draining hd
  exact hcur e he

theorem Coupled.queue_nil {s : State} {cur : Current} (h : Coupled s cur)
    (hcur : ∀ e, cur ≠ .evaluating e) : s.t.queued s.ring = [] := by
  cases hq : s.t.queued s.ring with
  | nil => rfl
  | cons m q => exact absurd (h.flight.owner (by rw [hq]; exact List.mem_cons_self)) (hcur _)

/-- Nothing is under way before the end of the initialisation, nor while not busy. -/
theorem Coupled.resting {s : State} {cur : Current} (h : Coupled s cur) (hb : s.t.busy = false) :
    s.slot = none ∧ s.worker = .idle ∧ s.t.queued s.ring = [] ∧ cur = .resting := by
  have hflight := h.flight
  rw [hb] at hflight
  exact hflight.not_busy

def Action.job : Action → Option Job
  | .submit code => some (.user code)
  | .backgroundSubmit code => some (.background code)
  | _ => none

/-- What `flush_pending` does when nothing is under way. -/
inductive Flushes (t : Backend) : Backend × Option Job → Current → Prop where
  | rest : t.pending = [] → Flushes t (t, none) .resting
  | next {job : Job} {rest : List Job} : t.pending = job :: rest →
      Flushes t ({ t with pending := rest, suppressing := !job.isUser, busy := true }, some job)
        (.waiting job)

theorem flushPending_flushes (t : Backend) : ∃ cur, Flushes t (flushPending t) cur := by
  unfold flushPending
  cases hp : t.pending with
  | nil => exact ⟨.resting, .rest hp⟩
  | cons job rest =>
    cases job with
    | user code => exact ⟨_, .next hp⟩
    | background code => exact ⟨_, .next hp⟩

theorem Flushes.stashed {t : Backend} {r : Backend × Option Job} {cur : Current}
    (h : Flushes t r cur) : r.1.stashed = t.stashed ∧ r.1.ready = t.ready := by
  cases h with
  | rest => exact ⟨rfl, rfl⟩
  | next => exact ⟨rfl, rfl⟩

theorem Flushes.flight {t : Backend} {r : Backend × Option Job} {cur : Current}
    (h : Flushes t r cur) (hb : t.busy = false) :
    Flight r.1.busy r.2 .idle [] cur ∧ (r.1.busy = false → r.1.pending = []) := by
  cases h with
  | rest hp =>
    refine ⟨?_, fun _ => hp⟩
    show Flight t.busy none .idle [] .resting
    rw [hb]
    exact .rest
  | next => exact ⟨.handed, nofun⟩

/-! ## A step and the evaluation under way -/

inductive Change (cap : Nat) (s : State) : Current → Action → State → Current → Prop where
  | queued {cur : Current} {a : Action} {job : Job} (yielded : s.consumer.yielded = true)
      (submits : a.job = some job) (waits : s.t.ready = true → s.t.busy = true) :
      Change cap s cur a
        { s with t := { s.t with
            suppressing := s.t.suppressing && !job.isUser, pending := s.t.pending ++ [job] } } cur
  | handed {a : Action} {job : Job} (yielded : s.consumer.yielded = true)
      (submits : a.job = some job) (slot : s.slot = none) (pending : s.t.pending = []) :
      Change cap s .resting a
        { s with t := { s.t with suppressing := !job.isUser, busy := true }, slot := some job }
        (.waiting job)
  | opened {output : Bytes} {startup : Option Bytes} {r : Backend × Option Job} {cur : Current}
      (yielded : s.consumer.yielded = true) (unready : s.t.ready = false) (slot : s.slot = none)
      (flush : Flushes { s.t with ready := true, pendingStartupOutput := startup } r cur) :
      Change cap s .resting (.initialised output) { s with t := r.1, slot := r.2 } cur
  | called {cur : Current} {a : Action} {consumer : Consumer} (calls : a = .await ∨ a = .cancel)
      (yielded : s.consumer.yielded = true) (loops : consumer = .away ∨ consumer = .looping) :
      Change cap s cur a { s with consumer := consumer } cur
  | pumped {cur : Current} {a : Action} {aw : Awaited} (pumps : a = .loop ∨ a = .drain)
      (round : Round s.t s.ring s.consumer aw)
      (unclosed : ∀ m, aw.popped = some m → m.isDone = false) :
      Change cap s cur a (s.awaited aw) cur
  | closed {m : Message} {r : Backend × Option Job} {cur : Current} (slot : s.slot = none)
      (loops : s.consumer.loops = true) (startup : s.t.pendingStartupOutput = none) (queue : s.t.queued s.ring = [m])
      (kind : m.isDone = true)
      (flush : Flushes { s.t with stashed := none, busy := false, suppressing := false } r cur) :
      Change cap s (.evaluating m.owner) .loop
        (s.awaited ⟨r.1, [], r.2, some m,
          if r.1.busy || s.t.suppressing then .again else .returned .done [m]⟩) cur
  | took {job : Job} (slot : s.slot = some job) :
      Change cap s (.waiting job) .take { s with worker := .taken job, slot := none }
        (.waiting job)
  | started {job : Job} (worker : s.worker = .taken job) (queue : s.t.queued s.ring = []) :
      Change cap s (.waiting job) .reset
        { s with worker := .running ⟨s.evals, job⟩, ring := [], evals := s.evals + 1,
                 log := s.log ++ [.started ⟨s.evals, job⟩] } (.evaluating ⟨s.evals, job⟩)
  | pushed {e : Eval} {frame : Frame} (worker : s.worker = .running e)
      (kind : frame.kind ≠ kindDone) :
      Change cap s (.evaluating e) (.push frame)
        { s with ring := pushMessage cap s.ring ⟨frame, e⟩ } (.evaluating e)
  | finished {e : Eval} (worker : s.worker = .running e) :
      Change cap s (.evaluating e) .finish
        { s with worker := .idle, ring := pushMessage cap s.ring ⟨doneFrame, e⟩ } (.evaluating e)

/-- The step leads to a coupled state, by one of the changes. -/
def Coupled.Moves (cap : Nat) (s : State) (cur : Current) (a : Action) (s' : State) : Prop :=
  ∃ cur', Coupled s' cur' ∧ Change cap s cur a s' cur'

variable {cap : Nat} {s s' : State} {cur : Current}

theorem Outcome.consumer_draining {o : Outcome} {buf : Bytes} {parts : List Message}
    (h : o.consumer = .draining buf parts) : o.drains := by
  cases o with
  | drain buf parts => trivial
  | returned r parts => cases h
  | again => cases h
  | sleep => cases h

/-- `submit` and `background_submit` differ in the flag only. -/
def submitJob (t : Backend) (job : Job) : Backend × Option Job :=
  if t.ready && !t.busy then ({ t with suppressing := !job.isUser, busy := true }, some job)
  else
    ({ t with suppressing := t.suppressing && !job.isUser, pending := t.pending ++ [job] }, none)

theorem submit_eq_submitJob (t : Backend) (code : Bytes) :
    submit t code = submitJob t (.user code) := by
  simp [submit, submitJob, startEval, Job.isUser]

theorem backgroundSubmit_eq_submitJob (t : Backend) (code : Bytes) :
    backgroundSubmit t code = submitJob t (.background code) := by
  simp [backgroundSubmit, submitJob, startEval, Job.isUser]

theorem Coupled.submits {a : Action} {job : Job} (h : Coupled s cur)
    (hy : s.consumer.yielded = true) (hjob : a.job = some job) :
    Coupled.Moves cap s cur a (s.called (submitJob s.t job)) := by
  unfold submitJob
  split
  · rename_i hb
    simp only [Bool.and_eq_true, Bool.not_eq_true'] at hb
    obtain ⟨hready, hbusy⟩ := hb
    obtain ⟨hslot, hw, hq, rfl⟩ := h.resting hbusy
    refine ⟨.waiting job, ?_, .handed hy hjob hslot (h.settled hready hbusy)⟩
    constructor
    case unready =>
      intro hr
      change s.t.ready = false at hr
      rw [hready] at hr
      cases hr
    case settled => exact nofun
    case flight =>
      show Flight true (some job) s.worker (s.t.queued s.ring) _
      rw [hw, hq]
      exact .handed
    case draining => exact fun hd => absurd hd (h.not_draining nofun)
  · rename_i hb
    have hwait : s.t.ready = true → s.t.busy = true := by
      intro hr
      simpa [hr] using hb
    refine ⟨cur, ⟨h.unready, ?_, h.flight, h.draining⟩, .queued hy hjob hwait⟩
    intro hr hn
    rw [show s.t.busy = true from hwait hr] at hn
    cases hn

theorem Coupled.opens (h : Coupled s cur) (hy : s.consumer.yielded = true)
    (hready : s.t.ready = false) (output : Bytes) :
    Coupled.Moves cap s cur (.initialised output) (s.called (Ffi.initialised s.t output)) := by
  have hbusy := h.unready hready
  obtain ⟨hslot, hw, hq, rfl⟩ := h.resting hbusy
  obtain ⟨startup, hinit⟩ : ∃ startup, Ffi.initialised s.t output =
      flushPending { s.t with ready := true, pendingStartupOutput := startup } := by
    simp only [Ffi.initialised]
    split
    · exact ⟨s.t.pendingStartupOutput, rfl⟩
    · exact ⟨some output, rfl⟩
  obtain ⟨cur', hf⟩ :=
    flushPending_flushes { s.t with ready := true, pendingStartupOutput := startup }
  rw [hinit, State.called, hslot, Option.or_none]
  generalize flushPending { s.t with ready := true, pendingStartupOutput := startup } = r at *
  obtain ⟨hflight, hsettled⟩ := hf.flight hbusy
  refine ⟨cur', ?_, .opened hy hready hslot hf⟩
  constructor
  case unready =>
    intro hr
    change r.1.ready = false at hr
    rw [hf.stashed.2] at hr
    cases hr
  case settled => exact fun _ => hsettled
  case flight =>
    show Flight r.1.busy r.2 s.worker (r.1.queued s.ring) cur'
    rw [hw, show r.1.queued s.ring = [] by rw [← hq, Backend.queued, Backend.queued, hf.stashed.1]]
    exact hflight
  case draining => exact fun hd => absurd hd (h.not_draining nofun)

theorem Coupled.closes {m : Message} {ring' : List Message} {t' : Backend} {submitted : Option Job}
    (h : Coupled s cur) (loops : s.consumer.loops = true)
    (startup : s.t.pendingStartupOutput = none) (queue : s.t.queued s.ring = m :: ring') (kind : m.isDone = true)
    (flush : handleDone { s.t with stashed := none } = (t', submitted)) :
    Coupled.Moves cap s cur .loop (s.awaited ⟨t', ring', submitted, some m,
      if t'.busy || s.t.suppressing then .again else .returned .done [m]⟩) := by
  have hflight := h.flight
  rw [queue] at hflight
  obtain ⟨hbusy, hslot, hw, rfl, rfl⟩ := hflight.pop_done kind
  obtain ⟨cur', hf⟩ :=
    flushPending_flushes { s.t with stashed := none, busy := false, suppressing := false }
  rw [show flushPending { s.t with stashed := none, busy := false, suppressing := false } =
    (t', submitted) from flush] at hf
  obtain ⟨hflight', hsettled⟩ := hf.flight rfl
  refine ⟨cur', ?_, .closed hslot loops startup queue kind hf⟩
  constructor
  case unready =>
    intro hr
    change t'.ready = false at hr
    rw [hf.stashed.2] at hr
    change s.t.ready = false at hr
    rw [h.unready hr] at hbusy
    cases hbusy
  case settled => exact fun _ => hsettled
  case flight =>
    show Flight t'.busy (submitted.or s.slot) s.worker (t'.queued []) cur'
    rw [hslot, hw, Option.or_none, Backend.queued, hf.stashed.1]
    exact hflight'
  case draining =>
    intro buf parts hd
    change (if _ then Outcome.again else .returned .done [m]).consumer = _ at hd
    split at hd <;> cases hd

theorem Coupled.pumps {aw : Awaited} (h : Coupled s cur)
    (hround : Round s.t s.ring s.consumer aw) {a : Action} (ha : a = .loop ∨ a = .drain)
    (hloop : a = .loop → s.consumer.loops = true)
    (hdrain : a = .drain → ∀ m, aw.popped = some m → m.isDone = false) :
    Coupled.Moves cap s cur a (s.awaited aw) := by
  have hflight := h.flight
  cases hround.awaits h.unstashed with
  | quiet queue _ returns =>
    rw [queue] at hflight
    exact ⟨cur, ⟨h.unready, h.settled, hflight,
      fun hd => absurd (Outcome.consumer_draining hd) returns⟩, .pumped ha hround nofun⟩
  | @message m ring' outcome queue kind =>
    rw [queue] at hflight
    refine ⟨cur, ⟨h.unready, h.settled, hflight.pop_message kind,
      fun _ => ⟨rfl, _, hflight.owner List.mem_cons_self⟩⟩, .pumped ha hround ?_⟩
    rintro _ ⟨⟩
    exact kind
  | @done m ring' t' submitted startup queue kind flush =>
    rcases ha with rfl | rfl
    · exact h.closes (hloop rfl) startup queue kind flush
    · rw [hdrain rfl m rfl] at kind
      cases kind

/-! ## A step of the worker -/

theorem Coupled.takes {job : Job} (h : Coupled s cur) (hw : s.worker = .idle)
    (hslot : s.slot = some job) :
    Coupled.Moves cap s cur .take { s with worker := .taken job, slot := none } := by
  have hflight := h.flight
  rw [hw, hslot] at hflight
  obtain ⟨hbusy, hq, rfl⟩ := hflight.of_slot
  refine ⟨.waiting job, ⟨h.unready, h.settled, ?_, h.draining⟩, .took hslot⟩
  show Flight s.t.busy none (.taken job) (s.t.queued s.ring) (.waiting job)
  rw [hbusy, hq]
  exact .taken

/-- The reset discards nothing: the evaluation before was popped to its end. -/
theorem Coupled.starts {job : Job} (h : Coupled s cur) (hw : s.worker = .taken job) :
    Coupled.Moves cap s cur .reset
      { s with worker := .running ⟨s.evals, job⟩, ring := [], evals := s.evals + 1,
               log := s.log ++ [.started ⟨s.evals, job⟩] } := by
  have hflight := h.flight
  rw [hw] at hflight
  obtain ⟨hbusy, hslot, hq, rfl⟩ := hflight.of_taken
  have hstash : s.t.stashed = none := by
    simp only [Backend.queued, List.append_eq_nil_iff, Option.toList_eq_nil_iff] at hq
    exact hq.1
  refine ⟨.evaluating ⟨s.evals, job⟩, ⟨h.unready, h.settled, ?_,
    fun hd => absurd hd (h.not_draining nofun)⟩, .started hw hq⟩
  show Flight s.t.busy s.slot (.running ⟨s.evals, job⟩) (s.t.queued []) _
  rw [hbusy, hslot, Backend.queued, hstash]
  exact .running nofun

theorem Coupled.pushes {e : Eval} {frame : Frame} (h : Coupled s cur)
    (hw : s.worker = .running e) (hk : frame.kind ≠ kindDone) :
    Coupled.Moves cap s cur (.push frame)
      { s with ring := pushMessage cap s.ring ⟨frame, e⟩ } := by
  have hflight := h.flight
  rw [hw] at hflight
  obtain ⟨hbusy, hslot, rfl, hof⟩ := hflight.of_running
  refine ⟨.evaluating e, ⟨h.unready, h.settled, ?_, h.draining⟩, .pushed hw hk⟩
  show Flight s.t.busy s.slot s.worker _ _
  rw [hw, hbusy, hslot]
  exact .running (hof.queued.1.append (pushMessage_of hof.queued.2 cap hk))

theorem Coupled.finishes {e : Eval} (h : Coupled s cur) (hw : s.worker = .running e) :
    Coupled.Moves cap s cur .finish
      { s with worker := .idle, ring := pushMessage cap s.ring ⟨doneFrame, e⟩ } := by
  have hflight := h.flight
  rw [hw] at hflight
  obtain ⟨hbusy, hslot, rfl, hof⟩ := hflight.of_running
  obtain ⟨q, d, hq, hofq, howner, hdone⟩ := pushMessage_done hof.queued.2 cap
  refine ⟨.evaluating e, ⟨h.unready, h.settled, ?_, h.draining⟩, .finished hw⟩
  show Flight s.t.busy s.slot .idle (s.t.stashed.toList ++ pushMessage cap s.ring _) _
  rw [hbusy, hslot, hq, ← List.append_assoc]
  exact .finished (hof.queued.1.append hofq) howner hdone

theorem Coupled.step {a : Action} (h : Coupled s cur) (hs : Steps cap s a s') :
    Coupled.Moves cap s cur a s' := by
  cases a <;>
    simp only [Steps, Ffi.step, Option.ite_none_right_eq_some, Option.some.injEq] at hs
  case submit code =>
    obtain ⟨hy, rfl⟩ := hs
    rw [submit_eq_submitJob]
    exact h.submits hy rfl
  case backgroundSubmit code =>
    obtain ⟨hy, rfl⟩ := hs
    rw [backgroundSubmit_eq_submitJob]
    exact h.submits hy rfl
  case initialised output =>
    obtain ⟨⟨hy, hready⟩, rfl⟩ := hs
    exact h.opens hy hready output
  case await =>
    obtain ⟨hc, rfl⟩ := hs
    exact ⟨cur, ⟨h.unready, h.settled, h.flight, nofun⟩,
      .called (.inl rfl) (by rw [hc]; rfl) (.inr rfl)⟩
  case cancel =>
    obtain ⟨hc, rfl⟩ := hs
    exact ⟨cur, ⟨h.unready, h.settled, h.flight, nofun⟩,
      .called (.inr rfl) (by rw [hc]; rfl) (.inl rfl)⟩
  case loop =>
    obtain ⟨hc, rfl⟩ := hs
    have hl := Consumer.loops_of hc
    exact h.pumps (awaitLoop_round s.t s.ring hl) (.inl rfl) (fun _ => hl) nofun
  case drain =>
    split at hs
    · rename_i buf parts hc
      cases hs
      refine h.pumps (hc ▸ awaitDrain_round s.t s.ring buf parts) (.inr rfl) nofun ?_
      intro _ m hp
      exact awaitDrain_popped hp
    · cases hs
  case take =>
    split at hs
    · rename_i job hw hslot
      cases hs
      exact h.takes hw hslot
    · cases hs
  case reset =>
    split at hs
    · rename_i job hw
      cases hs
      exact h.starts hw
    · cases hs
  case push frame =>
    split at hs
    · rename_i e hw
      simp only [Option.ite_none_left_eq_some, Option.some.injEq] at hs
      obtain ⟨hk, rfl⟩ := hs
      exact h.pushes hw hk
    · cases hs
  case finish =>
    split at hs
    · rename_i e hw
      cases hs
      exact h.finishes hw
    · cases hs

end Ffi
end Raoui
