import Raoui.Ffi.Flight

/-!
# Raoui.Ffi.Suppression

The output of background evaluations. It is dropped by one flag, which `background_submit` and
`flush_pending` raise and which `submit` and every DONE lower.

* `Hidden`: the flag is up exactly while a background evaluation is under way.
* `background_output_hidden`: what follows for every run in which no user submission is made while
  a background evaluation is under way.
* `background_output_returned`: such a submission lets the rest of the output through.
-/

namespace Raoui
namespace Ffi

open Transition (Run Restrict)

def kindResult : UInt8 := 2
def kindImage : UInt8 := 6

/-- Stdout, stderr, a result, an R error or an image. -/
def Message.isOutput (m : Message) : Bool :=
  m.isChunk || m.frame.kind = kindResult || m.frame.kind = kindRError || m.frame.kind = kindImage

def Message.isBackground (m : Message) : Bool := !m.owner.job.isUser

/-- The job handed over, held by the worker, being evaluated or evaluated but not yet popped to its
end. -/
def State.job (s : State) : Option Job :=
  match s.slot, s.worker with
  | some job, _ => some job
  | none, .taken job => some job
  | none, .running e => some e.job
  | none, .idle => (s.t.queued s.ring).getLast?.map fun m => m.owner.job

theorem Coupled.job_eq {s : State} {cur : Current} (h : Coupled s cur) : s.job = cur.job := by
  have hflight := h.flight
  unfold State.job
  generalize s.t.busy = busy, s.slot = slot, s.worker = w, s.t.queued s.ring = q at *
  cases hflight with
  | rest => rfl
  | handed => rfl
  | taken => rfl
  | running => rfl
  | finished _ howner => simp [Current.job, howner]

/-! ## The invariant -/

def Current.isBackground (cur : Current) : Bool := cur.job.any fun job => !job.isUser

structure Hidden (s : State) (cur : Current) : Prop where
  flag : s.t.suppressing = cur.isBackground
  draining : ∀ {buf parts}, s.consumer = .draining buf parts →
    s.t.suppressing = false ∧ ∀ m ∈ parts, m.isBackground = false
  returned : ∀ {r parts}, .returned r parts ∈ s.log →
    ∀ m ∈ parts, m.isBackground = true → m.isOutput = false

/-- A user submission is not made while a background evaluation is under way. -/
def Undisturbed (s : State) : Action → Prop
  | .submit _ => ∀ job ∈ s.job, job.isUser = true
  | _ => True

variable {cap : Nat} {s s' : State} {a : Action} {cur cur' : Current}

theorem hidden_start : Hidden start .resting := ⟨rfl, nofun, nofun⟩

theorem Flushes.flag {t : Backend} {r : Backend × Option Job} (h : Flushes t r cur)
    (hsup : t.suppressing = false) : r.1.suppressing = cur.isBackground := by
  cases h with
  | rest => exact hsup
  | next => rfl

/-- A message taken while the flag is down is not a background one. -/
theorem Hidden.popped {m : Message} (h : Hidden s cur) (hc : Coupled s cur)
    (hm : m ∈ s.t.queued s.ring) : m.isBackground = s.t.suppressing := by
  rw [h.flag, hc.flight.owner hm]
  rfl

theorem passesSuppression_not_output {m : Message} (h : passesSuppression m.frame.kind = true) :
    m.isOutput = false := by
  simp only [passesSuppression, Bool.or_eq_true, decide_eq_true_eq] at h
  unfold Message.isOutput Message.isChunk
  rcases h with ((((h | h) | h) | h) | h) | h <;> rw [h] <;> rfl

theorem isDone_not_output {m : Message} (h : m.isDone = true) : m.isOutput = false := by
  have hk : m.frame.kind = 5 := of_decide_eq_true h
  exact passesSuppression_not_output (by rw [hk]; rfl)

/-- Nothing is returned, and a consumer that yields is not draining. -/
theorem Hidden.same (h : Hidden s cur) (hflag : s'.t.suppressing = cur'.isBackground)
    (hy : s'.consumer.yielded = true ∨ (s'.consumer = s.consumer ∧ s'.t.suppressing = s.t.suppressing))
    (hlog : ∀ r parts, .returned r parts ∈ s'.log → .returned r parts ∈ s.log) :
    Hidden s' cur' := by
  refine ⟨hflag, ?_, fun hr => h.returned (hlog _ _ hr)⟩
  intro buf parts hd
  rcases hy with hy | ⟨hcons, hsup⟩
  · rw [hd] at hy
    cases hy
  · rw [hsup]
    exact h.draining (hcons ▸ hd)

theorem awaited_returned {aw : Awaited} {r : ResponseChunk} {parts : List Message}
    (h : .returned r parts ∈ (s.awaited aw).log) :
    .returned r parts ∈ s.log ∨ aw.outcome = .returned r parts := by
  rcases List.mem_append.mp h with h | h
  · rcases List.mem_append.mp h with h | h
    · exact .inl h
    · obtain ⟨m, -, hm⟩ := List.mem_map.mp h
      cases hm
  · cases ho : aw.outcome with
    | returned r' parts' =>
      rw [ho, Outcome.events, List.mem_singleton] at h
      cases h
      exact .inr rfl
    | again => rw [ho] at h; cases h
    | sleep => rw [ho] at h; cases h
    | drain buf parts' => rw [ho] at h; cases h

theorem Hidden.awaited {aw : Awaited} (h : Hidden s cur)
    (hflag : aw.t.suppressing = cur'.isBackground)
    (hdrain : ∀ buf parts, aw.outcome = .drain buf parts →
      aw.t.suppressing = false ∧ ∀ m ∈ parts, m.isBackground = false)
    (hret : ∀ r parts, aw.outcome = .returned r parts →
      ∀ m ∈ parts, m.isBackground = true → m.isOutput = false) : Hidden (s.awaited aw) cur' := by
  refine ⟨hflag, ?_, ?_⟩
  · intro buf parts hd
    refine hdrain buf parts ?_
    change aw.outcome.consumer = _ at hd
    cases ho : aw.outcome with
    | drain buf' parts' =>
      rw [ho] at hd
      cases hd
      rfl
    | returned r parts' => rw [ho] at hd; cases hd
    | again => rw [ho] at hd; cases hd
    | sleep => rw [ho] at hd; cases hd
  · intro r parts hr
    rcases awaited_returned hr with hr | ho
    · exact h.returned hr
    · exact hret r parts ho

theorem Hidden.pumped {aw : Awaited} (h : Hidden s cur) (hc : Coupled s cur)
    (hround : Round s.t s.ring s.consumer aw)
    (unclosed : ∀ m, aw.popped = some m → m.isDone = false) : Hidden (s.awaited aw) cur := by
  have hflag : aw.t.suppressing = cur.isBackground := (hround.frame unclosed).1.trans h.flag
  generalize hcons : s.consumer = c at hround
  cases hround with
  | startup =>
    refine h.awaited hflag nofun ?_
    rintro _ _ ⟨⟩
    exact nofun
  | empty => exact h.awaited hflag nofun nofun
  | suppressed => exact h.awaited hflag nofun nofun
  | chunk _ _ queue flag =>
    refine h.awaited hflag ?_ nofun
    rintro _ _ ⟨⟩
    refine ⟨flag, fun m' hm' => ?_⟩
    rw [List.mem_singleton] at hm'
    rw [hm', h.popped hc (by rw [queue]; exact List.mem_cons_self), flag]
  | message _ _ queue flag =>
    refine h.awaited hflag nofun ?_
    rintro _ _ ⟨⟩ m' hm' hb
    rw [List.mem_singleton] at hm'
    subst hm'
    rw [h.popped hc (by rw [queue]; exact List.mem_cons_self)] at hb
    exact passesSuppression_not_output (flag hb)
  | done _ _ _ kind =>
    rw [unclosed _ rfl] at kind
    cases kind
  | more queue =>
    obtain ⟨hsup, hparts⟩ := h.draining hcons
    refine h.awaited hflag ?_ nofun
    rintro _ _ ⟨⟩
    refine ⟨hsup, fun m' hm' => ?_⟩
    rcases List.mem_append.mp hm' with hm' | hm'
    · exact hparts m' hm'
    · rw [List.mem_singleton] at hm'
      rw [hm', h.popped hc (List.mem_append_right _ (by rw [queue]; exact List.mem_cons_self)), hsup]
  | cut =>
    refine h.awaited hflag nofun ?_
    rintro _ _ ⟨⟩ m' hm' hb
    rw [(h.draining hcons).2 m' hm'] at hb
    cases hb
  | dry =>
    refine h.awaited hflag nofun ?_
    rintro _ _ ⟨⟩ m' hm' hb
    rw [(h.draining hcons).2 m' hm'] at hb
    cases hb

theorem Coupled.undisturbed {job : Job} (hc : Coupled s cur)
    (hok : Undisturbed s a) (hjob : a.job = some job) (hu : job.isUser = true) :
    cur.isBackground = false := by
  cases a with
  | submit code =>
    unfold Current.isBackground
    cases hj : cur.job with
    | none => rfl
    | some job' => simpa using hok job' (by rw [hc.job_eq, hj]; rfl)
  | backgroundSubmit code =>
    cases hjob
    cases hu
  | _ => cases hjob

theorem Hidden.change (h : Hidden s cur) (hc : Coupled s cur)
    (hch : Change cap s cur a s' cur') (hok : Undisturbed s a) : Hidden s' cur' := by
  cases hch with
  | @queued _ _ job yielded submits =>
    refine h.same ?_ (.inl yielded) fun _ _ => id
    show (s.t.suppressing && !job.isUser) = cur.isBackground
    rw [h.flag]
    cases hu : job.isUser with
    | false => exact Bool.and_true _
    | true => rw [hc.undisturbed hok submits hu, Bool.false_and]
  | handed yielded => exact h.same rfl (.inl yielded) fun _ _ => id
  | opened yielded _ _ flush =>
    exact h.same (flush.flag h.flag) (.inl yielded) fun _ _ => id
  | called _ _ loops =>
    refine ⟨h.flag, ?_, h.returned⟩
    rintro _ _ hd
    rcases loops with rfl | rfl <;> cases hd
  | pumped _ round unclosed => exact h.pumped hc round unclosed
  | @closed m r _ _ _ _ _ kind flush =>
    refine h.awaited (flush.flag rfl) ?_ ?_
    · intro buf parts ho
      change (if _ then _ else _) = _ at ho
      split at ho <;> cases ho
    · intro r' parts ho m' hm' _
      change (if _ then _ else _) = _ at ho
      split at ho
      · cases ho
      · cases ho
        rw [List.mem_singleton] at hm'
        rw [hm']
        exact isDone_not_output kind
  | took => exact h.same h.flag (.inr ⟨rfl, rfl⟩) fun _ _ => id
  | started =>
    refine h.same h.flag (.inr ⟨rfl, rfl⟩) fun r parts hr => ?_
    rcases List.mem_append.mp hr with hr | hr
    · exact hr
    · rw [List.mem_singleton] at hr
      cases hr
  | pushed => exact h.same h.flag (.inr ⟨rfl, rfl⟩) fun _ _ => id
  | finished => exact h.same h.flag (.inr ⟨rfl, rfl⟩) fun _ _ => id

/-! ## Runs -/

def Suppressed (s : State) : Prop := ∃ cur, Coupled s cur ∧ Hidden s cur

theorem suppressed_start : Suppressed start := ⟨_, coupled_start, hidden_start⟩

theorem Suppressed.step (h : Suppressed s) (hs : Restrict Undisturbed (Steps cap) s a s') :
    Suppressed s' := by
  obtain ⟨cur, hc, h⟩ := h
  obtain ⟨cur', hc', hch⟩ := hc.step hs.2
  exact ⟨cur', hc', h.change hc hch hs.1⟩

/-- In every run in which no user submission is made while a background evaluation is under way,
no response is made of a background evaluation's output. -/
theorem background_output_hidden {as : List Action}
    (h : Run (Restrict Undisturbed (Steps cap)) start as s) :
    ∀ r parts, .returned r parts ∈ s.log →
      ∀ m ∈ parts, m.isBackground = true → m.isOutput = false := by
  obtain ⟨cur, -, hhidden⟩ := Run.invariant (fun hi hs => hi.step hs) suppressed_start h
  exact fun r parts hr => hhidden.returned hr

instance (s : State) : (a : Action) → Decidable (Undisturbed s a)
  | .submit _ => inferInstanceAs (Decidable (∀ job ∈ s.job, job.isUser = true))
  | .backgroundSubmit _ | .initialised _ | .await | .cancel | .loop | .drain | .take | .reset
  | .push _ | .finish => instDecidableTrue

/-- A background evaluation prints; the user submits when it is over. -/
def hiddenRun : List Action :=
  [.initialised [], .backgroundSubmit (bytes "library(x)"), .take, .reset,
    .push ⟨0, 0, bytes "Loading"⟩, .finish, .await, .loop, .loop, .loop, .submit (bytes "1+1"),
    .take, .reset, .push ⟨2, 0, bytes "2"⟩, .loop]

theorem background_output_hidden_after : ∃ s, Run (Restrict Undisturbed (Steps 64)) start hiddenRun s ∧
    responses s.log = [.result (bytes "2")] ∧
    ∀ r parts, .returned r parts ∈ s.log →
      ∀ m ∈ parts, m.isBackground = true → m.isOutput = false := by
  obtain ⟨s, hrun, hlog⟩ : ∃ s, Transition.exec
      (Transition.guarded Undisturbed (step 64)) start hiddenRun = some s ∧
        responses s.log = [.result (bytes "2")] := ⟨_, rfl, rfl⟩
  have h := Transition.run_of_guarded hrun
  exact ⟨s, h, hlog, background_output_hidden h⟩

/-- The user submits while a background evaluation is printing. -/
def disturbedRun : List Action :=
  [.initialised [], .backgroundSubmit (bytes "library(x)"), .take, .reset, .submit (bytes "1+1"),
    .push ⟨0, 0, bytes "Loading"⟩, .await, .loop, .drain]

/-- The submission lowers the flag, and the background output is returned. -/
theorem background_output_returned : ∃ s, Run (Steps 64) start disturbedRun s ∧
    ∃ r parts, .returned r parts ∈ s.log ∧
      ∃ m ∈ parts, m.isBackground = true ∧ m.isOutput = true := by
  obtain ⟨s, hrun, hreturned⟩ : ∃ s, Transition.exec (step 64) start disturbedRun = some s ∧
      .returned (.stdout (bytes "Loading"))
        [⟨⟨0, 0, bytes "Loading"⟩, ⟨0, .background (bytes "library(x)")⟩⟩] ∈ s.log :=
    ⟨_, rfl, by decide⟩
  exact ⟨s, Transition.run_of_exec hrun, _, _, hreturned, _, List.mem_singleton.mpr rfl, rfl, rfl⟩

end Ffi
end Raoui
