import Raoui.Ffi.Flight

/-!
# Raoui.Ffi.DoneDelivery

Which evaluation is under way, and what became of the last user evaluation's DONE.

* `Track`: what the log says about the last user evaluation.
* `Inv`: what every step keeps, provided no DONE of a user evaluation is popped while only
  background work is pending.
-/

namespace Raoui
namespace Ffi

open Transition (Run Restrict)
open Raoui.Ring (Frame)

/-! ## The last user evaluation in the log -/

def NoUserStarted (log : List Event) : Prop := ∀ e, .started e ∈ log → e.job.isUser = false

/-- The last user evaluation's DONE was popped and afterwards a `Done` was returned. -/
def LastUserDelivered (log : List Event) : Prop :=
  ∃ pre e mid m rest parts, log = pre ++ .started e :: mid ++ .popped m :: rest ∧
    e.job.isUser = true ∧ NoUserStarted (mid ++ .popped m :: rest) ∧
    m.owner = e ∧ m.isDone = true ∧ .returned .done parts ∈ rest

/-- How far the last user evaluation has come. -/
inductive Phase where
  | unused
  | running (e : Eval)
  | owed
  | answered

inductive Track : List Event → Phase → Prop where
  | unused {log : List Event} : NoUserStarted log → Track log .unused
  | running {pre mid : List Event} {e : Eval} : e.job.isUser = true → NoUserStarted mid →
      Track (pre ++ .started e :: mid) (.running e)
  | owed {pre mid rest : List Event} {e : Eval} {m : Message} : e.job.isUser = true →
      NoUserStarted (mid ++ .popped m :: rest) → m.owner = e → m.isDone = true →
      Track (pre ++ .started e :: (mid ++ .popped m :: rest)) .owed
  | answered {log : List Event} : LastUserDelivered log → Track log .answered

/-- The event does not start a user evaluation. -/
def Event.quiet : Event → Prop
  | .started e => e.job.isUser = false
  | _ => True

theorem NoUserStarted.append {log : List Event} (h : NoUserStarted log) (ev : Event)
    (hev : ev.quiet) : NoUserStarted (log ++ [ev]) := by
  intro e he
  rcases List.mem_append.mp he with he | he
  · exact h e he
  · rw [List.mem_singleton] at he
    subst he
    exact hev

theorem Track.quiet {log : List Event} {p : Phase} (h : Track log p) (ev : Event)
    (hev : ev.quiet) : Track (log ++ [ev]) p := by
  cases h with
  | unused hno => exact .unused (hno.append ev hev)
  | running hu hno =>
    rw [List.append_assoc, List.cons_append]
    exact .running hu (hno.append ev hev)
  | owed hu hno ho hd =>
    have := hno.append ev hev
    rw [List.append_assoc, List.cons_append] at this ⊢
    rw [List.append_assoc, List.cons_append]
    exact .owed hu this ho hd
  | answered h =>
    obtain ⟨pre, e, mid, m, rest, parts, rfl, hu, hno, ho, hd, hr⟩ := h
    have := hno.append ev hev
    rw [List.append_assoc, List.cons_append] at this
    exact .answered ⟨pre, e, mid, m, rest ++ [ev], parts, by simp, hu, this, ho, hd,
      List.mem_append_left _ hr⟩

theorem Track.events {log evs : List Event} {p : Phase} (h : Track log p)
    (hevs : ∀ ev ∈ evs, ev.quiet) : Track (log ++ evs) p := by
  induction evs generalizing log with
  | nil => simpa using h
  | cons ev evs ih =>
    have := ih (h.quiet ev (hevs ev List.mem_cons_self))
      fun ev' h' => hevs ev' (List.mem_cons_of_mem ev h')
    simpa using this

theorem Track.start {log : List Event} {p : Phase} {e : Eval} (_ : Track log p)
    (hu : e.job.isUser = true) : Track (log ++ [.started e]) (.running e) :=
  .running hu (fun _ h => by cases h)

theorem Track.user {log : List Event} {e : Eval} (h : Track log (.running e)) :
    e.job.isUser = true := by
  cases h with
  | running hu _ => exact hu

theorem Track.done {log : List Event} {e : Eval} {m : Message} (h : Track log (.running e))
    (ho : m.owner = e) (hd : m.isDone = true) : Track (log ++ [.popped m]) .owed := by
  cases h with
  | running hu hno =>
    rw [List.append_assoc, List.cons_append]
    exact .owed hu (hno.append _ trivial) ho hd

theorem Track.answer {log : List Event} (h : Track log .owed) (parts : List Message) :
    Track (log ++ [.returned .done parts]) .answered := by
  cases h with
  | @owed pre mid rest e m hu hno ho hd =>
    have := hno.append (.returned .done parts) trivial
    rw [List.append_assoc, List.cons_append] at this
    exact .answered ⟨pre, e, mid, m, rest ++ [.returned .done parts], parts, by simp, hu, this, ho,
      hd, by simp⟩

/-! ## The invariant -/

def HasUser (pending : List Job) : Prop := ∃ job ∈ pending, job.isUser = true

/-- The flag is down during a user evaluation; during a background one it is down only when a user
submission is waiting behind it. -/
structure Suppress (t : Backend) (cur : Current) : Prop where
  rest : cur.job = none → t.suppressing = false
  user : ∀ {job}, cur.job = some job → job.isUser = true → t.suppressing = false
  background : ∀ {job}, cur.job = some job → job.isUser = false → t.suppressing = false →
    HasUser t.pending

def Fits (pending : List Job) (cur : Current) : Phase → Prop
  | .running e => cur = .evaluating e
  | .owed => HasUser pending ∨ ∃ job, cur = .waiting job ∧ job.isUser = true
  | _ => True

structure Valid (s : State) (cur : Current) (phase : Phase) : Prop extends Coupled s cur where
  suppress : Suppress s.t cur
  track : Track s.log phase
  fits : Fits s.t.pending cur phase

def Inv (s : State) : Prop := ∃ cur phase, Valid s cur phase

theorem inv_start : Inv start := by
  refine ⟨.resting, .unused, coupled_start, ⟨fun _ => rfl, nofun, nofun⟩, ?_, trivial⟩
  exact .unused (by intro _ h; cases h)

theorem HasUser.append_right {pending : List Job} (h : HasUser pending) (jobs : List Job) :
    HasUser (pending ++ jobs) := by
  obtain ⟨job, hmem, hu⟩ := h
  exact ⟨job, List.mem_append_left _ hmem, hu⟩

theorem Fits.append {pending : List Job} {cur : Current} {phase : Phase} (h : Fits pending cur phase)
    (jobs : List Job) : Fits (pending ++ jobs) cur phase := by
  cases phase with
  | owed => exact h.imp (fun h => h.append_right jobs) id
  | unused => trivial
  | running e => exact h
  | answered => trivial

/-- With nothing under way, a phase that is not over is owed to a pending user submission. -/
theorem Fits.owed {pending : List Job} {phase : Phase} {cur : Current}
    (h : Fits pending .resting phase)
    (hu : HasUser pending → Fits pending cur .owed) : Fits pending cur phase := by
  cases phase with
  | unused => trivial
  | running e => cases h
  | owed =>
    rcases h with h | ⟨_, hc, _⟩
    · exact hu h
    · cases hc
  | answered => trivial

theorem HasUser.of_cons {job : Job} {rest : List Job} (h : HasUser (job :: rest))
    (hj : job.isUser = false) : HasUser rest := by
  obtain ⟨job', hmem, hu⟩ := h
  rcases List.mem_cons.mp hmem with rfl | hmem
  · rw [hj] at hu
    cases hu
  · exact ⟨job', hmem, hu⟩

/-! ## The flag -/

/-- A job just handed over: the flag says whether it is a background one. -/
theorem Suppress.handed {t : Backend} {job : Job} (ht : t.suppressing = !job.isUser) :
    Suppress t (.waiting job) := by
  constructor
  case rest => exact nofun
  case user =>
    rintro _ ⟨⟩ hu
    rw [ht, hu]
    rfl
  case background =>
    rintro _ ⟨⟩ hu hs
    rw [ht, hu] at hs
    cases hs

theorem Flushes.suppress {t : Backend} {r : Backend × Option Job} {cur : Current}
    (h : Flushes t r cur) (hsup : t.suppressing = false) : Suppress r.1 cur := by
  cases h with
  | rest => exact ⟨fun _ => hsup, nofun, nofun⟩
  | next => exact .handed rfl

/-- Whatever changes neither the job under way nor the flag nor the queue keeps the condition. -/
theorem Suppress.same {t t' : Backend} {cur cur' : Current} (h : Suppress t cur)
    (hjob : cur'.job = cur.job) (hsup : t'.suppressing = t.suppressing)
    (hpending : t'.pending = t.pending) : Suppress t' cur' := by
  refine ⟨?_, ?_, ?_⟩
  · rw [hjob, hsup]
    exact h.rest
  · rw [hjob, hsup]
    exact h.user
  · rw [hjob, hsup, hpending]
    exact h.background

variable {cap : Nat} {s s' : State} {a : Action} {cur cur' : Current} {phase : Phase}

theorem Suppress.change (h : Suppress s.t cur) (hch : Change cap s cur a s' cur') :
    Suppress s'.t cur' := by
  cases hch with
  | @queued _ _ job =>
    refine ⟨fun hj => ?_, fun hj hu => ?_, fun hj hb hs => ?_⟩
    · show (s.t.suppressing && !job.isUser) = false
      rw [h.rest hj, Bool.false_and]
    · show (s.t.suppressing && !job.isUser) = false
      rw [h.user hj hu, Bool.false_and]
    · -- a user submission lowers the flag, and is then the one that waits
      change (s.t.suppressing && !job.isUser) = false at hs
      cases huser : job.isUser with
      | true => exact ⟨job, by simp, huser⟩
      | false =>
        rw [huser, Bool.not_false, Bool.and_true] at hs
        exact (h.background hj hb hs).append_right _
  | handed => exact .handed rfl
  | opened _ _ _ flush => exact flush.suppress (h.rest rfl)
  | called => exact h
  | pumped _ round unclosed =>
    obtain ⟨hsup, hpending, -⟩ := round.frame unclosed
    exact h.same rfl hsup hpending
  | closed _ _ _ _ _ flush => exact flush.suppress rfl
  | took => exact h
  | started => exact h.same rfl rfl rfl
  | pushed => exact h
  | finished => exact h

/-! ## The log -/

theorem Outcome.events_quiet (o : Outcome) : ∀ ev ∈ o.events, ev.quiet := by
  intro ev h
  cases o with
  | returned r parts =>
    simp only [Outcome.events, List.mem_singleton] at h
    subst h
    trivial
  | again => cases h
  | sleep => cases h
  | drain buf parts => cases h

/-- When a round pops the DONE of a user evaluation, what is pending must not be background work
alone. -/
def DoneAnswered (s : State) : Action → Prop
  | .loop => ∀ m ∈ (s.t.queued s.ring).head?, s.t.pendingStartupOutput = none → m.isDone = true →
      m.owner.job.isUser = true → s.t.pending = [] ∨ HasUser s.t.pending
  | _ => True

instance (pending : List Job) : Decidable (HasUser pending) :=
  inferInstanceAs (Decidable (∃ job ∈ pending, _))

instance (s : State) : (a : Action) → Decidable (DoneAnswered s a)
  | .loop => inferInstanceAs (Decidable (∀ m ∈ (s.t.queued s.ring).head?,
      s.t.pendingStartupOutput = none → m.isDone = true → m.owner.job.isUser = true →
        s.t.pending = [] ∨ HasUser s.t.pending))
  | .submit _ | .backgroundSubmit _ | .initialised _ | .await | .cancel | .drain | .take | .reset
  | .push _ | .finish => instDecidableTrue

theorem Fits.flush {t : Backend} {r : Backend × Option Job}
    (h : Fits t.pending .resting phase) (hf : Flushes t r cur) : Fits r.1.pending cur phase := by
  cases hf with
  | rest => exact h
  | @next job rest hp =>
    rw [hp] at h
    cases phase with
    | unused => trivial
    | running e => cases h
    | owed =>
      rcases h with h | ⟨_, hc, _⟩
      · cases hj : job.isUser with
        | true => exact .inr ⟨job, rfl, hj⟩
        | false => exact .inl (h.of_cons hj)
      · cases hc
    | answered => trivial

theorem Flushes.owed {t : Backend} {r : Backend × Option Job} (hf : Flushes t r cur)
    (hu : HasUser t.pending) : Fits r.1.pending cur .owed :=
  Fits.flush (.inl hu) hf

/-- The log after a DONE was popped, whether it is answered or another job follows. -/
theorem Valid.next_phase {m : Message} {r : Backend × Option Job}
    (h : Valid s (.evaluating m.owner) phase) (hm : m.isDone = true)
    (hf : Flushes { s.t with stashed := none, busy := false, suppressing := false } r cur)
    (hok : m.owner.job.isUser = true → s.t.pending = [] ∨ HasUser s.t.pending) :
    ∃ phase', Fits r.1.pending cur phase' ∧ Track (s.log ++ [.popped m] ++
      (if r.1.busy || s.t.suppressing then Outcome.again else .returned .done [m]).events) phase' := by
  cases hp : phase with
  | unused =>
    rw [hp] at h
    exact ⟨.unused, trivial,
      (h.track.quiet (.popped m) trivial).events (Outcome.events_quiet _)⟩
  | answered =>
    rw [hp] at h
    exact ⟨.answered, trivial,
      (h.track.quiet (.popped m) trivial).events (Outcome.events_quiet _)⟩
  | owed =>
    rw [hp] at h
    have htrack := h.track.quiet (.popped m) trivial
    split
    · refine ⟨.owed, ?_, htrack.events (Outcome.events_quiet _)⟩
      rcases h.fits with hu | ⟨_, hc, _⟩
      · exact hf.owed hu
      · cases hc
    · exact ⟨.answered, trivial, htrack.answer [m]⟩
  | running e =>
    rw [hp] at h
    have he : m.owner = e := by
      have := h.fits
      simp only [Fits, Current.evaluating.injEq] at this
      exact this
    have huser : m.owner.job.isUser = true := by rw [he]; exact h.track.user
    have htrack := h.track.done he hm
    split
    · rename_i hagain
      refine ⟨.owed, ?_, htrack.events (Outcome.events_quiet _)⟩
      rw [h.suppress.user rfl huser, Bool.or_false] at hagain
      rcases hok huser with hnil | hu
      · cases hf with
        | rest => cases hagain
        | next hp =>
          change s.t.pending = _ at hp
          rw [hnil] at hp
          cases hp
      · exact hf.owed hu
    · exact ⟨.answered, trivial, htrack.answer [m]⟩

/-- A step that starts no user evaluation and pops no DONE keeps the phase. -/
theorem Valid.quiet {evs : List Event} (h : Valid s cur phase) (hc : Coupled s' cur')
    (hsup : Suppress s'.t cur') (hlog : s'.log = s.log ++ evs) (hevs : ∀ ev ∈ evs, ev.quiet)
    (hfits : Fits s'.t.pending cur' phase) : Inv s' := by
  refine ⟨cur', phase, hc, hsup, ?_, hfits⟩
  rw [hlog]
  exact h.track.events hevs

theorem Valid.started {job : Job} (h : Valid s (.waiting job) phase)
    (hc : Coupled s' (.evaluating ⟨s.evals, job⟩)) (hsup : Suppress s'.t (.evaluating ⟨s.evals, job⟩))
    (hpending : s'.t.pending = s.t.pending)
    (hlog : s'.log = s.log ++ [.started ⟨s.evals, job⟩]) : Inv s' := by
  cases hu : job.isUser with
  | true =>
    refine ⟨_, .running ⟨s.evals, job⟩, hc, hsup, ?_,
      rfl⟩
    rw [hlog]
    exact h.track.start hu
  | false =>
    refine h.quiet hc hsup hlog ?_ ?_
    · intro ev hev
      rw [List.mem_singleton] at hev
      subst hev
      exact hu
    · rw [hpending]
      have hfits := h.fits
      cases phase with
      | unused => trivial
      | running e => cases hfits
      | owed =>
        rcases hfits with hp | ⟨job', hj, hu'⟩
        · exact .inl hp
        · cases hj
          rw [hu] at hu'
          cases hu'
      | answered => trivial

/-! ## Runs -/

theorem Inv.step (h : Inv s) (hs : Restrict DoneAnswered (Steps cap) s a s') : Inv s' := by
  obtain ⟨cur, phase, h⟩ := h
  obtain ⟨hok, hs⟩ := hs
  obtain ⟨cur', hc, hch⟩ := h.toCoupled.step hs
  have hsup := h.suppress.change hch
  cases hch with
  | queued => exact h.quiet hc hsup (List.append_nil _).symm nofun (h.fits.append _)
  | handed _ _ _ hp =>
    refine h.quiet hc hsup (List.append_nil _).symm nofun (h.fits.owed fun hu => ?_)
    obtain ⟨_, hmem, _⟩ := hu
    rw [hp] at hmem
    cases hmem
  | opened _ _ _ flush =>
    refine h.quiet hc hsup (List.append_nil _).symm nofun (Fits.flush ?_ flush)
    exact h.fits
  | called => exact h.quiet hc hsup (List.append_nil _).symm nofun h.fits
  | @pumped _ _ aw _ round unclosed =>
    obtain ⟨-, hpending, -⟩ := round.frame unclosed
    refine h.quiet hc hsup (List.append_assoc _ _ _) ?_ ?_
    · intro ev hev
      rcases List.mem_append.mp hev with hev | hev
      · obtain ⟨m, -, rfl⟩ := List.mem_map.mp hev
        trivial
      · exact Outcome.events_quiet _ ev hev
    · show Fits aw.t.pending cur phase
      rw [hpending]
      exact h.fits
  | @closed m r _ _ _ startup queue kind flush =>
    obtain ⟨phase', hfits, htrack⟩ := h.next_phase kind flush
      (hok m (by rw [queue]; rfl) startup kind)
    exact ⟨cur', phase', hc, hsup, htrack, hfits⟩
  | took => exact h.quiet hc hsup (List.append_nil _).symm nofun h.fits
  | started => exact h.started hc hsup rfl rfl
  | pushed => exact h.quiet hc hsup (List.append_nil _).symm nofun h.fits
  | finished => exact h.quiet hc hsup (List.append_nil _).symm nofun h.fits

/-- Ready, not busy, nothing pending or stashed, and the ring drained. -/
def Idle (s : State) : Prop :=
  s.t.ready = true ∧ s.t.busy = false ∧ s.t.pending = [] ∧ s.t.stashed = none ∧ s.ring = []

theorem Inv.idle_delivered {s : State} (h : Inv s) (hidle : Idle s)
    (huser : ∃ e, .started e ∈ s.log ∧ e.job.isUser = true) : LastUserDelivered s.log := by
  obtain ⟨cur, phase, h⟩ := h
  obtain ⟨hready, hbusy, hpending, -, -⟩ := hidle
  have hflight := h.flight
  rw [hbusy] at hflight
  obtain ⟨-, -, -, rfl⟩ := hflight.not_busy
  have hfits := h.fits
  have htrack := h.track
  rw [hpending] at hfits
  generalize s.log = log at *
  cases htrack with
  | unused hno =>
    obtain ⟨e, hmem, hu⟩ := huser
    rw [hno e hmem] at hu
    cases hu
  | running => cases hfits
  | owed =>
    rcases hfits with ⟨_, hmem, _⟩ | ⟨_, hc, _⟩
    · cases hmem
    · cases hc
  | answered hd => exact hd

/-- In every run that never pops the DONE of a user evaluation while background work alone is
pending, the last user evaluation is answered before the backend is idle. -/
theorem last_user_done_delivered {cap : Nat} {as : List Action} {s : State}
    (h : Run (Restrict DoneAnswered (Steps cap)) start as s) (hidle : Idle s)
    (huser : ∃ e, .started e ∈ s.log ∧ e.job.isUser = true) : LastUserDelivered s.log :=
  (Run.invariant (fun hi hs => hi.step hs) inv_start h).idle_delivered hidle huser

instance (s : State) : Decidable (Idle s) := inferInstanceAs (Decidable (_ ∧ _ ∧ _ ∧ _ ∧ _))

/-- A user evaluation, with a background one started when it has been answered. -/
def answeredRun : List Action :=
  [.initialised [], .submit (bytes "1+1"), .take, .reset, .push ⟨2, 0, bytes "2"⟩, .finish, .await,
    .loop, .await, .loop, .backgroundSubmit (bytes "options(width=80)"), .take, .reset, .finish,
    .await, .loop, .loop]

theorem last_user_done_delivered_answered :
    ∃ s, Run (Restrict DoneAnswered (Steps 64)) start answeredRun s ∧ Idle s ∧
      LastUserDelivered s.log := by
  obtain ⟨s, hrun, hidle, hstarted⟩ : ∃ s, Transition.exec
      (Transition.guarded DoneAnswered (step 64)) start answeredRun = some s ∧ Idle s ∧
        .started ⟨0, .user (bytes "1+1")⟩ ∈ s.log :=
    ⟨_, rfl, by decide, by decide⟩
  have h := Transition.run_of_guarded hrun
  exact ⟨s, h, hidle, last_user_done_delivered h hidle ⟨_, hstarted, rfl⟩⟩

/-- A resize while a user evaluation runs queues a background job behind it. -/
def swallowedRun : List Action :=
  [.initialised [], .submit (bytes "1+1"), .take, .reset,
    .backgroundSubmit (bytes "options(width=80)"), .finish, .await, .loop, .take, .reset, .finish,
    .loop, .loop]

def Event.answers : Event → Bool
  | .returned .done _ => true
  | _ => false

/-- Its DONE only starts the background job, and the background DONE is not answered. -/
theorem last_user_done_swallowed : ∃ s, Run (Steps 64) start swallowedRun s ∧ Idle s ∧
    (∃ e, .started e ∈ s.log ∧ e.job.isUser = true) ∧ ¬ LastUserDelivered s.log := by
  obtain ⟨s, hrun, hidle, hstarted, hnone⟩ : ∃ s, Transition.exec (step 64) start swallowedRun =
      some s ∧ Idle s ∧ .started ⟨0, .user (bytes "1+1")⟩ ∈ s.log ∧ s.log.any Event.answers = false :=
    ⟨_, rfl, by decide, by decide, rfl⟩
  refine ⟨s, Transition.run_of_exec hrun, hidle, ⟨_, hstarted, rfl⟩, ?_⟩
  rintro ⟨pre, e, mid, m, rest, parts, hlog, -, -, -, -, hr⟩
  have hmem : Event.returned .done parts ∈ s.log := by
    rw [hlog]
    simp [hr]
  have := List.any_eq_false.mp hnone _ hmem
  exact this rfl

end Ffi
end Raoui
