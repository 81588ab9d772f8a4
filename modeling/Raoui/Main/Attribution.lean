import Raoui.Main.Keeping

/-!
# Raoui.Main.Attribution

The store keeps what each evaluation printed under the command it was submitted by.

* `Offstage`, `Stage`: what is under way, and how far the outstanding submission has come.
* `Sound`: the invariant of orderly steps; one lemma for each stage and for each action.
* `attributed_run`: every run of orderly steps.
* `misattributed`: typing ahead is enough to bring the store and the backend apart.
-/

namespace Raoui
namespace Main

open Ffi (Event Eval Job ResponseChunk Coupled Change Current Flushes Suppress Delivering
  mergeStdout undelivered responses)
open History (Command Db Status Tally Untouched responseOutput closingStatus)
open Transition (Run Restrict)

variable {t t' : History} {row : Option Nat} {cancelled : Bool} {rs : List ResponseChunk}
  {s s' : Session} {before : Db} {done : List Submission}

/-! ## Responses that are not recorded -/

/-- Nothing is stored of the response, or nothing is active to store it under. -/
def Unrecorded (t : History) (r : ResponseChunk) : Prop :=
  (responseOutput r = none ∧ r ≠ .done) ∨ (t.activeCommandId = none ∧ ∃ output, r = .stdout output)

theorem Unrecorded.receive {r : ResponseChunk} (h : Unrecorded s.history r) :
    (s.receive r).history = s.history := by
  cases hp : s.passthrough with
  | true =>
    rw [receive_passing hp]
    cases r <;> rfl
  | false =>
    rw [receive_listening hp]
    rcases h with ⟨hr, hne⟩ | ⟨ha, output, rfl⟩
    · cases r with
      | stdout | result | rError | internalError | image | restarted => cases hr
      | done => exact absurd rfl hne
      | _ => rfl
    · exact History.recordResponse_idle ha (r := .stdout output) rfl

theorem receives_unrecorded {new : List ResponseChunk} (h : ∀ r ∈ new, Unrecorded s.history r) :
    (new.foldl Session.receive s).history = s.history := by
  induction new generalizing s with
  | nil => rfl
  | cons r new ih =>
    have hr := (h r List.mem_cons_self).receive
    rw [List.foldl_cons, ih fun r' hr' => ?_, hr]
    rw [hr]
    exact h r' (List.mem_cons_of_mem r hr')

theorem returned_append {log log' : List Event} {new : List ResponseChunk}
    (h : responses log' = responses log ++ new) : returned log log' = new := by
  rw [returned, h, List.drop_left]

/-! ## Counting -/

theorem startedUsers_awaited (ffi : Ffi.State) (aw : Ffi.Awaited) :
    startedUsers (ffi.awaited aw).log = startedUsers ffi.log := by
  have hpop : startedUsers (aw.popped.toList.map .popped) = 0 := by
    cases aw.popped <;> rfl
  have hout : startedUsers aw.outcome.events = 0 := by
    cases aw.outcome <;> rfl
  show startedUsers (ffi.log ++ aw.popped.toList.map .popped ++ aw.outcome.events) = _
  rw [startedUsers, List.countP_append, List.countP_append]
  rw [startedUsers] at hpop hout
  rw [hpop, hout]
  rfl

theorem closedUsers_awaited (ffi : Ffi.State) (aw : Ffi.Awaited) :
    closedUsers (ffi.awaited aw).log =
      closedUsers ffi.log + aw.popped.toList.countP fun m => m.isDone && m.owner.job.isUser := by
  have hpop : closedUsers (aw.popped.toList.map .popped) =
      aw.popped.toList.countP fun m => m.isDone && m.owner.job.isUser := by
    cases aw.popped <;> rfl
  have hout : closedUsers aw.outcome.events = 0 := by
    cases aw.outcome <;> rfl
  show closedUsers (ffi.log ++ aw.popped.toList.map .popped ++ aw.outcome.events) = _
  rw [closedUsers, List.countP_append, List.countP_append]
  rw [closedUsers] at hpop hout
  rw [hpop, hout]
  rfl

theorem closedUsers_unclosed (ffi : Ffi.State) {aw : Ffi.Awaited}
    (h : ∀ m, aw.popped = some m → (m.isDone && m.owner.job.isUser) = false) :
    closedUsers (ffi.awaited aw).log = closedUsers ffi.log := by
  rw [closedUsers_awaited]
  cases hp : aw.popped with
  | none => rfl
  | some m => simp [h m hp]

/-! ## The submission outstanding -/

/-- No user evaluation is under way, and nothing that is on its way is recorded. -/
structure Offstage (ffi : Ffi.State) (t : History) (cur : Current) : Prop where
  background : ∀ job ∈ cur.job, job.isUser = false
  quiet : ∀ m ∈ ffi.t.queued ffi.ring,
    (Ffi.passesSuppression m.frame.kind = true ∨ ffi.t.suppressing = false) →
      responseOutput m.response = none
  undrained : ∀ {buf parts}, ffi.consumer ≠ .draining buf parts
  startup : ffi.t.pendingStartupOutput ≠ none → t.activeCommandId = none

/-- Nothing of the submission has been evaluated. -/
structure Fresh (ffi : Ffi.State) (t : History) (sub : Submission) : Prop where
  produced : sub.produced = []
  keeping : Keeping t sub.row sub.cancelled []
  startup : ffi.t.pendingStartupOutput = none

theorem Fresh.same {ffi ffi' : Ffi.State} {sub : Submission} (h : Fresh ffi t sub)
    (hstartup : ffi'.t.pendingStartupOutput = ffi.t.pendingStartupOutput) : Fresh ffi' t sub :=
  ⟨h.produced, h.keeping, hstartup.trans h.startup⟩

/-- `next` is the submission outstanding, if there is one, and `n` is how many there were before
it. -/
inductive Stage (n : Nat) (s : Session) : Current → Option Submission → Prop where
  | off {cur : Current} {next : Option Submission} {jobs : List Job}
      (background : ∀ job ∈ jobs, job.isUser = false)
      (pending : s.ffi.t.pending = jobs ++ next.toList.map fun sub => .user sub.code)
      (offstage : Offstage s.ffi s.history cur) (fresh : ∀ sub ∈ next, Fresh s.ffi s.history sub)
      (started : startedUsers s.ffi.log = n) : Stage n s cur next
  | waiting {job : Job} {sub : Submission} (user : job.isUser = true)
      (pending : s.ffi.t.pending = []) (fresh : Fresh s.ffi s.history sub)
      (started : startedUsers s.ffi.log = n) : Stage n s (.waiting job) (some sub)
  | evaluating {e : Eval} {sub : Submission} {base rs : List ResponseChunk}
      (user : e.job.isUser = true)
      (delivering : Delivering s.ffi (.evaluating e) base rs sub.produced)
      (keeping : Keeping s.history sub.row sub.cancelled rs)
      (heard : ((s.ear sub.row).heard (undelivered s.ffi)).isSome = true)
      (started : startedUsers s.ffi.log = n + 1) : Stage n s (.evaluating e) (some sub)

def Session.rows (s : Session) : List Nat := s.submissions.filterMap Submission.row

structure Sound (before : Db) (s : Session) (cur : Current) (done : List Submission)
    (next : Option Submission) : Prop where
  coupled : Coupled s.ffi cur
  suppress : Suppress s.ffi.t cur
  submissions : s.submissions = done ++ next.toList
  closed : s.closed = done.length
  ledger : Ledger before s.history done s.rows
  stage : Stage done.length s cur next

variable {cap : Nat} {cur cur' : Current} {next : Option Submission} {ffi : Ffi.State}

theorem Offstage.round {t : History} {aw : Ffi.Awaited} (h : Offstage ffi t cur)
    (round : Ffi.Round ffi.t ffi.ring ffi.consumer aw)
    (unclosed : ∀ m, aw.popped = some m → m.isDone = false) :
    (∀ r ∈ aw.outcome.responses, Unrecorded t r) ∧ Offstage (ffi.awaited aw) t cur := by
  obtain ⟨hsup, -, -⟩ := round.frame unclosed
  generalize hcons : ffi.consumer = c at round
  cases round with
  | @startup _ output _ ho =>
    refine ⟨fun r hr => ?_, h.background, h.quiet, (fun hd => by cases hd), fun hne => absurd rfl hne⟩
    rw [Ffi.Outcome.responses, List.mem_singleton] at hr
    exact .inr ⟨h.startup (by rw [ho]; exact Option.some_ne_none _), output, hr⟩
  | empty _ _ queue =>
    refine ⟨List.forall_mem_nil _, h.background, ?_, (fun hd => by cases hd), h.startup⟩
    have hstash : ffi.t.stashed = none := by
      simp only [Ffi.Backend.queued, List.append_eq_nil_iff, Option.toList_eq_nil_iff] at queue
      exact queue.1
    intro m hm
    change m ∈ ffi.t.stashed.toList ++ [] at hm
    rw [hstash] at hm
    cases hm
  | suppressed _ ho queue =>
    exact ⟨List.forall_mem_nil _, h.background,
      fun m hm => h.quiet m (by rw [queue]; exact List.mem_cons_of_mem _ hm),
      (fun hd => by cases hd), h.startup⟩
  | chunk _ _ queue flag kind =>
    have := h.quiet _ (by rw [queue]; exact List.mem_cons_self) (.inr flag)
    rw [Ffi.Message.response_chunk kind] at this
    cases this
  | @message _ m _ _ _ queue flag chunk hdone =>
    refine ⟨fun r hr => ?_, h.background,
      fun m hm => h.quiet m (by rw [queue]; exact List.mem_cons_of_mem _ hm),
      (fun hd => by cases hd), h.startup⟩
    rw [Ffi.Outcome.responses, List.mem_singleton] at hr
    rw [hr]
    refine .inl ⟨h.quiet m (by rw [queue]; exact List.mem_cons_self) ?_,
      Ffi.mapKind_ne_done (of_decide_eq_false hdone) _⟩
    cases hflag : ffi.t.suppressing with
    | true => exact .inl (flag hflag)
    | false => exact .inr rfl
  | done _ _ _ kind =>
    rw [unclosed _ rfl] at kind
    cases kind
  | more => exact absurd hcons h.undrained
  | cut => exact absurd hcons h.undrained
  | dry => exact absurd hcons h.undrained

/-- With nothing being evaluated, nothing is on its way. -/
theorem Offstage.calm {t : History} (hc : Coupled ffi cur) (hcur : ∀ e, cur ≠ .evaluating e)
    (background : ∀ job ∈ cur.job, job.isUser = false)
    (startup : ffi.t.pendingStartupOutput ≠ none → t.activeCommandId = none) :
    Offstage ffi t cur := by
  refine ⟨background, ?_, hc.not_draining hcur, startup⟩
  rw [hc.queue_nil hcur]
  exact nofun

/-! ## Steps of the backend, nothing of the user's under way -/

theorem initialised_startup {s s' : Ffi.State} {output : Bytes}
    (h : Ffi.Steps cap s (.initialised output) s') :
    s'.t.pendingStartupOutput = if output = [] then s.t.pendingStartupOutput else some output := by
  simp only [Ffi.Steps, Ffi.step, Option.ite_none_right_eq_some, Option.some.injEq] at h
  obtain ⟨-, rfl⟩ := h
  show (Ffi.initialised s.t output).1.pendingStartupOutput = _
  unfold Ffi.initialised Ffi.flushPending
  by_cases ho : output = []
  · simp only [ho, ↓reduceIte]
    split <;> rfl
  · simp only [ho, ↓reduceIte]
    split <;> rfl

theorem Flushes.startup {t : Ffi.Backend} {r : Ffi.Backend × Option Job} (h : Flushes t r cur) :
    r.1.pendingStartupOutput = t.pendingStartupOutput := by
  cases h <;> rfl

theorem Flushes.calm {t : Ffi.Backend} {r : Ffi.Backend × Option Job} (h : Flushes t r cur) :
    ∀ e, cur ≠ .evaluating e := by
  cases h <;> exact nofun

/-- The job flushed is a background one, or the outstanding submission's. -/
theorem Flushes.job {t : Ffi.Backend} {r : Ffi.Backend × Option Job} {jobs : List Job}
    (h : Flushes t r cur) (background : ∀ job ∈ jobs, job.isUser = false)
    (pending : t.pending = jobs ++ next.toList.map fun sub => .user sub.code) :
    (∃ jobs', (∀ job ∈ jobs', job.isUser = false) ∧
        r.1.pending = (jobs' ++ next.toList.map fun sub => .user sub.code) ∧
        ∀ job ∈ cur.job, job.isUser = false) ∨
      ∃ sub, next = some sub ∧ cur = .waiting (.user sub.code) ∧ r.1.pending = [] := by
  cases h with
  | rest hp => exact .inl ⟨jobs, background, pending, nofun⟩
  | @next job rest hp =>
    rw [pending] at hp
    cases jobs with
    | cons job' jobs =>
      rw [List.cons_append, List.cons.injEq] at hp
      obtain ⟨rfl, rfl⟩ := hp
      refine .inl ⟨jobs, fun j hj => background j (List.mem_cons_of_mem _ hj), rfl, ?_⟩
      rintro _ ⟨⟩
      exact background _ List.mem_cons_self
    | nil =>
      cases next with
      | none => cases hp
      | some sub =>
        cases hp
        exact .inr ⟨sub, rfl, rfl, rfl⟩

theorem produces_of_silent {a : Ffi.Action} (h : a.message = none) :
    s.produces a = s.submissions := by
  unfold Session.produces
  rw [h]
  split
  · rename_i hm
    cases hm
  · rfl

theorem produces_background {a : Ffi.Action} {e : Eval} (hw : s.ffi.worker = .running e)
    (hb : e.job.isUser = false) : s.produces a = s.submissions := by
  unfold Session.produces
  rw [hw]
  split
  · rename_i hm _
    cases hm
    rw [hb]
    rfl
  · rfl

theorem stored_kind {kind : UInt8} {payload payload' : Bytes}
    (h : responseOutput (Ffi.mapKind kind payload) = none) :
    responseOutput (Ffi.mapKind kind payload') = none := by
  unfold Ffi.mapKind at h ⊢
  split at h
  case h_7 => split at h <;> cases h
  case h_10 =>
    show responseOutput (if payload' = [] then _ else _) = none
    split
    · rfl
    · split <;> rfl
  all_goals first | rfl | cases h

theorem pushMessage_kind {cap : Nat} {q : List Ffi.Message} {m m' : Ffi.Message}
    (h : m' ∈ Ffi.pushMessage cap q m) : m' ∈ q ∨ m'.frame.kind = m.frame.kind := by
  unfold Ffi.pushMessage at h
  split at h
  · rcases List.mem_append.mp h with h | h
    · exact .inl (Ffi.makeRoom_subset _ _ _ h)
    · rw [List.mem_singleton] at h
      exact .inr (by rw [h])
  · rw [List.mem_singleton] at h
    exact .inr (by rw [h])

/-- What a background evaluation pushes is suppressed or not recorded. -/
theorem Offstage.push {t : History} {m : Ffi.Message} {worker : Ffi.Worker}
    (h : Offstage ffi t cur)
    (hm : (Ffi.passesSuppression m.frame.kind = true ∨ ffi.t.suppressing = false) →
      responseOutput m.response = none) :
    Offstage { ffi with worker := worker, ring := Ffi.pushMessage cap ffi.ring m } t cur := by
  refine ⟨h.background, fun m' hm' hpass => ?_, h.undrained, h.startup⟩
  rcases List.mem_append.mp hm' with hm' | hm'
  · exact h.quiet m' (List.mem_append_left _ hm') hpass
  · rcases pushMessage_kind hm' with hm' | hkind
    · exact h.quiet m' (List.mem_append_right _ hm') hpass
    · rw [Ffi.Message.response, hkind]
      rw [hkind] at hpass
      exact stored_kind (hm hpass)

theorem Session.eq_of {x : Session} {ffi : Ffi.State} {t : History} {subs : List Submission}
    (hffi : x.ffi = ffi) (ht : x.history = t) (hsubs : x.submissions = subs) :
    x = ⟨ffi, t, x.passthrough, subs⟩ := by
  cases x
  cases hffi
  cases ht
  cases hsubs
  rfl

/-- A step that records nothing. -/
theorem Sound.silent {a : Ffi.Action} {new : List ResponseChunk}
    (h : Sound before s cur done next) (hc : Coupled ffi cur') (hsup : Suppress ffi.t cur')
    (hnew : responses ffi.log = responses s.ffi.log ++ new)
    (hun : ∀ r ∈ new, Unrecorded s.history r)
    (hclosed : closedUsers ffi.log = closedUsers s.ffi.log)
    (hproduces : s.produces a = s.submissions)
    (hstage : ∀ p, Stage done.length ⟨ffi, s.history, p, s.submissions⟩ cur' next) :
    Sound before (s.moved a ffi) cur' done next := by
  have hhistory : (s.moved a ffi).history = s.history := by
    rw [Session.moved, returned_append hnew]
    exact receives_unrecorded (s := { s with ffi := ffi, submissions := s.produces a }) hun
  have hmoved : s.moved a ffi = ⟨ffi, s.history, (s.moved a ffi).passthrough, s.submissions⟩ :=
    Session.eq_of (moved_ffi s a ffi) hhistory ((moved_submissions s a ffi).trans hproduces)
  rw [hmoved]
  exact ⟨hc, hsup, h.submissions, hclosed.trans h.closed, h.ledger, hstage _⟩

theorem Sound.clear_iff (h : Sound before s cur done next) : s.clear ↔ next = none := by
  unfold Session.clear
  rw [h.closed, h.submissions]
  cases next <;> simp

theorem Sound.userUnderWay_eq (h : Sound before s cur done next) :
    s.userUnderWay = cur.job.any Job.isUser := by
  rw [Session.userUnderWay, h.coupled.job_eq]

/-- After a flush: whatever was next in the queue is handed over. -/
theorem Stage.flushed {n : Nat} {t : History} {r : Ffi.Backend × Option Job} {b : Ffi.Backend}
    {jobs : List Job} (flush : Flushes b r cur') (hc : Coupled ffi cur') (ht : ffi.t = r.1)
    (background : ∀ job ∈ jobs, job.isUser = false)
    (pending : b.pending = jobs ++ next.toList.map fun sub => .user sub.code)
    (startup : ffi.t.pendingStartupOutput ≠ none → t.activeCommandId = none)
    (fresh : ∀ sub ∈ next, Fresh ffi t sub) (started : startedUsers ffi.log = n) (p : Bool)
    (subs : List Submission) : Stage n ⟨ffi, t, p, subs⟩ cur' next := by
  rcases Flushes.job flush background pending with ⟨jobs', hjobs, hpending, hcur⟩ |
    ⟨sub, rfl, rfl, hpending⟩
  · exact .off hjobs (by rw [← hpending, ← ht]) (.calm hc (Flushes.calm flush) hcur startup) fresh
      started
  · exact .waiting rfl (by rw [← hpending, ← ht]) (fresh sub rfl) started

/-- A background DONE is never answered: the flag is up, or a user submission is behind it. -/
theorem background_done_again {t : Ffi.Backend} {e : Eval} {r : Ffi.Backend × Option Job}
    {cur : Current} (h : Suppress t (.evaluating e)) (hb : e.job.isUser = false)
    (flush : Flushes { t with stashed := none, busy := false, suppressing := false } r cur) :
    (r.1.busy || t.suppressing) = true := by
  cases hflag : t.suppressing with
  | true => exact Bool.or_true _
  | false =>
    obtain ⟨job, hjob, -⟩ := h.background rfl hb hflag
    cases flush with
    | rest hp =>
      change t.pending = [] at hp
      rw [hp] at hjob
      cases hjob
    | next => rfl


theorem Sound.off_step {a : Ffi.Action} {jobs : List Job} (h : Sound before s cur done next)
    (background : ∀ job ∈ jobs, job.isUser = false)
    (pending : s.ffi.t.pending = jobs ++ next.toList.map fun sub => .user sub.code)
    (offstage : Offstage s.ffi s.history cur) (fresh : ∀ sub ∈ next, Fresh s.ffi s.history sub)
    (started : startedUsers s.ffi.log = done.length) (hok : Orderly cap s (.ffi a))
    (hns : ∀ code, a ≠ .submit code) (hs : Ffi.Steps cap s.ffi a ffi) :
    ∃ cur', Sound before (s.moved a ffi) cur' done next := by
  obtain ⟨cur', hc, hch⟩ := h.coupled.step hs
  have hsup := h.suppress.change hch
  have hnot : s.userUnderWay = false := by
    rw [h.userUnderWay_eq]
    cases hj : cur.job with
    | none => rfl
    | some job => simpa using offstage.background job (by rw [hj]; rfl)
  refine ⟨cur', ?_⟩
  cases hch with
  | @queued _ _ job yielded submits =>
    cases a with
    | submit code => exact absurd rfl (hns code)
    | backgroundSubmit code =>
      cases submits
      obtain rfl := h.clear_iff.mp hok
      refine h.silent hc hsup (List.append_nil _).symm (List.forall_mem_nil _) rfl (produces_of_silent rfl) fun p => ?_
      have hjobs : ∀ job ∈ jobs ++ [.background code], job.isUser = false := by
        intro job hjob
        rcases List.mem_append.mp hjob with hjob | hjob
        · exact background job hjob
        · rw [List.mem_singleton] at hjob
          rw [hjob]
          rfl
      refine .off hjobs ?_ ?_ (fun _ hsub => by cases hsub) started
      · show s.ffi.t.pending ++ [_] = _
        rw [pending]
        simp
      · refine ⟨offstage.background, fun m hm hpass => offstage.quiet m hm ?_, offstage.undrained,
          offstage.startup⟩
        simpa [Job.isUser] using hpass
    | _ => cases submits
  | @handed _ job yielded submits slot hpending =>
    cases a with
    | submit code => exact absurd rfl (hns code)
    | backgroundSubmit code =>
      cases submits
      obtain rfl := h.clear_iff.mp hok
      refine h.silent hc hsup (List.append_nil _).symm (List.forall_mem_nil _) rfl (produces_of_silent rfl) fun p => ?_
      refine .off (List.forall_mem_nil _) hpending ?_ (fun _ hsub => by cases hsub) started
      refine .calm hc (fun _ he => by cases he) ?_ offstage.startup
      rintro _ ⟨⟩
      rfl
    | _ => cases submits
  | @opened output startup r _ yielded unready slot flush =>
    have hstartup := initialised_startup hs
    refine h.silent hc hsup (List.append_nil _).symm (List.forall_mem_nil _) rfl (produces_of_silent rfl) fun p => ?_
    refine .flushed flush hc rfl background pending ?_ ?_ started p _
    · rw [hstartup]
      split
      · exact offstage.startup
      · rename_i hne
        exact fun _ => (hok.resolve_left hne).2
    · intro sub hsub
      obtain ⟨hproduced, hkeeping, hnone⟩ := fresh sub hsub
      refine ⟨hproduced, hkeeping, ?_⟩
      rw [hstartup]
      split
      · exact hnone
      · rename_i hne
        rw [h.clear_iff.mp (hok.resolve_left hne).1] at hsub
        cases hsub
  | called calls yielded loops =>
    refine h.silent hc hsup (List.append_nil _).symm (List.forall_mem_nil _) rfl
      (produces_of_silent (by rcases calls with rfl | rfl <;> rfl)) fun p => ?_
    refine .off background pending ⟨offstage.background, offstage.quiet, ?_, offstage.startup⟩
      (fun sub hsub => (fresh sub hsub).same rfl) started
    rcases loops with rfl | rfl <;> exact fun hd => by cases hd
  | @pumped _ _ aw pumps round unclosed =>
    obtain ⟨hun, hoff⟩ := offstage.round round unclosed
    refine h.silent hc hsup (Ffi.responses_awaited _ _) hun ?_
      (produces_of_silent (by rcases pumps with rfl | rfl <;> rfl)) fun p => ?_
    · exact closedUsers_unclosed _ fun m hm => by rw [unclosed m hm, Bool.false_and]
    · refine .off background ((round.frame unclosed).2.1.trans pending) hoff ?_
        ((startedUsers_awaited _ _).trans started)
      intro sub hsub
      obtain ⟨hproduced, hkeeping, hnone⟩ := fresh sub hsub
      exact ⟨hproduced, hkeeping, round.startup_none hnone unclosed⟩
  | @closed m r _ slot loops startup queue kind flush =>
    have hb : m.owner.job.isUser = false := offstage.background _ rfl
    rw [background_done_again h.suppress hb flush] at hc hsup ⊢
    refine h.silent hc hsup (Ffi.responses_awaited _ _) (List.forall_mem_nil _) ?_ (produces_of_silent rfl)
      fun p => ?_
    · refine closedUsers_unclosed _ ?_
      rintro _ ⟨⟩
      rw [hb, Bool.and_false]
    · refine .flushed flush hc rfl background pending ?_ ?_
        ((startedUsers_awaited _ _).trans started) p _
      · show r.1.pendingStartupOutput ≠ none → _
        rw [Flushes.startup flush]
        exact offstage.startup
      · intro sub hsub
        obtain ⟨hproduced, hkeeping, hnone⟩ := fresh sub hsub
        refine ⟨hproduced, hkeeping, ?_⟩
        show r.1.pendingStartupOutput = none
        rw [Flushes.startup flush]
        exact hnone
  | took =>
    refine h.silent hc hsup (List.append_nil _).symm (List.forall_mem_nil _) rfl (produces_of_silent rfl) fun p => ?_
    exact .off background pending
      ⟨offstage.background, offstage.quiet, offstage.undrained, offstage.startup⟩
      (fun sub hsub => (fresh sub hsub).same rfl) started
  | @started job worker queue =>
    have hb : job.isUser = false := offstage.background _ rfl
    have hnew : responses (s.ffi.log ++ [.started ⟨s.ffi.evals, job⟩]) =
        responses s.ffi.log ++ [] := by simp [responses]
    refine h.silent hc hsup hnew (List.forall_mem_nil _) ?_ (produces_of_silent rfl) fun p => ?_
    · simp [closedUsers, closesUser]
    · refine .off background pending ⟨?_, ?_, offstage.undrained, offstage.startup⟩
        (fun sub hsub => (fresh sub hsub).same rfl) ?_
      · rintro _ ⟨⟩
        exact hb
      · intro m hm
        simp only [Ffi.Backend.queued, List.append_eq_nil_iff, Option.toList_eq_nil_iff] at queue
        change m ∈ s.ffi.t.stashed.toList ++ [] at hm
        rw [queue.1] at hm
        cases hm
      · simpa [startedUsers, startsUser, hb] using started
  | @pushed e frame worker kind =>
    have hb : e.job.isUser = false := offstage.background _ rfl
    simp only [Orderly, hnot, Bool.false_eq_true, ↓reduceIte] at hok
    refine h.silent hc hsup (List.append_nil _).symm (List.forall_mem_nil _) rfl (produces_background worker hb)
      fun p => ?_
    exact .off background pending (offstage.push hok)
      (fun sub hsub => (fresh sub hsub).same rfl) started
  | @finished e worker =>
    have hb : e.job.isUser = false := offstage.background _ rfl
    refine h.silent hc hsup (List.append_nil _).symm (List.forall_mem_nil _) rfl (produces_background worker hb)
      fun p => ?_
    exact .off background pending (offstage.push fun _ => rfl)
      (fun sub hsub => (fresh sub hsub).same rfl) started

/-! ## Steps of the backend, a user evaluation handed over -/

theorem undelivered_nil (hc : Coupled ffi cur) (hcur : ∀ e, cur ≠ .evaluating e) :
    undelivered ffi = [] := by
  rw [undelivered, hc.queue_nil hcur]
  cases hcons : ffi.consumer with
  | draining => exact absurd hcons (hc.not_draining hcur)
  | _ => rfl

theorem Sound.waiting_step {a : Ffi.Action} {job : Job} {sub : Submission}
    (h : Sound before s (.waiting job) done (some sub)) (user : job.isUser = true)
    (pending : s.ffi.t.pending = []) (fresh : Fresh s.ffi s.history sub)
    (started : startedUsers s.ffi.log = done.length) (hok : Orderly cap s (.ffi a))
    (hns : ∀ code, a ≠ .submit code) (hs : Ffi.Steps cap s.ffi a ffi) :
    ∃ cur', Sound before (s.moved a ffi) cur' done (some sub) := by
  obtain ⟨cur', hc, hch⟩ := h.coupled.step hs
  have hsup := h.suppress.change hch
  refine ⟨cur', ?_⟩
  cases hch with
  | queued yielded submits =>
    cases a with
    | submit code => exact absurd rfl (hns code)
    | backgroundSubmit code => cases h.clear_iff.mp hok
    | _ => cases submits
  | called calls =>
    refine h.silent hc hsup (List.append_nil _).symm nofun rfl
      (produces_of_silent (by rcases calls with rfl | rfl <;> rfl)) fun p => ?_
    exact .waiting user pending (fresh.same rfl) started
  | @pumped _ _ aw pumps round unclosed =>
    have hresponses : aw.outcome.responses = [] :=
      round.rests fresh.startup (h.coupled.not_draining nofun) (h.coupled.queue_nil nofun)
    refine h.silent hc hsup (Ffi.responses_awaited _ _) (by rw [hresponses]; exact nofun) ?_
      (produces_of_silent (by rcases pumps with rfl | rfl <;> rfl)) fun p => ?_
    · exact closedUsers_unclosed _ fun m hm => by rw [unclosed m hm, Bool.false_and]
    · exact .waiting user ((round.frame unclosed).2.1.trans pending)
        ⟨fresh.produced, fresh.keeping, round.startup_none fresh.startup unclosed⟩
        ((startedUsers_awaited _ _).trans started)
  | took =>
    refine h.silent hc hsup (List.append_nil _).symm nofun rfl (produces_of_silent rfl) fun p => ?_
    exact .waiting user pending (fresh.same rfl) started
  | started worker queue =>
    have hnew : responses (s.ffi.log ++ [.started ⟨s.ffi.evals, job⟩]) =
        responses s.ffi.log ++ [] := by simp [responses]
    refine h.silent hc hsup hnew nofun ?_ (produces_of_silent rfl) fun p => ?_
    · simp [closedUsers, closesUser]
    · obtain ⟨base, hd⟩ : ∃ base, Delivering { s.ffi with
            worker := .running ⟨s.ffi.evals, job⟩, ring := [], evals := s.ffi.evals + 1,
            log := s.ffi.log ++ [.started ⟨s.ffi.evals, job⟩] }
          (.evaluating ⟨s.ffi.evals, job⟩) base [] sub.produced := by
        rw [fresh.produced]
        exact ⟨_, .opens h.coupled h.suppress user queue pending fresh.startup rfl⟩
      refine .evaluating user hd fresh.keeping ?_ ?_
      · -- nothing was on its way to the waiting evaluation
        have hund := undelivered_nil h.coupled nofun
        simp only [undelivered, List.append_eq_nil_iff, List.map_eq_nil_iff, Ffi.Backend.queued,
          Option.toList_eq_nil_iff] at hund
        have hempty : undelivered { s.ffi with
            worker := .running ⟨s.ffi.evals, job⟩, ring := [], evals := s.ffi.evals + 1,
            log := s.ffi.log ++ [.started ⟨s.ffi.evals, job⟩] } = [] := by
          simp [undelivered, Ffi.Backend.queued, hund.1, hund.2.1]
        show (Ear.heard _ (undelivered _)).isSome = true
        rw [hempty]
        rfl
      · simpa [startedUsers, startsUser, user] using started

/-! ## Steps of the backend during a user evaluation -/

theorem Change.evaluating_action {s s' : Ffi.State} {e : Eval} {a : Ffi.Action}
    (h : Change cap s (.evaluating e) a s' cur') :
    (∃ job, a.job = some job) ∨ (a = .await ∨ a = .cancel ∨ a = .loop ∨ a = .drain) ∨
      (s.worker = .running e ∧ ((∃ frame, a = .push frame) ∨ a = .finish)) := by
  cases h with
  | queued _ submits => exact .inl ⟨_, submits⟩
  | called calls => exact .inr (.inl (calls.imp id .inl))
  | pumped pumps => exact .inr (.inl (.inr (.inr pumps)))
  | closed => exact .inr (.inl (.inr (.inr (.inl rfl))))
  | pushed worker => exact .inr (.inr ⟨worker, .inl ⟨_, rfl⟩⟩)
  | finished worker => exact .inr (.inr ⟨worker, .inr rfl⟩)

/-- Either the evaluation goes on or its DONE is popped. -/
theorem Change.evaluating_counts {s s' : Ffi.State} {e : Eval} {a : Ffi.Action}
    (h : Change cap s (.evaluating e) a s' cur') (user : e.job.isUser = true) :
    startedUsers s'.log = startedUsers s.log ∧
      ((cur' = .evaluating e ∧ closedUsers s'.log = closedUsers s.log) ∨
        ((∀ e', cur' ≠ .evaluating e') ∧ closedUsers s'.log = closedUsers s.log + 1)) := by
  cases h with
  | pumped _ _ unclosed =>
    refine ⟨startedUsers_awaited _ _, .inl ⟨rfl, closedUsers_unclosed _ fun m hm => ?_⟩⟩
    rw [unclosed m hm, Bool.false_and]
  | closed _ _ _ _ kind flush =>
    refine ⟨startedUsers_awaited _ _, .inr ⟨Flushes.calm flush, ?_⟩⟩
    rw [closedUsers_awaited]
    simp [kind, user]
  | _ => exact ⟨rfl, .inl ⟨rfl, rfl⟩⟩

theorem Sound.row_eq {sub : Submission} (h : Sound before s cur done (some sub)) :
    s.row = sub.row := by
  rw [Session.row, h.closed, h.submissions]
  simp

theorem modify_last (done : List Submission) (sub : Submission) (f : Submission → Submission) :
    (done ++ [sub]).modify done.length f = done ++ [f sub] := by
  induction done with
  | nil => rfl
  | cons x done ih => simp [ih]

theorem produces_evaluating {a : Ffi.Action} {e : Eval} {sub : Submission}
    (h : Sound before s (.evaluating e) done (some sub)) (user : e.job.isUser = true)
    (started : startedUsers s.ffi.log = done.length + 1)
    (hw : a.message = none ∨ s.ffi.worker = .running e) :
    s.produces a = done ++ [{ sub with produced := sub.produced ++ a.message.toList }] := by
  cases hm : a.message with
  | none =>
    rw [produces_of_silent hm, h.submissions]
    simp
  | some r =>
    have hw : s.ffi.worker = .running e := hw.resolve_left (by rw [hm]; exact nofun)
    unfold Session.produces
    rw [hw, hm]
    simp [user, started, h.submissions, modify_last]

/-- In an orderly step the worker pushes only what will be heard. -/
theorem Sound.evaluating_heard {a : Ffi.Action} {e : Eval} {sub : Submission}
    (h : Sound before s (.evaluating e) done (some sub)) (user : e.job.isUser = true)
    (heard : ((s.ear sub.row).heard (undelivered s.ffi)).isSome = true)
    (hok : Orderly cap s (.ffi a)) (hns : ∀ code, a ≠ .submit code)
    (hch : Change cap s.ffi (.evaluating e) a ffi cur') :
    Ffi.Unevicted cap s.ffi a ∧
      ((s.ear sub.row).heard (undelivered s.ffi ++ a.message.toList)).isSome = true ∧
      (a.message = none ∨ s.ffi.worker = .running e) := by
  have huser : s.userUnderWay = true := by
    rw [h.userUnderWay_eq]
    exact user
  rcases Change.evaluating_action hch with ⟨job, hjob⟩ | hcalls | ⟨hw, ⟨frame, rfl⟩ | rfl⟩
  · cases a with
    | submit code => exact absurd rfl (hns code)
    | backgroundSubmit code => cases h.clear_iff.mp hok
    | _ => cases hjob
  · have hquiet : ((s.ear sub.row).heard (undelivered s.ffi ++ [])).isSome = true := by
      rw [List.append_nil]
      exact heard
    rcases hcalls with rfl | rfl | rfl | rfl <;> exact ⟨trivial, hquiet, .inl rfl⟩
  · simp only [Orderly, huser, ↓reduceIte, Session.hears, h.row_eq] at hok
    exact ⟨hok.1, hok.2, .inr hw⟩
  · have := hok huser
    rw [Session.hears, h.row_eq] at this
    exact ⟨this.1, this.2, .inr hw⟩

/-- The evaluation is over: its submission is one of those done. -/
theorem Sound.ends {sub : Submission} {base rs : List ResponseChunk} (hc : Coupled s.ffi cur)
    (hsup : Suppress s.ffi.t cur) (hcur : ∀ e, cur ≠ .evaluating e)
    (hd : Delivering s.ffi cur base rs sub.produced) (hsubs : s.submissions = done ++ [sub])
    (closed : s.closed = done.length + 1) (started : startedUsers s.ffi.log = done.length + 1)
    (keeping : Keeping s.history sub.row sub.cancelled rs)
    (ledger : Ledger before s.history done s.rows) (ended : (s.ear sub.row).ended = true) :
    Sound before s cur (done ++ [sub]) none := by
  have hmerged : mergeStdout rs = mergeStdout sub.produced := by
    rw [← hd.merged, undelivered_nil hc hcur, List.append_nil]
  have hresting : cur = .resting := by
    rcases hd.progress with ⟨e, he, -⟩ | ⟨hrest, -⟩
    · exact absurd he (hcur e)
    · exact hrest
  refine ⟨hc, hsup, by rw [hsubs]; simp, by rw [closed]; simp, ?_, ?_⟩
  · refine ⟨fun sub' hsub' => ?_, ledger.referential, ledger.active, ledger.stray⟩
    rcases List.mem_append.mp hsub' with hsub' | hsub'
    · exact ledger.settled sub' hsub'
    · rw [List.mem_singleton] at hsub'
      subst hsub'
      intro id hid
      have hactive := ear_inactive ended id hid
      have htally := keeping.tally id hid
      refine ⟨⟨⟨rs, hmerged, htally.contents⟩, htally.numbered, fun hcancelled => ?_⟩, htally.known,
        hactive⟩
      rw [keeping.ended id hid hactive hcancelled, outcome_merge hmerged]
  · refine .off (List.forall_mem_nil _) hd.pending (.calm hc hcur ?_ ?_) nofun
      (started.trans (by simp))
    · rw [hresting]
      exact nofun
    · rw [hd.startup]
      exact fun hne => absurd rfl hne

theorem Sound.evaluating_step {a : Ffi.Action} {e : Eval} {sub : Submission}
    {base rs : List ResponseChunk} (h : Sound before s (.evaluating e) done (some sub))
    (user : e.job.isUser = true)
    (delivering : Delivering s.ffi (.evaluating e) base rs sub.produced)
    (keeping : Keeping s.history sub.row sub.cancelled rs)
    (heard : ((s.ear sub.row).heard (undelivered s.ffi)).isSome = true)
    (started : startedUsers s.ffi.log = done.length + 1) (hok : Orderly cap s (.ffi a))
    (hns : ∀ code, a ≠ .submit code) (hs : Ffi.Steps cap s.ffi a ffi) :
    ∃ cur' done' next, Sound before (s.moved a ffi) cur' done' next := by
  obtain ⟨cur', hc, hch⟩ := h.coupled.step hs
  have hsup := h.suppress.change hch
  obtain ⟨hunevicted, hheard, hw⟩ := h.evaluating_heard user heard hok hns hch
  obtain ⟨new, hnew, hflow⟩ := delivering.flows h.coupled hch hunevicted
  obtain ⟨new', hd⟩ := delivering.change h.coupled hch hunevicted
  obtain rfl : new' = new := by
    have := hd.returned
    rw [hnew, delivering.returned, List.append_assoc] at this
    exact (List.append_cancel_left (List.append_cancel_left this)).symm
  -- what was on its way is returned or still on its way, with what was pushed behind it
  have hflow' := hflow []
  rw [List.nil_append, List.nil_append] at hflow'
  rw [← Ear.heard_merge hflow', Ear.heard_append] at hheard
  obtain ⟨y, hy⟩ := Option.isSome_iff_exists.mp hheard
  obtain ⟨x, hx, hy⟩ := Option.bind_eq_some_iff.mp hy
  have hproduces := produces_evaluating h user started hw
  obtain ⟨sub', hrow, hcancelled, hproduced, hproduces⟩ : ∃ sub' : Submission,
      sub'.row = sub.row ∧ sub'.cancelled = sub.cancelled ∧
        sub'.produced = sub.produced ++ a.message.toList ∧ s.produces a = done ++ [sub'] :=
    ⟨{ sub with produced := sub.produced ++ a.message.toList }, rfl, rfl, rfl, hproduces⟩
  rw [← hproduced] at hd
  rw [← hrow, ← hcancelled] at keeping
  rw [← hrow] at hx
  have hrows : s.rows = (done ++ [sub']).filterMap Submission.row := by
    rw [Session.rows, h.submissions, List.filterMap_append, List.filterMap_append]
    congr 1
    simp [List.filterMap_cons, hrow]
  obtain ⟨hkeeping, hledger, hear⟩ := receives_heard
    (s := { s with ffi := ffi, submissions := s.produces a }) keeping h.ledger (fun id hid => by
      rw [hrows]
      exact List.mem_filterMap.mpr ⟨sub', List.mem_append_right _ List.mem_cons_self, hid⟩) hx
  have hmoved : new'.foldl Session.receive { s with ffi := ffi, submissions := s.produces a } =
      s.moved a ffi := by rw [Session.moved, returned_append hnew]
  rw [hmoved] at hkeeping hledger hear
  have hffi := moved_ffi s a ffi
  have hsubs := (moved_submissions s a ffi).trans hproduces
  rw [hrows, ← hsubs] at hledger
  obtain ⟨hstarted, hnext⟩ := Change.evaluating_counts hch user
  rw [started] at hstarted
  generalize s.moved a ffi = s' at *
  subst hffi
  rcases hnext with ⟨rfl, hclosed⟩ | ⟨hcur, hclosed⟩
  · refine ⟨_, done, some sub', hc, hsup, hsubs, hclosed.trans h.closed, hledger, ?_⟩
    refine .evaluating user hd hkeeping ?_ hstarted
    rw [hear, hy]
    rfl
  · have hdone : .done ∈ new' := by
      obtain ⟨e', he', -⟩ | ⟨-, rs', heq, -⟩ := hd.progress
      · exact absurd he' (hcur e')
      · have hmem : .done ∈ rs ++ new' := heq ▸ List.mem_append_right _ List.mem_cons_self
        obtain ⟨_, -, hno⟩ | ⟨he, -⟩ := delivering.progress
        · exact (List.mem_append.mp hmem).resolve_left hno
        · cases he
    refine ⟨_, done ++ [sub'], none, .ends hc hsup hcur hd hsubs ?_ hstarted hkeeping hledger ?_⟩
    · rw [Session.closed, hclosed]
      exact congrArg (· + 1) h.closed
    · rw [hear]
      exact Ear.heard_ended hx (.inr hdone)

/-! ## Steps of the loop -/

theorem recordResponse_ai {r : ResponseChunk} (h : isAi r = true) : t.recordResponse r = t := by
  cases r <;> first | rfl | cases h

theorem Keeping.finish (h : Keeping t row cancelled rs) (status : Status) :
    Keeping (t.finishActive status) row true rs :=
  ⟨fun id hid => (h.tally id hid).finish status, fun _ _ _ hc => nomatch hc⟩

/-- The row of a command just added: nothing is recorded of it. -/
theorem Keeping.added (href : t.db.Referential) (mode : Bytes) (lines : List UnicodeString) :
    Keeping (t.addToHistory mode lines)
      (if History.isBlank lines then none else (t.addToHistory mode lines).activeCommandId) false []
    := by
  cases hb : History.isBlank lines with
  | true => exact ⟨nofun, nofun⟩
  | false =>
    obtain ⟨id, ha, -, -, -, htally⟩ := History.addToHistory_tally hb href mode
    rw [if_neg Bool.false_ne_true, ha]
    refine ⟨?_, ?_⟩
    · rintro _ ⟨⟩
      exact htally
    · rintro _ ⟨⟩ hne
      exact absurd ha hne

theorem Sound.submit {mode code : Bytes} {lines : List UnicodeString}
    (h : Sound before s cur done next) (hok : Orderly cap s (.submit mode lines code))
    (hs : Ffi.Steps cap s.ffi (.submit code) ffi) :
    ∃ cur' next', Sound before (s.submitted ffi mode lines code) cur' done next' := by
  obtain ⟨hclear, hstartup, hquiet⟩ := hok
  obtain rfl := h.clear_iff.mp hclear
  obtain ⟨cur', hc, hch⟩ := h.coupled.step hs
  have hsup := h.suppress.change hch
  have hkeeping := Keeping.added h.ledger.referential mode lines
  have hledger : Ledger before (s.history.addToHistory mode lines) done
      (s.submitted ffi mode lines code).rows := by
    refine (h.ledger.add mode lines).widen fun id hid => ?_
    show id ∈ (s.submissions ++ [_]).filterMap Submission.row
    rw [List.filterMap_append]
    exact List.mem_append_left _ hid
  generalize hrow : (if History.isBlank lines then none
    else (s.history.addToHistory mode lines).activeCommandId) = row at hkeeping
  have hsubs : (s.submitted ffi mode lines code).submissions =
      done ++ (some (⟨code, row, [], false⟩ : Submission)).toList := by
    show s.submissions ++ [⟨code, if History.isBlank lines then none
      else (s.history.addToHistory mode lines).activeCommandId, [], false⟩] = _
    rw [h.submissions, hrow]
    simp
  refine ⟨cur', some ⟨code, row, [], false⟩, hc, hsup, hsubs, ?_, hledger, ?_⟩
  · cases hch with
    | queued => exact h.closed
    | handed => exact h.closed
    | called calls => rcases calls with calls | calls <;> cases calls
    | pumped pumps => rcases pumps with pumps | pumps <;> cases pumps
  · cases h.stage with
    | @off _ _ jobs background pending offstage fresh started =>
      cases hch with
      | queued yielded submits =>
        cases submits
        refine .off background ?_ ⟨offstage.background, ?_, offstage.undrained, ?_⟩ ?_
          started
        · show s.ffi.t.pending ++ [_] = _
          rw [pending]
          simp
        · exact fun m hm _ => hquiet m.response (List.mem_append_right _ (List.mem_map_of_mem hm))
        · exact fun hne => absurd hstartup hne
        · rintro _ ⟨⟩
          exact ⟨rfl, hkeeping, hstartup⟩
      | handed yielded submits slot hpending =>
        cases submits
        exact .waiting rfl hpending ⟨rfl, hkeeping, hstartup⟩ started
      | called calls => rcases calls with calls | calls <;> cases calls
      | pumped pumps => rcases pumps with pumps | pumps <;> cases pumps

theorem Sound.note {mode : Bytes} {lines : List UnicodeString} (h : Sound before s cur done next)
    (hok : Orderly cap s (.note mode lines)) :
    Sound before { s with history := s.history.addToHistory mode lines } cur done next := by
  obtain ⟨hclear, hstartup⟩ := hok
  obtain rfl := h.clear_iff.mp hclear
  refine ⟨h.coupled, h.suppress, h.submissions, h.closed, h.ledger.add mode lines, ?_⟩
  cases h.stage with
  | off background pending offstage fresh started =>
    exact .off background pending ⟨offstage.background, offstage.quiet, offstage.undrained,
      fun hne => absurd hstartup hne⟩ nofun started

theorem interrupts_rows (s : Session) :
    s.interrupts.filterMap Submission.row = s.rows := by
  unfold Session.interrupts
  split
  · generalize s.closed = i
    unfold Session.rows
    generalize s.submissions = subs
    induction subs generalizing i with
    | nil => cases i <;> rfl
    | cons sub subs ih =>
      cases i with
      | zero => simp [List.filterMap_cons]
      | succ i => simp [List.filterMap_cons, ih]
  · rfl

theorem Sound.interrupts_eq {sub : Submission} (h : Sound before s cur done (some sub))
    (hu : s.userUnderWay = true) :
    s.interrupts = done ++ [{ sub with cancelled := true }] := by
  unfold Session.interrupts
  rw [Session.userUnderWay] at hu
  rw [if_pos hu, h.closed, h.submissions]
  exact modify_last done sub _

theorem Sound.cancel (h : Sound before s cur done next) (hok : Orderly cap s .cancel) :
    ∃ next', Sound before
      { s with history := s.history.recordCancel, submissions := s.interrupts } cur done next' := by
  have hledger := h.ledger.finish .interrupted
  rw [← interrupts_rows] at hledger
  have hactive : s.history.recordCancel.activeCommandId = none := History.finishActive_active _ _
  have huser := h.userUnderWay_eq
  cases next with
  | none =>
    cases hstage : h.stage with
    | off background pending offstage fresh started =>
      have hnot : s.interrupts = s.submissions := by
        unfold Session.interrupts
        rw [← Session.userUnderWay, huser]
        cases hj : cur.job with
        | none => rfl
        | some job =>
          have := offstage.background job (by rw [hj]; rfl)
          simp [this]
      refine ⟨none, h.coupled, h.suppress, hnot.trans h.submissions, h.closed, hledger, ?_⟩
      exact .off background pending ⟨offstage.background, offstage.quiet, offstage.undrained,
        fun _ => hactive⟩ nofun started
  | some sub =>
    obtain ⟨hu, hheard⟩ := hok fun hclear => nomatch h.clear_iff.mp hclear
    have hsubs := h.interrupts_eq hu
    refine ⟨some { sub with cancelled := true }, h.coupled, h.suppress, hsubs, h.closed, hledger, ?_⟩
    cases hstage : h.stage with
    | off background pending offstage =>
      rw [huser] at hu
      cases hj : cur.job with
      | none =>
        rw [hj] at hu
        cases hu
      | some job =>
        have := offstage.background job (by rw [hj]; rfl)
        simp [hj, this] at hu
    | waiting user pending fresh started =>
      exact .waiting user pending ⟨fresh.produced, fresh.keeping.finish _, fresh.startup⟩ started
    | evaluating user delivering keeping heard started =>
      refine .evaluating user delivering (keeping.finish _) ?_ started
      rw [h.row_eq] at hheard
      show (Ear.heard (Session.ear { s with
        history := s.history.recordCancel, submissions := s.interrupts } sub.row) _).isSome = true
      rw [ear_of_none hactive]
      exact hheard

theorem Sound.moved {a : Ffi.Action} (h : Sound before s cur done next)
    (hok : Orderly cap s (.ffi a)) (hns : ∀ code, a ≠ .submit code)
    (hs : Ffi.Steps cap s.ffi a ffi) :
    ∃ cur' done' next', Sound before (s.moved a ffi) cur' done' next' := by
  cases h.stage with
  | off background pending offstage fresh started =>
    obtain ⟨cur', h'⟩ := h.off_step background pending offstage fresh started hok hns hs
    exact ⟨cur', done, next, h'⟩
  | waiting user pending fresh started =>
    obtain ⟨cur', h'⟩ := h.waiting_step user pending fresh started hok hns hs
    exact ⟨cur', done, _, h'⟩
  | evaluating user delivering keeping heard started =>
    exact h.evaluating_step user delivering keeping heard started hok hns hs

/-! ## Runs -/

/-- The store and the backend agree. -/
def InStep (before : Db) (s : Session) : Prop := ∃ cur done next, Sound before s cur done next

theorem InStep.step {a : Action} (h : InStep before s)
    (hs : Restrict (Orderly cap) (Steps cap) s a s') : InStep before s' := by
  obtain ⟨cur, done, next, h⟩ := h
  obtain ⟨hok, hs⟩ := hs
  cases hs.moves with
  | submit _ steps =>
    obtain ⟨cur', next', h'⟩ := h.submit hok steps
    exact ⟨cur', done, next', h'⟩
  | note => exact ⟨cur, done, next, h.note hok⟩
  | cancel =>
    obtain ⟨next', h'⟩ := h.cancel hok
    exact ⟨cur, done, next', h'⟩
  | overhear _ ai =>
    rw [recordResponse_ai ai]
    exact ⟨cur, done, next, h⟩
  | ffi steps unsubmitted => exact h.moved hok unsubmitted steps

theorem inStep_start (hdb : before.Referential) : InStep before (start before) := by
  refine ⟨.resting, [], none, Ffi.coupled_start, ⟨fun _ => rfl, nofun, nofun⟩, rfl, rfl,
    ⟨nofun, hdb, nofun, fun o ho => .inl ho⟩, ?_⟩
  exact .off (List.forall_mem_nil _) rfl (.calm Ffi.coupled_start nofun nofun fun _ => rfl) nofun rfl

theorem Keeping.partly {sub : Submission} (rest : List ResponseChunk)
    (h : Keeping t sub.row cancelled rs) (hmerged : mergeStdout (rs ++ rest) = mergeStdout sub.produced) :
    ∀ id ∈ sub.row, ∃ rs rest, mergeStdout (rs ++ rest) = mergeStdout sub.produced ∧
      t.db.contents id = rs.filterMap responseOutput :=
  fun id hid => ⟨rs, rest, hmerged, (h.tally id hid).contents⟩

theorem InStep.attributed (h : InStep before s) : Attributed before s := by
  obtain ⟨cur, done, next, h⟩ := h
  constructor
  case finished =>
    rw [h.closed, h.submissions, List.take_left]
    exact fun sub hsub id hid => (h.ledger.settled sub hsub id hid).1
  case underWay =>
    rw [h.submissions]
    intro sub hsub
    rcases List.mem_append.mp hsub with hsub | hsub
    · intro id hid
      obtain ⟨rs, hrs, hcontents⟩ := (h.ledger.settled sub hsub id hid).1.outputs
      exact ⟨rs, [], by rw [List.append_nil, hrs], hcontents⟩
    · cases h.stage with
      | off _ _ _ fresh =>
        obtain ⟨hproduced, hkeeping, -⟩ := fresh sub (Option.mem_toList.mp hsub)
        exact hkeeping.partly [] (by rw [hproduced]; rfl)
      | waiting _ _ fresh =>
        obtain rfl := List.mem_singleton.mp hsub
        exact fresh.keeping.partly [] (by rw [fresh.produced]; rfl)
      | evaluating _ delivering keeping =>
        obtain rfl := List.mem_singleton.mp hsub
        exact keeping.partly _ delivering.merged
  case stray =>
    intro o ho
    refine (h.ledger.stray o ho).imp id fun hrow => ?_
    obtain ⟨sub, hsub, hid⟩ := List.mem_filterMap.mp hrow
    exact ⟨sub, hsub, hid⟩

/-- In every run of orderly steps, and at every point of it, the store holds what each evaluation
printed under the command it was submitted by, and gives a command that was not cancelled the
status of its own evaluation once that is over. -/
theorem attributed_run {as : List Action} (hdb : before.Referential)
    (h : Run (Restrict (Orderly cap) (Steps cap)) (start before) as s) : Attributed before s :=
  (Run.invariant (I := InStep before) (fun hi hs => hi.step hs) (inStep_start hdb) h).attributed

instance (s : Session) : Decidable s.clear := inferInstanceAs (Decidable (_ = _))

instance (s : Session) (more : List ResponseChunk) : Decidable (s.hears more) :=
  inferInstanceAs (Decidable (_ = _))

instance (s : Session) : (a : Ffi.Action) → Decidable (Orderly cap s (.ffi a))
  | .backgroundSubmit _ => inferInstanceAs (Decidable s.clear)
  | .initialised output =>
    inferInstanceAs (Decidable (output = [] ∨ (s.clear ∧ s.history.activeCommandId = none)))
  | .push frame => inferInstanceAs (Decidable (if s.userUnderWay then
      Ffi.Unevicted cap s.ffi (.push frame) ∧ s.hears [Ffi.mapKind frame.kind frame.payload]
    else (Ffi.passesSuppression frame.kind = true ∨ s.ffi.t.suppressing = false) →
      responseOutput (Ffi.mapKind frame.kind frame.payload) = none))
  | .finish => inferInstanceAs (Decidable (s.userUnderWay = true →
      Ffi.Unevicted cap s.ffi .finish ∧ s.hears [.done]))
  | .submit _ | .await | .cancel | .loop | .drain | .take | .reset => instDecidableTrue

instance (s : Session) (a : Action) : Decidable (Orderly cap s a) := by
  cases a
  case ffi a => infer_instance
  all_goals
    unfold Orderly
    infer_instance

def line (text : Bytes) : UnicodeString :=
  ⟨text, List.range text.length, List.replicate text.length 1⟩

/-- A command that prints and fails, then one that prints. -/
def orderlyRun : List Action :=
  [.ffi (.initialised []), .submit (bytes "r") [line (bytes "f()")] (bytes "f()"), .ffi .take,
    .ffi .reset, .ffi (.push ⟨0, 0, bytes "x"⟩), .ffi .await, .ffi .loop, .ffi .drain,
    .ffi (.push ⟨3, 0, bytes "Error"⟩), .ffi .finish, .ffi .await, .ffi .loop, .ffi .await,
    .ffi .loop, .submit (bytes "r") [line (bytes "g()")] (bytes "g()"), .ffi .take, .ffi .reset,
    .ffi (.push ⟨0, 0, bytes "y"⟩), .ffi .finish, .ffi .await, .ffi .loop, .ffi .drain, .ffi .await,
    .ffi .loop]

theorem attributed_run_two : ∃ s, Run (Restrict (Orderly 64) (Steps 64)) (start ⟨[], []⟩) orderlyRun s ∧
    s.history.db.outputs.map (fun o => (o.commandId, o.text)) =
      [(1, some (bytes "x")), (1, some (bytes "Error")), (2, some (bytes "y"))] ∧
    s.history.db.commands.map Command.status = [.error, .done] ∧ Attributed ⟨[], []⟩ s := by
  obtain ⟨s, hrun, houtputs, hstatus⟩ : ∃ s, Transition.exec
      (Transition.guarded (Orderly 64) (step 64)) (start ⟨[], []⟩) orderlyRun = some s ∧
      s.history.db.outputs.map (fun o => (o.commandId, o.text)) =
        [(1, some (bytes "x")), (1, some (bytes "Error")), (2, some (bytes "y"))] ∧
      s.history.db.commands.map Command.status = [.error, .done] := ⟨_, rfl, rfl, rfl⟩
  have h := Transition.run_of_guarded hrun
  exact ⟨s, h, houtputs, hstatus, attributed_run nofun h⟩

/-- The second command is submitted while the first is being evaluated. -/
def typeAheadRun : List Action :=
  [.ffi (.initialised []), .submit (bytes "r") [line (bytes "f()")] (bytes "f()"), .ffi .take,
    .ffi .reset, .submit (bytes "r") [line (bytes "g()")] (bytes "g()"),
    .ffi (.push ⟨0, 0, bytes "x"⟩), .ffi .finish, .ffi .await, .ffi .loop, .ffi .drain, .ffi .await,
    .ffi .loop]

/-- The first command ends as `interrupted`, and what it printed is the second one's. -/
theorem misattributed : ∃ s, Run (Steps 64) (start ⟨[], []⟩) typeAheadRun s ∧
    s.history.db.outputs.map (fun o => (o.commandId, o.text)) = [(2, some (bytes "x"))] ∧
    s.history.db.commands.map Command.status = [.interrupted, .running] ∧
    ¬ Attributed ⟨[], []⟩ s := by
  obtain ⟨s, hrun, houtputs, hstatus, hsub, hfirst⟩ : ∃ s, Transition.exec (step 64)
      (start ⟨[], []⟩) typeAheadRun = some s ∧
      s.history.db.outputs.map (fun o => (o.commandId, o.text)) = [(2, some (bytes "x"))] ∧
      s.history.db.commands.map Command.status = [.interrupted, .running] ∧
      s.submissions.take s.closed = [⟨bytes "f()", some 1, [.stdout (bytes "x"), .done], false⟩] ∧
      s.history.db.status 1 = some .interrupted := ⟨_, rfl, rfl, rfl, rfl, rfl⟩
  refine ⟨s, Transition.run_of_exec hrun, houtputs, hstatus, fun h => ?_⟩
  have hkept := h.finished _ (by rw [hsub]; exact List.mem_cons_self) 1 rfl
  have := hkept.status rfl
  rw [hfirst] at this
  cases this

end Main
end Raoui
