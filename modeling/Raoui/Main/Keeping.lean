import Raoui.Main.Recording

/-!
# Raoui.Main.Keeping

What the store should hold of the evaluations, and what it holds of the one under way.

The store has one active command, the backend a queue. They agree as long as one submission is
outstanding at a time and everything its evaluation prints comes while its command is active.

* `Attributed`: what the store should hold.
* `Ear`: whether a response will be recorded; `Orderly`: the steps that keep the two together.
* `Keeping`, `Ledger`: the command under way and the rest of the store.
* `receives_heard`: what is heard is stored under the command that listens.
-/

namespace Raoui
namespace Main

open Ffi (Event Eval Job ResponseChunk Coupled Change Current Flushes Suppress Delivering
  mergeStdout undelivered responses)
open History (Command Db Status Tally Untouched responseOutput closingStatus)
open Transition (Run Restrict)

/-! ## What the store should hold -/

def outcome (rs : List ResponseChunk) : Status :=
  if rs.any ResponseChunk.isError then .error else .done

/-- The rows and the status of `id` are those of the submission, whose evaluation is over. -/
structure Kept (db : Db) (sub : Submission) (id : Nat) : Prop where
  outputs : ∃ rs, mergeStdout rs = mergeStdout sub.produced ∧
    db.contents id = rs.filterMap responseOutput
  numbered : db.Numbered id
  status : sub.cancelled = false → db.status id = some (outcome sub.produced)

structure Attributed (before : Db) (s : Session) : Prop where
  finished : ∀ sub ∈ s.submissions.take s.closed, ∀ id ∈ sub.row, Kept s.history.db sub id
  underWay : ∀ sub ∈ s.submissions, ∀ id ∈ sub.row, ∃ rs rest,
    mergeStdout (rs ++ rest) = mergeStdout sub.produced ∧
      s.history.db.contents id = rs.filterMap responseOutput
  stray : ∀ o ∈ s.history.db.outputs, o ∈ before.outputs ∨
    ∃ sub ∈ s.submissions, sub.row = some o.commandId

/-! ## Being heard -/

/-- `passing`: the loop is inside `enter_passthrough`. `ended`: the command is not active. -/
structure Ear where
  passing : Bool
  ended : Bool
  deriving DecidableEq, Repr

/-- The ear after a response of the backend; `none` when something is lost on it. -/
def Ear.hear (x : Ear) : ResponseChunk → Option Ear
  | .passthrough => some { x with passing := true }
  | .passthroughEnd => some { x with passing := false }
  | .readline _ | .completions _ _ => some x
  | .done => if x.passing then none else some { x with ended := true }
  | .internalError _ => if x.passing || x.ended then none else some { x with ended := true }
  | .stdout _ | .result _ | .rError _ | .image _ => if x.passing || x.ended then none else some x
  | .shutdown | .restarted _ | .aiOutput _ | .aiToolCall _ | .aiSuggestion _ | .aiDone => none

def Ear.heard (x : Ear) (rs : List ResponseChunk) : Option Ear := rs.foldlM Ear.hear x

def Session.ear (s : Session) (row : Option Nat) : Ear :=
  ⟨s.passthrough, !(row.isSome && s.history.activeCommandId = row)⟩

/-- The command of the oldest submission outstanding. -/
def Session.row (s : Session) : Option Nat := (s.submissions[s.closed]?).bind Submission.row

def Session.userUnderWay (s : Session) : Bool := s.ffi.job.any Job.isUser

/-- No submission is outstanding. -/
def Session.clear (s : Session) : Prop := s.closed = s.submissions.length

/-- Everything on its way, followed by `more`, will be heard. -/
def Session.hears (s : Session) (more : List ResponseChunk) : Prop :=
  ((s.ear s.row).heard (undelivered s.ffi ++ more)).isSome = true

/-- One submission at a time; while it is outstanding no background job is added, and what its
evaluation prints is heard, Ctrl-C included. What a background evaluation prints is suppressed or
not recorded, and the startup output comes before the first command. -/
def Orderly (cap : Nat) (s : Session) : Action → Prop
  | .submit _ _ _ => s.clear ∧ s.ffi.t.pendingStartupOutput = none ∧
      ∀ r ∈ undelivered s.ffi, responseOutput r = none
  | .note _ _ => s.clear ∧ s.ffi.t.pendingStartupOutput = none
  | .cancel => ¬ s.clear → s.userUnderWay = true ∧
      (({ s.ear s.row with ended := true } : Ear).heard (undelivered s.ffi)).isSome = true
  | .overhear _ => True
  | .ffi (.backgroundSubmit _) => s.clear
  | .ffi (.initialised output) => output = [] ∨ (s.clear ∧ s.history.activeCommandId = none)
  | .ffi (.push frame) =>
    if s.userUnderWay then
      Ffi.Unevicted cap s.ffi (.push frame) ∧ s.hears [Ffi.mapKind frame.kind frame.payload]
    else
      (Ffi.passesSuppression frame.kind = true ∨ s.ffi.t.suppressing = false) →
        responseOutput (Ffi.mapKind frame.kind frame.payload) = none
  | .ffi .finish =>
    s.userUnderWay = true → Ffi.Unevicted cap s.ffi .finish ∧ s.hears [.done]
  | .ffi _ => True

/-! ## Grouping does not matter -/

theorem outcome_merge {rs rs' : List ResponseChunk} (h : mergeStdout rs = mergeStdout rs') :
    outcome rs = outcome rs' := by
  refine Coalesce.invariant_congr (F := outcome) ?_ h
  intro x y z hj pre post
  obtain ⟨a, b, rfl, rfl, rfl⟩ := Ffi.joinStdout_some hj
  simp [outcome, ResponseChunk.isError]

theorem Ear.heard_append (x : Ear) (rs rs' : List ResponseChunk) :
    x.heard (rs ++ rs') = (x.heard rs).bind fun y => y.heard rs' := List.foldlM_append

theorem Ear.heard_merge {rs rs' : List ResponseChunk} (h : mergeStdout rs = mergeStdout rs')
    (x : Ear) : x.heard rs = x.heard rs' := by
  refine Coalesce.invariant_congr (F := x.heard) ?_ h
  intro r r' r'' hj pre post
  obtain ⟨a, b, rfl, rfl, rfl⟩ := Ffi.joinStdout_some hj
  rw [heard_append, heard_append]
  congr 1
  funext y
  by_cases hy : y.passing = true ∨ y.ended = true <;> simp [heard, hear, hy]

theorem Ear.hear_ended {x y : Ear} {r : ResponseChunk} (h : x.hear r = some y)
    (he : x.ended = true ∨ r = .done) : y.ended = true := by
  cases r <;> simp only [hear, Option.ite_none_left_eq_some, Option.some.injEq] at h
  case done =>
    obtain ⟨-, rfl⟩ := h
    rfl
  case internalError =>
    obtain ⟨-, rfl⟩ := h
    rfl
  case passthrough | passthroughEnd | readline | completions =>
    subst h
    exact he.resolve_right nofun
  case stdout | result | rError | image =>
    obtain ⟨-, rfl⟩ := h
    exact he.resolve_right nofun
  all_goals cases h

theorem Ear.heard_ended {rs : List ResponseChunk} {x y : Ear} (h : x.heard rs = some y)
    (he : x.ended = true ∨ .done ∈ rs) : y.ended = true := by
  induction rs generalizing x with
  | nil =>
    cases h
    exact he.resolve_right List.not_mem_nil
  | cons r rs ih =>
    simp only [heard, List.foldlM_cons, Option.bind_eq_bind, Option.bind_eq_some_iff] at h
    obtain ⟨x', hx, h⟩ := h
    refine ih h ?_
    rcases he with he | he
    · exact .inl (hear_ended hx (.inl he))
    · rcases List.mem_cons.mp he with rfl | he
      · exact .inl (hear_ended hx (.inr rfl))
      · exact .inr he

/-! ## The command under way -/

/-- Of the responses `rs` returned so far the store has what is stored of them; a command no longer
active has the status they lead to, or was cancelled. -/
structure Keeping (t : History) (row : Option Nat) (cancelled : Bool) (rs : List ResponseChunk) :
    Prop where
  tally : ∀ id ∈ row, Tally t id rs
  ended : ∀ id ∈ row, t.activeCommandId ≠ some id → cancelled = false →
    t.db.status id = some (outcome rs)

variable {t t' : History} {row : Option Nat} {cancelled : Bool} {rs : List ResponseChunk}

theorem outcome_pass {r : ResponseChunk} (h : r.isError = false) :
    outcome (rs ++ [r]) = outcome rs := by
  simp [outcome, h]

theorem isError_of_unstored {r : ResponseChunk} (h : responseOutput r = none) :
    r.isError = false := by
  cases he : r.isError with
  | false => rfl
  | true =>
    have := History.isError_recorded he
    rw [h] at this
    cases this

theorem Keeping.pass {r : ResponseChunk} (h : Keeping t row cancelled rs)
    (hr : responseOutput r = none) : Keeping t row cancelled (rs ++ [r]) := by
  refine ⟨fun id hid => (h.tally id hid).pass hr, fun id hid ha hc => ?_⟩
  rw [outcome_pass (isError_of_unstored hr)]
  exact h.ended id hid ha hc

/-- The command is not the active one, so nothing of it changes. -/
theorem Keeping.inactive (h : Keeping t row cancelled rs) (ha : ∀ id ∈ row, t.activeCommandId ≠ some id)
    (hu : ∀ id ∈ row, Untouched t t' id) (hids : t'.db.ids = t.db.ids)
    (ha' : ∀ id ∈ row, t'.activeCommandId ≠ some id) : Keeping t' row cancelled rs := by
  refine ⟨fun id hid => ?_, fun id hid _ hc => ?_⟩
  · exact (h.tally id hid).untouched (hu id hid) (by rw [hids]; exact (h.tally id hid).known)
      (ha' id hid)
  · rw [(hu id hid).status]
    exact h.ended id hid (ha id hid) hc

theorem recordResponse_active_ne {id : Nat} (h : t.activeCommandId ≠ some id) (r : ResponseChunk) :
    (t.recordResponse r).activeCommandId ≠ some id := by
  rw [History.recordResponse_active]
  split
  · exact nofun
  · exact h

/-- The responses that `record_response` is called with and an ear can hear. -/
def recordable : ResponseChunk → Bool
  | .stdout _ | .result _ | .rError _ | .internalError _ | .image _ | .done | .readline _ => true
  | _ => false

theorem closing_outcome {r : ResponseChunk} {status : Status} (hr : recordable r = true)
    (hc : closingStatus r = some status) :
    (if (rs ++ [r]).any ResponseChunk.isError then Status.error else status) = outcome (rs ++ [r]) := by
  cases r with
  | done =>
    cases hc
    rfl
  | internalError s =>
    cases hc
    simp [outcome, ResponseChunk.isError]
  | stdout | result | rError | image | readline => cases hc
  | _ => cases hr

theorem Keeping.record {r : ResponseChunk} (h : Keeping t row cancelled rs)
    (hr : recordable r = true)
    (hstored : (∀ id ∈ row, t.activeCommandId ≠ some id) → responseOutput r = none) :
    Keeping (t.recordResponse r) row cancelled (rs ++ [r]) := by
  cases row with
  | none => exact ⟨nofun, nofun⟩
  | some id =>
    by_cases ha : t.activeCommandId = some id
    · refine ⟨?_, ?_⟩
      · rintro _ ⟨⟩
        exact (h.tally id rfl).record ha r
      · rintro _ ⟨⟩ ha' -
        rw [History.recordResponse_active] at ha'
        cases hc : closingStatus r with
        | none =>
          rw [hc] at ha'
          exact absurd ha ha'
        | some status =>
          rw [(h.tally id rfl).closes ha hc, closing_outcome hr hc]
    · have hne : ∀ id' ∈ some id, t.activeCommandId ≠ some id' := by
        rintro _ ⟨⟩
        exact ha
      refine (h.pass (hstored hne)).inactive hne ?_ (History.recordResponse_ids t r) ?_
      · exact fun id' hid' => History.recordResponse_untouched (hne id' hid') r
      · exact fun id' hid' => recordResponse_active_ne (hne id' hid') r

variable {s s' : Session}

theorem ear_active (h : (s.ear row).ended = false) :
    ∃ id, row = some id ∧ s.history.activeCommandId = some id := by
  simp only [Session.ear, Bool.not_eq_false', Bool.and_eq_true, decide_eq_true_eq] at h
  obtain ⟨hrow, ha⟩ := h
  obtain ⟨id, rfl⟩ := Option.isSome_iff_exists.mp hrow
  exact ⟨id, rfl, ha⟩

theorem ear_inactive (h : (s.ear row).ended = true) :
    ∀ id ∈ row, s.history.activeCommandId ≠ some id := by
  rintro id rfl ha
  simp [Session.ear, ha] at h

theorem ear_of_none (h : s.history.activeCommandId = none) : s.ear row = ⟨s.passthrough, true⟩ := by
  cases row <;> simp [Session.ear, h]

/-- A response that is recorded ends the command or leaves it active. -/
theorem ear_record (s : Session) (r : ResponseChunk) (row : Option Nat) :
    ({ s with history := s.history.recordResponse r } : Session).ear row =
      { s.ear row with ended := (closingStatus r).isSome || (s.ear row).ended } := by
  unfold Session.ear
  rw [History.recordResponse_active]
  cases closingStatus r <;> cases row <;> simp

theorem receive_listening {r : ResponseChunk} (hp : s.passthrough = false) :
    s.receive r =
      match r with
      | .passthrough => { s with passthrough := true }
      | .passthroughEnd | .completions _ _ | .shutdown => s
      | _ => { s with history := s.history.recordResponse r } := by
  unfold Session.receive
  rw [hp]
  rfl

theorem receive_passing {r : ResponseChunk} (hp : s.passthrough = true) :
    s.receive r =
      match r with
      | .passthroughEnd => { s with passthrough := false }
      | _ => s := by
  unfold Session.receive
  rw [hp]
  rfl

theorem Keeping.receive {r : ResponseChunk} {x : Ear} (h : Keeping s.history row cancelled rs)
    (hx : (s.ear row).hear r = some x) :
    Keeping (s.receive r).history row cancelled (rs ++ [r]) ∧ (s.receive r).ear row = x := by
  have hpassing : (s.ear row).passing = s.passthrough := rfl
  cases hp : s.passthrough with
  | true =>
    rw [receive_passing hp]
    rw [hp] at hpassing
    cases r <;> simp only [Ear.hear, hpassing, Bool.true_or, ↓reduceIte, Option.some.injEq,
      reduceCtorEq] at hx
    case passthrough =>
      subst hx
      exact ⟨h.pass rfl, congrArg (fun p => (⟨p, (s.ear row).ended⟩ : Ear)) hp⟩
    all_goals
      subst hx
      exact ⟨h.pass rfl, rfl⟩
  | false =>
    rw [receive_listening hp]
    rw [hp] at hpassing
    have hstored : (s.ear row).ended = false →
        (∀ id ∈ row, s.history.activeCommandId ≠ some id) → responseOutput r = none := by
      intro he hne
      obtain ⟨id, hrow, ha⟩ := ear_active he
      exact absurd ha (hne id hrow)
    cases r <;> simp only [Ear.hear, hpassing, Bool.false_or, Bool.false_eq_true, ↓reduceIte,
      Option.ite_none_left_eq_some, Option.some.injEq, Bool.not_eq_true, reduceCtorEq] at hx
    case passthrough =>
      subst hx
      exact ⟨h.pass rfl, rfl⟩
    case passthroughEnd =>
      subst hx
      exact ⟨h.pass rfl, congrArg (fun p => (⟨p, (s.ear row).ended⟩ : Ear)) hp⟩
    case completions =>
      subst hx
      exact ⟨h.pass rfl, rfl⟩
    case readline =>
      subst hx
      exact ⟨h.record (r := .readline _) rfl fun _ => rfl, ear_record s (.readline _) row⟩
    case done =>
      subst hx
      exact ⟨h.record (r := .done) rfl fun _ => rfl, (ear_record s .done row).trans
        (congrArg (fun p => (⟨p, true⟩ : Ear)) hp)⟩
    case internalError msg =>
      obtain ⟨he, rfl⟩ := hx
      exact ⟨h.record (r := .internalError msg) rfl (hstored he),
        (ear_record s (.internalError msg) row).trans
          (congrArg (fun p => (⟨p, true⟩ : Ear)) hp)⟩
    case stdout msg | result msg | rError msg | image msg =>
      obtain ⟨he, rfl⟩ := hx
      exact ⟨h.record rfl (hstored he), ear_record s _ row⟩

/-! ## The rest of the store -/

/-- The submissions that are done are kept and not active, and nothing is stored of anything but a
submission. -/
structure Ledger (before : Db) (t : History) (done : List Submission) (stored : List Nat) : Prop where
  settled : ∀ sub ∈ done, ∀ id ∈ sub.row,
    Kept t.db sub id ∧ id ∈ t.db.ids ∧ t.activeCommandId ≠ some id
  referential : t.db.Referential
  active : ∀ id ∈ t.activeCommandId, id ∈ t.db.ids
  stray : ∀ o ∈ t.db.outputs, o ∈ before.outputs ∨ o.commandId ∈ stored

variable {before : Db} {done : List Submission} {stored stored' : List Nat}

theorem Kept.untouched {sub : Submission} {id : Nat} (h : Kept t.db sub id)
    (hu : Untouched t t' id) : Kept t'.db sub id := by
  obtain ⟨⟨rs, hrs, hc⟩, hn, hstatus⟩ := h
  exact ⟨⟨rs, hrs, hu.contents.trans hc⟩, hu.numbered hn,
    fun hc => hu.status.trans (hstatus hc)⟩

theorem Ledger.finish (h : Ledger before t done stored) (status : Status) :
    Ledger before (t.finishActive status) done stored := by
  refine ⟨fun sub hsub id hid => ?_, ?_, ?_, ?_⟩
  · obtain ⟨hk, hid, hne⟩ := h.settled sub hsub id hid
    exact ⟨hk.untouched (History.finishActive_untouched hne status),
      by rw [History.finishActive_ids]; exact hid,
      by rw [History.finishActive_active]; exact nofun⟩
  · intro o ho
    rw [History.finishActive_outputs] at ho
    rw [History.finishActive_ids]
    exact h.referential o ho
  · rw [History.finishActive_active]
    exact nofun
  · rw [History.finishActive_outputs]
    exact h.stray

theorem Ledger.record {r : ResponseChunk} (h : Ledger before t done stored)
    (hr : (responseOutput r).isSome = true → ∀ id ∈ t.activeCommandId, id ∈ stored) :
    Ledger before (t.recordResponse r) done stored := by
  refine ⟨fun sub hsub id hid => ?_, ?_, ?_, ?_⟩
  · obtain ⟨hk, hid, hne⟩ := h.settled sub hsub id hid
    exact ⟨hk.untouched (History.recordResponse_untouched hne r),
      by rw [History.recordResponse_ids]; exact hid, recordResponse_active_ne hne r⟩
  · intro o ho
    rw [History.recordResponse_ids]
    rcases History.recordResponse_outputs t r with heq | ⟨-, id, o', ha, hid, heq⟩
    · rw [heq] at ho
      exact h.referential o ho
    · rw [heq] at ho
      rcases List.mem_append.mp ho with ho | ho
      · exact h.referential o ho
      · rw [List.mem_singleton] at ho
        rw [ho, hid]
        exact h.active id ha
  · intro id hid
    rw [History.recordResponse_ids]
    rw [History.recordResponse_active] at hid
    split at hid
    · cases hid
    · exact h.active id hid
  · intro o ho
    rcases History.recordResponse_outputs t r with heq | ⟨hsome, id, o', ha, hid, heq⟩
    · rw [heq] at ho
      exact h.stray o ho
    · rw [heq] at ho
      rcases List.mem_append.mp ho with ho | ho
      · exact h.stray o ho
      · rw [List.mem_singleton] at ho
        rw [ho, hid]
        exact .inr (hr hsome id ha)

theorem Ledger.receive {r : ResponseChunk} (h : Ledger before s.history done stored)
    (hr : (responseOutput r).isSome = true → ∀ id ∈ s.history.activeCommandId, id ∈ stored) :
    Ledger before (s.receive r).history done stored := by
  unfold Session.receive
  split
  · split <;> exact h
  · split
    · exact h
    · exact h
    · exact h
    · exact h
    · exact h.record hr

/-- A new row leaves the others alone. -/
theorem Ledger.add (h : Ledger before t done stored) (mode : Bytes) (lines : List UnicodeString) :
    Ledger before (t.addToHistory mode lines) done stored := by
  cases hb : History.isBlank lines with
  | true =>
    rw [History.addToHistory_blank hb]
    exact h
  | false =>
    obtain ⟨id, ha, hnew, hids, houtputs, -⟩ := History.addToHistory_tally hb h.referential mode
    refine ⟨fun sub hsub id' hid' => ?_, ?_, ?_, ?_⟩
    · obtain ⟨hk, hmem, hne⟩ := h.settled sub hsub id' hid'
      refine ⟨hk.untouched (History.addToHistory_untouched hne hmem mode), ?_, ?_⟩
      · rw [hids]
        exact List.mem_append_left _ hmem
      · rw [ha]
        rintro ⟨⟩
        exact hnew hmem
    · intro o ho
      rw [houtputs] at ho
      rw [hids]
      exact List.mem_append_left _ (h.referential o ho)
    · rw [ha, hids]
      rintro _ ⟨⟩
      exact List.mem_append_right _ List.mem_cons_self
    · rw [houtputs]
      exact h.stray

theorem Ledger.widen (h : Ledger before t done stored) (hrows : ∀ id ∈ stored, id ∈ stored') :
    Ledger before t done stored' :=
  ⟨h.settled, h.referential, h.active, fun o ho => (h.stray o ho).imp id (hrows _)⟩

theorem Ear.hear_stored {x y : Ear} {r : ResponseChunk} (h : x.hear r = some y)
    (hr : (responseOutput r).isSome = true) : x.ended = false := by
  cases r <;> simp only [hear, Option.ite_none_left_eq_some, Bool.or_eq_true, not_or,
    Bool.not_eq_true, reduceCtorEq] at h
  case stdout | result | rError | image | internalError => exact h.1.2
  all_goals cases hr

/-- What is heard is stored under the command that listens, and nowhere else. -/
theorem receives_heard {new : List ResponseChunk} {x : Ear}
    (h : Keeping s.history row cancelled rs) (hl : Ledger before s.history done stored)
    (hrow : ∀ id ∈ row, id ∈ stored) (hx : (s.ear row).heard new = some x) :
    Keeping (new.foldl Session.receive s).history row cancelled (rs ++ new) ∧
      Ledger before (new.foldl Session.receive s).history done stored ∧
      (new.foldl Session.receive s).ear row = x := by
  induction new generalizing s rs with
  | nil =>
    cases hx
    exact ⟨by rw [List.append_nil]; exact h, hl, rfl⟩
  | cons r new ih =>
    simp only [Ear.heard, List.foldlM_cons, Option.bind_eq_bind, Option.bind_eq_some_iff] at hx
    obtain ⟨x', hx', hx⟩ := hx
    obtain ⟨h', rfl⟩ := h.receive hx'
    have hl' : Ledger before (s.receive r).history done stored := by
      refine hl.receive fun hr id hid => ?_
      obtain ⟨id', rfl, ha⟩ := ear_active (Ear.hear_stored hx' hr)
      rw [ha] at hid
      cases hid
      exact hrow _ rfl
    have := ih h' hl' hx
    rwa [List.append_assoc] at this

end Main
end Raoui
