import Raoui.Editor.HistoryRows
import Raoui.Editor.Submission

/-!
# Raoui.Main.Query

The row of an AI query in the history store, along the runs of the loop of `bin/main.ml`.

* `Turns`: one turn of the loop, an update and what the loop does with its result.
* `Evolves`: what a turn does to the store.
* `fate`: how turns without a submission close the row under way.
* `Concluded`: the row is done, and stays so.
* `query_concluded_iff`: an Ai_done closes no row; it is done if a Done of R has closed it before.
-/

namespace Raoui

open Ffi (ResponseChunk)
open Transition (Run)
open Update (update initialModel setAside)

/-- `History.close`, as far as the rows go. -/
def History.close (t : History) : History := t.finishActive .interrupted

namespace Main

open History (SameRecords Status Untouched closingStatus isBlank)

/-! ## Turns -/

/-- What the loop goes on with may differ from what the update has left in what the terminal says:
the cursor after the output, and the place of the prompt. -/
structure Prints (m m' : Model) : Prop where
  input : m'.input = m.input
  awaiting : m'.repl.awaitingResponse = m.repl.awaitingResponse
  response : m'.repl.backendResponse = m.repl.backendResponse
  pending : m'.repl.pendingSuggestion = m.repl.pendingSuggestion
  width : m'.layout.termWidth = m.layout.termWidth
  height : m'.layout.termHeight = m.layout.termHeight

theorem Prints.refl (m : Model) : Prints m m := ⟨rfl, rfl, rfl, rfl, rfl, rfl⟩

inductive Turn where
  /-- A message, with what the update has asked for. -/
  | update (msg : Msg) (effects : List Effect)
  /-- A key that cancels: the store records it, and the loop starts over from a new model. -/
  | cancel (key : Tty.Key)
  deriving DecidableEq, Repr

section
variable [Ucd]

inductive Turns (m : Model) : Turn → Model → Prop where
  | update {msg : Msg} {effects : List Effect} {m₁ m' : Model}
      (updates : update msg m = .ok (m₁, effects)) (prints : Prints m₁ m') :
      Turns m (.update msg effects) m'
  | cancel {key : Tty.Key} {m₁ m' : Model} {row width height : Int}
      (updates : update (.key key) m = .ok (m₁, [.cancel]))
      (restarts : initialModel m₁.input.history.recordCancel row width height = .ok m') :
      Turns m (.cancel key) m'

variable {m m' : Model} {turn : Turn}

theorem initialModel_history {history : History} {row width height : Int}
    (h : initialModel history row width height = .ok m) : m.input.history = history := by
  unfold initialModel at h
  obtain ⟨cache, -, h⟩ := Outcome.bind_eq_ok.mp h
  cases h
  rfl

omit [Ucd] in
theorem Prints.sound {m₁ : Model} (h : Prints m₁ m') (hs : m₁.Sound) : m'.Sound := by
  obtain ⟨⟨hwf, h0, hlt, hpos, hcached⟩, hkept, hmode⟩ := hs
  refine ⟨⟨?_, ?_, ?_, ?_, ?_⟩, ?_, ?_⟩
  all_goals rw [h.input]; assumption

theorem Turns.sound (h : Turns m turn m') (hs : m.Sound) : m'.Sound := by
  cases h with
  | update updates prints => exact prints.sound (Update.update_sound hs updates).1
  | cancel updates restarts =>
    refine (Update.initialModel_sound (fun p hp => ?_) restarts).1
    rw [History.recordCancel, History.finishActive_savedPrompt] at hp
    exact (Update.update_sound hs updates).1.kept p hp

end

/-! ## What a turn does to the store -/

/-- The effects that come with a row, or after which there are no more turns. -/
def submits : Effect → Bool
  | .submit _ | .submitAiQuery _ | .quit => true
  | _ => false

def Turn.isSubmission : Turn → Bool
  | .update _ effects => effects.any submits
  | .cancel _ => false

inductive Evolves (t : History) : Turn → History → Prop where
  | same {turn : Turn} {t' : History} (uncancelled : ∀ key, turn ≠ .cancel key)
      (unanswered : ∀ r effects, turn = .update (.response r) effects → setAside r = true)
      (records : t.SameRecords t') : Evolves t turn t'
  | response {r : ResponseChunk} {effects : List Effect} (goesOn : setAside r = false) :
      Evolves t (.update (.response r) effects) (t.recordResponse r)
  | added {msg : Msg} {effects : List Effect} {mode : Bytes} {lines : List UnicodeString}
      (submits : (Turn.update msg effects).isSubmission = true)
      (unanswered : ∀ r, msg ≠ .response r) :
      Evolves t (.update msg effects) (t.addToHistory mode lines)
  | cancelled {key : Tty.Key} {t' : History} (records : t.SameRecords t') :
      Evolves t (.cancel key) t'.recordCancel

section
variable [Ucd] {m m' : Model} {turn : Turn}

/-- A key leaves the records alone unless it submits. -/
theorem key_records (hs : m.Sound) {key : Tty.Key} {effects : List Effect} {m₁ : Model}
    (h : update (.key key) m = .ok (m₁, effects)) :
    m.input.history.SameRecords m₁.input.history ∨
      effects.any submits = true ∧
        ∃ mode lines, m₁.input.history = m.input.history.addToHistory mode lines := by
  have hstep := (Update.update_eq_ok h).1
  have hrecords := ((Update.keyStep_safe ((Update.unscrolled_sameText m).sound hs) key).of_eq_ok
    hstep).records
  cases hrecords with
  | quiet _ history _ => exact .inl history
  | submit _ history => exact .inr ⟨rfl, _, _, history⟩
  | query _ history => exact .inr ⟨rfl, _, _, history⟩
  | reset _ history => exact .inl (history ▸ SameRecords.refl _)
  | readline _ history => exact .inl (history ▸ SameRecords.refl _)
  | quit _ history => exact .inr ⟨rfl, _, _, history⟩

theorem evolves_update (hs : m.Sound) {msg : Msg} {effects : List Effect} {m₁ : Model}
    (h : update msg m = .ok (m₁, effects)) :
    Evolves m.input.history (.update msg effects) m₁.input.history := by
  have hstep := (Update.update_eq_ok h).1
  have h₀ := (Update.unscrolled_sameText m).sound hs
  cases msg with
  | key key =>
    obtain hsame | ⟨hsubmits, mode, lines, hadded⟩ := key_records hs h
    · exact .same nofun nofun hsame
    · rw [hadded]
      exact .added hsubmits nofun
  | response response =>
    obtain ⟨hresponse, -⟩ := (Update.responseStep_safe h₀ response).of_eq_ok hstep
    split at hresponse
    · rename_i haside
      refine .same nofun (fun r _ heq => ?_) (hresponse.history ▸ SameRecords.refl _)
      cases heq
      exact haside
    · rename_i haside
      rw [hresponse.history]
      exact .response (Bool.eq_false_of_not_eq_true haside)
  | backslashEffectResult tokenStart originalToken insertedText =>
    obtain ⟨-, -, -, -, hhistory, -⟩ :=
      (Update.insertStep_safe h₀ tokenStart originalToken insertedText).of_eq_ok hstep
    exact .same nofun nofun (hhistory ▸ SameRecords.refl _)
  | termResize width height =>
    obtain ⟨hsame, -⟩ := (Update.resizeStep_safe h₀ width height).of_eq_ok hstep
    exact .same nofun nofun (hsame.history ▸ SameRecords.refl _)

theorem Turns.evolves (h : Turns m turn m') (hs : m.Sound) :
    Evolves m.input.history turn m'.input.history := by
  cases h with
  | update updates prints =>
    rw [prints.input]
    exact evolves_update hs updates
  | cancel updates restarts =>
    rw [initialModel_history restarts]
    obtain hsame | ⟨hsubmits, -⟩ := key_records hs updates
    · exact .cancelled hsame
    · cases hsubmits

end

/-! ## The row under way -/

variable {t t' : History} {id : Nat} {failed : Bool} {status : Status} {turn : Turn}

/-- The row is the active one; `failed` says whether an error has been recorded under it. -/
structure Underway (t : History) (id : Nat) (failed : Bool) : Prop where
  active : t.activeCommandId = some id
  hadError : t.activeCommandHadError = failed
  known : id ∈ t.db.ids

/-- The row is over: nothing more is written to it. -/
structure Over (t : History) (id : Nat) : Prop where
  known : id ∈ t.db.ids
  inactive : t.activeCommandId ≠ some id

theorem Underway.same (h : Underway t id failed) (hs : t.SameRecords t') :
    Underway t' id failed :=
  ⟨hs.activeCommandId.trans h.active, hs.activeCommandHadError.trans h.hadError, hs.db ▸ h.known⟩

theorem Underway.content (h : Underway t id failed) (r : ResponseChunk) :
    Underway (History.recordContent t r) id (failed || r.isError) := by
  refine ⟨(History.recordContent_active t r).trans h.active, ?_, ?_⟩
  · rw [History.recordContent_hadError, h.hadError]
  · rw [History.Db.ids, History.recordContent_commands]
    exact h.known

theorem Underway.finish (h : Underway t id failed) (status : Status) :
    Over (t.finishActive status) id ∧ (t.finishActive status).activeCommandId = none ∧
      (t.finishActive status).db.status id = some (if failed then .error else status) := by
  have hnone := History.finishActive_active t status
  refine ⟨⟨(History.finishActive_ids t status).symm ▸ h.known, ?_⟩, hnone, ?_⟩
  · rw [hnone]
    exact nofun
  · rw [History.finishActive_status h.active h.known, h.hadError]

theorem Over.same (h : Over t id) (hs : t.SameRecords t') : Over t' id ∧ Untouched t t' id :=
  ⟨⟨hs.db ▸ h.known, hs.activeCommandId ▸ h.inactive⟩, ⟨by rw [hs.db], by rw [hs.db]⟩⟩

theorem Over.finish (h : Over t id) (status : Status) :
    Over (t.finishActive status) id ∧ Untouched t (t.finishActive status) id := by
  refine ⟨⟨(History.finishActive_ids t status).symm ▸ h.known, ?_⟩,
    History.finishActive_untouched h.inactive status⟩
  rw [History.finishActive_active]
  exact nofun

theorem Over.response (h : Over t id) (r : ResponseChunk) :
    Over (t.recordResponse r) id ∧ Untouched t (t.recordResponse r) id := by
  refine ⟨⟨(History.recordResponse_ids t r).symm ▸ h.known, ?_⟩,
    History.recordResponse_untouched h.inactive r⟩
  rw [History.recordResponse_active]
  split
  · exact nofun
  · exact h.inactive

theorem Over.added (h : Over t id) (mode : Bytes) (lines : List UnicodeString) :
    Over (t.addToHistory mode lines) id ∧ Untouched t (t.addToHistory mode lines) id := by
  refine ⟨?_, History.addToHistory_untouched h.inactive h.known mode⟩
  cases hblank : isBlank lines with
  | true =>
    rw [History.addToHistory_blank hblank]
    exact h
  | false =>
    obtain ⟨new, -, hnew, hactive, -, -, hids, -⟩ := @History.addToHistory_new t lines hblank mode
    refine ⟨?_, ?_⟩
    · rw [hids]
      exact List.mem_append_left _ h.known
    · rw [hactive]
      exact fun heq => hnew (Option.some.inj heq ▸ h.known)

/-- Whatever a turn does, it does to another row. -/
theorem Over.evolves (h : Over t id) (he : Evolves t turn t') :
    Over t' id ∧ Untouched t t' id := by
  cases he with
  | same _ _ records => exact h.same records
  | response _ => exact h.response _
  | added _ _ => exact h.added _ _
  | cancelled records =>
    obtain ⟨hsame, huntouched⟩ := h.same records
    obtain ⟨hfinish, huntouched'⟩ := hsame.finish .interrupted
    exact ⟨hfinish, huntouched.trans huntouched'⟩

theorem idle_evolves (h : t.activeCommandId = none) (he : Evolves t turn t')
    (hquiet : turn.isSubmission = false) : t'.activeCommandId = none := by
  cases he with
  | same _ _ records => exact records.activeCommandId.trans h
  | response _ =>
    rw [History.recordResponse_active, h]
    split <;> rfl
  | added submits _ => cases hquiet.symm.trans submits
  | cancelled _ => exact History.finishActive_active _ _

/-- The status with which turns that submit nothing close a row under way, if they do. -/
def fate : Bool → List Turn → Option Status
  | _, [] => none
  | failed, .cancel _ :: _ => some (if failed then .error else .interrupted)
  | failed, .update (.response r) _ :: rest =>
    if setAside r then fate failed rest
    else
      match closingStatus r with
      | some status => some (if failed || r.isError then .error else status)
      | none => fate (failed || r.isError) rest
  | failed, .update _ _ :: rest => fate failed rest

theorem fate_same {rest : List Turn} (uncancelled : ∀ key, turn ≠ .cancel key)
    (unanswered : ∀ r effects, turn = .update (.response r) effects → setAside r = true) :
    fate failed (turn :: rest) = fate failed rest := by
  cases turn with
  | cancel key => exact absurd rfl (uncancelled key)
  | update msg effects =>
    cases msg with
    | response r =>
      rw [fate, if_pos (unanswered r effects rfl)]
    | _ => rfl

section
variable [Ucd] {m m' : Model} {turns : List Turn}

theorem Over.run (h : Over m.input.history id) (hs : m.Sound) (hrun : Run Turns m turns m') :
    Over m'.input.history id ∧ Untouched m.input.history m'.input.history id := by
  induction hrun with
  | nil => exact ⟨h, .refl⟩
  | cons hturn _ ih =>
    obtain ⟨hover, huntouched⟩ := h.evolves (hturn.evolves hs)
    obtain ⟨hover', huntouched'⟩ := ih hover (hturn.sound hs)
    exact ⟨hover', huntouched.trans huntouched'⟩

theorem idle_run (h : m.input.history.activeCommandId = none) (hs : m.Sound)
    (hrun : Run Turns m turns m') (hquiet : ∀ turn ∈ turns, turn.isSubmission = false) :
    m'.input.history.activeCommandId = none :=
  (Run.invariant_of (I := fun m => m.Sound ∧ m.input.history.activeCommandId = none) hquiet
    (fun ⟨hs, h⟩ hturn hquiet => ⟨hturn.sound hs, idle_evolves h (hturn.evolves hs) hquiet⟩)
    ⟨hs, h⟩ hrun).2

/-- What has closed a row is final, and with nothing submitted nothing is active after it. -/
theorem closed_run (h : Over m.input.history id) (hnone : m.input.history.activeCommandId = none)
    (hs : m.Sound) (hrun : Run Turns m turns m')
    (hquiet : ∀ turn ∈ turns, turn.isSubmission = false) :
    m'.input.history.activeCommandId = none ∧
      m'.input.history.db.status id = m.input.history.db.status id :=
  ⟨idle_run hnone hs hrun hquiet, (h.run hs hrun).2.status⟩

/-- A row under way, after turns that submit nothing. -/
theorem Underway.run (h : Underway m.input.history id failed) (hs : m.Sound)
    (hrun : Run Turns m turns m') (hquiet : ∀ turn ∈ turns, turn.isSubmission = false) :
    match fate failed turns with
    | none => m'.input.history.activeCommandId = some id
    | some status => m'.input.history.activeCommandId = none ∧
        m'.input.history.db.status id = some status := by
  induction hrun generalizing failed with
  | nil => exact h.active
  | @cons m m₁ m' turn rest hturn hrest ih =>
    obtain ⟨hsubmits, hothers⟩ := List.forall_mem_cons.mp hquiet
    have hs₁ := hturn.sound hs
    have hclosed : ∀ {status : Status}, Over m₁.input.history id →
        m₁.input.history.activeCommandId = none →
        m₁.input.history.db.status id = some status →
        m'.input.history.activeCommandId = none ∧
          m'.input.history.db.status id = some status := fun hover hnone hstatus => by
      obtain ⟨hidle, hkept⟩ := closed_run hover hnone hs₁ hrest hothers
      exact ⟨hidle, hkept.trans hstatus⟩
    have hevolves := hturn.evolves hs
    generalize ht₁ : m₁.input.history = t₁ at hevolves hclosed
    cases hevolves with
    | same uncancelled unanswered records =>
      rw [fate_same uncancelled unanswered]
      exact ih (ht₁ ▸ h.same records) hs₁ hothers
    | @response r effects goesOn =>
      have hcontent := h.content r
      rw [History.recordResponse_eq] at ht₁ hclosed
      rw [fate, if_neg (by rw [goesOn]; exact Bool.false_ne_true)]
      cases hclosing : closingStatus r with
      | none =>
        rw [hclosing] at ht₁
        exact ih (ht₁ ▸ hcontent) hs₁ hothers
      | some status =>
        rw [hclosing] at hclosed
        obtain ⟨hover, hnone, hstatus⟩ := hcontent.finish status
        exact hclosed hover hnone hstatus
    | added submits _ => cases hsubmits.symm.trans submits
    | cancelled records =>
      obtain ⟨hover, hnone, hstatus⟩ := (h.same records).finish .interrupted
      exact hclosed hover hnone hstatus

end

/-! ## The end of a query -/

/-- The turn neither closes the row under way nor records an error under it. -/
def Turn.passes : Turn → Bool
  | .cancel _ => false
  | .update (.response r) _ =>
    match r with
    | .done | .rError _ | .internalError _ | .restarted _ => false
    | _ => true
  | .update _ _ => true

/-- A Done of R comes, and nothing before it closes the row or records an error. -/
def DoneFirst (turns : List Turn) : Prop :=
  ∃ before effects after, turns = before ++ .update (.response .done) effects :: after ∧
    ∀ turn ∈ before, turn.passes = true

theorem fate_passes {rest : List Turn} (h : turn.passes = true) :
    fate failed (turn :: rest) = fate failed rest := by
  cases turn with
  | cancel key => cases h
  | update msg effects =>
    cases msg with
    | response r =>
      cases r with
      | done => cases h
      | rError text => cases h
      | internalError text => cases h
      | restarted text => cases h
      | _ => simp [fate, setAside, closingStatus, ResponseChunk.isError]
    | _ => rfl

/-- Once an error has been recorded, the row does not end as done. -/
theorem fate_failed (turns : List Turn) : fate true turns ≠ some .done := by
  induction turns with
  | nil => exact nofun
  | cons turn rest ih =>
    cases turn with
    | cancel key => exact nofun
    | update msg effects =>
      cases msg with
      | response r =>
        unfold fate
        split
        · exact ih
        · split
          · exact nofun
          · exact ih
      | _ => exact ih

theorem fate_done_iff {turns : List Turn} : fate false turns = some .done ↔ DoneFirst turns := by
  constructor
  · intro h
    induction turns with
    | nil => cases h
    | cons turn rest ih =>
      by_cases hpasses : turn.passes = true
      · rw [fate_passes hpasses] at h
        obtain ⟨before, effects, after, rfl, hbefore⟩ := ih h
        exact ⟨turn :: before, effects, after, rfl, List.forall_mem_cons.mpr ⟨hpasses, hbefore⟩⟩
      · cases turn with
        | cancel key => cases h
        | update msg effects =>
          cases msg with
          | response r =>
            cases r with
            | done => exact ⟨[], effects, rest, rfl, List.forall_mem_nil _⟩
            | rError text => exact absurd h (fate_failed rest)
            | internalError text => cases h
            | restarted text => cases h
            | _ => exact absurd rfl hpasses
          | _ => exact absurd rfl hpasses
  · rintro ⟨before, effects, after, rfl, hbefore⟩
    induction before with
    | nil => rfl
    | cons turn before ih =>
      obtain ⟨hpasses, hbefore⟩ := List.forall_mem_cons.mp hbefore
      rw [List.cons_append, fate_passes hpasses]
      exact ih hbefore

/-- Nothing is active, the row is done, and whatever comes it stays so and gets no more outputs. -/
structure Concluded [Ucd] (m : Model) (id : Nat) : Prop where
  idle : m.input.history.activeCommandId = none
  done : m.input.history.db.status id = some .done
  final : ∀ turns m', Run Turns m turns m' →
    m'.input.history.db.status id = some .done ∧
      m'.input.history.close.db.status id = some .done ∧
      m'.input.history.db.rowsOf id = m.input.history.db.rowsOf id

section
variable [Ucd] {m m' : Model}

omit [Ucd] in
theorem mem_ids_of_status {db : History.Db} {status : Status} (h : db.status id = some status) :
    id ∈ db.ids := by
  obtain ⟨c, hc, -⟩ := Option.map_eq_some_iff.mp h
  have hid : c.id = id := by simpa using List.find?_some hc
  exact hid ▸ List.mem_map_of_mem (List.mem_of_find?_eq_some hc)

theorem concluded_of (hs : m.Sound) (hidle : m.input.history.activeCommandId = none)
    (hdone : m.input.history.db.status id = some .done) : Concluded m id := by
  refine ⟨hidle, hdone, fun turns m' hrun => ?_⟩
  have hover : Over m.input.history id :=
    ⟨mem_ids_of_status hdone, by rw [hidle]; exact nofun⟩
  obtain ⟨hover', huntouched⟩ := hover.run hs hrun
  have hstatus := huntouched.status.trans hdone
  exact ⟨hstatus, (hover'.finish .interrupted).2.status.trans hstatus, huntouched.rows⟩

/-- A query comes with a row of its own. -/
theorem query_adds (hs : m.Sound) {msg : Msg} {query : Bytes}
    (h : Turns m (.update msg [.submitAiQuery query]) m') :
    m'.input.history = m.input.history.addToHistory (bytes "ai") m.input.lines := by
  cases h with
  | @update _ _ m₁ _ updates prints =>
    rw [prints.input]
    have hstep := (Update.update_eq_ok updates).1
    have h₀ := (Update.unscrolled_sameText m).sound hs
    cases msg with
    | key key =>
      have hrecords := ((Update.keyStep_safe h₀ key).of_eq_ok hstep).records
      cases hrecords with
      | quiet _ _ quiet => cases quiet _ (List.mem_singleton_self _)
      | query _ history => exact history
    | response response =>
      have heffects := ((Update.responseStep_safe h₀ response).of_eq_ok hstep).2
      cases response with
      | _ => cases heffects
    | backslashEffectResult tokenStart originalToken insertedText =>
      cases ((Update.insertStep_safe h₀ tokenStart originalToken insertedText).of_eq_ok hstep).1
    | termResize width height =>
      cases ((Update.resizeStep_safe h₀ width height).of_eq_ok hstep).2

/-- An Ai_done touches no row. -/
theorem aiDone_records (hs : m.Sound) {effects : List Effect}
    (h : Turns m (.update (.response .aiDone) effects) m') :
    m'.input.history = m.input.history := by
  cases h with
  | update updates prints =>
    rw [prints.input]
    have hstep := (Update.update_eq_ok updates).1
    have h₀ := (Update.unscrolled_sameText m).sound hs
    exact ((Update.responseStep_safe h₀ .aiDone).of_eq_ok hstep).1.history

theorem turns_sound {db : History.Db} {row width height : Int} {m₀ : Model} {turns : List Turn}
    (h₀ : initialModel (History.init db) row width height = .ok m₀) (hrun : Run Turns m₀ turns m) :
    m.Sound :=
  Run.invariant (fun hs hturn => hturn.sound hs)
    (Update.initialModel_sound (History.kept_init db) h₀).1 hrun

/-- The model an update leaves, if it asks for these effects. -/
def nextTurn (m : Model) : Turn → Option Model
  | .update msg effects =>
    match update msg m with
    | .ok r => if r.2 = effects then some r.1 else none
    | .error _ => none
  | .cancel _ => none

theorem turns_of_next {turn : Turn} (h : nextTurn m turn = some m') : Turns m turn m' := by
  cases turn with
  | cancel key => cases h
  | update msg effects =>
    unfold nextTurn at h
    dsimp only at h
    split at h
    · rename_i r hr
      obtain ⟨m₁, effects₁⟩ := r
      obtain ⟨rfl, hm⟩ := Option.ite_none_right_eq_some.mp h
      cases hm
      exact .update hr (.refl m₁)
    · cases h

/-- After an AI query that had a row, and whatever came before its Ai_done but another submission,
the row is done for good if and only if a Done of R, not of the AI, has closed it. -/
theorem query_concluded_iff {db : History.Db} {row width height : Int} {m₀ m₁ m₂ m₃ : Model}
    {before between : List Turn} {msg : Msg} {query : Bytes} {effects : List Effect}
    (h₀ : initialModel (History.init db) row width height = .ok m₀) (hbefore : Run Turns m₀ before m)
    (hquery : Turns m (.update msg [.submitAiQuery query]) m₁)
    (hblank : isBlank m.input.lines = false)
    (hbetween : Run Turns m₁ between m₂) (hquiet : ∀ turn ∈ between, turn.isSubmission = false)
    (hdone : Turns m₂ (.update (.response .aiDone) effects) m₃) :
    (∃ id, m₁.input.history.activeCommandId = some id ∧ Concluded m₃ id) ↔ DoneFirst between := by
  have hs := turns_sound h₀ hbefore
  have hs₁ := hquery.sound hs
  have hs₂ : m₂.Sound := Run.invariant (fun hs hturn => hturn.sound hs) hs₁ hbetween
  have hsame := aiDone_records hs₂ hdone
  obtain ⟨id, -, -, hactive, herror, -, hids, -⟩ :=
    @History.addToHistory_new m.input.history m.input.lines hblank (bytes "ai")
  rw [← query_adds hs hquery] at hactive herror hids
  have hunderway : Underway m₁.input.history id false :=
    ⟨hactive, herror, hids ▸ List.mem_append_right _ (List.mem_singleton_self id)⟩
  have hfate := hunderway.run hs₁ hbetween hquiet
  rw [← hsame] at hfate
  rw [← fate_done_iff]
  constructor
  · rintro ⟨id', hactive', hconcluded⟩
    cases Option.some.inj (hactive.symm.trans hactive')
    split at hfate
    · cases hconcluded.idle.symm.trans hfate
    · rename_i status heq
      rw [heq, Option.some.inj (hfate.2.symm.trans hconcluded.done)]
  · intro hdoneFirst
    rw [hdoneFirst] at hfate
    exact ⟨id, hactive, concluded_of (hdone.sound hs₂) hfate.1 hfate.2⟩

end

section

attribute [local instance] asciiUcd

/-- A question while an evaluation is under way, whose Done closes the row of the question. -/
theorem query_concluded_iff_ahead : ∃ m m₁ m₂ m₃,
    Turns m (.update (.key .enter) [.submitAiQuery (bytes "h")]) m₁ ∧
    Run Turns m₁ [.update (.response .done) []] m₂ ∧
    Turns m₂ (.update (.response .aiDone) []) m₃ ∧
    ((∃ id, m₁.input.history.activeCommandId = some id ∧ Concluded m₃ id) ↔
      DoneFirst [.update (.response .done) []]) := by
  obtain ⟨m₀, m, m₁, m₂, m₃, h₀, hbefore, hblank, hquery, hbetween, hdone⟩ : ∃ m₀ m m₁ m₂ m₃,
      initialModel (History.init ⟨[], []⟩) 1 80 24 = .ok m₀ ∧
      Transition.exec nextTurn m₀ [.update (.key (.char (bytes "1"))) [],
        .update (.key .enter) [.submit (bytes "1")], .update (.key (.char (bytes ":"))) [],
        .update (.key (.char (bytes "h"))) []] = some m ∧
      isBlank m.input.lines = false ∧
      nextTurn m (.update (.key .enter) [.submitAiQuery (bytes "h")]) = some m₁ ∧
      Transition.exec nextTurn m₁ [.update (.response .done) []] = some m₂ ∧
      nextTurn m₂ (.update (.response .aiDone) []) = some m₃ :=
    ⟨_, _, _, _, _, rfl, rfl, rfl, rfl, rfl, rfl⟩
  have hbefore' := (Transition.run_of_exec hbefore).mono turns_of_next
  have hbetween' := (Transition.run_of_exec hbetween).mono turns_of_next
  have hquiet : ∀ turn ∈ [Turn.update (.response .done) []], turn.isSubmission = false := by
    intro turn hturn
    rw [List.mem_singleton.mp hturn]
    rfl
  exact ⟨m, m₁, m₂, m₃, turns_of_next hquery, hbetween', turns_of_next hdone,
    query_concluded_iff h₀ hbefore' (turns_of_next hquery) hblank hbetween' hquiet
      (turns_of_next hdone)⟩

/-- A question, its answer and what it leaves: the row is active, and the next submission makes it
an interrupted one. -/
theorem answered_query_interrupted : ∃ m₀ m m₁ m₂ m₃ m₄,
    initialModel (History.init ⟨[], []⟩) 1 80 24 = .ok m₀ ∧
    Run Turns m₀ [.update (.key (.char (bytes ":"))) [], .update (.key (.char (bytes "h"))) []] m ∧
    Turns m (.update (.key .enter) [.submitAiQuery (bytes "h")]) m₁ ∧
    Run Turns m₁ [.update (.response (.aiOutput (bytes "hi"))) []] m₂ ∧
    Turns m₂ (.update (.response .aiDone) []) m₃ ∧
    m₁.input.history.activeCommandId = some 1 ∧ m₃.input.history.activeCommandId = some 1 ∧
    m₃.input.history.db.status 1 = some .running ∧ ¬ Concluded m₃ 1 ∧
    Run Turns m₃ [.update (.key (.char (bytes "1"))) [],
      .update (.key .enter) [.submit (bytes "1")]] m₄ ∧
    m₄.input.history.db.status 1 = some .interrupted := by
  obtain ⟨m₀, m, m₁, m₂, m₃, m₄, h₀, hbefore, hquery, hbetween, hdone, hid, hactive, hrunning, hafter,
      hinterrupted⟩ : ∃ m₀ m m₁ m₂ m₃ m₄,
      initialModel (History.init ⟨[], []⟩) 1 80 24 = .ok m₀ ∧
      Transition.exec nextTurn m₀ [.update (.key (.char (bytes ":"))) [],
        .update (.key (.char (bytes "h"))) []] = some m ∧
      nextTurn m (.update (.key .enter) [.submitAiQuery (bytes "h")]) = some m₁ ∧
      Transition.exec nextTurn m₁ [.update (.response (.aiOutput (bytes "hi"))) []] = some m₂ ∧
      nextTurn m₂ (.update (.response .aiDone) []) = some m₃ ∧
      m₁.input.history.activeCommandId = some 1 ∧ m₃.input.history.activeCommandId = some 1 ∧
      m₃.input.history.db.status 1 = some .running ∧
      Transition.exec nextTurn m₃ [.update (.key (.char (bytes "1"))) [],
        .update (.key .enter) [.submit (bytes "1")]] = some m₄ ∧
      m₄.input.history.db.status 1 = some .interrupted :=
    ⟨_, _, _, _, _, _, rfl, rfl, rfl, rfl, rfl, rfl, rfl, rfl, rfl, rfl⟩
  refine ⟨m₀, m, m₁, m₂, m₃, m₄, h₀, (Transition.run_of_exec hbefore).mono turns_of_next,
    turns_of_next hquery, (Transition.run_of_exec hbetween).mono turns_of_next,
    turns_of_next hdone, hid, hactive, hrunning, fun hconcluded => ?_,
    (Transition.run_of_exec hafter).mono turns_of_next, hinterrupted⟩
  cases hconcluded.idle.symm.trans hactive

end

end Main
end Raoui
