import Raoui.Main.Console

/-!
# Raoui.Main.Hearing

What the loop hears of R, and what it does about it. A message of R at the console goes through the
ring, where it may be evicted, through the bridge, and through the loop, where it may be lost to
another fiber.

* `bridge_hears`: what a step of the bridge lets the loop hear.
* `turn_turned`: what one turn of the loop can do to the handshake.
* `Moves`: both together.
-/

namespace Raoui
namespace Console

open Ffi (ResponseChunk Message Coupled Change Current Round Awaited Consumer)
open Transition (Run Leads)
open Tty (Key)
open Raoui.Ring (Frame headerSize totalSize)

/-! ## The messages of the console in the queue -/

/-- Kind and payload. -/
abbrev Note := UInt8 × Bytes

def note? (m : Message) : Option Note :=
  if isConsole m.frame.kind then some (m.frame.kind, m.frame.payload) else none

def notes (q : List Message) : List Note := q.filterMap note?

def notesOf (s : Ffi.State) : List Note := notes (s.t.queued s.ring)

def Note.response (n : Note) : ResponseChunk := Ffi.mapKind n.1 n.2

def endNote : Note := (kindPassthroughEnd, [])

theorem sublist_of_eq {α : Type} {l l' : List α} (h : l = l') : l.Sublist l' := by rw [h]

theorem notes_append (q q' : List Message) : notes (q ++ q') = notes q ++ notes q' :=
  List.filterMap_append

theorem notes_cons_plain {m : Message} (h : isConsole m.frame.kind = false) (q : List Message) :
    notes (m :: q) = notes q := by
  refine List.filterMap_cons_none ?_
  rw [note?, h]
  rfl

theorem notes_cons_console {m : Message} (h : isConsole m.frame.kind = true) (q : List Message) :
    notes (m :: q) = (m.frame.kind, m.frame.payload) :: notes q := by
  refine List.filterMap_cons_some ?_
  rw [note?, h]
  rfl

theorem makeRoom_suffix (cap need : Nat) (q : List Message) : Ffi.makeRoom cap need q <:+ q := by
  induction q with
  | nil => exact List.suffix_rfl
  | cons m q ih =>
    rw [Ffi.makeRoom]
    split
    · exact List.suffix_rfl
    · exact ih.trans (List.suffix_cons m q)

/-- What a push adds. -/
def pushedNotes (cap : Nat) (frame : Frame) : List Note :=
  if isConsole frame.kind then [(frame.kind, storedPayload cap frame.payload)] else []

theorem notes_single (m : Message) :
    notes [m] = if isConsole m.frame.kind then [(m.frame.kind, m.frame.payload)] else [] := by
  unfold notes note?
  split
  · rename_i h
    exact List.filterMap_cons_some (by rw [if_pos h])
  · rename_i h
    exact List.filterMap_cons_none (by rw [if_neg h])

theorem notes_pushMessage (cap : Nat) (q : List Message) (m : Message) :
    (notes (Ffi.pushMessage cap q m)).Sublist (notes q ++ pushedNotes cap m.frame) := by
  unfold Ffi.pushMessage
  split
  · rename_i hfits
    have hnotes : pushedNotes cap m.frame = notes [m] := by
      rw [notes_single, pushedNotes, storedPayload, if_pos (show headerSize + _ ≤ cap from hfits)]
    rw [notes_append, hnotes]
    exact ((makeRoom_suffix cap m.frame.size q).sublist.filterMap _).append_right _
  · rename_i hlarge
    rw [notes_single, pushedNotes, storedPayload, if_neg (show ¬ headerSize + _ ≤ cap from hlarge)]
    exact List.sublist_append_right _ _

theorem notes_pushMessage_of_fits {cap : Nat} {q : List Message} {m : Message}
    (h : totalSize (q.map Message.frame) + m.frame.size ≤ cap) :
    notes (Ffi.pushMessage cap q m) = notes q ++ pushedNotes cap m.frame := by
  have hfits : headerSize + m.frame.payload.length ≤ cap := Nat.le_trans (Nat.le_add_left _ _) h
  rw [Ffi.pushMessage_of_fits h, notes_append, notes_single, pushedNotes, storedPayload,
    if_pos hfits]

/-! ## What a step of the bridge lets the loop hear -/

/-- The responses that are no messages of the console. -/
def isOutput : ResponseChunk → Bool
  | .readline _ | .passthrough | .passthroughEnd => false
  | _ => true

/-- Nothing is pushed that would evict. -/
def Fits (cap : Nat) (s : Ffi.State) (frame : Frame) : Prop :=
  totalSize (s.ring.map Message.frame) + frame.size ≤ cap

def KeepsQueue (cap : Nat) (s : Ffi.State) : Ffi.Action → Prop
  | .push frame => Fits cap s frame
  | .finish => Fits cap s Ffi.doneFrame
  | _ => True

inductive Hears (kept : Prop) (s s' : Ffi.State) : List ResponseChunk → Prop where
  | nothing (sub : (notesOf s').Sublist (notesOf s)) (same : kept → notesOf s' = notesOf s) :
      Hears kept s s' []
  | output {r : ResponseChunk} (same : notesOf s' = notesOf s) (output : isOutput r = true)
      (done : r = .done → ∀ e, s.worker ≠ .running e) : Hears kept s s' [r]
  | note {n : Note} (notes : notesOf s = n :: notesOf s') : Hears kept s s' [n.response]

theorem plain_of_done {m : Message} (h : m.isDone = true) : isConsole m.frame.kind = false := by
  rw [of_decide_eq_true h]
  rfl

theorem plain_of_chunk {m : Message} (h : m.isChunk = true) : isConsole m.frame.kind = false := by
  simp only [Message.isChunk, Bool.or_eq_true, decide_eq_true_eq] at h
  rcases h with h | h <;> rw [h] <;> rfl

theorem isConsole_eq_false {kind : UInt8} :
    isConsole kind = false ↔ kind ≠ 8 ∧ kind ≠ 9 ∧ kind ≠ 11 := by
  unfold isConsole
  rw [Bool.or_eq_false_iff, Bool.or_eq_false_iff, decide_eq_false_iff_not, decide_eq_false_iff_not,
    decide_eq_false_iff_not, and_assoc]
  rfl

theorem plain_of_suppressed {m : Message} (h : Ffi.passesSuppression m.frame.kind = false) :
    isConsole m.frame.kind = false := by
  simp only [Ffi.passesSuppression, Bool.or_eq_false_iff, decide_eq_false_iff_not] at h
  exact isConsole_eq_false.mpr ⟨h.1.1.1.1.2, h.1.1.1.2, h.1.2⟩

/-- The response to a message of another kind. -/
theorem isOutput_response {m : Message} (h : isConsole m.frame.kind = false) :
    isOutput m.response = true := by
  obtain ⟨h8, h9, h11⟩ := isConsole_eq_false.mp h
  unfold Message.response Ffi.mapKind
  split
  case h_7 => split <;> rfl
  case h_8 heq => exact absurd heq h8
  case h_9 heq => exact absurd heq h9
  case h_10 =>
    split
    · rfl
    · split <;> rfl
  case h_11 heq => exact absurd heq h11
  all_goals rfl

theorem notes_pop {t : Ffi.Backend} {ring ring' : List Message} {m : Message}
    (h : t.queued ring = m :: ring') (hm : isConsole m.frame.kind = false) :
    notes ring' = notes (t.queued ring) := by rw [h, notes_cons_plain hm]

theorem round_hears {t : Ffi.Backend} {ring : List Message} {c : Consumer} {aw : Awaited}
    (h : Round t ring c aw) (hd : ∀ {buf parts}, c = .draining buf parts → t.stashed = none)
    (unclosed : ∀ m, aw.popped = some m → m.isDone = false) :
    (notes (aw.t.queued aw.ring) = notes (t.queued ring) ∧ (aw.outcome.responses = [] ∨
        ∃ r, aw.outcome.responses = [r] ∧ isOutput r = true ∧ r ≠ .done)) ∨
      ∃ n : Note, notes (t.queued ring) = n :: notes (aw.t.queued aw.ring) ∧
        aw.outcome.responses = [n.response] := by
  cases h with
  | startup => exact .inl ⟨rfl, .inr ⟨_, rfl, rfl, ResponseChunk.noConfusion⟩⟩
  | empty _ _ queue =>
    refine .inl ⟨?_, .inl rfl⟩
    have hstash : t.stashed = none := by
      simp only [Ffi.Backend.queued, List.append_eq_nil_iff, Option.toList_eq_nil_iff] at queue
      exact queue.1
    rw [queue, Ffi.Backend.queued, hstash]
    rfl
  | suppressed _ _ queue _ kind => exact .inl ⟨notes_pop queue (plain_of_suppressed kind), .inl rfl⟩
  | chunk _ _ queue _ kind => exact .inl ⟨notes_pop queue (plain_of_chunk kind), .inl rfl⟩
  | @message c m ring' _ _ queue _ _ done =>
    cases hm : isConsole m.frame.kind with
    | false =>
      exact .inl ⟨notes_pop queue hm, .inr ⟨_, rfl, isOutput_response hm,
        Ffi.mapKind_ne_done (of_decide_eq_false done) _⟩⟩
    | true =>
      refine .inr ⟨(m.frame.kind, m.frame.payload), ?_, rfl⟩
      rw [queue, notes_cons_console hm]
      rfl
  | done _ _ queue kind =>
    rw [unclosed _ rfl] at kind
    cases kind
  | more queue kind =>
    refine .inl ⟨?_, .inl rfl⟩
    rw [queue, Ffi.Backend.queued, Ffi.Backend.queued, notes_append, notes_append,
      notes_cons_plain (plain_of_chunk kind)]
  | cut queue =>
    refine .inl ⟨?_, .inr ⟨_, rfl, rfl, ResponseChunk.noConfusion⟩⟩
    rw [queue, Ffi.Backend.queued, Ffi.Backend.queued, hd rfl]
    rfl
  | dry queue =>
    refine .inl ⟨?_, .inr ⟨_, rfl, rfl, ResponseChunk.noConfusion⟩⟩
    rw [queue, Ffi.Backend.queued, Ffi.Backend.queued, hd rfl]

/-! ## Steps of the bridge -/

variable {cap : Nat}

theorem returned_nil {s s' : Ffi.State} (h : Ffi.responses s'.log = Ffi.responses s.log) :
    Main.returned s.log s'.log = [] := by
  rw [Main.returned, h]
  exact List.drop_length

theorem returned_awaited (s : Ffi.State) (aw : Awaited) :
    Main.returned s.log (s.awaited aw).log = aw.outcome.responses := by
  rw [Main.returned, Ffi.responses_awaited]
  exact List.drop_left

/-- What is no message of the console can at most evict one. -/
theorem queue_pushes (s : Ffi.State) (m : Message) {worker : Ffi.Worker}
    (hm : isConsole m.frame.kind = false) : Hears (Fits cap s m.frame) s
      { s with worker := worker, ring := Ffi.pushMessage cap s.ring m } [] := by
  have hpushed : pushedNotes cap m.frame = [] := by
    rw [pushedNotes, hm]
    rfl
  refine .nothing ?_ fun hfits => ?_
  · have hsub := notes_pushMessage cap s.ring m
    rw [hpushed, List.append_nil] at hsub
    rw [notesOf, notesOf, Ffi.Backend.queued, Ffi.Backend.queued, notes_append, notes_append]
    exact hsub.append_left _
  · have hsame := notes_pushMessage_of_fits hfits
    rw [hpushed, List.append_nil] at hsame
    rw [notesOf, notesOf, Ffi.Backend.queued, Ffi.Backend.queued, notes_append, notes_append, hsame]

theorem bridge_hears {s s' : Ffi.State} {cur cur' : Current} {a : Ffi.Action}
    (hc : Coupled s cur) (h : Change cap s cur a s' cur')
    (hplain : ∀ frame, a = .push frame → isConsole frame.kind = false) :
    Hears (KeepsQueue cap s a) s s' (Main.returned s.log s'.log) := by
  have hsame {s' : Ffi.State} (hlog : s'.log = s.log) (hnotes : notesOf s' = notesOf s) :
      Hears (KeepsQueue cap s a) s s' (Main.returned s.log s'.log) := by
    rw [returned_nil (by rw [hlog])]
    exact .nothing (sublist_of_eq hnotes) fun _ => hnotes
  cases h with
  | queued => exact hsame rfl rfl
  | handed => exact hsame rfl rfl
  | opened _ _ _ flush =>
    refine hsame rfl ?_
    rw [notesOf, notesOf, Ffi.Backend.queued, Ffi.Backend.queued, flush.stashed.1]
  | called => exact hsame rfl rfl
  | @pumped cur a aw pumps round unclosed =>
    rw [returned_awaited]
    obtain ⟨hnotes, hnone | ⟨r, hr, hout, hdone⟩⟩ | ⟨n, hnotes, hn⟩ :=
      round_hears round hc.unstashed unclosed
    · rw [hnone]
      exact .nothing (sublist_of_eq hnotes) fun _ => hnotes
    · rw [hr]
      exact .output hnotes hout fun h => absurd h hdone
    · rw [hn]
      exact .note hnotes
  | @closed m r cur slot loops startup queue kind flush =>
    have hflight := hc.flight
    rw [queue] at hflight
    obtain ⟨-, -, hidle, -, -⟩ := hflight.pop_done kind
    have hnotes : notesOf (s.awaited ⟨r.1, [], r.2, some m,
        if r.1.busy || s.t.suppressing then .again else .returned .done [m]⟩) = notesOf s := by
      rw [notesOf, notesOf, queue, notes_cons_plain (plain_of_done kind)]
      show notes (r.1.queued []) = notes []
      rw [Ffi.Backend.queued, flush.stashed.1]
      rfl
    rw [returned_awaited]
    generalize hrest : (r.1.busy || s.t.suppressing) = rest at hnotes ⊢
    cases rest with
    | true => exact .nothing (sublist_of_eq hnotes) fun _ => hnotes
    | false => exact .output hnotes rfl fun _ e he => by rw [hidle] at he; cases he
  | took slot => exact hsame rfl rfl
  | @started job worker queue =>
    have hstash : s.t.stashed = none := by
      simp only [Ffi.Backend.queued, List.append_eq_nil_iff, Option.toList_eq_nil_iff] at queue
      exact queue.1
    have hnotes : notesOf { s with
        worker := .running ⟨s.evals, job⟩, ring := [], evals := s.evals + 1,
        log := s.log ++ [.started ⟨s.evals, job⟩] } = notesOf s := by
      rw [notesOf, notesOf, queue]
      show notes (s.t.queued []) = _
      rw [Ffi.Backend.queued, hstash]
      rfl
    rw [returned_nil (by simp [Ffi.responses])]
    exact .nothing (sublist_of_eq hnotes) fun _ => hnotes
  | @pushed e frame worker kind =>
    rw [returned_nil rfl]
    exact queue_pushes s ⟨frame, e⟩ (hplain frame rfl)
  | @finished e worker =>
    rw [returned_nil rfl]
    exact queue_pushes s ⟨Ffi.doneFrame, e⟩ rfl

/-! ## A turn of the loop -/

/-- What the effects hand to the backend. -/
def Submits (cap : Nat) (f f' : Ffi.State) : Prop :=
  Leads (Ffi.Steps cap) (fun a => a.job.isSome) f f'

theorem Submits.trans {f f' f'' : Ffi.State} (h : Submits cap f f') (h' : Submits cap f' f'') :
    Submits cap f f'' := Leads.trans h h'

theorem submits_one {f f' : Ffi.State} {a : Ffi.Action} (ha : a.job.isSome = true)
    (h : Ffi.Steps cap f a f') : Submits cap f f' := (Leads.refl ..).head ha h

/-- A submission touches neither the ring nor the worker. -/
theorem submit_same {f f' : Ffi.State} {a : Ffi.Action} (h : Ffi.Steps cap f a f')
    (ha : a.job.isSome = true) :
    notesOf f' = notesOf f ∧ f'.worker = f.worker ∧ f'.consumer = f.consumer := by
  cases a with
  | submit code =>
    simp only [Ffi.Steps, Ffi.step, Option.ite_none_right_eq_some, Option.some.injEq] at h
    obtain ⟨-, rfl⟩ := h
    refine ⟨?_, rfl, rfl⟩
    rw [Ffi.submit_eq_submitJob, notesOf, notesOf, Ffi.Backend.queued, Ffi.Backend.queued]
    show notes ((Ffi.submitJob f.t (.user code)).1.stashed.toList ++ f.ring) = _
    unfold Ffi.submitJob
    split <;> rfl
  | backgroundSubmit code =>
    simp only [Ffi.Steps, Ffi.step, Option.ite_none_right_eq_some, Option.some.injEq] at h
    obtain ⟨-, rfl⟩ := h
    refine ⟨?_, rfl, rfl⟩
    rw [Ffi.backgroundSubmit_eq_submitJob, notesOf, notesOf, Ffi.Backend.queued, Ffi.Backend.queued]
    show notes ((Ffi.submitJob f.t (.background code)).1.stashed.toList ++ f.ring) = _
    unfold Ffi.submitJob
    split <;> rfl
  | _ => cases ha

structure Untouched (f f' : Ffi.State) : Prop where
  notes : notesOf f' = notesOf f
  worker : f'.worker = f.worker
  coupled : (∃ cur, Coupled f cur) → ∃ cur, Coupled f' cur

theorem Submits.untouched {f f' : Ffi.State} (h : Submits cap f f') : Untouched f f' := by
  obtain ⟨as, hrun, hjobs⟩ := h
  refine Run.invariant_of (I := Untouched f) hjobs (fun {s a s'} hi hs ha => ?_)
    ⟨rfl, rfl, id⟩ hrun
  obtain ⟨hnotes, hworker, -⟩ := submit_same hs ha
  refine ⟨hnotes.trans hi.notes, hworker.trans hi.worker, fun hf => ?_⟩
  obtain ⟨cur, hc⟩ := hi.coupled hf
  obtain ⟨cur', hc', -⟩ := hc.step hs
  exact ⟨cur', hc'⟩

theorem execute_quiet (cap : Nat) {s : State} {e : Effect} (hy : s.ffi.consumer.yielded = true)
    (he : e.wakesR = false) (shown : Option Bytes) :
    ∃ ffi, s.execute shown e = { s with ffi } ∧ Submits cap s.ffi ffi ∧
      ffi.consumer.yielded = true := by
  have hsubmit {a : Ffi.Action} {r : Ffi.Backend × Option Ffi.Job} (ha : a.job.isSome = true)
      (hstep : Ffi.step cap s.ffi a = some (s.ffi.called r)) :
      ∃ ffi, { s with ffi := s.ffi.called r } = { s with ffi } ∧ Submits cap s.ffi ffi ∧
        ffi.consumer.yielded = true := ⟨_, rfl, submits_one ha hstep, hy⟩
  cases e with
  | submit text => exact hsubmit (a := .submit text) rfl (if_pos hy)
  | backgroundSubmit text => exact hsubmit (a := .backgroundSubmit text) rfl (if_pos hy)
  | submitReadlineInput text => cases he
  | enterPassthrough => cases he
  | _ => exact ⟨s.ffi, rfl, Leads.refl .., hy⟩

theorem executeAll_quiet (cap : Nat) {s : State} {effects : List Effect}
    (hy : s.ffi.consumer.yielded = true) (he : ∀ e ∈ effects, e.wakesR = false)
    (shown : Option Bytes) :
    ∃ ffi, s.executeAll shown effects = { s with ffi } ∧ Submits cap s.ffi ffi := by
  induction effects generalizing s with
  | nil => exact ⟨s.ffi, rfl, Leads.refl ..⟩
  | cons e effects ih =>
    obtain ⟨hhead, htail⟩ := List.forall_mem_cons.mp he
    obtain ⟨ffi, hexec, hsub, hy'⟩ := execute_quiet cap hy hhead shown
    obtain ⟨ffi', hall, hsub'⟩ := ih (s := { s with ffi }) hy' htail
    refine ⟨ffi', ?_, hsub.trans hsub'⟩
    rw [State.executeAll, List.foldl_cons, hexec]
    exact hall

inductive Turned (cap : Nat) (s : State) (msg : Msg) (m : Model) : State → Prop where
  | ends : Turned cap s msg m { s with ui := .ended }
  | goes {ffi : Ffi.State} {m' : Model} (plain : Update.isRequest msg = false)
      (submits : Submits cap s.ffi ffi) (sound : m'.Sound)
      (asks : m'.asks = m.asks ∨ msg = .response .done ∧ m'.asks = none) :
      Turned cap s msg m { s with ffi, ui := .prompting m' }
  | answers {key : Key} {m' : Model} {text : Bytes} (msg_eq : msg = .key key)
      (asked : m.asks.isSome) (sound : m'.Sound)
      (asks : m'.asks = none) :
      Turned cap s msg m { s with
        ui := .prompting m'
        readlineInputBuf := some (cString text)
        handing := true
        log := s.log ++ [.answered m.asks text] }
  | asked {prompt : Bytes} {m' : Model} (msg_eq : msg = .response (.readline prompt))
      (sound : m'.Sound) (asks : m'.asks = some (shownPrompt prompt)) :
      Turned cap s msg m { s with ui := .prompting m' }
  | suspends {m' : Model} (msg_eq : msg = .response .passthrough) (sound : m'.Sound)
      (asks : m'.asks = m.asks) :
      Turned cap s msg m { s with ui := .passthrough m', passthroughGate := true }

/-- Only the layout and the output differ. -/
theorem sound_of_input {m m' : Model} (h : m.Sound) (hinput : m'.input = m.input) : m'.Sound := by
  obtain ⟨⟨hwf, h0, hlt, hpos, hcached⟩, hkept, hmode⟩ := h
  rw [← hinput] at hwf h0 hlt hpos hcached hkept hmode
  exact ⟨⟨hwf, h0, hlt, hpos, hcached⟩, hkept, hmode⟩

theorem printed_sound {m : Model} (h : m.Sound) (cursor : Int × Int) :
    (OutputRenderer.printReplOutput cursor m).Sound :=
  sound_of_input h (OutputRenderer.printReplOutput_input cursor m)

theorem printed_asks (cursor : Int × Int) (m : Model) :
    (OutputRenderer.printReplOutput cursor m).asks = m.asks :=
  congrArg (fun input => input.mode.asks) (OutputRenderer.printReplOutput_input cursor m)

theorem resume_sound {m : Model} (h : m.Sound) (cursor : Int × Int) :
    (OutputRenderer.resume cursor m).Sound := sound_of_input h rfl

section
variable [Ucd] {s : State} {m : Model} {w : World} {msg : Msg}

/-- Ctrl-C starts the prompt anew. -/
theorem makeInit_turned {history : History} (hplain : Update.isRequest msg = false)
    (hkept : history.Kept) (hasks : m.asks = none) :
    Turned cap s msg m (s.makeInit w history) := by
  unfold State.makeInit
  split
  · rename_i m' hinit
    have hnone : m'.asks = none := by
      obtain ⟨cache, -, hinit⟩ := Outcome.bind_eq_ok.mp hinit
      cases hinit
      rfl
    exact .goes hplain (Leads.refl ..) (Update.initialModel_sound hkept hinit).1
      (.inl (hnone.trans hasks.symm))
  · exact .ends

theorem pick_turned {m' : Model} {cmd : BackslashEffect}
    (hplain : Update.isRequest msg = false) (hs : m'.Sound)
    (hy : s.ffi.consumer.yielded = true) (hasks : m'.asks = m.asks) :
    Turned cap s msg m (s.pick w cmd m') := by
  unfold State.pick
  split
  · rename_i m'' effects hupdate
    have hsound := (Update.update_sound hs hupdate).1
    have hsilent : m'.Silent (m'', effects) := by
      cases cmd <;> cases Update.update_turn hs hupdate <;> assumption
    obtain ⟨ffi, hall, hsub⟩ := executeAll_quiet cap hy hsilent.quiet m'.asks
    rw [hall]
    exact .goes hplain hsub (printed_sound hsound _)
      (.inl ((printed_asks _ _).trans (hsilent.asks.trans hasks)))
  · exact .ends

theorem turn_turned (hs : m.Sound) (hy : s.ffi.consumer.yielded = true) :
    Turned cap s msg m (s.turn w msg m) := by
  unfold State.turn
  split
  · exact .ends
  · rename_i m' effects hupdate
    have hsound := (Update.update_sound hs hupdate).1
    have hturn := Update.update_turn hs hupdate
    split
    · exact .ends
    · have hkept : m'.input.history.recordCancel.Kept := fun p hp =>
        hsound.kept p ((History.finishActive_savedPrompt _ _).symm.trans hp)
      cases hturn with
      | silent plain silent =>
        refine makeInit_turned plain hkept (Option.not_isSome_iff_eq_none.mp fun hsome => ?_)
        exact silent.kept hsome List.mem_cons_self
      | answered answers =>
        obtain ⟨-, -, text, heffects⟩ := answers
        cases heffects
    · cases hturn with
      | silent plain silent => exact pick_turned plain hsound hy silent.asks
      | answered answers =>
        obtain ⟨-, -, text, heffects⟩ := answers
        cases heffects
    · cases hturn with
      | silent _ silent => cases silent.quiet _ List.mem_cons_self
      | answered answers =>
        obtain ⟨-, -, text, heffects⟩ := answers
        cases heffects
      | suspended asks => exact .suspends rfl hsound asks
    · rename_i hpass
      cases hturn with
      | silent plain silent =>
        obtain ⟨ffi, hall, hsub⟩ := executeAll_quiet cap hy silent.quiet m.asks
        rw [hall]
        exact .goes plain hsub (printed_sound hsound _)
          (.inl ((printed_asks _ _).trans silent.asks))
      | answered answers =>
        obtain ⟨hasked, hasks, text, heffects⟩ := answers
        dsimp only at heffects
        subst heffects
        exact .answers rfl hasked (printed_sound hsound _) ((printed_asks _ _).trans hasks)
      | asked asks =>
        exact .asked rfl (printed_sound hsound _) ((printed_asks _ _).trans asks)
      | ended asks =>
        exact .goes rfl (Leads.refl ..) (printed_sound hsound _)
          (.inr ⟨rfl, (printed_asks _ _).trans asks⟩)
      | suspended => exact absurd rfl hpass

end

/-! ## What the loop and the bridge do to the handshake -/

/-- The messages of R that the loop acts upon. -/
def Place.minds : Place → ResponseChunk → Bool
  | .prompt, r => r ≠ .passthroughEnd
  | .suspended, r => r = .passthroughEnd
  | .nowhere, _ => false

/-- A step of the loop or of the bridge; `kept` when no message of R is lost. -/
inductive Moves (kept : Prop) (s : State) : State → Prop where
  | quiet {ffi : Ffi.State} {ui : Ui} (sub : (notesOf ffi).Sublist (notesOf s.ffi))
      (same : kept → notesOf ffi = notesOf s.ffi) (place : ui.place = s.ui.place)
      (asks : ui.asks = s.ui.asks) : Moves kept s { s with ffi, ui }
  | ends {ffi : Ffi.State} (sub : (notesOf ffi).Sublist (notesOf s.ffi)) :
      Moves kept s { s with ffi, ui := .ended }
  | ignores {ffi : Ffi.State} {n : Note} {ui : Ui} (notes : notesOf s.ffi = n :: notesOf ffi)
      (ignored : kept → s.ui.place.minds n.response = false) (place : ui.place = s.ui.place)
      (asks : ui.asks = s.ui.asks) : Moves kept s { s with ffi, ui }
  | answers {m' : Model} {text : Bytes} (asked : s.ui.asks.isSome) (asks : m'.asks = none) :
      Moves kept s { s with
        ui := .prompting m'
        readlineInputBuf := some (cString text)
        handing := true
        log := s.log ++ [.answered s.ui.asks text] }
  | shows {ffi : Ffi.State} {n : Note} {m' : Model} {prompt : Bytes}
      (notes : notesOf s.ffi = n :: notesOf ffi) (response : n.response = .readline prompt)
      (place : s.ui.place = .prompt) (asks : m'.asks = some (shownPrompt prompt)) :
      Moves kept s { s with ffi, ui := .prompting m' }
  | suspends {ffi : Ffi.State} {n : Note} {m' : Model}
      (notes : notesOf s.ffi = n :: notesOf ffi) (response : n.response = .passthrough)
      (place : s.ui.place = .prompt) (asks : m'.asks = s.ui.asks) :
      Moves kept s { s with ffi, ui := .passthrough m', passthroughGate := true }
  | resumes {ffi : Ffi.State} {n : Note} {m' : Model}
      (notes : notesOf s.ffi = n :: notesOf ffi) (response : n.response = .passthroughEnd)
      (place : s.ui.place = .suspended) (asks : m'.asks = s.ui.asks) :
      Moves kept s { s with ffi, ui := .prompting m' }

theorem Moves.still {kept : Prop} {s : State} {ffi : Ffi.State}
    (sub : (notesOf ffi).Sublist (notesOf s.ffi)) (same : kept → notesOf ffi = notesOf s.ffi) :
    Moves kept s { s with ffi } := .quiet sub same rfl rfl

variable {kept : Prop} {s s' : State} {m : Model}

theorem Submits.sub {f f' : Ffi.State} (h : Submits cap f f') :
    (notesOf f').Sublist (notesOf f) := sublist_of_eq h.untouched.notes

theorem asks_of_prompting (hui : s.ui = .prompting m) : s.ui.asks = m.asks := by rw [hui]; rfl

theorem place_of_prompting (hui : s.ui = .prompting m) : s.ui.place = .prompt := by rw [hui]; rfl

theorem not_request_of_outside {msg : Msg} (h : fromOutside msg = true) :
    Update.isRequest msg = false ∧ msg ≠ .response .done := by
  cases msg with
  | response r =>
    refine ⟨?_, fun hmsg => ?_⟩
    · cases r <;> first | rfl | cases h
    · rw [hmsg] at h
      cases h
  | backslashEffectResult tokenStart originalToken insertedText => cases h
  | _ => exact ⟨rfl, Msg.noConfusion⟩

/-- A key, a resize or the AI. -/
theorem outside_moves {msg : Msg} (hui : s.ui = .prompting m) (houtside : fromOutside msg = true)
    (h : Turned cap s msg m s') : Moves kept s s' := by
  obtain ⟨hplain, hdone⟩ := not_request_of_outside houtside
  have hasks := asks_of_prompting hui
  have hplace := place_of_prompting hui
  cases h with
  | ends => exact .ends (List.Sublist.refl _)
  | goes plain submits sound asks =>
    refine .quiet submits.sub (fun _ => submits.untouched.notes) hplace.symm ?_
    obtain hsame | ⟨hmsg, -⟩ := asks
    · exact hsame.trans hasks.symm
    · exact absurd hmsg hdone
  | answers msg_eq asked sound asks =>
    rw [← hasks] at asked ⊢
    exact .answers asked asks
  | asked msg_eq => rw [msg_eq] at hplain; cases hplain
  | suspends msg_eq => rw [msg_eq] at hplain; cases hplain

variable {ffi : Ffi.State}

/-- A response that is no message of the console. -/
theorem output_moves {r : ResponseChunk} (hui : s.ui = .prompting m)
    (hsame : notesOf ffi = notesOf s.ffi) (houtput : isOutput r = true)
    (hdone : r = .done → s.ui.asks = none) (h : Turned cap { s with ffi } (.response r) m s') :
    Moves kept s s' := by
  have hasks := asks_of_prompting hui
  have hrequest : Update.isRequest (.response r) = false := by
    cases r <;> first | rfl | cases houtput
  cases h with
  | ends => exact .ends (sublist_of_eq hsame)
  | goes plain submits sound asks =>
    refine .quiet (submits.sub.trans (sublist_of_eq hsame))
      (fun _ => submits.untouched.notes.trans hsame) (place_of_prompting hui).symm ?_
    obtain hkeeps | ⟨hmsg, hnone⟩ := asks
    · exact hkeeps.trans hasks.symm
    · exact hnone.trans (hdone (by cases hmsg; rfl)).symm
  | answers msg_eq => cases msg_eq
  | asked msg_eq => rw [msg_eq] at hrequest; cases hrequest
  | suspends msg_eq => rw [msg_eq] at hrequest; cases hrequest

theorem isOutput_note {n : Note} {q : List Message} (hn : n ∈ notes q) :
    isOutput n.response = false := by
  rw [notes, List.mem_filterMap] at hn
  obtain ⟨m, -, hm⟩ := hn
  unfold note? at hm
  split at hm
  · rename_i hconsole
    cases hm
    simp only [isConsole, Bool.or_eq_true, decide_eq_true_eq] at hconsole
    obtain (hk | hk) | hk := hconsole <;> rw [Note.response, hk] <;> rfl
  · cases hm

/-- A message of R at the console. -/
theorem note_moves {n : Note} {r : ResponseChunk} (hui : s.ui = .prompting m)
    (hnotes : notesOf s.ffi = n :: notesOf ffi) (hr : n.response = r) (hconsole : isOutput r = false)
    (h : Turned cap { s with ffi } (.response r) m s') : Moves kept s s' := by
  have hasks := asks_of_prompting hui
  have hplace := place_of_prompting hui
  cases h with
  | ends => exact .ends (hnotes ▸ List.sublist_cons_self ..)
  | @goes ffi' m' plain submits sound asks =>
    have hsame : notesOf s.ffi = n :: notesOf ffi' := by rw [hnotes, submits.untouched.notes]
    have hend : r = .passthroughEnd := by
      cases r <;> first | rfl | exact Bool.noConfusion hconsole | exact Bool.noConfusion plain
    refine .ignores hsame (fun _ => ?_) hplace.symm ?_
    · rw [hr, hend, hplace]
      rfl
    · obtain hkeeps | ⟨hmsg, -⟩ := asks
      · exact hkeeps.trans hasks.symm
      · rw [hend] at hmsg
        cases hmsg
  | answers msg_eq => cases msg_eq
  | asked msg_eq sound asks =>
    cases msg_eq
    exact .shows hnotes hr hplace asks
  | suspends msg_eq sound asks =>
    cases msg_eq
    exact .suspends hnotes hr hplace (asks.trans hasks.symm)

section
variable [Ucd] {w : World}

theorem heard_moves {a : Ffi.Action} {lost : Bool} {responses : List ResponseChunk}
    (hsound : ∀ m, s.ui = .prompting m → m.Sound)
    (hyielded : ∀ r ∈ responses, ffi.consumer.yielded = true)
    (hdone : s.ui.asks.isSome → ∃ e, s.ffi.worker = .running e)
    (h : Hears (KeepsQueue cap s.ffi a) s.ffi ffi responses) :
    Moves (lost = false ∧ KeepsQueue cap s.ffi a) s
      (responses.foldl (State.receive w lost) { s with ffi }) := by
  cases h with
  | nothing sub same => exact .still sub fun hkept => same hkept.2
  | @output r same output done =>
    have hstill : Moves (lost = false ∧ KeepsQueue cap s.ffi a) s { s with ffi } :=
      .still (sublist_of_eq same) fun _ => same
    rw [List.foldl_cons, List.foldl_nil, State.receive]
    split
    · exact hstill
    · dsimp only
      split
      · rename_i m hui
        have hturn : Turned cap { s with ffi } (.response r) m
            (State.turn { s with ffi } w (.response r) m) :=
          turn_turned (hsound m hui) (hyielded r List.mem_cons_self)
        refine output_moves hui same output (fun hr => ?_) hturn
        refine Option.not_isSome_iff_eq_none.mp fun hasks => ?_
        obtain ⟨e, he⟩ := hdone hasks
        exact done hr e he
      · split
        · cases output
        · exact hstill
      · exact hstill
  | @note n notes =>
    have hconsole : isOutput n.response = false :=
      isOutput_note (q := s.ffi.t.queued s.ffi.ring) (by rw [← notesOf, notes]; exact List.mem_cons_self)
    have hignores (hminds : s.ui.place.minds n.response = false) :
        Moves (lost = false ∧ KeepsQueue cap s.ffi a) s { s with ffi } :=
      .ignores notes (fun _ => hminds) rfl rfl
    rw [List.foldl_cons, List.foldl_nil, State.receive]
    split
    · rename_i hlost
      refine .ignores notes (fun hkept => ?_) rfl rfl
      rw [hkept.1] at hlost
      cases hlost
    · dsimp only
      split
      · rename_i m hui
        have hturn : Turned cap { s with ffi } (.response n.response) m
            (State.turn { s with ffi } w (.response n.response) m) :=
          turn_turned (hsound m hui) (hyielded _ List.mem_cons_self)
        exact note_moves hui notes rfl hconsole hturn
      · rename_i m hui
        split
        · rename_i hend
          exact .resumes notes hend (by rw [hui]; rfl) (by rw [hui]; rfl)
        · rename_i hend
          refine hignores ?_
          rw [hui]
          exact decide_eq_false hend
      · rename_i hui
        refine hignores ?_
        rw [hui]
        rfl

end

end Console
end Raoui
