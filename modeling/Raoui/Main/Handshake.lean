import Raoui.Lib.Rounds
import Raoui.Main.Hearing

/-!
# Raoui.Main.Handshake

R at the console and the loop agree on whose turn it is.

* `Stage`: where the two are, with the events of the read under way and the messages still owed.
* `Held.moves`, `Held.step`: every step leads from one stage to another.
* `console_reads_own`: each read of R gets the line that was typed at its own prompt.
* `terminal_exclusive`: while R is inside of a passthrough the loop is not at the prompt.
* `call_pending`, `nested_call_hangs`: a call of R waits for something that is on its way, unless it
  is made from the inside of a passthrough.
-/

namespace Raoui
namespace Console

open Ffi (ResponseChunk Coupled Change Current Awaited)
open Rounds (InRound Rounds)
open Transition (Run Restrict)
open Tty (Key)
open Raoui.Ring (Frame)

variable {cap : Nat} {kept : Prop} {s s' : State} {m : Model} {ffi : Ffi.State}

/-! ## Where the two are -/

/-- What a read leaves in the log. -/
inductive ReadRound (cap : Nat) : List Event → Prop where
  | read (prompt : Bytes) (len : Nat) (text : Bytes) :
      ReadRound cap [.asked prompt len,
        .answered (some (shownPrompt (storedPayload cap prompt))) text,
        .read (consoleLine (cString text) len)]

/-- R has not seen its gate open. -/
def RSide.polls : RSide → Bool
  | .running => true
  | .reading _ _ gate | .entering gate => gate = .polled

def RSide.part : RSide → List Event
  | .reading prompt len _ => [.asked prompt len]
  | .running | .entering _ => []

/-- The message of the call that R is in. -/
def RSide.owed (cap : Nat) : RSide → List Note
  | .reading prompt _ _ => [(kindReadline, storedPayload cap prompt)]
  | .entering _ => [(kindPassthrough, [])]
  | .running => []

/-- The end of a passthrough that the loop has not heard of. -/
def State.endOwed (s : State) : List Note :=
  if s.depth = 0 ∧ s.ui.place ≠ .prompt then [endNote] else []

/-- Every gate is shut and nothing is asked; a passthrough has suspended the prompt. -/
structure Calm (s : State) : Prop where
  gate : s.readlineGate = false
  handing : s.handing = false
  door : s.passthroughGate = false
  asks : s.ui.asks = none
  depth : s.depth = 0 ∨ s.depth = 1 ∧ s.ui.place ≠ .prompt

/-- How far the answer has come: stored, past the gate, and the gate shut behind it. -/
def Handed (s : State) (gate : Gate) : Prop :=
  s.handing = true ∧ s.readlineGate = false ∧ gate = .polled ∨
    s.handing = false ∧ s.readlineGate = true ∧ gate ≠ .closed ∨
    s.handing = false ∧ s.readlineGate = false ∧ gate = .closed

/-- Where the two are, with what the read under way has logged and the messages still to come. -/
inductive Stage (cap : Nat) (s : State) : List Event → List Note → Prop where
  | unheard (polls : s.r.polls = true) (calm : Calm s) :
      Stage cap s s.r.part (s.endOwed ++ s.r.owed cap)
  | shown {prompt : Bytes} {len : Nat} (r : s.r = .reading prompt len .polled)
      (depth : s.depth = 0) (place : s.ui.place = .prompt)
      (asks : s.ui.asks = some (shownPrompt (storedPayload cap prompt)))
      (gate : s.readlineGate = false) (handing : s.handing = false)
      (door : s.passthroughGate = false) : Stage cap s [.asked prompt len] []
  | answered {prompt text : Bytes} {len : Nat} {gate : Gate} (r : s.r = .reading prompt len gate)
      (depth : s.depth = 0) (place : s.ui.place ≠ .suspended) (asks : s.ui.asks = none)
      (buf : s.readlineInputBuf = some (cString text)) (handed : Handed s gate)
      (door : s.passthroughGate = false) :
      Stage cap s [.asked prompt len,
        .answered (some (shownPrompt (storedPayload cap prompt))) text] []
  | admitted {gate : Gate} (r : s.r = .entering gate) (open_ : gate ≠ .closed)
      (depth : s.depth = 0) (place : s.ui.place ≠ .prompt) (asks : s.ui.asks = none)
      (gate : s.readlineGate = false) (handing : s.handing = false)
      (door : s.passthroughGate = true) : Stage cap s [] []

/-- `intact` when nothing has been lost. -/
structure Held (cap : Nat) (intact : Prop) (s : State) (part : List Event) (owed : List Note) :
    Prop where
  stage : Stage cap s part owed
  log : InRound (ReadRound cap) s.log part
  sub : (notesOf s.ffi).Sublist owed
  same : intact → s.depth = 0 → s.ui.place ≠ .nowhere → notesOf s.ffi = owed

def Holds (cap : Nat) (intact : Prop) (s : State) : Prop :=
  ∃ part owed, Held cap intact s part owed

variable {intact : Prop} {part : List Event} {owed : List Note}

theorem endOwed_prompt (h : s.ui.place = .prompt) : s.endOwed = [] :=
  if_neg fun hand => hand.2 h

theorem endOwed_congr {t : State} (hdepth : t.depth = s.depth) (hplace : t.ui.place = s.ui.place) :
    t.endOwed = s.endOwed := by rw [State.endOwed, State.endOwed, hdepth, hplace]

theorem Calm.depth_prompt (h : Calm s) (hplace : s.ui.place = .prompt) : s.depth = 0 :=
  h.depth.elim id fun hand => absurd hplace hand.2

theorem Calm.set {ui : Ui} (h : Calm s) (hplace : ui.place = s.ui.place)
    (hasks : ui.asks = s.ui.asks) : Calm { s with ffi, ui } :=
  ⟨h.gate, h.handing, h.door, hasks.trans h.asks, hplace ▸ h.depth⟩

/-- Only what the loop hears of changes the stage. -/
theorem Stage.set {ui : Ui} (h : Stage cap s part owed) (hplace : ui.place = s.ui.place)
    (hasks : ui.asks = s.ui.asks) : Stage cap { s with ffi, ui } part owed := by
  cases h with
  | unheard polls calm =>
    have hend : ({ s with ffi, ui } : State).endOwed = s.endOwed := endOwed_congr rfl hplace
    rw [← hend]
    exact .unheard polls (calm.set hplace hasks)
  | shown r depth place asks gate handing door =>
    exact .shown r depth (hplace.trans place) (hasks.trans asks) gate handing door
  | answered r depth place asks buf handed door =>
    exact .answered r depth (hplace ▸ place) (hasks.trans asks) buf handed door
  | admitted r gate depth place asks rgate handing door =>
    exact .admitted r gate depth (hplace ▸ place) (hasks.trans asks) rgate handing door

theorem Stage.unheard_of_mem {n : Note} (h : Stage cap s part owed) (hn : n ∈ owed) :
    s.r.polls = true ∧ Calm s ∧ part = s.r.part ∧ owed = s.endOwed ++ s.r.owed cap := by
  cases h with
  | unheard polls calm => exact ⟨polls, calm, rfl, rfl⟩
  | _ => cases hn

/-- The message of the call that R is in is no end of a passthrough. -/
theorem RSide.owed_response {r : RSide} {n : Note} (h : n ∈ r.owed cap) :
    (∃ prompt len gate, r = .reading prompt len gate ∧
        n.response = .readline (storedPayload cap prompt)) ∨
      (∃ gate, r = .entering gate) ∧ n.response = .passthrough := by
  cases r with
  | running => cases h
  | reading prompt len gate =>
    rw [List.mem_singleton.mp h]
    exact .inl ⟨prompt, len, gate, rfl, rfl⟩
  | entering gate =>
    rw [List.mem_singleton.mp h]
    exact .inr ⟨⟨gate, rfl⟩, rfl⟩

theorem RSide.owed_ne_end {r : RSide} {n : Note} (h : n ∈ r.owed cap) :
    n.response ≠ .passthroughEnd := by
  obtain ⟨prompt, len, gate, -, hr⟩ | ⟨-, hr⟩ := owed_response h <;> rw [hr]
  · exact ResponseChunk.noConfusion
  · exact ResponseChunk.noConfusion

theorem RSide.owed_tail {r : RSide} {n : Note} {q : List Note}
    (h : (n :: q).Sublist (r.owed cap)) : q = [] := by
  have hlen := h.length_le
  cases r <;> simp only [RSide.owed, List.length_cons, List.length_nil] at hlen <;>
    exact List.eq_nil_of_length_eq_zero (by omega)

/-- What is due next is what the loop is waiting for. -/
theorem Stage.minds {n : Note} {q : List Note} (h : Stage cap s part (n :: q)) (hdepth : s.depth = 0)
    (hplace : s.ui.place ≠ .nowhere) : s.ui.place.minds n.response = true := by
  obtain ⟨-, -, -, howed⟩ := h.unheard_of_mem List.mem_cons_self
  cases hp : s.ui.place with
  | prompt =>
    rw [endOwed_prompt hp, List.nil_append] at howed
    exact decide_eq_true (RSide.owed_ne_end (howed ▸ List.mem_cons_self))
  | suspended =>
    rw [State.endOwed, if_pos ⟨hdepth, by rw [hp]; exact Place.noConfusion⟩] at howed
    cases howed
    rfl
  | nowhere => exact absurd hp hplace

theorem endOwed_over : (s.endOwed).Sublist ({ s with ffi, ui := .ended } : State).endOwed := by
  rw [State.endOwed, State.endOwed]
  split
  · rename_i h
    rw [if_pos ⟨h.1, Place.noConfusion⟩]
  · exact List.nil_sublist _

theorem Held.ends (h : Held cap intact s part owed) (hsub : (notesOf ffi).Sublist (notesOf s.ffi)) :
    Holds cap intact { s with ffi, ui := .ended } := by
  have hsub := hsub.trans h.sub
  have hsame {q : List Note} : intact → s.depth = 0 → Ui.ended.place ≠ .nowhere → notesOf ffi = q :=
    fun _ _ hplace => absurd rfl hplace
  obtain ⟨stage, log⟩ := h
  cases stage with
  | unheard polls calm =>
    exact ⟨_, _, .unheard polls ⟨calm.gate, calm.handing, calm.door, rfl,
      calm.depth.imp_right fun hand => ⟨hand.1, Place.noConfusion⟩⟩, log,
      hsub.trans (endOwed_over.append_right _), hsame⟩
  | @shown prompt len r depth place asks gate handing door =>
    have hpart : s.r.part = [.asked prompt len] := by rw [r]; rfl
    exact ⟨_, _, .unheard (by rw [r]; rfl) ⟨gate, handing, door, rfl, .inl depth⟩,
      hpart ▸ log, hsub.trans (List.nil_sublist _), hsame⟩
  | answered r depth place asks buf handed door =>
    exact ⟨_, _, .answered r depth Place.noConfusion rfl buf handed door, log, hsub, hsame⟩
  | admitted r gate depth place asks rgate handing door =>
    exact ⟨_, _, .admitted r gate depth Place.noConfusion rfl rgate handing door, log, hsub, hsame⟩

/-- Only the answer to a question that is shown is handed over. -/
theorem Held.answers {m' : Model} {text : Bytes} (h : Held cap intact s part owed)
    (hasked : s.ui.asks.isSome) (hasks : m'.asks = none) :
    Holds cap intact { s with
      ui := .prompting m'
      readlineInputBuf := some (cString text)
      handing := true
      log := s.log ++ [.answered s.ui.asks text] } := by
  obtain ⟨stage, log, sub, same⟩ := h
  have hnone (h : s.ui.asks = none) : False := by
    rw [h] at hasked
    cases hasked
  cases stage with
  | unheard polls calm => exact (hnone calm.asks).elim
  | shown r depth place asks gate handing door =>
    refine ⟨_, [], .answered r depth Place.noConfusion hasks rfl (.inl ⟨rfl, gate, rfl⟩) door, ?_,
      sub, fun _ _ _ => List.sublist_nil.mp sub⟩
    rw [asks]
    exact log.extend _
  | answered r depth place asks => exact (hnone asks).elim
  | admitted r gate depth place asks => exact (hnone asks).elim

theorem Held.shows {n : Note} {m' : Model} {prompt : Bytes} (h : Held cap intact s part owed)
    (hnotes : notesOf s.ffi = n :: notesOf ffi) (hr : n.response = .readline prompt)
    (hplace : s.ui.place = .prompt) (hasks : m'.asks = some (shownPrompt prompt)) :
    Holds cap intact { s with ffi, ui := .prompting m' } := by
  obtain ⟨stage, log, sub, -⟩ := h
  rw [hnotes] at sub
  have hn : n ∈ owed := sub.subset List.mem_cons_self
  obtain ⟨polls, calm, rfl, howed⟩ := stage.unheard_of_mem hn
  rw [howed, endOwed_prompt hplace, List.nil_append] at hn sub
  obtain ⟨prompt', len, gate, hread, hresponse⟩ | ⟨-, hresponse⟩ := RSide.owed_response hn
  · rw [hr] at hresponse
    cases hresponse
    rw [hread] at polls log
    cases of_decide_eq_true polls
    have hnil : notesOf ffi = [] := RSide.owed_tail sub
    exact ⟨_, [], .shown hread (calm.depth_prompt hplace) rfl hasks calm.gate calm.handing
      calm.door, log, sublist_of_eq hnil, fun _ _ _ => hnil⟩
  · rw [hr] at hresponse
    cases hresponse

theorem Held.suspends {n : Note} {m' : Model} (h : Held cap intact s part owed)
    (hnotes : notesOf s.ffi = n :: notesOf ffi) (hr : n.response = .passthrough)
    (hplace : s.ui.place = .prompt) (hasks : m'.asks = s.ui.asks) :
    Holds cap intact { s with ffi, ui := .passthrough m', passthroughGate := true } := by
  obtain ⟨stage, log, sub, -⟩ := h
  rw [hnotes] at sub
  have hn : n ∈ owed := sub.subset List.mem_cons_self
  obtain ⟨polls, calm, rfl, howed⟩ := stage.unheard_of_mem hn
  rw [howed, endOwed_prompt hplace, List.nil_append] at hn sub
  obtain ⟨prompt, len, gate, -, hresponse⟩ | ⟨⟨gate, henter⟩, -⟩ := RSide.owed_response hn
  · rw [hr] at hresponse
    cases hresponse
  · rw [henter] at polls log
    cases of_decide_eq_true polls
    have hnil : notesOf ffi = [] := RSide.owed_tail sub
    exact ⟨[], [], .admitted henter Gate.noConfusion (calm.depth_prompt hplace) Place.noConfusion
      (hasks.trans calm.asks) calm.gate calm.handing rfl, log, sublist_of_eq hnil,
      fun _ _ _ => hnil⟩

theorem Held.resumes {n : Note} {m' : Model} (h : Held cap intact s part owed)
    (hnotes : notesOf s.ffi = n :: notesOf ffi) (hr : n.response = .passthroughEnd)
    (hplace : s.ui.place = .suspended) (hasks : m'.asks = s.ui.asks) :
    Holds cap intact { s with ffi, ui := .prompting m' } := by
  obtain ⟨stage, log, sub, same⟩ := h
  rw [hnotes] at sub same
  have hn : n ∈ owed := sub.subset List.mem_cons_self
  obtain ⟨polls, calm, rfl, howed⟩ := stage.unheard_of_mem hn
  rw [howed] at hn sub same
  have hend : n ∈ s.endOwed :=
    (List.mem_append.mp hn).resolve_right fun hcall => RSide.owed_ne_end hcall hr
  by_cases hdepth : s.depth = 0
  · have howes : s.endOwed = [endNote] :=
      if_pos ⟨hdepth, by rw [hplace]; exact Place.noConfusion⟩
    rw [howes] at hend sub same
    cases List.mem_singleton.mp hend
    have hnone : ({ s with ffi, ui := .prompting m' } : State).endOwed = [] := endOwed_prompt rfl
    refine ⟨_, _, .unheard polls ⟨calm.gate, calm.handing, calm.door, hasks.trans calm.asks,
      .inl hdepth⟩, log, ?_, fun hintact _ _ => ?_⟩
    · rw [hnone]
      exact List.cons_sublist_cons.mp sub
    · rw [hnone]
      exact (List.cons.inj (same hintact hdepth (by rw [hplace]; exact Place.noConfusion))).2
  · rw [State.endOwed, if_neg fun hand => hdepth hand.1] at hend
    cases hend

theorem Held.moves (h : Held cap intact s part owed) (hkept : intact → kept) (hs : Moves kept s s') :
    Holds cap intact s' := by
  cases hs with
  | quiet sub same place asks =>
    refine ⟨part, owed, h.stage.set place asks, h.log, sub.trans h.sub, fun hintact hdepth hsome => ?_⟩
    exact (same (hkept hintact)).trans (h.same hintact hdepth (place ▸ hsome))
  | ends sub => exact h.ends sub
  | ignores notes ignored place asks =>
    have hsub := h.sub
    have hsame := h.same
    rw [notes] at hsub hsame
    refine ⟨part, owed, h.stage.set place asks, h.log, (List.sublist_cons_self ..).trans hsub,
      fun hintact hdepth hsome => ?_⟩
    have hplace : s.ui.place ≠ .nowhere := fun hend => hsome (place.trans hend)
    have howed := hsame hintact hdepth hplace
    have hminds := (howed ▸ h.stage).minds hdepth hplace
    rw [ignored (hkept hintact)] at hminds
    cases hminds
  | answers asked asks => exact h.answers asked asks
  | shows notes response place asks => exact h.shows notes response place asks
  | suspends notes response place asks => exact h.suspends notes response place asks
  | resumes notes response place asks => exact h.resumes notes response place asks

/-! ## R's own steps -/

theorem storedPayload_nil : storedPayload cap [] = [] := by
  unfold storedPayload
  split
  · rfl
  · exact List.take_nil

theorem pushes_spec {kind : UInt8} {payload : Bytes} (hconsole : isConsole kind = true)
    (h : s.pushes cap kind payload = some ffi) :
    s.r = .running ∧ (∃ e, s.ffi.worker = .running e) ∧
      (notesOf ffi).Sublist (notesOf s.ffi ++ [(kind, storedPayload cap payload)]) ∧
      (Fits cap s.ffi ⟨kind, 0, payload⟩ →
        notesOf ffi = notesOf s.ffi ++ [(kind, storedPayload cap payload)]) := by
  rw [State.pushes, Option.ite_none_right_eq_some] at h
  obtain ⟨hr, h⟩ := h
  unfold Ffi.step at h
  dsimp only at h
  split at h
  · rename_i e hworker
    rw [Option.ite_none_left_eq_some] at h
    obtain ⟨-, hf⟩ := h
    cases hf
    have hpushed : pushedNotes cap ⟨kind, 0, payload⟩ = [(kind, storedPayload cap payload)] :=
      if_pos hconsole
    refine ⟨hr, ⟨e, hworker⟩, ?_, fun hfits => ?_⟩
    · have hsub := notes_pushMessage cap s.ffi.ring ⟨⟨kind, 0, payload⟩, e⟩
      rw [hpushed] at hsub
      rw [notesOf, notesOf, Ffi.Backend.queued, Ffi.Backend.queued, notes_append, notes_append,
        List.append_assoc]
      exact hsub.append_left _
    · have hsame := notes_pushMessage_of_fits (m := ⟨⟨kind, 0, payload⟩, e⟩) hfits
      rw [hpushed] at hsame
      rw [notesOf, notesOf, Ffi.Backend.queued, Ffi.Backend.queued, notes_append, notes_append,
        List.append_assoc, hsame]
  · cases h

/-- R runs only between the calls. -/
theorem Stage.running (h : Stage cap s part owed) (hr : s.r = .running) :
    Calm s ∧ part = [] ∧ owed = s.endOwed := by
  cases h with
  | unheard polls calm =>
    rw [hr]
    exact ⟨calm, rfl, List.append_nil _⟩
  | shown r => rw [hr] at r; cases r
  | answered r => rw [hr] at r; cases r
  | admitted r => rw [hr] at r; cases r

theorem Held.calls {r : RSide} {log : List Event} (h : Held cap intact s part owed)
    (hr : s.r = .running) (hpolls : r.polls = true)
    (hlog : InRound (ReadRound cap) s.log [] → InRound (ReadRound cap) log r.part)
    (hsub : (notesOf ffi).Sublist (notesOf s.ffi ++ r.owed cap))
    (hsame : intact → notesOf ffi = notesOf s.ffi ++ r.owed cap) :
    Holds cap intact { s with ffi, r, log } := by
  obtain ⟨stage, inround, sub, same⟩ := h
  obtain ⟨calm, rfl, rfl⟩ := stage.running hr
  refine ⟨_, _, .unheard hpolls ⟨calm.gate, calm.handing, calm.door, calm.asks, calm.depth⟩,
    hlog inround, hsub.trans (sub.append_right _), fun hintact hdepth hplace => ?_⟩
  rw [hsame hintact, same hintact hdepth hplace]
  rfl

theorem Held.exits (h : Held cap intact s part owed) (hr : s.r = .running) (hdepth : 0 < s.depth)
    (hsub : (notesOf ffi).Sublist (notesOf s.ffi ++ [endNote]))
    (hsame : intact → notesOf ffi = notesOf s.ffi ++ [endNote]) :
    Holds cap intact { s with ffi, depth := s.depth - 1 } := by
  obtain ⟨stage, log, sub, -⟩ := h
  obtain ⟨calm, rfl, rfl⟩ := stage.running hr
  obtain hzero | ⟨hone, hplace⟩ := calm.depth
  · omega
  have hzero : s.depth - 1 = 0 := by omega
  have hnone : s.endOwed = [] := if_neg fun hand => by omega
  rw [hnone] at sub
  rw [List.sublist_nil.mp sub, List.nil_append] at hsub hsame
  have howes : ({ s with ffi, depth := s.depth - 1 } : State).endOwed = [endNote] :=
    if_pos ⟨hzero, hplace⟩
  have howed : ({ s with ffi, depth := s.depth - 1 } : State).endOwed ++ s.r.owed cap = [endNote] := by
    rw [howes, hr]
    rfl
  exact ⟨_, _, .unheard (by rw [hr]; rfl) ⟨calm.gate, calm.handing, calm.door, calm.asks,
    .inl hzero⟩, by rw [hr]; exact log, howed ▸ hsub, fun hintact _ _ => howed ▸ hsame hintact⟩

theorem Held.opens (h : Held cap intact s part owed) (hhanding : s.handing = true) :
    Holds cap intact { s with handing := false, readlineGate := true } := by
  obtain ⟨stage, log, sub, same⟩ := h
  have hfalse (h : s.handing = false) : False := by
    rw [hhanding] at h
    cases h
  cases stage with
  | unheard polls calm => exact (hfalse calm.handing).elim
  | shown r depth place asks gate handing => exact (hfalse handing).elim
  | answered r depth place asks buf handed door =>
    obtain ⟨-, -, rfl⟩ | ⟨h, -⟩ | ⟨h, -⟩ := handed
    · exact ⟨_, _, .answered r depth place asks buf (.inr (.inl ⟨rfl, rfl, Gate.noConfusion⟩)) door,
        log, sub, same⟩
    · exact (hfalse h).elim
    · exact (hfalse h).elim
  | admitted r gate depth place asks rgate handing => exact (hfalse handing).elim

/-- The read is over. -/
theorem Held.copies {prompt : Bytes} {len : Nat} (h : Held cap intact s part owed)
    (hr : s.r = .reading prompt len .closed) :
    Holds cap intact { s with
      r := .running
      readlineInputBuf := none
      log := s.log ++ [.read (consoleLine (s.readlineInputBuf.getD []) len)] } := by
  obtain ⟨stage, log, sub, same⟩ := h
  cases stage with
  | unheard polls calm => rw [hr] at polls; cases polls
  | shown r => rw [hr] at r; cases r
  | @answered prompt' text _ _ r depth place asks buf handed door =>
    rw [hr] at r
    cases r
    obtain ⟨-, -, h⟩ | ⟨-, -, h⟩ | ⟨hhanding, hgate, -⟩ := handed
    · cases h
    · exact absurd rfl h
    have hnil := List.sublist_nil.mp sub
    refine ⟨[], _, .unheard rfl ⟨hgate, hhanding, door, asks, .inl depth⟩, ?_, ?_, ?_⟩
    · rw [buf]
      exact (log.extend _).close (.read prompt len text)
    · show (notesOf s.ffi).Sublist _
      rw [hnil]
      exact List.nil_sublist _
    · intro hintact hdepth hsome
      have hprompt : s.ui.place = .prompt := by
        cases hp : s.ui.place with
        | prompt => rfl
        | suspended => exact absurd hp place
        | nowhere => exact absurd hp hsome
      have hnone : ({ s with
          r := .running
          readlineInputBuf := none
          log := s.log ++ [.read (consoleLine (s.readlineInputBuf.getD []) len)] } : State).endOwed =
          [] := endOwed_prompt hprompt
      rw [hnone]
      exact hnil
  | admitted r => rw [hr] at r; cases r

theorem Held.sees_answer {prompt : Bytes} {len : Nat} (h : Held cap intact s part owed)
    (hr : s.r = .reading prompt len .polled) (hgate : s.readlineGate = true) :
    Holds cap intact { s with r := .reading prompt len .seen } := by
  obtain ⟨stage, log, sub, same⟩ := h
  have hshut (h : s.readlineGate = false) : False := by
    rw [hgate] at h
    cases h
  cases stage with
  | unheard polls calm => exact (hshut calm.gate).elim
  | shown r depth place asks gate => exact (hshut gate).elim
  | answered r depth place asks buf handed door =>
    rw [hr] at r
    cases r
    obtain ⟨-, h, -⟩ | ⟨hhanding, -⟩ | ⟨-, h, -⟩ := handed
    · exact (hshut h).elim
    · exact ⟨_, _, .answered rfl depth place asks buf
        (.inr (.inl ⟨hhanding, hgate, Gate.noConfusion⟩)) door, log, sub, same⟩
    · exact (hshut h).elim
  | admitted r => rw [hr] at r; cases r

theorem Held.sees_door (h : Held cap intact s part owed) (hr : s.r = .entering .polled)
    (hdoor : s.passthroughGate = true) : Holds cap intact { s with r := .entering .seen } := by
  obtain ⟨stage, log, sub, same⟩ := h
  cases stage with
  | unheard polls calm =>
    have hshut := calm.door
    rw [hdoor] at hshut
    cases hshut
  | shown r => rw [hr] at r; cases r
  | answered r => rw [hr] at r; cases r
  | admitted r gate depth place asks rgate handing door =>
    exact ⟨_, _, .admitted rfl Gate.noConfusion depth place asks rgate handing door, log, sub, same⟩

theorem Held.shuts_gate {prompt : Bytes} {len : Nat} (h : Held cap intact s part owed)
    (hr : s.r = .reading prompt len .seen) :
    Holds cap intact { s with r := .reading prompt len .closed, readlineGate := false } := by
  obtain ⟨stage, log, sub, same⟩ := h
  cases stage with
  | unheard polls calm => rw [hr] at polls; cases polls
  | shown r => rw [hr] at r; cases r
  | answered r depth place asks buf handed door =>
    rw [hr] at r
    cases r
    obtain ⟨-, -, h⟩ | ⟨hhanding, -⟩ | ⟨-, -, h⟩ := handed
    · cases h
    · exact ⟨_, _, .answered rfl depth place asks buf (.inr (.inr ⟨hhanding, rfl, rfl⟩)) door, log,
        sub, same⟩
    · cases h
  | admitted r => rw [hr] at r; cases r

/-- R is inside. -/
theorem Held.shuts_door (h : Held cap intact s part owed) (hr : s.r = .entering .seen) :
    Holds cap intact { s with r := .running, passthroughGate := false, depth := s.depth + 1 } := by
  obtain ⟨stage, log, sub, same⟩ := h
  cases stage with
  | unheard polls calm => rw [hr] at polls; cases polls
  | shown r => rw [hr] at r; cases r
  | answered r => rw [hr] at r; cases r
  | admitted r gate depth place asks rgate handing door =>
    refine ⟨[], _, .unheard rfl ⟨rgate, handing, rfl, asks, .inr ⟨?_, place⟩⟩, log, ?_, ?_⟩
    · rw [depth]
    · show (notesOf s.ffi).Sublist _
      rw [List.sublist_nil.mp sub]
      exact List.nil_sublist _
    · exact fun _ hzero => absurd hzero (Nat.succ_ne_zero _)

/-! ## Every step -/

def Ui.Sound : Ui → Prop
  | .prompting m | .passthrough m => m.Sound
  | .ended => True

/-- The bridge under the handshake. -/
structure Wired (s : State) : Prop where
  coupled : ∃ cur, Coupled s.ffi cur
  busy : s.r ≠ .running ∨ 0 < s.depth → ∃ e, s.ffi.worker = .running e
  sound : s.ui.Sound

theorem Wired.turned {msg : Msg} (h : Wired s) (ht : Turned cap s msg m s') : Wired s' := by
  cases ht with
  | ends => exact ⟨h.coupled, h.busy, trivial⟩
  | goes plain submits sound =>
    have hf := submits.untouched
    exact ⟨hf.coupled h.coupled, fun hr => hf.worker ▸ h.busy hr, sound⟩
  | answers msg_eq asked sound => exact ⟨h.coupled, h.busy, sound⟩
  | asked msg_eq sound => exact ⟨h.coupled, h.busy, sound⟩
  | suspends msg_eq sound => exact ⟨h.coupled, h.busy, sound⟩

/-- While R waits or is inside of a passthrough, its evaluation goes on. -/
theorem worker_kept {f f' : Ffi.State} {a : Ffi.Action} {e : Ffi.Eval} (h : Ffi.Steps cap f a f')
    (hworker : f.worker = .running e) (hfinish : a ≠ .finish) : f'.worker = .running e := by
  cases a with
  | finish => exact absurd rfl hfinish
  | take | reset | drain | push =>
    simp only [Ffi.Steps, Ffi.step, hworker] at h
    grind [Ffi.State.awaited]
  | submit | backgroundSubmit | initialised | await | cancel | loop =>
    simp only [Ffi.Steps, Ffi.step] at h
    grind [Ffi.State.awaited, Ffi.State.called]

theorem Wired.sound_of_prompting (h : Wired s) (hui : s.ui = .prompting m) : m.Sound := by
  have hsound := h.sound
  rw [hui] at hsound
  exact hsound

theorem Wired.stays {t : State} (h : Wired s) (hr : s.r ≠ .running) (hffi : t.ffi = s.ffi)
    (hui : t.ui = s.ui) : Wired t :=
  ⟨hffi ▸ h.coupled, fun _ => hffi ▸ h.busy (.inl hr), hui ▸ h.sound⟩

/-- The loop is free when it is handed a response. -/
theorem yielded_of_returned {f f' : Ffi.State} {a : Ffi.Action} {r : ResponseChunk}
    {cur cur' : Current} (h : Change cap f cur a f' cur') (hr : r ∈ Main.returned f.log f'.log) :
    f'.consumer.yielded = true := by
  have hnone (hlog : Ffi.responses f'.log = Ffi.responses f.log) : f'.consumer.yielded = true := by
    rw [returned_nil hlog] at hr
    cases hr
  have hawaited (aw : Awaited) (hf : f' = f.awaited aw) : f'.consumer.yielded = true := by
    subst hf
    rw [returned_awaited] at hr
    cases ho : aw.outcome with
    | returned r' parts =>
      show aw.outcome.consumer.yielded = true
      rw [ho]
      rfl
    | _ =>
      rw [ho] at hr
      cases hr
  cases h with
  | pumped => exact hawaited _ rfl
  | closed => exact hawaited _ rfl
  | started => exact hnone (by simp [Ffi.responses])
  | _ => exact hnone rfl

theorem Hears.le_one {f f' : Ffi.State} {responses : List ResponseChunk}
    (h : Hears kept f f' responses) : responses = [] ∨ ∃ r, responses = [r] := by
  cases h with
  | nothing => exact .inl rfl
  | output => exact .inr ⟨_, rfl⟩
  | note => exact .inr ⟨_, rfl⟩

/-- A question is shown only while R reads. -/
theorem Held.reads_of_asks (h : Held cap intact s part owed) (hasks : s.ui.asks.isSome) :
    s.r ≠ .running := by
  have hnone (h : s.ui.asks = none) : False := by
    rw [h] at hasks
    cases hasks
  cases h.stage with
  | unheard polls calm => exact (hnone calm.asks).elim
  | shown r => rw [r]; exact RSide.noConfusion
  | answered r depth place asks => exact (hnone asks).elim
  | admitted r gate depth place asks => exact (hnone asks).elim

section
variable [Ucd] {w : World}

theorem Wired.receive {lost : Bool} {r : ResponseChunk} (h : Wired s)
    (hy : s.ffi.consumer.yielded = true) : Wired (s.receive w lost r) := by
  unfold State.receive
  split
  · exact h
  · split
    · rename_i m hui
      have hturn : Turned 0 s (.response r) m (s.turn w (.response r) m) :=
        turn_turned (h.sound_of_prompting hui) hy
      exact h.turned hturn
    · rename_i m hui
      have hsound := h.sound
      rw [hui] at hsound
      split
      · exact ⟨h.coupled, h.busy, resume_sound hsound _⟩
      · exact h
    · exact h

theorem bridge_step {a : Ffi.Action} {lost : Bool} (h : Wired s) (hheld : Held cap intact s part owed)
    (hallows : s.allows a = true) (hs : Ffi.Steps cap s.ffi a ffi)
    (hs' : (Main.returned s.ffi.log ffi.log).foldl (State.receive w lost) { s with ffi } = s') :
    Wired s' ∧ Moves (lost = false ∧ KeepsQueue cap s.ffi a) s s' := by
  obtain ⟨cur, hc⟩ := h.coupled
  obtain ⟨cur', hc', hchange⟩ := hc.step hs
  have hplain (frame : Frame) (ha : a = .push frame) : isConsole frame.kind = false := by
    rw [ha, State.allows, Bool.and_eq_true, Bool.not_eq_true'] at hallows
    exact hallows.2
  have hheard := bridge_hears hc hchange hplain
  have hyielded := fun r (hr : r ∈ Main.returned s.ffi.log ffi.log) => yielded_of_returned hchange hr
  have hwired : Wired { s with ffi } := by
    refine ⟨⟨cur', hc'⟩, fun hr => ?_, h.sound⟩
    obtain ⟨e, he⟩ := h.busy hr
    refine ⟨e, worker_kept hs he fun hfinish => ?_⟩
    rw [hfinish, State.allows, Bool.and_eq_true, decide_eq_true_eq, decide_eq_true_eq] at hallows
    obtain hwaits | hinside := hr
    · exact hwaits hallows.1
    · exact absurd hallows.2 (Nat.ne_of_gt hinside)
  refine ⟨?_, hs' ▸ heard_moves (fun m hui => h.sound_of_prompting hui) hyielded
    (fun hasks => h.busy (.inl (hheld.reads_of_asks hasks))) hheard⟩
  obtain hnone | ⟨r, hone⟩ := hheard.le_one
  · rw [hnone] at hs'
    exact hs' ▸ hwired
  · rw [hone] at hs'
    exact hs' ▸ hwired.receive (hyielded r (hone ▸ List.mem_cons_self))

end

/-- No message of R is evicted or lost to another fiber. -/
def Spared (cap : Nat) (s : State) : Action → Prop
  | .ffi a _ lost => lost = false ∧ KeepsQueue cap s.ffi a
  | .asks prompt _ => Fits cap s.ffi ⟨kindReadline, 0, prompt⟩
  | .enters => Fits cap s.ffi ⟨kindPassthrough, 0, []⟩
  | .exits => Fits cap s.ffi ⟨kindPassthroughEnd, 0, []⟩
  | .message _ _ | .openGate | .ends | .seesGate | .closesGate | .copies => True

theorem pushes_wired {kind : UInt8} {payload : Bytes} {r : RSide} {depth : Nat} {log : List Event}
    (h : Wired s) (hpush : s.pushes cap kind payload = some ffi) :
    Wired { s with ffi, r, depth, log } := by
  rw [State.pushes, Option.ite_none_right_eq_some] at hpush
  obtain ⟨cur, hc⟩ := h.coupled
  obtain ⟨cur', hc', hchange⟩ := hc.step hpush.2
  refine ⟨⟨cur', hc'⟩, fun _ => ?_, h.sound⟩
  cases hchange with
  | queued yielded submits => cases submits
  | handed yielded submits => cases submits
  | called calls => cases calls with | _ h => cases h
  | pumped pumps => cases pumps with | _ h => cases h
  | pushed worker => exact ⟨_, worker⟩

/-- Where the prompt comes up, without a question. -/
theorem held_start {m : Model} (hasks : m.asks = none) : Held cap intact (start m) [] [] :=
  ⟨.unheard (s := start m) rfl ⟨rfl, rfl, rfl, hasks, .inl rfl⟩, .nil, List.nil_sublist _,
    fun _ _ _ => rfl⟩

theorem wired_start {m : Model} (hsound : m.Sound) : Wired (start m) := by
  refine ⟨⟨.resting, Ffi.coupled_start⟩, fun h => ?_, hsound⟩
  obtain h | h := h
  · exact absurd rfl h
  · cases h

section
variable [Ucd] {a : Action}

theorem Held.step (h : Held cap intact s part owed) (hw : Wired s) (hintact : intact → Spared cap s a)
    (hs : Steps cap s a s') : Holds cap intact s' := by
  cases a <;> simp only [Steps, Console.step, Option.ite_none_right_eq_some,
    Option.map_eq_some_iff] at hs
  case ffi a w lost =>
    obtain ⟨hallows, ffi, hffi, hs'⟩ := hs
    exact h.moves hintact (bridge_step hw h hallows hffi hs').2
  case message msg w =>
    split at hs
    · rename_i m hui
      simp only [Option.ite_none_right_eq_some, Bool.and_eq_true, Option.some.injEq] at hs
      obtain ⟨⟨⟨houtside, hyielded⟩, -⟩, rfl⟩ := hs
      have hturn : Turned cap s msg m (s.turn w msg m) :=
        turn_turned (hw.sound_of_prompting hui) hyielded
      exact h.moves hintact (outside_moves hui houtside hturn)
    all_goals cases hs
  case openGate =>
    obtain ⟨hhanding, hs⟩ := hs
    cases hs
    exact h.opens hhanding
  case ends =>
    split at hs
    · cases hs
    · cases hs
      exact h.ends (List.Sublist.refl _)
  case asks prompt len =>
    obtain ⟨-, ffi, hpush, rfl⟩ := hs
    obtain ⟨hr, -, hsub, hsame⟩ := pushes_spec rfl hpush
    exact h.calls hr rfl (fun hlog => hlog.extend _) hsub fun he => hsame (hintact he)
  case enters =>
    obtain ⟨ffi, hpush, rfl⟩ := hs
    obtain ⟨hr, -, hsub, hsame⟩ := pushes_spec rfl hpush
    rw [storedPayload_nil] at hsub hsame
    exact h.calls hr rfl id hsub fun he => hsame (hintact he)
  case exits =>
    obtain ⟨hdepth, ffi, hpush, rfl⟩ := hs
    obtain ⟨hr, -, hsub, hsame⟩ := pushes_spec rfl hpush
    rw [storedPayload_nil] at hsub hsame
    exact h.exits hr hdepth hsub fun he => hsame (hintact he)
  case seesGate =>
    split at hs
    · rename_i hr
      obtain ⟨hgate, hs⟩ := Option.ite_none_right_eq_some.mp hs
      cases hs
      exact h.sees_answer hr hgate
    · rename_i hr
      obtain ⟨hdoor, hs⟩ := Option.ite_none_right_eq_some.mp hs
      cases hs
      exact h.sees_door hr hdoor
    · cases hs
  case closesGate =>
    split at hs
    · rename_i hr
      cases hs
      exact h.shuts_gate hr
    · rename_i hr
      cases hs
      exact h.shuts_door hr
    · cases hs
  case copies =>
    split at hs
    · rename_i hr
      cases hs
      exact h.copies hr
    · cases hs

theorem Wired.step (h : Wired s) (hheld : Held cap intact s part owed) (hs : Steps cap s a s') :
    Wired s' := by
  cases a <;> simp only [Steps, Console.step, Option.ite_none_right_eq_some,
    Option.map_eq_some_iff] at hs
  case ffi a w lost =>
    obtain ⟨hallows, ffi, hffi, hs'⟩ := hs
    exact (bridge_step h hheld hallows hffi hs').1
  case message msg w =>
    split at hs
    · rename_i m hui
      simp only [Option.ite_none_right_eq_some, Bool.and_eq_true, Option.some.injEq] at hs
      obtain ⟨⟨⟨-, hyielded⟩, -⟩, rfl⟩ := hs
      have hturn : Turned 0 s msg m (s.turn w msg m) :=
        turn_turned (h.sound_of_prompting hui) hyielded
      exact h.turned hturn
    all_goals cases hs
  case openGate =>
    obtain ⟨-, hs⟩ := hs
    cases hs
    exact ⟨h.coupled, h.busy, h.sound⟩
  case ends =>
    split at hs
    · cases hs
    · cases hs
      exact ⟨h.coupled, h.busy, trivial⟩
  case asks prompt len =>
    obtain ⟨-, ffi, hpush, rfl⟩ := hs
    exact pushes_wired h hpush
  case enters =>
    obtain ⟨ffi, hpush, rfl⟩ := hs
    exact pushes_wired h hpush
  case exits =>
    obtain ⟨-, ffi, hpush, rfl⟩ := hs
    exact pushes_wired h hpush
  case seesGate =>
    split at hs
    · rename_i hr
      obtain ⟨-, hs⟩ := Option.ite_none_right_eq_some.mp hs
      cases hs
      exact h.stays (by rw [hr]; exact RSide.noConfusion) rfl rfl
    · rename_i hr
      obtain ⟨-, hs⟩ := Option.ite_none_right_eq_some.mp hs
      cases hs
      exact h.stays (by rw [hr]; exact RSide.noConfusion) rfl rfl
    · cases hs
  case closesGate =>
    split at hs
    · rename_i hr
      cases hs
      exact h.stays (by rw [hr]; exact RSide.noConfusion) rfl rfl
    · rename_i hr
      cases hs
      exact h.stays (by rw [hr]; exact RSide.noConfusion) rfl rfl
    · cases hs
  case copies =>
    split at hs
    · rename_i hr
      cases hs
      exact h.stays (by rw [hr]; exact RSide.noConfusion) rfl rfl
    · cases hs

end

/-! ## Whole runs -/

/-- Nothing that R or the loop waits for is lost: its message is on the way, or its gate is open. -/
structure Pending (cap : Nat) (s : State) : Prop where
  read {prompt : Bytes} {len : Nat} : s.r = .reading prompt len .polled →
    (kindReadline, storedPayload cap prompt) ∈ notesOf s.ffi ∨
      s.ui.place = .prompt ∧ s.ui.asks = some (shownPrompt (storedPayload cap prompt)) ∨
      s.readlineInputBuf.isSome ∧ (s.handing = true ∨ s.readlineGate = true)
  entry : s.r = .entering .polled →
    (kindPassthrough, []) ∈ notesOf s.ffi ∨ s.passthroughGate = true
  suspension : s.ui.place = .suspended →
    endNote ∈ notesOf s.ffi ∨ ∃ gate, s.r = .entering gate ∧ s.passthroughGate = true

theorem Held.rounds (h : Held cap intact s part owed) : Rounds (ReadRound cap) s.log := by
  obtain ⟨stage, log, -, -⟩ := h
  cases stage with
  | unheard polls calm =>
    cases hr : s.r with
    | running => rw [hr] at log; exact log.between
    | reading prompt len gate =>
      rw [hr] at log
      exact log.within (.read prompt len []) ⟨_, rfl⟩
    | entering gate => rw [hr] at log; exact log.between
  | @shown prompt len => exact log.within (.read prompt len []) ⟨_, rfl⟩
  | @answered prompt text len => exact log.within (.read prompt len text) ⟨_, rfl⟩
  | admitted => exact log.between

/-- The end of a passthrough is on the way as long as the prompt waits for it. -/
theorem endNote_mem (hplace : s.ui.place = .suspended) (hdepth : s.depth = 0) :
    endNote ∈ s.endOwed := by
  rw [State.endOwed, if_pos ⟨hdepth, by rw [hplace]; exact Place.noConfusion⟩]
  exact List.mem_cons_self

theorem Held.pending (h : Held cap intact s part owed) (hintact : intact) (hdepth : s.depth = 0)
    (hplace : s.ui.place ≠ .nowhere) : Pending cap s := by
  obtain ⟨stage, -, -, same⟩ := h
  have hnotes := same hintact hdepth hplace
  cases stage with
  | unheard polls calm =>
    constructor
    · intro prompt len hr
      rw [hnotes, hr]
      exact .inl (List.mem_append_right _ List.mem_cons_self)
    · intro hr
      rw [hnotes, hr]
      exact .inl (List.mem_append_right _ List.mem_cons_self)
    · intro hsuspended
      rw [hnotes]
      exact .inl (List.mem_append_left _ (endNote_mem hsuspended hdepth))
  | @shown prompt len r depth place asks gate handing door =>
    constructor
    · intro prompt' len' hr
      rw [r] at hr
      cases hr
      exact .inr (.inl ⟨place, asks⟩)
    · intro hr
      rw [r] at hr
      cases hr
    · intro hsuspended
      rw [place] at hsuspended
      cases hsuspended
  | @answered prompt text len gate r depth place asks buf handed door =>
    constructor
    · intro prompt' len' hr
      rw [r] at hr
      cases hr
      obtain ⟨hhanding, -⟩ | ⟨-, hgate, -⟩ | ⟨-, -, hclosed⟩ := handed
      · exact .inr (.inr ⟨by rw [buf]; rfl, .inl hhanding⟩)
      · exact .inr (.inr ⟨by rw [buf]; rfl, .inr hgate⟩)
      · cases hclosed
    · intro hr
      rw [r] at hr
      cases hr
    · exact fun hsuspended => absurd hsuspended place
  | @admitted gate r gate' depth place asks rgate handing door =>
    constructor
    · intro prompt len hr
      rw [r] at hr
      cases hr
    · exact fun _ => .inr door
    · exact fun _ => .inr ⟨gate, r, door⟩

/-- At most one side has the terminal, and no gate is open but for the call R is in. -/
structure Exclusive (s : State) : Prop where
  terminal : 0 < s.depth → s.ui.place ≠ .prompt
  flat : s.depth ≤ 1
  gate : s.readlineGate = true → ∃ prompt len gate, s.r = .reading prompt len gate ∧ gate ≠ .closed
  door : s.passthroughGate = true → s.ui.place ≠ .prompt ∧ ∃ gate, s.r = .entering gate

theorem Held.exclusive (h : Held cap intact s part owed) : Exclusive s := by
  have hshut {b : Bool} {P : Prop} (hb : b = false) : b = true → P := fun h => by
    rw [hb] at h
    cases h
  cases h.stage with
  | unheard polls calm =>
    refine ⟨fun hinside => ?_, ?_, hshut calm.gate, hshut calm.door⟩
    · exact calm.depth.elim (fun hzero => absurd hzero (Nat.ne_of_gt hinside)) And.right
    · exact calm.depth.elim (fun hzero => hzero ▸ Nat.zero_le 1) fun hone => Nat.le_of_eq hone.1
  | shown r depth place asks gate handing door =>
    exact ⟨fun hinside => absurd depth (Nat.ne_of_gt hinside), depth ▸ Nat.zero_le 1, hshut gate,
      hshut door⟩
  | answered r depth place asks buf handed door =>
    refine ⟨fun hinside => absurd depth (Nat.ne_of_gt hinside), depth ▸ Nat.zero_le 1,
      fun hopen => ?_, hshut door⟩
    obtain ⟨-, hgate, -⟩ | ⟨-, -, hclosed⟩ | ⟨-, hgate, -⟩ := handed
    · exact hshut hgate hopen
    · exact ⟨_, _, _, r, hclosed⟩
    · exact hshut hgate hopen
  | admitted r gate depth place asks rgate handing door =>
    exact ⟨fun hinside => absurd depth (Nat.ne_of_gt hinside), depth ▸ Nat.zero_le 1, hshut rgate,
      fun _ => ⟨place, _, r⟩⟩

section
variable [Ucd] {a : Action}

/-- Some stage is reached by every run; an exact one by a run in which nothing is lost. -/
theorem run_held {m : Model} {as : List Action} (hsound : m.Sound) (hasks : m.asks = none)
    (h : Run (Restrict (fun s a => intact → Spared cap s a) (Steps cap)) (start m) as s) :
    Wired s ∧ Holds cap intact s := by
  refine h.invariant (I := fun s => Wired s ∧ Holds cap intact s) ?_
    ⟨wired_start hsound, [], [], held_start hasks⟩
  intro s a s' ⟨hw, part, owed, hheld⟩ ⟨hspared, hs⟩
  exact ⟨hw.step hheld hs, hheld.step hw hspared hs⟩

omit [Ucd] in
theorem Moves.same (h : Moves kept s s') : s'.r = s.r ∧ s'.depth = s.depth := by
  cases h <;> exact ⟨rfl, rfl⟩

omit [Ucd] in
/-- No gate is opened for a call made from the inside of a passthrough. -/
theorem Held.shut (h : Held cap intact s part owed) (hinside : 0 < s.depth) :
    s.r.polls = true ∧ Calm s := by
  cases h.stage with
  | unheard polls calm => exact ⟨polls, calm⟩
  | shown r depth => exact absurd depth (Nat.ne_of_gt hinside)
  | answered r depth => exact absurd depth (Nat.ne_of_gt hinside)
  | admitted r gate depth => exact absurd depth (Nat.ne_of_gt hinside)

theorem Held.nested_step (h : Held cap intact s part owed) (hw : Wired s) (hinside : 0 < s.depth)
    (hcall : s.r ≠ .running) (hs : Steps cap s a s') : s'.r = s.r ∧ s'.depth = s.depth := by
  obtain ⟨hpolls, calm⟩ := h.shut hinside
  have hpushes {kind : UInt8} {payload : Bytes} {ffi : Ffi.State}
      (hpush : s.pushes cap kind payload = some ffi) : False := by
    rw [State.pushes, if_neg hcall] at hpush
    cases hpush
  cases a <;> simp only [Steps, Console.step, Option.ite_none_right_eq_some,
    Option.map_eq_some_iff] at hs
  case ffi a w lost =>
    obtain ⟨hallows, ffi, hffi, hs'⟩ := hs
    exact (bridge_step hw h hallows hffi hs').2.same
  case message msg w =>
    split at hs
    · rename_i m hui
      exact absurd (place_of_prompting hui) (h.exclusive.terminal hinside)
    all_goals cases hs
  case openGate =>
    rw [calm.handing] at hs
    cases hs.1
  case ends =>
    split at hs
    · cases hs
    · cases hs
      exact ⟨rfl, rfl⟩
  case asks prompt len =>
    obtain ⟨-, ffi, hpush, -⟩ := hs
    exact (hpushes hpush).elim
  case enters =>
    obtain ⟨ffi, hpush, -⟩ := hs
    exact (hpushes hpush).elim
  case exits =>
    obtain ⟨-, ffi, hpush, -⟩ := hs
    exact (hpushes hpush).elim
  case seesGate =>
    split at hs
    · rw [calm.gate] at hs
      cases hs
    · rw [calm.door] at hs
      cases hs
    · cases hs
  case closesGate =>
    split at hs
    · rename_i hr
      rw [hr] at hpolls
      cases hpolls
    · rename_i hr
      rw [hr] at hpolls
      cases hpolls
    · cases hs
  case copies =>
    split at hs
    · rename_i hr
      rw [hr] at hpolls
      cases hpolls
    · cases hs

/-! ## From the first prompt on -/

section
variable {db : History.Db} {row width height : Int} {as bs : List Action}

theorem initial_model (h₀ : Update.initialModel (History.init db) row width height = .ok m) :
    m.Sound ∧ m.asks = none := by
  refine ⟨(Update.initialModel_sound (History.kept_init db) h₀).1, ?_⟩
  obtain ⟨cache, -, h₀⟩ := Outcome.bind_eq_ok.mp h₀
  cases h₀
  rfl

theorem initial_held (h₀ : Update.initialModel (History.init db) row width height = .ok m)
    (h : Run (Steps cap) (start m) as s) : Wired s ∧ Holds cap False s := by
  obtain ⟨hsound, hasks⟩ := initial_model h₀
  exact run_held hsound hasks (h.mono fun hs => ⟨False.elim, hs⟩)

/-- Every line R reads at the console was typed under the prompt of that very read. -/
theorem console_reads_own (h₀ : Update.initialModel (History.init db) row width height = .ok m)
    (h : Run (Steps cap) (start m) as s) : Rounds (ReadRound cap) s.log := by
  obtain ⟨-, part, owed, hheld⟩ := initial_held h₀ h
  exact hheld.rounds

/-- R and the loop never use the terminal at once, and no gate stays open for a later call. -/
theorem terminal_exclusive (h₀ : Update.initialModel (History.init db) row width height = .ok m)
    (h : Run (Steps cap) (start m) as s) : Exclusive s := by
  obtain ⟨-, part, owed, hheld⟩ := initial_held h₀ h
  exact hheld.exclusive

/-- A read or a passthrough inside of a passthrough never returns. -/
theorem nested_call_hangs (h₀ : Update.initialModel (History.init db) row width height = .ok m)
    (h : Run (Steps cap) (start m) as s) (hinside : 0 < s.depth) (hcall : s.r ≠ .running)
    (h' : Run (Steps cap) s bs s') : s'.r = s.r ∧ s'.depth = s.depth ∧ s'.ui.place ≠ .prompt := by
  have hsame := h'.invariant (I := fun t =>
    (Wired t ∧ Holds cap False t) ∧ t.r = s.r ∧ t.depth = s.depth) ?_ ⟨initial_held h₀ h, rfl, rfl⟩
  · obtain ⟨⟨-, part, owed, hheld⟩, hr, hdepth⟩ := hsame
    exact ⟨hr, hdepth, hheld.exclusive.terminal (hdepth ▸ hinside)⟩
  · intro t a t' ⟨⟨hw, part, owed, hheld⟩, hr, hdepth⟩ hs
    obtain ⟨hr', hdepth'⟩ := hheld.nested_step hw (hdepth ▸ hinside) (hr ▸ hcall) hs
    exact ⟨⟨hw.step hheld hs, hheld.step hw False.elim hs⟩, hr'.trans hr, hdepth'.trans hdepth⟩

end

end

/-! ## A run in which R asks, and one that hangs -/

instance (f : Ffi.State) (frame : Frame) : Decidable (Fits cap f frame) :=
  inferInstanceAs (Decidable (_ ≤ _))

instance (f : Ffi.State) : (a : Ffi.Action) → Decidable (KeepsQueue cap f a)
  | .push frame => inferInstanceAs (Decidable (Fits cap f frame))
  | .finish => inferInstanceAs (Decidable (Fits cap f Ffi.doneFrame))
  | .submit _ | .backgroundSubmit _ | .initialised _ | .await | .cancel | .loop | .drain | .take
  | .reset => inferInstanceAs (Decidable True)

instance (s : State) : (a : Action) → Decidable (Spared cap s a)
  | .ffi a _ lost => inferInstanceAs (Decidable (lost = false ∧ KeepsQueue cap s.ffi a))
  | .asks prompt _ => inferInstanceAs (Decidable (Fits cap s.ffi ⟨kindReadline, 0, prompt⟩))
  | .enters => inferInstanceAs (Decidable (Fits cap s.ffi ⟨kindPassthrough, 0, []⟩))
  | .exits => inferInstanceAs (Decidable (Fits cap s.ffi ⟨kindPassthroughEnd, 0, []⟩))
  | .message _ _ | .openGate | .ends | .seesGate | .closesGate | .copies =>
    inferInstanceAs (Decidable True)

section

attribute [local instance] asciiUcd

/-- A terminal of 80 columns. -/
def console : World := ⟨(1, 1), (80, 24), none⟩

def typed (key : Key) : Action := .message (.key key) console

def bridged (a : Ffi.Action) : Action := .ffi a console false

def evaluates : List Action :=
  [.initialised [], .backgroundSubmit (bytes "f()"), .take, .reset, .await].map bridged

/-- A line is read. -/
def asksName : List Action :=
  evaluates ++ [.asks (bytes "Name? ") 4096, bridged .loop, typed (.char (bytes "A")), typed .enter,
    .openGate, .seesGate, .closesGate, .copies]

theorem console_reads_own_name : ∃ m s,
    Update.initialModel (History.init ⟨[], []⟩) 1 80 24 = .ok m ∧
    Run (Steps 1024) (start m) asksName s ∧
    s.log = [.asked (bytes "Name? ") 4096, .answered (some (bytes "Name? ")) (bytes "A"),
      .read (bytes "A\n")] ∧ Rounds (ReadRound 1024) s.log := by
  obtain ⟨m, s, h₀, hrun, hlog⟩ : ∃ m s,
      Update.initialModel (History.init ⟨[], []⟩) 1 80 24 = .ok m ∧
      Transition.exec (step 1024) (start m) asksName = some s ∧
      s.log = [.asked (bytes "Name? ") 4096, .answered (some (bytes "Name? ")) (bytes "A"),
        .read (bytes "A\n")] := ⟨_, _, rfl, rfl, rfl⟩
  have h := Transition.run_of_exec hrun
  exact ⟨m, s, h₀, h, hlog, console_reads_own h₀ h⟩

/-- `system` is called and has yet to return. -/
def entersShell : List Action :=
  evaluates ++ [.enters, bridged .loop, .seesGate, .closesGate]

theorem terminal_exclusive_shell : ∃ m s,
    Update.initialModel (History.init ⟨[], []⟩) 1 80 24 = .ok m ∧
    Run (Steps 1024) (start m) entersShell s ∧ s.depth = 1 ∧ s.ui.place = .suspended ∧
    Exclusive s := by
  obtain ⟨m, s, h₀, hrun, hdepth, hplace⟩ : ∃ m s,
      Update.initialModel (History.init ⟨[], []⟩) 1 80 24 = .ok m ∧
      Transition.exec (step 1024) (start m) entersShell = some s ∧ s.depth = 1 ∧
      s.ui.place = .suspended := ⟨_, _, rfl, rfl, rfl, rfl⟩
  have h := Transition.run_of_exec hrun
  exact ⟨m, s, h₀, h, hdepth, hplace, terminal_exclusive h₀ h⟩

/-- `system` has returned, and a line is asked for before the loop has heard of it. -/
def leavesShell : List Action := entersShell ++ [.exits, .asks (bytes "n") 4096]

/-- The command of `system` is asked for when `system` is already in its passthrough. -/
def asksInShell : List Action := entersShell ++ [.asks (bytes "Command? ") 4096]

theorem nested_call_hangs_asking : ∃ m s s',
    Update.initialModel (History.init ⟨[], []⟩) 1 80 24 = .ok m ∧
    Run (Steps 1024) (start m) asksInShell s ∧
    Run (Steps 1024) s [bridged .await, bridged .loop, bridged .await, bridged .loop] s' ∧
    s'.r = .reading (bytes "Command? ") 4096 .polled ∧ notesOf s'.ffi = [] ∧
    s'.r = s.r ∧ s'.depth = s.depth ∧ s'.ui.place ≠ .prompt := by
  obtain ⟨m, s, s', h₀, hrun, hrun', hinside, hr, hr', hnotes⟩ : ∃ m s s',
      Update.initialModel (History.init ⟨[], []⟩) 1 80 24 = .ok m ∧
      Transition.exec (step 1024) (start m) asksInShell = some s ∧
      Transition.exec (step 1024) s
        [bridged .await, bridged .loop, bridged .await, bridged .loop] = some s' ∧
      s.depth = 1 ∧ s.r = .reading (bytes "Command? ") 4096 .polled ∧
      s'.r = .reading (bytes "Command? ") 4096 .polled ∧ notesOf s'.ffi = [] :=
    ⟨_, _, _, rfl, rfl, rfl, rfl, rfl, rfl, rfl⟩
  have h := Transition.run_of_exec hrun
  have h' := Transition.run_of_exec hrun'
  refine ⟨m, s, s', h₀, h, h', hr', hnotes, nested_call_hangs h₀ h ?_ ?_ h'⟩
  · rw [hinside]
    exact Nat.one_pos
  · rw [hr]
    exact RSide.noConfusion

end

end Console
end Raoui
