import Raoui.Ai.Backend
import Raoui.Lib.Transition

/-!
# Raoui.Ai.Session

The session protocol of the spawned runs. A run may resume a session only when a run that was told
to create it has succeeded, and may be told to create a session only when every run told so before
has failed.

The flag `started` is one cell for all the runs. A completion sets it for whatever session id is
current then, and a submit reads it while the run that will set it may still be in flight. So the
protocol holds exactly when every submit is `Timely`: some run of the present conversation has
succeeded, or nothing has since the conversation began and none of its runs is in flight.

* `Tracks`: what the state knows of the log; every step keeps it (`Tracks.step`).
* `respects_iff_timely`: one submit, in a run that has kept the protocol so far.
* `protocol_iff_timely`: the log of every run.
-/

namespace Raoui
namespace Ai

open Transition (Run Restrict exec guarded run_of_guarded)
open Raoui.Ffi (ResponseChunk)

/-! ## The protocol -/

def Resumes (id : Bytes) (argv : List Bytes) : Prop :=
  argv[6]? = some (bytes "--resume") ∧ argv[7]? = some id

def Creates (id : Bytes) (argv : List Bytes) : Prop :=
  argv[6]? = some (bytes "--session-id") ∧ argv[7]? = some id

/-- The arguments of a run spawned after `log` agree with what the earlier runs did. -/
structure Respects (log : List Entry) (argv : List Bytes) : Prop where
  resume : ∀ id, Resumes id argv →
    ∃ n argv', .spawned n argv' ∈ log ∧ Creates id argv' ∧ .finished n true ∈ log
  create : ∀ id, Creates id argv →
    ∀ n argv', .spawned n argv' ∈ log → Creates id argv' → .finished n false ∈ log

/-- `P` holds of every spawn of the log, with the log before it. -/
def EverySpawn (P : List Entry → List Bytes → Prop) : List Entry → Prop
  | [] => True
  | .spawned _ argv :: log => P log argv ∧ EverySpawn P log
  | _ :: log => EverySpawn P log

def Protocol (log : List Entry) : Prop := EverySpawn Respects log

/-! ## Conversations -/

def Entry.isSession : Entry → Bool
  | .session _ => true
  | _ => false

/-- The entries since the session id was last drawn. -/
def conversation (log : List Entry) : List Entry := log.takeWhile (!·.isSession)

def Succeeded (log : List Entry) : Prop := ∃ n, .finished n true ∈ conversation log

/-- A submit is timely when one of the conversation's own runs has succeeded, or when no run has
succeeded since the conversation began and all of its own have failed. -/
structure Timely (log : List Entry) : Prop where
  own : Succeeded log →
    ∃ n argv, .spawned n argv ∈ conversation log ∧ .finished n true ∈ conversation log
  settled : ¬ Succeeded log →
    ∀ n argv, .spawned n argv ∈ conversation log → .finished n false ∈ conversation log

@[simp] theorem conversation_session (id : Bytes) (log : List Entry) :
    conversation (.session id :: log) = [] := rfl

@[simp] theorem conversation_spawned (n : Nat) (argv : List Bytes) (log : List Entry) :
    conversation (.spawned n argv :: log) = .spawned n argv :: conversation log := rfl

@[simp] theorem conversation_finished (n : Nat) (ok : Bool) (log : List Entry) :
    conversation (.finished n ok :: log) = .finished n ok :: conversation log := rfl

theorem mem_of_conversation {e : Entry} {log : List Entry} (h : e ∈ conversation log) : e ∈ log :=
  (List.takeWhile_sublist _).subset h

@[simp] theorem succeeded_session (id : Bytes) (log : List Entry) :
    ¬ Succeeded (.session id :: log) := by
  simp [Succeeded]

@[simp] theorem succeeded_spawned (n : Nat) (argv : List Bytes) (log : List Entry) :
    Succeeded (.spawned n argv :: log) ↔ Succeeded log := by
  simp [Succeeded]

@[simp] theorem succeeded_finished (n : Nat) (ok : Bool) (log : List Entry) :
    Succeeded (.finished n ok :: log) ↔ ok = true ∨ Succeeded log := by
  constructor
  · rintro ⟨k, hk⟩
    rw [conversation_finished, List.mem_cons] at hk
    obtain hk | hk := hk
    · cases hk
      exact .inl rfl
    · exact .inr ⟨k, hk⟩
  · rintro (rfl | ⟨k, hk⟩)
    · exact ⟨n, by simp⟩
    · exact ⟨k, by simp [hk]⟩

/-- In a log that keeps the protocol, a resumed session was created by a run that succeeded. -/
theorem Protocol.resumed {log : List Entry} {n : Nat} {argv : List Bytes} {id : Bytes}
    (h : Protocol log) (hn : .spawned n argv ∈ log) (hid : Resumes id argv) :
    ∃ m argv', .spawned m argv' ∈ log ∧ Creates id argv' ∧ .finished m true ∈ log := by
  induction log with
  | nil => cases hn
  | cons e log ih =>
    have later : (∃ m argv', Entry.spawned m argv' ∈ log ∧ Creates id argv' ∧
        Entry.finished m true ∈ log) →
        ∃ m argv', Entry.spawned m argv' ∈ e :: log ∧ Creates id argv' ∧
          Entry.finished m true ∈ e :: log := by
      rintro ⟨m, argv', hm, hc, hf⟩
      exact ⟨m, argv', List.mem_cons_of_mem _ hm, hc, List.mem_cons_of_mem _ hf⟩
    cases e with
    | spawned k argv' =>
      obtain ⟨hr, h⟩ := h
      obtain hn | hn := List.mem_cons.mp hn
      · cases hn
        exact later (hr.resume id hid)
      · exact later (ih h hn)
    | session id' => exact later (ih h (by simpa using hn))
    | finished k ok => exact later (ih h (by simpa using hn))

/-! ## The flags of a run -/

theorem not_resumes_create {mcpPort : Nat} {id id' query : Bytes} :
    ¬ Resumes id (claudeArgs mcpPort [bytes "--session-id", id'] query) := by
  rintro ⟨h, -⟩
  exact absurd (Option.some.inj h) (by decide)

theorem not_creates_resume {mcpPort : Nat} {id id' query : Bytes} :
    ¬ Creates id (claudeArgs mcpPort [bytes "--resume", id'] query) := by
  rintro ⟨h, -⟩
  exact absurd (Option.some.inj h) (by decide)

theorem resumes_iff {mcpPort : Nat} {id id' query : Bytes} :
    Resumes id (claudeArgs mcpPort [bytes "--resume", id'] query) ↔ id' = id := by
  constructor
  · rintro ⟨-, h⟩
    exact Option.some.inj h
  · rintro rfl
    exact ⟨rfl, rfl⟩

theorem creates_iff {mcpPort : Nat} {id id' query : Bytes} :
    Creates id (claudeArgs mcpPort [bytes "--session-id", id'] query) ↔ id' = id := by
  constructor
  · rintro ⟨-, h⟩
    exact Option.some.inj h
  · rintro rfl
    exact ⟨rfl, rfl⟩

/-! ## What the state knows of the log -/

/-- The session id just drawn is none of those drawn before. -/
def Fresh (s : System) : Event → Prop
  | .reset drawn => .session (randomUuid drawn) ∉ s.log
  | _ => True

instance (s : System) : ∀ e, Decidable (Fresh s e)
  | .reset drawn => inferInstanceAs (Decidable (.session (randomUuid drawn) ∉ s.log))
  | .submit _ | .line .. | .finish .. | .take => inferInstanceAs (Decidable True)

structure Tracks (s : System) : Prop where
  current : .session s.backend.sessionId ∈ s.log
  started : s.backend.started = true ↔ Succeeded s.log
  /-- The conversation's runs were given its id. -/
  own : ∀ n argv, .spawned n argv ∈ conversation s.log →
    Creates s.backend.sessionId argv ∨ Resumes s.backend.sessionId argv ∧ Succeeded s.log
  /-- No other run was told to create it. -/
  others : ∀ n argv, .spawned n argv ∈ s.log → Creates s.backend.sessionId argv →
    .spawned n argv ∈ conversation s.log
  drawn : ∀ n argv id, .spawned n argv ∈ s.log → Creates id argv → .session id ∈ s.log
  /-- A run ends after it was spawned. -/
  later : ∀ n argv ok, .spawned n argv ∈ conversation s.log → .finished n ok ∈ s.log →
    .finished n ok ∈ conversation s.log
  numbered : ∀ n ok, .finished n ok ∈ s.log → n < s.forked
  inFlight : ∀ r ∈ s.runs, r.number < s.forked

namespace Tracks

variable {s s' : System} {fromString : Bytes → Option Json} {mcpPort : Nat}

theorem create (drawn : Fin 16 → UInt8) : Tracks (.create drawn) where
  current := by simp [System.create, AiBackend.create]
  started := by simp [System.create, AiBackend.create]
  own n argv h := by simp [System.create] at h
  others n argv h := by simp [System.create] at h
  drawn n argv id h := by simp [System.create] at h
  later n argv ok h := by simp [System.create] at h
  numbered n ok h := by simp [System.create] at h
  inFlight r h := by simp [System.create] at h

theorem submit (h : Tracks s) (query : Bytes) : Tracks (s.submit mcpPort query) where
  current := List.mem_cons_of_mem _ h.current
  started := by simpa [System.submit] using h.started
  own n argv hn := by
    simp only [System.submit, conversation_spawned, succeeded_spawned, List.mem_cons] at hn ⊢
    obtain hn | hn := hn
    · cases hn
      by_cases hs : s.backend.started = true
      · rw [AiBackend.session, if_pos hs]
        exact .inr ⟨resumes_iff.mpr rfl, h.started.mp hs⟩
      · rw [AiBackend.session, if_neg hs]
        exact .inl (creates_iff.mpr rfl)
    · exact h.own n argv hn
  others n argv hn hc := by
    simp only [System.submit, conversation_spawned, List.mem_cons] at hn hc ⊢
    exact hn.imp id fun hn => h.others n argv hn hc
  drawn n argv id hn hc := by
    simp only [System.submit, List.mem_cons, reduceCtorEq, false_or] at hn hc ⊢
    obtain hn | hn := hn
    · cases hn
      by_cases hs : s.backend.started = true
      · rw [AiBackend.session, if_pos hs] at hc
        exact absurd hc not_creates_resume
      · rw [AiBackend.session, if_neg hs, creates_iff] at hc
        exact hc ▸ h.current
    · exact h.drawn n argv id hn hc
  later n argv ok hn hf := by
    simp only [System.submit, conversation_spawned, List.mem_cons, reduceCtorEq, false_or]
      at hn hf ⊢
    obtain hn | hn := hn
    · cases hn
      -- the number is new
      exact absurd (h.numbered _ _ hf) (Nat.lt_irrefl _)
    · exact h.later n argv ok hn hf
  numbered n ok hf := by
    simp only [System.submit, List.mem_cons, reduceCtorEq, false_or] at hf ⊢
    exact Nat.lt_succ_of_lt (h.numbered n ok hf)
  inFlight r hr := by
    simp only [System.submit, List.mem_append, List.mem_singleton] at hr ⊢
    obtain hr | rfl := hr
    · exact Nat.lt_succ_of_lt (h.inFlight r hr)
    · exact Nat.lt_succ_self _

theorem readLine (h : Tracks s) (run : AiRun) (line : Bytes) :
    Tracks (s.readLine fromString run line) :=
  { h with
    inFlight := by
      intro r hr
      obtain ⟨r', hr', rfl⟩ := List.mem_map.mp hr
      have hlt := h.inFlight r' hr'
      split
      · exact hlt
      · exact hlt }

theorem finish (h : Tracks s) {run : AiRun} (hrun : run ∈ s.runs) (ending : Ending) :
    Tracks (s.finish run ending) where
  current := List.mem_cons_of_mem _ h.current
  started := by
    simp only [System.finish, AiBackend.finish_started, succeeded_finished, Bool.or_eq_true]
    rw [h.started, Or.comm]
  own n argv hn := by
    simp only [System.finish, conversation_finished, List.mem_cons, reduceCtorEq, false_or,
      succeeded_finished] at hn ⊢
    exact (h.own n argv hn).imp id fun hr => ⟨hr.1, .inr hr.2⟩
  others n argv hn hc := by
    simp only [System.finish, conversation_finished, List.mem_cons, reduceCtorEq, false_or]
      at hn hc ⊢
    exact h.others n argv hn hc
  drawn n argv id hn hc := by
    simp only [System.finish, List.mem_cons, reduceCtorEq, false_or] at hn hc ⊢
    exact h.drawn n argv id hn hc
  later n argv ok hn hf := by
    simp only [System.finish, conversation_finished, List.mem_cons, reduceCtorEq, false_or]
      at hn hf ⊢
    exact hf.imp id fun hf => h.later n argv ok hn hf
  numbered n ok hf := by
    simp only [System.finish, List.mem_cons] at hf ⊢
    obtain hf | hf := hf
    · cases hf
      exact h.inFlight run hrun
    · exact h.numbered n ok hf
  inFlight r hr := h.inFlight r (List.mem_filter.mp hr).1

/-- A new id is in no argument yet, so the new conversation starts empty. -/
theorem reset (h : Tracks s) {drawn : Fin 16 → UInt8} (hnew : .session (randomUuid drawn) ∉ s.log) :
    Tracks (s.reset drawn) where
  current := by simp [System.reset]
  started := by simp [System.reset]
  own n argv hn := by simp [System.reset] at hn
  others n argv hn hc := by
    simp only [System.reset, AiBackend.reset_sessionId, List.mem_cons, reduceCtorEq, false_or]
      at hn hc
    exact absurd (h.drawn n argv _ hn hc) hnew
  drawn n argv id hn hc := by
    simp only [System.reset, List.mem_cons, reduceCtorEq, false_or] at hn ⊢
    exact .inr (h.drawn n argv id hn hc)
  later n argv ok hn := by simp [System.reset] at hn
  numbered n ok hf := by
    simp only [System.reset, List.mem_cons, reduceCtorEq, false_or] at hf
    exact h.numbered n ok hf
  inFlight := h.inFlight

theorem take (h : Tracks s) (chunks : List ResponseChunk) :
    Tracks { s with backend := { s.backend with chunks } } := { h with }

end Tracks

/-! ## One submit -/

/-- What a submit's arguments must be for the protocol, read off the log before it. -/
theorem respects_iff_timely {s : System} (h : Tracks s) (hp : Protocol s.log) (mcpPort : Nat)
    (query : Bytes) :
    Respects s.log (claudeArgs mcpPort s.backend.session query) ↔ Timely s.log := by
  by_cases hs : s.backend.started = true
  · have hsucc := h.started.mp hs
    rw [AiBackend.session, if_pos hs]
    constructor
    · intro hr
      refine ⟨fun _ => ?_, fun hn => absurd hsucc hn⟩
      obtain ⟨n, argv, hn, hc, hf⟩ := hr.resume _ (resumes_iff.mpr rfl)
      have hn := h.others n argv hn hc
      exact ⟨n, argv, hn, h.later n argv true hn hf⟩
    · intro ht
      refine ⟨fun id hid => ?_, fun id hid => absurd hid not_creates_resume⟩
      rw [resumes_iff] at hid
      subst hid
      obtain ⟨n, argv, hn, hf⟩ := ht.own hsucc
      obtain hc | ⟨hr, -⟩ := h.own n argv hn
      · exact ⟨n, argv, mem_of_conversation hn, hc, mem_of_conversation hf⟩
      · exact hp.resumed (mem_of_conversation hn) hr
  · have hsucc : ¬ Succeeded s.log := fun hn => hs (h.started.mpr hn)
    rw [AiBackend.session, if_neg hs]
    constructor
    · intro hr
      refine ⟨fun hn => absurd hn hsucc, fun _ n argv hn => ?_⟩
      obtain hc | ⟨-, hs'⟩ := h.own n argv hn
      · exact h.later n argv false hn
          (hr.create _ (creates_iff.mpr rfl) n argv (mem_of_conversation hn) hc)
      · exact absurd hs' hsucc
    · intro ht
      refine ⟨fun id hid => absurd hid not_resumes_create, fun id hid n argv hn hc => ?_⟩
      rw [creates_iff] at hid
      subst hid
      exact mem_of_conversation (ht.settled hsucc n argv (h.others n argv hn hc))

/-! ## Every run -/

/-- The invariant of a run: the state tracks the log, and the log keeps the protocol so far exactly
when every submit so far was timely. -/
structure Judged (s : System) : Prop extends Tracks s where
  judged : Protocol s.log ↔ EverySpawn (fun log _ => Timely log) s.log

theorem Judged.step {fromString : Bytes → Option Json} {mcpPort : Nat} {s s' : System} {e : Event}
    (h : Judged s) (hstep : step fromString mcpPort s e = some s') (hfresh : Fresh s e) :
    Judged s' := by
  cases e with
  | submit query =>
    cases hstep
    refine ⟨h.toTracks.submit query, ?_⟩
    constructor
    · rintro ⟨hr, hp⟩
      exact ⟨(respects_iff_timely h.toTracks hp mcpPort query).mp hr, h.judged.mp hp⟩
    · rintro ⟨ht, ha⟩
      have hp := h.judged.mpr ha
      exact ⟨(respects_iff_timely h.toTracks hp mcpPort query).mpr ht, hp⟩
  | line number line =>
    obtain ⟨run, -, rfl⟩ := Option.map_eq_some_iff.mp hstep
    exact ⟨h.toTracks.readLine run line, h.judged⟩
  | finish number ending =>
    obtain ⟨run, hrun, rfl⟩ := Option.map_eq_some_iff.mp hstep
    exact ⟨h.toTracks.finish (List.mem_of_find?_eq_some hrun) ending, h.judged⟩
  | reset drawn =>
    cases hstep
    exact ⟨h.toTracks.reset hfresh, h.judged⟩
  | take =>
    simp only [Ai.step] at hstep
    split at hstep
    · cases hstep
    · cases hstep
      exact ⟨h.toTracks.take _, h.judged⟩

theorem judged_create (drawn : Fin 16 → UInt8) : Judged (.create drawn) :=
  ⟨.create drawn, Iff.rfl⟩

/-- The spawned runs keep the session protocol exactly when every query is submitted at a timely
moment, provided no session id is drawn twice. -/
theorem protocol_iff_timely {fromString : Bytes → Option Json} {mcpPort : Nat}
    {drawn : Fin 16 → UInt8} {events : List Event} {s : System}
    (h : Run (Restrict Fresh fun s e s' => step fromString mcpPort s e = some s')
      (System.create drawn) events s) :
    Protocol s.log ↔ EverySpawn (fun log _ => Timely log) s.log := by
  have hi := h.invariant (I := Judged) (fun hi hs => hi.step hs.2 hs.1) (judged_create drawn)
  exact hi.judged

/-- One query answered, a reset, and a query of the new conversation. -/
theorem protocol_iff_timely_reset :
    ∃ s, exec (guarded Fresh (step (fun _ => none) 8080)) (.create fun _ => 0)
        [.submit (bytes "a"), .finish 0 (.exited 0), .reset fun _ => 1, .submit (bytes "b")] =
        some s ∧
      s.runs ≠ [] ∧ (Protocol s.log ↔ EverySpawn (fun log _ => Timely log) s.log) := by
  obtain ⟨s, hs, hruns⟩ : ∃ s, exec (guarded Fresh (step (fun _ => none) 8080))
      (.create fun _ => 0)
      [.submit (bytes "a"), .finish 0 (.exited 0), .reset fun _ => 1, .submit (bytes "b")] =
        some s ∧ s.runs ≠ [] := ⟨_, rfl, List.cons_ne_nil _ _⟩
  exact ⟨s, hs, hruns, protocol_iff_timely (run_of_guarded hs)⟩

/-- Two queries before the first is answered are both told to create the session. A query answered
after a reset has the next one resume a session no run was told to create. -/
theorem session_reused :
    (∃ s, exec (guarded Fresh (step (fun _ => none) 8080)) (.create fun _ => 0)
        [.submit (bytes "a"), .submit (bytes "b")] = some s ∧ ¬ Protocol s.log) ∧
    ∃ s, exec (guarded Fresh (step (fun _ => none) 8080)) (.create fun _ => 0)
        [.submit (bytes "a"), .reset fun _ => 1, .finish 0 (.exited 0), .submit (bytes "b")] =
        some s ∧ ¬ Protocol s.log := by
  constructor
  · refine ⟨_, rfl, ?_⟩
    rintro ⟨⟨-, hcreate⟩, -⟩
    have hf := hcreate (randomUuid fun _ => 0) ⟨rfl, rfl⟩ 0
      (claudeArgs 8080 [bytes "--session-id", randomUuid fun _ => 0] (bytes "a"))
      (List.mem_cons_self ..) ⟨rfl, rfl⟩
    -- the log holds the two spawns and the first session id
    obtain hf | hf := List.mem_cons.mp hf
    · cases hf
    · cases List.mem_singleton.mp hf
  · refine ⟨_, rfl, ?_⟩
    rintro ⟨⟨hresume, -⟩, -⟩
    obtain ⟨n, argv, hn, hc, -⟩ := hresume (randomUuid fun _ => 1) ⟨rfl, rfl⟩
    obtain hn | hn := List.mem_cons.mp hn
    · cases hn
    obtain hn | hn := List.mem_cons.mp hn
    · cases hn
    obtain hn | hn := List.mem_cons.mp hn
    · cases hn
      -- the first query was told to create the first session
      have hid : randomUuid (fun _ => 0) = randomUuid (fun _ => 1) := Option.some.inj hc.2
      exact absurd hid (by decide)
    · cases List.mem_singleton.mp hn

end Ai
end Raoui
