import Raoui.Ffi.Flight
import Raoui.Tty.Listener

/-!
# Raoui.Main.EventLoop

The loop of `bin/main.ml`: in each round four fibers wait for input, for R, for the AI and for a
resize, `Fiber.any` returns what the first of them finishes with, and that goes to `Update.update`.
The others are cancelled where they wait next. What they have taken by then is gone.

* `step`: one action of the world, of a fiber or of the loop.
* `Spares`: the fibers that lose a round have taken nothing.
* `nothing_lost`: then every key and every message is dispatched once.

Bytes that were read ahead at the start come before those of the terminal.
-/

namespace Raoui
namespace EventLoop

open Ffi (ResponseChunk Message Awaited Consumer Event Round awaitLoop awaitDrain)
open Tty (Key Reading Item decode decode_append)
open Transition (Run Restrict)

/-- What a fiber finishes with. A response of R comes with the messages it was made of. -/
inductive Result where
  | key (k : Key)
  | response (r : ResponseChunk) (parts : List Message)
  | ai (r : ResponseChunk)
  | resize (width height : Int)
  deriving DecidableEq, Repr

namespace Result

def isKey : Result → Bool
  | .key _ => true
  | _ => false

def isResponse : Result → Bool
  | .response _ _ => true
  | _ => false

def isAi : Result → Bool
  | .ai _ => true
  | _ => false

def isResize : Result → Bool
  | .resize _ _ => true
  | _ => false

end Result

def keysOf (rs : List Result) : List Key :=
  rs.filterMap fun
    | .key k => some k
    | _ => none

def responsesOf (rs : List Result) : List ResponseChunk :=
  rs.filterMap fun
    | .response r _ => some r
    | _ => none

/-- The messages the responses were made of. -/
def partsOf (rs : List Result) : List Message :=
  rs.flatMap fun
    | .response _ parts => parts
    | _ => []

def chunksOf (rs : List Result) : List ResponseChunk :=
  rs.filterMap fun
    | .ai r => some r
    | _ => none

/-! ## Steps -/

structure State where
  /-- The input that has not been read. -/
  unread : List Item
  /-- Where the fiber that reads keys waits. -/
  reading : Reading
  ffi : Ffi.State
  /-- The stream `Ai_backend.await_response` takes from. -/
  chunks : List ResponseChunk
  /-- What the fibers of this round have finished with, in order. -/
  results : List Result
  /-- Ghosts: all input and all chunks so far, the messages `await_response` disposed of without an
  answer, and what went to `Update.update`. -/
  typed : List Item
  added : List ResponseChunk
  withheld : List Message
  dispatched : List Result
  deriving DecidableEq, Repr

def start : State :=
  { unread := [], reading := .start, ffi := Ffi.start, chunks := [], results := [], typed := [],
    added := [], withheld := [], dispatched := [] }

inductive Action where
  | typed (item : Item)
  | added (r : ResponseChunk)
  | ffi (a : Ffi.Action)
  | read
  | take
  | resize (width height : Int)
  | dispatch
  deriving DecidableEq, Repr

/-- The round of `await_response` a step of the R side makes. -/
def awaited (s : Ffi.State) : Ffi.Action → Option Awaited
  | .loop => some (awaitLoop s.t s.ring)
  | .drain =>
    match s.consumer with
    | .draining buf parts => some (awaitDrain s.t s.ring buf parts)
    | _ => none
  | _ => none

def resultsOf (aw : Awaited) : List Result :=
  match aw.outcome with
  | .returned r parts => [.response r parts]
  | _ => []

/-- The message a round popped and answers with nothing. -/
def withheldOf (aw : Awaited) : List Message :=
  match aw.outcome with
  | .again => aw.popped.toList
  | _ => []

def State.moved (s : State) (a : Ffi.Action) (ffi : Ffi.State) : State :=
  match awaited s.ffi a with
  | some aw =>
    { s with ffi, results := s.results ++ resultsOf aw, withheld := s.withheld ++ withheldOf aw }
  | none => { s with ffi }

/-- Cancelling is part of `dispatch`, and a fiber that has finished does not start again. -/
def State.allows (s : State) : Ffi.Action → Bool
  | .cancel => false
  | .await => !s.results.any Result.isResponse
  | _ => true

def step (cap : Nat) (s : State) : Action → Option State
  | .typed item => some { s with unread := s.unread ++ [item], typed := s.typed ++ [item] }
  | .added r => some { s with chunks := s.chunks ++ [r], added := s.added ++ [r] }
  | .ffi a => if s.allows a then (Ffi.step cap s.ffi a).map (s.moved a) else none
  | .read =>
    if s.ffi.consumer.yielded && !s.results.any Result.isKey then
      match s.unread with
      | [] => none
      | item :: rest =>
        match s.reading.take item with
        | .key k => some { s with unread := rest, reading := .start, results := s.results ++ [.key k] }
        | .more r => some { s with unread := rest, reading := r }
    else none
  | .take =>
    if s.ffi.consumer.yielded && !s.results.any Result.isAi then
      match s.chunks with
      | [] => none
      | r :: rest => some { s with chunks := rest, results := s.results ++ [.ai r] }
    else none
  | .resize width height =>
    if s.ffi.consumer.yielded && !s.results.any Result.isResize then
      some { s with results := s.results ++ [.resize width height] }
    else none
  | .dispatch =>
    if s.ffi.consumer.yielded then
      match s.results with
      | [] => none
      | winner :: _ =>
        some { s with
          ffi := { s.ffi with consumer := .away }, reading := .start, results := []
          dispatched := s.dispatched ++ [winner] }
    else none

def Steps (cap : Nat) (s : State) (a : Action) (s' : State) : Prop := step cap s a = some s'

/-! ## Nothing lost -/

/-- When a round ends, the fiber that reads keys is not in the middle of one, and no fiber but the
first has finished, unless with a resize. -/
def Spares (s : State) : Action → Prop
  | .dispatch => s.reading = .start ∧ ∀ r ∈ s.results.tail, r.isResize = true
  | _ => True

instance (s : State) (a : Action) : Decidable (Spares s a) :=
  match a with
  | .dispatch => inferInstanceAs (Decidable (_ ∧ _))
  | .typed _ | .added _ | .ffi _ | .read | .take | .resize _ _ => .isTrue trivial

def poppedMessages (log : List Event) : List Message :=
  log.filterMap fun
    | .popped m => some m
    | _ => none

/-- The messages `drain` holds. -/
def held : Consumer → List Message
  | .draining _ parts => parts
  | _ => []

/-- The keys of the whole input are those dispatched, in hand and still to come. The messages popped
are those dispatched, in hand and withheld, each once; only suppressed output and a DONE that other
work follows are withheld. The responses and the chunks of the AI are dispatched in order. -/
structure Accounted (s : State) : Prop where
  keys : decode .start s.typed =
    (keysOf s.dispatched ++ keysOf s.results ++ (decode s.reading s.unread).1,
      (decode s.reading s.unread).2)
  messages : (poppedMessages s.ffi.log).Perm
    (partsOf s.dispatched ++ partsOf s.results ++ held s.ffi.consumer ++ s.withheld)
  withheld : ∀ m ∈ s.withheld, m.isDone = true ∨ Ffi.passesSuppression m.frame.kind = false
  responses : Ffi.responses s.ffi.log = responsesOf s.dispatched ++ responsesOf s.results
  chunks : s.added = chunksOf s.dispatched ++ chunksOf s.results ++ s.chunks

theorem keysOf_append (rs rs' : List Result) : keysOf (rs ++ rs') = keysOf rs ++ keysOf rs' :=
  List.filterMap_append

theorem responsesOf_append (rs rs' : List Result) :
    responsesOf (rs ++ rs') = responsesOf rs ++ responsesOf rs' := List.filterMap_append

theorem partsOf_append (rs rs' : List Result) : partsOf (rs ++ rs') = partsOf rs ++ partsOf rs' :=
  List.flatMap_append

theorem chunksOf_append (rs rs' : List Result) :
    chunksOf (rs ++ rs') = chunksOf rs ++ chunksOf rs' := List.filterMap_append

/-- A round gives away what was held and what it popped: as an answer, held on, or to nothing. -/
theorem round_parts {t : Ffi.Backend} {ring : List Message} {c : Consumer} {aw : Awaited}
    (h : Round t ring c aw) :
    held c ++ aw.popped.toList =
      partsOf (resultsOf aw) ++ held aw.outcome.consumer ++ withheldOf aw := by
  have hloops {c : Consumer} (hc : c.loops = true) : held c = [] := by
    cases c with
    | draining buf parts => cases hc
    | away => rfl
    | looping => rfl
    | asleep => rfl
  cases h with
  | startup loops => rw [hloops loops]; rfl
  | empty loops => rw [hloops loops]; rfl
  | suppressed loops => rw [hloops loops]; rfl
  | chunk loops => rw [hloops loops]; rfl
  | message loops => rw [hloops loops]; rfl
  | done loops =>
    rw [hloops loops]
    split <;> rfl
  | more => simp [held, resultsOf, withheldOf, partsOf, Ffi.Outcome.consumer]
  | cut => simp [held, resultsOf, withheldOf, partsOf, Ffi.Outcome.consumer]
  | dry => simp [held, resultsOf, withheldOf, partsOf, Ffi.Outcome.consumer]

/-- Only suppressed output and a DONE are answered with nothing. -/
theorem round_withheld {t : Ffi.Backend} {ring : List Message} {c : Consumer} {aw : Awaited}
    (h : Round t ring c aw) :
    ∀ m ∈ withheldOf aw, m.isDone = true ∨ Ffi.passesSuppression m.frame.kind = false := by
  intro m hm
  cases h with
  | suppressed _ _ _ _ kind =>
    rw [List.mem_singleton.mp hm]
    exact .inr kind
  | done _ _ _ kind =>
    simp only [withheldOf] at hm
    split at hm
    · rw [List.mem_singleton.mp hm]
      exact .inl kind
    · cases hm
  | startup => cases hm
  | empty => cases hm
  | chunk => cases hm
  | message => cases hm
  | more => cases hm
  | cut => cases hm
  | dry => cases hm

theorem log_awaited (s : Ffi.State) (aw : Awaited) :
    poppedMessages (s.awaited aw).log = poppedMessages s.log ++ aw.popped.toList ∧
      Ffi.responses (s.awaited aw).log = Ffi.responses s.log ++ responsesOf (resultsOf aw) := by
  obtain ⟨t, ring, submitted, popped, outcome⟩ := aw
  cases popped <;> cases outcome <;>
    simp [poppedMessages, Ffi.responses, responsesOf, resultsOf, Ffi.State.awaited,
      Ffi.Outcome.events, List.filterMap_append]

/-- A step of the R side is a round, or pops, returns and holds nothing new. -/
theorem ffi_step_cases {cap : Nat} {s s' : Ffi.State} {a : Ffi.Action}
    (h : Ffi.step cap s a = some s') :
    (∃ aw, awaited s a = some aw ∧ Round s.t s.ring s.consumer aw ∧ s' = s.awaited aw) ∨
      awaited s a = none ∧ poppedMessages s'.log = poppedMessages s.log ∧
        Ffi.responses s'.log = Ffi.responses s.log ∧ held s'.consumer = held s.consumer := by
  cases a with
  | loop =>
    simp only [Ffi.step, Option.ite_none_right_eq_some, Option.some.injEq] at h
    obtain ⟨hc, rfl⟩ := h
    exact .inl ⟨_, rfl, Ffi.awaitLoop_round _ _ (Consumer.loops_of hc), rfl⟩
  | drain =>
    cases hc : s.consumer with
    | draining buf parts =>
      simp only [Ffi.step, hc, Option.some.injEq] at h
      subst h
      exact .inl ⟨_, by rw [awaited, hc], Ffi.awaitDrain_round _ _ _ _, rfl⟩
    | away => simp [Ffi.step, hc] at h
    | looping => simp [Ffi.step, hc] at h
    | asleep => simp [Ffi.step, hc] at h
  | await =>
    simp only [Ffi.step, Option.ite_none_right_eq_some, Option.some.injEq] at h
    obtain ⟨hc, rfl⟩ := h
    exact .inr ⟨rfl, rfl, rfl, by rw [hc]; rfl⟩
  | cancel =>
    simp only [Ffi.step, Option.ite_none_right_eq_some, Option.some.injEq] at h
    obtain ⟨hc, rfl⟩ := h
    exact .inr ⟨rfl, rfl, rfl, by rw [hc]; rfl⟩
  | submit code =>
    simp only [Ffi.step, Option.ite_none_right_eq_some, Option.some.injEq] at h
    obtain ⟨-, rfl⟩ := h
    exact .inr ⟨rfl, rfl, rfl, rfl⟩
  | backgroundSubmit code =>
    simp only [Ffi.step, Option.ite_none_right_eq_some, Option.some.injEq] at h
    obtain ⟨-, rfl⟩ := h
    exact .inr ⟨rfl, rfl, rfl, rfl⟩
  | initialised output =>
    simp only [Ffi.step, Option.ite_none_right_eq_some, Option.some.injEq] at h
    obtain ⟨-, rfl⟩ := h
    exact .inr ⟨rfl, rfl, rfl, rfl⟩
  | take =>
    simp only [Ffi.step] at h
    split at h
    · cases h
      exact .inr ⟨rfl, rfl, rfl, rfl⟩
    · cases h
  | reset =>
    simp only [Ffi.step] at h
    split at h
    · cases h
      exact .inr ⟨rfl, by simp [poppedMessages], by simp [Ffi.responses], rfl⟩
    · cases h
  | push frame =>
    simp only [Ffi.step] at h
    split at h
    · split at h
      · cases h
      · cases h
        exact .inr ⟨rfl, rfl, rfl, rfl⟩
    · cases h
  | finish =>
    simp only [Ffi.step] at h
    split at h
    · cases h
      exact .inr ⟨rfl, rfl, rfl, rfl⟩
    · cases h

section
variable {cap : Nat} {s : State}

theorem accounted_start : Accounted start :=
  ⟨rfl, List.Perm.refl _, nofun, rfl, rfl⟩

theorem Accounted.typed (h : Accounted s) (item : Item) :
    Accounted { s with unread := s.unread ++ [item], typed := s.typed ++ [item] } where
  keys := by
    show decode .start (s.typed ++ [item]) = _
    rw [decode_append, h.keys, decode_append s.reading]
    simp only [List.append_assoc]
  messages := h.messages
  withheld := h.withheld
  responses := h.responses
  chunks := h.chunks

theorem Accounted.added (h : Accounted s) (r : ResponseChunk) :
    Accounted { s with chunks := s.chunks ++ [r], added := s.added ++ [r] } where
  keys := h.keys
  messages := h.messages
  withheld := h.withheld
  responses := h.responses
  chunks := by
    show s.added ++ [r] = _ ++ (s.chunks ++ [r])
    rw [h.chunks, List.append_assoc]

/-- A fiber other than R's finishes with what was next of the input or of the stream. -/
theorem Accounted.finishes (h : Accounted s) {r : Result} {unread : List Item} {reading : Reading}
    {chunks : List ResponseChunk} (hr : r.isResponse = false)
    (hkeys : decode s.reading s.unread =
      (keysOf [r] ++ (decode reading unread).1, (decode reading unread).2))
    (hchunks : s.chunks = chunksOf [r] ++ chunks) :
    Accounted { s with unread, reading, chunks, results := s.results ++ [r] } where
  keys := by
    show decode .start s.typed = (_ ++ keysOf (s.results ++ [r]) ++ _, _)
    rw [h.keys, hkeys, keysOf_append]
    simp only [List.append_assoc]
  messages := by
    have hnone : partsOf [r] = [] := by
      cases r with
      | response => cases hr
      | key | ai | resize => rfl
    show (poppedMessages s.ffi.log).Perm (_ ++ partsOf (s.results ++ [r]) ++ _ ++ _)
    rw [partsOf_append, hnone, List.append_nil]
    exact h.messages
  withheld := h.withheld
  responses := by
    have hnone : responsesOf [r] = [] := by
      cases r with
      | response => cases hr
      | key | ai | resize => rfl
    show Ffi.responses s.ffi.log = _ ++ responsesOf (s.results ++ [r])
    rw [responsesOf_append, hnone, List.append_nil]
    exact h.responses
  chunks := by
    show s.added = _ ++ chunksOf (s.results ++ [r]) ++ chunks
    rw [chunksOf_append, h.chunks, hchunks]
    simp only [List.append_assoc]

theorem Accounted.reads (h : Accounted s) {item : Item} {rest : List Item} {r : Reading}
    (hunread : s.unread = item :: rest) (hr : s.reading.take item = .more r) :
    Accounted { s with unread := rest, reading := r } where
  keys := by
    have hkeys := h.keys
    rw [hunread, decode, hr] at hkeys
    exact hkeys
  messages := h.messages
  withheld := h.withheld
  responses := h.responses
  chunks := h.chunks

/-- A round of `await_response`. -/
theorem Accounted.rounds (h : Accounted s) {aw : Awaited}
    (hround : Round s.ffi.t s.ffi.ring s.ffi.consumer aw) :
    Accounted { s with
      ffi := s.ffi.awaited aw, results := s.results ++ resultsOf aw
      withheld := s.withheld ++ withheldOf aw } where
  keys := by
    have hnone : keysOf (resultsOf aw) = [] := by
      rw [resultsOf]
      split <;> rfl
    show decode .start s.typed = (_ ++ keysOf (s.results ++ resultsOf aw) ++ _, _)
    rw [keysOf_append, hnone, List.append_nil]
    exact h.keys
  messages := by
    show (poppedMessages (s.ffi.awaited aw).log).Perm
      (_ ++ partsOf (s.results ++ resultsOf aw) ++ held aw.outcome.consumer ++
        (s.withheld ++ withheldOf aw))
    rw [(log_awaited s.ffi aw).1, partsOf_append, List.perm_iff_count]
    intro m
    have hold := List.perm_iff_count.mp h.messages m
    have hnew := congrArg (List.count m) (round_parts hround)
    simp only [List.count_append] at hold hnew ⊢
    omega
  withheld := by
    intro m hm
    obtain hold | hnew := List.mem_append.mp hm
    · exact h.withheld m hold
    · exact round_withheld hround m hnew
  responses := by
    show Ffi.responses (s.ffi.awaited aw).log = _ ++ responsesOf (s.results ++ resultsOf aw)
    rw [(log_awaited s.ffi aw).2, h.responses, responsesOf_append, List.append_assoc]
  chunks := by
    have hnone : chunksOf (resultsOf aw) = [] := by
      rw [resultsOf]
      split <;> rfl
    show s.added = _ ++ chunksOf (s.results ++ resultsOf aw) ++ _
    rw [chunksOf_append, hnone, List.append_nil]
    exact h.chunks

theorem Accounted.ffi (h : Accounted s) {a : Ffi.Action} {ffi : Ffi.State}
    (hs : Ffi.step cap s.ffi a = some ffi) : Accounted (s.moved a ffi) := by
  obtain ⟨aw, haw, hround, rfl⟩ | ⟨hnone, hpopped, hresponses, hheld⟩ := ffi_step_cases hs
  · rw [State.moved, haw]
    exact h.rounds hround
  · rw [State.moved, hnone]
    exact ⟨h.keys, by rw [hpopped, hheld]; exact h.messages, h.withheld,
      by rw [hresponses]; exact h.responses, h.chunks⟩

omit s in
theorem resizes_nothing {rs : List Result} (h : ∀ r ∈ rs, r.isResize = true) :
    keysOf rs = [] ∧ partsOf rs = [] ∧ responsesOf rs = [] ∧ chunksOf rs = [] := by
  induction rs with
  | nil => exact ⟨rfl, rfl, rfl, rfl⟩
  | cons r rs ih =>
    have hr := h r List.mem_cons_self
    have hrs := ih fun r' hr' => h r' (List.mem_cons_of_mem r hr')
    cases r with
    | resize width height => exact hrs
    | key | response | ai => cases hr

/-- The end of a round whose losers have taken nothing. -/
theorem Accounted.dispatches (h : Accounted s) {winner : Result} {rest : List Result}
    (hresults : s.results = [winner] ++ rest) (hyielded : s.ffi.consumer.yielded = true)
    (hreading : s.reading = .start) (hrest : ∀ r ∈ rest, r.isResize = true) :
    Accounted { s with
      ffi := { s.ffi with consumer := .away }, reading := .start, results := []
      dispatched := s.dispatched ++ [winner] } := by
  obtain ⟨hkeys, hparts, hresponses, hchunks⟩ := resizes_nothing hrest
  have hheld : held s.ffi.consumer = [] := by
    cases hc : s.ffi.consumer with
    | draining buf parts =>
      rw [hc] at hyielded
      cases hyielded
    | away | looping | asleep => rfl
  obtain ⟨h₁, h₂, h₃, h₄, h₅⟩ := h
  rw [hresults, keysOf_append, hkeys, List.append_nil, hreading] at h₁
  rw [hresults, partsOf_append, hparts, List.append_nil, hheld] at h₂
  rw [hresults, responsesOf_append, hresponses, List.append_nil] at h₄
  rw [hresults, chunksOf_append, hchunks, List.append_nil] at h₅
  refine ⟨?_, ?_, h₃, ?_, ?_⟩
  · show decode .start s.typed = (keysOf (s.dispatched ++ [winner]) ++ [] ++ _, _)
    rw [keysOf_append, List.append_nil]
    exact h₁
  · show (poppedMessages s.ffi.log).Perm (partsOf (s.dispatched ++ [winner]) ++ [] ++ [] ++ _)
    rw [partsOf_append, List.append_nil]
    exact h₂
  · show Ffi.responses s.ffi.log = responsesOf (s.dispatched ++ [winner]) ++ []
    rw [responsesOf_append, List.append_nil]
    exact h₄
  · show s.added = chunksOf (s.dispatched ++ [winner]) ++ [] ++ s.chunks
    rw [chunksOf_append, List.append_nil]
    exact h₅

theorem Accounted.step {s' : State} {a : Action} (h : Accounted s)
    (hs : Restrict Spares (Steps cap) s a s') : Accounted s' := by
  obtain ⟨hspares, hs⟩ := hs
  cases a with
  | typed item =>
    cases hs
    exact h.typed item
  | added r =>
    cases hs
    exact h.added r
  | ffi a =>
    simp only [Steps, EventLoop.step, Option.ite_none_right_eq_some, Option.map_eq_some_iff] at hs
    obtain ⟨-, ffi, hffi, rfl⟩ := hs
    exact h.ffi hffi
  | read =>
    simp only [Steps, EventLoop.step, Option.ite_none_right_eq_some] at hs
    obtain ⟨-, hs⟩ := hs
    cases hunread : s.unread with
    | nil =>
      rw [hunread] at hs
      cases hs
    | cons item rest =>
      rw [hunread] at hs
      dsimp only at hs
      cases htake : s.reading.take item with
      | key k =>
        rw [htake] at hs
        cases hs
        refine h.finishes rfl ?_ rfl
        rw [hunread, decode, htake]
        rfl
      | more r =>
        rw [htake] at hs
        cases hs
        exact h.reads hunread htake
  | take =>
    simp only [Steps, EventLoop.step, Option.ite_none_right_eq_some] at hs
    obtain ⟨-, hs⟩ := hs
    cases hchunks : s.chunks with
    | nil =>
      rw [hchunks] at hs
      cases hs
    | cons r rest =>
      rw [hchunks] at hs
      cases hs
      exact h.finishes rfl rfl hchunks
  | resize width height =>
    simp only [Steps, EventLoop.step, Option.ite_none_right_eq_some, Option.some.injEq] at hs
    obtain ⟨-, rfl⟩ := hs
    exact h.finishes rfl rfl rfl
  | dispatch =>
    simp only [Steps, EventLoop.step, Option.ite_none_right_eq_some] at hs
    obtain ⟨hyielded, hs⟩ := hs
    obtain ⟨hreading, hrest⟩ := hspares
    cases hresults : s.results with
    | nil =>
      rw [hresults] at hs
      cases hs
    | cons winner rest =>
      rw [hresults] at hs hrest
      cases hs
      exact h.dispatches hresults hyielded hreading hrest

end

/-- Cursor-up typed and read undisturbed, between two outputs of R. -/
def sparedRun : List Action :=
  [.typed (.byte 27), .ffi (.initialised (bytes "x")), .ffi .await, .ffi .loop, .dispatch,
    .typed (.byte 91), .read, .typed (.byte 65), .read, .read, .dispatch]

/-- Output of R arrives when two of the three bytes of cursor-up have been read. -/
def cutRun : List Action :=
  [.typed (.byte 27), .typed (.byte 91), .typed (.byte 65), .read, .read,
    .ffi (.initialised (bytes "x")), .ffi .await, .ffi .loop, .dispatch, .read, .dispatch]

end EventLoop
end Raoui
