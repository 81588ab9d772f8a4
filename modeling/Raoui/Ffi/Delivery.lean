import Raoui.Ffi.DoneDelivery
import Raoui.Lib.Coalesce

/-!
# Raoui.Ffi.Delivery

`await_response` as a pump: over the course of one user evaluation it hands on what the worker
pushed, in order, up to the grouping of adjacent output.

* `mergeStdout`: adjacent `Stdout` chunks concatenated.
* `Delivering`: returned, held by `drain` and still queued, together, are what was pushed.
* `responses_eq_pushed`: the sequence of responses up to `Done`, and the delivery of the stash.
-/

namespace Raoui
namespace Ffi

open Transition (Run Restrict)
open Raoui.Ring (totalSize)

/-! ## Adjacent output -/

def joinStdout : ResponseChunk → ResponseChunk → Option ResponseChunk
  | .stdout a, .stdout b => some (.stdout (a ++ b))
  | _, _ => none

/-- Adjacent `Stdout` chunks concatenated. -/
def mergeStdout (rs : List ResponseChunk) : List ResponseChunk := Coalesce.coalesce joinStdout rs

theorem joinStdout_some {x y z : ResponseChunk} (h : joinStdout x y = some z) :
    ∃ a b, x = .stdout a ∧ y = .stdout b ∧ z = .stdout (a ++ b) := by
  unfold joinStdout at h
  split at h
  · cases h
    exact ⟨_, _, rfl, rfl, rfl⟩
  · cases h

theorem joinStdout_lawful : Coalesce.Lawful joinStdout := by
  constructor
  case assoc =>
    intro x y z xy yz h h'
    obtain ⟨a, b, rfl, rfl, rfl⟩ := joinStdout_some h
    obtain ⟨b', c, hb, rfl, rfl⟩ := joinStdout_some h'
    cases hb
    exact ⟨_, rfl, by simp [joinStdout]⟩
  case apart =>
    intro x y z xy h h'
    obtain ⟨a, b, rfl, rfl, rfl⟩ := joinStdout_some h
    cases z <;> first | rfl | cases h'

theorem mergeStdout_chunks (pre post : List ResponseChunk) (a b : Bytes) :
    mergeStdout (pre ++ .stdout a :: .stdout b :: post) =
      mergeStdout (pre ++ .stdout (a ++ b) :: post) :=
  Coalesce.coalesce_join joinStdout_lawful rfl pre post

theorem mergeStdout_append {rs rs' : List ResponseChunk} (h : mergeStdout rs = mergeStdout rs')
    (tail : List ResponseChunk) : mergeStdout (rs ++ tail) = mergeStdout (rs' ++ tail) :=
  Coalesce.append_congr joinStdout_lawful h tail

theorem Message.response_chunk {m : Message} (h : m.isChunk = true) :
    m.response = .stdout m.frame.payload := by
  simp only [Message.isChunk, Bool.or_eq_true, decide_eq_true_eq] at h
  rcases h with h | h <;> rw [Message.response, h] <;> rfl

theorem Message.response_done {m : Message} (h : m.isDone = true) : m.response = .done := by
  rw [Message.response, show m.frame.kind = 5 from of_decide_eq_true h]
  rfl

/-! ## What was pushed -/

def Action.message : Action → Option ResponseChunk
  | .push frame => some (mapKind frame.kind frame.payload)
  | .finish => some .done
  | _ => none

def pushedResponses (as : List Action) : List ResponseChunk := as.filterMap Action.message

/-- The worker's pushes and the calls of `await_response`; a push evicts nothing. -/
def Unevicted (cap : Nat) (s : State) : Action → Prop
  | .push frame => totalSize (s.ring.map Message.frame) + frame.size ≤ cap
  | .finish => totalSize (s.ring.map Message.frame) + doneFrame.size ≤ cap
  | .await => True
  | .cancel => True
  | .loop => True
  | .drain => True
  | _ => False

theorem makeRoom_of_fits {cap need : Nat} {q : List Message}
    (h : totalSize (q.map Message.frame) + need ≤ cap) : makeRoom cap need q = q := by
  cases q with
  | nil => rfl
  | cons m q => exact if_pos h

theorem pushMessage_of_fits {cap : Nat} {q : List Message} {m : Message}
    (h : totalSize (q.map Message.frame) + m.frame.size ≤ cap) : pushMessage cap q m = q ++ [m] := by
  rw [pushMessage, if_pos (Nat.le_trans (Nat.le_add_left _ _) h), makeRoom_of_fits h]

/-! ## The invariant -/

/-- The output `drain` has taken and not returned. -/
def Consumer.held : Consumer → List ResponseChunk
  | .draining buf _ => [.stdout buf]
  | _ => []

theorem Consumer.held_of_loops {c : Consumer} (h : c.loops = true) : c.held = [] := by
  cases c with
  | draining => cases h
  | _ => rfl

theorem Consumer.held_of_yielded {c : Consumer} (h : c.yielded = true) : c.held = [] := by
  cases c with
  | draining => cases h
  | _ => rfl

def undelivered (s : State) : List ResponseChunk :=
  s.consumer.held ++ (s.t.queued s.ring).map Message.response

/-- `rs` has been returned since `base`; `Done` is the last of it, if it has been returned. -/
structure Delivering (s : State) (cur : Current) (base rs pushed : List ResponseChunk) : Prop where
  returned : responses s.log = base ++ rs
  merged : mergeStdout (rs ++ undelivered s) = mergeStdout pushed
  pending : s.t.pending = []
  flag : s.t.suppressing = false
  startup : s.t.pendingStartupOutput = none
  stashed : ∀ m ∈ s.t.stashed, m.isChunk = false
  progress : (∃ e, cur = .evaluating e ∧ .done ∉ rs) ∨
    (cur = .resting ∧ ∃ rs', rs = rs' ++ [.done] ∧ .done ∉ rs')

variable {cap : Nat} {s s' : State} {a : Action} {cur cur' : Current}
  {base rs pushed : List ResponseChunk}

def Outcome.responses : Outcome → List ResponseChunk
  | .returned r _ => [r]
  | _ => []

theorem responses_awaited (s : State) (aw : Awaited) :
    responses (s.awaited aw).log = responses s.log ++ aw.outcome.responses := by
  have hpop : responses (aw.popped.toList.map .popped) = [] := by
    cases aw.popped <;> rfl
  have hout : responses aw.outcome.events = aw.outcome.responses := by
    cases aw.outcome <;> rfl
  show responses (s.log ++ aw.popped.toList.map .popped ++ aw.outcome.events) = _
  rw [responses, List.filterMap_append, List.filterMap_append]
  rw [responses] at hpop hout
  rw [hpop, hout, List.append_nil]
  rfl

/-- One round moves responses along, and joins adjacent output at most. -/
theorem Round.delivers {t : Backend} {ring : List Message} {c : Consumer} {aw : Awaited}
    (h : Round t ring c aw) (flag : t.suppressing = false) (startup : t.pendingStartupOutput = none)
    (hd : ∀ {buf parts}, c = .draining buf parts → t.stashed = none)
    (unclosed : ∀ m, aw.popped = some m → m.isDone = false) (pre : List ResponseChunk) :
    mergeStdout (pre ++ aw.outcome.responses ++
        (aw.outcome.consumer.held ++ (aw.t.queued aw.ring).map Message.response)) =
      mergeStdout (pre ++ (c.held ++ (t.queued ring).map Message.response)) := by
  cases h with
  | startup _ ho =>
    rw [startup] at ho
    cases ho
  | empty loops _ queue =>
    have hstash : t.stashed = none := by
      simp only [Backend.queued, List.append_eq_nil_iff, Option.toList_eq_nil_iff] at queue
      exact queue.1
    rw [queue, Consumer.held_of_loops loops]
    simp [Outcome.responses, Outcome.consumer, Consumer.held, Backend.queued, hstash]
  | suppressed _ _ _ hsup =>
    rw [flag] at hsup
    cases hsup
  | chunk loops _ queue _ kind =>
    rw [queue, Consumer.held_of_loops loops]
    simp [Outcome.responses, Outcome.consumer, Consumer.held, Backend.queued,
      Message.response_chunk kind]
  | message loops _ queue =>
    rw [queue, Consumer.held_of_loops loops]
    simp [Outcome.responses, Outcome.consumer, Consumer.held, Backend.queued]
  | done _ _ _ kind =>
    rw [unclosed _ rfl] at kind
    cases kind
  | more queue kind =>
    rename_i buf parts m ring'
    have := mergeStdout_chunks pre (ring'.map Message.response) buf m.frame.payload
    simp only [Outcome.responses, Outcome.consumer, Consumer.held, Backend.queued, hd rfl, queue,
      Option.toList_none, List.nil_append, List.append_nil, List.map_cons,
      Message.response_chunk kind, List.cons_append]
    exact this.symm
  | cut queue =>
    simp [Outcome.responses, Outcome.consumer, Consumer.held, Backend.queued, hd rfl, queue]
  | dry queue =>
    simp [Outcome.responses, Outcome.consumer, Consumer.held, Backend.queued, hd rfl, queue]

theorem Round.stashed {t : Backend} {ring : List Message} {c : Consumer} {aw : Awaited}
    (h : Round t ring c aw) (hs : ∀ m ∈ t.stashed, m.isChunk = false)
    (unclosed : ∀ m, aw.popped = some m → m.isDone = false) :
    ∀ m ∈ aw.t.stashed, m.isChunk = false := by
  cases h with
  | startup => exact hs
  | empty => exact hs
  | done _ _ _ kind =>
    rw [unclosed _ rfl] at kind
    cases kind
  | more => exact hs
  | cut _ kind =>
    rintro _ ⟨⟩
    exact kind
  | _ => exact nofun

theorem Round.startup_none {t : Backend} {ring : List Message} {c : Consumer} {aw : Awaited}
    (h : Round t ring c aw) (startup : t.pendingStartupOutput = none)
    (unclosed : ∀ m, aw.popped = some m → m.isDone = false) :
    aw.t.pendingStartupOutput = none := by
  cases h with
  | startup => rfl
  | done _ _ _ kind =>
    rw [unclosed _ rfl] at kind
    cases kind
  | _ => exact startup

/-- A round that pops no DONE does not return `Done`, and with nothing queued returns nothing. -/
theorem Round.responses_ne_done {t : Backend} {ring : List Message} {c : Consumer} {aw : Awaited}
    (h : Round t ring c aw) (unclosed : ∀ m, aw.popped = some m → m.isDone = false) :
    .done ∉ aw.outcome.responses := by
  cases h with
  | message _ _ _ _ _ kind =>
    intro hmem
    rw [Outcome.responses, List.mem_singleton] at hmem
    refine Message.response_ne_done kind [] ?_
    rw [← hmem]
    trivial
  | done _ _ _ kind =>
    rw [unclosed _ rfl] at kind
    cases kind
  | _ => simp [Outcome.responses]

theorem Round.rests {t : Backend} {ring : List Message} {c : Consumer} {aw : Awaited}
    (h : Round t ring c aw) (startup : t.pendingStartupOutput = none)
    (hd : ∀ {buf parts}, c ≠ .draining buf parts) (queue : t.queued ring = []) :
    aw.outcome.responses = [] := by
  cases h with
  | startup _ ho =>
    rw [startup] at ho
    cases ho
  | empty => rfl
  | suppressed => rfl
  | chunk => rfl
  | message _ _ hq =>
    rw [queue] at hq
    cases hq
  | done _ _ hq =>
    rw [queue] at hq
    cases hq
  | more => exact absurd rfl hd
  | cut => exact absurd rfl hd
  | dry => exact absurd rfl hd

theorem Unevicted.job (h : Unevicted cap s a) : a.job = none := by
  cases a <;> first | rfl | cases h

/-- A step that returns, takes and pushes nothing. -/
theorem Delivering.same (h : Delivering s cur base rs pushed) (hlog : s'.log = s.log)
    (hheld : s'.consumer.held = s.consumer.held) (ht : s'.t = s.t) (hring : s'.ring = s.ring) :
    Delivering s' cur base rs pushed := by
  refine ⟨?_, ?_, ?_, ?_, ?_, ?_, h.progress⟩
  · rw [hlog]
    exact h.returned
  · rw [undelivered, hheld, ht, hring]
    exact h.merged
  · rw [ht]
    exact h.pending
  · rw [ht]
    exact h.flag
  · rw [ht]
    exact h.startup
  · rw [ht]
    exact h.stashed

theorem Delivering.pumped {aw : Awaited} (h : Delivering s cur base rs pushed)
    (hc : Coupled s cur) (round : Round s.t s.ring s.consumer aw)
    (unclosed : ∀ m, aw.popped = some m → m.isDone = false) :
    Delivering (s.awaited aw) cur base (rs ++ aw.outcome.responses) pushed := by
  obtain ⟨hsup, hpending, -⟩ := round.frame unclosed
  constructor
  case returned => rw [responses_awaited, h.returned, List.append_assoc]
  case merged =>
    exact (round.delivers h.flag h.startup hc.unstashed unclosed rs).trans h.merged
  case pending => exact hpending.trans h.pending
  case flag => exact hsup.trans h.flag
  case startup => exact round.startup_none h.startup unclosed
  case stashed => exact round.stashed h.stashed unclosed
  case progress =>
    rcases h.progress with ⟨e, rfl, hno⟩ | ⟨rfl, rs', rfl, hno⟩
    · refine .inl ⟨e, rfl, fun hmem => ?_⟩
      rcases List.mem_append.mp hmem with hmem | hmem
      · exact hno hmem
      · exact round.responses_ne_done unclosed hmem
    · -- nothing is under way, so nothing is queued
      rw [round.rests h.startup (hc.not_draining nofun) (hc.queue_nil nofun), List.append_nil]
      exact .inr ⟨rfl, rs', rfl, hno⟩

theorem Delivering.push {m : Message} {worker : Worker} (h : Delivering s cur base rs pushed)
    (hroom : totalSize (s.ring.map Message.frame) + m.frame.size ≤ cap) :
    Delivering { s with worker := worker, ring := pushMessage cap s.ring m } cur base rs
      (pushed ++ [m.response]) := by
  refine ⟨h.returned, ?_, h.pending, h.flag, h.startup, h.stashed, h.progress⟩
  have hmerged := mergeStdout_append h.merged [m.response]
  rw [← hmerged, pushMessage_of_fits hroom]
  simp [undelivered, Backend.queued]

/-- The DONE of the only evaluation: it is answered, and nothing is left. -/
theorem Delivering.closed {m : Message} {r : Backend × Option Job}
    (h : Delivering s (.evaluating m.owner) base rs pushed)
    (startup : s.t.pendingStartupOutput = none) (queue : s.t.queued s.ring = [m])
    (kind : m.isDone = true) (loops : s.consumer.loops = true)
    (flush : Flushes { s.t with stashed := none, busy := false, suppressing := false } r cur) :
    Delivering (s.awaited ⟨r.1, [], r.2, some m,
      if r.1.busy || s.t.suppressing then .again else .returned .done [m]⟩) cur base
      (rs ++ [.done]) pushed := by
  cases flush with
  | next hp =>
    change s.t.pending = _ at hp
    rw [h.pending] at hp
    cases hp
  | rest =>
    rw [h.flag]
    refine ⟨?_, ?_, h.pending, rfl, startup, nofun, ?_⟩
    · rw [responses_awaited, h.returned, List.append_assoc]
      rfl
    · have hund : undelivered s = [.done] := by
        rw [undelivered, queue, Consumer.held_of_loops loops, List.nil_append, List.map_singleton,
          Message.response_done kind]
      rw [← h.merged, hund]
      exact congrArg mergeStdout (List.append_nil _)
    · rcases h.progress with ⟨_, -, hno⟩ | ⟨he, -⟩
      · exact .inr ⟨rfl, rs, rfl, hno⟩
      · cases he

theorem Delivering.change (h : Delivering s cur base rs pushed) (hc : Coupled s cur)
    (hch : Change cap s cur a s' cur') (hok : Unevicted cap s a) :
    ∃ new, Delivering s' cur' base (rs ++ new) (pushed ++ a.message.toList) := by
  have hjob := hok.job
  cases hch with
  | queued _ submits =>
    rw [hjob] at submits
    cases submits
  | handed _ submits =>
    rw [hjob] at submits
    cases submits
  | opened => cases hok
  | called calls yielded loops =>
    refine ⟨[], ?_⟩
    rw [show a.message = none by rcases calls with rfl | rfl <;> rfl, Option.toList_none,
      List.append_nil, List.append_nil]
    refine h.same rfl ?_ rfl rfl
    rw [Consumer.held_of_yielded yielded]
    rcases loops with rfl | rfl <;> rfl
  | pumped pumps round unclosed =>
    rw [show a.message = none by rcases pumps with rfl | rfl <;> rfl, Option.toList_none,
      List.append_nil]
    exact ⟨_, h.pumped hc round unclosed⟩
  | closed _ loops startup queue kind flush =>
    refine ⟨[.done], ?_⟩
    rw [show Action.message .loop = none from rfl, Option.toList_none, List.append_nil]
    exact h.closed startup queue kind loops flush
  | took =>
    rcases h.progress with ⟨e, he, -⟩ | ⟨he, -⟩ <;> cases he
  | started =>
    rcases h.progress with ⟨e, he, -⟩ | ⟨he, -⟩ <;> cases he
  | pushed =>
    refine ⟨[], ?_⟩
    rw [List.append_nil]
    exact h.push hok
  | finished =>
    refine ⟨[], ?_⟩
    rw [List.append_nil]
    exact h.push hok

/-- A step returns some of what was undelivered and adds what the worker pushes. -/
theorem Delivering.flows (h : Delivering s cur base rs pushed) (hc : Coupled s cur)
    (hch : Change cap s cur a s' cur') (hok : Unevicted cap s a) :
    ∃ new, responses s'.log = responses s.log ++ new ∧ ∀ pre,
      mergeStdout (pre ++ new ++ undelivered s') =
        mergeStdout (pre ++ (undelivered s ++ a.message.toList)) := by
  have hjob := hok.job
  cases hch with
  | queued _ submits =>
    rw [hjob] at submits
    cases submits
  | handed _ submits =>
    rw [hjob] at submits
    cases submits
  | opened => cases hok
  | @called _ _ consumer calls yielded loops =>
    refine ⟨[], (List.append_nil _).symm, fun pre => ?_⟩
    have hheld : consumer.held = s.consumer.held := by
      rw [Consumer.held_of_yielded yielded]
      rcases loops with rfl | rfl <;> rfl
    rw [show a.message = none by rcases calls with rfl | rfl <;> rfl, Option.toList_none,
      List.append_nil, List.append_nil]
    show mergeStdout (pre ++ (consumer.held ++ _)) = _
    rw [hheld]
    rfl
  | @pumped _ _ aw pumps round unclosed =>
    refine ⟨_, responses_awaited s aw, fun pre => ?_⟩
    rw [show a.message = none by rcases pumps with rfl | rfl <;> rfl, Option.toList_none,
      List.append_nil]
    exact round.delivers h.flag h.startup hc.unstashed unclosed pre
  | @closed m r _ _ loops startup queue kind flush =>
    cases flush with
    | next hp =>
      change s.t.pending = _ at hp
      rw [h.pending] at hp
      cases hp
    | rest =>
      rw [h.flag]
      refine ⟨_, responses_awaited s _, fun pre => ?_⟩
      have hund : undelivered s = [.done] := by
        rw [undelivered, queue, Consumer.held_of_loops loops, List.nil_append, List.map_singleton,
          Message.response_done kind]
      rw [hund]
      exact congrArg mergeStdout (List.append_nil _)
  | took =>
    rcases h.progress with ⟨e, he, -⟩ | ⟨he, -⟩ <;> cases he
  | started =>
    rcases h.progress with ⟨e, he, -⟩ | ⟨he, -⟩ <;> cases he
  | pushed =>
    refine ⟨[], (List.append_nil _).symm, fun pre => ?_⟩
    rw [undelivered, pushMessage_of_fits hok]
    simp [undelivered, Backend.queued, Action.message, Message.response]
  | finished =>
    refine ⟨[], (List.append_nil _).symm, fun pre => ?_⟩
    rw [undelivered, pushMessage_of_fits hok]
    simp [undelivered, Backend.queued, Action.message, Message.response, doneFrame, kindDone,
      mapKind]

theorem delivering_run {as : List Action} (hc : Coupled s cur)
    (h : Delivering s cur base rs pushed) (hrun : Run (Restrict (Unevicted cap) (Steps cap)) s as s') :
    ∃ cur' new, Coupled s' cur' ∧
      Delivering s' cur' base (rs ++ new) (pushed ++ pushedResponses as) := by
  induction hrun generalizing cur rs pushed with
  | nil => exact ⟨cur, [], hc, by simpa [pushedResponses] using h⟩
  | @cons s s₁ s' a as hs _ ih =>
    obtain ⟨cur₁, hc₁, hch⟩ := hc.step hs.2
    obtain ⟨new₁, h₁⟩ := h.change hc hch hs.1
    obtain ⟨cur', new, hc', h'⟩ := ih hc₁ h₁
    refine ⟨cur', new₁ ++ new, hc', ?_⟩
    have : pushedResponses (a :: as) = a.message.toList ++ pushedResponses as := by
      cases hm : a.message <;> simp [pushedResponses, hm]
    rw [this, ← List.append_assoc, ← List.append_assoc]
    exact h'

/-! ## The stash -/

/-- The stash is the next thing delivered: every step keeps it and returns nothing, or returns it. -/
def StashNext (cap : Nat) (s : State) (m : Message) : Prop :=
  ∀ a s', Unevicted cap s a → Steps cap s a s' →
    (s'.t.stashed = some m ∧ responses s'.log = responses s.log) ∨
      responses s'.log = responses s.log ++ [m.response]

theorem Round.stash_next {t : Backend} {ring : List Message} {c : Consumer} {aw : Awaited}
    {m : Message} (h : Round t ring c aw) (flag : t.suppressing = false)
    (startup : t.pendingStartupOutput = none) (hs : t.stashed = some m) (kind : m.isChunk = false)
    (hd : ∀ {buf parts}, c = .draining buf parts → t.stashed = none)
    (unclosed : ∀ m, aw.popped = some m → m.isDone = false) :
    aw.outcome.responses = [m.response] := by
  have hq : t.queued ring = m :: ring := by rw [Backend.queued, hs]; rfl
  cases h with
  | startup _ ho =>
    rw [startup] at ho
    cases ho
  | empty _ _ queue =>
    rw [hq] at queue
    cases queue
  | suppressed _ _ _ hsup =>
    rw [flag] at hsup
    cases hsup
  | chunk _ _ queue _ hchunk =>
    rw [hq] at queue
    cases queue
    rw [kind] at hchunk
    cases hchunk
  | message _ _ queue =>
    rw [hq] at queue
    cases queue
    rfl
  | done _ _ _ hdone =>
    rw [unclosed _ rfl] at hdone
    cases hdone
  | more => rw [hd rfl] at hs; cases hs
  | cut => rw [hd rfl] at hs; cases hs
  | dry => rw [hd rfl] at hs; cases hs

theorem Delivering.stash_next {m : Message} (h : Delivering s cur base rs pushed)
    (hc : Coupled s cur) (hm : s.t.stashed = some m) : StashNext cap s m := by
  intro a s' hok hs
  obtain ⟨cur', -, hch⟩ := hc.step hs
  have hjob := hok.job
  cases hch with
  | queued _ submits =>
    rw [hjob] at submits
    cases submits
  | handed _ submits =>
    rw [hjob] at submits
    cases submits
  | opened => cases hok
  | called => exact .inl ⟨hm, rfl⟩
  | pumped _ round unclosed =>
    refine .inr ?_
    rw [responses_awaited,
      round.stash_next h.flag h.startup hm (h.stashed m hm) hc.unstashed unclosed]
  | @closed m' r _ _ _ _ queue kind flush =>
    refine .inr ?_
    have hm' : m' = m := by
      rw [Backend.queued, hm, Option.toList_some, List.singleton_append, List.cons.injEq] at queue
      exact queue.1.symm
    cases flush with
    | next hp =>
      change s.t.pending = _ at hp
      rw [h.pending] at hp
      cases hp
    | rest =>
      rw [responses_awaited, h.flag, ← hm', Message.response_done kind]
      rfl
  | took => exact .inl ⟨hm, rfl⟩
  | started => cases hok
  | pushed => exact .inl ⟨hm, rfl⟩
  | finished => exact .inl ⟨hm, rfl⟩

/-! ## From the start of the evaluation -/

def Flagged (s : State) : Prop := ∃ cur, Coupled s cur ∧ Suppress s.t cur

theorem flagged_start : Flagged start := ⟨.resting, coupled_start, fun _ => rfl, nofun, nofun⟩

theorem Flagged.step (h : Flagged s) (hs : Steps cap s a s') : Flagged s' := by
  obtain ⟨cur, hc, hsup⟩ := h
  obtain ⟨cur', hc', hch⟩ := hc.step hs
  exact ⟨cur', hc', hsup.change hch⟩

/-- A user evaluation starts with nothing pending and no startup output left. -/
structure Begins (cap : Nat) (s₀ s₁ : State) : Prop where
  reached : ∃ as, Run (Steps cap) start as s₀
  user : ∃ code, s₀.worker = .taken (.user code)
  pending : s₀.t.pending = []
  startup : s₀.t.pendingStartupOutput = none
  reset : Steps cap s₀ .reset s₁

/-- The reset opens the delivery: nothing is on the way and nothing held. -/
theorem Delivering.opens {s₀ : State} {job : Job} (hc : Coupled s₀ (.waiting job))
    (hsup : Suppress s₀.t (.waiting job)) (hu : job.isUser = true)
    (queue : s₀.t.queued s₀.ring = []) (pending : s₀.t.pending = [])
    (startup : s₀.t.pendingStartupOutput = none)
    (hs : s = { s₀ with worker := .running ⟨s₀.evals, job⟩, ring := [], evals := s₀.evals + 1,
                        log := s₀.log ++ [.started ⟨s₀.evals, job⟩] }) :
    Delivering s (.evaluating ⟨s₀.evals, job⟩) (responses s.log) [] [] := by
  subst hs
  have hstash : s₀.t.stashed = none := by
    simp only [Backend.queued, List.append_eq_nil_iff, Option.toList_eq_nil_iff] at queue
    exact queue.1
  have hheld : s₀.consumer.held = [] := by
    cases hcons : s₀.consumer with
    | draining => exact absurd hcons (hc.not_draining fun _ he => by cases he)
    | _ => rfl
  refine ⟨(List.append_nil _).symm, ?_, pending, hsup.user rfl hu, startup, ?_,
    .inl ⟨_, rfl, List.not_mem_nil⟩⟩
  · show mergeStdout ([] ++ (s₀.consumer.held ++ (s₀.t.queued []).map Message.response)) = _
    rw [hheld, Backend.queued, hstash]
    rfl
  · intro m hm
    change m ∈ s₀.t.stashed at hm
    rw [hstash] at hm
    cases hm

theorem Begins.delivering {s₀ s₁ : State} (h : Begins cap s₀ s₁) :
    ∃ cur, Coupled s₁ cur ∧ Delivering s₁ cur (responses s₁.log) [] [] := by
  obtain ⟨as, hrun⟩ := h.reached
  obtain ⟨code, hw⟩ := h.user
  obtain ⟨cur, hc, hsup⟩ := Run.invariant (fun hi hs => hi.step hs) flagged_start hrun
  obtain ⟨cur₁, hc₁, hch⟩ := hc.step h.reset
  refine ⟨cur₁, hc₁, ?_⟩
  cases hch with
  | queued _ submits => cases submits
  | handed _ submits => cases submits
  | called calls => rcases calls with calls | calls <;> cases calls
  | pumped pumps => rcases pumps with pumps | pumps <;> cases pumps
  | @started job worker queue =>
    rw [hw] at worker
    cases worker
    exact .opens hc hsup rfl queue h.pending h.startup rfl

theorem Delivering.finished (h : Delivering s cur base rs pushed) (hc : Coupled s cur)
    (hdone : .done ∈ rs) :
    (∃ rs', rs = rs' ++ [.done] ∧ .done ∉ rs') ∧ mergeStdout rs = mergeStdout pushed := by
  rcases h.progress with ⟨_, -, hno⟩ | ⟨rfl, hrs⟩
  · exact absurd hdone hno
  · refine ⟨hrs, ?_⟩
    have hund : undelivered s = [] := by
      rw [undelivered, hc.queue_nil nofun]
      cases hcons : s.consumer with
      | draining => exact absurd hcons (hc.not_draining nofun)
      | _ => rfl
    rw [← h.merged, hund, List.append_nil]

/-- For every schedule of pushes and calls, what has been returned since the evaluation started,
followed by what is still on the way, is what was pushed, up to the grouping of adjacent output.
Up to `Done`, that is the sequence of responses alone. The stash is the next thing delivered. -/
theorem responses_eq_pushed {s₀ s₁ : State} {as : List Action} (hbegin : Begins cap s₀ s₁)
    (h : Run (Restrict (Unevicted cap) (Steps cap)) s₁ as s) :
    ∃ rs, responses s.log = responses s₁.log ++ rs ∧
      mergeStdout (rs ++ undelivered s) = mergeStdout (pushedResponses as) ∧
      (.done ∈ rs → (∃ rs', rs = rs' ++ [.done] ∧ .done ∉ rs') ∧
        mergeStdout rs = mergeStdout (pushedResponses as)) ∧
      ∀ m, s.t.stashed = some m → StashNext cap s m := by
  obtain ⟨cur, hc, hd⟩ := hbegin.delivering
  obtain ⟨cur', rs, hc', hd'⟩ := delivering_run hc hd h
  exact ⟨rs, hd'.returned, hd'.merged, hd'.finished hc', fun m hm => hd'.stash_next hc' hm⟩

instance (s : State) : (a : Action) → Decidable (Unevicted cap s a)
  | .push _ | .finish => Nat.decLe _ _
  | .await | .cancel | .loop | .drain => instDecidableTrue
  | .submit _ | .backgroundSubmit _ | .initialised _ | .take | .reset => instDecidableFalse

/-- Output in three pieces around a call, an R error that cuts it short, and the DONE. -/
def pumpedRun : List Action :=
  [.push ⟨0, 0, bytes "a"⟩, .push ⟨1, 0, bytes "b"⟩, .await, .loop, .drain, .push ⟨0, 0, bytes "c"⟩,
    .drain, .push ⟨3, 0, bytes "Error"⟩, .drain, .finish, .await, .loop, .await, .loop]

theorem responses_eq_pushed_cut : ∃ s₀ s₁ s, Begins 64 s₀ s₁ ∧
    Run (Restrict (Unevicted 64) (Steps 64)) s₁ pumpedRun s ∧
    ∃ rs, responses s.log = responses s₁.log ++ rs ∧
      rs = [.stdout (bytes "abc"), .rError (bytes "Error"), .done] ∧
      mergeStdout rs = mergeStdout (pushedResponses pumpedRun) := by
  obtain ⟨s₀, s₁, s, hreach, hreset, hrun, hw, hp, ho, hlog, hlog'⟩ : ∃ s₀ s₁ s, Transition.exec (step 64)
      start [.initialised [], .submit (bytes "f()"), .take] = some s₀ ∧ step 64 s₀ .reset = some s₁ ∧
      Transition.exec (Transition.guarded (Unevicted 64) (step 64)) s₁ pumpedRun = some s ∧
      s₀.worker = .taken (.user (bytes "f()")) ∧ s₀.t.pending = [] ∧
      s₀.t.pendingStartupOutput = none ∧ responses s₁.log = [] ∧
      responses s.log = [.stdout (bytes "abc"), .rError (bytes "Error"), .done] :=
    ⟨_, _, _, rfl, rfl, rfl, rfl, rfl, rfl, rfl, rfl⟩
  have hbegin : Begins 64 s₀ s₁ := ⟨⟨_, Transition.run_of_exec hreach⟩, ⟨_, hw⟩, hp, ho, hreset⟩
  have h := Transition.run_of_guarded hrun
  obtain ⟨rs, hrs, -, hdone, -⟩ := responses_eq_pushed hbegin h
  have heq : rs = [.stdout (bytes "abc"), .rError (bytes "Error"), .done] := by
    rw [hlog, hlog'] at hrs
    exact hrs.symm
  exact ⟨s₀, s₁, s, hbegin, h, rs, hrs, heq, (hdone (by rw [heq]; simp)).2⟩

end Ffi
end Raoui
