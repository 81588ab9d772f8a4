import Mathlib.Data.List.Induction
import Raoui.Ffi.Worker

/-!
# Raoui.Ffi.Freshness

The completion slots of `load_r.c` as a mailbox with one place, in which a newer request replaces an
older one and which a command empties.

* `Latest`: the request the mailbox holds is the last one made, and nothing has touched it since.
* `Recent`: a request made since the last command was taken.
* `run_fresh`: the worker takes up latest requests only, and once the ring has been reset every
  answer in it is to a recent one.
-/

namespace Raoui
namespace Worker

open Raoui.Ring (Frame)
open Raoui.RunR (Channel)

variable {ι : Type}

/-- The request in the slots. -/
def State.mail (s : State ι) : Option Query :=
  match s.pendingCompletionLine with
  | some line => some (.line line s.pendingCompletionPos)
  | none => s.pendingColumnObject.map Query.columns

def Event.isRunR : Event ι → Bool
  | .runR _ => true
  | _ => false

def Event.isTook : Event ι → Bool
  | .took _ => true
  | _ => false

/-- The last request made; no command and no other request has been taken since. -/
def Latest (log : List (Event ι)) (q : Query) : Prop :=
  ∃ l₁ l₂, log = l₁ ++ .requested q :: l₂ ∧ ∀ e ∈ l₂, e.isRunR = true

/-- A request made after the last command was taken. -/
def Recent (log : List (Event ι)) (q : Query) : Prop :=
  ∃ l₁ l₂, log = l₁ ++ .requested q :: l₂ ∧ ∀ e ∈ l₂, e.isTook = false

/-- The mailbox: what an event leaves in it. -/
def mailbox (m : Option Query) : Event ι → Option Query
  | .runR _ => m
  | .requested q => some q
  | .took _ => none
  | .queried _ => none

def outstanding (log : List (Event ι)) : Option Query := log.foldl mailbox none

theorem outstanding_snoc (log : List (Event ι)) (e : Event ι) :
    outstanding (log ++ [e]) = mailbox (outstanding log) e := List.foldl_concat ..

theorem outstanding_append_runR (log : List (Event ι)) {l : List (Event ι)}
    (hl : ∀ e ∈ l, e.isRunR = true) : outstanding (log ++ l) = outstanding log := by
  induction l using List.reverseRecOn with
  | nil => rw [List.append_nil]
  | append_singleton l e ih =>
    obtain ⟨hl, he⟩ := List.forall_mem_append.mp hl
    rw [← List.append_assoc, outstanding_snoc, ih hl]
    cases e with
    | runR => rfl
    | _ => simp [Event.isRunR] at he

theorem outstanding_requested (log : List (Event ι)) (q : Query) :
    outstanding (log ++ [.requested q]) = some q := outstanding_snoc ..

theorem outstanding_took (log : List (Event ι)) (code : Bytes) :
    outstanding (log ++ [.took code]) = none := outstanding_snoc ..

theorem outstanding_queried (log : List (Event ι)) (q : Query) :
    outstanding (log ++ [.queried q]) = none := outstanding_snoc ..

theorem outstanding_eq_some_iff {log : List (Event ι)} {q : Query} :
    outstanding log = some q ↔ Latest log q := by
  constructor
  · intro h
    induction log using List.reverseRecOn with
    | nil => cases h
    | append_singleton log e ih =>
      rw [outstanding_snoc] at h
      cases e with
      | runR e =>
        obtain ⟨l₁, l₂, rfl, hl₂⟩ := ih h
        exact ⟨l₁, l₂ ++ [.runR e], by simp, List.forall_mem_append.mpr ⟨hl₂, by simp [Event.isRunR]⟩⟩
      | requested q' =>
        cases h
        exact ⟨log, [], rfl, by simp⟩
      | took | queried => cases h
  · rintro ⟨l₁, l₂, rfl, hl₂⟩
    rw [← List.singleton_append, ← List.append_assoc, outstanding_append_runR _ hl₂,
      outstanding_requested]

theorem Recent.append {log l : List (Event ι)} {q : Query} (h : Recent log q)
    (hl : ∀ e ∈ l, e.isTook = false) : Recent (log ++ l) q := by
  obtain ⟨l₁, l₂, rfl, hl₂⟩ := h
  exact ⟨l₁, l₂ ++ l, by simp, List.forall_mem_append.mpr ⟨hl₂, hl⟩⟩

theorem not_isTook_of_isRunR {e : Event ι} (h : e.isRunR = true) : e.isTook = false := by
  cases e <;> first | rfl | cases h

theorem Latest.recent {log : List (Event ι)} {q : Query} (h : Latest log q) : Recent log q := by
  obtain ⟨l₁, l₂, rfl, hl₂⟩ := h
  exact ⟨l₁, l₂, rfl, fun e he => not_isTook_of_isRunR (hl₂ e he)⟩

theorem recent_of_outstanding {log : List (Event ι)} {q : Query} (h : outstanding log = some q) :
    Recent log q := (outstanding_eq_some_iff.mp h).recent

/-- Every request the worker took up was the one in the mailbox at that moment. -/
def QueriesLatest (log : List (Event ι)) : Prop :=
  ∀ pre q post, log = pre ++ .queried q :: post → outstanding pre = some q

theorem QueriesLatest.snoc {log : List (Event ι)} {e : Event ι} (h : QueriesLatest log)
    (he : ∀ q, e = .queried q → outstanding log = some q) : QueriesLatest (log ++ [e]) := by
  intro pre q post hlog
  obtain rfl | ⟨post, e', rfl⟩ := post.eq_nil_or_concat'
  · obtain ⟨rfl, hq⟩ := List.append_inj' hlog rfl
    exact he q (List.cons.inj hq).1
  · rw [← List.cons_append, ← List.append_assoc] at hlog
    exact h pre q post (List.append_inj' hlog rfl).1

theorem QueriesLatest.append {log l : List (Event ι)} (h : QueriesLatest log)
    (hl : ∀ e ∈ l, e.isRunR = true) : QueriesLatest (log ++ l) := by
  induction l generalizing log with
  | nil => simpa using h
  | cons e l ih =>
    obtain ⟨he, hl⟩ := List.forall_mem_cons.mp hl
    rw [← List.singleton_append, ← List.append_assoc]
    refine ih (h.snoc fun q hq => ?_) hl
    subst hq
    cases he

/-! ## What the ring may hold -/

/-- Every answer in the ring is to a recent request. -/
def Answers (log : List (Event ι)) (ring : List Note) : Prop :=
  ∀ n ∈ ring, n.frame.kind = kindCompletions → ∃ q, n.source = some q ∧ Recent log q

theorem Answers.append {log l : List (Event ι)} {ring : List Note} (h : Answers log ring)
    (hl : ∀ e ∈ l, e.isTook = false) : Answers (log ++ l) ring := by
  intro n hn hkind
  obtain ⟨q, hq, hrecent⟩ := h n hn hkind
  exact ⟨q, hq, hrecent.append hl⟩

theorem mem_of_mem_makeRoom {cap need : Nat} {q : List Note} {n : Note}
    (h : n ∈ makeRoom cap need q) : n ∈ q := by
  induction q with
  | nil => exact h
  | cons m q ih =>
    unfold makeRoom at h
    split at h
    · exact h
    · exact List.mem_cons_of_mem _ (ih h)

/-- A push adds one message, cut short perhaps, and may only take others away. -/
theorem mem_pushNote {cap : Nat} {q : List Note} {n m : Note} (h : m ∈ pushNote cap q n) :
    m ∈ q ∨ m.frame.kind = n.frame.kind ∧ m.source = n.source := by
  unfold pushNote at h
  split at h
  · obtain h | h := List.mem_append.mp h
    · exact .inl (mem_of_mem_makeRoom h)
    · cases List.mem_singleton.mp h
      exact .inr ⟨rfl, rfl⟩
  · cases List.mem_singleton.mp h
    exact .inr ⟨rfl, rfl⟩

theorem Answers.push {log : List (Event ι)} {ring : List Note} {n : Note} (h : Answers log ring)
    (cap : Nat)
    (hn : n.frame.kind = kindCompletions → ∃ q, n.source = some q ∧ Recent log q) :
    Answers log (pushNote cap ring n) := by
  intro m hm hkind
  obtain hm | ⟨hk, hsource⟩ := mem_pushNote hm
  · exact h m hm hkind
  · rw [hsource]
    exact hn (hk.symm.trans hkind)

/-! ## The invariant -/

structure Fresh (s : State ι) : Prop where
  one : s.pendingCompletionLine = none ∨ s.pendingColumnObject = none
  mail : s.mail = outstanding s.log
  queried : QueriesLatest s.log
  answering : ∀ q, s.worker = .answering q → Recent s.log q
  /-- Between taking a command and the ring's reset, stale answers may still be there. -/
  ring : (∀ code, s.worker ≠ .taken code) → Answers s.log s.ring

theorem start_fresh [DecidableEq ι] : Fresh (start ι) where
  one := .inl rfl
  mail := rfl
  queried := fun pre q post h => by simp [start] at h
  answering := fun _ h => by cases h
  ring := fun _ n hn => by cases hn

/-- A step on the `run_r` side. -/
theorem Fresh.runREvents {s : State ι} (h : Fresh s) (r : Channel ι × List (RunR.Event ι)) :
    Fresh (s.withRunREvents r) := by
  have hl : ∀ e ∈ r.2.map Event.runR, (e : Event ι).isRunR = true := by
    intro e he
    obtain ⟨e, _, rfl⟩ := List.mem_map.mp he
    rfl
  have hl' := fun e he => not_isTook_of_isRunR (hl e he)
  exact {
    one := h.one
    mail := h.mail.trans (outstanding_append_runR s.log hl).symm
    queried := h.queried.append hl
    answering := fun q hq => (h.answering q hq).append hl'
    ring := fun hw => (h.ring hw).append hl' }

/-- A step of the worker that leaves the slots and the log alone. -/
theorem Fresh.moved {s : State ι} (h : Fresh s) {w : At} {ring : List Note}
    (hanswering : ∀ q, w ≠ .answering q)
    (hring : (∀ code, w ≠ .taken code) → Answers s.log ring) :
    Fresh { s with worker := w, ring := ring } where
  one := h.one
  mail := h.mail
  queried := h.queried
  answering := fun q hq => absurd hq (hanswering q)
  ring := hring

theorem Fresh.dispatch {s : State ι} (h : Fresh s) (hat : ∀ code, s.worker ≠ .taken code) :
    Fresh s.dispatch := by
  have hring := h.ring hat
  unfold State.dispatch
  split
  · rename_i code _
    exact {
      one := .inl rfl
      mail := (outstanding_took s.log code).symm
      queried := h.queried.snoc fun _ hq => by cases hq
      answering := fun _ hq => by cases hq
      ring := fun hw => absurd rfl (hw code) }
  · split
    · exact {
        one := h.one
        mail := h.mail
        queried := h.queried
        answering := fun _ hq => by cases hq
        ring := fun _ => hring }
    · split
      · rename_i line hline
        have hmail : outstanding s.log = some (.line line s.pendingCompletionPos) := by
          rw [← h.mail, State.mail, hline]
        exact {
          one := .inl rfl
          mail := (outstanding_queried s.log (.line line s.pendingCompletionPos)).symm
          queried := h.queried.snoc fun _ hq => by cases hq; exact hmail
          answering := fun _ hq => by
            cases hq
            exact (recent_of_outstanding hmail).append (by simp [Event.isTook])
          ring := fun _ => hring.append (by simp [Event.isTook]) }
      · rename_i hline
        split
        · rename_i object hobject
          have hmail : outstanding s.log = some (.columns object) := by
            rw [← h.mail, State.mail, hline, hobject]
            rfl
          exact {
            one := .inr rfl
            mail := by
              rw [State.mail, hline]
              exact (outstanding_queried s.log (.columns object)).symm
            queried := h.queried.snoc fun _ hq => by cases hq; exact hmail
            answering := fun _ hq => by
              cases hq
              exact (recent_of_outstanding hmail).append (by simp [Event.isTook])
            ring := fun _ => hring.append (by simp [Event.isTook]) }
        · exact {
            one := h.one
            mail := h.mail
            queried := h.queried
            answering := fun _ hq => by cases hq
            ring := fun _ => hring }

/-- A new request of the frontend, in either slot. -/
theorem Fresh.requested {s : State ι} (h : Fresh s) {line object : Option Bytes} {pos : Int}
    {q : Query} (hone : line = none ∨ object = none)
    (hmail : ({ s with
      pendingCompletionLine := line, pendingCompletionPos := pos,
      pendingColumnObject := object, log := s.log ++ [.requested q] } : State ι).mail = some q) :
    Fresh { s with
      pendingCompletionLine := line, pendingCompletionPos := pos,
      pendingColumnObject := object, log := s.log ++ [.requested q] } where
  one := hone
  mail := hmail.trans (outstanding_requested s.log q).symm
  queried := h.queried.snoc fun _ hq => by cases hq
  answering := fun q' hq' => (h.answering q' hq').append (by simp [Event.isTook])
  ring := fun hw => (h.ring hw).append (by simp [Event.isTook])

theorem Fresh.withRunR {s : State ι} (h : Fresh s) (c : Channel ι) : Fresh (s.withRunR c) :=
  ⟨h.one, h.mail, h.queried, h.answering, h.ring⟩

theorem At.ne_taken {w w' : At} (hw : w = w') (h : ∀ code, w' ≠ .taken code) :
    ∀ code, w ≠ .taken code := by
  rw [hw]
  exact h

variable [DecidableEq ι]

theorem step_fresh {cap : Nat} {s s' : State ι} {a : Action ι} (h : Fresh s)
    (hs : Steps cap s a s') : Fresh s' := by
  unfold Steps step at hs
  cases a with
  | submit code | shutdown =>
    cases hs
    exact ⟨h.one, h.mail, h.queried, h.answering, h.ring⟩
  | requestCompletions line cursorPos =>
    cases hs
    exact h.requested (.inr rfl) rfl
  | requestColumns object =>
    cases hs
    exact h.requested (.inl rfl) rfl
  | pop =>
    cases hs
    exact ⟨h.one, h.mail, h.queried, h.answering,
      fun hw n hn => h.ring hw n (List.mem_of_mem_tail hn)⟩
  | call | acquire | wake | test =>
    obtain ⟨c, _, rfl⟩ := Option.map_eq_some_iff.mp hs
    exact h.withRunR c
  | post | leave =>
    obtain ⟨r, _, rfl⟩ := Option.map_eq_some_iff.mp hs
    exact h.runREvents r
  | loop =>
    obtain ⟨hat, hs⟩ := Option.ite_none_right_eq_some.mp hs
    cases hs
    have hring := h.ring (At.ne_taken hat (by simp))
    split <;> exact h.moved (by simp) fun _ => hring
  | lock =>
    obtain ⟨hat, hs⟩ := Option.ite_none_right_eq_some.mp hs
    have htaken := At.ne_taken hat (by simp)
    cases hs
    split
    · exact h.moved (by simp) fun _ => h.ring htaken
    · exact h.dispatch htaken
  | resume =>
    obtain ⟨hat, hs⟩ := Option.ite_none_right_eq_some.mp hs
    cases hs
    exact h.dispatch (At.ne_taken hat (by simp))
  | reset =>
    dsimp only at hs
    split at hs
    · cases hs
      exact h.moved (by simp) fun _ n hn => by cases hn
    · cases hs
  | push frame =>
    obtain ⟨⟨_, _, hkind⟩, hs⟩ := Option.ite_none_right_eq_some.mp hs
    cases hs
    exact ⟨h.one, h.mail, h.queried, h.answering,
      fun hw => (h.ring hw).push cap fun hk => absurd hk hkind⟩
  | finish =>
    dsimp only at hs
    split at hs
    · rename_i code hat
      cases hs
      have hring := h.ring (At.ne_taken hat (by simp))
      exact h.moved (by simp) fun _ => hring.push cap fun hk => absurd hk (by decide)
    · cases hs
  | sandboxed out =>
    dsimp only at hs
    split at hs
    · rename_i code hat
      cases hs
      have hring := h.ring (At.ne_taken hat (by simp))
      exact {
        one := h.one
        mail := h.mail.trans (outstanding_append_runR s.log (by simp [Event.isRunR])).symm
        queried := h.queried.append (by simp [Event.isRunR])
        answering := fun _ hq => by cases hq
        ring := fun _ => hring.append (by simp [Event.isTook]) }
    · cases hs
  | publish k =>
    dsimp only at hs
    split at hs
    · rename_i out hat
      obtain ⟨c, _, rfl⟩ := Option.map_eq_some_iff.mp hs
      have hring := h.ring (At.ne_taken hat (by simp))
      exact ⟨h.one, h.mail, h.queried, fun q hq => At.noConfusion hq, fun _ => hring⟩
    · cases hs
  | answer result =>
    dsimp only at hs
    split at hs
    · rename_i q hat
      cases hs
      have hring := h.ring (At.ne_taken hat (by simp))
      exact h.moved (by simp) fun _ => hring.push cap fun _ => ⟨q, rfl, h.answering q hat⟩
    · cases hs

/-- The slots hold the latest request and nothing else. A request that a newer one or a command has
overtaken is never taken up, and no answer to a request from before the last command outlives the
reset of the ring. -/
theorem run_fresh {cap : Nat} {as : List (Action ι)} {s : State ι}
    (h : Transition.Run (Steps cap) (start ι) as s) :
    (s.pendingCompletionLine = none ∨ s.pendingColumnObject = none) ∧
      (∀ q, s.mail = some q ↔ Latest s.log q) ∧
      (∀ pre q post, s.log = pre ++ .queried q :: post → Latest pre q) ∧
      ((∀ code, s.worker ≠ .taken code) → ∀ n ∈ s.ring, n.frame.kind = kindCompletions →
        ∃ q, n.source = some q ∧ Recent s.log q) := by
  have hfresh := Transition.Run.invariant (I := Fresh) step_fresh start_fresh h
  refine ⟨hfresh.one, fun q => ?_, fun pre q post hlog => ?_, hfresh.ring⟩
  · rw [hfresh.mail]
    exact outstanding_eq_some_iff
  · exact outstanding_eq_some_iff.mp (hfresh.queried pre q post hlog)

/-- A request overtaken by another, whose answer a command then makes stale; the request after the
command is answered. -/
def overtaken : List (Action Bool) :=
  [.requestCompletions (bytes "me") 2, .requestColumns (bytes "mtcars"), .loop, .lock,
    .submit (bytes "z"), .answer (bytes "mpg"), .requestCompletions (bytes "mea") 3, .loop, .lock,
    .reset, .finish, .requestCompletions (bytes "mean") 4, .loop, .lock, .answer (bytes "mean")]

theorem run_fresh_overtaken :
    Latest ((after overtaken).log.take 2) (.columns (bytes "mtcars")) ∧
      (after overtaken).ring.map Note.source = [none, some (.line (bytes "mean") 4)] ∧
      Recent (after overtaken).log (.line (bytes "mean") 4) := by
  have hrun := after_run overtaken rfl
  refine ⟨(run_fresh hrun).2.2.1 _ _ ((after overtaken).log.drop 3) rfl, rfl, ?_⟩
  have htaken : ∀ code, (after overtaken).worker ≠ .taken code := by
    intro code h
    cases h
  have hmem : ⟨answerFrame (bytes "mean"), some (.line (bytes "mean") 4)⟩ ∈ (after overtaken).ring :=
    List.mem_cons_of_mem _ List.mem_cons_self
  obtain ⟨q, hq, hrecent⟩ := (run_fresh hrun).2.2.2 htaken _ hmem rfl
  cases hq
  exact hrecent

end Worker
end Raoui
