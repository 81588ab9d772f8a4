import Raoui.Lib.Rounds

/-!
# A service that serves one call at a time

What a shared service does, seen from outside: a request is posted, it is run, and its answer is
handed back to a caller. The history of such events is serial when its rounds are whole calls.

* `InPhase`: the history so far, with what is under way; `post`, `run` and `hand` extend it.
-/

namespace Service

open Rounds (InRound Rounds)

variable {ι α β : Type}

inductive Event (ι α β : Type) where
  | posted (i : ι) (a : α)
  | ran (a : α) (b : β)
  | handed (i : ι) (a : α) (b : β)
  deriving DecidableEq, Repr

/-- A request, its run, and the answer handed to the one who asked. -/
def IsCall (es : List (Event ι α β)) : Prop :=
  ∃ i a b, es = [.posted i a, .ran a b, .handed i a b]

def Serial (log : List (Event ι α β)) : Prop := Rounds IsCall log

/-- The call under way. -/
inductive Phase (ι α β : Type) where
  | free
  | posted (i : ι) (a : α)
  | ran (i : ι) (a : α) (b : β)

def Phase.events : Phase ι α β → List (Event ι α β)
  | .free => []
  | .posted i a => [.posted i a]
  | .ran i a b => [.posted i a, .ran a b]

def InPhase (log : List (Event ι α β)) (p : Phase ι α β) : Prop := InRound IsCall log p.events

theorem InPhase.nil : InPhase ([] : List (Event ι α β)) .free := InRound.nil

theorem InPhase.post {log : List (Event ι α β)} (h : InPhase log .free) (i : ι) (a : α) :
    InPhase (log ++ [.posted i a]) (.posted i a) := h.extend _

theorem InPhase.run {log : List (Event ι α β)} {i : ι} {a : α} (h : InPhase log (.posted i a))
    (b : β) : InPhase (log ++ [.ran a b]) (.ran i a b) := h.extend _

theorem InPhase.hand {log : List (Event ι α β)} {i : ι} {a : α} {b : β}
    (h : InPhase log (.ran i a b)) : InPhase (log ++ [.handed i a b]) .free :=
  (h.extend _).close ⟨i, a, b, rfl⟩

theorem InPhase.serial [Inhabited β] {log : List (Event ι α β)} {p : Phase ι α β}
    (h : InPhase log p) : Serial log := by
  cases p with
  | free => exact h.between
  | posted i a => exact h.within ⟨i, a, default, rfl⟩ ⟨_, rfl⟩
  | ran i a b => exact h.within ⟨i, a, b, rfl⟩ ⟨_, rfl⟩

end Service
