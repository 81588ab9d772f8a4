/-!
# Logs made of rounds

What goes on in rounds, each of which must be over before the next begins, leaves a log that is made
of whole rounds, the last of which may still be under way.

* `InRound`: the log so far, with what the round under way has added; `extend` and `close` are the
  two ways it grows.
* `Rounds`: the log alone.
-/

namespace Rounds

variable {ε : Type} {P : List ε → Prop}

/-- The log is whole rounds and then `part`. -/
def InRound (P : List ε → Prop) (log part : List ε) : Prop :=
  ∃ rounds : List (List ε), (∀ r ∈ rounds, P r) ∧ log = rounds.flatten ++ part

def Rounds (P : List ε → Prop) (log : List ε) : Prop :=
  ∃ part, InRound P log part ∧ (part = [] ∨ ∃ whole, P whole ∧ part <+: whole)

theorem InRound.nil : InRound P [] [] := ⟨[], List.forall_mem_nil _, rfl⟩

theorem InRound.extend {log part : List ε} (h : InRound P log part) (e : ε) :
    InRound P (log ++ [e]) (part ++ [e]) := by
  obtain ⟨rounds, hrounds, rfl⟩ := h
  exact ⟨rounds, hrounds, List.append_assoc ..⟩

theorem InRound.close {log part : List ε} (h : InRound P log part) (hp : P part) :
    InRound P log [] := by
  obtain ⟨rounds, hrounds, rfl⟩ := h
  refine ⟨rounds ++ [part], List.forall_mem_append.mpr ⟨hrounds, List.forall_mem_singleton.mpr hp⟩, ?_⟩
  rw [List.flatten_append, List.flatten_singleton, List.append_nil]

theorem InRound.between {log : List ε} (h : InRound P log []) : Rounds P log := ⟨[], h, .inl rfl⟩

theorem InRound.within {log part whole : List ε} (h : InRound P log part) (hw : P whole)
    (hp : part <+: whole) : Rounds P log := ⟨part, h, .inr ⟨whole, hw, hp⟩⟩

end Rounds
