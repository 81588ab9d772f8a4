/-!
# Observation

What a machine shows of its state is what its calls answer. Two states are alike when every run of
calls gets the same answers from both; a call that fails ends the run.

* `Alike.step`: alike states give equal answers and go on to alike states.
* `alike_of_simulation`: states related by a relation that every call keeps are alike.
-/

namespace Observation

variable {σ ι ο ε : Type} {call : σ → ι → Except ε (ο × σ)}

/-- The answers to a run of calls, up to the first failure. -/
def answers (call : σ → ι → Except ε (ο × σ)) : σ → List ι → List (Except ε ο)
  | _, [] => []
  | s, i :: is =>
    match call s i with
    | .ok (o, s') => .ok o :: answers call s' is
    | .error e => [.error e]

def Alike (call : σ → ι → Except ε (ο × σ)) (s t : σ) : Prop :=
  ∀ is, answers call s is = answers call t is

theorem answers_cons {s s' : σ} {i : ι} {is : List ι} {o : ο} (h : call s i = .ok (o, s')) :
    answers call s (i :: is) = .ok o :: answers call s' is := by
  rw [answers, h]

theorem Alike.symm {s t : σ} (h : Alike call s t) : Alike call t s := fun is => (h is).symm

theorem Alike.step {s s' t t' : σ} {i : ι} {o o' : ο} (h : Alike call s t)
    (hs : call s i = .ok (o, s')) (ht : call t i = .ok (o', t')) : o = o' ∧ Alike call s' t' := by
  constructor
  · have hone := h [i]
    rw [answers_cons hs, answers_cons ht] at hone
    exact Except.ok.inj (List.cons.inj hone).1
  · intro is
    have hmore := h (i :: is)
    rw [answers_cons hs, answers_cons ht] at hmore
    exact (List.cons.inj hmore).2

theorem alike_of_simulation {R : σ → σ → Prop}
    (hstep : ∀ {s t} i, R s t →
      ∃ o s' t', call s i = .ok (o, s') ∧ call t i = .ok (o, t') ∧ R s' t')
    {s t : σ} (h : R s t) : Alike call s t := by
  intro is
  induction is generalizing s t with
  | nil => rfl
  | cons i is ih =>
    obtain ⟨o, s', t', hs, ht, hR⟩ := hstep i h
    rw [answers_cons hs, answers_cons ht, ih hR]

end Observation
