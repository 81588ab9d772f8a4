/-!
# Loops

A `while` loop as a step function: from a state the body either leaves the loop with a result
(`.inl`) or goes round again (`.inr`). `run` iterates it with fuel, `none` meaning the fuel ran
out.

* `run_exit`, `run_again`: what one round does to a run.
-/

namespace Loop

variable {σ ρ : Type}

def run (body : σ → ρ ⊕ σ) : Nat → σ → Option ρ
  | 0, _ => none
  | fuel + 1, s =>
    match body s with
    | .inl r => some r
    | .inr s' => run body fuel s'

theorem run_exit {body : σ → ρ ⊕ σ} {s : σ} {r : ρ} (fuel : Nat) (h : body s = .inl r) :
    run body (fuel + 1) s = some r := by
  simp [run, h]

theorem run_again {body : σ → ρ ⊕ σ} {s s' : σ} (fuel : Nat) (h : body s = .inr s') :
    run body (fuel + 1) s = run body fuel s' := by
  simp [run, h]

end Loop
