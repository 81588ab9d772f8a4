/-!
# Transition systems

Runs of a labelled step relation, oldest step first.

* `Run.invariant`: what every step preserves holds at the end of every run.
* `Run.account`: the same of an invariant about the labels taken so far.
* `Run.isolated`: clients that take turns, each with its own account.
* `Restrict`: the steps that meet a condition; what they preserve is an invariant of their runs.
* `Leads.variant`: a state is reached when every step towards it lowers a measure.
* `exec`: a partial step function run on a list of labels, for finding runs by evaluation.
-/

namespace Transition

variable {σ α : Type}

inductive Run (R : σ → α → σ → Prop) : σ → List α → σ → Prop where
  | nil {s : σ} : Run R s [] s
  | cons {s s' s'' : σ} {a : α} {as : List α} : R s a s' → Run R s' as s'' → Run R s (a :: as) s''

/-- The steps of `R` taken in a state and with a label that meet `ok`. -/
def Restrict (ok : σ → α → Prop) (R : σ → α → σ → Prop) (s : σ) (a : α) (s' : σ) : Prop :=
  ok s a ∧ R s a s'

theorem Run.invariant {R : σ → α → σ → Prop} {I : σ → Prop}
    (hstep : ∀ {s a s'}, I s → R s a s' → I s') :
    ∀ {s as s'}, I s → Run R s as s' → I s' := by
  intro s as s' hi h
  induction h with
  | nil => exact hi
  | cons hs _ ih => exact ih (hstep hi hs)

/-- What every step with one of the labels preserves. -/
theorem Run.invariant_of {R : σ → α → σ → Prop} {I : σ → Prop} {ok : α → Prop} {s s' : σ}
    {as : List α} (hok : ∀ a ∈ as, ok a) (hstep : ∀ {s a s'}, I s → R s a s' → ok a → I s')
    (hi : I s) (h : Run R s as s') : I s' := by
  induction h with
  | nil => exact hi
  | cons hs _ ih =>
    exact ih (fun a ha => hok a (List.mem_cons_of_mem _ ha))
      (hstep hi hs (hok _ (List.mem_cons_self ..)))

/-- What every step preserves of the state along with an account `f` of the labels so far. -/
theorem Run.account {β : Type} {R : σ → α → σ → Prop} {f : β → α → β} {I : β → σ → Prop}
    (hstep : ∀ {b s a s'}, I b s → R s a s' → I (f b a) s') {b : β} {s s' : σ} {as : List α}
    (hi : I b s) (h : Run R s as s') : I (as.foldl f b) s' := by
  induction h generalizing b with
  | nil => exact hi
  | cons hs _ ih => exact ih (hstep hi hs)

/-- Of the steps that clients take in turn, what relates a client's view to an account `f` of its own
steps is kept if the steps of the others keep it. -/
theorem Run.isolated {ι β : Type} [DecidableEq ι] {R : σ → ι × α → σ → Prop} {f : β → α → β}
    {I : σ → Prop} {V : β → σ → Prop} (i : ι) (hinv : ∀ {s a s'}, I s → R s a s' → I s')
    (hown : ∀ {b s a s'}, I s → V b s → R s (i, a) s' → V (f b a) s')
    (hother : ∀ {b s j a s'}, j ≠ i → I s → V b s → R s (j, a) s' → V b s') {b : β} {s s' : σ}
    {as : List (ι × α)} (hi : I s) (hv : V b s) (h : Run R s as s') :
    I s' ∧ V ((as.filterMap fun a => if a.1 = i then some a.2 else none).foldl f b) s' := by
  induction h generalizing b with
  | nil => exact ⟨hi, hv⟩
  | cons hs _ ih =>
    rename_i s s₁ s' a as _
    obtain ⟨j, a⟩ := a
    rw [List.filterMap_cons]
    by_cases hj : j = i
    · subst hj
      rw [if_pos rfl]
      exact ih (hinv hi hs) (hown hi hv hs)
    · rw [if_neg hj]
      exact ih (hinv hi hs) (hother hj hi hv hs)

theorem Run.mono {R S : σ → α → σ → Prop} (hRS : ∀ {s a s'}, R s a s' → S s a s') :
    ∀ {s as s'}, Run R s as s' → Run S s as s' := by
  intro s as s' h
  induction h with
  | nil => exact .nil
  | cons hs _ ih => exact .cons (hRS hs) ih

theorem Run.append {R : σ → α → σ → Prop} {s s' s'' : σ} {as bs : List α}
    (h : Run R s as s') (h' : Run R s' bs s'') : Run R s (as ++ bs) s'' := by
  induction h with
  | nil => exact h'
  | cons hs _ ih => exact .cons hs (ih h')

theorem Run.split {R : σ → α → σ → Prop} {s s'' : σ} {as bs : List α} :
    Run R s (as ++ bs) s'' → ∃ s', Run R s as s' ∧ Run R s' bs s'' := by
  induction as generalizing s with
  | nil => exact fun h => ⟨s, .nil, h⟩
  | cons a as ih =>
    intro h
    cases h with
    | cons hs h =>
      obtain ⟨s', h₁, h₂⟩ := ih h
      exact ⟨s', .cons hs h₁, h₂⟩

/-- `s'` can be reached from `s` by steps whose labels all meet `ok`. -/
def Leads (R : σ → α → σ → Prop) (ok : α → Prop) (s s' : σ) : Prop :=
  ∃ as, Run R s as s' ∧ ∀ a ∈ as, ok a

theorem Leads.refl (R : σ → α → σ → Prop) (ok : α → Prop) (s : σ) : Leads R ok s s :=
  ⟨[], .nil, fun _ ha => absurd ha List.not_mem_nil⟩

theorem Leads.head {R : σ → α → σ → Prop} {ok : α → Prop} {s s₁ s' : σ} {a : α} (ha : ok a)
    (hs : R s a s₁) (h : Leads R ok s₁ s') : Leads R ok s s' := by
  obtain ⟨as, hrun, hok⟩ := h
  exact ⟨a :: as, .cons hs hrun, List.forall_mem_cons.mpr ⟨ha, hok⟩⟩

theorem Leads.trans {R : σ → α → σ → Prop} {ok : α → Prop} {s s₁ s' : σ}
    (h : Leads R ok s s₁) (h' : Leads R ok s₁ s') : Leads R ok s s' := by
  obtain ⟨as, hrun, hok⟩ := h
  obtain ⟨bs, hrun', hok'⟩ := h'
  exact ⟨as ++ bs, hrun.append hrun', List.forall_mem_append.mpr ⟨hok, hok'⟩⟩

/-- While `Q` holds some step leads to the goal `G`, or keeps `Q` and lowers the variant. -/
theorem Leads.variant {R : σ → α → σ → Prop} {ok : α → Prop} {Q G : σ → Prop} (m : σ → Nat)
    (hstep : ∀ s, Q s → ∃ a s', ok a ∧ R s a s' ∧ (G s' ∨ Q s' ∧ m s' < m s)) {s : σ} (h : Q s) :
    ∃ s', Leads R ok s s' ∧ G s' := by
  induction hm : m s using Nat.strongRecOn generalizing s with
  | ind n ih =>
    obtain ⟨a, s₁, ha, hs, hg | ⟨hq, hlt⟩⟩ := hstep s h
    · exact ⟨s₁, .head ha hs (.refl ..), hg⟩
    · obtain ⟨s', hleads, hg⟩ := ih (m s₁) (hm ▸ hlt) hq rfl
      exact ⟨s', hleads.head ha hs, hg⟩

def exec (step : σ → α → Option σ) : σ → List α → Option σ
  | s, [] => some s
  | s, a :: as => (step s a).bind fun s' => exec step s' as

theorem run_of_exec {step : σ → α → Option σ} :
    ∀ {s as s'}, exec step s as = some s' → Run (fun s a s' => step s a = some s') s as s' := by
  intro s as
  induction as generalizing s with
  | nil =>
    intro s' h
    cases h
    exact .nil
  | cons a as ih =>
    intro s' h
    simp only [exec, Option.bind_eq_some_iff] at h
    obtain ⟨s₁, h₁, h⟩ := h
    exact .cons h₁ (ih h)

/-- Steps that do not meet the condition are refused. -/
def guarded (ok : σ → α → Prop) [∀ s a, Decidable (ok s a)] (step : σ → α → Option σ) (s : σ)
    (a : α) : Option σ :=
  if ok s a then step s a else none

theorem run_of_guarded {ok : σ → α → Prop} [∀ s a, Decidable (ok s a)] {step : σ → α → Option σ}
    {s s' : σ} {as : List α} (h : exec (guarded ok step) s as = some s') :
    Run (Restrict ok fun s a s' => step s a = some s') s as s' :=
  (run_of_exec h).mono fun h => by
    simp only [guarded, Option.ite_none_right_eq_some] at h
    exact h

end Transition
