/-!
# Outcomes of computations that may fail

`Meets bad x post`: `x` does not fail with an error in `bad`, and if it returns, the result
satisfies `post`. Other errors are allowed. With no error in `bad` this is partial correctness.

The rules follow the shape of a program: `Meets.pure`, `Meets.bind`, `Meets.mapM`.
-/

namespace Outcome

variable {ε α β : Type} {bad : ε → Prop}

def Meets (bad : ε → Prop) (x : Except ε α) (post : α → Prop) : Prop :=
  match x with
  | .ok a => post a
  | .error e => ¬ bad e

@[simp] theorem meets_ok {a : α} {post : α → Prop} : Meets bad (.ok a) post ↔ post a := Iff.rfl

@[simp] theorem meets_error {e : ε} {post : α → Prop} : Meets bad (.error e) post ↔ ¬ bad e :=
  Iff.rfl

@[simp] theorem meets_pure {a : α} {post : α → Prop} : Meets bad (pure a) post ↔ post a := Iff.rfl

theorem Meets.of_eq_ok {x : Except ε α} {post : α → Prop} (h : Meets bad x post) {a : α}
    (hx : x = .ok a) : post a := by
  subst hx
  exact h

theorem Meets.of_eq_error {x : Except ε α} {post : α → Prop} (h : Meets bad x post) {e : ε}
    (hx : x = .error e) : ¬ bad e := by
  subst hx
  exact h

theorem Meets.mono {x : Except ε α} {post post' : α → Prop} (h : Meets bad x post)
    (hp : ∀ a, post a → post' a) : Meets bad x post' := by
  cases x with
  | ok a => exact hp a h
  | error e => exact h

theorem Meets.bind {x : Except ε α} {f : α → Except ε β} {mid : α → Prop} {post : β → Prop}
    (hx : Meets bad x mid) (hf : ∀ a, mid a → Meets bad (f a) post) : Meets bad (x >>= f) post := by
  cases x with
  | ok a => exact hf a hx
  | error e => exact hx

/-- `Meets.bind` with the condition in between given. -/
theorem Meets.via {x : Except ε α} {f : α → Except ε β} {post : β → Prop} (mid : α → Prop)
    (hx : Meets bad x mid) (hf : ∀ a, mid a → Meets bad (f a) post) : Meets bad (x >>= f) post :=
  hx.bind hf

theorem Meets.map {x : Except ε α} {f : α → β} {post : β → Prop}
    (h : Meets bad x fun a => post (f a)) : Meets bad (f <$> x) post := by
  cases x with
  | ok a => exact h
  | error e => exact h

/-- A result that is known only to exist. -/
theorem Meets.bind_eq {x : Except ε α} {f : α → Except ε β} {mid : α → Prop} {post : β → Prop}
    (hx : Meets bad x mid) (hf : ∀ a, x = .ok a → mid a → Meets bad (f a) post) :
    Meets bad (x >>= f) post := by
  cases x with
  | ok a => exact hf a rfl hx
  | error e => exact hx

theorem bind_eq_ok {x : Except ε α} {f : α → Except ε β} {b : β} :
    (x >>= f) = .ok b ↔ ∃ a, x = .ok a ∧ f a = .ok b := by
  cases x with
  | ok a => simp [Bind.bind, Except.bind]
  | error e => simp [Bind.bind, Except.bind]

/-- Whether the rest returns does not depend on what is read first. -/
theorem bind_returns_iff {x : Except ε α} {f : α → Except ε β} {p : Prop}
    (hf : ∀ a, (∃ b, f a = .ok b) ↔ p) : (∃ b, (x >>= f) = .ok b) ↔ (∃ a, x = .ok a) ∧ p := by
  constructor
  · rintro ⟨b, h⟩
    obtain ⟨a, hx, ha⟩ := bind_eq_ok.mp h
    exact ⟨⟨a, hx⟩, (hf a).mp ⟨b, ha⟩⟩
  · rintro ⟨⟨a, hx⟩, hp⟩
    obtain ⟨b, hb⟩ := (hf a).mpr hp
    exact ⟨b, bind_eq_ok.mpr ⟨a, hx, hb⟩⟩

theorem bind_pure_returns_iff {x : Except ε α} {g : α → β} :
    (∃ b, (x >>= fun a => pure (g a)) = .ok b) ↔ ∃ a, x = .ok a :=
  (bind_returns_iff fun a => iff_true_intro ⟨g a, rfl⟩).trans (and_iff_left trivial)

theorem mapM_returns_iff {f : α → Except ε β} {l : List α} :
    (∃ bs, l.mapM f = .ok bs) ↔ ∀ a ∈ l, ∃ b, f a = .ok b := by
  induction l with
  | nil => exact ⟨fun _ => nofun, fun _ => ⟨[], rfl⟩⟩
  | cons a l ih =>
    rw [List.mapM_cons, List.forall_mem_cons, ← ih]
    exact bind_returns_iff fun _ => bind_pure_returns_iff

theorem Meets.mapM {f : α → Except ε β} {post : β → Prop} (l : List α)
    (hf : ∀ a ∈ l, Meets bad (f a) post) :
    Meets bad (l.mapM f) fun bs => bs.length = l.length ∧ ∀ b ∈ bs, post b := by
  induction l with
  | nil => simp
  | cons a l ih =>
    rw [List.mapM_cons]
    refine (hf a (List.mem_cons_self ..)).bind fun b hb => ?_
    refine (ih fun a' ha' => hf a' (List.mem_cons_of_mem _ ha')).bind fun bs hbs => ?_
    simp [hbs.1, hb]
    exact hbs.2

/-! ## One computation along another

`Follows g x y`: `y` is `x` with its result mapped by `g`; errors are the same. The rules follow
the shape of the two programs side by side. -/

section
variable {α' β' : Type} {g : α → α'} {k : β → β'}

def Follows (g : α → α') (x : Except ε α) (y : Except ε α') : Prop := y = x.map g

theorem Follows.pure {a : α} {a' : α'} (h : a' = g a) :
    Follows g (Pure.pure a : Except ε α) (Pure.pure a') := by
  rw [h]
  rfl

theorem Follows.bind {x : Except ε α} {y : Except ε α'} {f : α → Except ε β}
    {f' : α' → Except ε β'} (h : Follows g x y) (hf : ∀ a, Follows k (f a) (f' (g a))) :
    Follows k (x >>= f) (y >>= f') := by
  unfold Follows at h
  subst h
  cases x with
  | ok a => exact hf a
  | error e => rfl

/-- The first steps are the same computation. -/
theorem Follows.same {x : Except ε α} {f : α → Except ε β} {f' : α → Except ε β'}
    (hf : ∀ a, Follows k (f a) (f' a)) : Follows k (x >>= f) (x >>= f') := by
  cases x with
  | ok a => exact hf a
  | error e => rfl

theorem Follows.ite {c : Prop} [Decidable c] {x y : Except ε α} {x' y' : Except ε α'}
    (hx : Follows g x x') (hy : Follows g y y') :
    Follows g (if c then x else y) (if c then x' else y') := by
  split
  · exact hx
  · exact hy

end

/-! ## Two computations with related results -/

section
variable {α' β' : Type}

/-- Both raise the same error, or both give results that are related. -/
def Related (R : α → α' → Prop) (x : Except ε α) (y : Except ε α') : Prop :=
  match x, y with
  | .ok a, .ok b => R a b
  | .error e, .error e' => e = e'
  | _, _ => False

theorem Related.bind {R : α → α' → Prop} {S : β → β' → Prop} {x : Except ε α} {y : Except ε α'}
    {f : α → Except ε β} {f' : α' → Except ε β'} (h : Related R x y)
    (hf : ∀ a b, R a b → Related S (f a) (f' b)) : Related S (x >>= f) (y >>= f') := by
  match x, y, h with
  | .ok a, .ok b, h => exact hf a b h
  | .error e, .error _, h => exact h

theorem Related.same {S : β → β' → Prop} {x : Except ε α} {f : α → Except ε β}
    {f' : α → Except ε β'} (hf : ∀ a, Related S (f a) (f' a)) :
    Related S (x >>= f) (x >>= f') := by
  cases x with
  | ok a => exact hf a
  | error e => rfl

theorem Related.of_eq_ok {R : α → α' → Prop} {x : Except ε α} {y : Except ε α'} {a : α}
    (h : Related R x y) (hx : x = .ok a) : ∃ b, y = .ok b ∧ R a b := by
  subst hx
  match y, h with
  | .ok b, h => exact ⟨b, rfl, h⟩

end

end Outcome
