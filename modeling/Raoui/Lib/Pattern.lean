import Mathlib.Computability.Language

/-!
# Patterns and longest match

Regular expressions over an arbitrary alphabet with character classes as Boolean predicates, their
language, and a longest-match scanner by derivatives.

* `deriv_lang`, `nullable_iff`: the derivative and the empty word.
* `longest_spec`: the scanner finds the longest prefix in the language.
* `choose_spec`: among several rules the longest match wins, the earliest rule on ties.
* `choose_cut`: a rule chosen for a text is chosen for any beginning of it that holds the match.
* `settle_spec`: the match at the front of a text, when nothing behind the text can change it.
-/

open scoped Computability

inductive Pattern (α : Type) where
  | empty
  | eps
  | sat (p : α → Bool)
  | alt (r s : Pattern α)
  | seq (r s : Pattern α)
  | star (r : Pattern α)

namespace Pattern

variable {α ρ : Type}

/-- The words the pattern stands for. -/
def lang : Pattern α → Language α
  | empty => 0
  | eps => 1
  | sat p => {w | ∃ a, p a = true ∧ w = [a]}
  | alt r s => r.lang + s.lang
  | seq r s => r.lang * s.lang
  | star r => KStar.kstar r.lang

def plus (r : Pattern α) : Pattern α := seq r (star r)

def opt (r : Pattern α) : Pattern α := alt r eps

def any : Pattern α := sat fun _ => true

def chr [DecidableEq α] (a : α) : Pattern α := sat fun b => b = a

def word [DecidableEq α] : List α → Pattern α
  | [] => eps
  | a :: w => seq (chr a) (word w)

def alts : List (Pattern α) → Pattern α
  | [] => empty
  | r :: rs => alt r (alts rs)

def seqs : List (Pattern α) → Pattern α
  | [] => eps
  | r :: rs => seq r (seqs rs)

def nullable : Pattern α → Bool
  | empty => false
  | eps => true
  | sat _ => false
  | alt r s => r.nullable || s.nullable
  | seq r s => r.nullable && s.nullable
  | star _ => true

def deriv (a : α) : Pattern α → Pattern α
  | empty => empty
  | eps => empty
  | sat p => if p a then eps else empty
  | alt r s => alt (r.deriv a) (s.deriv a)
  | seq r s => if r.nullable then alt (seq (r.deriv a) s) (s.deriv a) else seq (r.deriv a) s
  | star r => seq (r.deriv a) (star r)

/-- The length of the longest prefix that matches. -/
def longest (r : Pattern α) : List α → Option Nat
  | [] => if r.nullable then some 0 else none
  | a :: w =>
    match longest (r.deriv a) w with
    | some n => some (n + 1)
    | none => if r.nullable then some 0 else none

/-- Longest match over a list of rules; the first of the longest wins. -/
def choose : List (Pattern α × ρ) → List α → Option (Nat × ρ)
  | [], _ => none
  | (r, x) :: rules, w =>
    match longest r w, choose rules w with
    | some n, some (m, y) => if m ≤ n then some (n, x) else some (m, y)
    | some n, none => some (n, x)
    | none, best => best

/-! ## Languages -/

theorem nullable_iff (r : Pattern α) : r.nullable = true ↔ [] ∈ r.lang := by
  induction r with
  | empty => simp [nullable, lang, Language.notMem_zero]
  | eps => simp [nullable, lang]
  | sat p =>
    simp only [nullable, lang, Bool.false_eq_true, false_iff]
    rintro ⟨a, -, h⟩
    cases h
  | alt r s ihr ihs => simp only [nullable, lang, Language.mem_add, Bool.or_eq_true, ihr, ihs]
  | seq r s ihr ihs => simp [nullable, lang, Language.mem_mul, ihr, ihs]
  | star r => simp [nullable, lang, Language.nil_mem_kstar]

theorem cons_mem_mul {l m : Language α} {a : α} {w : List α} :
    a :: w ∈ l * m ↔ (∃ u v, a :: u ∈ l ∧ v ∈ m ∧ w = u ++ v) ∨ ([] ∈ l ∧ a :: w ∈ m) := by
  rw [Language.mem_mul]
  constructor
  · rintro ⟨u, hu, v, hv, h⟩
    cases u with
    | nil => exact .inr ⟨hu, by simpa using h ▸ hv⟩
    | cons b u =>
      simp only [List.cons_append, List.cons.injEq] at h
      obtain ⟨rfl, rfl⟩ := h
      exact .inl ⟨u, v, hu, hv, rfl⟩
  · rintro (⟨u, v, hu, hv, rfl⟩ | ⟨hl, hm⟩)
    · exact ⟨a :: u, hu, v, hv, rfl⟩
    · exact ⟨[], hl, a :: w, hm, rfl⟩

theorem cons_mem_kstar {l : Language α} {a : α} {w : List α} :
    a :: w ∈ KStar.kstar l ↔ ∃ u v, a :: u ∈ l ∧ v ∈ KStar.kstar l ∧ w = u ++ v := by
  constructor
  · intro h
    rw [Language.kstar_def_nonempty] at h
    obtain ⟨L, hw, hL⟩ := h
    cases L with
    | nil => cases hw
    | cons y L =>
      obtain ⟨hy, hne⟩ := hL y List.mem_cons_self
      cases y with
      | nil => exact absurd rfl hne
      | cons b u =>
        simp only [List.flatten_cons, List.cons_append, List.cons.injEq] at hw
        obtain ⟨rfl, rfl⟩ := hw
        exact ⟨u, L.flatten, hy,
          Language.join_mem_kstar fun z hz => (hL z (List.mem_cons_of_mem _ hz)).1, rfl⟩
  · rintro ⟨u, v, hu, hv, rfl⟩
    obtain ⟨L, rfl, hL⟩ := hv
    refine Language.mem_kstar.mpr ⟨(a :: u) :: L, by simp, ?_⟩
    intro y hy
    rcases List.mem_cons.mp hy with rfl | hy
    · exact hu
    · exact hL y hy

theorem deriv_lang (r : Pattern α) (a : α) (w : List α) : w ∈ (r.deriv a).lang ↔ a :: w ∈ r.lang := by
  induction r generalizing w with
  | empty => simp [deriv, lang, Language.notMem_zero]
  | eps => simp [deriv, lang, Language.notMem_zero]
  | sat p =>
    simp only [deriv, lang]
    split
    · rename_i hp
      rw [show w ∈ lang (eps : Pattern α) ↔ w = [] from Language.mem_one w]
      constructor
      · rintro rfl
        exact ⟨a, hp, rfl⟩
      · rintro ⟨b, -, h⟩
        exact (List.cons.inj h).2
    · rename_i hp
      constructor
      · exact fun h => absurd h (Language.notMem_zero w)
      · rintro ⟨b, hb, h⟩
        cases h
        exact absurd hb hp
  | alt r s ihr ihs => simp only [deriv, lang, Language.mem_add, ihr, ihs]
  | seq r s ihr ihs =>
    have hseq : ∀ w, w ∈ (seq (r.deriv a) s).lang ↔
        ∃ u v, a :: u ∈ r.lang ∧ v ∈ s.lang ∧ w = u ++ v := by
      intro w
      simp only [lang, Language.mem_mul, ihr]
      constructor
      · rintro ⟨u, hu, v, hv, rfl⟩
        exact ⟨u, v, hu, hv, rfl⟩
      · rintro ⟨u, v, hu, hv, rfl⟩
        exact ⟨u, hu, v, hv, rfl⟩
    simp only [deriv, show (seq r s).lang = r.lang * s.lang from rfl, cons_mem_mul]
    split
    · rename_i hn
      rw [show (alt (seq (r.deriv a) s) (s.deriv a)).lang =
        (seq (r.deriv a) s).lang + (s.deriv a).lang from rfl, Language.mem_add, hseq, ihs]
      simp [(nullable_iff r).mp hn]
    · rename_i hn
      rw [hseq]
      simp [mt (nullable_iff r).mpr hn]
  | star r ih =>
    rw [show (star r).lang = KStar.kstar r.lang from rfl, cons_mem_kstar]
    simp only [deriv, lang, Language.mem_mul, ih]
    constructor
    · rintro ⟨u, hu, v, hv, rfl⟩
      exact ⟨u, v, hu, hv, rfl⟩
    · rintro ⟨u, v, hu, hv, rfl⟩
      exact ⟨u, hu, v, hv, rfl⟩

/-! ## Longest match -/

/-- `n` is the length of the longest prefix of `w` in the language. -/
structure IsLongest (l : Language α) (w : List α) (n : Nat) : Prop where
  le : n ≤ w.length
  mem : w.take n ∈ l
  max : ∀ {m}, m ≤ w.length → w.take m ∈ l → m ≤ n

theorem longest_cases (r : Pattern α) (w : List α) :
    (∃ n, longest r w = some n ∧ IsLongest r.lang w n) ∨
    (longest r w = none ∧ ∀ m, w.take m ∉ r.lang) := by
  induction w generalizing r with
  | nil =>
    unfold longest
    split
    · rename_i hn
      exact .inl ⟨0, rfl, Nat.le_refl 0, (nullable_iff r).mp hn, fun hm _ => hm⟩
    · rename_i hn
      exact .inr ⟨rfl, fun m => by simpa using mt (nullable_iff r).mpr hn⟩
  | cons a w ih =>
    unfold longest
    rcases ih (r.deriv a) with ⟨n, hn, hle, hmem, hmax⟩ | ⟨hn, hno⟩
    · rw [hn]
      refine .inl ⟨n + 1, rfl, Nat.succ_le_succ hle, (deriv_lang r a _).mp hmem, ?_⟩
      intro m hm hmem'
      cases m with
      | zero => exact Nat.zero_le _
      | succ m =>
        exact Nat.succ_le_succ (hmax (Nat.le_of_succ_le_succ hm) ((deriv_lang r a _).mpr hmem'))
    · rw [hn]
      have hsucc : ∀ m, (a :: w).take (m + 1) ∉ r.lang :=
        fun m h => hno m ((deriv_lang r a _).mpr h)
      simp only
      split
      · rename_i hnull
        refine .inl ⟨0, rfl, Nat.zero_le _, (nullable_iff r).mp hnull, ?_⟩
        intro m _ hmem
        cases m with
        | zero => exact Nat.le_refl 0
        | succ m => exact absurd hmem (hsucc m)
      · rename_i hnull
        refine .inr ⟨rfl, fun m => ?_⟩
        cases m with
        | zero => exact mt (nullable_iff r).mpr hnull
        | succ m => exact hsucc m

theorem longest_spec {r : Pattern α} {w : List α} {n : Nat} (h : longest r w = some n) :
    IsLongest r.lang w n := by
  rcases longest_cases r w with ⟨n', hn, hl⟩ | ⟨hn, -⟩
  · rw [h] at hn
    cases hn
    exact hl
  · rw [h] at hn
    cases hn

theorem longest_isSome {r : Pattern α} {w : List α} {m : Nat} (h : w.take m ∈ r.lang) :
    ∃ n, longest r w = some n := by
  rcases longest_cases r w with ⟨n, hn, -⟩ | ⟨-, hno⟩
  · exact ⟨n, hn⟩
  · exact absurd h (hno m)

theorem choose_spec {rules : List (Pattern α × ρ)} {w : List α} {n : Nat} {x : ρ}
    (h : choose rules w = some (n, x)) : ∃ r, (r, x) ∈ rules ∧ IsLongest r.lang w n := by
  induction rules generalizing n x with
  | nil => cases h
  | cons rule rules ih =>
    obtain ⟨r, y⟩ := rule
    have hlater : choose rules w = some (n, x) → ∃ r', (r', x) ∈ (r, y) :: rules ∧
        IsLongest r'.lang w n := by
      intro h
      obtain ⟨r', hmem, hl⟩ := ih h
      exact ⟨r', List.mem_cons_of_mem _ hmem, hl⟩
    simp only [choose] at h
    split at h
    · rename_i n' m y' hr hrest
      split at h
      · cases h
        exact ⟨r, List.mem_cons_self, longest_spec hr⟩
      · cases h
        exact hlater hrest
    · rename_i n' hr _
      cases h
      exact ⟨r, List.mem_cons_self, longest_spec hr⟩
    · exact hlater h

/-- A rule that matches is no longer than the one chosen. -/
theorem choose_max {rules : List (Pattern α × ρ)} {w : List α} {r : Pattern α} {x : ρ} {m : Nat}
    (hmem : (r, x) ∈ rules) (hm : m ≤ w.length) (h : w.take m ∈ r.lang) :
    ∃ n y, choose rules w = some (n, y) ∧ m ≤ n := by
  induction rules with
  | nil => cases hmem
  | cons rule rules ih =>
    obtain ⟨r', x'⟩ := rule
    simp only [choose]
    rcases List.mem_cons.mp hmem with heq | hmem
    · cases heq
      obtain ⟨n, hn⟩ := longest_isSome h
      have hmn := (longest_spec hn).max hm h
      rw [hn]
      split
      · rename_i n' k y hn' _
        cases hn'
        split
        · exact ⟨_, _, rfl, hmn⟩
        · exact ⟨_, _, rfl, by omega⟩
      · rename_i hn' _
        cases hn'
        exact ⟨_, _, rfl, hmn⟩
      · rename_i hn'
        cases hn'
    · obtain ⟨n, y, hn, hmn⟩ := ih hmem
      rw [hn]
      split
      · rename_i n' k y' _ hk
        cases hk
        split
        · exact ⟨_, _, rfl, by omega⟩
        · exact ⟨_, _, rfl, hmn⟩
      · rename_i hk
        cases hk
      · exact ⟨_, _, rfl, hmn⟩

/-! ## Texts that go on -/

/-- A match that ends within a text is the longest one in the text alone. -/
theorem IsLongest.cut {l : Language α} {w v : List α} {n : Nat} (h : IsLongest l (w ++ v) n)
    (hn : n ≤ w.length) : IsLongest l w n := by
  have htake : ∀ {m}, m ≤ w.length → (w ++ v).take m = w.take m :=
    fun hm => List.take_append_of_le_length hm
  refine ⟨hn, htake hn ▸ h.mem, fun hm hmem => h.max ?_ ?_⟩
  · rw [List.length_append]
    omega
  · rwa [htake hm]

theorem longest_cut {r : Pattern α} {w v : List α} {n : Nat} (h : longest r (w ++ v) = some n)
    (hn : n ≤ w.length) : longest r w = some n := by
  have hcut := (longest_spec h).cut hn
  obtain ⟨n', hn'⟩ := longest_isSome hcut.mem
  have hlong := longest_spec hn'
  have hle := hlong.max hcut.le hcut.mem
  have hge := hcut.max hlong.le hlong.mem
  rw [hn', Nat.le_antisymm hge hle]

theorem longest_cut_none {r : Pattern α} {w v : List α} (h : longest r (w ++ v) = none) :
    longest r w = none := by
  cases hn : longest r w with
  | none => rfl
  | some n =>
    have hlong := longest_spec hn
    have hmem : (w ++ v).take n ∈ r.lang := by
      rw [List.take_append_of_le_length hlong.le]
      exact hlong.mem
    obtain ⟨n', hn'⟩ := longest_isSome hmem
    rw [h] at hn'
    cases hn'

theorem choose_cut_none {rules : List (Pattern α × ρ)} {w v : List α}
    (h : choose rules (w ++ v) = none) : choose rules w = none := by
  induction rules with
  | nil => rfl
  | cons rule rules ih =>
    obtain ⟨r, x⟩ := rule
    simp only [choose] at h ⊢
    split at h
    · split at h <;> cases h
    · cases h
    · rename_i hr
      rw [longest_cut_none hr]
      exact ih h

/-- The rule chosen for a text is the one chosen for any beginning of it that holds the match. -/
theorem choose_cut {rules : List (Pattern α × ρ)} {w v : List α} {n : Nat} {x : ρ}
    (h : choose rules (w ++ v) = some (n, x)) (hn : n ≤ w.length) :
    choose rules w = some (n, x) := by
  induction rules generalizing n x with
  | nil => cases h
  | cons rule rules ih =>
    obtain ⟨r, y⟩ := rule
    simp only [choose] at h ⊢
    split at h
    · rename_i k m z hr hrest
      split at h
      · rename_i hle
        cases h
        rw [longest_cut hr hn, ih hrest (Nat.le_trans hle hn)]
        exact if_pos hle
      · rename_i hlt
        cases h
        rw [longest_cut hr (by omega), ih hrest hn]
        exact if_neg hlt
    · rename_i k hr hrest
      cases h
      rw [longest_cut hr hn, choose_cut_none hrest]
    · rename_i hr
      rw [longest_cut_none hr]
      exact ih h hn

/-! ## Patterns that match nothing -/

/-- A sufficient test for an empty language. -/
def isVoid : Pattern α → Bool
  | empty => true
  | eps => false
  | sat _ => false
  | alt r s => r.isVoid && s.isVoid
  | seq r s => r.isVoid || s.isVoid
  | star _ => false

theorem notMem_of_isVoid {r : Pattern α} (h : r.isVoid = true) (w : List α) : w ∉ r.lang := by
  induction r generalizing w with
  | empty => exact Language.notMem_zero w
  | eps => cases h
  | sat p => cases h
  | alt r s ihr ihs =>
    simp only [isVoid, Bool.and_eq_true] at h
    simp only [lang, Language.mem_add, not_or]
    exact ⟨ihr h.1 w, ihs h.2 w⟩
  | seq r s ihr ihs =>
    simp only [isVoid, Bool.or_eq_true] at h
    simp only [lang, Language.mem_mul]
    rintro ⟨u, hu, v, hv, -⟩
    rcases h with h | h
    · exact ihr h u hu
    · exact ihs h v hv
  | star r => cases h

/-- No word of the pattern starts with `u`, by the test after the derivatives by `u`. -/
theorem notMem_of_derivs_isVoid {u v : List α} :
    ∀ {r : Pattern α}, (u.foldl (fun r a => r.deriv a) r).isVoid = true → u ++ v ∉ r.lang := by
  induction u with
  | nil => exact fun h => notMem_of_isVoid h v
  | cons a u ih =>
    intro r h hmem
    exact ih h ((deriv_lang r a (u ++ v)).mpr hmem)

/-! ## Matches that nothing further on can change -/

/-- The longest match at the front of any text that starts with this one, if this one settles it. -/
def longestSettled (r : Pattern α) : List α → Option (Option Nat)
  | [] => if r.isVoid then some none else none
  | a :: w =>
    if r.isVoid then some none
    else
      match longestSettled (r.deriv a) w with
      | some (some n) => some (some (n + 1))
      | some none => some (if r.nullable then some 0 else none)
      | none => none

/-- `choose` on any text that starts with this one, if this one settles it. -/
def settle : List (Pattern α × ρ) → List α → Option (Option (Nat × ρ))
  | [], _ => some none
  | (r, x) :: rules, w =>
    match longestSettled r w, settle rules w with
    | some (some n), some (some (m, y)) => if m ≤ n then some (some (n, x)) else some (some (m, y))
    | some (some n), some none => some (some (n, x))
    | some none, some best => some best
    | _, _ => none

theorem longest_of_isVoid {r : Pattern α} (h : r.isVoid = true) (w : List α) :
    longest r w = none := by
  obtain ⟨n, -, hl⟩ | ⟨hn, -⟩ := longest_cases r w
  · exact absurd hl.mem (notMem_of_isVoid h _)
  · exact hn

theorem longestSettled_spec {r : Pattern α} {w : List α} {res : Option Nat}
    (h : longestSettled r w = some res) (v : List α) : longest r (w ++ v) = res := by
  induction w generalizing r res with
  | nil =>
    simp only [longestSettled] at h
    split at h
    · rename_i hvoid
      cases h
      exact longest_of_isVoid hvoid _
    · cases h
  | cons a w ih =>
    simp only [longestSettled] at h
    split at h
    · rename_i hvoid
      cases h
      exact longest_of_isVoid hvoid _
    · split at h
      · rename_i n hn
        cases h
        rw [List.cons_append, longest, ih hn]
      · rename_i hn
        cases h
        rw [List.cons_append, longest, ih hn]
      · cases h

theorem settle_spec {rules : List (Pattern α × ρ)} {w : List α} {res : Option (Nat × ρ)}
    (h : settle rules w = some res) (v : List α) : choose rules (w ++ v) = res := by
  induction rules generalizing res with
  | nil =>
    cases h
    rfl
  | cons rule rules ih =>
    obtain ⟨r, x⟩ := rule
    simp only [settle] at h
    simp only [choose]
    split at h
    · rename_i n m y hn hm
      rw [longestSettled_spec hn v, ih hm]
      dsimp only
      split at h
      · rename_i hle
        cases h
        rw [if_pos hle]
      · rename_i hle
        cases h
        rw [if_neg hle]
    · rename_i n hn hm
      rw [longestSettled_spec hn v, ih hm]
      cases h
      rfl
    · rename_i best hn hm
      rw [longestSettled_spec hn v, ih hm]
      cases h
      rfl
    · cases h

/-! ## Words of single characters -/

theorem mem_sat {p : α → Bool} {w : List α} : w ∈ (sat p).lang ↔ ∃ a, p a = true ∧ w = [a] :=
  Iff.rfl

theorem mem_chr [DecidableEq α] {a : α} {w : List α} : w ∈ (chr a).lang ↔ w = [a] := by
  simp [chr, mem_sat]

theorem mem_seq {r s : Pattern α} {w : List α} :
    w ∈ (seq r s).lang ↔ ∃ u ∈ r.lang, ∃ v ∈ s.lang, u ++ v = w := Language.mem_mul

theorem mem_alt {r s : Pattern α} {w : List α} : w ∈ (alt r s).lang ↔ w ∈ r.lang ∨ w ∈ s.lang := by
  simp only [lang, Language.mem_add]

end Pattern
