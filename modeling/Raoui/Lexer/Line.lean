import Raoui.Lexer.Step

/-!
# Raoui.Lexer.Line

Lexing a whole line: `Lexes` repeats `token` until the end of the line without the guard of
`lex_line`, and always comes to an end. `lex_line` gives its result, unless the line has more than
1000 tokens.
-/

namespace Raoui
namespace RLexer

open Utf8 (encode)

/-- A token as it enters the result of `lex_line`. -/
def Token.expand : Token → List Token
  | .lambda => [.lambda, .leftParen]
  | t => [t]

theorem Token.expand_ne_nil (t : Token) : 0 < t.expand.length := by
  cases t <;> simp [Token.expand]

/-- What is left to do: the code points, and a token for text carried to the end of the line. -/
def remaining (mode : Mode) (cs : List Char) : Nat :=
  2 * cs.length + if mode.carried = [] then 0 else 1

theorem Step.remaining_lt {mode m : Mode} {cs rest : List Char} {t : Token}
    (h : Step mode cs (t, m, rest)) (ht : t ≠ .eof) : remaining m rest < remaining mode cs := by
  unfold remaining
  cases h with
  | ends => exact absurd rfl ht
  | drops => exact absurd rfl ht
  | reads _ hc _ hlt _ =>
    rw [if_pos hc]
    rcases hlt with hlt | ⟨rfl, rfl, hcarried⟩
    · omega
    · rw [if_neg hcarried]
      omega
  | doubles _ hraw =>
    obtain ⟨q, tl, rfl, -⟩ := hraw
    simp only [List.length_cons, List.length_nil]
    split <;> omega

variable [Ucd]

/-- The tokens of the rest of a line and the mode at its end. -/
inductive Lexes : Mode → List Char → List Token → Mode → Prop where
  | eof {mode m : Mode} {cs rest : List Char} :
      token mode cs = .ok (.eof, m, rest) → Lexes mode cs [] m
  | next {mode m m' : Mode} {cs rest : List Char} {t : Token} {ts : List Token} :
      token mode cs = .ok (t, m, rest) → t ≠ .eof → Lexes m rest ts m' →
      Lexes mode cs (t.expand ++ ts) m'

theorem Lexes.unique {mode m₁ m₂ : Mode} {cs : List Char} {ts₁ ts₂ : List Token}
    (h₁ : Lexes mode cs ts₁ m₁) (h₂ : Lexes mode cs ts₂ m₂) : ts₁ = ts₂ ∧ m₁ = m₂ := by
  induction h₁ generalizing ts₂ with
  | eof ht =>
    cases h₂ with
    | eof ht' =>
      rw [ht] at ht'
      cases ht'
      exact ⟨rfl, rfl⟩
    | next ht' hne _ =>
      rw [ht] at ht'
      cases ht'
      exact absurd rfl hne
  | next ht hne _ ih =>
    cases h₂ with
    | eof ht' =>
      rw [ht] at ht'
      cases ht'
      exact absurd rfl hne
    | next ht' _ hrest =>
      rw [ht] at ht'
      cases ht'
      obtain ⟨rfl, rfl⟩ := ih hrest
      exact ⟨rfl, rfl⟩

/-! ## Termination -/

theorem lexes_total (mode : Mode) (cs : List Char) : ∃ ts m, Lexes mode cs ts m := by
  induction h : remaining mode cs using Nat.strong_induction_on generalizing mode cs with
  | h n ih =>
    obtain ⟨⟨t, m, rest⟩, ht, hstep⟩ := token_step mode cs
    by_cases hne : t = .eof
    · subst hne
      exact ⟨[], m, .eof ht⟩
    · obtain ⟨ts, m', hrest⟩ := ih _ (h ▸ hstep.remaining_lt hne) m rest rfl
      exact ⟨_, m', .next ht hne hrest⟩

/-! ## The loop of `lex_line` -/

theorem lexLoop_next {fuel : Nat} {acc : List Token} {mode m : Mode} {cs rest : List Char}
    {t : Token} (hacc : acc.length ≤ 1000) (ht : token mode cs = .ok (t, m, rest)) (hne : t ≠ .eof) :
    lexLoop (fuel + 1) acc mode cs = lexLoop fuel (t.expand.reverse ++ acc) m rest := by
  rw [lexLoop, if_neg (by omega), ht]
  cases t <;> first | exact absurd rfl hne | rfl

/-- With fuel for every round the guard allows, the loop gives all tokens or trips the guard. -/
theorem lexLoop_eq {mode m : Mode} {cs : List Char} {ts : List Token} (h : Lexes mode cs ts m) :
    ∀ (fuel : Nat) (acc : List Token), 1002 ≤ fuel + acc.length →
      (acc.length + ts.length ≤ 1000 → lexLoop fuel acc mode cs = .ok (acc.reverse ++ ts, m)) ∧
      (1000 < acc.length + ts.length → ∃ e, lexLoop fuel acc mode cs = .error e) := by
  induction h with
  | eof ht =>
    intro fuel acc hfuel
    constructor
    · intro hle
      obtain ⟨k, rfl⟩ : ∃ k, fuel = k + 1 := ⟨fuel - 1, by simp at hle; omega⟩
      rw [lexLoop, if_neg (by simp at hle; omega), ht]
      simp
    · intro hgt
      cases fuel with
      | zero => exact ⟨_, rfl⟩
      | succ k => exact ⟨_, by rw [lexLoop, if_pos (by simpa using hgt)]⟩
  | @next mode m m' cs rest t ts ht hne _ ih =>
    intro fuel acc hfuel
    have hpos := t.expand_ne_nil
    cases fuel with
    | zero =>
      exact ⟨fun hle => by omega, fun _ => ⟨_, rfl⟩⟩
    | succ k =>
      by_cases hacc : acc.length ≤ 1000
      · rw [lexLoop_next hacc ht hne]
        have := ih k (t.expand.reverse ++ acc)
          (by simp only [List.length_append, List.length_reverse]; omega)
        simp only [List.length_append, List.length_reverse, List.reverse_append,
          List.reverse_reverse, List.append_assoc] at this ⊢
        exact ⟨fun hle => this.1 (by omega), fun hgt => this.2 (by omega)⟩
      · refine ⟨fun hle => by omega, fun _ => ⟨tooMuchIteration acc, ?_⟩⟩
        rw [lexLoop, if_pos (by omega)]

theorem lexLine_lexes {mode m : Mode} {line : Bytes} {ts : List Token}
    (h : lexLine mode line = .ok (ts, m)) : ∃ cs, Utf8.decode line = some cs ∧ Lexes mode cs ts m := by
  unfold lexLine at h
  split at h
  · rename_i cs hcs
    obtain ⟨ts', m', hl⟩ := lexes_total mode cs
    obtain ⟨hok, herr⟩ := lexLoop_eq hl 1002 [] (by simp)
    by_cases hle : ts'.length ≤ 1000
    · rw [hok (by simpa using hle)] at h
      cases h
      exact ⟨cs, hcs, hl⟩
    · obtain ⟨e, he⟩ := herr (by simpa using hle)
      rw [he] at h
      cases h
  · cases h

/-- A line comes to an end with at most 1000 tokens. -/
def WithinGuard (mode : Mode) (line : Bytes) : Prop :=
  ∃ cs ts m, Utf8.decode line = some cs ∧ Lexes mode cs ts m ∧ ts.length ≤ 1000

/-- On valid text, in any mode, the lexer returns exactly when the line has at most 1000 tokens. -/
theorem lexLine_returns_iff (mode : Mode) (line : Bytes) (hvalid : ∃ cs, Utf8.decode line = some cs) :
    (∃ r, lexLine mode line = .ok r) ↔ WithinGuard mode line := by
  obtain ⟨cs, hcs⟩ := hvalid
  obtain ⟨ts, m, hl⟩ := lexes_total mode cs
  obtain ⟨hok, herr⟩ := lexLoop_eq hl 1002 [] (by simp)
  simp only [lexLine, hcs]
  constructor
  · rintro ⟨r, hr⟩
    by_contra hno
    obtain ⟨e, he⟩ := herr (by
      by_contra hle
      exact hno ⟨cs, ts, m, hcs, hl, by simpa using hle⟩)
    rw [he] at hr
    cases hr
  · rintro ⟨cs', ts', m', hcs', hl', hle⟩
    rw [hcs] at hcs'
    cases hcs'
    obtain ⟨rfl, rfl⟩ := hl.unique hl'
    exact ⟨_, hok (by simpa using hle)⟩

end RLexer

/-! ## The guard is reachable -/

namespace RLexer

attribute [local instance] asciiUcd

theorem lexLine_returns_short :
    (∃ r, lexLine .normal (bytes "x") = .ok r) ↔ WithinGuard .normal (bytes "x") :=
  lexLine_returns_iff .normal (bytes "x") ⟨['x'], by decide⟩

/-- Only two rules match a text that starts with a parenthesis, and both match one character. -/
theorem rules_paren : (rules.all fun p => p.2 = .leftParen || p.2 = .any ||
    (p.1.deriv '(').isVoid) = true := rfl

theorem token_paren (cs : List Char) :
    ∃ t, token .normal ('(' :: cs) = .ok (t, .normal, cs) ∧ t ≠ .eof ∧ t.expand.length = 1 := by
  obtain ⟨n, rule, hn, hlex, hne⟩ := choose_rules (List.cons_ne_nil '(' cs)
  obtain ⟨r, hr, hlong⟩ := Pattern.choose_spec hn
  obtain ⟨k, rfl⟩ : ∃ k, n = k + 1 := by
    cases n with
    | zero => exact absurd rfl hne
    | succ k => exact ⟨k, rfl⟩
  have hone : ∀ c, ('(' :: cs).take (k + 1) = [c] → k = 0 := by
    intro c hc
    have := congrArg List.length hc
    rw [List.length_take, Nat.min_eq_left hlong.le] at this
    exact Nat.succ.inj this
  have htoken : token .normal ('(' :: cs) = action rule (('(' :: cs).take (k + 1)) (cs.drop k) := by
    simp only [token, readNormal, hn, List.drop_succ_cons]
  by_cases hparen : rule = .leftParen
  · subst hparen
    obtain rfl := hone _ hlex
    exact ⟨.leftParen, htoken, (fun heof => by cases heof), rfl⟩
  · by_cases hany : rule = .any
    · subst hany
      obtain ⟨c, hc⟩ := hlex
      obtain rfl := hone c hc
      exact ⟨.unknown (bytes "("), htoken, (fun heof => by cases heof), rfl⟩
    · have hvoid := List.all_eq_true.mp rules_paren _ hr
      rw [Bool.or_eq_true, Bool.or_eq_true, decide_eq_true_eq, decide_eq_true_eq] at hvoid
      replace hvoid := hvoid.resolve_left fun h => h.elim hparen hany
      exact absurd hlong.mem (Pattern.notMem_of_derivs_isVoid (u := ['(']) (v := cs.take k) hvoid)

/-- Each parenthesis before a text is a token of its own. -/
theorem lexes_parens_before {cs : List Char} {ts : List Token} {m : Mode}
    (h : Lexes .normal cs ts m) (n : Nat) :
    ∃ ts', Lexes .normal (List.replicate n '(' ++ cs) ts' m ∧ ts'.length = n + ts.length := by
  induction n with
  | zero => exact ⟨ts, h, (Nat.zero_add _).symm⟩
  | succ n ih =>
    obtain ⟨ts', hts, hlen⟩ := ih
    obtain ⟨t, ht, hne, hexpand⟩ := token_paren (List.replicate n '(' ++ cs)
    refine ⟨_, .next ht hne hts, ?_⟩
    rw [List.length_append, hlen, hexpand]
    omega

theorem lexes_parens (n : Nat) : ∃ ts, Lexes .normal (List.replicate n '(') ts .normal ∧ ts.length = n := by
  obtain ⟨ts, hts, hlen⟩ := lexes_parens_before (show Lexes .normal [] [] .normal from .eof rfl) n
  rw [List.append_nil] at hts
  exact ⟨ts, hts, hlen⟩

/-- A line well within the paste limit on which the lexer raises. -/
theorem lexLine_raises_on_parens : ∃ cs, Utf8.decode (List.replicate 1001 40) = some cs ∧
    (List.replicate 1001 (40 : UInt8)).length ≤ 5 * 1024 ∧
    ¬ ∃ r, lexLine .normal (List.replicate 1001 40) = .ok r := by
  have hcs := Utf8.decode_encode (List.replicate 1001 '(')
  rw [Utf8.encode_replicate (b := 40) (by decide)] at hcs
  refine ⟨_, hcs, by rw [List.length_replicate]; omega, ?_⟩
  rw [lexLine_returns_iff _ _ ⟨_, hcs⟩]
  rintro ⟨cs, ts, m, hcs', hl, hle⟩
  rw [hcs] at hcs'
  cases hcs'
  obtain ⟨ts', hl', hlen⟩ := lexes_parens 1001
  rw [(hl.unique hl').1, hlen] at hle
  omega

end RLexer
end Raoui
