import Raoui.Lexer.Provenance
import Raoui.View.Ranges

/-!
# Raoui.View.Highlights

When a line can be highlighted, and where its ranges lie. Highlighting lexes the interpolations of
the strings given to `glue`, and raises where the lexer does. The ranges of a line are within its
text unless one of its tokens starts behind the end of the text.

* `Highlights`: every interpolation, at any depth, can be lexed.
* `rangesForEntry_returns_iff`: a line can be highlighted.
* `rangesForEntry_bounded_iff`: its ranges are within its text.
-/

namespace Raoui
namespace RHighlight

open Outcome (bind_eq_ok bind_returns_iff bind_pure_returns_iff)
open RLexer (Token lexLine tokenToLexeme lexemes)
open LexerCache (Entry tokensWithPositions)
open TerminalOps (Style)

/-! ## Interpolations -/

/-- The expressions in a literal from `pos` on, where `parse` looks for them. -/
def exprsFrom (s : Bytes) (innerEnd : Nat) : Nat → Nat → List Bytes
  | 0, _ => []
  | fuel + 1, pos =>
    match (s.take innerEnd).drop pos with
    | [] => []
    | c :: rest =>
      if c = openBrace then
        if rest.head? = some openBrace then exprsFrom s innerEnd fuel (pos + 2)
        else
          match findClose 1 (pos + 1) rest with
          | none => []
          | some closePos =>
            rest.take (closePos - (pos + 1)) :: exprsFrom s innerEnd fuel (closePos + 1)
      else if c = closeBrace then
        if rest.head? = some closeBrace then exprsFrom s innerEnd fuel (pos + 2)
        else exprsFrom s innerEnd fuel (pos + 1)
      else exprsFrom s innerEnd fuel (findBrace pos (c :: rest))

def interpolations (s : Bytes) : List Bytes :=
  if isDoubleQuoted s then exprsFrom s (innerEnd s) s.length 1 else []

theorem exprsFrom_length_lt {s expr : Bytes} {inner fuel pos : Nat}
    (h : expr ∈ exprsFrom s inner fuel pos) : expr.length < s.length := by
  induction fuel generalizing pos with
  | zero => cases h
  | succ fuel ih =>
    unfold exprsFrom at h
    split at h
    · cases h
    · rename_i c rest hrest
      have hlen := congrArg List.length hrest
      simp only [List.length_drop, List.length_take, List.length_cons] at hlen
      split at h
      · split at h
        · exact ih h
        · split at h
          · cases h
          · rcases List.mem_cons.mp h with rfl | h
            · rw [List.length_take]
              omega
            · exact ih h
      · split at h
        · split at h
          · exact ih h
          · exact ih h
        · exact ih h

theorem interpolations_length_lt {s expr : Bytes} (h : expr ∈ interpolations s) :
    expr.length < s.length := by
  unfold interpolations at h
  split at h
  · exact exprsFrom_length_lt h
  · cases h

theorem findClose_spec {depth pos k : Nat} {s : Bytes} (h : findClose depth pos s = some k) :
    pos ≤ k ∧ k < pos + s.length := by
  induction s generalizing depth pos with
  | nil => cases h
  | cons c rest ih =>
    have hlater : ∀ {d}, findClose d (pos + 1) rest = some k →
        pos ≤ k ∧ k < pos + (c :: rest).length := by
      intro d hd
      have := ih hd
      rw [List.length_cons]
      omega
    unfold findClose at h
    split at h
    · exact hlater h
    · split at h
      · split at h
        · cases h
          exact ⟨Nat.le_refl _, by rw [List.length_cons]; omega⟩
        · exact hlater h
      · exact hlater h

section
variable {e : Bytes → Res (List StyledRange)}

theorem parseGlue_returns_iff (startByte : Nat) (s : Bytes) (inner fuel : Nat)
    (acc : List StyledRange) (pos : Nat) :
    (∃ l, parseGlue e startByte s inner fuel acc pos = .ok l) ↔
      ∀ expr ∈ exprsFrom s inner fuel pos, ∃ r, e expr = .ok r := by
  induction fuel generalizing acc pos with
  | zero => exact ⟨fun _ => List.forall_mem_nil _, fun _ => ⟨acc, rfl⟩⟩
  | succ fuel ih =>
    unfold parseGlue exprsFrom
    cases (s.take inner).drop pos with
    | nil => exact ⟨fun _ => List.forall_mem_nil _, fun _ => ⟨acc, rfl⟩⟩
    | cons c rest =>
      dsimp only
      split
      · split
        · exact ih _ _
        · cases findClose 1 (pos + 1) rest with
          | none => exact ⟨fun _ => List.forall_mem_nil _, fun _ => ⟨_, rfl⟩⟩
          | some closePos =>
            dsimp only
            rw [List.forall_mem_cons]
            exact bind_returns_iff fun r => ih _ _
      · split
        · split
          · exact ih _ _
          · exact ih _ _
        · exact ih _ _

theorem glueStringRanges_returns_iff (startByte : Nat) (s : Bytes) :
    (∃ l, glueStringRanges e startByte s = .ok l) ↔
      ∀ expr ∈ interpolations s, ∃ r, e expr = .ok r := by
  unfold glueStringRanges interpolations
  cases isDoubleQuoted s with
  | false => exact ⟨fun _ => List.forall_mem_nil _, fun _ => ⟨_, rfl⟩⟩
  | true =>
    exact bind_pure_returns_iff.trans (parseGlue_returns_iff startByte s (innerEnd s) s.length
      [⟨startByte, startByte + 1, .string⟩] 1)

/-- The range starts in a literal of `n` bytes at `startByte`. -/
def StartsIn (startByte n : Nat) (r : StyledRange) : Prop :=
  startByte ≤ r.startByte ∧ r.startByte ≤ startByte + (n - 1)

theorem parseGlue_starts {startByte : Nat} {s : Bytes} {inner : Nat} (hinner : inner ≤ s.length)
    (he : ∀ expr r, e expr = .ok r → ∀ q ∈ r, q.startByte ≤ expr.length) {fuel : Nat}
    {acc l : List StyledRange} {pos : Nat} (hne : acc ≠ [])
    (hacc : ∀ r ∈ acc, StartsIn startByte s.length r)
    (h : parseGlue e startByte s inner fuel acc pos = .ok l) :
    l ≠ [] ∧ ∀ r ∈ l, StartsIn startByte s.length r := by
  induction fuel generalizing acc pos with
  | zero =>
    cases h
    exact ⟨hne, hacc⟩
  | succ fuel ih =>
    have hnext : ∀ {range pos'}, StartsIn startByte s.length range →
        parseGlue e startByte s inner fuel (range :: acc) pos' = .ok l →
        l ≠ [] ∧ ∀ r ∈ l, StartsIn startByte s.length r := fun hrange h =>
      ih (List.cons_ne_nil _ _) (List.forall_mem_cons.mpr ⟨hrange, hacc⟩) h
    unfold parseGlue at h
    split at h
    · cases h
      exact ⟨hne, hacc⟩
    · rename_i c rest hrest
      have hlen := congrArg List.length hrest
      simp only [List.length_drop, List.length_take, List.length_cons] at hlen
      have hin : ∀ {stop style}, StartsIn startByte s.length ⟨startByte + pos, stop, style⟩ :=
        ⟨Nat.le_add_right .., by dsimp only; omega⟩
      dsimp only at h
      split at h
      · split at h
        · exact hnext hin h
        · split at h
          · cases h
            exact ⟨List.cons_ne_nil _ _, List.forall_mem_cons.mpr ⟨hin, hacc⟩⟩
          · rename_i closePos hclose
            obtain ⟨hle, hlt⟩ := findClose_spec hclose
            obtain ⟨r, hr, h⟩ := bind_eq_ok.mp h
            refine ih (by simp) ?_ h
            intro q hq
            rcases List.mem_append.mp hq with hq | hq
            · rw [List.mem_reverse] at hq
              rcases List.mem_append.mp hq with hq | hq
              · rcases List.mem_append.mp hq with hq | hq
                · cases List.mem_singleton.mp hq
                  exact hin
                · obtain ⟨q', hq', rfl⟩ := List.mem_map.mp hq
                  have hstart := he _ r hr q' hq'
                  rw [List.length_take] at hstart
                  constructor
                  · show startByte ≤ q'.startByte + (startByte + (pos + 1))
                    omega
                  · show q'.startByte + (startByte + (pos + 1)) ≤ startByte + (s.length - 1)
                    omega
              · cases List.mem_singleton.mp hq
                exact ⟨Nat.le_add_right .., by dsimp only; omega⟩
            · exact hacc q hq
      · split at h
        · split at h
          · exact hnext hin h
          · exact hnext hin h
        · exact hnext hin h

theorem glueStringRanges_starts
    (he : ∀ expr r, e expr = .ok r → ∀ q ∈ r, q.startByte ≤ expr.length) {startByte : Nat}
    {s : Bytes} {l : List StyledRange} (h : glueStringRanges e startByte s = .ok l) :
    l ≠ [] ∧ ∀ r ∈ l, StartsIn startByte s.length r := by
  have hfirst : ∀ {stop style}, StartsIn startByte s.length ⟨startByte, stop, style⟩ :=
    ⟨Nat.le_refl _, Nat.le_add_right ..⟩
  unfold glueStringRanges at h
  split at h
  · cases h
    exact ⟨List.cons_ne_nil _ _, List.forall_mem_singleton.mpr hfirst⟩
  · rename_i hquoted
    have hlen : 2 ≤ s.length := by
      simp only [isDoubleQuoted, Bool.and_eq_true, Bool.not_eq_true', decide_eq_true_eq,
        Bool.not_eq_false] at hquoted
      exact hquoted.1
    have hinner : innerEnd s ≤ s.length := by
      unfold innerEnd
      split
      · exact Nat.sub_le ..
      · exact Nat.le_refl _
    obtain ⟨acc, hacc, h⟩ := bind_eq_ok.mp h
    obtain ⟨hne, hstarts⟩ := parseGlue_starts hinner he (List.cons_ne_nil _ _)
      (List.forall_mem_singleton.mpr hfirst) hacc
    cases h
    refine ⟨mergeLoop_ne_nil (.inr ?_), mergeRanges_starts (P := fun k =>
      startByte ≤ k ∧ k ≤ startByte + (s.length - 1)) ?_⟩
    · split
      · exact List.cons_ne_nil _ _
      · simpa using hne
    · split
      · exact List.forall_mem_cons.mpr ⟨by dsimp only; omega, hstarts⟩
      · exact fun r hr => hstarts r (List.mem_reverse.mp hr)

end

/-! ## Calls of `glue` -/

/-- The literal is given to `glue` first. -/
inductive GlueArgument : List Token → Bytes → Prop where
  | here {f s : Bytes} {ts : List Token} :
      isGlue f = true → GlueArgument (.ident f :: .leftParen :: .string s :: ts) s
  | later {t : Token} {ts : List Token} {s : Bytes} : GlueArgument ts s → GlueArgument (t :: ts) s

theorem GlueArgument.string_mem {ts : List Token} {s : Bytes} (h : GlueArgument ts s) :
    .string s ∈ ts := by
  induction h with
  | here _ => simp
  | later _ ih => exact List.mem_cons_of_mem _ ih

def positions (pos : Nat) (ts : List Token) : List (Token × Nat × Nat) :=
  tokensWithPositions tokenToLexeme pos ts

/-- What follows a call of `glue` with a literal. -/
theorem glueArgument_cons_iff {f s : Bytes} {ts : List Token} (hf : isGlue f = true) {s' : Bytes} :
    GlueArgument (.ident f :: .leftParen :: .string s :: ts) s' ↔ s' = s ∨ GlueArgument ts s' := by
  constructor
  · intro h
    cases h with
    | here _ => exact .inl rfl
    | later h =>
      cases h with
      | later h =>
        cases h with
        | later h => exact .inr h
  · rintro (rfl | h)
    · exact .here hf
    · exact .later (.later (.later h))

/-- The loop finds a call of `glue` with a literal. -/
def GlueCall (t : Token) (ts : List Token) : Prop :=
  ∃ f s ts', t = .ident f ∧ ts = .leftParen :: .string s :: ts' ∧ isGlue f = true

theorem glueArgument_cons_token_iff {t : Token} {ts : List Token} (hg : ¬ GlueCall t ts)
    (s : Bytes) :
    GlueArgument (t :: ts) s ↔ GlueArgument ts s := by
  refine ⟨fun h => ?_, .later⟩
  cases h with
  | here hf => exact absurd ⟨_, _, _, rfl, rfl, hf⟩ hg
  | later h => exact h

/-- Tokens read as the loop reads them: a call of `glue` with a literal, or one token. -/
theorem glueInduction {P : List Token → Prop} (nil : P [])
    (glue : ∀ f s ts, isGlue f = true → P ts → P (.ident f :: .leftParen :: .string s :: ts))
    (token : ∀ t ts, ¬ GlueCall t ts → P ts → P (t :: ts)) (ts : List Token) : P ts := by
  induction h : ts.length using Nat.strong_induction_on generalizing ts with
  | h k ih =>
    cases ts with
    | nil => exact nil
    | cons t ts =>
      rw [List.length_cons] at h
      by_cases hg : GlueCall t ts
      · obtain ⟨f, s, ts', rfl, rfl, hf⟩ := hg
        simp only [List.length_cons] at h
        exact glue f s ts' hf (ih ts'.length (by omega) ts' rfl)
      · exact token t ts hg (ih ts.length (by omega) ts rfl)

/-- The style of a token in front of `rest`: the name of a function called is told apart. -/
def tokenStyle (t : Token) (rest : List Token) : Style :=
  match t, rest with
  | .ident _, .leftParen :: _ => .function
  | _, _ => styleOfToken t

theorem rangesLoop_glue (glueRanges : Nat → Bytes → Res (List StyledRange)) (pos : Nat) {f : Bytes}
    (hf : isGlue f = true) (s : Bytes) (ts : List Token) :
    rangesLoop glueRanges (positions pos (.ident f :: .leftParen :: .string s :: ts)) = do
      let argument ← glueRanges (pos + f.length + 1) s
      return [⟨pos, pos + f.length, .function⟩, ⟨pos + f.length, pos + f.length + 1, .bracket⟩] ++
        argument ++ (← rangesLoop glueRanges (positions (pos + f.length + 1 + s.length) ts)) := by
  show (if isGlue f = true then _ else _) = _
  rw [if_pos hf]
  rfl

theorem rangesLoop_token (glueRanges : Nat → Bytes → Res (List StyledRange)) (pos : Nat) {t : Token}
    {ts : List Token} (hg : ¬ GlueCall t ts) :
    rangesLoop glueRanges (positions pos (t :: ts)) = do
      return ⟨pos, pos + (tokenToLexeme t).length, tokenStyle t ts⟩ ::
        (← rangesLoop glueRanges (positions (pos + (tokenToLexeme t).length) ts)) := by
  cases t with
  | ident f =>
    cases ts with
    | nil => rfl
    | cons t₁ ts =>
      cases t₁ with
      | leftParen =>
        cases ts with
        | nil => rfl
        | cons t₂ ts =>
          cases t₂ with
          | string s =>
            show (if isGlue f = true then _ else _) = _
            rw [if_neg fun hf => hg ⟨f, s, ts, rfl, rfl, hf⟩]
            rfl
          | _ => rfl
      | _ => rfl
  | _ => rfl

theorem rangesLoop_returns_iff {e : Bytes → Res (List StyledRange)} (ts : List Token) :
    ∀ pos, (∃ l, rangesLoop (glueStringRanges e) (positions pos ts) = .ok l) ↔
      ∀ s, GlueArgument ts s → ∀ expr ∈ interpolations s, ∃ r, e expr = .ok r := by
  induction ts using glueInduction with
  | nil => exact fun _ => ⟨fun _ => nofun, fun _ => ⟨[], rfl⟩⟩
  | glue f s ts hf ih =>
    intro pos
    rw [rangesLoop_glue _ _ hf]
    simp only [glueArgument_cons_iff hf, forall_eq_or_imp]
    rw [← glueStringRanges_returns_iff (pos + f.length + 1), ← ih (pos + f.length + 1 + s.length)]
    exact bind_returns_iff fun _ => bind_pure_returns_iff
  | token t ts hg ih =>
    intro pos
    rw [rangesLoop_token _ _ hg]
    simp only [glueArgument_cons_token_iff hg]
    exact bind_pure_returns_iff.trans (ih (pos + (tokenToLexeme t).length))

/-! ## Highlighting -/

section
variable [Ucd]

/-- Every interpolation in the tokens can be lexed, and so can those in its own tokens. -/
inductive Highlights : List Token → Prop where
  | intro {ts : List Token} :
      (∀ s expr, GlueArgument ts s → expr ∈ interpolations s →
        ∃ r, lexLine .normal expr = .ok r) →
      (∀ s expr exprTokens m, GlueArgument ts s → expr ∈ interpolations s →
        lexLine .normal expr = .ok (exprTokens, m) → Highlights exprTokens) → Highlights ts

theorem rangesAt_returns_iff {depth : Nat} {ts : List Token}
    (h : ∀ s, .string s ∈ ts → s.length ≤ depth) :
    (∃ l, rangesAt (depth + 1) ts = .ok l) ↔ Highlights ts := by
  induction depth generalizing ts with
  | zero =>
    have hno : ∀ s, GlueArgument ts s → ∀ expr, expr ∉ interpolations s := by
      intro s hs expr hexpr
      have h₁ := h s hs.string_mem
      have h₂ := interpolations_length_lt hexpr
      omega
    refine (rangesLoop_returns_iff ts 0).trans ?_
    exact ⟨fun _ => .intro (fun s expr hs hexpr => absurd hexpr (hno s hs expr))
      fun s expr _ _ hs hexpr => absurd hexpr (hno s hs expr),
      fun _ s hs expr hexpr => absurd hexpr (hno s hs expr)⟩
  | succ depth ih =>
    -- the strings of an expression are shorter than the literal it is in
    have hinner : ∀ {s expr exprTokens m}, GlueArgument ts s → expr ∈ interpolations s →
        lexLine .normal expr = .ok (exprTokens, m) → ∀ s', .string s' ∈ exprTokens →
        s'.length ≤ depth := by
      intro s expr exprTokens m hs hexpr hlex s' hs'
      have h₁ := h s hs.string_mem
      have h₂ := interpolations_length_lt hexpr
      have h₃ := RLexer.lexLine_string_le hlex hs'
      have h₄ : (RLexer.Mode.carried .normal).length = 0 := rfl
      omega
    refine (rangesLoop_returns_iff ts 0).trans ?_
    constructor
    · intro hall
      refine .intro (fun s expr hs hexpr => ?_) fun s expr exprTokens m hs hexpr hlex => ?_
      · obtain ⟨r, hr⟩ := hall s hs expr hexpr
        obtain ⟨r', hlex, -⟩ := bind_eq_ok.mp hr
        exact ⟨r', hlex⟩
      · obtain ⟨r, hr⟩ := hall s hs expr hexpr
        obtain ⟨r', hlex', hr⟩ := bind_eq_ok.mp hr
        rw [hlex] at hlex'
        cases hlex'
        obtain ⟨l, hl, -⟩ := bind_eq_ok.mp hr
        exact (ih (hinner hs hexpr hlex)).mp ⟨l, hl⟩
    · rintro ⟨hlexes, hinside⟩ s hs expr hexpr
      obtain ⟨⟨exprTokens, m⟩, hlex⟩ := hlexes s expr hs hexpr
      obtain ⟨l, hl⟩ := (ih (hinner hs hexpr hlex)).mpr (hinside s expr exprTokens m hs hexpr hlex)
      exact ⟨_, bind_eq_ok.mpr ⟨_, hlex, bind_eq_ok.mpr ⟨l, hl, rfl⟩⟩⟩

omit [Ucd] in
theorem string_length_le {ts : List Token} {s : Bytes} (h : .string s ∈ ts) :
    s.length ≤ (ts.flatMap tokenToLexeme).length := by
  have hmem : s ∈ ts.map tokenToLexeme := List.mem_map_of_mem (f := tokenToLexeme) h
  rw [List.flatMap_def]
  exact (List.sublist_flatten_of_mem hmem).length_le

theorem rangesForTokens_returns_iff (ts : List Token) :
    (∃ l, rangesForTokens ts = .ok l) ↔ Highlights ts :=
  rangesAt_returns_iff fun _ => string_length_le

theorem rangesForEntry_returns_iff (entry : Entry Token RLexer.Mode) :
    (∃ ranges, rangesForEntry entry = .ok ranges) ↔ Highlights entry.tokens :=
  bind_pure_returns_iff.trans (rangesForTokens_returns_iff entry.tokens)

end

/-! ## Ranges within the text -/

theorem mem_positions_cons {n pos : Nat} {t : Token} {ts : List Token} :
    (∀ p ∈ positions pos (t :: ts), p.2.1 ≤ n) ↔
      pos ≤ n ∧ ∀ p ∈ positions (pos + (tokenToLexeme t).length) ts, p.2.1 ≤ n :=
  List.forall_mem_cons

/-- The ranges start within the first `n` bytes when the tokens do, if a literal given to `glue` at
the end of the line has no more than its last byte behind them. -/
theorem rangesLoop_starts_iff {glueRanges : Nat → Bytes → Res (List StyledRange)} {n : Nat}
    (hglue : ∀ startByte s l, glueRanges startByte s = .ok l →
      l ≠ [] ∧ ∀ r ∈ l, StartsIn startByte s.length r) (ts : List Token) :
    ∀ (pos : Nat) (l : List StyledRange), rangesLoop glueRanges (positions pos ts) = .ok l →
      (∀ us f s, ts = us ++ [.ident f, .leftParen, .string s] →
        pos + (lexemes ts).length ≤ n + 1) →
      ((∀ r ∈ l, r.startByte ≤ n) ↔ ∀ p ∈ positions pos ts, p.2.1 ≤ n) := by
  induction ts using glueInduction with
  | nil =>
    intro pos l hl _
    cases hl
    exact ⟨fun _ => List.forall_mem_nil _, fun _ => List.forall_mem_nil _⟩
  | glue f s ts hf ih =>
    intro pos l hl hlast
    rw [rangesLoop_glue _ _ hf] at hl
    obtain ⟨argument, hargument, hl⟩ := bind_eq_ok.mp hl
    obtain ⟨tail, htail, hl⟩ := bind_eq_ok.mp hl
    cases hl
    have hlen : ∀ us : List Token, (lexemes (.ident f :: .leftParen :: .string s :: us)).length =
        f.length + 1 + s.length + (lexemes us).length := by
      intro us
      simp only [lexemes, List.flatMap_cons, List.length_append, tokenToLexeme]
      rw [show (bytes "(").length = 1 from rfl]
      omega
    have hrest := ih _ tail htail (by
      rintro us g x rfl
      have := hlast (.ident f :: .leftParen :: .string s :: us) g x rfl
      rw [hlen] at this
      omega)
    obtain ⟨hne, hstarts⟩ := hglue _ s argument hargument
    have hparen : (tokenToLexeme .leftParen).length = 1 := rfl
    have hname : (tokenToLexeme (.ident f)).length = f.length := rfl
    have hstring : (tokenToLexeme (.string s)).length = s.length := rfl
    simp only [List.forall_mem_append, List.forall_mem_cons, mem_positions_cons, hrest, hparen,
      hname, hstring]
    constructor
    · rintro ⟨⟨⟨h₁, h₂, -⟩, harg⟩, htail'⟩
      obtain ⟨r, hr⟩ := List.exists_mem_of_ne_nil argument hne
      exact ⟨h₁, h₂, (hstarts r hr).1.trans (harg r hr), htail'⟩
    · rintro ⟨h₁, h₂, h₃, htail'⟩
      refine ⟨⟨⟨h₁, h₂, List.forall_mem_nil _⟩, fun r hr => (hstarts r hr).2.trans ?_⟩, htail'⟩
      cases ts with
      | nil =>
        have := hlast [] f s rfl
        rw [hlen] at this
        omega
      | cons t' ts' =>
        have := (mem_positions_cons.mp htail').1
        omega
  | token t ts hg ih =>
    intro pos l hl hlast
    rw [rangesLoop_token _ _ hg] at hl
    obtain ⟨tail, htail, hl⟩ := bind_eq_ok.mp hl
    cases hl
    have hrest := ih _ tail htail (by
      rintro us g x rfl
      have := hlast (t :: us) g x rfl
      simp only [lexemes, List.flatMap_cons, List.length_append] at this ⊢
      omega)
    rw [List.forall_mem_cons, mem_positions_cons, hrest]

section
variable [Ucd]

theorem rangesAt_starts_iff {depth n : Nat} {ts : List Token} {l : List StyledRange}
    (h : rangesAt (depth + 1) ts = .ok l)
    (hlast : ∀ us f s, ts = us ++ [.ident f, .leftParen, .string s] → (lexemes ts).length ≤ n + 1) :
    (∀ r ∈ l, r.startByte ≤ n) ↔ ∀ p ∈ positions 0 ts, p.2.1 ≤ n := by
  refine rangesLoop_starts_iff (fun startByte s l hl => ?_) ts 0 l h fun us f s hts => by
    rw [Nat.zero_add]
    exact hlast us f s hts
  refine glueStringRanges_starts (fun expr r hr => ?_) hl
  obtain ⟨⟨exprTokens, m⟩, -, hr⟩ := bind_eq_ok.mp hr
  obtain ⟨inside, -, hr⟩ := bind_eq_ok.mp hr
  cases hr
  exact normalizeRanges_starts _ _

/-- No token of the line starts behind the end of its text. -/
def StartWithin (entry : Entry Token RLexer.Mode) : Prop :=
  ∀ p ∈ positions 0 entry.tokens, p.2.1 ≤ entry.text.length

theorem rangesForTokens_starts_iff {entry : Entry Token RLexer.Mode} {l : List StyledRange}
    (hgenuine : entry.Genuine RLexCache.lexer RLexer.Mode.CarriesQuote)
    (h : rangesForTokens entry.tokens = .ok l) :
    (∀ r ∈ l, r.startByte ≤ entry.text.length) ↔ StartWithin entry := by
  refine rangesAt_starts_iff h fun us f s hts => ?_
  refine (RLexCache.length_le_of_genuine hgenuine).resolve_right ?_
  rintro ⟨vs, x, hvs⟩
  have hback := congrArg List.reverse (hts.symm.trans hvs)
  simp at hback

/-- The ranges of a line are within its text exactly when its tokens start there. -/
theorem rangesForEntry_bounded_iff {entry : Entry Token RLexer.Mode} {ranges : List StyledRange}
    (hgenuine : entry.Genuine RLexCache.lexer RLexer.Mode.CarriesQuote)
    (h : rangesForEntry entry = .ok ranges) :
    (∀ r ∈ ranges, r.Bounded entry.text.length) ↔ StartWithin entry := by
  obtain ⟨l, hl, h⟩ := bind_eq_ok.mp h
  cases h
  exact normalizeRanges_bounded_iff.trans (rangesForTokens_starts_iff hgenuine hl)

end

end RHighlight
end Raoui
