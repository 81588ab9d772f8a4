import Raoui.View.Pieces

/-!
# Raoui.View.Partition

The ranges of a cached line as a partition of its text.

* `exprRanges_tiles`: those of an expression always are one.
* `rangesForEntry_tiles_iff`: those of a line are one unless a token starts behind its end.
-/

namespace Raoui
namespace RHighlight

open Outcome (bind_eq_ok)
open RLexer (Token tokenToLexeme lexemes lexLine)
open TerminalOps (Style)
open Tiling

theorem mem_positions {pos : Nat} {ts : List Token} {p : Token × Nat × Nat}
    (h : p ∈ positions pos ts) :
    ∃ us t vs, ts = us ++ t :: vs ∧ p.2.1 = pos + (lexemes us).length := by
  induction ts generalizing pos with
  | nil => cases h
  | cons t ts ih =>
    obtain rfl | h := List.mem_cons.mp h
    · exact ⟨[], t, ts, rfl, rfl⟩
    · obtain ⟨us, u, vs, rfl, hp⟩ := ih h
      refine ⟨t :: us, u, vs, rfl, ?_⟩
      rw [hp, RLexer.lexemes_cons, List.length_append, Nat.add_assoc]

section
variable [Ucd]

/-- The ranges of an interpolated expression, as `ranges_for_tokens` asks for them. -/
def exprRanges (depth : Nat) (expr : Bytes) : Res (List StyledRange) := do
  let (exprTokens, _) ← lexLine .normal expr
  return normalizeRanges expr.length (← rangesAt depth exprTokens)

/-- The expression with the styles its ranges give it. -/
def exprGlyphs (depth : Nat) (expr : Bytes) : List Glyph :=
  match exprRanges depth expr with
  | .ok ranges => (labels ranges).zip expr
  | .error _ => []

theorem exprGlyphs_lays {depth : Nat} {expr : Bytes} {ranges : List StyledRange}
    (h : exprRanges depth expr = .ok ranges) (htiles : Tiles 0 expr.length ranges) :
    Lays 0 (styles (exprGlyphs depth expr)) ranges ∧
      (styles (exprGlyphs depth expr)).length = expr.length := by
  obtain ⟨hlays, hlength⟩ := htiles.lays
  rw [Nat.zero_add] at hlength
  have hstyles : styles (exprGlyphs depth expr) = labels ranges := by
    rw [exprGlyphs, h]
    exact List.map_fst_zip hlength.le
  rw [hstyles]
  exact ⟨hlays, hlength⟩

/-- Lexed in Normal mode, an expression has no token that starts behind its end. -/
theorem rangesAt_starts_of_lexLine {depth : Nat} {expr : Bytes} {exprTokens : List Token}
    {m : RLexer.Mode} (hlex : lexLine .normal expr = .ok (exprTokens, m)) {l : List StyledRange}
    (h : rangesAt (depth + 1) exprTokens = .ok l) : ∀ r ∈ l, r.startByte ≤ expr.length := by
  obtain ⟨cs, hcs, hlexes⟩ := RLexer.lexLine_lexes hlex
  have hlength : (Utf8.encode cs).length = expr.length := by rw [Utf8.encode_of_decode hcs]
  refine (rangesAt_starts_iff h fun us f s hts => ?_).mpr fun p hp => ?_
  · obtain hle | ⟨vs, x, hvs⟩ := hlexes.length_le
    · have hcarried : (RLexer.Mode.carried .normal).length = 0 := rfl
      omega
    · have hback := congrArg List.reverse (hts.symm.trans hvs)
      simp at hback
  · obtain ⟨us, t, vs, hts, hstart⟩ := mem_positions hp
    have hle := hlexes.starts_le rfl hts
    omega

theorem exprRanges_tiles (depth : Nat) {expr : Bytes} {ranges : List StyledRange}
    (h : exprRanges depth expr = .ok ranges) : Tiles 0 expr.length ranges := by
  induction depth generalizing expr ranges with
  | zero =>
    obtain ⟨⟨exprTokens, m⟩, hlex, h⟩ := bind_eq_ok.mp h
    cases h
    exact (normalizeRanges_spec (.nil 0) (List.forall_mem_nil _)).1
  | succ depth ih =>
    obtain ⟨⟨exprTokens, m⟩, hlex, h⟩ := bind_eq_ok.mp h
    obtain ⟨l, hl, h⟩ := bind_eq_ok.mp h
    cases h
    have hlays := (rangesLoop_lays (fun _ _ _ hglue =>
      glueStringRanges_lays (fun _ r hr => exprGlyphs_lays hr (ih hr)) hglue) exprTokens 0 l hl).1
    exact (normalizeRanges_spec hlays (rangesAt_starts_of_lexLine hlex hl)).1

/-- What the ranges of tokens style, before they are normalized. -/
theorem rangesAt_lays {depth : Nat} {ts : List Token} {l : List StyledRange}
    (h : rangesAt (depth + 1) ts = .ok l) :
    Lays 0 (styles (lineGlyphs (glueGlyphs (exprGlyphs depth)) ts)) l ∧
      (styles (lineGlyphs (glueGlyphs (exprGlyphs depth)) ts)).length = (lexemes ts).length :=
  rangesLoop_lays (fun _ _ _ hglue =>
    glueStringRanges_lays (fun _ _ hr => exprGlyphs_lays hr (exprRanges_tiles depth hr)) hglue)
    ts 0 l h

theorem rangesForEntry_tiles_iff {lines : List UnicodeString} {cache : RLexCache.Cache}
    (h : RLexCache.create lines = .ok cache) {entry : LexerCache.Entry Token RLexer.Mode}
    (hentry : entry ∈ cache) (hguard : Highlights entry.tokens) :
    ∃ ranges, rangesForEntry entry = .ok ranges ∧
      (Tiles 0 entry.text.length ranges ↔ StartWithin entry) := by
  obtain ⟨ranges, hranges⟩ := (rangesForEntry_returns_iff entry).mpr hguard
  have hgenuine := RLexCache.create_genuine h entry hentry
  refine ⟨ranges, hranges, fun htiles => ?_, fun hwithin => ?_⟩
  · refine (rangesForEntry_bounded_iff hgenuine hranges).mp fun r hr => ?_
    obtain ⟨hlays, hlength⟩ := htiles.lays
    obtain ⟨hle, hstop⟩ := hlays.within r hr
    exact ⟨hle, Nat.le_trans hstop hlength.le⟩
  · obtain ⟨l, hl, hnormal⟩ := bind_eq_ok.mp hranges
    cases hnormal
    exact (normalizeRanges_spec (rangesAt_lays hl).1
      ((rangesForTokens_starts_iff hgenuine hl).mpr hwithin)).1

end

/-! ## Lines that are covered and one that is not -/

attribute [local instance] asciiUcd

/-- A quote that the lexer carries on, and a line that ends in the beginning of a raw string. -/
def openQuoteLines : List UnicodeString :=
  [⟨bytes "x'", [0, 1], [1, 1]⟩, ⟨bytes "' r\"", [0, 1, 2, 3], [1, 1, 1, 1]⟩]

theorem rangesForEntry_openQuoteLines : ∃ cache entry ranges,
    RLexCache.create openQuoteLines = .ok cache ∧ entry ∈ cache ∧ Highlights entry.tokens ∧
      rangesForEntry entry = .ok ranges ∧ ¬ Tiles 0 entry.text.length ranges := by
  obtain ⟨first, second, hcreate, hranges, hlength⟩ : ∃ first second,
      RLexCache.create openQuoteLines = .ok [first, second] ∧
      rangesForEntry second = .ok [⟨0, 2, .string⟩, ⟨2, 3, .plain⟩, ⟨3, 4, .string⟩,
        ⟨4, 5, .plain⟩] ∧ second.text.length = 4 := ⟨_, _, rfl, rfl, rfl⟩
  refine ⟨_, second, _, hcreate, List.mem_cons_of_mem _ List.mem_cons_self,
    (rangesForEntry_returns_iff second).mp ⟨_, hranges⟩, hranges, ?_⟩
  rw [hlength]
  rintro ⟨-, -, -, -, -, -, -, -, hend⟩
  exact absurd (show 5 = 4 from hend) (by decide)

def glueLine : UnicodeString :=
  ⟨bytes "glue(\"a\x7bf(x)\x7d\")", List.range 15, List.replicate 15 1⟩

theorem rangesForEntry_tiles_glueLine : ∃ cache entry ranges,
    RLexCache.create [glueLine] = .ok cache ∧ entry ∈ cache ∧
      rangesForEntry entry = .ok ranges ∧
        (Tiles 0 entry.text.length ranges ↔ StartWithin entry) := by
  obtain ⟨entry, hcreate, hreturns⟩ : ∃ entry, RLexCache.create [glueLine] = .ok [entry] ∧
      ∃ ranges, rangesForEntry entry = .ok ranges := ⟨_, rfl, _, rfl⟩
  have hguard : Highlights entry.tokens := (rangesForEntry_returns_iff entry).mp hreturns
  obtain ⟨ranges, hranges, hiff⟩ :=
    rangesForEntry_tiles_iff hcreate (List.mem_singleton_self entry) hguard
  exact ⟨_, entry, ranges, hcreate, List.mem_singleton_self entry, hranges, hiff⟩

end RHighlight
end Raoui
