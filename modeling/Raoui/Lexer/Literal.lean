import Raoui.Lexer.Line

/-!
# Raoui.Lexer.Literal

Lines that end inside a literal. The piece of it on the line is the line's last token, unless the
line ends with the single quote or backtick that opens it, which gives no token.

* `token_unfinished`: the calls of `token` that leave the lexer inside a literal.
* `Lexes.unfinished`: the lines that do.
* `Lexes.lexeme_ne_nil`: no token of a line is empty.
-/

namespace Raoui
namespace RLexer

open Utf8 (encode)

def Token.isLiteral : Token → Bool
  | .string _ | .backtickIdent _ => true
  | _ => false

/-- The mode behind a quote that opens at the end of its line. -/
def Mode.BareQuote (m : Mode) : Prop := m = .inSingleQuote (bytes "'") ∨ m = .inBacktick (bytes "`")

/-- What a call that stays inside a literal returns: a piece of it at the end of the line, no token
behind a bare quote, or nothing at the end of the line. -/
structure Unfinished (mode : Mode) (cs : List Char) (r : Read) : Prop where
  piece : r.1 ≠ .eof → r.1.isLiteral = true ∧ r.2.2 = []
  none : r.1 = .eof → r.2.1.BareQuote ∨ (cs = [] ∧ r.2.1 = mode)

/-- The loop of the quoted literals closes the literal, or takes the rest of the line, or has
nothing to take. -/
theorem readQuotedLoop_cases (quote : Char) (tok : Bytes → Token) (mode : Bytes → Mode)
    (start : Bytes) {acc : List Bytes} (hacc : acc ≠ []) (cs : List Char) :
    (readQuotedLoop quote tok mode start acc cs).2.1 = .normal ∨
      (acc = [start] ∧ cs = [] ∧ readQuotedLoop quote tok mode start acc cs = (.eof, mode start, [])) ∨
      ∃ s, readQuotedLoop quote tok mode start acc cs = (tok s, mode [], []) := by
  induction acc, cs using readQuotedLoop.induct quote start with
  | case1 =>
    refine .inr (.inl ⟨rfl, rfl, ?_⟩)
    simp only [readQuotedLoop, if_true]
  | case2 acc h =>
    refine .inr (.inr ⟨joined acc, ?_⟩)
    simp only [readQuotedLoop, if_neg h]
  | case3 acc c cs ih =>
    simp only [readQuotedLoop]
    obtain h | ⟨h, -⟩ | h := ih (List.cons_ne_nil _ _)
    · exact .inl h
    · exact absurd (List.cons.inj h).2 hacc
    · exact .inr (.inr h)
  | case4 acc cs hesc =>
    simp only [readQuotedLoop, if_true]
    exact .inl trivial
  | case5 acc c cs hesc hquote ih =>
    simp only [readQuotedLoop, if_neg hquote]
    obtain h | ⟨h, -⟩ | h := ih (List.cons_ne_nil _ _)
    · exact .inl h
    · exact absurd (List.cons.inj h).2 hacc
    · exact .inr (.inr h)

theorem readRawStringLoop_cases (closingSeq prev : Bytes) (acc : List Bytes) (cs : List Char) :
    (readRawStringLoop closingSeq prev acc cs).2.1 = .normal ∨
      (joined acc = [] ∧ prev = [] ∧ cs = [] ∧
        readRawStringLoop closingSeq prev acc cs = (.eof, .inRawString closingSeq prev, [])) ∨
      ∃ s, readRawStringLoop closingSeq prev acc cs = (.string s, .inRawString closingSeq [], []) := by
  induction acc, cs using readRawStringLoop.induct closingSeq prev with
  | case1 acc current h =>
    refine .inr (.inl ⟨h.1, h.2, rfl, ?_⟩)
    simp only [readRawStringLoop]
    exact if_pos h
  | case2 acc current h =>
    refine .inr (.inr ⟨prev ++ current, ?_⟩)
    simp only [readRawStringLoop]
    exact if_neg h
  | case3 acc c cs acc' current h =>
    simp only [readRawStringLoop]
    rw [if_pos h]
    exact .inl rfl
  | case4 acc c cs acc' current h ih =>
    simp only [readRawStringLoop]
    rw [if_neg h]
    obtain hn | ⟨hnil, -⟩ | hs := ih
    · exact .inl hn
    · rw [show joined acc' = joined acc ++ encode [c] from joined_cons _ _,
        List.append_eq_nil_iff] at hnil
      exact absurd hnil.2 (by simp [Utf8.encodeChar_ne_nil])
    · exact .inr (.inr hs)

theorem getDelim_cases (rawPrefix : Bytes) (acc : List Bytes) {cs : List Char} {r : Read}
    (hne : rawPrefix ≠ []) (h : getDelim rawPrefix acc cs = .ok r) :
    r.2.1 = .normal ∨ ∃ s close prev, r = (.string s, .inRawString close prev, []) := by
  induction cs generalizing acc with
  | nil =>
    cases h
    exact .inr ⟨_, _, _, rfl⟩
  | cons c cs ih =>
    rw [getDelim] at h
    split at h
    · rename_i hc
      obtain ⟨close, hclose⟩ := closingBracket_ok hc
      rw [hclose] at h
      cases h
      have hprev : rawPrefix ++ joined acc ++ encode [c] ≠ [] := by simp [hne]
      obtain hn | ⟨-, hnil, -⟩ | ⟨s, hs⟩ := readRawStringLoop_cases
        (close ++ joined acc ++ bytes "\"") (rawPrefix ++ joined acc ++ encode [c]) [] cs
      · exact .inl hn
      · exact absurd hnil hprev
      · exact .inr ⟨s, _, _, hs⟩
    · exact ih _ h

/-! ## No token is empty -/

theorem readQuotedLoop_written (quote : Char) {tok : Bytes → Token} (htok : Keeps tok)
    (mode : Bytes → Mode) (start : Bytes) {acc : List Bytes} (hacc : acc = [start] ∨ joined acc ≠ [])
    (cs : List Char) (hne : (readQuotedLoop quote tok mode start acc cs).1 ≠ .eof) :
    (readQuotedLoop quote tok mode start acc cs).1.written ≠ [] := by
  have hjoined (u : List Char) (hu : u ≠ []) (acc : List Bytes) : joined (encode u :: acc) ≠ [] := by
    rw [joined_cons]
    obtain ⟨c, u, rfl⟩ := List.exists_cons_of_ne_nil hu
    simp [Utf8.encodeChar_ne_nil]
  induction acc, cs using readQuotedLoop.induct quote start with
  | case1 =>
    simp only [readQuotedLoop, if_true] at hne
    exact absurd rfl hne
  | case2 acc h =>
    simp only [readQuotedLoop, if_neg h, (htok _).2]
    exact hacc.resolve_left h
  | case3 acc c cs ih =>
    simp only [readQuotedLoop] at hne ⊢
    exact ih (.inr (hjoined _ (List.cons_ne_nil _ _) _)) hne
  | case4 acc cs hesc =>
    simp only [readQuotedLoop, if_true, (htok _).2]
    simp [Utf8.encodeChar_ne_nil]
  | case5 acc c cs hesc hquote ih =>
    simp only [readQuotedLoop, if_neg hquote] at hne ⊢
    exact ih (.inr (hjoined _ (List.cons_ne_nil _ _) _)) hne

theorem readRawStringLoop_written (closingSeq prev : Bytes) (acc : List Bytes) (cs : List Char)
    (hne : (readRawStringLoop closingSeq prev acc cs).1 ≠ .eof) :
    (readRawStringLoop closingSeq prev acc cs).1.written ≠ [] := by
  induction acc, cs using readRawStringLoop.induct closingSeq prev with
  | case1 acc current h =>
    simp only [readRawStringLoop] at hne
    rw [if_pos h] at hne
    exact absurd rfl hne
  | case2 acc current h =>
    simp only [readRawStringLoop]
    rw [if_neg h]
    intro hnil
    obtain ⟨hprev, hcurrent⟩ := List.append_eq_nil_iff.mp hnil
    exact h ⟨hcurrent, hprev⟩
  | case3 acc c cs acc' current h =>
    simp only [readRawStringLoop]
    rw [if_pos h]
    simp [Token.written, tokenToLexeme, Utf8.encodeChar_ne_nil]
  | case4 acc c cs acc' current h ih =>
    simp only [readRawStringLoop] at hne ⊢
    rw [if_neg h] at hne ⊢
    exact ih hne

section
variable [Ucd]

/-- A literal that opens on the line. -/
theorem action_cases {rule : Rule} {w cs : List Char} {r : Read} (hw : rule.Lexeme w)
    (h : action rule w cs = .ok r) :
    r.2.1 = .normal ∨ (r.1 = .eof ∧ r.2.1.BareQuote) ∨ (r.1.isLiteral = true ∧ r.2.2 = []) := by
  have quoted (quote : Char) {tok : Bytes → Token} (mode : Bytes → Mode) (start : Bytes)
      {acc : List Bytes} (hacc : acc ≠ []) (htok : ∀ s, (tok s).isLiteral = true)
      (hstart : acc = [start] → (mode start).BareQuote) :
      (readQuotedLoop quote tok mode start acc cs).2.1 = .normal ∨
        ((readQuotedLoop quote tok mode start acc cs).1 = .eof ∧
          (readQuotedLoop quote tok mode start acc cs).2.1.BareQuote) ∨
        ((readQuotedLoop quote tok mode start acc cs).1.isLiteral = true ∧
          (readQuotedLoop quote tok mode start acc cs).2.2 = []) := by
    obtain hn | ⟨hs, -, heq⟩ | ⟨s, hs⟩ := readQuotedLoop_cases quote tok mode start hacc cs
    · exact .inl hn
    · rw [heq]
      exact .inr (.inl ⟨rfl, hstart hs⟩)
    · rw [hs]
      exact .inr (.inr ⟨htok s, rfl⟩)
  cases rule with
  | rawStart =>
    have hne : encode w ≠ [] := by
      obtain rfl | rfl := hw <;> decide
    obtain hn | ⟨s, close, prev, rfl⟩ := getDelim_cases (encode w) [] hne h
    · exact .inl hn
    · exact .inr (.inr ⟨rfl, rfl⟩)
  | doubleQuote =>
    cases h
    exact quoted _ _ _ (List.cons_ne_nil _ _) (fun _ => rfl) fun h => absurd h (by decide)
  | singleQuote =>
    cases h
    exact quoted _ _ _ (List.cons_ne_nil _ _) (fun _ => rfl) fun _ => .inl rfl
  | backtick =>
    cases h
    exact quoted _ _ _ (List.cons_ne_nil _ _) (fun _ => rfl) fun _ => .inr rfl
  | ident =>
    simp only [action] at h
    split at h <;> (cases h; exact .inl rfl)
  | any =>
    simp only [action] at h
    split at h
    · split at h
      · cases h
        obtain ⟨s, rest, hr, -⟩ := readUnicodeIdent_spec _ cs
        rw [hr]
        exact .inl rfl
      · cases h
        exact .inl rfl
    · cases h
      exact .inl rfl
  | _ =>
    cases h
    exact .inl rfl

theorem token_unfinished {mode : Mode} {cs : List Char} {r : Read} (h : token mode cs = .ok r)
    (hm : r.2.1 ≠ .normal) : Unfinished mode cs r := by
  have quoted (quote : Char) {tok : Bytes → Token} {mode : Bytes → Mode} {start : Bytes}
      {m : Mode} {acc : List Bytes} (hacc : acc ≠ []) (htok : ∀ s, (tok s).isLiteral = true)
      (hstart : acc = [start] → mode start = m)
      (hm : (readQuotedLoop quote tok mode start acc cs).2.1 ≠ .normal) :
      Unfinished m cs (readQuotedLoop quote tok mode start acc cs) := by
    obtain hn | ⟨hs, rfl, heq⟩ | ⟨s, hs⟩ := readQuotedLoop_cases quote tok mode start hacc cs
    · exact absurd hn hm
    · rw [heq]
      exact ⟨fun h => absurd rfl h, fun _ => .inr ⟨rfl, hstart hs⟩⟩
    · rw [hs]
      refine ⟨fun _ => ⟨htok s, rfl⟩, fun heof => ?_⟩
      have hlit := htok s
      rw [show tok s = .eof from heof] at hlit
      cases hlit
  cases mode with
  | normal =>
    simp only [token, readNormal] at h
    split at h
    · cases h
      exact absurd rfl hm
    · rename_i hcs
      split at h
      · rename_i n rule hn
        have hne : cs ≠ [] := fun hnil => hcs hnil
        obtain ⟨n', rule', hn', hlexeme, -⟩ := choose_rules hne
        rw [hn] at hn'
        cases hn'
        obtain hnormal | ⟨heof, hbare⟩ | ⟨hlit, hrest⟩ := action_cases hlexeme h
        · exact absurd hnormal hm
        · exact ⟨fun h => absurd heof h, fun _ => .inl hbare⟩
        · refine ⟨fun _ => ⟨hlit, hrest⟩, fun heof => ?_⟩
          rw [heof] at hlit
          cases hlit
      · cases h
  | inDoubleQuote prev =>
    cases h
    refine quoted _ (List.cons_ne_nil _ _) (fun _ => rfl) (fun h => ?_) hm
    rw [List.singleton_inj.mp h]
  | inSingleQuote prev =>
    cases h
    exact quoted _ (List.cons_ne_nil _ _) (fun _ => rfl) (fun _ => rfl) hm
  | inBacktick prev =>
    cases h
    exact quoted _ (List.cons_ne_nil _ _) (fun _ => rfl) (fun _ => rfl) hm
  | inRawString close prev =>
    cases h
    obtain hn | ⟨-, -, rfl, heq⟩ | ⟨s, hs⟩ := readRawStringLoop_cases close prev [] cs
    · exact absurd hn hm
    · rw [readRawString, heq]
      exact ⟨fun h => absurd rfl h, fun _ => .inr ⟨rfl, rfl⟩⟩
    · rw [readRawString, hs]
      exact ⟨fun _ => ⟨rfl, rfl⟩, fun heof => by cases heof⟩

omit [Ucd] in
theorem expand_of_isLiteral {t : Token} (h : t.isLiteral = true) : t.expand = [t] := by
  cases t <;> first | rfl | cases h

/-- A line that ends inside a literal ends with a piece of it or with a bare quote. -/
theorem Lexes.unfinished {mode m : Mode} {cs : List Char} {ts : List Token}
    (h : Lexes mode cs ts m) (hm : m ≠ .normal) :
    (∃ us t, ts = us ++ [t] ∧ t.isLiteral = true) ∨ m.BareQuote ∨ (ts = [] ∧ cs = [] ∧ m = mode) := by
  induction h with
  | eof ht =>
    obtain hbare | ⟨hcs, heq⟩ := (token_unfinished ht hm).none rfl
    · exact .inr (.inl hbare)
    · exact .inr (.inr ⟨rfl, hcs, heq⟩)
  | @next mode m m' cs rest t ts ht hne hrest ih =>
    obtain ⟨us, u, rfl, hu⟩ | hbare | ⟨rfl, -, rfl⟩ := ih hm
    · exact .inl ⟨t.expand ++ us, u, (List.append_assoc ..).symm, hu⟩
    · exact .inr (.inl hbare)
    · have hlit := ((token_unfinished ht hm).piece hne).1
      exact .inl ⟨[], t, by rw [expand_of_isLiteral hlit, List.append_nil, List.nil_append], hlit⟩

theorem token_written_ne_nil {mode m : Mode} {cs rest : List Char} {t : Token}
    (h : token mode cs = .ok (t, m, rest)) (ht : t ≠ .eof) : t.written ≠ [] := by
  cases mode with
  | normal =>
    obtain ⟨r, hr, hstep⟩ := token_step .normal cs
    obtain rfl := Except.ok.inj (h.symm.trans hr)
    cases hstep with
    | ends => exact absurd rfl ht
    | drops => exact absurd rfl ht
    | reads _ _ heq hlt _ =>
      intro hnil
      rw [hnil] at heq
      obtain hlt | ⟨-, -, hcarried⟩ := hlt
      · rw [Utf8.encode_injective heq] at hlt
        exact absurd hlt (Nat.lt_irrefl _)
      · exact hcarried rfl
    | doubles _ hraw =>
      obtain ⟨q, tl, rfl, -⟩ := hraw
      simp [Token.written, tokenToLexeme, Utf8.encodeChar_ne_nil]
  | inDoubleQuote prev =>
    have hread : readQuotedLoop '"' .string .inDoubleQuote [] [prev] cs = (t, m, rest) :=
      Except.ok.inj h
    have hprev : [prev] = [[]] ∨ joined [prev] ≠ [] := by
      rw [joined_singleton]
      by_cases hnil : prev = []
      · exact .inl (by rw [hnil])
      · exact .inr hnil
    have hwritten := readQuotedLoop_written '"' keeps_string .inDoubleQuote [] hprev cs
    rw [hread] at hwritten
    exact hwritten ht
  | inSingleQuote prev =>
    have hread : readQuotedLoop '\'' .string .inSingleQuote prev [prev] cs = (t, m, rest) :=
      Except.ok.inj h
    have hwritten := readQuotedLoop_written '\'' keeps_string .inSingleQuote prev (.inl rfl) cs
    rw [hread] at hwritten
    exact hwritten ht
  | inBacktick prev =>
    have hread : readQuotedLoop '\x60' .backtickIdent .inBacktick prev [prev] cs = (t, m, rest) :=
      Except.ok.inj h
    have hwritten := readQuotedLoop_written '\x60' keeps_backtickIdent .inBacktick prev (.inl rfl) cs
    rw [hread] at hwritten
    exact hwritten ht
  | inRawString close prev =>
    have hread : readRawStringLoop close prev [] cs = (t, m, rest) := Except.ok.inj h
    have hwritten := readRawStringLoop_written close prev [] cs
    rw [hread] at hwritten
    exact hwritten ht

theorem Lexes.lexeme_ne_nil {mode m : Mode} {cs : List Char} {ts : List Token}
    (h : Lexes mode cs ts m) : ∀ t ∈ ts, tokenToLexeme t ≠ [] := by
  induction h with
  | eof => exact nofun
  | @next mode m m' cs rest t ts ht hne _ ih =>
    intro u hu
    obtain hu | hu := List.mem_append.mp hu
    · have hwritten := token_written_ne_nil ht hne
      cases t with
      | lambda =>
        obtain rfl | hu := List.mem_cons.mp hu
        · decide
        · obtain rfl := List.mem_singleton.mp hu
          decide
      | _ =>
        obtain rfl := List.mem_singleton.mp hu
        exact hwritten
    · exact ih u hu

end

end RLexer
end Raoui
