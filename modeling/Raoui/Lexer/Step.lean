import Raoui.Lexer.RLexer

/-!
# Raoui.Lexer.Step

What one call of `token` does, whatever the mode and the text.

* `Step`: the call either ends the line, or takes the text it has read out of what was carried and
  what was left, or is one of the two that lose their place: a quote that opens at the very end of
  the line, and a raw-string prefix without its bracket.
* `token_step`: every call is one of these, and never raises.
-/

namespace Raoui
namespace RLexer

open Utf8 (encode)

/-- The text a mode carries into the next token. -/
def Mode.carried : Mode → Bytes
  | .normal => []
  | .inDoubleQuote prev => prev
  | .inSingleQuote prev => prev
  | .inBacktick prev => prev
  | .inRawString _ prev => prev

/-- What a token stands for in the text; `\(` is one token here and two in the result. -/
def Token.written : Token → Bytes
  | .lambda => bytes "\\("
  | t => tokenToLexeme t

/-- A quote or backtick opens with nothing after it on the line. -/
def OpensAtEnd (cs : List Char) : Prop := cs = ['\''] ∨ cs = ['\x60']

/-- A raw-string prefix with no bracket after it on the line. -/
def RawWithoutBracket (cs : List Char) : Prop :=
  ∃ q tl, cs = q :: '"' :: tl ∧ (q = 'r' ∨ q = 'R') ∧ ∀ c ∈ tl, isBracket c = false

/-- One of the two ways to lose the place in the text. -/
def LosesText (cs : List Char) : Prop := OpensAtEnd cs ∨ RawWithoutBracket cs

inductive Step (mode : Mode) (cs : List Char) : Read → Prop where
  | ends {m : Mode} : cs = [] → m.carried = mode.carried → Step mode cs (.eof, m, [])
  | reads {t : Token} {m : Mode} {rest : List Char} : t ≠ .eof → m.carried = [] →
      t.written ++ encode rest = mode.carried ++ encode cs →
      (rest.length < cs.length ∨ (cs = [] ∧ rest = [] ∧ mode.carried ≠ [])) →
      ¬ (mode = .normal ∧ LosesText cs) → Step mode cs (t, m, rest)
  | drops {m : Mode} : mode = .normal → OpensAtEnd cs → m.carried ≠ [] → Step mode cs (.eof, m, [])
  | doubles : mode = .normal → RawWithoutBracket cs →
      Step mode cs (.string (encode cs), .inRawString [] (encode cs), [])

/-! ## Inside a literal -/

@[simp] theorem joined_nil : joined [] = [] := rfl

@[simp] theorem joined_cons (s : Bytes) (acc : List Bytes) : joined (s :: acc) = joined acc ++ s := by
  simp [joined]

theorem joined_singleton (s : Bytes) : joined [s] = s := by simp

/-- What a reader of a quoted literal gives: the text read so far with what was left, cut where the
literal ends. -/
structure Quoted (text : Bytes) (cs : List Char) (r : Read) : Prop where
  token : r.1 ≠ .eof
  carried : r.2.1.carried = []
  written : r.1.written ++ encode r.2.2 = text ++ encode cs
  shorter : r.2.2.length < cs.length ∨ (cs = [] ∧ r.2.2 = [])

theorem Quoted.of_tail {text : Bytes} {u cs : List Char} {r : Read} (hu : u ≠ [])
    (h : Quoted (text ++ encode u) cs r) : Quoted text (u ++ cs) r := by
  refine ⟨h.token, h.carried, by rw [h.written]; simp, .inl ?_⟩
  have := List.length_pos_of_ne_nil hu
  rw [List.length_append]
  rcases h.shorter with hlt | ⟨hcs, hr⟩
  · omega
  · rw [hr, hcs]
    simpa using this

theorem Quoted.closed {text : Bytes} {c : Char} {cs : List Char} {t : Token} (ht : t ≠ .eof)
    (hw : t.written = text ++ encode [c]) : Quoted text (c :: cs) (t, .normal, cs) :=
  ⟨ht, rfl, by simp [hw], .inl (by simp)⟩

/-- The token constructor of a quoted literal keeps its text. -/
def Keeps (tok : Bytes → Token) : Prop := ∀ s, tok s ≠ .eof ∧ (tok s).written = s

theorem keeps_string : Keeps .string := fun _ => ⟨nofun, rfl⟩

theorem keeps_backtickIdent : Keeps .backtickIdent := fun _ => ⟨nofun, rfl⟩

theorem readQuotedLoop_quoted (quote : Char) (mode : Bytes → Mode) (start : Bytes)
    {tok : Bytes → Token} (htok : Keeps tok) (hmode : (mode []).carried = []) (acc : List Bytes)
    (cs : List Char) (hacc : acc ≠ []) (hcs : cs = [] → acc ≠ [start]) :
    Quoted (joined acc) cs (readQuotedLoop quote tok mode start acc cs) := by
  have hcons : ∀ {s : Bytes} {acc : List Bytes}, acc ≠ [] → s :: acc ≠ [start] := by
    intro s acc hne h
    exact hne (List.cons.inj h).2
  induction acc, cs using readQuotedLoop.induct quote start with
  | case1 => exact absurd rfl (hcs rfl)
  | case2 acc h =>
    simp only [readQuotedLoop, if_neg h]
    exact ⟨(htok _).1, hmode, by simp [(htok _).2], .inr ⟨rfl, rfl⟩⟩
  | case3 acc c cs ih =>
    simp only [readQuotedLoop]
    refine Quoted.of_tail (u := ['\\', c]) (List.cons_ne_nil _ _) ?_
    rw [← joined_cons]
    exact ih (List.cons_ne_nil _ _) fun _ => hcons hacc
  | case4 acc cs hesc =>
    simp only [readQuotedLoop, if_pos]
    exact .closed (htok _).1 (htok _).2
  | case5 acc c cs hesc hquote ih =>
    simp only [readQuotedLoop, if_neg hquote]
    refine Quoted.of_tail (u := [c]) (List.cons_ne_nil _ _) ?_
    rw [← joined_cons]
    exact ih (List.cons_ne_nil _ _) fun _ => hcons hacc

theorem readRawStringLoop_quoted (closingSeq prev : Bytes) (acc : List Bytes) (cs : List Char)
    (hcs : cs = [] → prev ++ joined acc ≠ []) :
    Quoted (prev ++ joined acc) cs (readRawStringLoop closingSeq prev acc cs) := by
  induction acc, cs using readRawStringLoop.induct closingSeq prev with
  | case1 acc current h =>
    exact absurd (by rw [h.2, show joined acc = [] from h.1]; rfl) (hcs rfl)
  | case2 acc current h =>
    simp only [readRawStringLoop]
    rw [if_neg h]
    exact ⟨nofun, rfl, by simp [Token.written, tokenToLexeme], .inr ⟨rfl, rfl⟩⟩
  | case3 acc c cs acc' current h =>
    simp only [readRawStringLoop]
    rw [if_pos h]
    exact .closed nofun (by simp [Token.written, tokenToLexeme])
  | case4 acc c cs acc' current h ih =>
    simp only [readRawStringLoop]
    rw [if_neg h]
    refine Quoted.of_tail (u := [c]) (List.cons_ne_nil _ _) ?_
    rw [List.append_assoc, ← joined_cons]
    refine ih fun _ => ?_
    rw [show joined acc' = joined acc ++ encode [c] from joined_cons _ _]
    simp [Utf8.encodeChar_ne_nil]

/-! ## Raw-string prefixes and names -/

theorem closingBracket_ok {c : Char} (h : isBracket c = true) :
    ∃ close, closingBracket (encode [c]) = .ok close := by
  simp only [isBracket, Bool.or_eq_true, decide_eq_true_eq] at h
  rcases h with (rfl | rfl) | rfl
  · exact ⟨bytes ")", by decide⟩
  · exact ⟨bytes "]", by decide⟩
  · exact ⟨bytes "\x7d", by decide⟩

theorem getDelim_unclosed (rawPrefix : Bytes) (acc : List Bytes) {cs : List Char}
    (h : ∀ c ∈ cs, isBracket c = false) : getDelim rawPrefix acc cs =
      .ok (.string (rawPrefix ++ joined acc ++ encode cs),
        .inRawString [] (rawPrefix ++ joined acc ++ encode cs), []) := by
  induction cs generalizing acc with
  | nil => simp [getDelim]
  | cons c cs ih =>
    rw [getDelim, h c List.mem_cons_self, if_neg Bool.false_ne_true, ih _ fun c' h' => h c' (List.mem_cons_of_mem c h')]
    simp [List.append_assoc]

theorem getDelim_quoted (rawPrefix : Bytes) (acc : List Bytes) {cs : List Char}
    (h : ∃ c ∈ cs, isBracket c = true) :
    ∃ r, getDelim rawPrefix acc cs = .ok r ∧ Quoted (rawPrefix ++ joined acc) cs r := by
  induction cs generalizing acc with
  | nil =>
    obtain ⟨c, hc, -⟩ := h
    cases hc
  | cons c cs ih =>
    cases hc : isBracket c with
    | true =>
      obtain ⟨close, hclose⟩ := closingBracket_ok hc
      refine ⟨_, by rw [getDelim, if_pos hc, hclose]; rfl, ?_⟩
      refine Quoted.of_tail (u := [c]) (List.cons_ne_nil _ _) ?_
      have := readRawStringLoop_quoted (close ++ joined acc ++ bytes "\"")
        (rawPrefix ++ joined acc ++ encode [c]) [] cs
        (fun _ => by simp [Utf8.encodeChar_ne_nil])
      rwa [joined_nil, List.append_nil] at this
    | false =>
      obtain ⟨c', hmem, hc'⟩ := h
      have hmem' : c' ∈ cs := by
        rcases List.mem_cons.mp hmem with rfl | hmem
        · rw [hc] at hc'
          cases hc'
        · exact hmem
      obtain ⟨r, hr, hq⟩ := ih (encode [c] :: acc) ⟨c', hmem', hc'⟩
      refine ⟨r, ?_, Quoted.of_tail (u := [c]) (List.cons_ne_nil _ _) ?_⟩
      · rw [getDelim, hc, if_neg Bool.false_ne_true, hr]
      · rw [List.append_assoc, ← joined_cons]
        exact hq

/-! ## The rules of `read_normal` -/

/-- What a rule's lexeme looks like, as far as its action depends on it. -/
def Rule.Lexeme : Rule → List Char → Prop
  | .rawStart, w => w = ['r', '"'] ∨ w = ['R', '"']
  | .doubleQuote, w => w = ['"']
  | .singleQuote, w => w = ['\'']
  | .backtick, w => w = ['\x60']
  | .lambda, w => w = ['\\', '(']
  | .leftParen, w => w = ['(']
  | .rightParen, w => w = [')']
  | .leftBracket, w => w = ['[']
  | .rightBracket, w => w = [']']
  | .leftBrace, w => w = ['{']
  | .rightBrace, w => w = ['}']
  | .any, w => ∃ c, w = [c]
  | _, _ => True

theorem rules_lexeme {r : Re} {rule : Rule} (h : (r, rule) ∈ rules) {w : List Char}
    (hw : w ∈ r.lang) : rule.Lexeme w := by
  simp only [rules, List.mem_cons, Prod.mk.injEq, List.not_mem_nil, or_false] at h
  rcases h with ⟨rfl, rfl⟩ | ⟨rfl, rfl⟩ | ⟨rfl, rfl⟩ | ⟨rfl, rfl⟩ | ⟨rfl, rfl⟩ | ⟨rfl, rfl⟩ |
    ⟨rfl, rfl⟩ | ⟨rfl, rfl⟩ | ⟨rfl, rfl⟩ | ⟨rfl, rfl⟩ | ⟨rfl, rfl⟩ | ⟨rfl, rfl⟩ | ⟨rfl, rfl⟩ |
    ⟨rfl, rfl⟩ | ⟨rfl, rfl⟩ | ⟨rfl, rfl⟩ | ⟨rfl, rfl⟩ | ⟨rfl, rfl⟩ | ⟨rfl, rfl⟩ | ⟨rfl, rfl⟩ |
    ⟨rfl, rfl⟩
  all_goals first
    | trivial
    | exact Pattern.mem_chr.mp hw
    | skip
  · obtain ⟨u, hu, v, hv, rfl⟩ := Pattern.mem_seq.mp hw
    rw [Pattern.mem_chr.mp hv]
    rcases Pattern.mem_alt.mp hu with hu | hu
    · rw [Pattern.mem_chr.mp hu]
      exact .inl rfl
    · rw [Pattern.mem_chr.mp hu]
      exact .inr rfl
  · obtain ⟨u, hu, v, hv, rfl⟩ := Pattern.mem_seq.mp hw
    rw [Pattern.mem_chr.mp hu, Pattern.mem_chr.mp hv]
    rfl
  · obtain ⟨c, -, rfl⟩ := Pattern.mem_sat.mp hw
    exact ⟨c, rfl⟩

theorem rules_not_nullable : ∀ p ∈ rules, p.1.nullable = false := by decide

theorem keywordOfString_some {s : Bytes} {kw : Keyword} (h : keywordOfString s = some kw) :
    stringOfKeyword kw = s := by
  have hall : ∀ p ∈ keywords, stringOfKeyword p.2 = p.1 := by decide
  obtain ⟨l₁, l₂, hl, -⟩ := List.lookup_eq_some_iff.mp h
  exact hall (s, kw) (by rw [hl]; simp)

/-! ## Tokens -/

theorem Quoted.step (text : Bytes) {w cs : List Char} {r : Read} (h : Quoted text cs r)
    (hw : encode w = text) (hne : w ≠ []) (hok : ¬ LosesText (w ++ cs)) :
    Step .normal (w ++ cs) r := by
  rw [← hw] at h
  have hq : Quoted [] (w ++ cs) r := Quoted.of_tail hne h
  refine .reads hq.token hq.carried hq.written ?_ fun hbad => hok hbad.2
  rcases hq.shorter with hlt | ⟨hnil, -⟩
  · exact .inl hlt
  · exact absurd (List.append_eq_nil_iff.mp hnil).1 hne

theorem Step.plain {t : Token} {w cs : List Char} (ht : t ≠ .eof) (hw : t.written = encode w)
    (hne : w ≠ []) (hok : ¬ LosesText (w ++ cs)) : Step .normal (w ++ cs) (t, .normal, cs) := by
  refine .reads ht rfl (by rw [hw]; simp [Mode.carried]) (.inl ?_) fun hbad => hok hbad.2
  have := List.length_pos_of_ne_nil hne
  rw [List.length_append]
  omega

theorem not_rawWithoutBracket {q : Char} {cs : List Char} (hq : q = 'r' ∨ q = 'R')
    (h : ¬ LosesText (q :: '"' :: cs)) : ∃ c ∈ cs, isBracket c = true := by
  by_contra hno
  refine h (.inr ⟨q, cs, rfl, hq, fun c hc => ?_⟩)
  cases hb : isBracket c with
  | true => exact absurd ⟨c, hc, hb⟩ hno
  | false => rfl

/-- Some rule matches, and its lexeme is not empty. -/
theorem choose_rules {cs : List Char} (h : cs ≠ []) : ∃ n rule, Pattern.choose rules cs = some (n, rule) ∧
    rule.Lexeme (cs.take n) ∧ cs.take n ≠ [] := by
  obtain ⟨c, cs, rfl⟩ := List.exists_cons_of_ne_nil h
  have hany : ((Pattern.any : Re), Rule.any) ∈ rules := by simp [rules]
  obtain ⟨n, rule, hn, -⟩ := Pattern.choose_max (w := c :: cs) (m := 1) hany (by simp) ⟨c, rfl, rfl⟩
  obtain ⟨r, hmem, hlong⟩ := Pattern.choose_spec hn
  refine ⟨n, rule, hn, rules_lexeme hmem hlong.mem, fun hnil => ?_⟩
  have := rules_not_nullable _ hmem
  rw [(Pattern.nullable_iff r).mpr (hnil ▸ hlong.mem)] at this
  cases this

/-- No other rule matches a text that starts with a raw-string prefix past its first character. -/
theorem rules_void : (['r', 'R'].all fun q => rules.all fun p => p.2 = .rawStart ||
    (['"'].foldl (fun r a => r.deriv a) (p.1.deriv q)).isVoid) = true := rfl

theorem choose_rawStart {q : Char} (hq : q = 'r' ∨ q = 'R') (tl : List Char) :
    Pattern.choose rules (q :: '"' :: tl) = some (2, .rawStart) := by
  have hmem : (Pattern.seq (.alt (.chr 'r') (.chr 'R')) (.chr '"'), Rule.rawStart) ∈ rules := by
    simp [rules]
  have hword : (q :: '"' :: tl).take 2 ∈ (Pattern.seq (.alt (.chr 'r') (.chr 'R')) (.chr '"')).lang := by
    refine Pattern.mem_seq.mpr ⟨[q], Pattern.mem_alt.mpr ?_, ['"'], Pattern.mem_chr.mpr rfl, rfl⟩
    exact hq.imp (fun h => Pattern.mem_chr.mpr (by rw [h])) fun h => Pattern.mem_chr.mpr (by rw [h])
  obtain ⟨n, rule, hn, hle⟩ := Pattern.choose_max hmem (by simp) hword
  obtain ⟨r, hr, hlong⟩ := Pattern.choose_spec hn
  obtain ⟨k, rfl⟩ := Nat.exists_eq_add_of_le' hle
  have hrule : rule = .rawStart := by
    by_contra hother
    have hvoid := List.all_eq_true.mp (List.all_eq_true.mp rules_void q (by simpa using hq)) _ hr
    rw [Bool.or_eq_true, decide_eq_true_eq] at hvoid
    replace hvoid := hvoid.resolve_left hother
    exact Pattern.notMem_of_derivs_isVoid (u := [q, '"']) (v := tl.take k) hvoid hlong.mem
  subst hrule
  have hlen : ((q :: '"' :: tl).take (k + 2)).length = 2 := by
    rcases rules_lexeme hr hlong.mem with h | h <;> rw [h] <;> rfl
  rw [List.length_take, Nat.min_eq_left hlong.le] at hlen
  rw [hn, hlen]

theorem Quoted.token_step {mode : Mode} {cs : List Char} {r : Read} (h : Quoted mode.carried cs r)
    (hmode : mode ≠ .normal) (hcs : cs = [] → mode.carried ≠ []) : Step mode cs r := by
  refine .reads h.token h.carried h.written ?_ fun hbad => hmode hbad.1
  rcases h.shorter with hlt | ⟨hnil, hr⟩
  · exact .inl hlt
  · exact .inr ⟨hnil, hr, hcs hnil⟩

section
variable [Ucd]

theorem readUnicodeIdent_spec (acc : List Bytes) (cs : List Char) :
    ∃ s rest, readUnicodeIdent acc cs = (.ident s, .normal, rest) ∧
      s ++ encode rest = joined acc ++ encode cs ∧ rest.length ≤ cs.length := by
  induction cs generalizing acc with
  | nil => exact ⟨_, [], rfl, rfl, Nat.le_refl _⟩
  | cons c cs ih =>
    unfold readUnicodeIdent
    split
    · obtain ⟨s, rest, hr, hs, hlen⟩ := ih (encode [c] :: acc)
      refine ⟨s, rest, hr, ?_, by simp only [List.length_cons]; omega⟩
      rw [hs]
      simp
    · exact ⟨_, c :: cs, rfl, rfl, Nat.le_refl _⟩

theorem action_step {rule : Rule} {w cs : List Char} (hw : rule.Lexeme w) (hne : w ≠ [])
    (hok : ¬ LosesText (w ++ cs)) : ∃ r, action rule w cs = .ok r ∧ Step .normal (w ++ cs) r := by
  cases rule with
  | rawStart =>
    obtain ⟨q, hq, rfl⟩ : ∃ q, (q = 'r' ∨ q = 'R') ∧ w = [q, '"'] := by
      rcases hw with rfl | rfl
      · exact ⟨'r', .inl rfl, rfl⟩
      · exact ⟨'R', .inr rfl, rfl⟩
    obtain ⟨r, hr, hquoted⟩ := getDelim_quoted (encode [q, '"']) []
      (not_rawWithoutBracket hq hok)
    exact ⟨r, hr, Quoted.step _ hquoted (by simp) hne hok⟩
  | doubleQuote =>
    cases hw
    refine ⟨_, rfl, Quoted.step (bytes "\"") ?_ (by decide) hne hok⟩
    exact readQuotedLoop_quoted _ _ _ keeps_string rfl [bytes "\""] cs (by simp) fun _ => by decide
  | singleQuote =>
    cases hw
    refine ⟨_, rfl, Quoted.step (bytes "'") ?_ (by decide) hne hok⟩
    refine readQuotedLoop_quoted _ _ _ keeps_string rfl [bytes "'"] cs (by simp) fun hcs => ?_
    exact absurd (.inl (.inl (by rw [hcs]; rfl))) hok
  | backtick =>
    cases hw
    refine ⟨_, rfl, Quoted.step (bytes "`") ?_ (by decide) hne hok⟩
    refine readQuotedLoop_quoted _ _ _ keeps_backtickIdent rfl [bytes "`"] cs (by simp) fun hcs => ?_
    exact absurd (.inl (.inr (by rw [hcs]; rfl))) hok
  | lambda => cases hw; exact ⟨_, rfl, .plain nofun (by decide) hne hok⟩
  | leftParen => cases hw; exact ⟨_, rfl, .plain nofun (by decide) hne hok⟩
  | rightParen => cases hw; exact ⟨_, rfl, .plain nofun (by decide) hne hok⟩
  | leftBracket => cases hw; exact ⟨_, rfl, .plain nofun (by decide) hne hok⟩
  | rightBracket => cases hw; exact ⟨_, rfl, .plain nofun (by decide) hne hok⟩
  | leftBrace => cases hw; exact ⟨_, rfl, .plain nofun (by decide) hne hok⟩
  | rightBrace => cases hw; exact ⟨_, rfl, .plain nofun (by decide) hne hok⟩
  | comment => exact ⟨_, rfl, .plain nofun rfl hne hok⟩
  | number => exact ⟨_, rfl, .plain nofun rfl hne hok⟩
  | operator => exact ⟨_, rfl, .plain nofun rfl hne hok⟩
  | punctuation => exact ⟨_, rfl, .plain nofun rfl hne hok⟩
  | whitespace => exact ⟨_, rfl, .plain nofun rfl hne hok⟩
  | constant => exact ⟨_, rfl, .plain nofun rfl hne hok⟩
  | ident =>
    simp only [action]
    split
    · rename_i kw hkw
      exact ⟨_, rfl, .plain nofun (keywordOfString_some hkw) hne hok⟩
    · exact ⟨_, rfl, .plain nofun rfl hne hok⟩
  | any =>
    obtain ⟨c, rfl⟩ := hw
    simp only [action]
    split
    · obtain ⟨s, rest, hr, hs, hlen⟩ := readUnicodeIdent_spec [encode [c]] cs
      refine ⟨_, congrArg _ hr, .reads nofun rfl ?_ (.inl ?_) fun hbad => hok hbad.2⟩
      · rw [show Token.written (.ident s) = s from rfl, hs]
        simp [Mode.carried]
      · simp only [List.singleton_append, List.length_cons]
        omega
    · exact ⟨_, rfl, .plain nofun rfl hne hok⟩

theorem readNormal_step (cs : List Char) : ∃ r, readNormal cs = .ok r ∧ Step .normal cs r := by
  by_cases hnil : cs = []
  · subst hnil
    exact ⟨_, rfl, .ends rfl rfl⟩
  by_cases hopen : OpensAtEnd cs
  · rcases id hopen with rfl | rfl
    · exact ⟨(.eof, .inSingleQuote (bytes "'"), []), rfl, .drops rfl hopen (by decide)⟩
    · exact ⟨(.eof, .inBacktick (bytes "`"), []), rfl, .drops rfl hopen (by decide)⟩
  by_cases hraw : RawWithoutBracket cs
  · obtain ⟨q, tl, rfl, hq, hno⟩ := id hraw
    refine ⟨_, ?_, .doubles rfl hraw⟩
    simp only [readNormal, choose_rawStart hq]
    have := getDelim_unclosed (encode [q, '"']) [] hno
    rw [joined_nil, List.append_nil, ← Utf8.encode_append] at this
    exact this
  · obtain ⟨n, rule, hn, hlex, hne⟩ := choose_rules hnil
    obtain ⟨r, hr, hstep⟩ := action_step hlex hne
      (show ¬ LosesText (cs.take n ++ cs.drop n) by
        rw [List.take_append_drop]
        exact fun h => h.elim hopen hraw)
    rw [List.take_append_drop] at hstep
    refine ⟨r, ?_, hstep⟩
    unfold readNormal
    split
    · exact absurd rfl hnil
    · rw [hn]
      exact hr

theorem token_step (mode : Mode) (cs : List Char) : ∃ r, token mode cs = .ok r ∧ Step mode cs r := by
  cases mode with
  | normal => exact readNormal_step cs
  | inDoubleQuote prev =>
    by_cases h : cs = [] ∧ prev = []
    · obtain ⟨rfl, rfl⟩ := h
      exact ⟨_, rfl, .ends rfl rfl⟩
    · refine ⟨_, rfl, Quoted.token_step ?_ nofun fun hcs hp => h ⟨hcs, hp⟩⟩
      have := readQuotedLoop_quoted '"' .inDoubleQuote []
        keeps_string rfl [prev] cs (by simp) fun hcs hp => h ⟨hcs, by simpa using hp⟩
      rwa [joined_singleton] at this
  | inSingleQuote prev =>
    by_cases h : cs = []
    · subst h
      exact ⟨_, by simp [token, readSingleQuote, readQuotedLoop], .ends rfl rfl⟩
    · refine ⟨_, rfl, Quoted.token_step ?_ nofun fun hcs => absurd hcs h⟩
      have := readQuotedLoop_quoted '\'' .inSingleQuote prev
        keeps_string rfl [prev] cs (by simp) fun hcs => absurd hcs h
      rwa [joined_singleton] at this
  | inBacktick prev =>
    by_cases h : cs = []
    · subst h
      exact ⟨_, by simp [token, readBacktick, readQuotedLoop], .ends rfl rfl⟩
    · refine ⟨_, rfl, Quoted.token_step ?_ nofun fun hcs => absurd hcs h⟩
      have := readQuotedLoop_quoted '\x60' .inBacktick prev
        keeps_backtickIdent rfl [prev] cs (by simp) fun hcs => absurd hcs h
      rwa [joined_singleton] at this
  | inRawString closingSeq prev =>
    by_cases h : cs = [] ∧ prev = []
    · obtain ⟨rfl, rfl⟩ := h
      exact ⟨_, rfl, .ends rfl rfl⟩
    · refine ⟨_, rfl, Quoted.token_step ?_ nofun fun hcs hp => h ⟨hcs, hp⟩⟩
      have := readRawStringLoop_quoted closingSeq prev [] cs
        fun hcs hp => h ⟨hcs, by simpa using hp⟩
      rwa [joined_nil, List.append_nil] at this

end

end RLexer
end Raoui
