import Raoui.Lexer.Lossless
import Raoui.Lexer.Settled

/-!
# Raoui.Lexer.Boundary

A line cut at a token boundary. The text before the boundary has the same tokens on its own: no
token in it depends on what comes behind.

* `token_cut`: one token.
* `Reaches.cut`: all the tokens up to the boundary.
* `Reaches.braces`: a line cut between two braces.
* `LexerCache.Leads`: the lines that take the lexer from one mode to another.
-/

namespace Raoui
namespace RLexer

open Utf8 (encode)

/-! ## What a reader leaves -/

theorem readQuotedLoop_suffix (quote : Char) (tok : Bytes → Token) (mode : Bytes → Mode)
    (start : Bytes) (acc : List Bytes) (cs : List Char) :
    (readQuotedLoop quote tok mode start acc cs).2.2 <:+ cs.tail := by
  induction acc, cs using readQuotedLoop.induct quote start with
  | case1 =>
    rw [readQuotedLoop]
    split <;> exact List.nil_suffix
  | case2 =>
    rw [readQuotedLoop]
    split <;> exact List.nil_suffix
  | case3 acc c cs ih =>
    simp only [readQuotedLoop]
    exact ih.trans ((List.tail_suffix cs).trans (List.suffix_cons c cs))
  | case4 acc cs hesc =>
    simp only [readQuotedLoop, if_pos]
    exact List.suffix_rfl
  | case5 acc c cs hesc hquote ih =>
    simp only [readQuotedLoop, if_neg hquote]
    exact ih.trans (List.tail_suffix cs)

theorem readRawStringLoop_suffix (closingSeq prev : Bytes) (acc : List Bytes) (cs : List Char) :
    (readRawStringLoop closingSeq prev acc cs).2.2 <:+ cs.tail := by
  induction acc, cs using readRawStringLoop.induct closingSeq prev with
  | case1 acc current h =>
    rw [readRawStringLoop]
    split <;> exact List.nil_suffix
  | case2 acc current h =>
    rw [readRawStringLoop]
    split <;> exact List.nil_suffix
  | case3 acc c cs acc' current h =>
    simp only [readRawStringLoop]
    rw [if_pos h]
    exact List.suffix_rfl
  | case4 acc c cs acc' current h ih =>
    simp only [readRawStringLoop]
    rw [if_neg h]
    exact ih.trans (List.tail_suffix cs)

theorem getDelim_suffix {rawPrefix : Bytes} {acc : List Bytes} {cs : List Char} {r : Read}
    (h : getDelim rawPrefix acc cs = .ok r) : r.2.2 <:+ cs.tail := by
  induction cs generalizing acc with
  | nil =>
    cases h
    exact List.nil_suffix
  | cons c cs ih =>
    rw [getDelim] at h
    split at h
    · rename_i hc
      obtain ⟨close, hclose⟩ := closingBracket_ok hc
      rw [hclose] at h
      cases h
      exact (readRawStringLoop_suffix _ _ _ cs).trans (List.tail_suffix cs)
    · exact (ih h).trans (List.tail_suffix cs)

/-! ## Readers on a text that is cut -/

/-- What a reader leaves of a text no longer than `v` is too short to end in `v`. -/
theorem not_suffix_tail {u v rest : List Char} (hv : v ≠ []) (hu : u.length ≤ v.length) :
    ¬ rest ++ v <:+ u.tail := by
  intro h
  have hlen := h.length_le
  have hpos := List.length_pos_of_ne_nil hv
  rw [List.length_append, List.length_tail] at hlen
  omega

theorem readQuotedLoop_cut {quote : Char} {tok : Bytes → Token} {mode : Bytes → Mode}
    {start : Bytes} (hquote : quote ≠ '\\') {acc : List Bytes} {cs v rest : List Char} {t : Token}
    {m : Mode} (hv : v ≠ [])
    (h : readQuotedLoop quote tok mode start acc (cs ++ v) = (t, m, rest ++ v)) :
    readQuotedLoop quote tok mode start acc cs = (t, m, rest) := by
  have hshort : ∀ {acc : List Bytes} {u : List Char}, u.length ≤ v.length →
      readQuotedLoop quote tok mode start acc u ≠ (t, m, rest ++ v) := by
    intro acc u hu hread
    have hsuffix := readQuotedLoop_suffix quote tok mode start acc u
    rw [hread] at hsuffix
    exact not_suffix_tail hv hu hsuffix
  induction acc, cs using readQuotedLoop.induct quote start with
  | case1 => exact absurd h (hshort (Nat.le_refl _))
  | case2 => exact absurd h (hshort (Nat.le_refl _))
  | case3 acc c cs ih =>
    simp only [readQuotedLoop, List.cons_append] at h ⊢
    exact ih h
  | case4 acc cs =>
    rw [List.cons_append, readQuotedLoop_cons hquote, if_pos rfl, Prod.mk.injEq, Prod.mk.injEq] at h
    obtain ⟨ht, hm, hrest⟩ := h
    rw [readQuotedLoop_cons hquote, if_pos rfl, ht, hm, List.append_cancel_right hrest]
  | case5 acc c cs hesc hne ih =>
    by_cases hc : c = '\\'
    · subst hc
      cases cs with
      | nil =>
        obtain ⟨d, v, rfl⟩ := List.exists_cons_of_ne_nil hv
        simp only [readQuotedLoop, List.cons_append, List.nil_append] at h
        exact absurd h (hshort (Nat.le_succ _))
      | cons d cs => exact absurd rfl (hesc d cs rfl)
    · rw [List.cons_append, readQuotedLoop_cons hc, if_neg hne] at h
      rw [readQuotedLoop_cons hc, if_neg hne]
      exact ih h

theorem readRawStringLoop_cut {closingSeq prev : Bytes} {acc : List Bytes} {cs v rest : List Char}
    {t : Token} {m : Mode} (hv : v ≠ [])
    (h : readRawStringLoop closingSeq prev acc (cs ++ v) = (t, m, rest ++ v)) :
    readRawStringLoop closingSeq prev acc cs = (t, m, rest) := by
  induction cs generalizing acc with
  | nil =>
    have hsuffix := readRawStringLoop_suffix closingSeq prev acc v
    rw [List.nil_append] at h
    rw [h] at hsuffix
    exact absurd hsuffix (not_suffix_tail hv (Nat.le_refl _))
  | cons c cs ih =>
    rw [List.cons_append] at h
    simp only [readRawStringLoop] at h ⊢
    split at h
    · rename_i hclose
      rw [if_pos hclose]
      rw [Prod.mk.injEq, Prod.mk.injEq] at h
      obtain ⟨ht, hm, hrest⟩ := h
      rw [ht, hm, List.append_cancel_right hrest]
    · rename_i hclose
      rw [if_neg hclose]
      exact ih h

theorem getDelim_cut {rawPrefix : Bytes} {acc : List Bytes} {cs v rest : List Char} {t : Token}
    {m : Mode} (hv : v ≠ []) (h : getDelim rawPrefix acc (cs ++ v) = .ok (t, m, rest ++ v)) :
    getDelim rawPrefix acc cs = .ok (t, m, rest) := by
  induction cs generalizing acc with
  | nil => exact absurd (getDelim_suffix h) (not_suffix_tail hv (Nat.le_refl _))
  | cons c cs ih =>
    rw [List.cons_append, getDelim] at h
    rw [getDelim]
    split at h
    · rename_i hc
      obtain ⟨close, hclose⟩ := closingBracket_ok hc
      rw [if_pos hc]
      rw [hclose] at h ⊢
      exact congrArg Except.ok (readRawStringLoop_cut hv (Except.ok.inj h))
    · rename_i hc
      rw [if_neg hc]
      exact ih h

section
variable [Ucd]

theorem readUnicodeIdent_suffix (acc : List Bytes) (cs : List Char) :
    (readUnicodeIdent acc cs).2.2 <:+ cs := by
  induction cs generalizing acc with
  | nil => exact List.suffix_rfl
  | cons c cs ih =>
    rw [readUnicodeIdent]
    split
    · exact (ih _).trans (List.suffix_cons c cs)
    · exact List.suffix_rfl

theorem readUnicodeIdent_cut {acc : List Bytes} {cs v rest : List Char} {t : Token} {m : Mode}
    (hv : v ≠ []) (h : readUnicodeIdent acc (cs ++ v) = (t, m, rest ++ v)) :
    readUnicodeIdent acc cs = (t, m, rest) := by
  induction cs generalizing acc with
  | nil =>
    obtain ⟨c, v, rfl⟩ := List.exists_cons_of_ne_nil hv
    rw [List.nil_append, readUnicodeIdent] at h
    split at h
    · have hsuffix := readUnicodeIdent_suffix (encode [c] :: acc) v
      rw [h] at hsuffix
      exact absurd hsuffix (not_suffix_tail (u := c :: v) hv (Nat.le_refl _))
    · rw [Prod.mk.injEq, Prod.mk.injEq] at h
      obtain ⟨ht, hm, hrest⟩ := h
      have hnil : [] = rest := List.append_cancel_right hrest
      rw [readUnicodeIdent, ht, hm, hnil]
  | cons c cs ih =>
    rw [List.cons_append, readUnicodeIdent] at h
    rw [readUnicodeIdent]
    split at h
    · rename_i hc
      rw [if_pos hc]
      exact ih h
    · rename_i hc
      rw [if_neg hc]
      rw [Prod.mk.injEq, Prod.mk.injEq] at h
      obtain ⟨ht, hm, hrest⟩ := h
      have hcons : c :: cs = rest := List.append_cancel_right hrest
      rw [ht, hm, hcons]

/-! ## Tokens -/

theorem action_suffix {rule : Rule} {w cs : List Char} {r : Read} (h : action rule w cs = .ok r) :
    r.2.2 <:+ cs := by
  cases hplain : rule.plain w with
  | some t =>
    rw [action_plain hplain] at h
    cases h
    exact List.suffix_rfl
  | none =>
    cases rule with
    | comment =>
      cases h
      exact List.suffix_rfl
    | rawStart => exact (getDelim_suffix h).trans (List.tail_suffix cs)
    | doubleQuote =>
      cases h
      exact (readQuotedLoop_suffix _ _ _ _ _ cs).trans (List.tail_suffix cs)
    | singleQuote =>
      cases h
      exact (readQuotedLoop_suffix _ _ _ _ _ cs).trans (List.tail_suffix cs)
    | backtick =>
      cases h
      exact (readQuotedLoop_suffix _ _ _ _ _ cs).trans (List.tail_suffix cs)
    | any =>
      simp only [action] at h
      split at h
      · split at h
        · cases h
          exact readUnicodeIdent_suffix _ cs
        · cases h
          exact List.suffix_rfl
      · cases h
        exact List.suffix_rfl
    | ident =>
      simp only [Rule.plain] at hplain
      split at hplain <;> cases hplain
    | _ => cases hplain

theorem action_cut {rule : Rule} {w cs v rest : List Char} {t : Token} {m : Mode} (hv : v ≠ [])
    (h : action rule w (cs ++ v) = .ok (t, m, rest ++ v)) :
    action rule w cs = .ok (t, m, rest) := by
  have hsame : ∀ {t' : Token} {m' : Mode}, Except.ok (t', m', cs ++ v) =
      (Except.ok (t, m, rest ++ v) : Res Read) →
        (Except.ok (t', m', cs) : Res Read) = .ok (t, m, rest) := by
    intro t' m' heq
    rw [Except.ok.injEq, Prod.mk.injEq, Prod.mk.injEq] at heq
    obtain ⟨rfl, rfl, hrest⟩ := heq
    rw [List.append_cancel_right hrest]
  cases hplain : rule.plain w with
  | some t' =>
    rw [action_plain hplain] at h ⊢
    exact hsame h
  | none =>
    cases rule with
    | comment => exact hsame h
    | rawStart => exact getDelim_cut hv h
    | doubleQuote => exact congrArg _ (readQuotedLoop_cut (by decide) hv (Except.ok.inj h))
    | singleQuote => exact congrArg _ (readQuotedLoop_cut (by decide) hv (Except.ok.inj h))
    | backtick => exact congrArg _ (readQuotedLoop_cut (by decide) hv (Except.ok.inj h))
    | any =>
      simp only [action] at h ⊢
      split at h
      · split at h
        · rename_i hstart
          rw [if_pos hstart]
          exact congrArg _ (readUnicodeIdent_cut hv (Except.ok.inj h))
        · rename_i hstart
          rw [if_neg hstart]
          exact hsame h
      · exact hsame h
    | ident =>
      simp only [Rule.plain] at hplain
      split at hplain <;> cases hplain
    | _ => cases hplain

theorem token_suffix {mode m : Mode} {cs rest : List Char} {t : Token}
    (h : token mode cs = .ok (t, m, rest)) : rest <:+ cs := by
  cases mode with
  | normal =>
    by_cases hnil : cs = []
    · subst hnil
      cases h
      exact List.suffix_rfl
    · obtain ⟨n, rule, hn, -⟩ := choose_rules hnil
      rw [token, readNormal_of_choose hn hnil] at h
      exact (action_suffix h).trans (List.drop_suffix n cs)
  | inDoubleQuote prev =>
    have hsuffix := readQuotedLoop_suffix '"' .string .inDoubleQuote [] [prev] cs
    rw [show readQuotedLoop '"' .string .inDoubleQuote [] [prev] cs = _ from Except.ok.inj h]
      at hsuffix
    exact hsuffix.trans (List.tail_suffix cs)
  | inSingleQuote prev =>
    have hsuffix := readQuotedLoop_suffix '\'' .string .inSingleQuote prev [prev] cs
    rw [show readQuotedLoop '\'' .string .inSingleQuote prev [prev] cs = _ from Except.ok.inj h]
      at hsuffix
    exact hsuffix.trans (List.tail_suffix cs)
  | inBacktick prev =>
    have hsuffix := readQuotedLoop_suffix '\x60' .backtickIdent .inBacktick prev [prev] cs
    rw [show readQuotedLoop '\x60' .backtickIdent .inBacktick prev [prev] cs = _ from
      Except.ok.inj h] at hsuffix
    exact hsuffix.trans (List.tail_suffix cs)
  | inRawString closingSeq prev =>
    have hsuffix := readRawStringLoop_suffix closingSeq prev [] cs
    rw [show readRawStringLoop closingSeq prev [] cs = _ from Except.ok.inj h] at hsuffix
    exact hsuffix.trans (List.tail_suffix cs)

/-- A token that ends before `v` is read without `v`. -/
theorem token_cut {mode m : Mode} {w v rest : List Char} {t : Token} (hv : v ≠ [])
    (h : token mode (w ++ v) = .ok (t, m, rest ++ v)) : token mode w = .ok (t, m, rest) := by
  cases mode with
  | normal =>
    have hwhole : w ++ v ≠ [] := List.append_ne_nil_of_right_ne_nil w hv
    obtain ⟨n, rule, hn, -, hne⟩ := choose_rules hwhole
    rw [token, readNormal_of_choose hn hwhole] at h
    have hlen := (action_suffix h).length_le
    rw [List.length_append, List.length_drop, List.length_append] at hlen
    obtain ⟨r, -, hlong⟩ := Pattern.choose_spec hn
    have hle := hlong.le
    rw [List.length_append] at hle
    have hpos : 0 < n := by
      by_contra hzero
      exact hne (by rw [Nat.eq_zero_of_not_pos hzero, List.take_zero])
    have hwithin : n ≤ w.length := by
      have := List.length_pos_of_ne_nil hv
      omega
    have hw : w ≠ [] := by
      rintro rfl
      exact absurd hwithin (Nat.not_le.mpr hpos)
    rw [List.take_append_of_le_length hwithin, List.drop_append_of_le_length hwithin] at h
    rw [token, readNormal_of_choose (Pattern.choose_cut hn hwithin) hw]
    exact action_cut hv h
  | inDoubleQuote prev => exact congrArg _ (readQuotedLoop_cut (by decide) hv (Except.ok.inj h))
  | inSingleQuote prev => exact congrArg _ (readQuotedLoop_cut (by decide) hv (Except.ok.inj h))
  | inBacktick prev => exact congrArg _ (readQuotedLoop_cut (by decide) hv (Except.ok.inj h))
  | inRawString closingSeq prev =>
    exact congrArg _ (readRawStringLoop_cut hv (Except.ok.inj h))

/-! ## Lines -/

theorem Reaches.suffix {mode m : Mode} {cs v : List Char} (h : Reaches mode cs m v) : v <:+ cs := by
  induction h with
  | here => exact List.suffix_rfl
  | next ht _ _ ih => exact ih.trans (token_suffix ht)

theorem Reaches.trans {mode m m' : Mode} {cs v w : List Char} (h : Reaches mode cs m v)
    (h' : Reaches m v m' w) : Reaches mode cs m' w := by
  induction h with
  | here => exact h'
  | next ht hne _ ih => exact .next ht hne (ih h')

/-- The text before a boundary has its tokens on its own, and those behind follow them. -/
theorem Reaches.cut {mode : Mode} {w v : List Char} (h : Reaches mode (w ++ v) .normal v)
    (hv : v ≠ []) : ∃ ts, Lexes mode w ts .normal ∧ lexemes ts = mode.carried ++ encode w ∧
      ∀ us m, Lexes .normal v us m → Lexes mode (w ++ v) (ts ++ us) m := by
  generalize hcs : w ++ v = cs at h ⊢
  generalize hm : Mode.normal = m at h
  induction h generalizing w with
  | here =>
    subst hm
    obtain rfl : w = [] := List.append_left_eq_self.mp hcs
    exact ⟨[], .eof rfl, rfl, fun us m hus => hus⟩
  | @next mode m₁ m cs rest v t ht hne hrest ih =>
    obtain ⟨w', rfl⟩ := hrest.suffix
    obtain ⟨ts, hts, hlexemes, hbehind⟩ := ih hv rfl hm
    subst hcs
    refine ⟨_, .next (token_cut hv ht) hne hts, ?_, fun us m hus => ?_⟩
    · obtain ⟨r, hr, hstep⟩ := token_step mode (w ++ v)
      obtain rfl := Except.ok.inj (ht.symm.trans hr)
      have hread : t.written ++ encode (w' ++ v) = mode.carried ++ encode (w ++ v) ∧
          m₁.carried = [] := by
        generalize hleft : w' ++ v = left at hstep
        cases hstep with
        | ends => exact absurd rfl hne
        | reads _ hcarried hwritten => exact ⟨hwritten, hcarried⟩
        | drops => exact absurd rfl hne
        | doubles => exact absurd (List.append_eq_nil_iff.mp hleft).2 hv
      rw [Utf8.encode_append, Utf8.encode_append, ← List.append_assoc, ← List.append_assoc] at hread
      rw [lexemes_append, lexemes_expand, hlexemes, hread.2]
      exact List.append_cancel_right hread.1
    · rw [List.append_assoc]
      exact .next ht hne (hbehind us m hus)

/-! ## Braces and blanks -/

omit [Ucd] in
theorem rules_brace : (['{', '}'].all fun c => rules.all fun p => p.2 = .leftBrace ||
    p.2 = .rightBrace || p.2 = .any || (p.1.deriv c).isVoid) = true := rfl

omit [Ucd] in
/-- A brace is a match of its own, whatever follows. -/
theorem choose_brace {c : Char} (hc : c ∈ ['{', '}']) (v : List Char) :
    Pattern.choose rules (c :: v) = Pattern.choose rules [c] := by
  obtain ⟨n, rule, hn, hlex, hne⟩ := choose_rules (List.cons_ne_nil c v)
  obtain ⟨r, hr, hlong⟩ := Pattern.choose_spec hn
  obtain ⟨k, rfl⟩ : ∃ k, n = k + 1 := by
    cases n with
    | zero => exact absurd rfl hne
    | succ k => exact ⟨k, rfl⟩
  have hone : ∀ d, (c :: v).take (k + 1) = [d] → k = 0 := by
    intro d hd
    have hlen := congrArg List.length hd
    rw [List.length_take, Nat.min_eq_left hlong.le] at hlen
    exact Nat.succ.inj hlen
  have hk : k = 0 := by
    by_cases hleft : rule = .leftBrace
    · subst hleft
      exact hone _ hlex
    · by_cases hright : rule = .rightBrace
      · subst hright
        exact hone _ hlex
      · by_cases hany : rule = .any
        · subst hany
          obtain ⟨d, hd⟩ := hlex
          exact hone d hd
        · have hvoid := List.all_eq_true.mp (List.all_eq_true.mp rules_brace c hc) _ hr
          simp only [hleft, hright, hany, decide_false, Bool.false_or] at hvoid
          exact absurd hlong.mem (Pattern.notMem_of_derivs_isVoid (u := [c]) (v := v.take k) hvoid)
  subst hk
  rw [hn, Pattern.choose_cut (w := [c]) hn (Nat.le_refl 1)]

theorem token_leftBrace (v : List Char) :
    token .normal ('{' :: v) = .ok (.leftBrace, .normal, v) := by
  have hchoose : Pattern.choose rules ('{' :: v) = some (1, .leftBrace) :=
    (choose_brace (by decide) v).trans rfl
  rw [token, readNormal_of_choose hchoose (List.cons_ne_nil _ _)]
  rfl

theorem token_rightBrace (v : List Char) :
    token .normal ('}' :: v) = .ok (.rightBrace, .normal, v) := by
  have hchoose : Pattern.choose rules ('}' :: v) = some (1, .rightBrace) :=
    (choose_brace (by decide) v).trans rfl
  rw [token, readNormal_of_choose hchoose (List.cons_ne_nil _ _)]
  rfl

omit [Ucd] in
theorem rules_blank : (rules.all fun p => p.2 = .whitespace || p.2 = .any ||
    (p.1.deriv ' ').isVoid) = true := rfl

omit [Ucd] in
theorem mem_whitespace {w : List Char} (h : w ∈ whitespace.lang) : ∀ c ∈ w, c = '\t' ∨ c = ' ' := by
  have hblank : ∀ {u : List Char}, u ∈ (chars "\t ").lang → ∀ c ∈ u, c = '\t' ∨ c = ' ' := by
    intro u hu c hc
    obtain ⟨d, hd, rfl⟩ := Pattern.mem_sat.mp hu
    rw [List.mem_singleton] at hc
    subst hc
    simpa using hd
  obtain ⟨u, hu, v, hv, rfl⟩ := Pattern.mem_seq.mp h
  obtain ⟨us, rfl, hus⟩ := Language.mem_kstar.mp hv
  intro c hc
  obtain hc | hc := List.mem_append.mp hc
  · exact hblank hu c hc
  · obtain ⟨u', hu', hc⟩ := List.mem_flatten.mp hc
    exact hblank (hus u' hu') c hc

omit [Ucd] in
theorem blanks_mem (k : Nat) : List.replicate (k + 1) ' ' ∈ whitespace.lang := by
  have hblank : [' '] ∈ (chars "\t ").lang := Pattern.mem_sat.mpr ⟨' ', by decide, rfl⟩
  refine Pattern.mem_seq.mpr ⟨[' '], hblank, List.replicate k ' ', ?_, rfl⟩
  refine Language.mem_kstar.mpr ⟨List.replicate k [' '], ?_, fun u hu => ?_⟩
  · rw [List.flatten_replicate_singleton]
  · rw [List.eq_of_mem_replicate hu]
    exact hblank

omit [Ucd] in
theorem choose_blanks (k : Nat) (v : List Char) :
    Pattern.choose rules (List.replicate (k + 1) ' ' ++ '}' :: v) = some (k + 1, .whitespace) := by
  have hmem : (whitespace, Rule.whitespace) ∈ rules := by simp [rules]
  have htake : (List.replicate (k + 1) ' ' ++ '}' :: v).take (k + 1) =
      List.replicate (k + 1) ' ' := by
    rw [List.take_append_of_le_length (by simp), List.take_of_length_le (by simp)]
  obtain ⟨n, rule, hn, hle⟩ := Pattern.choose_max hmem (by simp) (htake ▸ blanks_mem k)
  obtain ⟨r, hr, hlong⟩ := Pattern.choose_spec hn
  have hrule : rule = .whitespace ∨ rule = .any := by
    by_contra hother
    rw [not_or] at hother
    have hvoid := List.all_eq_true.mp rules_blank _ hr
    simp only [hother.1, hother.2, decide_false, Bool.false_or] at hvoid
    obtain ⟨j, rfl⟩ := Nat.exists_eq_add_of_le' hle
    exact Pattern.notMem_of_derivs_isVoid (u := [' ']) hvoid hlong.mem
  obtain rfl | rfl := hrule
  · have hr' : r = whitespace := by
      simp only [rules, List.mem_cons, Prod.mk.injEq, reduceCtorEq, and_false, and_true, false_or,
        or_false, List.not_mem_nil] at hr
      exact hr
    have hge : n ≤ k + 1 := by
      by_contra hlt
      have hbrace : '}' ∈ (List.replicate (k + 1) ' ' ++ '}' :: v).take n := by
        obtain ⟨j, rfl⟩ : ∃ j, n = k + 1 + (j + 1) := ⟨n - (k + 2), by omega⟩
        rw [List.take_append, List.length_replicate, Nat.add_sub_cancel_left, List.take_succ_cons]
        exact List.mem_append_right _ (List.mem_cons_self ..)
      exact absurd (mem_whitespace (hr' ▸ hlong.mem) _ hbrace) (by decide)
    rw [hn, Nat.le_antisymm hge hle]
  · obtain ⟨c, hc⟩ := rules_lexeme hr hlong.mem
    have hlen := congrArg List.length hc
    rw [List.length_take, Nat.min_eq_left hlong.le, List.length_singleton] at hlen
    obtain rfl : k = 0 := by omega
    subst hlen
    have hcut : Pattern.choose rules [' '] = some (1, .any) :=
      Pattern.choose_cut (v := '}' :: v) hn (Nat.le_refl 1)
    cases (show Pattern.choose rules [' '] = some (1, .whitespace) from rfl).symm.trans hcut

theorem token_blanks (k : Nat) (v : List Char) :
    token .normal (List.replicate (k + 1) ' ' ++ '}' :: v) =
      .ok (.whitespace (encode (List.replicate (k + 1) ' ')), .normal, '}' :: v) := by
  rw [token, readNormal_of_choose (choose_blanks k v) (by simp)]
  rw [List.take_append_of_le_length (by simp), List.take_of_length_le (by simp),
    List.drop_append_of_le_length (by simp), List.drop_of_length_le (by simp)]
  rfl

/-- Blanks before a closing brace add at most a token, and are one on their own. -/
theorem lexes_blanks (k : Nat) {v : List Char} {ts : List Token} {m : Mode}
    (h : Lexes .normal ('}' :: v) ts m) : ∃ us, us.length ≤ 1 ∧
      Lexes .normal (List.replicate k ' ') us .normal ∧
        Lexes .normal (List.replicate k ' ' ++ '}' :: v) (us ++ ts) m := by
  cases k with
  | zero => exact ⟨[], Nat.zero_le 1, .eof rfl, h⟩
  | succ k =>
    have ht := token_blanks k v
    have halone : token .normal (List.replicate (k + 1) ' ') =
        .ok (.whitespace (encode (List.replicate (k + 1) ' ')), .normal, []) :=
      token_cut (v := '}' :: v) (List.cons_ne_nil _ _) ht
    exact ⟨[.whitespace _], Nat.le_refl 1, .next halone (fun heof => by cases heof) (.eof rfl),
      .next ht (fun heof => by cases heof) h⟩

/-- A line cut between two braces that the lexer comes to: the tokens of the line, of what is
before the cut and of what is behind it. -/
theorem Reaches.braces {mode : Mode} {us rest : List Char}
    (h : Reaches mode (us ++ '{' :: '}' :: rest) .normal ('{' :: '}' :: rest)) :
    ∃ before after m, lexemes before = mode.carried ++ encode us ∧
      Lexes mode (us ++ '{' :: '}' :: rest) (before ++ .leftBrace :: .rightBrace :: after) m ∧
      Lexes mode (us ++ ['{']) (before ++ [.leftBrace]) .normal ∧
      Lexes .normal ('}' :: rest) (.rightBrace :: after) m := by
  obtain ⟨before, -, hlexemes, hwhole⟩ := h.cut (List.cons_ne_nil _ _)
  obtain ⟨after, m, hafter⟩ := lexes_total .normal rest
  have hright : Lexes .normal ('}' :: rest) (.rightBrace :: after) m :=
    .next (token_rightBrace rest) (fun heof => by cases heof) hafter
  have hbraces : Lexes .normal ('{' :: '}' :: rest) (.leftBrace :: .rightBrace :: after) m :=
    .next (token_leftBrace _) (fun heof => by cases heof) hright
  have hopened : Reaches mode ((us ++ ['{']) ++ '}' :: rest) .normal ('}' :: rest) := by
    rw [List.append_assoc]
    exact h.trans (.next (token_leftBrace _) (fun heof => by cases heof) .here)
  obtain ⟨opened, hopen, -, hbehind⟩ := hopened.cut (List.cons_ne_nil _ _)
  have hall := hbehind _ _ hright
  rw [List.append_assoc, List.singleton_append] at hall
  have hsame : opened = before ++ [.leftBrace] := by
    have heq := ((hwhole _ _ hbraces).unique hall).1
    rw [List.append_cons] at heq
    exact (List.append_cancel_right heq).symm
  exact ⟨before, after, m, hlexemes, hwhole _ _ hbraces, hsame ▸ hopen, hright⟩

theorem lexLine_of_lexes {mode m : Mode} {cs : List Char} {ts : List Token}
    (h : Lexes mode cs ts m) (hle : ts.length ≤ 1000) : lexLine mode (encode cs) = .ok (ts, m) := by
  rw [lexLine, Utf8.decode_encode]
  exact (lexLoop_eq h 1002 [] (by simp)).1 (by simpa using hle)

/-- A line that is lexed is within the guard. -/
theorem lexLine_encode {mode m : Mode} {cs : List Char} {ts : List Token}
    (h : lexLine mode (encode cs) = .ok (ts, m)) : Lexes mode cs ts m ∧ ts.length ≤ 1000 := by
  obtain ⟨cs', hcs', hlexes⟩ := lexLine_lexes h
  rw [Utf8.decode_encode, Option.some.injEq] at hcs'
  subst hcs'
  refine ⟨hlexes, ?_⟩
  by_contra hgt
  obtain ⟨e, he⟩ := (lexLoop_eq hlexes 1002 [] (by simp)).2 (by simpa using hgt)
  rw [lexLine, Utf8.decode_encode] at h
  exact absurd (h.symm.trans he) (fun heq => by cases heq)

end

end RLexer

/-! ## Documents -/

namespace LexerCache

variable {Token Mode : Type} {l : Lexer Token Mode} {mode m m' : Mode}
  {line : UnicodeString} {above below lines : List UnicodeString}

/-- Lexing the lines from one mode ends in the other. -/
inductive Leads (l : Lexer Token Mode) : Mode → List UnicodeString → Mode → Prop where
  | nil {mode : Mode} : Leads l mode [] mode
  | cons {mode m m' : Mode} {line : UnicodeString} {rest : List UnicodeString}
      {tokens : List Token} : l.lexLine mode line.toBytes = .ok (tokens, m) → Leads l m rest m' →
      Leads l mode (line :: rest) m'

theorem Leads.append (h : Leads l mode above m) (hbelow : Leads l m below m') :
    Leads l mode (above ++ below) m' := by
  induction h with
  | nil => exact hbelow
  | cons hline _ ih => exact .cons hline (ih hbelow)

theorem Leads.createFrom (h : Leads l mode lines m) :
    ∃ cache, createFrom l mode lines = .ok cache := by
  induction h with
  | nil => exact ⟨[], rfl⟩
  | cons hline _ ih =>
    obtain ⟨cache, hcache⟩ := ih
    exact ⟨_, createFrom_cons_iff.mpr ⟨_, _, _, hline, hcache, rfl⟩⟩

theorem leads_of_createFrom {cache : Cache Token Mode} (h : createFrom l mode lines = .ok cache) :
    ∃ m, Leads l mode lines m := by
  induction lines generalizing mode cache with
  | nil => exact ⟨mode, .nil⟩
  | cons line rest ih =>
    obtain ⟨tokens, m, cache', hline, hrest, -⟩ := createFrom_cons_iff.mp h
    obtain ⟨m', hm'⟩ := ih hrest
    exact ⟨m', .cons hline hm'⟩

/-- The entry of a line in a cache, and the modes around it. -/
theorem exists_entry {cache : Cache Token Mode}
    (h : createFrom l mode (above ++ line :: below) = .ok cache) :
    ∃ e m, cache[above.length]? = some e ∧ Leads l mode above e.startMode ∧
      l.lexLine e.startMode line.toBytes = .ok (e.tokens, e.endMode) ∧
        Leads l e.endMode below m := by
  induction above generalizing mode cache with
  | nil =>
    obtain ⟨tokens, m, cache', hline, hrest, rfl⟩ := createFrom_cons_iff.mp h
    obtain ⟨m', hm'⟩ := leads_of_createFrom hrest
    exact ⟨_, m', rfl, .nil, hline, hm'⟩
  | cons first above ih =>
    obtain ⟨tokens, m, cache', hfirst, hrest, rfl⟩ := createFrom_cons_iff.mp h
    obtain ⟨e, m', hget, habove, hline, hbelow⟩ := ih hrest
    exact ⟨e, m', hget, .cons hfirst habove, hline, hbelow⟩

end LexerCache
end Raoui
