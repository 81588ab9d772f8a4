import Raoui.Editor.Complete
import Raoui.Lexer.Literal
import Raoui.Lexer.Lossless
import Raoui.Lib.Nesting

/-!
# Raoui.Editor.UnfinishedLiteral

Enter on a prompt that ends inside a string, a backtick name or a raw string. The answer is made
from the tokens, where the piece of the literal is an expression like any other, and the mode of
the lexer is not asked. So Enter is held back only for another reason.

* `analyze_submit_iff_heldBack`: the reasons, in terms of the tokens: an open bracket, a last token
  that asks for more, a header without its parentheses, a header without its body.
* `insideEmptyBrackets_iff`: the cursor between two braces.
* `action_unfinished_iff`: which of them can hold back an unfinished literal.
-/

namespace Raoui
namespace RContinuation

open RLexer (Token Keyword)
open Nesting (level)

/-! ## Open brackets -/

/-- From some token on, more brackets of a kind are opened than closed. -/
def OpenBracket (w : List Token) : Prop :=
  ∃ v, v <:+ w ∧ (v.count .rightParen < v.count .leftParen ∨
    v.count .rightBracket < v.count .leftBracket ∨ v.count .rightBrace < v.count .leftBrace)

theorem foldl_countStep (w : List Token) :
    w.foldl countStep (0, 0, 0) = (level .leftParen .rightParen w,
      level .leftBracket .rightBracket w, level .leftBrace .rightBrace w) := by
  induction w using List.reverseRecOn with
  | nil => rfl
  | append_singleton w t ih =>
    rw [List.foldl_concat, ih, Nesting.level_concat, Nesting.level_concat, Nesting.level_concat]
    cases t <;> rfl

theorem openBracket_iff (w : List Token) :
    OpenBracket w ↔ 0 < level Token.leftParen .rightParen w ∨
      0 < level Token.leftBracket .rightBracket w ∨ 0 < level Token.leftBrace .rightBrace w := by
  have hparens : Token.leftParen ≠ .rightParen := nofun
  have hbrackets : Token.leftBracket ≠ .rightBracket := nofun
  have hbraces : Token.leftBrace ≠ .rightBrace := nofun
  rw [Nesting.level_pos_iff hparens, Nesting.level_pos_iff hbrackets,
    Nesting.level_pos_iff hbraces]
  constructor
  · rintro ⟨v, hv, h | h | h⟩
    · exact .inl ⟨v, hv, h⟩
    · exact .inr (.inl ⟨v, hv, h⟩)
    · exact .inr (.inr ⟨v, hv, h⟩)
  · rintro (⟨v, hv, h⟩ | ⟨v, hv, h⟩ | ⟨v, hv, h⟩)
    · exact ⟨v, hv, .inl h⟩
    · exact ⟨v, hv, .inr (.inl h)⟩
    · exact ⟨v, hv, .inr (.inr h)⟩

theorem closed_iff (tokens : List Token) :
    ((foldContinuationState tokens).parens ≤ 0 ∧ (foldContinuationState tokens).brackets ≤ 0 ∧
      (foldContinuationState tokens).braces ≤ 0) ↔ ¬ OpenBracket (significant tokens) := by
  have hcount := fold_counters ⟨0, 0, 0, none, none⟩ (significant tokens)
  rw [← fold_significant] at hcount
  have hlevel := hcount.trans (foldl_countStep (significant tokens))
  simp only [ContinuationState.counters, Prod.mk.injEq] at hlevel
  obtain ⟨hparens, hbrackets, hbraces⟩ := hlevel
  rw [hparens, hbrackets, hbraces, openBracket_iff]
  omega

/-! ## Headers without a body -/

/-- A token no body begins with. -/
def Idle (t : Token) : Prop := isExprToken t = false ∧ isPlain [t] = true

/-- Parentheses that are closed as they were opened, nothing else counted. -/
structure Enclosed (c : List Token) : Prop where
  opened : ∀ c', c' <+: c → c'.count .rightParen ≤ c'.count .leftParen
  closed : c.count .rightParen = c.count .leftParen

/-- A control keyword with its parentheses, if it has any, and nothing of its body. -/
inductive MissingBody : List Token → Prop where
  | keyword {u r : List Token} {k : Keyword} :
      pendingForKeyword k = some ⟨false, 0, true⟩ → (∀ t ∈ r, Idle t) →
      MissingBody (u ++ (.keyword k :: r))
  | header {u x c r : List Token} {k : Keyword} :
      pendingForKeyword k = some ⟨true, 0, false⟩ → isPlain x = true → Token.leftParen ∉ x →
      isPlain c = true → Enclosed c → (∀ t ∈ r, Idle t) →
      MissingBody (u ++ (.keyword k :: (x ++ (.leftParen :: (c ++ (.rightParen :: r))))))

/-- A header within `n` parentheses besides its own. -/
structure InHeader (n : Int) (u x c : List Token) (k : Keyword) : Prop where
  header : pendingForKeyword k = some ⟨true, 0, false⟩
  before : isPlain x = true
  first : Token.leftParen ∉ x
  plain : isPlain c = true
  opened : ∀ c', c' <+: c → c'.count .rightParen ≤ c'.count .leftParen
  level : (c.count .leftParen : Int) = c.count .rightParen + n

theorem InHeader.step {n : Int} {u x c : List Token} {k : Keyword} (h : InHeader n u x c k)
    {t : Token} (ht : isPlain [t] = true) {n' : Int} (hnonneg : 0 ≤ n')
    (hn : ((c ++ [t]).count .leftParen : Int) = (c ++ [t]).count .rightParen + n') :
    InHeader n' u x (c ++ [t]) k := by
  refine ⟨h.header, h.before, h.first, by rw [isPlain_append, h.plain, ht]; rfl, ?_, hn⟩
  intro c' hc'
  obtain rfl | hc' := List.prefix_concat_iff.mp hc'
  · omega
  · exact h.opened c' hc'

theorem waiting_inHeader {w : List Token} {d : Int} (hd : 0 < d)
    (h : w.foldl pendingStep none = waiting d) :
    ∃ u k x c, w = u ++ (.keyword k :: (x ++ (.leftParen :: c))) ∧ InHeader (d - 1) u x c k := by
  induction w using List.reverseRecOn generalizing d with
  | nil => cases h
  | append_singleton w t ih =>
    rw [List.foldl_concat] at h
    have onwards (hplain : isPlain [t] = true) {e : Int} (he : 0 < e)
        (hbefore : w.foldl pendingStep none = waiting e)
        (hcount : (([t].count .leftParen : Nat) : Int) + e = ([t].count .rightParen : Nat) + d) :
        ∃ u k x c, w ++ [t] = u ++ (.keyword k :: (x ++ (.leftParen :: c))) ∧
          InHeader (d - 1) u x c k := by
      obtain ⟨u, k, x, c, rfl, hin⟩ := ih he hbefore
      refine ⟨u, k, x, c ++ [t], by simp, hin.step hplain (by omega) ?_⟩
      have := hin.level
      rw [List.count_append, List.count_append]
      omega
    have inert (hplain : isPlain [t] = true) (hleft : t ≠ .leftParen) (hright : t ≠ .rightParen) :
        ∃ u k x c, w ++ [t] = u ++ (.keyword k :: (x ++ (.leftParen :: c))) ∧
          InHeader (d - 1) u x c k := by
      refine onwards hplain hd ((pendingStep_waiting hplain hleft hright d).mp h) ?_
      rw [List.count_singleton, List.count_singleton, if_neg (by simp [hleft]),
        if_neg (by simp [hright])]
    cases t with
    | leftParen =>
      obtain ⟨-, hbefore⟩ := (leftParen_eq_waiting_iff (recorded w) d).mp h
      obtain rfl | hlt := (show 1 ≤ d by omega).eq_or_lt
      · obtain ⟨u, k, x, rfl, hk, hx, hparen⟩ := (waiting_iff_awaitsHeader w).mp hbefore
        refine ⟨u, k, x, [], by simp, hk, hx, hparen, rfl, fun c' hc' => ?_, rfl⟩
        rw [List.prefix_nil.mp hc']
        exact Nat.le_refl _
      · refine onwards rfl (e := d - 1) (by omega) hbefore ?_
        change (1 : Int) + (d - 1) = 0 + d
        omega
    | rightParen =>
      obtain ⟨-, hbefore⟩ | ⟨hzero, -⟩ := (rightParen_eq_waiting_iff (recorded w) d).mp h
      · refine onwards rfl (e := d + 1) (by omega) hbefore ?_
        change (0 : Int) + (d + 1) = 1 + d
        omega
      · omega
    | keyword k =>
      refine inert ?_ nofun nofun
      cases k with
      | kIf | kFor | kWhile | kFunction =>
        have hzero : (0 : Int) = d := waiting_inj h
        omega
      | kElse | kRepeat => cases h
      | _ => rfl
    | leftBrace => cases h
    | _ => exact inert rfl nofun nofun

theorem clearDone_ne_done {p : Option PendingControl} {q : PendingControl}
    (hq : q.headerDone = true) : clearDone p ≠ some q := by
  intro h
  cases p with
  | none => cases h
  | some p =>
    simp only [clearDone] at h
    split at h
    · cases h
    · rename_i hp
      cases h
      exact hp hq

theorem MissingBody.snoc {w : List Token} {t : Token} (h : MissingBody w) (ht : Idle t) :
    MissingBody (w ++ [t]) := by
  have idle {r : List Token} (hr : ∀ t ∈ r, Idle t) : ∀ u ∈ r ++ [t], Idle u := by
    intro u hu
    obtain hu | hu := List.mem_append.mp hu
    · exact hr u hu
    · exact List.mem_singleton.mp hu ▸ ht
  cases h with
  | keyword hk hr =>
    rw [List.append_assoc, List.cons_append]
    exact .keyword hk (idle hr)
  | header hk hx hfirst hc henc hr =>
    simp only [List.append_assoc, List.cons_append]
    exact .header hk hx hfirst hc henc (idle hr)

theorem missingBody_of_done {w : List Token} {p : PendingControl}
    (h : w.foldl pendingStep none = some p) (hp : p.headerDone = true) : MissingBody w := by
  induction w using List.reverseRecOn generalizing p with
  | nil => cases h
  | append_singleton w t ih =>
    rw [List.foldl_concat] at h
    cases t with
    | keyword k =>
      cases hk : pendingForKeyword k with
      | none =>
        simp only [pendingStep, hk] at h
        exact absurd h (clearDone_ne_done hp)
      | some q =>
        simp only [pendingStep, hk] at h
        cases h
        have hbody : pendingForKeyword k = some ⟨false, 0, true⟩ := by
          cases k with
          | kElse | kRepeat => rfl
          | kIf | kFor | kWhile | kFunction =>
            cases hk
            cases hp
          | _ => cases hk
        exact .keyword hbody (List.forall_mem_nil _)
    | rightParen =>
      have hrec := recorded w
      cases hbefore : w.foldl pendingStep none with
      | none =>
        rw [hbefore] at h
        cases h
      | some q =>
        rw [hbefore] at h hrec
        cases hq : q.headerDone with
        | true => exact (ih hbefore hq).snoc ⟨rfl, rfl⟩
        | false =>
          generalize hrecord : some q = record at hrec
          cases hrec with
          | empty => cases hrecord
          | done hdone =>
            cases hrecord
            rw [hq] at hdone
            cases hdone
          | @waiting d hd =>
            rw [hrecord] at h hbefore
            -- the parenthesis closes the header when it was the only one open
            have hone : d = 1 := by
              obtain rfl | hpos := hd.eq_or_lt
              · cases h
                cases hp
              · have hstep : pendingStep (RContinuation.waiting d) .rightParen =
                    some ⟨true, d - 1, d - 1 = 0⟩ := by
                  simp only [pendingStep, updatePendingForHeader, RContinuation.waiting,
                    Bool.not_false, Bool.and_self, if_true, if_pos (show d > 0 by omega)]
                rw [hstep] at h
                cases h
                have := of_decide_eq_true hp
                omega
            subst hone
            obtain ⟨u, k, x, c, rfl, hin⟩ := waiting_inHeader (by omega) hbefore
            have hclosed : c.count .rightParen = c.count .leftParen := by
              have := hin.level
              omega
            have hmissing := MissingBody.header (u := u) (r := []) hin.header hin.before hin.first
              hin.plain ⟨hin.opened, hclosed⟩ (List.forall_mem_nil _)
            simpa using hmissing
    | leftParen => exact absurd h (clearDone_ne_done hp)
    | leftBrace => cases h
    | operator _ | punctuation _ | whitespace _ | comment _ | default _ | eof | rightBracket
    | rightBrace => exact (ih h hp).snoc ⟨rfl, rfl⟩
    | _ => exact absurd h (clearDone_ne_done hp)

/-- Within its parentheses a header counts those opened. -/
theorem waiting_foldl {c : List Token} (hplain : isPlain c = true)
    (hopened : ∀ c', c' <+: c → c'.count .rightParen ≤ c'.count .leftParen) :
    c.foldl pendingStep (waiting 1) =
      waiting (1 + ((c.count .leftParen : Int) - c.count .rightParen)) := by
  induction c using List.reverseRecOn with
  | nil => rfl
  | append_singleton c t ih =>
    rw [isPlain_append, Bool.and_eq_true] at hplain
    have hle := hopened (c ++ [t]) List.prefix_rfl
    have hbefore := ih hplain.1 fun c' hc' => hopened c' (hc'.trans (List.prefix_append ..))
    have hnonneg := hopened c (List.prefix_append ..)
    rw [List.foldl_concat, hbefore]
    rw [List.count_append, List.count_append, List.count_singleton, List.count_singleton] at *
    by_cases hleft : t = .leftParen
    · subst hleft
      refine (leftParen_eq_waiting_iff (.waiting (by omega)) _).mpr ⟨?_, congrArg waiting ?_⟩
      · simp only [beq_self_eq_true, if_true] at *
        simp only [beq_iff_eq, reduceCtorEq, if_false]
        omega
      · simp only [beq_self_eq_true, if_true, beq_iff_eq, reduceCtorEq, if_false]
        omega
    · by_cases hright : t = .rightParen
      · subst hright
        simp only [beq_self_eq_true, if_true, beq_iff_eq, reduceCtorEq, if_false] at *
        refine (rightParen_eq_waiting_iff (.waiting (by omega)) _).mpr
          (.inl ⟨by omega, congrArg waiting (by omega)⟩)
      · simp only [beq_iff_eq, hleft, hright, if_false, Nat.add_zero]
        exact (pendingStep_waiting hplain.2 hleft hright _).mpr rfl

theorem done_of_idle {p : PendingControl} (hp : p.headerDone = true) {r : List Token}
    (hr : ∀ t ∈ r, Idle t) : r.foldl pendingStep (some p) = some p := by
  induction r with
  | nil => rfl
  | cons t r ih =>
    obtain ⟨hexpr, hplain⟩ := hr t List.mem_cons_self
    have hstep : pendingStep (some p) t = some p := by
      cases t with
      | keyword k => cases k <;> first | (cases hexpr; done) | cases hplain
      | rightParen => simp only [pendingStep, pendingStep_done hp (.inr rfl)]
      | leftBrace => cases hplain
      | operator _ | punctuation _ | whitespace _ | comment _ | default _ | eof | rightBracket
      | rightBrace => rfl
      | _ => cases hexpr
    rw [List.foldl_cons, hstep]
    exact ih fun t ht => hr t (List.mem_cons_of_mem _ ht)

theorem MissingBody.done {w : List Token} (h : MissingBody w) :
    ∃ p : PendingControl, w.foldl pendingStep none = some p ∧ p.headerDone = true := by
  cases h with
  | @keyword u r k hk hr =>
    refine ⟨⟨false, 0, true⟩, ?_, rfl⟩
    have hstep : pendingStep (u.foldl pendingStep none) (.keyword k) = some ⟨false, 0, true⟩ := by
      simp only [pendingStep, hk]
    rw [List.foldl_append, List.foldl_cons, hstep]
    exact done_of_idle rfl hr
  | @header u x c r k hk hx hfirst hc henc hr =>
    refine ⟨⟨true, 0, true⟩, ?_, rfl⟩
    have hbefore : (u ++ (.keyword k :: x)).foldl pendingStep none = waiting 0 :=
      (waiting_iff_awaitsHeader _).mpr ⟨u, k, x, rfl, hk, hx, hfirst⟩
    have hsplit : u ++ (.keyword k :: (x ++ (.leftParen :: (c ++ (.rightParen :: r))))) =
        (u ++ (.keyword k :: x)) ++ (.leftParen :: (c ++ (.rightParen :: r))) := by simp
    have hin := waiting_foldl hc henc.opened
    rw [henc.closed, Int.sub_self] at hin
    rw [hsplit, List.foldl_append, hbefore, List.foldl_cons, List.foldl_append, List.foldl_cons]
    change r.foldl pendingStep (pendingStep (c.foldl pendingStep (waiting 1)) .rightParen) = _
    rw [hin]
    exact done_of_idle rfl hr

/-! ## Why Enter is held back -/

/-- The last token asks for more. -/
def EndsTrailing (w : List Token) : Prop := ∃ u t, w = u ++ [t] ∧ isTrailingToken t = true

theorem openBracket_of_waiting {w : List Token} {d : Int} (hd : 0 < d)
    (h : w.foldl pendingStep none = waiting d) : OpenBracket w := by
  obtain ⟨u, k, x, c, rfl, hin⟩ := waiting_inHeader hd h
  refine ⟨.leftParen :: c, ⟨u ++ (.keyword k :: x), by simp⟩, .inl ?_⟩
  have := hin.level
  have hne : Token.leftParen ≠ .rightParen := nofun
  rw [List.count_cons_self, List.count_cons_of_ne hne]
  omega

/-- The record that is left at the end, unless a bracket is open. -/
theorem pending_eq_none_iff {w : List Token} (hclosed : ¬ OpenBracket w) :
    w.foldl pendingStep none = none ↔ ¬ AwaitsHeader w ∧ ¬ MissingBody w := by
  rw [← waiting_iff_awaitsHeader]
  constructor
  · intro h
    refine ⟨fun hwait => ?_, fun hmissing => ?_⟩
    · rw [h] at hwait
      cases hwait
    · obtain ⟨p, hp, -⟩ := hmissing.done
      rw [h] at hp
      cases hp
  · rintro ⟨hwait, hmissing⟩
    have hrec := recorded w
    generalize hp : w.foldl pendingStep none = p at hrec
    cases hrec with
    | empty => rfl
    | done hdone => exact absurd (missingBody_of_done hp hdone) hmissing
    | @waiting d hd =>
      obtain rfl | hpos := hd.eq_or_lt
      · exact absurd hp hwait
      · exact absurd (openBracket_of_waiting hpos hp) hclosed

theorem trailing_iff (tokens : List Token) :
    (∀ t, (foldContinuationState tokens).lastSignificant = some t → isTrailingToken t = false) ↔
      ¬ EndsTrailing (significant tokens) := by
  constructor
  · rintro h ⟨u, t, heq, ht⟩
    have hsig : t ∈ significant tokens := by
      rw [heq]
      exact List.mem_append_right u (List.mem_singleton.mpr rfl)
    have hig : isIgnorable t = false := by simpa using (List.mem_filter.mp hsig).2
    have hlast : (foldContinuationState tokens).lastSignificant = some t := by
      rw [fold_significant, heq, fold_last _ _ hig]
    rw [h t hlast] at ht
    cases ht
  · intro h t ht
    cases hsig : significant tokens using List.reverseRecOn with
    | nil =>
      rw [fold_significant, hsig] at ht
      cases ht
    | append_singleton u t' =>
      refine last_of_ends (.inr ⟨u, t', hsig, ?_⟩) ht
      cases htrail : isTrailingToken t' with
      | false => rfl
      | true => exact absurd ⟨u, t', hsig, htrail⟩ h

/-- Enter is held back by an open bracket, a last token that asks for more, a header without its
parentheses, or a header without its body. -/
theorem analyze_submit_iff_heldBack (tokens : List Token) :
    analyze tokens = .submit ↔ ¬ (OpenBracket (significant tokens) ∨
      EndsTrailing (significant tokens) ∨ AwaitsHeader (significant tokens) ∨
      MissingBody (significant tokens)) := by
  rw [analyze_submit_iff, closed_iff, trailing_iff, fold_significant, fold_pending]
  change _ ∧ _ ∧ (significant tokens).foldl pendingStep none = none ↔ _
  simp only [not_or]
  constructor
  · rintro ⟨hclosed, htrail, hpending⟩
    exact ⟨hclosed, htrail, (pending_eq_none_iff hclosed).mp hpending⟩
  · rintro ⟨hclosed, htrail, hpending⟩
    exact ⟨hclosed, htrail, (pending_eq_none_iff hclosed).mpr hpending⟩

/-- A piece of a literal at the end is something of a body. -/
theorem heldBack_literal {u : List Token} {t : Token} (ht : t.isLiteral = true) :
    ¬ EndsTrailing (u ++ [t]) ∧ ¬ MissingBody (u ++ [t]) := by
  constructor
  · rintro ⟨u', t', heq, htrail⟩
    obtain ⟨-, heq⟩ := List.append_inj' heq rfl
    obtain rfl := List.singleton_inj.mp heq
    cases t <;> first | (cases ht; done) | cases htrail
  · intro h
    obtain ⟨p, hp, hdone⟩ := h.done
    rw [List.foldl_concat] at hp
    have hstep : ∀ q, pendingStep q t = clearDone q := by
      intro q
      cases t <;> first | rfl | cases ht
    rw [hstep] at hp
    exact clearDone_ne_done hdone hp

/-! ## The cursor between two braces -/

/-- The cursor stands between two braces next to each other. -/
def BetweenBraces (tokens : List Token) (cursorByteOffset : Nat) : Prop :=
  ∃ us vs, tokens = us ++ (.leftBrace :: .rightBrace :: vs) ∧
    (RLexer.lexemes us).length + 1 = cursorByteOffset

theorem mem_tokensWithPositions {tokens : List Token} {pos start stop : Nat} {t : Token} :
    (t, start, stop) ∈ LexerCache.tokensWithPositions RLexer.tokenToLexeme pos tokens ↔
      ∃ us vs, tokens = us ++ (t :: vs) ∧ start = pos + (RLexer.lexemes us).length ∧
        stop = start + (RLexer.tokenToLexeme t).length := by
  induction tokens generalizing pos with
  | nil => simp [LexerCache.tokensWithPositions]
  | cons u tokens ih =>
    simp only [LexerCache.tokensWithPositions, List.mem_cons, Prod.mk.injEq, ih]
    constructor
    · rintro (⟨rfl, rfl, rfl⟩ | ⟨us, vs, rfl, hstart, hstop⟩)
      · exact ⟨[], tokens, rfl, rfl, rfl⟩
      · refine ⟨u :: us, vs, rfl, ?_, hstop⟩
        rw [hstart, RLexer.lexemes_cons, List.length_append, Nat.add_assoc]
    · rintro ⟨us, vs, heq, hstart, hstop⟩
      cases us with
      | nil =>
        obtain ⟨rfl, rfl⟩ := List.cons.inj heq
        exact .inl ⟨rfl, hstart, by rw [hstop, hstart]; rfl⟩
      | cons u' us =>
        obtain ⟨rfl, rfl⟩ := List.cons.inj heq
        refine .inr ⟨us, vs, rfl, ?_, hstop⟩
        rw [hstart, RLexer.lexemes_cons, List.length_append, Nat.add_assoc]

/-- The length of the text before it tells a token. -/
theorem eq_of_lexemes_length {l a b c d : List Token}
    (hne : ∀ t ∈ l, RLexer.tokenToLexeme t ≠ []) (h : l = a ++ b) (h' : l = c ++ d)
    (hlen : (RLexer.lexemes a).length = (RLexer.lexemes c).length) : a = c := by
  induction a generalizing l c with
  | nil =>
    cases c with
    | nil => rfl
    | cons t c =>
      have hpos := List.length_pos_of_ne_nil (hne t (by rw [h']; exact List.mem_cons_self))
      rw [RLexer.lexemes_cons, List.length_append, RLexer.lexemes_nil, List.length_nil] at hlen
      omega
  | cons t a ih =>
    cases c with
    | nil =>
      have hpos := List.length_pos_of_ne_nil (hne t (by rw [h]; exact List.mem_cons_self))
      rw [RLexer.lexemes_cons, List.length_append, RLexer.lexemes_nil, List.length_nil] at hlen
      omega
    | cons t' c =>
      subst h
      obtain ⟨rfl, hrest⟩ := List.cons.inj h'
      have hlen' : (RLexer.lexemes a).length = (RLexer.lexemes c).length := by
        rw [RLexer.lexemes_cons, RLexer.lexemes_cons, List.length_append, List.length_append] at hlen
        exact Nat.add_left_cancel hlen
      rw [ih (l := a ++ b) (fun u hu => hne u (List.mem_cons_of_mem _ hu)) rfl hrest hlen']

theorem insideEmptyBrackets_iff {tokens : List Token}
    (hne : ∀ t ∈ tokens, RLexer.tokenToLexeme t ≠ []) (cursorByteOffset : Nat) :
    insideEmptyBrackets tokens cursorByteOffset = true ↔ BetweenBraces tokens cursorByteOffset := by
  -- a search finds a token at the position, and there is only one
  have found (l : List (Token × Nat × Nat)) (p : Token × Nat × Nat → Bool) (t : Token)
      (hunique : ∀ x ∈ l, ∀ y ∈ l, p x = true → p y = true → x.1 = y.1) :
      ((l.find? p).map fun x => x.1) = some t ↔ ∃ x ∈ l, p x = true ∧ x.1 = t := by
    cases hfind : l.find? p with
    | none =>
      refine iff_of_false nofun ?_
      rintro ⟨x, hx, hpx, -⟩
      exact absurd hpx (List.find?_eq_none.mp hfind x hx)
    | some x =>
      have hx := List.mem_of_find?_eq_some hfind
      have hpx := List.find?_some hfind
      rw [Option.map_some, Option.some.injEq]
      constructor
      · rintro rfl
        exact ⟨x, hx, hpx, rfl⟩
      · rintro ⟨y, hy, hpy, rfl⟩
        exact hunique x hx y hy hpx hpy
  have hstart : ∀ x ∈ LexerCache.tokensWithPositions RLexer.tokenToLexeme 0 tokens,
      ∀ y ∈ LexerCache.tokensWithPositions RLexer.tokenToLexeme 0 tokens,
        x.2.1 = y.2.1 → x.1 = y.1 := by
    rintro ⟨t, a, b⟩ hx ⟨t', a', b'⟩ hy hab
    obtain ⟨us, vs, heq, ha, -⟩ := mem_tokensWithPositions.mp hx
    obtain ⟨us', vs', heq', ha', -⟩ := mem_tokensWithPositions.mp hy
    dsimp only at hab
    obtain rfl := eq_of_lexemes_length hne heq heq' (by omega)
    exact (List.cons.inj (List.append_cancel_left (heq.symm.trans heq'))).1
  have hstop : ∀ x ∈ LexerCache.tokensWithPositions RLexer.tokenToLexeme 0 tokens,
      ∀ y ∈ LexerCache.tokensWithPositions RLexer.tokenToLexeme 0 tokens,
        x.2.2 = y.2.2 → x.1 = y.1 := by
    rintro ⟨t, a, b⟩ hx ⟨t', a', b'⟩ hy hab
    obtain ⟨us, vs, heq, ha, hb⟩ := mem_tokensWithPositions.mp hx
    obtain ⟨us', vs', heq', ha', hb'⟩ := mem_tokensWithPositions.mp hy
    dsimp only at hab
    have hcut : us ++ [t] = us' ++ [t'] := by
      refine eq_of_lexemes_length (b := vs) (d := vs') hne (by simpa using heq)
        (by simpa using heq') ?_
      simp only [RLexer.lexemes, List.flatMap_append, List.flatMap_singleton, List.length_append]
        at ha ha' hb hb' ⊢
      omega
    exact List.singleton_inj.mp (List.append_inj' hcut rfl).2
  unfold insideEmptyBrackets
  simp only [Bool.and_eq_true, decide_eq_true_eq]
  rw [found _ _ _ fun x hx y hy hpx hpy => hstop x (List.mem_reverse.mp hx) y
      (List.mem_reverse.mp hy) ((of_decide_eq_true hpx).trans (of_decide_eq_true hpy).symm),
    found _ _ _ fun x hx y hy hpx hpy => hstart x hx y hy
      ((of_decide_eq_true hpx).trans (of_decide_eq_true hpy).symm)]
  constructor
  · rintro ⟨⟨⟨t, a, b⟩, hx, hb, rfl⟩, ⟨t', a', b'⟩, hy, ha, rfl⟩
    obtain ⟨us, vs, heq, hstart, hlen⟩ := mem_tokensWithPositions.mp (List.mem_reverse.mp hx)
    obtain ⟨us', vs', heq', hstart', -⟩ := mem_tokensWithPositions.mp hy
    have hbrace : (RLexer.tokenToLexeme .leftBrace).length = 1 := rfl
    have hb := of_decide_eq_true hb
    have ha := of_decide_eq_true ha
    dsimp only at hb ha hlen
    rw [hbrace] at hlen
    have hcut : us ++ [.leftBrace] = us' := by
      refine eq_of_lexemes_length (b := vs) (d := .rightBrace :: vs') hne (by simpa using heq)
        heq' ?_
      rw [RLexer.lexemes_append, List.length_append]
      change _ + 1 = _
      omega
    subst hcut
    exact ⟨us, vs', by simpa using heq', by omega⟩
  · rintro ⟨us, vs, rfl, hlen⟩
    refine ⟨⟨(.leftBrace, (RLexer.lexemes us).length, cursorByteOffset), ?_, ?_, rfl⟩,
      (.rightBrace, cursorByteOffset, cursorByteOffset + 1), ?_, ?_, rfl⟩
    · refine List.mem_reverse.mpr (mem_tokensWithPositions.mpr ⟨us, .rightBrace :: vs, rfl, ?_, ?_⟩)
      · rw [Nat.zero_add]
      · exact hlen.symm
    · exact decide_eq_true rfl
    · refine mem_tokensWithPositions.mpr ⟨us ++ [.leftBrace], vs, by simp, ?_, rfl⟩
      rw [RLexer.lexemes_append, List.length_append, Nat.zero_add]
      exact hlen.symm
    · exact decide_eq_true rfl

end RContinuation

/-! ## Enter -/

namespace LexerCache

variable {Token Mode : Type}

/-- The entry of the last line. -/
theorem createFrom_snoc {l : Lexer Token Mode} {mode : Mode} {lines : List UnicodeString}
    {line : UnicodeString} {cache : Cache Token Mode}
    (h : createFrom l mode (lines ++ [line]) = .ok cache) :
    ∃ entries e, cache = entries ++ [e] ∧ entries.length = lines.length ∧
      l.lexLine e.startMode line.toBytes = .ok (e.tokens, e.endMode) := by
  induction lines generalizing mode cache with
  | nil =>
    obtain ⟨tokens, m, rest, hlex, hrest, rfl⟩ := createFrom_cons_iff.mp h
    cases hrest
    exact ⟨[], _, rfl, rfl, hlex⟩
  | cons first lines ih =>
    obtain ⟨tokens, m, rest, -, hrest, rfl⟩ := createFrom_cons_iff.mp h
    obtain ⟨entries, e, rfl, hlen, hlex⟩ := ih hrest
    exact ⟨_ :: entries, e, rfl, by rw [List.length_cons, List.length_cons, hlen], hlex⟩

end LexerCache

namespace REnter

open LexerCache (cursorByteOffset)
open RContinuation
open RLexer (Token)

section
variable [Ucd]

omit [Ucd] in
/-- What Enter answers on the last line, when it is not blank. -/
theorem action_last {lines : List UnicodeString} {line : UnicodeString} {entries : RLexCache.Cache}
    {e : LexerCache.Entry RLexer.Token RLexer.Mode} (hlen : entries.length = lines.length)
    (hblank : trim line.toBytes ≠ []) (cursorPos : Int) :
    ∃ a, action (lines ++ [line]) lines.length cursorPos (entries ++ [e]) = .ok a ∧
      (a = .submit ↔ ¬ insideEmptyBrackets e.tokens (cursorByteOffset line cursorPos) = true ∧
        analyze ((entries ++ [e]).flatMap LexerCache.Entry.tokens) = .submit) := by
  have hnth : nth (lines ++ [line]) (lines.length : Int) = .ok line := by
    rw [nth, if_neg (by omega)]
    simp
  have hentry : LexerCache.getLineTokens (entries ++ [e]) (lines.length : Int) =
      .ok (some e.tokens) := by
    rw [LexerCache.getLineTokens, LexerCache.getEntry, if_neg (by omega), Int.toNat_natCast, ← hlen,
      List.getElem?_concat_length]
    rfl
  have hall : LexerCache.tokensBeforeLine (entries ++ [e]) ((lines.length : Int) + 1) =
      (entries ++ [e]).flatMap LexerCache.Entry.tokens := by
    rw [LexerCache.tokensBeforeLine, List.take_of_length_le]
    rw [List.length_append, List.length_singleton, hlen]
    omega
  unfold action
  simp only [hnth, hentry, hall, bind, Except.bind, if_neg hblank]
  cases hin : insideEmptyBrackets e.tokens (cursorByteOffset line cursorPos) with
  | true =>
    exact ⟨_, rfl, iff_of_false nofun fun h => h.1 rfl⟩
  | false =>
    cases analyze ((entries ++ [e]).flatMap LexerCache.Entry.tokens) with
    | submit => exact ⟨_, rfl, iff_of_true rfl ⟨nofun, rfl⟩⟩
    | «continue» i b => exact ⟨_, rfl, iff_of_false nofun fun h => nomatch h.2⟩

omit [Ucd] in
theorem ne_nil_of_trim {s : Bytes} (h : trim s ≠ []) : s ≠ [] := by
  rintro rfl
  exact h rfl

/-- Enter on an unfinished literal is held back between two braces, by an open bracket, by a header
without its parentheses, and, when the literal is only a quote at the end of the line, by what is
missing before the quote. -/
theorem action_unfinished_iff {lines : List UnicodeString} {line : UnicodeString}
    {cache : RLexCache.Cache} {e : LexerCache.Entry RLexer.Token RLexer.Mode}
    (hcache : RLexCache.create (lines ++ [line]) = .ok cache) (he : cache.getLast? = some e)
    (hmode : e.endMode ≠ .normal) (hblank : trim line.toBytes ≠ []) (cursorPos : Int) :
    (∃ a, action (lines ++ [line]) lines.length cursorPos cache = .ok a ∧ a ≠ .submit) ↔
      BetweenBraces e.tokens (cursorByteOffset line cursorPos) ∨
      OpenBracket (significant (cache.flatMap LexerCache.Entry.tokens)) ∨
      AwaitsHeader (significant (cache.flatMap LexerCache.Entry.tokens)) ∨
      e.endMode.BareQuote ∧ (EndsTrailing (significant (cache.flatMap LexerCache.Entry.tokens)) ∨
        MissingBody (significant (cache.flatMap LexerCache.Entry.tokens))) := by
  obtain ⟨entries, e', rfl, hlen, hlex⟩ := LexerCache.createFrom_snoc hcache
  rw [List.getLast?_concat] at he
  obtain rfl := Option.some.inj he
  obtain ⟨cs, hdecode, hlexes⟩ := RLexer.lexLine_lexes hlex
  obtain ⟨a, ha, hsubmit⟩ := action_last (e := e') hlen hblank cursorPos
  have hleft : (∃ a, action (lines ++ [line]) lines.length cursorPos (entries ++ [e']) = .ok a ∧
      a ≠ .submit) ↔ a ≠ .submit := by
    constructor
    · rintro ⟨b, hb, hne⟩
      obtain rfl := Except.ok.inj (ha.symm.trans hb)
      exact hne
    · exact fun hne => ⟨a, ha, hne⟩
  rw [hleft, Ne, hsubmit, insideEmptyBrackets_iff hlexes.lexeme_ne_nil, analyze_submit_iff_heldBack,
    ← not_or, not_not]
  refine or_congr_right (or_congr_right ?_)
  obtain ⟨us, t, htokens, ht⟩ | hbare | ⟨-, hnil, -⟩ := hlexes.unfinished hmode
  · -- the last token is a piece of the literal
    have hkeep : isIgnorable t = false := by
      cases t <;> first | rfl | cases ht
    have hlast : ∃ u, significant ((entries ++ [e']).flatMap LexerCache.Entry.tokens) = u ++ [t] := by
      refine ⟨significant (entries.flatMap LexerCache.Entry.tokens ++ us), ?_⟩
      rw [List.flatMap_append, List.flatMap_singleton, htokens, ← List.append_assoc, significant,
        List.filter_append, List.filter_cons_of_pos (by simp [hkeep])]
      rfl
    obtain ⟨u, hu⟩ := hlast
    rw [hu]
    obtain ⟨htrail, hbody⟩ := heldBack_literal (u := u) ht
    simp only [htrail, hbody, false_or, or_false, and_false]
  · simp only [hbare, true_and]
    exact or_left_comm
  · refine absurd ?_ (ne_nil_of_trim hblank)
    rw [hnil] at hdecode
    exact (Utf8.encode_of_decode hdecode).symm

end

/-! ## Examples -/

section

attribute [local instance] asciiUcd

/-- `f("a`, on one line. -/
def openCall : UnicodeString := ⟨bytes "f(\"a", [0, 1, 2, 3], [1, 1, 1, 1]⟩

/-- `"a`, on one line. -/
def openString : UnicodeString := ⟨bytes "\"a", [0, 1], [1, 1]⟩

theorem action_openCall : ∃ cache, RLexCache.create [openCall] = .ok cache ∧
    ∃ a, action [openCall] 0 4 cache = .ok a ∧ a ≠ .submit := by
  obtain ⟨cache, e, hcache, he, hmode, htokens⟩ : ∃ cache e, RLexCache.create [openCall] = .ok cache ∧
      cache.getLast? = some e ∧ e.endMode ≠ .normal ∧
      significant (cache.flatMap LexerCache.Entry.tokens) =
        [.ident (bytes "f"), .leftParen, .string (bytes "\"a")] :=
    ⟨_, _, rfl, rfl, nofun, rfl⟩
  refine ⟨cache, hcache, (@action_unfinished_iff _ [] openCall cache e hcache he hmode
    (by decide) 4).mpr (.inr (.inl ?_))⟩
  rw [htokens]
  exact ⟨_, List.suffix_rfl, .inl (by decide)⟩

/-- A string that is not closed is submitted. -/
theorem action_openString : ¬ ∀ (lines : List UnicodeString) (line : UnicodeString)
    (cache : RLexCache.Cache) (e : LexerCache.Entry RLexer.Token RLexer.Mode) (cursorPos : Int),
    RLexCache.create (lines ++ [line]) = .ok cache → cache.getLast? = some e →
    e.endMode ≠ .normal → trim line.toBytes ≠ [] →
    ∃ a, action (lines ++ [line]) lines.length cursorPos cache = .ok a ∧ a ≠ .submit := by
  intro h
  obtain ⟨cache, e, hcache, he, hmode, haction⟩ : ∃ cache e, RLexCache.create [openString] = .ok cache ∧
      cache.getLast? = some e ∧ e.endMode ≠ .normal ∧ action [openString] 0 2 cache = .ok .submit :=
    ⟨_, _, rfl, rfl, nofun, rfl⟩
  obtain ⟨a, ha, hne⟩ := h [] openString cache e 2 hcache he hmode (by decide)
  obtain rfl := Except.ok.inj (haction.symm.trans ha)
  exact hne rfl

end

end REnter
end Raoui
