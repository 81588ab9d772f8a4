import Raoui.Editor.Grammar

/-!
# Raoui.Editor.Complete

What the analyser of `r_continuation.ml` makes of complete and of unfinished programs. It is one
pass over the tokens, with a counter for each kind of bracket, the last token and one record of a
header that waits for its body. The three are followed apart.

* `Balanced.counters`: over a balanced list the counters come back to what they were.
* `Settles`, `Starts`: how a part of a program moves the record. A brace or a control keyword in it
  loses the record of the header around it.
* `analyze_complete`: a complete program is submitted.
* `analyze_header_iff`: a header without its body is continued just when nothing within its
  parentheses has lost its record.
-/

namespace Raoui
namespace RContinuation

open RLexer (Token Keyword)

/-! ## The parts of the state -/

theorem fold_significant (tokens : List Token) :
    foldContinuationState tokens = (significant tokens).foldl continuationStep ⟨0, 0, 0, none, none⟩ := by
  unfold foldContinuationState
  generalize (⟨0, 0, 0, none, none⟩ : ContinuationState) = s
  induction tokens generalizing s with
  | nil => rfl
  | cons t tokens ih =>
    rw [List.foldl_cons, ih]
    by_cases ht : isIgnorable t = true
    · have hstep : continuationStep s t = s := by rw [continuationStep, if_pos ht]
      have hdrop : significant (t :: tokens) = significant tokens := by
        rw [significant, List.filter_cons_of_neg (by simp [ht])]
        rfl
      rw [hstep, hdrop]
    · have hkeep : significant (t :: tokens) = t :: significant tokens := by
        rw [significant, List.filter_cons_of_pos (by simp [ht])]
        rfl
      rw [hkeep, List.foldl_cons]

/-- The counters of the state. -/
def ContinuationState.counters (s : ContinuationState) : Int × Int × Int :=
  (s.parens, s.brackets, s.braces)

/-- How a token moves the counters. -/
def countStep (n : Int × Int × Int) : Token → Int × Int × Int
  | .leftParen => (n.1 + 1, n.2)
  | .rightParen => (max 0 (n.1 - 1), n.2)
  | .leftBracket => (n.1, n.2.1 + 1, n.2.2)
  | .rightBracket => (n.1, max 0 (n.2.1 - 1), n.2.2)
  | .leftBrace => (n.1, n.2.1, n.2.2 + 1)
  | .rightBrace => (n.1, n.2.1, max 0 (n.2.2 - 1))
  | _ => n

/-- The record is cleared when its header is done. -/
def clearDone : Option PendingControl → Option PendingControl
  | some p => if p.headerDone then none else some p
  | none => none

/-- How a token moves the record of the waiting header. -/
def pendingStep (p : Option PendingControl) : Token → Option PendingControl
  | .keyword kw =>
    match pendingForKeyword kw with
    | some q => some q
    | none => clearDone p
  | .leftParen => clearDone (updatePendingForHeader p .leftParen)
  | .rightParen => updatePendingForHeader p .rightParen
  | .leftBrace => none
  | .number _ | .string _ | .constant _ | .ident _ | .backtickIdent _ | .lambda | .unknown _
  | .leftBracket => clearDone p
  | _ => p

/-- The last part of the step, where an expression begins behind a header. -/
theorem clearing_eq (s : ContinuationState) (c : Bool) :
    (match s.pending with
      | some p => if p.headerDone && c then { s with pending := none } else s
      | none => s) = { s with pending := if c then clearDone s.pending else s.pending } := by
  obtain ⟨parens, brackets, braces, last, pending⟩ := s
  cases pending with
  | none => cases c <;> rfl
  | some p =>
    obtain ⟨needs, depth, done⟩ := p
    cases done <;> cases c <;> rfl

theorem continuationStep_eq {t : Token} (s : ContinuationState) (ht : isIgnorable t = false) :
    continuationStep s t = ⟨(countStep s.counters t).1, (countStep s.counters t).2.1,
      (countStep s.counters t).2.2, some t, pendingStep s.pending t⟩ := by
  unfold continuationStep
  rw [if_neg (by simp [ht])]
  refine (clearing_eq _ _).trans ?_
  cases t with
  | keyword kw => cases kw <;> rfl
  | whitespace _ => cases ht
  | comment _ => cases ht
  | _ => rfl

theorem continuationStep_counters (s : ContinuationState) (t : Token) :
    (continuationStep s t).counters = countStep s.counters t := by
  by_cases ht : isIgnorable t = true
  · rw [continuationStep, if_pos ht]
    cases t <;> first | rfl | cases ht
  · rw [continuationStep_eq s (Bool.eq_false_iff.mpr ht)]
    rfl

theorem continuationStep_pending (s : ContinuationState) (t : Token) :
    (continuationStep s t).pending = pendingStep s.pending t := by
  by_cases ht : isIgnorable t = true
  · rw [continuationStep, if_pos ht]
    cases t <;> first | rfl | cases ht
  · rw [continuationStep_eq s (Bool.eq_false_iff.mpr ht)]

theorem fold_counters (s : ContinuationState) (w : List Token) :
    (w.foldl continuationStep s).counters = w.foldl countStep s.counters := by
  induction w generalizing s with
  | nil => rfl
  | cons t w ih => rw [List.foldl_cons, List.foldl_cons, ih, continuationStep_counters]

theorem fold_pending (s : ContinuationState) (w : List Token) :
    (w.foldl continuationStep s).pending = w.foldl pendingStep s.pending := by
  induction w generalizing s with
  | nil => rfl
  | cons t w ih => rw [List.foldl_cons, List.foldl_cons, ih, continuationStep_pending]

theorem fold_last {t : Token} (s : ContinuationState) (w : List Token) (ht : isIgnorable t = false) :
    ((w ++ [t]).foldl continuationStep s).lastSignificant = some t := by
  rw [List.foldl_concat, continuationStep_eq _ ht]

/-- When the tokens are submitted. -/
theorem analyze_submit_iff (tokens : List Token) :
    analyze tokens = .submit ↔
      ((foldContinuationState tokens).parens ≤ 0 ∧ (foldContinuationState tokens).brackets ≤ 0 ∧
        (foldContinuationState tokens).braces ≤ 0) ∧
      (∀ t, (foldContinuationState tokens).lastSignificant = some t → isTrailingToken t = false) ∧
      (foldContinuationState tokens).pending = none := by
  unfold analyze
  generalize foldContinuationState tokens = s
  obtain ⟨parens, brackets, braces, last, pending⟩ := s
  cases last <;> cases pending <;> simp [and_assoc]

/-! ## The counters -/

theorem countStep_of_not_isBracket {t : Token} (n : Int × Int × Int) (ht : isBracket t = false) :
    countStep n t = n := by
  cases t <;> first | rfl | cases ht

/-- Over a balanced list the counters come back. -/
theorem Balanced.counters {w : List Token} (h : Balanced w) {a b c : Int} (ha : 0 ≤ a) (hb : 0 ≤ b)
    (hc : 0 ≤ c) : w.foldl countStep (a, b, c) = (a, b, c) := by
  induction h generalizing a b c with
  | nil => rfl
  | token ht => exact countStep_of_not_isBracket _ ht
  | parens _ ih =>
    rw [List.foldl_cons, List.foldl_concat]
    have hin : countStep (a, b, c) .leftParen = (a + 1, b, c) := rfl
    rw [hin, ih (by omega) hb hc]
    simp only [countStep, Int.add_sub_cancel, Int.max_eq_right ha]
  | brackets _ ih =>
    rw [List.foldl_cons, List.foldl_concat]
    have hin : countStep (a, b, c) .leftBracket = (a, b + 1, c) := rfl
    rw [hin, ih ha (by omega) hc]
    simp only [countStep, Int.add_sub_cancel, Int.max_eq_right hb]
  | braces _ ih =>
    rw [List.foldl_cons, List.foldl_concat]
    have hin : countStep (a, b, c) .leftBrace = (a, b, c + 1) := rfl
    rw [hin, ih ha hb (by omega)]
    simp only [countStep, Int.add_sub_cancel, Int.max_eq_right hc]
  | append _ _ ih ih' => rw [List.foldl_append, ih ha hb hc, ih' ha hb hc]

theorem Balanced.closed {tokens : List Token} (h : Balanced (significant tokens)) :
    (foldContinuationState tokens).parens ≤ 0 ∧ (foldContinuationState tokens).brackets ≤ 0 ∧
      (foldContinuationState tokens).braces ≤ 0 := by
  have hcount := fold_counters ⟨0, 0, 0, none, none⟩ (significant tokens)
  rw [← fold_significant] at hcount
  have hzero : (foldContinuationState tokens).counters = (0, 0, 0) :=
    hcount.trans (h.counters (Int.le_refl 0) (Int.le_refl 0) (Int.le_refl 0))
  simp only [ContinuationState.counters, Prod.mk.injEq] at hzero
  omega

/-! ## The record of the waiting header -/

/-- No token of the list starts a block or a control structure. -/
def isPlain (w : List Token) : Bool :=
  w.all fun t =>
    match t with
    | .keyword kw => !isControlKeyword kw
    | .leftBrace => false
    | _ => true

/-- A header within `d` parentheses of its own. -/
def waiting (d : Int) : Option PendingControl := some ⟨true, d, false⟩

theorem isPlain_append (u v : List Token) : isPlain (u ++ v) = (isPlain u && isPlain v) :=
  List.all_append

/-- A part within a header's parentheses: it keeps the record when it is plain, and loses every
record when it is not. -/
structure Settles (w : List Token) : Prop where
  stays : w.foldl pendingStep none = none
  keeps : isPlain w = true → ∀ d, 0 < d → w.foldl pendingStep (waiting d) = waiting d
  loses : isPlain w = false → ∀ p, w.foldl pendingStep p = none

/-- A part that can be a body: it clears the record of the header in front of it. -/
structure Starts (w : List Token) : Prop where
  settles : Settles w
  clears : ∀ p : PendingControl, p.headerDone = true → w.foldl pendingStep (some p) = none

theorem Settles.append {u v : List Token} (hu : Settles u) (hv : Settles v) : Settles (u ++ v) := by
  refine ⟨?_, fun hplain d hd => ?_, fun hplain p => ?_⟩
  · rw [List.foldl_append, hu.stays, hv.stays]
  · rw [isPlain_append, Bool.and_eq_true] at hplain
    rw [List.foldl_append, hu.keeps hplain.1 d hd, hv.keeps hplain.2 d hd]
  · rw [isPlain_append, Bool.and_eq_false_iff] at hplain
    rw [List.foldl_append]
    cases hv' : isPlain v with
    | false => exact hv.loses hv' _
    | true => rw [hu.loses (hplain.resolve_right (by simp [hv'])), hv.stays]

theorem Starts.append {u v : List Token} (hu : Starts u) (hv : Settles v) : Starts (u ++ v) := by
  refine ⟨hu.settles.append hv, fun p hp => ?_⟩
  rw [List.foldl_append, hu.clears p hp, hv.stays]

theorem settles_nil : Settles [] := ⟨rfl, fun _ _ _ => rfl, fun h => absurd h (by decide)⟩

/-- A token that leaves the record as it is. -/
theorem settles_inert {t : Token} (hplain : isPlain [t] = true)
    (ht : ∀ p, pendingStep p t = p) : Settles [t] :=
  ⟨ht none, fun _ d _ => ht (waiting d), fun h => absurd (hplain.symm.trans h) (by decide)⟩

/-- A token an expression can begin with. -/
theorem starts_token {t : Token} (hplain : isPlain [t] = true)
    (ht : ∀ p, pendingStep p t = clearDone p) : Starts [t] := by
  refine ⟨⟨ht none, fun _ d _ => ht (waiting d), fun h => ?_⟩, fun p hp => ?_⟩
  · exact absurd (hplain.symm.trans h) (by decide)
  · change pendingStep (some p) t = none
    rw [ht, clearDone, if_pos hp]

theorem starts_atom {t : Token} (h : isAtom t = true) : Starts [t] := by
  cases t with
  | keyword kw => cases kw <;> first | exact starts_token rfl fun _ => rfl | cases h
  | number _ | string _ | constant _ | ident _ | backtickIdent _ => exact starts_token rfl fun _ => rfl
  | _ => cases h

theorem starts_name {t : Token} (h : isName t = true) : Starts [t] := by
  cases t with
  | string _ | ident _ | backtickIdent _ => exact starts_token rfl fun _ => rfl
  | _ => cases h

theorem settles_operator (s : Bytes) : Settles [.operator s] := settles_inert rfl fun _ => rfl

theorem settles_punctuation (s : Bytes) : Settles [.punctuation s] := settles_inert rfl fun _ => rfl

/-- A part that loses every record. -/
theorem starts_of_loses {w : List Token} (hplain : isPlain w = false)
    (hall : ∀ p, w.foldl pendingStep p = none) : Starts w :=
  ⟨⟨hall none, fun h => absurd (hplain.symm.trans h) (by decide), fun _ => hall⟩,
    fun p _ => hall (some p)⟩

theorem isPlain_parens (w : List Token) :
    isPlain (.leftParen :: (w ++ [.rightParen])) = isPlain w := by
  rw [← List.singleton_append, isPlain_append, isPlain_append]
  exact (Bool.true_and _).trans (Bool.and_true _)

/-- Within parentheses a header is one deeper. -/
theorem Settles.parens {w : List Token} (h : Settles w) :
    Starts (.leftParen :: (w ++ [.rightParen])) := by
  refine ⟨⟨?_, fun hplain d hd => ?_, fun hplain p => ?_⟩, fun p hp => ?_⟩
  · rw [List.foldl_cons, List.foldl_concat]
    change pendingStep (w.foldl pendingStep none) _ = none
    rw [h.stays]
    rfl
  · rw [isPlain_parens] at hplain
    rw [List.foldl_cons, List.foldl_concat]
    change pendingStep (w.foldl pendingStep (waiting (d + 1))) _ = waiting d
    rw [h.keeps hplain (d + 1) (by omega)]
    have hdone : decide (d = 0) = false := decide_eq_false (by omega)
    simp only [pendingStep, updatePendingForHeader, waiting, Bool.not_false, Bool.and_self, if_true,
      if_pos (show d + 1 > 0 by omega), Int.add_sub_cancel, hdone]
  · rw [isPlain_parens] at hplain
    rw [List.foldl_cons, List.foldl_concat, h.loses hplain]
    rfl
  · have hkeep : updatePendingForHeader (some p) .leftParen = some p := by
      simp [updatePendingForHeader, hp]
    have hclear : pendingStep (some p) .leftParen = none := by
      simp only [pendingStep, hkeep, clearDone, if_pos hp]
    rw [List.foldl_cons, List.foldl_concat, hclear, h.stays]
    rfl

theorem Settles.brackets {w : List Token} (h : Settles w) :
    Starts (.leftBracket :: (w ++ [.rightBracket])) := by
  have hopen : Starts [.leftBracket] := starts_token rfl fun _ => rfl
  exact hopen.append (h.append (settles_inert rfl fun _ => rfl))

/-- A brace loses every record. -/
theorem Settles.braces {w : List Token} (h : Settles w) :
    Starts (.leftBrace :: (w ++ [.rightBrace])) := by
  refine starts_of_loses rfl fun p => ?_
  rw [List.foldl_cons, List.foldl_concat]
  change pendingStep (w.foldl pendingStep none) _ = none
  rw [h.stays]
  rfl

/-- What stands in a header's own parentheses leaves its record, done, or loses it. -/
theorem Settles.within {c : List Token} (h : Settles c) :
    (Token.leftParen :: (c ++ [.rightParen])).foldl pendingStep (waiting 0) =
      if isPlain c then some ⟨true, 0, true⟩ else none := by
  have hopen : pendingStep (waiting 0) .leftParen = waiting 1 := rfl
  rw [List.foldl_cons, List.foldl_concat, hopen]
  cases hplain : isPlain c with
  | true =>
    rw [h.keeps hplain 1 (by omega)]
    rfl
  | false =>
    rw [h.loses hplain]
    rfl

theorem pendingStep_header {k : Keyword} (hk : pendingForKeyword k = some ⟨true, 0, false⟩)
    (p : Option PendingControl) : pendingStep p (.keyword k) = waiting 0 := by
  simp only [pendingStep, hk]
  rfl

theorem isPlain_keyword {k : Keyword} {q : PendingControl} (hk : pendingForKeyword k = some q)
    (w : List Token) : isPlain (.keyword k :: w) = false := by
  cases k <;> first | rfl | cases hk

/-- A header with its body leaves no record behind. -/
theorem starts_headed {k : Keyword} {c b : List Token} (hc : Settles c) (hb : Starts b)
    (hk : pendingForKeyword k = some ⟨true, 0, false⟩) :
    Starts (.keyword k :: .leftParen :: (c ++ (.rightParen :: b))) := by
  have hsplit : Token.leftParen :: (c ++ (.rightParen :: b)) =
      (Token.leftParen :: (c ++ [.rightParen])) ++ b := by simp
  refine starts_of_loses (isPlain_keyword hk _) fun p => ?_
  rw [List.foldl_cons, pendingStep_header hk, hsplit, List.foldl_append, hc.within]
  cases isPlain c with
  | true => exact hb.clears _ rfl
  | false => exact hb.settles.stays

/-- `else` and `repeat` wait for their body at once. -/
theorem starts_keyword {k : Keyword} {b : List Token} (hb : Starts b)
    (hk : pendingForKeyword k = some ⟨false, 0, true⟩) : Starts (.keyword k :: b) := by
  refine starts_of_loses (isPlain_keyword hk b) fun p => ?_
  have hstep : pendingStep p (.keyword k) = some ⟨false, 0, true⟩ := by
    simp only [pendingStep, hk]
  rw [List.foldl_cons, hstep]
  exact hb.clears _ rfl

/-- Every part settles the record, and an expression can be a body. -/
theorem Derives.pending {n : Nonterminal} {w : List Token} (h : Derives n w) :
    Settles w ∧ (n = .expr → Starts w) := by
  have expr {w : List Token} (h : Starts w) : Settles w ∧ (Nonterminal.expr = .expr → Starts w) :=
    ⟨h.settles, fun _ => h⟩
  induction h with
  | atom ht => exact expr (starts_atom ht)
  | call _ _ ihf iha => exact expr ((ihf.2 rfl).append iha.1.parens.settles)
  | index _ _ ihf iha => exact expr ((ihf.2 rfl).append iha.1.brackets.settles)
  | @element f a _ _ ihf iha =>
    have h := (ihf.2 rfl).append iha.1.brackets.settles.brackets.settles
    rw [List.cons_append, List.append_assoc] at h
    exact expr h
  | unary s _ ih =>
    refine expr ⟨(settles_operator s).append ih.1, fun p hp => ?_⟩
    exact (ih.2 rfl).clears p hp
  | binary s _ _ ih ih' => exact expr ((ih.2 rfl).append ((settles_operator s).append ih'.1))
  | paren _ ih => exact expr ih.1.parens
  | block _ ih => exact expr ih.1.braces
  | @headed k c b hc _ ihc ihb =>
    obtain rfl | ⟨kw, rfl, hk⟩ := hc.opening rfl
    · have hlambda : Starts [.lambda] := starts_token rfl fun _ => rfl
      have h := hlambda.append (ihc.1.parens.settles.append ihb.1)
      rw [List.singleton_append, List.cons_append, List.append_assoc] at h
      exact expr h
    · exact expr (starts_headed ihc.1 (ihb.2 rfl) hk)
  | @ifElse c b b' _ _ _ ihc ihb ihb' =>
    exact expr (starts_headed ihc.1 ((ihb.2 rfl).append (starts_keyword (ihb'.2 rfl) rfl).settles)
      rfl)
  | repeatLoop _ ih => exact expr (starts_keyword (ih.2 rfl) rfl)
  | ifHeader _ ih => exact ⟨ih.1, nofun⟩
  | whileHeader _ ih => exact ⟨ih.1, nofun⟩
  | forHeader ht _ ih =>
    have hin : Settles [.keyword .kIn] := (starts_token rfl fun _ => rfl).settles
    exact ⟨(starts_name ht).settles.append (hin.append ih.1), nofun⟩
  | functionHeader _ ih => exact ⟨ih.1, nofun⟩
  | lambdaHeader _ ih => exact ⟨ih.1, nofun⟩
  | noArguments => exact ⟨settles_nil, nofun⟩
  | argument _ ih => exact ⟨ih.1, nofun⟩
  | emptyArgument s ht => exact ⟨(starts_name ht).settles.append (settles_operator s), nofun⟩
  | moreArguments _ _ ih ih' => exact ⟨ih.1.append ((settles_punctuation _).append ih'.1), nofun⟩
  | noParameters => exact ⟨settles_nil, nofun⟩
  | parameter ht => exact ⟨(starts_name ht).settles, nofun⟩
  | defaultParameter s ht _ ih =>
    exact ⟨(starts_name ht).settles.append ((settles_operator s).append ih.1), nofun⟩
  | moreParameters _ _ ih ih' => exact ⟨ih.1.append ((settles_punctuation _).append ih'.1), nofun⟩
  | noStatement => exact ⟨settles_nil, nofun⟩
  | statement _ ih => exact ⟨ih.1, nofun⟩
  | semicolon _ _ ih ih' => exact ⟨ih.1.append ((settles_punctuation _).append ih'.1), nofun⟩
  | lineBreak _ _ ih ih' => exact ⟨ih.1.append ih'.1, nofun⟩

/-! ## Complete programs -/

/-- The list ends in a token behind which nothing is missing. -/
def Ends (w : List Token) : Prop := ∃ u t, w = u ++ [t] ∧ isTrailingToken t = false

theorem Ends.after {w : List Token} (h : Ends w) (u : List Token) : Ends (u ++ w) := by
  obtain ⟨v, t, rfl, ht⟩ := h
  exact ⟨u ++ v, t, (List.append_assoc ..).symm, ht⟩

theorem ends_token {t : Token} (ht : isTrailingToken t = false) (u : List Token) :
    Ends (u ++ [t]) := ⟨u, t, rfl, ht⟩

theorem Derives.ends {n : Nonterminal} {w : List Token} (h : Derives n w) :
    (n = .expr → Ends w) ∧ (n = .program → w = [] ∨ Ends w) := by
  have expr {w : List Token} (h : Ends w) : (Nonterminal.expr = .expr → Ends w) ∧
      (Nonterminal.expr = .program → w = [] ∨ Ends w) := ⟨fun _ => h, nofun⟩
  induction h with
  | @atom t ht =>
    have hnot : isTrailingToken t = false := by
      cases t with
      | keyword kw => cases kw <;> first | rfl | cases ht
      | _ => first | rfl | cases ht
    exact expr (ends_token hnot [])
  | call _ _ _ _ => exact expr ((ends_token (t := .rightParen) rfl (.leftParen :: _)).after _)
  | index _ _ _ _ => exact expr ((ends_token (t := .rightBracket) rfl (.leftBracket :: _)).after _)
  | @element f a _ _ _ _ =>
    have h := (ends_token (t := .rightBracket) rfl
      (.leftBracket :: .leftBracket :: (a ++ [.rightBracket]))).after f
    simp only [List.cons_append, List.append_assoc, List.nil_append] at h
    exact expr h
  | unary s _ ih => exact expr ((ih.1 rfl).after [_])
  | @binary e e' s _ _ _ ih' => exact expr (((ih'.1 rfl).after [.operator s]).after e)
  | paren _ _ => exact expr (ends_token (t := .rightParen) rfl (.leftParen :: _))
  | block _ _ => exact expr (ends_token (t := .rightBrace) rfl (.leftBrace :: _))
  | @headed k c b _ _ _ ihb =>
    have h := (ihb.1 rfl).after (k :: .leftParen :: (c ++ [.rightParen]))
    simp only [List.cons_append, List.append_assoc, List.nil_append] at h
    exact expr h
  | @ifElse c b b' _ _ _ _ _ ihb' =>
    have h := (ihb'.1 rfl).after
      (.keyword .kIf :: .leftParen :: (c ++ (.rightParen :: (b ++ [.keyword .kElse]))))
    simp only [List.cons_append, List.append_assoc, List.nil_append] at h
    exact expr h
  | repeatLoop _ ih => exact expr ((ih.1 rfl).after [_])
  | noStatement => exact ⟨nofun, fun _ => .inl rfl⟩
  | statement _ ih => exact ⟨nofun, fun _ => .inr (ih.1 rfl)⟩
  | @semicolon p p' _ _ _ ih' =>
    refine ⟨nofun, fun _ => .inr ?_⟩
    obtain rfl | hend := ih'.2 rfl
    · exact ends_token (by decide) p
    · exact (hend.after [_]).after p
  | @lineBreak p p' _ _ ih ih' =>
    refine ⟨nofun, fun _ => ?_⟩
    obtain rfl | hend := ih'.2 rfl
    · rw [List.append_nil]
      exact ih.2 rfl
    · exact .inr (hend.after p)
  | _ => exact ⟨nofun, nofun⟩

theorem last_of_ends {tokens : List Token} (h : significant tokens = [] ∨ Ends (significant tokens))
    {t : Token} (ht : (foldContinuationState tokens).lastSignificant = some t) :
    isTrailingToken t = false := by
  rw [fold_significant] at ht
  obtain hnil | ⟨u, t', heq, htrail⟩ := h
  · rw [hnil] at ht
    cases ht
  · have hsig : t' ∈ significant tokens := by
      rw [heq]
      exact List.mem_append_right u (List.mem_singleton.mpr rfl)
    have hig : isIgnorable t' = false := by simpa using (List.mem_filter.mp hsig).2
    rw [heq, fold_last _ _ hig] at ht
    obtain rfl := Option.some.inj ht
    exact htrail

/-- Enter on a complete program submits it. -/
theorem analyze_complete {tokens : List Token} (h : Derives .program (significant tokens)) :
    analyze tokens = .submit := by
  refine (analyze_submit_iff tokens).mpr
    ⟨h.balanced.closed, fun t ht => last_of_ends (h.ends.2 rfl) ht, ?_⟩
  rw [fold_significant, fold_pending]
  exact h.pending.1.stays

/-- `f <- function(x) if (x) { y } else -x; f(a)`. -/
theorem analyze_complete_function :
    analyze [.ident (bytes "f"), .whitespace (bytes " "), .operator (bytes "<-"),
      .keyword .kFunction, .leftParen, .ident (bytes "x"), .rightParen, .whitespace (bytes " "),
      .keyword .kIf, .leftParen, .ident (bytes "x"), .rightParen, .leftBrace, .ident (bytes "y"),
      .rightBrace, .keyword .kElse, .operator (bytes "-"), .ident (bytes "x"),
      .punctuation (bytes ";"), .ident (bytes "f"), .leftParen, .ident (bytes "a"), .rightParen,
      .comment (bytes "# done")] = .submit := by
  have atom (s : Bytes) : Derives .expr [.ident s] := .atom rfl
  have body := Derives.ifElse (atom (bytes "x")) (.block (.statement (atom (bytes "y"))))
    (.unary (bytes "-") (atom (bytes "x")))
  have define := Derives.binary (bytes "<-") (atom (bytes "f"))
    (.headed (.functionHeader (.parameter (t := .ident (bytes "x")) rfl)) body)
  have call := Derives.call (atom (bytes "f")) (.argument (atom (bytes "a")))
  exact analyze_complete (.semicolon (.statement define) (.statement call))

/-! ## Headers without a body -/

/-- The tokens end with a header keyword whose parentheses are still to come. -/
def AwaitsHeader (w : List Token) : Prop :=
  ∃ u k v, w = u ++ (.keyword k :: v) ∧ pendingForKeyword k = some ⟨true, 0, false⟩ ∧
    isPlain v = true ∧ Token.leftParen ∉ v

/-- A record outside a header's parentheses. -/
inductive Outside : Option PendingControl → Prop where
  | empty : Outside none
  | done {p : PendingControl} : p.headerDone = true → Outside (some p)
  | waiting : Outside (waiting 0)

theorem Outside.clearDone {p : Option PendingControl} (h : Outside p) : Outside (clearDone p) := by
  cases h with
  | empty => exact .empty
  | done hp =>
    rw [RContinuation.clearDone, if_pos hp]
    exact .empty
  | waiting => exact .waiting

theorem outside_keyword {k : Keyword} {q : PendingControl} (h : pendingForKeyword k = some q) :
    Outside (some q) := by
  cases k <;> first | (cases h; exact .waiting) | (cases h; exact .done rfl) | cases h

/-- A token that is no bracket. -/
theorem pendingStep_token {t : Token} (ht : isBracket t = false) {p : Option PendingControl} :
    pendingStep p t = p ∨ pendingStep p t = clearDone p ∨ Outside (pendingStep p t) := by
  cases t with
  | keyword k =>
    simp only [pendingStep]
    cases hk : pendingForKeyword k with
    | none => exact .inr (.inl rfl)
    | some q => exact .inr (.inr (outside_keyword hk))
  | leftParen => cases ht
  | rightParen => cases ht
  | leftBracket => cases ht
  | rightBracket => cases ht
  | leftBrace => cases ht
  | rightBrace => cases ht
  | operator _ | punctuation _ | whitespace _ | comment _ | default _ | eof => exact .inl rfl
  | _ => exact .inr (.inl rfl)

theorem Outside.leftParen {p : Option PendingControl} (h : Outside p) :
    pendingStep p .leftParen = none ∨ pendingStep p .leftParen = RContinuation.waiting 1 := by
  cases h with
  | empty => exact .inl rfl
  | @done p hp =>
    left
    have hkeep : updatePendingForHeader (some p) .leftParen = some p := by
      simp [updatePendingForHeader, hp]
    simp only [pendingStep, hkeep, RContinuation.clearDone, if_pos hp]
  | waiting => exact .inr rfl

theorem Outside.rightParen {p : Option PendingControl} (h : Outside p) :
    Outside (pendingStep p .rightParen) := by
  cases h with
  | empty => exact .empty
  | @done p hp =>
    have hkeep : updatePendingForHeader (some p) .rightParen = some p := by
      simp [updatePendingForHeader, hp]
    simp only [pendingStep, hkeep]
    exact .done hp
  | waiting => exact .waiting

/-- Leaving a pair of parentheses that the header was waiting in. -/
theorem waiting_rightParen {d : Int} (hd : 0 ≤ d) :
    Outside (pendingStep (waiting (d + 1)) .rightParen) ∨
      0 < d ∧ pendingStep (waiting (d + 1)) .rightParen = waiting d := by
  have hstep : pendingStep (waiting (d + 1)) .rightParen = some ⟨true, d, d = 0⟩ := by
    simp only [pendingStep, updatePendingForHeader, waiting, Bool.not_false, Bool.and_self, if_true,
      if_pos (show d + 1 > 0 by omega), Int.add_sub_cancel]
  rw [hstep]
  obtain rfl | hpos := hd.eq_or_lt
  · exact .inl (.done rfl)
  · refine .inr ⟨hpos, ?_⟩
    rw [decide_eq_false (by omega)]
    rfl

/-- Over a balanced list a record stays outside, and a header waiting further in stays there or
comes to lie outside. -/
theorem Balanced.outside {w : List Token} (h : Balanced w) :
    (∀ p, Outside p → Outside (w.foldl pendingStep p)) ∧
      ∀ d, 0 < d → Outside (w.foldl pendingStep (waiting d)) ∨
        w.foldl pendingStep (waiting d) = waiting d := by
  induction h with
  | nil => exact ⟨fun p hp => hp, fun d _ => .inr rfl⟩
  | @token t ht =>
    constructor
    · intro p hp
      change Outside (pendingStep p t)
      obtain hkeep | hclear | hout := pendingStep_token ht (p := p)
      · rw [hkeep]
        exact hp
      · rw [hclear]
        exact hp.clearDone
      · exact hout
    · intro d _
      change Outside (pendingStep (waiting d) t) ∨ pendingStep (waiting d) t = waiting d
      obtain hkeep | hclear | hout := pendingStep_token ht (p := waiting d)
      · exact .inr hkeep
      · exact .inr hclear
      · exact .inl hout
  | @parens w _ ih =>
    constructor
    · intro p hp
      rw [List.foldl_cons, List.foldl_concat]
      obtain hin | hin := hp.leftParen
      · rw [hin]
        exact (ih.1 none .empty).rightParen
      · rw [hin]
        obtain hout | heq := ih.2 1 (by omega)
        · exact hout.rightParen
        · rw [heq]
          exact (waiting_rightParen (Int.le_refl 0)).resolve_right fun h => absurd h.1 (by omega)
    · intro d hd
      rw [List.foldl_cons, List.foldl_concat]
      change Outside (pendingStep (w.foldl pendingStep (waiting (d + 1))) _) ∨
        pendingStep (w.foldl pendingStep (waiting (d + 1))) _ = _
      obtain hout | heq := ih.2 (d + 1) (by omega)
      · exact .inl hout.rightParen
      · rw [heq]
        exact (waiting_rightParen (Int.le_of_lt hd)).imp_right And.right
  | @brackets w _ ih =>
    constructor
    · intro p hp
      rw [List.foldl_cons, List.foldl_concat]
      exact ih.1 _ hp.clearDone
    · intro d hd
      rw [List.foldl_cons, List.foldl_concat]
      exact ih.2 d hd
  | @braces w _ ih =>
    have hall (p : Option PendingControl) :
        Outside ((Token.leftBrace :: (w ++ [.rightBrace])).foldl pendingStep p) := by
      rw [List.foldl_cons, List.foldl_concat]
      exact ih.1 none .empty
    exact ⟨fun p _ => hall p, fun d _ => .inl (hall _)⟩
  | append _ _ ih ih' =>
    constructor
    · intro p hp
      rw [List.foldl_append]
      exact ih'.1 _ (ih.1 p hp)
    · intro d hd
      rw [List.foldl_append]
      obtain hout | heq := ih.2 d hd
      · exact .inl (ih'.1 _ hout)
      · rw [heq]
        exact ih'.2 d hd

/-- The records there can be: one whose header is done, or one waiting within some parentheses. -/
inductive Recorded : Option PendingControl → Prop where
  | empty : Recorded none
  | done {p : PendingControl} : p.headerDone = true → Recorded (some p)
  | waiting {d : Int} : 0 ≤ d → Recorded (waiting d)

theorem Recorded.of_outside {p : Option PendingControl} (h : Outside p) : Recorded p := by
  cases h with
  | empty => exact .empty
  | done hp => exact .done hp
  | waiting => exact .waiting (Int.le_refl 0)

theorem pendingStep_done {p : PendingControl} (hp : p.headerDone = true) {t : Token}
    (ht : t = .leftParen ∨ t = .rightParen) : updatePendingForHeader (some p) t = some p := by
  obtain rfl | rfl := ht <;> simp [updatePendingForHeader, hp]

theorem Recorded.step {p : Option PendingControl} (h : Recorded p) (t : Token) :
    Recorded (pendingStep p t) := by
  have outside (h : Outside p) : Recorded (pendingStep p t) := by
    cases hb : isBracket t with
    | false =>
      obtain hkeep | hclear | hout := pendingStep_token hb (p := p)
      · rw [hkeep]
        exact .of_outside h
      · rw [hclear]
        exact .of_outside h.clearDone
      · exact .of_outside hout
    | true =>
      cases t with
      | leftParen =>
        obtain hin | hin := h.leftParen
        · exact hin ▸ .empty
        · exact hin ▸ .waiting (by omega)
      | rightParen => exact .of_outside h.rightParen
      | leftBracket => exact .of_outside h.clearDone
      | leftBrace => exact .empty
      | rightBracket | rightBrace => exact .of_outside h
      | _ => cases hb
  cases h with
  | empty => exact outside .empty
  | done hp => exact outside (.done hp)
  | @waiting d hd =>
    cases hb : isBracket t with
    | false =>
      obtain hkeep | hclear | hout := pendingStep_token hb (p := RContinuation.waiting d)
      · rw [hkeep]
        exact .waiting hd
      · rw [hclear]
        exact .waiting hd
      · exact .of_outside hout
    | true =>
      cases t with
      | leftParen => exact .waiting (d := d + 1) (by omega)
      | rightParen =>
        obtain rfl | hpos := hd.eq_or_lt
        · exact .waiting (Int.le_refl 0)
        · have hsucc : d = d - 1 + 1 := by omega
          rw [hsucc]
          obtain hout | ⟨-, heq⟩ := waiting_rightParen (d := d - 1) (by omega)
          · exact .of_outside hout
          · rw [heq]
            exact .waiting (by omega)
      | leftBrace => exact .empty
      | leftBracket | rightBracket | rightBrace => exact .waiting hd
      | _ => cases hb

theorem recorded (w : List Token) : Recorded (w.foldl pendingStep none) := by
  induction w using List.reverseRecOn with
  | nil => exact .empty
  | append_singleton w t ih =>
    rw [List.foldl_concat]
    exact ih.step t

theorem waiting_inj {d e : Int} (h : waiting d = waiting e) : d = e := by
  cases h
  rfl

theorem waiting_ne_done {d : Int} {p : PendingControl} (hp : p.headerDone = true) :
    some p ≠ waiting d := by
  rintro h
  cases h
  cases hp

/-- A plain token that is no parenthesis leaves a waiting header as it is, and nothing else makes
one of it. -/
theorem pendingStep_waiting {p : Option PendingControl} {t : Token} (hplain : isPlain [t] = true)
    (hleft : t ≠ .leftParen) (hright : t ≠ .rightParen) (d : Int) :
    pendingStep p t = waiting d ↔ p = waiting d := by
  have clear : clearDone p = waiting d ↔ p = waiting d := by
    cases p with
    | none => exact Iff.rfl
    | some p =>
      simp only [clearDone]
      split
      · rename_i hdone
        exact iff_of_false nofun (waiting_ne_done hdone)
      · exact Iff.rfl
  cases t with
  | keyword k => cases k <;> first | exact clear | cases hplain
  | leftParen => exact absurd rfl hleft
  | rightParen => exact absurd rfl hright
  | leftBrace => cases hplain
  | operator _ | punctuation _ | whitespace _ | comment _ | default _ | eof | rightBracket
  | rightBrace => exact Iff.rfl
  | _ => exact clear

/-- A header waits within its parentheses behind an opening one that it waited in front of. -/
theorem leftParen_eq_waiting_iff {p : Option PendingControl} (h : Recorded p) (d : Int) :
    pendingStep p .leftParen = waiting d ↔ 0 < d ∧ p = waiting (d - 1) := by
  cases h with
  | empty => exact iff_of_false nofun fun h => nomatch h.2
  | @done p hp =>
    have hclear : pendingStep (some p) .leftParen = none := by
      simp only [pendingStep, pendingStep_done hp (.inl rfl), clearDone, if_pos hp]
    rw [hclear]
    exact iff_of_false nofun fun h => waiting_ne_done hp h.2
  | @waiting e he =>
    have hstep : pendingStep (waiting e) .leftParen = waiting (e + 1) := rfl
    rw [hstep]
    constructor
    · intro h
      obtain rfl := waiting_inj h
      exact ⟨by omega, by rw [Int.add_sub_cancel]⟩
    · rintro ⟨-, h⟩
      obtain rfl := waiting_inj h
      rw [Int.sub_add_cancel]

/-- And behind a closing one that was not the last of them, or that closed none of them. -/
theorem rightParen_eq_waiting_iff {p : Option PendingControl} (h : Recorded p) (d : Int) :
    pendingStep p .rightParen = waiting d ↔
      (0 < d ∧ p = waiting (d + 1)) ∨ (d = 0 ∧ p = waiting 0) := by
  cases h with
  | empty => exact iff_of_false nofun fun h => by obtain h | h := h <;> cases h.2
  | @done p hp =>
    have hkeep : pendingStep (some p) .rightParen = some p := by
      simp only [pendingStep, pendingStep_done hp (.inr rfl)]
    rw [hkeep]
    refine iff_of_false (waiting_ne_done hp) ?_
    rintro (h | h)
    · exact waiting_ne_done hp h.2
    · exact waiting_ne_done hp h.2
  | @waiting e he =>
    obtain rfl | hpos := he.eq_or_lt
    · have hstep : pendingStep (waiting 0) .rightParen = waiting 0 := rfl
      rw [hstep]
      constructor
      · intro h
        exact .inr ⟨(waiting_inj h).symm, rfl⟩
      · rintro (⟨hd, h⟩ | ⟨rfl, -⟩)
        · have := waiting_inj h
          omega
        · rfl
    · have hsucc : e = e - 1 + 1 := by omega
      have hstep : pendingStep (waiting e) .rightParen = some ⟨true, e - 1, e - 1 = 0⟩ := by
        rw [hsucc]
        simp only [pendingStep, updatePendingForHeader, waiting, Bool.not_false, Bool.and_self,
          if_true, if_pos (show e - 1 + 1 > 0 by omega), Int.add_sub_cancel]
      rw [hstep]
      simp only [waiting, Option.some.injEq, PendingControl.mk.injEq, decide_eq_false_iff_not,
        true_and, and_true]
      omega

/-- The record of a header whose parentheses are still to come. -/
theorem waiting_iff_awaitsHeader (w : List Token) :
    w.foldl pendingStep none = waiting 0 ↔ AwaitsHeader w := by
  have step {w : List Token} {t : Token} (hplain : isPlain [t] = true) (ht : t ≠ .leftParen) :
      pendingStep (w.foldl pendingStep none) t = waiting 0 ↔ w.foldl pendingStep none = waiting 0 := by
    by_cases hright : t = .rightParen
    · rw [hright, rightParen_eq_waiting_iff (recorded w)]
      exact ⟨fun h => (h.resolve_left fun h => absurd h.1 (by omega)).2, fun h => .inr ⟨rfl, h⟩⟩
    · exact pendingStep_waiting hplain ht hright 0
  constructor
  · intro h
    induction w using List.reverseRecOn with
    | nil => cases h
    | append_singleton w t ih =>
      rw [List.foldl_concat] at h
      -- behind the header there can only be plain tokens
      have onwards (hplain : isPlain [t] = true) (ht : t ≠ .leftParen) : AwaitsHeader (w ++ [t]) := by
        obtain ⟨u, k, v, rfl, hk, hv, hparen⟩ := ih ((step hplain ht).mp h)
        refine ⟨u, k, v ++ [t], by simp, hk, by rw [isPlain_append, hv, hplain]; rfl, ?_⟩
        rw [List.mem_append, List.mem_singleton, not_or]
        exact ⟨hparen, ht.symm⟩
      cases t with
      | keyword k =>
        cases hk : pendingForKeyword k with
        | none =>
          refine onwards ?_ nofun
          cases k <;> first | rfl | cases hk
        | some q =>
          simp only [pendingStep, hk] at h
          cases h
          exact ⟨w, k, [], rfl, hk, rfl, List.not_mem_nil⟩
      | leftParen => exact absurd ((leftParen_eq_waiting_iff (recorded w) 0).mp h).1 (by omega)
      | leftBrace => cases h
      | _ => exact onwards rfl nofun
  · rintro ⟨u, k, v, rfl, hk, hv, hparen⟩
    rw [List.foldl_append, List.foldl_cons, pendingStep_header hk]
    induction v using List.reverseRecOn with
    | nil => rfl
    | append_singleton v t ih =>
      rw [isPlain_append, Bool.and_eq_true] at hv
      rw [List.mem_append, List.mem_singleton, not_or] at hparen
      have hbefore := ih hv.1 hparen.1
      have hsame : (u ++ (.keyword k :: v)).foldl pendingStep none = waiting 0 := by
        rw [List.foldl_append, List.foldl_cons, pendingStep_header hk, hbefore]
      rw [List.foldl_concat, hbefore, ← hsame]
      exact ((step hv.2 fun h => hparen.2 h.symm).mpr hsame).trans hsame.symm

/-- A header without its body is continued just when nothing within its parentheses has a body of
its own; behind the lambda's backslash, only when another header has been left open before it. -/
theorem analyze_header_iff {tokens w c : List Token} {k : Token} (hw : Balanced w)
    (hc : Derives (.header k) c)
    (htokens : significant tokens = w ++ (k :: .leftParen :: (c ++ [.rightParen]))) :
    (∃ indentLevels inEmptyBrackets, analyze tokens = .continue indentLevels inEmptyBrackets) ↔
      isPlain c = true ∧ (k ≠ .lambda ∨ AwaitsHeader w) := by
  have hbalanced : Balanced (significant tokens) := by
    rw [htokens]
    exact hw.append (.cons hc.not_isBracket_opening (.parens hc.balanced))
  have hends : Ends (significant tokens) := by
    have h := ends_token (t := .rightParen) rfl (w ++ (k :: .leftParen :: c))
    rw [htokens]
    simpa using h
  have hpending : (foldContinuationState tokens).pending =
      (Token.leftParen :: (c ++ [.rightParen])).foldl pendingStep
        (pendingStep (w.foldl pendingStep none) k) := by
    rw [fold_significant, fold_pending, htokens, List.foldl_append, List.foldl_cons]
  -- the brackets are closed and the last token is no reason to go on
  have hcontinue : (∃ indentLevels inEmptyBrackets,
      analyze tokens = .continue indentLevels inEmptyBrackets) ↔
        (foldContinuationState tokens).pending ≠ none := by
    have hsubmit : analyze tokens = .submit ↔ (foldContinuationState tokens).pending = none := by
      rw [analyze_submit_iff]
      exact ⟨fun h => h.2.2, fun h =>
        ⟨hbalanced.closed, fun t ht => last_of_ends (.inr hends) ht, h⟩⟩
    rw [Ne, ← hsubmit]
    cases analyze tokens with
    | submit => exact ⟨fun ⟨_, _, h⟩ => (nomatch h), fun h => absurd rfl h⟩
    | «continue» i b => exact ⟨fun _ => nofun, fun _ => ⟨i, b, rfl⟩⟩
  rw [hcontinue, hpending]
  have hsettles := hc.pending.1
  obtain rfl | ⟨kw, rfl, hk⟩ := hc.opening rfl
  · have hstep : pendingStep (w.foldl pendingStep none) .lambda =
        clearDone (w.foldl pendingStep none) := rfl
    have hout := hw.outside.1 none .empty
    rw [hstep, ← waiting_iff_awaitsHeader]
    generalize w.foldl pendingStep none = p at hout ⊢
    cases hout with
    | empty =>
      refine iff_of_false (fun h => h hsettles.parens.settles.stays) ?_
      rintro ⟨-, h | h⟩
      · exact h rfl
      · cases h
    | @done p hp =>
      have hclear : clearDone (some p) = none := if_pos hp
      rw [hclear]
      refine iff_of_false (fun h => h hsettles.parens.settles.stays) ?_
      rintro ⟨-, h | h⟩
      · exact h rfl
      · cases h
        cases hp
    | waiting =>
      have hkeep : clearDone (waiting 0) = waiting 0 := rfl
      rw [hkeep, hsettles.within]
      cases isPlain c <;> simp
  · rw [pendingStep_header hk, hsettles.within]
    cases isPlain c <;> simp

/-- `y <- if (x)`. -/
theorem analyze_header_if : ∃ indentLevels inEmptyBrackets,
    analyze [.ident (bytes "y"), .operator (bytes "<-"), .keyword .kIf, .leftParen,
      .ident (bytes "x"), .rightParen] = .continue indentLevels inEmptyBrackets :=
  (analyze_header_iff (w := [.ident (bytes "y"), .operator (bytes "<-")])
    (.cons rfl (.token rfl)) (.ifHeader (.atom (t := .ident (bytes "x")) rfl)) rfl).mpr
    ⟨rfl, .inl nofun⟩

/-- `\(x)` is submitted without a body. -/
theorem analyze_header_lambda : ¬ ∀ (tokens w c : List Token) (k : Token), Balanced w →
    Derives (.header k) c →
    significant tokens = w ++ (k :: .leftParen :: (c ++ [.rightParen])) →
    ∃ indentLevels inEmptyBrackets,
      analyze tokens = .continue indentLevels inEmptyBrackets := by
  intro h
  have hsubmit : analyze [.lambda, .leftParen, .ident (bytes "x"), .rightParen] = .submit := by
    decide
  obtain ⟨i, b, hcontinue⟩ := h [.lambda, .leftParen, .ident (bytes "x"), .rightParen] []
    [.ident (bytes "x")] .lambda .nil (.lambdaHeader (.parameter rfl)) rfl
  rw [hsubmit] at hcontinue
  cases hcontinue

end RContinuation
end Raoui
