import Raoui.Editor.FlatEdit
import Raoui.Editor.Returns
import Raoui.Lexer.Line

/-!
# Raoui.Editor.Cycling

Tab puts the items of the list in place of the token before the cursor, one after the other, and
Escape puts the token back.

* `Cut`: the cursor's line is printable, cut at the cursor; the other lines may be any.
* `tried`: what the Tabs put in place of the token.
* `Idle`, `Cycled`: before the first Tab that inserts, and after it. Each key has a rule on each.
* `tabs_escape_iff`: the prompt is as before exactly when the lexer takes every line tried.
-/

namespace Raoui

open Outcome (Meets Related bind_eq_ok)
open Tty (Key)
open UnicodeString (Printable asciiLine)

/-! ## The corrections on a printable line -/

namespace Model

/-- The cursor's line is printable, `l ++ r` with the cursor after `l`. -/
structure Cut (m : Model) (above : List UnicodeString) (l r : Bytes) (below : List UnicodeString) :
    Prop where
  lines : m.input.lines = above ++ asciiLine (l ++ r) :: below
  line : m.input.cursorLine = above.length
  pos : m.input.cursorPos = l.length
  left : Printable l
  right : Printable r

section
variable {m m' : Model} {above below : List UnicodeString} {l p t r : Bytes}

theorem Cut.currentLine (h : m.Cut above l r below) : m.currentLine = .ok (asciiLine (l ++ r)) := by
  refine nth_eq (by rw [h.line]; omega) ?_
  rw [h.lines, h.line, Int.toNat_natCast, List.getElem?_append_right (Nat.le_refl _),
    Nat.sub_self]
  rfl

theorem Cut.sameText (h : m.Cut above l r below) (hs : m.SameText m') : m'.Cut above l r below :=
  ⟨hs.lines.trans h.lines, hs.cursorLine.trans h.line, hs.cursorPos.trans h.pos, h.left, h.right⟩

theorem Cut.modelLine (h : m.Cut above l r below) : m.line = asciiLine (l ++ r) := by
  rw [Model.line, h.lines, h.line, Int.toNat_natCast, List.getD_eq_getElem?_getD,
    List.getElem?_append_right (Nat.le_refl _), Nat.sub_self]
  rfl

theorem Cut.invariants (h : m.Cut above l r below) (hmode : m.input.mode = .normal) :
    m.invariants = true := by
  have hline := h.modelLine
  unfold Model.line at hline
  unfold Model.invariants
  rw [hmode, hline, h.lines, h.line, h.pos]
  simp only [ne_eq, List.append_eq_nil_iff, reduceCtorEq, and_false, not_false_eq_true, decide_true,
    Int.natCast_nonneg, Bool.and_self, List.length_append, List.length_cons, Bool.true_and,
    Bool.and_true, UnicodeString.length_asciiLine, Bool.and_eq_true, decide_eq_true_eq]
  omega

/-- What stands between the start of the token and the cursor. -/
theorem Cut.typed (h : m.Cut above (p ++ t) r below) :
    (asciiLine (p ++ t ++ r)).sub p.length (m.input.cursorPos - p.length) = asciiLine t := by
  have hlen : m.input.cursorPos - p.length = t.length := by
    rw [h.pos, List.length_append]
    omega
  rw [hlen, UnicodeString.sub_asciiLine (by simp), List.append_assoc, List.drop_left,
    List.take_left]

theorem Cut.filterCompletions_returns (h : m.Cut above l r below) :
    Returns m.filterCompletions m.SameText := by
  refine Returns.of_safe ?_ (filterCompletions_safe m)
  unfold filterCompletions
  split
  · trivial
  · split
    · trivial
    · split
      · trivial
      · rw [h.currentLine]
        show Returns (if _ then _ else _) _
        split <;> trivial

theorem Cut.handleVerticalCursorMovement_returns (h : m.Cut above l r below)
    (hmode : m.input.mode = .normal) :
    Returns (Update.handleVerticalCursorMovement m) fun m' =>
      m.SameText m' ∧ m'.input = m.input := by
  have hrows : ∃ n, Update.dropdownRows m = .ok n := by
    unfold Update.dropdownRows
    rw [hmode]
    cases m.input.completion with
    | some cs => exact ⟨_, rfl⟩
    | none => exact ⟨_, rfl⟩
  obtain ⟨n, hrows⟩ := hrows
  have hcursor : ∃ q, m.cursorTerminalPos = .ok q := by
    unfold cursorTerminalPos internalToTerminal
    have hline : nth m.input.lines m.input.cursorLine = _ := h.currentLine
    rw [hmode, hline]
    exact ⟨_, rfl⟩
  obtain ⟨q, hcursor⟩ := hcursor
  unfold Update.handleVerticalCursorMovement
  rw [hrows, hcursor]
  exact ⟨⟨rfl, rfl, rfl, rfl, rfl, rfl, rfl⟩, rfl⟩

end

end Model

namespace Backslash

/-- A single byte is no word character or is one; neither raises. -/
theorem isWordChar_returns (c : UInt8) : Returns (isWordChar [c]) fun _ => True := by
  unfold isWordChar
  rw [if_neg (by simp)]
  trivial

theorem consumeName_returns {s : Bytes} : ∀ {n : Nat}, n ≤ s.length →
    Returns (consumeName (asciiLine s) n) fun i => i < n := by
  intro n
  induction n with
  | zero =>
    intro _
    show (-1 : Int) < 0
    omega
  | succ n ih =>
    intro hn
    unfold consumeName
    rw [UnicodeString.clusterAt_asciiLine (by omega)]
    show Returns (if _ then _ else _) _
    split
    · exact (ih (by omega)).mono fun i hi => by push_cast; omega
    · show (n : Int) < (n + 1 : Nat)
      push_cast
      omega

theorem tokenInLine_returns {s : Bytes} {pos : Int} (hpos : pos ≤ s.length) :
    Returns (tokenInLine (asciiLine s) pos) fun token =>
      ∀ t, token = some t → 0 ≤ t.tokenStart ∧ t.tokenStart < pos := by
  refine Meets.via (fun found => ∀ q, found = some q → 0 ≤ q.1 ∧ q.1 < pos) ?_
    fun found hfound t ht => ?_
  · unfold scanBackslashToken
    split
    · exact nofun
    · rename_i hin
      obtain ⟨n, rfl⟩ : ∃ n : Nat, pos = n := ⟨pos.toNat, by omega⟩
      rw [Int.toNat_natCast]
      refine (consumeName_returns (by omega)).bind fun i hi => ?_
      split
      · exact nofun
      · rename_i hneg
        obtain ⟨j, rfl⟩ : ∃ j : Nat, i = j := ⟨i.toNat, by omega⟩
        rw [UnicodeString.clusterAt_asciiLine (by omega)]
        show Returns (if _ then _ else _) _
        split
        · exact nofun
        · refine Meets.via (fun _ => True) ?_ fun boundary _ => ?_
          · split
            · trivial
            · have hprev : (j : Int) - 1 = (j - 1 : Nat) := by omega
              rw [hprev, UnicodeString.clusterAt_asciiLine (by omega)]
              trivial
          · split
            · exact nofun
            · dsimp only
              split
              · exact nofun
              · intro q hq
                cases hq
                exact ⟨by omega, hi⟩
  · obtain ⟨q, hq, rfl⟩ := Option.map_eq_some_iff.mp ht
    exact hfound q hq

end Backslash

namespace Model

section
variable {m m' : Model} {above below : List UnicodeString} {l p t r : Bytes}

theorem normalCompletionTokenLength_returns {s : Bytes} : ∀ {n len : Nat}, n ≤ s.length →
    Returns (normalCompletionTokenLength (asciiLine s) n len) fun _ => True := by
  intro n
  induction n with
  | zero => exact fun _ => trivial
  | succ n ih =>
    intro len hn
    unfold normalCompletionTokenLength
    rw [UnicodeString.clusterAt_asciiLine (by omega)]
    refine Meets.via (fun cluster => cluster = [s[n]]) rfl fun cluster hcluster => ?_
    subst hcluster
    refine (Backslash.isWordChar_returns _).bind fun word _ => ?_
    split
    · exact ih (by omega)
    · trivial

/-- The list, if it is open, starts its token in the line at or before the cursor, is not being
cycled through, and has printable labels. -/
def Listed (m : Model) : Prop :=
  ∀ cs, m.input.completion = some cs → cs.isInCompletionMode = false ∧ 0 ≤ cs.tokenStart ∧
    cs.tokenStart ≤ m.input.cursorPos ∧
      ∀ item, item ∈ cs.items ∨ item ∈ cs.filtered → Printable item.label

theorem listed_none (m : Model) : (m.setCompletion none).Listed := nofun

theorem filter_listed {cs cs' : Completion} {typed : Bytes} (hfilter : cs.filter typed = some cs')
    (hlist : (m.setCompletion (some cs)).Listed) : (m.setCompletion (some cs')).Listed := by
  obtain ⟨hopen, h0, hle, hlabels⟩ := hlist cs rfl
  unfold Completion.filter at hfilter
  dsimp only at hfilter
  split at hfilter
  · cases hfilter
  · rintro _ ⟨⟩
    cases hfilter
    refine ⟨hopen, h0, hle, fun item hitem => hlabels item (.inl ?_)⟩
    exact hitem.elim id fun hitem => (List.mem_filter.mp hitem).1

theorem Cut.filterCompletions_listed (h : m.Cut above l r below) (hlist : m.Listed) :
    Returns m.filterCompletions fun m' => m.SameText m' ∧ m'.Listed := by
  refine Returns.of_safe (h.filterCompletions_returns.mono fun _ _ => trivial) ?_
  unfold filterCompletions
  split
  · exact ⟨setCompletion_sameText m none, listed_none m⟩
  · split
    · exact ⟨SameText.refl m, hlist⟩
    · rename_i cs hcs
      split
      · exact ⟨SameText.refl m, hlist⟩
      · refine (nth_safe _ _).bind fun line _ => ?_
        split
        · exact ⟨setCompletion_sameText m none, listed_none m⟩
        · refine ⟨setCompletion_sameText m _, ?_⟩
          cases hfilter : cs.filter _ with
          | none => exact listed_none m
          | some cs' => exact filter_listed hfilter fun cs₀ hcs₀ => hlist cs₀ (hcs.trans hcs₀)

theorem printable_backslashLabel {command : Backslash.Command}
    (h : command ∈ Backslash.defaultRegistry) : Printable command.label := by
  have hall : ∀ c ∈ Backslash.defaultRegistry, Printable c.label := by decide +kernel
  exact hall command h

theorem Cut.makeBackslashCompletion_listed (h : m.Cut above l r below) {token : Backslash.Token}
    (h0 : 0 ≤ token.tokenStart) (hlt : token.tokenStart < m.input.cursorPos) :
    Returns (m.makeBackslashCompletion token) fun m' => m.SameText m' ∧ m'.Listed := by
  unfold makeBackslashCompletion
  dsimp only
  split
  · exact ⟨setCompletion_sameText m none, listed_none m⟩
  · have hsame := setCompletion_sameText m (some (.create token.tokenStart
      ((Backslash.matchingCommands Backslash.defaultRegistry token.commandNamePrefix).map
        Completion.backslashItem)))
    refine ((h.sameText hsame).filterCompletions_listed ?_).mono fun m' ⟨hs, hlist⟩ =>
      ⟨hsame.trans hs, hlist⟩
    rintro _ ⟨⟩
    refine ⟨rfl, h0, Int.le_of_lt hlt, fun item hitem => ?_⟩
    obtain ⟨command, hcommand, rfl⟩ := List.mem_map.mp (hitem.elim id id)
    exact printable_backslashLabel (List.mem_filter.mp hcommand).1

theorem Cut.completionFollowup_listed (h : m.Cut above l r below) (hlist : m.Listed) :
    Returns m.completionFollowup fun q => m.SameText q.1 ∧ q.1.Listed := by
  have hlen : m.input.cursorPos ≤ (l ++ r).length := by
    rw [h.pos, List.length_append]
    omega
  have hline : nthOpt m.input.lines m.input.cursorLine = .ok (some (asciiLine (l ++ r))) := by
    unfold nthOpt
    rw [if_neg (by rw [h.line]; omega), h.lines, h.line, Int.toNat_natCast,
      List.getElem?_append_right (Nat.le_refl _), Nat.sub_self]
    rfl
  unfold completionFollowup
  split
  · exact ⟨setCompletion_sameText m none, listed_none m⟩
  · split
    · rw [hline]
      refine Meets.via (fun line => line = some (asciiLine (l ++ r))) rfl fun line hline => ?_
      subst hline
      refine (Backslash.tokenInLine_returns hlen).bind fun token htoken => ?_
      split
      · rename_i token
        obtain ⟨h0, hlt⟩ := htoken token rfl
        exact (h.makeBackslashCompletion_listed h0 hlt).bind fun m' hm' => hm'
      · refine (normalCompletionTokenLength_returns (by omega)).bind fun n _ => ?_
        split
        · exact ⟨setCompletion_sameText m none, listed_none m⟩
        · exact ⟨SameText.refl m, hlist⟩
    · exact ⟨SameText.refl m, hlist⟩

/-! ## Models that differ in neither text nor list -/

/-- The text and the list are the same. -/
structure Alike (m m' : Model) : Prop where
  text : m.SameText m'
  list : m'.input.completion = m.input.completion

theorem Alike.symm (h : m.Alike m') : m'.Alike m :=
  ⟨⟨h.text.lines.symm, h.text.lexCache.symm, h.text.cursorLine.symm, h.text.cursorPos.symm,
    h.text.history.symm, h.text.mode.symm, h.text.repl.symm⟩, h.list.symm⟩

theorem Alike.trans {m'' : Model} (h : m.Alike m') (h' : m'.Alike m'') : m.Alike m'' :=
  ⟨h.text.trans h'.text, h'.list.trans h.list⟩

theorem Alike.currentLine (h : m.Alike m') : m'.currentLine = m.currentLine := by
  unfold Model.currentLine
  rw [h.text.lines, h.text.cursorLine]

theorem Alike.setCompletion (h : m.Alike m') (c : Option Completion) :
    (m.setCompletion c).Alike (m'.setCompletion c) :=
  ⟨⟨h.text.lines, h.text.lexCache, h.text.cursorLine, h.text.cursorPos, h.text.history, h.text.mode,
    h.text.repl⟩, rfl⟩

theorem Alike.filterCompletions (h : m.Alike m') :
    Related Alike m.filterCompletions m'.filterCompletions := by
  unfold Model.filterCompletions
  rw [h.text.mode, h.list, h.currentLine, h.text.cursorPos]
  split
  · exact h.setCompletion none
  · split
    · exact h
    · split
      · exact h
      · refine .same fun line => ?_
        split
        · exact h.setCompletion none
        · exact h.setCompletion _

theorem Alike.makeBackslashCompletion (h : m.Alike m') (token : Backslash.Token) :
    Related Alike (m.makeBackslashCompletion token) (m'.makeBackslashCompletion token) := by
  unfold Model.makeBackslashCompletion
  dsimp only
  split
  · exact h.setCompletion none
  · exact (h.setCompletion _).filterCompletions

theorem Alike.completionFollowup (h : m.Alike m') :
    Related (fun q q' => q.1.Alike q'.1) m.completionFollowup m'.completionFollowup := by
  have hcycling : m'.inCompletionMode = m.inCompletionMode := by
    unfold inCompletionMode
    rw [h.list]
  unfold Model.completionFollowup
  rw [h.text.mode, hcycling, h.text.repl, h.text.lines, h.text.cursorLine, h.text.cursorPos]
  split
  · exact h.setCompletion none
  · split
    · refine .same fun line => ?_
      split
      · refine .same fun token => ?_
        split
        · exact (h.makeBackslashCompletion _).bind fun _ _ hn => hn
        · refine .same fun n => ?_
          split
          · exact h.setCompletion none
          · exact h
      · exact h
    · exact h

/-- The model as the corrections after a key leave its list. -/
def relisted (m : Model) : Res Model := do return (← (← m.filterCompletions).completionFollowup).1

theorem Alike.relisted (h : m.Alike m') : Related Alike m.relisted m'.relisted :=
  h.filterCompletions.bind fun _ _ hn => hn.completionFollowup.bind fun _ _ hq => hq

end

end Model

/-! ## Replacing the token -/

namespace Model

section
variable [Ucd] {m : Model} {above below : List UnicodeString} {p t r text : Bytes}

/-- The lines with `text` put in place of what stands from `tokenStart` to the cursor. -/
def tokenReplaced (m : Model) (tokenStart : Int) (text : Bytes) : List UnicodeString :=
  updateLine m.input.lines m.input.cursorLine
    (.concat [m.line.sub 0 tokenStart, readable text,
      m.line.sub m.input.cursorPos (m.line.length - m.input.cursorPos)])

theorem Cut.replacedLine (hucd : PrintableAscii) (h : m.Cut above (p ++ t) r below)
    (htext : Printable text) :
    UnicodeString.concat [(asciiLine (p ++ t ++ r)).sub 0 p.length, readable text,
      (asciiLine (p ++ t ++ r)).sub m.input.cursorPos
        ((asciiLine (p ++ t ++ r)).length - m.input.cursorPos)] =
      asciiLine (p ++ text ++ r) := by
  have hp : Printable p := fun c hc => h.left c (List.mem_append_left t hc)
  have hlength : (p ++ t ++ r).length = (p ++ t).length + r.length := List.length_append
  have hbefore : (asciiLine (p ++ t ++ r)).sub 0 p.length = asciiLine p := by
    have hsub := @UnicodeString.sub_asciiLine (p ++ t ++ r) 0 p.length (by simp)
    rw [List.drop_zero, List.append_assoc, List.take_left] at hsub
    rw [List.append_assoc]
    exact hsub
  have hafter : (asciiLine (p ++ t ++ r)).sub m.input.cursorPos
      ((asciiLine (p ++ t ++ r)).length - m.input.cursorPos) = asciiLine r := by
    have hsub := @UnicodeString.sub_asciiLine (p ++ t ++ r) (p ++ t).length r.length (by omega)
    have hlen : ((asciiLine (p ++ t ++ r)).length : Int) - m.input.cursorPos = r.length := by
      rw [h.pos, UnicodeString.length_asciiLine]
      omega
    rw [List.drop_left, List.take_length] at hsub
    rw [hlen, h.pos]
    exact hsub
  rw [hbefore, hafter, readable, UnicodeString.ofString_asciiLine hucd htext,
    UnicodeString.concat_asciiLine hucd hp htext h.right]

theorem Cut.tokenReplaced (hucd : PrintableAscii) (h : m.Cut above (p ++ t) r below)
    (htext : Printable text) :
    m.tokenReplaced p.length text = above ++ asciiLine (p ++ text ++ r) :: below := by
  unfold Model.tokenReplaced
  rw [h.modelLine, h.replacedLine hucd htext, h.lines, h.line, updateLine_split]

theorem lexerUpdate_normal (hmode : m.input.mode = .normal) (startLine endLine : Int) :
    m.lexerUpdate startLine endLine =
      (RLexCache.update startLine endLine m.input.lines m.input.lexCache).map
        fun cache => { m with input.lexCache := cache } := by
  unfold lexerUpdate
  split
  · cases RLexCache.update startLine endLine m.input.lines m.input.lexCache <;> rfl
  · rename_i s hs
    rw [hmode] at hs
    cases hs
  · rename_i hs
    rw [hmode] at hs
    cases hs
  · rename_i hs
    rw [hmode] at hs
    cases hs
  · rename_i hs
    rw [hmode] at hs
    cases hs

/-- The model with other lines, their cache and a new column. -/
def withLine (m : Model) (lines : List UnicodeString) (pos : Int) (cache : RLexCache.Cache) : Model :=
  { m with input.lines := lines, input.cursorPos := pos, input.lexCache := cache }

theorem Cut.replaceToken (hucd : PrintableAscii) (h : m.Cut above (p ++ t) r below)
    (hmode : m.input.mode = .normal) (htext : Printable text) :
    m.replaceToken p.length text = (RLexCache.update above.length above.length
      (above ++ asciiLine (p ++ text ++ r) :: below) m.input.lexCache).map
        (m.withLine (above ++ asciiLine (p ++ text ++ r) :: below) (p ++ text).length) := by
  have hreplaced := h.replacedLine hucd htext
  have hline := h.currentLine
  have hstart : max 0 (p.length : Int) = p.length := by omega
  have hle : max (p.length : Int) m.input.cursorPos = m.input.cursorPos := by
    rw [h.pos, List.length_append]
    omega
  have hend : min m.input.cursorPos (asciiLine (p ++ t ++ r)).length = m.input.cursorPos := by
    have hlength : (p ++ t ++ r).length = (p ++ t).length + r.length := List.length_append
    rw [h.pos, UnicodeString.length_asciiLine]
    omega
  have hlen : ((readable text).length : Int) = text.length := by
    rw [readable, UnicodeString.ofString_asciiLine hucd htext, UnicodeString.length_asciiLine]
  unfold Model.replaceToken Model.replaceRange
  rw [hline]
  dsimp only [Bind.bind, Except.bind]
  rw [hstart, hle, hend, hreplaced, hlen]
  unfold Model.setCurrentLine
  rw [lexerUpdate_normal (by exact hmode), h.lines, h.line, updateLine_split, List.length_append,
    Int.natCast_add]
  rfl

end

end Model

/-! ## What the Tabs try -/

namespace Completion

/-- The list as a Tab leaves it, with the item it inserts. -/
def cycled (cs : Completion) : Option (Completion × Item) :=
  if cs.filtered.length = 0 then none
  else cs.cycleNext.currentCompletion.map fun item => (cs.cycleNext, item)

theorem cycleNext_saveOriginal (cs : Completion) (token : Bytes) :
    (cs.saveOriginalToken token).cycleNext = cs.cycleNext.saveOriginalToken token := by
  unfold cycleNext saveOriginalToken
  split <;> rfl

theorem cycled_saveOriginal (cs : Completion) (token : Bytes) :
    (cs.saveOriginalToken token).cycled =
      cs.cycled.map fun q => (q.1.saveOriginalToken token, q.2) := by
  unfold cycled
  rw [cycleNext_saveOriginal]
  show (if cs.filtered.length = 0 then _ else _) = _
  split
  · rfl
  · rw [Option.map_map]
    rfl

structure Cycles (cs cs' : Completion) (item : Item) : Prop where
  start : cs'.tokenStart = cs.tokenStart
  original : cs'.originalToken = cs.originalToken
  items : cs'.items = cs.items
  filtered : cs'.filtered = cs.filtered
  explicit : cs'.explicitSelection = true
  selected : ∃ i, cs'.selected = some i ∧ 0 ≤ i ∧ i < cs'.filtered.length
  chosen : item ∈ cs'.filtered

theorem selected_of_current {cs : Completion} {item : Item} (h : cs.currentCompletion = some item) :
    (∃ i, cs.selected = some i ∧ 0 ≤ i ∧ i < cs.filtered.length) ∧ item ∈ cs.filtered := by
  unfold currentCompletion at h
  split at h
  · rename_i i hselected
    split at h
    · rename_i hin
      exact ⟨⟨i, hselected, hin.1, hin.2⟩, List.mem_of_getElem? h⟩
    · cases h
  · cases h

theorem cycles_of_cycled {cs cs' : Completion} {item : Item} (h : cs.cycled = some (cs', item)) :
    cs.Cycles cs' item := by
  unfold cycled at h
  split at h
  · cases h
  · rename_i hne
    obtain ⟨item', hcurrent, heq⟩ := Option.map_eq_some_iff.mp h
    cases heq
    obtain ⟨hselected, hitem⟩ := selected_of_current hcurrent
    have hnext : cs.cycleNext.filtered = cs.filtered ∧ cs.cycleNext.items = cs.items ∧
        cs.cycleNext.originalToken = cs.originalToken ∧ cs.cycleNext.explicitSelection = true := by
      unfold cycleNext
      rw [if_neg hne]
      exact ⟨rfl, rfl, rfl, rfl⟩
    obtain ⟨hfiltered, hitems, horiginal, hexplicit⟩ := hnext
    exact ⟨Model.tokenStart_cycleNext cs, horiginal, hitems, hfiltered, hexplicit, hselected, hitem⟩

/-- While the list is cycled through, a Tab inserts an item. -/
theorem cycled_of_selected {cs : Completion} {i : Int} (hselected : cs.selected = some i)
    (h0 : 0 ≤ i) (hlt : i < cs.filtered.length) : ∃ q, cs.cycled = some q := by
  have hne : cs.filtered.length ≠ 0 := by omega
  have hpos : (0 : Int) < cs.filtered.length := by omega
  have hmod0 : 0 ≤ Int.tmod (i + 1) cs.filtered.length := Int.tmod_nonneg _ (by omega)
  have hmodlt : Int.tmod (i + 1) cs.filtered.length < cs.filtered.length := Int.tmod_lt_of_pos _ hpos
  have hget : (Int.tmod (i + 1) cs.filtered.length).toNat < cs.filtered.length := by omega
  unfold cycled cycleNext currentCompletion
  rw [if_neg hne, if_neg hne, hselected]
  dsimp only
  rw [if_pos ⟨hmod0, hmodlt⟩, List.getElem?_eq_getElem hget]
  exact ⟨_, rfl⟩

end Completion

namespace Model

section
variable [Ucd] {m : Model} {above below : List UnicodeString} {p t r text : Bytes}

/-- What the next `k` Tabs put in place of the token, each with the start of that token. A Tab that
inserts nothing leaves the text, and the corrections may then change the list. -/
def tried : Nat → Model → List (Int × Bytes)
  | 0, _ => []
  | k + 1, m =>
    match m.input.completion.bind Completion.cycled with
    | some (cs, item) => (cs.tokenStart, item.label) :: tried k (m.setCompletion (some cs))
    | none =>
      match m.relisted with
      | .ok m' => tried k m'
      | .error _ => []

/-- The text Escape goes back to, once a Tab has inserted an item. -/
def savedToken (cs : Completion) (typed : Bytes) : Bytes :=
  if cs.isInCompletionMode then cs.originalToken else typed

omit [Ucd] in
theorem Cut.withOriginal (h : m.Cut above (p ++ t) r below) {cs : Completion}
    (hstart : cs.tokenStart = p.length) :
    m.withOriginal cs = .ok (cs.saveOriginalToken (savedToken cs t)) := by
  unfold Model.withOriginal savedToken
  split
  · rfl
  · rw [h.currentLine, hstart]
    dsimp only [Bind.bind, Except.bind]
    rw [h.typed]
    rfl

theorem Cut.handleTab (h : m.Cut above (p ++ t) r below) {cs : Completion}
    (hcs : m.input.completion = some cs) (hstart : cs.tokenStart = p.length) :
    m.handleTab = match cs.cycled with
      | some (cs', item) => (m.replaceToken p.length item.label).map
          (·.setCompletion (some (cs'.saveOriginalToken (savedToken cs t))))
      | none => .ok m := by
  have hnext := cs.cycleNext_saveOriginal (savedToken cs t)
  have hcurrent : (cs.cycleNext.saveOriginalToken (savedToken cs t)).currentCompletion =
      cs.cycleNext.currentCompletion := rfl
  have htoken : (cs.cycleNext.saveOriginalToken (savedToken cs t)).tokenStart = p.length :=
    (tokenStart_cycleNext cs).trans hstart
  unfold Model.handleTab Completion.cycled
  rw [hcs]
  dsimp only
  split
  · rfl
  · rw [h.withOriginal hstart]
    dsimp only [Bind.bind, Except.bind]
    rw [hnext, hcurrent, htoken]
    cases cs.cycleNext.currentCompletion with
    | none => rfl
    | some item =>
      dsimp only [Option.map_some]
      cases m.replaceToken p.length item.label with
      | error e => rfl
      | ok inserted => rfl

end

end Model

/-! ## One key -/

namespace Update

open Model (Cut SameText Alike)

section
variable [Ucd] {m m₁ n : Model} {above below : List UnicodeString} {l r : Bytes} {key : Key}

/-- A key whose handler returns is followed by the corrections. -/
theorem next_of_applyKey (hinv : m.invariants = true)
    (happly : applyKey key { m with layout.scrollAmount := 0 } = .ok (m₁, []))
    (hcut : m₁.Cut above l r below) (hmode : m₁.input.mode = .normal)
    (hrelisted : m₁.relisted = .ok n) (hsame : m₁.SameText n) :
    ∃ m', next m (.key key) = some m' ∧ n.Alike m' := by
  obtain ⟨f, hfilter, hn⟩ := bind_eq_ok.mp hrelisted
  obtain ⟨q, hfollow, hq⟩ := bind_eq_ok.mp hn
  cases hq
  have hf := hcut.filterCompletions_returns.of_eq_ok hfilter
  obtain ⟨v, hvertical, hv, hinput⟩ :=
    ((hcut.sameText hf).handleVerticalCursorMovement_returns (hf.mode.trans hmode)).exists
  have hlist : v.input.completion = f.input.completion := congrArg Input.completion hinput
  have halike : f.Alike { v with
      input.previousKey := some key
      input.flippingThroughHistory := flippingAfterKey m₁.input.flippingThroughHistory } :=
    ⟨⟨hv.lines, hv.lexCache, hv.cursorLine, hv.cursorPos, hv.history, hv.mode, hv.repl⟩,
      hlist⟩
  obtain ⟨q', hfollow', hq'⟩ := halike.completionFollowup.of_eq_ok hfollow
  have hkey : keyStep key { m with layout.scrollAmount := 0 } = .ok q' := by
    unfold keyStep handleKeyInput universalCorrections
    rw [handleResize_self, happly]
    dsimp only [Bind.bind, Except.bind]
    rw [hfilter]
    dsimp only
    rw [hvertical]
    exact hfollow'
  have hend := hsame.trans hq'.text
  have hinv' : q'.1.invariants = true :=
    (hcut.sameText hend).invariants (hend.mode.trans hmode)
  have hupdate : update (.key key) m = .ok q' := update_of_step hinv hkey hinv'
  refine ⟨q'.1, ?_, hq'⟩
  unfold next
  rw [hupdate]

theorem next_of_applyKey_error {e : Exn}
    (happly : applyKey key { m with layout.scrollAmount := 0 } = .error e) :
    next m (.key key) = none := by
  have hupdate : ∀ q, update (.key key) m ≠ .ok q := by
    intro q hq
    have hstep : keyStep key _ = .ok q := (update_eq_ok hq).1
    unfold keyStep handleKeyInput at hstep
    rw [handleResize_self, happly] at hstep
    cases hstep
  unfold next
  cases hu : update (.key key) m with
  | ok q => exact absurd hu (hupdate q)
  | error e => rfl

theorem applyKey_normal {m : Model} (hmode : m.input.mode = .normal) (key : Key) :
    applyKey key m = NormalMode.applyKey key m := by
  unfold applyKey
  rw [hmode]

end

end Update

/-! ## Before and after the first Tab that inserts -/

namespace RLexCache

variable [Ucd]

/-- The lexer takes the texts one after the other, each with the cache that the one before left. -/
def TakesInTurn (line : Int) : Cache → List (List UnicodeString) → Prop
  | _, [] => True
  | cache, lines :: rest =>
    match update line line lines cache with
    | .ok cache' => TakesInTurn line cache' rest
    | .error _ => False

omit [Ucd] in
/-- Texts that differ in one line at most. -/
structure Beside (line : Int) (old new : List UnicodeString) : Prop where
  length : new.length = old.length
  others : ∀ k : Nat, (k : Int) ≠ line → new[k]? = old[k]?

/-- From the cache of a text, the lexer takes texts in turn when it takes each of them. -/
theorem takesInTurn_iff {line : Int} {old : List UnicodeString} (texts : List (List UnicodeString)) :
    ∀ {current : List UnicodeString} {cache : Cache}, create current = .ok cache →
      Beside line old current → (∀ new ∈ texts, Beside line old new) →
      (TakesInTurn line cache texts ↔ ∀ new ∈ texts, ∃ c, create new = .ok c) := by
  induction texts with
  | nil => exact fun _ _ _ => iff_of_true trivial nofun
  | cons new texts ih =>
    intro current cache hcache hcurrent htexts
    obtain ⟨hnew, htexts⟩ := List.forall_mem_cons.mp htexts
    have hupdate : update line line new cache = create new :=
      LexerCache.update_eq_create lexer hcache line line fun _ k hk => by
        rw [List.getElem?_map, List.getElem?_map, hnew.others k (by omega),
          hcurrent.others k (by omega)]
    rw [TakesInTurn, hupdate, List.forall_mem_cons]
    cases hcreate : create new with
    | error e => exact iff_of_false id fun ⟨⟨c, hc⟩, _⟩ => nomatch hc
    | ok cache' =>
      dsimp only
      rw [ih hcreate hnew htexts]
      exact (and_iff_right ⟨cache', rfl⟩).symm

end RLexCache

namespace Model

section
variable [Ucd] {m m₀ n : Model} {above below : List UnicodeString} {l p t u r : Bytes}

/-- An item is in place of the token `t`, which is saved. -/
structure Cycled (m : Model) (above : List UnicodeString) (p t u r : Bytes)
    (below : List UnicodeString) (cs : Completion) : Prop where
  cut : m.Cut above (p ++ u) r below
  mode : m.input.mode = .normal
  list : m.input.completion = some (cs.saveOriginalToken t)
  start : cs.tokenStart = p.length
  explicit : cs.explicitSelection = true
  selected : ∃ i, cs.selected = some i ∧ 0 ≤ i ∧ i < cs.filtered.length
  labels : ∀ item ∈ cs.filtered, Printable item.label

omit [Ucd] in
theorem unscrolled_alike (m : Model) : m.Alike { m with layout.scrollAmount := 0 } :=
  ⟨Update.unscrolled_sameText m, rfl⟩

omit [Ucd] in
theorem relisted_of_cycling (h : m.inCompletionMode = true) (hmode : m.input.mode = .normal) :
    m.relisted = .ok m := by
  have hfilter : m.filterCompletions = .ok m := by
    unfold filterCompletions
    rw [hmode]
    unfold inCompletionMode at h
    split at h
    · rename_i cs hcs
      rw [hcs]
      exact if_pos h
    · cases h
  have hfollow : m.completionFollowup = .ok (m, []) := by
    unfold completionFollowup
    rw [hmode, h, Bool.not_true, Bool.and_false]
    rfl
  unfold relisted
  rw [hfilter]
  show (do return (← m.completionFollowup).1) = _
  rw [hfollow]
  rfl

omit [Ucd] in
theorem Cut.token (h : m.Cut above l r below) (hlist : m.Listed) {cs : Completion}
    (hcs : m.input.completion = some cs) : ∃ p t, l = p ++ t ∧ cs.tokenStart = p.length := by
  obtain ⟨-, h0, hle, -⟩ := hlist cs hcs
  rw [h.pos] at hle
  refine ⟨l.take cs.tokenStart.toNat, l.drop cs.tokenStart.toNat,
    (List.take_append_drop _ _).symm, ?_⟩
  rw [List.length_take]
  omega

omit [Ucd] in
theorem Cut.relisted_returns (h : m.Cut above l r below) (hlist : m.Listed) :
    Returns m.relisted fun n => m.SameText n ∧ n.Listed :=
  (h.filterCompletions_listed hlist).bind fun _ ⟨hs, hl⟩ =>
    ((h.sameText hs).completionFollowup_listed hl).bind fun _ ⟨hs', hl'⟩ => ⟨hs.trans hs', hl'⟩

/-- A Tab that inserts an item, where the lexer takes the line. -/
theorem Cut.next_tab (hucd : PrintableAscii) (h : m.Cut above (p ++ u) r below)
    (hmode : m.input.mode = .normal) {cs cs' : Completion} {item : Completion.Item}
    (hcs : m.input.completion = some cs) (hstart : cs.tokenStart = p.length)
    (hcycled : cs.cycled = some (cs', item))
    (hlabels : ∀ item ∈ cs.filtered, Printable item.label) :
    match RLexCache.update above.length above.length
        (above ++ asciiLine (p ++ item.label ++ r) :: below) m.input.lexCache with
    | .ok cache => ∃ m', Update.next m (.key .tab) = some m' ∧ m'.input.lexCache = cache ∧
        m'.Cycled above p (savedToken cs u) item.label r below cs'
    | .error _ => Update.next m (.key .tab) = none := by
  have hcycles := Completion.cycles_of_cycled hcycled
  have hlabel : Printable item.label := hlabels item (hcycles.filtered ▸ hcycles.chosen)
  have hcut₀ := h.sameText (Update.unscrolled_sameText m)
  have hcs₀ : ({ m with layout.scrollAmount := 0 } : Model).input.completion = some cs := hcs
  have htab := hcut₀.handleTab hcs₀ hstart
  rw [hcycled] at htab
  dsimp only at htab
  rw [hcut₀.replaceToken hucd hmode hlabel] at htab
  have happly : Update.applyKey .tab { m with layout.scrollAmount := 0 } =
      withoutEffects { m with layout.scrollAmount := 0 }.handleTab :=
    Update.applyKey_normal (m := { m with layout.scrollAmount := 0 }) hmode .tab
  rw [htab] at happly
  dsimp only at happly ⊢
  cases hupdate : RLexCache.update above.length above.length
      (above ++ asciiLine (p ++ item.label ++ r) :: below) m.input.lexCache with
  | error e =>
    rw [hupdate] at happly
    exact Update.next_of_applyKey_error happly
  | ok cache =>
    rw [hupdate] at happly
    have hleft : Printable (p ++ item.label) :=
      Printable.append (fun c hc => h.left c (List.mem_append_left u hc)) hlabel
    obtain ⟨m', hm', halike⟩ := Update.next_of_applyKey (h.invariants hmode) happly
      (show Cut _ above (p ++ item.label) r below from ⟨rfl, h.line, rfl, hleft, h.right⟩) hmode
      (relisted_of_cycling hcycles.explicit hmode) (SameText.refl _)
    refine ⟨m', hm', halike.text.lexCache, ?_⟩
    exact
      { cut := ⟨halike.text.lines, halike.text.cursorLine.trans h.line, halike.text.cursorPos,
          hleft, h.right⟩
        mode := halike.text.mode.trans hmode
        list := halike.list
        start := hcycles.start.trans hstart
        explicit := hcycles.explicit
        selected := hcycles.selected
        labels := fun item hitem => hlabels item (hcycles.filtered ▸ hitem) }

/-- Escape puts the token back, where the lexer takes the line. -/
theorem Cycled.next_escape (hucd : PrintableAscii) (ht : Printable t) {cs : Completion}
    (h : m.Cycled above p t u r below cs) :
    match RLexCache.update above.length above.length
        (above ++ asciiLine (p ++ t ++ r) :: below) m.input.lexCache with
    | .ok _ => ∃ m', Update.next m (.key .escape) = some m' ∧ m'.Cut above (p ++ t) r below
    | .error _ => Update.next m (.key .escape) = none := by
  have hmode := h.mode
  have hcut₀ := h.cut.sameText (Update.unscrolled_sameText m)
  have hescape : NormalMode.escape { m with layout.scrollAmount := 0 } =
      (do return ((← { m with layout.scrollAmount := 0 }.replaceToken p.length t).setCompletion none,
        [])) := by
    unfold NormalMode.escape
    dsimp only
    rw [h.list]
    dsimp only
    rw [if_pos (show (cs.saveOriginalToken t).isInCompletionMode = true from h.explicit)]
    rw [show (cs.saveOriginalToken t).tokenStart = p.length from h.start]
    rfl
  rw [hcut₀.replaceToken hucd hmode ht] at hescape
  have happly := (Update.applyKey_normal (m := { m with layout.scrollAmount := 0 }) hmode
    .escape).trans hescape
  cases hupdate : RLexCache.update above.length above.length
      (above ++ asciiLine (p ++ t ++ r) :: below) m.input.lexCache with
  | error e =>
    rw [hupdate] at happly
    exact Update.next_of_applyKey_error happly
  | ok cache =>
    rw [hupdate] at happly
    have hleft : Printable (p ++ t) :=
      Printable.append (fun c hc => h.cut.left c (List.mem_append_left u hc)) ht
    have hcut₁ : Cut (({ m with layout.scrollAmount := 0 } : Model).withLine
        (above ++ asciiLine (p ++ t ++ r) :: below) (p ++ t).length cache |>.setCompletion none)
        above (p ++ t) r below := ⟨rfl, h.cut.line, rfl, hleft, h.cut.right⟩
    obtain ⟨n, hn, hsame, -⟩ := (hcut₁.relisted_returns (listed_none _)).exists
    obtain ⟨m', hm', halike⟩ :=
      Update.next_of_applyKey (h.cut.invariants hmode) happly hcut₁ hmode hn hsame
    exact ⟨m', hm', hcut₁.sameText (hsame.trans halike.text)⟩

/-- A key that changes neither the text nor the cursor. -/
theorem Cut.next_idle (h : m.Cut above l r below) (hmode : m.input.mode = .normal) {key : Key}
    (happly : Update.applyKey key { m with layout.scrollAmount := 0 } = .ok (n, []))
    (hsame : m.SameText n) (hlist : n.Listed) :
    ∃ n' m', n.relisted = .ok n' ∧ Update.next m (.key key) = some m' ∧ n'.Alike m' ∧
      m.SameText m' ∧ m'.Listed := by
  have hcut := h.sameText hsame
  obtain ⟨n', hn', hsame', hlist'⟩ := (hcut.relisted_returns hlist).exists
  obtain ⟨m', hm', halike⟩ := Update.next_of_applyKey (h.invariants hmode) happly hcut
    (hsame.mode.trans hmode) hn' hsame'
  refine ⟨n', m', hn', hm', halike, hsame.trans (hsame'.trans halike.text), fun cs hcs => ?_⟩
  rw [halike.text.cursorPos]
  exact hlist' cs (halike.list ▸ hcs)

/-- Escape closes a list that is not cycled through. -/
theorem Cut.next_escape (h : m.Cut above l r below) (hmode : m.input.mode = .normal)
    (hlist : m.Listed) :
    ∃ m', Update.next m (.key .escape) = some m' ∧ m'.Cut above l r below := by
  have hescape : ∃ n, NormalMode.escape { m with layout.scrollAmount := 0 } = .ok (n, []) ∧
      m.SameText n ∧ n.Listed := by
    have hsame := Update.unscrolled_sameText m
    unfold NormalMode.escape
    dsimp only
    split
    · rename_i cs hcs
      rw [if_neg (by rw [(hlist cs hcs).1]; exact Bool.false_ne_true)]
      exact ⟨_, rfl, hsame.trans (setCompletion_sameText _ none), listed_none _⟩
    · exact ⟨_, rfl, hsame, hlist⟩
  obtain ⟨n, hn, hsame, hlistn⟩ := hescape
  have happly := (Update.applyKey_normal (m := { m with layout.scrollAmount := 0 }) hmode
    .escape).trans hn
  obtain ⟨-, m', -, hm', -, hsame', -⟩ := h.next_idle hmode happly hsame hlistn
  exact ⟨m', hm', h.sameText hsame'⟩

/-- A Tab that inserts nothing. -/
theorem Cut.next_tab_idle (h : m.Cut above l r below) (hmode : m.input.mode = .normal)
    (hlist : m.Listed) (hidle : m.input.completion.bind Completion.cycled = none) :
    ∃ n m', m.relisted = .ok n ∧ Update.next m (.key .tab) = some m' ∧ n.Alike m' ∧
      m.SameText m' ∧ m'.Listed := by
  have hsame := Update.unscrolled_sameText m
  have htab : { m with layout.scrollAmount := 0 }.handleTab =
      .ok { m with layout.scrollAmount := 0 } := by
    cases hcs : m.input.completion with
    | none =>
      unfold Model.handleTab
      dsimp only
      rw [hcs]
      rfl
    | some cs =>
      obtain ⟨p, t, rfl, hstart⟩ := h.token hlist hcs
      have hcs₀ : ({ m with layout.scrollAmount := 0 } : Model).input.completion = some cs := hcs
      rw [hcs] at hidle
      rw [(h.sameText hsame).handleTab hcs₀ hstart, show cs.cycled = none from hidle]
  have happly : Update.applyKey .tab { m with layout.scrollAmount := 0 } =
      withoutEffects { m with layout.scrollAmount := 0 }.handleTab :=
    Update.applyKey_normal (m := { m with layout.scrollAmount := 0 }) hmode .tab
  rw [htab] at happly
  obtain ⟨n, m', hn, hm', halike, hsame', hlist'⟩ := h.next_idle hmode happly hsame hlist
  obtain ⟨n', hn', halike'⟩ := (unscrolled_alike m).symm.relisted.of_eq_ok hn
  exact ⟨n', m', hn', hm', halike'.symm.trans halike, hsame', hlist'⟩

/-! ## Runs -/

/-- `k` times Tab, then Escape. -/
def tabsThenEscape (k : Nat) : List Msg := List.replicate k (.key .tab) ++ [.key .escape]

/-- The texts that the lexer is given by `k` Tabs and an Escape. -/
def lexedTexts (m : Model) (k : Nat) : List (List UnicodeString) :=
  match tried k m with
  | [] => []
  | q :: qs => (q :: qs).map (fun q => m.tokenReplaced q.1 q.2) ++ [m.input.lines]

theorem exec_tabs_zero : Transition.exec Update.next m (tabsThenEscape 0) =
    Update.next m (.key .escape) := by
  show (Update.next m (.key .escape)).bind some = _
  cases Update.next m (.key .escape) <;> rfl

theorem exec_tabs_succ (k : Nat) : Transition.exec Update.next m (tabsThenEscape (k + 1)) =
    (Update.next m (.key .tab)).bind fun m' =>
      Transition.exec Update.next m' (tabsThenEscape k) := rfl

/-- Where the cache is that of the prompt's lines, each text tried has to be one the lexer takes. -/
theorem lexedTexts_taken_iff (hcache : RLexCache.create m.input.lines = .ok m.input.lexCache)
    (k : Nat) : RLexCache.TakesInTurn m.input.cursorLine m.input.lexCache (m.lexedTexts k) ↔
      ∀ q ∈ tried k m, ∃ c, RLexCache.create (m.tokenReplaced q.1 q.2) = .ok c := by
  have hself : RLexCache.Beside m.input.cursorLine m.input.lines m.input.lines :=
    ⟨rfl, fun _ _ => rfl⟩
  have hreplaced : ∀ (start : Int) (text : Bytes),
      RLexCache.Beside m.input.cursorLine m.input.lines (m.tokenReplaced start text) :=
    fun start text => ⟨length_updateLine _ _ _, fun k hk => by
      rw [Model.tokenReplaced, getElem?_updateLine, if_neg hk]⟩
  have hbeside : ∀ new ∈ m.lexedTexts k,
      RLexCache.Beside m.input.cursorLine m.input.lines new := by
    unfold lexedTexts
    split
    · exact nofun
    · intro new hnew
      obtain hnew | hnew := List.mem_append.mp hnew
      · obtain ⟨q, -, rfl⟩ := List.mem_map.mp hnew
        exact hreplaced q.1 q.2
      · rw [List.mem_singleton.mp hnew]
        exact hself
  rw [RLexCache.takesInTurn_iff (m.lexedTexts k) hcache hself hbeside]
  unfold lexedTexts
  split
  · rename_i hnil
    rw [hnil]
    exact iff_of_true nofun nofun
  · rename_i q qs hcons
    rw [hcons, List.forall_mem_append, List.forall_mem_map, List.forall_mem_singleton]
    exact and_iff_left ⟨_, hcache⟩

/-- From a list that is cycled through. The induction goes over the Tabs still to come, for every
item in place of the token. -/
theorem Cycled.undone_iff (hucd : PrintableAscii) (h₀ : m₀.Cut above (p ++ t) r below)
    (ht : Printable t) (k : Nat) : ∀ {m : Model} {u : Bytes} {cs : Completion},
    m.Cycled above p t u r below cs →
    ((∃ m', Transition.exec Update.next m (tabsThenEscape k) = some m' ∧
        m'.Cut above (p ++ t) r below) ↔
      RLexCache.TakesInTurn above.length m.input.lexCache
        ((tried k (m₀.setCompletion (some cs))).map (fun q => m₀.tokenReplaced q.1 q.2) ++
          [m₀.input.lines])) := by
  induction k with
  | zero =>
    intro m u cs h
    have hescape := h.next_escape hucd ht
    rw [exec_tabs_zero]
    show _ ↔ RLexCache.TakesInTurn above.length m.input.lexCache [m₀.input.lines]
    unfold RLexCache.TakesInTurn
    rw [h₀.lines]
    cases hupdate : RLexCache.update above.length above.length
        (above ++ asciiLine (p ++ t ++ r) :: below) m.input.lexCache with
    | ok cache =>
      rw [hupdate] at hescape
      exact iff_of_true hescape trivial
    | error e =>
      rw [hupdate] at hescape
      dsimp only at hescape
      rw [hescape]
      exact iff_of_false (fun ⟨m', hm', _⟩ => nomatch hm') id
  | succ k ih =>
    intro m u cs h
    obtain ⟨i, hselected, h0, hlt⟩ := h.selected
    obtain ⟨⟨cs', item⟩, hcycled⟩ := Completion.cycled_of_selected hselected h0 hlt
    have hcycles := Completion.cycles_of_cycled hcycled
    have hlabel : Printable item.label := h.labels item (hcycles.filtered ▸ hcycles.chosen)
    have htried : tried (k + 1) (m₀.setCompletion (some cs)) =
        (cs'.tokenStart, item.label) :: tried k (m₀.setCompletion (some cs')) := by
      rw [tried, show (m₀.setCompletion (some cs)).input.completion.bind Completion.cycled =
        some (cs', item) from hcycled]
      rfl
    have hsaved : (cs.saveOriginalToken t).cycled = some (cs'.saveOriginalToken t, item) := by
      rw [Completion.cycled_saveOriginal, hcycled]
      rfl
    have htab := h.cut.next_tab hucd h.mode h.list h.start hsaved h.labels
    have htoken : savedToken (cs.saveOriginalToken t) u = t := if_pos h.explicit
    rw [exec_tabs_succ, htried, List.map_cons, List.cons_append, RLexCache.TakesInTurn,
      hcycles.start, h.start, h₀.tokenReplaced hucd hlabel]
    rw [htoken] at htab
    cases hupdate : RLexCache.update above.length above.length
        (above ++ asciiLine (p ++ item.label ++ r) :: below) m.input.lexCache with
    | ok cache =>
      rw [hupdate] at htab
      obtain ⟨m', hm', hcache, hcycled'⟩ := htab
      rw [hm', ← hcache]
      have h' : m'.Cycled above p t item.label r below cs' :=
        ⟨hcycled'.cut, hcycled'.mode, hcycled'.list, hcycled'.start, hcycled'.explicit,
          hcycled'.selected, hcycled'.labels⟩
      exact ih h'
    | error e =>
      rw [hupdate] at htab
      dsimp only at htab
      rw [htab]
      exact iff_of_false (fun ⟨m', hm', _⟩ => nomatch hm') id

theorem SameText.tokenReplaced {m' : Model} (h : m.SameText m') (tokenStart : Int)
    (text : Bytes) : m'.tokenReplaced tokenStart text = m.tokenReplaced tokenStart text := by
  unfold Model.tokenReplaced
  rw [h.line, h.lines, h.cursorLine, h.cursorPos]

omit [Ucd] in
theorem Alike.tried (k : Nat) : ∀ {m m' : Model}, m.Alike m' → tried k m' = tried k m := by
  induction k with
  | zero => exact fun _ => rfl
  | succ k ih =>
    intro m m' h
    unfold Model.tried
    rw [h.list]
    split
    · rw [ih (h.setCompletion _)]
    · have hrelisted := h.relisted
      cases hm : m.relisted with
      | ok n =>
        obtain ⟨n', hn', halike⟩ := hrelisted.of_eq_ok hm
        rw [hn']
        exact ih halike
      | error e =>
        rw [hm] at hrelisted
        cases hm' : m'.relisted with
        | ok n' =>
          rw [hm'] at hrelisted
          exact hrelisted.elim
        | error e' => rfl

/-- From a list that is not cycled through. The induction goes over the Tabs still to come; those
that insert nothing leave the same text under another list. -/
theorem Cut.undone_iff (hucd : PrintableAscii) (k : Nat) : ∀ {m : Model},
    m.Cut above l r below → m.input.mode = .normal → m.Listed →
    ((∃ m', Transition.exec Update.next m (tabsThenEscape k) = some m' ∧
        m'.Cut above l r below) ↔
      RLexCache.TakesInTurn above.length m.input.lexCache (m.lexedTexts k)) := by
  induction k with
  | zero =>
    intro m h hmode hlist
    rw [exec_tabs_zero]
    exact iff_of_true (h.next_escape hmode hlist) trivial
  | succ k ih =>
    intro m h hmode hlist
    rw [exec_tabs_succ]
    cases hcycled : m.input.completion.bind Completion.cycled with
    | none =>
      obtain ⟨n, m', hn, hm', halike, hsame, hlist'⟩ := h.next_tab_idle hmode hlist hcycled
      have htried : tried (k + 1) m = tried k m' := by
        rw [tried, hcycled, hn]
        exact (halike.tried k).symm
      have htexts : m.lexedTexts (k + 1) = m'.lexedTexts k := by
        unfold lexedTexts
        rw [htried, hsame.lines]
        split
        · rfl
        · simp only [hsame.tokenReplaced]
      rw [hm', htexts, ← hsame.lexCache]
      exact ih (h.sameText hsame) (hsame.mode.trans hmode) hlist'
    | some q =>
      obtain ⟨cs, hcs, hq⟩ := Option.bind_eq_some_iff.mp hcycled
      obtain ⟨cs', item⟩ := q
      obtain ⟨hopen, -, -, hlabels⟩ := hlist cs hcs
      obtain ⟨p, t, rfl, hstart⟩ := h.token hlist hcs
      have hcycles := Completion.cycles_of_cycled hq
      have hlabel : Printable item.label :=
        hlabels item (.inr (hcycles.filtered ▸ hcycles.chosen))
      have ht : Printable t := fun c hc => h.left c (List.mem_append_right p hc)
      have htoken : savedToken cs t = t := if_neg (by rw [hopen]; exact Bool.false_ne_true)
      have htab := h.next_tab hucd hmode hcs hstart hq fun item hitem => hlabels item (.inr hitem)
      have htexts : m.lexedTexts (k + 1) = (above ++ asciiLine (p ++ item.label ++ r) :: below) ::
          ((tried k (m.setCompletion (some cs'))).map (fun q => m.tokenReplaced q.1 q.2) ++
            [m.input.lines]) := by
        unfold lexedTexts
        rw [tried, hcycled]
        dsimp only
        rw [List.map_cons, hcycles.start, hstart, h.tokenReplaced hucd hlabel]
        rfl
      rw [htexts, RLexCache.TakesInTurn]
      rw [htoken] at htab
      cases hupdate : RLexCache.update above.length above.length
          (above ++ asciiLine (p ++ item.label ++ r) :: below) m.input.lexCache with
      | ok cache =>
        rw [hupdate] at htab
        obtain ⟨m', hm', hcache, hcycled'⟩ := htab
        rw [hm', ← hcache]
        exact hcycled'.undone_iff hucd h ht k
      | error e =>
        rw [hupdate] at htab
        dsimp only at htab
        rw [htab]
        exact iff_of_false (fun ⟨m', hm', _⟩ => nomatch hm') id

omit [Ucd] in
theorem cut_of_currentLine {s : Bytes} (hinv : m.invariants = true)
    (hmode : m.input.mode = .normal) (hline : m.currentLine = .ok (asciiLine s))
    (hs : Printable s) : ∃ above l r below, m.Cut above l r below := by
  unfold Model.invariants at hinv
  rw [hmode] at hinv
  simp only [Bool.and_eq_true, decide_eq_true_eq] at hinv
  obtain ⟨⟨⟨⟨-, h0⟩, hlt⟩, hpos0⟩, hpos⟩ := hinv
  have hget : m.input.cursorLine.toNat < m.input.lines.length := by omega
  have hsome := List.getElem?_eq_getElem hget
  have hx : m.input.lines[m.input.cursorLine.toNat] = asciiLine s :=
    Except.ok.inj ((nth_eq h0 hsome).symm.trans hline)
  rw [hx] at hsome
  rw [List.getD_eq_getElem?_getD, hsome, Option.getD_some, UnicodeString.length_asciiLine] at hpos
  refine ⟨m.input.lines.take m.input.cursorLine.toNat, s.take m.input.cursorPos.toNat,
    s.drop m.input.cursorPos.toNat, m.input.lines.drop (m.input.cursorLine.toNat + 1), ?_, ?_, ?_,
    fun c hc => hs c (List.mem_of_mem_take hc), fun c hc => hs c (List.mem_of_mem_drop hc)⟩
  · rw [List.take_append_drop, ← hx, List.getElem_cons_drop, List.take_append_drop]
  · rw [List.length_take]
    omega
  · rw [List.length_take]
    omega

/-- Any number of Tabs and an Escape leave the prompt as it was exactly when the lexer takes the
lines that the items tried make. -/
theorem tabs_escape_iff (hucd : PrintableAscii) {s : Bytes} {cs : Completion}
    (hinv : m.invariants = true) (hmode : m.input.mode = .normal)
    (hline : m.currentLine = .ok (asciiLine s)) (hs : Printable s)
    (hcs : m.input.completion = some cs) (hopen : cs.isInCompletionMode = false)
    (h0 : 0 ≤ cs.tokenStart) (hle : cs.tokenStart ≤ m.input.cursorPos)
    (hlabels : ∀ item, item ∈ cs.items ∨ item ∈ cs.filtered → Printable item.label) (k : Nat) :
    (∃ m', Transition.exec Update.next m (tabsThenEscape k) = some m' ∧
        m'.input.lines = m.input.lines ∧ m'.input.cursorLine = m.input.cursorLine ∧
        m'.input.cursorPos = m.input.cursorPos) ↔
      RLexCache.TakesInTurn m.input.cursorLine m.input.lexCache (m.lexedTexts k) := by
  obtain ⟨above, l, r, below, hcut⟩ := cut_of_currentLine hinv hmode hline hs
  have hlist : m.Listed := by
    intro cs' hcs'
    obtain rfl : cs = cs' := Option.some.inj (hcs.symm.trans hcs')
    exact ⟨hopen, h0, hle, hlabels⟩
  have hundone := hcut.undone_iff hucd k hmode hlist
  rw [← hcut.line] at hundone
  rw [← hundone]
  refine exists_congr fun m' => and_congr_right fun _ => ?_
  constructor
  · rintro ⟨hlines, hcursor, hpos⟩
    exact ⟨hlines.trans hcut.lines, hcursor.trans hcut.line, hpos.trans hcut.pos, hcut.left,
      hcut.right⟩
  · intro h
    exact ⟨h.lines.trans hcut.lines.symm, h.line.trans hcut.line.symm, h.pos.trans hcut.pos.symm⟩

end

section

attribute [local instance] asciiUcd

/-- Two of the three items are tried in place of `me`. -/
theorem tabs_escape_me : ∃ m₀ m, Update.initialModel (History.init ⟨[], []⟩) 1 80 24 = .ok m₀ ∧
    Transition.exec Update.next m₀ [.key (.char (bytes "m")), .key (.char (bytes "e")),
      .response (.completions (bytes "me") [bytes "mean", bytes "median", bytes "merge"])] =
        some m ∧
    ∃ m', Transition.exec Update.next m (tabsThenEscape 2) = some m' ∧
      m'.input.lines = m.input.lines ∧ m'.input.cursorLine = m.input.cursorLine ∧
      m'.input.cursorPos = m.input.cursorPos := by
  obtain ⟨m₀, m, cs, h₀, hrun, hinv, hmode, hline, hcs, hopen, h0, hle, hitems, hfiltered, htaken⟩ :
      ∃ m₀ m cs, Update.initialModel (History.init ⟨[], []⟩) 1 80 24 = .ok m₀ ∧
      Transition.exec Update.next m₀ [.key (.char (bytes "m")), .key (.char (bytes "e")),
        .response (.completions (bytes "me") [bytes "mean", bytes "median", bytes "merge"])] =
          some m ∧
      m.invariants = true ∧ m.input.mode = .normal ∧
      m.currentLine = .ok (asciiLine (bytes "me")) ∧ m.input.completion = some cs ∧
      cs.isInCompletionMode = false ∧ 0 ≤ cs.tokenStart ∧ cs.tokenStart ≤ m.input.cursorPos ∧
      cs.items = [bytes "mean", bytes "median", bytes "merge"].map Completion.backendItem ∧
      cs.filtered = cs.items ∧
      RLexCache.TakesInTurn m.input.cursorLine m.input.lexCache (m.lexedTexts 2) :=
    ⟨_, _, _, rfl, rfl, rfl, rfl, rfl, rfl, rfl, by decide, by decide, rfl, rfl, trivial⟩
  have hprintable : ∀ label ∈ [bytes "mean", bytes "median", bytes "merge"], Printable label := by
    decide
  have hlabels : ∀ item, item ∈ cs.items ∨ item ∈ cs.filtered → Printable item.label := by
    intro item hitem
    rw [hfiltered, or_self, hitems] at hitem
    obtain ⟨label, hlabel, rfl⟩ := List.mem_map.mp hitem
    exact hprintable label hlabel
  have hs : Printable (bytes "me") := by decide
  exact ⟨m₀, m, h₀, hrun, (tabs_escape_iff printableAscii_asciiUcd hinv hmode hline hs hcs
    hopen h0 hle hlabels 2).mpr htaken⟩

/-- A prompt of `n` opening parentheses and a word. -/
def parensWord (n : Nat) (word : String) : Bytes := List.replicate n 40 ++ bytes word

theorem printable_parensWord (n : Nat) {word : String} (hword : Printable (bytes word)) :
    Printable (parensWord n word) := by
  refine Printable.append (fun c hc => ?_) hword
  rw [List.eq_of_mem_replicate hc]
  decide

theorem lexLine_parensWord {n : Nat} {word : String} {ts : List RLexer.Token} {mode : RLexer.Mode}
    (hword : Printable (bytes word)) (hlex : RLexer.lexLine .normal (bytes word) = .ok (ts, mode)) :
    (∃ q, RLexer.lexLine .normal (parensWord n word) = .ok q) ↔ n + ts.length ≤ 1000 := by
  have hdecode : ∀ {s : Bytes}, Printable s → Utf8.decode s = some (s.map Char.ofUInt8) := by
    intro s hs
    have h := Utf8.decode_encode (s.map Char.ofUInt8)
    rwa [UnicodeString.encode_chars hs] at h
  obtain ⟨cs, hcs, hlexes⟩ := RLexer.lexLine_lexes hlex
  obtain rfl : (bytes word).map Char.ofUInt8 = cs := Option.some.inj ((hdecode hword).symm.trans hcs)
  obtain ⟨ts', hts', hlen⟩ := RLexer.lexes_parens_before hlexes n
  have hchars : Utf8.decode (parensWord n word) =
      some (List.replicate n '(' ++ (bytes word).map Char.ofUInt8) := by
    rw [hdecode (printable_parensWord n hword), parensWord, List.map_append, List.map_replicate]
    rfl
  rw [RLexer.lexLine_returns_iff _ _ ⟨_, hchars⟩]
  constructor
  · rintro ⟨cs', ts'', m', hcs', hl, hle⟩
    obtain rfl := Option.some.inj (hchars.symm.trans hcs')
    rw [(hl.unique hts').1] at hle
    omega
  · exact fun hle => ⟨_, ts', mode, hchars, hts', by omega⟩

theorem create_one_iff {u : UnicodeString} : (∃ c, RLexCache.create [u] = .ok c) ↔
    ∃ q, RLexer.lexLine .normal u.toBytes = .ok q := by
  constructor
  · rintro ⟨c, hc⟩
    obtain ⟨ts, mode, -, hlex, -, -⟩ := LexerCache.createFrom_cons_iff.mp hc
    exact ⟨_, hlex⟩
  · rintro ⟨⟨ts, mode⟩, hlex⟩
    exact ⟨_, LexerCache.createFrom_cons_iff.mpr ⟨ts, mode, [], hlex, rfl, rfl⟩⟩

/-- A prompt of 1000 tokens with the list open on its last: the item is two tokens, and the Tab
raises. -/
theorem tab_raises : ∃ (m : Model) (cs : Completion), m.invariants = true ∧
    m.input.mode = .normal ∧ m.currentLine = .ok (asciiLine (parensWord 999 "ba")) ∧
    Printable (parensWord 999 "ba") ∧ RLexCache.create m.input.lines = .ok m.input.lexCache ∧
    m.input.completion = some cs ∧ cs.isInCompletionMode = false ∧ 0 ≤ cs.tokenStart ∧
    cs.tokenStart ≤ m.input.cursorPos ∧
    (∀ item, item ∈ cs.items ∨ item ∈ cs.filtered → Printable item.label) ∧
    ¬ ∃ m', Transition.exec Update.next m (tabsThenEscape 1) = some m' ∧
      m'.input.lines = m.input.lines ∧ m'.input.cursorLine = m.input.cursorLine ∧
      m'.input.cursorPos = m.input.cursorPos := by
  have hba : Printable (bytes "ba") := by decide
  have hbase : Printable (bytes "base::") := by decide
  obtain ⟨tsBa, modeBa, hlexBa, hlenBa⟩ : ∃ ts mode,
      RLexer.lexLine .normal (bytes "ba") = .ok (ts, mode) ∧ ts.length = 1 := ⟨_, _, rfl, rfl⟩
  obtain ⟨tsBase, modeBase, hlexBase, hlenBase⟩ : ∃ ts mode,
      RLexer.lexLine .normal (bytes "base::") = .ok (ts, mode) ∧ ts.length = 2 := ⟨_, _, rfl, rfl⟩
  obtain ⟨cache, hcache⟩ := (create_one_iff (u := asciiLine (parensWord 999 "ba"))).mpr
    ((lexLine_parensWord hba hlexBa).mpr (by omega))
  obtain ⟨m₀, h₀⟩ : ∃ m₀, Update.initialModel (History.init ⟨[], []⟩) 1 80 24 = .ok m₀ := ⟨_, rfl⟩
  obtain ⟨m, hlines, hlexed, hline, hpos, hmode, hcs⟩ : ∃ m : Model,
      m.input.lines = [asciiLine (parensWord 999 "ba")] ∧ m.input.lexCache = cache ∧
      m.input.cursorLine = 0 ∧ m.input.cursorPos = 1001 ∧ m.input.mode = .normal ∧
      m.input.completion = some (.create 999 [Completion.backendItem (bytes "base::")]) :=
    ⟨{ m₀ with
        input.lines := [asciiLine (parensWord 999 "ba")]
        input.lexCache := cache
        input.cursorLine := 0
        input.cursorPos := 1001
        input.mode := .normal
        input.completion := some (.create 999 [Completion.backendItem (bytes "base::")]) },
      rfl, rfl, rfl, rfl, rfl, rfl⟩
  have hlen : (List.replicate 999 (40 : UInt8)).length = 999 := List.length_replicate
  have hcut : m.Cut [] (List.replicate 999 40 ++ bytes "ba") [] [] := by
    refine ⟨?_, hline, ?_, printable_parensWord 999 hba, nofun⟩
    · rw [hlines, List.append_nil]
      rfl
    · rw [hpos, List.length_append, hlen]
      rfl
  have hlabels : ∀ item, item ∈ [Completion.backendItem (bytes "base::")] ∨
      item ∈ [Completion.backendItem (bytes "base::")] → Printable item.label := by
    intro item hitem
    rw [List.mem_singleton.mp (hitem.elim id id)]
    exact hbase
  have hcreate : RLexCache.create m.input.lines = .ok m.input.lexCache := by
    rw [hlines, hlexed]
    exact hcache
  have hlist : m.Listed := by
    intro cs hcs'
    obtain rfl := Option.some.inj (hcs.symm.trans hcs')
    exact ⟨rfl, by decide, by rw [hpos]; decide, hlabels⟩
  have htried : tried 1 m = [(999, bytes "base::")] := by
    rw [tried, hcs]
    rfl
  have hreplaced : m.tokenReplaced 999 (bytes "base::") =
      [asciiLine (parensWord 999 "base::")] := by
    have h := hcut.tokenReplaced printableAscii_asciiUcd hbase
    rw [hlen, List.append_nil] at h
    exact h
  refine ⟨m, _, hcut.invariants hmode, hmode, ?_, printable_parensWord 999 hba, hcreate, hcs, rfl,
    by decide, by rw [hpos]; decide, hlabels, ?_⟩
  · have h := hcut.currentLine
    rw [List.append_nil] at h
    exact h
  · rintro ⟨m', hm', hlines', hline', hpos'⟩
    have htaken := (hcut.undone_iff printableAscii_asciiUcd 1 hmode hlist).mp ⟨m', hm',
      hlines'.trans hcut.lines, hline'.trans hcut.line, hpos'.trans hcut.pos, hcut.left,
      hcut.right⟩
    rw [← hcut.line, lexedTexts_taken_iff hcreate, htried] at htaken
    have hbase' := htaken _ (List.mem_singleton_self _)
    rw [hreplaced, create_one_iff] at hbase'
    have hle := (lexLine_parensWord hbase hlexBase).mp hbase'
    omega

end

end Model
end Raoui
