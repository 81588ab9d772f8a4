import Raoui.Editor.Moves

/-!
# Raoui.Editor.Editing

The functions of the text editor that change the lines. Each has one lemma: it keeps the model
coherent, and the cursor within its line under a condition on the text around it.

* `Takes`, `DeletesAt`, `JoinsWith`: that the text, where it is read again, has the clusters that
  the cursor counts.
-/

namespace Raoui

open Outcome (Meets)
open UnicodeString (WellFormed clusterCount)

/-! ## Lines of a list -/

theorem getElem?_updateLine (lines : List UnicodeString) (i : Int) (l : UnicodeString) (k : Nat) :
    (updateLine lines i l)[k]? = if (k : Int) = i then (lines[k]?).map fun _ => l else lines[k]? := by
  rw [updateLine, List.getElem?_mapIdx]
  split
  · rfl
  · simp

@[simp] theorem length_updateLine (lines : List UnicodeString) (i : Int) (l : UnicodeString) :
    (updateLine lines i l).length = lines.length := by
  simp [updateLine]

theorem mem_updateLine {lines : List UnicodeString} {i : Int} {l x : UnicodeString}
    (h : x ∈ updateLine lines i l) : x = l ∨ x ∈ lines := by
  obtain ⟨k, hk⟩ := List.mem_iff_getElem?.mp h
  rw [getElem?_updateLine] at hk
  split at hk
  · obtain ⟨_, _, rfl⟩ := Option.map_eq_some_iff.mp hk
    exact .inl rfl
  · exact .inr (List.mem_of_getElem? hk)

theorem flatten_mapIdx_of_not (inserted : List UnicodeString) (p : Nat → Prop) [DecidablePred p]
    (hp : ∀ k, ¬ p k) (lines : List UnicodeString) :
    (lines.mapIdx fun j l => if p j then inserted else [l]).flatten = lines := by
  induction lines generalizing p with
  | nil => rfl
  | cons line rest ih =>
    rw [List.mapIdx_cons, List.flatten_cons, if_neg (hp 0), ih (fun k => p (k + 1)) fun k => hp (k + 1)]
    rfl

theorem flatten_mapIdx_splice (inserted : List UnicodeString) {lines : List UnicodeString} {i : Nat}
    (hi : i < lines.length) (p : Nat → Prop) [DecidablePred p] (hp : ∀ k, p k ↔ k = i) :
    (lines.mapIdx fun j l => if p j then inserted else [l]).flatten =
      lines.take i ++ inserted ++ lines.drop (i + 1) := by
  induction lines generalizing i p with
  | nil => simp at hi
  | cons line rest ih =>
    rw [List.mapIdx_cons, List.flatten_cons]
    cases i with
    | zero =>
      rw [if_pos ((hp 0).mpr rfl), flatten_mapIdx_of_not inserted (fun k => p (k + 1))
        fun k hk => by simpa using (hp (k + 1)).mp hk]
      simp
    | succ i =>
      rw [if_neg fun h0 => by simpa using (hp 0).mp h0,
        ih (by simpa using hi) (fun k => p (k + 1)) fun k => by simpa using hp (k + 1)]
      simp

theorem spliceLines_eq {lines : List UnicodeString} {i : Int} (h0 : 0 ≤ i) (hi : i < lines.length)
    (inserted : List UnicodeString) : spliceLines lines i inserted =
      lines.take i.toNat ++ inserted ++ lines.drop (i.toNat + 1) :=
  flatten_mapIdx_splice inserted (by omega) (fun k => (k : Int) = i) fun k => by omega

/-! ## Conditions on an edit -/

namespace UnicodeString

section
variable [Ucd]

/-- Inserting `s` adds a cluster. -/
def Takes (t : UnicodeString) (pos : Int) (s : Bytes) : Prop :=
  isSingleAsciiWidth1 s = true ∨ ReadsAs 1 (s ++ t.bytesAfter pos)

/-- Without cluster `i` the text still reads as `i` clusters, or it need not be read again. -/
def DeletesAt (t : UnicodeString) (i : Int) : Prop :=
  t.isAsciiAt i.toNat = true ∨
    ReadsAs i (t.bytes.take (t.offset i.toNat) ++ t.bytes.drop (t.stop i.toNat))

/-- The two texts, read as one, have the clusters of the first at least. -/
def JoinsWith (a b : UnicodeString) : Prop :=
  b.isEmpty = true ∨ ReadsAs a.length (a.bytes ++ b.bytes)

end

end UnicodeString

theorem closingBracket_single {c closing : Bytes} (h : Model.closingBracket c = some closing) :
    UnicodeString.isSingleAsciiWidth1 c = true ∧
      UnicodeString.isSingleAsciiWidth1 closing = true := by
  unfold Model.closingBracket at h
  split at h
  · rename_i hc
    cases h
    subst hc
    decide
  · split at h
    · rename_i hc
      cases h
      subst hc
      decide
    · split at h
      · rename_i hc
        cases h
        subst hc
        decide
      · cases h

section
variable [Ucd]

theorem wellFormed_readable (s : Bytes) : (readable s).WellFormed := by
  unfold readable
  split
  · rename_i u hu
    exact UnicodeString.wellFormed_of_ofString hu
  · exact UnicodeString.wellFormed_empty

theorem readable_length (s : Bytes) : (readable s).length = clusterCount s := by
  unfold readable clusterCount
  cases UnicodeString.ofString s with
  | ok u => rfl
  | error e => rfl

namespace Model

variable {m : Model}

/-- Lexing again after the lines between `startLine` and `endLine` have changed. -/
theorem Coherent.lexerUpdate {n : Model} {startLine endLine : Int} (h : m.Coherent) (cond : Prop)
    (hframe : m.Frame n) (hcache : n.input.lexCache = m.input.lexCache)
    (hwf : ∀ line ∈ n.input.lines, line.WellFormed) (h0 : 0 ≤ n.input.cursorLine)
    (hlt : n.input.cursorLine < n.input.lines.length) (hpos : 0 ≤ n.input.cursorPos)
    (hsame : n.input.lines.length = m.input.lines.length → ∀ k : Nat,
      (k : Int) < startLine ∨ endLine < (k : Int) → n.input.lines[k]? = m.input.lines[k]?)
    (hrange : m.InRange → cond → n.InRange) :
    Safe (n.lexerUpdate startLine endLine) fun m' => m.Edits cond m' ∧ m'.line = n.line ∧
      m'.input.cursorPos = n.input.cursorPos ∧ m'.input.cursorLine = n.input.cursorLine ∧
        m'.input.lines = n.input.lines := by
  have hkeep : n.input.lexCache.length = n.input.lines.length → ∀ k : Nat,
      (k : Int) < startLine ∨ endLine < (k : Int) →
        (LexerCache.texts n.input.lexCache)[k]? = (n.input.lines.map UnicodeString.toBytes)[k]? := by
    intro hlen k hk
    have hmlen : m.input.lexCache.length = m.input.lines.length := by
      have := congrArg List.length h.cached
      simpa [LexerCache.texts] using this
    rw [hcache] at hlen
    rw [hcache, h.cached, List.getElem?_map, List.getElem?_map,
      hsame (hlen.symm.trans hmlen) k hk]
  have hresult : ∀ cache, LexerCache.texts cache = n.input.lines.map UnicodeString.toBytes →
      (m.Lexed → Lexed { n with input.lexCache := cache }) →
      m.Edits cond { n with input.lexCache := cache } := fun cache htexts hlexed =>
    ⟨⟨hwf, h0, hlt, hpos, htexts⟩, hframe.trans ⟨rfl, rfl, rfl, rfl, rfl, rfl⟩, hlexed, hrange⟩
  have hcreate : RLexCache.create m.input.lines = .ok m.input.lexCache →
      RLexCache.update startLine endLine n.input.lines n.input.lexCache =
        RLexCache.create n.input.lines := by
    intro hlexed
    rw [hcache]
    refine LexerCache.update_eq_create RLexCache.lexer hlexed startLine endLine fun hlen k hk => ?_
    rw [List.getElem?_map, List.getElem?_map, hsame hlen k hk]
  have hsafe := RLexCache.update_safe _ _ _ _ hkeep
  unfold Model.lexerUpdate
  split
  · rename_i hmode
    refine hsafe.bind_eq fun cache hupdate htexts => ⟨hresult cache htexts ?_, rfl, rfl, rfl, rfl⟩
    unfold Lexed
    rw [← hframe.mode, hmode]
    exact fun hlexed => (hcreate hlexed).symm.trans hupdate
  · rename_i s hmode
    refine hsafe.bind_eq fun cache hupdate htexts => ⟨hresult cache htexts ?_, rfl, rfl, rfl, rfl⟩
    unfold Lexed
    rw [← hframe.mode, hmode]
    exact fun hlexed => (hcreate hlexed).symm.trans hupdate
  all_goals
    rename_i hmode
    refine ⟨hresult _ (RLexCache.texts_makeAllDefault _) ?_, rfl, rfl, rfl, rfl⟩
    unfold Lexed
    rw [← hframe.mode, hmode]
    exact fun _ => trivial

theorem Coherent.setCurrentLine (h : m.Coherent) {newLine : UnicodeString} {newPos : Int}
    (hwf : newLine.WellFormed) (hpos : 0 ≤ newPos) :
    Safe (m.setCurrentLine newLine newPos) fun m' => m.Edits (newPos ≤ newLine.length) m' ∧
      m'.line = newLine ∧ m'.input.cursorPos = newPos ∧ m'.input.cursorLine = m.input.cursorLine ∧
        m'.input.lines = updateLine m.input.lines m.input.cursorLine newLine := by
  have h0 := h.line_nonneg
  have hget : (updateLine m.input.lines m.input.cursorLine newLine)[m.input.cursorLine.toNat]? =
      some newLine := by
    rw [getElem?_updateLine, if_pos (by omega), h.getElem?_line]
    rfl
  refine Meets.mono (h.lexerUpdate (newPos ≤ newLine.length) ?_ rfl ?_ h0 ?_ hpos ?_ ?_)
    fun m' ⟨hedits, hline, hp, hl, hls⟩ =>
      ⟨hedits, hline.trans (line_of_getElem? hget), hp, hl, hls⟩
  · exact ⟨rfl, rfl, rfl, rfl, rfl, rfl⟩
  · intro l hl
    rcases mem_updateLine hl with rfl | hl
    · exact hwf
    · exact h.wellFormed l hl
  · rw [length_updateLine]
    exact h.line_lt
  · intro _ k hk
    rw [getElem?_updateLine, if_neg (by omega)]
  · exact fun _ hle => inRange_of_getElem? hget hle

theorem Coherent.insertChar (h : m.Coherent) (s : Bytes) :
    Safe (m.insertChar s) (m.Edits (m.line.Takes m.input.cursorPos s)) := by
  unfold Model.insertChar
  rw [h.currentLine]
  dsimp only [Bind.bind, Except.bind]
  split
  · exact (Edits.refl h).weaken fun _ _ => trivial
  · rename_i newLine hins
    have hpos := h.pos_nonneg
    obtain ⟨hwf, hcases⟩ := UnicodeString.insertString_cases h.line_wellFormed hpos hins
    refine (h.setCurrentLine hwf (by omega)).mono fun m' ⟨hedits, _⟩ => hedits.weaken fun hr htakes => ?_
    unfold InRange at hr
    rcases hcases with ⟨_, hlen⟩ | ⟨suffix, hsuffix, hslow, hlen⟩
    · omega
    · have := htakes.resolve_left (by simp [hslow]) suffix hsuffix
      omega

theorem Coherent.insertAscii (h : m.Coherent) {s : Bytes}
    (hs : UnicodeString.isSingleAsciiWidth1 s = true) : Safe (m.insertChar s) (m.Edits True) :=
  (h.insertChar s).mono fun _ hm' => hm'.weaken fun _ _ => .inl hs

/-- The line above or below, as an index gives it. -/
def lineAt (m : Model) (i : Int) : UnicodeString := m.input.lines.getD i.toNat .empty

/-- Deleting the cluster left of the cursor, or the line break, keeps the cursor in its line. -/
def Deletes (m : Model) : Prop :=
  if m.input.cursorPos = 0 then
    m.input.cursorLine = 0 ∨ (m.lineAt (m.input.cursorLine - 1)).JoinsWith m.line
  else m.line.DeletesAt (m.input.cursorPos - 1)

theorem Coherent.deleteChar (h : m.Coherent) :
    Safe m.deleteChar fun m' => m.Edits m.Deletes m' ∧
      (m.input.cursorPos ≠ 0 → m'.line = m.line.delete (m.input.cursorPos - 1) ∧
        m'.input.cursorPos = m.input.cursorPos - 1) := by
  have hpos := h.pos_nonneg
  have h0 := h.line_nonneg
  have hlt := h.line_lt
  unfold Model.deleteChar
  split
  · rename_i hstart
    have hzero : m.input.cursorPos = 0 := by simpa [atLineStart] using hstart
    split
    · exact ⟨(Edits.refl h).weaken fun _ _ => trivial, fun hne => absurd hzero hne⟩
    · rename_i hfirst
      have hne : m.input.cursorLine ≠ 0 := by simpa [atFirstLine] using hfirst
      refine (nth_safe _ _).bind fun prevLine hnth => ?_
      obtain ⟨-, hprev⟩ := hnth
      rw [h.currentLine]
      have hidx : m.input.cursorLine.toNat < m.input.lines.length := by omega
      have hprevwf := h.wellFormed prevLine (List.mem_of_getElem? hprev)
      have hget : (updateLine (m.input.lines.eraseIdx m.input.cursorLine.toNat)
          (m.input.cursorLine - 1) (prevLine.append m.line))[(m.input.cursorLine - 1).toNat]? =
            some (prevLine.append m.line) := by
        rw [getElem?_updateLine, if_pos (by omega), List.getElem?_eraseIdx_of_lt (by omega), hprev]
        rfl
      refine Meets.mono (h.lexerUpdate m.Deletes ?_ rfl ?_ ?_ ?_ (Int.natCast_nonneg _) ?_ ?_)
        fun m' hm => ⟨hm.1, fun hne => absurd hzero hne⟩
      · exact ⟨rfl, rfl, rfl, rfl, rfl, rfl⟩
      · intro l hl
        rcases mem_updateLine hl with rfl | hl
        · exact hprevwf.append h.line_wellFormed
        · exact h.wellFormed l (List.mem_of_mem_eraseIdx hl)
      · show 0 ≤ m.input.cursorLine - 1
        omega
      · show m.input.cursorLine - 1 < (updateLine _ _ _).length
        rw [length_updateLine, List.length_eraseIdx, if_pos hidx]
        omega
      · intro hlen
        rw [length_updateLine, List.length_eraseIdx, if_pos hidx] at hlen
        omega
      · intro _ hdel
        refine inRange_of_getElem? hget ?_
        rw [Deletes, if_pos hzero] at hdel
        have hjoin := hdel.resolve_left hne
        have hat : m.lineAt (m.input.cursorLine - 1) = prevLine := by
          simp only [lineAt, List.getD_eq_getElem?_getD]
          rw [hprev]
          rfl
        rw [hat] at hjoin
        have := hprevwf.le_length_append hjoin
        show (prevLine.length : Int) ≤ _
        omega
  · rename_i hstart
    have hne : m.input.cursorPos ≠ 0 := by simpa [atLineStart] using hstart
    rw [h.currentLine]
    refine (h.setCurrentLine (h.line_wellFormed.delete _) (by omega)).mono fun m' hm => ?_
    obtain ⟨hedits, hline, hp, -⟩ := hm
    refine ⟨hedits.weaken fun hr hdel => ?_, fun _ => ⟨hline, hp⟩⟩
    rw [Deletes, if_neg hne] at hdel
    unfold InRange at hr
    exact UnicodeString.le_length_delete (by omega) (by omega) hdel

/-- Lines put in place of the cursor's line, with the cursor on the last of them. -/
theorem Coherent.splice (h : m.Coherent) {inserted : List UnicodeString} {pos : Int}
    (hne : inserted ≠ []) (hwf : ∀ line ∈ inserted, line.WellFormed) (hpos : 0 ≤ pos) (cond : Prop)
    (hcond : m.InRange → cond → pos ≤ (inserted.getLast hne).length) :
    Safe ({ m with
      input.lines := spliceLines m.input.lines m.input.cursorLine inserted
      input.cursorLine := m.input.cursorLine + inserted.length - 1
      input.cursorPos := pos }.lexerUpdate m.input.cursorLine
        (m.input.cursorLine + inserted.length - 1)) (m.Edits cond) := by
  have h0 := h.line_nonneg
  have hlt := h.line_lt
  have hins := List.length_pos_iff.mpr hne
  have hsplice := spliceLines_eq h0 hlt inserted
  have hget : (spliceLines m.input.lines m.input.cursorLine inserted)[(m.input.cursorLine +
      inserted.length - 1).toNat]? = some (inserted.getLast hne) := by
    rw [hsplice, List.getElem?_append_left (by simp; omega),
      List.getElem?_append_right (by simp; omega), List.getLast_eq_getElem, List.length_take,
      List.getElem?_eq_getElem (by omega)]
    congr 2
    omega
  refine Meets.mono (h.lexerUpdate cond ?_ rfl ?_ ?_ ?_ hpos ?_ ?_) fun m' hm' => hm'.1
  · exact ⟨rfl, rfl, rfl, rfl, rfl, rfl⟩
  · intro l hl
    dsimp only at hl
    rw [hsplice, List.mem_append, List.mem_append] at hl
    rcases hl with (hl | hl) | hl
    · exact h.wellFormed l (List.mem_of_mem_take hl)
    · exact hwf l hl
    · exact h.wellFormed l (List.mem_of_mem_drop hl)
  · show 0 ≤ m.input.cursorLine + inserted.length - 1
    omega
  · show m.input.cursorLine + inserted.length - 1 < (spliceLines _ _ _).length
    rw [hsplice]
    simp only [List.length_append, List.length_take, List.length_drop]
    omega
  · intro hlen k hk
    dsimp only at hlen ⊢
    rw [hsplice] at hlen ⊢
    simp only [List.length_append, List.length_take, List.length_drop] at hlen
    obtain ⟨x, rfl⟩ : ∃ x, inserted = [x] := List.length_eq_one_iff.mp (by omega)
    simp only [List.length_singleton] at hk
    rcases hk with hk | hk
    · rw [List.append_assoc, List.getElem?_append_left (by simp; omega),
        List.getElem?_take_of_lt (by omega)]
    · rw [List.getElem?_append_right (by simp; omega), List.getElem?_drop]
      congr 1
      simp
      omega
  · exact fun hr hc => inRange_of_getElem? hget (hcond hr hc)

theorem Coherent.insertNewline (h : m.Coherent) : Safe m.insertNewline (m.Edits True) := by
  rw [Model.insertNewline, h.currentLine]
  have hsplit := h.line_wellFormed.split m.input.cursorPos
  have hidx : m.input.cursorLine + 1 = m.input.cursorLine +
      ([(m.line.split m.input.cursorPos).1, (m.line.split m.input.cursorPos).2].length : Int) - 1 := by
    simp only [List.length_cons, List.length_nil]
    omega
  dsimp only [Bind.bind, Except.bind]
  rw [hidx]
  refine h.splice (by simp) ?_ (Int.le_refl 0) True fun _ _ => Int.natCast_nonneg _
  intro l hl
  simp only [List.mem_cons, List.not_mem_nil, or_false] at hl
  rcases hl with rfl | rfl
  · exact hsplit.1
  · exact hsplit.2

/-- With a paste of one line the text has as many clusters as the cursor counts. -/
def Pastes (m : Model) (text : Bytes) : Prop :=
  match splitOnChar newline (text.take (5 * 1024)) with
  | [single] =>
    let (before, after) := m.line.split m.input.cursorPos
    m.input.cursorPos + clusterCount single ≤
      clusterCount (before.bytes ++ (readable single).bytes ++ after.bytes)
  | _ => True

theorem pastedLines_spec {before after : UnicodeString} {pos : Int} {pasteLines : List Bytes}
    (hbefore : before.WellFormed) (hafter : after.WellFormed) (hpos : 0 ≤ pos)
    (hne : pasteLines ≠ []) :
    (pastedLines before after pos pasteLines).1.length = pasteLines.length ∧
      (∀ line ∈ (pastedLines before after pos pasteLines).1, line.WellFormed) ∧
      0 ≤ (pastedLines before after pos pasteLines).2 := by
  match pasteLines, hne with
  | [single], _ =>
    refine ⟨rfl, ?_, ?_⟩
    · intro l hl
      rw [List.mem_singleton.mp hl]
      exact UnicodeString.wellFormed_concat _
    · show 0 ≤ pos + ((readable single).length : Int)
      omega
  | first :: second :: rest, _ =>
    refine ⟨?_, ?_, Int.natCast_nonneg _⟩
    · simp [pastedLines]
    · intro l hl
      simp only [pastedLines, List.cons_append, List.mem_cons, List.mem_append, List.mem_map,
        List.not_mem_nil, or_false] at hl
      rcases hl with rfl | ⟨s, _, rfl⟩ | rfl
      · exact hbefore.append (wellFormed_readable _)
      · exact wellFormed_readable _
      · exact (wellFormed_readable _).append hafter

/-- Appending to what has just been read keeps its clusters. -/
theorem readable_joinsWith (s : Bytes) {b : UnicodeString} (hb : b.WellFormed) :
    (readable s).JoinsWith b := by
  refine .inr fun u hu => ?_
  obtain ⟨ds, hds⟩ := hb.decodes
  have hcount := UnicodeString.clusterCount_append_le (readable s).bytes ds
  rw [← hds, UnicodeString.clusterCount_of_ok hu] at hcount
  unfold readable at hcount ⊢
  split
  · rename_i t ht
    rw [ht] at hcount
    rcases UnicodeString.bytes_of_ofString ht with rfl | hbytes
    · exact Int.natCast_nonneg _
    · dsimp only at hcount
      rw [hbytes, UnicodeString.clusterCount_of_ok ht] at hcount
      exact Int.ofNat_le.mpr hcount
  · exact Int.natCast_nonneg _

theorem pastedLines_inRange {before after : UnicodeString} {pos : Int} {pasteLines : List Bytes}
    (hafter : after.WellFormed) (hne : (pastedLines before after pos pasteLines).1 ≠ [])
    (hlines : pasteLines ≠ [])
    (hsingle : ∀ single, pasteLines = [single] → pos + clusterCount single ≤
      clusterCount (before.bytes ++ (readable single).bytes ++ after.bytes)) :
    (pastedLines before after pos pasteLines).2 ≤
      ((pastedLines before after pos pasteLines).1.getLast hne).length := by
  match pasteLines, hlines with
  | [single], _ =>
    have := hsingle single rfl
    show pos + ((readable single).length : Int) ≤
      ((UnicodeString.concat [before, readable single, after]).length : Int)
    rw [UnicodeString.concat_length, readable_length]
    simp only [List.flatMap_cons, List.flatMap_nil, List.append_nil, UnicodeString.toBytes]
    rw [← List.append_assoc]
    exact this
  | first :: second :: rest, _ =>
    have hlast := (wellFormed_readable ((second :: rest).getLastD [])).le_length_append
      (readable_joinsWith _ hafter)
    simp only [pastedLines, List.getLast_append, List.getLast_singleton]
    exact Int.ofNat_le.mpr hlast

theorem Coherent.insertPaste (h : m.Coherent) (text : Bytes) :
    Safe (m.insertPaste text) (m.Edits (m.Pastes text)) := by
  rw [Model.insertPaste, h.currentLine]
  have hsplit := h.line_wellFormed.split m.input.cursorPos
  have hlines := splitOnChar_ne_nil newline (text.take (5 * 1024))
  obtain ⟨hlen, hwf, hpos⟩ := pastedLines_spec hsplit.1 hsplit.2 h.pos_nonneg hlines
  have hne : (pastedLines (m.line.split m.input.cursorPos).1 (m.line.split m.input.cursorPos).2
      m.input.cursorPos (splitOnChar newline (text.take (5 * 1024)))).1 ≠ [] := by
    intro hnil
    rw [hnil] at hlen
    exact hlines (List.length_eq_zero_iff.mp hlen.symm)
  dsimp only [Bind.bind, Except.bind]
  rw [← hlen]
  refine h.splice hne hwf hpos _ fun _ hpaste => ?_
  refine pastedLines_inRange hsplit.2 hne hlines fun single hs => ?_
  rw [Pastes, hs] at hpaste
  exact hpaste

/-- Typing a pair of ASCII characters and stepping back between them. -/
theorem Coherent.insertPair (h : m.Coherent) {s s' : Bytes}
    (hs : UnicodeString.isSingleAsciiWidth1 s = true)
    (hs' : UnicodeString.isSingleAsciiWidth1 s' = true) :
    Safe (do (← (← m.insertChar s).insertChar s').moveLeft) (m.Edits True) := by
  refine (h.insertAscii hs).bind fun m₁ h₁ => ?_
  refine (h₁.coherent.insertAscii hs').bind fun m₂ h₂ => ?_
  refine h₂.coherent.moveLeft.mono fun m₃ h₃ => ?_
  have h₁₂ : m.Edits True m₂ := h₁.trans h₂ fun _ _ => ⟨trivial, fun _ => trivial⟩
  exact h₁₂.trans h₃ fun _ _ => ⟨trivial, fun _ => trivial⟩

theorem Coherent.userInputChar (h : m.Coherent) (c : Bytes) :
    Safe (m.userInputChar c) (m.Edits (m.line.Takes m.input.cursorPos c)) := by
  have hmove : ∀ {m'}, m.Edits True m' → m.Edits (m.line.Takes m.input.cursorPos c) m' :=
    fun h' => h'.weaken fun _ _ => trivial
  have hplain := h.insertChar c
  unfold Model.userInputChar
  split
  · rename_i closing hc
    obtain ⟨hs, hs'⟩ := closingBracket_single hc
    refine h.shouldAutoPair_safe.bind fun pair _ => ?_
    split
    · exact hplain
    · exact (h.insertPair hs hs').mono fun _ => hmove
  · split
    · rw [h.atLineEnd]
      show Safe (if _ then _ else _) _
      split
      · exact hplain
      · refine h.charAt_safe.bind fun s _ => ?_
        split
        · split
          · exact h.moveRight.mono fun _ => hmove
          · exact hplain
        · exact hplain
    · split
      · rename_i hquote
        have hs : UnicodeString.isSingleAsciiWidth1 c = true := by
          simp only [List.contains_cons, List.contains_nil, Bool.or_false, Bool.or_eq_true,
            beq_iff_eq] at hquote
          rcases hquote with rfl | rfl <;> decide
        have htype : Safe (do
            if ← m.shouldAutoPair then (← (← m.insertChar c).insertChar c).moveLeft
            else m.insertChar c) (m.Edits (m.line.Takes m.input.cursorPos c)) := by
          refine h.shouldAutoPair_safe.bind fun pair _ => ?_
          split
          · exact (h.insertPair hs hs).mono fun _ => hmove
          · exact hplain
        refine h.charAt_safe.bind fun s _ => ?_
        split
        · split
          · exact h.moveRight.mono fun _ => hmove
          · exact htype
        · exact htype
      · exact hplain

/-- The clusters around the cursor start with a bracket or quote and the one that closes it. -/
def pairAtCursor (m : Model) : Bool :=
  match m.line.clusterAt (m.input.cursorPos - 1), m.line.clusterAt m.input.cursorPos with
  | .ok (b :: _), .ok (a :: _) => isMatchedPair b a
  | _, _ => false

/-- The condition for Backspace, which takes both halves of a pair, the right one first. -/
def DeletesBack (m : Model) : Prop :=
  if m.pairAtCursor = true then m.input.cursorPos - 1 ≤
    ((m.line.delete m.input.cursorPos).delete (m.input.cursorPos - 1)).length
  else m.Deletes

theorem Coherent.userInputDelete (h : m.Coherent) :
    Safe m.userInputDelete (m.Edits m.DeletesBack) := by
  have hplain : m.pairAtCursor = false → Safe m.deleteChar (m.Edits m.DeletesBack) := fun hpair =>
    h.deleteChar.mono fun m' hm' => hm'.1.weaken fun _ hback => by
      rw [DeletesBack, if_neg (by simp [hpair])] at hback
      exact hback
  have hpos := h.pos_nonneg
  unfold Model.userInputDelete
  split
  · rename_i hstart
    have hzero : m.input.cursorPos = 0 := by simpa [atLineStart] using hstart
    refine hplain ?_
    unfold pairAtCursor
    rw [UnicodeString.clusterAt, if_neg (by omega)]
  · rename_i hstart
    have hne : m.input.cursorPos ≠ 0 := by simpa [atLineStart] using hstart
    rw [h.atLineEnd]
    show Safe (if _ then _ else _) _
    split
    · rename_i hend
      have hge : (m.line.length : Int) ≤ m.input.cursorPos := by simpa using hend
      refine hplain ?_
      unfold pairAtCursor
      rw [UnicodeString.clusterAt.eq_def _ m.input.cursorPos, if_neg (by omega)]
      split
      · rename_i heq
        cases heq
      · rfl
    · rename_i hend
      have hlt : m.input.cursorPos < m.line.length := by simpa using hend
      refine h.charBefore_safe.bind fun before hbefore => ?_
      refine h.charAt_safe.bind fun after hafter => ?_
      obtain ⟨_, hzero⟩ | ⟨beforeS, rfl, hb⟩ := hbefore
      · exact absurd hzero hne
      · obtain ⟨_, hge⟩ | ⟨atS, rfl, ha⟩ := hafter
        · exact absurd hge (by omega)
        refine (firstByte_safe _).bind fun b hfirst => ?_
        refine (firstByte_safe _).bind fun a hnext => ?_
        obtain ⟨_, hb'⟩ := hfirst
        obtain ⟨_, ha'⟩ := hnext
        subst hb' ha'
        have hpair : m.pairAtCursor = isMatchedPair b a := by rw [pairAtCursor, hb, ha]
        split
        · rename_i hmatched
          have hright := h.moveRight
          rw [h.moveRight_eq hlt] at hright ⊢
          have h₁ : m.Edits True { m with input.cursorPos := m.input.cursorPos + 1 } := hright
          refine h₁.coherent.deleteChar.bind fun m₂ hdeleted => ?_
          obtain ⟨h₂, hm₂⟩ := hdeleted
          obtain ⟨hline, hp⟩ := hm₂ (show m.input.cursorPos + 1 ≠ 0 by omega)
          refine h₂.coherent.deleteChar.mono fun m₃ hdeleted => ?_
          obtain ⟨h₃, hm₃⟩ := hdeleted
          have hp' : m₂.input.cursorPos = m.input.cursorPos := by
            rw [hp]
            exact Int.add_sub_cancel _ _
          have hline' : m₂.line = m.line.delete m.input.cursorPos := by
            rw [hline]
            show m.line.delete (m.input.cursorPos + 1 - 1) = _
            rw [Int.add_sub_cancel]
          obtain ⟨hline₃, hp₃⟩ := hm₃ (hp' ▸ hne)
          refine ⟨h₃.coherent, h₁.frame.trans (h₂.frame.trans h₃.frame),
            h₃.lexed ∘ h₂.lexed ∘ h₁.lexed, fun _ hback => ?_⟩
          rw [DeletesBack, if_pos (hpair.trans hmatched)] at hback
          rw [InRange, hline₃, hp₃, hline', hp']
          exact hback
        · rename_i hmatched
          exact hplain (hpair.trans (by simpa using hmatched))

theorem Coherent.deleteBeforeCursor (h : m.Coherent) :
    Safe m.deleteBeforeCursor (m.Edits (m.input.cursorPos = 0 → m.Deletes)) := by
  unfold Model.deleteBeforeCursor
  split
  · rename_i hstart
    have hzero : m.input.cursorPos = 0 := by simpa [atLineStart] using hstart
    exact h.deleteChar.mono fun m' hm' => hm'.1.weaken fun _ hdel => hdel hzero
  · rw [h.currentLine]
    exact (h.setCurrentLine (h.line_wellFormed.deleteRange _ _) (Int.le_refl 0)).mono
      fun m' hm' => hm'.1.weaken fun _ _ => Int.natCast_nonneg _

/-- The condition for deleting what follows the cursor. -/
def DeletesAfter (m : Model) : Prop :=
  if m.input.cursorPos < m.line.length then m.line.DeletesAt m.input.cursorPos
  else m.atLastLine = true ∨ m.line.JoinsWith (m.lineAt (m.input.cursorLine + 1))

theorem Coherent.deleteCharAfterCursor (h : m.Coherent) :
    Safe m.deleteCharAfterCursor (m.Edits m.DeletesAfter) := by
  have hpos := h.pos_nonneg
  have h0 := h.line_nonneg
  have hright := h.moveRight
  unfold Model.deleteCharAfterCursor
  by_cases hlt : m.input.cursorPos < m.line.length
  · rw [h.moveRight_eq hlt] at hright ⊢
    have h₁ : m.Edits True { m with input.cursorPos := m.input.cursorPos + 1 } := hright
    show Safe (if _ then _ else _) _
    split
    · exact (Edits.refl h).weaken fun _ _ => trivial
    · refine h₁.coherent.deleteChar.mono fun m₂ hm₂ => h₁.trans hm₂.1 fun _ hafter => ?_
      rw [DeletesAfter, if_pos hlt] at hafter
      refine ⟨trivial, fun _ => ?_⟩
      rw [Deletes, if_neg (show m.input.cursorPos + 1 ≠ 0 by omega)]
      show m.line.DeletesAt (m.input.cursorPos + 1 - 1)
      rw [Int.add_sub_cancel]
      exact hafter
  · rw [Model.moveRight, h.atLineEnd] at hright ⊢
    dsimp only [Bind.bind, Except.bind] at hright ⊢
    rw [if_neg (by simpa using hlt)] at hright ⊢
    by_cases hlast : m.atLastLine = true
    · rw [if_neg (by simp [hlast])]
      show Safe (if _ then _ else _) _
      rw [if_pos (by simp [sameCursorPos])]
      exact (Edits.refl h).weaken fun _ _ => trivial
    · rw [if_pos (by simpa using hlast)] at hright ⊢
      have h₁ : m.Edits True { m with
          input.cursorLine := m.input.cursorLine + 1, input.cursorPos := 0 } := hright
      show Safe (if _ then _ else _) _
      rw [if_neg fun hsame => by
        simp only [sameCursorPos, Bool.and_eq_true, decide_eq_true_eq] at hsame
        omega]
      refine h₁.coherent.deleteChar.mono fun m₂ hm₂ => h₁.trans hm₂.1 fun _ hafter => ?_
      rw [DeletesAfter, if_neg hlt] at hafter
      refine ⟨trivial, fun _ => ?_⟩
      rw [Deletes, if_pos rfl]
      refine .inr ?_
      have hline : ({ m with input.cursorLine := m.input.cursorLine + 1, input.cursorPos := 0 } :
          Model).lineAt (m.input.cursorLine + 1 - 1) = m.line := by
        rw [Int.add_sub_cancel]
        rfl
      show UnicodeString.JoinsWith (lineAt _ (m.input.cursorLine + 1 - 1)) _
      rw [hline]
      exact hafter.resolve_left hlast

/-- With the range replaced the text has as many clusters as the cursor counts. -/
def Replaces (m : Model) (startPos endPos : Int) (text : Bytes) : Prop :=
  let startPos := max 0 startPos
  let afterStart := min (max startPos endPos) m.line.length
  startPos + clusterCount text ≤ clusterCount ((m.line.sub 0 startPos).bytes ++
    (readable text).bytes ++ (m.line.sub afterStart (m.line.length - afterStart)).bytes)

theorem Coherent.replaceRange (h : m.Coherent) (startPos endPos : Int) (text : Bytes) :
    Safe (m.replaceRange startPos endPos text) fun m' =>
      m.Edits (m.Replaces startPos endPos text) m' ∧
        (m.Replaces startPos endPos text → m'.InRange) ∧
        m'.input.cursorPos = max 0 startPos + clusterCount text := by
  rw [Model.replaceRange, h.currentLine]
  refine (h.setCurrentLine (UnicodeString.wellFormed_concat _) (by omega)).mono
    fun m' ⟨hedits, hline, hpos, _⟩ => ?_
  rw [readable_length] at hpos
  suffices hrange : m.Replaces startPos endPos text → m'.InRange from
    ⟨⟨hedits.coherent, hedits.frame, hedits.lexed, fun _ => hrange⟩, hrange, hpos⟩
  intro hreplaces
  rw [InRange, hline, hpos, UnicodeString.concat_length]
  simp only [List.flatMap_cons, List.flatMap_nil, List.append_nil, UnicodeString.toBytes]
  rw [← List.append_assoc]
  exact hreplaces

end Model

end

end Raoui
