import Raoui.Editor.FlatEdit

/-!
# Raoui.Editor.Prompt

The prompt of a model in normal mode: its lines with their tokens, and the cursor. An operation of
the text editor takes one prompt to another, whatever Unicode text the lines are.

* `withPrompt`: the model with other lines, lexed, and the cursor somewhere in them.
* `Prompt`: a model that is another one with such a prompt. Every operation has a rule on it.
* `Prompt.insertChar_split`: typing an ASCII character puts a cluster between the others.
-/

namespace Raoui

open Outcome (bind_eq_ok)

/-! ## A line cut at the cursor -/

namespace UnicodeString

open Utf8 (encode)

/-- The line after typing `s` at `pos`, the same line if that cannot be read. -/
def typed [Ucd] (t : UnicodeString) (pos : Int) (s : Bytes) : UnicodeString :=
  match t.insertString pos s with
  | .ok t' => t'
  | .error _ => t

/-- The cluster of an ASCII character. -/
def ascii (c : UInt8) : Cluster := ([Char.ofUInt8 c], 1)

section
variable {lead : List Char} {l r : List Cluster} {s : Cluster} {c : UInt8}

theorem encode_ascii_cluster (hc : 32 ≤ c ∧ c < 127) : encode (ascii c).1 = [c] :=
  encode_ascii (lt_of_printable hc)

theorem offset_split (r : List Cluster) :
    (ofClusters lead (l ++ s :: r)).offset l.length = (encode (lead ++ text l)).length := by
  rw [offset_ofClusters (by simp), List.take_left]

theorem stop_split (r : List Cluster) : (ofClusters lead (l ++ s :: r)).stop l.length =
    (encode (lead ++ text l)).length + (encode s.1).length := by
  have htake : (l ++ s :: r).take (l.length + 1) = l ++ [s] := by
    rw [List.take_length_add_append, List.take_one]
    rfl
  rw [stop_ofClusters, htake, text_append, text_cons, text_nil, List.append_nil,
    ← List.append_assoc, Utf8.encode_append, List.length_append]

theorem bytes_split (r : List Cluster) : (ofClusters lead (l ++ s :: r)).bytes =
    encode (lead ++ text l) ++ (encode s.1 ++ encode (text r)) := by
  rw [bytes_ofClusters, text_append, text_cons, ← List.append_assoc, Utf8.encode_append,
    Utf8.encode_append s.1]

theorem clusterAt_split (r : List Cluster) :
    (ofClusters lead (l ++ s :: r)).clusterAt l.length = .ok (encode s.1) := by
  rw [clusterAt, if_pos (by simp), Int.toNat_natCast, offset_split, stop_split, bytes_split, slice,
    Nat.add_sub_cancel_left, List.drop_left, List.take_left]

variable [Ucd]

theorem typed_split (hc : 32 ≤ c ∧ c < 127) : (ofClusters lead (l ++ r)).typed l.length [c] =
    ofClusters lead (l ++ ascii c :: r) := by
  have hok : 0 ≤ (l.length : Int) ∧ isSingleAsciiWidth1 [c] = true :=
    ⟨Int.natCast_nonneg _, isSingleAsciiWidth1_iff.mpr ⟨c, rfl, hc⟩⟩
  have hmin : (min (l.length : Int) (l ++ r).length).toNat = l.length := by
    rw [List.length_append]
    omega
  rw [typed, insertString, dif_pos hok, insertAsciiWidth1_ofClusters hok (lt_of_printable hc), hmin,
    List.take_left, List.drop_left]
  rfl

end

end UnicodeString

/-! ## Prompts -/

namespace Model

open UnicodeString (Cluster ascii isSingleAsciiWidth1 ofClusters)

section
variable [Ucd]

/-- The lexer gets through the lines. -/
def Lexes (lines : List UnicodeString) : Prop := ∃ cache, RLexCache.create lines = .ok cache

def withPrompt (m : Model) (lines : List UnicodeString) (line pos : Int) : Res Model := do
  let lexCache ← RLexCache.create lines
  return { m with
    input.lines := lines
    input.lexCache := lexCache
    input.cursorLine := line
    input.cursorPos := pos }

variable {m n n' : Model} {above below : List UnicodeString} {t : UnicodeString} {pos : Int}
  {c : Bytes}

theorem withPrompt_eq_ok {lines : List UnicodeString} {line : Int} :
    m.withPrompt lines line pos = .ok n ↔ ∃ cache, RLexCache.create lines = .ok cache ∧
      { m with
        input.lines := lines
        input.lexCache := cache
        input.cursorLine := line
        input.cursorPos := pos } = n := by
  rw [withPrompt, bind_eq_ok]
  simp only [pure, Except.pure, Except.ok.injEq]

theorem lexes_iff {lines : List UnicodeString} {line : Int} :
    Lexes lines ↔ ∃ n, m.withPrompt lines line pos = .ok n := by
  constructor
  · rintro ⟨cache, hcache⟩
    exact ⟨_, withPrompt_eq_ok.mpr ⟨cache, hcache, rfl⟩⟩
  · rintro ⟨n, hn⟩
    obtain ⟨cache, hcache, -⟩ := withPrompt_eq_ok.mp hn
    exact ⟨cache, hcache⟩

/-- In normal mode `n` is `m` with the line `t` between `above` and `below` and the cursor at `pos`
of it. -/
structure Prompt (m n : Model) (above : List UnicodeString) (t : UnicodeString) (pos : Int)
    (below : List UnicodeString) : Prop where
  mode : m.input.mode = .normal
  shows : m.withPrompt (above ++ t :: below) above.length pos = .ok n

namespace Prompt

variable (h : m.Prompt n above t pos below)
include h

theorem fields : n.input.lines = above ++ t :: below ∧ n.input.cursorLine = above.length ∧
    n.input.cursorPos = pos ∧ RLexCache.create n.input.lines = .ok n.input.lexCache ∧
    n.input.mode = .normal := by
  obtain ⟨cache, hcache, rfl⟩ := withPrompt_eq_ok.mp h.shows
  exact ⟨rfl, rfl, rfl, hcache, h.mode⟩

/-- A prompt of `n` is one of `m`. -/
theorem withPrompt (lines : List UnicodeString) (line pos' : Int) :
    n.withPrompt lines line pos' = m.withPrompt lines line pos' := by
  obtain ⟨cache, -, rfl⟩ := withPrompt_eq_ok.mp h.shows
  rfl

theorem goesTo {t' : UnicodeString} {pos' : Int}
    (h' : m.withPrompt (above ++ t' :: below) above.length pos' = .ok n') :
    m.Prompt n' above t' pos' below := ⟨h.mode, h'⟩

theorem currentLine : n.currentLine = .ok t := by
  obtain ⟨hlines, hline, -⟩ := h.fields
  refine nth_eq (by omega) ?_
  rw [hlines, hline, Int.toNat_natCast, List.getElem?_append_right (Nat.le_refl _), Nat.sub_self]
  rfl

theorem atLineStart : n.atLineStart = decide (pos = 0) := by
  rw [Model.atLineStart, h.fields.2.2.1]

theorem atLineEnd : n.atLineEnd = .ok (decide (pos ≥ t.length)) := by
  rw [Model.atLineEnd, lineLength, h.currentLine, h.fields.2.2.1]
  rfl

theorem charAt : n.charAt =
    if pos ≥ t.length then .ok none else some <$> t.clusterAt pos := by
  rw [Model.charAt, h.currentLine, h.fields.2.2.1]
  rfl

theorem charBefore : n.charBefore =
    if pos = 0 then .ok none else some <$> t.clusterAt (pos - 1) := by
  rw [Model.charBefore, h.currentLine, h.fields.2.2.1]
  rfl

/-- The cursor elsewhere in the same lines. -/
theorem moved (line pos' : Int) :
    .ok { n with input.cursorLine := line, input.cursorPos := pos' } =
      m.withPrompt (above ++ t :: below) line pos' := by
  obtain ⟨cache, hcache, rfl⟩ := withPrompt_eq_ok.mp h.shows
  rw [Model.withPrompt, hcache]
  rfl

theorem moveLeft (hpos : pos ≠ 0) :
    n.moveLeft = m.withPrompt (above ++ t :: below) above.length (pos - 1) := by
  have hstart : n.atLineStart = false := by
    rw [h.atLineStart]
    exact decide_eq_false hpos
  obtain ⟨-, hline, hp, -⟩ := h.fields
  rw [Model.moveLeft, hstart, ← h.moved, ← hline, ← hp]
  rfl

theorem moveRight (hpos : pos < t.length) :
    n.moveRight = m.withPrompt (above ++ t :: below) above.length (pos + 1) := by
  have hend : n.atLineEnd = .ok false := by
    rw [h.atLineEnd, decide_eq_false (by omega)]
  obtain ⟨-, hline, hp, -⟩ := h.fields
  rw [Model.moveRight, hend, ← h.moved, ← hline, ← hp]
  rfl

theorem goToLineEnd :
    n.goToLineEnd = m.withPrompt (above ++ t :: below) above.length t.length := by
  obtain ⟨-, hline, -⟩ := h.fields
  rw [Model.goToLineEnd, lineLength, h.currentLine, ← h.moved, ← hline]
  rfl

/-- Lexing again after lines have changed gives what lexing them all does. -/
theorem lexerUpdate {lines : List UnicodeString} {line pos' startLine endLine : Int}
    (hsame : lines.length = (above ++ t :: below).length → ∀ k : Nat,
      (k : Int) < startLine ∨ endLine < k → lines[k]? = (above ++ t :: below)[k]?) :
    { n with
      input.lines := lines
      input.cursorLine := line
      input.cursorPos := pos' }.lexerUpdate startLine endLine = m.withPrompt lines line pos' := by
  obtain ⟨hlines, -, -, hcache, hmode⟩ := h.fields
  rw [hlines] at hcache
  have hupdate : RLexCache.update startLine endLine lines n.input.lexCache =
      RLexCache.create lines := by
    refine LexerCache.update_eq_create RLexCache.lexer hcache startLine endLine fun hlen k hk => ?_
    rw [List.getElem?_map, List.getElem?_map, hsame hlen k hk]
  rw [← h.withPrompt]
  simp only [Model.lexerUpdate, Model.withPrompt, hmode, hupdate]

theorem setCurrentLine (t' : UnicodeString) (pos' : Int) :
    n.setCurrentLine t' pos' = m.withPrompt (above ++ t' :: below) above.length pos' := by
  obtain ⟨hlines, hline, -⟩ := h.fields
  have hupdated : updateLine n.input.lines n.input.cursorLine t' = above ++ t' :: below := by
    rw [hlines, hline, updateLine_split]
  rw [Model.setCurrentLine, hupdated, ← hline]
  refine h.lexerUpdate fun _ k hk => ?_
  rw [← updateLine_split above t t', getElem?_updateLine, if_neg (by omega)]

theorem insertChar (hc : isSingleAsciiWidth1 c = true) (hpos : 0 ≤ pos) : n.insertChar c =
    m.withPrompt (above ++ t.typed pos c :: below) above.length (pos + 1) := by
  have hinsert : t.insertString pos c = .ok (t.typed pos c) := by
    rw [UnicodeString.typed, UnicodeString.insertString, dif_pos ⟨hpos, hc⟩]
  rw [Model.insertChar, h.currentLine, h.fields.2.2.1]
  simp only [bind, Except.bind, hinsert]
  exact h.setCurrentLine _ _

theorem deleteChar (hpos : pos ≠ 0) : n.deleteChar =
    m.withPrompt (above ++ t.delete (pos - 1) :: below) above.length (pos - 1) := by
  have hstart : n.atLineStart = false := by
    rw [h.atLineStart]
    exact decide_eq_false hpos
  rw [Model.deleteChar, hstart, h.currentLine, h.fields.2.2.1]
  exact h.setCurrentLine _ _

theorem insertNewline : n.insertNewline =
    m.withPrompt (above ++ (t.split pos).1 :: (t.split pos).2 :: below) (above.length + 1) 0 := by
  obtain ⟨hlines, hline, hp, -⟩ := h.fields
  have hspliced : spliceLines n.input.lines above.length [(t.split pos).1, (t.split pos).2] =
      above ++ (t.split pos).1 :: (t.split pos).2 :: below := by
    rw [hlines, spliceLines_eq (Int.natCast_nonneg _) (by simp), Int.toNat_natCast]
    simp [List.drop_append]
  rw [Model.insertNewline, h.currentLine, hp]
  simp only [bind, Except.bind, hline]
  rw [hspliced]
  refine h.lexerUpdate fun hlen => ?_
  simp only [List.length_append, List.length_cons] at hlen
  omega

end Prompt

/-! ## Typing between clusters -/

section
variable {lead : List Char} {l r : List Cluster} {s : Cluster} {b : UInt8}

/-- The cursor's line with these clusters at the cursor. -/
def linesWith (above : List UnicodeString) (lead : List Char) (cs : List Cluster)
    (below : List UnicodeString) : List UnicodeString := above ++ ofClusters lead cs :: below

theorem Prompt.insertChar_split (hb : 32 ≤ b ∧ b < 127)
    (h : m.Prompt n above (ofClusters lead (l ++ r)) l.length below) :
    n.insertChar [b] = m.withPrompt (linesWith above lead (l ++ ascii b :: r) below) above.length
      (l.length + 1) := by
  have hsingle : UnicodeString.isSingleAsciiWidth1 [b] = true :=
    UnicodeString.isSingleAsciiWidth1_iff.mpr ⟨b, rfl, hb⟩
  rw [h.insertChar hsingle (Int.natCast_nonneg _), UnicodeString.typed_split hb]
  rfl

omit [Ucd] in
theorem length_concat (l : List Cluster) (s : Cluster) :
    ((l ++ [s]).length : Int) = l.length + 1 := by
  rw [List.length_append, List.length_singleton, Int.natCast_add, Int.natCast_one]

/-- The cursor behind the next cluster, with that one among the clusters before it. -/
theorem Prompt.behind (h : m.Prompt n above (ofClusters lead (l ++ s :: r)) (l.length + 1) below) :
    m.Prompt n above (ofClusters lead ((l ++ [s]) ++ r)) (l ++ [s]).length below := by
  rwa [List.append_assoc, List.singleton_append, length_concat]

end

/-- A coherent model is its own prompt. -/
theorem exists_prompt (hmode : m.input.mode = .normal) (hinv : m.invariants = true)
    (hlexed : RLexCache.create m.input.lines = .ok m.input.lexCache) :
    ∃ above below, m.input.lines = above ++ m.line :: below ∧
      m.Prompt m above m.line m.input.cursorPos below ∧ 0 ≤ m.input.cursorPos ∧
        m.input.cursorPos ≤ m.line.length := by
  simp only [invariants, hmode, Bool.and_eq_true, decide_eq_true_eq] at hinv
  obtain ⟨⟨⟨⟨-, h0⟩, hlt⟩, hpos⟩, hle⟩ := hinv
  have hidx : m.input.cursorLine.toNat < m.input.lines.length := by omega
  have hline : m.line = m.input.lines[m.input.cursorLine.toNat] := by
    rw [line, List.getD_eq_getElem?_getD, List.getElem?_eq_getElem hidx]
    rfl
  have hsplit : m.input.lines = m.input.lines.take m.input.cursorLine.toNat ++
      m.line :: m.input.lines.drop (m.input.cursorLine.toNat + 1) := by
    rw [hline, List.cons_getElem_drop_succ, List.take_append_drop]
  refine ⟨_, _, hsplit, ⟨hmode, ?_⟩, hpos, hle⟩
  have hlen : ((m.input.lines.take m.input.cursorLine.toNat).length : Int) =
      m.input.cursorLine := by
    rw [List.length_take]
    omega
  rw [← hsplit, hlen]
  exact withPrompt_eq_ok.mpr ⟨_, hlexed, rfl⟩

/-- Its line is cut at the cursor, between two clusters. -/
theorem exists_prompt_split (hmode : m.input.mode = .normal)
    (hwf : ∀ line ∈ m.input.lines, line.WellFormed) (hinv : m.invariants = true)
    (hlexed : RLexCache.create m.input.lines = .ok m.input.lexCache) :
    ∃ above below lead l r, (∀ c ∈ l ++ r, c.1 ≠ []) ∧ m.line = ofClusters lead (l ++ r) ∧
      m.input.cursorPos = l.length ∧
        m.Prompt m above (ofClusters lead (l ++ r)) l.length below := by
  obtain ⟨above, below, hlines, h, h0, hle⟩ := exists_prompt hmode hinv hlexed
  obtain ⟨lead, cs, hcs, hline⟩ := hwf m.line (by rw [hlines]; simp)
  rw [hline, UnicodeString.length_ofClusters] at hle
  have hlen : m.input.cursorPos = (cs.take m.input.cursorPos.toNat).length := by
    rw [List.length_take]
    omega
  have hsplit := List.take_append_drop m.input.cursorPos.toNat cs
  generalize cs.take m.input.cursorPos.toNat = l at hlen hsplit
  generalize cs.drop m.input.cursorPos.toNat = r at hsplit
  subst hsplit
  rw [hline, hlen] at h
  exact ⟨above, below, lead, l, r, hcs, hline, hlen, h⟩

end
end Model
end Raoui
