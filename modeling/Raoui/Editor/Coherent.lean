import Raoui.Editor.TextEditor
import Raoui.Lexer.Incremental
import Raoui.Lexer.Step
import Raoui.Lib.Outcome
import Raoui.Text.Clusters

/-!
# Raoui.Editor.Coherent

What the editing functions keep. A model is coherent when its lines are well formed, the cursor is
on one of them, and the lexer's cache holds their texts. Every edit keeps it coherent without
tripping an assertion, and touches nothing else of the model. That the cursor stays within its line
takes more: an edit after which the text left of the cursor reads as fewer clusters can leave it
behind the end.

* `Safe`: no assertion fails, and the result satisfies the postcondition.
* `Edits`: the postcondition of an editing function, with the condition for the cursor.
-/

namespace Raoui

open Outcome (Meets)
open UnicodeString (WellFormed clusterCount)

abbrev Safe {α : Type} (x : Res α) (post : α → Prop) : Prop := Meets (· = .assertFailure) x post

/-- If the computation returns, the result satisfies the postcondition. -/
abbrev Yields {α : Type} (x : Res α) (post : α → Prop) : Prop := Meets (fun _ => False) x post

theorem Yields.any {α : Type} (x : Res α) : Yields x fun _ => True := by
  cases x with
  | ok a => trivial
  | error e => exact not_false

theorem Yields.of_ok {α : Type} {x : Res α} {post : α → Prop} (h : ∀ a, x = .ok a → post a) :
    Yields x post := by
  cases x with
  | ok a => exact h a rfl
  | error e => exact not_false

/-- A value that is only read. -/
theorem Yields.read {α β : Type} {x : Res α} {f : α → Res β} {post : β → Prop}
    (hf : ∀ a, Yields (f a) post) : Yields (x >>= f) post :=
  (Yields.any x).bind fun a _ => hf a

theorem nth_safe {α : Type} (l : List α) (i : Int) :
    Safe (nth l i) fun a => 0 ≤ i ∧ l[i.toNat]? = some a := by
  unfold nth
  split
  · exact nofun
  · cases hi : l[i.toNat]? with
    | none => exact nofun
    | some a => exact ⟨by omega, rfl⟩

theorem nth_eq {α : Type} {l : List α} {i : Int} {a : α} (hi : 0 ≤ i) (h : l[i.toNat]? = some a) :
    nth l i = .ok a := by
  simp [nth, h, Int.not_lt.mpr hi]

theorem nthOpt_safe {α : Type} (l : List α) (i : Int) : Safe (nthOpt l i) fun _ => True := by
  unfold nthOpt
  split
  · exact nofun
  · trivial

theorem firstByte_safe (s : Bytes) : Safe (firstByte s) fun c => ∃ rest, s = c :: rest := by
  cases s with
  | nil => exact nofun
  | cons c s => exact ⟨s, rfl⟩

theorem isWordChar_safe (s : Bytes) : Safe (isWordChar s) fun _ => True := by
  unfold isWordChar
  split
  · trivial
  · exact (firstByte_safe s).bind fun _ _ => trivial

theorem UnicodeString.clusterAt_safe (t : UnicodeString) (i : Int) :
    Safe (t.clusterAt i) fun s => t.clusterAt i = .ok s := by
  unfold UnicodeString.clusterAt
  split
  · rfl
  · exact nofun

/-! ## The cache -/

namespace LexerCache

variable {Token Mode : Type} {l : Lexer Token Mode}

def texts (cache : Cache Token Mode) : List Bytes := cache.map Entry.text

theorem lexEntry_safe (hl : ∀ mode s, Safe (l.lexLine mode s) fun _ => True) (mode : Mode)
    (line : UnicodeString) : Safe (lexEntry l mode line) fun e => e.text = line.toBytes :=
  (hl mode line.toBytes).bind fun _ _ => rfl

theorem createFrom_safe (hl : ∀ mode s, Safe (l.lexLine mode s) fun _ => True) (mode : Mode)
    (lines : List UnicodeString) :
    Safe (createFrom l mode lines) fun cache => texts cache = lines.map UnicodeString.toBytes := by
  induction lines generalizing mode with
  | nil => rfl
  | cons line rest ih =>
    refine (lexEntry_safe hl mode line).bind fun e he => ?_
    refine (ih e.endMode).bind fun cache hcache => ?_
    rw [texts] at hcache
    simp [texts, he, hcache]

/-- Updating brings the cache up to date, if only lines from `startLine` to `endLine` changed. -/
theorem updateFrom_safe [DecidableEq Mode] (hl : ∀ mode s, Safe (l.lexLine mode s) fun _ => True)
    (startLine endLine : Int) (lines : List UnicodeString) :
    ∀ (i : Nat) (mode : Mode) (cache : Cache Token Mode), cache.length = lines.length →
      (∀ k : Nat, ((i + k : Nat) : Int) < startLine ∨ endLine < ((i + k : Nat) : Int) →
        (texts cache)[k]? = (lines.map UnicodeString.toBytes)[k]?) →
      Safe (updateFrom l startLine endLine i mode lines cache) fun cache' =>
        texts cache' = lines.map UnicodeString.toBytes := by
  induction lines with
  | nil => intro i mode cache _ _; rfl
  | cons line rest ih =>
    intro i mode cache hlen hkeep
    cases cache with
    | nil => simp at hlen
    | cons cached cacheTail =>
      have hlen' : cacheTail.length = rest.length := by simpa using hlen
      have hkeep' : ∀ k : Nat, ((i + 1 + k : Nat) : Int) < startLine ∨
          endLine < ((i + 1 + k : Nat) : Int) →
            (texts cacheTail)[k]? = (rest.map UnicodeString.toBytes)[k]? := by
        intro k hk
        rw [Nat.add_right_comm] at hk
        simpa [texts] using hkeep (k + 1) hk
      have hrelex : Safe (do
          let entry ← lexEntry l mode line
          return entry :: (← updateFrom l startLine endLine (i + 1) entry.endMode rest cacheTail))
          fun cache' => texts cache' = (line :: rest).map UnicodeString.toBytes := by
        refine (lexEntry_safe hl mode line).bind fun e he => ?_
        refine (ih (i + 1) e.endMode cacheTail hlen' hkeep').bind fun cache' hcache' => ?_
        rw [texts] at hcache'
        simp [texts, he, hcache']
      simp only [updateFrom, List.drop_succ_cons, List.drop_zero]
      split
      · rename_i hbefore
        have hhead := hkeep 0 (.inl (by simpa using hbefore))
        simp only [texts, List.map_cons, List.getElem?_cons_zero, Option.some.injEq] at hhead
        refine (ih (i + 1) cached.endMode cacheTail hlen' hkeep').bind fun cache' hcache' => ?_
        rw [texts] at hcache'
        simp [texts, hhead, hcache']
      · split
        · rename_i hafter
          split
          · -- everything from here on is behind the change
            refine List.ext_getElem? fun k => ?_
            exact hkeep k (.inr (by push_cast; omega))
          · exact hrelex
        · exact hrelex

end LexerCache

namespace RLexer

theorem lexLoop_safe [Ucd] (fuel : Nat) (acc : List Token) (mode : Mode) (cs : List Char) :
    Safe (lexLoop fuel acc mode cs) fun _ => True := by
  induction fuel generalizing acc mode cs with
  | zero => exact nofun
  | succ fuel ih =>
    unfold lexLoop
    split
    · exact nofun
    · obtain ⟨r, hr, -⟩ := token_step mode cs
      rw [hr]
      split
      · rename_i heq
        cases heq
      · trivial
      · exact ih _ _ _
      · exact ih _ _ _

theorem lexLine_safe [Ucd] (mode : Mode) (line : Bytes) :
    Safe (lexLine mode line) fun _ => True := by
  unfold lexLine
  split
  · exact lexLoop_safe _ _ _ _
  · exact nofun

end RLexer

namespace RLexCache

open LexerCache (texts)

theorem create_safe [Ucd] (lines : List UnicodeString) :
    Safe (create lines) fun cache =>
      texts cache = lines.map UnicodeString.toBytes ∧ create lines = .ok cache := by
  have h : Safe (create lines) fun cache => texts cache = lines.map UnicodeString.toBytes :=
    LexerCache.createFrom_safe RLexer.lexLine_safe _ lines
  cases hcache : create lines with
  | ok cache => exact ⟨h.of_eq_ok hcache, rfl⟩
  | error e => exact h.of_eq_error hcache

theorem update_safe [Ucd] (startLine endLine : Int) (lines : List UnicodeString) (cache : Cache)
    (hkeep : cache.length = lines.length → ∀ k : Nat, (k : Int) < startLine ∨ endLine < (k : Int) →
      (texts cache)[k]? = (lines.map UnicodeString.toBytes)[k]?) :
    Safe (update startLine endLine lines cache) fun cache' =>
      texts cache' = lines.map UnicodeString.toBytes := by
  unfold update LexerCache.update
  split
  · exact (create_safe lines).mono fun _ hcache => hcache.1
  · rename_i hlen
    have hlen' : cache.length = lines.length := by omega
    exact LexerCache.updateFrom_safe RLexer.lexLine_safe startLine endLine lines 0 _ cache hlen'
      fun k hk => hkeep hlen' k (by simpa using hk)

theorem texts_makeAllDefault [Ucd] (lines : List UnicodeString) :
    texts (makeAllDefault lines) = lines.map UnicodeString.toBytes := by
  simp [texts, makeAllDefault, LexerCache.makeAllDefault]

end RLexCache

/-! ## Coherent models -/

namespace Model

structure Coherent (m : Model) : Prop where
  wellFormed : ∀ line ∈ m.input.lines, line.WellFormed
  line_nonneg : 0 ≤ m.input.cursorLine
  line_lt : m.input.cursorLine < m.input.lines.length
  pos_nonneg : 0 ≤ m.input.cursorPos
  cached : LexerCache.texts m.input.lexCache = m.input.lines.map UnicodeString.toBytes

/-- The line the cursor is on. -/
def line (m : Model) : UnicodeString := m.input.lines.getD m.input.cursorLine.toNat .empty

/-- The cursor is within its line. -/
def InRange (m : Model) : Prop := m.input.cursorPos ≤ m.line.length

/-- Nothing but the text and the cursor differs. -/
structure Frame (m m' : Model) : Prop where
  layout : m'.layout = m.layout
  repl : m'.repl = m.repl
  mode : m'.input.mode = m.input.mode
  history : m'.input.history = m.input.history
  completion : m'.input.completion = m.input.completion
  flipping : m'.input.flippingThroughHistory = m.input.flippingThroughHistory

theorem Frame.refl (m : Model) : m.Frame m := ⟨rfl, rfl, rfl, rfl, rfl, rfl⟩

theorem Frame.trans {m₁ m₂ m₃ : Model} (h₁ : m₁.Frame m₂) (h₂ : m₂.Frame m₃) : m₁.Frame m₃ :=
  ⟨h₂.layout.trans h₁.layout, h₂.repl.trans h₁.repl, h₂.mode.trans h₁.mode,
    h₂.history.trans h₁.history, h₂.completion.trans h₁.completion, h₂.flipping.trans h₁.flipping⟩

section
variable [Ucd]

/-- Where the prompt is one of R, the cache is what lexing its lines gives; the other modes may keep
placeholders in it. -/
def Lexed (m : Model) : Prop :=
  match m.input.mode with
  | .normal | .historySearch _ => RLexCache.create m.input.lines = .ok m.input.lexCache
  | .shell | .readline _ | .ai => True

theorem lexed_of_create {m : Model} (h : RLexCache.create m.input.lines = .ok m.input.lexCache) :
    m.Lexed := by
  unfold Lexed
  split
  · exact h
  · exact h
  all_goals trivial

/-- What an editing function gives; `cond` is what keeps the cursor within its line. -/
structure Edits (m : Model) (cond : Prop) (m' : Model) : Prop where
  coherent : m'.Coherent
  frame : m.Frame m'
  lexed : m.Lexed → m'.Lexed
  inRange : m.InRange → cond → m'.InRange

theorem Edits.refl {m : Model} (h : m.Coherent) : m.Edits True m :=
  ⟨h, Frame.refl m, id, fun hr _ => hr⟩

theorem Edits.weaken {m m' : Model} {cond cond' : Prop} (h : m.Edits cond m')
    (hc : m.InRange → cond' → cond) : m.Edits cond' m' :=
  ⟨h.coherent, h.frame, h.lexed, fun hr hcond => h.inRange hr (hc hr hcond)⟩

theorem Edits.trans {m₁ m₂ m₃ : Model} {cond₁ cond₂ cond : Prop} (h₁ : m₁.Edits cond₁ m₂)
    (h₂ : m₂.Edits cond₂ m₃) (hc : m₁.InRange → cond → cond₁ ∧ (m₂.InRange → cond₂)) :
    m₁.Edits cond m₃ := by
  refine ⟨h₂.coherent, h₁.frame.trans h₂.frame, h₂.lexed ∘ h₁.lexed, fun hr hcond => ?_⟩
  obtain ⟨hc₁, hc₂⟩ := hc hr hcond
  have hr₂ := h₁.inRange hr hc₁
  exact h₂.inRange hr₂ (hc₂ hr₂)

end

section
variable {m : Model}

theorem Coherent.getElem?_line (h : m.Coherent) :
    m.input.lines[m.input.cursorLine.toNat]? = some m.line := by
  have hlt : m.input.cursorLine.toNat < m.input.lines.length := by
    have := h.line_lt
    have := h.line_nonneg
    omega
  simp [line, List.getElem?_eq_getElem hlt]

theorem line_of_getElem? {l : UnicodeString}
    (h : m.input.lines[m.input.cursorLine.toNat]? = some l) : m.line = l := by
  simp [line, h]

theorem inRange_of_getElem? {l : UnicodeString}
    (h : m.input.lines[m.input.cursorLine.toNat]? = some l) (hle : m.input.cursorPos ≤ l.length) :
    m.InRange := by
  rw [InRange, line_of_getElem? h]
  exact hle

theorem Coherent.line_mem (h : m.Coherent) : m.line ∈ m.input.lines :=
  List.mem_of_getElem? h.getElem?_line

theorem Coherent.line_wellFormed (h : m.Coherent) : m.line.WellFormed :=
  h.wellFormed m.line h.line_mem

theorem Coherent.currentLine (h : m.Coherent) : m.currentLine = .ok m.line :=
  nth_eq h.line_nonneg h.getElem?_line

theorem Coherent.currentLine_safe (h : m.Coherent) : Safe m.currentLine fun line => line = m.line := by
  rw [h.currentLine]
  rfl

theorem Coherent.lineLength (h : m.Coherent) : m.lineLength = .ok (m.line.length : Int) := by
  rw [Model.lineLength, h.currentLine]
  rfl

theorem Coherent.atLineEnd (h : m.Coherent) :
    m.atLineEnd = .ok (decide (m.input.cursorPos ≥ m.line.length)) := by
  rw [Model.atLineEnd, h.lineLength]
  rfl

theorem Coherent.charAt_safe (h : m.Coherent) : Safe m.charAt fun c =>
    (c = none ∧ m.input.cursorPos ≥ m.line.length) ∨
      ∃ s, c = some s ∧ m.line.clusterAt m.input.cursorPos = .ok s := by
  rw [Model.charAt, h.currentLine]
  show Safe (if _ then _ else _) _
  split
  · rename_i hge
    exact .inl ⟨rfl, hge⟩
  · exact (UnicodeString.clusterAt_safe _ _).bind fun s hs => .inr ⟨s, rfl, hs⟩

theorem Coherent.charBefore_safe (h : m.Coherent) : Safe m.charBefore fun c =>
    (c = none ∧ m.input.cursorPos = 0) ∨
      ∃ s, c = some s ∧ m.line.clusterAt (m.input.cursorPos - 1) = .ok s := by
  rw [Model.charBefore]
  split
  · rename_i hzero
    exact .inl ⟨rfl, hzero⟩
  · rw [h.currentLine]
    exact (UnicodeString.clusterAt_safe _ _).bind fun s hs => .inr ⟨s, rfl, hs⟩

theorem Coherent.shouldAutoPair_safe (h : m.Coherent) : Safe m.shouldAutoPair fun _ => True := by
  refine h.charAt_safe.bind fun c _ => ?_
  split <;> trivial

/-- Another cursor on the same lines. -/
theorem Coherent.moved (h : m.Coherent) {line pos col : Int} (h0 : 0 ≤ line)
    (hlt : line < m.input.lines.length) (hpos : 0 ≤ pos) : Coherent { m with
      input.cursorLine := line, input.cursorPos := pos, input.persistentCol := col } :=
  ⟨h.wellFormed, h0, hlt, hpos, h.cached⟩

end

end Model
end Raoui
