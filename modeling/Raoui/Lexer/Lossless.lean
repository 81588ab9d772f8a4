import Raoui.Lexer.Cache
import Raoui.Lexer.Line

/-!
# Raoui.Lexer.Lossless

The lexemes of a cached document against its text. A line keeps its text unless the lexer comes to
one of the two places where a token loses it; then the line is too short or too long by what was
left over, and the modes of the lines after it carry that along.

* `Lexes.byStep`: induction over the tokens of a line.
* `Lexes.account`: one line.
* `create_lossless_iff`: a whole document.
-/

namespace Raoui
namespace RLexer

open Utf8 (encode)
open LexerCache (Entry)

/-- The text a list of tokens stands for. -/
def lexemes (ts : List Token) : Bytes := ts.flatMap tokenToLexeme

@[simp] theorem lexemes_nil : lexemes [] = [] := rfl

theorem lexemes_cons (t : Token) (ts : List Token) :
    lexemes (t :: ts) = tokenToLexeme t ++ lexemes ts := rfl

@[simp] theorem lexemes_append (ts us : List Token) :
    lexemes (ts ++ us) = lexemes ts ++ lexemes us := by simp [lexemes]

theorem lexemes_expand (t : Token) : lexemes t.expand = t.written := by
  cases t <;> first | rfl | simp [lexemes, Token.expand, Token.written]

theorem not_losesText_nil : ¬ LosesText [] := by
  rintro ((h | h) | ⟨q, tl, h, -⟩) <;> cases h

variable [Ucd]

/-- The token boundaries the lexer comes to in a line: the mode and the text that is left. -/
inductive Reaches : Mode → List Char → Mode → List Char → Prop where
  | here {mode : Mode} {cs : List Char} : Reaches mode cs mode cs
  | next {mode m m' : Mode} {cs rest cs' : List Char} {t : Token} :
      token mode cs = .ok (t, m, rest) → t ≠ .eof → Reaches m rest m' cs' → Reaches mode cs m' cs'

/-- The lexer comes to a place where a token loses its text. -/
def LineLoses (mode : Mode) (cs : List Char) : Prop :=
  ∃ cs', Reaches mode cs .normal cs' ∧ LosesText cs'

/-- Some line of the document, lexed from the mode the lines before it end in, loses text. -/
inductive DocumentLoses : Mode → List UnicodeString → Prop where
  | line {mode : Mode} {line : UnicodeString} {rest : List UnicodeString} {cs : List Char} :
      Utf8.decode line.toBytes = some cs → LineLoses mode cs → DocumentLoses mode (line :: rest)
  | later {mode m : Mode} {line : UnicodeString} {rest : List UnicodeString} {cs : List Char}
      {ts : List Token} : Utf8.decode line.toBytes = some cs → Lexes mode cs ts m →
      DocumentLoses m rest → DocumentLoses mode (line :: rest)

theorem LineLoses.of_eof {mode m : Mode} {cs rest : List Char}
    (ht : token mode cs = .ok (.eof, m, rest)) (h : LineLoses mode cs) :
    mode = .normal ∧ LosesText cs := by
  obtain ⟨cs', hr, hl⟩ := h
  cases hr with
  | here => exact ⟨rfl, hl⟩
  | next ht' hne _ =>
    rw [ht] at ht'
    cases ht'
    exact absurd rfl hne

theorem LineLoses.of_next {mode m : Mode} {cs rest : List Char} {t : Token}
    (ht : token mode cs = .ok (t, m, rest)) (h : LineLoses mode cs) :
    (mode = .normal ∧ LosesText cs) ∨ LineLoses m rest := by
  obtain ⟨cs', hr, hl⟩ := h
  cases hr with
  | here => exact .inl ⟨rfl, hl⟩
  | next ht' _ hr =>
    rw [ht] at ht'
    cases ht'
    exact .inr ⟨cs', hr, hl⟩

/-- A raw-string prefix without its bracket is carried over and written once more. -/
theorem Lexes.of_raw_carried {prev : Bytes} (hprev : prev ≠ []) {ts : List Token} {m : Mode}
    (h : Lexes (.inRawString [] prev) [] ts m) : ts = [.string prev] ∧ m = .inRawString [] [] := by
  have hfirst : token (.inRawString [] prev) [] = .ok (.string prev, .inRawString [] [], []) := by
    simp [token, readRawString, readRawStringLoop, hprev]
  exact h.unique (.next hfirst (fun heof => by cases heof) (.eof rfl))

omit [Ucd] in
theorem encode_raw_ne_nil {cs : List Char} (h : RawWithoutBracket cs) : encode cs ≠ [] := by
  obtain ⟨q, tl, rfl, -⟩ := h
  simp [Utf8.encodeChar_ne_nil]

/-- Induction over the tokens of a line by what each of them does with the text. A raw-string prefix
without its bracket is the last of them, written twice. -/
@[elab_as_elim] theorem Lexes.byStep
    {motive : (mode : Mode) → (cs : List Char) → (ts : List Token) → (m : Mode) →
      Lexes mode cs ts m → Prop}
    (ends : ∀ {mode m : Mode} {rest : List Char} (ht : token mode [] = .ok (.eof, m, rest)),
      m.carried = mode.carried → motive mode [] [] m (.eof ht))
    (drops : ∀ {cs : List Char} {m : Mode} {rest : List Char}
      (ht : token .normal cs = .ok (.eof, m, rest)), OpensAtEnd cs →
      motive .normal cs [] m (.eof ht))
    (reads : ∀ {mode m m' : Mode} {cs rest : List Char} {t : Token} {ts : List Token}
      (ht : token mode cs = .ok (t, m, rest)) (hne : t ≠ .eof) (hrest : Lexes m rest ts m'),
      m.carried = [] → t.written ++ encode rest = mode.carried ++ encode cs →
      ¬ (mode = .normal ∧ LosesText cs) → motive m rest ts m' hrest →
      motive mode cs (t.expand ++ ts) m' (.next ht hne hrest))
    (doubles : ∀ {cs : List Char}
      (h : Lexes .normal cs [.string (encode cs), .string (encode cs)] (.inRawString [] [])),
      RawWithoutBracket cs → motive .normal cs _ _ h)
    {mode : Mode} {cs : List Char} {ts : List Token} {m : Mode} (h : Lexes mode cs ts m) :
    motive mode cs ts m h := by
  induction h with
  | @eof mode m cs rest ht =>
    obtain ⟨r, hr, hstep⟩ := token_step mode cs
    rw [ht] at hr
    cases hr
    cases hstep with
    | ends hcs hm =>
      subst hcs
      exact ends ht hm
    | reads hne => exact absurd rfl hne
    | drops hnormal hopen _ =>
      subst hnormal
      exact drops ht hopen
  | @next mode m m' cs rest t ts ht hne hrest ih =>
    obtain ⟨r, hr, hstep⟩ := token_step mode cs
    rw [ht] at hr
    cases hr
    cases hstep with
    | ends => exact absurd rfl hne
    | drops => exact absurd rfl hne
    | reads _ hm hwritten _ hok => exact reads ht hne hrest hm hwritten hok ih
    | doubles hnormal hraw =>
      subst hnormal
      obtain ⟨rfl, rfl⟩ := hrest.of_raw_carried (encode_raw_ne_nil hraw)
      exact doubles (.next ht hne hrest) hraw

/-- A line that starts with nothing carried either never loses text, gives it back exactly and
carries nothing on, or gives back a text of another length. -/
theorem Lexes.account {mode m : Mode} {cs : List Char} {ts : List Token} (h : Lexes mode cs ts m)
    (hcarried : mode.carried = []) :
    (¬ LineLoses mode cs ∧ lexemes ts = encode cs ∧ m.carried = []) ∨
    (LineLoses mode cs ∧ (lexemes ts).length ≠ (encode cs).length) := by
  induction h using Lexes.byStep with
  | ends ht hm =>
    exact .inl ⟨fun hl => not_losesText_nil (hl.of_eof ht).2, rfl, hm.trans hcarried⟩
  | drops _ hopen =>
    refine .inr ⟨⟨_, .here, .inl hopen⟩, ?_⟩
    rcases hopen with rfl | rfl <;> decide
  | reads ht hne _ hm hwritten hok ih =>
    rw [hcarried, List.nil_append] at hwritten
    rw [lexemes_append, lexemes_expand, ← hwritten]
    rcases ih hm with ⟨hno, htext, hm'⟩ | ⟨hloses, hlen⟩
    · exact .inl ⟨fun hl => (hl.of_next ht).elim hok hno, by rw [htext], hm'⟩
    · obtain ⟨cs', hr, hl⟩ := hloses
      refine .inr ⟨⟨cs', .next ht hne hr, hl⟩, ?_⟩
      simp only [List.length_append, ne_eq, Nat.add_left_cancel_iff]
      exact hlen
  | @doubles cs _ hraw =>
    refine .inr ⟨⟨_, .here, .inr hraw⟩, ?_⟩
    have hpos := List.length_pos_of_ne_nil (encode_raw_ne_nil hraw)
    show (encode cs ++ (encode cs ++ [])).length ≠ _
    rw [List.length_append, List.append_nil]
    omega

theorem createFrom_lossless_iff {mode : Mode} {lines : List UnicodeString} {cache : RLexCache.Cache}
    (h : LexerCache.createFrom RLexCache.lexer mode lines = .ok cache) (hcarried : mode.carried = []) :
    (∀ e ∈ cache, lexemes e.tokens = e.text) ↔ ¬ DocumentLoses mode lines := by
  induction lines generalizing mode cache with
  | nil =>
    cases h
    simp only [List.not_mem_nil, false_implies, implies_true, true_iff]
    rintro ⟨⟩
  | cons line rest ih =>
    obtain ⟨ts, m, cache', hline, hrest, rfl⟩ := LexerCache.createFrom_cons_iff.mp h
    obtain ⟨cs, hcs, hlexes⟩ := lexLine_lexes hline
    rw [List.forall_mem_cons]
    rcases hlexes.account hcarried with ⟨hno, htext, hm⟩ | ⟨hloses, hlen⟩
    · rw [ih hrest hm, htext, Utf8.encode_of_decode hcs]
      refine ⟨?_, fun hnot => ⟨rfl, fun hd => hnot (.later hcs hlexes hd)⟩⟩
      rintro ⟨-, hrest'⟩ hd
      cases hd with
      | line hcs' hl =>
        rw [hcs] at hcs'
        cases hcs'
        exact hno hl
      | later hcs' hlexes' hd =>
        rw [hcs] at hcs'
        cases hcs'
        obtain ⟨-, rfl⟩ := hlexes.unique hlexes'
        exact hrest' hd
    · refine ⟨fun hall => ?_, fun hnot => absurd (.line hcs hloses) hnot⟩
      exact absurd (by rw [hall.1, Utf8.encode_of_decode hcs]) hlen

/-- In the cache of a document every entry's lexemes give its text exactly when the lexer never
comes, in Normal mode, to an opening quote or backtick at the very end of a line or to a raw-string
prefix without a bracket after it on the line. -/
theorem create_lossless_iff (lines : List UnicodeString) (cache : RLexCache.Cache)
    (h : RLexCache.create lines = .ok cache) :
    (∀ e ∈ cache, lexemes e.tokens = e.text) ↔ ¬ DocumentLoses .normal lines :=
  createFrom_lossless_iff h rfl

end RLexer

/-! ## Lines that keep and lines that lose -/

namespace RLexer

attribute [local instance] asciiUcd

/-- `x'`, where the quote is read into the mode and not into a token. -/
def openQuoteLine : UnicodeString := ⟨bytes "x'", [0, 1], [1, 1]⟩

def callLine : UnicodeString := ⟨bytes "f(x)", [0, 1, 2, 3], [1, 1, 1, 1]⟩

theorem create_lossless_call : ∃ cache, RLexCache.create [callLine] = .ok cache ∧
    ((∀ e ∈ cache, lexemes e.tokens = e.text) ↔ ¬ DocumentLoses .normal [callLine]) := by
  obtain ⟨cache, hcache⟩ : ∃ cache, RLexCache.create [callLine] = .ok cache := ⟨_, rfl⟩
  exact ⟨cache, hcache, create_lossless_iff [callLine] cache hcache⟩

theorem create_drops_quote : ∃ cache, RLexCache.create [openQuoteLine] = .ok cache ∧
    ¬ ∀ e ∈ cache, lexemes e.tokens = e.text := by
  refine ⟨_, rfl, ?_⟩
  decide

end RLexer
end Raoui
