import Raoui.Lexer.Lossless
import Raoui.Lib.Outcome

/-!
# Raoui.Lexer.Provenance

Where the tokens of a cached line come from. However a cache has been edited, every entry is either
the placeholder for its text or what lexing the text from the entry's start mode gives, and no mode
carries more than an opening quote from one line to the next. So the lexemes of a line outgrow its
text by one byte at most, unless a raw-string prefix is written twice.

* `Genuine`: the condition on an entry; `create`, `update` and `makeAllDefault` keep it.
* `Lexes.length_le`: the lexemes of a line.
* `Lexes.string_le`: each literal in it.
-/

namespace Raoui

namespace LexerCache

variable {Token Mode : Type} {l : Lexer Token Mode} {good : Mode → Prop}

/-- Lexing goes from good modes to good modes. -/
def Closed (l : Lexer Token Mode) (good : Mode → Prop) : Prop :=
  good l.initialMode ∧ ∀ mode text tokens m,
    good mode → l.lexLine mode text = .ok (tokens, m) → good m

/-- The entry is a placeholder, or its text lexed from its start mode. -/
def Entry.Genuine (l : Lexer Token Mode) (good : Mode → Prop) (e : Entry Token Mode) : Prop :=
  good e.startMode ∧
    ((e.tokens = [l.lexAsDefault e.text] ∧ e.endMode = l.initialMode) ∨
      l.lexLine e.startMode e.text = .ok (e.tokens, e.endMode))

theorem Entry.Genuine.endMode {e : Entry Token Mode} (h : e.Genuine l good) (hl : Closed l good) :
    good e.endMode := by
  obtain ⟨hstart, ⟨-, hend⟩ | hlex⟩ := h
  · rw [hend]
    exact hl.1
  · exact hl.2 _ _ _ _ hstart hlex

theorem lexEntry_genuine {mode : Mode} {line : UnicodeString} {e : Entry Token Mode}
    (hgood : good mode) (h : lexEntry l mode line = .ok e) : e.Genuine l good := by
  obtain ⟨⟨tokens, m⟩, hlex, h⟩ := Outcome.bind_eq_ok.mp h
  cases h
  exact ⟨hgood, .inr hlex⟩

theorem createFrom_genuine (hl : Closed l good) {mode : Mode} {lines : List UnicodeString}
    {cache : Cache Token Mode} (hgood : good mode) (h : createFrom l mode lines = .ok cache) :
    ∀ e ∈ cache, e.Genuine l good := by
  induction lines generalizing mode cache with
  | nil =>
    cases h
    exact nofun
  | cons line rest ih =>
    obtain ⟨e, he, h⟩ := Outcome.bind_eq_ok.mp h
    obtain ⟨cache', hrest, h⟩ := Outcome.bind_eq_ok.mp h
    cases h
    have hentry := lexEntry_genuine hgood he
    exact List.forall_mem_cons.mpr ⟨hentry, ih (hentry.endMode hl) hrest⟩

theorem updateFrom_genuine [DecidableEq Mode] (hl : Closed l good) {startLine endLine : Int}
    {lines : List UnicodeString} {i : Int} {mode : Mode} {old cache : Cache Token Mode}
    (hgood : good mode) (hold : ∀ e ∈ old, e.Genuine l good)
    (h : updateFrom l startLine endLine i mode lines old = .ok cache) :
    ∀ e ∈ cache, e.Genuine l good := by
  induction lines generalizing i mode old cache with
  | nil =>
    cases h
    exact nofun
  | cons line rest ih =>
    have hrelex : ∀ cache, (do
        let entry ← lexEntry l mode line
        return entry :: (← updateFrom l startLine endLine (i + 1) entry.endMode rest
          (old.drop 1)) : Res (Cache Token Mode)) = .ok cache → ∀ e ∈ cache, e.Genuine l good := by
      intro cache h
      obtain ⟨e, he, h⟩ := Outcome.bind_eq_ok.mp h
      obtain ⟨cache', hrest, h⟩ := Outcome.bind_eq_ok.mp h
      cases h
      have hentry := lexEntry_genuine hgood he
      exact List.forall_mem_cons.mpr ⟨hentry,
        ih (hentry.endMode hl) (fun e he => hold e (List.mem_of_mem_drop he)) hrest⟩
    unfold updateFrom at h
    split at h
    · split at h
      · rename_i cached cacheTail
        obtain ⟨cache', hrest, h⟩ := Outcome.bind_eq_ok.mp h
        cases h
        obtain ⟨hcached, htail⟩ := List.forall_mem_cons.mp hold
        exact List.forall_mem_cons.mpr ⟨hcached, ih (hcached.endMode hl) htail hrest⟩
      · cases h
        exact nofun
    · split at h
      · split at h
        · split at h
          · cases h
            exact hold
          · exact hrelex _ h
        · exact hrelex _ h
      · exact hrelex _ h

theorem update_genuine [DecidableEq Mode] (hl : Closed l good) {startLine endLine : Int}
    {lines : List UnicodeString} {old cache : Cache Token Mode}
    (hold : ∀ e ∈ old, e.Genuine l good) (h : update l startLine endLine lines old = .ok cache) :
    ∀ e ∈ cache, e.Genuine l good := by
  unfold update at h
  split at h
  · exact createFrom_genuine hl hl.1 h
  · exact updateFrom_genuine hl hl.1 hold h

theorem makeAllDefault_genuine (hl : Closed l good) (lines : List UnicodeString) :
    ∀ e ∈ makeAllDefault l lines, e.Genuine l good := by
  intro e he
  obtain ⟨line, -, rfl⟩ := List.mem_map.mp he
  exact ⟨hl.1, .inl ⟨rfl, rfl⟩⟩

end LexerCache

/-! ## The R lexer -/

namespace RLexer

open Utf8 (encode)

/-- What is carried is an opening quote at most. -/
def Mode.CarriesQuote (mode : Mode) : Prop := mode.carried.length ≤ 1

variable [Ucd]

theorem Lexes.carriesQuote {mode m : Mode} {cs : List Char} {ts : List Token}
    (h : Lexes mode cs ts m) (hmode : mode.CarriesQuote) : m.CarriesQuote := by
  induction h using Lexes.byStep with
  | ends _ hm =>
    rw [Mode.CarriesQuote, hm]
    exact hmode
  | drops ht hopen => rcases hopen with rfl | rfl <;> cases ht <;> exact Nat.le_refl 1
  | reads _ _ _ hm _ _ ih =>
    refine ih ?_
    rw [Mode.CarriesQuote, hm]
    exact Nat.zero_le 1
  | doubles _ _ => exact Nat.zero_le 1

theorem Lexes.length_le {mode m : Mode} {cs : List Char} {ts : List Token}
    (h : Lexes mode cs ts m) :
    (lexemes ts).length ≤ mode.carried.length + (encode cs).length ∨
      ∃ us s, ts = us ++ [.string s, .string s] := by
  induction h using Lexes.byStep with
  | ends _ _ => exact .inl (Nat.zero_le _)
  | drops _ _ => exact .inl (Nat.zero_le _)
  | @reads mode m m' cs rest t ts _ _ _ hm hwritten _ ih =>
    have hlen := congrArg List.length hwritten
    simp only [List.length_append] at hlen
    rcases ih with hle | ⟨us, s, rfl⟩
    · refine .inl ?_
      rw [hm] at hle
      rw [lexemes_append, lexemes_expand, List.length_append]
      simp only [List.length_nil] at hle
      omega
    · exact .inr ⟨t.expand ++ us, s, (List.append_assoc ..).symm⟩
  | doubles _ _ => exact .inr ⟨[], _, rfl⟩

/-- From where nothing is carried every token starts within the line. -/
theorem Lexes.starts_le {mode m : Mode} {cs : List Char} {ts : List Token}
    (h : Lexes mode cs ts m) (hcarried : mode.carried = []) {us vs : List Token} {t : Token}
    (hts : ts = us ++ t :: vs) : (lexemes us).length ≤ (encode cs).length := by
  induction h using Lexes.byStep generalizing us with
  | ends _ _ => exact absurd hts.symm (by simp)
  | drops _ _ => exact absurd hts.symm (by simp)
  | @reads mode m m' cs rest u ts _ _ _ hm hwritten _ ih =>
    rw [hcarried, List.nil_append] at hwritten
    have hlen := congrArg List.length hwritten
    rw [List.length_append, ← lexemes_expand] at hlen
    obtain ⟨us', hus, hts'⟩ | ⟨ws, hu, -⟩ := List.append_eq_append_iff.mp hts
    · have hle := ih hm hts'
      rw [hus, lexemes_append, List.length_append]
      omega
    · rw [hu, lexemes_append, List.length_append] at hlen
      omega
  | doubles _ _ =>
    obtain _ | ⟨u, _ | ⟨u', us⟩⟩ := us
    · exact Nat.zero_le _
    · obtain ⟨rfl, -⟩ := List.cons.inj hts
      exact Nat.le_of_eq (congrArg List.length (List.append_nil _))
    · simp at hts

/-- From where nothing is carried the lexemes are the line, except that the quote, or the raw-string
prefix, that it ends in may be missing or stand twice. -/
theorem Lexes.lexemes_line {mode m : Mode} {cs : List Char} {ts : List Token}
    (h : Lexes mode cs ts m) (hcarried : mode.carried = []) :
    ∃ extra, (encode cs = lexemes ts ++ extra ∨ lexemes ts = encode cs ++ extra) ∧
      ∀ c, extra.head? = some c → c ∈ bytes "'\x60rR" := by
  induction h using Lexes.byStep with
  | ends _ _ => exact ⟨[], .inl rfl, fun c hc => by cases hc⟩
  | @drops cs _ _ _ hopen =>
    refine ⟨encode cs, .inl rfl, fun c hc => ?_⟩
    obtain rfl | rfl := hopen
    · cases hc
      decide
    · cases hc
      decide
  | reads _ _ _ hm hwritten _ ih =>
    rw [hcarried, List.nil_append] at hwritten
    obtain ⟨extra, hextra, hhead⟩ := ih hm
    refine ⟨extra, ?_, hhead⟩
    rw [lexemes_append, lexemes_expand, ← hwritten, List.append_assoc, List.append_assoc]
    exact hextra.imp (congrArg _) (congrArg _)
  | @doubles cs _ hraw =>
    refine ⟨encode cs, .inr (congrArg _ (List.append_nil _)), fun c hc => ?_⟩
    obtain ⟨q, tl, rfl, rfl | rfl, -⟩ := hraw
    · cases hc
      decide
    · cases hc
      decide

theorem Lexes.string_le {mode m : Mode} {cs : List Char} {ts : List Token}
    (h : Lexes mode cs ts m) {s : Bytes} (hs : .string s ∈ ts) :
    s.length ≤ mode.carried.length + (encode cs).length := by
  induction h using Lexes.byStep with
  | ends _ _ => cases hs
  | drops _ _ => cases hs
  | @reads mode m m' cs rest t ts _ _ _ hm hwritten _ ih =>
    have hfirst : .string s ∈ t.expand → t = .string s := by
      cases t <;> simp [Token.expand, eq_comm]
    have hlen := congrArg List.length hwritten
    simp only [List.length_append] at hlen
    rcases List.mem_append.mp hs with hs | hs
    · rw [hfirst hs] at hlen
      have : (Token.string s).written.length = s.length := rfl
      omega
    · have hle := ih hs
      rw [hm] at hle
      simp only [List.length_nil] at hle
      omega
  | doubles _ _ =>
    simp only [List.mem_cons, Token.string.injEq, List.not_mem_nil, or_false, or_self] at hs
    rw [hs]
    exact Nat.le_add_left ..

theorem lexLine_string_le {mode m : Mode} {line : Bytes} {ts : List Token}
    (h : lexLine mode line = .ok (ts, m)) {s : Bytes} (hs : .string s ∈ ts) :
    s.length ≤ mode.carried.length + line.length := by
  obtain ⟨cs, hcs, hl⟩ := lexLine_lexes h
  rw [← Utf8.encode_of_decode hcs]
  exact hl.string_le hs

end RLexer

namespace RLexCache

open LexerCache (Entry)

variable [Ucd]

theorem lexer_closed : LexerCache.Closed lexer RLexer.Mode.CarriesQuote := by
  refine ⟨Nat.zero_le 1, fun mode text tokens m hgood hlex => ?_⟩
  obtain ⟨cs, -, hl⟩ := RLexer.lexLine_lexes hlex
  exact hl.carriesQuote hgood

def Genuine (cache : Cache) : Prop := ∀ e ∈ cache, e.Genuine lexer RLexer.Mode.CarriesQuote

theorem create_genuine {lines : List UnicodeString} {cache : Cache}
    (h : create lines = .ok cache) : Genuine cache :=
  LexerCache.createFrom_genuine lexer_closed lexer_closed.1 h

theorem update_genuine {startLine endLine : Int} {lines : List UnicodeString} {old cache : Cache}
    (hold : Genuine old) (h : update startLine endLine lines old = .ok cache) : Genuine cache :=
  LexerCache.update_genuine lexer_closed hold h

theorem makeAllDefault_genuine (lines : List UnicodeString) : Genuine (makeAllDefault lines) :=
  LexerCache.makeAllDefault_genuine lexer_closed lines

/-- The lexemes of an entry against its text. -/
theorem length_le_of_genuine {e : Entry RLexer.Token RLexer.Mode}
    (h : e.Genuine lexer RLexer.Mode.CarriesQuote) :
    (RLexer.lexemes e.tokens).length ≤ e.text.length + 1 ∨
      ∃ us s, e.tokens = us ++ [.string s, .string s] := by
  obtain ⟨hstart, ⟨htokens, -⟩ | hlex⟩ := h
  · refine .inl ?_
    rw [htokens]
    simp [RLexer.lexemes, lexer, RLexer.lexAsDefault, RLexer.tokenToLexeme]
  · obtain ⟨cs, hcs, hl⟩ := RLexer.lexLine_lexes hlex
    rw [← Utf8.encode_of_decode hcs]
    have : e.startMode.carried.length ≤ 1 := hstart
    exact hl.length_le.imp_left fun hle => by omega

end RLexCache
end Raoui
