import Raoui.Lexer.Cache

/-!
# Raoui.Lexer.Incremental

`update` lexes again only what a change can have reached, and ends with the cache that `create` would
build. Before the change it reuses the entries, whose modes thread as in the old document; past the
change it stops once both documents are lexed from the initial mode on, since a document is lexed
from its texts alone.
-/

namespace Raoui

namespace LexerCache

variable {Token Mode : Type}

theorem createFrom_congr (l : Lexer Token Mode) {mode : Mode} {old new : List UnicodeString}
    (h : new.map UnicodeString.toBytes = old.map UnicodeString.toBytes) :
    createFrom l mode new = createFrom l mode old := by
  induction new generalizing old mode with
  | nil =>
    rw [List.map_eq_nil_iff.mp h.symm]
  | cons line rest ih =>
    cases old with
    | nil => cases h
    | cons line' rest' =>
      simp only [List.map_cons, List.cons.injEq] at h
      have hentry : lexEntry l mode line = lexEntry l mode line' := by
        unfold lexEntry
        rw [h.1]
      unfold createFrom
      rw [hentry]
      congr 1
      funext entry
      rw [ih h.2]

/-- The two documents have the same texts outside a range, the first line counted as line `i`. -/
def AgreeOutside (startLine endLine i : Int) (old new : List UnicodeString) : Prop :=
  new.length = old.length ∧ ∀ k : Nat, i + k < startLine ∨ endLine < i + k →
    (new.map UnicodeString.toBytes)[k]? = (old.map UnicodeString.toBytes)[k]?

theorem AgreeOutside.tail {startLine endLine i : Int} {line line' : UnicodeString}
    {old new : List UnicodeString}
    (h : AgreeOutside startLine endLine i (line' :: old) (line :: new)) :
    AgreeOutside startLine endLine (i + 1) old new := by
  obtain ⟨hlen, hsame⟩ := h
  refine ⟨by simpa using hlen, fun k hk => ?_⟩
  have := hsame (k + 1) (by push_cast; omega)
  simpa using this

theorem AgreeOutside.head {startLine endLine i : Int} {line line' : UnicodeString}
    {old new : List UnicodeString}
    (h : AgreeOutside startLine endLine i (line' :: old) (line :: new))
    (hi : i < startLine ∨ endLine < i) : line.toBytes = line'.toBytes := by
  have := h.2 0 (by simpa using hi)
  simpa using this

/-- Past the range the documents agree from here on. -/
theorem AgreeOutside.rest {startLine endLine i : Int} {old new : List UnicodeString}
    (h : AgreeOutside startLine endLine i old new) (hi : endLine < i) :
    new.map UnicodeString.toBytes = old.map UnicodeString.toBytes :=
  List.ext_getElem? fun k => h.2 k (.inr (by omega))

/-- The loop of `update` on the rest of the old cache, which was lexed from `oldMode` on; the modes
are the same until the range is entered. -/
theorem updateFrom_eq_createFrom [DecidableEq Mode] (l : Lexer Token Mode) {startLine endLine : Int}
    {i : Int} {mode oldMode : Mode} {old new : List UnicodeString} {cache : Cache Token Mode}
    (hcache : createFrom l oldMode old = .ok cache)
    (hagree : AgreeOutside startLine endLine i old new) (hmode : i ≤ startLine → mode = oldMode) :
    updateFrom l startLine endLine i mode new cache = createFrom l mode new := by
  induction new generalizing i mode oldMode old cache with
  | nil => rfl
  | cons line rest ih =>
    cases old with
    | nil => cases hagree.1
    | cons line' rest' =>
      obtain ⟨tokens, endMode, cache', hlex, hrest, rfl⟩ := createFrom_cons_iff.mp hcache
      have htail := hagree.tail
      have hrelex : startLine ≤ i → (do
          let entry ← lexEntry l mode line
          return entry :: (← updateFrom l startLine endLine (i + 1) entry.endMode rest cache')) =
            createFrom l mode (line :: rest) := by
        intro hi
        unfold createFrom
        congr 1
        funext entry
        rw [ih hrest htail fun hlt => absurd hlt (by omega)]
      unfold updateFrom
      dsimp only
      split
      · rename_i hbefore
        have htext := hagree.head (.inl hbefore)
        have hentry : lexEntry l mode line = .ok ⟨line'.toBytes, tokens, oldMode, endMode⟩ := by
          unfold lexEntry
          dsimp only
          rw [hmode (by omega), htext, hlex]
          rfl
        rw [ih hrest htail fun _ => rfl]
        show _ = (do
          let entry ← lexEntry l mode line
          return entry :: (← createFrom l entry.endMode rest))
        rw [hentry]
        rfl
      · rename_i hbefore
        have hi : startLine ≤ i := by omega
        split
        · rename_i hpast
          split
          · rename_i hstart
            rw [hpast.2, createFrom_congr l (hagree.rest hpast.1), ← hstart]
            exact hcache.symm
          · exact hrelex hi
        · exact hrelex hi

theorem createFrom_length {l : Lexer Token Mode} {mode : Mode} {lines : List UnicodeString}
    {cache : Cache Token Mode} (h : createFrom l mode lines = .ok cache) :
    cache.length = lines.length := by
  induction lines generalizing mode cache with
  | nil =>
    cases h
    rfl
  | cons line rest ih =>
    obtain ⟨tokens, m, cache', -, hrest, rfl⟩ := createFrom_cons_iff.mp h
    simp [ih hrest]

/-- Updating the cache of a document for the lines that have changed, or for any lines when their
number has, gives the cache of the new document. -/
theorem update_eq_create [DecidableEq Mode] (l : Lexer Token Mode) {old new : List UnicodeString}
    {cache : Cache Token Mode} (hcache : create l old = .ok cache) (startLine endLine : Int)
    (hsame : new.length = old.length → ∀ k : Nat, (k : Int) < startLine ∨ endLine < k →
      (new.map UnicodeString.toBytes)[k]? = (old.map UnicodeString.toBytes)[k]?) :
    update l startLine endLine new cache = create l new := by
  unfold update
  split
  · rfl
  · rename_i hlen
    have hlen : new.length = old.length := by
      rw [← createFrom_length hcache]
      exact not_not.mp hlen
    refine updateFrom_eq_createFrom l hcache ⟨hlen, fun k hk => ?_⟩ fun _ => rfl
    exact hsame hlen k (by simpa using hk)

/-- A lexer with a mode that a line `"` switches. -/
def quoteLexer : Lexer Bytes Bool where
  initialMode := false
  lexLine mode text := .ok ([text], if text = bytes "\"" then !mode else mode)
  lexAsDefault text := text

def asciiLine (c : UInt8) : UnicodeString := ⟨[c], [0], [1]⟩

/-- Closing a quote on the middle of three lines takes the third back to the initial mode. -/
theorem update_eq_create_closed :
    update quoteLexer 1 1 [asciiLine 34, asciiLine 34, asciiLine 120]
        [⟨[34], [[34]], false, true⟩, ⟨[97], [[97]], true, true⟩, ⟨[120], [[120]], true, true⟩] =
      create quoteLexer [asciiLine 34, asciiLine 34, asciiLine 120] := by
  have hcache : create quoteLexer [asciiLine 34, asciiLine 97, asciiLine 120] = .ok _ := rfl
  refine update_eq_create quoteLexer hcache 1 1 fun _ k hk => ?_
  match k with
  | 0 => rfl
  | 1 => omega
  | 2 => rfl
  | k + 3 => rfl

end LexerCache
end Raoui
