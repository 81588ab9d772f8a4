import Raoui.Editor.Modes
import Raoui.Lexer.Settled

/-!
# Raoui.Editor.ShellLiteral

The R command of a shell line carries the line as one raw string.

* `safeGuard_spec`: the search for a guard ends at the first one whose closing sequence the text
  does not contain.
* `lexLine_shellCommand`: the command's tokens are fixed but for the raw string, which is the text
  between its delimiters.
-/

namespace Raoui

theorem containsSubstring_iff (needle s : Bytes) :
    containsSubstring needle s = true ↔ needle <:+: s := by
  induction s with
  | nil => simp [containsSubstring]
  | cons c s ih =>
    rw [containsSubstring, Bool.or_eq_true, List.isPrefixOf_iff_prefix, ih, List.infix_cons_iff]

namespace RLexer

open Utf8 (encode)

def Token.isRawString : Token → Bool
  | .string s => (bytes "r\"").isPrefixOf s || (bytes "R\"").isPrefixOf s
  | _ => false

/-! ## Reading a raw string -/

/-- A raw string ends where the text read first ends with the closing sequence. -/
theorem readRawStringLoop_closes {closingSeq : Bytes} (prev : Bytes) {u : List Char} {c : Char}
    {acc : List Bytes} (hends : closingSeq <:+ joined acc ++ encode (u ++ [c]))
    (hopen : ∀ w, w <+: u → w ≠ [] → ¬ closingSeq <:+ joined acc ++ encode w) (v : List Char) :
    readRawStringLoop closingSeq prev acc (u ++ c :: v) =
      (.string (prev ++ joined acc ++ encode (u ++ [c])), .normal, v) := by
  have htest (s : Bytes) : (closingSeq.length ≤ s.length ∧
      s.drop (s.length - closingSeq.length) = closingSeq) ↔ closingSeq <:+ s :=
    ⟨fun h => List.suffix_iff_eq_drop.mpr h.2.symm,
      fun h => ⟨h.length_le, (List.suffix_iff_eq_drop.mp h).symm⟩⟩
  induction u generalizing acc with
  | nil =>
    rw [List.nil_append] at hends ⊢
    rw [readRawStringLoop, joined_cons, if_pos ((htest _).mpr hends), List.append_assoc,
      List.nil_append]
  | cons d u ih =>
    have hd := hopen [d] ⟨u, rfl⟩ (List.cons_ne_nil _ _)
    have hcons (w : List Char) :
        joined (encode [d] :: acc) ++ encode w = joined acc ++ encode (d :: w) := by
      rw [joined_cons, List.append_assoc, ← Utf8.encode_append]
      rfl
    rw [List.cons_append, readRawStringLoop, joined_cons, if_neg (mt (htest _).mp hd),
      ih (by rw [hcons]; exact hends)]
    · rw [List.append_assoc, hcons, ← List.append_assoc]
      rfl
    · intro w hw hne
      rw [hcons]
      exact hopen (d :: w) (List.prefix_cons_inj d |>.mpr hw) (List.cons_ne_nil _ _)

theorem getDelim_dashes (rawPrefix : Bytes) (acc : List Bytes) (n : Nat) (cs : List Char) :
    getDelim rawPrefix acc (List.replicate n '-' ++ '(' :: cs) =
      .ok (readRawString (bytes ")" ++ (joined acc ++ List.replicate n 45) ++ bytes "\"")
        (rawPrefix ++ (joined acc ++ List.replicate n 45) ++ bytes "(") cs) := by
  induction n generalizing acc with
  | zero =>
    rw [List.replicate_zero, List.nil_append, getDelim, if_pos (by decide), List.replicate_zero,
      List.append_nil]
    rfl
  | succ n ih =>
    have hjoined : joined (encode ['-'] :: acc) ++ List.replicate n 45 =
        joined acc ++ List.replicate (n + 1) 45 := by
      rw [joined_cons, List.append_assoc, List.replicate_succ]
      rfl
    rw [List.replicate_succ, List.cons_append, getDelim, if_neg (by decide), ih, hjoined]

end RLexer

namespace ShellMode

/-- The bytes that close a raw string whose guard has `n` dashes. -/
def closing (n : Nat) : Bytes := bytes ")" ++ List.replicate n 45 ++ bytes "\""

/-- `n` is the first number of dashes from one on that does not close the raw string early. -/
structure IsSafe (text : Bytes) (n : Nat) : Prop where
  pos : 1 ≤ n
  absent : ¬ closing n <:+: text
  least : ∀ k, 1 ≤ k → k < n → closing k <:+: text

theorem safeGuard_spec (text : Bytes) :
    ∃ n, IsSafe text n ∧ safeGuard text text.length 1 = List.replicate n 45 := by
  have key (fuel : Nat) : ∀ k, 1 ≤ k → text.length < fuel + k →
      (∀ j, 1 ≤ j → j < k → closing j <:+: text) →
      ∃ n, IsSafe text n ∧ safeGuard text fuel k = List.replicate n 45 := by
    induction fuel with
    | zero =>
      intro k hk hlen hleast
      refine ⟨k, ⟨hk, fun h => ?_, hleast⟩, rfl⟩
      have := h.length_le
      simp only [closing, List.length_append, List.length_replicate] at this
      omega
    | succ fuel ih =>
      intro k hk hlen hleast
      rw [safeGuard]
      split
      · rename_i hfound
        refine ih (k + 1) (by omega) (by omega) fun j hj hlt => ?_
        by_cases hjk : j = k
        · rw [hjk]
          exact (containsSubstring_iff _ _).mp hfound
        · exact hleast j hj (by omega)
      · rename_i hfound
        exact ⟨k, ⟨hk, fun h => hfound ((containsSubstring_iff _ _).mpr h), hleast⟩, rfl⟩
  exact key text.length 1 (Nat.le_refl 1) (by omega) fun j hj hlt => absurd hj (by omega)

open RLexer Utf8

/-- The closing sequence ends nowhere in front of its own end. -/
theorem closing_absent {cs w : List Char} {n : Nat} (hsafe : ¬ closing n <:+: encode cs)
    (hw : w <+: cs ++ ')' :: List.replicate n '-') : ¬ closing n <:+ encode w := by
  intro hends
  have hshort : ¬ w <+: cs := by
    rintro ⟨t, rfl⟩
    rw [encode_append] at hsafe
    exact hsafe (hends.isInfix.trans (List.prefix_append _ _).isInfix)
  obtain h | ⟨t, rfl⟩ := List.prefix_or_prefix_of_prefix hw (List.prefix_append cs _)
  · exact hshort h
  · have ht : t <+: ')' :: List.replicate n '-' := (List.prefix_append_right_inj cs).mp hw
    obtain rfl | ⟨t, c, rfl⟩ := List.eq_nil_or_concat' t
    · rw [List.append_nil] at hshort
      exact hshort List.prefix_rfl
    · have hc : c = ')' ∨ c = '-' := by
        have hmem := ht.subset (List.mem_append_right t (List.mem_singleton_self c))
        exact (List.mem_cons.mp hmem).imp id List.eq_of_mem_replicate
      obtain ⟨p, hp⟩ := hends
      rw [closing, ← List.append_assoc, ← List.append_assoc cs, encode_append] at hp
      obtain rfl | rfl := hc
      · exact absurd (List.append_inj_right' hp rfl) (by decide)
      · exact absurd (List.append_inj_right' hp rfl) (by decide)

theorem encode_closing (n : Nat) : encode (')' :: (List.replicate n '-' ++ ['"'])) = closing n := by
  rw [closing, encode_cons, encode_append, encode_replicate (b := 45) (by decide), List.append_assoc]
  rfl

theorem readRawString_closing {cs : List Char} {n : Nat} (hsafe : ¬ closing n <:+: encode cs)
    (prev : Bytes) (v : List Char) :
    readRawString (closing n) prev (cs ++ ')' :: (List.replicate n '-' ++ '"' :: v)) =
      (.string (prev ++ encode cs ++ closing n), .normal, v) := by
  have hencode : encode (cs ++ ')' :: List.replicate n '-' ++ ['"']) = encode cs ++ closing n := by
    rw [List.append_assoc, List.cons_append, encode_append, encode_closing]
  have hread := readRawStringLoop_closes prev
    (show closing n <:+ joined [] ++ encode (cs ++ ')' :: List.replicate n '-' ++ ['"']) from
      ⟨encode cs, by rw [hencode]; rfl⟩)
    (fun w hw _ => closing_absent hsafe hw) v
  rw [hencode, joined_nil, List.append_nil, List.append_assoc, List.cons_append,
    ← List.append_assoc] at hread
  exact hread

/-! ## The command -/

/-- The raw string around `text` whose guard has `n` dashes. -/
def literal (n : Nat) (text : Bytes) : Bytes :=
  bytes "r\"" ++ List.replicate n 45 ++ bytes "(" ++ text ++ closing n

/-- The R code in front of the raw string and behind it. -/
def opening : List Char :=
  ("local(\x7b s <- Sys.getenv(\"SHELL\"); if (!nzchar(s)) s <- \"/bin/sh\"; " ++
    "a <- if (basename(s) == \"fish\") c(\"--no-config\", \"-c\") else \"-c\"; " ++
    "system2(s, c(a, shQuote(").toList

def ending : List Char := "))) \x7d)".toList

/-- No raw string, and far from the lexer's bound on the number of tokens. -/
def isPlainCode (ts : List Token) : Bool := ts.length ≤ 100 && ts.all fun t => !t.isRawString

theorem settled_opening : ∃ before,
    settled ['r', '"'] 100 (opening ++ ['r', '"']) = some before ∧ isPlainCode before = true := by
  rw [← Option.any_eq_true]
  decide +kernel

def endingTokens : List Token :=
  [.rightParen, .rightParen, .rightParen, .whitespace (bytes " "), .rightBrace, .rightParen]

theorem shellCommand_encode (cs : List Char) {n : Nat}
    (hn : safeGuard (encode cs) (encode cs).length 1 = List.replicate n 45) :
    shellCommand (encode cs) = encode (opening ++ 'r' :: '"' :: (List.replicate n '-' ++ '(' ::
      (cs ++ ')' :: (List.replicate n '-' ++ '"' :: ending)))) := by
  have hopening : encode (opening ++ ['r', '"']) =
      bytes "local(\x7b s <- Sys.getenv(\"SHELL\"); if (!nzchar(s)) s <- \"/bin/sh\"; " ++
      bytes "a <- if (basename(s) == \"fish\") c(\"--no-config\", \"-c\") else \"-c\"; " ++
      bytes "system2(s, c(a, shQuote(r\"" := by decide +kernel
  have hending : encode ('"' :: ending) = bytes "\"))) \x7d)" := by decide +kernel
  have hguard : encode (List.replicate n '-') = List.replicate n 45 :=
    encode_replicate (by decide) n
  have hparen : encode ['('] = bytes "(" ∧ encode [')'] = bytes ")" := by decide
  have hsplit : opening ++ 'r' :: '"' :: (List.replicate n '-' ++ '(' ::
      (cs ++ ')' :: (List.replicate n '-' ++ '"' :: ending))) =
      (opening ++ ['r', '"']) ++ List.replicate n '-' ++ ['('] ++ cs ++ [')'] ++
        List.replicate n '-' ++ '"' :: ending := by
    simp only [List.append_assoc, List.cons_append, List.nil_append]
  rw [hsplit]
  simp only [encode_append _ ('"' :: ending), encode_append _ (List.replicate n '-'),
    encode_append _ cs, encode_append _ ['('], encode_append _ [')']]
  rw [hopening, hguard, hending, hparen.1, hparen.2, shellCommand, hn]

section
variable [Ucd]

theorem lexes_rawString {cs : List Char} {n : Nat} (hsafe : IsSafe (encode cs) n) {v : List Char}
    {ts : List Token} {m : RLexer.Mode} (hv : Lexes .normal v ts m) :
    Lexes .normal ('r' :: '"' :: (List.replicate n '-' ++ '(' :: (cs ++
      ')' :: (List.replicate n '-' ++ '"' :: v)))) (.string (literal n (encode cs)) :: ts) m := by
  have hread := getDelim_dashes (encode ['r', '"']) [] n
    (cs ++ ')' :: (List.replicate n '-' ++ '"' :: v))
  rw [joined_nil, List.nil_append] at hread
  refine .next (t := .string _) ?_ (fun h => by cases h) hv
  rw [token, readNormal_of_choose (choose_rawStart (.inl rfl) _) (List.cons_ne_nil _ _)]
  refine hread.trans (congrArg Except.ok ?_)
  exact readRawString_closing hsafe.absent _ v

theorem lexes_opening {before : List Token}
    (h : settled ['r', '"'] 100 (opening ++ ['r', '"']) = some before) {v : List Char}
    {ts : List Token} {m : RLexer.Mode} (hv : Lexes .normal ('r' :: '"' :: v) ts m) :
    Lexes .normal (opening ++ 'r' :: '"' :: v) (before ++ ts) m := by
  have hlexes := settled_spec (show Lexes .normal (['r', '"'] ++ v) ts m from hv) h
  rw [List.append_assoc] at hlexes
  exact hlexes

theorem lexes_ending : Lexes .normal ending endingTokens .normal := by
  have hlast : Lexes .normal ([')'] ++ []) [.rightParen] .normal :=
    .next (t := .rightParen) rfl (fun h => by cases h) (.eof rfl)
  have hsettled : settled [')'] 10 ending = some (endingTokens.take 5) := by decide +kernel
  have hlexes := settled_spec hlast hsettled
  rw [List.append_nil] at hlexes
  exact hlexes

/-- The command is fixed R code around one raw string, which holds the text as it is. -/
theorem lexLine_shellCommand :
    ∃ before after : List Token, (∀ t ∈ before ++ after, t.isRawString = false) ∧
      ∀ cs : List Char, ∃ n, IsSafe (encode cs) n ∧
        lexLine .normal (shellCommand (encode cs)) =
          .ok (before ++ .string (literal n (encode cs)) :: after, .normal) := by
  obtain ⟨before, hbefore, hplain⟩ := settled_opening
  simp only [isPlainCode, Bool.and_eq_true, decide_eq_true_eq, List.all_eq_true,
    Bool.not_eq_true'] at hplain
  have hending : ∀ t ∈ endingTokens, t.isRawString = false := by decide
  refine ⟨before, endingTokens, fun t ht => ?_, fun cs => ?_⟩
  · obtain ht | ht := List.mem_append.mp ht
    · exact hplain.2 t ht
    · exact hending t ht
  · obtain ⟨n, hsafe, hguard⟩ := safeGuard_spec (encode cs)
    refine ⟨n, hsafe, ?_⟩
    rw [shellCommand_encode cs hguard, lexLine, decode_encode]
    have hlexes := lexes_opening hbefore (lexes_rawString hsafe lexes_ending)
    refine (lexLoop_eq hlexes 1002 [] (by simp)).1 ?_
    have hending : endingTokens.length = 6 := rfl
    simp only [List.length_append, List.length_cons, List.length_nil, hending]
    omega

end

end ShellMode
end Raoui
